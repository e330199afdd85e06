import KeepTree.Proofs.Durable.Snapshots
import KeepTree.Proofs.Durable.Workspaces
import KeepTree.Proofs.Evaluation.Watched

/-!
# Warm starts

A snapshot holds the values of durable tables by name, without the arguments they were computed for.
An engine that restores it has every value under the definition of that name, as if computed without
arguments. So a value may be served for a binding that it was not computed for
(`warm_start_forgets_arguments`), but never for another definition:

* `Workspace.warm_start_serves_computed` -- **what a warm engine serves for a definition was computed
  for that definition**, and the engine that computed it serves it under its arguments.
-/

namespace KeepTree

open Session

variable {e e' : Engine} {ns : Namespace} {snapshot : Snapshot} {value : Value} {id site : DefId}
  {d : Definition} {t : TableId} {holder : Holder} {bound : Bound} {previous : Option Frame}
  {root : Nat} {arguments : List Argument}

/-! ## 1. Restored engines -/

namespace Engine

/-- All values come from a snapshot: each is that of the definition its key means, and has lost the
    arguments it was computed for. -/
structure Restored (ns : Namespace) (snapshot : Snapshot) (e : Engine) : Prop
    extends e.Direct ns where
  values : ∀ {t key entry}, e.store.get? t key = some entry → ∃ x value,
    entry = .holder (.of x [] (some value)) ∧ ns.lookup key = .ok (some x) ∧
      snapshot.values.get? key = some value

theorem new_restored (ns : Namespace) (limits : Limits) (snapshot : Snapshot) :
    (Engine.new ns limits).Restored ns snapshot where
  toDirect := new_direct ns limits
  values := fun {t key entry} h => by
    have hnone : (Engine.new ns limits).store.get? t key = none := by cases t <;> rfl
    cases hnone.symm.trans h

theorem Restored.spread (h : e.Restored ns snapshot) (hdir : e'.Direct ns)
    (hlarger : e.store.Larger e'.store) : e'.Restored ns snapshot :=
  ⟨hdir, fun hget => h.values (hlarger.get?_of_some hget)⟩

theorem Restored.restoreValue (h : e.Restored ns snapshot) {name : String} {x : DefId}
    (hname : ns.lookup name = .ok (some x)) (hval : snapshot.values.get? name = some value)
    (hrestore : e.restoreValue name value = .ok e') : e'.Restored ns snapshot := by
  have hfd : e.ns.lookup name = .ok (some x) := h.ns_eq.symm ▸ hname
  rcases restoreValue_ok hrestore with ⟨hnone, _⟩ | ⟨id, d, hid, rfl⟩
  · cases hfd.symm.trans hnone
  cases Except.ok.inj (hfd.symm.trans hid)
  obtain ⟨hgrown, _⟩ := durableTable_grows e d
  have hspread := h.spread (h.toDirect.grow hgrown) hgrown.larger
  refine ⟨hspread.toDirect.set _ _ nofun, fun hget => ?_⟩
  rcases Store.get?_set (l := ⟨(e.durableTable d).1, name⟩) hget with ⟨hslot, rfl⟩ | hold
  · obtain ⟨_, rfl⟩ := Location.mk.inj hslot
    exact ⟨x, value, rfl, hname, hval⟩
  · exact hspread.values hold

/-- **A new engine that restores a snapshot has its values only**, if all names are those of
    definitions. -/
theorem restore_restored (ns : Namespace) (limits : Limits) (snapshot : Snapshot)
    (hnames : ∀ name value, snapshot.values.get? name = some value →
      ∃ x, ns.lookup name = .ok (some x)) :
    ((Engine.new ns limits).restore snapshot).2.Restored ns snapshot := by
  refine restore_preserves snapshot (fun {_ _ name value} hmem h hrestore => ?_)
    (new_restored ns limits snapshot)
  have hval := Dictionary.get?_of_mem hmem
  obtain ⟨x, hname⟩ := hnames name value hval
  exact h.restoreValue hname hval hrestore

end Engine

/-! ## 2. What is found -/

namespace Session

variable {s : Session} {r : Request}

/-- The entry that an entry to try leads to. -/
def led (s : Session) : Entry × Option Nat → Option Entry
  | (.pointer p, iter) => (s.store.follow iter s.limits.maxPointerHops p).toOption.bind (·.1)
  | (entry, _) => some entry

/-- The entry is one that may answer the request. -/
def Reaches (s : Session) (r : Request) (entry : Entry) : Prop :=
  ∃ frame, s.topFrame? = some frame ∧ ∃ candidate ∈ s.candidates r frame, s.led candidate = some entry

theorem resolve_led {origin : DefId} {entry : Entry} {iter : Option Nat}
    (h : (s.resolve origin r entry iter).1 = .ok (some value)) :
    ∃ found, s.led (entry, iter) = some found ∧ yields s.ns origin r found = some value := by
  cases entry with
  | pointer p =>
    simp only [resolve] at h
    split at h
    · rename_i found hops hfollow
      exact ⟨found, by simp [led, hfollow, Except.toOption], Except.ok.inj h⟩
    · cases h
    · cases h
  | _ => exact ⟨_, rfl, Except.ok.inj h⟩

theorem search_led {origin : DefId} : ∀ entries : List (Entry × Option Nat),
    (s.search origin r entries).1 = .ok (some value) → ∃ candidate ∈ entries, ∃ found,
      s.led candidate = some found ∧ yields s.ns origin r found = some value
  | [], h => by simp [search] at h
  | (entry, iter) :: rest, h => by
    unfold search at h
    split at h
    · obtain ⟨candidate, hmem, hled⟩ := search_led rest h
      exact ⟨candidate, List.mem_cons_of_mem _ hmem, hled⟩
    · exact ⟨_, List.mem_cons_self, resolve_led h⟩

/-- **A value that is found is what an entry that may answer yields.** -/
theorem find_reaches (h : (s.find r).1 = .ok (some value)) : ∃ frame, s.topFrame? = some frame ∧
    ∃ found, s.Reaches r found ∧ yields s.ns frame.definition r found = some value := by
  cases hfr : s.topFrame? with
  | none =>
    rw [find_of_no_top hfr] at h
    split at h <;> cases h
  | some frame =>
    rw [find_of_top hfr] at h
    refine ⟨frame, rfl, ?_⟩
    split at h
    · unfold searchEnding at h
      cases hending : (reached s.ns frame.definition r s.frames).2 with
      | error gap => simp [hending, Fault.ofWalk, Except.map] at h
      | ok _ => simp [hending, Fault.ofWalk, Except.map] at h
    · obtain ⟨candidate, hmem, found, hled, hyields⟩ := search_led _ h
      exact ⟨found, ⟨frame, hfr, candidate, hmem, hled⟩, hyields⟩

theorem candidates_stored (s : Session) (r : Request) (frame : Frame) :
    ∀ candidate ∈ s.candidates r frame, (∃ p, candidate.1 = .pointer p) ∨
      ∃ t key, s.store.get? t key = some candidate.1 := by
  intro candidate hmem
  rcases List.mem_append.mp hmem with hmem | hmem
  · unfold durableCandidates at hmem
    split at hmem
    · cases hmem
    · obtain ⟨t, _, hmem⟩ := List.mem_filterMap.mp hmem
      obtain ⟨entry, hget, rfl⟩ := Option.map_eq_some_iff.mp hmem
      exact .inr ⟨t, _, hget⟩
  · obtain ⟨other, _, hmem⟩ := List.mem_filterMap.mp hmem
    obtain ⟨entry, hent, rfl⟩ := Option.map_eq_some_iff.mp hmem
    unfold entryIn at hent
    split at hent
    · rename_i cached hcached
      cases hent
      exact .inr ⟨_, _, hcached⟩
    · obtain ⟨p, _, rfl⟩ := Option.map_eq_some_iff.mp hent
      exact .inl ⟨p, rfl⟩

theorem Reaches.stored {found : Entry} (h : s.Reaches r found) :
    ∃ t key, s.store.get? t key = some found := by
  obtain ⟨frame, _, ⟨entry, iter⟩, hmem, hled⟩ := h
  have hstored := candidates_stored s r frame _ hmem
  cases entry with
  | pointer p =>
    simp only [led, Store.follow] at hled
    cases hchase : s.store.chase iter s.limits.maxPointerHops p with
    | error next => simp [hchase, Except.toOption] at hled
    | ok reached =>
      have hat : s.store.at? (reached.1.location iter) = some found := by
        simpa [hchase, Except.toOption] using hled
      exact ⟨_, _, hat⟩
  | _ =>
    obtain ⟨p, hptr⟩ | hstored := hstored
    · cases hptr
    · cases hled
      exact hstored

/-- What stands in the place of a durable definition is found first. -/
theorem find_durable {frame : Frame} (hfr : s.topFrame? = some frame)
    (hiter : frame.iteration = none) (hd : s.ns.get? id = some d) (hglob : d.isGlobal = true)
    (hdef : r.definition = some id) (hkey : r.globalKey = some d.fullName)
    (hhome : s.engine.home? d = some t) (hget : s.store.get? t d.fullName = some (.holder holder))
    (hsees : sees s.ns frame.definition holder = true) (hmatches : r.matches? holder = true)
    (hdata : holder.data = some value) : (s.find r).1 = .ok (some value) := by
  have hown : ∃ rest, s.durableTables r frame = t :: rest := by
    refine ⟨frame.siteTable.toList ++ [s.engine.global], ?_⟩
    simp only [durableTables, hdef, Option.bind_some, hd, hglob, if_true]
    show (s.engine.home? d).toList ++ frame.siteTable.toList ++ [s.engine.global] = _
    rw [hhome]
    rfl
  obtain ⟨rest, hown⟩ := hown
  have hcands : ∃ more, s.candidates r frame = (.holder holder, none) :: more := by
    simp [candidates, durableCandidates, hkey, hown, Frame.slotKey, hiter, DottedName.inLoop, hget]
  obtain ⟨more, hcands⟩ := hcands
  have hrsv : s.resolve frame.definition r (.holder holder) none = (.ok (some value), 0) := by
    simp [resolve, yields, hsees, hmatches, hdata]
  simp only [find_of_top hfr, hcands, search, hrsv]

end Session

/-! ## 3. A single frame -/

/-- Empty tables come, and pointers, but nothing is written. -/
def Upkeep.spreading (ns : Namespace) : Upkeep where
  engine := Engine.Direct ns
  growth e e' := e.Extends e' ∧ e.store.Larger e'.store

theorem Upkeep.spreading_pushable (ns : Namespace) : (spreading ns).Pushable ns where
  direct he := he
  refl e := ⟨.refl e, .refl _⟩
  trans h h' := ⟨h.1.trans h'.1, h.2.trans h'.2⟩
  grow he hg := ⟨he.grow hg, hg.toExtends, hg.larger⟩
  fresh_table _ _ _ _ _ _ := ⟨fun _ => trivial, trivial⟩
  fresh_keeps _ _ _ _ := ⟨trivial, fun _ _ _ _ => trivial⟩
  point := fun {e _ _ p} k name he _ _ _ _ _ _ =>
    have hlarger := e.store.keep_larger k name p
    ⟨he.keep k name p, Engine.withStore_extends hlarger.size_le, hlarger⟩

/-! ## 4. Warm starts -/

/-- Every durable definition is found under its full name. -/
def Namespace.Addressed (ns : Namespace) : Prop :=
  ∀ id d, ns.get? id = some d → d.isGlobal = true → ns.lookup d.fullName = .ok (some id)

/-- The request for the value of a durable definition. -/
def Definition.request (d : Definition) (id : DefId) (arguments : List Argument) : Request :=
  { key := d.name, globalKey := some d.fullName, definition := some id
    arguments := some arguments }

namespace Engine

/-- A new stack over an engine. -/
def emptyStack (e : Engine) (root : Nat) : Session := ⟨e, .new root e.limits, {}⟩

/-- A new stack over an engine, with a frame for a definition. -/
def single (e : Engine) (root : Nat) (site : DefId) : Session :=
  ((e.emptyStack root).push site [] true).2

/-- What is found for a definition and arguments from a stack with a single frame. -/
def served (e : Engine) (root : Nat) (site id : DefId) (arguments : List Argument) :
    Except Fault (Option Value) :=
  match e.ns.get? id with
  | some d => ((e.single root site).lookup (d.request id arguments)).1
  | none => .ok none

theorem emptyStack_fit (e : Engine) (root : Nat) : (e.emptyStack root).Fit e.ns [] where
  ns_eq := rfl
  sound := Family.sound_new root e.limits
  held id frame h := by simp [emptyStack, Family.new, frame?, Pool.get?] at h

theorem preparePush_congr (root root' : Nat) (hns : e'.ns = e.ns) (hlim : e'.limits = e.limits)
    (site : DefId) : (e'.emptyStack root').preparePush site [] =
      (e.emptyStack root).preparePush site [] := by
  simp only [preparePush, Session.limits, Session.ns, emptyStack, hns, hlim]
  rfl

theorem single_eq (root : Nat)
    (h : (e.emptyStack root).preparePush site [] = .ok (bound, d, previous)) :
    ∃ frame, (e.single root site).topFrame? = some frame ∧ frame.iteration = none ∧
      frame.definition = bound.definition ∧
      (e.Direct ns → (e.single root site).engine.Direct ns ∧ e.Extends (e.single root site).engine ∧
        e.store.Larger (e.single root site).engine.store) := by
  have hfit := emptyStack_fit e root
  obtain ⟨_, hd, _, hprev, _⟩ := preparePush_ok h
  have hnone : (e.emptyStack root).topFrame? = none := rfl
  subst hprev
  obtain ⟨_, hfresh, hdef, _⟩ := frameFor_effect (e.emptyStack root) bound d none true
  have hsingle : e.single root site = (e.emptyStack root).enter
      ((e.emptyStack root).frameFor bound d none true).2.1
      ((e.emptyStack root).frameFor bound d none true).2.2 := by
    rw [single, push, h]
    rfl
  rw [hsingle]
  obtain ⟨new, hnew, _, hfr⟩ := enter_top hfit.sound
    ((e.emptyStack root).frameFor bound d none true).2.1
    ((e.emptyStack root).frameFor bound d none true).2.2
  refine ⟨_, by rw [topFrame?, hnew]; exact hfr, hfresh.iteration_eq, hdef,
    fun hdir => ?_⟩
  have hmakes : (Upkeep.spreading ns).makes
      ((e.emptyStack root).frameFor bound d none true).2.1.keeps := trivial
  have htop : ∀ frame, (e.emptyStack root).topFrame? = some frame →
      (Upkeep.spreading ns).Housed (e.emptyStack root).engine frame := by
    intro frame hfr
    cases hfr
  obtain ⟨hdir', hgr, _⟩ := frameFor_upheld (s := e.emptyStack root)
    (Upkeep.spreading_pushable ns) hdir htop hd (fun _ _ _ _ _ => trivial) hmakes
  have hcounted := count_grows ((e.emptyStack root).frameFor bound d none true).2.2
    (·.push 1 ((e.emptyStack root).family.pool.alloc
      ((e.emptyStack root).frameFor bound d none true).2.1).1.recycled)
  exact ⟨hdir'.grow hcounted, hgr.1.trans hcounted.toExtends, hgr.2.trans hcounted.larger⟩

theorem preparePush_of_served (h : e.served root site id arguments = .ok (some value)) :
    ∃ d bound found previous, e.ns.get? id = some d ∧
      (e.emptyStack root).preparePush site [] = .ok (bound, found, previous) ∧
      ((e.single root site).find (d.request id arguments)).1 = .ok (some value) := by
  unfold served at h
  split at h
  · rename_i d hd
    rw [lookup_result] at h
    cases hprep : (e.emptyStack root).preparePush site [] with
    | error fault =>
      have hsingle : e.single root site = e.emptyStack root := by
        rw [single, push, hprep]
      rw [hsingle] at h
      cases h
    | ok prepared => exact ⟨d, prepared.1, prepared.2.1, prepared.2.2, hd, rfl, h⟩
  · cases h

/-- What a restored engine serves for a definition is the value of a name of that definition, and
    it is served if no arguments are asked for. -/
theorem Restored.of_served (h : e.Restored ns snapshot)
    (hserved : e.served root site id arguments = .ok (some value)) :
    sameArguments [] arguments = true ∧
      (∃ bound found previous,
        (e.emptyStack root).preparePush site [] = .ok (bound, found, previous) ∧
        sees ns bound.definition (.of id [] (some value)) = true) ∧
      ∃ key, ns.lookup key = .ok (some id) ∧ snapshot.values.get? key = some value := by
  obtain ⟨d, bound, found, previous, hd, hprep, hfind⟩ := preparePush_of_served hserved
  obtain ⟨frame, hfr, _, hdef, hspread⟩ := single_eq root hprep
  obtain ⟨hdir, _, hlarger⟩ := hspread h.toDirect
  obtain ⟨top, htop, entry, hreaches, hyields⟩ := find_reaches hfind
  obtain ⟨t, key, hget⟩ := hreaches.stored
  cases htop.symm.trans hfr
  obtain ⟨x, kept, rfl, hlook, hkept⟩ := (h.spread hdir hlarger).values hget
  have hns : (e.single root site).ns = ns := hdir.ns_eq
  rw [yields, hdef, hns] at hyields
  split at hyields
  · rename_i hfits
    obtain ⟨hsees, hmatches⟩ := Bool.and_eq_true_iff.mp hfits
    obtain ⟨hnom, hsame⟩ := Bool.and_eq_true_iff.mp hmatches
    obtain rfl : x = id := beq_iff_eq.mp hnom
    obtain rfl : kept = value := Option.some.inj hyields
    exact ⟨hsame, ⟨bound, found, previous, hprep, hsees⟩, key, hlook, hkept⟩
  · cases hyields

/-- What stands in the place of a durable definition is served to those who see it and ask for the
    same arguments. -/
theorem served_of_holder (hdir : e.Direct ns) (hd : ns.get? id = some d)
    (hglob : d.isGlobal = true) {found : Definition}
    (hprep : (e.emptyStack root).preparePush site [] = .ok (bound, found, previous))
    (hhome : e.home? d = some t) (hget : e.store.get? t d.fullName = some (.holder holder))
    (hsees : sees ns bound.definition holder = true)
    (hfits : holder.fits id arguments = true) (hdata : holder.data = some value) :
    e.served root site id arguments = .ok (some value) := by
  obtain ⟨frame, hfr, hiter, hdef, hspread⟩ := single_eq root hprep
  obtain ⟨hdir', hext, hlarger⟩ := hspread hdir
  have hns : (e.single root site).ns = ns := hdir'.ns_eq
  rw [served, hdir.ns_eq, hd]
  refine (lookup_result _ _).trans ?_
  refine find_durable hfr hiter (hns ▸ hd) hglob rfl rfl (hext.home? hhome)
    ((hlarger.get?_eq (Store.lt_of_get? hget)).trans hget) ?_ hfits hdata
  rw [hns, hdef]
  exact hsees

end Engine

/-- Where all values are filed, a value of the snapshot is that of the definition its name means. -/
theorem Engine.Filed.snapshot_get? {e : Engine} {ns : Namespace} {watch : DefId}
    (h : e.Filed ns watch) (haddressed : ns.Addressed) {key : String} {value : Value}
    (hval : e.snapshot.values.get? key = some value) :
    ∃ x d t holder, ns.get? x = some d ∧ d.isGlobal = true ∧ ns.lookup key = .ok (some x) ∧
      e.home? d = some t ∧ e.store.get? t d.fullName = some (.holder holder) ∧
      holder.data = some value ∧ (x = watch → holder.nominal = watch) := by
  obtain ⟨hloop, t, entry, hdur, hget, hown⟩ := Engine.snapshot_get? hval
  obtain ⟨holder, x, d, iter, rfl, hd, hglob, hkey, hhome, hnom⟩ := h.files hdur hget
  have hd : ns.get? x = some d := h.ns_eq ▸ hd
  cases iter with
  | some index =>
    have hmark : DottedName.isLoopKey key = true := by
      simp [hkey, DottedName.isLoopKey, DottedName.inLoop]
    cases hmark.symm.trans hloop
  | none =>
    have hkey : key = d.fullName := hkey
    exact ⟨x, d, t, holder, hd, hglob, hkey ▸ haddressed x d hd hglob, hhome, hkey ▸ hget, hown,
      hnom⟩

namespace Workspace

variable {limits : Limits} {w : Workspace}

/-- **What a warm engine serves for a definition was computed for that definition.** Take a workspace
    in which calls were evaluated, and a new engine that has restored its snapshot. Let a durable
    definition be kept by no definition, and let durable definitions be found under their full
    names. If the new engine serves a value for it, no arguments were asked for, and the value
    stands in the place of the definition in the workspace, computed for some arguments; the
    workspace serves it for these. -/
theorem warm_start_serves_computed (hw : Evaluated ns limits w) (haddressed : ns.Addressed)
    {id : DefId} {d : Definition} (hd : ns.get? id = some d) (hunkept : ns.Unkept id)
    {root site : Nat} {arguments : List Argument} {value : Value}
    (h : ((Engine.new ns limits).restore w.engine.snapshot).2.served root site id arguments =
      .ok (some value)) :
    sameArguments [] arguments = true ∧ ∃ t holder, w.engine.home? d = some t ∧
      w.engine.store.get? t d.fullName = some (.holder holder) ∧ holder.nominal = id ∧
      holder.data = some value ∧ ∀ root' computed,
        sameArguments holder.nominalArguments computed = true →
        w.engine.served root' site id computed = .ok (some value) := by
  have hlimits := hw.reachable.roster.numbered.limits_eq
  have hlimits : w.engine.limits = limits := hlimits
  have hfiled : w.engine.Filed ns id :=
    (hw.upheld (Upkeep.filing_open hunkept) (Engine.new_filed ns limits id)).engine
  have hsteady := Engine.restore_steady (.new ns limits) w.engine.snapshot
  have hrestored := Engine.restore_restored ns limits w.engine.snapshot
    fun name value hvalue => by
      obtain ⟨x, _, _, _, _, _, hlookup, _⟩ := hfiled.snapshot_get? haddressed hvalue
      exact ⟨x, hlookup⟩
  obtain ⟨harguments, ⟨bound, found, previous, hprepare, hsees⟩, key, hlookup, hvalue⟩ :=
    hrestored.of_served h
  -- the name means the definition, so the value was taken from the place of the definition
  obtain ⟨x, d', t, holder, hd', hglobal, hlookup', hhome, hget, hdata, hnominal⟩ :=
    hfiled.snapshot_get? haddressed hvalue
  obtain rfl : x = id := (Option.some.inj (Except.ok.inj (hlookup.symm.trans hlookup'))).symm
  obtain rfl : d' = d := Option.some.inj (hd'.symm.trans hd)
  have hnominal := hnominal rfl
  refine ⟨harguments, t, holder, hhome, hget, hnominal, hdata, fun root' computed hcomputed => ?_⟩
  have hprepare' : (w.engine.emptyStack root').preparePush site [] = .ok (bound, found, previous) :=
    (Engine.preparePush_congr root root' (hfiled.ns_eq.trans hrestored.ns_eq.symm)
      (hlimits.trans hsteady.limits_eq.symm) site).trans hprepare
  have hsees' : Session.sees ns bound.definition holder = true := by
    rw [Session.sees, hnominal]
    exact hsees
  refine Engine.served_of_holder hfiled.toDirect hd' hglobal hprepare' hhome hget hsees' ?_ hdata
  rw [Holder.fits, hnominal, hcomputed]
  simp

/-- A new workspace in which a call was evaluated on a site. -/
def after (ns : Namespace) (limits : Limits) (site : DefId) (call : Call) : Workspace :=
  let started := (Workspace.new ns limits).start "main"
  match started.session? "main" with
  | none => started
  | some s =>
    let onSite := (s.push site [] true).2
    match Run.evaluate ⟨onSite, {}⟩ call with
    | none => started.put "main" onSite
    | some (_, run) => (started.put "main" onSite).put "main" run.session

theorem after_evaluated (ns : Namespace) (limits : Limits) (site : DefId) (call : Call) :
    Evaluated ns limits (after ns limits site call) := by
  have hstarted : Evaluated ns limits ((Workspace.new ns limits).start "main") := .start "main" .new
  unfold after
  simp only
  split
  · exact hstarted
  · rename_i s hs
    have hpushed := hstarted.turn hs (.push site [] true)
    split
    · exact hpushed
    · rename_i out run hrun
      obtain ⟨_, hfam, _⟩ := hstarted.reachable.session hs
      have hroot := (push_effect s site [] true).kin.root_eq
      have hlt : (s.push site [] true).2.family.root <
          ((Workspace.new ns limits).start "main").families.size :=
        hroot ▸ (Array.getElem?_eq_some_iff.mp hfam).1
      exact hpushed.turn (session?_put hlt) (.evaluate hrun)

theorem eq_ok_of_toOption {ε α : Type} {x : Except ε α} {a : α} (h : x.toOption = some a) :
    x = .ok a := by
  cases x with
  | error fault => cases h
  | ok found => exact congrArg Except.ok (Option.some.inj h)

/-- A site with the soup of the day, and with a menu of one dish. -/
def kitchen : Namespace where
  definitions := #[
    { name := "site", fullName := "site", kind := .site, site := some 0
      children := (Dictionary.empty.insert "today" 1).insert "menu" 2 },
    { name := "today", fullName := "site.today", owner := some 0, site := some 0
      durability := .global, body := .literal (.text "soup") },
    { name := "menu", fullName := "site.menu", owner := some 0, site := some 0
      durability := .global, parameters := ["dish"], body := .ref (.plain "dish") }]
  roots := Dictionary.empty.insert "site" 0

theorem warm_start_serves_computed_today :
    Evaluated kitchen {} (after kitchen {} 0 (.plain "today")) ∧
      ((Engine.new kitchen {}).restore (after kitchen {} 0 (.plain "today")).engine.snapshot).2.served
        0 0 1 [] = .ok (some (.text "soup")) ∧
      (after kitchen {} 0 (.plain "today")).engine.served 0 0 1 [] = .ok (some (.text "soup")) := by
  have hevaluated := after_evaluated kitchen {} 0 (.plain "today")
  have hall : ∀ id d, kitchen.get? id = some d →
      d.keeps = [] ∧ (d.isGlobal = true → kitchen.lookup d.fullName = .ok (some id)) := by
    intro id d hd
    have hlt : id < 3 := Namespace.lt_of_get? hd
    match id, hlt with
    | 0, _ => cases hd; exact ⟨rfl, nofun⟩
    | 1, _ => cases hd; exact ⟨rfl, fun _ => eq_ok_of_toOption (by decide +kernel)⟩
    | 2, _ => cases hd; exact ⟨rfl, fun _ => eq_ok_of_toOption (by decide +kernel)⟩
  have hunkept : kitchen.Unkept 1 := by
    intro id d hd keep hmem
    rw [(hall id d hd).1] at hmem
    cases hmem
  have hwarm : ((Engine.new kitchen {}).restore
      (after kitchen {} 0 (.plain "today")).engine.snapshot).2.served 0 0 1 [] =
        .ok (some (.text "soup")) := eq_ok_of_toOption (by decide +kernel)
  -- the value was computed without arguments
  have hplain : ((after kitchen {} 0 (.plain "today")).engine.home? kitchen.definitions[1]).all
      (fun t => ((after kitchen {} 0 (.plain "today")).engine.store.get? t
          kitchen.definitions[1].fullName).all
        fun entry => match entry with
          | .holder holder => sameArguments holder.nominalArguments []
          | _ => true) = true := by decide +kernel
  obtain ⟨_, t, holder, hhome, hget, _, _, hserved⟩ := warm_start_serves_computed hevaluated
    (fun id d hd => (hall id d hd).2) rfl hunkept hwarm
  rw [hhome, Option.all_some, hget, Option.all_some] at hplain
  exact ⟨hevaluated, hwarm, hserved 0 [] hplain⟩

/-- **A warm start forgets arguments.** A menu computed for soup is not served without a dish, but
    after a warm start it is. -/
theorem warm_start_forgets_arguments :
    (after kitchen {} 0 ⟨"menu", [.value (.text "soup")]⟩).engine.served 0 0 2 [] = .ok none ∧
      ((Engine.new kitchen {}).restore
        (after kitchen {} 0 ⟨"menu", [.value (.text "soup")]⟩).engine.snapshot).2.served 0 0 2 [] =
          .ok (some (.text "soup")) :=
  ⟨eq_ok_of_toOption (by decide +kernel), eq_ok_of_toOption (by decide +kernel)⟩

end Workspace

end KeepTree
