import KeepTree.Proofs.Keeping.ReadBack
import KeepTree.Proofs.Keeping.Slots

/-!
# Qualified names of what is kept

When a frame is pushed, what its definition keeps is entered in its own keep map under plain names,
and in the keep map of the frame below, if there is one, under its qualified name. Both names then lead
to one pointer, as long as neither keep map gets another pointer under them. But each is followed in the
loop iteration of the frame that it was found in:

* `Terms.leaving`, `Run.holding` -- **a run that enters nothing under a name leaves it as it is**;
* `Workspace.qualified_reads_kept` -- **the qualified name reads the kept slot**, in the iteration of
  the frame that has it.
-/

namespace KeepTree

open Engine Store KeepTree.Frame List

variable {k home : KeepMapId} {name child other : String} {found : Option Pointer} {e e' : Engine}
  {frame frame' reader : Frame} {below : Option KeepMapId} {s s' : Session} {ns : Namespace}
  {rest : List Stack} {names : List (KeepMapId × String)} {d : Definition} {limits : Limits}
  {w w' : Workspace} {p : Pointer} {passed more : List Frame} {entry : Entry} {definition : DefId}
  {arguments : List Argument} {newCall : Bool} {value : Value}

/-! ## 1. What is kept under a name -/

/-- This is what is kept under `name` in the keep map `k`, which is there. -/
structure Store.Holding (k : KeepMapId) (name : String) (found : Option Pointer) (store : Store) :
    Prop where
  lt : k < store.keepMaps.size
  pointer?_eq : store.pointer? k name = found

namespace Store

variable {store store' : Store}

theorem Holding.of_keepMaps_eq (h : store.Holding k name found)
    (heq : store'.keepMaps = store.keepMaps) : store'.Holding k name found := by
  refine ⟨heq ▸ h.lt, ?_⟩
  rw [pointer?, keepMap, heq]
  exact h.pointer?_eq

theorem Holding.takes (h : store.Holding k name found) (htakes : store.Takes entry store') :
    store'.Holding k name found :=
  ⟨Nat.lt_of_lt_of_le h.lt htakes.keepMaps_le, (htakes.pointer?_eq k name).trans h.pointer?_eq⟩

theorem Holding.keep (h : store.Holding k name found) {k' : KeepMapId} (hne : k ≠ k' ∨ name ≠ other)
    (p : Pointer) : (store.keep k' other p).Holding k name found :=
  ⟨by simpa [Store.keep] using h.lt, (pointer?_keep_of_ne hne p).trans h.pointer?_eq⟩

theorem Holding.keepAll {k' : KeepMapId} (p : Pointer) : ∀ {names : List String} {store : Store},
    store.Holding k name found → (k = k' → name ∉ names) →
      (store.keepAll k' p names).Holding k name found
  | [], _, h, _ => h
  | other :: rest, store, h, hne => by
    have hoth : k ≠ k' ∨ name ≠ other := by
      by_cases hk : k = k'
      · exact .inr fun e => hne hk (e ▸ mem_cons_self)
      · exact .inl hk
    show ((store.keep k' other p).keepAll k' p rest).Holding k name found
    exact Holding.keepAll p (h.keep hoth p) fun hk hmem => hne hk (mem_cons_of_mem _ hmem)

theorem Holding.newKeepMap (h : store.Holding k name found) (pointers : KeepMap) :
    (store.newKeepMap pointers).2.Holding k name found :=
  ⟨Nat.lt_trans h.lt (by simp [Store.newKeepMap]),
    (pointer?_newKeepMap_of_lt h.lt pointers name).trans h.pointer?_eq⟩

theorem newKeepMap_holding (store : Store) (name : String) :
    (store.newKeepMap .empty).2.Holding (store.newKeepMap .empty).1 name none := by
  refine ⟨by simp [newKeepMap], ?_⟩
  rw [pointer?_newKeepMap_empty]
  exact pointer?_of_size_le (Nat.le_refl _) name

end Store

theorem Engine.Grown.holding (hg : e.Grown e') (h : e.store.Holding k name found) :
    e'.store.Holding k name found :=
  ⟨Nat.lt_of_lt_of_le h.lt hg.keepMaps_le, (hg.pointer?_eq k name).trans h.pointer?_eq⟩

/-! ## 2. Keep statements -/

/-- The qualified name of a child of a definition. -/
def Namespace.qualified (ns : Namespace) (id : DefId) (child : String) : String :=
  DottedName.join (ns.fullName id) child

/-- Carrying out a keep statement in a frame may enter a pointer under `name` in the keep map `k`. -/
def Keep.Enters (ns : Namespace) (f : Frame) (below : Option KeepMapId) (keep : Keep)
    (k : KeepMapId) (name : String) : Prop :=
  (k = f.keeps ∧ name ∈ keep.names) ∨
    (k = below.getD f.keeps ∧ name = ns.qualified f.definition keep.target)

theorem Namespace.qualified_ne (ns : Namespace) (id : DefId) (child : String) :
    ns.qualified id child ≠ child := fun heq => by
  have hlen := congrArg String.length heq
  simp [qualified, DottedName.join] at hlen

theorem DottedName.head_join (owner child : String) : head (join owner child) = head owner := by
  have htext : (join owner child).toList = owner.toList ++ '.' :: child.toList := by
    simp [join]
  have htake : ∀ left right : List Char, (left ++ '.' :: right).takeWhile (· != '.') =
      left.takeWhile (· != '.') := by
    intro left right
    induction left with
    | nil => rfl
    | cons c rest ih =>
      rw [cons_append, takeWhile_cons, takeWhile_cons, ih]
  rw [head, head, htext, htake]

theorem Store.keepAll_size (k : KeepMapId) (p : Pointer) : ∀ (names : List String) (store : Store),
    (store.keepAll k p names).keepMaps.size = store.keepMaps.size
  | [], _ => rfl
  | name :: rest, store => by
    show ((store.keep k name p).keepAll k p rest).keepMaps.size = _
    rw [keepAll_size k p rest, keep, Array.size_modify]

theorem Frame.keepTable_made (f : Frame) (container : Option String) (store : Store) :
    ∃ table containers made, f.keepTable container store = (table, { f with containers }, made) ∧
      made.keepMaps = store.keepMaps := by
  unfold keepTable
  split
  · exact ⟨_, _, _, rfl, rfl⟩
  · split <;> exact ⟨_, _, _, rfl, rfl⟩

namespace Engine

variable {keep : Keep}

theorem keepTarget_holding (h : e.store.Holding k name found)
    (hleaves : ¬ keep.Enters e.ns frame below k name) (target : DefId)
    (aliasTarget : Option Binding) :
    (e.keepTarget frame keep below target aliasTarget).2.store.Holding k name found := by
  have hplain : k = frame.keeps → name ∉ keep.names := fun hk hmem => hleaves (.inl ⟨hk, hmem⟩)
  unfold keepTarget
  split
  · exact ((durableTable_grows e _).1.holding h).keepAll _ hplain
  · obtain ⟨table, containers, made, hmade, hmaps⟩ := frame.keepTable_made keep.container e.store
    rw [hmade]
    refine Store.Holding.keep (Store.Holding.keepAll _ (h.of_keepMaps_eq hmaps) hplain) ?_ _
    by_cases hk : k = below.getD frame.keeps
    · exact .inr fun hname => hleaves (.inr ⟨hk, hname⟩)
    · exact .inl hk

theorem keepTarget_keepMaps_le (e : Engine) (frame : Frame) (keep : Keep) (below : Option KeepMapId)
    (target : DefId) (aliasTarget : Option Binding) : e.store.keepMaps.size ≤
      (e.keepTarget frame keep below target aliasTarget).2.store.keepMaps.size := by
  unfold keepTarget
  simp only
  split
  · rename_i found _
    show _ ≤ (keepAll _ _ _ _).keepMaps.size
    rw [keepAll_size]
    exact (durableTable_grows e found).1.keepMaps_le
  · obtain ⟨table, containers, made, hmade, hmaps⟩ := frame.keepTable_made keep.container e.store
    refine Nat.le_of_eq (Eq.symm (?_ : (Store.keep _ _ _ _).keepMaps.size = _))
    rw [Store.keep, Array.size_modify, keepAll_size, hmade, hmaps]

theorem registerKeep_holding (h : e.store.Holding k name found)
    (hleaves : ¬ keep.Enters e.ns frame below k name)
    (hreg : e.registerKeep frame keep below = .ok (some (frame', e'))) :
    e'.store.Holding k name found := by
  obtain ⟨target, aliasTarget, _, heq⟩ := registerKeep_ok hreg
  have hkept := keepTarget_holding h hleaves target aliasTarget
  rwa [heq] at hkept

/-- **Keep statements that enter nothing under a name leave it as it is.** -/
theorem registerKeeps_holding : ∀ (todo : List Keep) {e : Engine} {frame : Frame},
    e.store.Holding k name found → (∀ keep ∈ todo, ¬ keep.Enters e.ns frame below k name) →
      (e.registerKeeps frame below todo).2.2.store.Holding k name found
  | [], _, _, h, _ => h
  | keep :: rest, e, frame, h, hleaves => by
    obtain ⟨hfst, hrest⟩ := forall_mem_cons.mp hleaves
    unfold registerKeeps
    split
    · exact h
    · rename_i frame' e' hreg
      obtain ⟨hstd, containers, rfl⟩ := registerKeep_effect hreg
      refine registerKeeps_holding rest (registerKeep_holding h hfst hreg) ?_
      rw [hstd.ns_eq]
      exact hrest
    · exact registerKeeps_holding rest h hrest

end Engine

/-! ## 3. Runs -/

/-- The terms under which some names are left as they are, each in its keep map. Values may be put
    anywhere. -/
def Terms.leaving (ns : Namespace) (names : List (KeepMapId × String)) : Terms where
  push s s' := ∀ below new d, s.topFrame? = some below → s'.topFrame? = some new →
    new.keeps ≠ below.keeps → ns.get? new.definition = some d →
    ∀ keep ∈ d.keeps, (below.keeps, ns.qualified new.definition keep.target) ∉ names
  addKeep s keep := ∀ top, s.topFrame? = some top →
    ∀ k name, keep.Enters ns top (s.keepsBelow top) k name → (k, name) ∉ names
  put _ _ := True
  putValue _ _ := True

namespace Session

theorem push_holding (hs : s.Fit ns rest) (hpush : s.Push s')
    (hterm : (Terms.leaving ns names).push s s') (hmem : (k, name) ∈ names)
    (h : s.store.Holding k name found) : s'.store.Holding k name found := by
  rcases hpush.made with rfl | ⟨bound, d, newCall, hd, rfl⟩
  · exact h
  refine Store.Holding.of_keepMaps_eq (?_ : (s.frameFor bound d s.topFrame? newCall).2.2.store.Holding
    k name found) rfl
  have hgrown := s.homeFor_grows bound.definition d s.topFrame?
  cases hown : s.topFrame?.filter (continuesKeeps bound) with
  | some below =>
    rw [frameFor_eq]
    simp only [hown]
    exact hgrown.holding h
  | none =>
    obtain ⟨_, _, hdef, _⟩ := frameFor_effect s bound d s.topFrame? newCall
    obtain ⟨start, hstart, hks, _, _, hmade, heq⟩ := frameFor_registers hown s d newCall
    generalize (s.homeFor bound.definition d s.topFrame?).2 = home at hgrown hks heq
    have hhome := hgrown.holding h
    have hk : k ≠ start.keeps := hks ▸ Nat.ne_of_lt hhome.lt
    rw [heq]
    refine registerKeeps_holding d.keeps (hhome.newKeepMap .empty) fun keep hkeep henters => ?_
    rcases henters with ⟨heq, _⟩ | ⟨heq, hname⟩
    · exact hk heq
    cases hbel : s.topFrame? with
    | none =>
      rw [hbel] at heq
      exact hk heq
    | some below =>
      rw [hbel] at heq
      obtain rfl : k = below.keeps := heq
      refine hterm below _ d hbel (enter_topFrame? hs.sound _ _) ?_ ?_ keep hkeep ?_
      · rw [hmade]
        exact hk.symm
      · rw [hdef, ← hs.ns_eq]
        exact hd
      · rw [hdef, ← hstart]
        have hns : (home.withStore (home.store.newKeepMap .empty).2).ns = ns :=
          hgrown.ns_eq.trans hs.ns_eq
        rw [hns] at hname
        exact hname ▸ hmem

/-- **A move that observes the terms leaves the names as they are.** -/
theorem MoveBy.holding (hs : s.Fit ns rest) (hmove : s.MoveBy (.leaving ns names) s')
    (hmem : (k, name) ∈ names) (h : s.store.Holding k name found) :
    s'.store.Holding k name found := by
  cases hmove with
  | fail => exact h
  | push hpush hterm => exact push_holding hs hpush hterm hmem h
  | pop hpop =>
    obtain ⟨_, _, _, _, rfl⟩ := pop_ok hpop
    exact h
  | unpush hunp =>
    obtain ⟨_, _, _, _, rfl⟩ := unpush_ok hunp
    exact h
  | repush hrep =>
    obtain ⟨_, _, _, _, _, _, rfl⟩ := repush_ok hrep
    exact h
  | startIteration hstart =>
    obtain ⟨_, _, _, _, _, rfl⟩ := startIteration_effect hstart
    exact h
  | setIteration iter =>
    unfold Session.setIteration
    split <;> exact h
  | addKeep hterm hadd =>
    obtain ⟨id, frame, htop, hf, rfl | ⟨new, engine, hreg, rfl⟩⟩ := addKeep_ok hadd
    · exact h
    · refine registerKeep_holding h (fun henters => ?_) hreg
      exact hterm frame (topFrame?_eq htop hf) k name (hs.ns_eq ▸ henters) hmem
  | lookup request => exact (lookup_grows s request).holding h
  | putWithin key holder levels _ => exact h.takes (putWithin_takes s key holder levels)
  | putValue _ hput =>
    obtain ⟨frame, _, rfl⟩ := putValue_ok hput
    exact h.of_keepMaps_eq rfl
  | computation => exact h

theorem branch_holding (s : Session) (sharing : Bool) (h : s.store.Holding k name found) :
    (s.branch sharing).store.Holding k name found := by
  unfold branch
  split
  · rename_i source _ _
    simp only [ClearFrame.copyOnto_eq]
    refine Store.Holding.of_keepMaps_eq (?_ : (source.copy sharing s.store).2.Holding k name found) rfl
    unfold copy
    split
    · exact h
    · refine Store.Holding.newKeepMap (h.of_keepMaps_eq ?_) _
      exact copyTables_keepMaps source.containers _
  · exact h

end Session

namespace Engine

theorem restore_holding (h : e.store.Holding k name found) (snap : Snapshot) :
    (e.restore snap).2.store.Holding k name found := by
  refine restore_preserves (P := fun e => e.store.Holding k name found) snap
    (fun _ h hrestore => ?_) h
  rcases restoreValue_ok hrestore with ⟨_, rfl⟩ | ⟨_, d, _, rfl⟩
  · exact h.of_keepMaps_eq rfl
  · exact ((durableTable_grows _ d).1.holding h).of_keepMaps_eq rfl

end Engine

namespace Workspace

theorem finish_holding (stack : String) (h : w.engine.store.Holding k name found) :
    (w.finish stack).engine.store.Holding k name found := by
  unfold finish
  split
  · rename_i s hs
    obtain ⟨_, _, _, _, rfl⟩ := session?_ok hs
    exact h.of_keepMaps_eq rfl
  · exact h

/-- **A run that observes the terms leaves the names as they are.** -/
theorem Run.holding (hrun : w.Run (.leaving ns names) w') (hw : w.Reachable ns limits)
    (hmem : (k, name) ∈ names) (h : w.engine.store.Holding k name found) :
    w'.engine.store.Holding k name found := by
  induction hrun with
  | refl => exact h
  | step hrun hstep ih =>
    have hw := hrun.reachable hw
    cases hstep with
    | start stack => exact finish_holding stack ih
    | finish stack => exact finish_holding stack ih
    | move hs hmove =>
      obtain ⟨rest, hfit⟩ := hw.fit hs
      have heng := (hw.lodged.session hs).2
      exact hmove.holding hfit hmem (by rw [Session.store, heng]; exact ih)
    | branch sharing target hs =>
      have heng := (hw.lodged.session hs).2
      refine finish_holding target (Session.branch_holding _ sharing ?_)
      rw [Session.store, heng]
      exact ih
    | restore snap => exact restore_holding ih snap
    | siteTable site => exact (siteTable_grows _ site).1.holding ih

end Workspace

/-! ## 4. Pushing -/

/-- A definition keeps a child that is not durable. No keep statement lets the child's name stand for
    something else, or gives its qualified name. -/
structure Namespace.KeepsChild (ns : Namespace) (id : DefId) (d : Definition) (child : String) :
    Prop where
  kept : ∃ keep ∈ d.keeps, keep.target = child
  declared : ∃ x, ns.child id child = .ok (some x) ∧ (ns.get? x).filter (·.isGlobal) = none
  plain : ∀ keep ∈ d.keeps, child ∈ keep.names ∨ child = ns.qualified id keep.target →
    keep.target = child
  unqualified : ∀ keep ∈ d.keeps, ns.qualified id child ∉ keep.names

namespace Engine

/-- A plain name in one keep map and a qualified name in another, or the same, lead to one pointer. -/
def Linked (map b : KeepMapId) (child qualified : String) (e : Engine) : Prop :=
  ∃ p, e.store.Holding map child (some p) ∧ e.store.Holding b qualified (some p)

theorem keepTarget_linked (hmap : frame.keeps < e.store.keepMaps.size)
    (hbel : below.getD frame.keeps < e.store.keepMaps.size) (keep : Keep) {target : DefId}
    (htgt : (e.ns.get? target).filter (·.isGlobal) = none) (aliasTarget : Option Binding) :
    (e.keepTarget frame keep below target aliasTarget).2.Linked frame.keeps (below.getD frame.keeps)
      keep.target (e.ns.qualified frame.definition keep.target) := by
  unfold keepTarget
  simp only [htgt]
  obtain ⟨table, containers, made, hmade, hmaps⟩ := frame.keepTable_made keep.container e.store
  rw [hmade]
  rw [← hmaps] at hmap hbel
  have hall : ∀ p, (made.keepAll frame.keeps p keep.names).Holding frame.keeps keep.target (some p) :=
    fun p => ⟨by rw [keepAll_size]; exact hmap, pointer?_keepAll_of_mem hmap mem_cons_self⟩
  refine ⟨_, (hall _).keep (.inr (e.ns.qualified_ne _ _).symm) _, ?_, pointer?_keep_self ?_ _ _⟩
  · simpa [Store.keep, withStore, count, keepAll_size] using hbel
  · rw [keepAll_size]
    exact hbel

theorem Linked.registerKeep {keep : Keep}
    (h : e.Linked frame.keeps (below.getD frame.keeps) child (e.ns.qualified frame.definition child))
    (hd : e.ns.KeepsChild frame.definition d child) (hkeep : keep ∈ d.keeps)
    (htgt : keep.target ≠ child)
    (hreg : e.registerKeep frame keep below = .ok (some (frame', e'))) :
    e'.Linked frame.keeps (below.getD frame.keeps) child
      (e.ns.qualified frame.definition child) := by
  obtain ⟨p, hch, hqual⟩ := h
  refine ⟨p, registerKeep_holding hch ?_ hreg, registerKeep_holding hqual ?_ hreg⟩
  · rintro (⟨_, hmem⟩ | ⟨_, heq⟩)
    · exact htgt (hd.plain keep hkeep (.inl hmem))
    · exact htgt (hd.plain keep hkeep (.inr heq))
  · rintro (⟨_, hmem⟩ | ⟨_, heq⟩)
    · exact hd.unqualified keep hkeep hmem
    · exact htgt ((String.append_right_inj _).mp heq).symm

/-- **Carrying out the keep statements of a definition links the names of a child that it keeps.** The
    last statement that keeps it decides. -/
theorem registerKeeps_linked {id : DefId} {map : KeepMapId} (hd : ns.KeepsChild id d child) :
    ∀ (todo : List Keep) {e : Engine} {frame : Frame}, e.ns = ns → frame.definition = id →
    frame.keeps = map → map < e.store.keepMaps.size → below.getD map < e.store.keepMaps.size →
    (∀ keep ∈ todo, keep ∈ d.keeps) → e.Linked map (below.getD map) child (ns.qualified id child) ∨
    (∃ keep ∈ todo, keep.target = child) → (e.registerKeeps frame below todo).1 = .ok () →
    (e.registerKeeps frame below todo).2.2.Linked map (below.getD map) child (ns.qualified id child)
  | [], _, _, _, _, _, _, _, _, hlinked, _ => hlinked.resolve_right (by simp)
  | keep :: rest, e, frame, hns, hid, hks, hmap, hbel, hmem, hlinked, hok => by
    obtain ⟨hkeep, hmem⟩ := forall_mem_cons.mp hmem
    unfold registerKeeps at hok ⊢
    split
    · rename_i gap hreg
      simp [hreg] at hok
    · rename_i frame' e' hreg
      simp only [hreg] at hok
      obtain ⟨hstd, containers, rfl⟩ := registerKeep_effect hreg
      obtain ⟨target, aliasTarget, htargets, hkept⟩ := registerKeep_ok hreg
      have hle := keepTarget_keepMaps_le e frame keep below target aliasTarget
      rw [hkept] at hle
      refine registerKeeps_linked hd rest (hstd.ns_eq.trans hns) hid hks
        (Nat.lt_of_lt_of_le hmap hle) (Nat.lt_of_lt_of_le hbel hle) hmem ?_ hok
      subst hid hks hns
      by_cases htgt : keep.target = child
      · left
        subst htgt
        obtain ⟨x, hch, hx⟩ := hd.declared
        obtain rfl : x = target :=
          Option.some.inj (Except.ok.inj (hch.symm.trans (keepTargets_child htargets)))
        have hlinked := keepTarget_linked hmap hbel keep hx aliasTarget
        rwa [hkept] at hlinked
      · rcases hlinked with hlinked | ⟨other, hoth, heq⟩
        · exact .inl (hlinked.registerKeep hd hkeep htgt hreg)
        · rcases mem_cons.mp hoth with rfl | hoth
          · exact absurd heq htgt
          · exact .inr ⟨other, hoth, heq⟩
    · rename_i hreg
      simp only [hreg] at hok
      refine registerKeeps_linked hd rest hns hid hks hmap hbel hmem (hlinked.imp_right ?_) hok
      rintro ⟨other, hoth, heq⟩
      rcases mem_cons.mp hoth with rfl | hoth
      · obtain ⟨x, hch, _⟩ := hd.declared
        have hnone := registerKeep_none hreg
        rw [hns, hid, heq] at hnone
        exact nomatch hnone.symm.trans hch
      · exact ⟨other, hoth, heq⟩

end Engine

namespace Session

/-- **A push links the names of a child that a definition keeps**, unless the frame goes on with what
    the frame below keeps. The qualified name is entered in the keep map of the frame below, or of the
    frame itself if there is none. -/
theorem push_linked (hs : s.Fit ns rest) (hheld : s.Upheld (.lodging ns))
    (hpush : s.push definition arguments newCall = (.ok (), s'))
    (hfr : s'.topFrame? = some frame)
    (hown : ∀ below, s.topFrame? = some below → frame.keeps ≠ below.keeps)
    (hd : ns.get? frame.definition = some d) (hch : ns.KeepsChild frame.definition d child)
    (hhome : (s.topFrame?.map keeps).getD frame.keeps = home) :
    s'.engine.Linked frame.keeps home child (ns.qualified frame.definition child) ∧
      (frame.keeps ≠ home →
        s'.store.Holding frame.keeps (ns.qualified frame.definition child) none) := by
  obtain ⟨bound, engine, rfl, hmade, _, hdef, hnone⟩ :=
    push_afresh hs hpush hfr hd fun below hbel => (hown below hbel).symm
  rw [hdef] at hch ⊢
  have hgrown := s.homeFor_grows bound.definition d s.topFrame?
  obtain ⟨first, hstart, hks, _, _, hmap, heq⟩ := frameFor_registers hnone s d newCall
  generalize (s.homeFor bound.definition d s.topFrame?).2 = start at hgrown hks heq
  rw [hmade] at hmap heq
  have hmap : frame.keeps = first.keeps := hmap
  have hns : (start.withStore (start.store.newKeepMap .empty).2).ns = ns :=
    hgrown.ns_eq.trans hs.ns_eq
  have hnew := start.store.newKeepMap_holding (ns.qualified bound.definition child)
  rw [show (start.store.newKeepMap .empty).1 = first.keeps from hks.symm] at hnew
  have hlow : home < (start.store.newKeepMap .empty).2.keepMaps.size := by
    subst hhome
    cases hbel : s.topFrame? with
    | none => exact hmap ▸ hnew.lt
    | some below =>
      have hlt : below.keeps < start.store.keepMaps.size :=
        Nat.lt_of_lt_of_le (hheld.topFrame hbel).keeps hgrown.keepMaps_le
      exact Nat.lt_trans hlt (by simp [newKeepMap])
  rw [hmap] at hhome ⊢
  have heng : engine = (registerKeeps (start.withStore (start.store.newKeepMap .empty).2)
      first (s.topFrame?.map keeps) d.keeps).2.2 := congrArg (·.2.2) heq
  constructor
  · subst hhome
    obtain ⟨p, hplain, hqual⟩ := registerKeeps_linked hch d.keeps hns hstart rfl
      hnew.lt hlow (fun _ hmem => hmem) (.inr hch.kept) (congrArg (·.1) heq).symm
    rw [← heng] at hplain hqual
    exact ⟨p, hplain, hqual⟩
  · intro hne
    rw [heng]
    refine registerKeeps_holding d.keeps hnew ?_
    rintro keep hkeep (⟨_, hname⟩ | ⟨hsame, _⟩)
    · exact hch.unqualified keep hkeep hname
    · exact hne (hsame.trans hhome)

/-! ## 5. Reading -/

theorem reached_past {origin : DefId} {r : Request} : ∀ (passed : List Frame) {reader : Frame}
    {more : List Frame} {frames : List (FrameId × Frame)},
    frames.map Prod.snd = passed ++ reader :: more →
      (∀ f ∈ passed, endsAt ns origin r f = .ok false) →
      ∃ rest, (reached ns origin r frames).1 = passed ++ reader :: rest
  | [], reader, more, (_, f) :: frames, hfrs, _ => by
    obtain ⟨rfl, _⟩ := List.cons.inj hfrs
    rw [reached]
    split
    · exact ⟨[], rfl⟩
    · exact ⟨[], rfl⟩
    · exact ⟨_, rfl⟩
  | first :: passed, reader, more, (_, f) :: frames, hfrs, hpass => by
    obtain ⟨rfl, hbel⟩ := List.cons.inj hfrs
    obtain ⟨hfst, hpass⟩ := forall_mem_cons.mp hpass
    obtain ⟨rest, hrest⟩ := reached_past passed hbel hpass
    rw [reached]
    simp only [hfst]
    exact ⟨rest, congrArg (f :: ·) hrest⟩

theorem endsAt_qualified {f : Frame} (hf : f.definition = frame.definition)
    (hhead : ns.child frame.definition (DottedName.head (ns.fullName frame.definition)) = .ok none)
    (hreserved : DottedName.head (ns.fullName frame.definition) ∉ Request.reserved) :
    endsAt ns frame.definition { key := ns.qualified frame.definition child } f = .ok false := by
  simp only [endsAt, Namespace.qualified, DottedName.head_join, Bool.false_or, contains_iff_mem,
    hreserved, if_false, Namespace.hasChild, hf, hhead]
  rfl

/-- The definition of the top frame keeps a child. The top frame, and the frames below it that go on with
    what it keeps, have nothing under the child's qualified name; the next frame keeps the same there as
    the top frame under the plain name. -/
structure Qualifies (ns : Namespace) (s : Session) (frame reader : Frame) (child : String)
    (p : Pointer) : Prop where
  top : s.topFrame? = some frame
  head : ns.child frame.definition (DottedName.head (ns.fullName frame.definition)) = .ok none
  reserved : DottedName.head (ns.fullName frame.definition) ∉ Request.reserved
  plain : frame.keepPointer? s.store child = some p
  reads : reader.keepPointer? s.store (ns.qualified frame.definition child) = some p ∧
    reader.cached? s.store (ns.qualified frame.definition child) = none
  frames : ∃ passed more, s.frames.map Prod.snd = passed ++ reader :: more ∧
    ∀ f ∈ passed, f.definition = frame.definition ∧
      f.keepPointer? s.store (ns.qualified frame.definition child) = none ∧
      f.cached? s.store (ns.qualified frame.definition child) = none

/-- **A name reads what the first frame has for it** that has something, if the search goes past those
    above. -/
theorem get_past (hs : s.Fit ns rest) (htop : s.topFrame? = some frame) {key : String}
    (hfrs : s.frames.map Prod.snd = passed ++ reader :: more)
    (hends : ∀ f ∈ passed, endsAt ns frame.definition { key } f = .ok false)
    (hnone : ∀ f ∈ passed, entryIn s.store key f = none)
    (hent : entryIn s.store key reader = some entry)
    (hrsv : (s.resolve frame.definition { key } entry reader.iteration).1 = .ok (some value)) :
    (s.get key).1 = .ok (some value) := by
  rw [← hs.ns_eq] at hends
  obtain ⟨_, hreached⟩ := reached_past passed hfrs hends
  rw [get, lookup_result, find_first htop rfl hreached hnone hent hrsv, hrsv]

theorem Qualifies.get (h : s.Qualifies ns frame reader child p) (hs : s.Direct ns rest)
    (hat : s.store.at? (p.location reader.iteration) = some entry)
    (hyields : yields ns frame.definition { key := ns.qualified frame.definition child } entry =
      some value) : (s.get (ns.qualified frame.definition child)).1 = .ok (some value) := by
  obtain ⟨passed, more, hfrs, hpass⟩ := h.frames
  refine get_past hs.fit h.top hfrs
    (fun f hf => endsAt_qualified (hpass f hf).1 h.head h.reserved) (fun f hf => ?_)
    (?_ : _ = some (.pointer p)) ?_
  · obtain ⟨_, hunkept, huncached⟩ := hpass f hf
    rw [entryIn, huncached, hunkept]
    rfl
  · rw [entryIn, h.reads.2, h.reads.1]
    rfl
  · rw [resolve_pointer hs.engine hs.hops, hat, Option.bind_some, hs.fit.ns_eq, hyields]

/-- After a put under the plain name, the qualified name reads the value, if the two frames that have the
    names are in the same iteration. -/
theorem Qualifies.get_put (h : s.Qualifies ns frame reader child p) {holder : Holder}
    (htook : s.Took frame child holder s') (hs : s'.Direct ns rest)
    (hdata : holder.data = some value) (hsees : sees ns frame.definition holder = true)
    (hiter : reader.iteration = frame.iteration) :
    (s'.get (ns.qualified frame.definition child)).1 = .ok (some value) := by
  obtain ⟨passed, more, hfrs, hpass⟩ := h.frames
  obtain ⟨hreads, huncached⟩ := h.reads
  obtain ⟨engine, hstd, rfl⟩ := htook.engine_eq
  have hends : ∀ f ∈ passed, endsAt ns frame.definition
      { key := ns.qualified frame.definition child } f = .ok false := fun f hf =>
    endsAt_qualified (hpass f hf).1 h.head h.reserved
  have htop : (s.withEngine engine).topFrame? = some frame := h.top
  generalize ns.qualified frame.definition child = key at *
  have hyields : yields ns frame.definition { key } (.holder holder) = some value :=
    yields_holder hdata hsees
  have hheld : ∀ iter, ((s.withEngine engine).resolve frame.definition { key } (.holder holder)
      iter).1 = .ok (some value) := fun iter => by
    have hholder : ∀ p, Entry.holder holder ≠ .pointer p := nofun
    rw [resolve_entry hholder, hs.fit.ns_eq, hyields]
  -- the put may have been passed on to a slot under the qualified name, which then has the value, too
  have hent : ∀ f : Frame, f.cached? s.store key = none →
      entryIn (s.withEngine engine).store key f = (f.keepPointer? s.store key).map .pointer ∨
        entryIn (s.withEngine engine).store key f = some (.holder holder) := fun f hnone => by
    have hkept : f.keepPointer? (s.withEngine engine).store key = f.keepPointer? s.store key :=
      htook.takes.pointer?_eq f.keeps key
    rcases htook.takes.get?_eq f.cache (f.slotKey key) with heq | heq
    · left
      rw [entryIn, show f.cached? (s.withEngine engine).store _ = none from heq.trans hnone, hkept]
    · right
      rw [entryIn, show f.cached? (s.withEngine engine).store _ = some (.holder holder) from heq]
  cases hfst : passed.find? fun f => (entryIn (s.withEngine engine).store key f).isSome with
  | some first =>
    obtain ⟨hsome, before, after, rfl, hbefore⟩ := find?_eq_some_iff_append.mp hfst
    obtain ⟨_, hunkept, huncached⟩ := hpass first (by simp)
    refine get_past hs.fit htop (hfrs.trans (append_assoc before (first :: after) (reader :: more)))
      (fun f hf => hends f (by simp [hf])) (fun f hf => by simpa using hbefore f hf)
      (?_ : _ = some (.holder holder)) (hheld _)
    refine (hent first huncached).resolve_left fun hnone => ?_
    rw [hnone, hunkept] at hsome
    cases hsome
  | none =>
    have hnone : ∀ f ∈ passed, entryIn (s.withEngine engine).store key f = none := fun f hf => by
      simpa using find?_eq_none.mp hfst f hf
    rcases hent reader huncached with hptr | hholder
    · rw [hreads] at hptr
      refine get_past hs.fit htop hfrs hends hnone hptr ?_
      have hat := htook.slot_eq
      rw [slot_of_kept h.plain, ← hiter] at hat
      rw [resolve_pointer hs.engine hs.hops, hat, Option.bind_some, hs.fit.ns_eq, hyields]
    · exact get_past hs.fit htop hfrs hends hnone hholder (hheld _)

end Session

namespace Workspace

variable {ns : Namespace} {limits : Limits} {w w' : Workspace} {name other child : String}
  {s pushed t : Session} {frame top reader : Frame} {d : Definition} {home : KeepMapId}
  {passed more : List Frame}

/-- The terms under which a child that a frame keeps stays linked with its qualified name in the keep
    map `home`. -/
def linkTerms (ns : Namespace) (frame : Frame) (home : KeepMapId) (child : String) : Terms :=
  .leaving ns [(frame.keeps, child), (frame.keeps, ns.qualified frame.definition child),
    (home, ns.qualified frame.definition child)]

/-- The links that a push makes are there after every run under their terms. -/
theorem Run.linked (hw : w.Reachable ns limits) (hs : w.session? name = some s)
    (hpush : s.push definition arguments newCall = (.ok (), pushed))
    (hfr : pushed.topFrame? = some frame)
    (hown : ∀ below, s.topFrame? = some below → frame.keeps ≠ below.keeps)
    (hd : ns.get? frame.definition = some d) (hch : ns.KeepsChild frame.definition d child)
    (hhome : (s.topFrame?.map Frame.keeps).getD frame.keeps = home)
    (hrun : (w.put name pushed).Run (linkTerms ns frame home child) w') :
    w'.Reachable ns limits ∧
      w'.engine.Linked frame.keeps home child (ns.qualified frame.definition child) ∧
      (frame.keeps ≠ home →
        w'.engine.store.Holding frame.keeps (ns.qualified frame.definition child) none) := by
  obtain ⟨rest, hfit⟩ := hw.fit hs
  have hheld := (hw.lodged.session hs).1
  have hpushed := hw.push_ok hs hpush
  obtain ⟨⟨p, hplain, hqual⟩, hnone⟩ := Session.push_linked hfit hheld hpush hfr hown hd hch hhome
  refine ⟨hrun.reachable hpushed, ⟨p, ?_, ?_⟩, fun hne => ?_⟩
  · exact hrun.holding hpushed mem_cons_self hplain
  · exact hrun.holding hpushed (by simp) hqual
  · exact hrun.holding hpushed (by simp) (hnone hne)

/-- **The qualified name reads the kept slot.** Let a frame be pushed for a definition that keeps a
    child, and let the push carry out the keep statements. However a run under the terms of the link
    goes on: whenever a frame with the same keep map is on top, and below it and others that go on with
    this keep map comes a frame that has the qualified name, the qualified name reads the slot where the
    child is kept, in the iteration of that frame. So after a put of the child, if it and the top frame
    are in the same iteration, the qualified name and the plain name read the value. -/
theorem qualified_reads_kept (hw : w.Reachable ns limits) (hhops : 0 < limits.maxPointerHops)
    (hs : w.session? name = some s) {definition : DefId} {arguments : List Argument}
    {newCall : Bool} (hpush : s.push definition arguments newCall = (.ok (), pushed))
    (hframe : pushed.topFrame? = some frame)
    (hown : ∀ below, s.topFrame? = some below → frame.keeps ≠ below.keeps)
    (hd : ns.get? frame.definition = some d) (hchild : ns.KeepsChild frame.definition d child)
    (hhead : ns.child frame.definition (DottedName.head (ns.fullName frame.definition)) = .ok none)
    (hreserved : DottedName.head (ns.fullName frame.definition) ∉ Request.reserved)
    (hhome : (s.topFrame?.map Frame.keeps).getD frame.keeps = home)
    (hrun : (w.put name pushed).Run (linkTerms ns frame home child) w')
    (ht : w'.session? other = some t) (htop : t.topFrame? = some top)
    (hdefinition : top.definition = frame.definition) (hkeeps : top.keeps = frame.keeps)
    (hframes : t.frames.map Prod.snd = passed ++ reader :: more) (hreader : reader.keeps = home)
    (hpassed : ∀ f ∈ passed, f.definition = frame.definition ∧ f.keeps = frame.keeps ∧ f.keeps ≠ home)
    (huncached : ∀ f ∈ reader :: passed,
      f.cached? t.store (ns.qualified frame.definition child) = none) :
    ∃ p, top.keepPointer? t.store child = some p ∧
      (∀ entry value, t.store.at? (p.location reader.iteration) = some entry →
        Session.yields ns top.definition { key := ns.qualified frame.definition child } entry =
          some value → (t.get (ns.qualified frame.definition child)).1 = .ok (some value)) ∧
      ∀ holder value written t', t.put child holder = (.ok written, t') →
        holder.data = some value → Session.sees ns top.definition holder = true →
        (∀ entry, ¬ top.Hides t.store child entry) → reader.iteration = top.iteration →
        (t'.get (ns.qualified frame.definition child)).1 = .ok (some value) ∧
          (t'.get child).1 = .ok (some value) := by
  obtain ⟨hw', ⟨p, hplain, hqualified⟩, hnone⟩ :=
    Run.linked hw hs hpush hframe hown hd hchild hhome hrun
  obtain ⟨rest, hdirect⟩ := hw'.direct hhops ht
  rw [← (hw'.session ht).1] at hplain hqualified hnone
  obtain ⟨hfirst, hcached⟩ := List.forall_mem_cons.mp huncached
  have hqualifies : t.Qualifies ns top reader child p := by
    rw [← hdefinition] at hhead hreserved hqualified hnone hfirst hcached hpassed
    rw [← hkeeps] at hplain
    rw [← hreader] at hqualified
    refine ⟨htop, hhead, hreserved, hplain.pointer?_eq, ⟨hqualified.pointer?_eq, hfirst⟩, passed, more,
      hframes, fun f hf => ?_⟩
    obtain ⟨hsame, hmap, hne⟩ := hpassed f hf
    rw [← hmap] at hnone
    exact ⟨hsame, (hnone hne).pointer?_eq, hcached f hf⟩
  rw [← hdefinition]
  refine ⟨p, hqualifies.plain, fun entry value => hqualifies.get hdirect, ?_⟩
  intro holder value written t' hput hdata hsees hshown hiteration
  have htook := Session.putWithin_took hdirect.lodged htop hput
  obtain ⟨engine, hsteady, rfl⟩ := htook.engine_eq
  obtain ⟨hfit', hheld', _⟩ := Session.put_lodges hput hdirect.fit hdirect.lodged
  have hdirect' : (t.withEngine engine).Direct ns rest := by
    refine ⟨hfit', hheld', ?_⟩
    rw [Session.limits, Session.withEngine, hsteady.limits_eq]
    exact hdirect.hops
  exact ⟨hqualifies.get_put htook hdirect' hdata hsees hiteration,
    htook.get hfit' hdirect'.engine htop hdata hsees hshown⟩

/-- A shop with a page that keeps its title. -/
def storefront : Namespace where
  definitions := #[
    { name := "shop", fullName := "shop", children := Dictionary.empty.insert "page" 1 },
    { name := "page", fullName := "shop.page", owner := some 0
      children := Dictionary.empty.insert "title" 2, keeps := [{ target := "title" }] },
    { name := "title", fullName := "shop.page.title", owner := some 1 }]
  roots := Dictionary.empty.insert "shop" 0

theorem storefront_keepsChild : storefront.KeepsChild 1 storefront.definitions[1] "title" where
  kept := ⟨{ target := "title" }, mem_cons_self, rfl⟩
  declared := ⟨2, by decide +kernel, rfl⟩
  plain := by decide +kernel
  unqualified := by decide +kernel

/-- A stack in the shop, in a loop; and with the page on top, in the same iteration. -/
def atCounter : Session :=
  (Session.push ⟨.new storefront {}, .new 0 {}, {}⟩ 0 [] true).2.setIteration (some 3)

def atPage : Session := (atCounter.push 1 [] true).2

def atShelf : Session := atPage.setIteration (some 3)

/-- A second frame for the page, which goes on with what the first one keeps. -/
def atInset : Session := (atShelf.push 1 [] true).2

def storefrontTitle : Holder := .of 2 [] (some (.text "News"))

/-- The shop is entered. -/
def storefrontOpened : Workspace :=
  ((((Workspace.new storefront {}).start "main").put "main"
    (Session.push ⟨.new storefront {}, .new 0 {}, {}⟩ 0 [] true).2).put "main" atCounter)

/-- Both frames for the page are pushed, and a copy of the upper one shares its tables. -/
def storefrontShared : Workspace :=
  ((((storefrontOpened.put "main" atPage).put "main" atShelf).put "main" atInset).put "main"
    (atInset.setIteration (some 3))).branch (atInset.setIteration (some 3)) true "copy"

theorem storefrontShared_run :
    (storefrontOpened.put "main" atPage).Run (linkTerms storefront frame 0 "title")
      storefrontShared := by
  have hcontinues : ∀ below new, atShelf.topFrame? = some below → atInset.topFrame? = some new →
      new.keeps = below.keeps := by
    intro below new hbel hnew
    have hread : (atInset.topFrame?.map keeps) = (atShelf.topFrame?.map keeps) := by
      decide +kernel
    rw [hbel, hnew] at hread
    exact Option.some.inj hread
  refine .step (.step (.step (.step .refl (.move (session?_put ?_) (.setIteration (some 3))))
    (.move (session?_put ?_) (.push (.push 1 [] true) ?_)))
    (.move (session?_put ?_) (.setIteration (some 3)))) (.branch true "copy" (session?_put ?_))
  any_goals decide +kernel
  exact fun below new _ hbel hnew hne => absurd (hcontinues below new hbel hnew) hne

/-- The title is put in the copy. -/
theorem qualified_reads_kept_shelf : ∃ t, storefrontShared.session? "copy" = some t ∧
    t.frames.map (·.2.definition) = [1, 1, 0] ∧
    ((t.put "title" storefrontTitle).2.get "shop.page.title").1 = .ok (some (.text "News")) ∧
    ((t.put "title" storefrontTitle).2.get "title").1 = .ok (some (.text "News")) := by
  have hstarted : ((Workspace.new storefront {}).start "main").session? "main" =
      some ⟨.new storefront {}, .new 0 {}, {}⟩ := rfl
  have hw : Reachable storefront {} storefrontOpened := by
    refine ((Reachable.new.step (.start "main")).step (.move hstarted (.push 0 [] true))).step
      (.move (session?_put ?_) (.setIteration (some 3)))
    decide +kernel
  have hs : storefrontOpened.session? "main" = some atCounter := session?_put (by decide +kernel)
  have hpush : atCounter.push 1 [] true = (.ok (), atPage) := Prod.ext (by decide +kernel) rfl
  have hbelow : atCounter.topFrame?.map Frame.keeps = some 0 := by decide +kernel
  have hmade : (atPage.topFrame?.any fun frame =>
      decide (frame.definition = 1 ∧ frame.keeps = 1)) = true := by decide +kernel
  obtain ⟨frame, hframe, hmade⟩ := (Option.any_eq_true _ _).mp hmade
  obtain ⟨hdefinition, hkeeps⟩ := of_decide_eq_true hmade
  have hcopied : ((storefrontShared.session? "copy").any fun t =>
      (t.put "title" storefrontTitle).1.isOk && t.topFrame?.any (fun top =>
        decide (top.definition = 1 ∧ top.keeps = 1 ∧ top.iteration = some 3 ∧
          (top.cached? t.store "title").isNone = true ∧
          Session.sees storefront top.definition storefrontTitle = true)) &&
      decide ((t.frames.map Prod.snd).map (fun f => (f.definition, f.keeps, f.iteration,
        (f.cached? t.store "shop.page.title").isNone)) =
        [(1, 1, some 3, true), (1, 1, some 3, true), (0, 0, some 3, true)])) = true := by
    decide +kernel
  obtain ⟨t, ht, hcopied⟩ := (Option.any_eq_true _ _).mp hcopied
  simp only [Bool.and_eq_true, Option.any_eq_true, decide_eq_true_eq] at hcopied
  obtain ⟨⟨hok, top, htop, htopDefinition, htopKeeps, htopIteration, hshown, hsees⟩, hframes⟩ :=
    hcopied
  obtain ⟨upper, lower, reader, hlist⟩ := List.length_eq_three.mp
    ((List.length_map _).symm.trans (congrArg List.length hframes))
  rw [hlist] at hframes
  simp only [List.map_cons, List.map_nil, List.cons.injEq, Prod.mk.injEq, Option.isNone_iff_eq_none,
    and_true] at hframes
  obtain ⟨⟨hupper, hupperKeeps, _, hupperNone⟩, ⟨hlower, hlowerKeeps, _, hlowerNone⟩, hreader,
    hreaderKeeps, hreaderIteration, hreaderNone⟩ := hframes
  have hpassed : t.frames.map Prod.snd = [upper, lower] ++ reader :: [] := hlist
  obtain ⟨written, hwritten⟩ : ∃ written, (t.put "title" storefrontTitle).1 = .ok written := by
    match (t.put "title" storefrontTitle).1, hok with
    | .ok written, _ => exact ⟨written, rfl⟩
  have hqualified : storefront.qualified frame.definition "title" = "shop.page.title" := by
    rw [hdefinition]
    decide +kernel
  obtain ⟨p, _, _, hread⟩ := qualified_reads_kept hw (by decide) hs hpush hframe
    (fun below h => by
      rw [h] at hbelow
      rw [hkeeps, Option.some.inj hbelow]
      decide)
    (by rw [hdefinition]; rfl) (by rw [hdefinition]; exact storefront_keepsChild)
    (by rw [hdefinition]; decide +kernel) (by rw [hdefinition]; decide +kernel) (by rw [hbelow]; rfl)
    storefrontShared_run ht htop (htopDefinition.trans hdefinition.symm)
    (htopKeeps.trans hkeeps.symm) hpassed hreaderKeeps
    (by simp [hupper, hupperKeeps, hlower, hlowerKeeps, hdefinition, hkeeps])
    (by simp [hqualified, hupperNone, hlowerNone, hreaderNone])
  have hboth := hread storefrontTitle (.text "News") written _ (Prod.ext hwritten rfl) rfl hsees
    (fun _ hhides => by simp [hhides.2] at hshown) (hreaderIteration.trans htopIteration.symm)
  rw [hqualified] at hboth
  refine ⟨t, ht, ?_, hboth⟩
  have hdefinitions := congrArg (List.map Frame.definition) hlist
  rw [List.map_map] at hdefinitions
  exact hdefinitions.trans (by simp [hupper, hlower, hreader])

/-- What the title and its qualified name read when the title has been put. -/
def titlesRead (s : Session) : Option (Option Value) × Option (Option Value) :=
  let put := (s.put "title" storefrontTitle).2
  ((put.get "title").1.toOption, (put.get "shop.page.title").1.toOption)

/-- **The qualified name misses the kept slot** if the page is in another iteration than the shop, in a
    copy with tables of its own, and if the page was pushed a second time in between. -/
theorem qualified_misses_kept :
    titlesRead (atPage.setIteration (some 4)) = (some (some (.text "News")), some none) ∧
    titlesRead (atShelf.branch false) = (some (some (.text "News")), some none) ∧
    ((atShelf.unpush.toOption.bind fun out => (out.push 1 [] true).2.pop.toOption.bind fun popped =>
        popped.repush.toOption).map titlesRead) = some (some (some (.text "News")), some none) := by
  decide +kernel

end Workspace

end KeepTree
