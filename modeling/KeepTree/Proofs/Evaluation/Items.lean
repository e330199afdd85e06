import KeepTree.Proofs.Evaluation.Iterations

/-!
# The items of a loop survive their iteration

Where the body of a loop comes to the item of an iteration, it finds the element, whatever it has
evaluated before. The slot of the item is left alone (`Iterations`), and the name of the item goes on
standing for nothing else:

* `Workspace.items_survive` -- **a reference to the item yields the element**.
-/

namespace KeepTree

open KeepTree.Frame DottedName List

variable {s s' : Session} {ns : Namespace} {rest : List Stack} {name item : String} {c : TableId}
  {run begun : Run} {value : Value} {Q : Session → Session → Prop} {call : Call}
  {found : Option DefId}

/-! ## 1. What plain names stand for -/

/-- Keep maps have been added, and plain names stand for the same in those before. -/
structure Store.Names (store store' : Store) : Prop where
  size_le : store.keepMaps.size ≤ store'.keepMaps.size
  pointer?_eq : ∀ {k name}, k < store.keepMaps.size → isDotted name = false →
    store'.pointer? k name = store.pointer? k name

/-- Plain names stand for what they did in a store. -/
def Upkeep.naming (ns : Namespace) (store : Store) : Upkeep where
  engine e := e.Direct ns ∧ store.Names e.store
  own _ _ k := store.keepMaps.size ≤ k

/-- **What is done to tables leaves plain names what they stand for**: a frame below hears of a kept
    value under its qualified name only. -/
theorem Upkeep.naming_open (ns : Namespace) (store : Store) : (naming ns store).Open ns where
  direct he := he.1
  grow he hg := ⟨⟨he.1.grow hg, Nat.le_trans he.2.size_le hg.keepMaps_le, fun hk hname =>
    (hg.pointer?_eq _ _).trans (he.2.pointer?_eq hk hname)⟩, trivial⟩
  fresh_table _ _ _ _ _ _ := ⟨fun _ => trivial, trivial⟩
  fresh_keeps he _ hk _ := ⟨trivial, fun _ _ _ _ => Nat.le_trans he.2.size_le hk⟩
  point := fun {e f keep p} k name he _ hown _ _ _ hk => by
    have hsize : (e.store.keep k name p).keepMaps.size = e.store.keepMaps.size := by
      simp [Store.keep]
    refine ⟨⟨he.1.keep k name p, hsize ▸ he.2.size_le, fun {other plain} hoth hplain => ?_⟩,
      trivial⟩
    refine (Store.pointer?_keep_of_ne ?_ p).trans (he.2.pointer?_eq hoth hplain)
    rcases hk with rfl | ⟨_, rfl⟩
    · exact .inl (Nat.ne_of_lt (Nat.lt_of_lt_of_le hoth hown))
    · refine .inr ?_
      rintro rfl
      exact absurd (hplain.symm.trans (isDotted_join _ _)) (by decide)
  kept iter holder he _ _ _ :=
    ⟨⟨he.1.set _ (.holder holder) nofun, he.2.size_le, he.2.pointer?_eq⟩, trivial⟩
  durable iter he _ _ _ := ⟨⟨he.1.set _ _ nofun, he.2.size_le, he.2.pointer?_eq⟩, trivial⟩
  slot key he _ hent := ⟨⟨he.1.set _ _ hent, he.2.size_le, he.2.pointer?_eq⟩, trivial⟩
  copyTable t he := ⟨⟨he.1.newTable fun _ _ => he.1.no_pointer, he.2.size_le, he.2.pointer?_eq⟩,
    trivial, fun _ _ => ⟨fun _ => trivial, trivial⟩⟩
  copyKeeps := fun {e} pointers he _ => by
    have hsize : (e.store.newKeepMap pointers).2.keepMaps.size = e.store.keepMaps.size + 1 :=
      Array.size_push _
    refine ⟨⟨he.1.newKeepMap pointers, ?_, fun hk hname => ?_⟩, trivial, trivial⟩
    · exact Nat.le_trans he.2.size_le (hsize ▸ Nat.le_succ _)
    · exact (Store.pointer?_newKeepMap_of_lt (Nat.lt_of_lt_of_le hk he.2.size_le) pointers _).trans
        (he.2.pointer?_eq hk hname)

namespace Session

/-- **Names are bound to the same arguments**, wherever a frame is in its loops. -/
theorem Same.argumentFor_eq (hs : s.Fit ns rest) (hs' : s'.Fit ns rest)
    (h : s.Same unlooped s') (name : String) : s'.argumentFor name = s.argumentFor name := by
  have hviews : List.Forall₂ Eq (s.view unlooped) (s'.view unlooped) := by
    rw [h.view_eq unlooped_plain hs hs']
    exact forall₂_refl _
  rw [view, view, Pool.view, Pool.view, forall₂_map_left_iff, forall₂_map_right_iff] at hviews
  exact argumentFor_congr (by rw [hs.ns_eq, hs'.ns_eq])
    (hviews.imp fun _ _ hsame => congrArg (binding ·.2) hsame) name

/-- **Plain names are aliases of the same targets**, wherever a frame is in its loops. -/
theorem Same.keepTarget?_eq (hs : s.Fit ns rest) (hs' : s'.Fit ns rest)
    (h : s.Same unlooped s') (hnames : s.store.Names s'.store)
    (hks : ∀ id frame, s.frame? id = some frame → frame.keeps < s.store.keepMaps.size)
    (hname : isDotted name = false) : s'.keepTarget? name = s.keepTarget? name := by
  have hread : ∀ t : Session, (t.frames.findSome? fun entry => entry.2.keepPointer? t.store name) =
      ((t.view unlooped).map fun entry => t.store.pointer? entry.2.keeps name).findSome? id := by
    intro t
    rw [view, Pool.view, map_map, findSome?_map]
    rfl
  have hptrs : ((s.view unlooped).map fun entry => s'.store.pointer? entry.2.keeps name) =
      (s.view unlooped).map fun entry => s.store.pointer? entry.2.keeps name := by
    refine map_congr_left fun entry hmem => ?_
    obtain ⟨⟨id, frame⟩, hfr, rfl⟩ := mem_map.mp hmem
    exact hnames.pointer?_eq (hks id frame ((hs.sound.accounted.toBalanced.chain hs.top_live).get? hfr)) hname
  have hfd : (s'.frames.findSome? fun entry => entry.2.keepPointer? s'.store name) =
      s.frames.findSome? fun entry => entry.2.keepPointer? s.store name := by
    rw [hread s', hread s, h.view_eq unlooped_plain hs hs', hptrs]
  unfold keepTarget?
  rw [hfd]

end Session

/-! ## 2. Bound items -/

/-- The item of the iteration that a frame is in is bound, in its cache and among the items that loops
    inside bind again. -/
def Binds (ns : Namespace) (rest : List Stack) (c : TableId) (item : String) (value : Value)
    (run : Run) : Prop :=
  ∃ frame m, Inside ns rest c item frame run.session ∧ frame.iteration = some m ∧
    m < frame.nextIteration ∧
    run.session.store.get? c (inLoop item (some m)) = some (.value value) ∧
    boundItem item run.evaluator.bindings = some value

namespace Recur

variable {r : Recur} {P : String → Prop} {b b' : Body} {run' : Run} {frame : Frame}

open Discipline

section

variable (hitem : isDotted item = false) (hr : r.Abides (guarding ns rest c item))
include hitem hr

/-- An iteration begins, whatever loop it is of: the items around are bound in it, and its own. -/
theorem Iterates.inside {range inner : Body} (h : r.Iterates name range inner run value begun)
    (hrun : Inside ns rest c item frame run.session) :
    (∃ frame', Inside ns rest c item frame' begun.session) ∧
      run.session.Same unlooped begun.session ∧
      begun.evaluator.bindings = (name, value) :: run.evaluator.bindings ∧
      ∀ v, boundItem item begun.evaluator.bindings = some v → Binds ns rest c item v begun := by
  obtain ⟨whole, ranged, earlier, later, results, between, hrange, _, hearlier, hbegin⟩ := h
  obtain ⟨_, hranged, _⟩ := body_passes hitem hr range hrun hrange
  obtain ⟨_, hbetween⟩ := iterateAll_passes hitem
    (fun hinside hinner => (body_passes hitem hr inner hinside hinner).imp fun _ => And.left) earlier
    hranged.inside hearlier
  have hpasses := hranged.trans hbetween
  obtain ⟨frame', hinside, hsame, heval, hiter, hnext, _, hslot⟩ :=
    beginIteration_inside hitem hbetween.inside hbegin
  refine ⟨⟨frame', hinside⟩, hpasses.same.trans hsame, ?_, fun v hv => ?_⟩
  · rw [heval, hpasses.evaluator_eq]
  · exact ⟨frame', _, hinside, hiter, by omega, hslot v hv, hv⟩

theorem Visits.inside (h : r.Visits P b run b' run')
    (hrun : Inside ns rest c item frame run.session) :
    (∃ frame', Inside ns rest c item frame' run'.session) ∧
      run.session.Same unlooped run'.session := by
  refine h.keep (Q := fun mid => (∃ frame', Inside ns rest c item frame' mid.session) ∧
    run.session.Same unlooped mid.session) ?_ ?_ ⟨⟨frame, hrun⟩, .refl _ _⟩
  · intro bs values mid mid' ⟨⟨frame', hinside⟩, hsame⟩ hbodies
    obtain ⟨frame'', hpasses, _⟩ := bodies_passes hitem hr bs hinside hbodies
    exact ⟨⟨frame'', hpasses.inside⟩, hsame.trans hpasses.same⟩
  · intro name range inner value mid begun _ ⟨⟨frame', hinside⟩, hsame⟩ hiters
    obtain ⟨hbegun, hsame', _⟩ := hiters.inside hitem hr hinside
    exact ⟨hbegun, hsame.trans hsame'⟩

/-- **The item of an iteration is bound wherever its body comes to**, but for loops over the same
    name. -/
theorem Visits.binds (h : r.Visits (· ≠ item) b run b' run')
    (hrun : Binds ns rest c item value run) : Binds ns rest c item value run' := by
  refine h.keep ?_ ?_ hrun
  · intro bs values mid mid' ⟨frame, m, hinside, hiter, hlt, hslot, hitems⟩ hbodies
    obtain ⟨frame', hpasses, hsame⟩ := bodies_passes hitem hr bs hinside hbodies
    refine ⟨frame', m, hpasses.inside, hsame.trans hiter, Nat.lt_of_lt_of_le hlt hpasses.next_le,
      (hpasses.item_eq m hlt).trans hslot, ?_⟩
    rw [hpasses.evaluator_eq]
    exact hitems
  · intro name range inner other mid begun hname ⟨frame, m, hinside, _, _, _, hitems⟩ hiters
    obtain ⟨_, _, hbindings, hbound⟩ := hiters.inside hitem hr hinside
    refine hbound value ?_
    -- the loop binds another name, so the item is still that of the loop around
    rw [hbindings]
    simpa [boundItem, find?_cons, hname] using hitems

end

theorem Iterates.tracks (hQ : Tracks Q) (hr : r.Keeps Q) {range inner : Body}
    (h : r.Iterates name range inner run value begun) : Q run.session begun.session := by
  obtain ⟨whole, ranged, earlier, later, results, between, hrange, helements, hearlier, hbegin⟩ := h
  have hranged := body_keeps hQ hr range run _ ranged hrange
  have hbetween := iterateAll_keeps hQ name (body_keeps hQ hr inner) earlier ranged _ between hearlier
  have hbegun := beginIteration_keeps hQ name value between _ begun hbegin
  exact hQ.trans hranged (hQ.trans hbetween hbegun)

theorem Visits.tracks (hQ : Tracks Q) (hr : r.Keeps Q) (h : r.Visits P b run b' run') :
    Q run.session run'.session := by
  refine h.keep (Q := fun mid => Q run.session mid.session) ?_ ?_ (hQ.refl _)
  · intro bs values mid mid' hmid hbodies
    exact hQ.trans hmid (bodies_keeps hQ hr bs mid _ mid' hbodies)
  · intro name range inner value mid begun _ hmid hiters
    exact hQ.trans hmid (hiters.tracks hQ hr)

end Recur

/-! ## 3. New frames -/

namespace Session

/-- **A new frame with a cache of its own is out of reach**: no pointer and no other frame leads
    there. -/
theorem push_inside (hitem : isDotted item = false) (hs : s.Fit ns rest)
    (hheld : s.Upheld (.lodging ns)) {id : DefId} {args : List Argument} {newCall : Bool}
    (hpush : s.push id args newCall = (.ok (), s')) {frame : Frame}
    (hfr : s'.topFrame? = some frame)
    (hca : (∀ id d, ns.get? id = some d → d.isSite = false) ∨
      ∃ root, s'.rootFrame? = some root ∧ root.cache ≠ frame.cache)
    (hspares : ns.Spares frame.definition item) : Inside ns rest frame.cache item frame s' := by
  have hfit : s'.Fit ns rest := (Effect.of_push hpush).fit hs
  obtain ⟨bound, d, made, engine, hprep, hframeFor, rfl⟩ := push_ok hpush
  obtain ⟨_, hd, _⟩ := preparePush_ok hprep
  have hd : ns.get? bound.definition = some d := hs.ns_eq ▸ hd
  obtain ⟨_, hfresh, hdef, _⟩ := frameFor_effect s bound d s.topFrame? newCall
  have hmade := frameFor_cache s bound d s.topFrame? newCall
  rw [hframeFor] at hfresh hdef hmade
  obtain rfl : made = frame :=
    Option.some.inj ((enter_topFrame? hs.sound made engine).symm.trans hfr)
  -- the cache is not that of the root, so it is a new table
  have hown : d.isSite = true → s.rootFrame? = none := by
    intro hsite
    have hcacheFor := (s.homeFor_grown bound.definition d s.topFrame?).2
    rw [← hmade] at hcacheFor
    generalize made.cache = cache at hcacheFor hca
    cases hcacheFor with
    | fresh hfresh _ => exact hfresh hsite
    | @shared root _ hroot =>
      rcases hca with hnone | ⟨bottom, hbot, hne⟩
      · exact absurd (hsite.symm.trans (hnone _ d hd)) (by decide)
      · obtain ⟨root', hroot', heq⟩ := (enter_rootFrame? hs made engine).2 root hroot
        cases hbot.symm.trans hroot'
        exact absurd heq hne
  obtain ⟨hsize, hpriv⟩ :=
    s.homeFor_private hheld.engine.toRanged bound.definition d s.topFrame? hown
  have hsize : made.cache = s.store.tables.size := hmade.trans hsize
  have hgrown := s.homeFor_grows bound.definition d s.topFrame?
  have hU := Upkeep.guarding_kept ns made.cache hitem
  have hguards : (s.homeFor bound.definition d s.topFrame?).2.Guards ns made.cache item := by
    refine ⟨hheld.engine.toDirect.grow hgrown, hsize ▸ hpriv, fun hp htab => ?_⟩
    exact absurd (htab.trans hsize) (Nat.ne_of_lt (hheld.engine.pointer_lt (hgrown.pointer? hp)))
  have hold : ∀ id f, s.frame? id = some f → (Upkeep.guarding ns made.cache item).Housed
      (s.homeFor bound.definition d s.topFrame?).2 f := by
    intro id f hf
    have hlodged := hheld.frames id f hf
    have hca : f.cache < s.store.tables.size := hlodged.cache
    refine ⟨fun heq => absurd (heq.trans hsize) (Nat.ne_of_lt hca), trivial, fun hget heq => ?_⟩
    have hlt : _ < s.store.tables.size := hlodged.container hget
    exact Nat.ne_of_lt hlt (heq.trans hsize)
  obtain ⟨heng, hgr, hhoused⟩ := frameFor_housed hU.toPushable hd newCall hguards
    (fun _ _ _ => hdef ▸ hspares) trivial fun f hf => by
      obtain ⟨top, _, hf⟩ := Option.bind_eq_some_iff.mp hf
      exact hold top f hf
  rw [hframeFor] at heng hgr hhoused
  obtain ⟨hentered, _⟩ := enter_upheld hU.toPushable hs hfresh heng hhoused
    fun id f hf => (hold id f hf).growth hU.toPushable hgr
  exact ⟨⟨hfit, hentered, Nat.succ_pos _, hca⟩, hfr, rfl⟩

theorem find_cached (hs : s.Fit ns rest) {frame : Frame} (hfr : s.topFrame? = some frame)
    {r : Request} (hglob : r.globalKey = none)
    (hcached : frame.cached? s.store r.key = some (.value value)) :
    s.find r = (.ok (some value), 0) := by
  have hent : entryIn s.store r.key frame = some (.value value) := by rw [entryIn, hcached]
  exact find_in_top hfr hs hglob hent rfl

end Session

/-! ## 4. References -/

/-- What calls and frames inside come to with this fuel. -/
def Recur.within (fuel : Nat) : Recur := ⟨evaluateWithin fuel, frameWithin fuel⟩

theorem Recur.within_call (fuel : Nat) (call : Call) :
    (within (fuel + 1)).call call = (within fuel).value call := by
  simp only [within]
  rw [evaluateWithin]

theorem Recur.named_of_lookup (r : Recur)
    (hfd : run.session.ns.lookupFrom run.session.topDefinition?
      ((run.session.keepTarget? call.name).getD call.name) = .ok found)
    (hres : (run.session.lookup (request run.session.ns call found)).1 = .ok (some value)) :
    r.named call run =
      some (.ok value, run.on (run.session.lookup (request run.session.ns call found)).2) := by
  rw [named, Eval.session_bind_apply]
  refine Eval.bind_eq_ok.mpr ⟨found, run, Eval.walk_eq_ok.mpr ⟨hfd, rfl⟩, ?_⟩
  exact Eval.bind_eq_ok.mpr ⟨_, _, Eval.lift_eq_ok.mpr ⟨hres, rfl⟩, rfl⟩

theorem Recur.value_eq_named (r : Recur)
    (h : (isDotted call.name || !call.arguments.isEmpty) = true ∨
      run.session.argumentFor call.name = none) : r.value call run = r.named call run := by
  rw [value]
  split
  · rfl
  · rename_i hplain
    rw [Eval.session_bind_apply, h.resolve_left hplain]

theorem Binds.reference (h : Binds ns rest c item value run)
    (hfd : ns.lookupFrom run.session.topDefinition?
      ((run.session.keepTarget? item).getD item) = .ok found)
    (hglob : ∀ id d, found = some id → ns.get? id = some d → d.isGlobal = false) (r : Recur) :
    ∃ run', r.named (.plain item) run = some (.ok value, run') := by
  obtain ⟨frame, m, hinside, hiter, _, hslot, _⟩ := h
  have hns : run.session.ns = ns := hinside.inv.1.ns_eq
  have hkey : (Recur.request ns (.plain item) found).globalKey = none := by
    cases found with
    | none => rfl
    | some id =>
      cases hd : ns.get? id with
      | none => simp [Recur.request, hd]
      | some d => simp [Recur.request, hd, hglob id d rfl hd]
  have hcached : frame.cached? run.session.store item = some (.value value) := by
    rw [cached?, slotKey, hiter, hinside.cache]
    exact hslot
  have hfind := Session.find_cached hinside.inv.1 hinside.top hkey hcached
  refine ⟨_, r.named_of_lookup (hns.symm ▸ hfd) ?_⟩
  rw [Session.lookup_result, hns, hfind]

/-- The state that a step leaves. -/
def Eval.after {α : Type} (x : Eval α) (run : Run) : Run := ((x run).map (·.2)).getD run

theorem Eval.eq_after {α : Type} (x : Eval α) (run : Run)
    (h : ((x run).bind (·.1.toOption)).isSome = true) : ∃ a, x run = some (.ok a, x.after run) := by
  unfold after
  match x run, h with
  | some (.ok a, _), _ => exact ⟨a, rfl⟩

namespace Workspace

variable {limits : Limits} {w : Workspace}

/-- **The items of a loop survive their iteration.** Let a frame be pushed whose cache no site can
    share: there are no sites, or the frame recorded as root has another. Let `item` be a plain name that
    is no parameter there and means nothing, as it is and with the number of an iteration, and that is
    no alias of a durable definition. Then a loop over `item` in the frame, wherever the body of the
    frame comes to it, binds it in each iteration to the element; wherever the body of the loop then
    comes to a reference to `item`, whatever it has evaluated before, that yields the element. -/
theorem items_survive (hw : Reachable ns limits w) {name : String} {s pushed : Session}
    (hs : w.session? name = some s) {id : DefId} {arguments : List Argument} {newCall : Bool}
    (hpush : s.push id arguments newCall = (.ok (), pushed)) {frame : Frame}
    (hframe : pushed.topFrame? = some frame)
    (hcache : (∀ id d, ns.get? id = some d → d.isSite = false) ∨
      ∃ root, pushed.rootFrame? = some root ∧ root.cache ≠ frame.cache)
    {item : String} (hitem : DottedName.isDotted item = false)
    (hargument : pushed.argumentFor item = none)
    (hnothing : ns.lookupFrom (some frame.definition) item = .ok none)
    (hkeys : ∀ n id, ns.lookupFrom (some frame.definition) (DottedName.inLoop item (some n)) ≠
      .ok (some id))
    (halias : ∀ target, pushed.keepTarget? item = some target →
      ∃ found, ns.lookupFrom (some frame.definition) target = .ok found ∧
        ∀ id d, found = some id → ns.get? id = some d → d.isGlobal = false)
    {started : Session} (hstarted : started = pushed ∨ started = pushed.count .computation)
    (evaluator : Evaluator) (fuel : Nat) {body range inner : Body} {outer begun run : Run}
    {value : Value}
    (houter : (Recur.within (fuel + 1)).Visits (fun _ => True) body ⟨started, evaluator⟩
      (.each item range inner) outer)
    (hiterates : (Recur.within (fuel + 1)).Iterates item range inner outer value begun)
    (hinner : (Recur.within (fuel + 1)).Visits (· ≠ item) inner begun (.ref (.plain item)) run) :
    ∃ run', (Recur.within (fuel + 1)).body (.ref (.plain item)) run = some (.ok value, run') := by
  obtain ⟨rest, hfit⟩ := hw.fit hs
  obtain ⟨hlodged, _⟩ := hw.lodged.session hs
  have hspares := Namespace.spares_of_nothing hnothing hkeys
  have hD := Discipline.guarding_lawful ns rest frame.cache hitem
  have habides : (Recur.within (fuel + 1)).Abides (Discipline.guarding ns rest frame.cache item) :=
    abides_within hD (fuel + 1)
  -- the item is bound where the body of the loop comes to the reference
  have hpushed := Session.push_inside hitem hfit hlodged hpush hframe hcache hspares
  have hbegin : Inside ns rest frame.cache item frame started ∧
      pushed.Same Frame.unlooped started ∧ started.store = pushed.store := by
    rcases hstarted with rfl | rfl
    · exact ⟨hpushed, .refl _ _, rfl⟩
    · obtain ⟨hinv, hsame, _⟩ := hD.count hpushed.inv
      exact ⟨⟨hinv, hframe, rfl⟩, hsame.unlooped_of_bare, rfl⟩
  obtain ⟨hstart, hcounted, hstore⟩ := hbegin
  obtain ⟨⟨_, hinside⟩, hsame⟩ := houter.inside hitem habides hstart
  obtain ⟨⟨_, hinside'⟩, hsame', hbindings, hbinds⟩ := hiterates.inside hitem habides hinside
  obtain ⟨⟨_, hinside''⟩, hsame''⟩ := hinner.inside hitem habides hinside'
  have hbound : Binds ns rest frame.cache item value run := by
    refine hinner.binds hitem habides (hbinds value ?_)
    rw [hbindings]
    simp [boundItem]
  -- its name stands for what it stood for in the new frame
  have hsame : pushed.Same Frame.unlooped run.session :=
    hcounted.trans (hsame.trans (hsame'.trans hsame''))
  have hnames : pushed.store.Names run.session.store := by
    have hQ : Tracks (Session.Upholds (.naming ns pushed.store) ns rest) :=
      Session.upholds_tracks (Upkeep.naming_open ns pushed.store)
    have hr : (Recur.within (fuel + 1)).Keeps _ := keeps_within hQ (fuel + 1)
    have hdirect := hstart.inv.2.1.engine.toDirect
    have hheld : started.Upheld (.naming ns pushed.store) :=
      ⟨⟨hdirect, hstore ▸ ⟨Nat.le_refl _, fun _ _ => rfl⟩⟩, fun _ _ _ =>
        ⟨trivial, trivial, fun _ => trivial⟩⟩
    have htracked := hQ.trans (houter.tracks hQ hr)
      (hQ.trans (hiterates.tracks hQ hr) (hinner.tracks hQ hr))
    exact (htracked hstart.inv.1 hheld).2.1.engine.2
  have hkeeps : ∀ id f, pushed.frame? id = some f → f.keeps < pushed.store.keepMaps.size := by
    obtain ⟨_, hheld, _⟩ :=
      Session.push_upholds (Upkeep.lodging_open ns) s id arguments newCall hfit hlodged
    rw [hpush] at hheld
    exact fun id f hf => (hheld.frames id f hf).keeps
  have hargument := (hsame.argumentFor_eq hpushed.inv.1 hinside''.inv.1 item).trans hargument
  have htarget := hsame.keepTarget?_eq hpushed.inv.1 hinside''.inv.1 hnames hkeeps hitem
  have hdefinition : run.session.topDefinition? = some frame.definition := by
    obtain ⟨top, htop, hread⟩ := hsame.topFrame? hframe
    rw [Session.topDefinition?, htop]
    exact congrArg some (congrArg Frame.definition hread :)
  have hfound : ∃ found, ns.lookupFrom run.session.topDefinition?
      ((run.session.keepTarget? item).getD item) = .ok found ∧
        ∀ id d, found = some id → ns.get? id = some d → d.isGlobal = false := by
    rw [hdefinition, htarget]
    cases hkept : pushed.keepTarget? item with
    | none => exact ⟨none, hnothing, fun _ _ h => by cases h⟩
    | some target => exact halias target hkept
  obtain ⟨found, hfound, hglobal⟩ := hfound
  obtain ⟨run', hrun'⟩ := hbound.reference hfound hglobal (Recur.within fuel)
  refine ⟨run', ?_⟩
  rw [Recur.body, Recur.within_call, Recur.value_eq_named _ (.inr hargument), hrun']

/-- The guests at a table. -/
def guests : Body := .literal (.list [.text "first", .text "second"])

/-- The place of a guest, after a toast. -/
def place : Body := .list [.ref (.plain "toast"), .ref (.plain "guest")]

/-- A house with a table that has a place for each guest. -/
def party (kind : Kind) : Namespace where
  definitions := #[
    { name := "house", fullName := "house", kind := .site, site := some 0
      children := (Dictionary.empty.insert "table" 1).insert "toast" 2 },
    { name := "table", fullName := "house.table", kind, owner := some 0, site := some 0
      body := .each "guest" guests place },
    { name := "toast", fullName := "house.toast", kind, owner := some 0, site := some 0
      body := .each "guest" (.literal (.list [.text "all"])) (.literal (.text "cheers")) }]
  roots := Dictionary.empty.insert "house" 0

/-- A stack with the house for its only frame. -/
def housed (kind : Kind) : Session :=
  (Session.push ⟨.new (party kind) {}, .new 0 {}, {}⟩ 0 [] true).2

/-- The same with a frame for the table. -/
def laid : Session := ((housed .plain).push 1 [] true).2

theorem items_survive_toast :
    ∃ begun run run',
      (Recur.within (20 + 1)).Iterates "guest" guests place ⟨laid, {}⟩ (.text "first") begun ∧
      (Recur.within (20 + 1)).Visits (· ≠ "guest") place begun (.ref (.plain "guest")) run ∧
      (Recur.within (20 + 1)).body (.ref (.plain "guest")) run =
        some (.ok (.text "first"), run') := by
  obtain ⟨w, hw, hs⟩ : ∃ w, Reachable (party .plain) {} w ∧ w.session? "main" = some (housed .plain) :=
    reachable_of_moves (.single (.push 0 [] true))
  have hpush : (housed .plain).push 1 [] true = (.ok (), laid) :=
    Prod.ext (by decide +kernel) rfl
  obtain ⟨frame, hframe, hread⟩ := (Option.any_eq_true (fun frame => frame.definition = 1 ∧
    laid.rootFrame?.any (·.cache ≠ frame.cache)) laid.topFrame?).mp (by decide +kernel)
  obtain ⟨hdefinition, hother⟩ := of_decide_eq_true hread
  obtain ⟨root, hroot, hne⟩ := (Option.any_eq_true _ _).mp hother
  have hkeys : ∀ n id, (party .plain).lookupFrom (some frame.definition)
      (DottedName.inLoop "guest" (some n)) ≠ .ok (some id) := by
    intro n id hid
    have hunmarked : ∀ word ∈ (party .plain).words, DottedName.isLoopKey word = false := by decide
    have hkey := DottedName.isLoopKey_eq_false fun part hpart =>
      hunmarked part (Namespace.lookupFrom_words hid part hpart)
    simp [DottedName.isLoopKey, DottedName.inLoop] at hkey
  have hkept : laid.keepTarget? "guest" = none := by decide +kernel
  obtain ⟨_, hbegin⟩ := (Recur.beginIteration "guest" (.text "first")).eq_after ⟨laid, {}⟩
    (by decide +kernel)
  obtain ⟨_, hbefore⟩ := ((Recur.within (20 + 1)).bodies [.ref (.plain "toast")]).eq_after
    ((Recur.beginIteration "guest" (.text "first")).after ⟨laid, {}⟩) (by decide +kernel)
  have hiterates : (Recur.within (20 + 1)).Iterates "guest" guests place ⟨laid, {}⟩ (.text "first")
      ((Recur.beginIteration "guest" (.text "first")).after ⟨laid, {}⟩) :=
    ⟨_, _, [], [.text "second"], _, _, rfl, rfl, rfl, hbegin⟩
  have hvisits : (Recur.within (20 + 1)).Visits (· ≠ "guest") place
      ((Recur.beginIteration "guest" (.text "first")).after ⟨laid, {}⟩) (.ref (.plain "guest")) _ :=
    .list hbefore (.here _ _)
  obtain ⟨run', hrun'⟩ := items_survive hw hs hpush hframe
    (.inr ⟨root, hroot, of_decide_eq_true hne⟩)
    (by decide) (by decide +kernel) (hdefinition ▸ (by decide +kernel)) hkeys
    (fun target htarget => by rw [hkept] at htarget; cases htarget) (.inl rfl) {} 20 (.here _ _)
    hiterates hvisits
  exact ⟨_, _, run', hiterates, hvisits, hrun'⟩

/-- **Sites share the items of their loops.** If the table and the toast are sites, the toast binds
    the guest of the first place anew. -/
theorem items_taken_by_site :
    (party .site).lookupFrom (some 1) "guest" = .ok none ∧
      (evaluateWithin 20 (.plain "table") ⟨housed .site, {}⟩).bind (·.1.toOption) =
        some (.list [.list [.list [.text "cheers"], .text "all"],
          .list [.list [.text "cheers"], .text "second"]]) := by
  decide +kernel

end Workspace

end KeepTree
