import KeepTree.Proofs.Durable.Pointers
import KeepTree.Proofs.Evaluation.Iterations
import KeepTree.Proofs.Recycling.Moves

/-!
# Sessions that differ in items

Loop items have slots of their own, under keys that tell the name and the iteration. Of two sessions
one may hold other items than the second, but for slots that are safe. In all else they are equal.
Whatever is done to both leaves them so, and a search tells them apart only by coming to an item:

* `Session.Differs.push`, `put`, … -- **what is done to both leaves them so**;
* `Session.Differs.find_eq` -- **a search finds the same in both**, if it comes to no item, or to a safe
  one first.
-/

namespace KeepTree

open List

variable {names : List String} {safe safe' : List Location} {l : Location}

/-- The slot of an item of one of these names, in some iteration. -/
def Location.IsItem (names : List String) (l : Location) : Prop :=
  ∃ name ∈ names, ∃ n, l.key = DottedName.inLoop name (some n)

theorem Location.not_isItem {name : String} (hmark : DottedName.isLoopKey name = false)
    (iteration : Option Nat) (hname : iteration = none ∨ name ∉ names) (t : TableId) :
    ¬ (⟨t, DottedName.inLoop name iteration⟩ : Location).IsItem names := by
  rintro ⟨item, hitem, n, hkey⟩
  simp only at hkey
  cases iteration with
  | none =>
    have hmarked := DottedName.isLoopKey_inLoop item n
    rw [← hkey, DottedName.inLoop, hmark] at hmarked
    cases hmarked
  | some m =>
    obtain ⟨rfl, _⟩ := DottedName.inLoop_inj hkey
    exact hname.elim (fun h => by cases h) fun h => h hitem

/-! ## 1. Stores -/

namespace Store

theorem at?_newTable_empty (s : Store) (l : Location) :
    (s.newTable .empty).2.at? l = s.at? l := by
  simp only [at?, get?, table, newTable, Array.getElem?_push]
  split
  · rename_i heq
    rw [heq]
    simp
  · rfl

/-- Equal but for items of these names, in slots that are not safe. -/
structure Differs (names : List String) (safe : List Location) (s t : Store) : Prop where
  keepMaps_eq : t.keepMaps = s.keepMaps
  size_eq : t.tables.size = s.tables.size
  slot : ∀ l : Location, t.at? l = s.at? l ∨ l.IsItem names ∧ l ∉ safe
  at_pointer : ∀ l p, t.at? l = some (.pointer p) ↔ s.at? l = some (.pointer p)

variable {s t : Store}

namespace Differs

variable (h : s.Differs names safe t)
include h

theorem slot_eq (hl : ¬ l.IsItem names) : t.at? l = s.at? l := (h.slot l).resolve_right fun h => hl h.1

theorem safe_eq (hl : l ∈ safe) : t.at? l = s.at? l := (h.slot l).resolve_right fun h => h.2 hl

theorem mono (hsafe : safe' ⊆ safe) : s.Differs names safe' t :=
  { h with slot := fun l => (h.slot l).imp_right fun ⟨hitem, hl⟩ => ⟨hitem, fun hmem => hl (hsafe hmem)⟩ }

theorem pointer?_eq (k : KeepMapId) (name : String) : t.pointer? k name = s.pointer? k name := by
  rw [pointer?, pointer?, keepMap, keepMap, h.keepMaps_eq]

theorem write (id : TableId) (key : String) (entry : Entry) :
    (s.write id key entry).Differs names safe (t.write id key entry) where
  keepMaps_eq := h.keepMaps_eq
  size_eq := by simp [Store.write, h.size_eq]
  slot other := by
    change (t.set ⟨id, key⟩ entry).at? other = (s.set ⟨id, key⟩ entry).at? other ∨ _
    rw [at?_set, at?_set, h.size_eq]
    split
    · exact .inl rfl
    · exact h.slot other
  at_pointer other p := by
    change (t.set ⟨id, key⟩ entry).at? other = _ ↔ (s.set ⟨id, key⟩ entry).at? other = _
    rw [at?_set, at?_set, h.size_eq]
    split
    · rfl
    · exact h.at_pointer other p

theorem newTable : (t.newTable .empty).1 = (s.newTable .empty).1 ∧
    (s.newTable .empty).2.Differs names safe (t.newTable .empty).2 := by
  refine ⟨h.size_eq, h.keepMaps_eq, ?_, fun l => ?_, fun l p => ?_⟩
  · simp [Store.newTable, h.size_eq]
  · rw [at?_newTable_empty, at?_newTable_empty]
    exact h.slot l
  · rw [at?_newTable_empty, at?_newTable_empty]
    exact h.at_pointer l p

theorem newKeepMap (pointers : KeepMap) : (t.newKeepMap pointers).1 = (s.newKeepMap pointers).1 ∧
    (s.newKeepMap pointers).2.Differs names safe (t.newKeepMap pointers).2 := by
  have hmaps := h.keepMaps_eq
  refine ⟨congrArg Array.size hmaps, ?_, h.size_eq, h.slot, h.at_pointer⟩
  simp [Store.newKeepMap, hmaps]

theorem keep (k : KeepMapId) (name : String) (p : Pointer) :
    (s.keep k name p).Differs names safe (t.keep k name p) :=
  ⟨by simp [Store.keep, h.keepMaps_eq], h.size_eq, h.slot, h.at_pointer⟩

end Differs

end Store

/-! ### Items that are bound -/

section

variable {frame : Frame} {s t : Store}

theorem Frame.bindItems_keepMaps (items : List (String × Value)) (s : Store) :
    (frame.bindItems items s).keepMaps = s.keepMaps := by
  induction items generalizing s with
  | nil => rfl
  | cons item rest ih => exact ih _

theorem Frame.bindItems_value (hlt : frame.cache < s.tables.size) {items : List (String × Value)}
    (h : (∃ v, s.at? l = some (.value v)) ∨ ∃ item ∈ items, l = frame.ownSlot item.1) :
    ∃ v, (frame.bindItems items.reverse s).at? l = some (.value v) := by
  rw [bindItems_at hlt]
  cases hfd : items.find? fun item => frame.ownSlot item.1 = l with
  | some item => exact ⟨item.2, rfl⟩
  | none =>
    rcases h with hold | ⟨item, hmem, rfl⟩
    · exact hold
    · simpa using find?_eq_none.mp hfd item hmem

/-- Items are bound in an iteration, in the first store those of the loops around, too. The slots that
    the second has items for are safe. -/
theorem Store.Differs.bindItems (h : s.Differs names safe t)
    (hdir : ∀ l p, s.at? l ≠ some (.pointer p)) (hlt : frame.cache < s.tables.size)
    {n : Nat} (hiter : frame.iteration = some n) {inner items : List (String × Value)}
    (hitems : ∀ item ∈ items, item.1 ∈ names)
    (hsafe : ∀ l ∈ safe', (∃ item ∈ inner, l = frame.ownSlot item.1) ∨
      l ∈ safe ∧ ∃ item ∈ inner, ∃ m, l.key = DottedName.inLoop item.1 (some m)) :
    (frame.bindItems (inner ++ items).reverse s).Differs names safe'
      (frame.bindItems inner.reverse t) where
  keepMaps_eq := by rw [Frame.bindItems_keepMaps, Frame.bindItems_keepMaps, h.keepMaps_eq]
  size_eq := by rw [Frame.bindItems_size, Frame.bindItems_size, h.size_eq]
  slot l := by
    rw [Frame.bindItems_at hlt, Frame.bindItems_at (h.size_eq ▸ hlt), find?_append]
    cases hfd : inner.find? fun item => frame.ownSlot item.1 = l with
    | some item => exact .inl rfl
    | none =>
      have hnew : ∀ item ∈ inner, l ≠ frame.ownSlot item.1 := fun item hmem heq => by
        simpa [heq] using find?_eq_none.mp hfd item hmem
      cases hfd' : items.find? fun item => frame.ownSlot item.1 = l with
      | none =>
        refine (h.slot l).imp_right fun ⟨hitem, hl⟩ => ⟨hitem, fun hmem => ?_⟩
        rcases hsafe l hmem with ⟨item, hmem, heq⟩ | ⟨hold, _⟩
        · exact hnew item hmem heq
        · exact hl hold
      | some item =>
        have hslot : frame.ownSlot item.1 = l := by simpa using find?_some hfd'
        have hkey : l.key = DottedName.inLoop item.1 (some n) := by
          rw [← hslot, Frame.ownSlot, Frame.slotKey, hiter]
        refine .inr ⟨⟨item.1, hitems item (mem_of_find?_eq_some hfd'), n, hkey⟩, fun hmem => ?_⟩
        rcases hsafe l hmem with ⟨other, hmem, heq⟩ | ⟨_, other, hmem, m, hoth⟩
        · exact hnew other hmem heq
        · obtain ⟨hname, _⟩ := DottedName.inLoop_inj (hoth.symm.trans hkey)
          exact hnew other hmem (hname ▸ hslot.symm)
  at_pointer l p := by
    have hdir' : t.at? l ≠ some (.pointer p) := fun hat => hdir l p ((h.at_pointer l p).mp hat)
    rw [Frame.bindItems_at hlt, Frame.bindItems_at (h.size_eq ▸ hlt)]
    cases inner.find? fun item => frame.ownSlot item.1 = l <;>
      cases (inner ++ items).find? fun item => frame.ownSlot item.1 = l <;> simp [hdir, hdir']

end

/-! ## 2. Sessions -/

/-- Ids are the same, and the stores are equal but for items. -/
abbrev Mirroring.differing (names : List String) (safe : List Location) : Mirroring where
  ids := Eq
  faults := Eq
  pools := Eq
  stores := Store.Differs names safe

theorem rel_eq_iff {α : Type} {x y : Option α} : Option.Rel Eq x y ↔ x = y := by
  constructor
  · rintro (h | _)
    · rw [h]
    · rfl
  · rintro rfl
    cases x with
    | none => exact .none
    | some a => exact .some rfl

theorem Frame.Over.eq {f g : Frame} (h : f.Over Eq g) : f = g := by
  obtain ⟨prev, rfl, hprev⟩ := h
  rw [← rel_eq_iff.mp hprev]

theorem Frame.over_self (f : Frame) : f.Over Eq f := ⟨f.previous, rfl, rel_eq_iff.mpr rfl⟩

theorem Stack.Mirrors.eq {x y : Stack} (h : x.Mirrors Eq y) : y = x := by
  obtain ⟨htop, hroot, hsize, hstash⟩ := h
  rw [forall₂_eq_eq_eq] at hstash
  cases y
  cases rel_eq_iff.mp htop
  cases rel_eq_iff.mp hroot
  cases hsize
  cases hstash
  rfl

instance : (Mirroring.differing names safe).Lawful where
  faithful :=
    { pointer?_eq := Store.Differs.pointer?_eq
      at_pointer := Store.Differs.at_pointer
      write := fun h id key _ _ => h.write id key _
      newTable := Store.Differs.newTable
      newKeepMap := fun h => h.newKeepMap .empty
      keep := Store.Differs.keep }
  same _ := rfl
  stale h := h ▸ rfl
  mismatch h := h ▸ rfl
  oneToOne _ _ _ _ _ h h' := h ▸ h' ▸ Iff.rfl
  frames {p q} h {a b} hab := by
    rw [← h, ← hab]
    cases p.get? a with
    | none => exact .none
    | some f => exact .some f.over_self
  set h _ _ _ _ _ _ hab _ _ hnew := h ▸ hab ▸ hnew.eq ▸ rfl
  modify h _ _ hab _ _ := h ▸ hab ▸ rfl
  unpin h _ _ hab := h ▸ hab ▸ ⟨rfl, rfl⟩

namespace Session

/-- Equal but for items in the store. -/
abbrev Differs (names : List String) (safe : List Location) : Session → Session → Prop :=
  Mirrors (.differing names safe)

variable {s t : Session}

theorem differs_refl (s : Session) : s.Differs names safe s :=
  ⟨⟨_, _, _, ⟨rfl, rfl, fun _ => .inl rfl, fun _ _ => .rfl⟩, rfl⟩, ⟨rfl, rfl, rfl⟩,
    ⟨rel_eq_iff.mpr rfl, rel_eq_iff.mpr rfl, rfl, forall₂_same.mpr fun _ _ => rfl⟩⟩

namespace Differs

section

variable (h : s.Differs names safe t)
include h

theorem frame?_eq : t.frame? = s.frame? := by
  funext id
  rw [frame?, frame?, ← h.family.pool]

theorem top_eq : t.top = s.top := by
  simp only [top, topId, liveFrame, h.stack.eq, h.frame?_eq]

theorem topFrame?_eq : t.topFrame? = s.topFrame? := by
  rw [topFrame?, topFrame?, h.stack.eq, h.frame?_eq]

theorem frames_eq : t.frames = s.frames := by
  rw [frames, frames, h.stack.eq, ← h.family.pool]

theorem reads : s.Reads (.differing names safe) t :=
  ⟨h, h.frames_eq ▸ forall₂_same.mpr fun entry _ => ⟨rfl, entry.2.over_self⟩⟩

theorem withStore {x y : Store} (hxy : x.Differs names safe' y) :
    (s.withEngine (s.engine.withStore x)).Differs names safe' (t.withEngine (t.engine.withStore y)) :=
  ⟨h.engine.withStore hxy, ⟨h.family.root_eq, h.family.clock_eq, h.family.pool⟩, h.stack⟩

theorem mono (hsafe : safe' ⊆ safe) : s.Differs names safe' t := by
  obtain ⟨store, recycle, recycled, hsto, heq⟩ := h.engine
  exact ⟨⟨store, recycle, recycled, hsto.mono hsafe, heq⟩,
    ⟨h.family.root_eq, h.family.clock_eq, h.family.pool⟩, h.stack⟩

theorem enter {f g : Frame} (hfg : f.Over Eq g) {engine engine' : Engine}
    (heng : engine.Parallels (Store.Differs names safe) engine') :
    (s.enter f engine).Differs names safe (t.enter g engine') := by
  unfold Session.enter
  rw [h.stack.eq, ← h.family.pool, ← hfg.eq]
  exact ⟨heng.push _ _ _, ⟨h.family.root_eq, congrArg (· + 1) h.family.clock_eq, rfl⟩,
    ⟨.some rfl, rel_eq_iff.mpr rfl, rfl, forall₂_same.mpr fun _ _ => rfl⟩⟩

end

theorem push (h : s.Differs names safe t) (id : DefId) (args : List Argument) (newCall : Bool) :
    (t.push id args newCall).1 = (s.push id args newCall).1 ∧
      (s.push id args newCall).2.Differs names safe (t.push id args newCall).2 := by
  unfold Session.push
  match s.preparePush id args, t.preparePush id args, h.preparePush id args with
  | _, _, .error rfl => exact ⟨rfl, h⟩
  | .ok (bound, d, prev), .ok (_, _, prev'), .ok ⟨rfl, rfl, hprev⟩ =>
    obtain ⟨hkept, hfr, heng⟩ := h.frameFor bound d hprev newCall
    exact ⟨congrArg Fault.ofWalk hkept, h.enter hfr heng⟩

theorem put (h : s.Differs names safe t) (key : String) (holder : Holder) :
    (t.put key holder).1 = (s.put key holder).1 ∧
      (s.put key holder).2.Differs names safe (t.put key holder).2 := by
  unfold Session.put
  rw [h.propagationLevels_eq]
  obtain ⟨hres, hmirrors⟩ := h.reads.putWithin key holder s.limits.propagationLevels
  exact ⟨hres.eq.symm, hmirrors⟩

end Differs

/-! ### Searching -/

theorem search_cut (s : Session) (origin : DefId) (r : Request) (v : Value) (iter : Option Nat)
    (after : List (Entry × Option Nat)) : ∀ before : List (Entry × Option Nat),
    s.search origin r (before ++ (.value v, iter) :: after) =
      s.search origin r (before ++ [(.value v, iter)])
  | [] => rfl
  | (entry, iter') :: rest => by
    rw [cons_append, cons_append, search, search, search_cut s origin r v iter after rest]

theorem search_ne_none (s : Session) (origin : DefId) (r : Request) (v : Value) (iter : Option Nat)
    (after : List (Entry × Option Nat)) : ∀ before : List (Entry × Option Nat),
    (s.search origin r (before ++ (.value v, iter) :: after)).1 ≠ .ok none
  | [] => nofun
  | (entry, iter') :: rest => by
    rw [cons_append, search]
    split
    · exact search_ne_none s origin r v iter after rest
    · rename_i hne
      exact fun h => hne _ (Prod.ext h rfl)

section

variable {ns : Namespace} {rest : List Stack} {frame : Frame} {r : Request}

theorem reached_top (hs : s.Fit ns rest) (hfr : s.topFrame? = some frame) (r : Request) :
    ∃ more, (reached s.ns frame.definition r s.frames).1 = frame :: more := by
  obtain ⟨id, htop, hf⟩ := Option.bind_eq_some_iff.mp hfr
  rw [frames_cons hs.sound htop hf, reached]
  split <;> exact ⟨_, rfl⟩

theorem candidates_of_value {more : List Frame} {v : Value}
    (hmore : (reached s.ns frame.definition r s.frames).1 = frame :: more)
    (hval : s.store.at? (frame.ownSlot r.key) = some (.value v)) :
    s.candidates r frame = s.durableCandidates r frame ++ (.value v, frame.iteration) ::
      more.filterMap fun f => (entryIn s.store r.key f).map (·, f.iteration) := by
  have hent : entryIn s.store r.key frame = some (.value v) := by
    simp only [Store.at?, Frame.ownSlot] at hval
    simp only [entryIn, Frame.cached?, hval]
  rw [candidates, frameCandidates, hmore, filterMap_cons, hent]
  rfl

theorem find_ne_none (hs : s.Fit ns rest) (hfr : s.topFrame? = some frame) {v : Value}
    (hval : s.store.at? (frame.ownSlot r.key) = some (.value v)) : (s.find r).1 ≠ .ok none := by
  obtain ⟨more, hmore⟩ := reached_top hs hfr r
  have hsome := s.search_ne_none frame.definition r v frame.iteration
    (more.filterMap fun f => (entryIn s.store r.key f).map (·, f.iteration))
    (s.durableCandidates r frame)
  rw [← candidates_of_value hmore hval] at hsome
  rw [find_of_top hfr]
  split
  · rename_i hops hfd
    exact absurd (congrArg Prod.fst hfd) hsome
  · exact hsome

end

namespace Differs

variable {ns : Namespace} {rest : List Stack} (h : s.Differs names safe t) (hdir : s.engine.Direct ns)
  (hkept : ∀ {k name p}, s.store.pointer? k name = some p →
    ∀ iter, ¬ (p.location iter).IsItem names)
include h

theorem resolve_eq (hdir : s.engine.Direct ns) {origin : DefId} {r : Request} {entry : Entry}
    {iter : Option Nat} (hent : ∀ p, entry = .pointer p → ¬ (p.location iter).IsItem names) :
    t.resolve origin r entry iter = s.resolve origin r entry iter := by
  cases entry with
  | pointer p =>
    have hfollow : t.store.follow iter s.limits.maxPointerHops p =
        s.store.follow iter s.limits.maxPointerHops p := by
      unfold Store.follow
      rw [Store.chase_congr h.store.at_pointer]
      split
      · rename_i last hops hchase
        obtain rfl := hdir.chase hchase
        exact congrArg (fun found => Except.ok (found, hops)) (h.store.slot_eq (hent _ rfl))
      · rfl
    simp only [Session.resolve, h.ns_eq, h.maxPointerHops_eq, hfollow]
  | _ => simp only [Session.resolve, h.ns_eq]

theorem durableCandidates_eq {r : Request} {frame : Frame}
    (hglobal : ∀ key ∈ r.globalKey, ∀ t, ¬ (⟨t, frame.slotKey key⟩ : Location).IsItem names) :
    t.durableCandidates r frame = s.durableCandidates r frame := by
  have htables : t.durableTables r frame = s.durableTables r frame := by
    simp only [durableTables, h.ns_eq, h.engine.durable_eq]
  unfold durableCandidates
  rw [htables]
  cases hkey : r.globalKey with
  | none => rfl
  | some key =>
    refine filterMap_congr fun table _ => ?_
    have hslot := h.store.slot_eq (hglobal key hkey table)
    simp only [Store.at?] at hslot
    simp only [hslot]

theorem entryIn_eq {key : String} {f : Frame}
    (hslot : t.store.at? (f.ownSlot key) = s.store.at? (f.ownSlot key)) :
    entryIn t.store key f = entryIn s.store key f := by
  simp only [Store.at?, Frame.ownSlot] at hslot
  simp only [entryIn, Frame.cached?, Frame.keepPointer?, hslot, h.store.pointer?_eq]

include hdir hkept

theorem agree_of_mem {r : Request} {frame : Frame} {entry : Entry × Option Nat} (origin : DefId)
    (hmem : entry ∈ s.candidates r frame) : s.Agree t origin r entry entry := by
  refine h.resolve_eq hdir fun p hp => ?_
  rcases mem_append.mp hmem with hmem | hmem
  · unfold durableCandidates at hmem
    split at hmem
    · cases hmem
    · obtain ⟨table, _, hfd⟩ := mem_filterMap.mp hmem
      obtain ⟨found, hget, rfl⟩ := Option.map_eq_some_iff.mp hfd
      exact absurd (hget.trans (congrArg some hp)) hdir.no_pointer
  · obtain ⟨f, _, hfd⟩ := mem_filterMap.mp hmem
    obtain ⟨found, hent, rfl⟩ := Option.map_eq_some_iff.mp hfd
    unfold entryIn at hent
    split at hent
    · rename_i cached hget
      obtain rfl := Option.some.inj hent
      exact absurd (hget.trans (congrArg some hp)) hdir.no_pointer
    · obtain ⟨p', hp', heq⟩ := Option.map_eq_some_iff.mp hent
      cases heq.trans hp
      exact hkept hp' _

/-- **A search finds the same in both**, if it comes to no item, or to a safe one first. -/
theorem find_eq (hs : s.Fit ns rest) (r : Request)
    (hglobal : ∀ frame, s.topFrame? = some frame → ∀ key ∈ r.globalKey, ∀ t,
      ¬ (⟨t, frame.slotKey key⟩ : Location).IsItem names)
    (hkey : ∀ frame, s.topFrame? = some frame →
      (∀ f ∈ (reached s.ns frame.definition r s.frames).1, ¬ (f.ownSlot r.key).IsItem names) ∨
        frame.ownSlot r.key ∈ safe ∧ ∃ v, s.store.at? (frame.ownSlot r.key) = some (.value v)) :
    t.find r = s.find r := by
  cases hfr : s.topFrame? with
  | none =>
    rw [find_of_no_top hfr, find_of_no_top (h.topFrame?_eq.trans hfr), h.stack.eq]
  | some frame =>
    have hdur := h.durableCandidates_eq (hglobal frame hfr)
    have hagree : ∀ entry ∈ s.candidates r frame, s.Agree t frame.definition r entry entry :=
      fun _ hmem => h.agree_of_mem hdir hkept frame.definition hmem
    have hending : t.searchEnding r frame.definition = s.searchEnding r frame.definition := by
      rw [searchEnding, searchEnding, h.ns_eq, h.frames_eq]
    rw [find_of_top hfr, find_of_top (h.topFrame?_eq.trans hfr), hending]
    suffices hsearch : t.search frame.definition r (t.candidates r frame) =
        s.search frame.definition r (s.candidates r frame) by rw [hsearch]
    rcases hkey frame hfr with hreach | ⟨hsafe, v, hval⟩
    · have hcands : t.candidates r frame = s.candidates r frame := by
        rw [candidates, candidates, hdur, frameCandidates, frameCandidates, h.ns_eq, h.frames_eq]
        refine congrArg _ (filterMap_congr fun f hmem => ?_)
        rw [h.entryIn_eq (h.store.slot_eq (hreach f hmem))]
      rw [hcands]
      exact search_congr (forall₂_same.mpr hagree)
    · -- a plain value answers whatever is asked
      obtain ⟨more, hmore⟩ := reached_top hs hfr r
      have hcands := candidates_of_value hmore hval
      have hcands' := candidates_of_value (s := t) (by rw [h.ns_eq, h.frames_eq, hmore])
        ((h.store.safe_eq hsafe).trans hval)
      rw [hdur] at hcands'
      rw [hcands] at hagree
      rw [hcands, hcands', search_cut t, search_cut s]
      refine search_congr (forall₂_same.mpr fun entry hmem => hagree entry ?_)
      rcases mem_append.mp hmem with hmem | hmem
      · exact mem_append_left _ hmem
      · exact mem_append_right _ (mem_singleton.mp hmem ▸ mem_cons_self)

omit hdir hkept in
theorem lookup {r : Request} (hfind : t.find r = s.find r) :
    (t.lookup r).1 = (s.lookup r).1 ∧ (s.lookup r).2.Differs names safe (t.lookup r).2 := by
  unfold Session.lookup
  rw [hfind]
  obtain ⟨result, hops⟩ := s.find r
  have hprepared := (h.prepare r).count (f := fun c => c.hops hops) fun _ _ => rfl
  cases result with
  | ok found =>
    refine ⟨rfl, h.withEngine (hprepared.count fun c n => ?_)⟩
    cases found <;> rfl
  | error fault => exact ⟨rfl, h.withEngine hprepared⟩

end Differs

end Session

end KeepTree
