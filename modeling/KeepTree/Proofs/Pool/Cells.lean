import KeepTree.Frame.Pool

/-!
# The cells of a pool

What each operation on a pool does to the frame behind an id, and to the number of live frames with
a property:

* `get?_set`, `get?_retire`, `get?_alloc` -- one id changes, every other reads as before;
* `Tidy` -- the free list names retired slots only, each once, and `live` is the number of live
  slots; every operation keeps it, whatever the frames say.
-/

namespace KeepTree

open Array

/-- The slot holds a live frame with a property. -/
def Slot.holds (p : Frame → Bool) : Slot → Bool
  | .live _ frame => p frame
  | .retired _ _ => false

theorem ClearFrame.copyOnto_eq (target : ClearFrame) (source : Frame) (sharing : Bool) (store : Store) :
    target.copyOnto source sharing store = source.copy sharing store := by
  have hclear := target.isClear
  have hlinks : target.frame.links = 0 := congrArg Frame.links hclear
  have hpins : target.frame.pins = 0 := congrArg Frame.pins hclear
  unfold ClearFrame.copyOnto Frame.copy
  rw [hlinks, hpins]
  cases sharing <;> rfl

namespace Pool

variable {pool : Pool} {id other : FrameId} {frame : Frame} {cleared : ClearFrame}

/-! ## 1. One frame -/

theorem get?_eq_some_iff :
    pool.get? id = some frame ↔ pool.slots[id.index]? = some (.live id.generation frame) := by
  unfold get?
  cases h : pool.slots[id.index]? with
  | none => simp
  | some slot =>
    cases slot with
    | retired gen _ => simp [Slot.frame?]
    | live gen found =>
      simp only [Option.bind_some, Slot.frame?, Option.some.injEq, Slot.live.injEq]
      by_cases hg : gen = id.generation <;> simp [hg]

theorem index_lt (h : pool.get? id = some frame) : id.index < pool.slots.size := by
  have hslot := get?_eq_some_iff.mp h
  exact (Array.getElem?_eq_some_iff.mp hslot).1

theorem get?_eq_none_of_index_eq (h : pool.get? id = some frame) (hne : other ≠ id)
    (hidx : other.index = id.index) : pool.get? other = none := by
  have hslot := get?_eq_some_iff.mp h
  have hgen : id.generation ≠ other.generation := by
    intro e
    cases other
    cases id
    simp_all
  unfold get?
  rw [hidx, hslot, Option.bind_some, Slot.frame?, if_neg hgen]

theorem get?_congr_slot {pool pool' : Pool} (h : pool'.slots[id.index]? = pool.slots[id.index]?) :
    pool'.get? id = pool.get? id := by
  unfold get?
  rw [h]

section

variable (h : pool.get? id = some frame)
include h

theorem get?_set (new : Frame) (other : FrameId) :
    (pool.set id new).get? other = if other = id then some new else pool.get? other := by
  have hlt := index_lt h
  by_cases hoth : other = id
  · subst hoth
    rw [if_pos rfl, get?_eq_some_iff]
    simp [set, hlt]
  · rw [if_neg hoth]
    by_cases hidx : other.index = id.index
    · have hnew : (pool.set id new).get? id = some new := by
        rw [get?_eq_some_iff]
        simp [set, hlt]
      rw [get?_eq_none_of_index_eq h hoth hidx, get?_eq_none_of_index_eq hnew hoth hidx]
    · apply get?_congr_slot
      simp [set, Ne.symm hidx]

theorem get?_retire (other : FrameId) :
    (pool.retire id cleared).get? other = if other = id then none else pool.get? other := by
  have hlt := index_lt h
  by_cases hidx : other.index = id.index
  · have hnone : (pool.retire id cleared).get? other = none := by
      unfold get?
      simp [retire, hidx, hlt, Slot.frame?]
    by_cases hoth : other = id
    · rw [hnone, if_pos hoth]
    · rw [hnone, if_neg hoth, get?_eq_none_of_index_eq h hoth hidx]
  · have hoth : other ≠ id := fun e => hidx (e ▸ rfl)
    rw [if_neg hoth]
    apply get?_congr_slot
    simp [retire, Ne.symm hidx]

theorem get?_of_set {new found : Frame} (hfd : (pool.set id new).get? other = some found) :
    other = id ∧ found = new ∨ other ≠ id ∧ pool.get? other = some found := by
  rw [get?_set h] at hfd
  split at hfd
  · exact .inl ⟨‹_›, (Option.some.inj hfd).symm⟩
  · exact .inr ⟨‹_›, hfd⟩

theorem get?_of_retire {found : Frame} (hfd : (pool.retire id cleared).get? other = some found) :
    other ≠ id ∧ pool.get? other = some found := by
  rw [get?_retire h] at hfd
  split at hfd
  · cases hfd
  · exact ⟨‹_›, hfd⟩

end

/-! ## 2. Counting live frames -/

/-- The number of live frames with a property. -/
def countLive (pool : Pool) (p : Frame → Bool) : Nat := pool.slots.countP (Slot.holds p)

/-- The number of live slots. -/
def occupied (pool : Pool) : Nat := pool.countLive fun _ => true

/-- The number of live frames that sit on a frame. -/
def linksTo (pool : Pool) (id : FrameId) : Nat := pool.countLive fun f => f.previous == some id

theorem countP_setIfInBounds {slots : Array Slot} {index : Nat} {old : Slot} (new : Slot)
    (q : Slot → Bool) (h : slots[index]? = some old) :
    (slots.setIfInBounds index new).countP q + (if q old then 1 else 0) =
      slots.countP q + if q new then 1 else 0 := by
  obtain ⟨hlt, hold⟩ := Array.getElem?_eq_some_iff.mp h
  have hset : slots.setIfInBounds index new = slots.set index new := by
    simp [setIfInBounds, hlt]
  rw [hset, countP_set hlt, hold]
  have hpos : q old = true → 0 < slots.countP q := fun hq =>
    countP_pos_iff.mpr ⟨old, mem_of_getElem? h, hq⟩
  cases hq : q old with
  | false => simp
  | true =>
    have := hpos hq
    simp only [if_true]
    omega

theorem countLive_set (h : pool.get? id = some frame) (new : Frame) (p : Frame → Bool) :
    (pool.set id new).countLive p + (if p frame then 1 else 0) =
      pool.countLive p + if p new then 1 else 0 :=
  countP_setIfInBounds (.live id.generation new) (Slot.holds p) (get?_eq_some_iff.mp h)

theorem countLive_retire (h : pool.get? id = some frame) (cleared : ClearFrame) (p : Frame → Bool) :
    (pool.retire id cleared).countLive p + (if p frame then 1 else 0) = pool.countLive p :=
  countP_setIfInBounds (.retired (id.generation + 1) cleared) (Slot.holds p)
    (get?_eq_some_iff.mp h)

theorem countLive_pos_iff {p : Frame → Bool} :
    0 < pool.countLive p ↔ ∃ id frame, pool.get? id = some frame ∧ p frame = true := by
  unfold countLive
  rw [countP_pos_iff]
  constructor
  · rintro ⟨slot, hmem, hp⟩
    obtain ⟨index, hidx⟩ := getElem?_of_mem hmem
    cases slot with
    | retired gen _ => simp [Slot.holds] at hp
    | live gen frame => exact ⟨⟨index, gen⟩, frame, get?_eq_some_iff.mpr hidx, hp⟩
  · rintro ⟨id, frame, h, hp⟩
    exact ⟨_, mem_of_getElem? (get?_eq_some_iff.mp h), hp⟩

theorem linksTo_pos_iff {below : FrameId} :
    0 < pool.linksTo below ↔ ∃ id frame, pool.get? id = some frame ∧ frame.previous = some below := by
  simp [linksTo, countLive_pos_iff]

theorem occupied_pos (h : pool.get? id = some frame) : 0 < pool.occupied :=
  countLive_pos_iff.mpr ⟨id, frame, h, rfl⟩

/-! ## 3. The free list -/

/-- The free list names retired slots only, each once; `live` is the number of live slots. -/
structure Tidy (pool : Pool) : Prop where
  retired : ∀ index ∈ pool.free,
    ∃ generation frame, pool.slots[index]? = some (.retired generation frame)
  nodup : pool.free.Nodup
  live_eq : pool.live = pool.occupied

theorem tidy_empty (recycle : Bool) : Tidy { recycle } := by
  refine ⟨fun index h => absurd h List.not_mem_nil, List.nodup_nil, ?_⟩
  simp [occupied, countLive]

section

variable (ht : pool.Tidy) (h : pool.get? id = some frame)
include ht h

theorem Tidy.index_notMem_free : id.index ∉ pool.free := by
  intro hmem
  obtain ⟨gen, cleared, hslot⟩ := ht.retired _ hmem
  rw [get?_eq_some_iff.mp h] at hslot
  cases hslot

theorem Tidy.set (new : Frame) : (pool.set id new).Tidy where
  retired := by
    intro index hmem
    have hne : id.index ≠ index := fun e => ht.index_notMem_free h (e ▸ hmem)
    obtain ⟨gen, cleared, hslot⟩ := ht.retired index hmem
    exact ⟨gen, cleared, by simp [Pool.set, hne, hslot]⟩
  nodup := ht.nodup
  live_eq := by
    have hcount := countLive_set h new fun _ => true
    have hlive := ht.live_eq
    show pool.live = (pool.set id new).occupied
    unfold occupied at *
    omega

theorem Tidy.retire (cleared : ClearFrame) : (pool.retire id cleared).Tidy where
  retired := by
    intro index hmem
    by_cases hidx : id.index = index
    · subst hidx
      exact ⟨id.generation + 1, cleared, by simp [Pool.retire, index_lt h]⟩
    · have hfree : index ∈ pool.free := by
        simp only [Pool.retire] at hmem
        split at hmem
        · exact (List.mem_cons.mp hmem).resolve_left fun e => hidx e.symm
        · exact hmem
      obtain ⟨gen, cleared, hslot⟩ := ht.retired index hfree
      exact ⟨gen, cleared, by simp [Pool.retire, hidx, hslot]⟩
  nodup := by
    simp only [Pool.retire]
    split
    · exact List.nodup_cons.mpr ⟨ht.index_notMem_free h, ht.nodup⟩
    · exact ht.nodup
  live_eq := by
    have hcount := countLive_retire h cleared fun _ => true
    have hlive := ht.live_eq
    simp only [if_true] at hcount
    show pool.live - 1 = (pool.retire id cleared).occupied
    unfold occupied at *
    omega

end

/-! ## 4. New frames -/

theorem vacant_frame (pool : Pool) (cache : TableId) (keeps : KeepMapId) :
    ∃ definition, (pool.vacant cache keeps).frame = { definition, cache, keeps } := by
  unfold vacant
  split
  · exact ⟨_, (ClearFrame.withTables _ cache keeps).isClear⟩
  · exact ⟨_, rfl⟩

section

variable (ht : pool.Tidy) (new : Frame)
include ht new

theorem alloc_cases :
    (∃ index free gen cleared, pool.free = index :: free ∧
      pool.slots[index]? = some (.retired gen cleared) ∧
      pool.alloc new = (⟨⟨index, gen⟩, true⟩,
        { pool with
          slots := pool.slots.setIfInBounds index (.live gen new)
          free
          live := pool.live + 1 })) ∨
    (pool.free = [] ∧
      pool.alloc new = (⟨⟨pool.slots.size, 0⟩, false⟩,
        { pool with slots := pool.slots.push (.live 0 new), live := pool.live + 1 })) := by
  unfold alloc
  cases hfree : pool.free with
  | nil => exact .inr ⟨rfl, rfl⟩
  | cons index free =>
    obtain ⟨gen, cleared, hslot⟩ := ht.retired index (by simp [hfree])
    exact .inl ⟨index, free, gen, cleared, rfl, hslot, by simp [hslot, Slot.generation]⟩

theorem get?_alloc_id : pool.get? (pool.alloc new).1.id = none := by
  rcases alloc_cases ht new with ⟨index, free, gen, _, _, hslot, e⟩ | ⟨_, e⟩
  · simp [e, get?, hslot, Slot.frame?]
  · simp [e, get?]

theorem get?_alloc (other : FrameId) :
    (pool.alloc new).2.get? other =
      if other = (pool.alloc new).1.id then some new
      else pool.get? other := by
  obtain ⟨otherIndex, g⟩ := other
  rcases alloc_cases ht new with ⟨index, free, gen, _, _, hslot, e⟩ | ⟨_, e⟩
  · have hlt : index < pool.slots.size := (Array.getElem?_eq_some_iff.mp hslot).1
    rw [e]
    by_cases hidx : otherIndex = index
    · subst hidx
      by_cases hg : g = gen
      · simp [hg, get?, hlt, Slot.frame?]
      · have hold : pool.get? ⟨otherIndex, g⟩ = none := by simp [get?, hslot, Slot.frame?]
        rw [hold]
        simp [hg, Ne.symm hg, get?, hlt, Slot.frame?]
    · rw [if_neg (by simp [hidx])]
      apply get?_congr_slot
      simp [Ne.symm hidx]
  · rw [e]
    by_cases hidx : otherIndex = pool.slots.size
    · subst hidx
      by_cases hg : g = 0
      · simp [hg, get?, Slot.frame?]
      · simp [hg, Ne.symm hg, get?, Slot.frame?]
    · rw [if_neg (by simp [hidx])]
      apply get?_congr_slot
      simp [getElem?_push, hidx]

theorem get?_alloc_self :
    (pool.alloc new).2.get? (pool.alloc new).1.id = some new := by
  rw [get?_alloc ht, if_pos rfl]

theorem get?_alloc_of_live (h : pool.get? id = some frame) :
    (pool.alloc new).2.get? id = some frame := by
  have hne : id ≠ (pool.alloc new).1.id := by
    rintro rfl
    rw [get?_alloc_id ht] at h
    cases h
  rw [get?_alloc ht, if_neg hne, h]

theorem alloc_live : (pool.alloc new).2.live = pool.live + 1 := by
  rcases alloc_cases ht new with ⟨_, _, _, _, _, _, e⟩ | ⟨_, e⟩ <;> rw [e]

end

theorem get?_of_alloc {new : Frame} {found : Frame} (ht : pool.Tidy)
    (hfd : (pool.alloc new).2.get? other = some found) :
    other = (pool.alloc new).1.id ∧ found = new ∨
      other ≠ (pool.alloc new).1.id ∧ pool.get? other = some found := by
  rw [get?_alloc ht] at hfd
  split at hfd
  · exact .inl ⟨‹_›, (Option.some.inj hfd).symm⟩
  · exact .inr ⟨‹_›, hfd⟩

theorem countLive_alloc (ht : pool.Tidy) (new : Frame) (p : Frame → Bool) :
    (pool.alloc new).2.countLive p =
      pool.countLive p + if p new then 1 else 0 := by
  rcases alloc_cases ht new with ⟨index, free, gen, _, _, hslot, e⟩ | ⟨_, e⟩
  · rw [e]
    exact countP_setIfInBounds (.live gen new) (Slot.holds p) hslot
  · rw [e]
    exact countP_push

theorem Tidy.alloc (ht : pool.Tidy) (new : Frame) : (pool.alloc new).2.Tidy := by
  have hlive : pool.live + 1 = (pool.alloc new).2.occupied := by
    rw [ht.live_eq]
    exact (countLive_alloc ht new fun _ => true).symm
  rcases alloc_cases ht new with ⟨index, free, gen, _, hfree, hslot, e⟩ | ⟨hfree, e⟩
  · rw [e] at hlive ⊢
    obtain ⟨hnotMem, hnd⟩ := List.nodup_cons.mp (hfree ▸ ht.nodup)
    refine ⟨fun other hmem => ?_, hnd, hlive⟩
    have hne : index ≠ other := fun e => hnotMem (e ▸ hmem)
    obtain ⟨gen, cleared, hoth⟩ := ht.retired other (hfree ▸ List.mem_cons_of_mem index hmem)
    exact ⟨gen, cleared, by simp [hne, hoth]⟩
  · rw [e] at hlive ⊢
    exact ⟨fun other hmem => by simp [hfree] at hmem, ht.nodup, hlive⟩

end Pool

end KeepTree
