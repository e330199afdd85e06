import KeepTree.Proofs.Pool.Accounting
import Mathlib.Data.List.Chain

/-!
# Pools by themselves

Nothing in a pool keeps its callers from handing in frames with any counts and on any frame, dead ones
and themselves included. What a pool promises does not depend on that:

* `turns` -- how often a slot was taken or freed; it never falls (`Later`), an id is alive at one turn
  of its slot only, and a new id stands for a turn that has not come yet (`not_issued_alloc`);
* `Falls` -- the frames that go when nothing refers to a frame any more: they are read off the pool
  as it is before the first of them is freed, and there is one such list (`Falls.unique`);
* `unpin_frees` -- **letting go frees just these**, also where frames sit on each other in a ring;
* `play_safe`, `safe_alone` -- ids are given out once, and what is dead stays dead, whatever is done
  to a pool.
-/

namespace KeepTree

open List Option

variable {pool pool' : Pool} {other : FrameId} {frame lower new : Frame} {cleared : ClearFrame}
  {ids ids' : List FrameId}
  {index live : Nat} {old : Slot} {free : List Nat} {recycle : Bool}

/-! ## 1. Turns of slots -/

/-- How often the slot was taken or freed. -/
def Slot.turns : Slot → Nat
  | .live generation _ => 2 * generation + 1
  | .retired generation _ => 2 * generation

namespace Pool

variable {id below : FrameId}

/-- How often a slot was taken or freed; one that is not there yet was not. -/
def turns (pool : Pool) (index : Nat) : Nat := pool.slots[index]?.elim 0 Slot.turns

/-- The id was given to a frame, which may be dead by now. -/
def Issued (pool : Pool) (id : FrameId) : Prop := 2 * id.generation < pool.turns id.index

theorem alive_iff : (∃ frame, pool.get? id = some frame) ↔
    pool.turns id.index = 2 * id.generation + 1 := by
  unfold get? turns
  cases pool.slots[id.index]? with
  | none => simp
  | some slot =>
    cases slot with
    | live gen frame =>
      simp only [bind_some, Slot.frame?, ite_none_right_eq_some, Option.some.injEq,
        exists_and_left, exists_eq', and_true, elim_some, Slot.turns]
      omega
    | retired gen definition =>
      simp only [bind_some, Slot.frame?, elim_some, Slot.turns, reduceCtorEq,
        exists_false, false_iff]
      omega

theorem turns_setIfInBounds (new : Slot) (hold : pool.slots[index]? = some old) (other : Nat) :
    turns ⟨pool.slots.setIfInBounds index new, free, recycle, live⟩ other =
      if index = other then new.turns else pool.turns other := by
  have hlt := (Array.getElem?_eq_some_iff.mp hold).1
  by_cases hidx : index = other
  · subst hidx
    simp [turns, hlt]
  · simp [turns, hidx]

/-- Slots were taken or freed more often, or as often. -/
def Later (pool pool' : Pool) : Prop := ∀ index, pool.turns index ≤ pool'.turns index

theorem Later.refl (pool : Pool) : pool.Later pool := fun _ => Nat.le_refl _

theorem Later.trans {pool'' : Pool} (h : pool.Later pool') (h' : pool'.Later pool'') :
    pool.Later pool'' := fun index => Nat.le_trans (h index) (h' index)

theorem Issued.later (h : pool.Issued id) (hlater : pool.Later pool') : pool'.Issued id :=
  Nat.lt_of_lt_of_le h (hlater id.index)

/-- **What is dead stays dead**: its turn is over. -/
theorem Issued.stays_dead (h : pool.Issued id) (hdead : pool.get? id = none)
    (hlater : pool.Later pool') : pool'.get? id = none := by
  have hover : pool.turns id.index ≠ 2 * id.generation + 1 := fun hturn => by
    obtain ⟨frame, hfr⟩ := alive_iff.mpr hturn
    cases hdead.symm.trans hfr
  refine eq_none_iff_forall_ne_some.mpr fun frame hfr => ?_
  have hturn := alive_iff.mp ⟨frame, hfr⟩
  have hle := hlater id.index
  have hissued : 2 * id.generation < pool.turns id.index := h
  omega

theorem later_of_slot {new : Slot} (hold : pool.slots[index]? = some old)
    (hle : old.turns ≤ new.turns) :
    pool.Later ⟨pool.slots.setIfInBounds index new, free, recycle, live⟩ := by
  intro other
  rw [turns_setIfInBounds new hold]
  split
  · rename_i hidx
    subst hidx
    rw [turns, hold]
    exact hle
  · exact Nat.le_refl _

theorem later_set (h : pool.get? id = some frame) (new : Frame) : pool.Later (pool.set id new) :=
  later_of_slot (get?_eq_some_iff.mp h) (Nat.le_refl _)

theorem later_retire (h : pool.get? id = some frame) (cleared : ClearFrame) :
    pool.Later (pool.retire id cleared) :=
  later_of_slot (get?_eq_some_iff.mp h) (Nat.le_succ _)

theorem later_modify (pool : Pool) (id : FrameId) (f : Frame → Frame) :
    pool.Later (pool.modify id f) := by
  unfold modify
  split
  · exact later_set ‹_› _
  · exact .refl pool

section

variable (ht : pool.Tidy) (made : Frame)
include ht made

theorem later_alloc : pool.Later (pool.alloc made).2 := by
  rcases alloc_cases ht made with ⟨index, free, gen, _, _, hslot, e⟩ | ⟨_, e⟩
  · rw [e]
    exact later_of_slot hslot (Nat.le_succ _)
  · rw [e]
    intro index
    by_cases hidx : index = pool.slots.size
    · simp [turns, hidx]
    · simp [turns, Array.getElem?_push, hidx]

theorem turns_alloc :
    pool.turns (pool.alloc made).1.id.index = 2 * (pool.alloc made).1.id.generation := by
  rcases alloc_cases ht made with ⟨index, free, gen, _, _, hslot, e⟩ | ⟨_, e⟩ <;>
  · rw [e]
    simp [turns, Slot.turns, *]

/-- **A new frame gets an id that was never given out.** -/
theorem not_issued_alloc : ¬ pool.Issued (pool.alloc made).1.id := by
  rw [Issued, turns_alloc ht]
  exact Nat.lt_irrefl _

end

theorem issued_of_alive (h : pool.get? id = some frame) : pool.Issued id := by
  rw [Issued, alive_iff.mp ⟨frame, h⟩]
  exact Nat.lt_succ_self _

end Pool

/-! ## 2. Frames that fall -/

/-- The frame without the link of one frame above it. -/
def Frame.unlinked (f : Frame) : Frame := { f with links := f.links - 1 }

/-- The frame without one of its pins. -/
def Frame.unpinned (f : Frame) : Frame := { f with pins := f.pins - 1 }

namespace Pool

variable {id below : FrameId}

/-- The frame below a live frame. -/
def below? (pool : Pool) (id : FrameId) : Option FrameId := (pool.get? id).bind Frame.previous

/-- The frame is alive, and nothing refers to it once it has lost one link. -/
def hangs (pool : Pool) (id : FrameId) : Bool := (pool.get? id).any (·.unlinked.isUnreferenced)

/-- The frames that go with `id`, once nothing refers to it: down from it, every frame that only the
    frame above keeps alive. A frame that is gone already ends the fall. -/
structure Falls (pool : Pool) (id : FrameId) (ids : List FrameId) : Prop where
  first : ids.head? = some id
  nodup : ids.Nodup
  chain : ids.IsChain fun above below => pool.below? above = some below
  hanging : ∀ below ∈ ids.tail, pool.hangs below = true
  ends : ∀ last ∈ ids.getLast?, ∀ below, pool.below? last = some below →
    below ∈ ids ∨ pool.hangs below = false

theorem Falls.eq_cons (h : pool.Falls id ids) : ∃ rest, ids = id :: rest :=
  head?_eq_some_iff.mp h.first

theorem Falls.eq_of_longer {more : List FrameId} (h : pool.Falls id ids) (h' : pool.Falls id ids')
    (hmore : ids' = ids ++ more) : ids' = ids := by
  cases more with
  | nil => rw [hmore, append_nil]
  | cons next rest =>
    obtain ⟨tail, rfl⟩ := h.eq_cons
    obtain ⟨last, hlast⟩ := ne_none_iff_exists'.mp
      (mt getLast?_eq_none_iff.mp (cons_ne_nil id tail))
    have hnext : pool.below? last = some next := by
      have hchain := h'.chain
      rw [hmore, isChain_append] at hchain
      exact hchain.2.2 last hlast next rfl
    have hnd := h'.nodup
    rw [hmore] at hnd
    rcases h.ends last hlast next hnext with hmem | hstays
    · exact absurd rfl ((nodup_append.mp hnd).2.2 next hmem next mem_cons_self)
    · have hhangs := h'.hanging next (by simp [hmore])
      cases hhangs.symm.trans hstays

theorem isChain_compare : ∀ {xs ys : List FrameId} {id : FrameId},
    (id :: xs).IsChain (fun above below => pool.below? above = some below) →
    (id :: ys).IsChain (fun above below => pool.below? above = some below) →
    (∃ more, ys = xs ++ more) ∨ ∃ more, xs = ys ++ more
  | [], ys, _, _, _ => .inl ⟨ys, rfl⟩
  | xs, [], _, _, _ => .inr ⟨xs, rfl⟩
  | x :: xs, y :: ys, id, hx, hy => by
    obtain ⟨hfst, hxs⟩ := isChain_cons_cons.mp hx
    obtain ⟨hfst', hys⟩ := isChain_cons_cons.mp hy
    cases hfst.symm.trans hfst'
    rcases isChain_compare hxs hys with ⟨more, rfl⟩ | ⟨more, rfl⟩
    · exact .inl ⟨more, rfl⟩
    · exact .inr ⟨more, rfl⟩

/-- **There is one list of frames that go with a frame.** -/
theorem Falls.unique (h : pool.Falls id ids) (h' : pool.Falls id ids') : ids' = ids := by
  obtain ⟨xs, hxs⟩ := h.eq_cons
  obtain ⟨ys, hys⟩ := h'.eq_cons
  rcases isChain_compare (hxs ▸ h.chain) (hys ▸ h'.chain) with ⟨more, e⟩ | ⟨more, e⟩
  · exact h.eq_of_longer h' (by rw [hys, e, hxs]; rfl)
  · exact (h'.eq_of_longer h (by rw [hxs, e, hys]; rfl)).symm

theorem below?_set (h : pool.get? id = some frame) (hprev : new.previous = frame.previous)
    (other : FrameId) : (pool.set id new).below? other = pool.below? other := by
  rw [below?, below?, get?_set h]
  split
  · rename_i e
    rw [e, h]
    exact hprev
  · rfl

theorem hangs_congr (h : pool'.get? other = pool.get? other) :
    pool'.hangs other = pool.hangs other := by
  rw [hangs, hangs, h]

theorem Falls.of_set (h : pool.get? id = some frame) (hfalls : (pool.set id new).Falls id ids)
    (hprev : new.previous = frame.previous) : pool.Falls id ids := by
  have hbel := below?_set h hprev
  have hothers : ∀ other, other ≠ id → (pool.set id new).hangs other = pool.hangs other :=
    fun other hne => hangs_congr (by rw [get?_set h, if_neg hne])
  obtain ⟨rest, rfl⟩ := hfalls.eq_cons
  have hnotMem := (nodup_cons.mp hfalls.nodup).1
  refine ⟨rfl, hfalls.nodup, ?_, fun other hmem => ?_, fun last hlast other hoth => ?_⟩
  · simpa only [hbel] using hfalls.chain
  · rw [← hothers other (fun e => hnotMem (e ▸ hmem))]
    exact hfalls.hanging other hmem
  · rcases hfalls.ends last hlast other (by rw [hbel, hoth]) with hmem | hstays
    · exact .inl hmem
    · by_cases hne : other = id
      · exact .inl (hne ▸ mem_cons_self)
      · exact .inr (hothers other hne ▸ hstays)

/-! ## 3. Letting go -/

/-- The frame below the last frame. -/
def landing? (pool : Pool) (ids : List FrameId) : Option FrameId := ids.getLast?.bind pool.below?

/-- The frames are gone, and were counted; the frame below the last has one link less; all other
    frames are as before. -/
structure Frees (pool : Pool) (ids : List FrameId) (result : Nat × Pool) : Prop where
  count : result.1 = ids.length
  get?_eq : ∀ id, result.2.get? id =
    if id ∈ ids then none
    else if pool.landing? ids = some id then (pool.get? id).map Frame.unlinked
    else pool.get? id

section Below

variable (h : pool.get? id = some frame) (hlow : (pool.retire id cleared).get? below = some lower)

include h hlow

theorem ne_of_retired : below ≠ id ∧ pool.get? below = some lower := get?_of_retire h hlow

theorem get?_next (other : FrameId) :
    ((pool.retire id cleared).set below lower.unlinked).get? other =
      if other = below then some lower.unlinked else if other = id then none
      else pool.get? other := by
  rw [get?_set hlow, get?_retire h]

theorem below?_next {next : FrameId}
    (hoth : ((pool.retire id cleared).set below lower.unlinked).below? other = some next) :
    other ≠ id ∧ pool.below? other = some next := by
  obtain ⟨hne, hget⟩ := ne_of_retired h hlow
  rw [below?, get?_next h hlow] at hoth
  split at hoth
  · rename_i e
    rw [e]
    exact ⟨hne, by rw [below?, hget]; exact hoth⟩
  · split at hoth
    · cases hoth
    · exact ⟨‹_›, hoth⟩

theorem below?_next_of_ne (hne : other ≠ id) :
    ((pool.retire id cleared).set below lower.unlinked).below? other = pool.below? other := by
  rw [below?, below?, get?_next h hlow]
  split
  · rename_i e
    rw [e, (ne_of_retired h hlow).2]
    rfl
  · rfl

theorem hangs_next (hne : other ≠ below) (hne' : other ≠ id) :
    ((pool.retire id cleared).set below lower.unlinked).hangs other = pool.hangs other :=
  hangs_congr (by rw [get?_next h hlow, if_neg hne, if_neg hne'])

variable (hfalls : ((pool.retire id cleared).set below lower.unlinked).Falls below ids)
include hfalls

theorem not_mem_next : id ∉ ids := by
  obtain ⟨hne, _⟩ := ne_of_retired h hlow
  obtain ⟨rest, rfl⟩ := hfalls.eq_cons
  intro hmem
  rcases mem_cons.mp hmem with e | hmem
  · exact hne e.symm
  · have hhangs := hfalls.hanging id hmem
    rw [hangs, get?_next h hlow, if_neg (Ne.symm hne), if_pos rfl] at hhangs
    cases hhangs

/-- **A fall goes on with the frame below.** -/
theorem Falls.cons (hprev : frame.previous = some below)
    (hhangs : lower.unlinked.isUnreferenced = true) : pool.Falls id (id :: ids) := by
  obtain ⟨hne, hget⟩ := ne_of_retired h hlow
  have hnotMem := not_mem_next h hlow hfalls
  obtain ⟨rest, rfl⟩ := hfalls.eq_cons
  have hbel : pool.below? id = some below := by rw [below?, h]; exact hprev
  obtain ⟨hfst, hnd⟩ := nodup_cons.mp hfalls.nodup
  refine ⟨rfl, nodup_cons.mpr ⟨hnotMem, hfalls.nodup⟩, ?_, fun other hmem => ?_,
    fun last hlast other hoth => ?_⟩
  · exact isChain_cons_cons.mpr ⟨hbel, hfalls.chain.imp fun _ _ hnext =>
      (below?_next h hlow hnext).2⟩
  · rcases mem_cons.mp hmem with rfl | hrest
    · rw [hangs, hget]
      exact hhangs
    · rw [← hangs_next h hlow (fun e => hfst (e ▸ hrest)) fun e => hnotMem (e ▸ hmem)]
      exact hfalls.hanging other hrest
  · rw [getLast?_cons_cons] at hlast
    have hlast_ne : last ≠ id := fun e => hnotMem (e ▸ mem_of_getLast? hlast)
    rw [← below?_next_of_ne h hlow hlast_ne] at hoth
    rcases hfalls.ends last hlast other hoth with hmem | hstays
    · exact .inl (mem_cons_of_mem _ hmem)
    · by_cases e : other = below
      · exact .inl (e ▸ mem_cons_of_mem _ mem_cons_self)
      · by_cases e' : other = id
        · exact .inl (e' ▸ mem_cons_self)
        · exact .inr (hangs_next h hlow e e' ▸ hstays)

theorem Frees.cons {result : Nat × Pool}
    (hfrees : ((pool.retire id cleared).set below lower.unlinked).Frees ids result) :
    pool.Frees (id :: ids) (result.1 + 1, result.2) := by
  have hnotMem := not_mem_next h hlow hfalls
  obtain ⟨rest, rfl⟩ := hfalls.eq_cons
  have hlanding : ((pool.retire id cleared).set below lower.unlinked).landing? (below :: rest) =
      pool.landing? (id :: below :: rest) := by
    rw [landing?, landing?, getLast?_cons_cons]
    cases hlast : (below :: rest).getLast? with
    | none => rfl
    | some last =>
      exact below?_next_of_ne h hlow fun e => hnotMem (e ▸ mem_of_getLast? hlast)
  refine ⟨congrArg (· + 1) hfrees.count, fun other => ?_⟩
  simp only [hfrees.get?_eq, hlanding, get?_next h hlow]
  by_cases hmem : other ∈ below :: rest
  · rw [if_pos hmem, if_pos (mem_cons_of_mem _ hmem)]
  · have hne : other ≠ below := fun e => hmem (e ▸ mem_cons_self)
    rw [if_neg hmem, if_neg hne]
    by_cases e : other = id
    · subst e
      simp
    · rw [if_neg e, if_neg fun hmem' => hmem ((mem_cons.mp hmem').resolve_left e)]

end Below

theorem falls_last (h : pool.get? id = some frame)
    (hends : ∀ below, frame.previous = some below → below = id ∨ pool.hangs below = false) :
    pool.Falls id [id] := by
  refine ⟨rfl, by simp, .singleton id, nofun, fun last hlast below hbel => ?_⟩
  obtain rfl : id = last := Option.some.inj hlast
  rw [below?, h] at hbel
  exact (hends below hbel).imp_left mem_singleton.mpr

theorem landing?_singleton (h : pool.get? id = some frame) :
    pool.landing? [id] = frame.previous := by
  rw [landing?, getLast?_singleton, bind_some, below?, h]
  rfl

/-- **A release frees what falls.** Every step frees a live frame, so it does not run out of steps. -/
theorem release_frees : ∀ (steps : Nat) {id : FrameId} {frame : Frame} {pool : Pool},
    pool.get? id = some frame → frame.isUnreferenced = true → pool.occupied ≤ steps →
    ∃ ids, pool.Falls id ids ∧ pool.Frees ids (release steps id pool)
  | 0, id, frame, pool, h, _, hsteps => absurd (occupied_pos h) (Nat.not_lt.mpr hsteps)
  | steps + 1, id, frame, pool, h, hu, hsteps => by
    obtain ⟨cleared, hclear⟩ := clear_of_isUnreferenced hu
    simp only [release, h, hclear]
    cases hprev : frame.previous with
    | none =>
      refine ⟨[id], falls_last h fun _ e => (by cases hprev.symm.trans e), rfl,
        fun other => ?_⟩
      simp [get?_retire h, landing?_singleton h, hprev]
    | some below =>
      cases hlow : (pool.retire id cleared).get? below with
      | none =>
        have hgone : below = id ∨ pool.get? below = none := by
          rw [get?_retire h] at hlow
          by_cases e : below = id
          · exact .inl e
          · exact .inr (by rwa [if_neg e] at hlow)
        refine ⟨[id], falls_last h fun next e => ?_, by simp only [hlow]; rfl, fun other => ?_⟩
        · cases hprev.symm.trans e
          exact hgone.imp_right fun hnone => by rw [hangs, hnone]; rfl
        · simp only [hlow, get?_retire h, landing?_singleton h, hprev, mem_singleton]
          split
          · rfl
          · rename_i hne
            split
            · rename_i e
              cases e
              rw [hgone.resolve_left hne]
              rfl
            · rfl
      | some lower =>
        obtain ⟨hne, hget⟩ := ne_of_retired h hlow
        simp only [hlow]
        split
        · rename_i hhangs
          have hself := get?_set_self hlow lower.unlinked
          have hoccupied := occupied_retire h cleared
          have hset := occupied_set hlow lower.unlinked
          obtain ⟨ids, hfalls, hfrees⟩ := release_frees steps hself hhangs (by omega)
          exact ⟨id :: ids, .cons h hlow hfalls hprev hhangs, .cons h hlow hfalls hfrees⟩
        · rename_i hstays
          refine ⟨[id], falls_last h fun next e => ?_, rfl, fun other => ?_⟩
          · cases hprev.symm.trans e
            refine .inr ?_
            rw [hangs, hget]
            exact Bool.eq_false_iff.mpr hstays
          · refine (get?_next h hlow other).trans ?_
            simp only [landing?_singleton h, hprev, mem_singleton, Option.some.injEq]
            by_cases e : other = below
            · rw [if_pos e, e, if_neg hne, if_pos rfl, hget]
              rfl
            · rw [if_neg e, if_neg (Ne.symm e)]

/-- **Letting go of a frame frees what falls with it**, if nothing else refers to the frame. -/
theorem unpin_frees (h : pool.get? id = some frame) (hfree : frame.unpinned.isUnreferenced = true) :
    ∃ ids, pool.Falls id ids ∧ pool.Frees ids (pool.unpin id) := by
  have hunpin : pool.unpin id = release (pool.set id frame.unpinned).slots.size id
      (pool.set id frame.unpinned) := by
    simp only [unpin, h]
    exact if_pos hfree
  obtain ⟨ids, hfalls, hfrees⟩ :=
    release_frees _ (get?_set_self h frame.unpinned) hfree (occupied_le_size _)
  have hlanding : (pool.set id frame.unpinned).landing? ids = pool.landing? ids :=
    congrArg (ids.getLast?.bind ·) (funext (below?_set h rfl))
  rw [hunpin]
  refine ⟨ids, hfalls.of_set h (by rfl), hfrees.count, fun other => ?_⟩
  rw [hfrees.get?_eq, hlanding, get?_set h]
  by_cases e : other = id
  · obtain ⟨rest, rfl⟩ := hfalls.eq_cons
    rw [e, if_pos mem_cons_self, if_pos mem_cons_self]
  · rw [if_neg e]

/-! ## 4. Runs -/

theorem later_release : ∀ (steps : Nat) (id : FrameId) (pool : Pool),
    pool.Later (release steps id pool).2
  | 0, _, pool => .refl pool
  | steps + 1, id, pool => by
    unfold release
    cases h : pool.get? id with
    | none => exact .refl pool
    | some frame =>
      simp only
      split
      · exact .refl pool
      rename_i cleared _
      have hretire := later_retire h cleared
      split
      · exact hretire
      · split
        · exact hretire
        · rename_i below hlow
          have hset := hretire.trans (later_set hlow below.unlinked)
          split
          · exact hset.trans (later_release steps _ _)
          · exact hset

theorem later_unpin (pool : Pool) (id : FrameId) : pool.Later (pool.unpin id).2 := by
  unfold unpin
  cases h : pool.get? id with
  | none => exact .refl pool
  | some frame =>
    have hset := later_set h frame.unpinned
    simp only
    split
    · exact hset.trans (later_release _ _ _)
    · exact hset

/-- What can be done to a pool. The frame that is used next may be made into one with any counts and
    on any frame, and whoever has its id may change it. -/
inductive Deed where
  | alloc (cache : TableId) (keeps : KeepMapId) (init : Frame → Frame)
  | pin (id : FrameId)
  | link (id : FrameId)
  | modify (id : FrameId) (f : Frame → Frame)
  | unpin (id : FrameId)

/-- Do something to a pool; the id that was given out. -/
def act (pool : Pool) : Deed → Option FrameId × Pool
  | .alloc cache keeps init =>
    let (placed, pool) := pool.alloc (init (pool.vacant cache keeps).frame)
    (some placed.id, pool)
  | .pin id => (none, pool.pin id)
  | .link id => (none, pool.link id)
  | .modify id f => (none, pool.modify id f)
  | .unpin id => (none, (pool.unpin id).2)

/-- Do several things to a pool; the ids that were given out, in order. -/
def play (pool : Pool) : List Deed → List FrameId × Pool
  | [] => ([], pool)
  | deed :: rest =>
    let (id, pool) := pool.act deed
    let (ids, pool) := pool.play rest
    (id.toList ++ ids, pool)

theorem Tidy.modify (ht : pool.Tidy) (id : FrameId) (f : Frame → Frame) :
    (pool.modify id f).Tidy := by
  unfold Pool.modify
  split
  · exact ht.set ‹_› _
  · exact ht

theorem act_safe (ht : pool.Tidy) (deed : Deed) : (pool.act deed).2.Tidy ∧
    pool.Later (pool.act deed).2 ∧
    ∀ id, (pool.act deed).1 = some id → ¬ pool.Issued id ∧ (pool.act deed).2.Issued id := by
  cases deed with
  | alloc cache keeps init =>
    refine ⟨ht.alloc _, later_alloc ht _, fun id hid => ?_⟩
    cases hid
    exact ⟨not_issued_alloc ht _, issued_of_alive (get?_alloc_self ht _)⟩
  | pin id => exact ⟨ht.modify id _, later_modify pool id _, nofun⟩
  | link id => exact ⟨ht.modify id _, later_modify pool id _, nofun⟩
  | modify id f => exact ⟨ht.modify id f, later_modify pool id f, nofun⟩
  | unpin id => exact ⟨(unpin_live ht id).1, later_unpin pool id, nofun⟩

theorem play_safe : ∀ (deeds : List Deed) {pool : Pool}, pool.Tidy →
    (pool.play deeds).2.Tidy ∧ pool.Later (pool.play deeds).2 ∧ (pool.play deeds).1.Nodup ∧
    ∀ id ∈ (pool.play deeds).1, ¬ pool.Issued id ∧ (pool.play deeds).2.Issued id
  | [], pool, ht => ⟨ht, .refl pool, nodup_nil, nofun⟩
  | deed :: rest, pool, ht => by
    obtain ⟨htidy, hlater, hfst⟩ := act_safe ht deed
    obtain ⟨htidy', hlater', hnd, hrest⟩ := play_safe rest htidy
    refine ⟨htidy', hlater.trans hlater', nodup_append.mpr ⟨?_, hnd, ?_⟩, fun id hmem => ?_⟩
    · have honce : ∀ id : Option FrameId, id.toList.Nodup := by rintro (_ | _) <;> simp
      exact honce _
    · rintro id hid other hoth rfl
      exact (hrest id hoth).1 (hfst id (mem_toList.mp hid)).2
    · rcases mem_append.mp hmem with hid | hid
      · obtain ⟨hnew, hissued⟩ := hfst id (mem_toList.mp hid)
        exact ⟨hnew, hissued.later hlater'⟩
      · exact ⟨fun hold => (hrest id hid).1 (hold.later hlater), (hrest id hid).2⟩

/-- **A pool is safe by itself.** Start with an empty pool, whether it uses slots again or not, and do
    anything to it, with frames of any counts on any frames. Then no id was given out twice; what was
    given out and is dead stays dead, whatever is done next; the free list names retired slots only,
    each once. To let go of a frame ends: where the frame is still referred to, or is dead, nothing is
    freed, and else just the frames that fall with it are freed and counted. No frame is cleared while
    it is in use. -/
theorem safe_alone (recycle : Bool) (deeds more : List Deed) :
    let (ids, pool) := play { recycle } deeds
    ids.Nodup ∧
    (∀ id ∈ ids, pool.get? id = none → (pool.play more).2.get? id = none) ∧
    pool.free.Nodup ∧
    (∀ index ∈ pool.free, ∃ generation frame,
      pool.slots[index]? = some (.retired generation frame)) ∧
    ∀ id, pool.unpinChecked id = .ok (pool.unpin id) ∧
      (pool.unpin id).2.live + (pool.unpin id).1 = pool.live ∧
      match pool.get? id with
      | none => pool.unpin id = (0, pool)
      | some frame =>
        if frame.links = 0 ∧ frame.pins ≤ 1 then
          ∃ ids, pool.Falls id ids ∧ (∀ others, pool.Falls id others → others = ids) ∧
            pool.Frees ids (pool.unpin id)
        else pool.unpin id = (0, pool.set id frame.unpinned) := by
  obtain ⟨htidy, _, hnodup, hissued⟩ := play_safe deeds (tidy_empty recycle)
  refine ⟨hnodup, fun id hmem hdead => ?_, htidy.nodup, htidy.retired, fun id =>
    ⟨unpinChecked_eq _ id, (Nat.add_comm ..).trans (unpin_live htidy id).2, ?_⟩⟩
  · exact (hissued id hmem).2.stays_dead hdead (play_safe more htidy).2.1
  · split
    · rename_i hdead
      simp only [unpin, hdead]
    · rename_i frame hframe
      have hcounts : frame.unpinned.isUnreferenced = true ↔ frame.links = 0 ∧ frame.pins ≤ 1 := by
        rw [isUnreferenced_iff]
        exact and_congr_right fun _ => Nat.sub_eq_zero_iff_le
      split
      · rename_i hfree
        obtain ⟨ids, hfalls, hfrees⟩ := unpin_frees hframe (hcounts.mpr hfree)
        exact ⟨ids, hfalls, fun _ => hfalls.unique, hfrees⟩
      · rename_i hused
        simp only [unpin, hframe]
        exact if_neg (mt hcounts.mp hused)

end Pool

end KeepTree
