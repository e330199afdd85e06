import KeepTree.Proofs.Pool.Cells

/-!
# The accounts of a pool

`held` lists the frames that stacks hold, one entry for each hold. The accounts are in order when the
counts of every live frame are the true ones, whatever is referred to is alive, and nothing is alive
that nothing refers to:

* `Accounted` -- the accounts are in order;
* `Accounted.place`, `Accounted.pin`, `Accounted.unpin`, `Accounted.unpinAll`, `Accounted.update` --
  one lemma for each thing that a stack does to its pool;
* `unpinChecked_eq` -- no frame is cleared while it is in use.

A new frame is entered before the link to the frame below, and a freed one is gone before its link
is taken off. `Balanced` allows for that: it lists the links that are still to be entered (`owed`) or
to be taken off (`due`).
-/

namespace KeepTree.Pool

open List

/-- The counts of every live frame are true but for the links `owed` and `due`, and what is held or
    sat on is alive. A frame is younger than the frame below, so chains end. -/
structure Balanced (pool : Pool) (held owed due : List FrameId) : Prop where
  tidy : pool.Tidy
  links_eq : ∀ {id frame}, pool.get? id = some frame →
    frame.links + owed.count id = pool.linksTo id + due.count id
  pins_eq : ∀ {id frame}, pool.get? id = some frame → frame.pins = held.count id
  below_live : ∀ {id frame below}, pool.get? id = some frame → frame.previous = some below →
    ∃ lower, pool.get? below = some lower ∧ lower.state < frame.state
  held_live : ∀ {id}, id ∈ held → ∃ frame, pool.get? id = some frame

/-- The accounts are in order. -/
structure Accounted (pool : Pool) (held : List FrameId) : Prop extends
    Balanced pool held [] [] where
  referenced : ∀ {id frame}, pool.get? id = some frame → frame.isUnreferenced = false

/-- A frame that can be put into the pool: one stack holds it, nothing sits on it, and the frame below
    is alive and older. -/
structure Placeable (pool : Pool) (new : Frame) : Prop where
  links_eq : new.links = 0
  pins_eq : new.pins = 1
  below_live : ∀ below, new.previous = some below →
    ∃ lower, pool.get? below = some lower ∧ lower.state < new.state

variable {pool : Pool} {held owed due : List FrameId} {id : FrameId} {frame new : Frame}
  {cleared : ClearFrame}

theorem Placeable.live (h : pool.Placeable new) :
    ∀ below ∈ new.previous, ∃ lower, pool.get? below = some lower :=
  fun below e => (h.below_live below e).imp fun _ hlow => hlow.1

theorem isUnreferenced_iff : frame.isUnreferenced = true ↔ frame.links = 0 ∧ frame.pins = 0 := by
  simp [Frame.isUnreferenced]

theorem clear_of_isUnreferenced (hu : frame.isUnreferenced = true) :
    ∃ cleared, frame.clear = .ok cleared :=
  ⟨_, dif_pos hu⟩

theorem Accounted.perm {held' : List FrameId} (ha : pool.Accounted held) (h : held.Perm held') :
    pool.Accounted held' where
  tidy := ha.tidy
  links_eq := ha.links_eq
  pins_eq hf := (ha.pins_eq hf).trans (h.count_eq _)
  below_live := ha.below_live
  held_live hmem := ha.held_live (h.mem_iff.mpr hmem)
  referenced := ha.referenced

theorem accounted_empty (recycle : Bool) : Accounted { recycle } [] where
  tidy := tidy_empty recycle
  links_eq h := by simp [get?] at h
  pins_eq h := by simp [get?] at h
  below_live h := by simp [get?] at h
  held_live h := absurd h not_mem_nil
  referenced h := by simp [get?] at h

/-! ## 1. Changing one frame -/

theorem linksTo_set (h : pool.get? id = some frame) (hprev : new.previous = frame.previous)
    (below : FrameId) : (pool.set id new).linksTo below = pool.linksTo below := by
  have hcount := countLive_set h new fun f => f.previous == some below
  rw [hprev] at hcount
  exact Nat.add_right_cancel hcount

/-- A frame may change in all but its place and its age, as long as the books say what it counts. -/
theorem Balanced.set {held' owed' due' : List FrameId}
    (hb : pool.Balanced held owed due) (h : pool.get? id = some frame)
    (hprev : new.previous = frame.previous) (hstate : new.state = frame.state)
    (hlinks : new.links + owed'.count id = pool.linksTo id + due'.count id)
    (hpins : new.pins = held'.count id)
    (hothers : ∀ other, other ≠ id → held'.count other = held.count other ∧
      owed'.count other = owed.count other ∧ due'.count other = due.count other) :
    (pool.set id new).Balanced held' owed' due' := by
  refine ⟨hb.tidy.set h new, ?_, ?_, ?_, ?_⟩
  · intro other found hfd
    rw [linksTo_set h hprev]
    rcases get?_of_set h hfd with ⟨rfl, rfl⟩ | ⟨hne, hfd⟩
    · rw [hlinks]
    · obtain ⟨_, howed, hdue⟩ := hothers other hne
      rw [howed, hdue, hb.links_eq hfd]
  · intro other found hfd
    rcases get?_of_set h hfd with ⟨rfl, rfl⟩ | ⟨hne, hfd⟩
    · rw [hpins]
    · rw [(hothers other hne).1, hb.pins_eq hfd]
  · intro other found below hfd hbel
    -- neither the upper nor the lower frame has changed its place or its age
    have hold : ∃ old, pool.get? other = some old ∧ old.previous = some below ∧
        old.state = found.state := by
      rcases get?_of_set h hfd with ⟨rfl, rfl⟩ | ⟨_, hfd⟩
      · exact ⟨frame, h, hprev ▸ hbel, hstate.symm⟩
      · exact ⟨found, hfd, hbel, rfl⟩
    obtain ⟨old, hold, hold_below, hold_state⟩ := hold
    obtain ⟨lower, hlow, hlt⟩ := hb.below_live hold hold_below
    rw [get?_set h]
    split
    · rename_i e
      rw [e, h] at hlow
      cases hlow
      exact ⟨new, rfl, by omega⟩
    · exact ⟨lower, hlow, by omega⟩
  · intro other hmem
    rw [get?_set h]
    split
    · exact ⟨new, rfl⟩
    · rename_i hne
      have hpos := count_pos_iff.mpr hmem
      rw [(hothers other hne).1] at hpos
      exact hb.held_live (count_pos_iff.mp hpos)

/-- The frames other than one are referred to. -/
def OthersReferenced (pool : Pool) (id : FrameId) : Prop :=
  ∀ other frame, other ≠ id → pool.get? other = some frame → frame.isUnreferenced = false

theorem Accounted.othersReferenced (ha : pool.Accounted held) : pool.OthersReferenced id :=
  fun _ _ _ h => ha.referenced h

section

variable (h : pool.get? id = some frame)
include h

theorem OthersReferenced.set (ho : pool.OthersReferenced id) :
    (pool.set id new).OthersReferenced id := by
  intro other found hne hfd
  rw [get?_set h, if_neg hne] at hfd
  exact ho other found hne hfd

theorem Balanced.accounted (hb : pool.Balanced held [] []) (ho : pool.OthersReferenced id)
    (hr : frame.isUnreferenced = false) : pool.Accounted held where
  toBalanced := hb
  referenced := by
    intro other found hfd
    by_cases e : other = id
    · rw [e, h] at hfd
      cases hfd
      exact hr
    · exact ho other found e hfd

theorem get?_set_self (new : Frame) :
    (pool.set id new).get? id = some new := by
  rw [get?_set h, if_pos rfl]

theorem Accounted.update (ha : pool.Accounted held)
    (hprev : new.previous = frame.previous) (hstate : new.state = frame.state)
    (hlinks : new.links = frame.links) (hpins : new.pins = frame.pins) :
    (pool.set id new).Accounted held := by
  have hb : (pool.set id new).Balanced held [] [] :=
    ha.toBalanced.set h hprev hstate (hlinks ▸ ha.links_eq h) (hpins.trans (ha.pins_eq h))
      fun _ _ => ⟨rfl, rfl, rfl⟩
  refine hb.accounted (get?_set_self h new) (ha.othersReferenced.set h) ?_
  simpa [Frame.isUnreferenced, hlinks, hpins] using ha.referenced h

theorem pin_eq : pool.pin id = pool.set id { frame with pins := frame.pins + 1 } := by
  simp [pin, modify, h]

theorem link_eq : pool.link id = pool.set id { frame with links := frame.links + 1 } := by
  simp [link, modify, h]

theorem Accounted.pin (ha : pool.Accounted held) : (pool.pin id).Accounted (id :: held) := by
  rw [pin_eq h]
  have hb : (pool.set id { frame with pins := frame.pins + 1 }).Balanced (id :: held) [] [] := by
    have hlinks := ha.links_eq h
    refine ha.toBalanced.set h rfl rfl hlinks ?_ ?_
    · simp [ha.pins_eq h]
    · intro other hne
      exact ⟨count_cons_of_ne (Ne.symm hne), rfl, rfl⟩
  refine hb.accounted (get?_set_self h _) (ha.othersReferenced.set h) ?_
  simp [Frame.isUnreferenced]

end

/-! ## 2. New frames -/

theorem Balanced.alloc (hb : pool.Balanced held [] []) (hnew : pool.Placeable new) :
    (pool.alloc new).2.Balanced ((pool.alloc new).1.id :: held)
      new.previous.toList [] := by
  have hfresh := get?_alloc_id hb.tidy new
  have hget := get?_alloc hb.tidy new
  have hcount : ∀ below, (pool.alloc new).2.linksTo below =
      pool.linksTo below + if new.previous == some below then 1 else 0 :=
    fun below => countLive_alloc hb.tidy new fun f => f.previous == some below
  have htidy := hb.tidy.alloc new
  generalize (pool.alloc new).1.id = newId at *
  have howed : ∀ below : FrameId,
      new.previous.toList.count below = if new.previous == some below then 1 else 0 := by
    cases new.previous <;> simp [count_singleton]
  have hold : ∀ {other found}, pool.get? other = some found → other ≠ newId := by
    rintro other found hfd rfl
    rw [hfresh] at hfd
    cases hfd
  refine ⟨htidy, ?_, ?_, ?_, ?_⟩
  · intro other found hfd
    rw [howed, hcount]
    rw [hget] at hfd
    split at hfd
    · -- nothing sits on an id that was not alive
      rename_i e
      cases hfd
      have hzero : pool.linksTo other = 0 := by
        apply Nat.eq_zero_of_not_pos
        intro hpos
        obtain ⟨upper, found', hfd', hprev⟩ := linksTo_pos_iff.mp hpos
        obtain ⟨lower, hlow, _⟩ := hb.below_live hfd' hprev
        exact hold hlow e
      simp [hnew.links_eq, hzero]
    · have := hb.links_eq hfd
      simp only [count_nil] at this ⊢
      omega
  · intro other found hfd
    rw [hget] at hfd
    split at hfd
    · rename_i e
      cases hfd
      have hnotMem : newId ∉ held := by
        intro hmem
        obtain ⟨found', hfd'⟩ := hb.held_live hmem
        exact hold hfd' rfl
      simp [e, hnew.pins_eq, count_eq_zero_of_not_mem hnotMem]
    · rename_i hne
      rw [count_cons_of_ne (Ne.symm hne), hb.pins_eq hfd]
  · intro other found below hfd hprev
    have hlow : ∃ lower, pool.get? below = some lower ∧ lower.state < found.state := by
      rw [hget] at hfd
      split at hfd
      · cases hfd
        exact hnew.below_live below hprev
      · exact hb.below_live hfd hprev
    obtain ⟨lower, hlow, hlt⟩ := hlow
    exact ⟨lower, by rw [hget, if_neg (hold hlow)]; exact hlow, hlt⟩
  · intro other hmem
    rw [hget]
    split
    · exact ⟨new, rfl⟩
    · rename_i hne
      exact hb.held_live ((mem_cons.mp hmem).resolve_left hne)

/-- Enter the link to the frame below a new frame. -/
def linkBelow (pool : Pool) : Option FrameId → Pool
  | some below => pool.link below
  | none => pool

/-- **A new frame that one stack holds.** -/
theorem Accounted.place (ha : pool.Accounted held) (hnew : pool.Placeable new) :
    ((pool.alloc new).2.linkBelow new.previous).Accounted
      ((pool.alloc new).1.id :: held) := by
  have hb := ha.toBalanced.alloc hnew
  have hold : ∀ {id frame}, pool.get? id = some frame →
      (pool.alloc new).2.get? id = some frame := get?_alloc_of_live ha.tidy new
  have href : ∀ {other found}, (pool.alloc new).2.get? other = some found →
      found.isUnreferenced = false := by
    intro other found hfd
    rcases get?_of_alloc ha.tidy hfd with ⟨_, rfl⟩ | ⟨_, hfd⟩
    · simp [Frame.isUnreferenced, hnew.pins_eq]
    · exact ha.referenced hfd
  generalize (pool.alloc new).1.id = newId at *
  generalize (pool.alloc new).2 = pool' at *
  cases hprev : new.previous with
  | none =>
    rw [hprev] at hb
    exact ⟨hb, href⟩
  | some below =>
    rw [hprev] at hb
    obtain ⟨lower, hlow, _⟩ := hnew.below_live below hprev
    have hlow' := hold hlow
    show (pool'.link below).Accounted (newId :: held)
    rw [link_eq hlow']
    have hb' : (pool'.set below { lower with links := lower.links + 1 }).Balanced
        (newId :: held) [] [] := by
      have hlinks' := hb.links_eq hlow'
      have hpins' := hb.pins_eq hlow'
      refine hb.set hlow' rfl rfl ?_ hpins' ?_
      · simpa using hlinks'
      · intro other hoth
        exact ⟨rfl, by simp [Ne.symm hoth], rfl⟩
    have ho : pool'.OthersReferenced below := fun _ _ _ hfd => href hfd
    refine hb'.accounted (get?_set_self hlow' _) (ho.set hlow') ?_
    simp [Frame.isUnreferenced]

/-! ## 3. Letting go -/

section

variable (hb : pool.Balanced held [] []) (h : pool.get? id = some frame)
    (hu : frame.isUnreferenced = true)
include hb h hu

theorem Balanced.not_below {other : FrameId} {upper : Frame}
    (hoth : pool.get? other = some upper) : upper.previous ≠ some id := by
  intro e
  have hpos : 0 < pool.linksTo id := linksTo_pos_iff.mpr ⟨other, upper, hoth, e⟩
  have hlinks := hb.links_eq h
  have hzero := (isUnreferenced_iff.mp hu).1
  omega

theorem Balanced.not_held : id ∉ held := by
  intro hmem
  have hpos := count_pos_iff.mpr hmem
  have hpins := hb.pins_eq h
  have hzero := (isUnreferenced_iff.mp hu).2
  omega

theorem Balanced.retire (cleared : ClearFrame) :
    (pool.retire id cleared).Balanced held [] frame.previous.toList := by
  have hcount : ∀ below, (pool.retire id cleared).linksTo below + frame.previous.toList.count below =
      pool.linksTo below := by
    intro below
    have := countLive_retire h cleared fun f => f.previous == some below
    cases hprev : frame.previous <;> simp_all [linksTo, count_singleton]
  refine ⟨hb.tidy.retire h cleared, ?_, ?_, ?_, ?_⟩
  · intro other found hfd
    rw [hcount, hb.links_eq (get?_of_retire h hfd).2, count_nil, Nat.add_zero]
  · exact fun hfd => hb.pins_eq (get?_of_retire h hfd).2
  · intro other found below hfd hprev
    obtain ⟨-, hold⟩ := get?_of_retire h hfd
    obtain ⟨lower, hlow, hlt⟩ := hb.below_live hold hprev
    have hne : below ≠ id := by
      rintro rfl
      exact hb.not_below h hu hold hprev
    exact ⟨lower, by rw [get?_retire h, if_neg hne, hlow], hlt⟩
  · intro other hmem
    have hne : other ≠ id := by
      rintro rfl
      exact hb.not_held h hu hmem
    rw [get?_retire h, if_neg hne]
    exact hb.held_live hmem

end

theorem Balanced.unlink {below : FrameId} {lower : Frame} (hb : pool.Balanced held [] [below])
    (h : pool.get? below = some lower) :
    (pool.set below { lower with links := lower.links - 1 }).Balanced held [] [] := by
  have hlinks := hb.links_eq h
  have hpins := hb.pins_eq h
  refine hb.set h rfl rfl ?_ hpins ?_
  · simp only [count_nil, count_singleton_self] at hlinks ⊢
    omega
  · intro other hoth
    exact ⟨rfl, rfl, by simp [Ne.symm hoth]⟩

theorem OthersReferenced.retire (ho : pool.OthersReferenced id) (h : pool.get? id = some frame)
    {other : FrameId} {found : Frame} (hfd : (pool.retire id cleared).get? other = some found) :
    found.isUnreferenced = false := by
  obtain ⟨hne, hfd⟩ := get?_of_retire h hfd
  exact ho other found hne hfd

theorem occupied_retire (h : pool.get? id = some frame) (cleared : ClearFrame) :
    (pool.retire id cleared).occupied + 1 = pool.occupied :=
  countLive_retire h cleared fun _ => true

theorem occupied_set (h : pool.get? id = some frame) (new : Frame) :
    (pool.set id new).occupied = pool.occupied :=
  Nat.add_right_cancel (countLive_set h new fun _ => true)

/-- **A release puts the accounts in order.** The invariant of its steps: the counts are true, and
    the frame to be freed next is the only one that nothing refers to. -/
theorem release_accounted : ∀ (steps : Nat) {id : FrameId} {frame : Frame} {pool : Pool},
    pool.Balanced held [] [] → pool.OthersReferenced id → pool.get? id = some frame →
    frame.isUnreferenced = true → pool.occupied ≤ steps → (release steps id pool).2.Accounted held
  | 0, id, frame, pool, _, _, h, _, hsteps => by
    have := occupied_pos h
    omega
  | steps + 1, id, frame, pool, hb, ho, h, hu, hsteps => by
    obtain ⟨cleared, hclear⟩ := clear_of_isUnreferenced hu
    have hretired := hb.retire h hu cleared
    have href := @OthersReferenced.retire _ _ _ cleared ho h
    unfold release
    simp only [h, hclear]
    cases hprev : frame.previous with
    | none =>
      rw [hprev] at hretired
      exact ⟨hretired, href⟩
    | some below =>
      rw [hprev] at hretired
      have hne : below ≠ id := by
        rintro rfl
        exact hb.not_below h hu h hprev
      obtain ⟨lower, hlow, _⟩ := hb.below_live h hprev
      have hlow' : (pool.retire id cleared).get? below = some lower := by
        rw [get?_retire h, if_neg hne, hlow]
      have hb' := hretired.unlink hlow'
      have ho' : (pool.retire id cleared).OthersReferenced below :=
        fun _ _ _ hfd => href hfd
      have hself := get?_set_self hlow' { lower with links := lower.links - 1 }
      simp only [hlow']
      split
      · rename_i hu'
        have hoccupied := occupied_retire h cleared
        have hset := occupied_set hlow' { lower with links := lower.links - 1 }
        exact release_accounted steps hb' (ho'.set hlow') hself hu' (by omega)
      · rename_i hr
        exact hb'.accounted hself (ho'.set hlow') (by simpa using hr)

theorem occupied_le_size (pool : Pool) : pool.occupied ≤ pool.slots.size := Array.countP_le_size

/-- **A stack lets go of a frame that it holds.** -/
theorem Accounted.unpin (ha : pool.Accounted held) (hmem : id ∈ held) :
    (pool.unpin id).2.Accounted (held.erase id) := by
  obtain ⟨frame, h⟩ := ha.held_live hmem
  have hlinks := ha.links_eq h
  have hb : (pool.set id { frame with pins := frame.pins - 1 }).Balanced (held.erase id) [] [] := by
    refine ha.toBalanced.set h rfl rfl hlinks ?_ ?_
    · simp [ha.pins_eq h]
    · intro other hne
      exact ⟨count_erase_of_ne hne, rfl, rfl⟩
  have ho : (pool.set id { frame with pins := frame.pins - 1 }).OthersReferenced id :=
    ha.othersReferenced.set h
  have hself := get?_set_self h { frame with pins := frame.pins - 1 }
  unfold Pool.unpin
  simp only [h]
  split
  · rename_i hu
    exact release_accounted _ hb ho hself hu (occupied_le_size _)
  · rename_i hr
    exact hb.accounted hself ho (by simpa using hr)

theorem Accounted.unpinAll : ∀ (ids : List FrameId) {pool : Pool} {rest : List FrameId},
    pool.Accounted (ids ++ rest) → (pool.unpinAll ids).2.Accounted rest
  | [], _, _, ha => ha
  | id :: ids, pool, rest, ha => by
    have hfst := ha.unpin (mem_append_left rest mem_cons_self)
    rw [cons_append, erase_cons_head] at hfst
    exact Accounted.unpinAll ids hfst

/-! ## 4. What is freed -/

theorem release_live : ∀ (steps : Nat) (id : FrameId) {pool : Pool}, pool.Tidy →
    (release steps id pool).2.Tidy ∧
      (release steps id pool).1 + (release steps id pool).2.live = pool.live
  | 0, _, pool, ht => ⟨ht, Nat.zero_add _⟩
  | steps + 1, id, pool, ht => by
    unfold release
    cases h : pool.get? id with
    | none => exact ⟨ht, Nat.zero_add _⟩
    | some frame =>
      simp only
      split
      · exact ⟨ht, Nat.zero_add _⟩
      rename_i cleared _
      have hretired := ht.retire h cleared
      have hlive : 1 + (pool.retire id cleared).live = pool.live := by
        have hpos := occupied_pos h
        have := ht.live_eq
        show 1 + (pool.live - 1) = pool.live
        omega
      split
      · exact ⟨hretired, hlive⟩
      · rename_i below _
        split
        · exact ⟨hretired, hlive⟩
        · rename_i lower hlow
          have hset := hretired.set hlow { lower with links := lower.links - 1 }
          split
          · obtain ⟨htidy, hcount⟩ := release_live steps below hset
            refine ⟨htidy, ?_⟩
            have : ((pool.retire id cleared).set below { lower with links := lower.links - 1 }).live =
              (pool.retire id cleared).live := rfl
            simp only
            omega
          · exact ⟨hset, hlive⟩

/-- **Letting go of a frame reports the number of frames freed.** -/
theorem unpin_live (ht : pool.Tidy) (id : FrameId) :
    (pool.unpin id).2.Tidy ∧ (pool.unpin id).1 + (pool.unpin id).2.live = pool.live := by
  unfold unpin
  cases h : pool.get? id with
  | none => exact ⟨ht, Nat.zero_add _⟩
  | some frame =>
    have hset := ht.set h { frame with pins := frame.pins - 1 }
    simp only
    split
    · exact release_live _ id hset
    · exact ⟨hset, Nat.zero_add _⟩

theorem unpinAll_live : ∀ (ids : List FrameId) {pool : Pool}, pool.Tidy →
    (pool.unpinAll ids).1 + (pool.unpinAll ids).2.live = pool.live
  | [], _, _ => Nat.zero_add _
  | id :: ids, pool, ht => by
    obtain ⟨htidy, hfst⟩ := unpin_live ht id
    have hrest := unpinAll_live ids htidy
    simp only [unpinAll]
    omega

/-! ## 5. Freeing with a check -/

/-- `release`, which fails where a frame cannot be cleared since it is in use. -/
def releaseChecked : Nat → FrameId → Pool → Except InUse (Nat × Pool)
  | 0, _, pool => .ok (0, pool)
  | steps + 1, id, pool =>
    match pool.get? id with
    | none => .ok (0, pool)
    | some frame =>
      match frame.clear with
      | .error e => .error e
      | .ok cleared =>
        let pool := pool.retire id cleared
        match frame.previous with
        | none => .ok (1, pool)
        | some previous =>
          match pool.get? previous with
          | none => .ok (1, pool)
          | some below =>
            let below := { below with links := below.links - 1 }
            let pool := pool.set previous below
            if below.isUnreferenced then
              (releaseChecked steps previous pool).map fun (freed, pool) => (freed + 1, pool)
            else .ok (1, pool)

/-- `unpin`, which fails where a frame cannot be cleared since it is in use. -/
def unpinChecked (pool : Pool) (id : FrameId) : Except InUse (Nat × Pool) :=
  match pool.get? id with
  | none => .ok (0, pool)
  | some frame =>
    let frame := { frame with pins := frame.pins - 1 }
    let pool := pool.set id frame
    if frame.isUnreferenced then releaseChecked pool.slots.size id pool else .ok (0, pool)

theorem releaseChecked_eq : ∀ (steps : Nat) {id : FrameId} {frame : Frame} {pool : Pool},
    pool.get? id = some frame → frame.isUnreferenced = true →
    releaseChecked steps id pool = .ok (release steps id pool)
  | 0, _, _, _, _, _ => rfl
  | steps + 1, id, frame, pool, h, hu => by
    obtain ⟨cleared, hclear⟩ := clear_of_isUnreferenced hu
    unfold releaseChecked release
    simp only [h, hclear]
    cases hprev : frame.previous with
    | none => rfl
    | some below =>
      cases hlow : (pool.retire id cleared).get? below with
      | none => simp only [hlow]
      | some lower =>
        simp only [hlow]
        split
        · rename_i hu'
          rw [releaseChecked_eq steps (get?_set_self hlow _) hu']
          rfl
        · rfl

/-- **No frame is cleared while it is in use**, in any pool. -/
theorem unpinChecked_eq (pool : Pool) (id : FrameId) :
    pool.unpinChecked id = .ok (pool.unpin id) := by
  unfold unpinChecked unpin
  cases h : pool.get? id with
  | none => rfl
  | some frame =>
    simp only
    split
    · rename_i hu
      exact releaseChecked_eq _ (get?_set_self h _) hu
    · rfl

end KeepTree.Pool
