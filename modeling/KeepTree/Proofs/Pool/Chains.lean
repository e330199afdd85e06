import KeepTree.Proofs.Pool.Accounting

/-!
# Chains of a pool

The frames of a stack are a chain, from its top to a frame without a frame below. Chains of several
stacks run together further down, and slots are used again, so a chain is described by what lies on
it and not by where it lies:

* `Chain` -- the chain from a frame down, as a relation; it is unique, and `chain` computes it;
* `Within` -- every live frame of one pool is alive in another, unchanged as far as a reading `v` of
  frames goes; then the chains of the first are chains of the second, read by `v` (`view_eq`);
* `Reaches` -- in a pool with its accounts in order, the live frames are those that can be reached
  from a held one.
-/

namespace KeepTree

open List

variable {α : Type} {top : Option FrameId} {l : List (FrameId × Frame)} {new : Frame} {clock : Nat}

namespace Pool

variable {pool pool' : Pool} {held held' owed owed' due due' : List FrameId} {id : FrameId}
  {frame : Frame}

/-! ## 1. Chains as a relation -/

/-- The frames from one frame down to the bottom. -/
inductive Chain (pool : Pool) : Option FrameId → List (FrameId × Frame) → Prop
  | bottom : Chain pool none []
  | link {id : FrameId} {frame : Frame} {rest : List (FrameId × Frame)} :
      pool.get? id = some frame → Chain pool frame.previous rest →
      Chain pool (some id) ((id, frame) :: rest)

theorem Chain.chainFrom_eq (h : pool.Chain top l) :
    ∀ {steps : Nat}, l.length ≤ steps → pool.chainFrom steps top = l := by
  induction h with
  | bottom => intro steps _; cases steps <;> rfl
  | link hf _ ih =>
    intro steps hsteps
    cases steps with
    | zero => simp at hsteps
    | succ steps =>
      rw [length_cons, Nat.add_le_add_iff_right] at hsteps
      simp only [chainFrom, hf, ih hsteps]

theorem Balanced.below_alive (hb : pool.Balanced held owed due) (h : pool.get? id = some frame) :
    ∀ below ∈ frame.previous, ∃ lower, pool.get? below = some lower :=
  fun _ hbel => (hb.below_live h hbel).imp fun _ hlow => hlow.1

theorem Balanced.exists_chain (hb : pool.Balanced held owed due) (h : pool.get? id = some frame) :
    ∃ l, pool.Chain (some id) l := by
  induction hage : frame.state using Nat.strongRecOn generalizing id frame with
  | ind age ih =>
    cases hprev : frame.previous with
    | none => exact ⟨[(id, frame)], .link h (by rw [hprev]; exact .bottom)⟩
    | some below =>
      obtain ⟨lower, hlow, hlt⟩ := hb.below_live h hprev
      obtain ⟨l, hl⟩ := ih lower.state (hage ▸ hlt) hlow rfl
      exact ⟨(id, frame) :: l, .link h (by rw [hprev]; exact hl)⟩

theorem Chain.state_lt (h : pool.Chain top l) (hb : pool.Balanced held owed due) :
    l.Pairwise fun a b => b.2.state < a.2.state := by
  induction h with
  | bottom => exact .nil
  | @link id frame rest hf hrest ih =>
    refine pairwise_cons.mpr ⟨?_, ih⟩
    intro other hmem
    generalize hprev : frame.previous = below at hrest
    cases hrest with
    | bottom => cases hmem
    | link hf' _ =>
      obtain ⟨lower, hlow, hlt⟩ := hb.below_live hf hprev
      rw [hf'] at hlow
      cases hlow
      rcases mem_cons.mp hmem with rfl | hmem
      · exact hlt
      · exact Nat.lt_trans ((pairwise_cons.mp ih).1 other hmem) hlt

theorem Chain.get? (h : pool.Chain top l) (hmem : (id, frame) ∈ l) : pool.get? id = some frame := by
  induction h with
  | bottom => cases hmem
  | link hf _ ih =>
    rcases mem_cons.mp hmem with e | hmem
    · cases e
      exact hf
    · exact ih hmem

theorem Chain.length_le (h : pool.Chain top l) (hb : pool.Balanced held owed due) :
    l.length ≤ pool.slots.size := by
  have hnd : (l.map fun entry => entry.1.index).Nodup := by
    unfold List.Nodup
    rw [pairwise_map]
    refine List.Pairwise.imp_of_mem ?_ (h.state_lt hb)
    rintro ⟨a, f⟩ ⟨b, g⟩ ha hb' hlt hidx
    -- two live frames in one slot are one frame, which is not younger than itself
    have hf := h.get? ha
    have hg := h.get? hb'
    by_cases e : b = a
    · subst e
      rw [hf] at hg
      cases hg
      exact Nat.lt_irrefl _ hlt
    · rw [get?_eq_none_of_index_eq hf e hidx.symm] at hg
      cases hg
  have hsub : (l.map fun entry => entry.1.index) ⊆ range pool.slots.size := by
    intro index hmem
    obtain ⟨⟨a, f⟩, ha, rfl⟩ := mem_map.mp hmem
    exact mem_range.mpr (index_lt (h.get? ha))
  simpa using hnd.length_le_of_subset hsub

theorem Chain.chain_eq (h : pool.Chain top l) (hb : pool.Balanced held owed due) :
    pool.chain top = l :=
  h.chainFrom_eq (h.length_le hb)

/-- **`chain` lists the whole chain.** -/
theorem Balanced.chain (hb : pool.Balanced held owed due)
    (htop : ∀ id ∈ top, ∃ frame, pool.get? id = some frame) : pool.Chain top (pool.chain top) := by
  cases top with
  | none =>
    have hbot : pool.Chain none [] := .bottom
    rw [hbot.chain_eq hb]
    exact hbot
  | some id =>
    obtain ⟨frame, h⟩ := htop id rfl
    obtain ⟨l, hl⟩ := hb.exists_chain h
    rw [hl.chain_eq hb]
    exact hl

theorem get?_of_mem_chain {entry : FrameId × Frame} (h : entry ∈ pool.chain top) :
    pool.get? entry.1 = some entry.2 := by
  have hfrom : ∀ steps top, entry ∈ pool.chainFrom steps top →
      pool.get? entry.1 = some entry.2 := by
    intro steps
    induction steps with
    | zero => intro top h; cases h
    | succ steps ih =>
      intro top h
      cases top with
      | none => cases h
      | some id =>
        rw [chainFrom] at h
        split at h
        · cases h
        · rename_i frame hf
          rcases mem_cons.mp h with rfl | h
          · exact hf
          · exact ih _ h
  exact hfrom _ top h

theorem mem_chain_self (h : pool.get? id = some frame) : (id, frame) ∈ pool.chain (some id) := by
  have hlt := index_lt h
  obtain ⟨steps, hsteps⟩ : ∃ steps, pool.slots.size = steps + 1 := ⟨pool.slots.size - 1, by omega⟩
  rw [Pool.chain, hsteps, chainFrom, h]
  exact mem_cons_self

theorem chain_none (pool : Pool) : pool.chain none = [] := by
  unfold Pool.chain
  cases pool.slots.size <;> rfl

theorem Balanced.chain_some (hb : pool.Balanced held owed due) (h : pool.get? id = some frame) :
    pool.chain (some id) = (id, frame) :: pool.chain frame.previous :=
  (Chain.link h (hb.chain (hb.below_alive h))).chain_eq hb

theorem Balanced.not_mem_below (hb : pool.Balanced held owed due) (h : pool.get? id = some frame)
    {other : Frame} : (id, other) ∉ pool.chain frame.previous := by
  intro hmem
  have htop : ∀ top ∈ some id, ∃ frame, pool.get? top = some frame := by
    rintro _ ⟨⟩
    exact ⟨frame, h⟩
  have hordered := (hb.chain htop).state_lt hb
  rw [hb.chain_some h] at hordered
  cases (get?_of_mem_chain hmem).symm.trans h
  exact Nat.lt_irrefl _ (rel_of_pairwise_cons hordered hmem)

/-! ## 2. Chains in another pool -/

section Reading

variable {v : Frame → α}

/-- Every live frame of `pool` is alive in `pool'`, on the same frame and reading the same. -/
def Within (v : Frame → α) (pool pool' : Pool) : Prop :=
  ∀ id frame, pool.get? id = some frame →
    ∃ frame', pool'.get? id = some frame' ∧ frame'.previous = frame.previous ∧ v frame' = v frame

theorem Within.refl (v : Frame → α) (pool : Pool) : Within v pool pool :=
  fun _ frame h => ⟨frame, h, rfl, rfl⟩

theorem Within.trans {pool'' : Pool} (h : Within v pool pool') (h' : Within v pool' pool'') :
    Within v pool pool'' := by
  intro id frame hf
  obtain ⟨frame', hf', hprev, hv⟩ := h id frame hf
  obtain ⟨frame'', hf'', hprev', hv'⟩ := h' id frame' hf'
  exact ⟨frame'', hf'', hprev'.trans hprev, hv'.trans hv⟩

section

variable (h : pool.get? id = some frame) (hprev : new.previous = frame.previous)
  (hv : v new = v frame)
include h hprev hv

theorem within_set : Within v pool (pool.set id new) := by
  intro other found hfd
  rw [get?_set h]
  split
  · rename_i e
    rw [e, h] at hfd
    cases hfd
    exact ⟨new, rfl, hprev, hv⟩
  · exact ⟨found, hfd, rfl, rfl⟩

theorem set_within : Within v (pool.set id new) pool := by
  intro other found hfd
  rcases get?_of_set h hfd with ⟨rfl, rfl⟩ | ⟨_, hfd⟩
  · exact ⟨frame, h, hprev.symm, hv.symm⟩
  · exact ⟨found, hfd, rfl, rfl⟩

end

theorem within_alloc (ht : pool.Tidy) (new : Frame) : Within v pool (pool.alloc new).2 :=
  fun _ found hfd => ⟨found, get?_alloc_of_live ht new hfd, rfl, rfl⟩

theorem retire_within (h : pool.get? id = some frame) (cleared : ClearFrame) :
    Within v (pool.retire id cleared) pool :=
  fun _ found hfd => ⟨found, (get?_of_retire h hfd).2, rfl, rfl⟩

/-- The reading is blind to what is counted. -/
def IgnoresCounts (v : Frame → α) : Prop :=
  ∀ frame links pins, v { frame with links, pins } = v frame

theorem release_within (hv : IgnoresCounts v) : ∀ (steps : Nat) (id : FrameId) (pool : Pool),
    Within v (release steps id pool).2 pool
  | 0, _, pool => .refl v pool
  | steps + 1, id, pool => by
    unfold release
    cases h : pool.get? id with
    | none => exact .refl v pool
    | some frame =>
      simp only
      split
      · exact .refl v pool
      rename_i cleared _
      have hretire : Within v (pool.retire id cleared) pool := retire_within h cleared
      split
      · exact hretire
      · rename_i below _
        split
        · exact hretire
        · rename_i lower hlow
          have hset : Within v
              ((pool.retire id cleared).set below { lower with links := lower.links - 1 })
              (pool.retire id cleared) :=
            set_within hlow rfl (hv lower (lower.links - 1) lower.pins)
          split
          · exact ((release_within hv steps below _).trans hset).trans hretire
          · exact hset.trans hretire

theorem unpin_within (hv : IgnoresCounts v) (pool : Pool) (id : FrameId) :
    Within v (pool.unpin id).2 pool := by
  unfold unpin
  cases h : pool.get? id with
  | none => exact .refl v pool
  | some frame =>
    have hset : Within v (pool.set id { frame with pins := frame.pins - 1 }) pool :=
      set_within h rfl (hv frame frame.links (frame.pins - 1))
    simp only
    split
    · exact (release_within hv _ id _).trans hset
    · exact hset

theorem unpinAll_within (hv : IgnoresCounts v) : ∀ (ids : List FrameId) (pool : Pool),
    Within v (pool.unpinAll ids).2 pool
  | [], pool => .refl v pool
  | id :: ids, pool => (unpinAll_within hv ids _).trans (unpin_within hv pool id)

/-- The chain from a frame down, with a reading of each frame. -/
def view (v : Frame → α) (pool : Pool) (top : Option FrameId) : List (FrameId × α) :=
  (pool.chain top).map fun (id, frame) => (id, v frame)

theorem Chain.transfer (h : pool.Chain top l)
    (hl : ∀ id frame, (id, frame) ∈ l → ∃ frame', pool'.get? id = some frame' ∧
      frame'.previous = frame.previous ∧ v frame' = v frame) :
    ∃ l', pool'.Chain top l' ∧
      l'.map (fun (id, frame) => (id, v frame)) = l.map fun (id, frame) => (id, v frame) := by
  induction h with
  | bottom => exact ⟨[], .bottom, rfl⟩
  | link hf _ ih =>
    obtain ⟨frame', hf', hprev, hv⟩ := hl _ _ mem_cons_self
    obtain ⟨l', hl', hmap⟩ := ih fun id frame hmem => hl id frame (mem_cons_of_mem _ hmem)
    refine ⟨_, .link hf' (hprev ▸ hl'), ?_⟩
    simp [hv, hmap]

/-- **A chain reads the same in a pool that has all its frames.** -/
theorem view_eq (hb : pool.Balanced held owed due) (hb' : pool'.Balanced held' owed' due')
    (hw : Within v pool pool') (htop : ∀ id ∈ top, ∃ frame, pool.get? id = some frame) :
    pool'.view v top = pool.view v top := by
  have hchain := hb.chain htop
  obtain ⟨l', hl', hmap⟩ := hchain.transfer fun id frame hmem => hw id frame (hchain.get? hmem)
  unfold view
  rw [hl'.chain_eq hb', hmap]

theorem view_none (v : Frame → α) (pool : Pool) : pool.view v none = [] := by
  rw [view, chain_none, map_nil]

theorem view_some (hb : pool.Balanced held owed due) (h : pool.get? id = some frame) :
    pool.view v (some id) = (id, v frame) :: pool.view v frame.previous := by
  rw [view, hb.chain_some h, map_cons, view]

theorem view_new (hb : pool.Balanced held [] []) (hnew : pool.Placeable new) :
    (pool.alloc new).2.view v (some (pool.alloc new).1.id) =
      ((pool.alloc new).1.id, v new) :: pool.view v new.previous := by
  rw [view_some (hb.alloc hnew) (get?_alloc_self hb.tidy _), 
    view_eq hb (hb.alloc hnew) (within_alloc hb.tidy _) hnew.live]

end Reading

/-! ## 3. What is alive -/

/-- `target` is `id`, or lies somewhere below it. -/
inductive Reaches (pool : Pool) : FrameId → FrameId → Prop
  | here {id : FrameId} : Reaches pool id id
  | down {id below target : FrameId} {frame : Frame} : pool.get? id = some frame →
      frame.previous = some below → Reaches pool below target → Reaches pool id target

theorem Reaches.step {a b c : FrameId} (h : pool.Reaches a b) (hf : pool.get? b = some frame)
    (hprev : frame.previous = some c) : pool.Reaches a c := by
  induction h with
  | here => exact .down hf hprev .here
  | down hf' hprev' _ ih => exact .down hf' hprev' (ih hf)

/-- **What is alive is held, or lies below a held frame.** -/
theorem Accounted.reached (ha : pool.Accounted held)
    (hclock : ∀ id frame, pool.get? id = some frame → frame.state ≤ clock)
    (h : pool.get? id = some frame) : ∃ top ∈ held, pool.Reaches top id := by
  -- upwards, frames get younger, and no frame is younger than the clock
  induction hage : clock - frame.state using Nat.strongRecOn generalizing id frame with
  | ind age ih =>
    by_cases hpins : frame.pins = 0
    · have hlinks : 0 < frame.links := by
        have hr := ha.referenced h
        simp only [Frame.isUnreferenced, hpins, beq_self_eq_true, Bool.and_true,
          beq_eq_false_iff_ne] at hr
        omega
      have hcount := ha.links_eq h
      simp only [count_nil, Nat.add_zero] at hcount
      obtain ⟨above, upper, hupper, hprev⟩ := linksTo_pos_iff.mp (hcount ▸ hlinks)
      obtain ⟨lower, hlow, hlt⟩ := ha.below_live hupper hprev
      rw [h] at hlow
      cases hlow
      have := hclock above upper hupper
      obtain ⟨top, htop, hreach⟩ := ih (clock - upper.state) (by omega) hupper rfl
      exact ⟨top, htop, hreach.step hupper hprev⟩
    · have hpos : 0 < held.count id := by
        have := ha.pins_eq h
        omega
      exact ⟨id, count_pos_iff.mp hpos, .here⟩

/-- **Without holds nothing is alive.** -/
theorem Accounted.live_eq_zero (ha : pool.Accounted [])
    (hclock : ∀ id frame, pool.get? id = some frame → frame.state ≤ clock) : pool.live = 0 := by
  rw [ha.tidy.live_eq]
  apply Nat.eq_zero_of_not_pos
  intro hpos
  obtain ⟨id, frame, h, _⟩ := countLive_pos_iff.mp hpos
  obtain ⟨top, htop, _⟩ := ha.reached hclock h
  cases htop

theorem Balanced.live_of_reaches {v : Frame → α} {top : FrameId} (hb : pool'.Balanced held owed due)
    (hw : Within v pool' pool) (hreach : pool.Reaches top id)
    (htop : ∃ frame, pool'.get? top = some frame) : ∃ frame, pool'.get? id = some frame := by
  induction hreach with
  | here => exact htop
  | down hf hprev _ ih =>
    obtain ⟨frame', hf'⟩ := htop
    obtain ⟨found, hfd, hfound_previous, _⟩ := hw _ _ hf'
    rw [hf] at hfd
    cases hfd
    obtain ⟨lower, hlow, _⟩ := hb.below_live hf' (hfound_previous ▸ hprev)
    exact ih ⟨lower, hlow⟩

theorem Within.reaches {v : Frame → α} (hw : Within v pool pool') {top : FrameId}
    (h : pool.Reaches top id) : pool'.Reaches top id := by
  induction h with
  | here => exact .here
  | down hf hprev _ ih =>
    obtain ⟨frame', hf', hprev', _⟩ := hw _ _ hf
    exact .down hf' (hprev'.trans hprev) ih

/-- **What was alive is alive again once the same frames are held.** In between, frames were added
    to the pool; then some were let go. -/
theorem Accounted.survive {v : Frame → α} {between : Pool} (ha : pool.Accounted held)
    (hclock : ∀ id frame, pool.get? id = some frame → frame.state ≤ clock)
    (ha' : pool'.Accounted held) (hw : Within v pool between) (hw' : Within v pool' between) :
    Within v pool pool' := by
  intro id frame hf
  obtain ⟨top, htop, hreach⟩ := ha.reached hclock hf
  obtain ⟨frame', hf'⟩ := ha'.toBalanced.live_of_reaches hw' (hw.reaches hreach)
    (ha'.held_live htop)
  -- both are the frame that was there in between
  obtain ⟨found, hfd, hprev, hv⟩ := hw id frame hf
  obtain ⟨found', hfd', hprev', hv'⟩ := hw' id frame' hf'
  rw [hfd] at hfd'
  cases hfd'
  exact ⟨frame', hf', hprev'.symm.trans hprev, hv'.symm.trans hv⟩

end Pool

end KeepTree
