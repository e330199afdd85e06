import KeepTree.Proofs.Session.Accounts

/-!
# What a stack looks like

A reading of frames that is blind to counts, containers and loops is `Standing`: it is fixed when a
frame is pushed. If a copy reads the same, it is `Lasting`. Then all that can be seen from a frame is
fixed too, as long as the frame is alive:

* `Effect.akin`, `branch_akin`, `close_akin` -- **whatever is done to one stack, every chain that is
  left reads as before**.
-/

namespace KeepTree

open Pool

namespace Pool

variable {pool pool' common : Pool} {held held' held'' owed owed' owed'' due due' due'' :
  List FrameId} {α : Type} {v : Frame → α}

/-- Chains that both pools have read the same in both. -/
def Akin (v : Frame → α) (pool pool' : Pool) : Prop :=
  ∀ top : Option FrameId, (∀ id ∈ top, ∃ frame, pool.get? id = some frame) →
    (∀ id ∈ top, ∃ frame, pool'.get? id = some frame) → pool'.view v top = pool.view v top

theorem Within.akin (hw : Within v pool pool') (hb : pool.Balanced held owed due)
    (hb' : pool'.Balanced held' owed' due') : Akin v pool pool' :=
  fun _ hlive _ => view_eq hb hb' hw hlive

theorem Within.akin_of_common (hw : Within v pool common) (hw' : Within v pool' common)
    (hb : pool.Balanced held owed due) (hb' : pool'.Balanced held' owed' due')
    (hcommon : common.Balanced held'' owed'' due'') : Akin v pool pool' := by
  intro top hlive hlive'
  rw [← view_eq hb hcommon hw hlive, ← view_eq hb' hcommon hw' hlive']

theorem Akin.symm (h : Akin v pool pool') : Akin v pool' pool :=
  fun top hlive hlive' => (h top hlive' hlive).symm

end Pool

/-- The reading depends on what stays as it is while the frame is on a stack, and not on counts. -/
structure Standing {α : Type} (v : Frame → α) : Prop where
  counts : Pool.IgnoresCounts v
  settled : ∀ {frame frame' : Frame}, frame.settled = frame'.settled → v frame = v frame'

/-- The reading is that of a copy, too. -/
structure Lasting {α : Type} (v : Frame → α) : Prop extends Standing v where
  copy : ∀ (source : Frame) (sharing : Bool) (store : Store),
    v (source.copy sharing store).1 = v source

namespace Session

variable {s s' : Session} {limits : Limits} {rest : List Stack} {id : FrameId} {frame : Frame}
  {α : Type} {v : Frame → α}

/-! ## 1. Every chain that is left reads as before -/

theorem enter_akin (hv : Lasting v) (hs : s.Sound limits rest) (hfresh : s.Fresh frame)
    (engine : Engine) : Pool.Akin v s.family.pool (s.enter frame engine).family.pool := by
  obtain ⟨ha, hw, _⟩ := enter_pool hs hfresh hv.counts engine
  have hgrown := hs.accounted.toBalanced.alloc (fresh_placeable hs hfresh)
  exact (within_alloc hs.accounted.tidy _).akin_of_common hw hs.accounted.toBalanced
    ha.toBalanced hgrown

theorem popped_within (hv : Pool.IgnoresCounts v) (hs : s.Sound limits rest)
    (hf : s.frame? id = some frame) :
    Pool.Within v (s.popped id frame).family.pool s.family.pool := by
  obtain ⟨_, hpinned, _⟩ := pinBelow_accounted hv hs.accounted hf
  exact (unpin_within hv _ id).trans hpinned

theorem steppedOut_within (hv : Pool.IgnoresCounts v)
    (hs : s.Sound limits rest) (hf : s.frame? id = some frame) :
    Pool.Within v (s.steppedOut id frame).family.pool s.family.pool :=
  (pinBelow_accounted hv hs.accounted hf).2.1

/-- **Whatever is done to one stack, every chain that is left reads as before.** -/
theorem Effect.akin (hv : Lasting v) (h : Effect s s') (hs : s.Sound s.limits rest) :
    Pool.Akin v s.family.pool s'.family.pool := by
  have hb := hs.accounted.toBalanced
  have hb' := (h.sound hs).accounted.toBalanced
  cases h with
  | quiet _ => exact (Pool.Within.refl v _).akin hb hb'
  | retouch _ _ hf hnew =>
    obtain ⟨hprev, _, _, _⟩ := settled_counts hnew
    exact (within_set hf hprev (hv.settled hnew)).akin hb hb'
  | push _ hfresh _ _ => exact enter_akin hv hs hfresh _
  | pop h =>
    obtain ⟨id, frame, _, hf, rfl⟩ := pop_ok h
    exact ((popped_within hv.counts hs hf).akin hb' hb).symm
  | unpush h =>
    obtain ⟨id, frame, _, hf, rfl⟩ := unpush_ok h
    exact ((steppedOut_within hv.counts hs hf).akin hb' hb).symm
  | repush h =>
    obtain ⟨id, frame, stash, _, _, _, rfl⟩ := repush_ok h
    exact ((steppedIn_within hv.counts s id stash).akin hb' hb).symm

section

variable (hv : Lasting v) (hs : s.Sound limits rest)
include hv hs

/-- What a branch is, told by what its top frame has from the one it is a copy of. -/
theorem branch_placed
    (sharing : Bool) (htop : s.stack.top = some id) (hf : s.frame? id = some frame) :
    ∃ copied : Frame, s.family.pool.Placeable copied ∧ copied.previous = frame.previous ∧
        v copied = v frame ∧
        (s.branch sharing).family.pool =
          (s.family.pool.alloc copied).2.linkBelow copied.previous ∧
        (s.branch sharing).stack.top = some (s.family.pool.alloc copied).1.id ∧
        (s.branch sharing).stack.stash = [] := by
  obtain ⟨hprev, _⟩ := copy_like frame sharing s.store
  have hcopied : v { (frame.copy sharing s.store).1 with pins := 1 } = v frame := by
    have hcounts := hv.counts (frame.copy sharing s.store).1 (frame.copy sharing s.store).1.links 1
    exact hcounts.trans (hv.copy frame sharing s.store)
  refine ⟨{ (frame.copy sharing s.store).1 with pins := 1 },
    copy_placeable hs.accounted hf sharing s.store, hprev, hcopied, ?_⟩
  rw [branch_eq sharing htop hf]
  simp only [hprev, and_self]

theorem branch_akin
    (sharing : Bool) : Pool.Akin v s.family.pool (s.branch sharing).family.pool := by
  have hb := hs.accounted.toBalanced
  have hb' := (branch_sound hs sharing).accounted.toBalanced
  cases htop : s.stack.top with
  | none =>
    rw [branch_empty sharing htop]
    exact (Pool.Within.refl v _).akin hb hb
  | some id =>
    obtain ⟨frame, hf⟩ := hs.live _ htop
    obtain ⟨copied, hpl, _, _, hpool, _⟩ := branch_placed hv hs sharing htop hf
    rw [hpool] at hb' ⊢
    exact (within_alloc hb.tidy _).akin_of_common
      (linkBelow_within hv.counts hb.tidy hpl) hb hb' (hb.alloc hpl)

theorem close_akin : Pool.Akin v s.family.pool s.close.family.pool :=
  ((unpinAll_within hv.counts _ s.family.pool).akin (close_sound hs).accounted.toBalanced
    hs.accounted.toBalanced).symm

end

/-! ## 2. What becomes of the stack itself -/

/-- The stack, top first, with a reading of each frame. -/
def view (s : Session) (v : Frame → α) : List (FrameId × α) := s.family.pool.view v s.stack.top

theorem view_cons (hs : s.Sound limits rest) (htop : s.stack.top = some id)
    (hf : s.frame? id = some frame) :
    s.view v = (id, v frame) :: s.family.pool.view v frame.previous := by
  rw [view, htop]
  exact view_some hs.accounted.toBalanced hf

theorem alloc_unused (hs : s.Sound limits rest) (new : Frame) :
    s.frame? (s.family.pool.alloc new).1.id = none :=
  get?_alloc_id hs.accounted.tidy new

section

variable (hv : Pool.IgnoresCounts v) (hs : s.Sound limits rest)
include hv hs

theorem enter_view (hfresh : s.Fresh frame) (hdepth : s.stack.size < limits.maxDepth)
    (engine : Engine) : ∃ new, (s.enter frame engine).stack.top = some new ∧ s.frame? new = none ∧
    (s.enter frame engine).view v = (new, v frame) :: s.view v ∧
    (s.enter frame engine).stack.stash = s.stack.stash := by
  have hb := hs.accounted.toBalanced
  have hsound := enter_sound hs hfresh hdepth engine
  obtain ⟨ha, hw, _⟩ := enter_pool hs hfresh hv engine
  have hpl := fresh_placeable hs hfresh
  refine ⟨_, rfl, alloc_unused hs frame, ?_, rfl⟩
  calc (s.enter frame engine).view v
      = (s.family.pool.alloc frame).2.view v
          (some (s.family.pool.alloc frame).1.id) :=
        (view_eq ha.toBalanced (hb.alloc hpl) hw hsound.live).symm
    _ = ((s.family.pool.alloc frame).1.id, v frame) :: s.view v := by
        rw [view_new hb hpl, hfresh.previous_eq, view]

theorem popped_view (htop : s.stack.top = some id) (hf : s.frame? id = some frame) :
    s.view v = (id, v frame) :: (s.popped id frame).view v := by
  have hsound := popped_sound hs htop hf
  have hbel := view_eq hsound.accounted.toBalanced hs.accounted.toBalanced
    (popped_within hv hs hf) hsound.live
  rw [view_cons hs htop hf]
  exact congrArg _ hbel

theorem steppedOut_view (htop : s.stack.top = some id) (hf : s.frame? id = some frame) :
    s.view v = (id, v frame) :: (s.steppedOut id frame).view v := by
  have hsound := steppedOut_sound hs htop hf
  have hbel := view_eq hsound.accounted.toBalanced hs.accounted.toBalanced
    (steppedOut_within hv hs hf) hsound.live
  rw [view_cons hs htop hf]
  exact congrArg _ hbel

theorem steppedIn_view {stash : List FrameId} (hstash : s.stack.stash = id :: stash)
    (hf : s.frame? id = some frame) (hprev : frame.previous = s.stack.top) :
    (s.steppedIn id stash).view v = (id, v frame) :: s.view v := by
  have hsound := steppedIn_sound hs hstash hf hprev
  have htop := view_eq hsound.accounted.toBalanced hs.accounted.toBalanced
    (steppedIn_within hv s id stash) hsound.live
  have hcons := view_some (v := v) hs.accounted.toBalanced hf
  rw [hprev] at hcons
  exact htop.symm.trans hcons

end

theorem branch_view (hv : Lasting v) (hs : s.Sound limits rest)
    (sharing : Bool) (htop : s.stack.top = some id) (hf : s.frame? id = some frame) :
    ∃ new, (s.branch sharing).stack.top = some new ∧ s.frame? new = none ∧
      (s.branch sharing).view v = (new, v frame) :: s.family.pool.view v frame.previous ∧
      (s.branch sharing).stack.stash = [] := by
  have hb := hs.accounted.toBalanced
  have hsound := branch_sound hs sharing
  obtain ⟨copied, hpl, hprev, hcopied, hpool, hnew, hstash⟩ := branch_placed hv hs sharing htop hf
  have hw : Pool.Within v (s.branch sharing).family.pool (s.family.pool.alloc copied).2 := by
    rw [hpool]
    exact linkBelow_within hv.counts hb.tidy hpl
  refine ⟨_, hnew, alloc_unused hs copied, ?_, hstash⟩
  calc (s.branch sharing).view v
      = (s.family.pool.alloc copied).2.view v (s.branch sharing).stack.top :=
        (view_eq hsound.accounted.toBalanced (hb.alloc hpl) hw (Sound.live hsound)).symm
    _ = ((s.family.pool.alloc copied).1.id, v frame) ::
          s.family.pool.view v frame.previous := by
        rw [hnew, view_new hb hpl, hcopied, hprev]

end Session

end KeepTree
