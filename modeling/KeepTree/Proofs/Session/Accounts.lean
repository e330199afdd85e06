import KeepTree.Proofs.Pool.Chains
import KeepTree.Proofs.Session.Effects

/-!
# The accounts of a family

The stacks of a family hold frames of one pool: each its top and the frames it has set aside.
`Family.Sound` says that the accounts of the pool are in order for what the stacks hold, that every
stack knows its own height, and that no chain is higher than allowed. It is kept

* by every effect of a move on one of the stacks, whatever the other stacks are (`Effect.sound`);
* by branching a stack off (`branch_sound`) and by ending one (`close_sound`).

With the accounts in order no operation meets a dead frame (`push_ne_stale` and the lemmas after it),
and frames made less frames freed are the live ones (`Effect.balance`, `branch_balance`,
`close_balance`).
-/

namespace KeepTree

open KeepTree.Frame Pool List

variable {pool : Pool} {id : FrameId} {frame new : Frame} {limits : Limits} {α : Type}
  {top : Option FrameId} {t : Stack} {clock : Nat}

/-- The frames that a stack holds: its top, and those set aside. -/
def Stack.held (t : Stack) : List FrameId := t.top.toList ++ t.stash

namespace Pool

variable {pool' : Pool} {held held' owed owed' due due' : List FrameId}

/-- The number of frames from one frame down. -/
def height (pool : Pool) (top : Option FrameId) : Nat := (pool.chain top).length

theorem height_none (pool : Pool) : pool.height none = 0 := by
  rw [height, chain_none, length_nil]

theorem height_some (hb : pool.Balanced held owed due) (h : pool.get? id = some frame) :
    pool.height (some id) = pool.height frame.previous + 1 := by
  rw [height, hb.chain_some h, length_cons, height]

theorem height_eq {v : Frame → α} (hb : pool.Balanced held owed due)
    (hb' : pool'.Balanced held' owed' due') (hw : Within v pool pool')
    (htop : ∀ id ∈ top, ∃ frame, pool.get? id = some frame) :
    pool'.height top = pool.height top := by
  have hview := congrArg length (view_eq hb hb' hw htop)
  simpa [view, height] using hview

theorem height_alloc (hb : pool.Balanced held [] []) (hnew : pool.Placeable new)
    (htop : ∀ id ∈ top, ∃ frame, pool.get? id = some frame) :
    (pool.alloc new).2.height top = pool.height top :=
  height_eq (v := state) hb (hb.alloc hnew) (within_alloc hb.tidy _) htop

theorem height_new (hb : pool.Balanced held [] []) (hnew : pool.Placeable new) :
    (pool.alloc new).2.height (some (pool.alloc new).1.id) =
      pool.height new.previous + 1 := by
  rw [height_some (hb.alloc hnew) (get?_alloc_self hb.tidy _), height_alloc hb hnew hnew.live]

theorem unpin_of_linked (h : pool.get? id = some frame) (hlinks : 0 < frame.links) :
    pool.unpin id = (0, pool.set id { frame with pins := frame.pins - 1 }) := by
  have hr : ({ frame with pins := frame.pins - 1 } : Frame).isUnreferenced = false := by
    simp [isUnreferenced, Nat.ne_of_gt hlinks]
  simp only [unpin, h, hr, Bool.false_eq_true, if_false]

theorem link_unpin (h : pool.get? id = some frame) :
    (pool.link id).unpin id =
      (0, pool.set id { frame with links := frame.links + 1, pins := frame.pins - 1 }) := by
  rw [link_eq h, unpin_of_linked (get?_set_self h _) (Nat.succ_pos _)]
  simp [set]

end Pool

/-- The accounts of a family are in order, given all its stacks. -/
structure Family.Sound (limits : Limits) (family : Family) (members : List Stack) : Prop where
  accounted : family.pool.Accounted (members.flatMap Stack.held)
  /-- No frame was pushed later than now. -/
  recent : ∀ id frame, family.pool.get? id = some frame → frame.state ≤ family.clock
  /-- Every stack knows its own height. -/
  size_eq : ∀ t ∈ members, t.size = family.pool.height t.top
  /-- No chain is higher than a stack may be. -/
  height_le : ∀ id frame, family.pool.get? id = some frame →
    family.pool.height (some id) ≤ limits.maxDepth

/-- The accounts of a session's family are in order, given the other stacks of the family. -/
abbrev Session.Sound (s : Session) (limits : Limits) (rest : List Stack) : Prop :=
  s.family.Sound limits (s.stack :: rest)

namespace Family

variable {family : Family} {members members' : List Stack}

theorem sound_new (root : Nat) (limits : Limits) : (Family.new root limits).Sound limits [{}] where
  accounted := accounted_empty limits.recycleFrames
  recent id frame h := by simp [Family.new, get?] at h
  size_eq t ht := by
    obtain rfl := mem_singleton.mp ht
    exact (height_none _).symm
  height_le id frame h := by simp [Family.new, get?] at h

theorem Sound.perm (hs : family.Sound limits members) (h : members.Perm members') :
    family.Sound limits members' where
  accounted := hs.accounted.perm (h.flatMap_right _)
  recent := hs.recent
  size_eq t ht := hs.size_eq t (h.mem_iff.mpr ht)
  height_le := hs.height_le

theorem Sound.held_live (hs : family.Sound limits members) (ht : t ∈ members) (hid : id ∈ t.held) :
    ∃ frame, family.pool.get? id = some frame :=
  hs.accounted.held_live (mem_flatMap.mpr ⟨t, ht, hid⟩)

theorem accounted_top_live (ha : pool.Accounted (members.flatMap Stack.held)) (ht : t ∈ members) :
    ∀ id ∈ t.top, ∃ frame, pool.get? id = some frame :=
  fun _ hid => ha.held_live (mem_flatMap.mpr ⟨t, ht, mem_append_left _ (Option.mem_toList.mpr hid)⟩)

theorem Sound.top_live (hs : family.Sound limits members) (ht : t ∈ members) (hid : id ∈ t.top) :
    ∃ frame, family.pool.get? id = some frame :=
  accounted_top_live hs.accounted ht id hid

/-- The frames are among those of another pool: then heights are as they are there, and the accounts
    of the pool are all that is left to prove. -/
theorem sound_of_within {base : Pool} (hb : base.Balanced held owed due)
    (ha : pool.Accounted (members.flatMap Stack.held)) (hw : Pool.Within state pool base)
    (hrecent : ∀ id frame, base.get? id = some frame → frame.state ≤ clock)
    (hheight : ∀ id frame, base.get? id = some frame → base.height (some id) ≤ limits.maxDepth)
    (hsize : ∀ t ∈ members, t.size = base.height t.top) :
    ({ family with pool, clock } : Family).Sound limits members := by
  refine ⟨ha, fun id frame h => ?_, fun t ht => ?_, fun id frame h => ?_⟩
  · obtain ⟨frame', h', _, hstate⟩ := hw id frame h
    exact hstate ▸ hrecent id frame' h'
  · rw [hsize t ht]
    exact height_eq ha.toBalanced hb hw (accounted_top_live ha ht)
  · obtain ⟨frame', h', _⟩ := hw id frame h
    have hsame := height_eq ha.toBalanced hb hw fun _ (e : _ ∈ some id) =>
      Option.some.inj e ▸ ⟨frame, h⟩
    exact hsame ▸ hheight id frame' h'

theorem Sound.shrink (hs : family.Sound limits members)
    (ha : pool.Accounted (members'.flatMap Stack.held))
    (hw : Pool.Within state pool family.pool) (hclock : family.clock ≤ clock)
    (hsize : ∀ t ∈ members', t.size = family.pool.height t.top) :
    ({ family with pool, clock } : Family).Sound limits members' :=
  sound_of_within hs.accounted.toBalanced ha hw
    (fun id frame h => Nat.le_trans (hs.recent id frame h) hclock) hs.height_le hsize

/-- One new frame has come. -/
theorem Sound.grow (hs : family.Sound limits members) (hpl : family.pool.Placeable new)
    (ha : pool.Accounted (members'.flatMap Stack.held))
    (hw : Pool.Within state pool (family.pool.alloc new).2)
    (hclock : family.clock ≤ clock) (hstate : new.state ≤ clock)
    (hheight : family.pool.height new.previous + 1 ≤ limits.maxDepth)
    (hsize : ∀ t ∈ members', t.size = (family.pool.alloc new).2.height t.top) :
    ({ family with pool, clock } : Family).Sound limits members' := by
  have hb := hs.accounted.toBalanced
  refine sound_of_within (hb.alloc hpl) ha hw (fun id frame h => ?_) (fun id frame h => ?_) hsize
  · rcases get?_of_alloc hb.tidy h with ⟨_, rfl⟩ | ⟨_, h⟩
    · exact hstate
    · exact Nat.le_trans (hs.recent id frame h) hclock
  · rcases get?_of_alloc hb.tidy h with ⟨rfl, _⟩ | ⟨_, h⟩
    · rw [height_new hb hpl]
      exact hheight
    · rw [height_alloc hb hpl fun _ e => Option.some.inj e ▸ ⟨frame, h⟩]
      exact hs.height_le id frame h

end Family

namespace Session

variable {s s' : Session} {rest : List Stack} {v : Frame → α}

/-! ## 1. Each effect keeps the accounts -/

theorem Sound.live (hs : s.Sound limits rest) :
    ∀ id ∈ s.stack.top, ∃ frame, s.family.pool.get? id = some frame :=
  Family.accounted_top_live hs.accounted mem_cons_self

theorem Sound.stash_live (hs : s.Sound limits rest) :
    ∀ id ∈ s.stack.stash, ∃ frame, s.family.pool.get? id = some frame :=
  fun _ hid => Family.Sound.held_live hs mem_cons_self (mem_append_right _ hid)

theorem held_cons (t : Stack) (rest : List Stack) :
    (t :: rest).flatMap Stack.held = t.top.toList ++ (t.stash ++ rest.flatMap Stack.held) := by
  rw [flatMap_cons, Stack.held, append_assoc]

theorem settled_counts (h : new.settled = frame.settled) : new.previous = frame.previous ∧
    new.state = frame.state ∧ new.links = frame.links ∧ new.pins = frame.pins := by
  have hprev := congrArg previous h
  have hstate := congrArg state h
  have hlinks := congrArg links h
  have hpins := congrArg pins h
  exact ⟨hprev, hstate, hlinks, hpins⟩

theorem state_ignoresCounts : Pool.IgnoresCounts state := fun _ _ _ => rfl

theorem retouch_sound (hs : s.Sound limits rest) (hf : s.frame? id = some frame)
    (hnew : new.settled = frame.settled) :
    (s.withPool (s.family.pool.set id new)).family.Sound limits (s.stack :: rest) := by
  obtain ⟨hprev, hstate, hlinks, hpins⟩ := settled_counts hnew
  exact hs.shrink (hs.accounted.update hf hprev hstate hlinks hpins)
    (set_within hf hprev hstate) (Nat.le_refl _) hs.size_eq

section

variable (hs : s.Sound limits rest) (hfresh : s.Fresh frame)
include hs hfresh

theorem fresh_placeable : s.family.pool.Placeable frame := by
  refine ⟨hfresh.links_eq, hfresh.pins_eq, fun below hbel => ?_⟩
  obtain ⟨lower, hlow⟩ := hs.live _ (hfresh.previous_eq ▸ hbel)
  have hrecent := hs.recent below lower hlow
  exact ⟨lower, hlow, by rw [hfresh.state_eq]; omega⟩

theorem enter_pool (hv : Pool.IgnoresCounts v) (engine : Engine) :
    (s.enter frame engine).family.pool.Accounted
        (((s.enter frame engine).stack :: rest).flatMap Stack.held) ∧
      Pool.Within v (s.enter frame engine).family.pool (s.family.pool.alloc frame).2 ∧
      (s.enter frame engine).family.pool.live = s.family.pool.live + 1 := by
  have ha := hs.accounted
  rw [held_cons] at ha
  have hplace := ha.place (fresh_placeable hs hfresh)
  have hlive := alloc_live ha.tidy frame
  have hold : ∀ {id found}, s.family.pool.get? id = some found →
      (s.family.pool.alloc frame).2.get? id = some found :=
    get?_alloc_of_live ha.tidy frame
  unfold enter
  simp only [hfresh.previous_eq] at hplace ⊢
  generalize (s.family.pool.alloc frame).1 = placed at *
  cases htop : s.stack.top with
  | none =>
    rw [htop] at hplace
    exact ⟨hplace, .refl _ _, hlive⟩
  | some below =>
    simp only [htop, linkBelow] at hplace
    obtain ⟨lower, hlow⟩ := hs.live _ htop
    have hlow' := hold hlow
    refine ⟨?_, ?_, ?_⟩
    · -- the hold on the frame below goes, its link has come before
      have hswap := hplace.perm (List.Perm.swap below placed.id _)
      have hunpin := hswap.unpin mem_cons_self
      rwa [erase_cons_head] at hunpin
    · simp only [link_unpin hlow']
      exact set_within hlow' rfl (hv lower _ _)
    · simp only [link_unpin hlow']
      exact hlive

theorem enter_sound (hdepth : s.stack.size < limits.maxDepth) (engine : Engine) :
    (s.enter frame engine).Sound limits rest := by
  obtain ⟨ha, hw, _⟩ := enter_pool hs hfresh state_ignoresCounts engine
  have hpl := fresh_placeable hs hfresh
  have hsize := hs.size_eq s.stack mem_cons_self
  refine hs.grow hpl ha hw (Nat.le_succ _) (Nat.le_of_eq hfresh.state_eq) ?_ ?_
  · rw [hfresh.previous_eq, ← hsize]
    exact hdepth
  · intro t ht
    rcases mem_cons.mp ht with rfl | ht
    · show s.stack.size + 1 = (s.family.pool.alloc frame).2.height
        (some (s.family.pool.alloc frame).1.id)
      rw [height_new hs.accounted.toBalanced hpl, hfresh.previous_eq, hsize]
    · rw [hs.size_eq t (mem_cons_of_mem _ ht)]
      exact (height_alloc hs.accounted.toBalanced hpl fun _ hid =>
        hs.top_live (mem_cons_of_mem _ ht) hid).symm

end

theorem pinBelow_accounted {held : List FrameId} (hv : Pool.IgnoresCounts v)
    (ha : pool.Accounted held) (hf : pool.get? id = some frame) :
    (pinBelow pool frame).Accounted (frame.previous.toList ++ held) ∧
    Pool.Within v (pinBelow pool frame) pool ∧ (pinBelow pool frame).live = pool.live := by
  unfold pinBelow
  cases hprev : frame.previous with
  | none => exact ⟨ha, .refl _ _, rfl⟩
  | some below =>
    obtain ⟨lower, hlow, _⟩ := ha.below_live hf hprev
    refine ⟨ha.pin hlow, ?_, ?_⟩
    · simp only [pin_eq hlow]
      exact set_within hlow rfl (hv lower lower.links _)
    · simp only [pin_eq hlow]
      rfl

theorem unpin_middle {before after : List FrameId} (ha : pool.Accounted (before ++ id :: after)) :
    (pool.unpin id).2.Accounted (before ++ after) := by
  have hunpin := (ha.perm perm_middle).unpin mem_cons_self
  rwa [erase_cons_head] at hunpin

section

variable (hs : s.Sound limits rest) (htop : s.stack.top = some id) (hf : s.frame? id = some frame)
include hs htop hf

theorem size_below : s.stack.size - 1 = s.family.pool.height frame.previous := by
  rw [hs.size_eq s.stack mem_cons_self, htop, height_some hs.accounted.toBalanced hf]
  rfl

theorem popped_sound : (s.popped id frame).Sound limits rest := by
  have ha := hs.accounted
  rw [held_cons, htop] at ha
  obtain ⟨hpinned, hwithin, _⟩ := pinBelow_accounted state_ignoresCounts ha hf
  refine hs.shrink ?_ ((unpin_within state_ignoresCounts _ id).trans hwithin) (Nat.le_refl _)
    (forall_mem_cons.mpr ⟨size_below hs htop hf, (forall_mem_cons.mp hs.size_eq).2⟩)
  rw [held_cons]
  exact unpin_middle hpinned

theorem steppedOut_sound : (s.steppedOut id frame).Sound limits rest := by
  have ha := hs.accounted
  rw [held_cons, htop] at ha
  obtain ⟨hpinned, hwithin, _⟩ := pinBelow_accounted state_ignoresCounts ha hf
  refine hs.shrink ?_ hwithin (Nat.le_refl _)
    (forall_mem_cons.mpr ⟨size_below hs htop hf, (forall_mem_cons.mp hs.size_eq).2⟩)
  rw [held_cons]
  exact hpinned

end

theorem steppedIn_within (hv : Pool.IgnoresCounts v) (s : Session) (id : FrameId) (stash : List FrameId) :
    Pool.Within v (s.steppedIn id stash).family.pool s.family.pool := by
  unfold steppedIn
  cases s.stack.top with
  | none => exact .refl v _
  | some current => exact unpin_within hv _ current

theorem steppedIn_sound {stash : List FrameId} (hs : s.Sound limits rest)
    (hstash : s.stack.stash = id :: stash) (hf : s.frame? id = some frame)
    (hprev : frame.previous = s.stack.top) : (s.steppedIn id stash).Sound limits rest := by
  have ha := hs.accounted
  rw [held_cons, hstash] at ha
  have hsize : s.stack.size + 1 = s.family.pool.height (some id) := by
    rw [height_some hs.accounted.toBalanced hf, hprev, hs.size_eq s.stack mem_cons_self]
  refine hs.shrink ?_ (steppedIn_within state_ignoresCounts s id stash) (Nat.le_refl _)
    (forall_mem_cons.mpr ⟨hsize, (forall_mem_cons.mp hs.size_eq).2⟩)
  rw [held_cons]
  unfold steppedIn
  cases htop : s.stack.top with
  | none =>
    rw [htop] at ha
    exact ha
  | some current =>
    rw [htop] at ha
    exact (ha.unpin mem_cons_self).perm (by simp)

/-- **Every effect keeps the accounts of the family**, whatever its other stacks are. -/
theorem Effect.sound (h : Effect s s') (hs : s.Sound s.limits rest) : s'.Sound s.limits rest := by
  cases h with
  | quiet _ => exact hs
  | retouch _ _ hf hnew => exact retouch_sound hs hf hnew
  | push _ hfresh hdepth _ => exact enter_sound hs hfresh hdepth _
  | pop h =>
    obtain ⟨id, frame, htop, hf, rfl⟩ := pop_ok h
    exact popped_sound hs htop hf
  | unpush h =>
    obtain ⟨id, frame, htop, hf, rfl⟩ := unpush_ok h
    exact steppedOut_sound hs htop hf
  | repush h =>
    obtain ⟨id, frame, stash, hstash, hf, hprev, rfl⟩ := repush_ok h
    exact steppedIn_sound hs hstash hf hprev

/-! ## 2. Branching and ending -/

theorem copy_like (source : Frame) (sharing : Bool) (store : Store) :
    (source.copy sharing store).1.previous = source.previous ∧
    (source.copy sharing store).1.state = source.state ∧ (source.copy sharing store).1.links = 0 ∧
    (source.copy sharing store).1.definition = source.definition ∧
    (source.copy sharing store).1.arguments = source.arguments ∧
    (source.copy sharing store).1.continues = source.continues := by
  unfold Frame.copy
  split <;> exact ⟨rfl, rfl, rfl, rfl, rfl, rfl⟩

theorem branch_eq (sharing : Bool) (htop : s.stack.top = some id) (hf : s.frame? id = some frame) :
    s.branch sharing = let copy : Frame := { (frame.copy sharing s.store).1 with pins := 1 }
      let allocated := s.family.pool.alloc copy
      { engine := (s.engine.withStore (frame.copy sharing s.store).2).count
          (·.frame allocated.1.recycled)
        family := { s.family with pool := allocated.2.linkBelow frame.previous }
        stack :=
          { top := some allocated.1.id
            root := if s.stack.root = some id then some allocated.1.id else s.stack.root
            size := s.stack.size
            stash := [] } } := by
  simp only [branch, htop, topFrame?_eq htop hf, linkBelow, ClearFrame.copyOnto_eq]
  cases frame.previous <;> rfl

theorem branch_empty (sharing : Bool) (htop : s.stack.top = none) :
    s.branch sharing = { s with stack := {} } := by
  simp [branch, htop]

theorem copy_placeable {held : List FrameId} (ha : pool.Accounted held)
    (hf : pool.get? id = some frame) (sharing : Bool) (store : Store) :
    pool.Placeable { (frame.copy sharing store).1 with pins := 1 } := by
  obtain ⟨hprev, hstate, hlinks, _⟩ := copy_like frame sharing store
  refine ⟨hlinks, rfl, fun below e => ?_⟩
  rw [hstate]
  exact ha.below_live hf (hprev ▸ e)

theorem linkBelow_within (hv : Pool.IgnoresCounts v) (ht : pool.Tidy) (hnew : pool.Placeable new) :
    Pool.Within v ((pool.alloc new).2.linkBelow new.previous)
      (pool.alloc new).2 := by
  cases hprev : new.previous with
  | none => exact .refl _ _
  | some below =>
    obtain ⟨lower, hlow⟩ := hnew.live below hprev
    have hlow' := get?_alloc_of_live ht new hlow
    show Pool.Within v (link _ below) _
    rw [link_eq hlow']
    exact set_within hlow' rfl (hv lower _ lower.pins)

section

variable (hs : s.Sound limits rest)
include hs

/-- **Branching a stack off keeps the accounts.** -/
theorem branch_sound (sharing : Bool) :
    (s.branch sharing).family.Sound limits ((s.branch sharing).stack :: s.stack :: rest) := by
  have hsize := hs.size_eq s.stack mem_cons_self
  cases htop : s.stack.top with
  | none =>
    rw [branch_empty sharing htop]
    refine ⟨hs.accounted, hs.recent, ?_, hs.height_le⟩
    intro t ht
    rcases mem_cons.mp ht with rfl | ht
    · exact (height_none _).symm
    · exact hs.size_eq t ht
  | some id =>
    obtain ⟨frame, hf⟩ := hs.live _ htop
    rw [branch_eq sharing htop hf]
    have hb := hs.accounted.toBalanced
    have hpl := copy_placeable hs.accounted hf sharing s.store
    obtain ⟨hprev, hstate, _⟩ := copy_like frame sharing s.store
    -- from here on the copy is a frame with these facts
    change ({ (frame.copy sharing s.store).1 with pins := 1 } : Frame).previous = _ at hprev
    change ({ (frame.copy sharing s.store).1 with pins := 1 } : Frame).state = _ at hstate
    generalize ({ (frame.copy sharing s.store).1 with pins := 1 } : Frame) = copied at *
    have hheight : s.family.pool.height copied.previous + 1 = s.stack.size := by
      rw [hsize, htop, height_some hb hf, hprev]
    rw [← hprev]
    refine hs.grow hpl (hs.accounted.place hpl)
      (linkBelow_within state_ignoresCounts hb.tidy hpl) (Nat.le_refl _) ?_ ?_ ?_
    · rw [hstate]
      exact hs.recent id frame hf
    · rw [hheight, hsize, htop]
      exact hs.height_le id frame hf
    · intro t ht
      rcases mem_cons.mp ht with rfl | ht
      · exact hheight.symm.trans (height_new hb hpl).symm
      · rw [hs.size_eq t ht]
        exact (height_alloc hb hpl fun id hid => hs.top_live ht hid).symm

/-- **Ending a stack keeps the accounts of the others.** -/
theorem close_sound : s.close.family.Sound limits rest := by
  have ha := hs.accounted
  refine hs.shrink ?_ (unpinAll_within state_ignoresCounts _ _) (Nat.le_refl _) ?_
  · refine Pool.Accounted.unpinAll _ (ha.perm ?_)
    exact ((reverse_perm s.stack.stash).symm.append_left _).append_right _
  · intro t ht
    exact hs.size_eq t (mem_cons_of_mem _ ht)

theorem frames_chain : s.family.pool.Chain s.stack.top s.frames :=
  hs.accounted.toBalanced.chain hs.live

theorem frames_cons (htop : s.stack.top = some id) (hf : s.frame? id = some frame) :
    s.frames = (id, frame) :: s.family.pool.chain frame.previous := by
  rw [frames, htop]
  exact hs.accounted.toBalanced.chain_some hf

end

/-! ## 3. No operation meets a dead frame -/

section

variable (hlive : ∀ id ∈ s.stack.top, ∃ frame, s.frame? id = some frame)
include hlive

theorem top_cases : (s.stack.top = none ∧ s.top = .error .stackUnderflow) ∨ ∃ id frame,
    s.stack.top = some id ∧ s.frame? id = some frame ∧ s.top = .ok (id, frame) := by
  cases htop : s.stack.top with
  | none =>
    simp [top, topId, htop, bind, Except.bind]
  | some id =>
    right
    obtain ⟨frame, hf⟩ := hlive id htop
    exact ⟨id, frame, rfl, hf, top_eq_ok.mpr ⟨htop, hf⟩⟩

theorem preparePush_ne_stale (definition : DefId) (args : List Argument) (id : FrameId) :
    s.preparePush definition args ≠ .error (.staleFrame id) := by
  intro h
  rcases preparePush_error hlive h with h | h | h
  · cases h
  · rcases canonical_error h with h | ⟨_, _, h⟩ <;> cases h
  · cases h

theorem push_ne_stale (definition : DefId) (args : List Argument) (newCall : Bool) (id : FrameId) :
    (s.push definition args newCall).1 ≠ .error (.staleFrame id) := by
  unfold push
  split
  · rename_i fault h
    rintro ⟨⟩
    exact preparePush_ne_stale hlive definition args id h
  · unfold pushBound Fault.ofWalk
    simp only
    split <;> nofun

theorem pushCall_ne_stale (call : Call) (newCall : Bool) (id : FrameId) :
    (s.pushCall call newCall).1 ≠ .error (.staleFrame id) := by
  unfold pushCall
  split
  · simp
  · simp
  · rename_i definition _
    exact fun h => push_ne_stale hlive definition call.arguments newCall id (map_eq_error.mp h)

theorem pop_ne_stale (id : FrameId) : s.pop ≠ .error (.staleFrame id) := by
  rcases top_cases hlive with ⟨_, h⟩ | ⟨top, frame, htop, hf, _⟩
  · simp [pop, h, bind, Except.bind]
  · simp [pop_eq htop hf]

theorem unpush_ne_stale (id : FrameId) : s.unpush ≠ .error (.staleFrame id) := by
  rcases top_cases hlive with ⟨_, h⟩ | ⟨top, frame, htop, hf, _⟩
  · simp [unpush, h, bind, Except.bind]
  · simp [unpush_eq htop hf]

end

theorem repush_ne_stale (hlive : ∀ id ∈ s.stack.stash, ∃ frame, s.frame? id = some frame)
    (id : FrameId) : s.repush ≠ .error (.staleFrame id) := by
  cases hstash : s.stack.stash with
  | nil => simp [repush, hstash]
  | cons first stash =>
    obtain ⟨frame, hf⟩ := hlive first (by rw [hstash]; exact mem_cons_self)
    rw [repush_eq hstash hf]
    split <;> simp

theorem startIteration_ne_stale (hlive : ∀ id ∈ s.stack.top, ∃ frame, s.frame? id = some frame)
    (id : FrameId) : s.startIteration ≠ .error (.staleFrame id) := by
  rcases top_cases hlive with ⟨_, h⟩ | ⟨top, frame, _, _, h⟩
  · simp [startIteration, h, bind, Except.bind]
  · simp [startIteration, h, bind, Except.bind, pure, Except.pure]

/-! ## 4. Frames made and frames freed -/

/-- Frames made less frames freed changes as the number of live frames does, from one session to
    another. -/
def BalancedWith (s s' : Session) : Prop :=
  s'.engine.counters.framesAllocated + (s.engine.counters.framesFreed + s.family.pool.live) =
    s.engine.counters.framesAllocated + (s'.engine.counters.framesFreed + s'.family.pool.live)

theorem Effect.balance (h : Effect s s') (hs : s.Sound s.limits rest) : BalancedWith s s' := by
  unfold BalancedWith
  cases h with
  | quiet hstd =>
    simp only [withEngine]
    rw [hstd.allocated_eq, hstd.freed_eq]
  | retouch hstd _ _ _ =>
    simp only [withEngine, withPool]
    rw [hstd.allocated_eq, hstd.freed_eq]
    rfl
  | @push frame engine hstd hfresh _ _ =>
    obtain ⟨_, _, hlive⟩ := enter_pool hs hfresh state_ignoresCounts engine
    have hallocated : (s.enter frame engine).engine.counters.framesAllocated =
        engine.counters.framesAllocated + 1 := rfl
    have hfreed : (s.enter frame engine).engine.counters.framesFreed =
        engine.counters.framesFreed := rfl
    rw [hallocated, hfreed, hstd.allocated_eq, hstd.freed_eq]
    omega
  | pop h =>
    obtain ⟨id, frame, htop, hf, rfl⟩ := pop_ok h
    obtain ⟨hpinned, _, hlive⟩ := pinBelow_accounted state_ignoresCounts hs.accounted hf
    have hcount := (unpin_live hpinned.tidy id).2
    show s.engine.counters.framesAllocated + _ = s.engine.counters.framesAllocated +
      (s.engine.counters.framesFreed + ((pinBelow s.family.pool frame).unpin id).1 +
        ((pinBelow s.family.pool frame).unpin id).2.live)
    omega
  | unpush h =>
    obtain ⟨id, frame, htop, hf, rfl⟩ := unpush_ok h
    obtain ⟨_, _, hlive⟩ := pinBelow_accounted state_ignoresCounts hs.accounted hf
    show s.engine.counters.framesAllocated + _ = s.engine.counters.framesAllocated +
      (s.engine.counters.framesFreed + (pinBelow s.family.pool frame).live)
    rw [hlive]
  | repush h =>
    obtain ⟨id, frame, stash, _, _, _, rfl⟩ := repush_ok h
    unfold steppedIn
    cases htop : s.stack.top with
    | none => rfl
    | some current =>
      have hcount := (unpin_live hs.accounted.tidy current).2
      show s.engine.counters.framesAllocated + _ = s.engine.counters.framesAllocated +
        (s.engine.counters.framesFreed + (s.family.pool.unpin current).1 +
          (s.family.pool.unpin current).2.live)
      omega

theorem branch_balance (hs : s.Sound limits rest) (sharing : Bool) :
    BalancedWith s (s.branch sharing) := by
  unfold BalancedWith
  cases htop : s.stack.top with
  | none => rw [branch_empty sharing htop]
  | some id =>
    obtain ⟨frame, hf⟩ := hs.live _ htop
    rw [branch_eq sharing htop hf]
    generalize ({ (frame.copy sharing s.store).1 with pins := 1 } : Frame) = copied
    have hlive : ((s.family.pool.alloc copied).2.linkBelow frame.previous).live =
        s.family.pool.live + 1 := by
      have hlinked : ∀ (pool : Pool) (below : Option FrameId),
          (pool.linkBelow below).live = pool.live := by
        intro pool below
        cases below with
        | none => rfl
        | some below =>
          simp only [linkBelow, link, Pool.modify]
          split <;> rfl
      rw [hlinked, alloc_live hs.accounted.tidy]
    rw [hlive]
    show s.engine.counters.framesAllocated + 1 + _ = s.engine.counters.framesAllocated +
      (s.engine.counters.framesFreed + (s.family.pool.live + 1))
    omega

theorem close_balance (hs : s.Sound limits rest) : BalancedWith s s.close := by
  have hcount := unpinAll_live (s.stack.top.toList ++ s.stack.stash.reverse) hs.accounted.tidy
  show s.engine.counters.framesAllocated + _ = s.engine.counters.framesAllocated +
    (s.engine.counters.framesFreed +
      (s.family.pool.unpinAll (s.stack.top.toList ++ s.stack.stash.reverse)).1 +
      (s.family.pool.unpinAll (s.stack.top.toList ++ s.stack.stash.reverse)).2.live)
  omega

end Session

end KeepTree
