import KeepTree.Proofs.Namespace.Closed
import KeepTree.Proofs.Session.Standing

/-!
# What is begun can be ended

Between a push and the pop that belongs to it, and between stepping out of a frame and stepping
back in, much can happen to the pool. As long as it leaves the top and the frames set aside alone,
the stack is at the end what it was at the start:

* `Same.pop` -- **a push, what leaves the new top alone, and a pop come to nothing**;
* `Same.repush` -- **stepping out of a frame and back in comes to nothing**.
-/

namespace KeepTree

open KeepTree.Frame Pool

variable {v w : Frame → Frame} {f f' : Frame} {engine : Engine}

/-! ## 1. Readings of a frame -/

namespace Frame

/-- A frame without what is counted of it. -/
def bare (f : Frame) : Frame := { f with links := 0, pins := 0 }

/-- A bare frame without the number of its next iteration. -/
def uncounted (f : Frame) : Frame := { f.bare with nextIteration := 0 }

/-- A bare frame outside all loops. -/
def unlooped (f : Frame) : Frame := { f.bare with iteration := none, nextIteration := 0 }

/-- A reading that shows where the frame sits, and no more than the bare frame does. -/
structure Plain (v : Frame → Frame) : Prop where
  previous : ∀ f, (v f).previous = f.previous
  bare : ∀ {f f'}, f.bare = f'.bare → v f = v f'

theorem bare_plain : Plain bare := ⟨fun _ => rfl, id⟩

theorem uncounted_plain : Plain uncounted :=
  ⟨fun _ => rfl, fun h => congrArg (fun g : Frame => { g with nextIteration := 0 }) h⟩

theorem unlooped_plain : Plain unlooped :=
  ⟨fun _ => rfl, fun h =>
    congrArg (fun g : Frame => { g with iteration := none, nextIteration := 0 }) h⟩

theorem unlooped_of_uncounted (h : f.uncounted = f'.uncounted) : f.unlooped = f'.unlooped :=
  congrArg (fun g : Frame => { g with iteration := none }) h

theorem Plain.ignoresCounts (hv : Plain v) : Pool.IgnoresCounts v :=
  fun _ _ _ => hv.bare rfl

theorem Plain.previous_eq (hv : Plain v) (h : v f' = v f) : f'.previous = f.previous := by
  rw [← hv.previous f', h, hv.previous f]

end Frame

namespace Session

variable {s s' s'' : Session} {rest : List Stack} {id : FrameId} {frame : Frame} {ns : Namespace}

/-! ## 2. Sessions fit for work -/

/-- The accounts are in order, and every frame is of a definition that the namespace holds. -/
structure Fit (ns : Namespace) (rest : List Stack) (s : Session) : Prop where
  ns_eq : s.ns = ns
  sound : s.Sound s.limits rest
  held : ∀ id frame, s.frame? id = some frame → frame.definition < ns.size

theorem Fit.top_live (hs : s.Fit ns rest) : ∀ id ∈ s.stack.top, ∃ frame, s.frame? id = some frame :=
  hs.sound.live

theorem definition_ignoresCounts : Pool.IgnoresCounts definition := fun _ _ _ => rfl

theorem enter_frame? (hs : s.Sound s.limits rest) (hfresh : s.Fresh frame)
    (engine : Engine) {α : Type} {w : Frame → α} (hw : Pool.IgnoresCounts w)
    {found : Frame} (h : (s.enter frame engine).frame? id = some found) :
    w found = w frame ∨ ∃ old, s.frame? id = some old ∧ w found = w old := by
  rcases (enter_grown hw hs hfresh engine).frames id found h with ⟨_, hread⟩ | ⟨old, hold, hread⟩
  · exact .inl hread
  · exact .inr ⟨old, hold, hread.symm⟩

theorem held_of_within (hwithin : Pool.Within definition s'.family.pool s.family.pool)
    (hheld : ∀ id frame, s.frame? id = some frame → frame.definition < ns.size) :
    ∀ id frame, s'.frame? id = some frame → frame.definition < ns.size := by
  intro id frame hf
  obtain ⟨old, hold, _, hdef⟩ := hwithin id frame hf
  rw [← hdef]
  exact hheld id old hold

/-- **Every move keeps a session fit.** -/
theorem Effect.fit (h : Effect s s') (hs : s.Fit ns rest) : s'.Fit ns rest := by
  have hsound := h.sound hs.sound
  have hkin := h.kin
  refine ⟨hkin.ns_eq.trans hs.ns_eq, hkin.limits_eq ▸ hsound, ?_⟩
  have hv := definition_ignoresCounts
  cases h with
  | quiet _ => exact hs.held
  | @retouch _ _ frame new _ _ hf hnew =>
    obtain ⟨hprev, _⟩ := settled_counts hnew
    have hdef : new.settled.definition = frame.settled.definition := by rw [hnew]
    exact held_of_within (set_within hf hprev hdef) hs.held
  | push _ hfresh _ hd =>
    intro id found hfd
    rcases enter_frame? hs.sound hfresh _ hv hfd with hdef | ⟨old, hold, hdef⟩
    · obtain ⟨d, hd⟩ := hd
      rw [hdef, ← hs.ns_eq]
      exact Namespace.lt_of_get? hd
    · rw [hdef]
      exact hs.held id old hold
  | pop h =>
    obtain ⟨id, frame, _, hf, rfl⟩ := pop_ok h
    exact held_of_within (popped_within hv hs.sound hf) hs.held
  | unpush h =>
    obtain ⟨id, frame, _, hf, rfl⟩ := unpush_ok h
    exact held_of_within (steppedOut_within hv hs.sound hf) hs.held
  | repush h =>
    obtain ⟨id, frame, stash, _, _, _, rfl⟩ := repush_ok h
    exact held_of_within (steppedIn_within hv s id stash) hs.held

/-! ## 3. The same stack -/

/-- The same stack with the same frames, but for what the reading `v` does not show of the top
    one. -/
structure Same (v : Frame → Frame) (s s' : Session) : Prop extends s.Kin s' where
  top_eq : s'.stack.top = s.stack.top
  size_eq : s'.stack.size = s.stack.size
  stash_eq : s'.stack.stash = s.stack.stash
  /-- A stack that is not empty keeps its bottom. -/
  bottom_eq : ∀ {root}, s.stack.root = some root → 0 < s.stack.size → s'.stack.root = some root
  clock_le : s.family.clock ≤ s'.family.clock
  frames : ∀ {id frame}, s.frame? id = some frame → ∃ frame', s'.frame? id = some frame' ∧
    v frame' = v frame ∧ (s.stack.top ≠ some id → frame'.bare = frame.bare)

theorem Same.refl (v : Frame → Frame) (s : Session) : s.Same v s where
  ns_eq := rfl
  limits_eq := rfl
  root_eq := rfl
  top_eq := rfl
  size_eq := rfl
  stash_eq := rfl
  bottom_eq h _ := h
  clock_le := Nat.le_refl _
  frames hf := ⟨_, hf, rfl, fun _ => rfl⟩

theorem Same.trans (h : s.Same v s') (h' : s'.Same v s'') : s.Same v s'' where
  ns_eq := h'.ns_eq.trans h.ns_eq
  limits_eq := h'.limits_eq.trans h.limits_eq
  root_eq := h'.root_eq.trans h.root_eq
  top_eq := h'.top_eq.trans h.top_eq
  size_eq := h'.size_eq.trans h.size_eq
  stash_eq := h'.stash_eq.trans h.stash_eq
  bottom_eq hroot hsize := h'.bottom_eq (h.bottom_eq hroot hsize) (h.size_eq ▸ hsize)
  clock_le := Nat.le_trans h.clock_le h'.clock_le
  frames hf := by
    obtain ⟨frame', hf', hv, hbare⟩ := h.frames hf
    obtain ⟨frame'', hf'', hv', hbare'⟩ := h'.frames hf'
    refine ⟨frame'', hf'', hv'.trans hv, fun hid => ?_⟩
    exact (hbare' (h.top_eq ▸ hid)).trans (hbare hid)

theorem Same.coarsen (h : s.Same v s') (hw : ∀ {f f'}, v f' = v f → w f' = w f) : s.Same w s' :=
  { h with
    frames := fun hf =>
      let ⟨frame', hf', hv, hbare⟩ := h.frames hf
      ⟨frame', hf', hw hv, hbare⟩ }

theorem Same.within (hv : Frame.Plain v) (h : s.Same v s') :
    Pool.Within v s.family.pool s'.family.pool := by
  intro id frame hf
  obtain ⟨frame', hf', hread, _⟩ := h.frames hf
  exact ⟨frame', hf', hv.previous_eq hread, hread⟩

theorem Same.view_eq (hv : Frame.Plain v) (hs : s.Fit ns rest) (hs' : s'.Fit ns rest)
    (h : s.Same v s') : s'.view v = s.view v := by
  rw [view, h.top_eq]
  exact Pool.view_eq hs.sound.accounted.toBalanced hs'.sound.accounted.toBalanced (h.within hv)
    hs.top_live

theorem Same.below_eq (hs : s.Fit ns rest) (hs' : s'.Fit ns rest) (h : s.Same v s')
    (htop : s.stack.top = some id) (hf : s.frame? id = some frame) :
    s'.family.pool.view bare frame.previous = s.family.pool.view bare frame.previous := by
  have hb := hs.sound.accounted.toBalanced
  have hbel := hb.chain (hb.below_alive hf)
  -- the top frame is none of those further down
  obtain ⟨l', hl', hmap⟩ := hbel.transfer (v := bare) fun other lower hmem => by
    obtain ⟨lower', hlow', _, hbare⟩ := h.frames (hbel.get? hmem)
    have hbare := hbare fun he => hb.not_mem_below hf (Option.some.inj (htop.symm.trans he) ▸ hmem)
    exact ⟨lower', hlow', bare_plain.previous_eq hbare, hbare⟩
  rw [Pool.view, hl'.chain_eq hs'.sound.accounted.toBalanced, hmap, Pool.view]

theorem Same.topFrame? (h : s.Same v s') (hfr : s.topFrame? = some frame) :
    ∃ frame', s'.topFrame? = some frame' ∧ v frame' = v frame := by
  obtain ⟨id, htop, hf⟩ := Option.bind_eq_some_iff.mp hfr
  obtain ⟨frame', hf', hread, _⟩ := h.frames hf
  exact ⟨frame', topFrame?_eq (h.top_eq.trans htop) hf', hread⟩

theorem same_of_quiet (h : s.engine.Steady engine) (v : Frame → Frame) :
    s.Same v (s.withEngine engine) :=
  { Same.refl v s with
    ns_eq := h.ns_eq
    limits_eq := h.limits_eq }

theorem Same.set {frame' new : Frame} (hw : Frame.Plain w) (h : s.Same v s')
    (htop : s.stack.top = some id) (hf : s.frame? id = some frame)
    (hf' : s'.frame? id = some frame') (hnew : w new = w frame) :
    s.Same w (s'.withPool (s'.family.pool.set id new)) :=
  { h with
    frames := fun {other found} hfd => by
      by_cases e : other = id
      · subst e
        cases hf.symm.trans hfd
        exact ⟨new, get?_set_self hf' new, hnew, fun hne => absurd htop hne⟩
      · obtain ⟨found', hfd', _, hbare⟩ := h.frames hfd
        have hbare := hbare fun he => e (Option.some.inj (htop.symm.trans he)).symm
        refine ⟨found', ?_, hw.bare hbare, fun _ => hbare⟩
        exact (get?_set hf' new other).trans (by rw [if_neg e]; exact hfd') }

/-! ## 4. Pushing and popping -/

section

variable (hs : s.Sound s.limits rest) (frame : Frame) (engine : Engine)
include hs

theorem enter_within (hv : Pool.IgnoresCounts v) :
    Pool.Within v s.family.pool (s.enter frame engine).family.pool := by
  have hgrown : Pool.Within v s.family.pool (s.family.pool.alloc frame).2 :=
    within_alloc hs.accounted.tidy _
  refine hgrown.trans ?_
  unfold enter
  cases htop : s.stack.top with
  | none => exact .refl v _
  | some below =>
    obtain ⟨lower, hlow⟩ := hs.live _ htop
    have hlow' := get?_alloc_of_live hs.accounted.tidy frame hlow
    simp only [link_unpin hlow']
    exact within_set hlow' rfl (hv lower _ _)

theorem enter_top : ∃ new, (s.enter frame engine).stack.top = some new ∧
      s.frame? new = none ∧ (s.enter frame engine).frame? new = some frame := by
  have hunused := get?_alloc_id hs.accounted.tidy frame
  have hnew := get?_alloc_self hs.accounted.tidy frame
  refine ⟨(s.family.pool.alloc frame).1.id, rfl, hunused, ?_⟩
  unfold enter frame?
  cases htop : s.stack.top with
  | none => exact hnew
  | some below =>
    obtain ⟨lower, hlow⟩ := hs.live _ htop
    have hne : (s.family.pool.alloc frame).1.id ≠ below := by
      rintro rfl
      rw [hunused] at hlow
      cases hlow
    have hlow' := get?_alloc_of_live hs.accounted.tidy frame hlow
    simp only [link_unpin hlow', get?_set hlow', if_neg hne]
    exact hnew

theorem enter_topFrame? : (s.enter frame engine).topFrame? = some frame := by
  obtain ⟨new, hnew, _, hfr⟩ := enter_top hs frame engine
  exact topFrame?_eq hnew hfr

end

/-- **A push, what leaves the new top alone, and a pop come to nothing.** -/
theorem Same.pop (hs : s.Fit ns rest) (hfresh : s.Fresh frame) (hstd : s.engine.Steady engine)
    (h : (s.enter frame engine).Same uncounted s') (hs' : s'.Fit ns rest) :
    ∃ s'', s'.pop = .ok s'' ∧ s''.Fit ns rest ∧ s.Same bare s'' := by
  obtain ⟨new, hnew, hunused, hfr⟩ := enter_top hs.sound frame engine
  obtain ⟨frame', hfr', hread, _⟩ := h.frames hfr
  have htop : s'.stack.top = some new := h.top_eq.trans hnew
  have hprev : frame'.previous = s.stack.top :=
    (uncounted_plain.previous_eq hread).trans hfresh.previous_eq
  have hpop := pop_eq htop hfr'
  have hfit := (Effect.pop hpop).fit hs'
  refine ⟨_, hpop, hfit, ?_⟩
  have hv := bare_plain.ignoresCounts
  -- the frames that were there before the push are there before the pop, with a new one on top
  have hbetween : Pool.Within bare s.family.pool s'.family.pool := by
    intro id old hold
    obtain ⟨entered, hentered, hprev, hbare⟩ := enter_within hs.sound frame engine hv id old hold
    obtain ⟨found, hfd, _, hkept⟩ := h.frames hentered
    have hne : (s.enter frame engine).stack.top ≠ some id := by
      rw [hnew]
      rintro ⟨⟩
      rw [frame?, hold] at hunused
      cases hunused
    have hbare' : found.bare = old.bare := (hkept hne).trans hbare
    exact ⟨found, hfd, bare_plain.previous_eq hbare', hbare'⟩
  have hheld : ((s'.popped new frame').stack :: rest).flatMap Stack.held =
      (s.stack :: rest).flatMap Stack.held := by
    rw [held_cons, held_cons]
    show frame'.previous.toList ++ (s'.stack.stash ++ _) = _
    rw [hprev, h.stash_eq]
    rfl
  have hsurvive := hs.sound.accounted.survive hs.sound.recent (hheld ▸ hfit.sound.accounted)
    hbetween (popped_within hv hs'.sound hfr')
  exact
    { ns_eq := h.ns_eq.trans hstd.ns_eq
      limits_eq := h.limits_eq.trans hstd.limits_eq
      root_eq := h.root_eq
      top_eq := hprev
      size_eq := by
        show s'.stack.size - 1 = s.stack.size
        rw [h.size_eq]
        rfl
      stash_eq := h.stash_eq
      bottom_eq := fun {root} hroot hsize => by
        have hentered : (s.enter frame engine).stack.root = some root := by
          show s.stack.root.or _ = some root
          rw [hroot]
          rfl
        have hroot' := h.bottom_eq hentered (Nat.succ_pos _)
        have hsize' : s'.stack.size - 1 ≠ 0 := by
          rw [h.size_eq]
          exact Nat.ne_of_gt hsize
        show (if s'.stack.size - 1 = 0 then none else s'.stack.root) = some root
        rw [if_neg hsize', hroot']
      clock_le := Nat.le_trans (Nat.le_succ _) h.clock_le
      frames := fun hf =>
        let ⟨found, hfd, _, hbare⟩ := hsurvive _ _ hf
        ⟨found, hfd, hbare, fun _ => hbare⟩ }

/-! ## 5. Stepping out and back in -/

theorem pinBelow_within (hv : Pool.IgnoresCounts v) (pool : Pool) (frame : Frame) :
    Pool.Within v pool (pinBelow pool frame) := by
  unfold pinBelow
  cases frame.previous with
  | none => exact .refl v pool
  | some below =>
    cases hlow : pool.get? below with
    | none =>
      have hpin : pool.pin below = pool := by simp [pin, Pool.modify, hlow]
      simp only [hpin]
      exact .refl v pool
    | some lower =>
      simp only [pin_eq hlow]
      exact within_set hlow rfl (hv lower lower.links _)

/-- **Stepping out of a frame and back in comes to nothing**, whatever happens to the stack below
    that leaves it the same. -/
theorem Same.repush (hs : s.Fit ns rest) (hsize : 1 < s.stack.size)
    (htop : s.stack.top = some id) (hf : s.frame? id = some frame)
    (h : (s.steppedOut id frame).Same bare s') (hs' : s'.Fit ns rest) :
    ∃ s'', s'.repush = .ok s'' ∧ s''.Fit ns rest ∧ s.Same bare s'' := by
  have hv := bare_plain.ignoresCounts
  have hout := pinBelow_within hv s.family.pool frame
  obtain ⟨aside, haside, _, hbare⟩ := hout id frame hf
  obtain ⟨frame', hfr', hbare', _⟩ := h.frames haside
  have hprev : frame'.previous = s'.stack.top := by
    rw [bare_plain.previous_eq (hbare'.trans hbare), h.top_eq]
    rfl
  have hrep : s'.repush = .ok (s'.steppedIn id s.stack.stash) := by
    rw [repush_eq h.stash_eq hfr', if_neg (fun hne => hne hprev)]
  have hfit := (Effect.repush hrep).fit hs'
  refine ⟨_, hrep, hfit, ?_⟩
  have hheld : ((s'.steppedIn id s.stack.stash).stack :: rest).flatMap Stack.held =
      (s.stack :: rest).flatMap Stack.held := by
    rw [held_cons, held_cons, htop]
    rfl
  have hsurvive := hs.sound.accounted.survive hs.sound.recent (hheld ▸ hfit.sound.accounted)
    (hout.trans (h.within bare_plain)) (steppedIn_within hv s' id s.stack.stash)
  have hkin := (Effect.repush hrep).kin
  exact
    { ns_eq := hkin.ns_eq.trans h.ns_eq
      limits_eq := hkin.limits_eq.trans h.limits_eq
      root_eq := hkin.root_eq.trans h.root_eq
      top_eq := htop.symm
      size_eq := by
        show s'.stack.size + 1 = s.stack.size
        rw [h.size_eq]
        exact Nat.sub_add_cancel (Nat.le_of_lt hsize)
      stash_eq := rfl
      bottom_eq := fun {root} hroot _ => h.bottom_eq hroot (Nat.sub_pos_of_lt hsize)
      clock_le := by
        have hclock : (s'.steppedIn id s.stack.stash).family.clock = s'.family.clock := rfl
        exact h.clock_le
      frames := fun hf =>
        let ⟨found, hfd, _, hbare⟩ := hsurvive _ _ hf
        ⟨found, hfd, hbare, fun _ => hbare⟩ }

/-! ## 6. Loops -/

theorem Same.setIteration (hs : s.Fit ns rest) (h : s.Same unlooped s') :
    s.Same uncounted (s'.setIteration s.iteration?) := by
  cases htop : s.stack.top with
  | none =>
    rw [Session.setIteration, h.top_eq, htop]
    -- without a top frame there is nothing that the readings tell apart
    refine { h with frames := fun {id frame} hf => ?_ }
    obtain ⟨frame', hf', _, hbare⟩ := h.frames hf
    have hbare := hbare (by simp [htop])
    exact ⟨frame', hf', uncounted_plain.bare hbare, fun _ => hbare⟩
  | some id =>
    obtain ⟨frame, hf⟩ := hs.top_live _ htop
    obtain ⟨frame', hf', hread, _⟩ := h.frames hf
    have hiter : s.iteration? = frame.iteration := by
      rw [iteration?, topFrame?_eq htop hf]
      rfl
    rw [setIteration_eq (h.top_eq.trans htop) hf', hiter]
    exact h.set uncounted_plain htop hf hf' 
      (congrArg (fun f : Frame => { f with iteration := frame.iteration }) hread)

end Session

end KeepTree
