import KeepTree.Proofs.Termination.Vocabulary
import KeepTree.Proofs.Evaluation.Alike
import Mathlib.Algebra.Order.Ring.Nat

/-!
# What an evaluation may still cost

An evaluation goes deeper in three ways. It pushes a frame for what a call names, or for a
superdefinition, as long as the stack is not too deep; and it steps down to a frame below for a call
that was supplied as an argument. Before it follows a call it notes it, and refuses one that is noted
at the same point. So each frame of the stack has a number of calls left that it may still note, and
going deeper takes one from the top frame before it adds to frames above, or leaves frames out:

* `callCost_lt_frameCost`, `super_cost_lt`, `entered_push_cost_lt`, `entered_out_cost_lt` -- **each of
  the ways to go deeper costs**.
-/

namespace KeepTree

open Session KeepTree.Frame List

variable {V : Vocabulary} {f : Frame} {below : List Frame} {s : Session} {ns : Namespace}
  {rest : List Stack} {name : String} {arguments others : List Argument} {evaluator : Evaluator}
  {id : DefId} {newCall : Bool}

/-! ## 1. Calls that are left -/

namespace Vocabulary

variable {active : List ActiveCall} {m : Marker} {depth root : Nat} {levels : List Frame}

/-- All calls that the vocabulary has. -/
def keys (V : Vocabulary) : List (String × List Argument) :=
  V.names.flatMap fun name => V.lists.map fun arguments => (name, arguments)

/-- The number of calls that are not in progress at a point. -/
def free (V : Vocabulary) (active : List ActiveCall) (m : Marker) : Nat :=
  V.keys.countP fun key => !active.any (·.same ⟨m, key.1, key.2⟩)

theorem free_cons_le (call : ActiveCall) : V.free (call :: active) m ≤ V.free active m := by
  refine countP_mono_left fun key _ h => ?_
  rw [any_cons, Bool.not_or, Bool.and_eq_true] at h
  exact h.2

theorem countP_lt {α : Type} {p q : α → Bool} (hpq : ∀ x, p x = true → q x = true) {x : α}
    (hq : q x = true) (hp : p x = false) : ∀ {l : List α}, x ∈ l → l.countP p < l.countP q
  | y :: rest, h => by
    have hrest : rest.countP p ≤ rest.countP q := countP_mono_left fun z _ => hpq z
    rcases mem_cons.mp h with rfl | h
    · rw [countP_cons_of_pos hq, countP_cons_of_neg (by simp [hp])]
      exact Nat.lt_succ_of_le hrest
    · have ih := countP_lt hpq hq hp h
      rw [countP_cons, countP_cons]
      by_cases hy : p y = true
      · rw [if_pos hy, if_pos (hpq y hy)]
        exact Nat.add_lt_add_right ih 1
      · rw [if_neg hy]
        exact Nat.lt_of_lt_of_le ih (Nat.le_add_right _ _)

/-- **A call that is noted is one less that is left.** -/
theorem free_cons_lt (hV : V.Proper) (call : ActiveCall) (hcall : V.Has ⟨call.name, call.arguments⟩)
    (hfree : active.any (·.same call) = false) :
    V.free (call :: active) call.marker < V.free active call.marker := by
  refine countP_lt (x := (call.name, call.arguments)) (fun key h => ?_) ?_ ?_ (mem_flatMap.mpr
    ⟨call.name, hcall.1, mem_map.mpr ⟨call.arguments, hcall.2, rfl⟩⟩)
  · rw [any_cons, Bool.not_or, Bool.and_eq_true] at h
    exact h.2
  · rw [hfree]
    rfl
  · -- a call is the same as itself, since its arguments are
    have hself : call.same call = true := by
      simp [ActiveCall.same, hV.same hcall.2]
    rw [any_cons, hself]
    rfl

/-! ## 2. Stacks -/

/-- One frame below outweighs all that a frame above may note, and its body. -/
def scale (V : Vocabulary) : Nat := V.keys.length + 2

/-- What is left in the frames of a stack, top first, that may be `depth` deep. -/
def weigh (V : Vocabulary) (depth : Nat) (active : List ActiveCall) (root : Nat) :
    List Frame → Nat
  | [] => 0
  | f :: below =>
    V.free active ⟨root, f.state, f.iteration⟩ * V.scale ^ (depth - (below.length + 1)) +
      V.weigh depth active root below

/-- What is left for the body of a frame on top of others. -/
def weighBody (V : Vocabulary) (depth : Nat) (active : List ActiveCall) (root : Nat)
    (below : List Frame) : Nat :=
  (V.keys.length + 1) * V.scale ^ (depth - (below.length + 1)) + V.weigh depth active root below

theorem scale_pow_pos (n : Nat) : 0 < V.scale ^ n := Nat.pow_pos (Nat.succ_pos _)

theorem weigh_cons_active_le (call : ActiveCall) : ∀ levels : List Frame,
    V.weigh depth (call :: active) root levels ≤ V.weigh depth active root levels
  | [] => Nat.le_refl _
  | _ :: below => Nat.add_le_add (Nat.mul_le_mul_right _ (free_cons_le call))
      (weigh_cons_active_le call below)

theorem weigh_drop_le : ∀ (n : Nat) (levels : List Frame),
    V.weigh depth active root (levels.drop n) ≤ V.weigh depth active root levels
  | 0, _ => Nat.le_refl _
  | _ + 1, [] => Nat.le_refl _
  | n + 1, _ :: below => Nat.le_trans (weigh_drop_le n below) (Nat.le_add_left _ _)

theorem weigh_add_le_weighBody (f : Frame) (below : List Frame) :
    V.weigh depth active root (f :: below) + V.scale ^ (depth - (below.length + 1)) ≤
      V.weighBody depth active root below := by
  have hfree : V.free active ⟨root, f.state, f.iteration⟩ *
      V.scale ^ (depth - (below.length + 1)) ≤
        V.keys.length * V.scale ^ (depth - (below.length + 1)) :=
    Nat.mul_le_mul_right _ countP_le_length
  rw [weigh, weighBody, Nat.add_mul]
  omega

theorem weighBody_lt (hdepth : levels.length < depth) :
    V.weighBody depth active root levels <
      V.weigh depth active root levels + V.scale ^ (depth - levels.length) := by
  have hpow : V.scale ^ (depth - levels.length) =
      V.scale ^ (depth - (levels.length + 1)) * V.scale := by
    rw [← Nat.pow_succ]
    congr 1
    omega
  have hpos : 0 < V.scale ^ (depth - (levels.length + 1)) := scale_pow_pos _
  have hscale : (V.keys.length + 1) * V.scale ^ (depth - (levels.length + 1)) <
      V.scale ^ (depth - (levels.length + 1)) * V.scale := by
    rw [Nat.mul_comm (V.scale ^ _)]
    exact Nat.mul_lt_mul_of_pos_right (Nat.lt_succ_self _) hpos
  rw [weighBody]
  omega

theorem weigh_entered (hV : V.Proper) (hcall : V.Has ⟨name, arguments⟩)
    (hfree : active.any (·.same ⟨⟨root, f.state, f.iteration⟩, name, arguments⟩) = false) :
    V.weigh depth (⟨⟨root, f.state, f.iteration⟩, name, arguments⟩ :: active) root (f :: below) +
      V.scale ^ (depth - (below.length + 1)) ≤ V.weigh depth active root (f :: below) := by
  have hlt := free_cons_lt hV ⟨⟨root, f.state, f.iteration⟩, name, arguments⟩ hcall hfree
  have hbel : V.weigh depth (⟨⟨root, f.state, f.iteration⟩, name, arguments⟩ :: active) root below ≤
      V.weigh depth active root below := weigh_cons_active_le _ below
  have hmul := Nat.mul_le_mul_right (V.scale ^ (depth - (below.length + 1))) hlt
  rw [Nat.succ_mul] at hmul
  simp only [weigh] at hmul ⊢
  omega

end Vocabulary

/-! ## 3. Levels -/

namespace Session

variable {s' : Session}

section

variable (hs : s.Fit ns rest)
include hs

theorem Fit.length_levels : s.levels.length = s.stack.size := by
  rw [levels, length_map, hs.length_view]

theorem Same.levels_eq (hs' : s'.Fit ns rest) (h : s.Same bare s') : s'.levels = s.levels := by
  rw [levels, levels, h.view_eq bare_plain hs hs']

theorem Same.levels_tail (hs' : s'.Fit ns rest)
    (h : s.Same unlooped s') (hsize : 0 < s.stack.size) : ∃ f f', s.levels = f :: s.levels.tail ∧
      s'.levels = f' :: s.levels.tail ∧ f'.arguments = f.arguments := by
  obtain ⟨id, old, htop, hold, _⟩ := hs.top_frame hsize
  obtain ⟨new, hnew, hread, _⟩ := h.frames hold
  have htop' : s'.topFrame? = some new := by
    rw [Session.topFrame?, h.top_eq, htop]
    exact hnew
  obtain ⟨id', hview⟩ := h.view_cons hs hs' hsize htop'
  have hargs : new.unlooped.arguments = old.unlooped.arguments := by rw [hread]
  refine ⟨old.bare, new.bare, ?_, ?_, hargs⟩
  · rw [levels, Session.view_cons hs.sound htop hold]
    rfl
  · rw [levels, hview, levels, map_cons, map_tail]

theorem marker_eq (h : s.levels = f :: below) :
    s.marker = ⟨s.family.root, f.state, f.iteration⟩ := by
  have hsize : 0 < s.stack.size := by
    rw [← hs.length_levels, h]
    exact Nat.succ_pos _
  obtain ⟨id, frame, htop, hfr, htopFrame⟩ := hs.top_frame hsize
  rw [levels, view_cons hs.sound htop hfr] at h
  obtain ⟨rfl, _⟩ := List.cons.inj h
  rw [marker, htopFrame]
  rfl

theorem push_levels (h : s.push id arguments newCall = (.ok (), s')) :
    ∃ f bound, s'.levels = f :: s.levels ∧
      s.levels.length < s.limits.maxDepth ∧ f.arguments = bound.arguments ∧
      ns.canonical ⟨id, arguments⟩ s.topDefinition? s.limits.maxPointerHops = .ok (some bound) := by
  obtain ⟨bound, d, frame, engine, hprep, hframeFor, rfl⟩ := push_ok h
  obtain ⟨hdepth, _, hcan, _⟩ := preparePush_ok hprep
  obtain ⟨_, hfresh, _, hargs, _⟩ := frameFor_effect s bound d s.topFrame? newCall
  rw [hframeFor] at hfresh hargs
  obtain ⟨new, _, _, hview, _⟩ := enter_view bare_plain.ignoresCounts hs.sound hfresh hdepth engine
  refine ⟨frame.bare, bound, ?_, hs.length_levels ▸ hdepth, hargs, hs.ns_eq ▸ hcan⟩
  rw [levels, hview]
  rfl

theorem unpush_levels (h : s.unpush = .ok s') : ∃ f, s.levels = f :: s'.levels := by
  obtain ⟨id, frame, htop, hfr, rfl⟩ := unpush_ok h
  refine ⟨frame.bare, ?_⟩
  rw [levels, steppedOut_view bare_plain.ignoresCounts hs.sound htop hfr]
  rfl

end

end Session

/-! ## 4. Runs -/

namespace Run

variable {base run : Run}

/-- How deep a call can go. -/
def callCost (V : Vocabulary) (run : Run) : Nat :=
  match run.session.levels with
  | [] => V.scale ^ run.session.limits.maxDepth
  | f :: below => V.weigh run.session.limits.maxDepth run.evaluator.active run.session.family.root
      (f :: below)

theorem callCost_eq (hs : base.session.Fit ns rest) (hs' : run.session.Fit ns rest)
    (hsame : base.session.Same bare run.session)
    (hactive : run.evaluator.active = base.evaluator.active) : run.callCost V = base.callCost V := by
  rw [callCost, callCost, hsame.levels_eq hs hs', hsame.limits_eq, hsame.root_eq, hactive]

/-- How deep the body of the top frame can go. -/
def frameCost (V : Vocabulary) (run : Run) : Nat :=
  V.weighBody run.session.limits.maxDepth run.evaluator.active run.session.family.root
    run.session.levels.tail

section

variable (hs : base.session.Fit ns rest) (hs' : run.session.Fit ns rest) (hsize : 0 <
  base.session.stack.size) (hsame : base.session.Same unlooped run.session) (hactive :
  run.evaluator.active = base.evaluator.active)
include hs hs' hsize hsame hactive

theorem weigh_le_frameCost :
    ∃ f below, run.session.levels = f :: below ∧
      V.weigh run.session.limits.maxDepth run.evaluator.active run.session.family.root (f :: below) +
        V.scale ^ (run.session.limits.maxDepth - (f :: below).length) ≤ base.frameCost V := by
  obtain ⟨_, f, _, hlev, _⟩ := hsame.levels_tail hs hs' hsize
  refine ⟨f, base.session.levels.tail, hlev, ?_⟩
  rw [hsame.limits_eq, hsame.root_eq, hactive]
  exact Vocabulary.weigh_add_le_weighBody f base.session.levels.tail

/-- **A call that a body makes costs less than the body.** -/
theorem callCost_lt_frameCost : run.callCost V < base.frameCost V := by
  obtain ⟨f, below, hlev, hle⟩ := weigh_le_frameCost (V := V) hs hs' hsize hsame hactive
  refine Nat.lt_of_lt_of_le ?_ hle
  rw [callCost, hlev]
  exact Nat.lt_add_of_pos_right (Vocabulary.scale_pow_pos _)

end

theorem pushed_frameCost_lt (hkin : run.session.Kin s) (hlev : s.levels = f :: run.session.levels)
    (hdepth : run.session.levels.length < run.session.limits.maxDepth) :
    (Run.mk s evaluator).frameCost V <
      V.weigh run.session.limits.maxDepth evaluator.active run.session.family.root
          run.session.levels +
        V.scale ^ (run.session.limits.maxDepth - run.session.levels.length) := by
  rw [frameCost]
  simp only [hkin.limits_eq, hkin.root_eq, hlev, tail_cons]
  exact Vocabulary.weighBody_lt hdepth

/-- **The body of a superdefinition costs less than the body that asks for it.** -/
theorem super_cost_lt (hs : base.session.Fit ns rest) (hs' : run.session.Fit ns rest)
    (hsize : 0 < base.session.stack.size) (hsame : base.session.Same unlooped run.session)
    (hactive : run.evaluator.active = base.evaluator.active)
    (hpush : run.session.push id arguments newCall = (.ok (), s)) :
    (run.on s).frameCost V < base.frameCost V := by
  obtain ⟨_, _, hpushed, hdepth, _⟩ := push_levels hs' hpush
  have hkin := (push_effect run.session id arguments newCall).kin
  rw [hpush] at hkin
  obtain ⟨f, below, hlev, hle⟩ := weigh_le_frameCost (V := V) hs hs' hsize hsame hactive
  rw [← hlev] at hle
  exact Nat.lt_of_lt_of_le (pushed_frameCost_lt hkin hpushed hdepth) hle

section Entering

section

variable (hV : V.Proper) (hs : run.session.Fit ns rest) (hcall : V.Has ⟨name, arguments⟩) (hfree :
  run.evaluator.active.any (·.same ⟨run.session.marker, name, arguments⟩) = false) (hev :
  evaluator.active = ⟨run.session.marker, name, arguments⟩ :: run.evaluator.active)
include hV hs hcall hfree hev

/-- **The body of what a call names costs less than the call**, once the call is noted. -/
theorem entered_push_cost_lt (hpush : run.session.push id others newCall = (.ok (), s)) :
    (Run.mk s evaluator).frameCost V < run.callCost V := by
  obtain ⟨_, _, hpushed, hdepth, _⟩ := push_levels hs hpush
  have hkin := (push_effect run.session id others newCall).kin
  rw [hpush] at hkin
  refine Nat.lt_of_lt_of_le (pushed_frameCost_lt hkin hpushed hdepth) ?_
  rw [callCost, hev]
  cases hlev : run.session.levels with
  | nil => simp [Vocabulary.weigh]
  | cons f below =>
    rw [marker_eq hs hlev] at hfree ⊢
    exact Vocabulary.weigh_entered hV hcall hfree

/-- **A call that was supplied as an argument costs less than the parameter**, once the parameter is
    noted. -/
theorem entered_out_cost_lt (hkin : run.session.Kin s) {frames : Nat}
    (hlev : s.levels = run.session.levels.drop frames) (hfrs : frames < run.session.levels.length) :
    (Run.mk s evaluator).callCost V < run.callCost V := by
  have hle : (Run.mk s evaluator).callCost V ≤ V.weigh run.session.limits.maxDepth evaluator.active
      run.session.family.root run.session.levels := by
    have hdrop : V.weigh run.session.limits.maxDepth evaluator.active run.session.family.root
        s.levels ≤ V.weigh run.session.limits.maxDepth evaluator.active run.session.family.root
          run.session.levels := hlev ▸ Vocabulary.weigh_drop_le frames _
    cases hs' : s.levels with
    | nil =>
      have hlen := congrArg length (hs'.symm.trans hlev)
      rw [length_drop, length_nil] at hlen
      omega
    | cons f below =>
      rw [callCost]
      simp only [hs', hkin.limits_eq, hkin.root_eq]
      rw [hs'] at hdrop
      exact hdrop
  refine Nat.lt_of_le_of_lt hle ?_
  cases hlev : run.session.levels with
  | nil =>
    rw [hlev] at hfrs
    exact absurd hfrs (Nat.not_lt_zero _)
  | cons f below =>
    rw [marker_eq hs hlev] at hfree hev
    rw [callCost, hlev, hev]
    exact Nat.lt_of_lt_of_le (Nat.lt_add_of_pos_right (Vocabulary.scale_pow_pos _))
      (Vocabulary.weigh_entered hV hcall hfree)

end

end Entering

end Run

end KeepTree
