import KeepTree.Proofs.Session.Views

/-!
# Frames that stand

Frames are made by pushes and by branches, one at a time; every other move leaves those that are there,
or frees some. So a reading that stands is given to a frame when it is made, and never again:

* `MoveBy.within`, `close_within` -- **what is no push makes no frame**.
-/

namespace KeepTree

/-- What moves have to observe. All but pushing, keeping and putting may be done at any time. -/
structure Terms where
  /-- A push may lead from one session to the other. -/
  push : Session → Session → Prop
  addKeep : Session → Keep → Prop
  put : Session → String → Prop
  putValue : Session → String → Prop

/-- Anything goes. -/
def Terms.free : Terms where
  push _ _ := True
  addKeep _ _ := True
  put _ _ := True
  putValue _ _ := True

namespace Session

variable {s s' : Session} {rest : List Stack} {id : FrameId} {frame : Frame} {α : Type}
  {v : Frame → α} {terms : Terms}

/-! ## 1. One frame more -/

/-- A push, of a definition or of a call by name. It may fail. -/
inductive Push (s : Session) : Session → Prop
  | push (definition : DefId) (arguments : List Argument) (newCall : Bool) :
      Push s (s.push definition arguments newCall).2
  | pushCall (call : Call) (newCall : Bool) : Push s (s.pushCall call newCall).2

theorem Push.move (h : s.Push s') : s.Move s' := by
  cases h with
  | push definition args newCall => exact .push definition args newCall
  | pushCall call newCall => exact .pushCall call newCall

/-- One frame more than before, on top; it reads `reading`. -/
structure Grown (s : Session) (v : Frame → α) (reading : α) (s' : Session) : Prop where
  fresh : ∀ id, s'.stack.top = some id → s.frame? id = none
  frames : ∀ id frame, s'.frame? id = some frame →
    s'.stack.top = some id ∧ v frame = reading ∨ ∃ old, s.frame? id = some old ∧ v old = v frame

theorem grown_of_within (hs : s.Sound s.limits rest)
    (htop : s'.stack.top = some (s.family.pool.alloc frame).1.id)
    (hwithin : Pool.Within v s'.family.pool (s.family.pool.alloc frame).2) :
    s.Grown v (v frame) s' := by
  refine ⟨?_, fun id found hfd => ?_⟩
  · rw [htop]
    rintro _ ⟨⟩
    exact alloc_unused hs frame
  · obtain ⟨grown, hgrown, _, hread⟩ := hwithin id found hfd
    rcases Pool.get?_of_alloc hs.accounted.tidy hgrown with ⟨rfl, rfl⟩ | ⟨_, hgrown⟩
    · exact .inl ⟨htop, hread.symm⟩
    · exact .inr ⟨grown, hgrown, hread⟩

theorem enter_grown (hv : Pool.IgnoresCounts v) (hs : s.Sound s.limits rest)
    (hfresh : s.Fresh frame) (engine : Engine) : s.Grown v (v frame) (s.enter frame engine) :=
  grown_of_within hs rfl (enter_pool hs hfresh hv engine).2.1

theorem branch_grown (hv : Pool.IgnoresCounts v) (hs : s.Sound s.limits rest)
    (sharing : Bool) (htop : s.stack.top = some id) (hf : s.frame? id = some frame) :
    s.Grown v (v (frame.copy sharing s.store).1) (s.branch sharing) := by
  obtain ⟨hprev, _⟩ := copy_like frame sharing s.store
  have hcopy := hv (frame.copy sharing s.store).1 (frame.copy sharing s.store).1.links 1
  have heq := branch_eq sharing htop hf
  have hwithin := linkBelow_within hv hs.accounted.tidy
    (copy_placeable hs.accounted hf sharing s.store)
  rw [← hprev] at heq
  rw [← hcopy, heq]
  exact grown_of_within hs rfl hwithin

theorem Push.made (h : s.Push s') : s' = s ∨
    ∃ bound d newCall, s.ns.get? bound.definition = some d ∧
      s' = s.enter (s.frameFor bound d s.topFrame? newCall).2.1
        (s.frameFor bound d s.topFrame? newCall).2.2 := by
  have hpush : s' = s ∨ ∃ definition args newCall, s' = (s.push definition args newCall).2 := by
    cases h with
    | push definition args newCall => exact .inr ⟨definition, args, newCall, rfl⟩
    | pushCall call newCall =>
      exact (pushCall_cases s call newCall).imp_right fun ⟨definition, h⟩ =>
        ⟨definition, call.arguments, newCall, h⟩
  rcases hpush with rfl | ⟨definition, args, newCall, rfl⟩
  · exact .inl rfl
  · refine (push_cases s definition args newCall).imp_right fun ⟨bound, d, hprep, h⟩ => ?_
    exact ⟨bound, d, newCall, (preparePush_ok hprep).2.1, h⟩

theorem Push.enters (h : s.Push s') : s' = s ∨ ∃ frame engine, s.Fresh frame ∧
    s' = s.enter frame engine :=
  h.made.imp_right fun ⟨bound, d, newCall, _, h⟩ =>
    ⟨_, _, (frameFor_effect s bound d s.topFrame? newCall).2.1, h⟩

theorem not_push_of_size (h : s'.stack.size < s.stack.size) : ¬ s.Push s' := by
  intro hpush
  rcases hpush.enters with rfl | ⟨frame, engine, _, rfl⟩
  · exact Nat.lt_irrefl _ h
  · exact absurd h (Nat.not_lt.mpr (Nat.le_succ _))

/-! ## 2. Moves under terms -/

/-- One move that observes the terms. -/
inductive MoveBy (terms : Terms) (s : Session) : Session → Prop
  | fail : MoveBy terms s s
  | push {s' : Session} : s.Push s' → terms.push s s' → MoveBy terms s s'
  | pop {s' : Session} : s.pop = .ok s' → MoveBy terms s s'
  | unpush {s' : Session} : s.unpush = .ok s' → MoveBy terms s s'
  | repush {s' : Session} : s.repush = .ok s' → MoveBy terms s s'
  | startIteration {s' : Session} {index : Nat} : s.startIteration = .ok (index, s') →
      MoveBy terms s s'
  | setIteration (iteration : Option Nat) : MoveBy terms s (s.setIteration iteration)
  | addKeep {s' : Session} {keep : Keep} {added : Bool} : terms.addKeep s keep →
      s.addKeep keep = .ok (added, s') → MoveBy terms s s'
  | lookup (request : Request) : MoveBy terms s (s.lookup request).2
  | putWithin (key : String) (holder : Holder) (levels : Option Nat) : terms.put s key →
      MoveBy terms s (s.putWithin key holder levels).2
  | putValue {s' : Session} {key : String} {value : Value} : terms.putValue s key →
      s.putValue key value = .ok s' → MoveBy terms s s'
  | computation : MoveBy terms s (s.count .computation)

theorem MoveBy.move (h : s.MoveBy terms s') : s.Move s' := by
  cases h with
  | fail => exact .fail
  | push h _ => exact h.move
  | pop h => exact .pop h
  | unpush h => exact .unpush h
  | repush h => exact .repush h
  | startIteration h => exact .startIteration h
  | setIteration iter => exact .setIteration iter
  | addKeep _ h => exact .addKeep h
  | lookup request => exact .lookup request
  | putWithin key holder levels _ => exact .putWithin key holder levels
  | putValue _ h => exact .putValue h
  | computation => exact .computation

theorem Move.moveBy (h : s.Move s') : s.MoveBy .free s' := by
  cases h with
  | fail => exact .fail
  | push definition args newCall => exact .push (.push definition args newCall) trivial
  | pushCall call newCall => exact .push (.pushCall call newCall) trivial
  | pop h => exact .pop h
  | unpush h => exact .unpush h
  | repush h => exact .repush h
  | startIteration h => exact .startIteration h
  | setIteration iter => exact .setIteration iter
  | addKeep h => exact .addKeep trivial h
  | lookup request => exact .lookup request
  | putWithin key holder levels => exact .putWithin key holder levels trivial
  | putValue h => exact .putValue trivial h
  | computation => exact .computation

/-- **Frames are made by pushes only**, and states are given out by them. -/
theorem MoveBy.within (hv : Standing v) (h : s.MoveBy terms s') (hs : s.Sound s.limits rest) :
    s.Push s' ∧ terms.push s s' ∨ Pool.Within v s'.family.pool s.family.pool ∧
    s'.family.clock = s.family.clock := by
  cases h with
  | push hpush hterms => exact .inl ⟨hpush, hterms⟩
  | fail => exact .inr ⟨.refl _ _, rfl⟩
  | pop h =>
    obtain ⟨id, frame, _, hf, rfl⟩ := pop_ok h
    exact .inr ⟨popped_within hv.counts hs hf, rfl⟩
  | unpush h =>
    obtain ⟨id, frame, _, hf, rfl⟩ := unpush_ok h
    exact .inr ⟨steppedOut_within hv.counts hs hf, rfl⟩
  | repush h =>
    obtain ⟨id, frame, stash, _, _, _, rfl⟩ := repush_ok h
    exact .inr ⟨steppedIn_within hv.counts s id stash, rfl⟩
  | startIteration h =>
    obtain ⟨id, frame, _, hf, _, rfl⟩ := startIteration_effect h
    exact .inr ⟨Pool.set_within hf rfl (hv.settled rfl), rfl⟩
  | setIteration iter =>
    rcases setIteration_cases s iter with h | ⟨id, frame, _, hf, h⟩
    · rw [h]
      exact .inr ⟨.refl _ _, rfl⟩
    · rw [h]
      exact .inr ⟨Pool.set_within hf rfl (hv.settled rfl), rfl⟩
  | addKeep _ h =>
    obtain ⟨id, frame, _, hf, rfl | ⟨new, engine, hkeep, rfl⟩⟩ := addKeep_ok h
    · exact .inr ⟨.refl _ _, rfl⟩
    · obtain ⟨_, containers, rfl⟩ := Engine.registerKeep_effect hkeep
      exact .inr ⟨Pool.set_within hf rfl (hv.settled rfl), rfl⟩
  | lookup request =>
    obtain ⟨engine, _, e⟩ := lookup_effect s request
    rw [e]
    exact .inr ⟨.refl _ _, rfl⟩
  | putWithin key holder levels _ =>
    obtain ⟨engine, _, e⟩ := putWithin_effect s key holder levels
    rw [e]
    exact .inr ⟨.refl _ _, rfl⟩
  | putValue _ h =>
    obtain ⟨engine, _, rfl⟩ := putValue_effect h
    exact .inr ⟨.refl _ _, rfl⟩
  | computation => exact .inr ⟨.refl _ _, rfl⟩

theorem close_within (hv : Pool.IgnoresCounts v) (s : Session) :
    Pool.Within v s.close.family.pool s.family.pool :=
  Pool.unpinAll_within hv _ s.family.pool

end Session

end KeepTree
