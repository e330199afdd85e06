import KeepTree.Proofs.Durable.Filing

/-!
# Workspaces that evaluate

A workspace in which stacks are started, branched off, moved and ended, and calls are evaluated on
them, but in which nothing is put, kept or restored from outside:

* `Evaluated.upheld` -- **what evaluation keeps up holds of such a workspace**.
-/

namespace KeepTree

namespace Session

variable {s s' : Session} {ns : Namespace} {rest : List Stack} {U : Upkeep}

/-! ## 1. What can be done -/

/-- A move that puts nothing, or an evaluation, however it ends. -/
inductive Turn (s : Session) : Session → Prop
  | push (definition : DefId) (arguments : List Argument) (newCall : Bool) :
      Turn s (s.push definition arguments newCall).2
  | pushCall (call : Call) (newCall : Bool) : Turn s (s.pushCall call newCall).2
  | pop {s' : Session} : s.pop = .ok s' → Turn s s'
  | unpush {s' : Session} : s.unpush = .ok s' → Turn s s'
  | repush {s' : Session} : s.repush = .ok s' → Turn s s'
  | startIteration {s' : Session} {index : Nat} : s.startIteration = .ok (index, s') → Turn s s'
  | setIteration (iteration : Option Nat) : Turn s (s.setIteration iteration)
  | lookup (request : Request) : Turn s (s.lookup request).2
  | evaluate {fuel : Nat} {call : Call} {evaluator : Evaluator}
      {outcome : Except EvalFault Value} {run : Run} :
      evaluateWithin fuel call ⟨s, evaluator⟩ = some (outcome, run) → Turn s run.session

theorem Turn.moves (h : Turn s s') : s.Moves s' := by
  cases h with
  | push definition args newCall => exact .single (.push definition args newCall)
  | pushCall call newCall => exact .single (.pushCall call newCall)
  | pop h => exact .single (.pop h)
  | unpush h => exact .single (.unpush h)
  | repush h => exact .single (.repush h)
  | startIteration h => exact .single (.startIteration h)
  | setIteration iter => exact .single (.setIteration iter)
  | lookup request => exact .single (.lookup request)
  | evaluate h => exact evaluateWithin_keeps moves_track _ _ _ _ _ h

theorem Turn.upholds (hU : U.Open ns) (h : Turn s s') : s.Upholds U ns rest s' := by
  have htracks : Tracks (Upholds U ns rest) := upholds_tracks hU
  cases h with
  | push definition args newCall => exact htracks.push s definition args newCall
  | pushCall call newCall => exact pushCall_upholds hU s call newCall
  | pop h => exact htracks.pop h
  | unpush h => exact htracks.unpush h
  | repush h => exact htracks.repush h
  | startIteration h => exact htracks.startIteration h
  | setIteration iter => exact htracks.setIteration s iter
  | lookup request => exact htracks.lookup s request
  | @evaluate fuel call evaluator out run h =>
    exact evaluateWithin_keeps htracks fuel call ⟨s, evaluator⟩ out run h

end Session

namespace Workspace

variable {ns : Namespace} {limits : Limits} {w : Workspace} {name : String} {s s' : Session}
  {watch : DefId}

/-- The workspaces that come of a new one by turns of its stacks. -/
inductive Evaluated (ns : Namespace) (limits : Limits) : Workspace → Prop
  | new : Evaluated ns limits (.new ns limits)
  | start {w : Workspace} (name : String) : Evaluated ns limits w → Evaluated ns limits (w.start name)
  | finish {w : Workspace} (name : String) :
      Evaluated ns limits w → Evaluated ns limits (w.finish name)
  | branch {w : Workspace} {name : String} {s : Session} (sharing : Bool) (target : String) :
      Evaluated ns limits w → w.session? name = some s →
      Evaluated ns limits (w.branch s sharing target)
  | turn {w : Workspace} {name : String} {s s' : Session} : Evaluated ns limits w →
      w.session? name = some s → s.Turn s' → Evaluated ns limits (w.put name s')

theorem Evaluated.reachable (h : Evaluated ns limits w) : Reachable ns limits w := by
  induction h with
  | new => exact .new
  | start name _ ih => exact ih.step (.start name)
  | finish name _ ih => exact ih.step (.finish name)
  | branch sharing target _ hs ih => exact ih.step (.branch sharing target hs)
  | turn _ hs hturn ih => exact ih.moves hs hturn.moves

/-! ## 2. What is kept up -/

/-- **Where calls are evaluated and nothing is put from outside, what evaluation keeps up holds.** -/
theorem Evaluated.upheld {U : Upkeep} (hU : U.Open ns) (hnew : U.engine (.new ns limits))
    (h : Evaluated ns limits w) : w.Upheld U := by
  induction h with
  | new => exact new_upheld hnew
  | start name _ ih => exact ih.start hU.toPushable name
  | finish name _ ih => exact ih.finish hU.toPushable name
  | branch sharing target hw hs ih =>
    exact ih.branch hU.toCopied hU.makes_any hw.reachable hs sharing target
  | turn hw hs hturn ih => exact ih.put hU.toPushable hw.reachable hs fun _ => hturn.upholds hU

end Workspace

end KeepTree
