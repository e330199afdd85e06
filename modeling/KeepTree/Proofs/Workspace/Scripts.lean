import KeepTree.Proofs.Evaluation.Moves

/-!
# Scripts

A script is a list of instructions to a workspace: stacks are started, branched off and ended,
snapshots are restored, and stacks are asked for something by name. It can be played on any
workspace, and the replies are collected.

* `play_reachable` -- **what a script makes of a new workspace is reachable**.
-/

namespace KeepTree

open Eval

/-! ## 1. Demands -/

/-- What a stack can be asked for. -/
inductive Demand where
  | push (definition : DefId) (arguments : List Argument) (newCall : Bool)
  | pushCall (call : Call) (newCall : Bool)
  | pop
  | unpush
  | repush
  | startIteration
  | setIteration (iteration : Option Nat)
  | addKeep (keep : Keep)
  | lookup (request : Request)
  | putWithin (key : String) (holder : Holder) (levels : Option Nat)
  | put (key : String) (holder : Holder)
  | putValue (key : String) (value : Value)
  /-- Evaluate a call, with some fuel. -/
  | evaluate (fuel : Nat) (call : Call)

/-- What a stack answers. -/
inductive Response where
  | done
  | definition (id : DefId)
  | index (index : Nat)
  | registered (kept : Bool)
  | found (value : Option Value)
  | written (slot : Location)
  | value (value : Value)

namespace Eval

variable {α : Type}

/-- A step of the session that comes to something, and changes nothing if it fails. -/
def draw (f : Session → Except Fault (α × Session)) : Eval α :=
  lift fun s =>
    match f s with
    | .ok (a, s') => (.ok a, s')
    | .error fault => (.error fault, s)

end Eval

/-- What a demand makes a stack do. -/
def Demand.steps : Demand → Eval Response
  | .push definition arguments newCall => do
    lift (·.push definition arguments newCall)
    return .done
  | .pushCall call newCall => return .definition (← lift (·.pushCall call newCall))
  | .pop => do
    move Session.pop
    return .done
  | .unpush => do
    move Session.unpush
    return .done
  | .repush => do
    move Session.repush
    return .done
  | .startIteration => return .index (← draw Session.startIteration)
  | .setIteration iteration => do
    move fun s => .ok (s.setIteration iteration)
    return .done
  | .addKeep keep => return .registered (← draw (·.addKeep keep))
  | .lookup request => return .found (← lift (·.lookup request))
  | .putWithin key holder levels => return .written (← lift (·.putWithin key holder levels))
  | .put key holder => return .written (← lift (·.put key holder))
  | .putValue key value => do
    move (·.putValue key value)
    return .done
  | .evaluate fuel call => return .value (← evaluateWithin fuel call)

/-! ## 2. Instructions -/

/-- What is done to a workspace. -/
inductive Instruction where
  | start (name : String)
  | finish (name : String)
  | branch (name : String) (sharing : Bool) (target : String)
  | restore (snapshot : Snapshot)
  | siteTable (site : DefId)
  /-- Ask the stack of a name for something, by an evaluator that may have worked before. -/
  | ask (name : String) (evaluator : Evaluator) (demand : Demand)

/-- What is heard of an instruction. -/
inductive Reply where
  | done
  /-- There is no stack of this name. -/
  | absent
  /-- The fuel was not enough. -/
  | unfinished
  | restored (count : Except Dangling Nat)
  | table (id : TableId)
  /-- The answer of a stack of a family, and the evaluator afterwards. -/
  | answered (family : Nat) (result : Except EvalFault Response) (evaluator : Evaluator)

namespace Workspace

/-- Do one thing. -/
def perform (w : Workspace) : Instruction → Reply × Workspace
  | .start name => (.done, w.start name)
  | .finish name => (.done, w.finish name)
  | .branch name sharing target =>
    match w.session? name with
    | none => (.absent, w)
    | some s => (.done, w.branch s sharing target)
  | .restore snapshot =>
    (.restored (w.engine.restore snapshot).1,
      { w with engine := (w.engine.restore snapshot).2 })
  | .siteTable site =>
    (.table (w.engine.siteTable site).1, { w with engine := (w.engine.siteTable site).2 })
  | .ask name evaluator demand =>
    match w.session? name with
    | none => (.absent, w)
    | some s =>
      match demand.steps ⟨s, evaluator⟩ with
      | none => (.unfinished, w)
      | some (result, run) =>
        (.answered s.family.root result run.evaluator, w.put name run.session)

/-- Do one thing after the other; all replies in order, and the workspace afterwards. -/
def play (w : Workspace) : List Instruction → List Reply × Workspace
  | [] => ([], w)
  | instruction :: script =>
    let (reply, w) := w.perform instruction
    let (replies, w) := w.play script
    (reply :: replies, w)

end Workspace

/-! ## 3. Scripts make moves -/

section Moves

variable {P : Session → Session → Prop} {α : Type}

theorem Eval.Keeps.draw {f : Session → Except Fault (α × Session)} (hP : Tracks P)
    (h : ∀ {s s' a}, f s = .ok (a, s') → P s s') : Keeps P (draw f) := by
  refine Keeps.lift fun s => ?_
  split
  · rename_i hf
    exact h hf
  · exact hP.refl s

open Session in
theorem Demand.steps_moves (demand : Demand) : Eval.Keeps Moves demand.steps := by
  have hP := moves_track
  cases demand with
  | push definition args newCall =>
    exact .bind hP (.lift fun s => hP.push s definition args newCall) fun _ => .pure hP _
  | pushCall call newCall =>
    exact .bind hP (.lift fun _ => .single (.pushCall call newCall)) fun _ => .pure hP _
  | pop => exact .bind hP (.move hP hP.pop) fun _ => .pure hP _
  | unpush => exact .bind hP (.move hP hP.unpush) fun _ => .pure hP _
  | repush => exact .bind hP (.move hP hP.repush) fun _ => .pure hP _
  | startIteration => exact .bind hP (.draw hP hP.startIteration) fun _ => .pure hP _
  | setIteration iter =>
    refine .bind hP (.move hP fun {s _} h => ?_) fun _ => .pure hP _
    cases h
    exact hP.setIteration s iter
  | addKeep keep =>
    exact .bind hP (.draw hP fun h => .single (.addKeep h)) fun _ => .pure hP _
  | lookup request => exact .bind hP (.lift fun s => hP.lookup s request) fun _ => .pure hP _
  | putWithin key holder levels =>
    exact .bind hP (.lift fun _ => .single (.putWithin key holder levels)) fun _ => .pure hP _
  | put key holder => exact .bind hP (.lift fun s => hP.put s key holder) fun _ => .pure hP _
  | putValue key value => exact .bind hP (.move hP hP.putValue) fun _ => .pure hP _
  | evaluate fuel call =>
    exact .bind hP (evaluateWithin_keeps hP fuel call) fun _ => .pure hP _

end Moves

namespace Workspace

variable {ns : Namespace} {limits : Limits} {w : Workspace}

theorem perform_reachable (hw : Reachable ns limits w) (instr : Instruction) :
    Reachable ns limits (w.perform instr).2 := by
  cases instr with
  | start name => exact hw.step (.start name)
  | finish name => exact hw.step (.finish name)
  | branch name sharing target =>
    simp only [perform]
    split
    · exact hw
    · rename_i s hs
      exact hw.step (.branch sharing target hs)
  | restore snap => exact hw.step (.restore snap)
  | siteTable site => exact hw.step (.siteTable site)
  | ask name evaluator demand =>
    simp only [perform]
    split
    · exact hw
    · rename_i s hs
      split
      · exact hw
      · rename_i result run hrun
        exact hw.moves hs (demand.steps_moves ⟨s, evaluator⟩ result run hrun)

/-- **What a script makes of a new workspace is reachable.** -/
theorem play_reachable (script : List Instruction) (hw : Reachable ns limits w) :
    Reachable ns limits (w.play script).2 := by
  induction script generalizing w with
  | nil => exact hw
  | cons instr script ih => exact ih (perform_reachable hw instr)

end Workspace

end KeepTree
