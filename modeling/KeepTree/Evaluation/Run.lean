import KeepTree.Session.Lookup
import KeepTree.Session.Moves
import KeepTree.Session.Put

/-!
# Runs of an evaluator

An evaluation works on a session and on the evaluator's own two lists: the calls in progress and
the loop items bound around. A step of it yields a value or a fault, and in both cases a state; it
yields nothing if it was given too little fuel.

* `Eval.attempt` -- go on after a fault, to clean up;
* `Eval.entering` -- note a call as in progress, and refuse it if it is already;
* `Eval.onFrame` -- work on a pushed frame, and pop it whatever happens;
* `Eval.inCaller` -- step out of frames, and back in.

A dangling reference ends an evaluation on the spot: frames, calls and items stay as they are then.
-/

namespace KeepTree

/-- A call in progress, and the point where it was made. -/
structure ActiveCall where
  marker : Marker
  name : String
  arguments : List Argument

/-- The same call at the same point. -/
def ActiveCall.same (a b : ActiveCall) : Bool :=
  decide (a.marker = b.marker) && a.name == b.name && sameArguments a.arguments b.arguments

/-- What an evaluator remembers. -/
structure Evaluator where
  /-- Calls in progress, the innermost first. -/
  active : List ActiveCall := []
  /-- Items bound by the loops around, the innermost first. -/
  bindings : List (String × Value) := []

/-- An evaluator at work on a session. -/
structure Run where
  session : Session
  evaluator : Evaluator

/-- A step of an evaluation. -/
abbrev Eval (α : Type) := ExceptT EvalFault (StateT Run Option) α

namespace Eval

variable {α β : Type}

/-! ## 1. Steps -/

/-- Too little fuel. -/
def exhausted : Eval α := fun _ => none

/-- The session. -/
def session : Eval Session := return (← get).session

/-- Change the session. -/
def setSession (s : Session) : Eval Unit := modify fun run => { run with session := s }

/-- A step of the session that may fail, after which the session is as it says. -/
def lift (f : Session → Except Fault α × Session) : Eval α := do
  let (result, s) := f (← session)
  setSession s
  match result with
  | .ok a => return a
  | .error fault => throw (.stack fault)

/-- A step of the session that changes nothing if it fails. -/
def move (f : Session → Except Fault Session) : Eval Unit := do
  match f (← session) with
  | .ok s => setSession s
  | .error fault => throw (.stack fault)

/-- A walk through the namespace. -/
def walk (x : Except Dangling α) : Eval α :=
  match x with
  | .ok a => return a
  | .error gap => throw (.stack (.danglingReference gap))

/-- Repeat a step. -/
def times : Nat → Eval Unit → Eval Unit
  | 0, _ => return ()
  | n + 1, step => do
    step
    times n step

/-! ## 2. Cleaning up -/

/-- The value or fault of a step, without failing unless a reference is dangling. -/
def attempt (x : Eval α) : Eval (Except EvalFault α) := fun run =>
  match x run with
  | some (.ok a, run) => some (.ok (.ok a), run)
  | some (.error fault, run) =>
    if fault.isDangling then some (.error fault, run) else some (.ok (.error fault), run)
  | none => none

/-- The value, or fail with the fault. -/
def conclude : Except EvalFault α → Eval α
  | .ok a => return a
  | .error fault => throw fault

/-- Do `x`, then `cleanup` in any case. -/
def andThen (x : Eval α) (cleanup : Run → Run) : Eval α := do
  let result ← attempt x
  modify cleanup
  conclude result

/-- Change what the evaluator remembers. -/
def remember (f : Evaluator → Evaluator) (run : Run) : Run :=
  { run with evaluator := f run.evaluator }

/-- Do `x` with a call noted as in progress. A call that is in progress at this very point refers
    to itself. -/
def entering (name : String) (arguments : List Argument) (x : Eval α) : Eval α := do
  let run ← get
  let call : ActiveCall := ⟨run.session.marker, name, arguments⟩
  if run.evaluator.active.any (·.same call) then throw (.circularReference name)
  modify (remember fun e => { e with active := call :: e.active })
  andThen x (remember fun e => { e with active := e.active.tail })

/-- Do `x` with a loop item bound. -/
def binding (item : String) (value : Value) (x : Eval α) : Eval α := do
  modify (remember fun e => { e with bindings := (item, value) :: e.bindings })
  andThen x (remember fun e => { e with bindings := e.bindings.tail })

/-- Do `x` on the frame just pushed, and pop it. The fault of `x` comes before that of the pop. -/
def onFrame (x : Eval α) : Eval α := do
  let result ← attempt x
  let popped ← attempt (move Session.pop)
  let value ← conclude result
  conclude popped
  return value

/-- Do `x` in the frame that supplied an argument `depth` frames down, but not below the bottom
    frame. -/
def inCaller (depth : Nat) (x : Eval α) : Eval α := do
  let frames := min (depth + 1) ((← session).stack.size - 1)
  times frames (move Session.unpush)
  let result ← attempt x
  times frames (move Session.repush)
  conclude result

/-- The frame on top. -/
def topFrame : Eval Frame := do
  match (← session).topFrame? with
  | some frame => return frame
  | none => throw (.stack .stackUnderflow)

end Eval

end KeepTree
