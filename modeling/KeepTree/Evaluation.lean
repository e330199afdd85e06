import KeepTree.Evaluation.Run

/-!
# Evaluation

A call is answered by the argument it names, by a value computed before, or by the body of the
definition it names, evaluated in a frame of its own; such a value is kept unless the definition is
dynamic. The functions of this file evaluate one construct each and are given, as a `Recur`, what
evaluates the calls and frames inside; `evaluateWithin` ties the knot with fuel.
-/

namespace KeepTree

/-- How the calls and the frames inside a construct are evaluated. -/
structure Recur where
  call : Call → Eval Value
  /-- The value of a definition in the frame on top. -/
  frame : DefId → Eval Value

namespace Recur

/-! ## 1. Bodies -/

/-- The elements that a loop runs over. -/
def elements (item : String) : Value → Eval (List Value)
  | .list items => return items
  | .null => return []
  | _ => throw (.notIterable item)

/-- Bind loop items in the top frame, in order. -/
def bindAll : List (String × Value) → Eval Unit
  | [] => return ()
  | (name, value) :: rest => do
    Eval.move (·.putValue name value)
    bindAll rest

/-- The next iteration of a loop: its items and those of the loops around are bound in it. -/
def iterate (item : String) (value : Value) (body : Eval Value) : Eval Value := do
  Eval.move fun s => s.startIteration.map (·.2)
  bindAll (← get).evaluator.bindings.reverse
  Eval.move (·.putValue item value)
  Eval.binding item value body

/-- All iterations of a loop. -/
def iterateAll (item : String) (body : Eval Value) : List Value → Eval (List Value)
  | [] => return []
  | value :: rest => do
    let result ← iterate item value body
    return result :: (← iterateAll item body rest)

/-- The value of the superdefinition of the top frame's definition, with the same arguments. -/
def superValue (r : Recur) : Eval Value := do
  let frame ← Eval.topFrame
  let ns := (← Eval.session).ns
  match (ns.get? frame.definition).bind (·.superdefinition) with
  | none => throw (.noSuperdefinition (ns.fullName frame.definition))
  | some superdefinition => do
    Eval.lift (·.push superdefinition frame.arguments false)
    Eval.onFrame (r.frame superdefinition)

mutual
/-- The value of a body. -/
def body (r : Recur) : Body → Eval Value
  | .empty => return .null
  | .literal value => return value
  | .ref call => r.call call
  | .concat parts => return .text (String.join ((← bodies r parts).map Value.shown))
  | .list items => return .list (← bodies r items)
  | .each item range inner => do
    let items ← elements item (← body r range)
    let around := (← Eval.session).iteration?
    let loop : Eval Value := return .list (← iterateAll item (body r inner) items)
    Eval.andThen loop fun run => { run with session := run.session.setIteration around }
  | .super => superValue r
  | .redirect status location message => throw (.stack (.redirect ⟨status, location, message⟩))

/-- The values of several bodies. -/
def bodies (r : Recur) : List Body → Eval (List Value)
  | [] => return []
  | b :: rest => do
    let value ← body r b
    return value :: (← bodies r rest)
end

/-- The values of several calls. -/
def calls (r : Recur) : List Call → Eval (List Value)
  | [] => return []
  | call :: rest => do
    let value ← r.call call
    return value :: (← calls r rest)

/-- The value of a definition in the frame on top. A collection without a body is the list of its
    elements. -/
def inFrame (r : Recur) (id : DefId) : Eval Value := do
  match (← Eval.session).ns.get? id with
  | none => return .null
  | some d =>
    match d.kind, d.body with
    | .collection elements, .empty => return .list (← calls r elements)
    | _, body => r.body body

/-! ## 2. Calls -/

/-- The value of an argument. A call is evaluated in the frame that supplied it. -/
def argument (r : Recur) (name : String) (binding : ArgumentBinding) : Eval Value :=
  match binding.argument with
  | .value value => return value
  | .missing => return .null
  | .call callee arguments =>
    Eval.entering name [] (Eval.inCaller binding.depth (r.call ⟨callee, arguments⟩))

/-- Evaluate a definition in a new frame; the frame and the value. -/
def instantiate (r : Recur) (id : DefId) (arguments : List Argument) : Eval (Frame × Value) := do
  Eval.lift (·.push id arguments true)
  modify fun run => { run with session := run.session.count .computation }
  Eval.onFrame do
    let frame ← Eval.topFrame
    return (frame, ← r.frame frame.definition)

/-- The request for a value computed before. -/
def request (ns : Namespace) (call : Call) (definition : Option DefId) : Request where
  key := call.name
  globalKey := (definition.bind ns.get?).bind fun d => if d.isGlobal then some d.fullName else none
  definition := definition
  arguments := some call.arguments

/-- A computed value of this definition is put into the tables. -/
def isStored (s : Session) (id : DefId) (target : String) : Bool :=
  (s.ns.get? id).any (·.durability != .dynamic) || s.isKept target

/-- The value of what a call names: computed before, or now. -/
def named (r : Recur) (call : Call) : Eval Value := do
  let s ← Eval.session
  let target := (s.keepTarget? call.name).getD call.name
  let definition ← Eval.walk (s.ns.lookupFrom s.topDefinition? target)
  match ← Eval.lift (·.lookup (request s.ns call definition)) with
  | some value => return value
  | none =>
    match definition with
    | none => throw (.stack (.undefinedDefinition call.name))
    | some id =>
      let (frame, value) ← Eval.entering target call.arguments (r.instantiate id call.arguments)
      if isStored (← Eval.session) id target then
        let holder := (Holder.of id call.arguments (some value)).withResolution
          frame.definition frame.arguments
        let _ ← Eval.lift (·.put target holder)
      return value

/-- The value of a call. A plain name may be that of a parameter. -/
def value (r : Recur) (call : Call) : Eval Value := do
  if DottedName.isDotted call.name || !call.arguments.isEmpty then r.named call
  else
    match (← Eval.session).argumentFor call.name with
    | some binding => r.argument call.name binding
    | none => r.named call

end Recur

/-! ## 3. The evaluator -/

mutual
/-- The value of a call, with at most `fuel` calls and frames inside each other. -/
def evaluateWithin : Nat → Call → Eval Value
  | 0, _ => Eval.exhausted
  | fuel + 1, call => Recur.value ⟨evaluateWithin fuel, frameWithin fuel⟩ call

/-- The value of a definition in the frame on top, with at most `fuel` calls and frames inside each
    other. -/
def frameWithin : Nat → DefId → Eval Value
  | 0, _ => Eval.exhausted
  | fuel + 1, id => Recur.inFrame ⟨evaluateWithin fuel, frameWithin fuel⟩ id
end

/-- The fuel of an evaluation; what needs more is unfinished. -/
def ampleFuel : Nat := Nat.pow 2 62

/-- Evaluate a call. -/
def Run.evaluate (run : Run) (call : Call) : Option (Except EvalFault Value × Run) :=
  evaluateWithin ampleFuel call run

/-- Evaluate a definition under its full name. -/
def Run.evaluateDefinition (run : Run) (id : DefId) : Option (Except EvalFault Value × Run) :=
  run.evaluate (.plain (run.session.ns.fullName id))

end KeepTree
