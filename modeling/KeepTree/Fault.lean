import KeepTree.Frame
import KeepTree.Json
import KeepTree.Namespace

/-!
# Faults

What can go wrong when a stack is used, and what kind of trouble it is: a transfer of control that
was asked for, damage to the frames, or a condition that can be reported. `Fault.message` has the
wording of each.
-/

namespace KeepTree

/-- Give up the current output and send something else. -/
structure Redirection where
  status : UInt16
  location : String
  text : String
  deriving DecidableEq

def Redirection.message (r : Redirection) : String :=
  "redirect " ++ Nat.repr r.status.toNat ++ " to `" ++ r.location ++ "`: " ++ r.text

/-- The document of a redirection. -/
def Redirection.toJson (r : Redirection) : Json :=
  .object [("location", .string r.location), ("message", .string r.text),
    ("status", .int r.status.toNat)]

/-- How bad a fault is. -/
inductive Severity where
  /-- A transfer of control that was asked for. -/
  | redirection
  /-- The frames are damaged: to go on would return wrong values. -/
  | fatal
  /-- A condition to report; the request can stop cleanly. -/
  | recoverable
  deriving DecidableEq

/-- Why an operation on a stack failed. -/
inductive Fault where
  /-- The definition resolves to nothing that can be pushed. -/
  | nullDefinition (name : String)
  | undefinedDefinition (name : String)
  /-- The stack is as high as it may be. -/
  | depthExceeded (limit : Nat)
  | pointerChainTooLong (key : String) (limit : Nat)
  /-- Too many links from a definition to the one behind it. -/
  | dereferenceLoop (name : String) (limit : Nat)
  /-- The stack is empty. -/
  | stackUnderflow
  /-- The frame is not alive. -/
  | staleFrame (id : FrameId)
  /-- No frame was set aside. -/
  | nothingToRepush
  /-- The frame set aside last does not sit on the current top. -/
  | repushMismatch (id : FrameId)
  | redirect (r : Redirection)
  /-- A definition refers to one that the namespace does not hold. -/
  | danglingReference (gap : Dangling)
  deriving DecidableEq

def FrameId.message (id : FrameId) : String :=
  "ScopeId \x7b index: " ++ Nat.repr id.index ++ ", generation: " ++ Nat.repr id.generation ++
    " \x7d"

namespace Fault

/-- The wording of a fault. -/
def message : Fault → String
  | .nullDefinition name => "definition `" ++ name ++ "` resolved to nothing and cannot be pushed"
  | .undefinedDefinition name => "undefined definition `" ++ name ++ "`"
  | .depthExceeded limit => "maximum context depth of " ++ Nat.repr limit ++ " exceeded"
  | .pointerChainTooLong key limit =>
    "pointer chain for `" ++ key ++ "` exceeds " ++ Nat.repr limit ++ " hops"
  | .dereferenceLoop name limit =>
    "dereferencing `" ++ name ++ "` exceeds " ++ Nat.repr limit ++ " hops"
  | .stackUnderflow => "pop on an empty context"
  | .staleFrame id => "scope " ++ id.message ++ " is no longer live"
  | .nothingToRepush => "no unpushed scope to repush"
  | .repushMismatch id => "scope " ++ id.message ++ " was unpushed from a different stack"
  | .redirect r => r.message
  | .danglingReference gap => "no definition has the number " ++ Nat.repr gap.id

def severity : Fault → Severity
  | .redirect _ => .redirection
  | .depthExceeded _ | .undefinedDefinition _ => .recoverable
  | _ => .fatal

def isFatal (fault : Fault) : Bool := fault.severity == .fatal

/-- The namespace is broken where the work had come to. -/
def isDangling : Fault → Bool
  | .danglingReference _ => true
  | _ => false

/-- A walk through the namespace as a step of the work on a stack. -/
def ofWalk {α : Type} : Except Dangling α → Except Fault α
  | .ok a => .ok a
  | .error gap => .error (.danglingReference gap)

/-- A fault that can be reported, as a redirection. -/
def toRedirection? : Fault → Option Redirection
  | .redirect r => some r
  | .depthExceeded limit =>
    some ⟨500, "", "maximum context depth of " ++ Nat.repr limit ++
      " exceeded, probably runaway recursion"⟩
  | .undefinedDefinition name => some ⟨404, name, "undefined definition `" ++ name ++ "`"⟩
  | _ => none

/-- **Exactly the fatal faults cannot be reported as a redirection.** -/
theorem toRedirection?_eq_none_iff (fault : Fault) :
    fault.toRedirection? = none ↔ fault.isFatal = true := by
  cases fault <;> simp [toRedirection?, isFatal, severity]

end Fault

/-- Why an evaluation failed. -/
inductive EvalFault where
  | stack (fault : Fault)
  /-- The call is already being evaluated at this point. -/
  | circularReference (name : String)
  | noSuperdefinition (name : String)
  | notIterable (item : String)
  deriving DecidableEq

namespace EvalFault

/-- The wording of a fault. -/
def message : EvalFault → String
  | .stack fault => fault.message
  | .circularReference name => "circular reference to `" ++ name ++ "`"
  | .noSuperdefinition name => "`" ++ name ++ "` has no superdefinition"
  | .notIterable item => "cannot iterate over `" ++ item ++ "`"

/-- The redirection a body asked for. -/
def redirection? : EvalFault → Option Redirection
  | .stack (.redirect r) => some r
  | _ => none

def isFatal : EvalFault → Bool
  | .stack fault => fault.isFatal
  | _ => false

/-- The namespace is broken where the evaluation had come to. -/
def isDangling : EvalFault → Bool
  | .stack fault => fault.isDangling
  | _ => false

end EvalFault

end KeepTree
