/-!
# Limits of an engine

How high a stack may grow, how far pointers and links are followed, how far down a kept value is
passed on, and whether the slots of frames are used again.
-/

namespace KeepTree

/-- The limits an engine works under. -/
structure Limits where
  /-- A push beyond this many frames is taken for runaway recursion. -/
  maxDepth : Nat := 400
  /-- Bound on chains of pointers and on links between definitions. -/
  maxPointerHops : Nat := 10
  /-- Frames searched when a write is passed on to a keep further down. -/
  keepPropagationLevels : Nat := 8
  /-- Search the whole stack instead. -/
  unboundedPropagation : Bool := false
  /-- Slots of freed frames are used again. -/
  recycleFrames : Bool := true
  deriving DecidableEq

/-- A limit has a value it may not have. -/
structure InvalidLimit where
  key : String
  deriving DecidableEq

def InvalidLimit.message (e : InvalidLimit) : String :=
  "invalid config value for `" ++ e.key ++ "`: must be greater than zero"

namespace Limits

/-- The limits that must be positive, by name. -/
def positive (l : Limits) : List (String × Nat) :=
  [("max_depth", l.maxDepth), ("max_pointer_hops", l.maxPointerHops),
    ("keep_propagation_levels", l.keepPropagationLevels)]

/-- The limits can be used; else the first that cannot. -/
def validate (l : Limits) : Except InvalidLimit Unit :=
  match l.positive.find? fun (_, value) => value == 0 with
  | some (key, _) => .error ⟨key⟩
  | none => .ok ()

/-- How many frames down a kept value is passed on; without bound if `none`. -/
def propagationLevels (l : Limits) : Option Nat :=
  if l.unboundedPropagation then none else some l.keepPropagationLevels

end Limits

end KeepTree
