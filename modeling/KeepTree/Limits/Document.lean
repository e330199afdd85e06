import KeepTree.Limits
import KeepTree.Toml.Reader

/-!
# Limits from settings

Limits are read from a TOML text. What the text does not name keeps its default, and other keys
are not looked at.
-/

namespace KeepTree

/-- Why settings cannot be used. -/
inductive LimitsFault where
  /-- The text is no settings text, or a limit has a value of another kind. -/
  | malformed
  | invalid (limit : InvalidLimit)
  deriving DecidableEq

namespace Limits

/-- A natural number under a key, or a default. -/
def natural? (t : Toml.Table) (key : String) (default : Nat) : Option Nat :=
  match t.get? key with
  | none => some default
  | some (.integer (.ofNat n)) => some n
  | some _ => none

/-- A truth value under a key, or a default. -/
def flag? (t : Toml.Table) (key : String) (default : Bool) : Option Bool :=
  match t.get? key with
  | none => some default
  | some (.boolean b) => some b
  | some _ => none

/-- The limits that a table sets. -/
def ofTable? (t : Toml.Table) : Option Limits := do
  let defaults : Limits := {}
  let maxDepth ← natural? t "max_depth" defaults.maxDepth
  let maxPointerHops ← natural? t "max_pointer_hops" defaults.maxPointerHops
  let keepPropagationLevels ←
    natural? t "keep_propagation_levels" defaults.keepPropagationLevels
  let unboundedPropagation ← flag? t "unbounded_propagation" defaults.unboundedPropagation
  let recycleFrames ← flag? t "recycle_frames" defaults.recycleFrames
  return { maxDepth, maxPointerHops, keepPropagationLevels, unboundedPropagation, recycleFrames }

/-- Read limits from a text. -/
def read (text : String) : Except LimitsFault Limits :=
  match (Toml.read? text).bind ofTable? with
  | none => .error .malformed
  | some limits =>
    match limits.validate with
    | .ok () => .ok limits
    | .error limit => .error (.invalid limit)

end Limits

end KeepTree
