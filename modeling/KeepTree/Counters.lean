import KeepTree.Json

/-!
# Counters

What an engine counts about its work. The counters never influence a result.
-/

namespace KeepTree

/-- Counts of an engine's work. -/
structure Counters where
  pushes : Nat := 0
  pops : Nat := 0
  /-- The greatest height a push has reached. -/
  maxDepthSeen : Nat := 0
  framesAllocated : Nat := 0
  framesRecycled : Nat := 0
  framesFreed : Nat := 0
  cacheHits : Nat := 0
  cacheMisses : Nat := 0
  keepsRegistered : Nat := 0
  pointerHops : Nat := 0
  computations : Nat := 0
  deriving DecidableEq

namespace Counters

/-- A frame was made. -/
def frame (c : Counters) (recycled : Bool) : Counters :=
  { c with
    framesAllocated := c.framesAllocated + 1
    framesRecycled := if recycled then c.framesRecycled + 1 else c.framesRecycled }

/-- A frame was pushed, and the stack is now this high. -/
def push (c : Counters) (depth : Nat) (recycled : Bool) : Counters :=
  { c with pushes := c.pushes + 1, maxDepthSeen := max c.maxDepthSeen depth }.frame recycled

def pop (c : Counters) : Counters := { c with pops := c.pops + 1 }

def freed (c : Counters) (frames : Nat) : Counters :=
  { c with framesFreed := c.framesFreed + frames }

/-- A value was looked up, and found or not. -/
def lookup (c : Counters) (hit : Bool) : Counters :=
  if hit then { c with cacheHits := c.cacheHits + 1 }
  else { c with cacheMisses := c.cacheMisses + 1 }

def keep (c : Counters) : Counters := { c with keepsRegistered := c.keepsRegistered + 1 }

def hops (c : Counters) (n : Nat) : Counters := { c with pointerHops := c.pointerHops + n }

def computation (c : Counters) : Counters := { c with computations := c.computations + 1 }

/-- The counters by name. They are shown as 64-bit words. -/
def toJson (c : Counters) : Json :=
  let word (n : Nat) : Json := .int (n % Nat.pow 2 64 : Nat)
  .object [("pushes", word c.pushes), ("pops", word c.pops),
    ("max_depth_seen", word c.maxDepthSeen), ("frames_allocated", word c.framesAllocated),
    ("frames_recycled", word c.framesRecycled), ("frames_freed", word c.framesFreed),
    ("cache_hits", word c.cacheHits), ("cache_misses", word c.cacheMisses),
    ("keeps_registered", word c.keepsRegistered), ("pointer_hops", word c.pointerHops),
    ("computations", word c.computations)]

end Counters

end KeepTree
