import KeepTree.Engine
import KeepTree.Frame.Pool
import KeepTree.Namespace.Canonical

/-!
# Sessions

A stack is a chain of frames of a pool, seen from its top. Stacks that were branched off each other
are a family and share one pool. A `Session` is one stack at work: the engine, the family and the
stack. This file holds what can be read off a session:

* `frames` -- the frames of the stack, top first;
* `marker` -- the point of evaluation;
* `argumentFor` -- the argument that a name is bound to.
-/

namespace KeepTree

/-- Stacks that share a pool of frames. -/
structure Family where
  /-- Tells families apart. -/
  root : Nat
  pool : Pool
  /-- The number of pushes so far. -/
  clock : Nat

/-- The family of a new stack. -/
def Family.new (root : Nat) (limits : Limits) : Family :=
  { root, pool := { recycle := limits.recycleFrames }, clock := 0 }

/-- A chain of frames, seen from its top. -/
structure Stack where
  top : Option FrameId := none
  /-- The frame recorded as root: the first one pushed since the stack was last popped empty. -/
  root : Option FrameId := none
  size : Nat := 0
  /-- Frames set aside, the last one first. -/
  stash : List FrameId := []

/-- One stack at work. -/
structure Session where
  engine : Engine
  family : Family
  stack : Stack

/-- A point of evaluation: which push, and which iteration. -/
structure Marker where
  root : Nat
  state : Nat
  iteration : Option Nat
  deriving DecidableEq

/-- What a parameter is bound to, and where. -/
structure ArgumentBinding where
  argument : Argument
  /-- The number of frames above the one that binds it. -/
  depth : Nat
  /-- The position of the parameter. -/
  index : Nat
  definition : DefId

namespace Session

/-! ## 1. The top and the root -/

def ns (s : Session) : Namespace := s.engine.ns

def store (s : Session) : Store := s.engine.store

def limits (s : Session) : Limits := s.engine.limits

/-- A frame of the family. -/
def frame? (s : Session) (id : FrameId) : Option Frame := s.family.pool.get? id

/-- The frame on top. -/
def topFrame? (s : Session) : Option Frame := s.stack.top.bind s.frame?

/-- The frame recorded as root. -/
def rootFrame? (s : Session) : Option Frame := s.stack.root.bind s.frame?

def topDefinition? (s : Session) : Option DefId := s.topFrame?.map (·.definition)

def rootDefinition? (s : Session) : Option DefId := s.rootFrame?.map (·.definition)

/-- The site the top frame runs in. -/
def site? (s : Session) : Option DefId := s.topFrame?.bind (·.site)

/-- The loop iteration of the top frame. -/
def iteration? (s : Session) : Option Nat := s.topFrame?.bind (·.iteration)

/-- The id of the top frame, if the stack is not empty. -/
def topId (s : Session) : Except Fault FrameId :=
  match s.stack.top with
  | some id => .ok id
  | none => .error .stackUnderflow

/-- A frame that must be alive. -/
def liveFrame (s : Session) (id : FrameId) : Except Fault Frame :=
  match s.frame? id with
  | some frame => .ok frame
  | none => .error (.staleFrame id)

/-- The top frame, which must exist and be alive. -/
def top (s : Session) : Except Fault (FrameId × Frame) := do
  let id ← s.topId
  let frame ← s.liveFrame id
  return (id, frame)

/-! ## 2. The whole stack -/

/-- The frames of the stack, top first. -/
def frames (s : Session) : List (FrameId × Frame) := s.family.pool.chain s.stack.top

/-- The full names of the frames' definitions, top first. -/
def names (s : Session) : List String :=
  s.frames.map fun (_, frame) => s.ns.fullName frame.definition

/-- The current point of evaluation. An empty stack is at the start. -/
def marker (s : Session) : Marker :=
  match s.topFrame? with
  | some frame => ⟨s.family.root, frame.state, frame.iteration⟩
  | none => ⟨s.family.root, 0, none⟩

/-- The frames that bind names for the top frame: a frame lends its parameters to the frame above
    if that one's definition lies inside its own. -/
def enclosing (ns : Namespace) : List (FrameId × Frame) → List Frame
  | [] => []
  | [(_, frame)] => [frame]
  | (_, frame) :: (id, below) :: rest =>
    if ns.isWithin frame.definition below.definition then
      frame :: enclosing ns ((id, below) :: rest)
    else [frame]

/-- The first frame that has a parameter of this name; `depth` frames are above them. -/
def bindingIn (name : String) : Nat → List Frame → Option ArgumentBinding
  | _, [] => none
  | depth, frame :: rest =>
    match frame.parameterIndex? name with
    | some index =>
      some ⟨frame.arguments[index]?.getD .missing, depth, index, frame.definition⟩
    | none => bindingIn name (depth + 1) rest

/-- The argument that a name is bound to. -/
def argumentFor (s : Session) (name : String) : Option ArgumentBinding :=
  bindingIn name 0 (enclosing s.ns s.frames)

/-! ## 3. Changing parts -/

/-- Change the engine. -/
def withEngine (s : Session) (engine : Engine) : Session := { s with engine }

/-- Change the pool. -/
def withPool (s : Session) (pool : Pool) : Session :=
  { s with family := { s.family with pool } }

/-- Count something. -/
def count (s : Session) (f : Counters → Counters) : Session := s.withEngine (s.engine.count f)

end Session

end KeepTree
