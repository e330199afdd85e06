import KeepTree.Session

/-!
# Keeping

A keep statement of a definition lets several names of a frame stand for one slot: the target, its
alias, and the target inside its container. A durable target is kept in its durable table. Any
other is kept in the frame's own tables, and its qualified name is entered in the frame below, so
that the slot can be reached when the frame is gone.
-/

namespace KeepTree

/-- The table that a frame keeps a target in, created on first use, for a target that is not
    durable. -/
def Frame.keepTable (f : Frame) (container : Option String) (store : Store) :
    TableId × Frame × Store :=
  match container with
  | none => (f.cache, f, store)
  | some name =>
    match f.containers.get? name with
    | some table => (table, f, store)
    | none =>
      let (table, store) := store.newTable .empty
      (table, { f with containers := f.containers.insert name table }, store)

/-- The names that a keep statement gives to its slot in the frame itself. -/
def Keep.names (keep : Keep) : List String :=
  keep.target :: keep.aliasName.toList ++
    keep.container.toList.map (DottedName.join · keep.target)

/-- Enter a pointer under several names. -/
def Store.keepAll (s : Store) (id : KeepMapId) (pointer : Pointer) : List String → Store
  | [] => s
  | name :: rest => (s.keep id name pointer).keepAll id pointer rest

namespace Engine

/-- What the names of a keep statement mean in a definition: its target, and its alias, which
    stands for the target unless it is a child itself. Nothing if the target is no child. -/
def keepTargets (ns : Namespace) (id : DefId) (keep : Keep) :
    Except Dangling (Option (DefId × Option Binding)) :=
  match ns.child id keep.target with
  | .error gap => .error gap
  | .ok none => .ok none
  | .ok (some target) =>
    match keep.aliasName with
    | none => .ok (some (target, none))
    | some name =>
      (ns.child id name).map fun found =>
        some (target, some (.plain (found.getD target) name))

/-- Keep a target for a frame under all names; `below` is the keep map of the frame below. -/
def keepTarget (e : Engine) (frame : Frame) (keep : Keep) (below : Option KeepMapId)
    (targetId : DefId) (aliasTarget : Option Binding) : Frame × Engine :=
  let pointerTo (table : TableId) (key : String) : Pointer :=
    ⟨.plain targetId keep.target, aliasTarget, key, keep.container, table⟩
  match (e.ns.get? targetId).filter (·.isGlobal) with
  | some target =>
    let (table, e) := e.durableTable target
    let store := e.store.keepAll frame.keeps (pointerTo table target.fullName) keep.names
    (frame, (e.withStore store).count .keep)
  | none =>
    let (table, frame, store) := frame.keepTable keep.container e.store
    let pointer := pointerTo table keep.target
    let store := store.keepAll frame.keeps pointer keep.names
    let qualified := DottedName.join (e.ns.fullName frame.definition) keep.target
    let store := store.keep (below.getD frame.keeps) qualified pointer
    (frame, (e.withStore store).count .keep)

/-- Keep what a statement says, if the frame's definition has a child of the target's name. -/
def registerKeep (e : Engine) (frame : Frame) (keep : Keep) (below : Option KeepMapId) :
    Except Dangling (Option (Frame × Engine)) :=
  (keepTargets e.ns frame.definition keep).map fun found =>
    found.map fun (target, aliasTarget) => e.keepTarget frame keep below target aliasTarget

/-- Keep what several statements say, leaving out those whose target is no child. A dangling
    reference ends it; what was kept before stays. -/
def registerKeeps (e : Engine) (frame : Frame) (below : Option KeepMapId) :
    List Keep → Except Dangling Unit × Frame × Engine
  | [] => (.ok (), frame, e)
  | keep :: rest =>
    match e.registerKeep frame keep below with
    | .error gap => (.error gap, frame, e)
    | .ok (some (frame, e)) => e.registerKeeps frame below rest
    | .ok none => e.registerKeeps frame below rest

end Engine

namespace Session

/-- The keep map of the frame below a frame. -/
def keepsBelow (s : Session) (frame : Frame) : Option KeepMapId :=
  (frame.previous.bind s.frame?).map (·.keeps)

/-- Keep a target in the top frame; whether there is such a target. -/
def addKeep (s : Session) (keep : Keep) : Except Fault (Bool × Session) := do
  let (id, frame) ← s.top
  match ← Fault.ofWalk (s.engine.registerKeep frame keep (s.keepsBelow frame)) with
  | some (frame, engine) =>
    return (true, (s.withEngine engine).withPool (s.family.pool.set id frame))
  | none => return (false, s)

/-- The target behind an alias: what the nearest frame that keeps the name keeps under it. -/
def keepTarget? (s : Session) (name : String) : Option String :=
  match s.frames.findSome? fun (_, frame) => frame.keepPointer? s.store name with
  | some pointer =>
    match pointer.aliasTarget with
    | some binding => if binding.name == name then some pointer.target.name else none
    | none => none
  | none => none

/-- The frames within reach: the top one and `levels` below, or all. -/
def within (levels : Option Nat) (frames : List (FrameId × Frame)) : List (FrameId × Frame) :=
  match levels with
  | some n => frames.take (n + 1)
  | none => frames

/-- A frame within reach keeps the name. -/
def isKept (s : Session) (name : String) : Bool :=
  (within s.limits.propagationLevels s.frames).any fun (_, frame) =>
    (frame.keepPointer? s.store name).isSome

end Session

end KeepTree
