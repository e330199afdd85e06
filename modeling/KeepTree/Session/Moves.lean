import KeepTree.Session.Keeping

/-!
# Moves on the stack

* `push`, `pushCall` -- a frame for a definition, or for what a call names;
* `pop` -- drop the top frame;
* `unpush`, `repush` -- step out of the top frame, and back in;
* `branch`, `close` -- a second stack with a copy of the top frame; the end of a stack;
* `startIteration`, `setIteration` -- loops in the top frame.

A move that fails changes nothing, but for one case: if a dangling reference is met when the keep
statements of a pushed definition are carried out, the frame has been pushed.
-/

namespace KeepTree

namespace Session

/-! ## 1. Pushing -/

/-- Where a new frame puts its values. -/
structure Home where
  cache : TableId
  site : Option DefId
  siteTable : Option TableId

/-- The home of a frame for a definition. A site frame shares the cache of the frame recorded as root;
    any other has a cache of its own and stays in the site below unless it belongs to another. -/
def homeFor (s : Session) (id : DefId) (d : Definition) (previous : Option Frame) :
    Home × Engine :=
  if d.isSite then
    let (cache, engine) := match s.rootFrame? with
      | some root => (root.cache, s.engine)
      | none =>
        let (cache, store) := s.store.newTable .empty
        (cache, s.engine.withStore store)
    let (table, engine) := engine.siteTable id
    (⟨cache, some id, some table⟩, engine)
  else
    let (cache, store) := s.store.newTable .empty
    let engine := s.engine.withStore store
    let previousSite := previous.bind (·.site)
    match d.site with
    | some site =>
      if previousSite = some site then
        (⟨cache, previousSite, previous.bind (·.siteTable)⟩, engine)
      else
        let (table, engine) := engine.siteTable site
        (⟨cache, some site, some table⟩, engine)
    | none => (⟨cache, previousSite, previous.bind (·.siteTable)⟩, engine)

/-- A frame goes on with what the frame below keeps if both have the same definition and binding.
    Without arguments a frame takes over any binding. -/
def continuesKeeps (bound : Bound) (previous : Frame) : Bool :=
  previous.definition == bound.definition &&
    (bound.arguments.all Argument.isMissing || sameArguments previous.arguments bound.arguments)

/-- A frame for a canonical definition, which keeps what the definition says. It is made from the frame
    that is used next; what is not said here is as clearing left it. -/
def frameFor (s : Session) (bound : Bound) (d : Definition) (previous : Option Frame)
    (newCall : Bool) : Except Dangling Unit × Frame × Engine :=
  let (home, engine) := s.homeFor bound.definition d previous
  let inherited := previous.filter (continuesKeeps bound)
  let (keeps, engine) := match inherited with
    | some below => (below.keeps, engine)
    | none =>
      let (keeps, store) := engine.store.newKeepMap .empty
      (keeps, engine.withStore store)
  let frame : Frame :=
    { (s.family.pool.vacant home.cache keeps).frame with
      definition := bound.definition
      continues := if newCall then none else some bound.definition
      parameters := d.parameters
      arguments := bound.arguments
      siteTable := home.siteTable
      site := home.site
      previous := s.stack.top
      pins := 1
      state := s.family.clock + 1 }
  match inherited with
  | some below => (.ok (), { frame with containers := below.containers }, engine)
  | none => engine.registerKeeps frame (previous.map Frame.keeps) d.keeps

/-- Put a frame on top. -/
def enter (s : Session) (frame : Frame) (engine : Engine) : Session :=
  let (placed, pool) := s.family.pool.alloc frame
  let pool := match s.stack.top with
    | some below => ((pool.link below).unpin below).2
    | none => pool
  let size := s.stack.size + 1
  { engine := engine.count (·.push size placed.recycled)
    family := { s.family with pool, clock := s.family.clock + 1 }
    stack :=
      { s.stack with
        top := some placed.id
        root := s.stack.root.or (some placed.id)
        size } }

/-- Put a frame for a canonical definition on top, and keep what the definition says. -/
def pushBound (s : Session) (bound : Bound) (d : Definition) (previous : Option Frame)
    (newCall : Bool) : Except Fault Unit × Session :=
  let (kept, frame, engine) := s.frameFor bound d previous newCall
  (Fault.ofWalk kept, s.enter frame engine)

/-- What a push puts on top: the canonical definition, and the frame below. The stack must not be
    as high as it may be. -/
def preparePush (s : Session) (definition : DefId) (arguments : List Argument) :
    Except Fault (Bound × Definition × Option Frame) :=
  if s.limits.maxDepth ≤ s.stack.size then .error (.depthExceeded s.limits.maxDepth)
  else do
    let found ← s.ns.canonical ⟨definition, arguments⟩ s.topDefinition? s.limits.maxPointerHops
    match found.bind fun bound => (s.ns.get? bound.definition).map (bound, ·) with
    | none => .error (.nullDefinition (s.ns.fullName definition))
    | some (bound, d) =>
      let previous ← match s.stack.top with
        | some id => (s.liveFrame id).map some
        | none => pure none
      return (bound, d, previous)

/-- Push a frame for a definition, or for the one behind it. A frame that starts no new call
    continues the calls of superdefinitions. -/
def push (s : Session) (definition : DefId) (arguments : List Argument) (newCall : Bool) :
    Except Fault Unit × Session :=
  match s.preparePush definition arguments with
  | .error fault => (.error fault, s)
  | .ok (bound, d, previous) => s.pushBound bound d previous newCall

/-- Push a frame for what a call names, seen from the top frame; the definition it names. -/
def pushCall (s : Session) (call : Call) (newCall : Bool) : Except Fault DefId × Session :=
  match s.ns.lookupFrom s.topDefinition? call.name with
  | .error gap => (.error (.danglingReference gap), s)
  | .ok none => (.error (.undefinedDefinition call.name), s)
  | .ok (some definition) =>
    let (pushed, s) := s.push definition call.arguments newCall
    (pushed.map fun () => definition, s)

/-! ## 2. Popping and stepping out -/

/-- Hold the frame below before the frame above it is let go. -/
def pinBelow (pool : Pool) (frame : Frame) : Pool :=
  match frame.previous with
  | some below => pool.pin below
  | none => pool

/-- Drop the top frame. -/
def pop (s : Session) : Except Fault Session := do
  let (id, frame) ← s.top
  let (freed, pool) := (pinBelow s.family.pool frame).unpin id
  let size := s.stack.size - 1
  let root := if size = 0 then none else s.stack.root
  let s := { s with stack := { s.stack with top := frame.previous, root, size } }
  return (s.withPool pool).count fun c => c.pop.freed freed

/-- Step out of the top frame, and set it aside. -/
def unpush (s : Session) : Except Fault Session := do
  let (id, frame) ← s.top
  let stack :=
    { s.stack with top := frame.previous, size := s.stack.size - 1, stash := id :: s.stack.stash }
  return { s with stack }.withPool (pinBelow s.family.pool frame)

/-- Step back into the frame set aside last. It must sit on the current top. -/
def repush (s : Session) : Except Fault Session :=
  match s.stack.stash with
  | [] => .error .nothingToRepush
  | id :: stash => do
    let frame ← s.liveFrame id
    if frame.previous ≠ s.stack.top then .error (.repushMismatch id)
    else
      let (freed, pool) := match s.stack.top with
        | some current => s.family.pool.unpin current
        | none => (0, s.family.pool)
      let stack := { s.stack with top := some id, size := s.stack.size + 1, stash }
      return ({ s with stack }.withPool pool).count (·.freed freed)

/-! ## 3. Branches -/

/-- A second stack of the family: all frames below the top are shared, the top one is copied. A
    sharing branch also shares the tables of the top frame. The session is that of the branch. -/
def branch (s : Session) (sharing : Bool) : Session :=
  match s.stack.top, s.topFrame? with
  | some top, some source =>
    let target := s.family.pool.vacant source.cache source.keeps
    let (copy, store) := target.copyOnto source sharing s.store
    let (placed, pool) := s.family.pool.alloc { copy with pins := 1 }
    let pool := match source.previous with
      | some below => pool.link below
      | none => pool
    let root := if s.stack.root = some top then some placed.id else s.stack.root
    let s := (s.withEngine (s.engine.withStore store)).withPool pool
    { s with stack := { top := some placed.id, root, size := s.stack.size, stash := [] } }.count
      (·.frame placed.recycled)
  | _, _ => { s with stack := {} }

/-- End a stack: let go of its top and of the frames set aside, the oldest first. -/
def close (s : Session) : Session :=
  let (freed, pool) := s.family.pool.unpinAll (s.stack.top.toList ++ s.stack.stash.reverse)
  ({ s with stack := {} }.withPool pool).count (·.freed freed)

/-! ## 4. Loops -/

/-- Start the next loop iteration in the top frame; its number. -/
def startIteration (s : Session) : Except Fault (Nat × Session) := do
  let (id, frame) ← s.top
  let (index, frame) := frame.startIteration
  return (index, s.withPool (s.family.pool.set id frame))

/-- Go to a loop iteration of the top frame, or out of all. -/
def setIteration (s : Session) (iteration : Option Nat) : Session :=
  match s.stack.top with
  | some id => s.withPool (s.family.pool.modify id fun frame => { frame with iteration })
  | none => s

end Session

end KeepTree
