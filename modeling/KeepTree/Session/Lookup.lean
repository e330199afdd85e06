import KeepTree.Session
import KeepTree.Store.Pointers

/-!
# Looking up values

A request names a key and, perhaps, the definition and arguments that the value must have been
computed for. The entries that may answer it stand in a fixed order (`candidates`): first those of
the durable tables, then for each frame in reach the one cached in it or kept by it. The first
entry that yields a value answers. If none does, and it cannot be told whether the search ends with
the last frame since a reference is dangling, the search fails.
-/

namespace KeepTree

/-- A request for a cached value. -/
structure Request where
  key : String
  /-- The full name to try in the durable tables first. -/
  globalKey : Option String := none
  /-- The definition the value must have been computed for. -/
  definition : Option DefId := none
  arguments : Option (List Argument) := none
  /-- Search the top frame only. -/
  topOnly : Bool := false

namespace Request

/-- Names that are never looked for in frames below. -/
def reserved : List String :=
  ["this", "super", "owner", "site", "core", "container", "count", "keys"]

/-- A holder has the definition and arguments that are asked for. A definition alone asks for no
    arguments. -/
def matches? (r : Request) (h : Holder) : Bool :=
  match r.definition, r.arguments with
  | some definition, some arguments => h.fits definition arguments
  | some definition, none => h.fits definition []
  | none, some arguments => sameArguments h.nominalArguments arguments
  | none, none => true

end Request

namespace Session

/-! ## 1. The value of an entry -/

/-- A value of a definition for its owner only is seen from inside the owner. -/
def sees (ns : Namespace) (origin : DefId) (h : Holder) : Bool :=
  match ns.get? h.nominal with
  | some d =>
    match d.access, d.owner with
    | .ownerOnly, some owner => ns.isWithin origin owner
    | _, _ => true
  | none => true

/-- The value that an entry yields for a request made in the definition `origin`. -/
def yields (ns : Namespace) (origin : DefId) (r : Request) : Entry → Option Value
  | .value v => some v
  | .holder h => if sees ns origin h && r.matches? h then h.data else none
  | .element e => e.resolve
  | .pointer _ => none

/-- The result of a search, and the number of slots that pointers were followed through. -/
abbrev Search := Except Fault (Option Value) × Nat

/-- The value that an entry yields, at the end of its chain if it is a pointer. -/
def resolve (s : Session) (origin : DefId) (r : Request) (entry : Entry)
    (iteration : Option Nat) : Search :=
  match entry with
  | .pointer p =>
    match s.store.follow iteration s.limits.maxPointerHops p with
    | .ok (some found, hops) => (.ok (yields s.ns origin r found), hops)
    | .ok (none, hops) => (.ok none, hops)
    | .error _ => (.error (.pointerChainTooLong r.key s.limits.maxPointerHops), 0)
  | entry => (.ok (yields s.ns origin r entry), 0)

/-! ## 2. The entries to try -/

/-- The durable tables to try: that of the definition, that of the current site, and the one for
    everything. A table that was not created yet holds nothing. -/
def durableTables (s : Session) (r : Request) (frame : Frame) : List TableId :=
  let own := (r.definition.bind s.ns.get?).bind fun d =>
    if d.isGlobal then
      match d.durability, d.site with
      | .global, some site => s.engine.sites.get? site
      | _, _ => some s.engine.global
    else none
  own.toList ++ frame.siteTable.toList ++ [s.engine.global]

/-- The entries of the durable tables. -/
def durableCandidates (s : Session) (r : Request) (frame : Frame) :
    List (Entry × Option Nat) :=
  match r.globalKey with
  | none => []
  | some key =>
    (s.durableTables r frame).filterMap fun table =>
      (s.store.get? table (frame.slotKey key)).map (·, frame.iteration)

/-- The search ends with this frame: it is for the top frame only, the name is reserved, or the
    frame's definition declares the name. -/
def endsAt (ns : Namespace) (origin : DefId) (r : Request) (frame : Frame) :
    Except Dangling Bool :=
  let head := DottedName.head r.key
  if r.topOnly || Request.reserved.contains head then .ok true
  else ns.hasChild frame.definition head (ns.isWithin origin frame.definition)

/-- The frames up to the one where the search ends, and how it ends there. -/
def reached (ns : Namespace) (origin : DefId) (r : Request) :
    List (FrameId × Frame) → List Frame × Except Dangling Unit
  | [] => ([], .ok ())
  | (_, frame) :: rest =>
    match endsAt ns origin r frame with
    | .error gap => ([frame], .error gap)
    | .ok true => ([frame], .ok ())
    | .ok false =>
      let (frames, ending) := reached ns origin r rest
      (frame :: frames, ending)

/-- The entry that a frame has for a key: cached in this iteration, or else kept. -/
def entryIn (store : Store) (key : String) (frame : Frame) : Option Entry :=
  match frame.cached? store key with
  | some entry => some entry
  | none => (frame.keepPointer? store key).map .pointer

/-- The entries of the frames. -/
def frameCandidates (s : Session) (r : Request) (origin : DefId) : List (Entry × Option Nat) :=
  (reached s.ns origin r s.frames).1.filterMap fun frame =>
    (entryIn s.store r.key frame).map (·, frame.iteration)

/-- All entries that may answer a request, in order. -/
def candidates (s : Session) (r : Request) (frame : Frame) : List (Entry × Option Nat) :=
  s.durableCandidates r frame ++ s.frameCandidates r frame.definition

/-! ## 3. Searching -/

/-- The first value that one of the entries yields. -/
def search (s : Session) (origin : DefId) (r : Request) : List (Entry × Option Nat) → Search
  | [] => (.ok none, 0)
  | (entry, iteration) :: rest =>
    match s.resolve origin r entry iteration with
    | (.ok none, hops) =>
      let (result, more) := s.search origin r rest
      (result, hops + more)
    | found => found

/-- The result where no entry yields a value. -/
def searchEnding (s : Session) (r : Request) (origin : DefId) : Except Fault (Option Value) :=
  Fault.ofWalk ((reached s.ns origin r s.frames).2.map fun () => none)

/-- Find the value for a request. -/
def find (s : Session) (r : Request) : Search :=
  match s.stack.top with
  | none => (.ok none, 0)
  | some id =>
    match s.liveFrame id with
    | .error fault => (.error fault, 0)
    | .ok frame =>
      match s.search frame.definition r (s.candidates r frame) with
      | (.ok none, hops) => (s.searchEnding r frame.definition, hops)
      | found => found

/-- A request with a full name creates the durable table of its definition. -/
def prepare (s : Session) (r : Request) : Engine :=
  match s.topFrame?, r.globalKey, r.definition.bind s.ns.get? with
  | some _, some _, some d => if d.isGlobal then (s.engine.durableTable d).2 else s.engine
  | _, _, _ => s.engine

/-- Look up the value for a request, and count the search. -/
def lookup (s : Session) (r : Request) : Except Fault (Option Value) × Session :=
  let (result, hops) := s.find r
  let engine := (s.prepare r).count (·.hops hops)
  match result with
  | .ok found => (result, s.withEngine (engine.count (·.lookup found.isSome)))
  | .error _ => (result, s.withEngine engine)

/-- Look up the value of a key. -/
def get (s : Session) (key : String) : Except Fault (Option Value) × Session := s.lookup { key }

end Session

end KeepTree
