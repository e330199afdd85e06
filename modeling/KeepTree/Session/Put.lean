import KeepTree.Session.Keeping
import KeepTree.Store.Pointers

/-!
# Putting values

A computed value is put into the top frame, or where the frame keeps its key. From there it is
passed on: a durable definition's value to its durable table, and any value that others may see to
the frame that keeps it, which is the nearest one whose definition has the value's definition as a
child, and for a key inside a container the nearest one with that container.

If passing on fails, what was written before stays written.
-/

namespace KeepTree.Session

/-! ## 1. Where values go -/

/-- Write to the slot that the top frame has for a key. -/
def putInFrame (store : Store) (limit : Nat) (frame : Frame) (key : String) (entry : Entry) :
    Except Fault (Location × Store) :=
  match frame.keepPointer? store key with
  | some pointer => store.writeThrough frame.iteration limit pointer entry
  | none =>
    let location : Location := ⟨frame.cache, frame.slotKey key⟩
    match store.at? location with
    | some (.pointer pointer) => store.writeThrough frame.iteration limit pointer entry
    | _ => .ok (location, store.set location entry)

/-- Write where a frame keeps a name, unless it was written there already. -/
def passOn (store : Store) (limit : Nat) (written : Location) (frame : Frame) (pointer : Pointer)
    (entry : Entry) : Except Fault Store :=
  if pointer.location frame.iteration = written then .ok store
  else (store.writeThrough frame.iteration limit pointer entry).map (·.2)

/-- The nearest frame whose definition is `owner` or inherits from it. -/
def nearestOf (ns : Namespace) (owner : DefId) :
    List (FrameId × Frame) → Except Dangling (Option (FrameId × Frame))
  | [] => .ok none
  | (id, frame) :: rest =>
    match ns.inherits frame.definition owner with
    | .error gap => .error gap
    | .ok true => .ok (some (id, frame))
    | .ok false => nearestOf ns owner rest

/-- The frame in reach that owns a definition, if others may see the definition. -/
def ownerFrame (ns : Namespace) (d : Definition) (reach : List (FrameId × Frame)) :
    Except Dangling (Option (FrameId × Frame)) :=
  match d.access, d.owner with
  | .ownerOnly, _ | _, none => .ok none
  | _, some owner => nearestOf ns owner reach

/-- The pointer by which the owner of a definition keeps it, if that is not the top frame. -/
def ownerPointer (store : Store) (d : Definition) (top : FrameId) (owner : FrameId × Frame) :
    Option (Frame × Pointer) :=
  if owner.1 = top then none
  else (owner.2.keepPointer? store d.name).map (owner.2, ·)

/-- The pointer by which a container keeps a key: of the nearest frame in reach with that
    container. -/
def containerPointer (store : Store) (key : String) (reach : List (FrameId × Frame)) :
    Option (Frame × Pointer) := do
  let (container, child) ← DottedName.splitHead? key
  let (_, frame) ← reach.find? fun (_, frame) => frame.containers.contains container
  let pointer ← frame.keepPointer? store child
  if pointer.container = some container then return (frame, pointer) else none

/-- Put a durable definition's own value into its durable table. -/
def putDurable (e : Engine) (d : Definition) (key : String) (iteration : Option Nat)
    (entry : Entry) : Engine :=
  if d.isGlobal && d.name == key then
    let (table, e) := e.durableTable d
    e.withStore (e.store.write table (DottedName.inLoop d.fullName iteration) entry)
  else e

/-- Pass a value on to the frame that keeps it. -/
def passOnTo (e : Engine) (written : Location) (entry : Entry) :
    Option (Frame × Pointer) → Except Fault Engine
  | none => .ok e
  | some (frame, pointer) =>
    (passOn e.store e.limits.maxPointerHops written frame pointer entry).map e.withStore

/-- Pass a value on to the frame that owns its definition. -/
def passOnToOwner (e : Engine) (written : Location) (entry : Entry) (d : Definition)
    (top : FrameId) (reach : List (FrameId × Frame)) : Except Fault Engine :=
  match ownerFrame e.ns d reach with
  | .error gap => .error (.danglingReference gap)
  | .ok owner => passOnTo e written entry (owner.bind (ownerPointer e.store d top))

/-! ## 2. Putting -/

/-- Put a computed value under a key, passing it on at most `levels` frames down; the slot that was
    written first. -/
def putWithin (s : Session) (key : String) (holder : Holder) (levels : Option Nat) :
    Except Fault Location × Session :=
  match s.top, s.ns.find holder.nominal with
  | .error fault, _ => (.error fault, s)
  | _, .error gap => (.error (.danglingReference gap), s)
  | .ok (top, frame), .ok d =>
    let entry := Entry.holder holder
    match putInFrame s.store s.limits.maxPointerHops frame key entry with
    | .error fault => (.error fault, s)
    | .ok (written, store) =>
      let engine := putDurable (s.engine.withStore store) d key frame.iteration entry
      let reach := within levels s.frames
      match passOnToOwner engine written entry d top reach with
      | .error fault => (.error fault, s.withEngine engine)
      | .ok engine =>
        match passOnTo engine written entry (containerPointer engine.store key reach) with
        | .error fault => (.error fault, s.withEngine engine)
        | .ok engine => (.ok written, s.withEngine engine)

/-- Put a computed value under a key. -/
def put (s : Session) (key : String) (holder : Holder) : Except Fault Location × Session :=
  s.putWithin key holder s.limits.propagationLevels

/-- Bind a plain value in the top frame, in its current iteration. -/
def putValue (s : Session) (key : String) (value : Value) : Except Fault Session := do
  let (_, frame) ← s.top
  let store := s.store.write frame.cache (frame.slotKey key) (.value value)
  return s.withEngine (s.engine.withStore store)

end KeepTree.Session
