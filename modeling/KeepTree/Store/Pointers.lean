import KeepTree.Fault

/-!
# Chains of pointers

The slot that a pointer names may itself hold a pointer. `chase` goes to the end of such a chain;
reading and writing through a pointer are reading and writing the slot at its end.
-/

namespace KeepTree

/-- A slot of a table. -/
structure Location where
  table : TableId
  key : String
  deriving DecidableEq

/-- The slot a pointer names in a loop iteration. -/
def Pointer.location (p : Pointer) (iteration : Option Nat) : Location :=
  ⟨p.table, p.slotKey iteration⟩

namespace Store

/-- The entry in a slot. -/
def at? (s : Store) (l : Location) : Option Entry := s.get? l.table l.key

/-- Set a slot. -/
def set (s : Store) (l : Location) (entry : Entry) : Store := s.write l.table l.key entry

/-- The last pointer of a chain, whose slot holds no pointer, and the number of slots looked at. No
    more than `limit` slots are looked at; else the pointer that is next. -/
def chase (s : Store) (iteration : Option Nat) : Nat → Pointer → Except Pointer (Pointer × Nat)
  | 0, p => .error p
  | limit + 1, p =>
    match s.at? (p.location iteration) with
    | some (.pointer next) =>
      match s.chase iteration limit next with
      | .ok (last, hops) => .ok (last, hops + 1)
      | .error next => .error next
    | _ => .ok (p, 1)

/-- The entry at the end of a chain, and the number of slots looked at. -/
def follow (s : Store) (iteration : Option Nat) (limit : Nat) (p : Pointer) :
    Except Pointer (Option Entry × Nat) :=
  match s.chase iteration limit p with
  | .ok (last, hops) => .ok (s.at? (last.location iteration), hops)
  | .error next => .error next

/-- Set the slot at the end of a chain. -/
def writeThrough (s : Store) (iteration : Option Nat) (limit : Nat) (p : Pointer)
    (entry : Entry) : Except Fault (Location × Store) :=
  match s.chase iteration limit p with
  | .ok (last, _) =>
    let location := last.location iteration
    .ok (location, s.set location entry)
  | .error next => .error (.pointerChainTooLong next.key limit)

end Store

end KeepTree
