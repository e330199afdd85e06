import KeepTree.Session.Moves

/-!
# Workspaces

A workspace holds any number of stacks over one engine, by name. Stacks that were branched off each
other share a family; a stack that is started has a family of its own. When a stack takes the name
of another, the other one ends.
-/

namespace KeepTree

/-- A stack, and the number of its family. -/
structure Seat where
  family : Nat
  stack : Stack

/-- Named stacks over one engine. -/
structure Workspace where
  engine : Engine
  /-- All families so far, by number. -/
  families : Array Family
  seats : Dictionary String Seat

namespace Workspace

/-- A workspace without stacks. -/
def new (ns : Namespace) (limits : Limits) : Workspace := ⟨.new ns limits, #[], .empty⟩

/-- The session of a stack. -/
def session? (w : Workspace) (name : String) : Option Session := do
  let seat ← w.seats.get? name
  let family ← w.families[seat.family]?
  return ⟨w.engine, family, seat.stack⟩

/-- Take over the engine and the family of a session. -/
def adopt (w : Workspace) (s : Session) : Workspace :=
  { w with
    engine := s.engine
    families := w.families.setIfInBounds s.family.root s.family }

/-- Let a name stand for a stack. -/
def seat (w : Workspace) (name : String) (family : Nat) (stack : Stack) : Workspace :=
  { w with seats := w.seats.insert name ⟨family, stack⟩ }

/-- The workspace after a session has moved on. -/
def put (w : Workspace) (name : String) (s : Session) : Workspace :=
  (w.adopt s).seat name s.family.root s.stack

/-- End a stack, if there is one of this name. -/
def finish (w : Workspace) (name : String) : Workspace :=
  match w.session? name with
  | some s => { w.adopt s.close with seats := w.seats.erase name }
  | none => w

/-- Start an empty stack in a new family. -/
def start (w : Workspace) (name : String) : Workspace :=
  let w := w.finish name
  let family := w.families.size
  { w with families := w.families.push (.new family w.engine.limits) }.seat name family {}

/-- Branch a session off and give the branch a name. -/
def branch (w : Workspace) (s : Session) (sharing : Bool) (name : String) : Workspace :=
  let branched := s.branch sharing
  ((w.adopt branched).finish name).seat name branched.family.root branched.stack

/-- End all stacks. -/
def finishAll (w : Workspace) : Workspace :=
  w.seats.entries.foldl (fun w (name, _) => w.finish name) w

end Workspace

end KeepTree
