import KeepTree.Evaluation.Run
import KeepTree.Workspace

/-!
# Stacks as lists

What a workspace does can be told without pools and counts. A frame is a card with a number of its
own, a stack is a pile of cards, and a frame set aside goes with the pile it was taken from:

* `Face` -- what a frame is for;
* `Pile`, `Desk` -- one stack as a list, and named stacks as lists;
* `Pile.operate`, `Desk.act` -- the operations on lists.

Beside them stand the same operations on a session and on a workspace, `Session.operate` and
`Workspace.act`.
-/

namespace KeepTree

/-! ## 1. Operations -/

/-- An operation on one stack. -/
inductive Operation where
  | push (definition : DefId) (arguments : List Argument) (newCall : Bool)
  | pushCall (call : Call) (newCall : Bool)
  | pop
  | unpush
  | repush

/-- An action on named stacks. -/
inductive Action where
  | start (name : String)
  | finish (name : String)
  | operate (name : String) (operation : Operation)
  | branch (name : String) (sharing : Bool) (target : String)

/-- The names that an action may give another meaning. -/
def Action.target : Action → String
  | .start name | .finish name | .operate name _ => name
  | .branch _ _ target => target

/-- The result of a move that stays where it is if it fails. -/
def orStay {α : Type} (a : α) : Except Fault α → Except Fault Unit × α
  | .ok a' => (.ok (), a')
  | .error fault => (.error fault, a)

def Session.operate (s : Session) : Operation → Except Fault Unit × Session
  | .push definition arguments newCall => s.push definition arguments newCall
  | .pushCall call newCall =>
    let (pushed, s) := s.pushCall call newCall
    (pushed.map fun _ => (), s)
  | .pop => orStay s s.pop
  | .unpush => orStay s s.unpush
  | .repush => orStay s s.repush

/-- An action on a workspace, and how it comes out; nothing comes of an action on a stack that is
    not there. -/
def Workspace.act (w : Workspace) : Action → Option (Except Fault Unit) × Workspace
  | .start name => (some (.ok ()), w.start name)
  | .finish name => (some (.ok ()), w.finish name)
  | .operate name operation =>
    match w.session? name with
    | none => (none, w)
    | some s =>
      let (outcome, s) := s.operate operation
      (some outcome, w.put name s)
  | .branch name sharing target =>
    match w.session? name with
    | none => (none, w)
    | some s => (some (.ok ()), w.branch s sharing target)

/-- Actions one after the other. -/
def Workspace.run (w : Workspace) : List Action → List (Option (Except Fault Unit)) × Workspace
  | [] => ([], w)
  | action :: rest =>
    let (outcome, w) := w.act action
    let (outcomes, w) := w.run rest
    (outcome :: outcomes, w)

/-! ## 2. One stack as a list -/

/-- What a frame is for: its definition and arguments, the call it continues, and the number of the
    push that made it. -/
structure Face where
  definition : DefId
  arguments : List Argument
  continues : Option DefId
  state : Nat

/-- A frame on a list. The tag tells it from frames with the same face. -/
structure Card where
  tag : Nat
  face : Face

/-- A stack as a list, top first, and the frames set aside, each with the list below it. -/
structure Pile where
  cards : List Card := []
  stash : List (Card × List Card) := []

namespace Pile

def topDefinition? (p : Pile) : Option DefId := p.cards.head?.map (·.face.definition)

/-- What a push puts on top. -/
def preparePush (p : Pile) (ns : Namespace) (limits : Limits) (definition : DefId)
    (arguments : List Argument) : Except Fault (Bound × Definition) :=
  if limits.maxDepth ≤ p.cards.length then .error (.depthExceeded limits.maxDepth)
  else do
    let found ← ns.canonical ⟨definition, arguments⟩ p.topDefinition? limits.maxPointerHops
    match found.bind fun bound => (ns.get? bound.definition).map (bound, ·) with
    | none => .error (.nullDefinition (ns.fullName definition))
    | some prepared => .ok prepared

/-- A frame of the same definition and binding is on top, so that nothing is kept anew. -/
def continuesKeeps (p : Pile) (bound : Bound) : Bool :=
  p.cards.head?.any fun card =>
    card.face.definition == bound.definition &&
      (bound.arguments.all Argument.isMissing || sameArguments card.face.arguments bound.arguments)

/-- The names in the keep statements of a definition can be followed. -/
def followKeeps (ns : Namespace) (definition : DefId) : List Keep → Except Dangling Unit
  | [] => .ok ()
  | keep :: rest =>
    match Engine.keepTargets ns definition keep with
    | .error gap => .error gap
    | .ok _ => followKeeps ns definition rest

/-- Push a card; `clock` pushes came before. -/
def push (p : Pile) (ns : Namespace) (limits : Limits) (tag clock : Nat) (definition : DefId)
    (arguments : List Argument) (newCall : Bool) : Except Fault Unit × Pile × Nat :=
  match p.preparePush ns limits definition arguments with
  | .error fault => (.error fault, p, clock)
  | .ok (bound, d) =>
    let kept := if p.continuesKeeps bound then .ok () else followKeeps ns bound.definition d.keeps
    let continues := if newCall then none else some bound.definition
    let card := ⟨tag, ⟨bound.definition, bound.arguments, continues, clock + 1⟩⟩
    (Fault.ofWalk kept, { p with cards := card :: p.cards }, clock + 1)

def pushCall (p : Pile) (ns : Namespace) (limits : Limits) (tag clock : Nat) (call : Call)
    (newCall : Bool) : Except Fault Unit × Pile × Nat :=
  match ns.lookupFrom p.topDefinition? call.name with
  | .error gap => (.error (.danglingReference gap), p, clock)
  | .ok none => (.error (.undefinedDefinition call.name), p, clock)
  | .ok (some definition) => p.push ns limits tag clock definition call.arguments newCall

def pop (p : Pile) : Except Fault Pile :=
  match p.cards with
  | [] => .error .stackUnderflow
  | _ :: below => .ok { p with cards := below }

def unpush (p : Pile) : Except Fault Pile :=
  match p.cards with
  | [] => .error .stackUnderflow
  | card :: below => .ok ⟨below, (card, below) :: p.stash⟩

/-- Back onto the pile that the card was taken from, and onto no other. -/
def repush (p : Pile) : Except Fault Pile :=
  match p.stash with
  | [] => .error .nothingToRepush
  | (card, below) :: stash =>
    if below.map Card.tag = p.cards.map Card.tag then .ok ⟨card :: p.cards, stash⟩
    else .error (.repushMismatch ⟨card.tag, 0⟩)

/-- An operation on a list; what it makes gets the tag. -/
def operate (p : Pile) (ns : Namespace) (limits : Limits) (tag clock : Nat) :
    Operation → Except Fault Unit × Pile × Nat
  | .push definition arguments newCall =>
    p.push ns limits tag clock definition arguments newCall
  | .pushCall call newCall => p.pushCall ns limits tag clock call newCall
  | .pop => let (outcome, p) := orStay p p.pop; (outcome, p, clock)
  | .unpush => let (outcome, p) := orStay p p.unpush; (outcome, p, clock)
  | .repush => let (outcome, p) := orStay p p.repush; (outcome, p, clock)

/-- The same list with a copy of its top card, and nothing set aside. -/
def branch (p : Pile) (tag : Nat) : Pile :=
  match p.cards with
  | [] => {}
  | card :: below => { cards := ⟨tag, card.face⟩ :: below }

end Pile

/-! ## 3. Named stacks as lists -/

/-- Named lists. -/
structure Desk where
  /-- The number of pushes in each family. -/
  clocks : Array Nat := #[]
  /-- Tags below this one have been given out. -/
  made : Nat := 0
  /-- The lists, each with the number of its family. -/
  piles : Dictionary String (Nat × Pile) := .empty

namespace Desk

def act (d : Desk) (ns : Namespace) (limits : Limits) :
    Action → Option (Except Fault Unit) × Desk
  | .start name =>
    (some (.ok ()),
      { d with clocks := d.clocks.push 0, piles := d.piles.insert name (d.clocks.size, {}) })
  | .finish name => (some (.ok ()), { d with piles := d.piles.erase name })
  | .operate name operation =>
    match d.piles.get? name with
    | none => (none, d)
    | some (family, p) =>
      let (outcome, p, clock) := p.operate ns limits d.made (d.clocks[family]?.getD 0) operation
      (some outcome,
        { clocks := d.clocks.setIfInBounds family clock
          made := d.made + 1
          piles := d.piles.insert name (family, p) })
  | .branch name _ target =>
    match d.piles.get? name with
    | none => (none, d)
    | some (family, p) =>
      (some (.ok ()),
        { d with made := d.made + 1, piles := d.piles.insert target (family, p.branch d.made) })

def run (d : Desk) (ns : Namespace) (limits : Limits) :
    List Action → List (Option (Except Fault Unit)) × Desk
  | [] => ([], d)
  | action :: rest =>
    let (outcome, d) := d.act ns limits action
    let (outcomes, d) := d.run ns limits rest
    (outcome :: outcomes, d)

/-- **An action leaves all lists but its target's as they are.** -/
theorem act_piles_of_ne (d : Desk) (ns : Namespace) (limits : Limits) (action : Action)
    {name : String} (h : name ≠ action.target) :
    (d.act ns limits action).2.piles.get? name = d.piles.get? name := by
  cases action with
  | start target => exact d.piles.get?_insert_of_ne h _
  | finish target => exact d.piles.get?_erase_of_ne h
  | operate target op =>
    simp only [act]
    split
    · rfl
    · exact d.piles.get?_insert_of_ne h _
  | branch source sharing target =>
    simp only [act]
    split
    · rfl
    · exact d.piles.get?_insert_of_ne h _

end Desk

end KeepTree
