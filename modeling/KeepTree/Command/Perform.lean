import KeepTree.Command
import KeepTree.Evaluation
import KeepTree.Limits.Document
import KeepTree.Snapshot
import KeepTree.Tree.Document

/-!
# Performing commands

A command is performed on what its files hold. The result is what it prints, and either a fault or
what it leaves behind: a text to be saved in a file, if any.
-/

namespace KeepTree

/-- What is found at a path. -/
inductive FileContent where
  | missing
  /-- There is something, but no text can be read from it. -/
  | unreadable
  | text (s : String)

/-- The text, if there is one. -/
def FileContent.text? : FileContent → Option String
  | .text s => some s
  | _ => none

/-- What is found at each path. -/
abbrev Files := String → FileContent

/-- Why a command fails. -/
inductive CommandFault where
  | unreadableTree (path : String)
  | unusableConfig (path : String)
  | unreadableState (path : String)
  | unwritableState (path : String)
  | unusableTree (fault : LoadFault)
  /-- The state is no snapshot. -/
  | malformedState
  | unknownDefinition (name path : String)
  | evaluation (fault : EvalFault)
  /-- The evaluation had too little fuel. -/
  | unfinished
  deriving DecidableEq

def CommandFault.message : CommandFault → String
  | .unreadableTree path => "reading " ++ path
  | .unusableConfig path => "loading config " ++ path
  | .unreadableState path => "reading state " ++ path
  | .unwritableState path => "writing state " ++ path
  | .unusableTree fault => fault.message
  | .malformedState => "invalid state"
  | .unknownDefinition name path => "no definition named `" ++ name ++ "` in " ++ path
  | .evaluation fault => fault.message
  | .unfinished => "evaluation did not finish"

/-- A text to be saved at a path. -/
structure Saving where
  path : String
  text : String

/-- What a command prints, and how it ends. -/
structure Report where
  output : String := ""
  notes : String := ""
  result : Except CommandFault (Option Saving)

namespace Report

/-- A command that ends at once with a fault. -/
def failed (fault : CommandFault) : Report := { result := .error fault }

/-- Put printed text in front. -/
def after (output notes : String) (r : Report) : Report :=
  { r with output := output ++ r.output, notes := notes ++ r.notes }

end Report

namespace Command

/-! ## 1. Files -/

/-- The namespace of the tree in a file. -/
def loadTree (files : Files) (path : String) : Except CommandFault Namespace :=
  match (files path).text? with
  | none => .error (.unreadableTree path)
  | some text =>
    match Namespace.read text with
    | .ok ns => .ok ns
    | .error fault => .error (.unusableTree fault)

/-- The limits in a file, or the usual ones. -/
def loadLimits (files : Files) : Option String → Except CommandFault Limits
  | none => .ok {}
  | some path =>
    match (files path).text? with
    | none => .error (.unusableConfig path)
    | some text =>
      match Limits.read text with
      | .ok limits => .ok limits
      | .error _ => .error (.unusableConfig path)

/-- Restore the state in a file, if there is one; what to say about it. -/
def loadState (files : Files) (e : Engine) : Option String → Except CommandFault (String × Engine)
  | none => .ok ("", e)
  | some path =>
    match files path with
    | .missing => .ok ("", e)
    | .unreadable => .error (.unreadableState path)
    | .text text =>
      match Snapshot.read? text with
      | none => .error .malformedState
      | some snapshot =>
        match e.restore snapshot with
        | (.error gap, _) => .error (.evaluation (.stack (.danglingReference gap)))
        | (.ok restored, e) =>
          .ok ("Restored " ++ Nat.repr restored ++ " kept values from " ++ path ++ "\n", e)

/-! ## 2. Requests -/

/-- The line that tells of a redirection. -/
def redirectionLine (r : Redirection) : String := r.toJson.compact ++ "\n"

/-- Push the frame of the site that a definition belongs to, unless it is the site. -/
def enterSite (s : Session) (id : DefId) : Except Fault Unit × Session :=
  match (s.ns.get? id).bind (·.site) with
  | some site => if site = id then (.ok (), s) else s.push site [] true
  | none => (.ok (), s)

/-- One request on a stack of its own: the value or the redirection, and the engine after it. -/
def request (e : Engine) (index : Nat) (id : DefId) :
    Except CommandFault ((Value ⊕ Redirection) × Engine) :=
  match enterSite ⟨e, .new index e.limits, {}⟩ id with
  | (.error fault, _) => .error (.evaluation (.stack fault))
  | (.ok (), s) =>
    match Run.evaluateDefinition ⟨s, {}⟩ id with
    | none => .error .unfinished
    | some (.ok value, run) => .ok (.inl value, run.session.close.engine)
    | some (.error fault, run) =>
      match fault with
      | .stack inner =>
        match inner.toRedirection? with
        | some r => .ok (.inr r, run.session.close.engine)
        | none => .error (.evaluation fault)
      | fault => .error (.evaluation fault)

/-- What a request prints. Only the first one prints its value. -/
def requestLine (index : Nat) : Value ⊕ Redirection → String
  | .inl value => if index = 0 then value.toJson.pretty ++ "\n" else ""
  | .inr r => redirectionLine r

/-- So many requests, the first of them numbered `index`, one after the other; what they print. -/
def requests (id : DefId) : Nat → Nat → Engine → String × Except CommandFault Engine
  | _, 0, e => ("", .ok e)
  | index, n + 1, e =>
    match request e index id with
    | .error fault => ("", .error fault)
    | .ok (answer, e) =>
      let (output, result) := requests id (index + 1) n e
      (requestLine index answer ++ output, result)

/-! ## 3. Commands -/

/-- Evaluate a definition. -/
def performEval (files : Files) (o : EvalOptions) : Report :=
  match loadLimits files o.config with
  | .error fault => .failed fault
  | .ok limits =>
    match loadTree files o.tree with
    | .error fault => .failed fault
    | .ok ns =>
      match ns.lookup o.name with
      | .error _ | .ok none => .failed (.unknownDefinition o.name o.tree)
      | .ok (some id) =>
        match loadState files (.new ns limits) o.state with
        | .error fault => .failed fault
        | .ok (note, e) =>
          match requests id 0 (max o.requests 1) e with
          | (output, .error fault) => (Report.failed fault).after output note
          | (output, .ok e) =>
            { output
              notes := note ++ e.counters.toJson.pretty ++ "\n"
              result := .ok (o.state.map fun path => ⟨path, e.snapshot.write⟩) }

/-- The line of a definition in a listing. -/
def definitionLine (d : Definition) : String :=
  let keeps := d.keeps.map (·.target)
  d.fullName ++ " (" ++ d.durability.label ++ ")" ++
    (if keeps.isEmpty then "" else " keeps " ++ ", ".intercalate keeps) ++ "\n"

/-- List the definitions of a tree. -/
def performCheck (files : Files) (tree : String) : Report :=
  match loadTree files tree with
  | .error fault => .failed fault
  | .ok ns =>
    { output := String.join (ns.definitions.toList.map definitionLine)
      notes := "OK: " ++ Nat.repr ns.size ++ " definitions\n"
      result := .ok none }

/-- The paths a command reads. -/
def paths : Command → List String
  | .eval o => o.tree :: o.config.toList ++ o.state.toList
  | .check tree => [tree]
  | .help _ => []

/-- Perform a command. -/
def perform (files : Files) : Command → Report
  | .eval o => performEval files o
  | .check tree => performCheck files tree
  | .help topic => { output := helpText topic, result := .ok none }

end Command

end KeepTree
