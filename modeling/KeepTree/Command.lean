/-!
# The command line

Two commands work on a definition tree in a file: `eval` evaluates a definition, once or several
times, and `check` lists the definitions. This file reads the arguments into a `Command`:

* arguments are read from left to right, and the first that does not fit decides;
* a request for help counts where it stands, before anything that comes after it;
* after `--` everything is an operand.
-/

namespace KeepTree

/-- What to evaluate, and how. -/
structure EvalOptions where
  /-- The file of the tree. -/
  tree : String
  /-- The full name of the definition. -/
  name : String
  /-- The number of requests. -/
  requests : Nat
  /-- The file of the limits. -/
  config : Option String
  /-- The file that durable values are taken from and left in. -/
  state : Option String

/-- What help is asked for. -/
inductive Topic where
  | overview
  | eval
  | check
  | help
  deriving DecidableEq

/-- What the program is asked to do. -/
inductive Command where
  | eval (options : EvalOptions)
  | check (tree : String)
  | help (topic : Topic)

/-- Why the arguments cannot be read. -/
inductive UsageFault where
  | missingCommand
  | unknownCommand (name : String)
  | unexpected (argument : String)
  | missingValue (option : String)
  | invalidValue (option value : String)
  | repeated (option : String)
  | missingOperand
  deriving DecidableEq

def UsageFault.message : UsageFault → String
  | .missingCommand => "a command is required"
  | .unknownCommand name => "unrecognized subcommand '" ++ name ++ "'"
  | .unexpected argument => "unexpected argument '" ++ argument ++ "' found"
  | .missingValue option => "a value is required for '" ++ option ++ "' but none was supplied"
  | .invalidValue option value => "invalid value '" ++ value ++ "' for '" ++ option ++ "'"
  | .repeated option => "the argument '" ++ option ++ "' cannot be used multiple times"
  | .missingOperand => "a required argument was not provided"

namespace Command

/-! ## 1. Arguments -/

/-- The form of an argument. -/
inductive Form where
  /-- `--`: only operands follow. -/
  | separator
  /-- `--name` or `--name=value`. -/
  | long (name : String) (value : Option String)
  /-- `-x`, with its first letter. -/
  | short (letter : Char)
  | operand (text : String)

/-- The form of an argument. A single dash is an operand. -/
def formOf (argument : String) : Form :=
  match argument.toList with
  | ['-', '-'] => .separator
  | '-' :: '-' :: rest =>
    let name := String.ofList (rest.takeWhile (· != '='))
    match rest.dropWhile (· != '=') with
    | _ :: value => .long name (some (String.ofList value))
    | [] => .long name none
  | '-' :: letter :: _ => .short letter
  | _ => .operand argument

/-- An argument that can be the value of an option. -/
def asValue? (argument : String) : Option String :=
  match formOf argument with
  | .operand text => some text
  | _ => none

/-- The natural number that digits write. -/
def natural? (digits : List Char) : Option Nat :=
  if digits.isEmpty || !digits.all Char.isDigit then none
  else some (digits.foldl (fun n c => n * 10 + (c.toNat - '0'.toNat)) 0)

/-- A number of requests, below `2 ^ 32`. A sign may stand before it. -/
def count? (text : String) : Option Nat :=
  let number := match text.toList with
    | '+' :: digits => natural? digits
    | '-' :: digits => (natural? digits).filter (· == 0)
    | digits => natural? digits
  number.filter (· < Nat.pow 2 32)

/-! ## 2. The arguments of `eval` -/

/-- What was read so far. -/
structure EvalArguments where
  operands : List String := []
  requests : Option Nat := none
  config : Option String := none
  state : Option String := none

namespace EvalArguments

/-- A further operand. The first is the path of the tree, which cannot be empty. -/
def addOperand (a : EvalArguments) (text : String) : Except UsageFault EvalArguments :=
  match a.operands with
  | [] =>
    if text.isEmpty then .error (.missingValue "<TREE>") else .ok { a with operands := [text] }
  | [tree] => .ok { a with operands := [tree, text] }
  | _ => .error (.unexpected text)

/-- The value of an option, which must be new. A path cannot be empty. -/
def setOption (a : EvalArguments) (name value : String) : Except UsageFault EvalArguments :=
  let path (old : Option String) (new : Option String → EvalArguments) :
      Except UsageFault EvalArguments :=
    if old.isSome then .error (.repeated name)
    else if value.isEmpty then .error (.missingValue name)
    else .ok (new (some value))
  match name with
  | "config" => path a.config fun config => { a with config }
  | "state" => path a.state fun state => { a with state }
  | _ =>
    if a.requests.isSome then .error (.repeated name)
    else
      match count? value with
      | some n => .ok { a with requests := some n }
      | none => .error (.invalidValue name value)

/-- The command, if nothing is missing. -/
def finish (a : EvalArguments) : Except UsageFault Command :=
  match a.operands with
  | [tree, name] => .ok (.eval ⟨tree, name, a.requests.getD 1, a.config, a.state⟩)
  | _ => .error .missingOperand

end EvalArguments

/-- The options of `eval`. -/
def evalOptions : List String := ["repeat", "config", "state"]

/-- Operands only. -/
def evalOperands (a : EvalArguments) : List String → Except UsageFault Command
  | [] => a.finish
  | text :: rest => (a.addOperand text).bind (evalOperands · rest)

/-- The arguments after `eval`. -/
def readEval (a : EvalArguments) : List String → Except UsageFault Command
  | [] => a.finish
  | argument :: rest =>
    match formOf argument with
    | .separator => evalOperands a rest
    | .operand text => (a.addOperand text).bind (readEval · rest)
    | .short letter => if letter = 'h' then .ok (.help .eval) else .error (.unexpected argument)
    | .long "help" none => .ok (.help .eval)
    | .long name attached =>
      if evalOptions.contains name then
        match attached, rest with
        | some value, rest => (a.setOption name value).bind (readEval · rest)
        | none, next :: rest =>
          match asValue? next with
          | some value => (a.setOption name value).bind (readEval · rest)
          | none => .error (.missingValue name)
        | none, [] => .error (.missingValue name)
      else .error (.unexpected argument)

/-! ## 3. The other commands -/

/-- The operand of `check`, and nothing more. -/
def checkOperands (tree : Option String) : List String → Except UsageFault Command
  | [] =>
    match tree with
    | some tree => .ok (.check tree)
    | none => .error .missingOperand
  | text :: rest =>
    match tree with
    | some _ => .error (.unexpected text)
    | none =>
      if text.isEmpty then .error (.missingValue "<TREE>") else checkOperands (some text) rest

/-- The arguments after `check`. -/
def readCheck (tree : Option String) : List String → Except UsageFault Command
  | [] => checkOperands tree []
  | argument :: rest =>
    match formOf argument with
    | .separator => checkOperands tree rest
    | .operand text =>
      match tree with
      | some _ => .error (.unexpected text)
      | none =>
        if text.isEmpty then .error (.missingValue "<TREE>") else readCheck (some text) rest
    | .short letter => if letter = 'h' then .ok (.help .check) else .error (.unexpected argument)
    | .long "help" none => .ok (.help .check)
    | .long _ _ => .error (.unexpected argument)

/-- The arguments after `help`: a command, and nothing more. -/
def readHelp : List String → Except UsageFault Command
  | [] => .ok (.help .overview)
  | name :: rest =>
    let topic? : Option Topic := match name with
      | "eval" => some .eval
      | "check" => some .check
      | "help" => some .help
      | _ => none
    match topic?, rest with
    | some topic, [] => .ok (.help topic)
    | some _, extra :: _ => .error (.unknownCommand extra)
    | none, _ => .error (.unknownCommand name)

/-- The command that arguments ask for. -/
def read : List String → Except UsageFault Command
  | [] => .error .missingCommand
  | "eval" :: rest => readEval {} rest
  | "check" :: rest => readCheck none rest
  | "help" :: rest => readHelp rest
  | argument :: _ =>
    match formOf argument with
    | .short letter =>
      if letter = 'h' then .ok (.help .overview) else .error (.unexpected argument)
    | .long "help" none => .ok (.help .overview)
    | .long _ _ | .separator => .error (.unexpected argument)
    | .operand text => .error (.unknownCommand text)

/-! ## 4. Help -/

/-- The help text of a topic. -/
def helpText : Topic → String
  | .overview =>
    "Evaluate definition trees with keep-directive caching\n\n" ++
    "Usage: keepsake <COMMAND>\n\n" ++
    "Commands:\n" ++
    "  eval   Evaluate a definition of a tree\n" ++
    "  check  Check that a tree loads, and list its definitions\n" ++
    "  help   Print this message or the help of the given subcommand(s)\n\n" ++
    "Options:\n" ++
    "  -h, --help  Print help\n"
  | .eval =>
    "Evaluate a definition of a tree\n\n" ++
    "Usage: keepsake eval [OPTIONS] <TREE> <NAME>\n\n" ++
    "Arguments:\n" ++
    "  <TREE>  Path to the definition tree (.json)\n" ++
    "  <NAME>  Fully-qualified name of the definition to evaluate\n\n" ++
    "Options:\n" ++
    "      --repeat <REPEAT>  Number of requests to run, each with a fresh context " ++
    "[default: 1]\n" ++
    "      --config <CONFIG>  Engine configuration (.toml)\n" ++
    "      --state <STATE>    State file for durable keeps (load on start, save on exit)\n" ++
    "  -h, --help             Print help\n"
  | .check =>
    "Check that a tree loads, and list its definitions\n\n" ++
    "Usage: keepsake check <TREE>\n\n" ++
    "Arguments:\n" ++
    "  <TREE>  Path to the definition tree (.json)\n\n" ++
    "Options:\n" ++
    "  -h, --help  Print help\n"
  | .help =>
    "Print this message or the help of the given subcommand(s)\n\n" ++
    "Usage: keepsake help [COMMAND]...\n\n" ++
    "Arguments:\n" ++
    "  [COMMAND]...  Print help for the subcommand(s)\n"

end Command

end KeepTree
