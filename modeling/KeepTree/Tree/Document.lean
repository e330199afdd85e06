import KeepTree.Tree
import KeepTree.Value.Document

/-!
# Definition trees as JSON

A forest is written as an object with the field `definitions`. Records may have further fields,
which are not read, and may be written as arrays of their fields in order. Every reader takes the
number of arrays and objects that may still nest.
-/

namespace KeepTree

/-! ## 1. Calls and arguments -/

mutual
/-- A call: a name, and perhaps arguments. -/
def Call.ofJson? : Nat → Json → Option Call
  | 0, _ => none
  | depth + 1, json => do
    let r ← json.record? ["name", "args"]
    let name ← r.required "name" Json.string?
    let arguments ← r.optional "args" [] (Argument.listOfJson? depth)
    return ⟨name, arguments⟩

/-- A list of arguments. -/
def Argument.listOfJson? : Nat → Json → Option (List Argument)
  | depth + 1, .array items => items.mapM (Argument.ofJson? depth)
  | _, _ => none

/-- An argument: an object with a call under `ref`, or a value. All of an argument is read. -/
def Argument.ofJson? : Nat → Json → Option Argument
  | depth + 1, .object members =>
    if (Json.object members).fits (depth + 1) then
      match members.filter (·.1 == "ref") with
      | [(_, call)] => (Call.ofJson? depth call).map Call.toArgument
      | _ => none
    else none
  | depth, json => (Value.ofJson? depth json).map .value
end

mutual
/-- The document of an argument. -/
def Argument.toJson : Argument → Json
  | .value v => v.toJson
  | .call name arguments =>
    .object [("ref", .object [("name", .string name), ("args", .array (toJsonAll arguments))])]
  | .missing => .object [("missing", .bool true)]

/-- The documents of several arguments. -/
def Argument.toJsonAll : List Argument → List Json
  | [] => []
  | a :: rest => a.toJson :: toJsonAll rest
end

/-- The document of a call. -/
def Call.toJson (call : Call) : Json :=
  .object [("name", .string call.name), ("args", .array (Argument.toJsonAll call.arguments))]

/-! ## 2. Bodies -/

mutual
/-- A body: a choice, with what belongs to it. -/
def Body.ofJson? : Nat → Json → Option Body
  | _, .string "empty" => some .empty
  | _, .string "super" => some .super
  | depth + 1, .object [(choice, content)] =>
    match choice with
    | "empty" => match content with
      | .null => some .empty
      | _ => none
    | "super" => match content with
      | .null => some .super
      | _ => none
    | "literal" => (Value.ofJson? depth content).map .literal
    | "ref" => (Call.ofJson? depth content).map .ref
    | "concat" => (Body.listOfJson? depth content).map .concat
    | "list" => (Body.listOfJson? depth content).map .list
    | "each" => Body.eachOfJson? depth content
    | "redirect" => if depth = 0 then none else do
      let r ← content.record? ["status", "location", "message"]
      let status ← r.required "status" (Json.natBelow? (Nat.pow 2 16))
      let location ← r.required "location" Json.string?
      let message ← r.optional "message" "" Json.string?
      return .redirect (UInt16.ofNat status) location message
    | _ => none
  | _, _ => none

/-- A list of bodies. -/
def Body.listOfJson? : Nat → Json → Option (List Body)
  | depth + 1, .array items => items.mapM (Body.ofJson? depth)
  | _, _ => none

/-- The parts of a loop. -/
def Body.eachOfJson? : Nat → Json → Option Body
  | 0, _ => none
  | depth + 1, json => do
    let r ← json.record? ["item", "over", "body"]
    let item ← r.required "item" Json.string?
    let range ← r.required "over" (Body.ofJson? depth)
    let body ← r.required "body" (Body.ofJson? depth)
    return .each item range body
end

mutual
/-- The document of a body. -/
def Body.toJson : Body → Json
  | .empty => .string "empty"
  | .literal value => .object [("literal", value.toJson)]
  | .ref call => .object [("ref", call.toJson)]
  | .concat parts => .object [("concat", .array (Body.toJsonAll parts))]
  | .list items => .object [("list", .array (Body.toJsonAll items))]
  | .each item range body =>
    .object [("each", .object [("item", .string item), ("over", range.toJson),
      ("body", body.toJson)])]
  | .super => .string "super"
  | .redirect status location message =>
    .object [("redirect", .object [("status", .int status.toNat), ("location", .string location),
      ("message", .string message)])]

/-- The documents of several bodies. -/
def Body.toJsonAll : List Body → List Json
  | [] => []
  | b :: rest => b.toJson :: toJsonAll rest
end

/-! ## 3. Declarations -/

/-- The names of access levels. -/
def Access.name : Access → String
  | .ownerOnly => "local"
  | .siteWide => "site"
  | .everywhere => "public"

def Access.ofName? : String → Option Access
  | "local" => some .ownerOnly
  | "site" => some .siteWide
  | "public" => some .everywhere
  | _ => none

/-- The names of durabilities. -/
def Durability.name : Durability → String
  | .dynamic => "dynamic"
  | .inContext => "in_context"
  | .global => "global"
  | .cosmic => "cosmic"
  | .static => "static"

def Durability.ofName? : String → Option Durability
  | "dynamic" => some .dynamic
  | "in_context" => some .inContext
  | "global" => some .global
  | "cosmic" => some .cosmic
  | "static" => some .static
  | _ => none

/-- A name alone, or as the only member of an object, with null. -/
def Json.nameChoice? {α : Type} (ofName? : String → Option α) (depth : Nat) (json : Json) :
    Option α :=
  match json with
  | .string name => ofName? name
  | .object [(name, .null)] => if depth = 0 then none else ofName? name
  | _ => none

/-- A list, if there may be one. -/
def Json.listWithin? {α : Type} (decode : Nat → Json → Option α) : Nat → Json → Option (List α)
  | depth + 1, .array items => items.mapM (decode depth)
  | _, _ => none

/-- A keep statement. -/
def Keep.ofJson? (depth : Nat) (json : Json) : Option Keep :=
  if depth = 0 then none else do
    let r ← json.record? ["target", "alias", "container"]
    let target ← r.required "target" Json.string?
    let aliasName ← r.optional "alias" none (Json.nullable? Json.string?)
    let container ← r.optional "container" none (Json.nullable? Json.string?)
    return ⟨target, aliasName, container⟩

/-- A text, or null for none. -/
def Json.ofText? : Option String → Json
  | some s => .string s
  | none => .null

/-- The document of a keep statement. -/
def Keep.toJson (keep : Keep) : Json :=
  .object [("target", .string keep.target), ("alias", Json.ofText? keep.aliasName),
    ("container", Json.ofText? keep.container)]

/-- The fields of a declaration, in order. -/
def Declaration.fields : List String :=
  ["name", "site", "access", "durability", "parameters", "extends", "keeps", "body", "children",
    "alias", "elements", "flavor_of"]

/-- What a record says about one definition; `depth` may still nest inside of the record. -/
def Declaration.ofRecord? (depth : Nat) (r : Json.Record) : Option Declaration := do
  let name ← r.required "name" Json.string?
  let site ← r.optional "site" false Json.bool?
  let access ← r.optional "access" .everywhere (Json.nameChoice? Access.ofName? depth)
  let durability ← r.optional "durability" .inContext (Json.nameChoice? Durability.ofName? depth)
  let parameters ← r.optional "parameters" []
    (Json.listWithin? (fun _ => Json.string?) depth)
  let superName ← r.optional "extends" none (Json.nullable? Json.string?)
  let keeps ← r.optional "keeps" [] (Json.listWithin? Keep.ofJson? depth)
  let body ← r.optional "body" .empty (Body.ofJson? depth)
  let target ← r.optional "alias" none (Json.nullable? (Call.ofJson? depth))
  let elements ← r.optional "elements" none
    (Json.nullable? (Json.listWithin? Call.ofJson? depth))
  let flavorOf ← r.optional "flavor_of" none (Json.nullable? Json.string?)
  return { name, site, access, durability, parameters, superName, keeps, body, target, elements,
           flavorOf }

mutual
/-- A declaration with its children. -/
def Tree.ofJson? : Nat → Json → Option Tree
  | 0, _ => none
  | depth + 1, json => do
    let r ← json.record? Declaration.fields
    let declaration ← Declaration.ofRecord? depth r
    let children ← r.optional "children" [] (Tree.listOfJson? depth)
    return .node declaration children

/-- A list of declarations. -/
def Tree.listOfJson? : Nat → Json → Option (List Tree)
  | depth + 1, .array items => items.mapM (Tree.ofJson? depth)
  | _, _ => none
end

mutual
/-- The document of a declaration with its children. Every field is written. -/
def Tree.toJson : Tree → Json
  | .node d children =>
    .object [("name", .string d.name), ("site", .bool d.site), ("access", .string d.access.name),
      ("durability", .string d.durability.name),
      ("parameters", .array (d.parameters.map .string)),
      ("extends", Json.ofText? d.superName), ("keeps", .array (d.keeps.map Keep.toJson)),
      ("body", d.body.toJson), ("children", .array (Tree.toJsonAll children)),
      ("alias", (d.target.map Call.toJson).getD .null),
      ("elements", (d.elements.map fun calls => .array (calls.map Call.toJson)).getD .null),
      ("flavor_of", Json.ofText? d.flavorOf)]

/-- The documents of several declarations. -/
def Tree.toJsonAll : List Tree → List Json
  | [] => []
  | tree :: rest => tree.toJson :: toJsonAll rest
end

/-! ## 4. Forests -/

/-- A forest. -/
def Forest.ofJson? (json : Json) : Option Forest := do
  let r ← json.record? ["definitions"]
  let trees ← r.required "definitions" (Tree.listOfJson? (maxNesting - 1))
  return ⟨trees⟩

/-- Read a forest from a text. -/
def Forest.read? (text : String) : Option Forest := (Json.read? text).bind Forest.ofJson?

/-- The document of a forest. -/
def Forest.toJson (forest : Forest) : Json :=
  .object [("definitions", .array (Tree.toJsonAll forest.trees))]

/-- Read a forest from a text and load it. -/
def Namespace.read (text : String) : Except LoadFault Namespace :=
  match Forest.read? text with
  | some forest => forest.load
  | none => .error .malformed

end KeepTree
