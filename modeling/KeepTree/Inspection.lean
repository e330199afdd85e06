import KeepTree.Frame
import KeepTree.Snapshot
import KeepTree.Tree.Document

/-!
# Looking inside

Documents that show the parts of an engine: entries, tables, frames, definitions and snapshots.
They are for people who look into it, and are not read back. Where definitions are shown by number
or by name, the caller says how.
-/

namespace KeepTree

/-- The document of something, or null for none. -/
def Json.ofOption {α : Type} (f : α → Json) : Option α → Json
  | some a => f a
  | none => .null

/-- The document of a number. -/
def Json.ofNat (n : Nat) : Json := .int n

/-- The document of a value that may be absent, which a null value is not. -/
def Value.toJson? : Option Value → Json := Json.ofOption fun v => .object [("value", v.toJson)]

/-- The document of a list of arguments. -/
def Argument.arrayOf (arguments : List Argument) : Json := .array (Argument.toJsonAll arguments)

/-- Members by name, each once: the last one given. -/
def Json.sortedMembers (members : List (String × Json)) : List (String × Json) :=
  (members.foldl (fun d (name, json) => d.insert name json) Dictionary.empty).entries

/-! ## 1. Tables -/

def Entry.inspect (showDef : DefId → Json) : Entry → Json
  | .value v => .object [("value", v.toJson)]
  | .holder h =>
    .object [("holder", .object [("def", showDef h.nominal),
      ("args", Argument.arrayOf h.nominalArguments), ("resolved", showDef h.resolved),
      ("resolved_args", Argument.arrayOf h.resolvedArguments), ("data", Value.toJson? h.data)])]
  | .element e =>
    .object [("element", .object [("collection", e.collection.toJson), ("index", .ofNat e.index)])]
  | .pointer p =>
    .object [("pointer", .object [("target", .string p.target.name),
      ("alias", .ofOption (fun b => .string b.name) p.aliasTarget), ("key", .string p.key),
      ("container", Json.ofText? p.container)])]

def Store.inspectTable (s : Store) (showDef : DefId → Json) (id : TableId) : Json :=
  .object ((s.table id).entries.map fun (key, entry) => (key, entry.inspect showDef))

/-! ## 2. Frames -/

def FrameId.inspect (id : FrameId) : Json := .array [.ofNat id.index, .ofNat id.generation]

/-- A frame with all its tables. Definitions are shown by number. -/
def Frame.inspect (store : Store) (f : Frame) : Json :=
  let number : Nat → Json := .ofNat
  .object [("def", number f.definition), ("super", .ofOption number f.continues),
    ("parameters", .array (f.parameters.map .string)), ("args", Argument.arrayOf f.arguments),
    ("cache", store.inspectTable number f.cache),
    ("keeps", .object ((store.keepMap f.keeps).entries.map fun (name, pointer) =>
      (name, (Entry.pointer pointer).inspect number))),
    ("tables", .object (f.containers.entries.map fun (name, id) =>
      (name, store.inspectTable number id))),
    ("has_site_cache", .bool f.siteTable.isSome), ("site", .ofOption number f.site),
    ("previous", .ofOption FrameId.inspect f.previous), ("refs", number f.links),
    ("pins", number f.pins), ("loop", .ofOption number f.iteration),
    ("generator", number f.nextIteration), ("state", number f.state)]

/-! ## 3. Definitions -/

def Kind.inspect : Kind → Json
  | .plain => .string "plain"
  | .site => .string "site"
  | .collection elements => .object [("collection", .array (elements.map Call.toJson))]
  | .aliasOf target => .object [("alias", target.toJson)]
  | .elementRef name index =>
    .object [("element_ref", .object [("collection", .string name), ("index", .ofNat index)])]
  | .flavor id => .object [("flavor", .ofNat id)]
  | .typeWrapper id => .object [("type_wrapper", .ofNat id)]
  | .collectionElement call => .object [("collection_element", call.toJson)]

/-- How access is labelled in listings. -/
def Access.label : Access → String
  | .ownerOnly => "Local"
  | .siteWide => "Site"
  | .everywhere => "Public"

def Definition.inspect (id : DefId) (d : Definition) : Json :=
  let number : Nat → Json := .ofNat
  .object [("id", .string ("#" ++ Nat.repr id)), ("name", .string d.name),
    ("full_name", .string d.fullName), ("access", .string d.access.label),
    ("durability", .string d.durability.label), ("global", .bool d.isGlobal),
    ("site_kind", .bool d.isSite), ("indirect", .bool d.kind.isIndirect),
    ("kind", d.kind.inspect), ("owner", .ofOption number d.owner),
    ("site", .ofOption number d.site), ("super", .ofOption number d.superdefinition),
    ("parameters", .array (d.parameters.map .string)),
    ("children", .object (d.children.entries.map fun (name, id) => (name, number id))),
    ("keeps", .array (d.keeps.map Keep.toJson)), ("body", d.body.toJson)]

/-- All definitions, by number. -/
def Namespace.inspect (ns : Namespace) : Json :=
  .array (ns.definitions.toList.mapIdx Definition.inspect)

/-! ## 4. Snapshots and redirections -/

/-- The fields of a snapshot, with its size. -/
def Snapshot.inspect (s : Snapshot) : List (String × Json) :=
  [("version", .ofNat s.version.toNat),
    ("values", .object (s.values.entries.map fun (name, value) => (name, value.toJson))),
    ("len", .ofNat s.size), ("empty", .bool (s.size == 0))]

end KeepTree
