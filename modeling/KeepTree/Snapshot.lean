import KeepTree.Engine
import KeepTree.Value.Document

/-!
# Snapshots

A snapshot holds the values of the durable tables by name, so that a later engine can start warm:

* `Engine.snapshot` -- capture the durable values;
* `Engine.restore` -- put the values of a snapshot into the durable tables;
* `Snapshot.write`, `Snapshot.read?` -- the text of a snapshot.
-/

namespace KeepTree

/-- Durable values by name. -/
structure Snapshot where
  version : UInt32
  values : Dictionary String Value

namespace Snapshot

/-- The version that is written, and the only one that is restored. -/
def currentVersion : UInt32 := 1

/-- The snapshot without values. -/
def empty : Snapshot := ⟨currentVersion, .empty⟩

/-- The number of values. -/
def size (s : Snapshot) : Nat := s.values.size

/-! ## 1. Capturing and restoring -/

/-- Add an entry, unless it is of a single iteration or holds no value itself. -/
def captureEntry (s : Snapshot) (key : String) (entry : Entry) : Snapshot :=
  if DottedName.isLoopKey key then s
  else
    match entry.ownValue? with
    | some value => { s with values := s.values.insert key value }
    | none => s

/-- Add the entries of a table, over those of the same name. -/
def capture (s : Snapshot) (table : Table) : Snapshot :=
  table.entries.foldl (fun s (key, entry) => s.captureEntry key entry) s

/-! ## 2. Texts -/

/-- The document of a snapshot. -/
def toJson (s : Snapshot) : Json :=
  .object [("version", .int s.version.toNat),
    ("values", .object (s.values.entries.map fun (name, value) => (name, value.toJson)))]

/-- The text of a snapshot. -/
def write (s : Snapshot) : String := s.toJson.pretty

/-- The values by name; of values with one name the last. -/
def valuesOfJson? (depth : Nat) : Json → Option (Dictionary String Value)
  | .object members => do
    let named ← members.mapM fun (name, json) => (Value.ofJson? depth json).map (name, ·)
    return named.foldl (fun values (name, value) => values.insert name value) .empty
  | _ => none

/-- The snapshot that a document says. -/
def ofJson? (json : Json) : Option Snapshot := do
  let r ← json.record? ["version", "values"]
  let version ← r.required "version" (Json.natBelow? (Nat.pow 2 32))
  let values ← r.required "values" (valuesOfJson? (maxNesting - 2))
  return ⟨UInt32.ofNat version, values⟩

/-- Read a snapshot from a text. -/
def read? (text : String) : Option Snapshot := (Json.read? text).bind ofJson?

end Snapshot

namespace Engine

/-- The durable values: of the table for everything first, then of the sites in order. -/
def snapshot (e : Engine) : Snapshot :=
  (e.global :: e.sites.values).foldl (fun s id => s.capture (e.store.table id)) .empty

/-- Put a value where the definition of that name keeps its values, or else into the table for
    everything. -/
def restoreValue (e : Engine) (name : String) (value : Value) : Except Dangling Engine := do
  match ← e.ns.lookup name with
  | none => return e.withStore (e.store.write e.global name (.value value))
  | some id =>
    let d ← e.ns.find id
    let (table, e) := e.durableTable d
    return e.withStore (e.store.write table name (.holder (.of id [] (some value))))

/-- Put values into the durable tables. A dangling reference ends it; what was put before stays. -/
def restoreValues (e : Engine) : List (String × Value) → Except Dangling Unit × Engine
  | [] => (.ok (), e)
  | (name, value) :: rest =>
    match e.restoreValue name value with
    | .error gap => (.error gap, e)
    | .ok e => e.restoreValues rest

/-- Put all values of a snapshot of the current version into the durable tables; how many. -/
def restore (e : Engine) (s : Snapshot) : Except Dangling Nat × Engine :=
  if s.version = Snapshot.currentVersion then
    let (restored, e) := e.restoreValues s.values.entries
    (restored.map fun () => s.size, e)
  else (.ok 0, e)

end Engine

end KeepTree
