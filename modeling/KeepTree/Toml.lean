/-!
# TOML tables

A settings text names keys, tables and arrays of tables. Of its values only whole numbers and truth
values matter here; any other value is just there. This file holds the rules by which the parts of
a text add up to one table:

* `Table.within` -- go down a path, creating tables on the way;
* `Table.addPairs` -- the keys under one header;
* `Table.addSection` -- a header with the keys under it.

Nothing may be defined twice. A table that was only passed through on the way to another may still
get its own header; one that came from a dotted key may only get further dotted keys.
-/

namespace KeepTree.Toml

mutual
/-- What stands under a key. -/
inductive Node where
  | integer (n : Int)
  | boolean (b : Bool)
  /-- Any other value: a text, a date, an array, a table in braces. -/
  | other
  | table (t : Table)
  /-- An array of tables, the last one first. -/
  | tables (last : Table) (before : List Table)

/-- A table, with how it came about. -/
inductive Table where
  /-- `passed`: without header of its own; `dotted`: from a dotted key. -/
  | mk (passed dotted : Bool) (entries : List (String × Node))
end

namespace Table

def passed : Table → Bool
  | mk passed _ _ => passed

def dotted : Table → Bool
  | mk _ dotted _ => dotted

def entries : Table → List (String × Node)
  | mk _ _ entries => entries

/-- A table under a header. -/
def empty : Table := mk false false []

instance : Inhabited Table := ⟨empty⟩

/-- A table on the way to another. -/
def onTheWay (dotted : Bool) : Table := mk true dotted []

def get? (t : Table) (key : String) : Option Node := t.entries.lookup key

/-- Put a node under a key, in place of any other. -/
def set (t : Table) (key : String) (node : Node) : Table :=
  mk t.passed t.dotted ((key, node) :: t.entries.filter (·.1 != key))

/-- Change the table at the end of a path. Dotted keys go only through tables without header; in an
    array of tables the way goes through the last. -/
def within (byDots : Bool) (change : Table → Option Table) : List String → Table → Option Table
  | [], t => change t
  | key :: path, t =>
    match t.get? key with
    | none => (within byDots change path (onTheWay byDots)).map fun u => t.set key (.table u)
    | some (.table u) =>
      if byDots && !u.passed then none
      else (within byDots change path u).map fun u => t.set key (.table u)
    | some (.tables last before) =>
      (within byDots change path last).map fun u => t.set key (.tables u before)
    | some _ => none

/-- Set a key that must be new. A table at the end of a dotted path must be a dotted one. -/
def addPair (t : Table) (path : List String) (key : String) (node : Node) : Option Table :=
  t.within true (fun u =>
    if u.dotted == path.isEmpty || (u.get? key).isSome then none else some (u.set key node)) path

/-- Set keys in turn. -/
def addPairs (t : Table) : List (List String × String × Node) → Option Table
  | [] => some t
  | (path, key, node) :: rest => (t.addPair path key node).bind (·.addPairs rest)

end Table

/-- A header, or the start of a text, with the keys under it. -/
structure Section where
  /-- The path before the last key of the header, and that key; none at the start of a text. -/
  header : Option (List String × String)
  /-- The header adds to an array of tables. -/
  many : Bool
  pairs : List (List String × String × Node)

namespace Table

/-- Add a section. -/
def addSection (root : Table) (s : Section) : Option Table :=
  match s.header with
  | none => root.addPairs s.pairs
  | some (path, key) =>
    root.within false (fun parent =>
      match s.many, parent.get? key with
      | false, none => (empty.addPairs s.pairs).map fun t => parent.set key (.table t)
      | false, some (.table t) =>
        if t.passed && !t.dotted then
          ((mk false false t.entries).addPairs s.pairs).map fun t => parent.set key (.table t)
        else none
      | true, none => (empty.addPairs s.pairs).map fun t => parent.set key (.tables t [])
      | true, some (.tables last before) =>
        (empty.addPairs s.pairs).map fun t => parent.set key (.tables t (last :: before))
      | _, _ => none) path

/-- Add sections in turn. -/
def addSections (root : Table) : List Section → Option Table
  | [] => some root
  | s :: rest => (root.addSection s).bind (·.addSections rest)

end Table

end KeepTree.Toml
