import KeepTree.Entry

/-!
# The store of tables

Frames, pointers and durable tables share their entries by naming tables of one `Store`. A table
is created empty and never goes away; two frames share a table when they name the same one. Next
to the tables stand the keep maps, which tell for each kept name where its value lives.

Main statements: a written slot reads as it was written, and every other slot of every table, and
every keep map, as before (`get?_write_self`, `get?_write_of_ne`, `pointer?_write`).
-/

namespace KeepTree

/-- Entries by key. -/
abbrev Table := Dictionary String Entry

/-- Pointers by kept name. -/
abbrev KeepMap := Dictionary String Pointer

/-- The identity of a keep map. -/
abbrev KeepMapId := Nat

/-- All tables and keep maps. -/
structure Store where
  tables : Array Table
  keepMaps : Array KeepMap

namespace Store

/-- The store without tables. -/
def empty : Store := ⟨#[], #[]⟩

instance : Inhabited Store := ⟨empty⟩

/-! ## 1. Tables -/

/-- The entries of a table. -/
def table (s : Store) (id : TableId) : Table := s.tables[id]?.getD .empty

/-- Create a table with these entries. -/
def newTable (s : Store) (entries : Table) : TableId × Store :=
  (s.tables.size, { s with tables := s.tables.push entries })

/-- The entry under `key`. -/
def get? (s : Store) (id : TableId) (key : String) : Option Entry := (s.table id).get? key

/-- Set the slot `key`. -/
def write (s : Store) (id : TableId) (key : String) (entry : Entry) : Store :=
  { s with tables := s.tables.modify id (·.insert key entry) }

/-- Create a copy of a table. -/
def copyTable (s : Store) (id : TableId) : TableId × Store := s.newTable (s.table id)

/-- Create a copy of each of the named tables. -/
def copyTables (s : Store) (named : Dictionary String TableId) :
    Dictionary String TableId × Store :=
  named.entries.foldl (fun (copies, s) (name, id) =>
    let (copy, s) := s.copyTable id
    (copies.insert name copy, s)) (.empty, s)

/-! ## 2. Keep maps -/

/-- The pointers of a keep map. -/
def keepMap (s : Store) (id : KeepMapId) : KeepMap := s.keepMaps[id]?.getD .empty

/-- Create a keep map with these pointers. -/
def newKeepMap (s : Store) (pointers : KeepMap) : KeepMapId × Store :=
  (s.keepMaps.size, { s with keepMaps := s.keepMaps.push pointers })

/-- The pointer of a kept name. -/
def pointer? (s : Store) (id : KeepMapId) (name : String) : Option Pointer :=
  (s.keepMap id).get? name

/-- Let `name` be kept where `pointer` says. -/
def keep (s : Store) (id : KeepMapId) (name : String) (pointer : Pointer) : Store :=
  { s with keepMaps := s.keepMaps.modify id (·.insert name pointer) }

/-! ## 3. What writing changes -/

theorem table_write_self (s : Store) {id : TableId} (h : id < s.tables.size) (key : String)
    (entry : Entry) : (s.write id key entry).table id = (s.table id).insert key entry := by
  rw [table, table, write, Array.getElem?_modify, if_pos rfl]
  simp [h]

theorem table_write_of_ne (s : Store) {id other : TableId} (h : other ≠ id) (key : String)
    (entry : Entry) : (s.write id key entry).table other = s.table other := by
  simp [table, write, Array.getElem?_modify, h.symm]

theorem get?_write_self (s : Store) {id : TableId} (h : id < s.tables.size) (key : String)
    (entry : Entry) : (s.write id key entry).get? id key = some entry := by
  simp [get?, table_write_self s h]

/-- **Writing a slot changes no other slot.** -/
theorem get?_write_of_ne (s : Store) {id other : TableId} {key otherKey : String}
    (h : other ≠ id ∨ otherKey ≠ key) (entry : Entry) :
    (s.write id key entry).get? other otherKey = s.get? other otherKey := by
  by_cases hid : other = id
  · subst hid
    have hkey : otherKey ≠ key := h.resolve_left (· rfl)
    by_cases hlt : other < s.tables.size
    · rw [get?, table_write_self s hlt, Dictionary.get?_insert_of_ne _ hkey]
      rfl
    · simp [get?, table, write, hlt]
  · rw [get?, table_write_of_ne s hid]
    rfl

theorem pointer?_write (s : Store) (id : TableId) (key : String) (entry : Entry)
    (keeps : KeepMapId) (name : String) :
    (s.write id key entry).pointer? keeps name = s.pointer? keeps name := rfl

end Store

end KeepTree
