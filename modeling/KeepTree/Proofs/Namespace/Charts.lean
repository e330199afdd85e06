import KeepTree.Proofs.Namespace.Declarations
import KeepTree.Proofs.Namespace.Words

/-!
# The chart of a tree

When a forest is declared, every declaration gets a number, and children and names at the top level are
found by these numbers. The chart of a forest is the list of its declarations with their paths, in the
order of their numbers; it tells what a declared name means without any numbers:

* `declared_charted` -- **a namespace that was declared is charted by its forest**.
-/

namespace KeepTree

open DottedName KeepTree.Tree List Option

variable {id : DefId} {path above : List String} {owner : Option DefId} {trees : List Tree}
  {entries : Dictionary String DefId} {d : Declaration} {found : Definition}

/-! ## 1. Paths -/

namespace DottedName

/-- The full name at the end of a path. -/
def ofPath : List String → String
  | [] => ""
  | first :: rest => rest.foldl join first

theorem ofPath_append (h : path ≠ []) (name : String) :
    ofPath (path ++ [name]) = join (ofPath path) name := by
  cases path with
  | nil => exact absurd rfl h
  | cons first rest =>
    rw [cons_append, ofPath, foldl_append]
    rfl

theorem splitDots_append_dot (left right : List Char) :
    splitDots (left ++ '.' :: right) = splitDots left ++ splitDots right := by
  induction left with
  | nil => rfl
  | cons c rest ih =>
    rw [cons_append, splitDots, splitDots, ih]
    split
    · rfl
    · obtain ⟨parts, hparts⟩ := splitDots_eq rest
      rw [hparts]
      rfl

theorem segments_join (owner child : String) :
    segments (join owner child) = segments owner ++ segments child := by
  have hdot : ".".toList = ['.'] := rfl
  rw [segments, join, String.toList_append, String.toList_append, hdot, append_assoc,
    singleton_append, splitDots_append_dot, map_append]
  rfl

theorem segments_eq_singleton {name : String} (h : isDotted name = false) :
    segments name = [name] := by
  have hparts : ∀ text : List Char, '.' ∉ text → splitDots text = [text] := by
    intro text htext
    induction text with
    | nil => rfl
    | cons c rest ih =>
      rw [mem_cons, not_or] at htext
      obtain ⟨hc, hrest⟩ := htext
      rw [splitDots, if_neg (Ne.symm hc), ih hrest]
  rw [isDotted, contains_eq_mem, decide_eq_false_iff_not] at h
  rw [segments, hparts _ h, map_singleton, String.ofList_toList]

/-- **A full name tells its path**, if no part of it is dotted. -/
theorem segments_ofPath (hne : path ≠ []) (h : ∀ name ∈ path, isDotted name = false) :
    segments (ofPath path) = path := by
  have hfold : ∀ (rest : List String) (first : String), (∀ name ∈ rest, isDotted name = false) →
      segments (rest.foldl join first) = segments first ++ rest := by
    intro rest
    induction rest with
    | nil => exact fun first _ => (append_nil _).symm
    | cons name rest ih =>
      intro first hrest
      obtain ⟨hname, hrest⟩ := forall_mem_cons.mp hrest
      rw [foldl_cons, ih _ hrest, segments_join, segments_eq_singleton hname, append_assoc]
      rfl
  cases path with
  | nil => exact absurd rfl hne
  | cons first rest =>
    obtain ⟨hfst, hrest⟩ := forall_mem_cons.mp h
    rw [ofPath, hfold rest first hrest, segments_eq_singleton hfst]
    rfl

end DottedName

/-! ## 2. Charts -/

/-- A declaration and its path. -/
structure Row where
  path : List String
  declaration : Declaration

namespace Tree

def name : Tree → String
  | .node declaration _ => declaration.name

mutual
/-- The declarations of a tree, each before those inside it. -/
def rows (above : List String) : Tree → List Row
  | .node declaration children =>
    ⟨above ++ [declaration.name], declaration⟩ :: allRows (above ++ [declaration.name]) children

/-- The declarations of several trees. -/
def allRows (above : List String) : List Tree → List Row
  | [] => []
  | tree :: rest => tree.rows above ++ allRows above rest
end

mutual
/-- No name inside the tree is dotted, and no two siblings have the same name. -/
def separate : Tree → Bool
  | .node _ children => allSeparate children

/-- No name is dotted, and no two siblings have the same name. -/
def allSeparate : List Tree → Bool
  | [] => true
  | tree :: rest =>
    !DottedName.isDotted tree.name && rest.all (·.name != tree.name) && tree.separate &&
      allSeparate rest
end

/-- The same trees with siblings in another order, at any level. -/
inductive Reordered : List Tree → List Tree → Prop
  | nil : Reordered [] []
  | cons (declaration : Declaration) {children children' rest rest' : List Tree} :
      Reordered children children' → Reordered rest rest' →
      Reordered (.node declaration children :: rest) (.node declaration children' :: rest')
  | swap (first second : Tree) (rest : List Tree) :
      Reordered (first :: second :: rest) (second :: first :: rest)
  | trans {trees trees' trees'' : List Tree} : Reordered trees trees' → Reordered trees' trees'' →
      Reordered trees trees''

/-- **Siblings in another order have the same chart but for its order.** -/
theorem Reordered.rows_perm {trees' : List Tree} (h : Reordered trees trees') (above : List String) :
    (allRows above trees).Perm (allRows above trees') := by
  induction h generalizing above with
  | nil => exact .nil
  | cons decl _ _ ihchildren ihrest =>
    exact ((ihchildren _).cons _).append (ihrest above)
  | swap first second rest =>
    simp only [allRows, ← append_assoc]
    exact perm_append_comm.append_right _
  | trans _ _ ih ih' => exact (ih above).trans (ih' above)

mutual
theorem rows_below (above : List String) : ∀ (tree : Tree), ∀ row ∈ tree.rows above,
    ∃ rest, row.path = above ++ tree.name :: rest
  | .node decl children, row, hmem => by
    rcases mem_cons.mp hmem with rfl | hmem
    · exact ⟨[], rfl⟩
    · obtain ⟨tree, _, rest, hpath⟩ := allRows_below _ children row hmem
      exact ⟨tree.name :: rest, by rw [hpath, append_assoc]; rfl⟩

theorem allRows_below (above : List String) : ∀ (trees : List Tree), ∀ row ∈ allRows above trees,
    ∃ tree ∈ trees, ∃ rest, row.path = above ++ tree.name :: rest
  | [], _, hmem => by cases hmem
  | tree :: rest, row, hmem => by
    rcases mem_append.mp hmem with hmem | hmem
    · exact ⟨tree, mem_cons_self, rows_below above tree row hmem⟩
    · obtain ⟨other, hoth, hpath⟩ := allRows_below above rest row hmem
      exact ⟨other, mem_cons_of_mem _ hoth, hpath⟩
end

mutual
theorem rows_nodup (above : List String) : ∀ (tree : Tree), tree.separate = true →
    ((tree.rows above).map Row.path).Nodup
  | .node decl children, h => by
    refine nodup_cons.mpr ⟨fun hmem => ?_, allRows_nodup _ children h⟩
    -- what is inside has a longer path
    obtain ⟨row, hrow, hpath⟩ := List.mem_map.mp hmem
    obtain ⟨tree, _, rest, hbel⟩ := allRows_below _ children row hrow
    have hlen := congrArg length (hbel.symm.trans hpath)
    simp at hlen

theorem allRows_nodup (above : List String) : ∀ (trees : List Tree), allSeparate trees = true →
    ((allRows above trees).map Row.path).Nodup
  | [], _ => nodup_nil
  | tree :: rest, h => by
    simp only [allSeparate, Bool.and_eq_true] at h
    obtain ⟨⟨⟨_, hnames⟩, htree⟩, hrest⟩ := h
    rw [allRows, map_append]
    refine nodup_append.mpr ⟨rows_nodup above tree htree, allRows_nodup above rest hrest, ?_⟩
    -- paths of different trees part at the names of the trees
    rintro path hleft other hright rfl
    obtain ⟨row, hrow, hpath⟩ := List.mem_map.mp hleft
    obtain ⟨row', hrow', hpath'⟩ := List.mem_map.mp hright
    obtain ⟨below, hbel⟩ := rows_below above tree row hrow
    obtain ⟨sibling, hsibling, below', hbel'⟩ := allRows_below above rest row' hrow'
    have hsame : above ++ tree.name :: below = above ++ sibling.name :: below' := by
      rw [← hbel, ← hbel', hpath, hpath']
    have hname := (List.cons.inj (append_cancel_left hsame)).1
    exact bne_iff_ne.mp (List.all_eq_true.mp hnames sibling hsibling) hname.symm
end

mutual
theorem rows_undotted {above : List String} (habove : ∀ name ∈ above, isDotted name = false) :
    ∀ (tree : Tree), isDotted tree.name = false → tree.separate = true →
    ∀ row ∈ tree.rows above, ∀ name ∈ row.path, isDotted name = false
  | .node decl children, hname, h, row, hmem => by
    have hpath : ∀ name ∈ above ++ [decl.name], isDotted name = false :=
      forall_mem_append.mpr ⟨habove, forall_mem_singleton.mpr hname⟩
    rcases mem_cons.mp hmem with rfl | hmem
    · exact hpath
    · exact allRows_undotted hpath children h row hmem

theorem allRows_undotted {above : List String} (habove : ∀ name ∈ above, isDotted name = false) :
    ∀ (trees : List Tree), allSeparate trees = true →
    ∀ row ∈ allRows above trees, ∀ name ∈ row.path, isDotted name = false
  | [], _, _, hmem => by cases hmem
  | tree :: rest, h, row, hmem => by
    simp only [allSeparate, Bool.and_eq_true, Bool.not_eq_true'] at h
    obtain ⟨⟨⟨hname, _⟩, htree⟩, hrest⟩ := h
    rcases mem_append.mp hmem with hmem | hmem
    · exact rows_undotted habove tree hname htree row hmem
    · exact allRows_undotted habove rest hrest row hmem
end

end Tree

/-! ## 3. Charted namespaces -/

/-- The path of a number. -/
def pathAt (rows : List Row) (id : DefId) : Option (List String) := rows[id]?.map Row.path

/-- The links of charted declarations, of which the first has this number. -/
def linksFrom (first : DefId) (rows : List Row) : List (DefId × Link) :=
  (rows.zipIdx first).flatMap fun (row, id) => row.declaration.links id

/-- Full names, children and names at the top level are as the chart says, and an owner is charted
    before what is inside it. -/
structure Namespace.Charted (ns : Namespace) (rows : List Row) : Prop where
  size_eq : ns.size = rows.length
  path_ne : ∀ {id path}, pathAt rows id = some path → path ≠ []
  above : ∀ {id path name}, pathAt rows id = some (path ++ [name]) →
    path = [] ∨ path ∈ rows.map Row.path
  fullName_eq : ∀ {id d path}, ns.get? id = some d → pathAt rows id = some path →
    d.fullName = ofPath path
  child_iff : ∀ {id d path}, ns.get? id = some d → pathAt rows id = some path → ∀ name next,
    d.child? name = some next ↔ pathAt rows next = some (path ++ [name])
  root_iff : ∀ name next, ns.roots.get? name = some next ↔ pathAt rows next = some [name]

/-- No link was made: what a definition stands for is what was declared. -/
def Namespace.Unlinked (ns : Namespace) (rows : List Row) : Prop :=
  ∀ id d row, ns.get? id = some d → rows[id]? = some row →
    d.superdefinition = none ∧ d.kind = row.declaration.kind

/-- The owner is the definition at the path, or there is no owner and the path is empty. -/
def OwnerAt (rows : List Row) : Option DefId → List String → Prop
  | none, above => above = []
  | some id, above => above ≠ [] ∧ pathAt rows id = some above

/-- The definition is as it was declared, but for its place and its links. -/
structure Declaration.Says (declaration : Declaration) (d : Definition) : Prop where
  name : d.name = declaration.name
  access : d.access = declaration.access
  durability : d.durability = declaration.durability
  parameters : d.parameters = declaration.parameters
  keeps : d.keeps = declaration.keeps
  body : d.body = declaration.body

/-- The site that a definition belongs to. -/
def Namespace.siteOf (ns : Namespace) (id : DefId) : Option DefId := (ns.get? id).bind Definition.site

/-- The definition of a row: its owner is at the path above and has a smaller number, and it belongs to
    the site of its owner unless it is declared to be one. -/
structure Definition.StandsAt (d : Definition) (ns : Namespace) (rows : List Row) (id : DefId)
    (row : Row) : Prop where
  declared : row.declaration.Says d
  inside : ∃ above, row.path = above ++ [row.declaration.name] ∧ OwnerAt rows d.owner above
  owner_lt : ∀ owner, d.owner = some owner → owner < id
  site_eq : d.site = if row.declaration.site then some id else d.owner.bind ns.siteOf

/-- Every definition stands where it was declared. -/
def Namespace.Stands (ns : Namespace) (rows : List Row) : Prop :=
  ∀ id d row, ns.get? id = some d → rows[id]? = some row → d.StandsAt ns rows id row

/-- A namespace in which just these rows were declared. -/
structure Namespace.Declared (ns : Namespace) (rows : List Row) : Prop extends ns.Charted rows where
  unlinked : ns.Unlinked rows
  stands : ns.Stands rows

section Paths

variable {rows more : List Row}

theorem pathAt_lt (h : pathAt rows id = some path) : id < rows.length := by
  obtain ⟨row, hrow, _⟩ := map_eq_some_iff.mp h
  exact (List.getElem?_eq_some_iff.mp hrow).1

theorem pathAt_append_iff (row : Row) : pathAt (rows ++ [row]) id = some path ↔
    pathAt rows id = some path ∨ id = rows.length ∧ path = row.path := by
  rcases Nat.lt_trichotomy id rows.length with hlt | rfl | hgt
  · rw [pathAt, getElem?_append_left hlt]
    exact ⟨.inl, fun h => h.resolve_right fun e => absurd e.1 (Nat.ne_of_lt hlt)⟩
  · rw [pathAt, pathAt, getElem?_append_right (Nat.le_refl _)]
    simp [eq_comm]
  · have hnone : pathAt (rows ++ [row]) id = none := by
      rw [pathAt, getElem?_eq_none]
      · rfl
      · simpa using Nat.succ_le_of_lt hgt
    rw [hnone]
    refine ⟨nofun, fun h => ?_⟩
    rcases h with h | ⟨rfl, _⟩
    · exact absurd (pathAt_lt h) (Nat.not_lt.mpr (Nat.le_of_lt hgt))
    · exact absurd hgt (Nat.lt_irrefl _)

theorem OwnerAt.append_left (h : OwnerAt rows owner path) : OwnerAt (rows ++ more) owner path := by
  cases owner with
  | none => exact h
  | some id =>
    refine ⟨h.1, ?_⟩
    rw [pathAt, getElem?_append_left (pathAt_lt h.2)]
    exact h.2

theorem mem_of_pathAt (h : pathAt rows id = some path) : path ∈ rows.map Row.path := by
  obtain ⟨row, hrow, rfl⟩ := map_eq_some_iff.mp h
  exact List.mem_map_of_mem (mem_of_getElem? hrow)

theorem pathAt_of_mem (h : path ∈ rows.map Row.path) : ∃ id, pathAt rows id = some path := by
  obtain ⟨row, hrow, rfl⟩ := List.mem_map.mp h
  obtain ⟨id, hid⟩ := mem_iff_getElem?.mp hrow
  exact ⟨id, by rw [pathAt, hid]; rfl⟩

theorem pathAt_inj (hnd : (rows.map Row.path).Nodup) {other : DefId}
    (h : pathAt rows id = some path) (h' : pathAt rows other = some path) : id = other := by
  rw [pathAt, ← getElem?_map] at h h'
  have hlt := (List.getElem?_eq_some_iff.mp h).1
  exact (getElem?_inj hlt hnd).mp (h.trans h'.symm)

end Paths

namespace Namespace

variable {ns : Namespace} {rows : List Row}

theorem insert_iff (d : Declaration) (hnew : above ++ [d.name] ∉ rows.map Row.path)
    (h : ∀ name next, entries.get? name = some next ↔ pathAt rows next = some (above ++ [name]))
    (name : String) (next : DefId) : (entries.insert d.name rows.length).get? name = some next ↔
      pathAt (rows ++ [⟨above ++ [d.name], d⟩]) next = some (above ++ [name]) := by
  rw [pathAt_append_iff]
  by_cases hname : name = d.name
  · subst hname
    rw [Dictionary.get?_insert_self]
    refine ⟨fun e => .inr ⟨(Option.some.inj e).symm, rfl⟩, fun e => ?_⟩
    rcases e with e | ⟨e, _⟩
    · exact absurd (mem_of_pathAt e) hnew
    · rw [e]
  · rw [Dictionary.get?_insert_of_ne _ hname, h]
    refine ⟨.inl, fun e => e.resolve_right fun ⟨_, e⟩ => hname ?_⟩
    simpa using e

theorem keep_iff {row : Row} (hne : ∀ name, path ++ [name] ≠ row.path)
    (h : ∀ name next, entries.get? name = some next ↔ pathAt rows next = some (path ++ [name]))
    (name : String) (next : DefId) : entries.get? name = some next ↔
      pathAt (rows ++ [row]) next = some (path ++ [name]) := by
  rw [h, pathAt_append_iff]
  exact ⟨.inl, fun e => e.resolve_right fun ⟨_, e⟩ => hne name e⟩

section

variable (h : ns.Charted rows)
include h

theorem Charted.pathAt_inside_ne (hne : path ≠ []) (hnew : path ∉ rows.map Row.path) (name : String)
    (id : DefId) : pathAt rows id ≠ some (path ++ [name]) := by
  intro hpath
  rcases h.above hpath with hnil | hmem
  · exact hne hnil
  · exact hnew hmem

section

variable (hfd : (d.addTo owner ns).2.get? id = some found)
  (hpath : pathAt (rows ++ [⟨above ++ [d.name], d⟩]) id = some path)
include hfd hpath

theorem Charted.addTo_cases :
    (path = above ++ [d.name] ∧ found = d.definition owner ns) ∨
    ∃ old, ns.get? id = some old ∧ pathAt rows id = some path ∧ found =
      if owner = some id then { old with children := old.children.insert d.name ns.size }
      else old := by
  rcases (pathAt_append_iff _).mp hpath with hpath | ⟨rfl, rfl⟩
  · have hlt : id < ns.size := h.size_eq ▸ pathAt_lt hpath
    rw [d.addTo_old owner hlt] at hfd
    obtain ⟨old, hold, rfl⟩ := map_eq_some_iff.mp hfd
    exact .inr ⟨old, hold, hpath, rfl⟩
  · rw [← h.size_eq, d.addTo_new] at hfd
    exact .inl ⟨rfl, (Option.some.inj hfd).symm⟩

theorem Charted.addTo_fullName (howner : OwnerAt rows owner above) :
    found.fullName = ofPath path := by
  rcases h.addTo_cases hfd hpath with ⟨rfl, rfl⟩ | ⟨old, hold, hpath, rfl⟩
  · cases owner with
    | none =>
      obtain rfl : above = [] := howner
      rfl
    | some ownerId =>
      obtain ⟨hne, hat⟩ := howner
      obtain ⟨ownerDef, hget⟩ := get?_of_lt (h.size_eq ▸ pathAt_lt hat)
      rw [ofPath_append hne, ← h.fullName_eq hget hat]
      simp only [Declaration.definition, fullName, hget]
  · rw [← h.fullName_eq hold hpath]
    split <;> rfl

end

variable (howner : OwnerAt rows owner above) (hnew : above ++ [d.name] ∉ rows.map Row.path)
include howner hnew

theorem Charted.addTo_child_iff (hnd : (rows.map Row.path).Nodup)
    (hfd : (d.addTo owner ns).2.get? id = some found)
    (hpath : pathAt (rows ++ [⟨above ++ [d.name], d⟩]) id = some path) (name : String)
    (next : DefId) : found.child? name = some next ↔
      pathAt (rows ++ [⟨above ++ [d.name], d⟩]) next = some (path ++ [name]) := by
  rcases h.addTo_cases hfd hpath with ⟨rfl, rfl⟩ | ⟨old, hold, hat, rfl⟩
  · have hne : above ++ [d.name] ≠ [] :=
      append_ne_nil_of_right_ne_nil _ (cons_ne_nil _ _)
    rw [pathAt_append_iff]
    refine ⟨fun e => ?_, fun e => ?_⟩
    · cases e
    · rcases e with e | ⟨_, e⟩
      · exact absurd e (h.pathAt_inside_ne hne hnew name next)
      · simp at e
  · have hold := h.child_iff hold hat
    by_cases hid : owner = some id
    · subst hid
      cases hat.symm.trans howner.2
      rw [if_pos rfl, h.size_eq]
      exact insert_iff d hnew hold name next
    · rw [if_neg hid]
      refine keep_iff (fun name e => ?_) hold name next
      obtain ⟨rfl, _⟩ := append_inj' e rfl
      cases owner with
      | none => exact h.path_ne hat howner
      | some ownerId => exact hid (congrArg some (pathAt_inj hnd howner.2 hat))

theorem Charted.addTo_root_iff (name : String) (next : DefId) :
    (d.addTo owner ns).2.roots.get? name = some next ↔
      pathAt (rows ++ [⟨above ++ [d.name], d⟩]) next = some [name] := by
  rw [d.addTo_roots]
  cases owner with
  | none =>
    obtain rfl : above = [] := howner
    rw [h.size_eq]
    exact insert_iff d hnew h.root_iff name next
  | some ownerId =>
    refine keep_iff (show ∀ name, [] ++ [name] ≠ _ from fun name e => ?_) h.root_iff name next
    obtain ⟨e, _⟩ := append_inj' e rfl
    exact howner.1 e.symm

/-- **A declaration adds its row to the chart.** -/
theorem Charted.addTo (hnd : (rows.map Row.path).Nodup) :
    (d.addTo owner ns).2.Charted (rows ++ [⟨above ++ [d.name], d⟩]) where
  size_eq := by rw [d.addTo_size, h.size_eq, length_append, length_singleton]
  path_ne hpath := by
    rcases (pathAt_append_iff _).mp hpath with hpath | ⟨_, rfl⟩
    · exact h.path_ne hpath
    · exact append_ne_nil_of_right_ne_nil _ (cons_ne_nil _ _)
  above hpath := by
    rw [map_append, mem_append]
    rcases (pathAt_append_iff _).mp hpath with hpath | ⟨_, hpath⟩
    · exact (h.above hpath).imp_right .inl
    · obtain ⟨rfl, _⟩ := append_inj' hpath rfl
      cases owner with
      | none => exact .inl howner
      | some ownerId => exact .inr (.inl (mem_of_pathAt howner.2))
  fullName_eq hfd hpath := h.addTo_fullName hfd hpath howner
  child_iff hfd hpath := h.addTo_child_iff howner hnew hnd hfd hpath
  root_iff := h.addTo_root_iff howner hnew

end

theorem Unlinked.addTo (h : ns.Unlinked rows) (hsize : ns.size = rows.length)
    (owner : Option DefId) (d : Declaration) (path : List String) :
    (d.addTo owner ns).2.Unlinked (rows ++ [⟨path, d⟩]) := by
  intro id found row hfd hrow
  rcases d.addTo_cases hfd with ⟨rfl, rfl⟩ | ⟨old, hold, rfl⟩
  · rw [hsize, getElem?_append_right (Nat.le_refl _), Nat.sub_self] at hrow
    cases hrow
    exact ⟨rfl, rfl⟩
  · rw [getElem?_append_left (hsize ▸ lt_of_get? hold)] at hrow
    have hold := h id old row hold hrow
    split <;> exact hold

theorem siteOf_addTo (d : Declaration) (hid : id < ns.size) :
    (d.addTo owner ns).2.siteOf id = ns.siteOf id := by
  rw [siteOf, d.addTo_old owner hid, bind_map]
  congr 1
  funext old
  split <;> rfl

theorem Declared.siteOf_eq (h : ns.Declared rows) (id : DefId) :
    ((ns.get? id).bind fun above => if above.isSite then some id else above.site) = ns.siteOf id := by
  refine Option.bind_congr fun d hd => ?_
  split
  · rename_i hsite
    obtain ⟨row, hrow⟩ : ∃ row, rows[id]? = some row :=
      ⟨_, getElem?_eq_getElem (h.size_eq ▸ lt_of_get? hd)⟩
    have hdecl : row.declaration.site = true := by
      rw [Definition.isSite, (h.unlinked id d row hd hrow).2, Declaration.kind] at hsite
      cases hdecl : row.declaration.site with
      | true => rfl
      | false =>
        cases htgt : row.declaration.target <;> cases helements : row.declaration.elements <;>
          simp [hdecl, htgt, helements] at hsite
    rw [(h.stands id d row hd hrow).site_eq, if_pos hdecl]
  · rfl

theorem Declared.addTo_stands (h : ns.Declared rows) (howner : OwnerAt rows owner above)
    (d : Declaration) : (d.addTo owner ns).2.Stands (rows ++ [⟨above ++ [d.name], d⟩]) := by
  have hless : ∀ id, owner = some id → id < ns.size := by
    rintro id rfl
    exact h.size_eq ▸ pathAt_lt howner.2
  intro id found row hfd hrow
  rcases d.addTo_cases hfd with ⟨rfl, rfl⟩ | ⟨old, hold, rfl⟩
  · rw [h.size_eq, getElem?_append_right (Nat.le_refl _), Nat.sub_self] at hrow
    cases hrow
    refine ⟨⟨rfl, rfl, rfl, rfl, rfl, rfl⟩, ⟨above, rfl, howner.append_left⟩, hless, ?_⟩
    cases owner with
    | none => rfl
    | some ownerId =>
      simp only [Declaration.definition, bind_some, siteOf_addTo d (hless ownerId rfl), h.siteOf_eq]
  · have hlt := lt_of_get? hold
    rw [getElem?_append_left (h.size_eq ▸ hlt)] at hrow
    obtain ⟨hdecl, ⟨above', hpath, habove⟩, howner_lt, hsite⟩ := h.stands id old row hold hrow
    have hsite' : old.site = if row.declaration.site then some id
        else old.owner.bind (d.addTo owner ns).2.siteOf := by
      rw [hsite]
      cases hup : old.owner with
      | none => rfl
      | some up =>
        rw [bind_some, bind_some, siteOf_addTo d (Nat.lt_trans (howner_lt up hup) hlt)]
    split
    · exact ⟨⟨hdecl.1, hdecl.2, hdecl.3, hdecl.4, hdecl.5, hdecl.6⟩,
        ⟨above', hpath, habove.append_left⟩, howner_lt, hsite'⟩
    · exact ⟨hdecl, ⟨above', hpath, habove.append_left⟩, howner_lt, hsite'⟩

theorem linksFrom_cons (first : DefId) (row : Row) (rows : List Row) :
    linksFrom first (row :: rows) = row.declaration.links first ++ linksFrom (first + 1) rows := by
  rfl

theorem linksFrom_append (first : DefId) (rows more : List Row) :
    linksFrom first (rows ++ more) = linksFrom first rows ++ linksFrom (first + rows.length) more := by
  rw [linksFrom, zipIdx_append, flatMap_append]
  rfl

/-- The rows of trees are declared, and their links are still to be made. -/
structure Declares (rows more : List Row) (result : Namespace × List (DefId × Link)) : Prop where
  declared : result.1.Declared (rows ++ more)
  links_eq : result.2 = linksFrom rows.length more

mutual
theorem declare_charted : ∀ (tree : Tree) {ns : Namespace} {rows : List Row} {owner : Option DefId}
    {above : List String}, ns.Declared rows → OwnerAt rows owner above →
    ((rows ++ tree.rows above).map Row.path).Nodup →
    Declares rows (tree.rows above) (tree.declare owner ns)
  | .node d children, ns, rows, owner, above, h, howner, hnd => by
    rw [Tree.rows] at hnd ⊢
    have hsplit : ∀ more : List Row, rows ++ ⟨above ++ [d.name], d⟩ :: more =
        (rows ++ [⟨above ++ [d.name], d⟩]) ++ more := fun more => by
      rw [append_assoc]
      rfl
    have hfst : ((rows ++ [(⟨above ++ [d.name], d⟩ : Row)]).map Row.path).Nodup := by
      rw [hsplit, map_append] at hnd
      exact (nodup_append.mp hnd).1
    obtain ⟨hrows, _, hdisj⟩ := nodup_append.mp (map_append ▸ hfst)
    have hnew : above ++ [d.name] ∉ rows.map Row.path := fun hmem =>
      hdisj _ hmem _ mem_cons_self rfl
    have hdecl : (d.addTo owner ns).2.Declared (rows ++ [⟨above ++ [d.name], d⟩]) :=
      ⟨h.toCharted.addTo howner hnew hrows, h.unlinked.addTo h.size_eq owner d _,
        h.addTo_stands howner d⟩
    have howner' : OwnerAt (rows ++ [⟨above ++ [d.name], d⟩]) (some (d.addTo owner ns).1)
        (above ++ [d.name]) := by
      refine ⟨append_ne_nil_of_right_ne_nil _ (cons_ne_nil _ _), ?_⟩
      rw [pathAt_append_iff, d.addTo_fst, h.size_eq]
      exact .inr ⟨rfl, rfl⟩
    rw [hsplit] at hnd
    obtain ⟨hall, hlinks⟩ := declareAll_charted children hdecl howner' hnd
    refine ⟨hsplit _ ▸ hall, ?_⟩
    rw [linksFrom_cons, declare]
    simp only [d.addTo_fst, h.size_eq] at hlinks ⊢
    rw [hlinks, length_append, length_singleton]

theorem declareAll_charted : ∀ (trees : List Tree) {ns : Namespace} {rows : List Row}
    {owner : Option DefId} {above : List String}, ns.Declared rows → OwnerAt rows owner above →
    ((rows ++ allRows above trees).map Row.path).Nodup →
    Declares rows (allRows above trees) (declareAll owner trees ns)
  | [], ns, rows, owner, above, h, _, _ => ⟨(append_nil rows).symm ▸ h, rfl⟩
  | tree :: rest, ns, rows, owner, above, h, howner, hnd => by
    rw [allRows, ← append_assoc] at hnd
    have hfst : ((rows ++ tree.rows above).map Row.path).Nodup := by
      rw [map_append] at hnd
      exact (nodup_append.mp hnd).1
    obtain ⟨hdecl, hlinks⟩ := declare_charted tree h howner hfst
    obtain ⟨hall, hmore⟩ := declareAll_charted rest hdecl howner.append_left hnd
    rw [allRows, declareAll]
    refine ⟨append_assoc .. ▸ hall, ?_⟩
    rw [linksFrom_append, ← length_append]
    simp only
    rw [hlinks, hmore]
end

theorem empty_declared : Namespace.empty.Declared [] where
  size_eq := rfl
  path_ne h := by cases h
  above h := by cases h
  fullName_eq h := by cases h
  child_iff h := by cases h
  root_iff name next := by
    exact ⟨nofun, nofun⟩
  unlinked := fun _ _ _ h => by cases h
  stands := fun _ _ _ h => by cases h

/-- **A namespace that was declared is charted by its forest.** -/
theorem declared_charted (h : ((allRows [] trees).map Row.path).Nodup) :
    Declares [] (allRows [] trees) (declareAll none trees .empty) :=
  declareAll_charted trees empty_declared rfl h

end Namespace

end KeepTree
