import KeepTree.Proofs.Namespace.Ordering

/-!
# The places of a loaded tree

Declarations are numbered from the top down, each before those inside it, and links are made afterwards,
which may run in circles. Links change what a definition inherits and what it stands for, and nothing
else: where it stands is where the tree has it.

* `Forest.load_builds_tree` -- **a forest loads as the tree that it is**.
-/

namespace KeepTree

open List

variable {ns : Namespace} {rows : List Row} {id owner other : DefId} {path : List String}
  {name : String} {d : Definition} {place : Place} {forest : Forest} {trees : List Tree}

namespace Namespace

/-! ## 1. Maps -/

/-- A charted namespace whose definitions stand where they were declared. -/
structure Mapped (ns : Namespace) (rows : List Row) : Prop extends ns.Linking rows where
  stands : ns.Stands rows
  undotted : ∀ row ∈ rows, ∀ name ∈ row.path, DottedName.isDotted name = false

variable {ns' : Namespace}

theorem Stands.link (h : ns.Stands rows) {link : Link} (hlink : ns.link id link = .ok ns') :
    ns'.Stands rows := by
  obtain ⟨found, _, rfl⟩ := link_eq_ok.mp hlink
  have happly : ∀ d, (link.apply found d).site = d.site := fun d => by cases link <;> rfl
  have hsite : (ns.modify id (link.apply found)).siteOf = ns.siteOf := by
    funext other
    rw [siteOf, get?_modify]
    split
    · rw [Option.bind_map]
      exact congrArg _ (funext happly)
    · rfl
  intro other d row hd hrow
  rw [get?_modify] at hd
  split at hd
  · obtain ⟨old, hold, rfl⟩ := Option.map_eq_some_iff.mp hd
    obtain ⟨hdecl, hinside, hless, hold⟩ := h other old row hold hrow
    rw [← hsite] at hold
    cases link <;> exact ⟨⟨hdecl.1, hdecl.2, hdecl.3, hdecl.4, hdecl.5, hdecl.6⟩, hinside, hless, hold⟩
  · obtain ⟨hdecl, hinside, hless, hold⟩ := h other d row hd hrow
    exact ⟨hdecl, hinside, hless, hsite ▸ hold⟩

end Namespace

/-- **A forest loads as a map of its definitions.** -/
theorem Forest.load_mapped (hseparate : Tree.allSeparate forest.trees = true)
    (hload : forest.load = .ok ns) : ns.Mapped (Tree.allRows [] forest.trees) := by
  have hnd := Tree.allRows_nodup [] forest.trees hseparate
  have hnone : ∀ name ∈ ([] : List String), DottedName.isDotted name = false := nofun
  obtain ⟨hdecl, hlinks⟩ := Namespace.declared_charted hnd
  have hloaded := hdecl.unlinked.loaded hdecl.toCharted hnd
    ((congrArg (Namespace.linkAll _) hlinks).symm.trans hload)
  exact ⟨hloaded.toLinking, Namespace.linkAll_preserves (P := (Namespace.Stands · _))
      (fun h hlink => h.link hlink) _ hdecl.stands hload,
    Tree.allRows_undotted hnone forest.trees hseparate⟩

namespace Namespace

theorem Charted.child_eq (h : ns.Charted rows) (hpath : pathAt rows id = some path) {next : DefId}
    (hnext : pathAt rows next = some (path ++ [name])) : ns.child id name = .ok (some next) := by
  obtain ⟨d, hd⟩ := get?_of_lt (h.size_eq ▸ pathAt_lt hpath)
  simp only [child, childWithin, find, hd, (h.child_iff hd hpath name next).mpr hnext]

theorem Charted.isPath_of_append (h : ns.Charted rows) : ∀ (rest : List String) {path : List String},
    path ≠ [] → pathAt rows id = some (path ++ rest) → IsPath rows path
  | [], path, _, hpath => mem_of_pathAt ((append_nil path) ▸ hpath)
  | name :: rest, path, hne, hpath => by
    have hsplit : path ++ name :: rest = (path ++ [name]) ++ rest := by
      rw [append_assoc]
      rfl
    rw [hsplit] at hpath
    obtain ⟨inner, hinner⟩ := pathAt_of_mem (h.isPath_of_append rest
      (append_ne_nil_of_right_ne_nil _ (cons_ne_nil _ _)) hpath)
    exact (h.above hinner).resolve_left hne

/-- **From the definition at the start of a path, its names lead to the definition at its end.** -/
theorem Mapped.descend_below (h : ns.Mapped rows) : ∀ (rest : List String) {id last : DefId}
    {path : List String}, pathAt rows id = some path → pathAt rows last = some (path ++ rest) →
    ns.descend id rest = .ok (some last)
  | [], id, last, path, hpath, hlast => by
    rw [append_nil] at hlast
    rw [pathAt_inj h.nodup hpath hlast]
    rfl
  | name :: rest, id, last, path, hpath, hlast => by
    have hsplit : path ++ name :: rest = (path ++ [name]) ++ rest := by
      rw [append_assoc]
      rfl
    rw [hsplit] at hlast
    have hne : path ++ [name] ≠ [] := append_ne_nil_of_right_ne_nil _ (cons_ne_nil _ _)
    obtain ⟨next, hnext⟩ := pathAt_of_mem (h.isPath_of_append rest hne hlast)
    rw [descend, h.child_eq hpath hnext]
    exact h.descend_below rest hnext hlast

section

variable (h : ns.Mapped rows) (hd : ns.get? id = some d)
include h hd

theorem Mapped.stands_at (hpath : pathAt rows id = some path) : ∃ row, rows[id]? = some row ∧
    row.path = path ∧ d.StandsAt ns rows id row := by
  obtain ⟨row, hrow, rfl⟩ := Option.map_eq_some_iff.mp hpath
  exact ⟨row, hrow, rfl, h.stands id d row hd hrow⟩

theorem Mapped.owner_lt (howner : d.owner = some owner) : owner < id := by
  obtain ⟨path, hpath⟩ := pathAt_of_lt (h.size_eq ▸ lt_of_get? hd)
  obtain ⟨_, _, _, hstands⟩ := h.stands_at hd hpath
  exact hstands.owner_lt owner howner

theorem Mapped.path_of_root
    (hpath : pathAt rows id = some path) (howner : d.owner = none) : path = [d.name] := by
  obtain ⟨row, _, rfl, hstands⟩ := h.stands_at hd hpath
  obtain ⟨above, hrow, habove⟩ := hstands.inside
  rw [howner] at habove
  obtain rfl : above = [] := habove
  rw [hrow, hstands.declared.name]
  rfl

theorem Mapped.path_of_owner (hpath : pathAt rows id = some path) (howner : d.owner = some owner) :
    ∃ above, pathAt rows owner = some above ∧ path = above ++ [d.name] := by
  obtain ⟨row, _, rfl, hstands⟩ := h.stands_at hd hpath
  obtain ⟨above, hrow, habove⟩ := hstands.inside
  rw [howner] at habove
  exact ⟨above, habove.2, by rw [hrow, hstands.declared.name]⟩

end

theorem Mapped.head_root (h : ns.Mapped rows) (hid : id < ns.size) : ∃ root rest,
    ns.roots.get? (DottedName.head (ns.fullName id)) = some root ∧
      pathAt rows root = some [DottedName.head (ns.fullName id)] ∧
      pathAt rows id = some ([DottedName.head (ns.fullName id)] ++ rest) ∧
      DottedName.tail (ns.fullName id) = rest := by
  obtain ⟨path, hpath⟩ := pathAt_of_lt (h.size_eq ▸ hid)
  have hsegments := DottedName.segments_eq (ns.fullName id)
  rw [h.fullName_at hpath, h.segments_at h.undotted hpath, ← h.fullName_at hpath] at hsegments
  rw [hsegments] at hpath
  obtain ⟨root, hroot⟩ := pathAt_of_mem (h.isPath_of_append _ (cons_ne_nil _ []) hpath)
  exact ⟨root, _, (h.root_iff _ _).mpr hroot, hroot, hpath, rfl⟩

/-- **The full name of a definition means it**, whatever is inherited on the way. -/
theorem Mapped.lookup_fullName (h : ns.Mapped rows) (hid : id < ns.size) :
    ns.lookup (ns.fullName id) = .ok (some id) := by
  obtain ⟨root, rest, hroot, hat, hpath, htail⟩ := h.head_root hid
  rw [lookup, hroot]
  simp only [htail]
  exact h.descend_below rest hat hpath

end Namespace

/-! ## 2. Places -/

namespace Tree

def declaration : Tree → Declaration
  | .node declaration _ => declaration

def children : Tree → List Tree
  | .node _ children => children

theorem declaration_name (tree : Tree) : tree.declaration.name = tree.name := by
  cases tree
  rfl

end Tree

/-- A tree and the path to it. -/
structure Place where
  path : List String
  tree : Tree

def Place.row (place : Place) : Row := ⟨place.path, place.tree.declaration⟩

namespace Tree

mutual
/-- A tree and all inside it, each before what is inside it. -/
def places (above : List String) : Tree → List Place
  | .node declaration children =>
    ⟨above ++ [declaration.name], .node declaration children⟩ ::
      allPlaces (above ++ [declaration.name]) children

/-- Several trees and all inside them. -/
def allPlaces (above : List String) : List Tree → List Place
  | [] => []
  | tree :: rest => tree.places above ++ allPlaces above rest
end

mutual
theorem places_rows (above : List String) : ∀ tree : Tree,
    (tree.places above).map Place.row = tree.rows above
  | .node _ children => congrArg _ (allPlaces_rows _ children)

theorem allPlaces_rows (above : List String) : ∀ trees : List Tree,
    (allPlaces above trees).map Place.row = allRows above trees
  | [] => rfl
  | tree :: rest => by
    rw [allPlaces, map_append, places_rows above tree, allPlaces_rows above rest, allRows]
end

theorem mem_allPlaces (above : List String) {tree : Tree} : ∀ {trees : List Tree}, tree ∈ trees →
    ⟨above ++ [tree.name], tree⟩ ∈ allPlaces above trees
  | first :: rest, hmem => by
    rcases mem_cons.mp hmem with rfl | hmem
    · refine mem_append_left _ ?_
      cases tree
      exact mem_cons_self
    · exact mem_append_right _ (mem_allPlaces above hmem)

mutual
theorem places_child (above : List String) {child : Tree} : ∀ (tree : Tree) {place : Place},
    place ∈ tree.places above → child ∈ place.tree.children →
    ⟨place.path ++ [child.name], child⟩ ∈ tree.places above
  | .node decl children, place, hmem, hch => by
    refine mem_cons_of_mem _ ?_
    rcases mem_cons.mp hmem with rfl | hmem
    · exact mem_allPlaces _ hch
    · exact allPlaces_child _ children hmem hch

theorem allPlaces_child (above : List String) {child : Tree} : ∀ (trees : List Tree) {place : Place},
    place ∈ allPlaces above trees → child ∈ place.tree.children →
    ⟨place.path ++ [child.name], child⟩ ∈ allPlaces above trees
  | tree :: rest, place, hmem, hch => by
    rcases mem_append.mp hmem with hmem | hmem
    · exact mem_append_left _ (places_child above tree hmem hch)
    · exact mem_append_right _ (allPlaces_child above rest hmem hch)
end

/-- The place is that of one of the trees, or of one directly inside the tree at another place. -/
def Hangs (above : List String) (trees : List Tree) (places : List Place) (place : Place) : Prop :=
  (place.tree ∈ trees ∧ place.path = above ++ [place.tree.name]) ∨
    ∃ upper ∈ places, place.tree ∈ upper.tree.children ∧
      place.path = upper.path ++ [place.tree.name]

theorem Hangs.mono {above : List String} {trees' : List Tree} {places places' : List Place}
    (h : Hangs above trees places place) (htrees : trees ⊆ trees') (hplaces : places ⊆ places') :
    Hangs above trees' places' place :=
  h.imp (And.imp_left fun hmem => htrees hmem) fun ⟨upper, hmem, hrest⟩ => ⟨upper, hplaces hmem, hrest⟩

mutual
theorem places_hang (above : List String) : ∀ (tree : Tree), ∀ place ∈ tree.places above,
    Hangs above [tree] (tree.places above) place
  | .node decl children, place, hmem => by
    rcases mem_cons.mp hmem with rfl | hmem
    · exact .inl ⟨mem_cons_self, rfl⟩
    · rcases allPlaces_hang _ children place hmem with ⟨htree, hpath⟩ | ⟨upper, hupper, hrest⟩
      · exact .inr ⟨_, mem_cons_self, htree, hpath⟩
      · exact .inr ⟨upper, mem_cons_of_mem _ hupper, hrest⟩

/-- **Every place hangs on another one or on the top level.** -/
theorem allPlaces_hang (above : List String) : ∀ (trees : List Tree), ∀ place ∈ allPlaces above trees,
    Hangs above trees (allPlaces above trees) place
  | tree :: rest, place, hmem => by
    rcases mem_append.mp hmem with hmem | hmem
    · exact (places_hang above tree place hmem).mono
        (cons_subset_cons _ (nil_subset _)) (subset_append_left _ _)
    · exact (allPlaces_hang above rest place hmem).mono
        (subset_cons_self _ _) (subset_append_right _ _)
end

end Tree

/-! ## 3. Sites -/

/-- The number of a site on the path; all other sites on the path are around it. -/
def NearestSite (places : List Place) (path : List String) (site : DefId) : Prop :=
  ∃ place, places[site]? = some place ∧ place.tree.declaration.site = true ∧ place.path <+: path ∧
    ∀ other ∈ places, other.tree.declaration.site = true → other.path <+: path →
      other.path <+: place.path

namespace Namespace

variable {places : List Place}

theorem pathAt_place (h : places[id]? = some place) :
    pathAt (places.map Place.row) id = some place.path := by
  simp [pathAt, h, Place.row]

theorem Mapped.place_unique (h : ns.Mapped (places.map Place.row)) {place' : Place}
    (hplace : places[id]? = some place) (hplace' : places[other]? = some place')
    (hpath : place.path = place'.path) : id = other ∧ place = place' := by
  obtain rfl := pathAt_inj h.nodup (pathAt_place hplace) (hpath ▸ pathAt_place hplace')
  exact ⟨rfl, Option.some.inj (hplace.symm.trans hplace')⟩

/-- **A definition belongs to the nearest site around it**, or to none if there is none. -/
theorem Mapped.site_iff (h : ns.Mapped (places.map Place.row)) (site : DefId) : ∀ (id : DefId)
    {d : Definition} {place : Place}, ns.get? id = some d → places[id]? = some place →
    (d.site = some site ↔ NearestSite places place.path site) := by
  intro id
  -- what is around a definition has smaller numbers
  induction id using Nat.strongRecOn with
  | ind id ih =>
    intro d place hd hplace
    obtain ⟨row, hrow, _, hstands⟩ := h.stands_at hd (pathAt_place hplace)
    obtain rfl : place.row = row := by simpa [hplace] using hrow
    rw [hstands.site_eq]
    split
    · rename_i hsite
      constructor
      · rintro ⟨⟩
        exact ⟨place, hplace, hsite, prefix_rfl, fun _ _ _ hon => hon⟩
      · rintro ⟨place', hplace', _, hon, hnearest⟩
        have hback := hnearest place (mem_of_getElem? hplace) hsite prefix_rfl
        rw [(h.place_unique hplace hplace' (hback.eq_of_length_le hon.length_le)).1]
    · rename_i hnot
      -- no site is at the place itself
      have hless : ∀ {other : Place}, other ∈ places → other.tree.declaration.site = true →
          other.path ≠ place.path := by
        intro other hmem hsite hsame
        obtain ⟨index, hidx⟩ := mem_iff_getElem?.mp hmem
        obtain ⟨_, rfl⟩ := h.place_unique hidx hplace hsame
        exact hnot hsite
      cases howner : d.owner with
      | none =>
        have hpath := h.path_of_root hd (pathAt_place hplace) howner
        refine ⟨nofun, ?_⟩
        rintro ⟨place', hplace', hsite, hon, _⟩
        have hmem := mem_of_getElem? hplace'
        rw [hpath, ← nil_append [d.name], prefix_concat_iff, prefix_nil] at hon
        rcases hon with hon | hon
        · exact absurd (hon.trans hpath.symm) (hless hmem hsite)
        · exact absurd hon (h.path_ne (pathAt_place hplace'))
      | some owner =>
        obtain ⟨above, habove, hpath⟩ := h.path_of_owner hd (pathAt_place hplace) howner
        have howner_lt := h.owner_lt hd howner
        obtain ⟨up, hup⟩ := get?_of_lt (Nat.lt_trans howner_lt (lt_of_get? hd))
        obtain ⟨upper, hupper, rfl⟩ : ∃ upper, places[owner]? = some upper ∧ upper.path = above := by
          simpa [pathAt, Place.row] using habove
        have hon_iff : ∀ {other : Place}, other ∈ places → other.tree.declaration.site = true →
            (other.path <+: place.path ↔ other.path <+: upper.path) := by
          intro other hmem hsite
          rw [hpath, prefix_concat_iff, ← hpath]
          exact or_iff_right (hless hmem hsite)
        have hsite : ((some owner).bind ns.siteOf = some site) ↔ up.site = some site := by
          rw [Option.bind_some, siteOf, hup]
          rfl
        rw [hsite, ih owner howner_lt hup hupper]
        refine exists_congr fun near => and_congr_right fun hnear => and_congr_right fun hsite => ?_
        rw [hon_iff (mem_of_getElem? hnear) hsite]
        refine and_congr_right fun _ => forall_congr' fun other => forall_congr' fun hmem =>
          forall_congr' fun hoth => ?_
        rw [hon_iff hmem hoth]

end Namespace

/-! ## 4. The tree -/

theorem Namespace.Mapped.inside (h : ns.Mapped ((Tree.allPlaces [] trees).map Place.row))
    {upper : Place} (hupper : (Tree.allPlaces [] trees)[other]? = some upper)
    (hplace : (Tree.allPlaces [] trees)[id]? = some place)
    (hpath : place.path = upper.path ++ [name]) :
    place.tree ∈ upper.tree.children ∧ place.tree.name = name := by
  rcases Tree.allPlaces_hang [] trees place (mem_of_getElem? hplace) with ⟨_, hroot⟩ |
    ⟨upper', hmem, htree, hpath'⟩
  · exact absurd (append_inj' (hroot.symm.trans hpath) rfl).1.symm (h.path_ne (pathAt_place hupper))
  · obtain ⟨index, hidx⟩ := mem_iff_getElem?.mp hmem
    obtain ⟨hsame, hname⟩ := append_inj' (hpath'.symm.trans hpath) rfl
    obtain ⟨_, rfl⟩ := h.place_unique hidx hupper hsame
    exact ⟨htree, singleton_inj.mp hname⟩

namespace Forest

/-- **A forest loads as the tree that it is.** Where the names of siblings are different and not dotted
    and the forest loads, with whatever links, also circular ones, its definitions are numbered from the
    top down, each before those inside it. Each says what was declared, has the path of names as its full
    name, the definition around it as its owner, and the declarations inside it as its own children; it
    belongs to the nearest site on the way from itself to the top level; and its full name means it. -/
theorem load_builds_tree {forest : Forest} {ns : Namespace}
    (hseparate : Tree.allSeparate forest.trees = true) (hload : forest.load = .ok ns) :
    let places := Tree.allPlaces [] forest.trees
    ns.size = places.length ∧
    ∀ (id : DefId) (place : Place), places[id]? = some place → ∃ d, ns.get? id = some d ∧
      place.tree.declaration.Says d ∧
      d.fullName = DottedName.ofPath place.path ∧
      (match d.owner with
        | none => place.tree ∈ forest.trees ∧ place.path = [place.tree.name]
        | some owner => owner < id ∧ ∃ upper, places[owner]? = some upper ∧
            place.tree ∈ upper.tree.children ∧ place.path = upper.path ++ [place.tree.name]) ∧
      (∀ site, d.site = some site ↔ NearestSite places place.path site) ∧
      (∀ name next, d.child? name = some next ↔ ∃ child ∈ place.tree.children, child.name = name ∧
        places[next]? = some ⟨place.path ++ [name], child⟩) ∧
      ns.lookup d.fullName = .ok (some id) := by
  intro places
  have hrows : places.map Place.row = Tree.allRows [] forest.trees := Tree.allPlaces_rows [] _
  have h : ns.Mapped (places.map Place.row) := hrows ▸ load_mapped hseparate hload
  refine ⟨h.size_eq.trans (List.length_map _), fun id place hplace => ?_⟩
  have hpath := Namespace.pathAt_place hplace
  have hmem := List.mem_of_getElem? hplace
  have hlt : id < ns.size := h.size_eq ▸ pathAt_lt hpath
  obtain ⟨d, hd⟩ := Namespace.get?_of_lt hlt
  obtain ⟨row, hrow, _, hstands⟩ := h.stands_at hd hpath
  obtain rfl : place.row = row := by simpa [hplace] using hrow
  have hfullName : ns.fullName id = d.fullName := by simp only [Namespace.fullName, hd]
  refine ⟨d, hd, hstands.declared, h.fullName_eq hd hpath, ?_, fun site => h.site_iff site id hd hplace,
    fun name next => ?_, hfullName ▸ h.lookup_fullName hlt⟩
  · obtain ⟨above, habove, howner⟩ := hstands.inside
    have habove : place.path = above ++ [place.tree.name] := place.tree.declaration_name ▸ habove
    cases hup : d.owner with
    | none =>
      rw [hup] at howner
      obtain rfl : above = [] := howner
      refine ⟨?_, habove⟩
      rcases Tree.allPlaces_hang [] forest.trees place hmem with ⟨htree, _⟩ | ⟨upper, hupper, _, hinside⟩
      · exact htree
      · obtain ⟨index, hindex⟩ := List.mem_iff_getElem?.mp hupper
        have hnil := (List.append_inj' (hinside.symm.trans habove) rfl).1
        exact absurd hnil (h.path_ne (Namespace.pathAt_place hindex))
    | some owner =>
      rw [hup] at howner
      obtain ⟨upper, hupper, rfl⟩ : ∃ upper, places[owner]? = some upper ∧ upper.path = above := by
        simpa [pathAt, Place.row] using howner.2
      exact ⟨hstands.owner_lt owner hup, upper, hupper, (h.inside hupper hplace habove).1, habove⟩
  · rw [h.child_iff hd hpath]
    constructor
    · intro hnext
      obtain ⟨place', hplace', hpath'⟩ : ∃ place', places[next]? = some place' ∧
          place'.path = place.path ++ [name] := by
        simpa [pathAt, Place.row] using hnext
      obtain ⟨htree, hname⟩ := h.inside hplace hplace' hpath'
      exact ⟨place'.tree, htree, hname, hpath' ▸ hplace'⟩
    · rintro ⟨child, _, _, hnext⟩
      exact Namespace.pathAt_place hnext

/-- Two sites that inherit from each other; one stands for the other. -/
def twins : Forest := ⟨[
  .node { name := "east", site := true, superName := some "west" } [.node { name := "gate" } []],
  .node { name := "west", site := true, superName := some "east", flavorOf := some "east" } [
    .node { name := "gate" } [.node { name := "lamp" } []]]]⟩

theorem load_builds_tree_twins : twins.load = .ok twins.space ∧ ∃ lamp, twins.space.get? 4 = some lamp ∧
    lamp.site = some 2 ∧ twins.space.lookup lamp.fullName = .ok (some 4) := by
  have hload : twins.load = .ok twins.space := load_eq_space (by decide +kernel)
  obtain ⟨_, hplaces⟩ := load_builds_tree (by decide +kernel) hload
  obtain ⟨lamp, hlamp, _, _, _, hsite, _, hlookup⟩ :=
    hplaces 4 ⟨["west", "gate", "lamp"], .node { name := "lamp" } []⟩ rfl
  refine ⟨hload, lamp, hlamp, (hsite 2).mpr ⟨_, rfl, rfl, ?_, ?_⟩, hlookup⟩
  · decide
  · decide +kernel

end Forest

end KeepTree
