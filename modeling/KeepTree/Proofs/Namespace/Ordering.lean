import KeepTree.Proofs.Namespace.Charts

/-!
# Trees in any order

Links are made by name, one after another, and a name is looked up with the links made so far. A name
that goes through an inherited child is found only if the links on its way have been made. So the order
of siblings matters to whether a forest loads, but not to what it loads as:

* `Namespace.lookup_iff` -- **a lookup finds what the links made so far lead to**;
* `Forest.load_reordered` -- **in every order in which a forest loads it loads as the same**, and it
  loads in those orders in which no name is looked up before the links that it goes through.
-/

namespace KeepTree

open Namespace DottedName List Option

variable {name : String} {path names found' upper : List String} {ns ns' final : Namespace}
  {rows rows' : List Row} {id : DefId} {link : Link} {passed' : List (List String)} {d : Definition}
  {row : Row}

/-! ## 1. Names as paths -/

section Walking

variable {declared : List String → Prop} {E E' : List String → List String → Prop} {bound : Nat}
  {found : List String} {passed : List (List String)}

/-- The walk for a child: up along superdefinitions to the first that declares it. The list has the
    definitions that the walk passes. -/
inductive Leads (declared : List String → Prop) (E : List String → List String → Prop)
    (name : String) : List String → List (List String) → List String → Prop
  | own {path : List String} : declared (path ++ [name]) →
      Leads declared E name path [] (path ++ [name])
  | up {path upper found : List String} {passed : List (List String)} : ¬ declared (path ++ [name]) →
      E path upper → Leads declared E name upper passed found →
      Leads declared E name path (path :: passed) found

/-- The walk along several names; no child is further up than the bound allows. -/
inductive Walks (declared : List String → Prop) (E : List String → List String → Prop)
    (bound : Nat) : List String → List String → List (List String) → List String → Prop
  | here (path : List String) : Walks declared E bound path [] [] path
  | step {path next found : List String} {name : String} {names : List String}
      {passed more : List (List String)} : Leads declared E name path passed next →
      passed.length < bound → Walks declared E bound next names more found →
      Walks declared E bound path (name :: names) (passed ++ more) found

theorem Leads.transfer (h : Leads declared E name path passed found)
    (hE : ∀ other ∈ passed, ∀ upper, E other upper → E' other upper) :
    Leads declared E' name path passed found := by
  induction h with
  | own hdecl => exact .own hdecl
  | up hnot hlink _ ih =>
    obtain ⟨hpath, hrest⟩ := forall_mem_cons.mp hE
    exact .up hnot (hpath _ hlink) (ih hrest)

theorem Walks.transfer (h : Walks declared E bound path names passed found)
    (hE : ∀ other ∈ passed, ∀ upper, E other upper → E' other upper) :
    Walks declared E' bound path names passed found := by
  induction h with
  | here path => exact .here path
  | step hleads hlt _ ih =>
    obtain ⟨hfst, hrest⟩ := forall_mem_append.mp hE
    exact .step (hleads.transfer hfst) hlt (ih hrest)

theorem Leads.is_declared (h : Leads declared E name path passed found) : declared found := by
  induction h with
  | own hdecl => exact hdecl
  | up _ _ _ ih => exact ih

theorem Walks.is_declared (h : Walks declared E bound path names passed found) (hne : names ≠ []) :
    declared found := by
  induction h with
  | here _ => exact absurd rfl hne
  | @step _ _ _ _ names _ _ hleads _ hrest ih =>
    cases names with
    | nil =>
      cases hrest
      exact hleads.is_declared
    | cons _ _ => exact ih (cons_ne_nil _ _)

theorem Leads.linked (h : Leads declared E name path passed found) :
    ∀ other ∈ passed, ∃ upper, E other upper := by
  induction h with
  | own _ => exact forall_mem_nil _
  | up _ hlink _ ih => exact forall_mem_cons.mpr ⟨⟨_, hlink⟩, ih⟩

theorem Walks.linked (h : Walks declared E bound path names passed found) :
    ∀ other ∈ passed, ∃ upper, E other upper := by
  induction h with
  | here _ => exact forall_mem_nil _
  | step hleads _ _ ih => exact forall_mem_append.mpr ⟨hleads.linked, ih⟩

/-- A definition has one superdefinition at most. -/
def Functional (E : List String → List String → Prop) : Prop :=
  ∀ path upper upper', E path upper → E path upper' → upper = upper'

theorem Leads.unique (hE : Functional E) (h : Leads declared E name path passed found)
    (h' : Leads declared E name path passed' found') : passed = passed' ∧ found = found' := by
  induction h generalizing passed' found' with
  | own hdecl =>
    cases h' with
    | own _ => exact ⟨rfl, rfl⟩
    | up hnot _ _ => exact absurd hdecl hnot
  | up hnot hlink _ ih =>
    cases h' with
    | own hdecl => exact absurd hdecl hnot
    | up _ hlink' hrest =>
      obtain rfl := hE _ _ _ hlink hlink'
      obtain ⟨rfl, rfl⟩ := ih hrest
      exact ⟨rfl, rfl⟩

/-- **A name has one meaning at most.** -/
theorem Walks.unique (hE : Functional E) (h : Walks declared E bound path names passed found)
    (h' : Walks declared E bound path names passed' found') :
    passed = passed' ∧ found = found' := by
  induction h generalizing passed' found' with
  | here path =>
    cases h'
    exact ⟨rfl, rfl⟩
  | step hleads _ _ ih =>
    cases h' with
    | step hleads' _ hrest =>
      obtain ⟨rfl, rfl⟩ := hleads.unique hE hleads'
      obtain ⟨rfl, rfl⟩ := ih hrest
      exact ⟨rfl, rfl⟩

end Walking

/-! ## 2. Lookups -/

/-- The definition that this one is a flavor of. -/
def Definition.underlying? (d : Definition) : Option DefId :=
  match d.kind with
  | .flavor underlying => some underlying
  | _ => none

/-- A link to a superdefinition, not to a flavor. -/
def Link.isInherit : Link → Bool
  | .inherit _ => true
  | .flavor _ => false

namespace Namespace

/-- Where a link of a definition leads, to a superdefinition or to what it is a flavor of. -/
def linked? (ns : Namespace) (id : DefId) (inherit : Bool) : Option DefId :=
  (ns.get? id).bind fun d => if inherit then d.superdefinition else d.underlying?

/-- The definitions that the walk for a child passes, up to a number of steps. -/
def passedWithin (ns : Namespace) (name : String) : Nat → DefId → List DefId
  | 0, _ => []
  | steps + 1, id =>
    match ns.get? id with
    | none => []
    | some d =>
      match d.child? name, d.superdefinition with
      | none, some next => id :: ns.passedWithin name steps next
      | _, _ => []

/-- The definitions that the walk along several names passes. -/
def passed (ns : Namespace) : DefId → List String → List DefId
  | _, [] => []
  | id, name :: rest =>
    ns.passedWithin name (ns.size + 1) id ++
      match ns.child id name with
      | .ok (some next) => ns.passed next rest
      | _ => []

/-- The definitions whose superdefinitions a lookup goes to. -/
def lookupPassed (ns : Namespace) (name : String) : List DefId :=
  match ns.roots.get? (DottedName.head name) with
  | some root => ns.passed root (DottedName.tail name)
  | none => []

/-- One path is linked to the other as its superdefinition. -/
def Extends (ns : Namespace) (rows : List Row) (path upper : List String) : Prop :=
  ∃ id next, ns.linked? id true = some next ∧ pathAt rows id = some path ∧
    pathAt rows next = some upper

/-- A charted namespace in which some links have been made. -/
structure Linking (ns : Namespace) (rows : List Row) : Prop extends ns.Charted rows where
  nodup : (rows.map Row.path).Nodup
  linked_lt : ∀ {id inherit next}, ns.linked? id inherit = some next → next < rows.length

/-- The path is charted. -/
def IsPath (rows : List Row) (path : List String) : Prop := path ∈ rows.map Row.path

/-- What a name means with these links, and what it goes through. -/
abbrev Means (rows : List Row) (E : List String → List String → Prop) (name : String)
    (passed : List (List String)) (found : List String) : Prop :=
  Walks (IsPath rows) E (rows.length + 1) [] (segments name) passed found

theorem pathAt_of_row (h : rows[id]? = some row) : pathAt rows id = some row.path := by
  rw [pathAt, h]
  rfl

theorem pathAt_of_lt (h : id < rows.length) : ∃ path, pathAt rows id = some path :=
  ⟨_, pathAt_of_row (getElem?_eq_getElem h)⟩

theorem linked?_true (hd : ns.get? id = some d) : ns.linked? id true = d.superdefinition := by
  rw [linked?, hd]
  rfl

section

variable (h : ns.Linking rows)
include h

theorem Linking.functional : Functional (ns.Extends rows) := by
  rintro path upper upper' ⟨id, next, hlinked, hpath, hupper⟩ ⟨id', next', hlinked', hpath', hupper'⟩
  obtain rfl := pathAt_inj h.nodup hpath hpath'
  cases hlinked.symm.trans hlinked'
  exact Option.some.inj (hupper.symm.trans hupper')

theorem Linking.get? (hpath : pathAt rows id = some path) :
    ∃ d, ns.get? id = some d :=
  get?_of_lt (h.size_eq ▸ pathAt_lt hpath)

theorem Linking.child_eq_none (hd : ns.get? id = some d) (hpath : pathAt rows id = some path) :
    d.child? name = none ↔ ¬ IsPath rows (path ++ [name]) := by
  rw [eq_none_iff_forall_not_mem]
  refine ⟨fun hnone hmem => ?_, fun hnot next hnext => ?_⟩
  · obtain ⟨next, hnext⟩ := pathAt_of_mem hmem
    exact hnone next ((h.child_iff hd hpath name next).mpr hnext)
  · exact hnot (mem_of_pathAt ((h.child_iff hd hpath name next).mp hnext))

/-- **The walk for a child**, by numbers and by paths. -/
theorem Linking.childWithin_iff : ∀ (steps : Nat) {id : DefId} {path : List String},
    pathAt rows id = some path → ∀ next,
    ns.childWithin name steps id = .ok (some next) ↔ ∃ passed found, pathAt rows next = some found ∧
    Leads (IsPath rows) (ns.Extends rows) name path passed found ∧ passed.length < steps
  | 0, _, _, _, _ => by
    refine ⟨fun e => ?_, ?_⟩
    · cases e
    · rintro ⟨_, _, _, _, hlt⟩
      exact absurd hlt (Nat.not_lt_zero _)
  | steps + 1, id, path, hpath, next => by
    obtain ⟨d, hd⟩ := h.get? hpath
    have hnone : d.child? name = none ↔ ¬ IsPath rows (path ++ [name]) := h.child_eq_none hd hpath
    simp only [childWithin, find, hd]
    cases hch : d.child? name with
    | some child =>
      have hpathed := (h.child_iff hd hpath name child).mp hch
      simp only [Except.ok.injEq, Option.some.injEq]
      constructor
      · rintro rfl
        exact ⟨[], _, hpathed, .own (mem_of_pathAt hpathed), Nat.succ_pos _⟩
      · rintro ⟨passed, found, hnext, hleads, _⟩
        cases hleads with
        | own _ => exact pathAt_inj h.nodup hpathed hnext
        | up hnot _ _ => exact absurd (mem_of_pathAt hpathed) hnot
    | none =>
      have hnot := hnone.mp hch
      cases hsuper : d.superdefinition with
      | none =>
        refine ⟨fun e => ?_, ?_⟩
        · cases e
        rintro ⟨passed, found, _, hleads, _⟩
        cases hleads with
        | own hdecl => exact absurd hdecl hnot
        | up _ hlink _ =>
          obtain ⟨other, upper, hlinked, hoth, _⟩ := hlink
          obtain rfl := pathAt_inj h.nodup hpath hoth
          cases ((linked?_true hd).trans hsuper).symm.trans hlinked
      | some upperId =>
        have hlinked : ns.linked? id true = some upperId := (linked?_true hd).trans hsuper
        obtain ⟨upper, hupper⟩ := pathAt_of_lt (h.linked_lt hlinked)
        have hlink : ns.Extends rows path upper := ⟨id, upperId, hlinked, hpath, hupper⟩
        rw [Linking.childWithin_iff steps hupper next]
        constructor
        · rintro ⟨passed, found, hnext, hleads, hlt⟩
          exact ⟨path :: passed, found, hnext, .up hnot hlink hleads, Nat.succ_lt_succ hlt⟩
        · rintro ⟨passed, found, hnext, hleads, hlt⟩
          cases hleads with
          | own hdecl => exact absurd hdecl hnot
          | up _ hlink' hrest =>
            obtain rfl := h.functional _ _ _ hlink hlink'
            exact ⟨_, found, hnext, hrest, Nat.lt_of_succ_lt_succ hlt⟩

theorem Linking.passedWithin_eq : ∀ (steps : Nat) {id : DefId}
    {path found : List String} {passed : List (List String)}, pathAt rows id = some path →
    Leads (IsPath rows) (ns.Extends rows) name path passed found → passed.length < steps →
    (ns.passedWithin name steps id).map (pathAt rows) = passed.map some
  | 0, _, _, _, _, _, _, hlt => absurd hlt (Nat.not_lt_zero _)
  | steps + 1, id, path, found, passed, hpath, hleads, hlt => by
    obtain ⟨d, hd⟩ := h.get? hpath
    simp only [passedWithin, hd]
    cases hleads with
    | own hdecl =>
      cases hch : d.child? name with
      | some child => rfl
      | none => exact absurd hdecl ((h.child_eq_none hd hpath).mp hch)
    | up hnot hlink hrest =>
      obtain ⟨other, upper, hlinked, hoth, hupper⟩ := hlink
      obtain rfl := pathAt_inj h.nodup hpath hoth
      rw [linked?_true hd] at hlinked
      simp only [(h.child_eq_none hd hpath).mpr hnot, hlinked, map_cons, hpath]
      rw [Linking.passedWithin_eq steps hupper hrest (Nat.lt_of_succ_lt_succ hlt)]

theorem Linking.child_leads (hpath : pathAt rows id = some path) (next : DefId) :
    ns.child id name = .ok (some next) ↔ ∃ passed found, pathAt rows next = some found ∧
      Leads (IsPath rows) (ns.Extends rows) name path passed found ∧
        passed.length < rows.length + 1 := by
  rw [Namespace.child, h.size_eq]
  exact h.childWithin_iff _ hpath next

theorem Linking.descend_iff : ∀ (names : List String) {id : DefId}
    {path : List String}, pathAt rows id = some path → ∀ next,
    ns.descend id names = .ok (some next) ↔ ∃ passed found, pathAt rows next = some found ∧
      Walks (IsPath rows) (ns.Extends rows) (rows.length + 1) path names passed found
  | [], id, path, hpath, next => by
    rw [descend]
    constructor
    · intro e
      cases Except.ok.inj e
      exact ⟨[], path, hpath, .here path⟩
    · rintro ⟨passed, found, hnext, hwalk⟩
      cases hwalk
      rw [pathAt_inj h.nodup hpath hnext]
  | name :: rest, id, path, hpath, next => by
    rw [descend_cons]
    constructor
    · rintro ⟨child, hch, hrest⟩
      obtain ⟨passed, found, hat, hleads, hlt⟩ := (h.child_leads hpath child).mp hch
      obtain ⟨more, last, hlast, hwalk⟩ := (Linking.descend_iff rest hat next).mp hrest
      exact ⟨passed ++ more, last, hlast, .step hleads hlt hwalk⟩
    · rintro ⟨passed, found, hnext, hwalk⟩
      cases hwalk with
      | @step _ middle _ _ _ first more hleads hlt hrest =>
        obtain ⟨child, hat⟩ := pathAt_of_mem hleads.is_declared
        exact ⟨child, (h.child_leads hpath child).mpr ⟨first, middle, hat, hleads, hlt⟩,
          (Linking.descend_iff rest hat next).mpr ⟨more, found, hnext, hrest⟩⟩

theorem Linking.passed_eq : ∀ (names : List String) {id : DefId}
    {path found : List String} {passed : List (List String)}, pathAt rows id = some path →
    Walks (IsPath rows) (ns.Extends rows) (rows.length + 1) path names passed found →
    (ns.passed id names).map (pathAt rows) = passed.map some
  | [], _, _, _, _, _, hwalk => by
    cases hwalk
    rfl
  | name :: rest, id, path, found, passed, hpath, hwalk => by
    cases hwalk with
    | @step _ middle _ _ _ first more hleads hlt hrest =>
      obtain ⟨child, hat⟩ := pathAt_of_mem hleads.is_declared
      have hch := (h.child_leads hpath child).mpr ⟨first, middle, hat, hleads, hlt⟩
      have hfst := h.passedWithin_eq (rows.length + 1) hpath hleads hlt
      rw [← h.size_eq] at hfst
      simp only [Namespace.passed, hch]
      rw [map_append, map_append, hfst, Linking.passed_eq rest hat hrest]

theorem Linking.follows_root {found : List String} {passed : List (List String)} :
    Walks (IsPath rows) (ns.Extends rows) (rows.length + 1) []
      (name :: names) passed found ↔
    IsPath rows [name] ∧
      Walks (IsPath rows) (ns.Extends rows) (rows.length + 1) [name] names passed found := by
  constructor
  · intro hwalk
    cases hwalk with
    | step hleads _ hrest =>
      cases hleads with
      | own hdecl => exact ⟨hdecl, hrest⟩
      | up _ hlink _ =>
        obtain ⟨_, _, _, hpath, _⟩ := hlink
        exact absurd rfl (h.path_ne hpath)
  · rintro ⟨hdecl, hrest⟩
    exact .step (.own hdecl) (Nat.succ_pos _) hrest

/-- **A lookup finds what the links made so far lead to.** -/
theorem Linking.lookup_iff (name : String) (next : DefId) : ns.lookup name = .ok (some next) ↔
    ∃ passed found, pathAt rows next = some found ∧
      Means rows (ns.Extends rows) name passed found := by
  simp only [Means, lookup, segments_eq, h.follows_root]
  cases hroot : ns.roots.get? (DottedName.head name) with
  | none =>
    refine ⟨nofun, ?_⟩
    rintro ⟨_, _, _, hdecl, _⟩
    obtain ⟨root, hat⟩ := pathAt_of_mem hdecl
    cases hroot.symm.trans ((h.root_iff _ root).mpr hat)
  | some root =>
    have hat := (h.root_iff _ root).mp hroot
    simp only [h.descend_iff _ hat, show IsPath rows [DottedName.head name] from mem_of_pathAt hat,
      true_and]

theorem Linking.lookupPassed_eq {found : List String} {passed : List (List String)}
    (hwalk : Means rows (ns.Extends rows) name passed found) :
    (ns.lookupPassed name).map (pathAt rows) = passed.map some := by
  rw [Means, segments_eq, h.follows_root] at hwalk
  obtain ⟨hdecl, hrest⟩ := hwalk
  obtain ⟨root, hat⟩ := pathAt_of_mem hdecl
  simp only [lookupPassed, (h.root_iff _ root).mpr hat]
  exact h.passed_eq _ hat hrest

end

/-! ## 3. Links -/

/-- What a link is, and what it leaves. -/
structure Makes (ns : Namespace) (id : DefId) (link : Link) (found : DefId) (ns' : Namespace) :
    Prop where
  lookup_eq : ns.lookup link.name = .ok (some found)
  linked_eq : ∀ other inherit, ns'.linked? other inherit =
    if other = id ∧ inherit = link.isInherit then some found else ns.linked? other inherit
  kept : ∀ {rows}, ns.Charted rows → ns'.Charted rows

theorem Charted.modify (h : ns.Charted rows) {f : Definition → Definition}
    (hfullName : ∀ d, (f d).fullName = d.fullName) (hchildren : ∀ d, (f d).children = d.children) :
    (ns.modify id f).Charted rows := by
  have hcases : ∀ {other found}, (ns.modify id f).get? other = some found → ∃ old,
      ns.get? other = some old ∧ found.fullName = old.fullName ∧ found.children = old.children := by
    intro other found hfd
    rw [get?_modify] at hfd
    split at hfd
    · obtain ⟨old, hold, rfl⟩ := map_eq_some_iff.mp hfd
      exact ⟨old, hold, hfullName old, hchildren old⟩
    · exact ⟨found, hfd, rfl, rfl⟩
  refine ⟨(Array.size_modify).trans h.size_eq, h.path_ne, h.above, fun {other found path} hfd hpath => ?_,
    fun {other found path} hfd hpath => ?_, h.root_iff⟩
  · obtain ⟨old, hold, heq, _⟩ := hcases hfd
    exact heq.trans (h.fullName_eq hold hpath)
  · obtain ⟨old, hold, _, heq⟩ := hcases hfd
    simp only [Definition.child?, heq]
    exact h.child_iff hold hpath

/-- **A link is made to what its name means**, and in its own place only. -/
theorem link_makes (hid : id < ns.size) (h : ns.link id link = .ok ns') :
    ∃ found, ns.Makes id link found ns' := by
  obtain ⟨d, hd⟩ := get?_of_lt hid
  obtain ⟨found, hfd, rfl⟩ := link_eq_ok.mp h
  refine ⟨found, hfd, fun other inherit => ?_, fun h => h.modify ?_ ?_⟩
  · rw [linked?, linked?, get?_modify]
    by_cases hoth : other = id
    · subst hoth
      cases link <;> cases inherit <;> simp [hd, Link.isInherit, Link.apply, Definition.underlying?]
    · rw [if_neg (Ne.symm hoth), if_neg fun e => hoth e.1]
  all_goals cases link <;> exact fun _ => rfl

theorem Linking.makes (h : ns.Linking rows) {found : DefId} (hmakes : ns.Makes id link found ns') :
    ns'.Linking rows := by
  refine ⟨hmakes.kept h.toCharted, h.nodup, fun {other inherit next} hlinked => ?_⟩
  rw [hmakes.linked_eq] at hlinked
  split at hlinked
  · cases hlinked
    obtain ⟨_, _, hat, _⟩ := (h.lookup_iff _ _).mp hmakes.lookup_eq
    exact pathAt_lt hat
  · exact h.linked_lt hlinked

section

variable {found : DefId} (hmakes : ns.Makes id link found ns')
include hmakes

theorem Makes.extends_cases (h : ns'.Extends rows path upper) : ns.Extends rows path upper ∨
    link.isInherit = true ∧ pathAt rows id = some path ∧ pathAt rows found = some upper := by
  obtain ⟨other, next, hlinked, hpath, hupper⟩ := h
  rw [hmakes.linked_eq] at hlinked
  split at hlinked
  · rename_i hsame
    obtain ⟨rfl, hinh⟩ := hsame
    cases hlinked
    exact .inr ⟨hinh.symm, hpath, hupper⟩
  · exact .inl ⟨other, next, hlinked, hpath, hupper⟩

theorem Makes.extends_new (hinh : link.isInherit = true) (hpath : pathAt rows id = some path)
    (hupper : pathAt rows found = some upper) : ns'.Extends rows path upper :=
  ⟨id, found, by rw [hmakes.linked_eq, if_pos ⟨rfl, hinh.symm⟩], hpath, hupper⟩

theorem Makes.extends_old (h : ns.Extends rows path upper) :
    ns'.Extends rows path upper ∨ link.isInherit = true ∧ pathAt rows id = some path := by
  obtain ⟨other, next, hlinked, hpath, hupper⟩ := h
  by_cases hsame : other = id ∧ true = link.isInherit
  · obtain ⟨rfl, hinh⟩ := hsame
    exact .inr ⟨hinh.symm, hpath⟩
  · exact .inl ⟨other, next, by rw [hmakes.linked_eq, if_neg hsame, hlinked], hpath, hupper⟩

end

/-- A definition, and which of its links. -/
def slot (entry : DefId × Link) : DefId × Bool := (entry.1, entry.2.isInherit)

/-- Links were made: each is there, and leads to what its name means now. -/
structure Settles (ns : Namespace) (rows : List Row) (links : List (DefId × Link)) (ns' : Namespace) :
    Prop where
  linking : ns'.Linking rows
  others : ∀ {id inherit}, (id, inherit) ∉ links.map slot → ns'.linked? id inherit = ns.linked? id inherit
  made : ∀ entry ∈ links, ∃ next passed found, ns'.linked? entry.1 entry.2.isInherit = some next ∧
    pathAt rows next = some found ∧ Means rows (ns'.Extends rows) entry.2.name passed found

/-- **Links that were made stay**, and so does what names mean. -/
theorem linkAll_settles : ∀ (links : List (DefId × Link)) {ns ns' : Namespace}, ns.Linking rows →
    (∀ entry ∈ links, entry.1 < rows.length) → (links.map slot).Nodup →
    (∀ entry ∈ links, ns.linked? entry.1 entry.2.isInherit = none) → ns.linkAll links = .ok ns' →
    ns.Settles rows links ns'
  | [], ns, ns', h, _, _, _, hlinks => by
    cases hlinks
    exact ⟨h, fun _ => rfl, nofun⟩
  | (id, link) :: rest, ns, ns', h, hlt, hnd, hfree, hlinks => by
    obtain ⟨between, hlink, hlinks⟩ := linkAll_cons.mp hlinks
    obtain ⟨hid, hlt⟩ := forall_mem_cons.mp hlt
    obtain ⟨hown, hfree⟩ := forall_mem_cons.mp hfree
    obtain ⟨hnew, hnd⟩ := nodup_cons.mp hnd
    obtain ⟨found, hmakes⟩ := link_makes (h.size_eq ▸ hid) hlink
    have hbetween := h.makes hmakes
    have hfree' : ∀ entry ∈ rest, between.linked? entry.1 entry.2.isInherit = none := by
      intro entry hmem
      rw [hmakes.linked_eq, if_neg, hfree entry hmem]
      rintro ⟨hsame, hkind⟩
      exact hnew (List.mem_map.mpr ⟨entry, hmem, Prod.ext hsame hkind⟩)
    have hsettles := linkAll_settles rest hbetween hlt hnd hfree' hlinks
    -- nothing that was linked before is linked again
    have hstay : ∀ other inherit next, ns.linked? other inherit = some next →
        ns'.linked? other inherit = some next := by
      intro other inherit next hlinked
      have hold : between.linked? other inherit = some next := by
        rw [hmakes.linked_eq, if_neg, hlinked]
        rintro ⟨rfl, rfl⟩
        cases hown.symm.trans hlinked
      rw [hsettles.others, hold]
      intro hmem
      obtain ⟨entry, hent, hslot⟩ := List.mem_map.mp hmem
      cases hslot
      cases (hfree' entry hent).symm.trans hold
    refine ⟨hsettles.linking, fun {other inherit} hnot => ?_, ?_⟩
    · rw [map_cons, mem_cons, not_or] at hnot
      rw [hsettles.others hnot.2, hmakes.linked_eq, if_neg]
      rintro ⟨rfl, rfl⟩
      exact hnot.1 rfl
    · refine forall_mem_cons.mpr ⟨?_, hsettles.made⟩
      obtain ⟨passed, target, hat, hwalk⟩ := (h.lookup_iff _ _).mp hmakes.lookup_eq
      refine ⟨found, passed, target, ?_, hat, ?_⟩
      · rw [hsettles.others hnew, hmakes.linked_eq, if_pos ⟨rfl, rfl⟩]
      · exact hwalk.transfer fun other _ upper ⟨id, next, hlinked, hends⟩ =>
          ⟨id, next, hstay id true next hlinked, hends⟩

/-- **No link is made that is not in a set of links closed under lookups.** -/
theorem linkAll_within {E : List String → List String → Prop} : ∀ (links : List (DefId × Link))
    {ns ns' : Namespace}, ns.Linking rows → (∀ entry ∈ links, entry.1 < rows.length) →
    (∀ path upper, ns.Extends rows path upper → E path upper) →
    (∀ entry ∈ links, entry.2.isInherit = true → ∀ path passed found,
      pathAt rows entry.1 = some path → Means rows E entry.2.name passed found → E path found) →
    ns.linkAll links = .ok ns' → ∀ path upper, ns'.Extends rows path upper → E path upper
  | [], ns, ns', _, _, hwithin, _, hlinks => by
    cases hlinks
    exact hwithin
  | (id, link) :: rest, ns, ns', h, hlt, hwithin, hcl, hlinks => by
    obtain ⟨between, hlink, hlinks⟩ := linkAll_cons.mp hlinks
    obtain ⟨hid, hlt⟩ := forall_mem_cons.mp hlt
    obtain ⟨hnew, hcl⟩ := forall_mem_cons.mp hcl
    obtain ⟨found, hmakes⟩ := link_makes (h.size_eq ▸ hid) hlink
    refine linkAll_within rest (h.makes hmakes) hlt (fun path upper hext => ?_) hcl hlinks
    rcases hmakes.extends_cases hext with hold | ⟨hinh, hpath, hupper⟩
    · exact hwithin path upper hold
    · obtain ⟨passed, target, hat, hwalk⟩ := (h.lookup_iff _ _).mp hmakes.lookup_eq
      cases hupper.symm.trans hat
      exact hnew hinh path passed upper hpath
        (hwalk.transfer fun other _ upper hlink => hwithin other upper hlink)

/-- A link can be made: in the links of `E` its name leads to where `E` has it, and passes only
    definitions whose links have been made. -/
def Ready (rows : List Row) (E : List String → List String → Prop) (made : List (DefId × Link))
    (entry : DefId × Link) : Prop :=
  ∃ passed found, Means rows E entry.2.name passed found ∧
    (entry.2.isInherit = true → ∀ path, pathAt rows entry.1 = some path → E path found) ∧
    ∀ path ∈ passed, ∃ other ∈ made, other.2.isInherit = true ∧ pathAt rows other.1 = some path

/-- **Links are made as long as each can be made in its turn.** -/
theorem linkAll_ok {E : List String → List String → Prop} (hE : Functional E) :
    ∀ (links made : List (DefId × Link)) {ns : Namespace}, ns.Linking rows →
    (∀ entry ∈ links, entry.1 < rows.length) →
    (∀ path upper, ns.Extends rows path upper → E path upper) →
    (∀ entry ∈ made, entry.2.isInherit = true → ∀ path upper, pathAt rows entry.1 = some path →
      E path upper → ns.Extends rows path upper) →
    (∀ before entry after, links = before ++ entry :: after → Ready rows E (made ++ before) entry) →
    ∃ ns', ns.linkAll links = .ok ns'
  | [], _, ns, _, _, _, _, _ => ⟨ns, rfl⟩
  | (id, link) :: rest, made, ns, h, hlt, hwithin, hmade, hready => by
    obtain ⟨passed, target, hwalk, htgt, hpass⟩ := hready [] (id, link) rest rfl
    rw [append_nil] at hpass
    obtain ⟨hid, hlt⟩ := forall_mem_cons.mp hlt
    -- the walk passes definitions whose links are there
    have hnow : Means rows (ns.Extends rows) link.name passed target := by
      refine hwalk.transfer fun path hmem upper hlink => ?_
      obtain ⟨other, hoth, hinh, hpath⟩ := hpass path hmem
      exact hmade other hoth hinh path upper hpath hlink
    have hdecl := hnow.is_declared (by rw [segments_eq]; exact cons_ne_nil _ _)
    obtain ⟨found, hat⟩ := pathAt_of_mem hdecl
    have hlook := (h.lookup_iff link.name found).mpr ⟨passed, target, hat, hnow⟩
    obtain ⟨between, hlink⟩ : ∃ between, ns.link id link = .ok between :=
      ⟨_, link_eq_ok.mpr ⟨found, hlook, rfl⟩⟩
    obtain ⟨found', hmakes⟩ := link_makes (h.size_eq ▸ hid) hlink
    cases hlook.symm.trans hmakes.lookup_eq
    have hwithin' : ∀ path upper, between.Extends rows path upper → E path upper := by
      intro path upper hext
      rcases hmakes.extends_cases hext with hold | ⟨hinh, hpath, hupper⟩
      · exact hwithin path upper hold
      · cases hupper.symm.trans hat
        exact htgt hinh path hpath
    have hmade' : ∀ entry ∈ made ++ [(id, link)], entry.2.isInherit = true → ∀ path upper,
        pathAt rows entry.1 = some path → E path upper → between.Extends rows path upper := by
      intro entry hmem hinh path upper hpath hlink
      rcases mem_append.mp hmem with hmem | hmem
      · rcases hmakes.extends_old (hmade entry hmem hinh path upper hpath hlink) with
          hstay | ⟨hnew, hown⟩
        · exact hstay
        · obtain rfl := hE _ _ _ hlink (htgt hnew path hown)
          exact hmakes.extends_new hnew hown hat
      · obtain rfl := mem_singleton.mp hmem
        obtain rfl := hE _ _ _ hlink (htgt hinh path hpath)
        exact hmakes.extends_new hinh hpath hat
    obtain ⟨ns', hns'⟩ := linkAll_ok hE rest (made ++ [(id, link)]) (h.makes hmakes) hlt hwithin' hmade'
      fun before entry after hsplit => by
        have hready := hready ((id, link) :: before) entry after (by rw [hsplit]; rfl)
        rwa [append_cons] at hready
    exact ⟨ns', linkAll_cons.mpr ⟨between, hlink, hns'⟩⟩

theorem linkAll_append : ∀ (links more : List (DefId × Link)) {ns ns' : Namespace},
    ns.linkAll (links ++ more) = .ok ns' →
    ∃ between, ns.linkAll links = .ok between ∧ between.linkAll more = .ok ns'
  | [], _, ns, _, h => ⟨ns, rfl, h⟩
  | _ :: rest, more, ns, ns', h => by
    obtain ⟨next, hlink, hrest⟩ := linkAll_cons.mp h
    obtain ⟨between, hbefore, hafter⟩ := linkAll_append rest more hrest
    exact ⟨between, linkAll_cons.mpr ⟨next, hlink, hbefore⟩, hafter⟩

end Namespace

/-! ## 4. Forests -/

/-- The name that a link is to be made for. -/
def Declaration.wish (d : Declaration) (inherit : Bool) : Option String :=
  if inherit then d.superName else d.flavorOf

theorem Declaration.mem_links {d : Declaration} {other : DefId} :
    (other, link) ∈ d.links id ↔ other = id ∧ d.wish link.isInherit = some link.name := by
  cases link <;>
    simp only [links, wish, Link.isInherit, Link.name, mem_append, List.mem_map, mem_toList,
      Prod.mk.injEq, Link.inherit.injEq, Link.flavor.injEq, reduceCtorEq, and_false, exists_false,
      or_false, false_or, if_true, Bool.false_eq_true, if_false]
  all_goals
    constructor
    · rintro ⟨_, hwish, rfl, rfl⟩
      exact ⟨rfl, hwish⟩
    · rintro ⟨rfl, hwish⟩
      exact ⟨_, hwish, rfl, rfl⟩

theorem mem_linksFrom : (id, link) ∈ linksFrom 0 rows ↔ ∃ row, rows[id]? = some row ∧
    row.declaration.wish link.isInherit = some link.name := by
  simp only [linksFrom, mem_flatMap, Prod.exists, Declaration.mem_links, mk_mem_zipIdx_iff_getElem?]
  constructor
  · rintro ⟨row, other, hrow, rfl, hwish⟩
    exact ⟨row, hrow, hwish⟩
  · rintro ⟨row, hrow, hwish⟩
    exact ⟨row, id, hrow, rfl, hwish⟩

theorem linksFrom_nodup (rows : List Row) : ∀ first : DefId,
    ((linksFrom first rows).map Namespace.slot).Nodup ∧
      ∀ entry ∈ linksFrom first rows, first ≤ entry.1 := by
  induction rows with
  | nil => exact fun first => ⟨nodup_nil, nofun⟩
  | cons row rows ih =>
    intro first
    obtain ⟨hnd, hle⟩ := ih (first + 1)
    rw [linksFrom_cons, map_append]
    refine ⟨nodup_append.mpr ⟨?_, hnd, ?_⟩, ?_⟩
    · unfold Declaration.links
      cases row.declaration.superName <;> cases row.declaration.flavorOf <;>
        simp [Namespace.slot, Link.isInherit]
    · rintro slot hleft other hright rfl
      obtain ⟨entry, hent, hslot⟩ := List.mem_map.mp hleft
      obtain ⟨entry', hent', hslot'⟩ := List.mem_map.mp hright
      have hfst := (Declaration.mem_links.mp hent).1
      have hlater := hle entry' hent'
      have hsame : entry.1 = entry'.1 := (Prod.mk.inj (hslot.trans hslot'.symm)).1
      rw [← hsame, hfst] at hlater
      exact Nat.not_succ_le_self _ hlater
    · intro entry hmem
      rcases mem_append.mp hmem with hmem | hmem
      · exact Nat.le_of_eq (Declaration.mem_links.mp hmem).1.symm
      · exact Nat.le_of_succ_le (hle entry hmem)

namespace Namespace

/-- All links that were declared have been made, and no others. -/
structure Loaded (ns : Namespace) (rows : List Row) : Prop extends ns.Linking rows where
  wished : ∀ {id row inherit name}, rows[id]? = some row → row.declaration.wish inherit = some name →
    ∃ next passed found, ns.linked? id inherit = some next ∧ pathAt rows next = some found ∧
      Means rows (ns.Extends rows) name passed found
  unwished : ∀ {id row inherit}, rows[id]? = some row → row.declaration.wish inherit = none →
    ns.linked? id inherit = none

theorem Unlinked.linked_eq_none (h : ns.Unlinked rows) (hsize : ns.size = rows.length) (id : DefId)
    (inherit : Bool) : ns.linked? id inherit = none := by
  rw [linked?]
  cases hd : ns.get? id with
  | none => rfl
  | some d =>
    obtain ⟨row, hrow⟩ : ∃ row, rows[id]? = some row :=
      ⟨_, getElem?_eq_getElem (hsize ▸ lt_of_get? hd)⟩
    obtain ⟨hsuper, hkind⟩ := h id d row hd hrow
    have hunderlying : d.underlying? = none := by
      rw [Definition.underlying?, hkind, Declaration.kind]
      split
      · rename_i e
        split at e
        · cases e
        · split at e <;> cases e
      · rfl
    cases inherit
    · exact hunderlying
    · exact hsuper

theorem Unlinked.linking (h : ns.Unlinked rows) (hcharted : ns.Charted rows)
    (hnd : (rows.map Row.path).Nodup) : ns.Linking rows :=
  ⟨hcharted, hnd, fun hlinked => nomatch (h.linked_eq_none hcharted.size_eq _ _).symm.trans hlinked⟩

theorem linksFrom_lt (rows : List Row) : ∀ entry ∈ linksFrom 0 rows, entry.1 < rows.length := by
  intro entry hmem
  obtain ⟨row, hrow, _⟩ := mem_linksFrom.mp hmem
  exact (List.getElem?_eq_some_iff.mp hrow).1

/-- **What is loaded has the links that were declared.** -/
theorem Unlinked.loaded (h : ns.Unlinked rows) (hcharted : ns.Charted rows)
    (hnd : (rows.map Row.path).Nodup) (hlinks : ns.linkAll (linksFrom 0 rows) = .ok ns') :
    ns'.Loaded rows := by
  have hnone := h.linked_eq_none hcharted.size_eq
  have hsettles := linkAll_settles _ (h.linking hcharted hnd) (linksFrom_lt rows)
    (linksFrom_nodup rows 0).1 (fun _ _ => hnone _ _) hlinks
  refine ⟨hsettles.linking, fun {id row inherit name} hrow hwish => ?_,
    fun {id row inherit} hrow hwish => ?_⟩
  · cases inherit with
    | false => exact hsettles.made (id, .flavor name) (mem_linksFrom.mpr ⟨row, hrow, hwish⟩)
    | true => exact hsettles.made (id, .inherit name) (mem_linksFrom.mpr ⟨row, hrow, hwish⟩)
  · rw [hsettles.others, hnone]
    intro hmem
    obtain ⟨entry, hent, hslot⟩ := List.mem_map.mp hmem
    cases hslot
    obtain ⟨row', hrow', hwish'⟩ := mem_linksFrom.mp hent
    cases hrow.symm.trans hrow'
    cases hwish.symm.trans hwish'

theorem Charted.fullName_at (h : ns.Charted rows) (hpath : pathAt rows id = some path) :
    ns.fullName id = ofPath path := by
  obtain ⟨d, hd⟩ := get?_of_lt (h.size_eq ▸ pathAt_lt hpath)
  rw [← h.fullName_eq hd hpath]
  simp only [fullName, hd]

theorem Charted.segments_at (h : ns.Charted rows)
    (hund : ∀ row ∈ rows, ∀ name ∈ row.path, isDotted name = false)
    (hpath : pathAt rows id = some path) : segments (ofPath path) = path := by
  obtain ⟨row, hrow, rfl⟩ := map_eq_some_iff.mp hpath
  exact segments_ofPath (h.path_ne hpath) (hund row (mem_of_getElem? hrow))

/-! ## 5. Two orders -/

/-- What was loaded in one order, and what is to be loaded in the other. -/
structure Rival (ns : Namespace) (rows : List Row) (ns' : Namespace) (rows' : List Row) : Prop where
  charted : ns.Charted rows
  unlinked : ns.Unlinked rows
  nodup : (rows.map Row.path).Nodup
  perm : rows.Perm rows'
  loaded : ns'.Loaded rows'

namespace Rival

variable (h : Rival ns rows ns' rows')
include h

theorem isPath_eq : IsPath rows' = IsPath rows := by
  funext path
  exact propext (h.perm.map Row.path).mem_iff.symm

theorem meant {entry : DefId × Link} (hmem : entry ∈ linksFrom 0 rows) : ∃ passed found,
    Means rows (ns'.Extends rows') entry.2.name passed found ∧ (entry.2.isInherit = true →
      ∀ path, pathAt rows entry.1 = some path → ns'.Extends rows' path found) := by
  obtain ⟨row, hrow, hwish⟩ := mem_linksFrom.mp hmem
  obtain ⟨id, hid⟩ := mem_iff_getElem?.mp (h.perm.mem_iff.mp (mem_of_getElem? hrow))
  obtain ⟨next, passed, found, hlinked, hat, hwalk⟩ := h.loaded.wished hid hwish
  rw [Means, h.isPath_eq, ← h.perm.length_eq] at hwalk
  refine ⟨passed, found, hwalk, fun hinh path hpath => ?_⟩
  rw [pathAt_of_row hrow] at hpath
  cases hpath
  exact ⟨id, next, hinh ▸ hlinked, pathAt_of_row hid, hat⟩

theorem linking : ns.Linking rows := h.unlinked.linking h.charted h.nodup

theorem not_extends : ¬ ns.Extends rows path upper := fun ⟨_, _, hlinked, _⟩ =>
  nomatch (h.unlinked.linked_eq_none h.charted.size_eq _ _).symm.trans hlinked

/-- **The links of one order are those of the other**, as far as they have been made. -/
theorem within {links : List (DefId × Link)}
    (hsub : ∀ entry ∈ links, entry ∈ linksFrom 0 rows) (hlinks : ns.linkAll links = .ok final)
    (path upper : List String) (hext : final.Extends rows path upper) :
    ns'.Extends rows' path upper := by
  refine linkAll_within links h.linking (fun entry hmem => linksFrom_lt rows entry (hsub entry hmem))
    (fun _ _ hnone => absurd hnone h.not_extends)
    (fun entry hmem hinh path passed found hpath hwalk => ?_) hlinks path upper hext
  obtain ⟨passed', found', hwalk', hext⟩ := h.meant (hsub entry hmem)
  obtain ⟨_, rfl⟩ := hwalk.unique h.loaded.functional hwalk'
  exact hext hinh path hpath

end Rival

/-- Every link is made after those that its name goes through. -/
def InTurn (rows : List Row) (E : List String → List String → Prop) : Prop :=
  ∀ before entry after, linksFrom 0 rows = before ++ entry :: after → ∀ passed found,
    Means rows E entry.2.name passed found →
    ∀ path ∈ passed, ∃ other ∈ before, other.2.isInherit = true ∧ pathAt rows other.1 = some path

namespace Rival

theorem inTurn (h : Rival ns rows ns' rows') (hlinks : ns.linkAll (linksFrom 0 rows) = .ok final) :
    InTurn rows (ns'.Extends rows') := by
  intro before entry after hsplit passed found hwalk path hmem
  have hsub : ∀ other ∈ before, other ∈ linksFrom 0 rows := fun other hoth => by
    simp [hsplit, hoth]
  rw [hsplit] at hlinks
  obtain ⟨between, hbefore, hrest⟩ := linkAll_append before _ hlinks
  have hnone := h.unlinked.linked_eq_none h.charted.size_eq
  have hslots : (before.map slot).Nodup := by
    have hall := (linksFrom_nodup rows 0).1
    rw [hsplit, map_append] at hall
    exact (nodup_append.mp hall).1
  have hsettles := linkAll_settles before h.linking
    (fun other hoth => linksFrom_lt rows other (hsub other hoth)) hslots (fun _ _ => hnone _ _) hbefore
  -- what the name meant when the link was made
  obtain ⟨passed', found', hnow⟩ : ∃ passed' found',
      Means rows (between.Extends rows) entry.2.name passed' found' := by
    obtain ⟨_, hlink, _⟩ := linkAll_cons.mp hrest
    obtain ⟨next, hlook, _⟩ := link_eq_ok.mp hlink
    obtain ⟨passed', found', _, hnow⟩ := (hsettles.linking.lookup_iff _ _).mp hlook
    exact ⟨passed', found', hnow⟩
  have hlater := hnow.transfer fun other _ upper => h.within hsub hbefore other upper
  obtain ⟨rfl, rfl⟩ := hwalk.unique h.loaded.functional hlater
  obtain ⟨upper, id, next, hlinked, hpath, _⟩ := hnow.linked path hmem
  refine Classical.byContradiction fun hnot => ?_
  rw [hsettles.others, hnone] at hlinked
  · cases hlinked
  · intro hslot
    obtain ⟨other, hoth, heq⟩ := List.mem_map.mp hslot
    obtain ⟨rfl, hinh⟩ := Prod.mk.inj heq
    exact hnot ⟨other, hoth, hinh, hpath⟩

theorem loads (h : Rival ns rows ns' rows') (hturn : InTurn rows (ns'.Extends rows')) :
    ∃ final, ns.linkAll (linksFrom 0 rows) = .ok final := by
  refine linkAll_ok h.loaded.functional _ [] h.linking (linksFrom_lt rows)
    (fun _ _ hnone => absurd hnone h.not_extends) nofun fun before entry after hsplit => ?_
  have hmem : entry ∈ linksFrom 0 rows := by simp [hsplit]
  obtain ⟨passed, found, hwalk, hext⟩ := h.meant hmem
  exact ⟨passed, found, hwalk, hext, hturn before entry after hsplit passed found hwalk⟩

/-- **In both orders a link leads to the same path.** -/
theorem linked_path (h : Rival ns rows ns' rows') (hloaded : final.Loaded rows)
    (hext : ∀ path upper, final.Extends rows path upper ↔ ns'.Extends rows' path upper)
    {id' : DefId} (hrow : rows[id]? = some row) (hrow' : rows'[id']? = some row) (inherit : Bool) :
    (final.linked? id inherit).map final.fullName = (ns'.linked? id' inherit).map ns'.fullName := by
  cases hwish : row.declaration.wish inherit with
  | none => rw [hloaded.unwished hrow hwish, h.loaded.unwished hrow' hwish]; rfl
  | some name =>
    obtain ⟨next, passed, found, hlinked, hat, hwalk⟩ := hloaded.wished hrow hwish
    obtain ⟨next', passed', found', hlinked', hat', hwalk'⟩ := h.loaded.wished hrow' hwish
    rw [Means, h.isPath_eq, ← h.perm.length_eq] at hwalk'
    have hsame := hwalk.transfer fun path _ upper => (hext path upper).mp
    obtain ⟨_, rfl⟩ := hsame.unique h.loaded.functional hwalk'
    rw [hlinked, hlinked', map_some, map_some, hloaded.fullName_at hat, h.loaded.fullName_at hat']

end Rival

end Namespace

namespace Forest

/-- The links of a forest by full names, in the order in which they are made. -/
def pending (forest : Forest) : List (String × Link) :=
  let (ns, links) := Tree.declareAll none forest.trees .empty
  links.map fun (id, link) => (ns.fullName id, link)

/-- In the order of the forest, no name is looked up before the links to superdefinitions that it goes
    through have been made. What a name goes through is read off a namespace in which all links are. -/
def Timely (forest : Forest) (ns : Namespace) : Prop :=
  ∀ before owner link after, forest.pending = before ++ (owner, link) :: after →
    ∀ id ∈ ns.lookupPassed link.name, ∃ superName, (ns.fullName id, .inherit superName) ∈ before

variable {forest forest' : Forest}

theorem begun (hnd : ((Tree.allRows [] forest.trees).map Row.path).Nodup) :
    ∃ ns : Namespace, ns.Charted (Tree.allRows [] forest.trees) ∧
      ns.Unlinked (Tree.allRows [] forest.trees) ∧
      forest.load = ns.linkAll (linksFrom 0 (Tree.allRows [] forest.trees)) ∧
      forest.pending = (linksFrom 0 (Tree.allRows [] forest.trees)).map fun entry =>
        (ns.fullName entry.1, entry.2) := by
  obtain ⟨hdecl, hlinks⟩ := declared_charted hnd
  exact ⟨_, hdecl.toCharted, hdecl.unlinked, congrArg (linkAll _) hlinks, congrArg (List.map _) hlinks⟩

theorem timely_iff {ns₀ : Namespace} (h : ns₀.Rival rows ns' rows')
    (hund : ∀ row ∈ rows, ∀ name ∈ row.path, isDotted name = false)
    (hpending : forest.pending = (linksFrom 0 rows).map fun entry => (ns₀.fullName entry.1, entry.2)) :
    forest.Timely ns' ↔ Namespace.InTurn rows (ns'.Extends rows') := by
  have hpass : ∀ {name passed found}, Namespace.Means rows (ns'.Extends rows') name passed found →
      (ns'.lookupPassed name).map (pathAt rows') = passed.map some := by
    intro name passed found hwalk
    rw [Namespace.Means, ← h.isPath_eq, h.perm.length_eq] at hwalk
    exact h.loaded.lookupPassed_eq hwalk
  constructor
  · intro htimely before entry after hsplit passed found hwalk path hmem
    obtain ⟨id, hid, hpath⟩ : ∃ id ∈ ns'.lookupPassed entry.2.name, pathAt rows' id = some path := by
      have hsome : some path ∈ (ns'.lookupPassed entry.2.name).map (pathAt rows') := by
        rw [hpass hwalk]
        exact List.mem_map_of_mem hmem
      exact List.mem_map.mp hsome
    obtain ⟨superName, hbefore⟩ := htimely (before.map fun entry => (ns₀.fullName entry.1, entry.2))
      _ entry.2 _ (by rw [hpending, hsplit, map_append]; rfl) id hid
    obtain ⟨other, hoth, heq⟩ := List.mem_map.mp hbefore
    obtain ⟨hname, hlink⟩ := Prod.mk.inj heq
    have hmem : other ∈ linksFrom 0 rows := by simp [hsplit, hoth]
    obtain ⟨path', hpath'⟩ := pathAt_of_lt (linksFrom_lt rows other hmem)
    obtain ⟨same, hsame⟩ := pathAt_of_mem ((h.perm.map Row.path).mem_iff.mpr (mem_of_pathAt hpath))
    rw [h.charted.fullName_at hpath', h.loaded.fullName_at hpath] at hname
    have heq : path' = path := by
      rw [← h.charted.segments_at hund hpath', hname, h.charted.segments_at hund hsame]
    exact ⟨other, hoth, by rw [hlink]; rfl, heq ▸ hpath'⟩
  · intro hturn before owner link after hsplit id hid
    rw [hpending] at hsplit
    obtain ⟨first, rest, hlinks, rfl, hrest⟩ := map_eq_append_iff.mp hsplit
    obtain ⟨entry, last, rfl, hent, rfl⟩ := map_eq_cons_iff.mp hrest
    obtain ⟨_, rfl⟩ := Prod.mk.inj hent
    have hmem : entry ∈ linksFrom 0 rows := by simp [hlinks]
    obtain ⟨passed, found, hwalk, _⟩ := h.meant hmem
    obtain ⟨path, hpath, hat⟩ : ∃ path ∈ passed, some path = pathAt rows' id := by
      have hsome : pathAt rows' id ∈ passed.map some := by
        rw [← hpass hwalk]
        exact List.mem_map_of_mem hid
      exact List.mem_map.mp hsome
    obtain ⟨other, hoth, hinh, hpath'⟩ :=
      hturn first entry last hlinks passed found hwalk path hpath
    refine ⟨other.2.name, List.mem_map.mpr ⟨other, hoth, ?_⟩⟩
    rw [h.charted.fullName_at hpath', h.loaded.fullName_at hat.symm]
    cases hlink : other.2 with
    | inherit name => rfl
    | flavor name =>
      rw [hlink] at hinh
      cases hinh

/-- **The order of siblings does not decide what a forest loads as.** Where the names of siblings are
    different and not dotted: if a forest loads in one order, it loads in those orders in which no name
    is looked up before the links to superdefinitions that it goes through, and then it has the same
    definitions, which have superdefinitions and are flavors of the same full names. -/
theorem load_reordered (hseparate : Tree.allSeparate forest.trees = true)
    (horder : Tree.Reordered forest.trees forest'.trees) {ns' : Namespace}
    (hload' : forest'.load = .ok ns') :
    ((∃ ns, forest.load = .ok ns) ↔ forest.Timely ns') ∧
    ∀ ns, forest.load = .ok ns → ns.size = ns'.size ∧
      ∀ id d, ns.get? id = some d → ∃ id' d', ns'.get? id' = some d' ∧ d'.fullName = d.fullName ∧
        (∀ other found, ns'.get? other = some found → found.fullName = d.fullName → other = id') ∧
        d'.superdefinition.map ns'.fullName = d.superdefinition.map ns.fullName ∧
        d'.underlying?.map ns'.fullName = d.underlying?.map ns.fullName := by
  have hperm := horder.rows_perm []
  have hnodup := Tree.allRows_nodup [] forest.trees hseparate
  have hnone : ∀ name ∈ ([] : List String), DottedName.isDotted name = false := nofun
  have hundotted := Tree.allRows_undotted hnone forest.trees hseparate
  have hnodup' := (hperm.map Row.path).nodup_iff.mp hnodup
  obtain ⟨ns₀, hcharted, hunlinked, hload, hpending⟩ := begun hnodup
  obtain ⟨ns₁, hcharted', hunlinked', hlinks', _⟩ := begun hnodup'
  have hloaded' := hunlinked'.loaded hcharted' hnodup' (hlinks'.symm.trans hload')
  have hrival : ns₀.Rival _ ns' _ := ⟨hcharted, hunlinked, hnodup, hperm, hloaded'⟩
  refine ⟨?_, fun ns hns => ?_⟩
  · rw [timely_iff hrival hundotted hpending, hload]
    exact ⟨fun ⟨ns, hns⟩ => hrival.inTurn hns, hrival.loads⟩
  · rw [hload] at hns
    have hloaded := hunlinked.loaded hcharted hnodup hns
    have hrival' : ns₁.Rival _ ns _ := ⟨hcharted', hunlinked', hnodup', hperm.symm, hloaded⟩
    have hextends : ∀ path upper, ns.Extends _ path upper ↔ ns'.Extends _ path upper := fun path upper =>
      ⟨hrival.within (fun _ h => h) hns path upper,
        hrival'.within (fun _ h => h) (hlinks'.symm.trans hload') path upper⟩
    refine ⟨by rw [hloaded.size_eq, hloaded'.size_eq, hperm.length_eq], fun id d hd => ?_⟩
    obtain ⟨row, hrow⟩ : ∃ row, (Tree.allRows [] forest.trees)[id]? = some row :=
      ⟨_, List.getElem?_eq_getElem (hloaded.size_eq ▸ Namespace.lt_of_get? hd)⟩
    obtain ⟨id', hrow'⟩ := List.mem_iff_getElem?.mp (hperm.mem_iff.mp (List.mem_of_getElem? hrow))
    have hpath' := Namespace.pathAt_of_row hrow'
    obtain ⟨d', hd'⟩ := hloaded'.get? hpath'
    have hfullName : d.fullName = DottedName.ofPath row.path :=
      hloaded.fullName_eq hd (Namespace.pathAt_of_row hrow)
    have hlinked := hrival.linked_path hloaded hextends hrow hrow'
    simp only [Namespace.linked?, hd, hd'] at hlinked
    refine ⟨id', d', hd', (hloaded'.fullName_eq hd' hpath').trans hfullName.symm,
      fun other found hfound hname => ?_, (hlinked true).symm, (hlinked false).symm⟩
    have hundotted' : ∀ row ∈ Tree.allRows [] forest'.trees, ∀ name ∈ row.path,
        DottedName.isDotted name = false := fun row hmem => hundotted row (hperm.mem_iff.mpr hmem)
    obtain ⟨path, hother⟩ := Namespace.pathAt_of_lt (hloaded'.size_eq ▸ Namespace.lt_of_get? hfound)
    have hsame : path = row.path := by
      rw [← hloaded'.segments_at hundotted' hother, ← hloaded'.fullName_eq hfound hother, hname,
        hfullName, hloaded'.segments_at hundotted' hpath']
    exact pathAt_inj hnodup' (hsame ▸ hother) hpath'

/-- The namespace of a forest that loads. -/
def space (forest : Forest) : Namespace := forest.load.toOption.getD .empty

theorem load_eq_space (h : forest.load.toOption.isSome = true) :
    forest.load = .ok forest.space := by
  unfold space
  match forest.load, h with
  | .ok ns, _ => rfl

/-- A fern that extends the moss of a grove, a grove that extends a wood, and a wood with moss in it. -/
def fern : Tree := .node { name := "fern", superName := some "grove.moss" } []

def grove : Tree := .node { name := "grove", superName := some "wood" } []

def wood : Tree := .node { name := "wood" } [.node { name := "moss" } []]

/-- Names may point forward, and go through an inherited child, as that of the fern does. -/
theorem load_reordered_grove : ∃ ns ns', Forest.load ⟨[grove, fern, wood]⟩ = .ok ns ∧
    Forest.load ⟨[wood, grove, fern]⟩ = .ok ns' ∧ Forest.Timely ⟨[grove, fern, wood]⟩ ns' ∧
    ∀ id d, ns.get? id = some d → ∃ id' d', ns'.get? id' = some d' ∧ d'.fullName = d.fullName ∧
      d'.superdefinition.map ns'.fullName = d.superdefinition.map ns.fullName := by
  have hns := @load_eq_space ⟨[grove, fern, wood]⟩ (by decide +kernel)
  have hns' := @load_eq_space ⟨[wood, grove, fern]⟩ (by decide +kernel)
  have horder : Tree.Reordered [grove, fern, wood] [wood, grove, fern] :=
    .trans (.cons _ .nil (.swap fern wood [])) (.swap grove wood [fern])
  obtain ⟨htimely, hsame⟩ := @load_reordered ⟨[grove, fern, wood]⟩ ⟨[wood, grove, fern]⟩
    (by decide +kernel) horder _ hns'
  refine ⟨_, _, hns, hns', htimely.mp ⟨_, hns⟩, fun id d hd => ?_⟩
  obtain ⟨id', d', hd', hname, _, hsuper, _⟩ := (hsame _ hns).2 id d hd
  exact ⟨id', d', hd', hname, hsuper⟩

/-- **The order of siblings decides whether a forest loads.** The fern comes before the grove, whose
    superdefinition its name goes through. -/
theorem load_order_matters : Tree.allSeparate [fern, grove, wood] = true ∧
    (Forest.load ⟨[fern, grove, wood]⟩).toOption.isSome = false ∧
    (Forest.load ⟨[grove, fern, wood]⟩).toOption.isSome = true := by
  decide +kernel

end Forest

end KeepTree
