import KeepTree.Proofs.Namespace.Declarations
import KeepTree.Proofs.Termination.Numbers

/-!
# Loaded namespaces

What is written in a tree of declarations refers to definitions by name, and a link is made to what
the name means. So a namespace that was loaded holds every definition that it refers to, and all
that it holds was written:

* `Tree.readsNumeric` -- **the calls of a tree that was read are made of numbers**;
* `Namespace.read_proper` -- **a namespace that was read is proper**.
-/

namespace KeepTree

open KeepTree.Tree Option

variable {ns ns' : Namespace} {id next : DefId} {bound bound' : Nat} {trees : List Tree}
  {d : Declaration} {text name : String} {f : Definition → Definition}

/-! ## 1. What is written in a tree -/

/-- The calls of a declaration. -/
def Declaration.calls (d : Declaration) : List Call := d.kind.calls ++ d.body.calls

mutual
/-- All declarations in a tree. -/
def Tree.declarations : Tree → List Declaration
  | .node d children => d :: allDeclarations children

/-- All declarations in several trees. -/
def Tree.allDeclarations : List Tree → List Declaration
  | [] => []
  | tree :: rest => tree.declarations ++ allDeclarations rest
end

theorem Tree.mem_allDeclarations :
    d ∈ allDeclarations trees ↔ ∃ tree ∈ trees, d ∈ tree.declarations := by
  induction trees with
  | nil => simp [allDeclarations]
  | cons tree rest ih => simp [allDeclarations, ih]

/-- The calls of a declaration are made of numbers. -/
def Declaration.Numeric (d : Declaration) : Prop := ∀ call ∈ d.calls, call.hasNaN = false

section Reading

variable {depth : Nat} {json : Json}

theorem Json.nullable?_numeric {α : Type} {decode : Json → Option α} {P : α → Prop} {a : Option α}
    (hdecode : ∀ {json a}, json.Numeric → decode json = some a → P a) (hjson : json.Numeric)
    (h : Json.nullable? decode json = some a) : ∀ x, a = some x → P x := by
  rintro x rfl
  unfold Json.nullable? at h
  split at h
  · cases h
  · obtain ⟨y, hy, hxy⟩ := map_eq_some_iff.mp h
    cases hxy
    exact hdecode hjson hy

theorem Call.listWithin?_numeric {calls : List Call} (hjson : json.Numeric)
    (h : Json.listWithin? Call.ofJson? depth json = some calls) :
    ∀ call ∈ calls, call.hasNaN = false := by
  unfold Json.listWithin? at h
  split at h
  · rename_i inner items
    intro call hcall
    obtain ⟨item, hmem, hitem⟩ := mem_of_mapM h call hcall
    cases hjson with
    | array hitems => exact (Call.readsNumeric inner).call (hitems item hmem) hitem
  · cases h

theorem Declaration.ofRecord?_numeric {r : Json.Record} (hr : r.Numeric)
    (h : Declaration.ofRecord? depth r = some d) : d.Numeric := by
  obtain ⟨name, _, h⟩ := bind_eq_some_iff.mp h
  obtain ⟨site, _, h⟩ := bind_eq_some_iff.mp h
  obtain ⟨access, _, h⟩ := bind_eq_some_iff.mp h
  obtain ⟨durability, _, h⟩ := bind_eq_some_iff.mp h
  obtain ⟨parameters, _, h⟩ := bind_eq_some_iff.mp h
  obtain ⟨superName, _, h⟩ := bind_eq_some_iff.mp h
  obtain ⟨keeps, _, h⟩ := bind_eq_some_iff.mp h
  obtain ⟨body, hbody, h⟩ := bind_eq_some_iff.mp h
  obtain ⟨target, htgt, h⟩ := bind_eq_some_iff.mp h
  obtain ⟨elements, helements, h⟩ := bind_eq_some_iff.mp h
  obtain ⟨flavorOf, _, h⟩ := bind_eq_some_iff.mp h
  cases h
  have hbody : ∀ call ∈ body.calls, call.hasNaN = false :=
    hr.optional (P := fun b => ∀ call ∈ b.calls, call.hasNaN = false) nofun
      (Body.readsNumeric depth).body hbody
  have htgt : ∀ call, target = some call → call.hasNaN = false :=
    hr.optional (P := fun t => ∀ call, t = some call → call.hasNaN = false) nofun
      (Json.nullable?_numeric (Call.readsNumeric depth).call) htgt
  have helements : ∀ calls, elements = some calls → ∀ call ∈ calls, call.hasNaN = false :=
    hr.optional (P := fun e => ∀ calls, e = some calls → ∀ call ∈ calls, call.hasNaN = false) nofun
      (Json.nullable?_numeric Call.listWithin?_numeric) helements
  refine fun call hcall => (List.mem_append.mp hcall).elim (fun hkind => ?_) (hbody call)
  unfold Declaration.kind at hkind
  split at hkind
  · cases hkind
  · split at hkind
    · rename_i found hfd
      exact List.mem_singleton.mp hkind ▸ htgt found hfd
    · rename_i found _ hfd
      exact helements found hfd call hkind
    · cases hkind

/-- The trees that are read this deep are written with numbers. -/
structure Tree.ReadsNumeric (depth : Nat) : Prop where
  tree : ∀ {json tree}, json.Numeric → ofJson? depth json = some tree →
    ∀ d ∈ tree.declarations, d.Numeric
  list : ∀ {json trees}, json.Numeric → listOfJson? depth json = some trees →
    ∀ d ∈ allDeclarations trees, d.Numeric

theorem Tree.ofJson?_numeric (hr : Tree.ReadsNumeric depth) {tree : Tree} (hjson : json.Numeric)
    (h : ofJson? (depth + 1) json = some tree) : ∀ d ∈ tree.declarations, d.Numeric := by
  obtain ⟨r, hrecord, h⟩ := bind_eq_some_iff.mp h
  obtain ⟨decl, hdeclaration, h⟩ := bind_eq_some_iff.mp h
  obtain ⟨children, hchildren, h⟩ := bind_eq_some_iff.mp h
  cases h
  have hnumeric := hjson.record? hrecord
  refine List.forall_mem_cons.mpr ⟨Declaration.ofRecord?_numeric hnumeric hdeclaration, ?_⟩
  exact hnumeric.optional (P := fun ts => ∀ d ∈ allDeclarations ts, d.Numeric)
    (fun _ hd => absurd hd List.not_mem_nil) hr.list hchildren

theorem Tree.listOfJson?_numeric (hr : Tree.ReadsNumeric depth) (hjson : json.Numeric)
    (h : listOfJson? (depth + 1) json = some trees) : ∀ d ∈ allDeclarations trees, d.Numeric := by
  intro d hd
  obtain ⟨tree, htree, hd⟩ := mem_allDeclarations.mp hd
  cases hjson with
  | array hitems =>
    obtain ⟨item, hmem, hitem⟩ := mem_of_mapM h tree htree
    exact hr.tree (hitems item hmem) hitem d hd
  | _ => cases h

/-- **The calls of a tree that was read are made of numbers.** -/
theorem Tree.readsNumeric (depth : Nat) : Tree.ReadsNumeric depth := by
  induction depth with
  | zero => exact ⟨nofun, nofun⟩
  | succ depth ih => exact ⟨ofJson?_numeric ih, listOfJson?_numeric ih⟩

theorem Forest.read?_numeric {forest : Forest} (h : Forest.read? text = some forest) :
    ∀ d ∈ allDeclarations forest.trees, d.Numeric := by
  obtain ⟨json, hjson, h⟩ := bind_eq_some_iff.mp h
  obtain ⟨r, hrecord, h⟩ := bind_eq_some_iff.mp h
  obtain ⟨trees, htrees, h⟩ := bind_eq_some_iff.mp h
  cases h
  exact ((Json.read?_numeric hjson).record? hrecord).required
    (P := fun ts => ∀ d ∈ allDeclarations ts, d.Numeric) (readsNumeric _).list htrees

end Reading

/-! ## 2. Proper namespaces -/

/-- What the definition refers to has a number below a bound, and its calls are made of numbers. -/
structure Definition.Proper (bound : Nat) (d : Definition) : Prop where
  superdefinition : ∀ {next}, d.superdefinition = some next → next < bound
  child : ∀ {name next}, d.child? name = some next → next < bound
  underlying : ∀ {next}, d.kind = .flavor next ∨ d.kind = .typeWrapper next → next < bound
  numeric : ∀ call ∈ d.calls, call.hasNaN = false

theorem Definition.Proper.mono {d : Definition} (h : d.Proper bound) (hle : bound ≤ bound') :
    d.Proper bound' where
  superdefinition hnext := Nat.lt_of_lt_of_le (h.superdefinition hnext) hle
  child hnext := Nat.lt_of_lt_of_le (h.child hnext) hle
  underlying hnext := Nat.lt_of_lt_of_le (h.underlying hnext) hle
  numeric := h.numeric

namespace Namespace

/-- All definitions are proper, and so are the names at the top level. -/
structure Bounded (bound : Nat) (ns : Namespace) : Prop where
  definition : ∀ {id d}, ns.get? id = some d → d.Proper bound
  root : ∀ {name next}, ns.roots.get? name = some next → next < bound

/-- All definitions that are referred to are held. -/
def Proper (ns : Namespace) : Prop := ns.Bounded ns.size

theorem Proper.closed (h : ns.Proper) : ns.Closed where
  superdefinition hd hnext := (h.definition hd).superdefinition hnext
  child hd hnext := (h.definition hd).child hnext
  underlying hd hnext := (h.definition hd).underlying hnext
  root := h.root

theorem empty_proper : empty.Proper where
  definition hd := by cases hd
  root hnext := by cases hnext

theorem Bounded.mono (h : ns.Bounded bound) (hle : bound ≤ bound') : ns.Bounded bound' where
  definition hd := (h.definition hd).mono hle
  root hnext := Nat.lt_of_lt_of_le (h.root hnext) hle

theorem Bounded.modify (h : ns.Bounded bound) (hf : ∀ {d}, d.Proper bound → (f d).Proper bound) :
    (ns.modify id f).Bounded bound where
  definition := fun {other d} hd => by
    rw [get?, Namespace.modify, Array.getElem?_modify] at hd
    split at hd
    · obtain ⟨old, hold, rfl⟩ := map_eq_some_iff.mp hd
      exact hf (h.definition hold)
    · exact h.definition hd
  root := h.root

theorem Proper.modify (h : ns.Proper) (hf : ∀ {d}, d.Proper ns.size → (f d).Proper ns.size) :
    (ns.modify id f).Proper := by
  rw [Proper, show (ns.modify id f).size = ns.size from Array.size_modify]
  exact Bounded.modify h hf

/-! ## 3. Declarations -/

theorem get?_insert_lt {entries : Dictionary String DefId} {other : String}
    (hentries : ∀ {name next}, entries.get? name = some next → next < bound) (hid : id < bound)
    (h : (entries.insert name id).get? other = some next) : next < bound := by
  rcases Dictionary.get?_of_insert h with ⟨_, rfl⟩ | ⟨_, h⟩
  · exact hid
  · exact hentries h

end Namespace

theorem Declaration.kind_not_link (d : Declaration) :
    ¬ (d.kind = .flavor next ∨ d.kind = .typeWrapper next) := by
  unfold Declaration.kind
  split
  · exact nofun
  · split <;> exact nofun

namespace Namespace

theorem Proper.addTo (h : ns.Proper) (hd : d.Numeric) (owner : Option DefId) :
    (d.addTo owner ns).2.Proper := by
  have hgrown : ns.Bounded (ns.size + 1) := Bounded.mono h (Nat.le_succ _)
  rw [Proper, d.addTo_size]
  refine ⟨fun hfd => ?_, fun hnext => ?_⟩
  · rcases d.addTo_cases hfd with ⟨_, rfl⟩ | ⟨old, hold, rfl⟩
    · exact ⟨nofun, nofun, fun hnext => absurd hnext d.kind_not_link, hd⟩
    · have hold := hgrown.definition hold
      split
      · exact ⟨hold.superdefinition, get?_insert_lt hold.child (Nat.lt_succ_self _),
          hold.underlying, hold.numeric⟩
      · exact hold
  · rw [d.addTo_roots] at hnext
    split at hnext
    · exact get?_insert_lt hgrown.root (Nat.lt_succ_self _) hnext
    · exact hgrown.root hnext

mutual
theorem Proper.declare (owner : Option DefId) : ∀ (tree : Tree) {ns : Namespace}, ns.Proper →
    (∀ d ∈ tree.declarations, d.Numeric) → (tree.declare owner ns).1.Proper
  | .node d children, _, h, htree => by
    obtain ⟨hd, hchildren⟩ := List.forall_mem_cons.mp htree
    exact Proper.declareAll _ children (h.addTo hd owner) hchildren

theorem Proper.declareAll (owner : Option DefId) : ∀ (trees : List Tree) {ns : Namespace},
    ns.Proper → (∀ d ∈ allDeclarations trees, d.Numeric) → (Tree.declareAll owner trees ns).1.Proper
  | [], _, h, _ => h
  | tree :: rest, _, h, htrees => by
    obtain ⟨htree, hrest⟩ := List.forall_mem_append.mp htrees
    exact Proper.declareAll owner rest (Proper.declare owner tree h htree) hrest
end

/-! ## 4. Links -/

theorem Proper.lookup_lt (h : ns.Proper) {found : DefId}
    (hfd : ns.lookup name = .ok (some found)) : found < ns.size := by
  unfold lookup at hfd
  split at hfd
  · rename_i root hroot
    obtain ⟨found', hdescend, hheld⟩ := h.closed.descend (DottedName.tail name) (h.root hroot)
    rw [hdescend] at hfd
    exact hheld found (Except.ok.inj hfd)
  · cases hfd

theorem Proper.link (h : ns.Proper) {link : Link} (hlink : ns.link id link = .ok ns') :
    ns'.Proper := by
  obtain ⟨found, hfd, rfl⟩ := link_eq_ok.mp hlink
  have hlt := h.lookup_lt hfd
  cases link with
  | inherit name =>
    refine h.modify fun {d} hd => ⟨fun hnext => ?_, hd.child, hd.underlying, hd.numeric⟩
    exact Option.some.inj hnext ▸ hlt
  | flavor name =>
    refine h.modify fun {d} hd => ⟨hd.superdefinition, hd.child, fun hnext => ?_, ?_⟩
    · rcases hnext with hnext | hnext
      · exact Kind.flavor.inj hnext ▸ hlt
      · cases hnext
    · exact (List.forall_mem_append.mp hd.numeric).2

/-- **A namespace that was read holds all that it refers to, and its calls are made of
    numbers.** -/
theorem read_proper (h : Namespace.read text = .ok ns) : ns.Proper := by
  unfold Namespace.read at h
  split at h
  · rename_i forest hforest
    exact linkAll_preserves (fun h hlink => h.link hlink) _
      (Proper.declareAll none forest.trees empty_proper (Forest.read?_numeric hforest)) h
  · cases h

end Namespace

end KeepTree
