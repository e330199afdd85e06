import KeepTree.Proofs.Session.Growth

/-!
# The tables of an engine

Some tables of an engine are durable: the one for everything, and one for each site used so far. The
others belong to frames. As an engine goes on, tables come to it and none goes away, and a table of
one kind never becomes one of the other:

* `Engine.Durable`, `Engine.Private` -- durable tables, and tables of frames;
* `Engine.Extends` -- durable tables stay durable, and tables of frames those of frames;
* `Engine.Grown` -- empty tables and empty keep maps have been added, and nothing else was done;
* `Engine.Direct` -- no table holds a pointer, so that a pointer is the end of its chain.
-/

namespace KeepTree

open Engine Dictionary Array

variable {store : Store} {t : TableId} {ns : Namespace} {d : Definition} {key other name : String}
  {entry : Entry} {entries : Table} {l : Location} {id k : KeepMapId} {p : Pointer}

theorem Dictionary.get?_of_insert {κ α : Type} [Ord κ] [Std.TransOrd κ] [Std.LawfulEqOrd κ]
    {d : Dictionary κ α} {key other : κ} {value found : α}
    (h : (d.insert key value).get? other = some found) :
    other = key ∧ found = value ∨ other ≠ key ∧ d.get? other = some found := by
  by_cases hoth : other = key
  · subst hoth
    rw [get?_insert_self] at h
    exact .inl ⟨rfl, (Option.some.inj h).symm⟩
  · rw [get?_insert_of_ne _ hoth] at h
    exact .inr ⟨hoth, h⟩

/-- The slot of the frame's own cache for a key, in the current iteration. -/
def Frame.ownSlot (f : Frame) (key : String) : Location := ⟨f.cache, f.slotKey key⟩

namespace Store

variable {store' store'' : Store}

/-! ## 1. Stores -/

/-- Empty tables have been added, and nothing was written. -/
structure Larger (store store' : Store) : Prop where
  size_le : store.tables.size ≤ store'.tables.size
  get?_eq : ∀ {t key}, t < store.tables.size → store'.get? t key = store.get? t key
  empty : ∀ {t key}, store.tables.size ≤ t → store'.get? t key = none

theorem get?_of_size_le (h : store.tables.size ≤ t) (key : String) : store.get? t key = none := by
  rw [get?, table_of_size_le h]
  rfl

theorem lt_of_get? (h : store.get? t key = some entry) : t < store.tables.size := by
  refine Nat.lt_of_not_le fun hle => ?_
  rw [get?_of_size_le hle] at h
  cases h

theorem Larger.refl (store : Store) : store.Larger store :=
  ⟨Nat.le_refl _, fun _ => rfl, fun h => get?_of_size_le h _⟩

theorem Larger.trans (h : store.Larger store') (h' : store'.Larger store'') :
    store.Larger store'' where
  size_le := Nat.le_trans h.size_le h'.size_le
  get?_eq ht := (h'.get?_eq (Nat.lt_of_lt_of_le ht h.size_le)).trans (h.get?_eq ht)
  empty := fun {t key} ht => by
    by_cases hlt : t < store'.tables.size
    · exact (h'.get?_eq hlt).trans (h.empty ht)
    · exact h'.empty (Nat.le_of_not_lt hlt)

theorem Larger.get?_of_some (h : store.Larger store') (hget : store'.get? t key = some entry) :
    store.get? t key = some entry := by
  by_cases ht : t < store.tables.size
  · rw [← h.get?_eq ht, hget]
  · rw [h.empty (Nat.le_of_not_lt ht)] at hget
    cases hget

theorem Grown.larger (h : store.Grown store') : store.Larger store' where
  size_le := h.size_le
  get?_eq ht := by rw [get?, h.table_eq ht]; rfl
  empty ht := by rw [get?, h.empty ht]; rfl

theorem keep_larger (store : Store) (id : KeepMapId) (name : String) (p : Pointer) :
    store.Larger (store.keep id name p) :=
  ⟨Nat.le_refl _, fun _ => rfl, fun h => get?_of_size_le h _⟩

theorem keepAll_larger (id : KeepMapId) (p : Pointer) : ∀ (names : List String) (store : Store),
    store.Larger (store.keepAll id p names)
  | [], store => .refl store
  | name :: rest, store => (store.keep_larger id name p).trans (keepAll_larger id p rest _)

theorem le_size_set (store : Store) (l : Location) (entry : Entry) :
    store.tables.size ≤ (store.set l entry).tables.size := by
  simp [set, write]

theorem get?_newTable (h : (store.newTable entries).2.get? t key = some entry) :
    (t = store.tables.size ∧ entries.get? key = some entry) ∨ store.get? t key = some entry := by
  unfold get? table newTable at h
  rw [getElem?_push] at h
  split at h
  · rename_i ht
    exact .inl ⟨ht, h⟩
  · exact .inr h

theorem get?_set {found : Entry} (h : (store.set l entry).get? t key = some found) :
    (⟨t, key⟩ = l ∧ found = entry) ∨ store.get? t key = some found := by
  have hlt : t < store.tables.size := by
    simpa [set, write] using lt_of_get? h
  by_cases hslot : t = l.table ∧ key = l.key
  · obtain ⟨rfl, rfl⟩ := hslot
    rw [set, get?_write_self _ hlt] at h
    exact .inl ⟨rfl, (Option.some.inj h).symm⟩
  · refine .inr ((get?_write_of_ne store ?_ entry).symm.trans h)
    by_cases ht : t = l.table
    · exact .inr fun hkey => hslot ⟨ht, hkey⟩
    · exact .inl ht

theorem pointer?_keep {found : Pointer} (h : (store.keep id name p).pointer? k other = some found) :
    found = p ∨ store.pointer? k other = some found := by
  unfold pointer? keepMap keep at h
  rw [getElem?_modify] at h
  split at h
  · rename_i e
    subst e
    cases hmap : store.keepMaps[id]? with
    | none => simp [hmap] at h
    | some map =>
      simp only [hmap, Option.map_some, Option.getD_some] at h
      refine (get?_of_insert h).imp And.right fun h => ?_
      simp only [pointer?, keepMap, hmap, Option.getD_some, h.2]
  · exact .inr h

theorem pointer?_keepAll {id k : KeepMapId} {p found : Pointer} {other : String} :
    ∀ {names : List String} {store : Store},
      (store.keepAll id p names).pointer? k other = some found →
        found = p ∨ store.pointer? k other = some found
  | [], _, h => .inr h
  | name :: rest, store, h => by
    have h : ((store.keep id name p).keepAll id p rest).pointer? k other = some found := h
    rcases pointer?_keepAll h with rfl | h
    · exact .inl rfl
    · exact pointer?_keep h

theorem pointer?_newKeepMap {pointers : KeepMap}
    (h : (store.newKeepMap pointers).2.pointer? k name = some p) :
    pointers.get? name = some p ∨ store.pointer? k name = some p := by
  unfold pointer? keepMap newKeepMap at h
  simp only [getElem?_push] at h
  split at h
  · exact .inl h
  · exact .inr h

theorem pointer?_of_size_le (h : store.keepMaps.size ≤ k) (name : String) :
    store.pointer? k name = none := by
  rw [pointer?, keepMap, getElem?_eq_none h]
  rfl

theorem pointer?_newKeepMap_of_lt (hk : k < store.keepMaps.size) (pointers : KeepMap)
    (name : String) : (store.newKeepMap pointers).2.pointer? k name = store.pointer? k name := by
  unfold pointer? keepMap newKeepMap
  rw [getElem?_push, if_neg (Nat.ne_of_lt hk)]

theorem pointer?_newKeepMap_empty (k : KeepMapId) (name : String) :
    (store.newKeepMap .empty).2.pointer? k name = store.pointer? k name := by
  by_cases hk : k = store.keepMaps.size
  · simp [pointer?, keepMap, newKeepMap, hk]
  · simp [pointer?, keepMap, newKeepMap, getElem?_push, hk]

theorem pointer?_keep_of_ne (h : k ≠ id ∨ other ≠ name) (p : Pointer) :
    (store.keep id name p).pointer? k other = store.pointer? k other := by
  unfold pointer? keepMap keep
  rw [getElem?_modify]
  split
  · rename_i hid
    subst hid
    cases hmap : store.keepMaps[id]? with
    | none => rfl
    | some map => exact get?_insert_of_ne _ (h.resolve_left (· rfl)) _
  · rfl

end Store

namespace Engine

variable {e e' e'' : Engine}

/-! ## 2. Durable tables and tables of frames -/

/-- The durable table for the values of a definition, if it was created. -/
def home? (e : Engine) (d : Definition) : Option TableId :=
  match d.durability, d.site with
  | .global, some site => e.sites.get? site
  | _, _ => some e.global

def Durable (e : Engine) (t : TableId) : Prop := t = e.global ∨ ∃ site, e.sites.get? site = some t

instance (e : Engine) (t : TableId) : Decidable (e.Durable t) :=
  decidable_of_iff (t = e.global ∨ t ∈ e.sites.values) (or_congr_right mem_values_iff)

/-- A table that is not durable. -/
structure Private (e : Engine) (t : TableId) : Prop where
  lt : t < e.store.tables.size
  not_durable : ¬ e.Durable t

/-- The durable tables are there. -/
structure Ranged (e : Engine) : Prop where
  global_lt : e.global < e.store.tables.size
  site_lt : ∀ {site t}, e.sites.get? site = some t → t < e.store.tables.size

theorem Ranged.lt (h : e.Ranged) (ht : e.Durable t) : t < e.store.tables.size := by
  rcases ht with rfl | ⟨site, ht⟩
  · exact h.global_lt
  · exact h.site_lt ht

/-- The engine goes on with the same tables; a durable table that is new is a new table. -/
structure Extends (e e' : Engine) : Prop where
  ns_eq : e'.ns = e.ns
  global_eq : e'.global = e.global
  size_le : e.store.tables.size ≤ e'.store.tables.size
  sites : ∀ {site t}, e.sites.get? site = some t → e'.sites.get? site = some t
  fresh : ∀ {site t}, e'.sites.get? site = some t →
    e.sites.get? site = some t ∨ e.store.tables.size ≤ t

theorem Extends.refl (e : Engine) : e.Extends e := ⟨rfl, rfl, Nat.le_refl _, id, .inl⟩

theorem Extends.trans (h : e.Extends e') (h' : e'.Extends e'') : e.Extends e'' where
  ns_eq := h'.ns_eq.trans h.ns_eq
  global_eq := h'.global_eq.trans h.global_eq
  size_le := Nat.le_trans h.size_le h'.size_le
  sites hsite := h'.sites (h.sites hsite)
  fresh hsite := by
    rcases h'.fresh hsite with hsite | hle
    · exact h.fresh hsite
    · exact .inr (Nat.le_trans h.size_le hle)

theorem Extends.durable (h : e.Extends e') (ht : t < e.store.tables.size) (hd : e'.Durable t) :
    e.Durable t := by
  rcases hd with rfl | ⟨site, hsite⟩
  · exact .inl h.global_eq
  · rcases h.fresh hsite with hsite | hle
    · exact .inr ⟨site, hsite⟩
    · exact absurd ht (Nat.not_lt_of_le hle)

theorem Extends.isPrivate (h : e.Extends e') (ht : e.Private t) : e'.Private t :=
  ⟨Nat.lt_of_lt_of_le ht.lt h.size_le, fun hd => ht.not_durable (h.durable ht.lt hd)⟩

theorem Extends.home? (h : e.Extends e') (hd : e.home? d = some t) : e'.home? d = some t := by
  unfold Engine.home? at hd ⊢
  split at hd
  · exact h.sites hd
  · rw [h.global_eq]
    exact hd

theorem durable_of_home? (h : e.home? d = some t) : e.Durable t := by
  unfold home? at h
  split at h
  · exact .inr ⟨_, h⟩
  · exact .inl (Option.some.inj h).symm

theorem Extends.private_of_size_le (h : e.Extends e') (hr : e.Ranged)
    (hsites : ∀ {site}, e'.sites.get? site = some t → e.sites.get? site = some t)
    (hle : e.store.tables.size ≤ t) (hlt : t < e'.store.tables.size) : e'.Private t := by
  refine ⟨hlt, ?_⟩
  rintro (rfl | ⟨site, hsite⟩)
  · exact Nat.not_le_of_lt hr.global_lt (h.global_eq ▸ hle)
  · exact Nat.not_le_of_lt (hr.site_lt (hsites hsite)) hle

theorem withStore_extends (h : e.store.tables.size ≤ store.tables.size) :
    e.Extends (e.withStore store) :=
  ⟨rfl, rfl, h, id, .inl⟩

theorem keep_extends (e : Engine) (k : KeepMapId) (name : String) (p : Pointer) :
    e.Extends (e.withStore (e.store.keep k name p)) :=
  withStore_extends (Nat.le_refl _)

theorem newKeepMap_extends (e : Engine) (pointers : KeepMap) :
    e.Extends (e.withStore (e.store.newKeepMap pointers).2) :=
  withStore_extends (Nat.le_refl _)

theorem newTable_extends (e : Engine) (entries : Table) :
    e.Extends (e.withStore (e.store.newTable entries).2) :=
  withStore_extends (by simp [Store.newTable])

theorem set_extends (e : Engine) (l : Location) (entry : Entry) :
    e.Extends (e.withStore (e.store.set l entry)) :=
  withStore_extends (Store.le_size_set _ _ _)

/-! ## 3. Growing -/

/-- Empty tables and keep maps have been added; durable tables among them are noted as such. -/
structure Grown (e e' : Engine) : Prop extends e.Extends e' where
  larger : e.store.Larger e'.store
  ranged : e.Ranged → e'.Ranged
  keepMaps_le : e.store.keepMaps.size ≤ e'.store.keepMaps.size
  pointer?_eq : ∀ k name, e'.store.pointer? k name = e.store.pointer? k name

theorem Grown.refl (e : Engine) : e.Grown e :=
  { Extends.refl e with
    larger := .refl _
    ranged := id
    keepMaps_le := Nat.le_refl _
    pointer?_eq := fun _ _ => rfl }

theorem Grown.trans (h : e.Grown e') (h' : e'.Grown e'') : e.Grown e'' :=
  { h.toExtends.trans h'.toExtends with
    larger := h.larger.trans h'.larger
    ranged := fun hr => h'.ranged (h.ranged hr)
    keepMaps_le := Nat.le_trans h.keepMaps_le h'.keepMaps_le
    pointer?_eq := fun k name => (h'.pointer?_eq k name).trans (h.pointer?_eq k name) }

theorem Grown.pointer? (h : e.Grown e') (hp : e'.store.pointer? k name = some p) :
    e.store.pointer? k name = some p :=
  (h.pointer?_eq k name).symm.trans hp

theorem Ranged.extends (h : e.Ranged) (he : e.Extends e') (hsites : e'.sites = e.sites) :
    e'.Ranged where
  global_lt := he.global_eq ▸ Nat.lt_of_lt_of_le h.global_lt he.size_le
  site_lt hsite := Nat.lt_of_lt_of_le (h.site_lt (hsites ▸ hsite)) he.size_le

theorem newTable_grows (e : Engine) : e.Grown (e.withStore (e.store.newTable .empty).2) :=
  have hlarger := e.store.newTable_grown.larger
  have hext := withStore_extends hlarger.size_le
  { hext with
    larger := hlarger
    ranged := fun hr => hr.extends hext rfl
    keepMaps_le := Nat.le_refl _
    pointer?_eq := fun _ _ => rfl }

theorem newKeepMap_grows (e : Engine) : e.Grown (e.withStore (e.store.newKeepMap .empty).2) :=
  have hext := e.newKeepMap_extends .empty
  { hext with
    larger := e.store.newKeepMap_grown.larger
    ranged := fun hr => hr.extends hext rfl
    keepMaps_le := by simp [Store.newKeepMap, withStore]
    pointer?_eq := Store.pointer?_newKeepMap_empty }

theorem count_grows (e : Engine) (f : Counters → Counters) : e.Grown (e.count f) where
  toExtends := ⟨rfl, rfl, Nat.le_refl _, id, .inl⟩
  larger := .refl _
  ranged := fun h => ⟨h.global_lt, h.site_lt⟩
  keepMaps_le := Nat.le_refl _
  pointer?_eq := fun _ _ => rfl

theorem siteTable_grows (e : Engine) (site : DefId) : e.Grown (e.siteTable site).2 ∧
    (e.siteTable site).2.sites.get? site = some (e.siteTable site).1 := by
  cases hsite : e.sites.get? site with
  | some table =>
    have heq : e.siteTable site = (table, e) := by simp only [siteTable, hsite]
    rw [heq]
    exact ⟨.refl e, hsite⟩
  | none =>
    have heq : e.siteTable site = (e.store.tables.size,
        { e with
          store := (e.store.newTable .empty).2
          sites := e.sites.insert site e.store.tables.size }) := by
      simp only [siteTable, hsite]
      rfl
    have hlarger := e.store.newTable_grown.larger
    have hnew : e.store.tables.size < (e.store.newTable .empty).2.tables.size := by
      simp [Store.newTable]
    rw [heq]
    refine ⟨⟨⟨rfl, rfl, hlarger.size_le, fun {other t} h => ?_, fun h => ?_⟩, hlarger,
      fun hr => ⟨?_, fun h => ?_⟩, Nat.le_refl _, fun _ _ => rfl⟩, get?_insert_self _ _ _⟩
    · have hne : other ≠ site := by
        rintro rfl
        rw [hsite] at h
        cases h
      exact (get?_insert_of_ne _ hne _).trans h
    · rcases get?_of_insert h with ⟨_, rfl⟩ | ⟨_, h⟩
      · exact .inr (Nat.le_refl _)
      · exact .inl h
    · exact Nat.lt_trans hr.global_lt hnew
    · rcases get?_of_insert h with ⟨_, rfl⟩ | ⟨_, h⟩
      · exact hnew
      · exact Nat.lt_trans (hr.site_lt h) hnew

theorem durableTable_grows (e : Engine) (d : Definition) :
    e.Grown (e.durableTable d).2 ∧ (e.durableTable d).2.home? d = some (e.durableTable d).1 := by
  unfold durableTable home?
  generalize d.durability = durability, d.site = site
  cases durability with
  | global =>
    cases site with
    | some site => exact siteTable_grows e site
    | none => exact ⟨.refl e, rfl⟩
  | _ => exact ⟨.refl e, rfl⟩

theorem newTable_private (hr : e.Ranged) (entries : Table) :
    (e.withStore (e.store.newTable entries).2).Private e.store.tables.size := by
  have hsize : (e.store.newTable entries).2.tables.size = e.store.tables.size + 1 := size_push _
  exact (e.newTable_extends entries).private_of_size_le hr id (Nat.le_refl _)
    (hsize ▸ Nat.lt_succ_self _)

/-! ## 4. Pointers -/

/-- No table holds a pointer. -/
structure Direct (ns : Namespace) (e : Engine) : Prop extends e.Ranged where
  ns_eq : e.ns = ns
  no_pointer : ∀ {t key p}, e.store.get? t key ≠ some (.pointer p)

theorem Direct.chase (h : e.Direct ns) {iter : Option Nat} {limit : Nat} {p last : Pointer}
    {hops : Nat} (hc : e.store.chase iter limit p = .ok (last, hops)) : last = p := by
  cases limit with
  | zero => cases hc
  | succ limit =>
    unfold Store.chase at hc
    split at hc
    · rename_i next hat
      exact absurd hat h.no_pointer
    · exact (Prod.mk.inj (Except.ok.inj hc)).1.symm

section

variable (h : e.Direct ns)
include h

theorem Direct.writeThrough {iter : Option Nat} {limit : Nat}
    (hw : e.store.writeThrough iter limit p entry = .ok (l, store)) :
    store = e.store.set (p.location iter) entry := by
  unfold Store.writeThrough at hw
  split at hw
  · rename_i last hops hc
    obtain rfl := h.chase hc
    exact (Prod.mk.inj (Except.ok.inj hw)).2.symm
  · cases hw

theorem Direct.grow (hg : e.Grown e') : e'.Direct ns where
  toRanged := hg.ranged h.toRanged
  ns_eq := hg.ns_eq.trans h.ns_eq
  no_pointer hget := h.no_pointer (hg.larger.get?_of_some hget)

theorem Direct.keep (k : KeepMapId) (name : String)
    (p : Pointer) : (e.withStore (e.store.keep k name p)).Direct ns where
  toRanged := h.toRanged.extends (e.keep_extends k name p) rfl
  ns_eq := h.ns_eq
  no_pointer := h.no_pointer

theorem Direct.set (l : Location) (entry : Entry)
    (hent : ∀ p, entry ≠ .pointer p) : (e.withStore (e.store.set l entry)).Direct ns where
  toRanged := h.toRanged.extends (e.set_extends l entry) rfl
  ns_eq := h.ns_eq
  no_pointer hget := by
    rcases Store.get?_set hget with ⟨_, hfd⟩ | hold
    · exact hent _ hfd.symm
    · exact h.no_pointer hold

theorem Direct.newTable (hentries : ∀ key p, entries.get? key ≠ some (.pointer p)) :
    (e.withStore (e.store.newTable entries).2).Direct ns where
  toRanged := h.toRanged.extends (e.newTable_extends entries) rfl
  ns_eq := h.ns_eq
  no_pointer hget := by
    rcases Store.get?_newTable hget with ⟨_, hnew⟩ | hold
    · exact hentries _ _ hnew
    · exact h.no_pointer hold

theorem Direct.newKeepMap (pointers : KeepMap) :
    (e.withStore (e.store.newKeepMap pointers).2).Direct ns where
  toRanged := h.toRanged.extends (e.newKeepMap_extends pointers) rfl
  ns_eq := h.ns_eq
  no_pointer := h.no_pointer

end

theorem new_direct (ns : Namespace) (limits : Limits) : (new ns limits).Direct ns where
  global_lt := by simp [new, Store.newTable, Store.empty]
  site_lt := nofun
  ns_eq := rfl
  no_pointer := fun {t key p} h => by
    have hnothing : (new ns limits).store.get? t key = none := by cases t <;> rfl
    cases hnothing.symm.trans h

end Engine

/-! ## 5. The cache of a new frame -/

theorem Session.homeFor_grows (s : Session) (id : DefId) (d : Definition)
    (prev : Option Frame) : s.engine.Grown (s.homeFor id d prev).2 := by
  have hnew := s.engine.newTable_grows
  unfold homeFor
  split
  · cases s.rootFrame? with
    | some root => exact (s.engine.siteTable_grows id).1
    | none => exact hnew.trans (siteTable_grows _ id).1
  · simp only
    split
    · split
      · exact hnew
      · exact hnew.trans (siteTable_grows _ _).1
    · exact hnew

theorem Session.homeFor_private (s : Session) (hr : s.engine.Ranged) (id : DefId) (d : Definition)
    (prev : Option Frame) (hfresh : d.isSite = true → s.rootFrame? = none) :
    (s.homeFor id d prev).1.cache = s.store.tables.size ∧
      (s.homeFor id d prev).2.Private s.store.tables.size := by
  have hpriv := newTable_private hr .empty
  unfold homeFor
  split
  · rename_i hsite
    rw [hfresh hsite]
    exact ⟨rfl, (siteTable_grows _ id).1.isPrivate hpriv⟩
  · simp only
    split
    · split
      · exact ⟨rfl, hpriv⟩
      · exact ⟨rfl, (siteTable_grows _ _).1.isPrivate hpriv⟩
    · exact ⟨rfl, hpriv⟩

end KeepTree
