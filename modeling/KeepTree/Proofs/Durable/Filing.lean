import KeepTree.Proofs.Durable.Upkeep

/-!
# What durable tables hold

The values of a durable definition stand in one table, under the full name of the definition. Frames
write to tables of their own, which no durable table is, and through pointers, which lead to tables
of frames or to the place of a durable definition that somebody keeps:

* `Engine.Filed` -- **all values of durable tables stand where they belong**, and those of one
  definition that nobody keeps were computed for it; writing what fits keeps it (`Filed.write`);
* `Upkeep.filing`, `filing_open` -- **evaluation keeps values filed**.
-/

namespace KeepTree

open Store

variable {ns : Namespace} {watch : DefId} {p : Pointer} {entry : Entry}

namespace Engine

variable {e e' : Engine} {t : TableId}

/-! ## 1. Pointers -/

/-- A pointer leads to a table of frames, or to the place of a durable definition other than the
    one that is watched. -/
def Aims (watch : DefId) (e : Engine) (p : Pointer) : Prop :=
  e.Private p.table ∨ ∃ x d, e.ns.get? x = some d ∧ d.isGlobal = true ∧ x ≠ watch ∧
    p.key = d.fullName ∧ e.home? d = some p.table

theorem Aims.extends (hp : e.Aims watch p) (h : e.Extends e') : e'.Aims watch p := by
  rcases hp with hp | ⟨x, d, hd, hglob, hne, hkey, hhome⟩
  · exact .inl (h.isPrivate hp)
  · exact .inr ⟨x, d, h.ns_eq ▸ hd, hglob, hne, hkey, h.home? hhome⟩

/-! ## 2. Values where they belong -/

/-- An entry of a durable table: a value computed for a durable definition or through a pointer to
    its place, under the full name of the definition. For the watched definition it was computed
    for itself. -/
def Files (watch : DefId) (e : Engine) (t : TableId) (key : String) (entry : Entry) : Prop :=
  ∃ h x d i, entry = .holder h ∧ e.ns.get? x = some d ∧ d.isGlobal = true ∧
    key = DottedName.inLoop d.fullName i ∧ e.home? d = some t ∧ (x = watch → h.nominal = watch)

theorem Files.extends {key : String} (hf : e.Files watch t key entry) (h : e.Extends e') :
    e'.Files watch t key entry := by
  obtain ⟨holder, x, d, i, rfl, hd, hglob, hkey, hhome, hnom⟩ := hf
  exact ⟨holder, x, d, i, rfl, h.ns_eq ▸ hd, hglob, hkey, h.home? hhome, hnom⟩

/-- All values of durable tables stand where they belong, all pointers aim well, and no table holds
    a pointer. -/
structure Filed (ns : Namespace) (watch : DefId) (e : Engine) : Prop extends e.Direct ns where
  aimed : ∀ {k name p}, e.store.pointer? k name = some p → e.Aims watch p
  files : ∀ {t key entry}, e.Durable t → e.store.get? t key = some entry → e.Files watch t key entry

theorem new_filed (ns : Namespace) (limits : Limits) (watch : DefId) :
    (Engine.new ns limits).Filed ns watch where
  toDirect := new_direct ns limits
  aimed := nofun
  files := fun {t key entry} _ h => by
    have hnothing : (Engine.new ns limits).store.get? t key = none := by cases t <;> rfl
    cases hnothing.symm.trans h

theorem Filed.onward (h : e.Filed ns watch) (hdir : e'.Direct ns) (hext : e.Extends e')
    (hptrs : ∀ {k name p}, e'.store.pointer? k name = some p →
      e.store.pointer? k name = some p ∨ e'.Aims watch p)
    (hentries : ∀ {t key entry}, e'.Durable t → e'.store.get? t key = some entry →
      e.store.get? t key = some entry) : e'.Filed ns watch where
  toDirect := hdir
  aimed hp := by
    rcases hptrs hp with hold | haims
    · exact (h.aimed hold).extends hext
    · exact haims
  files hd hget := by
    have hold := hentries hd hget
    exact (h.files (hext.durable (lt_of_get? hold) hd) hold).extends hext

theorem Filed.grow (h : e.Filed ns watch) (hg : e.Grown e') : e'.Filed ns watch :=
  h.onward (h.toDirect.grow hg) hg.toExtends (fun hp => .inl (hg.pointer? hp))
    fun _ hget => hg.larger.get?_of_some hget

theorem Filed.keep (h : e.Filed ns watch) (hp : e.Aims watch p) (k : KeepMapId) (name : String) :
    (e.withStore (e.store.keep k name p)).Filed ns watch := by
  have hext := e.keep_extends k name p
  refine h.onward (h.toDirect.keep k name p) hext (fun hfd => ?_) fun _ hget => hget
  rcases pointer?_keep hfd with rfl | hold
  · exact .inr (hp.extends hext)
  · exact .inl hold

/-- What may be written to a slot: anything that is no pointer to a table of frames, and to a
    durable table what belongs there. -/
def Fitting (watch : DefId) (e : Engine) (l : Location) (entry : Entry) : Prop :=
  (e.Private l.table ∧ ∀ p, entry ≠ .pointer p) ∨ e.Files watch l.table l.key entry

/-- **Writing what fits keeps values where they belong.** -/
theorem Filed.write (h : e.Filed ns watch) {l : Location} (hfit : e.Fitting watch l entry) :
    (e.withStore (e.store.set l entry)).Filed ns watch ∧
      e.Extends (e.withStore (e.store.set l entry)) := by
  have hext := e.set_extends l entry
  have hptr : ∀ p, entry ≠ .pointer p := by
    rcases hfit with ⟨_, hptr⟩ | ⟨holder, _, _, _, rfl, _⟩
    · exact hptr
    · exact nofun
  refine ⟨⟨h.toDirect.set l entry hptr, fun hp => (h.aimed hp).extends hext,
    fun {t key found} hd hget => ?_⟩, hext⟩
  rcases get?_set hget with ⟨rfl, rfl⟩ | hold
  · rcases hfit with ⟨hpriv, _⟩ | hfiles
    · exact absurd hd (hext.isPrivate hpriv).not_durable
    · exact hfiles.extends hext
  · exact (h.files (hext.durable (lt_of_get? hold) hd) hold).extends hext

theorem Aims.fitting (hp : e.Aims watch p) (iter : Option Nat) (holder : Holder) :
    e.Fitting watch (p.location iter) (.holder holder) := by
  rcases hp with hp | ⟨x, d, hd, hglob, hne, hkey, hhome⟩
  · exact .inl ⟨hp, nofun⟩
  · refine .inr ⟨holder, x, d, iter, rfl, hd, hglob, ?_, hhome, fun e => absurd e hne⟩
    rw [Pointer.location, Pointer.slotKey, hkey]

/-! ## 3. Copies -/

theorem Filed.copyTable (h : e.Filed ns watch) (t : TableId) :
    (e.withStore (e.store.copyTable t).2).Filed ns watch ∧
      e.Extends (e.withStore (e.store.copyTable t).2) ∧
      (e.withStore (e.store.copyTable t).2).Private e.store.tables.size := by
  have hext := e.newTable_extends (e.store.table t)
  have hpriv := newTable_private h.toRanged (e.store.table t)
  refine ⟨h.onward (h.toDirect.newTable fun _ _ => h.no_pointer) hext .inl fun hd hget => ?_,
    hext, hpriv⟩
  rcases get?_newTable hget with ⟨rfl, _⟩ | hold
  · exact absurd hd hpriv.not_durable
  · exact hold

theorem Filed.newKeepMap (h : e.Filed ns watch) (pointers : KeepMap)
    (hptrs : ∀ name p, pointers.get? name = some p → e.Aims watch p) :
    (e.withStore (e.store.newKeepMap pointers).2).Filed ns watch ∧
      e.Extends (e.withStore (e.store.newKeepMap pointers).2) := by
  have hext := e.newKeepMap_extends pointers
  refine ⟨h.onward (h.toDirect.newKeepMap pointers) hext (fun {k name p} hp => ?_)
    fun _ hget => hget, hext⟩
  rcases pointer?_newKeepMap hp with hnew | hold
  · exact .inr ((hptrs name p hnew).extends hext)
  · exact .inl hold

end Engine

/-! ## 4. Evaluation -/

/-- No definition keeps this one. -/
def Namespace.Unkept (ns : Namespace) (watch : DefId) : Prop :=
  ∀ id d, ns.get? id = some d → ∀ keep ∈ d.keeps, ns.child id keep.target ≠ .ok (some watch)

/-- Values are filed, and the tables of frames are not durable. -/
def Upkeep.filing (ns : Namespace) (watch : DefId) : Upkeep where
  engine := Engine.Filed ns watch
  cache e _ _ t := e.Private t
  container e _ t := e.Private t
  statement id keep := ns.child id keep.target ≠ .ok (some watch)
  growth := Engine.Extends

/-- **What is done to tables keeps values filed**, if nobody keeps the watched definition. -/
theorem Upkeep.filing_open (hunkept : ns.Unkept watch) : (filing ns watch).Open ns where
  direct he := he.toDirect
  refl := .refl
  trans := .trans
  cache_growth h ht := h.isPrivate ht
  container_growth h ht := h.isPrivate ht
  grow he hg := ⟨he.grow hg, hg.toExtends⟩
  fresh_table _ _ _ ht _ _ := ⟨fun _ => ht, ht⟩
  fresh_keeps _ _ _ _ := ⟨trivial, fun _ _ _ _ => trivial⟩
  declared hd hmem := hunkept _ _ hd _ hmem
  point := fun {e f keep p} k name he hfr _ hkeep hp _ _ => by
    have haims : e.Aims watch p := by
      cases hp with
      | cache _ htab _ => exact .inl (htab ▸ hfr.cache)
      | container hget => exact .inl (hfr.container hget)
      | @durable x d hch hd hglob hkey hhome =>
        refine .inr ⟨x, d, hd, hglob, ?_, hkey, hhome⟩
        rintro rfl
        rw [he.ns_eq] at hch
        exact hkeep hch
    exact ⟨he.keep haims k name, e.keep_extends k name p⟩
  kept iter holder he _ _ hp := he.write ((he.aimed hp).fitting iter holder)
  durable := fun {e d t holder} iter he hd hglob hhome =>
    he.write (.inr ⟨holder, holder.nominal, d, iter, rfl, hd, hglob, rfl, hhome, id⟩)
  slot _ he ht hent := he.write (.inl ⟨ht, hent⟩)
  copyTable t he := have ⟨hfiled, hext, hpriv⟩ := he.copyTable t
    ⟨hfiled, hext, fun _ _ => ⟨fun _ => hpriv, hpriv⟩⟩
  copyKeeps := fun {e} pointers he hptrs => by
    obtain ⟨hfiled, hext⟩ := he.newKeepMap pointers fun name p hp => by
      obtain ⟨k, old, hold, rfl | ⟨t, ht, rfl⟩⟩ := hptrs name p hp
      · exact he.aimed hold
      · exact .inl ht
    exact ⟨hfiled, hext, trivial⟩

end KeepTree
