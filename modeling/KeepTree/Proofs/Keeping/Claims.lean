import KeepTree.Proofs.Keeping.Runs

/-!
# Which tables are whose

A frame has a cache, and tables for its containers. It need not have them to itself: a site shares the
cache of the root on record, a frame shares the containers of the frame below if it goes on with what that
one keeps, and a copy may share everything. To tell what is shared and what is not, every table is noted,
from outside, as that of the keep map it was made for. Nothing that runs looks at these notes.

* `Workspace.Run.claimable` -- **under these terms there are always such notes**;
* `Session.Claimed.not_writes`, `Session.Claimed.below` -- **then nothing is put into the tables of a
  frame from the frames below**.
-/

namespace KeepTree

open Engine KeepTree.Frame Upkeep List Option

variable {ns : Namespace} {C : Claims} {pool : Pool} {s s' : Session} {rest : List Stack}
  {name : String} {top : Option FrameId} {l : List (FrameId × Frame)} {id : FrameId}
  {frame root : Frame} {entry : FrameId × Frame} {d : Definition} {k : KeepMapId}
  {held : List FrameId} {t : TableId} {engine : Engine} {unnamed : List Seat}

/-! ## 1. Tables of a frame -/

/-- The table is the cache of the frame, or that of one of its containers. -/
def Frame.Owns (f : Frame) (t : TableId) : Prop :=
  t = f.cache ∨ ∃ name, f.containers.get? name = some t

instance (f : Frame) (t : TableId) : Decidable (f.Owns t) :=
  decidable_of_iff (t = f.cache ∨ t ∈ f.containers.values) (or_congr_right Dictionary.mem_values_iff)

/-- From this frame, values can be put into the table under keys without dots: it is one of the
    frame's own, or the frame keeps a name without dots in it. -/
def Frame.Writes (f : Frame) (store : Store) (t : TableId) : Prop :=
  f.Owns t ∨ ∃ name p, DottedName.isDotted name = false ∧ f.keepPointer? store name = some p ∧
    p.table = t

/-! ## 2. Claims -/

/-- Notes of what is whose. -/
structure Claims where
  /-- The keep map of the frame that a table was made for. -/
  owner : TableId → Option KeepMapId
  /-- The keep maps of bottom frames. -/
  ground : KeepMapId → Prop
  /-- The keep map that tables are now made for. -/
  maker : Option KeepMapId
  /-- The definition of the frames that a keep map is for. -/
  kind : KeepMapId → Option DefId

/-- The table was made for a bottom frame. -/
def Claims.Common (C : Claims) (t : TableId) : Prop := ∃ k, C.owner t = some k ∧ C.ground k

namespace Engine

variable {e e' e'' : Engine}

/-- The engine goes on with the same tables and the same keep maps. -/
structure Continues (e e' : Engine) : Prop extends e.Extends e' where
  keepMaps_le : e.store.keepMaps.size ≤ e'.store.keepMaps.size

theorem Continues.refl (e : Engine) : e.Continues e := ⟨.refl e, Nat.le_refl _⟩

theorem Continues.trans (h : e.Continues e') (h' : e'.Continues e'') : e.Continues e'' :=
  ⟨h.toExtends.trans h'.toExtends, Nat.le_trans h.keepMaps_le h'.keepMaps_le⟩

theorem Grown.continues (h : e.Grown e') : e.Continues e' := ⟨h.toExtends, h.keepMaps_le⟩

/-- What the keep maps say agrees with the notes: a name without dots leads to a table of the same
    keep map or of an older one, unless the table is durable or was made for a bottom frame. -/
structure Claimed (ns : Namespace) (C : Claims) (e : Engine) : Prop extends e.Lodged ns where
  aimed : ∀ {k name p owner}, DottedName.isDotted name = false → e.store.pointer? k name = some p →
    ¬ e.Durable p.table → C.owner p.table = some owner → owner ≤ k ∨ C.ground owner
  fresh : ∀ {t}, e.store.tables.size ≤ t → C.owner t = C.maker
  owner_lt : ∀ {t k}, C.owner t = some k → k < e.store.keepMaps.size ∨ C.maker = some k

theorem Claimed.grow (h : e.Claimed ns C) (hg : e.Grown e') : e'.Claimed ns C where
  toLodged := ((lodging_open ns).grow h.toLodged hg).1
  aimed hname hp hdur howner := by
    have hp := hg.pointer? hp
    refine h.aimed hname hp (fun hold => hdur ?_) howner
    rcases hold with hglob | ⟨site, hsite⟩
    · exact .inl (hglob.trans hg.global_eq.symm)
    · exact .inr ⟨site, hg.sites hsite⟩
  fresh ht := h.fresh (Nat.le_trans hg.size_le ht)
  owner_lt howner := (h.owner_lt howner).imp_left fun hlt => Nat.lt_of_lt_of_le hlt hg.keepMaps_le

theorem Claimed.set (h : e.Claimed ns C) (l : Location) (entry : Entry)
    (hent : ∀ p, entry ≠ .pointer p) : (e.withStore (e.store.set l entry)).Claimed ns C ∧
      e.Continues (e.withStore (e.store.set l entry)) := by
  obtain ⟨hlodged, hwidens⟩ := h.toLodged.set l entry hent
  exact ⟨⟨hlodged, h.aimed, fun ht => h.fresh (Nat.le_trans hwidens.tables_le ht), h.owner_lt⟩,
    withStore_extends hwidens.tables_le, Nat.le_refl _⟩

theorem Claimed.keep (h : e.Claimed ns C) {p : Pointer} (hlt : p.table < e.store.tables.size)
    (haimed : DottedName.isDotted name = false → ¬ e.Durable p.table →
      ∀ owner, C.owner p.table = some owner → owner ≤ k ∨ C.ground owner) :
    (e.withStore (e.store.keep k name p)).Claimed ns C ∧
      e.Continues (e.withStore (e.store.keep k name p)) := by
  have hsize : (e.store.keep k name p).keepMaps.size = e.store.keepMaps.size := by
    simp [Store.keep]
  refine ⟨⟨h.toLodged.keep hlt k name, ?_, h.fresh, fun howner => ?_⟩,
    withStore_extends (Nat.le_refl _), Nat.le_of_eq hsize.symm⟩
  · intro k' other found owner hoth hfd hdur howner
    have hold : e.store.pointer? k' other = some found → owner ≤ k' ∨ C.ground owner :=
      fun hold => h.aimed hoth hold hdur howner
    by_cases hslot : k' = k ∧ other = name
    · obtain ⟨rfl, rfl⟩ := hslot
      rcases Store.pointer?_keep hfd with rfl | hfd
      · exact haimed hoth hdur owner howner
      · exact hold hfd
    · refine hold ((Store.pointer?_keep_of_ne ?_ p).symm.trans hfd)
      by_cases hk : k' = k
      · exact .inr fun hname => hslot ⟨hk, hname⟩
      · exact .inl hk
  · exact (h.owner_lt howner).imp_left fun hlt => Nat.lt_of_lt_of_eq hlt hsize.symm

end Engine

/-- Tables are those of the keep maps that the notes say. -/
def Upkeep.claiming (ns : Namespace) (C : Claims) : Upkeep where
  engine := Engine.Claimed ns C
  cache e _ k t := e.Private t ∧ (C.owner t = some k ∨ C.Common t)
  keeps e k := k < e.store.keepMaps.size
  own _ _ k := C.maker = some k
  container e k t := e.Private t ∧ C.owner t = some k
  makes k := C.maker = some k
  growth := Engine.Continues

namespace Upkeep

/-- **What is done to tables agrees with the notes.** -/
theorem claiming_kept (ns : Namespace) (C : Claims) : (claiming ns C).Kept ns where
  direct he := he.toDirect
  refl := .refl
  trans := .trans
  cache_growth h ht := ⟨h.isPrivate ht.1, ht.2⟩
  keeps_growth h hk := Nat.lt_of_lt_of_le hk h.keepMaps_le
  container_growth h ht := ⟨h.isPrivate ht.1, ht.2⟩
  grow he hg := ⟨he.grow hg, hg.continues⟩
  fresh_table he _ hle ht k hmakes := have howner := (he.fresh hle).trans hmakes
    ⟨fun _ => ⟨ht, .inl howner⟩, ht, howner⟩
  fresh_keeps _ _ _ hk := ⟨hk, fun hmakes _ _ _ => hmakes⟩
  point := fun {e f keep p} k name he hfr _ _ hp _ hplace => by
    -- the table is one of the frame's, or it is durable
    have hcases : p.table < e.store.tables.size ∧ (e.Durable p.table ∨
        C.owner p.table = some f.keeps ∨ C.Common p.table) := by
      cases hp with
      | cache _ htab _ =>
        obtain ⟨hpriv, howner⟩ := hfr.cache
        exact ⟨htab ▸ hpriv.lt, .inr (htab ▸ howner)⟩
      | container hget =>
        obtain ⟨hpriv, howner⟩ := hfr.container hget
        exact ⟨hpriv.lt, .inr (.inl howner)⟩
      | durable _ _ _ _ hhome =>
        have hdur := durable_of_home? hhome
        exact ⟨he.toRanged.lt hdur, .inl hdur⟩
    refine he.keep hcases.1 fun hname hdur owner howner => ?_
    rcases hplace with rfl | ⟨_, rfl⟩
    · rcases hcases.2.resolve_left hdur with hown | ⟨k, hk, hground⟩
      · cases hown.symm.trans howner
        exact .inl (Nat.le_refl _)
      · cases hk.symm.trans howner
        exact .inr hground
    · rw [DottedName.isDotted_join] at hname
      cases hname
  kept _ holder he _ _ _ := he.set _ (.holder holder) nofun
  durable _ he _ _ _ := he.set _ _ nofun

theorem claiming_copied (ns : Namespace) (C : Claims) : (claiming ns C).Copied ns where
  toPushable := (claiming_kept ns C).toPushable
  copyTable := fun {e} t he => by
    have hsize : (e.store.copyTable t).2.tables.size = e.store.tables.size + 1 := Array.size_push _
    have hle : e.store.tables.size ≤ (e.store.copyTable t).2.tables.size := hsize ▸ Nat.le_succ _
    obtain ⟨hlodged, _⟩ := (lodging_open ns).copyTable t he.toLodged
    refine ⟨⟨hlodged, he.aimed, fun ht => he.fresh (Nat.le_trans hle ht), he.owner_lt⟩,
      ⟨withStore_extends hle, Nat.le_refl _⟩, fun k hmakes => ?_⟩
    have hpriv := newTable_private he.toRanged (e.store.table t)
    have howner := (he.fresh (Nat.le_refl _)).trans hmakes
    exact ⟨fun _ => ⟨hpriv, .inl howner⟩, hpriv, howner⟩
  copyKeeps := fun {e} pointers he hptrs => by
    have hsize : (e.store.newKeepMap pointers).2.keepMaps.size = e.store.keepMaps.size + 1 :=
      Array.size_push _
    have hlt : e.store.keepMaps.size < (e.store.newKeepMap pointers).2.keepMaps.size :=
      hsize ▸ Nat.lt_succ_self _
    have hlodged := (lodging_open ns).copyKeeps pointers he.toLodged fun name p hp => by
      obtain ⟨k, old, hold, rfl | ⟨t, ht, rfl⟩⟩ := hptrs name p hp
      · exact ⟨k, p, hold, .inl rfl⟩
      · exact ⟨k, old, hold, .inr ⟨t, ht.1.lt, rfl⟩⟩
    refine ⟨⟨hlodged.1, ?_, he.fresh, fun howner => ?_⟩,
      ⟨withStore_extends (Nat.le_refl _), Nat.le_of_lt hlt⟩, hlt⟩
    · intro k name p owner hname hp hdur howner
      by_cases hk : k < e.store.keepMaps.size
      · exact he.aimed hname ((Store.pointer?_newKeepMap_of_lt hk pointers name).symm.trans hp)
          hdur howner
      · have hk := Nat.le_of_not_lt hk
        rcases Store.pointer?_newKeepMap hp with hadded | hold
        · -- what is copied leads where the source leads, or to a copy
          obtain ⟨k', old, hold, rfl | ⟨t, ht, rfl⟩⟩ := hptrs name p hadded
          · have hk' : k' < e.store.keepMaps.size := by
              refine Nat.lt_of_not_le fun hle => ?_
              rw [Store.pointer?_of_size_le hle] at hold
              cases hold
            exact (he.aimed hname hold hdur howner).imp_left fun hle =>
              Nat.le_trans hle (Nat.le_trans (Nat.le_of_lt hk') hk)
          · cases ht.2.symm.trans howner
            exact .inl hk
        · rw [Store.pointer?_of_size_le hk] at hold
          cases hold
    · exact (he.owner_lt howner).imp_left fun h => Nat.lt_trans h hlt

end Upkeep

/-! ## 3. A frame and the frame below -/

/-- What never changes of what a frame names. -/
def Frame.place (f : Frame) : DefId × TableId × KeepMapId := (f.definition, f.cache, f.keeps)

theorem Frame.place_standing : Standing place where
  counts _ _ _ := rfl
  settled h := by
    exact (congrArg place h :)

/-- What a frame names, and the frame below. -/
def Frame.seat (f : Frame) : Option FrameId × DefId × TableId × KeepMapId := (f.previous, f.place)

theorem Frame.seat_ignoresCounts : Pool.IgnoresCounts seat := fun _ _ _ => rfl

/-- The keep map of the frame below a frame. -/
def Pool.keepsBelow (pool : Pool) (f : Frame) : Option KeepMapId :=
  (f.previous.bind pool.get?).map (·.keeps)

namespace Claims

variable {C' : Claims} {e e' e'' : Engine} {f f' : Frame} {pool' : Pool}

/-- What a frame has to do with the frame below, which has the keep map `below`. -/
structure Seated (C : Claims) (ns : Namespace) (f : Frame) (below : Option KeepMapId) : Prop where
  bottom : below = none → C.ground f.keeps
  le : ∀ k, below = some k → k ≤ f.keeps
  apart : ∀ k, below = some k → k ≠ f.keeps → ¬ C.ground f.keeps
  cache : ∀ d, ns.get? f.definition = some d → d.isSite = false → C.owner f.cache = some f.keeps
  kind : C.kind f.keeps = some f.definition

theorem Seated.of_place_eq {below : Option KeepMapId} (h : C.Seated ns f below)
    (hplace : f'.place = f.place) : C.Seated ns f' below := by
  obtain ⟨hdef, hca, hks⟩ : f'.definition = f.definition ∧ f'.cache = f.cache ∧
      f'.keeps = f.keeps := by simpa only [place, Prod.mk.injEq] using hplace
  refine ⟨hks ▸ h.bottom, hks ▸ h.le, hks ▸ h.apart, ?_, ?_⟩
  · rw [hdef, hca, hks]
    exact h.cache
  · rw [hdef, hks]
    exact h.kind

/-- All frames of a pool are seated on the frames below them. -/
def Seats (C : Claims) (ns : Namespace) (pool : Pool) : Prop :=
  ∀ id f, pool.get? id = some f → C.Seated ns f (pool.keepsBelow f)

theorem keepsBelow_eq (hprev : f'.previous = f.previous)
    (hbel : ∀ below, f.previous = some below → ∃ lower lower', pool.get? below = some lower ∧
      pool'.get? below = some lower' ∧ lower'.place = lower.place) :
    pool'.keepsBelow f' = pool.keepsBelow f := by
  rw [Pool.keepsBelow, Pool.keepsBelow, hprev]
  cases hp : f.previous with
  | none => rfl
  | some below =>
    obtain ⟨lower, lower', hlow, hlow', hplace⟩ := hbel below hp
    simp only [bind_some, hlow, hlow', map_some]
    exact congrArg (fun place => some place.2.2) hplace

theorem Seats.within (h : C.Seats ns pool) (hw : Pool.Within place pool' pool)
    (ha : pool'.Accounted held) : C.Seats ns pool' := by
  intro id f' hf'
  obtain ⟨f, hf, hprev, hplace⟩ := hw id f' hf'
  have hbel : pool'.keepsBelow f' = pool.keepsBelow f := by
    refine keepsBelow_eq hprev.symm fun below hp => ?_
    obtain ⟨lower', hlow', _⟩ := ha.below_live hf' (hprev.symm.trans hp)
    obtain ⟨lower, hlow, _, hsame⟩ := hw below lower' hlow'
    exact ⟨lower, lower', hlow, hlow', hsame.symm⟩
  rw [hbel]
  exact (h id f hf).of_place_eq hplace.symm

/-! ### New notes -/

/-- Later notes: they say the same of the tables and keep maps that were there. -/
structure Onward (C : Claims) (e : Engine) (C' : Claims) (e' : Engine) : Prop extends
    e.Continues e' where
  owner_eq : ∀ {t}, t < e.store.tables.size → C'.owner t = C.owner t
  ground_iff : ∀ {k}, k < e.store.keepMaps.size → (C'.ground k ↔ C.ground k)
  kind_eq : ∀ {k}, k < e.store.keepMaps.size → C'.kind k = C.kind k

theorem Onward.refl (C : Claims) (e : Engine) : C.Onward e C e :=
  ⟨.refl e, fun _ => rfl, fun _ => .rfl, fun _ => rfl⟩

theorem Onward.continue (h : C.Onward e C' e') (hc : e'.Continues e'') : C.Onward e C' e'' :=
  ⟨h.toContinues.trans hc, h.owner_eq, h.ground_iff, h.kind_eq⟩

/-- The notes agree with the engine, and no keep map is to come that tables were made for. -/
structure Settled (C : Claims) (ns : Namespace) (e : Engine) : Prop where
  engine : e.Claimed ns C
  maker_lt : ∀ {k}, C.maker = some k → k < e.store.keepMaps.size

theorem Settled.owner_lt (h : C.Settled ns e) (howner : C.owner t = some k) :
    k < e.store.keepMaps.size :=
  (h.engine.owner_lt howner).elim id h.maker_lt

theorem Onward.housed (h : C.Onward e C' e') (he : C.Settled ns e)
    (hf : (claiming ns C).Housed e f) : (claiming ns C').Housed e' f := by
  obtain ⟨hpriv, hca⟩ := hf.cache
  refine ⟨⟨h.isPrivate hpriv, ?_⟩, Nat.lt_of_lt_of_le hf.keeps h.keepMaps_le, fun hget => ?_⟩
  · have howner := h.owner_eq hpriv.lt
    rcases hca with hown | ⟨k, hk, hground⟩
    · exact .inl (howner.trans hown)
    · exact .inr ⟨k, howner.trans hk, (h.ground_iff (he.owner_lt hk)).mpr hground⟩
  · obtain ⟨hpriv, hown⟩ := hf.container hget
    exact ⟨h.isPrivate hpriv, (h.owner_eq hpriv.lt).trans hown⟩

theorem Onward.seated (h : C.Onward e C' e') (hf : (claiming ns C).Housed e f)
    {below : Option KeepMapId} (hseated : C.Seated ns f below) : C'.Seated ns f below where
  bottom hnone := (h.ground_iff hf.keeps).mpr (hseated.bottom hnone)
  le := hseated.le
  apart k hk hne hground := hseated.apart k hk hne ((h.ground_iff hf.keeps).mp hground)
  cache d hd hsite := (h.owner_eq hf.cache.1.lt).trans (hseated.cache d hd hsite)
  kind := (h.kind_eq hf.keeps).trans hseated.kind

/-- The notes before something is done: from now on tables are made for `maker`, and a keep map that
    comes is for frames of the definition `kind`, and that of a bottom frame or not. -/
def before (C : Claims) (e : Engine) (maker : Option KeepMapId) (bottom : Prop)
    (kind : Option DefId) : Claims where
  owner t := if t < e.store.tables.size then C.owner t else maker
  ground k := if k < e.store.keepMaps.size then C.ground k else bottom
  maker := maker
  kind k := if k < e.store.keepMaps.size then C.kind k else kind

theorem before_onward (C : Claims) (e : Engine) (maker : Option KeepMapId) (bottom : Prop)
    (kind : Option DefId) : C.Onward e (C.before e maker bottom kind) e :=
  ⟨.refl e, fun ht => if_pos ht, fun hk => iff_of_eq (if_pos hk), fun hk => if_pos hk⟩

theorem Settled.before (h : C.Settled ns e) (maker : Option KeepMapId) (bottom : Prop)
    (kind : Option DefId) : e.Claimed ns (C.before e maker bottom kind) := by
  have honward := C.before_onward e maker bottom kind
  refine ⟨h.engine.toLodged, fun hname hp hdur howner => ?_, fun ht => ?_, fun {t k} howner => ?_⟩
  · rw [honward.owner_eq (h.engine.pointer_lt hp)] at howner
    exact (h.engine.aimed hname hp hdur howner).imp_right
      (honward.ground_iff (h.owner_lt howner)).mpr
  · exact if_neg (Nat.not_lt_of_le ht)
  · by_cases ht : t < e.store.tables.size
    · rw [honward.owner_eq ht] at howner
      exact .inl (h.owner_lt howner)
    · exact .inr ((if_neg ht).symm.trans howner)

end Claims

theorem Pool.Chain.previous_getLast? (h : pool.Chain top l) (hlast : l.getLast? = some entry) :
    entry.2.previous = none := by
  induction h with
  | bottom => cases hlast
  | @link id frame rest hf hrest ih =>
    cases rest with
    | nil =>
      have hent : (id, frame) = entry := Option.some.inj hlast
      generalize hprev : frame.previous = below at hrest
      cases hrest
      rw [← hent, hprev]
    | cons next rest =>
      exact ih hlast

/-! ## 4. Sessions -/

namespace Session

/-- The notes are right for the engine, and for the frames of the family. -/
structure Claimed (ns : Namespace) (C : Claims) (s : Session) : Prop where
  upheld : s.Upheld (.claiming ns C)
  maker_lt : ∀ {k}, C.maker = some k → k < s.store.keepMaps.size
  seats : C.Seats ns s.family.pool

theorem Claimed.settled (h : s.Claimed ns C) : C.Settled ns s.engine := ⟨h.upheld.engine, h.maker_lt⟩

theorem Claimed.before (h : s.Claimed ns C) (maker : Option KeepMapId) (bottom : Prop)
    (kind : Option DefId) : s.Upheld (.claiming ns (C.before s.engine maker bottom kind)) ∧
      (C.before s.engine maker bottom kind).Seats ns s.family.pool := by
  have honward := C.before_onward s.engine maker bottom kind
  refine ⟨⟨h.settled.before maker bottom kind, fun id f hf => ?_⟩, fun id f hf => ?_⟩
  · exact honward.housed h.settled (h.upheld.frames id f hf)
  · exact honward.seated (h.upheld.frames id f hf) (h.seats id f hf)

/-- After an operation there are notes that are right. -/
def Reclaims (ns : Namespace) (rest : List Stack) (s s' : Session) : Prop :=
  s.Fit ns rest → ∀ C, s.Claimed ns C → ∃ C', s'.Claimed ns C' ∧ C.Onward s.engine C' s'.engine

theorem Claimed.lodged (h : s.Claimed ns C) : s.Upheld (.lodging ns) := by
  refine ⟨h.upheld.engine.toLodged, fun id f hf => ?_⟩
  have hhoused := h.upheld.frames id f hf
  exact ⟨hhoused.cache.1.lt, hhoused.keeps, fun hget => (hhoused.container hget).1.lt⟩

theorem reclaims_of_upholds (maker : Option KeepMapId)
    (hmaker : s.Upheld (.lodging ns) → ∀ k, maker = some k → k < s.store.keepMaps.size)
    (hwithin : Pool.Within place s'.family.pool s.family.pool)
    (hupholds : ∀ C : Claims, C.maker = maker → s.Upholds (.claiming ns C) ns rest s') :
    s.Reclaims ns rest s' := by
  intro hs C h
  obtain ⟨hheld, hseats⟩ := h.before maker False none
  obtain ⟨hs', hheld', hgr⟩ := hupholds _ rfl hs hheld
  refine ⟨_, ⟨hheld', fun hk => ?_, hseats.within hwithin hs'.sound.accounted⟩,
    (C.before_onward s.engine maker False none).continue hgr⟩
  exact Nat.lt_of_lt_of_le (hmaker h.lodged _ hk) hgr.keepMaps_le

/-! ### Frames that are made -/

theorem seats_grown (h : C.Seats ns s.family.pool) {new : Frame}
    (hgrown : s.Grown seat new.seat s') {held' : List FrameId}
    (ha : s.family.pool.Accounted held) (ha' : s'.family.pool.Accounted held')
    (hlive : ∀ below, new.previous = some below → ∃ lower, s.frame? below = some lower)
    (hnew : C.Seated ns new (s.family.pool.keepsBelow new)) : C.Seats ns s'.family.pool := by
  -- what is below was there before, and is still there
  have hbel : ∀ {id f below lower}, s'.frame? id = some f → f.previous = some below →
      s.frame? below = some lower → ∃ lower lower', s.family.pool.get? below = some lower ∧
        s'.family.pool.get? below = some lower' ∧ lower'.place = lower.place := by
    intro id f below lower hf hprev hlow
    obtain ⟨lower', hlow', _⟩ := ha'.below_live hf hprev
    rcases hgrown.frames below lower' hlow' with ⟨htop, _⟩ | ⟨old, hold, hread⟩
    · rw [hgrown.fresh below htop] at hlow
      cases hlow
    · exact ⟨old, lower', hold, hlow', (Prod.mk.inj hread).2.symm⟩
  intro id f hf
  rcases hgrown.frames id f hf with ⟨_, hread⟩ | ⟨old, hold, hread⟩
  · obtain ⟨hprev, hplace⟩ := Prod.mk.inj hread
    rw [Claims.keepsBelow_eq hprev fun below hp =>
      let ⟨_, hlow⟩ := hlive below hp; hbel hf (hprev.trans hp) hlow]
    exact hnew.of_place_eq hplace
  · obtain ⟨hprev, hplace⟩ := Prod.mk.inj hread
    rw [Claims.keepsBelow_eq hprev.symm fun below hp =>
      let ⟨_, hlow, _⟩ := ha.below_live hold hp; hbel hf (hprev.symm.trans hp) hlow]
    exact (h id old hold).of_place_eq hplace.symm

/-- A frame that is pushed has the keep map of the frame below, which is of the same definition, or a
    new one. -/
theorem frameFor_keeps_cases (s : Session) (bound : Bound) (d : Definition) (prev : Option Frame)
    (newCall : Bool) :
    (∃ below, prev = some below ∧ below.definition = bound.definition ∧
      (s.frameFor bound d prev newCall).2.1.keeps = below.keeps) ∨
    s.store.keepMaps.size ≤ (s.frameFor bound d prev newCall).2.1.keeps := by
  rw [frameFor_eq]
  cases hinherited : prev.filter (continuesKeeps bound) with
  | some below =>
    obtain ⟨hbel, hcontinues⟩ := filter_eq_some_iff.mp hinherited
    have hsame : (below.definition == bound.definition) = true := (Bool.and_eq_true_iff.mp hcontinues).1
    exact .inl ⟨below, hbel, beq_iff_eq.mp hsame, rfl⟩
  | none =>
    obtain ⟨_, containers, hfr⟩ := registerKeeps_effect (prev.map Frame.keeps) d.keeps _ _
    rw [hfr]
    exact .inr (s.homeFor_grows bound.definition d prev).keepMaps_le

theorem frameFor_seated (hs : s.Fit ns rest) (h : s.Claimed ns C) {bound : Bound}
    (hd : s.ns.get? bound.definition = some d) (newCall : Bool) :
    let frame := (s.frameFor bound d s.topFrame? newCall).2.1
    (C.before s.engine (some frame.keeps) (s.stack.top = none) (some bound.definition)).Seated ns frame
      (s.family.pool.keepsBelow frame) := by
  obtain ⟨_, hfresh, hdef, _⟩ := frameFor_effect s bound d s.topFrame? newCall
  have hks := frameFor_keeps_cases s bound d s.topFrame? newCall
  have hca := frameFor_cache s bound d s.topFrame? newCall
  have hbel : s.family.pool.keepsBelow (s.frameFor bound d s.topFrame? newCall).2.1 =
      s.topFrame?.map (·.keeps) := by
    rw [Pool.keepsBelow, hfresh.previous_eq]
    rfl
  simp only [hbel]
  generalize (s.frameFor bound d s.topFrame? newCall).2.1 = frame at hdef hks hca
  -- a new keep map is that of a bottom frame if there is no frame below
  have hground : s.store.keepMaps.size ≤ frame.keeps →
      ((C.before s.engine (some frame.keeps) (s.stack.top = none) (some bound.definition)).ground
        frame.keeps ↔ s.stack.top = none) := fun hle => iff_of_eq (if_neg (Nat.not_lt_of_le hle))
  have hlt : ∀ {below : Frame}, s.topFrame? = some below → below.keeps < s.store.keepMaps.size :=
    fun hfr => (h.upheld.topFrame hfr).keeps
  refine ⟨fun hnone => ?_, fun k hk => ?_, fun k hk hne => ?_, fun found hfd hsite => ?_, ?_⟩
  · have hnone := map_eq_none_iff.mp hnone
    rcases hks with ⟨below, hfr, _⟩ | hle
    · rw [hnone] at hfr
      cases hfr
    · refine (hground hle).mpr ?_
      cases htop : s.stack.top with
      | none => rfl
      | some id =>
        obtain ⟨f, hf⟩ := hs.top_live _ htop
        rw [topFrame?_eq htop hf] at hnone
        cases hnone
  · obtain ⟨below, hfr, rfl⟩ := map_eq_some_iff.mp hk
    rcases hks with ⟨_, hsame, _, heq⟩ | hle
    · rw [hfr] at hsame
      cases hsame
      exact Nat.le_of_eq heq.symm
    · exact Nat.le_trans (Nat.le_of_lt (hlt hfr)) hle
  · obtain ⟨below, hfr, rfl⟩ := map_eq_some_iff.mp hk
    rcases hks with ⟨_, hsame, _, heq⟩ | hle
    · rw [hfr] at hsame
      cases hsame
      exact absurd heq.symm hne
    · rw [hground hle]
      intro hnone
      rw [topFrame?, hnone] at hfr
      cases hfr
  · rw [hdef, ← hs.ns_eq, hd] at hfd
    cases hfd
    have hsite : ¬ d.isSite = true := by rw [hsite]; exact Bool.false_ne_true
    obtain ⟨hnew, _⟩ := s.homeFor_private h.upheld.engine.toRanged bound.definition d s.topFrame?
      fun h => absurd h hsite
    rw [hca, hnew]
    exact if_neg (Nat.lt_irrefl _)
  · rw [hdef]
    rcases hks with ⟨below, hfr, hsame, heq⟩ | hle
    · obtain ⟨id, _, hf⟩ := bind_eq_some_iff.mp hfr
      rw [heq, ← hsame]
      exact (if_pos (hlt hfr)).trans (h.seats id below hf).kind
    · exact if_neg (Nat.not_lt_of_le hle)

/-- The frame on record as the root, if there is one, is the bottom frame. -/
def RootAtBottom (s : Session) : Prop :=
  ∀ id, s.stack.root = some id → s.frames.getLast?.map (·.1) = some id

theorem RootAtBottom.previous_eq (h : s.RootAtBottom) (hs : s.Fit ns rest)
    (hroot : s.rootFrame? = some root) : root.previous = none := by
  obtain ⟨id, hid, hf⟩ := bind_eq_some_iff.mp hroot
  obtain ⟨entry, hlast, rfl⟩ := map_eq_some_iff.mp (h id hid)
  have hget : s.frame? entry.1 = some entry.2 := Pool.get?_of_mem_chain (mem_of_getLast? hlast)
  rw [hget] at hf
  cases hf
  exact (frames_chain hs.sound).previous_getLast? hlast

theorem RootAtBottom.common (h : s.RootAtBottom) (hs : s.Fit ns rest)
    (hheld : s.Upheld (.claiming ns C)) (hseats : C.Seats ns s.family.pool)
    (hroot : s.rootFrame? = some root) : s.engine.Private root.cache ∧ C.Common root.cache := by
  have hbot := h.previous_eq hs hroot
  obtain ⟨id, _, hf⟩ := bind_eq_some_iff.mp hroot
  have hground := (hseats id root hf).bottom (by rw [Pool.keepsBelow, hbot]; rfl)
  obtain ⟨hpriv, hown | hcommon⟩ := (hheld.frames id root hf).cache
  · exact ⟨hpriv, root.keeps, hown, hground⟩
  · exact ⟨hpriv, hcommon⟩

/-- **A push leaves notes that are right**, if for a site the root is the bottom frame. -/
theorem Push.reclaims (h : s.Push s') (hrooted : ∀ frame d, s'.topFrame? = some frame →
    s.ns.get? frame.definition = some d → d.isSite = true → s.RootAtBottom) : s.Reclaims ns rest s' := by
  have heff := h.move.effect
  rcases h.made with rfl | ⟨bound, d, newCall, hd, rfl⟩
  · exact fun _ C h => ⟨C, h, .refl C s'.engine⟩
  intro hs C h
  have hs' := heff.fit hs
  obtain ⟨_, hfresh, hdef, _⟩ := frameFor_effect s bound d s.topFrame? newCall
  have hseated := frameFor_seated hs h hd newCall
  obtain ⟨new, hnew, _, hfr⟩ := enter_top hs.sound (s.frameFor bound d s.topFrame? newCall).2.1
    (s.frameFor bound d s.topFrame? newCall).2.2
  have hrooted := hrooted _ d (by rw [topFrame?, hnew]; exact hfr) (hdef ▸ hd)
  -- tables are made for the new frame, and a new keep map is its own
  obtain ⟨hheld, hseats⟩ := h.before
    (some (s.frameFor bound d s.topFrame? newCall).2.1.keeps) (s.stack.top = none)
    (some bound.definition)
  obtain ⟨hheld', hgr⟩ := enter_frameFor_upheld (claiming_kept ns _).toPushable hs hheld hd
    (fun hsite root hroot k _ => ((hrooted hsite).common hs hheld hseats hroot).imp_right .inr) rfl
  refine ⟨_, ⟨hheld', ?_, ?_⟩, (C.before_onward s.engine _ _ _).continue hgr⟩
  · rintro _ ⟨⟩
    exact (hheld'.frames new _ hfr).keeps
  · refine seats_grown hseats (enter_grown seat_ignoresCounts hs.sound hfresh _)
      hs.sound.accounted hs'.sound.accounted (fun below hbel => ?_) hseated
    rw [hfresh.previous_eq] at hbel
    exact hs.top_live _ hbel

theorem copy_place (source : Frame) (store : Store) :
    (source.copy false store).1.place =
      (source.definition, store.tables.size, store.keepMaps.size) := by
  have hmaps := Store.copyTables_keepMaps source.containers (store.copyTable source.cache).2
  exact congrArg (fun size => (source.definition, store.tables.size, size)) (congrArg Array.size hmaps)

theorem copy_seated (h : s.Claimed ns C) (hf : s.frame? id = some frame) :
    (C.before s.engine (some s.store.keepMaps.size) (s.family.pool.keepsBelow frame = none)
      (some frame.definition)).Seated ns (frame.copy false s.store).1
        (s.family.pool.keepsBelow frame) := by
  have hseated := h.seats id frame hf
  obtain ⟨hdef, hca, hks⟩ : (frame.copy false s.store).1.definition = frame.definition ∧
      (frame.copy false s.store).1.cache = s.store.tables.size ∧
      (frame.copy false s.store).1.keeps = s.store.keepMaps.size := by
    simpa only [place, Prod.mk.injEq] using copy_place frame s.store
  have hground : (C.before s.engine (some s.store.keepMaps.size)
      (s.family.pool.keepsBelow frame = none) (some frame.definition)).ground s.store.keepMaps.size ↔
        s.family.pool.keepsBelow frame = none := iff_of_eq (if_neg (Nat.lt_irrefl _))
  refine ⟨fun hnone => ?_, fun k hk => ?_, fun k hk _ => ?_, fun _ _ _ => ?_, ?_⟩ <;> rw [hks]
  · exact hground.mpr hnone
  · exact Nat.le_trans (hseated.le k hk) (Nat.le_of_lt (h.upheld.frames id frame hf).keeps)
  · rw [hground, hk]
    exact some_ne_none k
  · exact if_neg (Nat.lt_irrefl _)
  · exact if_neg (Nat.lt_irrefl _)

/-- **A branch leaves notes that are right.** -/
theorem branch_reclaims (s : Session) (sharing : Bool) : s.Reclaims ns rest (s.branch sharing) := by
  intro hs C h
  cases htop : s.stack.top with
  | none =>
    rw [branch_empty sharing htop]
    exact ⟨C, ⟨⟨h.upheld.engine, h.upheld.frames⟩, h.maker_lt, h.seats⟩, .refl C s.engine⟩
  | some id =>
    obtain ⟨frame, hf⟩ := hs.top_live _ htop
    obtain ⟨hprev, _⟩ := copy_like frame sharing s.store
    have hgrown := branch_grown seat_ignoresCounts hs.sound sharing htop hf
    have hsound := branch_sound hs.sound sharing
    have hlive : ∀ below, (frame.copy sharing s.store).1.previous = some below →
        ∃ lower, s.frame? below = some lower := by
      intro below hbel
      obtain ⟨lower, hlow, _⟩ := hs.sound.accounted.below_live hf (hprev ▸ hbel)
      exact ⟨lower, hlow⟩
    have hbel : s.family.pool.keepsBelow (frame.copy sharing s.store).1 =
        s.family.pool.keepsBelow frame := by rw [Pool.keepsBelow, hprev]; rfl
    cases sharing with
    | true =>
      obtain ⟨hheld, hseats⟩ := h.before none False none
      obtain ⟨hheld', hgr⟩ := branch_upheld (claiming_copied ns _) hs hheld true nofun
      refine ⟨_, ⟨hheld', ?_, ?_⟩, (C.before_onward s.engine none False none).continue hgr⟩
      · rintro _ ⟨⟩
      · refine seats_grown hseats hgrown hs.sound.accounted hsound.accounted hlive ?_
        exact (hseats id frame hf).of_place_eq rfl
    | false =>
      obtain ⟨hheld, hseats⟩ := h.before (some s.store.keepMaps.size)
        (s.family.pool.keepsBelow frame = none) (some frame.definition)
      obtain ⟨hheld', hgr⟩ := branch_upheld (claiming_copied ns _) hs hheld false
        fun _ => rfl
      refine ⟨_, ⟨hheld', ?_, ?_⟩, (C.before_onward s.engine _ _ _).continue hgr⟩
      · rintro _ ⟨⟩
        -- the copy has the keep map that came last
        obtain ⟨new, hnew, hfresh, hview, _⟩ :=
          branch_view definition_lasting hs.sound false htop hf
        obtain ⟨copied, hcopied⟩ := Sound.live hsound _ hnew
        rcases hgrown.frames new copied hcopied with ⟨_, hread⟩ | ⟨old, hold, _⟩
        · have hks : copied.keeps = s.store.keepMaps.size := by
            have hplace := (Prod.mk.inj hread).2.trans (copy_place frame s.store)
            exact (Prod.mk.inj (Prod.mk.inj hplace).2).2
          exact hks ▸ (hheld'.frames new copied hcopied).keeps
        · rw [hfresh] at hold
          cases hold
      · refine seats_grown hseats hgrown hs.sound.accounted hsound.accounted hlive ?_
        exact copy_seated h hf

/-- **The end of a stack leaves notes that are right.** -/
theorem close_reclaims (s : Session) : s.Reclaims ns rest s.close := by
  intro hs C h
  obtain ⟨hheld, hseats⟩ := h.before none False none
  obtain ⟨hheld', hgr⟩ := close_upheld (claiming_kept ns _).toPushable hheld
  refine ⟨_, ⟨hheld', ?_, ?_⟩, (C.before_onward s.engine none False none).continue hgr⟩
  · rintro _ ⟨⟩
  · exact hseats.within (close_within place_standing.counts s)
      (close_sound hs.sound).accounted

end Session

/-! ### Moves -/

/-- Sites are pushed only while the frame on record as the root is the bottom frame. -/
def Terms.rooted : Terms where
  push s s' := ∀ frame d, s'.topFrame? = some frame → s.ns.get? frame.definition = some d →
    d.isSite = true → s.RootAtBottom
  addKeep _ _ := True
  put _ _ := True
  putValue _ _ := True

theorem Terms.rooted_plain (id : DefId) (hid : (s.ns.get? id).all (!·.isSite) = true)
    (htop : (s.push id [] true).2.topDefinition? = some id) :
    Terms.rooted.push s (s.push id [] true).2 := by
  intro frame d hfr hd hsite
  rw [Session.topDefinition?, hfr] at htop
  cases htop
  rw [hd, all_some, hsite] at hid
  cases hid

namespace Session

theorem putWithin_claimed (C : Claims) (s : Session) (key : String) (holder : Holder)
    (levels : Option Nat) : s.Upholds (.claiming ns C) ns rest (s.putWithin key holder levels).2 :=
  putWithin_kept (claiming_kept ns C) ⟨trivial, fun _ _ _ => trivial⟩ holder levels
    fun hheld _ _ _ => hheld.engine.set _ _ nofun

/-- **Every move under the terms leaves notes that are right.** -/
theorem MoveBy.reclaims (h : s.MoveBy .rooted s') : s.Reclaims ns rest s' := by
  by_cases hpush : s.Push s' ∧ Terms.rooted.push s s'
  · exact hpush.1.reclaims hpush.2
  intro hs
  obtain ⟨hwithin, _⟩ := (h.within place_standing hs.sound).resolve_left hpush
  -- all that is left makes tables for the top frame at most, by a keep statement
  refine reclaims_of_upholds (s.topFrame?.map Frame.keeps) (fun hlodged k hk => ?_) hwithin
    (fun C hmaker => h.upheld (claiming_kept ns C).toPushable
      (fun h hterms => absurd ⟨h, hterms⟩ hpush) (fun _ _ frame hfr => ⟨?_, trivial⟩)
      (fun holder levels _ => putWithin_claimed C s _ holder levels)
      fun _ _ hheld _ _ => hheld.engine.set _ _ nofun) hs
  · obtain ⟨frame, hfr, rfl⟩ := map_eq_some_iff.mp hk
    exact (hlodged.topFrame hfr).keeps
  · exact hmaker.trans (map_eq_some_iff.mpr ⟨frame, hfr, rfl⟩)

end Session

/-! ## 5. Workspaces -/

namespace Workspace

variable {w w' : Workspace} {limits : Limits} {C' : Claims}

/-- The notes are right for the engine, and for the frames of all families. -/
structure Claimed (ns : Namespace) (C : Claims) (w : Workspace) : Prop where
  upheld : w.Upheld (.claiming ns C)
  maker_lt : ∀ {k}, C.maker = some k → k < w.engine.store.keepMaps.size
  seats : ∀ {i : Nat} {family : Family}, w.families[i]? = some family → C.Seats ns family.pool

section

variable (h : w.Claimed ns C)
include h

theorem Claimed.settled : C.Settled ns w.engine := ⟨h.upheld.engine, h.maker_lt⟩

theorem Claimed.session (hs : w.session? name = some s) : s.Claimed ns C ∧ s.engine = w.engine := by
  obtain ⟨hheld, heng⟩ := h.upheld.session hs
  obtain ⟨seat, family, _, hfam, rfl⟩ := session?_ok hs
  exact ⟨⟨hheld, h.maker_lt, h.seats hfam⟩, rfl⟩

theorem Claimed.later (heng : C'.Settled ns engine)
    (honward : C.Onward w.engine C' engine) : Claimed ns C' { w with engine } where
  upheld := ⟨heng.engine, fun hfam id f hf =>
    honward.housed h.settled (h.upheld.frames hfam id f hf)⟩
  maker_lt := heng.maker_lt
  seats hfam id f hf := honward.seated (h.upheld.frames hfam id f hf) (h.seats hfam id f hf)

theorem Claimed.adopt (hs : s.Claimed ns C')
    (honward : C.Onward w.engine C' s.engine) : (w.adopt s).Claimed ns C' := by
  have hlater := h.later hs.settled honward
  refine ⟨adopt_upheld hs.upheld hlater.upheld.frames, hs.maker_lt, fun {i family} hfam => ?_⟩
  rcases getElem?_of_set hfam with ⟨_, rfl⟩ | ⟨_, hfam⟩
  · exact hs.seats
  · exact hlater.seats hfam

end

/-- There are notes that are right. -/
def Claimable (ns : Namespace) (w : Workspace) : Prop := ∃ C, w.Claimed ns C

section

variable (h : w.Claimable ns)
include h

theorem Claimable.adopt (hw : (w.roster unnamed).Reachable ns limits)
    (hs : w.session? name = some s) (hreclaims : ∀ rest, s.Reclaims ns rest s') :
    (w.adopt s').Claimable ns := by
  obtain ⟨C, h⟩ := h
  obtain ⟨rest, hfit⟩ := session_fit hw hs
  obtain ⟨hclaimed, heng⟩ := h.session hs
  obtain ⟨C', hclaimed', honward⟩ := hreclaims rest hfit C hclaimed
  exact ⟨C', h.adopt hclaimed' (heng ▸ honward)⟩

theorem Claimable.reseat (seats : Dictionary String Seat) : Claimable ns { w with seats } := by
  obtain ⟨C, h⟩ := h
  exact ⟨C, ⟨h.upheld.engine, h.upheld.frames⟩, h.maker_lt, h.seats⟩

theorem Claimable.finish (hw : (w.roster unnamed).Reachable ns limits)
    (name : String) : (w.finish name).Claimable ns := by
  unfold Workspace.finish
  split
  · rename_i s hs
    exact (h.adopt hw hs fun rest => s.close_reclaims).reseat _
  · exact h

theorem Claimable.start (hw : (w.roster []).Reachable ns limits)
    (name : String) : (w.start name).Claimable ns := by
  obtain ⟨C, hfin⟩ := h.finish hw name
  refine ⟨C, ⟨hfin.upheld.engine, fun hfam id f hf => ?_⟩, hfin.maker_lt,
    fun hfam id f hf => ?_⟩
  all_goals
    rcases families_start hfam with hnone | hold
    · rw [hnone] at hf
      cases hf
  · exact hfin.upheld.frames hold id f hf
  · exact hfin.seats hold id f hf

theorem Claimable.later
    (heng : ∀ C : Claims, w.engine.Claimed ns C →
      engine.Claimed ns C ∧ w.engine.Continues engine) : Claimable ns { w with engine } := by
  obtain ⟨C, h⟩ := h
  obtain ⟨hclaimed, hgr⟩ := heng _ (h.settled.before none False none)
  refine ⟨_, h.later ⟨hclaimed, ?_⟩ ((C.before_onward w.engine none False none).continue hgr)⟩
  rintro _ ⟨⟩

end

theorem new_claimable (ns : Namespace) (limits : Limits) : (Workspace.new ns limits).Claimable ns := by
  refine ⟨⟨fun _ => none, fun _ => False, none, fun _ => none⟩, new_upheld ⟨⟨new_direct ns limits, nofun⟩,
    ?_, fun _ => rfl, ?_⟩, ?_, fun hfam => ?_⟩
  · rintro _ _ _ _ _ _ _ ⟨⟩
  · rintro _ _ ⟨⟩
  · rintro _ ⟨⟩
  · simp [Workspace.new] at hfam

/-- **In a run under the terms there are always notes that are right.** -/
theorem Run.claimable (hrun : w.Run .rooted w') (hw : w.Reachable ns limits) (h : w.Claimable ns) :
    w'.Claimable ns := by
  induction hrun with
  | refl => exact h
  | step hrun hstep ih =>
    have hw := (hrun.reachable hw).roster
    cases hstep with
    | start name => exact ih.start hw name
    | finish name => exact ih.finish hw name
    | move hs hmove => exact (ih.adopt hw hs fun rest => hmove.reclaims).reseat _
    | @branch name s sharing target hs =>
      have hbranched := ih.adopt hw hs fun rest => s.branch_reclaims sharing
      exact (hbranched.finish (hw.trans (branched_acts hw.numbered hs sharing)) target).reseat _
    | restore snap =>
      refine ih.later fun C hclaimed => restore_upheld (claiming_kept ns C).toPushable ?_
        hclaimed snap
      exact fun key he _ hent => he.set _ _ hent
    | siteTable site =>
      refine ih.later fun C hclaimed => ?_
      obtain ⟨hgrown, _⟩ := siteTable_grows _ site
      exact ⟨hclaimed.grow hgrown, hgrown.continues⟩

end Workspace

/-! ## 6. The frames below -/

theorem Pool.Chain.lower {pool : Pool} {frame : Frame} {rest : List (FrameId × Frame)}
    (h : pool.Chain frame.previous rest) {entry : FrameId × Frame} (hmem : entry ∈ rest) :
    ∃ below lower, frame.previous = some below ∧ pool.get? below = some lower ∧
      pool.keepsBelow frame = some lower.keeps := by
  generalize hprev : frame.previous = prev at h
  cases h with
  | bottom => cases hmem
  | @link below lower _ hlow _ =>
    refine ⟨below, lower, rfl, hlow, ?_⟩
    rw [Pool.keepsBelow, hprev, bind_some, hlow, map_some]

namespace Claims.Seats

section

variable (h : C.Seats ns pool) (hchain : pool.Chain top l) (htop : top = some id) (hf : pool.get? id
  = some frame) (hmem : entry ∈ l)
include h hchain htop hf hmem

theorem keeps_cases : entry.2.keeps = frame.keeps ∨
    entry.2.keeps < frame.keeps ∧ ¬ C.ground frame.keeps := by
  induction hchain generalizing id frame with
  | bottom => cases htop
  | @link id' frame' rest hf' hrest ih =>
    cases htop
    rw [hf'] at hf
    cases hf
    rcases mem_cons.mp hmem with rfl | hmem
    · exact .inl rfl
    · obtain ⟨below, lower, hprev, hlow, hbel⟩ := hrest.lower hmem
      have hlower := ih hprev hlow hmem
      by_cases hsame : lower.keeps = frame'.keeps
      · -- the frame goes on with what the next one keeps
        rwa [← hsame]
      · have hle := hlower.elim Nat.le_of_eq fun hlt => Nat.le_of_lt hlt.1
        have hseated := h id' frame' hf'
        exact .inr ⟨Nat.lt_of_le_of_lt hle (Nat.lt_of_le_of_ne (hseated.le _ hbel) hsame),
          hseated.apart _ hbel hsame⟩

end

theorem definition_eq (h : C.Seats ns pool) {id' : FrameId} {frame' : Frame}
    (hf : pool.get? id = some frame) (hf' : pool.get? id' = some frame')
    (hks : frame'.keeps = frame.keeps) : frame'.definition = frame.definition := by
  have hkind := (h id' frame' hf').kind
  rw [hks, (h id frame hf).kind] at hkind
  exact (Option.some.inj hkind).symm

end Claims.Seats

namespace Session

theorem Claimed.owns (h : s.Claimed ns C) (hf : s.frame? id = some frame)
    (hd : ns.get? frame.definition = some d) (hsite : d.isSite = false) (ht : frame.Owns t) :
    s.engine.Private t ∧ C.owner t = some frame.keeps := by
  have hhoused := h.upheld.frames id frame hf
  rcases ht with rfl | ⟨name, hget⟩
  · exact ⟨hhoused.cache.1, (h.seats id frame hf).cache d hd hsite⟩
  · exact hhoused.container hget

section

variable (h : s.Claimed ns C) (hs : s.Fit ns rest) (hf : s.frame? id = some frame) (hd : ns.get?
  frame.definition = some d) (hsite : d.isSite = false)
include h hs hf hd hsite

/-- **Nothing is put into the tables of a frame from a frame below that has another keep map**, if the
    frame is not that of a site. -/
theorem Claimed.not_writes (hmem : entry ∈ s.family.pool.chain frame.previous)
    (hne : entry.2.keeps ≠ frame.keeps) (ht : frame.Owns t) : ¬ entry.2.Writes s.store t := by
  have hbalanced := hs.sound.accounted.toBalanced
  have hchain := hbalanced.chain fun _ hid => Option.some.inj hid ▸ ⟨frame, hf⟩
  rw [hbalanced.chain_some hf] at hchain
  have hmem' : entry ∈ (id, frame) :: s.family.pool.chain frame.previous := mem_cons_of_mem _ hmem
  obtain ⟨hlt, hground⟩ := (h.seats.keeps_cases hchain rfl hf hmem').resolve_left hne
  obtain ⟨hpriv, howner⟩ := h.owns hf hd hsite ht
  have hhoused := h.upheld.frames entry.1 entry.2 (Pool.get?_of_mem_chain hmem)
  -- the table would be noted as that of a keep map further down, or of a bottom frame
  have hcommon : ¬ C.Common t := by
    rintro ⟨k, hk, hk'⟩
    cases hk.symm.trans howner
    exact hground hk'
  have hoth : C.owner t ≠ some entry.2.keeps := fun hk =>
    hne (Option.some.inj (hk.symm.trans howner))
  rintro ((rfl | ⟨name, hget⟩) | ⟨name, p, hname, hp, rfl⟩)
  · exact hhoused.cache.2.elim hoth hcommon
  · exact hoth (hhoused.container hget).2
  · rcases h.upheld.engine.aimed hname hp hpriv.not_durable howner with hle | hk
    · exact Nat.not_le_of_lt hlt hle
    · exact hground hk

/-- **Nothing is put into the tables of a frame from the frames below**, if the frame has a keep map of
    its own and is not that of a site. -/
theorem Claimed.below (hown : s.keepsBelow frame ≠ some frame.keeps) :
    ∀ entry ∈ s.family.pool.chain frame.previous, entry.2.keeps ≠ frame.keeps ∧ ∀ t, frame.Owns t →
    ¬ entry.2.Writes s.store t := by
  intro entry hmem
  have hchain : s.family.pool.Chain frame.previous (s.family.pool.chain frame.previous) :=
    hs.sound.accounted.toBalanced.chain fun _ hid =>
      let ⟨lower, hlow, _⟩ := hs.sound.accounted.below_live hf hid; ⟨lower, hlow⟩
  obtain ⟨below, lower, hprev, hlow, hbel⟩ := hchain.lower hmem
  have hne : lower.keeps ≠ frame.keeps := fun heq => hown (hbel.trans (congrArg some heq))
  have hle := (h.seats.keeps_cases hchain hprev hlow hmem).elim Nat.le_of_eq fun h => Nat.le_of_lt h.1
  have hne := Nat.ne_of_lt
    (Nat.lt_of_le_of_lt hle (Nat.lt_of_le_of_ne ((h.seats id frame hf).le _ hbel) hne))
  exact ⟨hne, fun t ht => h.not_writes hs hf hd hsite hmem hne ht⟩

end

end Session

end KeepTree
