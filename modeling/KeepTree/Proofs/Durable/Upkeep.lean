import KeepTree.Proofs.Durable.Tables
import KeepTree.Proofs.Evaluation.Moves
import KeepTree.Proofs.Evaluation.Restoring

/-!
# What engines and frames keep up

Frames name tables and keep maps of an engine. Many facts are about these alone: about what the tables
and keep maps of the engine hold, and about which of them a frame may name. What operations do to
tables comes down to a few things: empty tables come, a keep statement enters pointers, a value is
written to the cache of a frame, through a pointer, or to the place of a durable definition. A fact
that these keep is kept by all operations:

* `Upkeep.Pushable`, `frameFor_upheld` -- a push keeps it;
* `Upkeep.Kept`, `putWithin_upheld` -- a put keeps it, too;
* `Upkeep.Copied`, `copy_upheld` -- a branch keeps it;
* `Upkeep.Open`, `upholds_tracks` -- **if values may be written to any cache, all that an evaluation
  does keeps the fact**;
* `Workspace.Upheld` -- it holds of all families; starting, branching and ending stacks keep it.
-/

namespace KeepTree

open Engine KeepTree.Frame Option

variable {U : Upkeep} {ns : Namespace} {e e' engine : Engine} {frame : Frame} {s s' : Session}
  {rest : List Stack} {id x : DefId} {d : Definition} {keep : Keep} {below : Option KeepMapId}
  {entry found : FrameId × Frame} {bound : Bound} {newCall : Bool} {holder : Holder}
  {reach : List (FrameId × Frame)} {store : Store} {goal : Frame × Pointer} {key : String}
  {value : Value} {terms : Terms}

/-! ## 1. Facts about engines and frames -/

/-- A fact about engines, and about what frames over an engine may name. -/
structure Upkeep where
  engine : Engine → Prop
  /-- A frame for a definition, with this keep map, may have this table for a cache. -/
  cache : Engine → DefId → KeepMapId → TableId → Prop := fun _ _ _ _ => True
  keeps : Engine → KeepMapId → Prop := fun _ _ => True
  /-- Keep statements may be carried out in a frame with this cache and this keep map. -/
  own : Engine → TableId → KeepMapId → Prop := fun _ _ _ => True
  /-- A frame with this keep map may have this table for a container. -/
  container : Engine → KeepMapId → TableId → Prop := fun _ _ _ => True
  /-- Frames with this keep map may get new tables. -/
  makes : KeepMapId → Prop := fun _ => True
  /-- A definition may have this keep statement. -/
  statement : DefId → Keep → Prop := fun _ _ => True
  /-- Values may be put where frames keep this name. -/
  reads : String → Prop := fun _ => True
  /-- How engines go on. -/
  growth : Engine → Engine → Prop := fun _ _ => True

/-- An engine goes on, and the fact holds of it. -/
abbrev Upkeep.Carries (U : Upkeep) (e e' : Engine) : Prop := U.engine e' ∧ U.growth e e'

/-- A frame names what it may. -/
structure Upkeep.Housed (U : Upkeep) (e : Engine) (f : Frame) : Prop where
  cache : U.cache e f.definition f.keeps f.cache
  keeps : U.keeps e f.keeps
  container : ∀ {name t}, f.containers.get? name = some t → U.container e f.keeps t

/-- The slot that a keep statement of a frame gives to its target. -/
inductive Frame.KeepsAt (e : Engine) (f : Frame) (keep : Keep) (p : Pointer) : Prop
  | cache {x : DefId} : e.ns.child f.definition keep.target = .ok (some x) → p.table = f.cache →
      p.key = keep.target → KeepsAt e f keep p
  | container {name : String} : f.containers.get? name = some p.table → p.key = keep.target →
      KeepsAt e f keep p
  | durable {x : DefId} {d : Definition} : e.ns.child f.definition keep.target = .ok (some x) →
      e.ns.get? x = some d → d.isGlobal = true → p.key = d.fullName → e.home? d = some p.table →
      KeepsAt e f keep p

/-- What is done to tables when a frame is pushed keeps the fact. -/
structure Upkeep.Pushable (ns : Namespace) (U : Upkeep) : Prop where
  direct : ∀ {e}, U.engine e → e.Direct ns
  refl : ∀ e, U.growth e e := by intros; trivial
  trans : ∀ {e e' e''}, U.growth e e' → U.growth e' e'' → U.growth e e'' := by intros; trivial
  cache_growth : ∀ {e e' d k t}, U.growth e e' → U.cache e d k t → U.cache e' d k t := by
    intros; trivial
  keeps_growth : ∀ {e e' k}, U.growth e e' → U.keeps e k → U.keeps e' k := by intros; trivial
  own_growth : ∀ {e e' t k}, U.growth e e' → U.own e t k → U.own e' t k := by intros; trivial
  own_makes : ∀ {e t k}, U.own e t k → U.makes k := by intros; trivial
  container_growth : ∀ {e e' k t}, U.growth e e' → U.container e k t → U.container e' k t := by
    intros; trivial
  grow : ∀ {e e'}, U.engine e → e.Grown e' → U.Carries e e'
  fresh_table : ∀ {e e' t}, U.engine e → e.Grown e' → e.store.tables.size ≤ t → e'.Private t →
    ∀ k, U.makes k → (∀ d, U.cache e' d k t) ∧ U.container e' k t
  fresh_keeps : ∀ {e e' k}, U.engine e → e.Grown e' → e.store.keepMaps.size ≤ k →
    k < e'.store.keepMaps.size → U.keeps e' k ∧
      (U.makes k → ∀ d t, (∀ other, U.makes other → U.cache e' d other t) → U.own e' t k)
  declared : ∀ {id d keep}, ns.get? id = some d → keep ∈ d.keeps → U.statement id keep := by
    intros; trivial
  point : ∀ {e f keep p} (k : KeepMapId) (name : String), U.engine e → U.Housed e f →
    U.own e f.cache f.keeps → U.statement f.definition keep → f.KeepsAt e keep p →
    p.target.name = keep.target →
    (k = f.keeps ∨ U.keeps e k ∧ name = DottedName.join (ns.fullName f.definition) keep.target) →
    U.Carries e (e.withStore (e.store.keep k name p))

/-- An engine goes on, and a frame over it names what it may. -/
abbrev Upkeep.Houses (U : Upkeep) (e : Engine) (made : Frame × Engine) : Prop :=
  U.engine made.2 ∧ U.growth e made.2 ∧ U.Housed made.2 made.1

/-- The few things that are done to tables keep the fact. -/
structure Upkeep.Kept (ns : Namespace) (U : Upkeep) : Prop extends U.Pushable ns where
  named : ∀ {id d}, ns.get? id = some d → U.reads d.name := by intros; trivial
  kept : ∀ {e k name p} (iteration : Option Nat) (holder : Holder), U.engine e → U.keeps e k →
    U.reads name → e.store.pointer? k name = some p →
    U.Carries e (e.withStore (e.store.set (p.location iteration) (.holder holder)))
  durable : ∀ {e d t} {holder : Holder} (iteration : Option Nat), U.engine e →
    e.ns.get? holder.nominal = some d → d.isGlobal = true → e.home? d = some t →
    U.Carries e
      (e.withStore (e.store.set ⟨t, DottedName.inLoop d.fullName iteration⟩ (.holder holder)))

/-- The names that a value is put under and passed on by, when it is put under a key. -/
structure Upkeep.Readable (U : Upkeep) (key : String) : Prop where
  self : U.reads key
  inner : ∀ container child, DottedName.splitHead? key = some (container, child) → U.reads child

namespace Upkeep

variable {f f' : Frame}

theorem Housed.growth (h : U.Housed e f) (hU : U.Pushable ns) (hg : U.growth e e') : U.Housed e' f :=
  ⟨hU.cache_growth hg h.cache, hU.keeps_growth hg h.keeps,
    fun hget => hU.container_growth hg (h.container hget)⟩

theorem Pushable.count (hU : U.Pushable ns) (f : Counters → Counters) (he : U.engine e) :
    U.Carries e (e.count f) :=
  hU.grow he (e.count_grows f)

end Upkeep

/-- All that a frame names of an engine. -/
def Frame.tables (f : Frame) : DefId × TableId × KeepMapId × Dictionary String TableId :=
  (f.definition, f.cache, f.keeps, f.containers)

theorem Frame.tables_ignoresCounts : Pool.IgnoresCounts tables := fun _ _ _ => rfl

theorem Upkeep.Housed.of_tables_eq {f f' : Frame} (h : U.Housed e f)
    (htables : f'.tables = f.tables) : U.Housed e f' := by
  simp only [tables, Prod.mk.injEq] at htables
  obtain ⟨hdef, hca, hks, hcont⟩ := htables
  refine ⟨?_, hks ▸ h.keeps, fun hget => ?_⟩
  · rw [hdef, hca, hks]
    exact h.cache
  · rw [hcont] at hget
    rw [hks]
    exact h.container hget

/-! ## 2. Keeping -/

theorem DottedName.isDotted_join (owner child : String) : isDotted (join owner child) = true := by
  have hdot : ".".toList = ['.'] := rfl
  simp [isDotted, join, String.toList_append, hdot]

namespace Engine

theorem keepTargets_child {target : DefId} {aliasTarget : Option Binding}
    (h : keepTargets ns id keep = .ok (some (target, aliasTarget))) :
    ns.child id keep.target = .ok (some target) := by
  unfold keepTargets at h
  split at h
  · cases h
  · cases h
  · rename_i found hch
    rw [hch]
    split at h
    · cases h
      rfl
    · obtain ⟨_, _, h⟩ := map_eq_ok.mp h
      cases h
      rfl

section

variable (hU : U.Pushable ns)
include hU

theorem keepTable_upheld (he : U.engine e) (hfr : U.Housed e frame)
    (hmakes : U.makes frame.keeps) (hch : e.ns.child frame.definition keep.target = .ok (some x))
    (target : Binding) (aliasTarget : Option Binding) :
    let made := frame.keepTable keep.container e.store
    U.engine (e.withStore made.2.2) ∧ U.growth e (e.withStore made.2.2) ∧
      U.Housed (e.withStore made.2.2) made.2.1 ∧
      (made.2.1.definition = frame.definition ∧ made.2.1.keeps = frame.keeps ∧
        made.2.1.cache = frame.cache) ∧
      made.2.1.KeepsAt (e.withStore made.2.2) keep
        ⟨target, aliasTarget, keep.target, keep.container, made.1⟩ := by
  unfold keepTable
  split
  · exact ⟨he, hU.refl e, hfr, ⟨rfl, rfl, rfl⟩, .cache hch rfl rfl⟩
  · split
    · rename_i table htab
      exact ⟨he, hU.refl e, hfr, ⟨rfl, rfl, rfl⟩, .container htab rfl⟩
    · rename_i name _ _ _
      obtain ⟨he', hgr⟩ := hU.grow he e.newTable_grows
      obtain ⟨_, hnew⟩ := hU.fresh_table he e.newTable_grows (Nat.le_refl _)
        (newTable_private (hU.direct he).toRanged .empty) frame.keeps hmakes
      have hhoused := hfr.growth hU hgr
      refine ⟨he', hgr, ⟨hhoused.cache, hhoused.keeps, fun {other t} hget => ?_⟩,
        ⟨rfl, rfl, rfl⟩, .container (Dictionary.get?_insert_self _ _ _) rfl⟩
      rcases Dictionary.get?_of_insert hget with ⟨_, rfl⟩ | ⟨_, hget⟩
      · exact hnew
      · exact hhoused.container hget

/-- A pointer is entered under several names. -/
theorem keepAll_upheld {keep : Keep} {p : Pointer} (hname : p.target.name = keep.target)
    (hstmt : U.statement frame.definition keep) :
    ∀ (names : List String) {e : Engine}, U.engine e → U.Housed e frame → frame.KeepsAt e keep p →
    U.own e frame.cache frame.keeps → U.engine (e.withStore (e.store.keepAll frame.keeps p names)) ∧
    U.growth e (e.withStore (e.store.keepAll frame.keeps p names)) ∧
    frame.KeepsAt (e.withStore (e.store.keepAll frame.keeps p names)) keep p
  | [], e, he, _, hp, _ => ⟨he, hU.refl e, hp⟩
  | name :: rest, e, he, hfr, hp, hown => by
    obtain ⟨he', hgr⟩ := hU.point frame.keeps name he hfr hown hstmt hp hname (.inl rfl)
    have hp' : frame.KeepsAt (e.withStore (e.store.keep frame.keeps name p)) keep p := by
      cases hp with
      | cache hch htab hkey => exact .cache hch htab hkey
      | container hget hkey => exact .container hget hkey
      | durable hch hd hglob hkey hhome => exact .durable hch hd hglob hkey hhome
    obtain ⟨he'', hgr', hp''⟩ :=
      keepAll_upheld hname hstmt rest he' (hfr.growth hU hgr) hp' (hU.own_growth hgr hown)
    exact ⟨he'', hU.trans hgr hgr', hp''⟩

section

variable (he : U.engine e) (hfr : U.Housed e frame) (hown : U.own e frame.cache frame.keeps)
  (hstmt : U.statement frame.definition keep) (hbel : ∀ k ∈ below, U.keeps e k)
include he hfr hown hstmt hbel

theorem keepTarget_upheld (hch : e.ns.child frame.definition keep.target = .ok (some x))
    (aliasTarget : Option Binding) : U.Houses e (e.keepTarget frame keep below x aliasTarget) := by
  unfold keepTarget
  split
  · rename_i target hfd
    obtain ⟨hget, hglob⟩ := filter_eq_some_iff.mp hfd
    obtain ⟨hgrown, hhome⟩ := durableTable_grows e target
    obtain ⟨he', hgr⟩ := hU.grow he hgrown
    have hhoused := hfr.growth hU hgr
    -- the place of a durable target
    have hp : frame.KeepsAt (e.durableTable target).2 keep
        ⟨.plain x keep.target, aliasTarget, target.fullName, keep.container,
          (e.durableTable target).1⟩ :=
      .durable (hgrown.ns_eq.symm ▸ hch) (hgrown.ns_eq.symm ▸ hget) hglob rfl hhome
    obtain ⟨he'', hgr', _⟩ :=
      keepAll_upheld hU rfl hstmt keep.names he' hhoused hp (hU.own_growth hgr hown)
    obtain ⟨hcount, hcounted⟩ := hU.count .keep he''
    have hall := hU.trans hgr' hcounted
    exact ⟨hcount, hU.trans hgr hall, hhoused.growth hU hall⟩
  · obtain ⟨he', hgr, hhoused, ⟨hdef, hks, hca⟩, hp⟩ :=
      keepTable_upheld hU he hfr (hU.own_makes hown) hch (.plain x keep.target) aliasTarget
    generalize frame.keepTable keep.container e.store = made at he' hgr hhoused hdef hks hca hp
    rw [← hdef] at hstmt
    rw [← hks, ← hca] at hown
    have hown := hU.own_growth hgr hown
    obtain ⟨hnames, hgr', hp'⟩ := keepAll_upheld hU rfl hstmt keep.names he' hhoused hp hown
    have hhoused' := hhoused.growth hU hgr'
    -- the frame that hears of the slot under its qualified name
    have hheard : U.keeps (e.withStore (made.2.2.keepAll made.2.1.keeps
        ⟨.plain x keep.target, aliasTarget, keep.target, keep.container, made.1⟩ keep.names))
        (below.getD made.2.1.keeps) := by
      cases below with
      | none => exact hhoused'.keeps
      | some k => exact hU.keeps_growth (hU.trans hgr hgr') (hbel k rfl)
    have hns : e.ns = ns := (hU.direct he).ns_eq
    obtain ⟨hqual, hgr''⟩ := hU.point (below.getD made.2.1.keeps)
      (DottedName.join (e.ns.fullName made.2.1.definition) keep.target) hnames hhoused'
      (hU.own_growth hgr' hown) hstmt hp' rfl (.inr ⟨hheard, by rw [hns]⟩)
    obtain ⟨hcount, hcounted⟩ := hU.count .keep hqual
    have hall := hU.trans hgr' (hU.trans hgr'' hcounted)
    exact ⟨hcount, hU.trans hgr hall, hhoused.growth hU hall⟩

theorem registerKeep_upheld {frame' : Frame}
    (h : e.registerKeep frame keep below = .ok (some (frame', e'))) : U.Houses e (frame', e') := by
  obtain ⟨target, aliasTarget, hfd, hkept⟩ := registerKeep_ok h
  rw [← hkept]
  exact keepTarget_upheld hU he hfr hown hstmt hbel (keepTargets_child hfd) aliasTarget

end

theorem registerKeeps_upheld {below : Option KeepMapId} :
    ∀ (keeps : List Keep) {e : Engine} {frame : Frame}, U.engine e → U.Housed e frame →
      U.own e frame.cache frame.keeps → (∀ keep ∈ keeps, U.statement frame.definition keep) →
      (∀ k ∈ below, U.keeps e k) → U.Houses e (e.registerKeeps frame below keeps).2
  | [], e, frame, he, hfr, _, _, _ => ⟨he, hU.refl e, hfr⟩
  | keep :: rest, e, frame, he, hfr, hown, hstatements, hbel => by
    obtain ⟨hkeep, hrest⟩ := List.forall_mem_cons.mp hstatements
    unfold registerKeeps
    split
    · exact ⟨he, hU.refl e, hfr⟩
    · rename_i frame' e' h
      obtain ⟨he', hgr, hhoused⟩ := registerKeep_upheld hU he hfr hown hkeep hbel h
      obtain ⟨_, containers, rfl⟩ := registerKeep_effect h
      obtain ⟨he'', hgr', hhoused'⟩ :=
        registerKeeps_upheld rest he' hhoused (hU.own_growth hgr hown) hrest
          fun k hk => hU.keeps_growth hgr (hbel k hk)
      exact ⟨he'', hU.trans hgr hgr', hhoused'⟩
    · exact registerKeeps_upheld rest he hfr hown hrest hbel

end

end Engine

/-! ## 3. Pushing -/

namespace Session

variable {s'' : Session}

/-- The fact holds of the engine and of all frames of the family. -/
structure Upheld (U : Upkeep) (s : Session) : Prop where
  engine : U.engine s.engine
  frames : ∀ id frame, s.frame? id = some frame → U.Housed s.engine frame

theorem Upheld.topFrame (h : s.Upheld U) (hfr : s.topFrame? = some frame) :
    U.Housed s.engine frame := by
  obtain ⟨id, _, hf⟩ := bind_eq_some_iff.mp hfr
  exact h.frames id frame hf

theorem mem_frames_of_top {id : FrameId} (htop : s.stack.top = some id)
    (hf : s.frame? id = some frame) : (id, frame) ∈ s.frames := by
  rw [frames, htop]
  exact Pool.mem_chain_self hf

theorem homeFor_upheld (hU : U.Pushable ns) (hs : U.engine s.engine) (id : DefId)
    (hroot : d.isSite = true → ∀ root, s.rootFrame? = some root →
      ∀ k, U.makes k → U.cache s.engine id k root.cache) (prev : Option Frame) :
    U.engine (s.homeFor id d prev).2 ∧ U.growth s.engine (s.homeFor id d prev).2 ∧
      ∀ k, U.makes k → U.cache (s.homeFor id d prev).2 id k (s.homeFor id d prev).1.cache := by
  have hgrown := s.homeFor_grows id d prev
  obtain ⟨heng, hgr⟩ := hU.grow hs hgrown
  refine ⟨heng, hgr, ?_⟩
  have hca := (s.homeFor_grown id d prev).2
  have hpriv := s.homeFor_private (hU.direct hs).toRanged id d prev
  generalize (s.homeFor id d prev).1.cache = cache at hca hpriv
  cases hca with
  | shared hsite hshared =>
    exact fun k hk => hU.cache_growth hgr (hroot hsite _ hshared k hk)
  | fresh hfresh _ =>
    exact fun k hk => (hU.fresh_table hs hgrown (Nat.le_refl _) (hpriv hfresh).2 k hk).1 id

/-- The frame that is pushed, once it has a cache. -/
theorem frameFor_housed (hU : U.Pushable ns) (hd : ns.get? bound.definition = some d)
    {prev : Option Frame} (newCall : Bool)
    (heng : U.engine (s.homeFor bound.definition d prev).2)
    (hca : ∀ k, U.makes k → U.cache (s.homeFor bound.definition d prev).2 bound.definition k
      (s.homeFor bound.definition d prev).1.cache)
    (hmakes : U.makes (s.frameFor bound d prev newCall).2.1.keeps)
    (hprev : ∀ frame, prev = some frame → U.Housed (s.homeFor bound.definition d prev).2 frame) :
    U.Houses (s.homeFor bound.definition d prev).2 (s.frameFor bound d prev newCall).2 := by
  rw [frameFor_eq] at hmakes ⊢
  cases hinherited : prev.filter (continuesKeeps bound) with
  | some frame =>
    simp only [hinherited] at hmakes
    obtain ⟨hmem, _⟩ := filter_eq_some_iff.mp hinherited
    exact ⟨heng, hU.refl _, hca _ hmakes, (hprev frame hmem).keeps, (hprev frame hmem).container⟩
  | none =>
    simp only [hinherited] at hmakes
    obtain ⟨_, containers, hfr⟩ := registerKeeps_effect (prev.map Frame.keeps) d.keeps _ _
    rw [hfr] at hmakes
    have hgrown := (s.homeFor bound.definition d prev).2.newKeepMap_grows
    obtain ⟨heng', hgr⟩ := hU.grow heng hgrown
    obtain ⟨hks, hown⟩ := hU.fresh_keeps heng hgrown (Nat.le_refl _) (by
      simp [Store.newKeepMap, Engine.withStore])
    have hca := fun k hk => hU.cache_growth hgr (hca k hk)
    refine And.imp_right (And.imp_left (hU.trans hgr)) (registerKeeps_upheld hU
      d.keeps heng' ⟨hca _ hmakes, hks, ?_⟩ (hown hmakes _ _ hca) ?_ ?_)
    · rintro _ _ ⟨⟩
    · exact fun keep hmem => hU.declared hd hmem
    · intro k hk
      obtain ⟨frame, hfr, rfl⟩ := map_eq_some_iff.mp hk
      exact hU.keeps_growth hgr (hprev frame hfr).keeps

/-- **A push keeps the fact**, if a site may have the cache of the root. -/
theorem frameFor_upheld (hU : U.Pushable ns) (hs : U.engine s.engine)
    (htop : ∀ frame, s.topFrame? = some frame → U.Housed s.engine frame)
    (hd : s.ns.get? bound.definition = some d)
    (hroot : d.isSite = true → ∀ root, s.rootFrame? = some root →
      ∀ k, U.makes k → U.cache s.engine bound.definition k root.cache)
    (hmakes : U.makes (s.frameFor bound d s.topFrame? newCall).2.1.keeps) :
    U.Houses s.engine (s.frameFor bound d s.topFrame? newCall).2 := by
  obtain ⟨heng, hgr, hca⟩ := homeFor_upheld hU hs bound.definition hroot s.topFrame?
  have hns : s.ns = ns := (hU.direct hs).ns_eq
  obtain ⟨hfr, hgr', hhoused⟩ := frameFor_housed hU (hns ▸ hd) newCall heng hca hmakes
    fun frame hfr => (htop frame hfr).growth hU hgr
  exact ⟨hfr, hU.trans hgr hgr', hhoused⟩

/-! ## 4. Putting -/

theorem putDurable_upheld (hU : U.Kept ns) (he : U.engine e)
    (hd : e.ns.get? holder.nominal = some d) (key : String) (iter : Option Nat) :
    U.Carries e (putDurable e d key iter (.holder holder)) := by
  unfold putDurable
  split
  · rename_i hglob
    obtain ⟨hgrown, hhome⟩ := durableTable_grows e d
    obtain ⟨he', hgr⟩ := hU.grow he hgrown
    obtain ⟨hput, hgr'⟩ := hU.durable iter he' (hgrown.ns_eq.symm ▸ hd)
      (Bool.and_eq_true_iff.mp hglob).1 hhome
    exact ⟨hput, hU.trans hgr hgr'⟩
  · exact ⟨he, hU.refl e⟩

theorem passOnTo_upheld (hU : U.Kept ns) (he : U.engine e) {written : Location}
    {target : Option (Frame × Pointer)}
    (htgt : ∀ goal ∈ target, ∃ k name, U.keeps e k ∧ U.reads name ∧
      e.store.pointer? k name = some goal.2)
    (h : passOnTo e written (.holder holder) target = .ok e') : U.Carries e e' := by
  rcases passOnTo_cases h with rfl | ⟨frame, p, l, store, rfl, hwrite, rfl⟩
  · exact ⟨he, hU.refl _⟩
  · obtain ⟨k, name, hk, hname, hp⟩ := htgt _ rfl
    rw [(hU.direct he).writeThrough hwrite]
    exact hU.kept frame.iteration holder he hk hname hp

theorem nearestOf_mem {ns : Namespace} {owner : DefId} {found : FrameId × Frame} :
    ∀ {reach : List (FrameId × Frame)}, nearestOf ns owner reach = .ok (some found) → found ∈ reach
  | [], h => by cases h
  | (id, frame) :: rest, h => by
    unfold nearestOf at h
    split at h
    · cases h
    · cases h
      exact List.mem_cons_self
    · exact List.mem_cons_of_mem _ (nearestOf_mem h)

theorem ownerFrame_mem (h : ownerFrame ns d reach = .ok (some found)) : found ∈ reach := by
  unfold ownerFrame at h
  split at h
  · cases h
  · cases h
  · exact nearestOf_mem h

theorem ownerPointer_kept {top : FrameId} {owner : Option (FrameId × Frame)}
    (h : goal ∈ owner.bind (ownerPointer store d top)) :
    ∃ found ∈ owner, store.pointer? found.2.keeps d.name = some goal.2 := by
  obtain ⟨found, hfd, hgoal⟩ := bind_eq_some_iff.mp h
  unfold ownerPointer at hgoal
  split at hgoal
  · cases hgoal
  · obtain ⟨p, hp, rfl⟩ := map_eq_some_iff.mp hgoal
    exact ⟨found, hfd, hp⟩

theorem containerPointer_kept (h : goal ∈ containerPointer store key reach) :
    ∃ found ∈ reach, ∃ container child, DottedName.splitHead? key = some (container, child) ∧
      store.pointer? found.2.keeps child = some goal.2 := by
  simp only [containerPointer, bind, mem_def, bind_eq_some_iff] at h
  obtain ⟨⟨container, child⟩, hsplit, found, hfd, p, hp, h⟩ := h
  split at h
  · cases h
    exact ⟨found, List.mem_of_find?_eq_some hfd, container, child, hsplit, hp⟩
  · cases h

/-- **A put keeps the fact**, if the value may be written to the slot of the top frame. -/
theorem putWithin_upheld (hU : U.Kept ns) (hs : U.engine s.engine) (hkey : U.Readable key)
    (holder : Holder) (hreach : ∀ entry ∈ s.frames, U.keeps s.engine entry.2.keeps)
    (hslot : ∀ frame, s.topFrame? = some frame → frame.keepPointer? s.store key = none →
      U.Carries s.engine (s.engine.withStore
        (s.store.set ⟨frame.cache, frame.slotKey key⟩ (.holder holder)))) (levels : Option Nat) :
    U.Carries s.engine (s.putWithin key holder levels).2.engine := by
  unfold putWithin
  split
  · exact ⟨hs, hU.refl _⟩
  · exact ⟨hs, hU.refl _⟩
  · rename_i top frame d htop hd
    obtain ⟨hid, hf⟩ := top_eq_ok.mp htop
    have hmem : (top, frame) ∈ s.frames := mem_frames_of_top hid hf
    simp only
    split
    · exact ⟨hs, hU.refl _⟩
    · rename_i written store hwritten
      -- the slot in the top frame, or one that it keeps the key in
      have hput : U.Carries s.engine (s.engine.withStore store) := by
        unfold putInFrame at hwritten
        split at hwritten
        · rename_i p hp
          rw [(hU.direct hs).writeThrough hwritten]
          exact hU.kept frame.iteration holder hs (hreach (top, frame) hmem) hkey.self hp
        · rename_i hnone
          simp only at hwritten
          split at hwritten
          · rename_i p hat
            exact absurd hat (hU.direct hs).no_pointer
          · obtain ⟨_, rfl⟩ := Prod.mk.inj (Except.ok.inj hwritten)
            exact hslot frame (topFrame?_eq hid hf) hnone
      obtain ⟨hput, hgr⟩ := hput
      have hd := Namespace.get?_of_find hd
      obtain ⟨hdur, hgr'⟩ := putDurable_upheld hU hput hd key frame.iteration
      have hgr := hU.trans hgr hgr'
      have hns : s.ns = ns := (hU.direct hs).ns_eq
      have hnamed : U.reads d.name := hU.named (hns ▸ hd)
      split
      · exact ⟨hdur, hgr⟩
      · rename_i passed howner
        obtain ⟨owner, hfd, howner⟩ := passOnToOwner_ok howner
        obtain ⟨hpass, hgr'⟩ := passOnTo_upheld hU hdur (fun goal hgoal => by
          obtain ⟨found, hmem, hp⟩ := ownerPointer_kept hgoal
          obtain rfl := hmem
          have hmem := mem_of_mem_within (ownerFrame_mem hfd)
          exact ⟨_, _, hU.keeps_growth hgr (hreach found hmem), hnamed, hp⟩) howner
        have hgr := hU.trans hgr hgr'
        split
        · exact ⟨hpass, hgr⟩
        · rename_i last hlast
          obtain ⟨hlast, hgr'⟩ := passOnTo_upheld hU hpass (fun goal hgoal => by
            obtain ⟨found, hmem, container, child, hsplit, hp⟩ := containerPointer_kept hgoal
            exact ⟨_, _, hU.keeps_growth hgr (hreach found (mem_of_mem_within hmem)),
              hkey.inner container child hsplit, hp⟩) hlast
          exact ⟨hlast, hU.trans hgr hgr'⟩

/-! ## 5. Operations -/

/-- An operation on a session that keeps the fact up. -/
def Upholds (U : Upkeep) (ns : Namespace) (rest : List Stack) (s s' : Session) : Prop :=
  s.Fit ns rest → s.Upheld U → s'.Fit ns rest ∧ s'.Upheld U ∧ U.growth s.engine s'.engine

section

variable (hU : U.Pushable ns)
include hU

theorem Upholds.refl (s : Session) : s.Upholds U ns rest s :=
  fun hs h => ⟨hs, h, hU.refl _⟩

theorem Upholds.trans (h : s.Upholds U ns rest s')
    (h' : s'.Upholds U ns rest s'') : s.Upholds U ns rest s'' := by
  intro hs hheld
  obtain ⟨hs', hheld', hgr⟩ := h hs hheld
  obtain ⟨hs'', hheld'', hgr'⟩ := h' hs' hheld'
  exact ⟨hs'', hheld'', hU.trans hgr hgr'⟩

theorem upholds_of_engine (hstd : s.engine.Steady engine)
    (h : s.Upheld U → U.Carries s.engine engine) : s.Upholds U ns rest (s.withEngine engine) := by
  intro hs hheld
  obtain ⟨heng, hgr⟩ := h hheld
  exact ⟨(Effect.quiet hstd).fit hs,
    ⟨heng, fun id frame hf => (hheld.frames id frame hf).growth hU hgr⟩, hgr⟩

theorem upholds_of_within (heff : Effect s s')
    (h : s.Fit ns rest → Pool.Within tables s'.family.pool s.family.pool)
    (heng : ∃ f, s'.engine = s.engine.count f) : s.Upholds U ns rest s' := by
  intro hs hheld
  obtain ⟨f, heng⟩ := heng
  have hcount := hU.count f hheld.engine
  rw [← heng] at hcount
  refine ⟨heff.fit hs, ⟨hcount.1, fun id frame hf => ?_⟩, hcount.2⟩
  obtain ⟨old, hold, _, htables⟩ := h hs id frame hf
  exact ((hheld.frames id old hold).of_tables_eq htables.symm).growth hU hcount.2

theorem pop_upholds (h : s.pop = .ok s') : s.Upholds U ns rest s' := by
  obtain ⟨id, frame, _, hf, rfl⟩ := pop_ok h
  exact upholds_of_within hU (.pop h)
    (fun hs => popped_within tables_ignoresCounts hs.sound hf) ⟨fun c => c.pop.freed _, rfl⟩

theorem unpush_upholds (h : s.unpush = .ok s') : s.Upholds U ns rest s' := by
  obtain ⟨id, frame, _, hf, rfl⟩ := unpush_ok h
  exact upholds_of_within hU (.unpush h)
    (fun hs => steppedOut_within tables_ignoresCounts hs.sound hf) ⟨fun c => c, rfl⟩

theorem repush_upholds (h : s.repush = .ok s') : s.Upholds U ns rest s' := by
  obtain ⟨id, frame, stash, _, _, _, rfl⟩ := repush_ok h
  exact upholds_of_within hU (.repush h)
    (fun _ => steppedIn_within tables_ignoresCounts s id stash) ⟨(·.freed _), rfl⟩

theorem startIteration_upholds {index : Nat}
    (h : s.startIteration = .ok (index, s')) : s.Upholds U ns rest s' := by
  have heff := (Move.startIteration h).effect
  obtain ⟨id, frame, _, hf, _, rfl⟩ := startIteration_effect h
  exact upholds_of_within hU heff (fun _ => Pool.set_within hf rfl rfl) ⟨fun c => c, rfl⟩

theorem setIteration_upholds (s : Session) (iter : Option Nat) :
    s.Upholds U ns rest (s.setIteration iter) := by
  refine upholds_of_within hU (setIteration_effect s iter) (fun _ => ?_) ⟨fun c => c, ?_⟩
  · rcases setIteration_cases s iter with h | ⟨id, frame, _, hf, h⟩ <;> rw [h]
    · exact .refl _ _
    · exact Pool.set_within hf rfl rfl
  · rcases setIteration_cases s iter with h | ⟨_, _, _, _, h⟩ <;> rw [h] <;> rfl

theorem computation_upholds (s : Session) : s.Upholds U ns rest (s.count .computation) :=
  upholds_of_within hU Move.computation.effect (fun _ => .refl _ _) ⟨_, rfl⟩

end

theorem lookup_grows (s : Session) (r : Request) : s.engine.Grown (s.lookup r).2.engine := by
  have hprep : s.engine.Grown (s.prepare r) := by
    rcases prepare_cases s r with h | ⟨d, h⟩ <;> rw [h]
    · exact .refl _
    · exact (durableTable_grows s.engine d).1
  unfold lookup
  simp only
  split
  · rename_i found _
    exact (hprep.trans (count_grows _ (·.hops _))).trans (count_grows _ (·.lookup found.isSome))
  · exact hprep.trans (count_grows _ (·.hops _))

theorem lookup_upholds (hU : U.Pushable ns) (s : Session) (r : Request) :
    s.Upholds U ns rest (s.lookup r).2 := by
  have hgrown := s.lookup_grows r
  obtain ⟨engine, hstd, heq⟩ := lookup_effect s r
  rw [heq] at hgrown ⊢
  exact upholds_of_engine hU hstd fun hheld => hU.grow hheld.engine hgrown

theorem putValue_upheld (hU : U.Pushable ns) (h : s.putValue key value = .ok s')
    (hslot : s.Upheld U → ∀ frame, s.topFrame? = some frame → U.Carries s.engine
      (s.engine.withStore (s.store.set ⟨frame.cache, frame.slotKey key⟩ (.value value)))) :
    s.Upholds U ns rest s' := by
  obtain ⟨frame, hfr, rfl⟩ := putValue_ok h
  exact upholds_of_engine hU ((Engine.Steady.refl s.engine).withStore _) fun hheld =>
    hslot hheld frame hfr

theorem putWithin_kept (hU : U.Kept ns) (hkey : U.Readable key) (holder : Holder)
    (levels : Option Nat)
    (hslot : s.Upheld U → ∀ frame, s.topFrame? = some frame →
      frame.keepPointer? s.store key = none → U.Carries s.engine (s.engine.withStore
        (s.store.set ⟨frame.cache, frame.slotKey key⟩ (.holder holder)))) :
    s.Upholds U ns rest (s.putWithin key holder levels).2 := by
  obtain ⟨engine, hstd, heq⟩ := putWithin_effect s key holder levels
  rw [heq]
  refine upholds_of_engine hU.toPushable hstd fun hheld => ?_
  have h := putWithin_upheld hU hheld.engine hkey holder
    (fun _ hmem => (hheld.frames _ _ (Pool.get?_of_mem_chain hmem)).keeps) (hslot hheld) levels
  rwa [heq] at h

section

variable (hU : U.Pushable ns)
include hU

theorem addKeep_upheld {added : Bool} (h : s.addKeep keep = .ok (added, s'))
    (hkeep : s.Upheld U → ∀ frame, s.topFrame? = some frame →
      U.own s.engine frame.cache frame.keeps ∧ U.statement frame.definition keep) :
    s.Upholds U ns rest s' := by
  intro hs hheld
  refine ⟨(addKeep_effect h).fit hs, ?_⟩
  obtain ⟨id, frame, htop, hf, rfl | ⟨frame', engine, hreg, rfl⟩⟩ := addKeep_ok h
  · exact ⟨hheld, hU.refl _⟩
  · obtain ⟨hown, hstmt⟩ := hkeep hheld frame (topFrame?_eq htop hf)
    obtain ⟨heng, hgr, hhoused⟩ := registerKeep_upheld hU hheld.engine
      (hheld.frames id frame hf) hown hstmt (fun k hk => by
        obtain ⟨below, hbel, rfl⟩ := map_eq_some_iff.mp hk
        obtain ⟨belowId, _, hbel⟩ := bind_eq_some_iff.mp hbel
        exact (hheld.frames belowId below hbel).keeps) hreg
    refine ⟨⟨heng, fun other found hfd => ?_⟩, hgr⟩
    rcases Pool.get?_of_set hf hfd with ⟨_, rfl⟩ | ⟨_, hfd⟩
    · exact hhoused
    · exact (hheld.frames other found hfd).growth hU hgr

theorem enter_upheld (hs : s.Fit ns rest) (hfresh : s.Fresh frame)
    (heng : U.engine engine) (hfr : U.Housed engine frame)
    (hold : ∀ id frame, s.frame? id = some frame → U.Housed engine frame) :
    (s.enter frame engine).Upheld U ∧ U.growth engine (s.enter frame engine).engine := by
  obtain ⟨hcount, hcounted⟩ := hU.count (·.push (s.stack.size + 1)
    (s.family.pool.alloc frame).1.recycled) heng
  refine ⟨⟨hcount, fun id found hfd => ?_⟩, hcounted⟩
  rcases enter_frame? hs.sound hfresh engine tables_ignoresCounts hfd with
    htables | ⟨old, hlive, htables⟩
  · exact (hfr.of_tables_eq htables).growth hU hcounted
  · exact ((hold id old hlive).of_tables_eq htables).growth hU hcounted

theorem enter_frameFor_upheld (hs : s.Fit ns rest) (hheld : s.Upheld U)
    (hd : s.ns.get? bound.definition = some d)
    (hroot : d.isSite = true → ∀ root, s.rootFrame? = some root →
      ∀ k, U.makes k → U.cache s.engine bound.definition k root.cache)
    (hmakes : U.makes (s.frameFor bound d s.topFrame? newCall).2.1.keeps) :
    let made := (s.frameFor bound d s.topFrame? newCall).2
    (s.enter made.1 made.2).Upheld U ∧ U.growth s.engine (s.enter made.1 made.2).engine := by
  obtain ⟨_, hfresh, _⟩ := frameFor_effect s bound d s.topFrame? newCall
  obtain ⟨heng, hgr, hfr⟩ := frameFor_upheld hU hheld.engine
    (fun _ hfr => hheld.topFrame hfr) hd hroot hmakes
  obtain ⟨hentered, hgr'⟩ := enter_upheld hU hs hfresh heng hfr
    fun id frame hf => (hheld.frames id frame hf).growth hU hgr
  exact ⟨hentered, hU.trans hgr hgr'⟩

theorem push_upheld (hmakes : ∀ k, U.makes k) (hs : s.Fit ns rest) (hheld : s.Upheld U)
    (hroot : ∀ id d root, ns.get? id = some d → d.isSite = true → s.rootFrame? = some root →
      ∀ k, U.cache s.engine id k root.cache)
    (definition : DefId) (args : List Argument) (newCall : Bool) :
    (s.push definition args newCall).2.Upheld U ∧
      U.growth s.engine (s.push definition args newCall).2.engine := by
  rcases push_cases s definition args newCall with h | ⟨bound, d, hprep, h⟩ <;> rw [h]
  · exact ⟨hheld, hU.refl _⟩
  · obtain ⟨_, hd, _⟩ := preparePush_ok hprep
    exact enter_frameFor_upheld hU hs hheld hd (fun hsite root hfd k _ =>
      hroot bound.definition d root (hs.ns_eq ▸ hd) hsite hfd k) (hmakes _)

theorem close_upheld (hheld : s.Upheld U) :
    s.close.Upheld U ∧ U.growth s.engine s.close.engine := by
  obtain ⟨hcount, hcounted⟩ := hU.count (·.freed (s.family.pool.unpinAll
    (s.stack.top.toList ++ s.stack.stash.reverse)).1) hheld.engine
  refine ⟨⟨hcount, fun id frame hf => ?_⟩, hcounted⟩
  obtain ⟨old, hold, _, htables⟩ :=
    Pool.unpinAll_within tables_ignoresCounts _ s.family.pool id frame hf
  exact ((hheld.frames id old hold).of_tables_eq htables.symm).growth hU hcounted

/-- **Moves keep the fact** where pushes, keep statements and what is put do. -/
theorem MoveBy.upheld (h : s.MoveBy terms s')
    (hpush : s.Push s' → terms.push s s' → s.Upholds U ns rest s')
    (hkeep : ∀ {keep}, terms.addKeep s keep → s.Upheld U → ∀ frame, s.topFrame? = some frame →
      U.own s.engine frame.cache frame.keeps ∧ U.statement frame.definition keep)
    (hput : ∀ {key} (holder : Holder) (levels : Option Nat), terms.put s key →
      s.Upholds U ns rest (s.putWithin key holder levels).2)
    (hslot : ∀ {key} (value : Value), terms.putValue s key → s.Upheld U →
      ∀ frame, s.topFrame? = some frame → U.Carries s.engine
        (s.engine.withStore (s.store.set ⟨frame.cache, frame.slotKey key⟩ (.value value)))) :
    s.Upholds U ns rest s' := by
  cases h with
  | fail => exact .refl hU s
  | push h hterms => exact hpush h hterms
  | pop h => exact pop_upholds hU h
  | unpush h => exact unpush_upholds hU h
  | repush h => exact repush_upholds hU h
  | startIteration h => exact startIteration_upholds hU h
  | setIteration iter => exact setIteration_upholds hU s iter
  | addKeep hterms h => exact addKeep_upheld hU h (hkeep hterms)
  | lookup request => exact lookup_upholds hU s request
  | putWithin key holder levels hterms => exact hput holder levels hterms
  | putValue hterms h => exact putValue_upheld hU h (hslot _ hterms)
  | computation => exact computation_upholds hU s

end

end Session

/-! ## 6. Values anywhere -/

/-- Tables may be copied. -/
structure Upkeep.Copied (ns : Namespace) (U : Upkeep) : Prop extends U.Pushable ns where
  copyTable : ∀ {e} (t : TableId), U.engine e →
    U.engine (e.withStore (e.store.copyTable t).2) ∧
      U.growth e (e.withStore (e.store.copyTable t).2) ∧
      ∀ k, U.makes k →
        (∀ d, U.cache (e.withStore (e.store.copyTable t).2) d k e.store.tables.size) ∧
        U.container (e.withStore (e.store.copyTable t).2) k e.store.tables.size
  copyKeeps : ∀ {e} (pointers : KeepMap), U.engine e →
    (∀ name p, pointers.get? name = some p → ∃ k old, e.store.pointer? k name = some old ∧
      (p = old ∨ ∃ t, U.container e e.store.keepMaps.size t ∧ p = { old with table := t })) →
    U.engine (e.withStore (e.store.newKeepMap pointers).2) ∧
      U.growth e (e.withStore (e.store.newKeepMap pointers).2) ∧
      U.keeps (e.withStore (e.store.newKeepMap pointers).2) e.store.keepMaps.size

/-- Values may be written to any cache under any key, and caches may be shared and copied. -/
structure Upkeep.Open (ns : Namespace) (U : Upkeep) : Prop extends U.Kept ns, U.Copied ns where
  cache_any : ∀ {e id k t} (other : DefId) (k' : KeepMapId), U.cache e id k t → U.cache e other k' t := by
    intros; trivial
  reads_any : ∀ name, U.reads name := by intros; trivial
  makes_any : ∀ k, U.makes k := by intros; trivial
  slot : ∀ {e id k t entry} (key : String), U.engine e → U.cache e id k t →
    (∀ p, entry ≠ .pointer p) → U.Carries e (e.withStore (e.store.set ⟨t, key⟩ entry))

/-- All pointers are of some kind, if the keep statements are of some kind. -/
def Upkeep.pointing (ns : Namespace) (kind : Pointer → Prop) (statement : Keep → Prop) : Upkeep where
  engine e := e.Direct ns ∧ ∀ {k name p}, e.store.pointer? k name = some p → kind p
  statement _ := statement

/-- **All pointers are of the kind**, whatever is done to tables, if those that keep statements enter
    are, and their tables do not matter. -/
theorem Upkeep.pointing_open {kind : Pointer → Prop} {statement : Keep → Prop}
    (hdecl : ∀ {id d keep}, ns.get? id = some d → keep ∈ d.keeps → statement keep)
    (hpoint : ∀ {e : Engine} {f : Frame} {keep : Keep} {p : Pointer}, e.ns = ns → statement keep →
      f.KeepsAt e keep p → p.target.name = keep.target → kind p)
    (htab : ∀ {p : Pointer} (t : TableId), kind p → kind { p with table := t }) :
    (pointing ns kind statement).Open ns where
  direct he := he.1
  grow he hg := ⟨⟨he.1.grow hg, fun hp => he.2 (hg.pointer? hp)⟩, trivial⟩
  fresh_table _ _ _ _ _ _ := ⟨fun _ => trivial, trivial⟩
  fresh_keeps _ _ _ _ := ⟨trivial, fun _ _ _ _ => trivial⟩
  declared hd hkeep := hdecl hd hkeep
  point := fun {e f keep p} k name he _ _ hkeep hp hname _ => by
    refine ⟨⟨he.1.keep k name p, fun hfd => ?_⟩, trivial⟩
    rcases Store.pointer?_keep hfd with rfl | hold
    · exact hpoint he.1.ns_eq hkeep hp hname
    · exact he.2 hold
  kept iter holder he _ _ _ := ⟨⟨he.1.set _ (.holder holder) nofun, he.2⟩, trivial⟩
  durable iter he _ _ _ := ⟨⟨he.1.set _ _ nofun, he.2⟩, trivial⟩
  slot key he _ hent := ⟨⟨he.1.set _ _ hent, he.2⟩, trivial⟩
  copyTable t he := ⟨⟨he.1.newTable fun _ _ => he.1.no_pointer, he.2⟩, trivial, fun _ _ =>
    ⟨fun _ => trivial, trivial⟩⟩
  copyKeeps := fun {e} pointers he hptrs => by
    refine ⟨⟨he.1.newKeepMap pointers, fun {k name p} hp => ?_⟩, trivial, trivial⟩
    rcases Store.pointer?_newKeepMap hp with hadded | hold
    · obtain ⟨k, old, hold, rfl | ⟨t, _, rfl⟩⟩ := hptrs name p hadded
      · exact he.2 hold
      · exact htab t (he.2 hold)
    · exact he.2 hold

theorem Store.copyEach_keepMaps (entries : List (String × TableId))
    (copies : Dictionary String TableId) (store : Store) :
    (entries.foldl (fun (copies, s) (name, id) =>
      let (copy, s) := Store.copyTable s id
      (copies.insert name copy, s)) (copies, store)).2.keepMaps = store.keepMaps := by
  induction entries generalizing copies store with
  | nil => rfl
  | cons entry rest ih => exact ih _ _

theorem Store.copyTables_keepMaps (named : Dictionary String TableId) (store : Store) :
    (store.copyTables named).2.keepMaps = store.keepMaps :=
  copyEach_keepMaps named.entries .empty store

namespace Session

section

variable (hU : U.Open ns)
include hU

theorem putWithin_upholds (s : Session) (key : String) (holder : Holder)
    (levels : Option Nat) : s.Upholds U ns rest (s.putWithin key holder levels).2 :=
  putWithin_kept hU.toKept ⟨hU.reads_any key, fun _ child _ => hU.reads_any child⟩ holder levels
    fun hheld _ hfr _ => hU.slot _ hheld.engine (hheld.topFrame hfr).cache nofun

theorem putValue_upholds (h : s.putValue key value = .ok s') : s.Upholds U ns rest s' :=
  putValue_upheld hU.toPushable h fun hheld _ hfr =>
    hU.slot _ hheld.engine (hheld.topFrame hfr).cache nofun

theorem push_upholds (s : Session) (definition : DefId) (args : List Argument) (newCall : Bool) :
    s.Upholds U ns rest (s.push definition args newCall).2 := by
  intro hs hheld
  refine ⟨(push_effect s definition args newCall).fit hs,
    push_upheld hU.toPushable hU.makes_any hs hheld (fun id d root _ _ hroot k => ?_) definition args
      newCall⟩
  obtain ⟨rootId, _, hf⟩ := bind_eq_some_iff.mp hroot
  exact hU.cache_any id k (hheld.frames rootId root hf).cache

theorem pushCall_upholds (s : Session) (call : Call) (newCall : Bool) :
    s.Upholds U ns rest (s.pushCall call newCall).2 := by
  rcases pushCall_cases s call newCall with h | ⟨definition, h⟩ <;> rw [h]
  · exact .refl hU.toPushable s
  · exact push_upholds hU s definition call.arguments newCall

/-- **All moves keep the fact**, where the terms see to what is kept. -/
theorem MoveBy.upholds
    (hkeep : ∀ {keep}, terms.addKeep s keep → ∀ frame : Frame,
      U.own s.engine frame.cache frame.keeps ∧ U.statement frame.definition keep)
    (h : s.MoveBy terms s') : s.Upholds U ns rest s' := by
  refine h.upheld hU.toPushable (fun hpush _ => ?_) (fun hterms _ frame _ => hkeep hterms frame)
    (fun holder levels _ => putWithin_upholds hU s _ holder levels)
    fun _ _ hheld _ hfr => hU.slot _ hheld.engine (hheld.topFrame hfr).cache nofun
  cases hpush with
  | push definition args newCall => exact push_upholds hU s definition args newCall
  | pushCall call newCall => exact pushCall_upholds hU s call newCall

/-- **All that an evaluation does keeps the fact.** -/
theorem upholds_tracks : Tracks (Upholds U ns rest) where
  refl := .refl hU.toPushable
  trans := .trans hU.toPushable
  lookup := lookup_upholds hU.toPushable
  put s target holder := putWithin_upholds hU s target holder _
  push := push_upholds hU
  pop := pop_upholds hU.toPushable
  unpush := unpush_upholds hU.toPushable
  repush := repush_upholds hU.toPushable
  startIteration := startIteration_upholds hU.toPushable
  setIteration := setIteration_upholds hU.toPushable
  putValue := putValue_upholds hU
  count := computation_upholds hU.toPushable

end

/-! ### Branching -/

theorem copyEach_upheld (hU : U.Copied ns) {k : KeepMapId} (hmakes : U.makes k) :
    ∀ (named : List (String × TableId)) {e : Engine}
    {copies : Dictionary String TableId}, U.engine e →
    (∀ name t, copies.get? name = some t → U.container e k t) →
    let made := named.foldl (fun (copies, s) (name, id) =>
      let (copy, s) := Store.copyTable s id
      (copies.insert name copy, s)) (copies, e.store)
    U.engine (e.withStore made.2) ∧ U.growth e (e.withStore made.2) ∧
      ∀ name t, made.1.get? name = some t → U.container (e.withStore made.2) k t
  | [], e, copies, he, hcopies => ⟨he, hU.refl e, hcopies⟩
  | (name, id) :: rest, e, copies, he, hcopies => by
    obtain ⟨he', hgr, hnew⟩ := hU.copyTable id he
    obtain ⟨_, hnew⟩ := hnew k hmakes
    have hcopies' : ∀ other t, (copies.insert name (e.store.copyTable id).1).get? other = some t →
        U.container (e.withStore (e.store.copyTable id).2) k t := by
      intro other t hget
      rcases Dictionary.get?_of_insert hget with ⟨_, rfl⟩ | ⟨_, hget⟩
      · exact hnew
      · exact hU.container_growth hgr (hcopies other t hget)
    obtain ⟨hall, hgr', hcont⟩ := copyEach_upheld hU hmakes rest he' hcopies'
    exact ⟨hall, hU.trans hgr hgr', hcont⟩

theorem copyTables_upheld (hU : U.Copied ns) {k : KeepMapId} (hmakes : U.makes k)
    (he : U.engine (e.withStore store)) (named : Dictionary String TableId) :
    U.engine (e.withStore (store.copyTables named).2) ∧
      U.growth (e.withStore store) (e.withStore (store.copyTables named).2) ∧
      ∀ name t, (store.copyTables named).1.get? name = some t →
        U.container (e.withStore (store.copyTables named).2) k t :=
  copyEach_upheld hU hmakes named.entries (e := e.withStore store) he nofun

theorem rebaseTable_cases (source : Frame) (cache : TableId) (containers : Dictionary String TableId)
    (t : TableId) : source.rebaseTable cache containers t = t ∨
      source.rebaseTable cache containers t = cache ∨
      ∃ name, containers.get? name = some (source.rebaseTable cache containers t) := by
  unfold rebaseTable
  split
  · exact .inr (.inl rfl)
  · split
    · rename_i name _ _
      cases hget : containers.get? name with
      | none => exact .inl rfl
      | some copy => exact .inr (.inr ⟨name, hget⟩)
    · exact .inl rfl

/-- **The copy of a frame names what it may.** -/
theorem copy_upheld (hU : U.Copied ns) (he : U.engine e) {source : Frame}
    (hsource : U.Housed e source) (sharing : Bool)
    (hmakes : sharing = false → U.makes e.store.keepMaps.size) :
    U.Houses e ((source.copy sharing e.store).1, e.withStore (source.copy sharing e.store).2) := by
  unfold Frame.copy
  split
  · exact ⟨he, hU.refl e, hsource.of_tables_eq rfl⟩
  · rename_i hsharing
    have hmakes := hmakes (Bool.eq_false_iff.mpr hsharing)
    obtain ⟨hca, hgr, hnew⟩ := hU.copyTable source.cache he
    obtain ⟨hcopy, hnew⟩ := hnew e.store.keepMaps.size hmakes
    obtain ⟨hcopies, hgr', hcont⟩ := copyTables_upheld hU hmakes hca source.containers
    have hcopy := fun d => hU.cache_growth hgr' (hcopy d)
    have hnew := hU.container_growth hgr' hnew
    have hgr := hU.trans hgr hgr'
    have hmaps := Store.copyTables_keepMaps source.containers (e.store.copyTable source.cache).2
    simp only
    generalize (e.store.copyTable source.cache).2.copyTables source.containers = copied
      at hcopies hcont hcopy hnew hgr hmaps ⊢
    have hmaps : copied.2.keepMaps.size = e.store.keepMaps.size := congrArg Array.size hmaps
    rw [← hmaps] at hcopy hnew hcont
    obtain ⟨hks, hgr'', hmap⟩ := hU.copyKeeps ((copied.2.keepMap source.keeps).map
      fun pointer => { pointer with
        table := source.rebaseTable (e.store.copyTable source.cache).1 copied.1 pointer.table })
      hcopies fun name p hp => by
        rw [Dictionary.get?_map] at hp
        obtain ⟨old, hold, rfl⟩ := map_eq_some_iff.mp hp
        refine ⟨source.keeps, old, hold, ?_⟩
        rcases rebaseTable_cases source (e.store.copyTable source.cache).1 copied.1 old.table with
          heq | heq | ⟨container, hget⟩
        · exact .inl (by rw [heq])
        · exact .inr ⟨_, hnew, by rw [heq]; rfl⟩
        · exact .inr ⟨_, hcont container _ hget, rfl⟩
    exact ⟨hks, hU.trans hgr hgr'', hU.cache_growth hgr'' (hcopy _), hmap,
      fun hget => hU.container_growth hgr'' (hcont _ _ hget)⟩

theorem branch_frame? (hs : s.Sound s.limits rest) (sharing : Bool) {id other : FrameId}
    {found : Frame} (htop : s.stack.top = some id) (hf : s.frame? id = some frame) {α : Type}
    {v : Frame → α} (hv : Pool.IgnoresCounts v) (h : (s.branch sharing).frame? other = some found) :
    v found = v (frame.copy sharing s.store).1 ∨ ∃ old, s.frame? other = some old ∧
    v found = v old := by
  rcases (branch_grown hv hs sharing htop hf).frames other found h with
    ⟨_, hread⟩ | ⟨old, hold, hread⟩
  · exact .inl hread
  · exact .inr ⟨old, hold, hread.symm⟩

theorem branch_upheld (hU : U.Copied ns) (hs : s.Fit ns rest) (hheld : s.Upheld U) (sharing : Bool)
    (hmakes : sharing = false → U.makes s.store.keepMaps.size) :
    (s.branch sharing).Upheld U ∧ U.growth s.engine (s.branch sharing).engine := by
  cases htop : s.stack.top with
  | none =>
    rw [branch_empty sharing htop]
    exact ⟨⟨hheld.engine, hheld.frames⟩, hU.refl _⟩
  | some id =>
    obtain ⟨frame, hf⟩ := hs.top_live _ htop
    obtain ⟨heng, hgr, hfr⟩ := copy_upheld hU hheld.engine (hheld.frames id frame hf) sharing hmakes
    have hcount : U.Carries (s.engine.withStore (frame.copy sharing s.store).2)
        (s.branch sharing).engine := by
      rw [branch_eq sharing htop hf]
      exact hU.count (·.frame _) heng
    have hgrown := hU.trans hgr hcount.2
    refine ⟨⟨hcount.1, fun other found hfd => ?_⟩, hgrown⟩
    rcases branch_frame? hs.sound sharing htop hf tables_ignoresCounts hfd with
      htables | ⟨old, hold, htables⟩
    · exact (hfr.of_tables_eq htables).growth hU.toPushable hcount.2
    · exact ((hheld.frames other old hold).of_tables_eq htables).growth hU.toPushable hgrown

end Session

/-! ## 7. Snapshots -/

/-- Values may be written to durable tables. -/
def Upkeep.Restorable (U : Upkeep) : Prop :=
  ∀ {e t entry} (key : String), U.engine e → e.Durable t → (∀ p, entry ≠ .pointer p) →
    U.Carries e (e.withStore (e.store.set ⟨t, key⟩ entry))

namespace Engine

theorem restore_upheld (hU : U.Pushable ns) (hrestorable : U.Restorable) (he : U.engine e)
    (snap : Snapshot) : U.Carries e (e.restore snap).2 := by
  refine restore_preserves snap (fun {e₁ e₂ name value} _ h hrestore => ?_) ⟨he, hU.refl e⟩
  obtain ⟨he₁, hgr⟩ := h
  rcases restoreValue_ok hrestore with ⟨_, rfl⟩ | ⟨id, d, _, rfl⟩
  · refine (hrestorable name he₁ (.inl rfl) ?_).imp_right (hU.trans hgr)
    exact nofun
  · obtain ⟨hgrown, hhome⟩ := durableTable_grows e₁ d
    obtain ⟨he₁', hgr'⟩ := hU.grow he₁ hgrown
    refine (hrestorable name he₁' (durable_of_home? hhome) ?_).imp_right
      (hU.trans (hU.trans hgr hgr'))
    exact nofun

end Engine

/-! ## 8. Workspaces -/

namespace Workspace

variable {limits : Limits} {w : Workspace} {name : String}

/-- The fact holds of the engine and of the frames of all families. -/
structure Upheld (U : Upkeep) (w : Workspace) : Prop where
  engine : U.engine w.engine
  frames : ∀ {i : Nat} {family : Family}, w.families[i]? = some family →
    ∀ id frame, family.pool.get? id = some frame → U.Housed w.engine frame

theorem Upheld.session (h : w.Upheld U) (hs : w.session? name = some s) :
    s.Upheld U ∧ s.engine = w.engine := by
  obtain ⟨seat, family, _, hfam, rfl⟩ := session?_ok hs
  exact ⟨⟨h.engine, h.frames hfam⟩, rfl⟩

theorem new_upheld (h : U.engine (.new ns limits)) : (Workspace.new ns limits).Upheld U :=
  ⟨h, fun {i family} hfam => by simp [Workspace.new] at hfam⟩

theorem adopt_upheld (hs : s.Upheld U)
    (hold : ∀ {i : Nat} {family : Family}, w.families[i]? = some family →
      ∀ id frame, family.pool.get? id = some frame → U.Housed s.engine frame) :
    (w.adopt s).Upheld U := by
  refine ⟨hs.engine, fun {i family} hfam => ?_⟩
  rcases getElem?_of_set hfam with ⟨_, rfl⟩ | ⟨_, hfam⟩
  · exact hs.frames
  · exact hold hfam

section

variable (h : w.Upheld U) (hU : U.Pushable ns)
include h hU

theorem Upheld.grow (hgrown : U.Carries w.engine engine) : Upheld U { w with engine } :=
  ⟨hgrown.1, fun hfam id frame hf => (h.frames hfam id frame hf).growth hU hgrown.2⟩

theorem Upheld.adopt (hs : s.Upheld U) (hgr : U.growth w.engine s.engine) : (w.adopt s).Upheld U :=
  adopt_upheld hs fun hfam id frame hf => (h.frames hfam id frame hf).growth hU hgr

theorem Upheld.finish (name : String) : (w.finish name).Upheld U := by
  unfold Workspace.finish
  split
  · rename_i s hs
    obtain ⟨hheld, heng⟩ := h.session hs
    obtain ⟨hcl, hgr⟩ := Session.close_upheld hU hheld
    have hadopted := h.adopt hU hcl (heng ▸ hgr)
    exact ⟨hadopted.engine, hadopted.frames⟩
  · exact h

theorem Upheld.start (name : String) : (w.start name).Upheld U := by
  have hfin := h.finish hU name
  refine ⟨hfin.engine, fun {i family} hfam id frame hf => ?_⟩
  rcases families_start hfam with hnone | hold
  · rw [hnone] at hf
    cases hf
  · exact hfin.frames hold id frame hf

theorem Upheld.put (hw : Reachable ns limits w) (hs : w.session? name = some s)
    (hmove : ∀ rest, s.Upholds U ns rest s') :
    (w.put name s').Upheld U := by
  obtain ⟨rest, hfit⟩ := hw.fit hs
  obtain ⟨hheld, heng⟩ := h.session hs
  obtain ⟨_, hheld', hgr⟩ := hmove rest hfit hheld
  have hadopted := h.adopt hU hheld' (heng ▸ hgr)
  exact ⟨hadopted.engine, hadopted.frames⟩

end

theorem Upheld.branch (h : w.Upheld U) (hU : U.Copied ns) (hmakes : ∀ k, U.makes k)
    (hw : Reachable ns limits w) (hs : w.session? name = some s) (sharing : Bool)
    (target : String) : (w.branch s sharing target).Upheld U := by
  obtain ⟨rest, hfit⟩ := hw.fit hs
  obtain ⟨hheld, heng⟩ := h.session hs
  obtain ⟨hbranched, hgr⟩ := Session.branch_upheld hU hfit hheld sharing fun _ => hmakes _
  have hfin := (h.adopt hU.toPushable hbranched (heng ▸ hgr)).finish hU.toPushable target
  exact ⟨hfin.engine, hfin.frames⟩

end Workspace

end KeepTree
