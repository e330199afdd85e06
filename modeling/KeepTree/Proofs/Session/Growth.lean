import KeepTree.Proofs.Session.Restoring

/-!
# Tables that come with a frame

In a namespace without keep statements a push creates tables and writes to none. The new frame has
a new table for a cache, or shares the one of the root if it is that of a site:

* `frameFor_grown` -- **a push adds empty tables**, and its cache is one of them or the shared one.
-/

namespace KeepTree

variable {store store' : Store} {d : Definition} {cache : TableId} {id : DefId}
  {arguments : List Argument} {bound : Bound} {frame : Frame}

namespace Store

variable {store'' : Store}

/-- No frame keeps anything. -/
def Keepless (store : Store) : Prop := ∀ id name, store.pointer? id name = none

/-- Empty tables have been added. -/
structure Grown (store store' : Store) : Prop where
  size_le : store.tables.size ≤ store'.tables.size
  table_eq : ∀ {t}, t < store.tables.size → store'.table t = store.table t
  empty : ∀ {t}, store.tables.size ≤ t → store'.table t = .empty
  keepless : store.Keepless → store'.Keepless

theorem table_of_size_le {t : TableId} (h : store.tables.size ≤ t) : store.table t = .empty := by
  rw [table, Array.getElem?_eq_none h]
  rfl

theorem Grown.refl (store : Store) : store.Grown store :=
  ⟨Nat.le_refl _, fun _ => rfl, table_of_size_le, id⟩

theorem Grown.trans (h : store.Grown store') (h' : store'.Grown store'') : store.Grown store'' where
  size_le := Nat.le_trans h.size_le h'.size_le
  table_eq ht := (h'.table_eq (Nat.lt_of_lt_of_le ht h.size_le)).trans (h.table_eq ht)
  empty := fun {t} ht => by
    by_cases hlt : t < store'.tables.size
    · exact (h'.table_eq hlt).trans (h.empty ht)
    · exact h'.empty (Nat.le_of_not_lt hlt)
  keepless hk := h'.keepless (h.keepless hk)

theorem newTable_grown (store : Store) : store.Grown (store.newTable .empty).2 where
  size_le := by simp [newTable]
  table_eq := fun {t} ht => by
    have hne : t ≠ store.tables.size := Nat.ne_of_lt ht
    simp [newTable, table, Array.getElem?_push, hne]
  empty := fun {t} ht => by
    by_cases e : t = store.tables.size
    · simp [newTable, table, e]
    · have hlt : store.tables.size < t := by omega
      simp [newTable, table, Array.getElem?_push, e, Array.getElem?_eq_none ht]
  keepless hk := hk

theorem newKeepMap_grown (store : Store) : store.Grown (store.newKeepMap .empty).2 where
  size_le := Nat.le_refl _
  table_eq _ := rfl
  empty ht := table_of_size_le ht
  keepless hk := by
    intro id name
    by_cases e : id = store.keepMaps.size
    · simp [pointer?, keepMap, newKeepMap, e]
    · have hold := hk id name
      simpa [pointer?, keepMap, newKeepMap, Array.getElem?_push, e] using hold

end Store

theorem Engine.siteTable_grown (e : Engine) (site : DefId) :
    e.store.Grown (e.siteTable site).2.store := by
  unfold siteTable
  split
  · exact .refl _
  · exact e.store.newTable_grown

namespace Session

variable {s s' : Session} {ns : Namespace} {rest : List Stack}

/-- The cache of a new frame: that of the root for a site, and else a new table. -/
inductive CacheFor (s : Session) (d : Definition) (store : Store) : TableId → Prop
  | shared {root : Frame} : d.isSite = true → s.rootFrame? = some root →
      CacheFor s d store root.cache
  | fresh : (d.isSite = true → s.rootFrame? = none) →
      s.store.tables.size < store.tables.size → CacheFor s d store s.store.tables.size

theorem CacheFor.mono (h : s.CacheFor d store cache) (hgrown : store.Grown store') :
    s.CacheFor d store' cache := by
  cases h with
  | shared hsite hroot => exact .shared hsite hroot
  | fresh hsite hlt => exact .fresh hsite (Nat.lt_of_lt_of_le hlt hgrown.size_le)

theorem CacheFor.of_not_isSite (h : s.CacheFor d store cache) (hsite : d.isSite = false) :
    cache = s.store.tables.size := by
  cases h with
  | shared hshared _ => exact absurd (hsite.symm.trans hshared) Bool.false_ne_true
  | fresh _ _ => rfl

theorem homeFor_grown (s : Session) (id : DefId) (d : Definition) (prev : Option Frame) :
    s.store.Grown (s.homeFor id d prev).2.store ∧
      s.CacheFor d (s.homeFor id d prev).2.store (s.homeFor id d prev).1.cache := by
  have hnew := s.store.newTable_grown
  have hlt : s.store.tables.size < (s.store.newTable .empty).2.tables.size := by
    simp [Store.newTable]
  unfold homeFor
  split
  · rename_i hsite
    cases hroot : s.rootFrame? with
    | some root => exact ⟨Engine.siteTable_grown s.engine id, .shared hsite hroot⟩
    | none =>
      have hfresh : s.CacheFor d (s.store.newTable .empty).2 s.store.tables.size :=
        .fresh (fun _ => hroot) hlt
      have hgrown := Engine.siteTable_grown (s.engine.withStore (s.store.newTable .empty).2) id
      exact ⟨hnew.trans hgrown, hfresh.mono hgrown⟩
  · rename_i hsite
    have hfresh : s.CacheFor d (s.store.newTable .empty).2 s.store.tables.size :=
      .fresh (fun h => absurd h hsite) hlt
    simp only
    split
    · split
      · exact ⟨hnew, hfresh⟩
      · rename_i site _ _
        have hgrown := Engine.siteTable_grown (s.engine.withStore (s.store.newTable .empty).2) site
        exact ⟨hnew.trans hgrown, hfresh.mono hgrown⟩
    · exact ⟨hnew, hfresh⟩

theorem frameFor_cache (s : Session) (bound : Bound) (d : Definition) (prev : Option Frame)
    (newCall : Bool) : (s.frameFor bound d prev newCall).2.1.cache =
      (s.homeFor bound.definition d prev).1.cache := by
  rw [frameFor_eq]
  simp only
  split
  · rfl
  · obtain ⟨_, containers, hfr⟩ := Engine.registerKeeps_effect (prev.map Frame.keeps) d.keeps
      _ _
    rw [hfr]

/-- **A push adds empty tables**, if the definition keeps nothing. -/
theorem frameFor_grown (s : Session) (bound : Bound) (hd : d.keeps = []) (prev : Option Frame)
    (newCall : Bool) :
    s.store.Grown (s.frameFor bound d prev newCall).2.2.store ∧
      s.CacheFor d (s.frameFor bound d prev newCall).2.2.store
        (s.frameFor bound d prev newCall).2.1.cache := by
  obtain ⟨hhome, hca⟩ := s.homeFor_grown bound.definition d prev
  rw [frameFor_eq]
  simp only [hd]
  cases prev.filter (continuesKeeps bound) with
  | some frame => exact ⟨hhome, hca⟩
  | none =>
    have hgrown := Store.newKeepMap_grown (s.homeFor bound.definition d prev).2.store
    exact ⟨hhome.trans hgrown, hca.mono hgrown⟩

/-- What a push leaves, where definitions keep nothing. -/
structure Pushed (s : Session) (id : DefId) (arguments : List Argument)
    (s' : Session) (bound : Bound) (d : Definition) (frame : Frame) : Prop where
  depth : s.stack.size < s.limits.maxDepth
  canonical : s.ns.canonical ⟨id, arguments⟩ s.topDefinition? s.limits.maxPointerHops =
    .ok (some bound)
  get? : s.ns.get? bound.definition = some d
  fresh : s.Fresh frame
  definition_eq : frame.definition = bound.definition
  arguments_eq : frame.arguments = bound.arguments
  parameters_eq : frame.parameters = d.parameters
  grown : s.store.Grown s'.store
  cache : s.CacheFor d s'.store frame.cache
  enter : ∃ engine, s.engine.Steady engine ∧ engine.store = s'.store ∧ s' = s.enter frame engine

/-- **What a push does that goes well**, where definitions keep nothing. -/
theorem push_pushed (hks : ∀ {id d}, s.ns.get? id = some d → d.keeps = []) {newCall : Bool}
    (h : s.push id arguments newCall = (.ok (), s')) :
    ∃ bound d frame, s.Pushed id arguments s' bound d frame := by
  obtain ⟨bound, d, frame, engine, hprep, hframeFor, rfl⟩ := push_ok h
  obtain ⟨hdepth, hd, hcan, _⟩ := preparePush_ok hprep
  have heff := frameFor_effect s bound d s.topFrame? newCall
  have hgrown := s.frameFor_grown bound (hks hd) s.topFrame? newCall
  rw [hframeFor] at heff hgrown
  obtain ⟨hstd, hfresh, hdef, hargs, hpars, _⟩ := heff
  exact ⟨bound, d, frame, hdepth, hcan, hd, hfresh, hdef, hargs, hpars,
    hgrown.1, hgrown.2, engine, hstd, rfl, rfl⟩

theorem push_succeeds (hs : s.Fit ns rest) (hks : ∀ {id d}, s.ns.get? id = some d → d.keeps = [])
    (hdepth : s.stack.size < s.limits.maxDepth)
    (hcan : s.ns.canonical ⟨id, arguments⟩ s.topDefinition? s.limits.maxPointerHops =
      .ok (some bound)) (hd : s.ns.get? bound.definition = some d) (newCall : Bool) :
    ∃ s', s.push id arguments newCall = (.ok (), s') := by
  have hprep := preparePush_eq (fun _ => hs.sound.top_live List.mem_cons_self) hdepth hcan hd
  have hframeFor : (s.frameFor bound d s.topFrame? newCall).1 = .ok () := by
    rw [frameFor_eq]
    simp only [hks hd]
    cases s.topFrame?.filter (continuesKeeps bound) <;> rfl
  refine ⟨(s.pushBound bound d s.topFrame? newCall).2, ?_⟩
  rw [push, hprep]
  exact Prod.ext (congrArg Fault.ofWalk hframeFor) rfl

theorem Pushed.ns_eq (h : s.Pushed id arguments s' bound d frame) : s'.ns = s.ns := by
  obtain ⟨engine, hstd, _, rfl⟩ := h.enter
  exact hstd.ns_eq

theorem Pushed.topFrame? (h : s.Pushed id arguments s' bound d frame) (hs : s.Fit ns rest) :
    s'.topFrame? = some frame := by
  obtain ⟨engine, _, _, rfl⟩ := h.enter
  exact enter_topFrame? hs.sound frame engine

end Session

end KeepTree
