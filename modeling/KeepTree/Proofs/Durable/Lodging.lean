import KeepTree.Proofs.Durable.Upkeep

/-!
# All tables are there

In a reachable workspace whatever names a table or a keep map names one that is there: durable tables,
pointers and frames, of whatever family. So a table that is added is named by nothing:

* `Workspace.Reachable.lodged` -- **it holds of every reachable workspace**.
-/

namespace KeepTree

namespace Engine

variable {e e' : Engine} {ns : Namespace}

/-- Pointers lead to tables that are there. -/
structure Lodged (ns : Namespace) (e : Engine) : Prop extends e.Direct ns where
  pointer_lt : ∀ {k name p}, e.store.pointer? k name = some p → p.table < e.store.tables.size

/-- No table and no keep map goes away. -/
structure Widens (e e' : Engine) : Prop where
  tables_le : e.store.tables.size ≤ e'.store.tables.size
  keepMaps_le : e.store.keepMaps.size ≤ e'.store.keepMaps.size

theorem Lodged.keep (h : e.Lodged ns) {p : Pointer} (hp : p.table < e.store.tables.size)
    (k : KeepMapId) (name : String) : (e.withStore (e.store.keep k name p)).Lodged ns := by
  refine ⟨h.toDirect.keep k name p, fun hfd => ?_⟩
  rcases Store.pointer?_keep hfd with rfl | hold
  · exact hp
  · exact h.pointer_lt hold

theorem Lodged.set (h : e.Lodged ns) (l : Location) (entry : Entry)
    (hent : ∀ p, entry ≠ .pointer p) : (e.withStore (e.store.set l entry)).Lodged ns ∧
      e.Widens (e.withStore (e.store.set l entry)) :=
  have hle := Store.le_size_set e.store l entry
  ⟨⟨h.toDirect.set l entry hent, fun hp => Nat.lt_of_lt_of_le (h.pointer_lt hp) hle⟩, hle,
    Nat.le_refl _⟩

end Engine

/-- Whatever names a table or a keep map names one that is there. -/
def Upkeep.lodging (ns : Namespace) : Upkeep where
  engine := Engine.Lodged ns
  cache e _ _ t := t < e.store.tables.size
  keeps e k := k < e.store.keepMaps.size
  container e _ t := t < e.store.tables.size
  growth := Engine.Widens

/-- **All tables stay there**, whatever is done to tables. -/
theorem Upkeep.lodging_open (ns : Namespace) : (lodging ns).Open ns where
  direct he := he.toDirect
  refl _ := ⟨Nat.le_refl _, Nat.le_refl _⟩
  trans h h' := ⟨Nat.le_trans h.tables_le h'.tables_le, Nat.le_trans h.keepMaps_le h'.keepMaps_le⟩
  cache_growth h ht := Nat.lt_of_lt_of_le ht h.tables_le
  keeps_growth h hk := Nat.lt_of_lt_of_le hk h.keepMaps_le
  container_growth h ht := Nat.lt_of_lt_of_le ht h.tables_le
  grow he hg := ⟨⟨he.toDirect.grow hg, fun hp =>
    Nat.lt_of_lt_of_le (he.pointer_lt (hg.pointer? hp)) hg.size_le⟩, hg.size_le, hg.keepMaps_le⟩
  fresh_table _ _ _ ht _ _ := ⟨fun _ => ht.lt, ht.lt⟩
  fresh_keeps _ _ _ hk := ⟨hk, fun _ _ _ _ => trivial⟩
  point := fun {e f keep p} k name he hfr _ _ hp _ _ => by
    have hlt : p.table < e.store.tables.size := by
      cases hp with
      | cache _ htab _ => exact htab ▸ hfr.cache
      | container hget => exact hfr.container hget
      | durable _ _ _ _ hhome => exact he.toRanged.lt (Engine.durable_of_home? hhome)
    refine ⟨he.keep hlt k name, Nat.le_refl _, ?_⟩
    simp [Store.keep, Engine.withStore]
  kept iter holder he _ _ _ := he.set _ (.holder holder) nofun
  durable iter he _ _ _ := he.set _ _ nofun
  slot key he _ hent := he.set _ _ hent
  copyTable := fun {e} t he => by
    have hsize : (e.store.copyTable t).2.tables.size = e.store.tables.size + 1 := Array.size_push _
    have hle := Nat.le_of_lt (Nat.lt_of_lt_of_eq (Nat.lt_succ_self e.store.tables.size) hsize.symm)
    have hnew : e.store.tables.size < (e.store.copyTable t).2.tables.size :=
      hsize ▸ Nat.lt_succ_self _
    exact ⟨⟨he.toDirect.newTable fun _ _ => he.no_pointer, fun hp =>
      Nat.lt_of_lt_of_le (he.pointer_lt hp) hle⟩, ⟨hle, Nat.le_refl _⟩, fun _ _ =>
        ⟨fun _ => hnew, hnew⟩⟩
  copyKeeps := fun {e} pointers he hptrs => by
    have hnew : e.store.keepMaps.size < (e.store.newKeepMap pointers).2.keepMaps.size := by
      simp [Store.newKeepMap]
    refine ⟨⟨he.toDirect.newKeepMap pointers, fun {k name p} hp => ?_⟩,
      ⟨Nat.le_refl _, Nat.le_of_lt hnew⟩, hnew⟩
    rcases Store.pointer?_newKeepMap hp with hadded | hold
    · obtain ⟨k, old, hold, rfl | ⟨t, ht, rfl⟩⟩ := hptrs name p hadded
      · exact he.pointer_lt hold
      · exact ht
    · exact he.pointer_lt hold

/-! ## Reachable workspaces -/

namespace Workspace

variable {ns : Namespace} {limits : Limits} {w : Workspace}

/-- **In a reachable workspace all tables are there.** -/
theorem Reachable.lodged (h : Reachable ns limits w) : w.Upheld (.lodging ns) := by
  have hU := Upkeep.lodging_open ns
  induction h with
  | new => exact new_upheld ⟨Engine.new_direct ns limits, nofun⟩
  | step hw hstep ih =>
    cases hstep with
    | start name => exact ih.start hU.toPushable name
    | finish name => exact ih.finish hU.toPushable name
    | move hs hmove =>
      exact ih.put hU.toPushable hw hs fun _ =>
        hmove.moveBy.upholds hU fun _ _ => ⟨trivial, trivial⟩
    | branch sharing target hs => exact ih.branch hU.toCopied hU.makes_any hw hs sharing target
    | restore snap =>
      have hrestorable : (Upkeep.lodging ns).Restorable := fun key he _ hent => he.set _ _ hent
      exact ih.grow hU.toPushable
        (Engine.restore_upheld hU.toPushable hrestorable ih.engine snap)
    | siteTable site =>
      exact ih.grow hU.toPushable (hU.grow ih.engine (Engine.siteTable_grows _ site).1)

end Workspace

end KeepTree
