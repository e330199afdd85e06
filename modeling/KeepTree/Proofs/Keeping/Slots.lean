import KeepTree.Proofs.Keeping.Runs
import Mathlib.Data.List.Nodup
import Mathlib.Data.List.Pairwise

/-!
# One slot for all names

A keep statement ties several names to one pointer. Values are read under a name from the frame's own
cache first and through the pointer only then, but they are put through the pointer first. So the
names stay one slot as long as the cache holds nothing under a name that is kept elsewhere:

* `Workspace.names_share_slot` -- **then all names of one keep statement read the same**.
-/

namespace KeepTree

open Store DottedName Upkeep Definition List

variable {e e' : Engine} {ns : Namespace} {c : TableId} {map k : KeepMapId} {bonds : List Bond}
  {p : Pointer} {d : Definition} {s s' : Session} {rest : List Stack} {frame top : Frame}
  {name : String} {bond : Bond} {below : Option KeepMapId} {bound : Bound} {prev : Option Frame}
  {newCall : Bool} {definition : DefId} {arguments : List Argument}

/-! ## 1. Names tied to a pointer -/

/-- A keep statement that was carried out, and the pointer that its names are kept under. -/
structure Bond where
  keep : Keep
  pointer : Pointer

def Bond.names (bond : Bond) : List String := bond.keep.names

/-- In the table `c` itself, a value under this name is not in the slot that the name is kept in. -/
def Bond.Strays (bond : Bond) (c : TableId) (name : String) : Prop :=
  name ∈ bond.names ∧ ¬ (bond.pointer.table = c ∧ bond.pointer.key = name)

namespace Engine

/-- Names are tied to their pointers in a keep map, and in the table `c` nothing is found, and
    nothing will be put by way of a pointer, under a name that would be astray there. -/
structure Tied (ns : Namespace) (c : TableId) (map : KeepMapId) (bonds : List Bond) (e : Engine) :
    Prop extends e.Direct ns where
  isPrivate : e.Private c
  map_lt : map < e.store.keepMaps.size
  tied : ∀ bond ∈ bonds, ∀ name ∈ bond.names, e.store.pointer? map name = some bond.pointer
  aimed : ∀ {k name p}, e.store.pointer? k name = some p → p.table = c →
    ∀ bond ∈ bonds, ¬ bond.Strays c (stem p.key)
  clear : ∀ bond ∈ bonds, ∀ key, bond.Strays c (stem key) → e.store.get? c key = none

theorem Tied.grow (h : e.Tied ns c map bonds) (hg : e.Grown e') : e'.Tied ns c map bonds where
  toDirect := h.toDirect.grow hg
  isPrivate := hg.isPrivate h.isPrivate
  map_lt := Nat.lt_of_lt_of_le h.map_lt hg.keepMaps_le
  tied bond hbond name hname := (hg.pointer?_eq map name).trans (h.tied bond hbond name hname)
  aimed hp := h.aimed (hg.pointer? hp)
  clear bond hbond key hstray := (hg.larger.get?_eq h.isPrivate.lt).trans (h.clear bond hbond key hstray)

theorem Tied.keep (h : e.Tied ns c map bonds) (hname : k ≠ map ∨ ∀ bond ∈ bonds, name ∉ bond.names)
    (hp : p.table = c → ∀ bond ∈ bonds, ¬ bond.Strays c (stem p.key)) :
    (e.withStore (e.store.keep k name p)).Tied ns c map bonds := by
  refine ⟨h.toDirect.keep k name p, (e.keep_extends k name p).isPrivate h.isPrivate, ?_,
    fun bond hbond other hoth => ?_, fun {k' other p'} hfd => ?_, h.clear⟩
  · simp [withStore, Store.keep, h.map_lt]
  · refine (pointer?_keep_of_ne ?_ p).trans (h.tied bond hbond other hoth)
    rcases hname with hne | hnew
    · exact .inl (Ne.symm hne)
    · refine .inr ?_
      rintro rfl
      exact hnew bond hbond hoth
  · rcases pointer?_keep hfd with rfl | hold
    · exact hp
    · exact h.aimed hold

theorem Tied.keepAll {p : Pointer}
    (hp : p.table = c → ∀ bond ∈ bonds, ¬ bond.Strays c (stem p.key)) :
    ∀ (names : List String) {e : Engine}, e.Tied ns c map bonds →
      (∀ name ∈ names, ∀ bond ∈ bonds, name ∉ bond.names) →
      (e.withStore (e.store.keepAll map p names)).Tied ns c map bonds
  | [], _, h, _ => h
  | name :: rest, e, h, hnames => by
    obtain ⟨hname, hrest⟩ := forall_mem_cons.mp hnames
    exact Tied.keepAll hp rest (h.keep (k := map) (.inr hname) hp) hrest

section

variable (h : e.Tied ns c map bonds)
include h

theorem Tied.cons (htied : ∀ name ∈ bond.names, e.store.pointer? map name = some bond.pointer)
    (haimed : ∀ {k name p}, e.store.pointer? k name = some p → p.table = c →
      ¬ bond.Strays c (stem p.key))
    (hclear : ∀ key, bond.Strays c (stem key) → e.store.get? c key = none) :
    e.Tied ns c map (bond :: bonds) where
  toDirect := h.toDirect
  isPrivate := h.isPrivate
  map_lt := h.map_lt
  tied := forall_mem_cons.mpr ⟨htied, h.tied⟩
  aimed hp htab := forall_mem_cons.mpr ⟨haimed hp htab, h.aimed hp htab⟩
  clear := forall_mem_cons.mpr ⟨hclear, h.clear⟩

theorem Tied.set {l : Location} {entry : Entry} (hent : ∀ p, entry ≠ .pointer p)
    (hslot : l.table = c → ∀ bond ∈ bonds, ¬ bond.Strays c (stem l.key)) :
    (e.withStore (e.store.set l entry)).Tied ns c map bonds := by
  refine ⟨h.toDirect.set l entry hent, (e.set_extends l entry).isPrivate h.isPrivate, h.map_lt,
    h.tied, h.aimed, fun bond hbond key hstray => ?_⟩
  refine (get?_write_of_ne e.store ?_ entry).trans (h.clear bond hbond key hstray)
  by_cases htab : l.table = c
  · refine .inr ?_
    rintro rfl
    exact hslot htab bond hbond hstray
  · exact .inl (Ne.symm htab)

theorem Tied.newTable {entries : Table} (hentries : ∀ key p, entries.get? key ≠ some (.pointer p)) :
    (e.withStore (e.store.newTable entries).2).Tied ns c map bonds := by
  refine ⟨h.toDirect.newTable hentries, (e.newTable_extends entries).isPrivate h.isPrivate,
    h.map_lt, h.tied, h.aimed, fun bond hbond key hstray => ?_⟩
  cases hget : (e.store.newTable entries).2.get? c key with
  | none => exact hget
  | some entry =>
    rcases get?_newTable hget with ⟨hc, _⟩ | hold
    · exact absurd h.isPrivate.lt (hc ▸ Nat.lt_irrefl _)
    · exact absurd (hold.symm.trans (h.clear bond hbond key hstray)) (by simp)

theorem Tied.newKeepMap {pointers : KeepMap}
    (hptrs : ∀ name p, pointers.get? name = some p → p.table = c →
      ∀ bond ∈ bonds, ¬ bond.Strays c (stem p.key)) :
    (e.withStore (e.store.newKeepMap pointers).2).Tied ns c map bonds := by
  refine ⟨h.toDirect.newKeepMap pointers, (e.newKeepMap_extends pointers).isPrivate h.isPrivate, ?_,
    fun bond hbond name hname => ?_, fun {k name p} hp => ?_, h.clear⟩
  · exact Nat.lt_of_lt_of_le h.map_lt (by simp [withStore, Store.newKeepMap])
  · exact (pointer?_newKeepMap_of_lt h.map_lt pointers name).trans (h.tied bond hbond name hname)
  · rcases pointer?_newKeepMap hp with hnew | hold
    · exact hptrs name p hnew
    · exact h.aimed hold

end

end Engine

/-! ## 2. What is done to tables -/

/-- Names stay tied. The table `c` is the cache of frames with the one keep map only, and keep
    statements are carried out in other frames. -/
def Upkeep.tying (ns : Namespace) (c : TableId) (map : KeepMapId) (bonds : List Bond) : Upkeep where
  engine := Engine.Tied ns c map bonds
  cache _ _ k t := t = c → k = map
  own _ t k := t ≠ c ∧ k ≠ map
  container _ _ t := t ≠ c
  statement id keep := ∀ bond ∈ bonds, join (ns.fullName id) keep.target ∉ bond.names

namespace Upkeep

section

variable (hdecl : ∀ id d keep, ns.get? id = some d → keep ∈ d.keeps → ∀ bond ∈ bonds, join
  (ns.fullName id) keep.target ∉ bond.names)
include hdecl

/-- **What is done to tables keeps names tied**, if no definition keeps anything that is qualified to
    one of them. -/
theorem tying_kept : (tying ns c map bonds).Kept ns where
  direct he := he.toDirect
  grow he hg := ⟨he.grow hg, trivial⟩
  fresh_table := fun {e e' t} he _ ht _ _ _ => by
    have hne : t ≠ c := Nat.ne_of_gt (Nat.lt_of_lt_of_le he.isPrivate.lt ht)
    exact ⟨fun _ h => absurd h hne, hne⟩
  fresh_keeps := fun {e e' k} he _ hk _ => by
    have hne : k ≠ map := Nat.ne_of_gt (Nat.lt_of_lt_of_le he.map_lt hk)
    -- a table that goes with any keep map is not `c`
    exact ⟨trivial, fun _ _ t hany => ⟨fun ht => hne (hany k trivial ht), hne⟩⟩
  declared hd hmem := hdecl _ _ _ hd hmem
  point := fun {e f keep p} k name he hfr hown hstmt hp _ hname => by
    refine ⟨he.keep ?_ fun htab => ?_, trivial⟩
    · rcases hname with rfl | ⟨_, rfl⟩
      · exact .inl hown.2
      · exact .inr hstmt
    · cases hp with
      | cache _ hca _ => exact absurd (hca.symm.trans htab) hown.1
      | container hget => exact absurd htab (hfr.container hget)
      | durable _ _ _ _ hhome =>
        exact absurd (htab ▸ Engine.durable_of_home? hhome) he.isPrivate.not_durable
  kept := fun {e k name p} iter holder he _ _ hp => by
    refine ⟨he.set nofun fun htab bond hbond => ?_, trivial⟩
    rw [Pointer.location, Pointer.slotKey, stem_inLoop]
    exact he.aimed hp htab bond hbond
  durable iter he _ _ hhome := by
    refine ⟨he.set nofun fun htab => ?_, trivial⟩
    exact absurd (htab ▸ Engine.durable_of_home? hhome) he.isPrivate.not_durable

theorem tying_copied : (tying ns c map bonds).Copied ns where
  toPushable := (tying_kept hdecl).toPushable
  copyTable := fun {e} t he => by
    have hne : e.store.tables.size ≠ c := Nat.ne_of_gt he.isPrivate.lt
    exact ⟨he.newTable fun _ _ => he.no_pointer, trivial, fun _ _ =>
      ⟨fun _ h => absurd h hne, hne⟩⟩
  copyKeeps := fun {e} pointers he hptrs => by
    refine ⟨he.newKeepMap fun name p hp htab => ?_, trivial, trivial⟩
    obtain ⟨k, old, hold, rfl | ⟨t, ht, rfl⟩⟩ := hptrs name p hp
    · exact he.aimed hold htab
    · exact absurd htab ht

end

theorem tying_restorable : (tying ns c map bonds).Restorable := by
  intro e t entry key he hdur hent
  refine ⟨he.set hent fun htab => ?_, trivial⟩
  exact absurd (htab ▸ hdur) he.isPrivate.not_durable

end Upkeep

/-! ## 3. Carrying out keep statements -/

namespace Store

variable {store : Store}

theorem pointer?_keep_self (hk : k < store.keepMaps.size) (name : String) (p : Pointer) :
    (store.keep k name p).pointer? k name = some p := by
  simp [pointer?, keepMap, keep, Array.getElem?_modify, Array.getElem?_eq_getElem hk,
    Dictionary.get?_insert_self]

theorem pointer?_keepAll_of_not_mem {k' : KeepMapId} {other : String} :
    ∀ {names : List String} {store : Store}, other ∉ names →
      (store.keepAll k p names).pointer? k' other = store.pointer? k' other
  | [], _, _ => rfl
  | name :: rest, store, h => by
    have hrest : other ∉ rest := fun hmem => h (mem_cons_of_mem _ hmem)
    have hne : other ≠ name := fun e => h (e ▸ mem_cons_self)
    exact (pointer?_keepAll_of_not_mem hrest).trans (pointer?_keep_of_ne (.inr hne) p)

theorem pointer?_keepAll_of_mem {other : String} : ∀ {names : List String} {store : Store},
    k < store.keepMaps.size → other ∈ names → (store.keepAll k p names).pointer? k other = some p
  | name :: rest, store, hk, h => by
    show ((store.keep k name p).keepAll k p rest).pointer? k other = some p
    by_cases hrest : other ∈ rest
    · exact pointer?_keepAll_of_mem (by simpa [keep] using hk) hrest
    · obtain rfl := (mem_cons.mp h).resolve_right hrest
      exact (pointer?_keepAll_of_not_mem hrest).trans (pointer?_keep_self hk _ p)

end Store

/-- The names that the keep statements of a definition give. -/
def Definition.keptNames (d : Definition) : List String := d.keeps.flatMap Keep.names

/-- The names that a definition keeps are told apart: from each other, from the keys of iterations,
    and from the qualified names of all that is kept by definitions of the namespace. -/
structure Definition.KeepsApart (ns : Namespace) (d : Definition) : Prop where
  distinct : d.keptNames.Nodup
  plain : ∀ name ∈ d.keptNames, isLoopKey name = false
  unqualified : ∀ id other keep, ns.get? id = some other → keep ∈ other.keeps →
    join (ns.fullName id) keep.target ∉ d.keptNames

theorem Keep.target_mem_names (keep : Keep) : keep.target ∈ keep.names := mem_cons_self

namespace Definition

theorem mem_keptNames {keep : Keep} (hkeep : keep ∈ d.keeps) (hname : name ∈ keep.names) :
    name ∈ d.keptNames :=
  mem_flatMap.mpr ⟨keep, hkeep, hname⟩

theorem KeepsApart.eq_of_mem (h : d.KeepsApart ns) {keep keep' : Keep} (hkeep : keep ∈ d.keeps)
    (hkeep' : keep' ∈ d.keeps) (hname : name ∈ keep.names) (hname' : name ∈ keep'.names) :
    keep = keep' := by
  by_contra hne
  obtain ⟨_, hdisj⟩ := nodup_flatMap.mp h.distinct
  have hsymm : Std.Symm (Function.onFun List.Disjoint Keep.names) :=
    ⟨fun _ _ hapart _ hx hy => hapart hy hx⟩
  exact hdisj.forall hkeep hkeep' hne hname hname'

theorem KeepsApart.nodup (h : d.KeepsApart ns) : d.keeps.Nodup := by
  obtain ⟨_, hdisj⟩ := nodup_flatMap.mp h.distinct
  refine hdisj.imp fun {keep keep'} hapart heq => ?_
  exact hapart keep.target_mem_names (heq ▸ keep'.target_mem_names)

theorem KeepsApart.declared (h : d.KeepsApart ns) (hbonds : ∀ bond ∈ bonds, bond.keep ∈ d.keeps) :
    ∀ id other keep, ns.get? id = some other →
      keep ∈ other.keeps → ∀ bond ∈ bonds, join (ns.fullName id) keep.target ∉ bond.names :=
  fun id other keep hoth hkeep bond hbond hmem =>
    h.unqualified id other keep hoth hkeep (mem_keptNames (hbonds bond hbond) hmem)

end Definition

namespace Engine

/-- While the keep statements of a definition are carried out, nothing is in the table `c`, and
    nothing leads there, and none of the names is kept, but by a bond. -/
structure TiedAfresh (ns : Namespace) (d : Definition) (c : TableId) (map : KeepMapId)
    (bonds : List Bond) (e : Engine) : Prop extends e.Tied ns c map bonds where
  mem : ∀ bond ∈ bonds, bond.keep ∈ d.keeps
  empty : ∀ key, e.store.get? c key = none
  inward : ∀ {k name p}, e.store.pointer? k name = some p → p.table = c →
    ∃ bond ∈ bonds, p.key ∈ bond.names
  named : ∀ {name p}, e.store.pointer? map name = some p → name ∈ d.keptNames →
    ∃ bond ∈ bonds, name ∈ bond.names

section

variable (h : e.TiedAfresh ns d c map bonds)
include h

theorem TiedAfresh.grow (hg : e.Grown e') : e'.TiedAfresh ns d c map bonds where
  toTied := h.toTied.grow hg
  mem := h.mem
  empty key := (hg.larger.get?_eq h.isPrivate.lt).trans (h.empty key)
  inward hp := h.inward (hg.pointer? hp)
  named hp := h.named (hg.pointer? hp)

theorem TiedAfresh.bind (hd : d.KeepsApart ns) {keep : Keep}
    (hkeep : keep ∈ d.keeps) (hnew : ∀ bond ∈ bonds, bond.keep ≠ keep)
    (hp : p.table = c → p.key = keep.target) :
    (e.withStore (e.store.keepAll map p keep.names)).TiedAfresh ns d c map (⟨keep, p⟩ :: bonds) := by
  have hoth : ∀ name ∈ keep.names, ∀ bond ∈ bonds, name ∉ bond.names :=
    fun name hname bond hbond hmem =>
      hnew bond hbond (hd.eq_of_mem (h.mem bond hbond) hkeep hmem hname)
  have hplain : stem keep.target = keep.target :=
    stem_eq_self (hd.plain _ (mem_keptNames hkeep keep.target_mem_names))
  have hastray : ∀ bond ∈ bonds, p.table = c → ¬ bond.Strays c (stem p.key) := by
    intro bond hbond htab hstray
    rw [hp htab, hplain] at hstray
    exact hoth _ keep.target_mem_names bond hbond hstray.1
  have hold := h.toTied.keepAll (fun htab bond hbond => hastray bond hbond htab) keep.names hoth
  have hempty : ∀ key, (e.store.keepAll map p keep.names).get? c key = none := fun key =>
    ((keepAll_larger map p keep.names e.store).get?_eq h.isPrivate.lt).trans (h.empty key)
  refine ⟨hold.cons (fun name hname => pointer?_keepAll_of_mem h.map_lt hname) ?_ fun key _ =>
    hempty key, forall_mem_cons.mpr ⟨hkeep, h.mem⟩, hempty, ?_, ?_⟩
  · intro k name q hq htab hstray
    rcases pointer?_keepAll hq with rfl | hq
    · rw [hp htab, hplain] at hstray
      exact hstray.2 ⟨htab, hp htab⟩
    · -- what led there before belongs to another bond, whose names are others
      obtain ⟨bond, hbond, hkey⟩ := h.inward hq htab
      have hmem := mem_keptNames (h.mem bond hbond) hkey
      rw [stem_eq_self (hd.plain _ hmem)] at hstray
      exact hoth _ hstray.1 bond hbond hkey
  · intro k name q hq htab
    rcases pointer?_keepAll hq with rfl | hq
    · exact ⟨_, mem_cons_self, (hp htab) ▸ keep.target_mem_names⟩
    · obtain ⟨bond, hbond, hkey⟩ := h.inward hq htab
      exact ⟨bond, mem_cons_of_mem _ hbond, hkey⟩
  · intro name q hq hmem
    by_cases hname : name ∈ keep.names
    · exact ⟨_, mem_cons_self, hname⟩
    · obtain ⟨bond, hbond, hbound⟩ :=
        h.named ((pointer?_keepAll_of_not_mem hname).symm.trans hq) hmem
      exact ⟨bond, mem_cons_of_mem _ hbond, hbound⟩

theorem TiedAfresh.hear (hbond : bond ∈ bonds) (k : KeepMapId) (hname : name ∉ d.keptNames) :
    (e.withStore (e.store.keep k name bond.pointer)).TiedAfresh ns d c map bonds := by
  have hptr := h.tied bond hbond _ bond.keep.target_mem_names
  refine ⟨h.toTied.keep (.inr fun other hoth hmem => ?_) (h.aimed hptr), h.mem, h.empty, ?_, ?_⟩
  · exact hname (mem_keptNames (h.mem other hoth) hmem)
  · intro k' other q hq
    rcases pointer?_keep hq with rfl | hq
    · exact h.inward hptr
    · exact h.inward hq
  · intro other q hq hmem
    have hne : other ≠ name := by
      rintro rfl
      exact hname hmem
    exact h.named ((pointer?_keep_of_ne (.inr hne) _).symm.trans hq) hmem

theorem TiedAfresh.keepTable (hcont : ∀ name t, frame.containers.get? name = some t → t ≠ c)
    (container : Option String) : let made := frame.keepTable container e.store
    (e.withStore made.2.2).TiedAfresh ns d c map bonds ∧
      (∃ containers, made.2.1 = { frame with containers }) ∧
      (∀ name t, made.2.1.containers.get? name = some t → t ≠ c) := by
  unfold Frame.keepTable
  split
  · exact ⟨h, ⟨_, rfl⟩, hcont⟩
  · split
    · exact ⟨h, ⟨_, rfl⟩, hcont⟩
    · rename_i name _ _
      refine ⟨h.grow e.newTable_grows, ⟨_, rfl⟩, fun other t hget => ?_⟩
      by_cases hne : other = name
      · subst hne
        rw [Dictionary.get?_insert_self] at hget
        exact Option.some.inj hget ▸ Nat.ne_of_gt h.isPrivate.lt
      · rw [Dictionary.get?_insert_of_ne _ hne] at hget
        exact hcont other t hget

variable (hd : d.KeepsApart ns) (hget : ns.get? frame.definition = some d)
  (hks : frame.keeps = map) (hcont : ∀ name t, frame.containers.get? name = some t → t ≠ c)
  {keep : Keep} (hkeep : keep ∈ d.keeps) (hnew : ∀ bond ∈ bonds, bond.keep ≠ keep)
include hd hget hks hcont hkeep hnew

theorem keepTarget_tied (below : Option KeepMapId) (target : DefId) (aliasTarget : Option Binding) :
    (∃ p, (e.keepTarget frame keep below target aliasTarget).2.TiedAfresh ns d c map
        (⟨keep, p⟩ :: bonds)) ∧
      ∀ name t, (e.keepTarget frame keep below target aliasTarget).1.containers.get? name = some t →
        t ≠ c := by
  unfold keepTarget
  split
  · rename_i found hfd
    obtain ⟨hgrown, hhome⟩ := durableTable_grows e found
    have hgrown := h.grow hgrown
    have hne : (e.durableTable found).1 ≠ c := fun heq =>
      hgrown.isPrivate.not_durable (heq ▸ durable_of_home? hhome)
    subst hks
    exact ⟨⟨_, (hgrown.bind hd hkeep hnew fun htab => absurd htab hne).grow (count_grows _ .keep)⟩,
      hcont⟩
  · obtain ⟨hmade, ⟨containers, hfr⟩, hcont⟩ := h.keepTable hcont keep.container
    generalize frame.keepTable keep.container e.store = made at hmade hfr hcont
    obtain ⟨table, made, store⟩ := made
    subst hfr hks
    have hname : join (e.ns.fullName frame.definition) keep.target ∉ d.keptNames :=
      h.ns_eq ▸ hd.unqualified frame.definition d keep hget hkeep
    have hbound := hmade.bind hd hkeep hnew
      (p := ⟨.plain target keep.target, aliasTarget, keep.target, keep.container, table⟩) fun _ => rfl
    exact ⟨⟨_, (hbound.hear mem_cons_self _ hname).grow (count_grows _ .keep)⟩, hcont⟩

theorem registerKeep_tied {frame' : Frame}
    (hreg : e.registerKeep frame keep below = .ok (some (frame', e'))) :
    (∃ p, e'.TiedAfresh ns d c map (⟨keep, p⟩ :: bonds)) ∧
      ∀ name t, frame'.containers.get? name = some t → t ≠ c := by
  unfold registerKeep at hreg
  cases hfd : keepTargets e.ns frame.definition keep with
  | error gap => simp [hfd, Except.map] at hreg
  | ok found =>
    cases found with
    | none => simp [hfd, Except.map] at hreg
    | some target =>
      simp only [hfd, Except.map, Option.map_some, Except.ok.injEq, Option.some.injEq] at hreg
      have htied := keepTarget_tied h hd hget hks hcont hkeep hnew below target.1 target.2
      rwa [hreg] at htied

end

theorem registerKeep_none {keep : Keep} (h : e.registerKeep frame keep below = .ok none) :
    e.ns.child frame.definition keep.target = .ok none := by
  unfold registerKeep keepTargets at h
  split at h
  · cases h
  · rename_i hch
    exact hch
  · split at h
    · cases h
    · rename_i name _
      cases hname : e.ns.child frame.definition name with
      | error gap => simp [hname, Except.map] at h
      | ok other => simp [hname, Except.map] at h

/-- **All keep statements of a definition are carried out**, but for those whose target is no child,
    and their names are tied. -/
theorem registerKeeps_tied (hd : d.KeepsApart ns) (below : Option KeepMapId) : ∀ (todo : List Keep)
    {e : Engine} {frame : Frame} {bonds : List Bond}, e.TiedAfresh ns d c map bonds →
    ns.get? frame.definition = some d → frame.keeps = map →
    (∀ name t, frame.containers.get? name = some t → t ≠ c) → (∀ keep ∈ todo, keep ∈ d.keeps) →
    todo.Nodup → (∀ bond ∈ bonds, bond.keep ∉ todo) →
    (e.registerKeeps frame below todo).1 = .ok () →
    (∃ more, (e.registerKeeps frame below todo).2.2.TiedAfresh ns d c map (more ++ bonds) ∧
        ∀ keep ∈ todo, ∀ x, ns.child frame.definition keep.target = .ok (some x) →
          ∃ bond ∈ more, bond.keep = keep) ∧
      ∀ name t, (e.registerKeeps frame below todo).2.1.containers.get? name = some t → t ≠ c
  | [], e, frame, bonds, h, _, _, hcont, _, _, _, _ => by
    refine ⟨⟨[], h, ?_⟩, hcont⟩
    rintro _ ⟨⟩
  | keep :: rest, e, frame, bonds, h, hget, hks, hcont, hmem, hnd, hnew, hok => by
    obtain ⟨hkeep, hmem⟩ := forall_mem_cons.mp hmem
    obtain ⟨hfst, hnd⟩ := nodup_cons.mp hnd
    have hrest : ∀ bond ∈ bonds, bond.keep ∉ rest := fun bond hbond hin =>
      hnew bond hbond (mem_cons_of_mem _ hin)
    unfold registerKeeps at hok ⊢
    split
    · rename_i gap hreg
      simp [hreg] at hok
    · rename_i frame' e' hreg
      simp only [hreg] at hok
      have hnew : ∀ bond ∈ bonds, bond.keep ≠ keep := fun bond hbond heq =>
        hnew bond hbond (heq ▸ mem_cons_self)
      obtain ⟨⟨p, htied⟩, hcont'⟩ := registerKeep_tied h hd hget hks hcont hkeep hnew hreg
      obtain ⟨hdef, hmap⟩ : frame'.definition = frame.definition ∧ frame'.keeps = frame.keeps := by
        obtain ⟨_, containers, rfl⟩ := registerKeep_effect hreg
        exact ⟨rfl, rfl⟩
      obtain ⟨⟨more, hmore, hall⟩, hcont'⟩ :=
        registerKeeps_tied hd below rest htied (hdef ▸ hget) (hmap.trans hks) hcont'
          hmem hnd (forall_mem_cons.mpr ⟨hfst, hrest⟩) hok
      refine ⟨⟨more ++ [⟨keep, p⟩], by simpa using hmore, forall_mem_cons.mpr ⟨?_, ?_⟩⟩, hcont'⟩
      · exact fun _ _ => ⟨⟨keep, p⟩, by simp, rfl⟩
      · intro other hoth x hch
        obtain ⟨bond, hbond, heq⟩ := hall other hoth x (hdef ▸ hch)
        exact ⟨bond, mem_append_left _ hbond, heq⟩
    · rename_i hreg
      simp only [hreg] at hok
      obtain ⟨⟨more, hmore, hall⟩, hcont'⟩ :=
        registerKeeps_tied hd below rest h hget hks hcont hmem hnd hrest hok
      refine ⟨⟨more, hmore, forall_mem_cons.mpr ⟨fun x hch => ?_, hall⟩⟩, hcont'⟩
      have hnone := registerKeep_none hreg
      rw [h.ns_eq, hch] at hnone
      cases hnone

end Engine

/-! ## 4. Pushing the frame -/

theorem Engine.Lodged.tiedAfresh (he : e.Lodged ns) (hg : e.Grown e') (d : Definition)
    (hc : e.store.tables.size ≤ c) (hpriv : e'.Private c) (hmap : e.store.keepMaps.size ≤ map)
    (hlt : map < e'.store.keepMaps.size) : e'.TiedAfresh ns d c map [] := by
  refine ⟨⟨he.toDirect.grow hg, hpriv, hlt, ?_, ?_, ?_⟩, ?_, fun key => hg.larger.empty hc, ?_, ?_⟩
  · rintro _ ⟨⟩
  · rintro _ _ _ _ _ _ ⟨⟩
  · rintro _ ⟨⟩
  · rintro _ ⟨⟩
  · intro k name p hp htab
    exact absurd (htab ▸ he.pointer_lt (hg.pointer? hp)) (Nat.not_lt_of_le hc)
  · intro name p hp
    rw [hg.pointer?_eq, pointer?_of_size_le hmap] at hp
    cases hp

theorem Upkeep.Housed.untied {f : Frame} (h : (lodging ns).Housed e f)
    (hc : e.store.tables.size ≤ c) (map : KeepMapId) (bonds : List Bond) :
    (tying ns c map bonds).Housed e' f := by
  refine ⟨fun heq => ?_, trivial, fun hget heq => ?_⟩
  · exact absurd (heq ▸ h.cache) (Nat.not_lt_of_le hc)
  · exact absurd (heq ▸ h.container hget) (Nat.not_lt_of_le hc)

namespace Session

theorem frameFor_registers (hown : prev.filter (continuesKeeps bound) = none) (s : Session)
    (d : Definition) (newCall : Bool) : let home := s.homeFor bound.definition d prev
    ∃ start : Frame, start.definition = bound.definition ∧
      start.keeps = home.2.store.keepMaps.size ∧ start.cache = home.1.cache ∧
      start.containers = .empty ∧ (s.frameFor bound d prev newCall).2.1.keeps = start.keeps ∧
      s.frameFor bound d prev newCall =
        Engine.registerKeeps (home.2.withStore (home.2.store.newKeepMap .empty).2) start
          (prev.map Frame.keeps) d.keeps := by
  rw [frameFor_eq]
  simp only [hown]
  refine ⟨_, rfl, rfl, rfl, rfl, ?_, rfl⟩
  obtain ⟨_, containers, hfr⟩ := Engine.registerKeeps_effect (prev.map Frame.keeps) d.keeps _ _
  rw [hfr]

/-- **The frame of a definition comes with its names tied**, unless it goes on with what the frame
    below keeps. -/
theorem frameFor_tied (hheld : s.Upheld (.lodging ns)) (hd : ns.get? bound.definition = some d)
    (hsite : d.isSite = false) (hapart : d.KeepsApart ns)
    (hown : prev.filter (continuesKeeps bound) = none) {engine : Engine}
    (hmade : s.frameFor bound d prev newCall = (.ok (), frame, engine)) :
    s.store.tables.size ≤ frame.cache ∧
      (∃ bonds, engine.TiedAfresh ns d frame.cache frame.keeps bonds ∧
        ∀ keep ∈ d.keeps, ∀ x, ns.child bound.definition keep.target = .ok (some x) →
          ∃ bond ∈ bonds, bond.keep = keep) ∧
      ∀ name t, frame.containers.get? name = some t → t ≠ frame.cache := by
  have hhome := s.homeFor_grows bound.definition d prev
  obtain ⟨hca, hpriv⟩ := s.homeFor_private hheld.engine.toRanged bound.definition d prev
    (fun h => absurd (hsite.symm.trans h) (by decide))
  obtain ⟨start, hdef, hks, hstart, hcont, _, heq⟩ := frameFor_registers hown s d newCall
  rw [hmade] at heq
  generalize s.homeFor bound.definition d prev = home at hhome hca hpriv hks hstart heq
  have hnew := home.2.newKeepMap_grows
  have hafresh := hheld.engine.tiedAfresh (hhome.trans hnew) d (Nat.le_of_eq hca.symm)
    (hnew.isPrivate (hca ▸ hpriv)) hhome.keepMaps_le
    (by simp [newKeepMap, Engine.withStore])
  have htied := Engine.registerKeeps_tied hapart (prev.map Frame.keeps) d.keeps hafresh
    (hdef ▸ hd) hks (by rw [hcont]; rintro _ _ ⟨⟩) (fun _ hmem => hmem) hapart.nodup
    (by simp) (by rw [← heq])
  have heff := Engine.registerKeeps_effect (prev.map Frame.keeps) d.keeps
    (home.2.withStore (home.2.store.newKeepMap .empty).2) start
  rw [← heq] at htied heff
  obtain ⟨⟨bonds, hbonds, hall⟩, houtside⟩ := htied
  obtain ⟨_, containers, rfl⟩ := heff
  rw [append_nil] at hbonds
  rw [hdef] at hall
  rw [← hstart, ← hks] at hbonds
  rw [← hstart] at houtside
  exact ⟨Nat.le_of_eq (hca.symm.trans hstart.symm), ⟨bonds, hbonds, hall⟩, houtside⟩

section

variable (hs : s.Fit ns rest) (hpush : s.push definition arguments newCall = (.ok (), s'))
  (hfr : s'.topFrame? = some frame) (hd : ns.get? frame.definition = some d)
  (hown : ∀ below, s.topFrame? = some below → below.keeps ≠ frame.keeps)
include hs hpush hfr hd hown

theorem push_afresh :
    ∃ bound engine, s' = s.enter frame engine ∧
      s.frameFor bound d s.topFrame? newCall = (.ok (), frame, engine) ∧ s.Fresh frame ∧
      frame.definition = bound.definition ∧ s.topFrame?.filter (continuesKeeps bound) = none := by
  obtain ⟨bound, found, made, engine, hprep, hmade, rfl⟩ := push_ok hpush
  obtain ⟨_, hfd, _⟩ := preparePush_ok hprep
  obtain ⟨_, hfresh, hdef, _⟩ := frameFor_effect s bound found s.topFrame? newCall
  rw [hmade] at hfresh hdef
  obtain rfl : made = frame :=
    Option.some.inj ((enter_topFrame? hs.sound made engine).symm.trans hfr)
  obtain rfl : found = d := by
    rw [hdef, ← hs.ns_eq] at hd
    exact Option.some.inj (hfd.symm.trans hd)
  refine ⟨bound, engine, rfl, hmade, hfresh, hdef, ?_⟩
  cases hinherited : s.topFrame?.filter (continuesKeeps bound) with
  | none => rfl
  | some below =>
    have hks : (s.frameFor bound found s.topFrame? newCall).2.1.keeps = below.keeps := by
      rw [frameFor_eq]
      simp only [hinherited]
    rw [hmade] at hks
    exact absurd hks.symm (hown below (Option.filter_eq_some_iff.mp hinherited).1)

/-- **A push ties the names that a definition keeps.** -/
theorem push_tied (hheld : s.Upheld (.lodging ns)) (hsite : d.isSite = false)
    (hapart : d.KeepsApart ns) :
    s.store.tables.size ≤ frame.cache ∧ ∃ bonds : List Bond,
      s'.Upheld (.tying ns frame.cache frame.keeps bonds) ∧ (∀ bond ∈ bonds, bond.keep ∈ d.keeps) ∧
        ∀ keep ∈ d.keeps, ∀ x, ns.child frame.definition keep.target = .ok (some x) →
          ∃ bond ∈ bonds, bond.keep = keep := by
  obtain ⟨bound, engine, rfl, hmade, hfresh, hdef, hnone⟩ := push_afresh hs hpush hfr hd hown
  rw [hdef] at hd
  obtain ⟨hsize, ⟨bonds, htied, hall⟩, houtside⟩ := frameFor_tied hheld hd hsite hapart hnone hmade
  refine ⟨hsize, bonds, ?_, htied.mem, hdef ▸ hall⟩
  have hU : (tying ns frame.cache frame.keeps bonds).Kept ns := tying_kept (hapart.declared htied.mem)
  have hhoused : (tying ns frame.cache frame.keeps bonds).Housed engine frame :=
    ⟨fun _ => rfl, trivial, fun hget => houtside _ _ hget⟩
  exact (enter_upheld hU.toPushable hs hfresh htied.toTied hhoused fun id f hf =>
    (hheld.frames id f hf).untied hsize _ _).1

end

end Session

/-! ## 5. Runs -/

/-- The terms under which the names that a frame keeps for its definition stay one slot each. No other
    frame comes to have its cache, no name is kept in its keep map, and in its cache nothing is bound
    under one of the names. Values are put and bound there under names, not under keys of
    iterations. -/
def Frame.slotTerms (ns : Namespace) (d : Definition) (f : Frame) : Terms where
  push s s' := s.stack.size < s'.stack.size → ∀ top, s'.topFrame? = some top → top.cache ≠ f.cache
  addKeep s keep := ∀ top, s.topFrame? = some top → top.keeps ≠ f.keeps ∧
    join (ns.fullName top.definition) keep.target ∉ d.keptNames
  put s key := ∀ top, s.topFrame? = some top → top.cache = f.cache → isLoopKey key = false
  putValue s key := ∀ top, s.topFrame? = some top → top.cache = f.cache →
    isLoopKey key = false ∧ key ∉ d.keptNames

namespace Session

theorem homeFor_shared (hsite : d.isSite = true) {root : Frame} (hroot : s.rootFrame? = some root)
    (id : DefId) (prev : Option Frame) : (s.homeFor id d prev).1.cache = root.cache := by
  unfold homeFor
  rw [if_pos hsite, hroot]

theorem push_keeps_tied (hU : (tying ns frame.cache frame.keeps bonds).Pushable ns)
    (hpush : s.Push s') (hterm : (frame.slotTerms ns d).push s s') :
    s.Upholds (.tying ns frame.cache frame.keeps bonds) ns rest s' := by
  intro hs hheld
  refine ⟨hpush.move.effect.fit hs, ?_⟩
  rcases hpush.made with rfl | ⟨bound, found, newCall, hd, rfl⟩
  · exact ⟨hheld, hU.refl _⟩
  · refine enter_frameFor_upheld hU hs hheld hd (fun hsite root hroot k _ heq => ?_) trivial
    have hca := hterm (Nat.lt_succ_self _) _ (enter_topFrame? hs.sound _ _)
    rw [frameFor_cache, homeFor_shared hsite hroot] at hca
    exact absurd heq hca

theorem putWithin_keeps_tied (hU : (tying ns frame.cache frame.keeps bonds).Kept ns)
    {key : String} (hterm : (frame.slotTerms ns d).put s key) (holder : Holder)
    (levels : Option Nat) :
    s.Upholds (.tying ns frame.cache frame.keeps bonds) ns rest (s.putWithin key holder levels).2 := by
  refine putWithin_kept hU ⟨trivial, fun _ _ _ => trivial⟩ holder levels fun hheld top htop hnone =>
    ⟨hheld.engine.set (by simp) fun htab bond hbond hstray => ?_, trivial⟩
  have hks := (hheld.topFrame htop).cache htab
  rw [Frame.slotKey, stem_inLoop, stem_eq_self (hterm top htop htab)] at hstray
  -- a name that is kept is not put into the cache directly
  rw [Frame.keepPointer?, hks] at hnone
  cases hnone.symm.trans (hheld.engine.tied bond hbond key hstray.1)

/-- **Every move that observes the terms keeps names tied.** -/
theorem MoveBy.keeps_tied (hapart : d.KeepsApart ns) (hbonds : ∀ bond ∈ bonds, bond.keep ∈ d.keeps)
    (h : s.MoveBy (frame.slotTerms ns d) s') :
    s.Upholds (.tying ns frame.cache frame.keeps bonds) ns rest s' := by
  have hU : (tying ns frame.cache frame.keeps bonds).Kept ns := tying_kept (hapart.declared hbonds)
  refine h.upheld hU.toPushable (push_keeps_tied hU.toPushable) (fun hterm hheld top htop => ?_)
    (fun holder levels hterm => putWithin_keeps_tied hU hterm holder levels)
    fun value hterm hheld top htop => ⟨hheld.engine.set nofun ?_, trivial⟩
  · obtain ⟨hks, hqual⟩ := hterm top htop
    refine ⟨⟨fun hca => hks ((hheld.topFrame htop).cache hca), hks⟩, ?_⟩
    exact fun bond hbond hmem => hqual (mem_keptNames (hbonds bond hbond) hmem)
  · intro htab bond hbond hstray
    obtain ⟨hplain, hoth⟩ := hterm top htop htab
    rw [Frame.slotKey, stem_inLoop, stem_eq_self hplain] at hstray
    exact hoth (mem_keptNames (hbonds bond hbond) hstray.1)

/-! ## 6. Reading a slot -/

/-- **A name is read where it is kept.** -/
theorem lookup_tied (hs : s.Fit ns rest) (hhops : 0 < s.limits.maxPointerHops)
    (hheld : s.Upheld (.tying ns frame.cache frame.keeps bonds)) (htop : s.topFrame? = some top)
    (hca : top.cache = frame.cache) (hbond : bond ∈ bonds) (hname : name ∈ bond.names)
    (hplain : isLoopKey name = false) :
    (s.lookup (.here name)).1 = .ok ((s.store.at? (bond.pointer.location top.iteration)).bind
      (yields s.ns top.definition (.here name))) := by
  have hks : top.keeps = frame.keeps := (hheld.topFrame htop).cache hca
  have hptr : top.keepPointer? s.store name = some bond.pointer := by
    rw [Frame.keepPointer?, hks]
    exact hheld.engine.tied bond hbond name hname
  rw [lookup_local hs hheld.engine.toDirect hhops htop rfl rfl]
  have hstem : stem (top.slotKey name) = name := by
    rw [Frame.slotKey, stem_inLoop, stem_eq_self hplain]
  have hread : (top.cached? s.store name).or ((top.keepPointer? s.store name).bind fun p =>
      s.store.at? (p.location top.iteration)) = s.store.at? (bond.pointer.location top.iteration) := by
    rw [hptr]
    by_cases hhome : bond.pointer.table = frame.cache ∧ bond.pointer.key = name
    · -- the slot is that of the name itself, in the cache
      have hslot : top.cached? s.store name = s.store.at? (bond.pointer.location top.iteration) := by
        rw [Frame.cached?, Pointer.location, Pointer.slotKey, hhome.1, hhome.2, hca]
        rfl
      rw [hslot]
      exact Option.or_self
    · -- the slot is elsewhere, and the cache has nothing under the name
      have hnone : top.cached? s.store name = none := by
        rw [Frame.cached?, hca]
        exact hheld.engine.clear bond hbond _ ⟨hstem.symm ▸ hname, hstem.symm ▸ hhome⟩
      rw [hnone]
      rfl
  exact congrArg (fun found => Except.ok (found.bind (yields s.ns top.definition (.here name)))) hread

end Session

namespace Workspace

variable {ns : Namespace} {limits : Limits} {w w' : Workspace} {name other : String}
  {s pushed t : Session} {d : Definition} {frame top : Frame}

theorem Reachable.push_ok (hw : w.Reachable ns limits) (hs : w.session? name = some s)
    (hpush : s.push definition arguments newCall = (.ok (), pushed)) :
    (w.put name pushed).Reachable ns limits := by
  have hmoved := hw.step (.move hs (.push definition arguments newCall))
  rwa [hpush] at hmoved

/-- The push of a frame ties the names that its definition keeps, for all stacks. -/
theorem push_ties (hw : w.Reachable ns limits) (hs : w.session? name = some s)
    (hpush : s.push definition arguments newCall = (.ok (), pushed))
    (hfr : pushed.topFrame? = some frame) (hd : ns.get? frame.definition = some d)
    (hsite : d.isSite = false) (hapart : d.KeepsApart ns)
    (hown : ∀ below, s.topFrame? = some below → below.keeps ≠ frame.keeps) :
    ∃ bonds : List Bond, (w.put name pushed).Upheld (.tying ns frame.cache frame.keeps bonds) ∧
      (∀ bond ∈ bonds, bond.keep ∈ d.keeps) ∧
      ∀ keep ∈ d.keeps, ∀ x, ns.child frame.definition keep.target = .ok (some x) →
        ∃ bond ∈ bonds, bond.keep = keep := by
  obtain ⟨rest, hfit⟩ := hw.fit hs
  obtain ⟨hheld, heng⟩ := hw.lodged.session hs
  obtain ⟨hsize, bonds, htied, hmem, hall⟩ :=
    Session.push_tied hfit hpush hfr hd hown hheld hsite hapart
  have hadopted := adopt_upheld (w := w) htied fun hfam id f hf =>
    (hw.lodged.frames hfam id f hf).untied (by rw [← heng]; exact hsize) _ _
  exact ⟨bonds, ⟨hadopted.engine, hadopted.frames⟩, hmem, hall⟩

/-- **All names of one keep statement are one slot.** Let a frame be pushed for a definition whose
    names are told apart, and let the push carry out the keep statements. However a run under the
    frame's terms goes on: whenever the frame is on top, or a copy that shares its cache, local lookups
    of all names of a keep statement have one result. -/
theorem names_share_slot (hw : w.Reachable ns limits) (hhops : 0 < limits.maxPointerHops)
    (hs : w.session? name = some s) {definition : DefId} {arguments : List Argument}
    {newCall : Bool} (hpush : s.push definition arguments newCall = (.ok (), pushed))
    (hframe : pushed.topFrame? = some frame) (hd : ns.get? frame.definition = some d)
    (hsite : d.isSite = false) (hapart : d.KeepsApart ns)
    (hown : ∀ below, s.topFrame? = some below → below.keeps ≠ frame.keeps)
    (hrun : (w.put name pushed).Run (frame.slotTerms ns d) w') (ht : w'.session? other = some t)
    (htop : t.topFrame? = some top) (hcache : top.cache = frame.cache) {keep : Keep}
    (hkeep : keep ∈ d.keeps) {x : DefId}
    (hchild : ns.child frame.definition keep.target = .ok (some x)) {name₁ name₂ : String}
    (h₁ : name₁ ∈ keep.names) (h₂ : name₂ ∈ keep.names) :
    (t.lookup (.here name₁)).1 = (t.lookup (.here name₂)).1 := by
  obtain ⟨bonds, htied, hmem, hall⟩ := push_ties hw hs hpush hframe hd hsite hapart hown
  obtain ⟨bond, hbond, rfl⟩ := hall keep hkeep x hchild
  have hpushed := hw.push_ok hs hpush
  have hw' := hrun.reachable hpushed
  have hheld := hrun.upheld (Upkeep.tying_copied (hapart.declared hmem)) (fun _ => trivial)
    Upkeep.tying_restorable (fun rest hmove => hmove.keeps_tied hapart hmem) hpushed htied
  obtain ⟨rest, hfit⟩ := hw'.fit ht
  obtain ⟨hsession, hengine⟩ := hheld.session ht
  have hlimits := hw'.limits_eq ht
  -- both are read where the bond's pointer leads
  have hread : ∀ name ∈ bond.keep.names, (t.lookup (.here name)).1 =
      .ok ((t.store.at? (bond.pointer.location top.iteration)).bind
        (Session.yields t.ns top.definition (.here name))) := fun name hname =>
    Session.lookup_tied hfit (hlimits ▸ hhops) hsession htop hcache hbond hname
      (hapart.plain name (Definition.mem_keptNames hkeep hname))
  rw [hread name₁ h₁, hread name₂ h₂]
  exact congrArg (fun read => Except.ok (Option.bind _ read))
    (funext fun entry => by cases entry <;> rfl)

/-- The page of a gazette, which keeps its title under three names. -/
def gazettePage : Definition :=
  { name := "page", fullName := "page", children := Dictionary.empty.insert "title" 1
    keeps := [{ target := "title", aliasName := some "headline", container := some "meta" }] }

def gazette : Namespace where
  definitions := #[gazettePage, { name := "title", fullName := "page.title", owner := some 0 }]
  roots := Dictionary.empty.insert "page" 0

theorem gazettePage_keepsApart : gazettePage.KeepsApart gazette where
  distinct := by decide +kernel
  plain := by decide +kernel
  unqualified := by
    intro id other keep hoth hkeep
    have hid : ∀ n : Nat, n < 2 → n = 0 ∨ n = 1 := by omega
    obtain rfl | rfl := hid id (Array.getElem?_eq_some_iff.mp hoth).1
    · cases hoth
      obtain rfl := mem_singleton.mp hkeep
      decide +kernel
    · cases hoth
      cases hkeep

/-- A stack with the page for its only frame. -/
def frontPage : Session := (Session.push ⟨.new gazette {}, .new 0 {}, {}⟩ 0 [] true).2

def newsroom : Workspace := ((Workspace.new gazette {}).start "main").put "main" frontPage

/-- The title is put under the alias, in an iteration. -/
def printed : Session :=
  ((frontPage.setIteration (some 0)).putWithin "headline" (.of 1 [] (some (.text "News"))) none).2

theorem names_share_slot_printed :
    (printed.lookup (.here "title")).1 = (printed.lookup (.here "meta.title")).1 ∧
      (printed.lookup (.here "title")).1.toOption = some (some (.text "News")) := by
  have hstarted : Reachable gazette {} ((Workspace.new gazette {}).start "main") :=
    Reachable.new.step (.start "main")
  have hs : ((Workspace.new gazette {}).start "main").session? "main" =
      some ⟨.new gazette {}, .new 0 {}, {}⟩ := rfl
  have hpush : Session.push ⟨.new gazette {}, .new 0 {}, {}⟩ 0 [] true = (.ok (), frontPage) :=
    Prod.ext (by decide +kernel) rfl
  have hfront : frontPage.topFrame?.map (·.definition) = some 0 := by decide +kernel
  obtain ⟨frame, hframe, hdefinition⟩ := Option.map_eq_some_iff.mp hfront
  have hfront : newsroom.session? "main" = some frontPage := session?_put (by decide)
  have hturned : (newsroom.put "main" (frontPage.setIteration (some 0))).session? "main" =
      some (frontPage.setIteration (some 0)) := session?_put (by decide)
  have hrun : newsroom.Run (frame.slotTerms gazette gazettePage)
      ((newsroom.put "main" (frontPage.setIteration (some 0))).put "main" printed) := by
    refine .step (.step .refl (.move hfront (.setIteration (some 0)))) (.move hturned ?_)
    exact .putWithin "headline" _ none fun _ _ _ => by decide
  have hprinted : ((newsroom.put "main" (frontPage.setIteration (some 0))).put "main"
      printed).session? "main" = some printed := session?_put (by decide)
  have hshared : printed.topFrame?.map (·.cache) = frontPage.topFrame?.map (·.cache) := by
    decide +kernel
  rw [hframe] at hshared
  obtain ⟨top, htop, hcache⟩ := Option.map_eq_some_iff.mp hshared
  have hget : gazette.get? frame.definition = some gazettePage := hdefinition.symm ▸ rfl
  have hchild : gazette.child frame.definition "title" = .ok (some 1) := by
    rw [hdefinition]
    decide +kernel
  exact ⟨names_share_slot hstarted (by decide) hs hpush hframe hget rfl gazettePage_keepsApart
    (by rintro _ ⟨⟩) hrun hprinted htop hcache List.mem_cons_self hchild (by decide) (by decide),
    by decide +kernel⟩

/-- **A key of an iteration takes the slot of a name.** If a value is bound under such a key, outside
    of loops, the iteration finds it under the one name only. -/
theorem slot_taken_by_key : "headline#0" ∉ gazettePage.keptNames ∧
    ((frontPage.putValue "headline#0" (.text "stray")).toOption.bind fun bound =>
      bound.startIteration.toOption.map fun started =>
        ((started.2.lookup (.here "title")).1.toOption,
          (started.2.lookup (.here "headline")).1.toOption)) =
      some (some none, some (some (.text "stray"))) := by
  decide +kernel

end Workspace

end KeepTree
