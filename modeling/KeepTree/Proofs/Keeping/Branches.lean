import KeepTree.Proofs.Keeping.Sparing
import KeepTree.Proofs.Workspace.Piles

/-!
# Branches are apart

A branch that does not share has a copy of the top frame for its own, and all other frames in common
with its source. So it can put values where the frames below put them, and where its source keeps a name
in a table of theirs (`branch_reaches_below`), but it does not get at the tables of the source's top
frame:

* `Workspace.branch_isolated` -- **a branch does not disturb its source**.
-/

namespace KeepTree

open Store KeepTree.Frame Dictionary List

variable {store : Store} {ns : Namespace} {rest rest' : List Stack} {C : Claims} {id : FrameId}
  {top : Frame} {d : Definition} {mine mine' : FrameId → Prop} {t : TableId}
  {made copied : Dictionary String TableId × Store} {entry : FrameId × Frame}
  {seats : Dictionary String Seat}

/-! ## 1. Copies -/

namespace Store

/-- Tables were copied: those there were hold what they did, and the names stand for new ones, which
    hold the same. -/
structure Copies (store : Store) (done : List (String × TableId))
    (made : Dictionary String TableId × Store) : Prop where
  size_le : store.tables.size ≤ made.2.tables.size
  get?_eq : ∀ {t}, t < store.tables.size → ∀ key, made.2.get? t key = store.get? t key
  new : ∀ {name t}, made.1.get? name = some t →
    store.tables.size ≤ t ∧ t < made.2.tables.size ∧ ∃ id, (name, id) ∈ done ∧
      (id < store.tables.size → ∀ key, made.2.get? t key = store.get? id key)
  named : ∀ entry ∈ done, ∃ t, made.1.get? entry.1 = some t

theorem get?_copyTable (ht : t < store.tables.size) (id : TableId) (key : String) :
    (store.copyTable id).2.get? t key = store.get? t key := by
  unfold copyTable newTable get? table
  rw [Array.getElem?_push, if_neg (Nat.ne_of_lt ht)]

theorem get?_copyTable_self (store : Store) (id : TableId) (key : String) :
    (store.copyTable id).2.get? (store.copyTable id).1 key = store.get? id key := by
  simp [copyTable, newTable, get?, table]

theorem Copies.insert {done : List (String × TableId)} (h : store.Copies done made) (name : String)
    (id : TableId) :
    store.Copies (done ++ [(name, id)])
      (made.1.insert name (made.2.copyTable id).1, (made.2.copyTable id).2) := by
  have hsize : (made.2.copyTable id).2.tables.size = made.2.tables.size + 1 := Array.size_push _
  refine ⟨hsize ▸ Nat.le_succ_of_le h.size_le, fun ht key => ?_, fun {other t} hget => ?_,
    fun entry hmem => ?_⟩
  · exact (get?_copyTable (Nat.lt_of_lt_of_le ht h.size_le) id key).trans (h.get?_eq ht key)
  · by_cases hne : other = name
    · subst hne
      rw [get?_insert_self] at hget
      cases hget
      refine ⟨h.size_le, hsize ▸ Nat.lt_succ_self _, id, by simp, fun hid key => ?_⟩
      rw [get?_copyTable_self, h.get?_eq hid]
    · rw [get?_insert_of_ne _ hne] at hget
      obtain ⟨hle, hlt, source, hmem, hholds⟩ := h.new hget
      refine ⟨hle, hsize ▸ Nat.lt_succ_of_lt hlt, source, mem_append_left _ hmem, fun hid key => ?_⟩
      rw [get?_copyTable hlt, hholds hid]
  · by_cases hne : entry.1 = name
    · rw [hne]
      exact ⟨_, get?_insert_self _ _ _⟩
    · rw [get?_insert_of_ne _ hne]
      refine h.named entry ((mem_append.mp hmem).resolve_right ?_)
      rintro (_ | ⟨_, ⟨⟩⟩)
      exact hne rfl

theorem copyEach_copies : ∀ (named : List (String × TableId)) {done : List (String × TableId)}
    {made : Dictionary String TableId × Store}, store.Copies done made →
    store.Copies (done ++ named) (named.foldl (fun (copies, s) (name, id) =>
      let (copy, s) := copyTable s id
      (copies.insert name copy, s)) made)
  | [], _, _, h => by simpa using h
  | (name, id) :: rest, done, made, h => by
    have hrest := copyEach_copies rest (h.insert name id)
    rwa [append_assoc] at hrest

/-- **A copied table is new, and holds what the table holds.** -/
theorem copyTables_copies (store : Store) (named : Dictionary String TableId) :
    store.Copies named.entries (store.copyTables named) := by
  have hnone : store.Copies [] (.empty, store) := ⟨Nat.le_refl _, fun _ _ => rfl, nofun, nofun⟩
  exact copyEach_copies named.entries hnone

end Store

namespace Frame

variable {source : Frame}

/-- A copy that has nothing of its source to write to: its tables and its keep map are new, and so is
    where it keeps a name that the source keeps in a table of its own. -/
structure Apart (source : Frame) (store : Store) (made : Frame × Store) : Prop where
  tables_le : store.tables.size ≤ made.2.tables.size
  get?_eq : ∀ {t}, t < store.tables.size → ∀ key, made.2.get? t key = store.get? t key
  keepMaps_le : store.keepMaps.size ≤ made.2.keepMaps.size
  pointer?_eq : ∀ {k}, k < store.keepMaps.size → ∀ name, made.2.pointer? k name = store.pointer? k name
  keeps_le : store.keepMaps.size ≤ made.1.keeps
  owns : ∀ {t}, made.1.Owns t → store.tables.size ≤ t
  kept : ∀ {name p}, made.1.keepPointer? made.2 name = some p → store.tables.size ≤ p.table ∨
    source.keepPointer? store name = some p ∧ ¬ source.Owns p.table

theorem rebaseTable_of_not_owns (ht : ¬ source.Owns t) (cache : TableId)
    (containers : Dictionary String TableId) : source.rebaseTable cache containers t = t := by
  unfold rebaseTable
  rw [if_neg fun hca => ht (.inl hca)]
  split
  · rename_i name id hfd
    have hid := find?_some hfd
    obtain rfl : id = t := beq_iff_eq.mp hid
    exact absurd (.inr ⟨name, get?_of_mem (mem_of_find?_eq_some hfd)⟩) ht
  · rfl

theorem rebaseTable_owned {bound : Nat}
    (hcopied : ∀ {name t}, copied.1.get? name = some t → bound ≤ t)
    (hnamed : ∀ entry ∈ source.containers.entries, ∃ t, copied.1.get? entry.1 = some t)
    {cache : TableId} (hca : bound ≤ cache) (ht : source.Owns t) :
    bound ≤ source.rebaseTable cache copied.1 t := by
  unfold rebaseTable
  split
  · exact hca
  · rename_i hne
    have hmem := mem_values_iff.mpr (ht.resolve_left hne)
    obtain ⟨entry, hent, rfl⟩ := mem_map.mp hmem
    split
    · rename_i other id hfd
      obtain ⟨new, hnew⟩ := hnamed _ (mem_of_find?_eq_some hfd)
      rw [hnew]
      exact hcopied hnew
    · rename_i hnone
      exact absurd (beq_self_eq_true entry.2) (find?_eq_none.mp hnone entry hent)

theorem copy_apart (source : Frame) (store : Store) : source.Apart store (source.copy false store) := by
  have hcopies := (store.copyTable source.cache).2.copyTables_copies source.containers
  have hmaps := copyTables_keepMaps source.containers (store.copyTable source.cache).2
  have hsize : store.tables.size ≤ (store.copyTable source.cache).2.tables.size := by
    simp [copyTable, newTable]
  unfold copy
  simp only [Bool.false_eq_true, if_false]
  generalize (store.copyTable source.cache).2.copyTables source.containers = copied
    at hcopies hmaps ⊢
  have hmaps : copied.2.keepMaps = store.keepMaps := hmaps
  have hptr : ∀ k name, copied.2.pointer? k name = store.pointer? k name := fun k name => by
    rw [pointer?, keepMap, hmaps]
    rfl
  have hcont : ∀ {name t}, copied.1.get? name = some t → store.tables.size ≤ t := fun hget =>
    Nat.le_trans hsize (hcopies.new hget).1
  refine ⟨Nat.le_trans hsize hcopies.size_le, fun ht key => ?_, ?_, fun hk name => ?_, ?_,
    fun ht => ?_, fun {name p} hp => ?_⟩
  · exact (hcopies.get?_eq (Nat.lt_of_lt_of_le ht hsize) key).trans
      (get?_copyTable ht source.cache key)
  · simp [newKeepMap, hmaps]
  · exact (pointer?_newKeepMap_of_lt (hmaps ▸ hk) _ name).trans (hptr _ name)
  · exact Nat.le_of_eq (congrArg Array.size hmaps.symm)
  · rcases ht with rfl | ⟨name, hget⟩
    · exact Nat.le_refl _
    · exact hcont hget
  · rcases pointer?_newKeepMap hp with hadded | hold
    · rw [get?_map] at hadded
      obtain ⟨old, hold, rfl⟩ := Option.map_eq_some_iff.mp hadded
      have hold : source.keepPointer? store name = some old := (hptr _ name).symm.trans hold
      by_cases howns : source.Owns old.table
      · exact .inl (rebaseTable_owned hcont hcopies.named (Nat.le_refl _) howns)
      · rw [rebaseTable_of_not_owns howns]
        exact .inr ⟨hold, howns⟩
    · cases hold.symm.trans (pointer?_of_size_le (Nat.le_refl _) name)

end Frame

theorem Pool.Chain.previous_mem {pool : Pool} {top : Option FrameId} {l : List (FrameId × Frame)}
    (h : pool.Chain top l) (hmem : entry ∈ l) {below : FrameId}
    (hbel : entry.2.previous = some below) : ∃ lower, (below, lower) ∈ l := by
  induction h with
  | bottom => cases hmem
  | @link id frame rest hf hrest ih =>
    rcases mem_cons.mp hmem with rfl | hmem
    · generalize frame.previous = prev at hrest hbel
      subst hbel
      cases hrest with
      | @link _ lower _ _ _ => exact ⟨lower, mem_cons_of_mem _ mem_cons_self⟩
    · obtain ⟨lower, hlow⟩ := ih hmem
      exact ⟨lower, mem_cons_of_mem _ hlow⟩

/-! ## 2. What a branch does not get at -/

namespace Session

variable {c : Session}

/-- The table is not durable, and it is one of the top frame's own or no frame of the stack puts values
    into it. -/
def Reserved (c : Session) (top : Frame) (t : TableId) : Prop :=
  c.engine.Private t ∧ (top.Owns t ∨ ∀ entry ∈ c.frames, ¬ entry.2.Writes c.store t)

/-- What a branch is to spare. -/
def reserving (ns : Namespace) (c : Session) (top : Frame) : Upkeep :=
  .sparing ns (c.Reserved top) top.keeps c.engine

section

variable (htop : c.stack.top = some id) (hf : c.frame? id = some top)
include htop hf

theorem branch_engine (sharing : Bool) : ∃ f, (c.branch sharing).engine =
    (c.engine.withStore (top.copy sharing c.store).2).count f := by
  refine ⟨(·.frame (c.family.pool.alloc
    { (top.copy sharing c.store).1 with pins := 1 }).1.recycled), ?_⟩
  rw [branch_eq sharing htop hf]

theorem branch_store (sharing : Bool) : (c.branch sharing).store = (top.copy sharing c.store).2 := by
  obtain ⟨f, heng⟩ := branch_engine htop hf sharing
  rw [store, heng]
  rfl

theorem branch_stack (sharing : Bool) : ∃ new, (c.branch sharing).stack =
      { top := some new
        root := if c.stack.root = some id then some new else c.stack.root
        size := c.stack.size
        stash := [] } := by
  rw [branch_eq sharing htop hf]
  exact ⟨_, rfl⟩

end

/-- The frame is below the top frame. -/
def Below (c : Session) (top : Frame) (id : FrameId) : Prop :=
  ∃ f, (id, f) ∈ c.family.pool.chain top.previous

theorem Claimed.spares (h : c.Claimed ns C) (hf : c.frame? id = some top) :
    (c.reserving ns top).engine c.engine where
  toDirect := h.upheld.engine.toDirect
  isPrivate ht := ht.1
  get?_eq _ _ := rfl
  map_lt := (h.upheld.frames id top hf).keeps
  pointer?_eq _ := rfl

section

variable (htop : c.stack.top = some id) (hf : c.frame? id = some top)
include htop hf

theorem Claimed.branch_spares (h : c.Claimed ns C) :
    (c.reserving ns top).engine (c.branch false).engine := by
  have hapart := top.copy_apart c.store
  have hlt : top.keeps < c.store.keepMaps.size := (h.upheld.frames id top hf).keeps
  obtain ⟨hlodged, _, _⟩ := copy_upheld (Upkeep.lodging_open ns).toCopied h.lodged.engine
    (h.lodged.frames id top hf) false fun _ => trivial
  have hspares : (c.reserving ns top).engine (c.engine.withStore (top.copy false c.store).2) := {
    toDirect := hlodged.toDirect
    isPrivate := fun ht => (Engine.withStore_extends hapart.tables_le).isPrivate ht.1
    get?_eq := fun ht key => hapart.get?_eq ht.1.lt key
    map_lt := Nat.lt_of_lt_of_le hlt hapart.keepMaps_le
    pointer?_eq := fun name => hapart.pointer?_eq hlt name }
  obtain ⟨f, heng⟩ := branch_engine htop hf false
  rw [heng]
  exact Engine.SparesAll.grow hspares (Engine.count_grows _ f)

theorem copy_reserving (hlt : top.keeps < c.store.keepMaps.size) :
    (c.reserving ns top).Housed (c.branch false).engine (top.copy false c.store).1 := by
  have hapart := top.copy_apart c.store
  have hnew : ∀ {t}, c.store.tables.size ≤ t → ¬ c.Reserved top t := fun hle ht =>
    Nat.not_le_of_lt ht.1.lt hle
  refine ⟨hnew (hapart.owns (.inl rfl)), ⟨fun heq => ?_, fun name p hname hp ht => ?_⟩,
    fun {name _} hget => hnew (hapart.owns (.inr ⟨name, hget⟩))⟩
  · exact Nat.not_le_of_lt hlt (heq ▸ hapart.keeps_le)
  · have hp : (top.copy false c.store).1.keepPointer? (top.copy false c.store).2 name = some p := by
      rw [← branch_store htop hf false]
      exact hp
    rcases hapart.kept hp with hle | ⟨hkept, hoth⟩
    · exact hnew hle ht
    · have hmem : (id, top) ∈ c.frames := mem_frames_of_top htop hf
      exact ht.2.resolve_left hoth _ hmem (.inr ⟨name, p, hname, hkept, rfl⟩)

theorem Claimed.below_reserving (h : c.Claimed ns C) (hs : c.Fit ns rest)
    (hd : ns.get? top.definition = some d) (hsite : d.isSite = false)
    (hown : c.keepsBelow top ≠ some top.keeps) (hmem : entry ∈ c.family.pool.chain top.previous) :
    (c.reserving ns top).Housed (c.branch false).engine entry.2 := by
  obtain ⟨hks, howns⟩ := h.below hs hf hd hsite hown entry hmem
  have hfrs : entry ∈ c.frames := frames_cons hs.sound htop hf ▸ mem_cons_of_mem _ hmem
  have hnot : ∀ {t}, entry.2.Writes c.store t → ¬ c.Reserved top t := fun hwrites ht =>
    ht.2.elim (fun htop => howns _ htop hwrites) fun hall => hall entry hfrs hwrites
  have hlt : entry.2.keeps < c.store.keepMaps.size :=
    (h.upheld.frames entry.1 entry.2 (Pool.get?_of_mem_chain hmem)).keeps
  refine ⟨hnot (.inl (.inl rfl)), ⟨hks, fun name p hname hp => hnot (.inr ⟨name, p, hname, ?_, rfl⟩)⟩,
    fun {name _} hget => hnot (.inl (.inr ⟨name, hget⟩))⟩
  have hsto : (c.branch false).engine.store = (top.copy false c.store).2 := branch_store htop hf false
  rw [hsto] at hp
  exact ((top.copy_apart c.store).pointer?_eq hlt name).symm.trans hp

theorem RootAtBottom.below (h : c.RootAtBottom) (hs : c.Fit ns rest) {root : FrameId}
    (hroot : c.stack.root = some root) : root = id ∨ c.Below top root := by
  obtain ⟨entry, hlast, rfl⟩ := Option.map_eq_some_iff.mp (h root hroot)
  have hmem := mem_of_getLast? hlast
  rw [frames_cons hs.sound htop hf] at hmem
  rcases mem_cons.mp hmem with rfl | hmem
  · exact .inl rfl
  · exact .inr ⟨entry.2, hmem⟩

/-- **A branch gets at its copy and at the frames below**, and these give no access to what is
    reserved for the source. -/
theorem Claimed.branch_confined (h : c.Claimed ns C) (hs : c.Fit ns rest) (hrooted : c.RootAtBottom)
    (hd : ns.get? top.definition = some d) (hsite : d.isSite = false)
    (hown : c.keepsBelow top ≠ some top.keeps) :
    ∃ mine, c.Leaves (c.Below top) mine (c.branch false) ∧
      (c.branch false).Confined (c.reserving ns top) mine := by
  have hb := hs.sound.accounted.toBalanced
  have hgrown := branch_grown bare_plain.ignoresCounts hs.sound false htop hf
  have hcopy : (c.reserving ns top).Housed _ _ :=
    copy_reserving htop hf (h.upheld.frames id top hf).keeps
  obtain ⟨hprev, _⟩ := copy_like top false c.store
  obtain ⟨new, hstack⟩ := branch_stack htop hf false
  have hnew : (c.branch false).stack.top = some new := congrArg Stack.top hstack
  -- a frame that is not new was one of the source's family
  have hfrs : ∀ {other f}, (c.branch false).frame? other = some f →
      f.bare = (top.copy false c.store).1.bare ∨
        ∃ old, c.frame? other = some old ∧ f.bare = old.bare ∧ other ≠ new := by
    intro other f hfd
    rcases hgrown.frames other f hfd with ⟨_, hbare⟩ | ⟨old, hold, hbare⟩
    · exact .inl hbare
    · refine .inr ⟨old, hold, hbare.symm, ?_⟩
      rintro rfl
      cases (hgrown.fresh other hnew).symm.trans hold
  refine ⟨fun other => c.Below top other ∨ other = new, ⟨fun hmine => hmine.imp_right ?_, ?_⟩,
    h.branch_spares htop hf, ?_, ?_, ?_⟩
  · rintro rfl
    exact hgrown.fresh _ hnew
  · intro other f hfd hnot
    rcases hgrown.frames other f hfd with ⟨htop, _⟩ | ⟨old, hold, hbare⟩
    · exact absurd (.inr (Option.some.inj (htop.symm.trans hnew))) hnot
    · exact ⟨old, hold, hbare.symm⟩
  · intro other f hmine hfd
    rcases hfrs hfd with hbare | ⟨old, hold, hbare, hne⟩
    · exact hcopy.of_tables_eq (tables_eq_of_bare hbare)
    · obtain ⟨f', hmem⟩ := hmine.resolve_right hne
      cases (Pool.get?_of_mem_chain hmem).symm.trans hold
      exact (h.below_reserving htop hf hs hd hsite hown hmem).of_tables_eq
        (tables_eq_of_bare hbare)
  · intro other f lower hmine hfd hlow
    left
    rcases hfrs hfd with hbare | ⟨old, hold, hbare, hne⟩
    · rw [bare_plain.previous_eq hbare] at hlow
      obtain ⟨below, hbel, _⟩ := hs.sound.accounted.below_live hf hlow
      exact ⟨below, hlow ▸ Pool.mem_chain_self hbel⟩
    · obtain ⟨f', hmem⟩ := hmine.resolve_right hne
      cases (Pool.get?_of_mem_chain hmem).symm.trans hold
      rw [bare_plain.previous_eq hbare] at hlow
      refine (hb.chain fun below hbel => ?_).previous_mem hmem hlow
      obtain ⟨lower, hlow, _⟩ := hs.sound.accounted.below_live hf hbel
      exact ⟨lower, hlow⟩
  · rw [hstack]
    rintro other (hheld | hheld | hheld)
    · exact .inr (Option.some.inj hheld).symm
    · cases hheld
    · have hheld : (if c.stack.root = some id then some new else c.stack.root) = some other := hheld
      split at hheld
      · exact .inr (Option.some.inj hheld).symm
      · rename_i hne
        exact .inl ((hrooted.below htop hf hs hheld).resolve_left fun heq => hne (heq ▸ hheld))

end

/-! ## 3. The source meanwhile -/

/-- The stack is the one it was, with all that is reserved for its top frame. -/
structure Rests (ns : Namespace) (c : Session) (id : FrameId) (top : Frame) (c' : Session) : Prop where
  stack_eq : c'.stack = c.stack
  engine : (c.reserving ns top).engine c'.engine
  top : ∃ top', c'.frame? id = some top' ∧ top'.bare = top.bare
  view_eq : c'.view face = c.view face

variable {c' b b' : Session} {r : Request}

/-- **What another stack of the family does leaves it so**, if the other does not get at its top
    frame. -/
theorem Rests.leave (h : c.Rests ns id top c') (htop : c.stack.top = some id)
    (hfam : b.family = c'.family) (hleaves : b.Leaves mine mine' b') (hnot : ¬ mine id)
    (heng : (c.reserving ns top).engine b'.engine)
    (hakin : Pool.Akin face b.family.pool b'.family.pool)
    (hs' : Fit ns rest' { b' with stack := c.stack }) :
    c.Rests ns id top { b' with stack := c.stack } ∧ ¬ mine' id := by
  obtain ⟨top', hf, hbare⟩ := h.top
  have hf : b.frame? id = some top' := by
    rw [frame?, hfam]
    exact hf
  have hnot' : ¬ mine' id := fun hmine => by
    rcases hleaves.fresh hmine with hmine | hnone
    · exact hnot hmine
    · cases hnone.symm.trans hf
  have hlive : ∀ other ∈ c.stack.top, ∃ f, b.family.pool.get? other = some f := by
    rw [htop]
    rintro _ ⟨⟩
    exact ⟨top', hf⟩
  have hlive' : ∀ other ∈ c.stack.top, ∃ f, b'.family.pool.get? other = some f := hs'.sound.live
  obtain ⟨new, hnew⟩ := hlive' id htop
  obtain ⟨old, hold, hread⟩ := hleaves.frames hnew hnot'
  cases hold.symm.trans hf
  refine ⟨⟨rfl, heng, ⟨new, hnew, hread.trans hbare⟩, ?_⟩, hnot'⟩
  have hview : c'.view face = b.family.pool.view face c.stack.top := by
    rw [view, h.stack_eq, hfam]
  exact (hakin c.stack.top hlive hlive').trans (hview.symm.trans h.view_eq)

theorem resolve_congr (hdir : c.engine.Direct ns) (hdir' : c'.engine.Direct ns)
    (hlim : c'.limits = c.limits) (origin : DefId) (r : Request) {p : Pointer} {iter : Option Nat}
    (hat : c'.store.at? (p.location iter) = c.store.at? (p.location iter)) :
    (c'.resolve origin r (.pointer p) iter).1 = (c.resolve origin r (.pointer p) iter).1 := by
  have hns : c'.ns = c.ns := hdir'.ns_eq.trans hdir.ns_eq.symm
  rcases Nat.eq_zero_or_pos c.limits.maxPointerHops with hzero | hpos
  · simp only [resolve, hlim, hzero, follow, chase]
  · rw [resolve_pointer hdir hpos, resolve_pointer hdir' (hlim ▸ hpos), hat, hns]

/-- **Local lookups find what they found**, if the top frame keeps the key in what is reserved. -/
theorem Rests.lookup_eq (h : c.Rests ns id top c') (hs : c.Fit ns rest) (hs' : c'.Fit ns rest')
    (hdir : c.engine.Direct ns) (hlim : c'.limits = c.limits) (htop : c.stack.top = some id)
    (hf : c.frame? id = some top) (hlocal : r.topOnly = true) (hglob : r.globalKey = none)
    (hca : c.Reserved top top.cache)
    (hkept : ∀ p, top.keepPointer? c.store r.key = some p → c.Reserved top p.table) :
    (c'.lookup r).1 = (c.lookup r).1 := by
  obtain ⟨top', hf', hbare⟩ := h.top
  have hfr := topFrame?_eq htop hf
  have hfr' := topFrame?_eq (h.stack_eq ▸ htop) hf'
  have hdef : top'.definition = top.definition := by
    exact (congrArg definition hbare :)
  have hiter : top'.iteration = top.iteration := by
    exact (congrArg iteration hbare :)
  have hcached : top'.cached? c'.store r.key = top.cached? c.store r.key := by
    have heq := congrArg (fun f : Frame => f.cached? c'.store r.key) hbare
    exact Eq.trans heq (Engine.SparesAll.get?_eq h.engine hca (top.slotKey r.key))
  have hptr : top'.keepPointer? c'.store r.key = top.keepPointer? c.store r.key := by
    have heq := congrArg (fun f : Frame => f.keepPointer? c'.store r.key) hbare
    exact Eq.trans heq (Engine.SparesAll.pointer?_eq h.engine r.key)
  have hdir' : c'.engine.Direct ns := h.engine.toDirect
  rw [lookup_result, lookup_result, find_local hs hfr hlocal hglob,
    find_local hs' hfr' hlocal hglob, entryIn, entryIn, hcached, hptr, hdef,
    hiter]
  cases hent : top.cached? c.store r.key with
  | some entry =>
    have hval : ∀ p, entry ≠ .pointer p := by
      rintro p rfl
      exact hdir.no_pointer hent
    have hns : c'.ns = c.ns := hdir'.ns_eq.trans hdir.ns_eq.symm
    simp only [resolve_entry hval, hns]
  | none =>
    cases hkeep : top.keepPointer? c.store r.key with
    | none => rfl
    | some p =>
      exact resolve_congr hdir hdir' hlim _ r
        (Engine.SparesAll.get?_eq h.engine (hkept p hkeep) _)

end Session

/-! ## 4. A run of the branch -/

namespace Workspace

/-- Any number of moves of one stack, which may also end. -/
inductive Acts (terms : Terms) (name : String) (w : Workspace) : Workspace → Prop
  | refl : Acts terms name w w
  | move {w' : Workspace} {s s' : Session} : Acts terms name w w' → w'.session? name = some s →
      s.MoveBy terms s' → Acts terms name w (w'.put name s')
  | finish {w' : Workspace} : Acts terms name w w' → Acts terms name w (w'.finish name)

variable {w w' : Workspace} {ns : Namespace} {limits : Limits} {terms : Terms}
  {source target : String} {c c' b b' : Session} {id : FrameId} {top : Frame}

theorem Acts.reachable {name : String} (h : w.Acts terms name w') (hw : w.Reachable ns limits) :
    w'.Reachable ns limits := by
  induction h with
  | refl => exact hw
  | move _ hs hmove ih => exact ih.step (.move hs hmove.move)
  | finish _ ih => exact ih.step (.finish name)

theorem branch_eq_put (hw : w.Reachable ns limits) (hfree : w.session? target = none) (c : Session)
    (sharing : Bool) : w.branch c sharing target = w.put target (c.branch sharing) := by
  have hseat := get?_of_session?_eq_none hw.roster.numbered hfree
  have hnone : (w.adopt (c.branch sharing)).session? target = none := by
    have hseat : (w.adopt (c.branch sharing)).seats.get? target = none := hseat
    rw [session?, hseat]
    rfl
  rw [branch, finish, hnone]
  rfl

/-- The stack of the one name rests, and that of the other, while there is one, is of its family and
    does not get at its top frame. -/
structure Isolates (ns : Namespace) (c : Session) (id : FrameId) (top : Frame) (source target : String)
    (w : Workspace) : Prop where
  rests : ∃ c', w.session? source = some c' ∧ c'.family.root = c.family.root ∧ c.Rests ns id top c'
  confined : ∀ b, w.session? target = some b → b.family.root = c.family.root ∧
    ∃ mine, ¬ mine id ∧ b.Confined (c.reserving ns top) mine

section

variable (hw : w.Reachable ns limits) (hs : w.session? source = some c')
  (hb : w.families[b.family.root]? = some b.family) (hroot : c'.family.root = b.family.root)
  (hkin : b'.family.root = b.family.root) (hseats : seats.get? source = w.seats.get? source)
include hw hs hb hroot hkin hseats

theorem session?_adopt :
    session? { w.adopt b' with seats } source = some { b' with stack := c'.stack } := by
  obtain ⟨_, _, hseat⟩ := session?_eq_some hw.roster.numbered hs
  have hfam : (w.adopt b').families[c'.family.root]? = some b'.family := by
    rw [families_adopt hb hkin, if_pos hroot]
  rw [session?]
  simp only [hseats, hseat, bind, Option.bind_some, hfam]
  rfl

theorem rests_adopt (hrests : c.Rests ns id top c') (htop : c.stack.top = some id)
    (hleaves : b.Leaves mine mine' b') (hnot : ¬ mine id)
    (heng : (c.reserving ns top).engine b'.engine)
    (hakin : Pool.Akin face b.family.pool b'.family.pool)
    (hw' : Reachable ns limits { w.adopt b' with seats }) :
    (∃ c', session? { w.adopt b' with seats } source = some c' ∧
      c'.family.root = b.family.root ∧ c.Rests ns id top c') ∧ ¬ mine' id := by
  have hs' := session?_adopt hw hs hb hroot hkin hseats
  obtain ⟨_, hfam, _⟩ := hw.session hs
  obtain ⟨rest, hfit⟩ := hw'.fit hs'
  rw [hrests.stack_eq] at hs' hfit
  rw [hroot, hb] at hfam
  obtain ⟨hleft, hnot'⟩ := hrests.leave htop (Option.some.inj hfam) hleaves hnot heng hakin hfit
  exact ⟨⟨_, hs', hkin, hleft⟩, hnot'⟩

end

/-- **As long as only the branch acts, the source rests.** -/
theorem Acts.isolates (hns : ns.Undotted) (hacts : w.Acts .undotted target w')
    (hw : w.Reachable ns limits) (hne : source ≠ target) (htop : c.stack.top = some id)
    (h : w.Isolates ns c id top source target) : w'.Isolates ns c id top source target := by
  induction hacts with
  | refl => exact h
  | @move w b b' hacts hb hmove ih =>
    have hw := hacts.reachable hw
    obtain ⟨c', hs, hroot, hrests⟩ := ih.rests
    obtain ⟨hkin, mine, hnot, hconf⟩ := ih.confined b hb
    obtain ⟨_, hfam, _⟩ := hw.session hb
    obtain ⟨rest, hfit⟩ := hw.fit hb
    have heff := hmove.move.effect
    obtain ⟨mine', hconf', hleaves⟩ := hmove.confines hns hfit mine hconf
    obtain ⟨hrests', hnot'⟩ := rests_adopt hw hs hfam (hroot.trans hkin.symm) heff.kin.root_eq
      (get?_insert_of_ne _ hne _) hrests htop hleaves hnot hconf'.engine
      (heff.akin face_lasting hfit.sound) (hw.step (.move hb hmove.move))
    rw [hkin] at hrests'
    refine ⟨hrests', fun found hfd => ?_⟩
    have hlt : b'.family.root < w.families.size :=
      heff.kin.root_eq ▸ (Array.getElem?_eq_some_iff.mp hfam).1
    cases hfd.symm.trans (session?_put hlt)
    exact ⟨heff.kin.root_eq.trans hkin, mine', hnot', hconf'⟩
  | @finish w hacts ih =>
    have hw := hacts.reachable hw
    cases hb : w.session? target with
    | none =>
      have hsame : w.finish target = w := by rw [Workspace.finish, hb]
      rwa [hsame]
    | some b =>
      obtain ⟨c', hs, hroot, hrests⟩ := ih.rests
      obtain ⟨hkin, mine, hnot, hconf⟩ := ih.confined b hb
      obtain ⟨_, hfam, _⟩ := hw.session hb
      obtain ⟨rest, hfit⟩ := hw.fit hb
      have hcl : w.finish target = { w.adopt b.close with seats := w.seats.erase target } := by
        rw [Workspace.finish, hb]
      have hw' := hw.step (.finish target)
      rw [hcl] at hw' ⊢
      obtain ⟨heng, hleaves⟩ := hconf.close (Upkeep.sparing_kept hns).toPushable
      have hsame : b.close.family.root = b.family.root := rfl
      obtain ⟨hrests', _⟩ := rests_adopt hw hs hfam (hroot.trans hkin.symm) hsame
        (get?_erase_of_ne _ hne) hrests htop hleaves hnot heng
        (Session.close_akin face_lasting hfit.sound) hw'
      rw [hkin] at hrests'
      refine ⟨hrests', fun found hfd => ?_⟩
      simp [session?, get?_erase_self] at hfd

theorem branch_isolates (hw : w.Reachable ns limits) (hs : w.session? source = some c)
    (hclaimed : c.Claimed ns C) (hrooted : c.RootAtBottom) (htop : c.stack.top = some id)
    (hf : c.frame? id = some top) (hd : ns.get? top.definition = some d) (hsite : d.isSite = false)
    (hown : c.keepsBelow top ≠ some top.keeps) (hne : source ≠ target)
    (hfree : w.session? target = none) :
    (w.branch c false target).Isolates ns c id top source target := by
  have hw' := hw.step (.branch false target hs)
  rw [branch_eq_put hw hfree] at hw' ⊢
  obtain ⟨rest, hfit⟩ := hw.fit hs
  obtain ⟨_, hfam, _⟩ := hw.session hs
  obtain ⟨mine, hleaves, hconf⟩ := hclaimed.branch_confined htop hf hfit hrooted hd hsite hown
  have hkin := (c.branch_kin false).root_eq
  obtain ⟨hrests, hnot⟩ := rests_adopt hw hs hfam rfl hkin (get?_insert_of_ne _ hne _)
    ⟨rfl, hclaimed.spares hf, ⟨top, hf, rfl⟩, rfl⟩ htop hleaves
    (fun ⟨_, hmem⟩ => hfit.sound.accounted.toBalanced.not_mem_below hf hmem) hconf.engine
    (Session.branch_akin face_lasting hfit.sound false) hw'
  refine ⟨hrests, fun found hfd => ?_⟩
  have hlt : (c.branch false).family.root < w.families.size :=
    hkin ▸ (Array.getElem?_eq_some_iff.mp hfam).1
  cases hfd.symm.trans (session?_put hlt)
  exact ⟨hkin, mine, hnot, hconf⟩

theorem names_eq (s : Session) :
    s.names = (s.view face).map fun entry => s.ns.fullName entry.2.definition := by
  simp only [Session.names, Session.view, Pool.view, map_map]
  rfl

/-- **A branch does not disturb its source.** Let definitions have names without dots, and let the top
    frame of a stack be no site's, with a keep map of its own. However a branch of the stack goes on,
    which does not share the frame and puts values under keys without dots, and even if it ends: the
    stack has the same frames, and a local lookup finds what it found, provided that the top frame keeps
    the key, if at all, in a table of its own or in one that is neither durable nor open to the frames
    of the stack. -/
theorem branch_isolated {d : Definition} (hns : ns.Undotted)
    (hrun : (Workspace.new ns limits).Run .rooted w) (hs : w.session? source = some c)
    (hrooted : c.RootAtBottom) (hframe : c.topFrame? = some top)
    (hd : ns.get? top.definition = some d) (hsite : d.isSite = false)
    (hown : c.keepsBelow top ≠ some top.keeps) (hfree : w.session? target = none)
    (hacts : (w.branch c false target).Acts .undotted target w') :
    ∃ c', w'.session? source = some c' ∧ c'.stack = c.stack ∧ c'.names = c.names ∧
      c'.view Frame.face = c.view Frame.face ∧
      ∀ r : Request, r.topOnly = true → r.globalKey = none →
        (∀ p, top.keepPointer? c.store r.key = some p → ¬ c.engine.Durable p.table ∧
          (top.Owns p.table ∨ ∀ entry ∈ c.frames, ¬ entry.2.Writes c.store p.table)) →
        (c'.lookup r).1 = (c.lookup r).1 := by
  obtain ⟨id, htop, hf⟩ := Option.bind_eq_some_iff.mp hframe
  have hw := hrun.reachable .new
  obtain ⟨C, hnotes⟩ := hrun.claimable .new (new_claimable ns limits)
  obtain ⟨hclaimed, _⟩ := hnotes.session hs
  have hne : source ≠ target := by
    rintro rfl
    cases hs.symm.trans hfree
  have hw₁ := hw.step (.branch false target hs)
  have hisolates := hacts.isolates hns hw₁ hne htop
    (branch_isolates hw hs hclaimed hrooted htop hf hd hsite hown hne hfree)
  obtain ⟨c', hs', _, hrests⟩ := hisolates.rests
  have hw' := hacts.reachable hw₁
  obtain ⟨rest, hfit⟩ := hw.fit hs
  obtain ⟨rest', hfit'⟩ := hw'.fit hs'
  have hlimits : c'.limits = c.limits := (hw'.limits_eq hs').trans (hw.limits_eq hs).symm
  refine ⟨c', hs', hrests.stack_eq, ?_, hrests.view_eq, fun r hlocal hglobal hkept => ?_⟩
  · rw [names_eq, names_eq, hrests.view_eq, hfit'.ns_eq, hfit.ns_eq]
  · have hcache := (hclaimed.owns hf hd hsite (.inl rfl)).1
    refine hrests.lookup_eq hfit hfit' hclaimed.upheld.engine.toDirect hlimits htop hf hlocal hglobal
      ⟨hcache, .inl (.inl rfl)⟩ fun p hp => ?_
    obtain ⟨hdurable, htable⟩ := hkept p hp
    exact ⟨⟨hclaimed.upheld.engine.pointer_lt hp, hdurable⟩, htable⟩

/-- A hall, a desk that keeps a note, and a stand, which is a site and keeps its paper. -/
def bureau : Namespace where
  definitions := #[
    { name := "hall", fullName := "hall" },
    { name := "desk", fullName := "desk", children := Dictionary.empty.insert "note" 3
      keeps := [{ target := "note" }] },
    { name := "stand", fullName := "stand", kind := .site, site := some 2
      children := Dictionary.empty.insert "paper" 4, keeps := [{ target := "paper" }] },
    { name := "note", fullName := "desk.note", owner := some 1 },
    { name := "paper", fullName := "stand.paper", owner := some 2, site := some 2 }]
  roots := ((Dictionary.empty.insert "hall" 0).insert "desk" 1).insert "stand" 2

theorem bureau_undotted : bureau.Undotted := by
  intro id d hd
  have hall : ∀ d ∈ bureau.definitions, DottedName.isDotted d.name = false := by decide
  exact hall d (Array.mem_of_getElem? hd)

/-- A stack in the hall, and the same at the desk. -/
def inHall : Session := (Session.push ⟨.new bureau {}, .new 0 {}, {}⟩ 0 [] true).2

def atDesk : Session := (inHall.push 1 [] true).2

/-- At the desk, with a note. -/
def noted : Session := (atDesk.putWithin "note" (.of 3 [] (some (.text "first"))) none).2

def bureauOpened : Workspace :=
  ((((Workspace.new bureau {}).start "main").put "main" inHall).put "main" atDesk).put "main" noted

theorem bureauOpened_run : (Workspace.new bureau {}).Run .rooted bureauOpened := by
  have hstarted : ((Workspace.new bureau {}).start "main").session? "main" =
      some ⟨.new bureau {}, .new 0 {}, {}⟩ := rfl
  refine .step (.step (.step (.step .refl (.start "main"))
    (.move hstarted (.push (.push 0 [] true) (Terms.rooted_plain 0 ?_ ?_))))
    (.move (session?_put ?_) (.push (.push 1 [] true) (Terms.rooted_plain 1 ?_ ?_))))
    (.move (session?_put ?_) (.putWithin "note" _ none trivial))
  all_goals decide +kernel

theorem bureauOpened_free : bureauOpened.session? "draft" = none :=
  Option.isNone_iff_eq_none.mp (by decide +kernel)

/-- The branch puts a note of its own, goes back to the hall and ends. -/
def drafted : Session :=
  ((noted.branch false).putWithin "note" (.of 3 [] (some (.text "second"))) none).2

theorem branch_isolated_noted : ∃ left, drafted.pop = .ok left ∧
    ∃ c', ((((bureauOpened.branch noted false "draft").put "draft" drafted).put "draft" left).finish
      "draft").session? "main" = some c' ∧
      (c'.lookup (.here "note")).1 = (noted.lookup (.here "note")).1 ∧
      (noted.lookup (.here "note")).1.toOption = some (some (.text "first")) := by
  obtain ⟨left, hleft⟩ : ∃ left, drafted.pop = .ok left := by
    have hok : drafted.pop.isOk = true := by decide +kernel
    match drafted.pop, hok with
    | .ok left, _ => exact ⟨left, rfl⟩
  have hs : bureauOpened.session? "main" = some noted := session?_put (by decide +kernel)
  have hread : noted.topFrame?.map (·.definition) = some 1 := by decide +kernel
  obtain ⟨top, hframe, hdefinition⟩ := Option.map_eq_some_iff.mp hread
  have hown : noted.keepsBelow top ≠ some top.keeps := by
    have hread : noted.topFrame?.all (fun top => noted.keepsBelow top != some top.keeps) = true := by
      decide +kernel
    rw [hframe, Option.all_some] at hread
    exact bne_iff_ne.mp hread
  have hrooted : noted.RootAtBottom := by
    have hroot : noted.stack.root = noted.frames.getLast?.map (·.1) := by decide +kernel
    intro id hid
    rw [← hroot, hid]
  have hbranch := bureauOpened_run.reachable .new
  have hseated : (bureauOpened.branch noted false "draft").session? "draft" =
      some (noted.branch false) := by
    rw [branch_eq_put hbranch bureauOpened_free]
    exact session?_put (by decide +kernel)
  have hacts : (bureauOpened.branch noted false "draft").Acts .undotted "draft"
      ((((bureauOpened.branch noted false "draft").put "draft" drafted).put "draft" left).finish
        "draft") := by
    have hplain : DottedName.isDotted "note" = false := by decide
    exact .finish (.move (.move .refl hseated (.putWithin "note" _ none hplain))
      (session?_put (by decide +kernel)) (.pop hleft))
  have hd : bureau.get? top.definition = some bureau.definitions[1] := by
    rw [hdefinition]
    rfl
  obtain ⟨c', hs', _, _, _, hlookup⟩ := branch_isolated bureau_undotted bureauOpened_run hs hrooted
    hframe hd rfl hown bureauOpened_free hacts
  refine ⟨left, hleft, c', hs', hlookup _ rfl rfl fun p hp => ?_, by decide +kernel⟩
  have hread : noted.topFrame?.all (fun top => (top.keepPointer? noted.store "note").all
      fun p => decide (¬ noted.engine.Durable p.table ∧ top.Owns p.table)) = true := by
    decide +kernel
  rw [hframe, Option.all_some] at hread
  have hp : top.keepPointer? noted.store "note" = some p := hp
  rw [hp, Option.all_some] at hread
  obtain ⟨hdurable, howns⟩ := of_decide_eq_true hread
  exact ⟨hdurable, .inl howns⟩

/-- At the desk, after a visit to the stand. -/
def returned : Session :=
  match (atDesk.push 2 [] true).2.pop with
  | .ok back => back
  | .error _ => atDesk

/-- **A branch reaches the tables of frames below.** The stand keeps its paper in the cache of the hall,
    and the desk keeps that slot under the paper's full name, in a table that is not durable. A branch
    that goes back to the hall and binds a paper there lets the source find it. -/
theorem branch_reaches_below :
    returned.topDefinition? = some 1 ∧
      returned.topFrame?.all (fun top => returned.keepsBelow top != some top.keeps &&
        (top.keepPointer? returned.store "stand.paper").any fun p =>
          !decide (returned.engine.Durable p.table)) = true ∧
      (returned.lookup (.here "stand.paper")).1.toOption = some none ∧
      ((returned.branch false).pop.toOption.bind fun below =>
        (below.putValue "paper" (.text "news")).toOption.bind fun bound =>
          ({ bound with stack := returned.stack }.lookup (.here "stand.paper")).1.toOption) =
        some (some (.text "news")) := by
  decide +kernel

end Workspace

end KeepTree
