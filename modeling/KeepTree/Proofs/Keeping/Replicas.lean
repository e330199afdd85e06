import KeepTree.Proofs.Keeping.Branches

/-!
# A branch begins as a copy

A branch has a copy of the top frame and all other frames in common with its source. The copy has the
same tables, or tables that hold the same; and if the frame keeps a name in a table of its own, the copy
keeps it in the copy of that table. So the branch and its source cannot be told apart to begin with:

* `Workspace.branch_reads_alike` -- **a branch reads like its source**.
-/

namespace KeepTree

open Store KeepTree.Frame Dictionary List

variable {store : Store} {f g : Frame} {c : Session} {ns : Namespace}
  {made copied : Dictionary String TableId × Store} {name : String} {p q : Pointer}

/-! ## 1. Copies of frames -/

theorem Store.pointer?_newKeepMap_self (store : Store) (pointers : KeepMap) (name : String) :
    (store.newKeepMap pointers).2.pointer? (store.newKeepMap pointers).1 name = pointers.get? name := by
  simp [newKeepMap, pointer?, keepMap]

/-- The pointers say the same, and lead to tables that hold the same. -/
structure Pointer.Replica (store : Store) (p q : Pointer) : Prop where
  same : { q with table := p.table } = p
  holds : ∀ key, store.get? q.table key = store.get? p.table key

theorem Pointer.Replica.at?_eq (h : p.Replica store q) (iteration : Option Nat) :
    store.at? (q.location iteration) = store.at? (p.location iteration) := by
  have hkey : q.key = p.key := (congrArg Pointer.key h.same :)
  have hslot : q.slotKey iteration = p.slotKey iteration := by rw [slotKey, slotKey, hkey]
  show store.get? q.table (q.slotKey iteration) = store.get? p.table (p.slotKey iteration)
  rw [hslot, h.holds]

theorem Store.follow_congr {iter : Option Nat}
    (h : store.at? (q.location iter) = store.at? (p.location iter)) (limit : Nat) :
    store.follow iter (limit + 1) q = store.follow iter (limit + 1) p := by
  unfold follow chase
  rw [h]
  cases hat : store.at? (p.location iter) with
  | none => simp only [h, hat]
  | some entry =>
    cases entry with
    | pointer next => rfl
    | value v => simp only [h, hat]
    | holder holder => simp only [h, hat]
    | element e => simp only [h, hat]

namespace Frame

/-- The frame without its tables, and without the counts of what refers to it. -/
def shape (f : Frame) : Frame := { f.bare with cache := 0, keeps := 0, containers := .empty }

/-- The frames are the same but for their tables. What they cache and keep is the same as well. -/
structure Replica (store : Store) (f g : Frame) : Prop where
  shape_eq : g.shape = f.shape
  cached : ∀ key, store.get? g.cache key = store.get? f.cache key
  kept : ∀ name, Option.Rel (Pointer.Replica store) (f.keepPointer? store name)
    (g.keepPointer? store name)

theorem Replica.refl (store : Store) (f : Frame) : f.Replica store f := by
  refine ⟨rfl, fun _ => rfl, fun name => ?_⟩
  cases f.keepPointer? store name with
  | none => exact .none
  | some p => exact .some ⟨rfl, fun _ => rfl⟩

namespace Replica

variable (h : f.Replica store g)
include h

theorem definition_eq : g.definition = f.definition := (congrArg Frame.definition h.shape_eq :)

theorem siteTable_eq : g.siteTable = f.siteTable := (congrArg Frame.siteTable h.shape_eq :)

theorem iteration_eq : g.iteration = f.iteration := (congrArg Frame.iteration h.shape_eq :)

theorem state_eq : g.state = f.state := (congrArg Frame.state h.shape_eq :)

theorem slotKey_eq (key : String) : g.slotKey key = f.slotKey key := by
  rw [slotKey, slotKey, h.iteration_eq]

end Replica

theorem Replica.of_bare {f' g' : Frame} (h : f.Replica store g) (hf : f'.bare = f.bare)
    (hg : g'.bare = g.bare) : f'.Replica store g' := by
  have hshape : ∀ {x y : Frame}, x.bare = y.bare → x.shape = y.shape := fun hbare => by
    rw [shape, shape, hbare]
  have hca : ∀ {x y : Frame}, x.bare = y.bare → x.cache = y.cache := fun hbare =>
    (congrArg Frame.cache hbare :)
  have hkept : ∀ {x y : Frame}, x.bare = y.bare → ∀ name,
      x.keepPointer? store name = y.keepPointer? store name := fun hbare name =>
    (congrArg (fun x : Frame => x.keepPointer? store name) hbare :)
  refine ⟨(hshape hg).trans (h.shape_eq.trans (hshape hf).symm), fun key => ?_, fun name => ?_⟩
  · rw [hca hf, hca hg]
    exact h.cached key
  · rw [hkept hf, hkept hg]
    exact h.kept name

/-- A pointer of a copy leads to a table that holds what the table holds that the pointer of the
    source leads to. -/
theorem rebaseTable_holds {source : Frame} {cache : TableId}
    (hold : ∀ {t}, t < store.tables.size → ∀ key, copied.2.get? t key = store.get? t key)
    (hca : ∀ key, copied.2.get? cache key = store.get? source.cache key)
    (hcont : ∀ {name new}, copied.1.get? name = some new → ∃ id,
      source.containers.get? name = some id ∧ ∀ key, copied.2.get? new key = store.get? id key)
    {t : TableId} (ht : t < store.tables.size) (key : String) :
    copied.2.get? (source.rebaseTable cache copied.1 t) key = store.get? t key := by
  unfold rebaseTable
  split
  · rename_i heq
    rw [heq]
    exact hca key
  · split
    · rename_i name id hfd
      have hid := find?_some hfd
      obtain rfl : id = t := beq_iff_eq.mp hid
      have hget := get?_of_mem (mem_of_find?_eq_some hfd)
      cases hnew : copied.1.get? name with
      | none => exact hold ht key
      | some new =>
        obtain ⟨other, hoth, hholds⟩ := hcont hnew
        cases hget.symm.trans hoth
        exact hholds key
    · exact hold ht key

/-- **A copy of a frame reads like the frame.** -/
theorem copy_replica {e : Engine} {source : Frame} (he : e.Lodged ns)
    (hsource : (Upkeep.lodging ns).Housed e source) (sharing : Bool) :
    source.Replica (source.copy sharing e.store).2 (source.copy sharing e.store).1 := by
  cases sharing with
  | true =>
    refine (Replica.refl _ source).of_bare rfl ?_
    rfl
  | false =>
    have hca : source.cache < e.store.tables.size := hsource.cache
    have hks : source.keeps < e.store.keepMaps.size := hsource.keeps
    have hsize : (e.store.copyTable source.cache).2.tables.size = e.store.tables.size + 1 :=
      Array.size_push _
    have hcopies := (e.store.copyTable source.cache).2.copyTables_copies source.containers
    have hmaps := copyTables_keepMaps source.containers (e.store.copyTable source.cache).2
    unfold copy
    simp only [Bool.false_eq_true, if_false]
    generalize (e.store.copyTable source.cache).2.copyTables source.containers = copied
      at hcopies hmaps ⊢
    have hold : ∀ {t}, t < e.store.tables.size → ∀ key, copied.2.get? t key = e.store.get? t key :=
      fun ht key => (hcopies.get?_eq (hsize ▸ Nat.lt_succ_of_lt ht) key).trans
        (get?_copyTable ht source.cache key)
    have hnew : ∀ key, copied.2.get? (e.store.copyTable source.cache).1 key =
        e.store.get? source.cache key := fun key =>
      (hcopies.get?_eq (hsize ▸ Nat.lt_succ_self _) key).trans
        (get?_copyTable_self e.store source.cache key)
    have hmap : ∀ name, copied.2.pointer? source.keeps name = e.store.pointer? source.keeps name :=
      fun name => by
        rw [pointer?, keepMap, hmaps]
        rfl
    refine ⟨rfl, fun key => (hnew key).trans (hold hca key).symm, fun name => ?_⟩
    have hlt : source.keeps < copied.2.keepMaps.size := hmaps ▸ hks
    -- the source's keep map is as it was, and that of the copy is new
    simp only [keepPointer?, pointer?_newKeepMap_of_lt hlt, pointer?_newKeepMap_self, get?_map]
    have hmap : (copied.2.keepMap source.keeps).get? name = e.store.pointer? source.keeps name :=
      hmap name
    rw [pointer?, hmap]
    cases hp : e.store.pointer? source.keeps name with
    | none => exact .none
    | some p =>
      have hlt : p.table < e.store.tables.size := he.pointer_lt hp
      refine .some ⟨rfl, fun key => ?_⟩
      refine Eq.trans (rebaseTable_holds hold hnew (fun hget => ?_) hlt key) (hold hlt key).symm
      obtain ⟨_, _, id, hmem, hholds⟩ := hcopies.new hget
      have hid := hsource.container (get?_of_mem hmem)
      exact ⟨id, get?_of_mem hmem, fun key => (hholds (hsize ▸ Nat.lt_succ_of_lt hid) key).trans
        (get?_copyTable hid source.cache key)⟩

end Frame

/-! ## 2. Stacks of copies -/

namespace Session

variable {s t : Session}

/-- The frames of `t` are copies of those of `s`, one by one, over the same engine. -/
structure Replicates (s t : Session) : Prop where
  engine_eq : t.engine = s.engine
  root_eq : t.family.root = s.family.root
  top : Option.Rel (Frame.Replica s.store) s.topFrame? t.topFrame?
  /-- Without a frame on top both are empty, or the same frame is gone. -/
  vacant : s.topFrame? = none → t.stack.top = s.stack.top
  frames : List.Forall₂ (fun x y => Frame.Replica s.store x.2 y.2) s.frames t.frames

theorem resolve_replica (h : p.Replica s.store q) (origin : DefId) (r : Request)
    (iteration : Option Nat) :
    s.resolve origin r (.pointer q) iteration = s.resolve origin r (.pointer p) iteration := by
  unfold resolve
  cases s.limits.maxPointerHops with
  | zero => rfl
  | succ limit => simp only [follow_congr (h.at?_eq iteration) limit]

namespace Replicates

variable (h : s.Replicates t)
include h

theorem ns_eq : t.ns = s.ns := congrArg Engine.ns h.engine_eq

theorem store_eq : t.store = s.store := congrArg Engine.store h.engine_eq

theorem map_eq {α : Type} {v : Frame → α} (hv : ∀ {f g}, f.Replica s.store g → v g = v f) :
    t.frames.map (fun entry => v entry.2) = s.frames.map fun entry => v entry.2 := by
  have hfrs := h.frames
  generalize s.frames = fs at hfrs
  generalize t.frames = gs at hfrs
  induction hfrs with
  | nil => rfl
  | cons hfg _ ih => rw [map_cons, map_cons, ih, hv hfg]

theorem names_eq : t.names = s.names := by
  unfold names
  rw [h.ns_eq]
  exact h.map_eq (v := fun frame => s.ns.fullName frame.definition) fun hfg => by
    rw [hfg.definition_eq]

theorem iteration?_eq : t.iteration? = s.iteration? := by
  unfold iteration?
  match s.topFrame?, t.topFrame?, h.top with
  | _, _, .none => rfl
  | _, _, .some hfg => exact hfg.iteration_eq

theorem marker_eq : t.marker = s.marker := by
  unfold marker
  rw [h.root_eq]
  match s.topFrame?, t.topFrame?, h.top with
  | _, _, .none => rfl
  | _, _, .some hfg => simp only [hfg.state_eq, hfg.iteration_eq]

/-! ### Arguments -/

theorem argumentFor_eq (name : String) : t.argumentFor name = s.argumentFor name :=
  argumentFor_congr (congrArg Namespace.outline h.ns_eq) (h.frames.imp fun _ _ hfg =>
    (congrArg Frame.binding (Frame.Replica.shape_eq hfg) :).symm) name

/-! ### Names kept -/

theorem keepTarget?_eq (name : String) : t.keepTarget? name = s.keepTarget? name := by
  have hfd : Option.Rel (Pointer.Replica s.store)
      (s.frames.findSome? (·.2.keepPointer? s.store name))
      (t.frames.findSome? (·.2.keepPointer? s.store name)) := by
    have hfrs := h.frames
    generalize s.frames = fs at hfrs
    generalize t.frames = gs at hfrs
    induction hfrs with
    | nil => exact .none
    | @cons x y _ _ hfg _ ih =>
      simp only [findSome?_cons]
      rcases rel_cases (hfg.kept name) with ⟨hf, hg⟩ | ⟨p, q, hf, hg, hpq⟩ <;> rw [hf, hg]
      · exact ih
      · exact .some hpq
  simp only [keepTarget?, h.store_eq]
  rcases rel_cases hfd with ⟨hf, hg⟩ | ⟨p, q, hf, hg, hpq⟩ <;> rw [hf, hg]
  have halias : q.aliasTarget = p.aliasTarget := (congrArg Pointer.aliasTarget hpq.same :)
  have htgt : q.target = p.target := (congrArg Pointer.target hpq.same :)
  simp only [halias, htgt]

theorem isKept_eq (name : String) : t.isKept name = s.isKept name := by
  have hmap := h.map_eq (v := fun frame => (frame.keepPointer? s.store name).isSome) fun {f g} hfg => by
    rcases rel_cases (hfg.kept name) with ⟨hf, hg⟩ | ⟨p, q, hf, hg, _⟩ <;> simp [hf, hg]
  have hwithin : (within s.limits.propagationLevels t.frames).map
        (fun entry => (entry.2.keepPointer? s.store name).isSome) =
      (within s.limits.propagationLevels s.frames).map
        fun entry => (entry.2.keepPointer? s.store name).isSome := by
    unfold within
    split
    · rw [map_take, map_take, hmap]
    · exact hmap
  have hany := congrArg (any · id) hwithin
  simp only [any_map, Function.id_comp] at hany
  have hlim : t.limits = s.limits := congrArg Engine.limits h.engine_eq
  rw [isKept, isKept, h.store_eq, hlim]
  exact hany

/-! ### Values -/

theorem resolve_eq (origin : DefId) (r : Request) (entry : Entry) (iteration : Option Nat) :
    t.resolve origin r entry iteration = s.resolve origin r entry iteration := by
  unfold resolve ns store limits
  rw [h.engine_eq]

theorem durableCandidates_eq (r : Request) (hfg : f.Replica s.store g) :
    t.durableCandidates r g = s.durableCandidates r f := by
  unfold durableCandidates durableTables ns store
  rw [h.engine_eq, hfg.siteTable_eq, hfg.iteration_eq]
  simp only [hfg.slotKey_eq]

theorem entryIn_agree (hfg : f.Replica s.store g) (origin : DefId) (r : Request) :
    Option.Rel (Agree s t origin r) ((entryIn s.store r.key f).map (·, f.iteration))
      ((entryIn t.store r.key g).map (·, g.iteration)) := by
  have hcached : g.cached? s.store r.key = f.cached? s.store r.key := by
    rw [cached?, cached?, hfg.slotKey_eq, hfg.cached]
  rw [h.store_eq, hfg.iteration_eq, entryIn, entryIn, hcached]
  cases f.cached? s.store r.key with
  | some entry => exact .some (h.resolve_eq origin r entry f.iteration)
  | none =>
    rcases rel_cases (hfg.kept r.key) with ⟨hf, hg⟩ | ⟨p, q, hf, hg, hpq⟩ <;> rw [hf, hg]
    · exact .none
    · exact .some ((h.resolve_eq origin r _ _).trans (resolve_replica hpq origin r f.iteration))

/-- **A search finds the same.** -/
theorem find_eq (r : Request) : t.find r = s.find r := by
  rcases rel_cases h.top with ⟨hf, hg⟩ | ⟨f, g, hf, hg, hfg⟩
  · rw [find_of_no_top hf, find_of_no_top hg, h.vacant hf]
  have hns : t.ns.outline = s.ns.outline := congrArg Namespace.outline h.ns_eq
  have hdefs := h.frames.imp fun _ _ hxy => Frame.Replica.definition_eq hxy
  refine find_congr hf hg hfg.definition_eq (rel_append ?_ ?_) (searchEnding_congr hns hdefs)
  · rw [h.durableCandidates_eq r hfg]
    exact forall₂_same.mpr fun x _ => h.resolve_eq f.definition r x.1 x.2
  · rw [hfg.definition_eq]
    exact frameCandidates_congr hns (fun hxy => hxy.definition_eq)
      (fun hxy => h.entryIn_agree hxy f.definition r) h.frames

end Replicates

/-! ## 3. Branches -/

variable {rest : List Stack} {id : FrameId} {top : Frame}

/-- The source of a branch, once the branch has been made. -/
def sourceOf (c : Session) (sharing : Bool) : Session := { c.branch sharing with stack := c.stack }

/-- Whatever is asked of the two stacks has the same answer. -/
structure ReadsAlike (s t : Session) : Prop where
  size_eq : t.stack.size = s.stack.size
  names_eq : t.names = s.names
  marker_eq : t.marker = s.marker
  iteration_eq : t.iteration? = s.iteration?
  root_eq : 0 < s.stack.size → t.rootDefinition? = s.rootDefinition?
  lookup_eq : ∀ r, (t.lookup r).1 = (s.lookup r).1
  argumentFor_eq : ∀ name, t.argumentFor name = s.argumentFor name
  isKept_eq : ∀ name, t.isKept name = s.isKept name
  keepTarget_eq : ∀ name, t.keepTarget? name = s.keepTarget? name

theorem branch_size (hs : c.Fit ns rest) (sharing : Bool) :
    (c.branch sharing).stack.size = c.stack.size := by
  cases htop : c.stack.top with
  | none =>
    have hsize := hs.sound.size_eq c.stack mem_cons_self
    rw [htop, Pool.height_none] at hsize
    rw [branch_empty sharing htop, hsize]
  | some id =>
    obtain ⟨top, hf⟩ := hs.top_live id htop
    rw [branch_eq sharing htop hf]

section

variable (hs : c.Fit ns rest) (hheld : c.Upheld (.lodging ns)) (sharing : Bool)
include hs hheld

theorem branch_tops (htop : c.stack.top = some id) (hf : c.frame? id = some top) :
    ∃ new f g, (c.branch sharing).stack.top = some new ∧
      (c.branch sharing).stack.root = (if c.stack.root = some id then some new else c.stack.root) ∧
      (c.branch sharing).frame? id = some f ∧ (c.branch sharing).frame? new = some g ∧
      g.previous = f.previous ∧ f.Replica (c.branch sharing).store g := by
  have hsound := branch_sound hs.sound sharing
  have hgrown := branch_grown bare_plain.ignoresCounts hs.sound sharing htop hf
  obtain ⟨new, hstack⟩ := branch_stack htop hf sharing
  have hnew : (c.branch sharing).stack.top = some new := congrArg Stack.top hstack
  obtain ⟨g, hg⟩ := Sound.live hsound _ hnew
  obtain ⟨f, hf'⟩ := hsound.top_live (mem_cons_of_mem _ mem_cons_self) htop
  have hgbare : g.bare = (top.copy sharing c.store).1.bare := by
    rcases hgrown.frames new g hg with ⟨_, hbare⟩ | ⟨old, hold, _⟩
    · exact hbare
    · cases (hgrown.fresh new hnew).symm.trans hold
  have hfbare : f.bare = top.bare := by
    rcases hgrown.frames id f hf' with ⟨hsame, _⟩ | ⟨old, hold, hbare⟩
    · cases (hgrown.fresh id hsame).symm.trans hf
    · rw [← hbare, Option.some.inj (hold.symm.trans hf)]
  refine ⟨new, f, g, hnew, congrArg Stack.root hstack, hf', hg, ?_, ?_⟩
  · obtain ⟨hprev, _⟩ := copy_like top sharing c.store
    rw [bare_plain.previous_eq hgbare, hprev, bare_plain.previous_eq hfbare]
  · rw [branch_store htop hf]
    exact (copy_replica hheld.engine (hheld.frames id top hf) sharing).of_bare hfbare hgbare

/-- **A branch has copies of the frames of its source.** -/
theorem branch_replicates : (c.sourceOf sharing).Replicates (c.branch sharing) := by
  cases htop : c.stack.top with
  | none =>
    have hempty : (c.branch sharing).stack.top = none := by rw [branch_empty sharing htop]
    have hsource : (c.sourceOf sharing).stack.top = none := htop
    refine ⟨rfl, rfl, ?_, fun _ => hempty.trans hsource.symm, ?_⟩
    · rw [topFrame?, topFrame?, hempty, hsource]
      exact .none
    · rw [frames, frames, hempty, hsource, Pool.chain_none, Pool.chain_none]
      exact .nil
  | some id =>
    obtain ⟨top, hf⟩ := hs.top_live id htop
    obtain ⟨new, f, g, hnew, _, hf', hg, hprev, hreplica⟩ := branch_tops hs hheld sharing htop hf
    have hbalanced := (branch_sound hs.sound sharing).accounted.toBalanced
    have hsource := topFrame?_eq (s := c.sourceOf sharing) htop hf'
    refine ⟨rfl, rfl, ?_, fun hnone => ?_, ?_⟩
    · rw [hsource, topFrame?_eq hnew hg]
      exact .some hreplica
    · cases hsource.symm.trans hnone
    · have hfrs : (c.sourceOf sharing).frames =
          (id, f) :: (c.branch sharing).family.pool.chain f.previous := by
        show (c.branch sharing).family.pool.chain c.stack.top = _
        rw [htop]
        exact hbalanced.chain_some hf'
      have hfrs' : (c.branch sharing).frames =
          (new, g) :: (c.branch sharing).family.pool.chain f.previous := by
        rw [frames, hnew, ← hprev]
        exact hbalanced.chain_some hg
      rw [hfrs, hfrs']
      exact .cons hreplica (forall₂_same.mpr fun x _ => .refl _ x.2)

theorem branch_rootDefinition? (hsize : 0 < c.stack.size) :
    (c.branch sharing).rootDefinition? = (c.sourceOf sharing).rootDefinition? := by
  obtain ⟨id, top, htop, hf, -⟩ := hs.top_frame hsize
  obtain ⟨new, f, g, hnew, hroot, hf', hg, -, hreplica⟩ := branch_tops hs hheld sharing htop hf
  show ((c.branch sharing).stack.root.bind (c.branch sharing).frame?).map _ =
    (c.stack.root.bind (c.branch sharing).frame?).map _
  rw [hroot]
  split
  · rename_i hsame
    rw [hsame, Option.bind_some, Option.bind_some, hf', hg, Option.map_some, Option.map_some,
      hreplica.definition_eq]
  · rfl

theorem branch_readsAlike : (c.sourceOf sharing).ReadsAlike (c.branch sharing) := by
  have h := branch_replicates hs hheld sharing
  exact {
    size_eq := branch_size hs sharing
    names_eq := h.names_eq
    marker_eq := h.marker_eq
    iteration_eq := h.iteration?_eq
    root_eq := branch_rootDefinition? hs hheld sharing
    lookup_eq := fun r => by rw [lookup_result, lookup_result, h.find_eq]
    argumentFor_eq := h.argumentFor_eq
    isKept_eq := h.isKept_eq
    keepTarget_eq := h.keepTarget?_eq }

end

end Session

namespace Workspace

variable {ns : Namespace} {limits : Limits} {w : Workspace} {source target : String} {c : Session}

/-- **A branch reads like its source.** In a reachable workspace let a branch be made, which shares the
    tables of the top frame or has copies of them. Then the branch has as many frames as its source, of
    the same definitions, at the same point of evaluation; every lookup has the same result in both; and
    so has whatever is asked about arguments and about names that are kept. -/
theorem branch_reads_alike (hw : w.Reachable ns limits) (hs : w.session? source = some c)
    (hfree : w.session? target = none) (sharing : Bool) :
    ∃ b c', (w.branch c sharing target).session? target = some b ∧
      (w.branch c sharing target).session? source = some c' ∧ c'.ReadsAlike b := by
  obtain ⟨rest, hfit⟩ := hw.fit hs
  obtain ⟨_, hfamily, _⟩ := hw.session hs
  have hkin := (c.branch_kin sharing).root_eq
  have hne : source ≠ target := by
    rintro rfl
    cases hs.symm.trans hfree
  refine ⟨c.branch sharing, c.sourceOf sharing, ?_, ?_,
    Session.branch_readsAlike hfit (hw.lodged.session hs).1 sharing⟩
  · rw [branch_eq_put hw hfree]
    exact session?_put (hkin ▸ (Array.getElem?_eq_some_iff.mp hfamily).1)
  · rw [branch_eq_put hw hfree]
    exact session?_adopt hw hs hfamily rfl hkin (Dictionary.get?_insert_of_ne _ hne _)

theorem branch_reads_alike_noted : ∃ b c',
    (bureauOpened.branch noted false "draft").session? "draft" = some b ∧
    (bureauOpened.branch noted false "draft").session? "main" = some c' ∧
    b.names = c'.names ∧ (b.lookup (.here "note")).1 = (c'.lookup (.here "note")).1 ∧
    (b.lookup (.here "note")).1.toOption = some (some (.text "first")) := by
  obtain ⟨b, c', hb, hc, halike⟩ := branch_reads_alike (bureauOpened_run.reachable .new)
    (session?_put (by decide +kernel)) bureauOpened_free false
  refine ⟨b, c', hb, hc, halike.names_eq, halike.lookup_eq _, ?_⟩
  have hfound : ((bureauOpened.branch noted false "draft").session? "draft").map (fun b =>
      (b.lookup (.here "note")).1.toOption) = some (some (some (.text "first"))) := by
    decide +kernel
  rw [hb] at hfound
  exact Option.some.inj hfound

end Workspace

end KeepTree
