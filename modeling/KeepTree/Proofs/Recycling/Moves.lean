import KeepTree.Proofs.Recycling.Readings

/-!
# Moves of sessions that mirror each other

Whatever is done to a session can be done to one that mirrors it, with the same result, and the two
mirror each other again. Only a push and a branch make a frame: the renaming then grows by one pair.
Ids are compared in three places, when a frame set aside is stepped into again, when the owner of a
value is told from the top frame, and when a branch is made of a stack with one frame. There it counts
that no id stands for two others.

* `Mirrors.pop`, `Mirrors.repush`, `Mirrors.addKeep`, `Reads.putWithin`, … -- **what makes no frame leaves
  sessions that mirror each other**.
-/

namespace KeepTree

open List

variable {e e' : Engine} {f g : Frame} {l l' : List (FrameId × Frame)} {entry : Entry}
  {prev prev' : Option Frame} {ρ : Renaming} {K : Mirroring} [K.Lawful]

/-! ## 1. Writing -/

open Mirroring Store.Faithful

theorem Store.writeThrough_mirrors {x y : Store} (h : K.stores x y) (iter : Option Nat)
    (limit : Nat) (p : Pointer) (hent : ∀ p, entry ≠ .pointer p) :
    ExceptRel K.faults (fun a b => b.1 = a.1 ∧ K.stores a.2 b.2)
      (x.writeThrough iter limit p entry) (y.writeThrough iter limit p entry) := by
  unfold Store.writeThrough
  rw [Store.chase_congr (at_pointer h)]
  split
  · exact .ok ⟨rfl, Store.Faithful.write h _ _ hent⟩
  · exact .error (Lawful.same rfl)

theorem Namespace.canonical_mirrors (ns : Namespace) (bound : Bound) (scope : Option DefId)
    (limit : Nat) : ExceptRel K.faults (· = ·) (ns.canonical bound scope limit)
      (ns.canonical bound scope limit) :=
  refl_of fun fault h => by
    unfold Namespace.canonical at h
    split at h <;> cases h <;> rfl

/-! ## 2. Keeping -/

theorem Frame.Over.keepTable {f g : Frame} (h : f.Over K.ids g) (container : Option String)
    {x y : Store} (hxy : K.stores x y) : (g.keepTable container y).1 = (f.keepTable container x).1 ∧
    (f.keepTable container x).2.1.Over K.ids (g.keepTable container y).2.1 ∧
    K.stores (f.keepTable container x).2.2 (g.keepTable container y).2.2 := by
  obtain ⟨prev, rfl, hrel⟩ := h
  unfold Frame.keepTable
  cases container with
  | none => exact ⟨rfl, ⟨prev, rfl, hrel⟩, hxy⟩
  | some name =>
    simp only
    split
    · exact ⟨rfl, ⟨prev, rfl, hrel⟩, hxy⟩
    · obtain ⟨hid, hnew⟩ := newTable hxy
      simp only [hid]
      exact ⟨trivial, ⟨prev, rfl, hrel⟩, hnew⟩

namespace Engine

/-- A frame and an engine that mirror others. -/
def KeepMirrors (K : Mirroring) (x y : Frame × Engine) : Prop :=
  x.1.Over K.ids y.1 ∧ x.2.Parallels K.stores y.2

section

variable (h : e.Parallels K.stores e') (hfg : f.Over K.ids g)
include h hfg

theorem Parallels.keepTarget (keep : Keep) (below : Option KeepMapId) (target : DefId)
    (aliasTarget : Option Binding) :
    KeepMirrors K (e.keepTarget f keep below target aliasTarget)
      (e'.keepTarget g keep below target aliasTarget) := by
  have hks := hfg.read_eq (v := Frame.keeps) fun _ _ => rfl
  unfold Engine.keepTarget
  rw [h.ns_eq]
  simp only
  split
  · rename_i d _
    obtain ⟨htab, heng⟩ := h.durableTable d
    rw [htab, hks]
    exact ⟨hfg, (heng.withStore (keepAll heng.store _ _ _)).count fun _ _ => rfl⟩
  · obtain ⟨htab, hfr, hsto⟩ := hfg.keepTable keep.container h.store
    have hks := hfr.read_eq (v := Frame.keeps) fun _ _ => rfl
    have hdef := hfr.read_eq (v := Frame.definition) fun _ _ => rfl
    rw [htab, hks, hdef]
    exact ⟨hfr, (h.withStore (Store.Faithful.keep (keepAll hsto _ _ _) _ _ _)).count
      fun _ _ => rfl⟩

theorem Parallels.registerKeep (keep : Keep) (below : Option KeepMapId) :
    ExceptRel (· = ·) (Option.Rel (KeepMirrors K))
      (e.registerKeep f keep below) (e'.registerKeep g keep below) := by
  have hdef := hfg.read_eq (v := Frame.definition) fun _ _ => rfl
  unfold Engine.registerKeep
  rw [h.ns_eq, hdef]
  cases keepTargets e.ns f.definition keep with
  | error gap => exact .error rfl
  | ok found =>
    cases found with
    | none => exact .ok .none
    | some target => exact .ok (.some (h.keepTarget hfg keep below target.1 target.2))

theorem Parallels.registerKeeps (below : Option KeepMapId) (keeps : List Keep) :
    (e'.registerKeeps g below keeps).1 = (e.registerKeeps f below keeps).1 ∧
      KeepMirrors K (e.registerKeeps f below keeps).2 (e'.registerKeeps g below keeps).2 := by
  induction keeps generalizing e e' f g with
  | nil => exact ⟨rfl, hfg, h⟩
  | cons keep rest ih =>
    unfold Engine.registerKeeps
    have hres := h.registerKeep hfg keep below
    generalize e.registerKeep f keep below = x at hres
    generalize e'.registerKeep g keep below = y at hres
    cases hres with
    | error hflt => exact ⟨hflt ▸ rfl, hfg, h⟩
    | ok hfound =>
      cases hfound with
      | none => exact ih h hfg
      | some hkept => exact ih hkept.2 hkept.1

end

end Engine

namespace Session

variable {s t : Session}

/-! ## 3. The frame that a push makes -/

theorem Mirrors.homeFor (h : s.Mirrors K t) (id : DefId) (d : Definition)
    (hprev : Option.Rel (Frame.Over K.ids) prev prev') :
    (t.homeFor id d prev').1 = (s.homeFor id d prev).1 ∧
      (s.homeFor id d prev).2.Parallels K.stores (t.homeFor id d prev').2 := by
  have hsite := Frame.Over.bind_eq (v := Frame.site) (fun _ _ => rfl) hprev
  have htab := Frame.Over.bind_eq (v := Frame.siteTable) (fun _ _ => rfl) hprev
  obtain ⟨hca, hnew⟩ := newTable h.store
  have heng := h.engine.withStore hnew
  unfold Session.homeFor
  simp only [hsite, htab, hca]
  split
  · -- a site frame: the cache is that of the root, if there is one
    rcases rel_cases h.rootFrame? with ⟨hs, ht⟩ | ⟨f, g, hs, ht, prev, rfl, _⟩
    · obtain ⟨htab, hend⟩ := heng.siteTable id
      simp only [hs, ht, htab]
      exact ⟨trivial, hend⟩
    · obtain ⟨htab, hend⟩ := h.engine.siteTable id
      simp only [hs, ht, htab]
      exact ⟨trivial, hend⟩
  · split
    · split
      · exact ⟨rfl, heng⟩
      · rename_i site _ _
        obtain ⟨htab, hend⟩ := heng.siteTable site
        simp only [htab]
        exact ⟨trivial, hend⟩
    · exact ⟨rfl, heng⟩

theorem Mirrors.frameFor (h : s.Mirrors K t) (bound : Bound) (d : Definition)
    (hprev : Option.Rel (Frame.Over K.ids) prev prev') (newCall : Bool) :
    (t.frameFor bound d prev' newCall).1 = (s.frameFor bound d prev newCall).1 ∧
      Engine.KeepMirrors K (s.frameFor bound d prev newCall).2
        (t.frameFor bound d prev' newCall).2 := by
  obtain ⟨hhome, heng⟩ := h.homeFor bound.definition d hprev
  have hks := Frame.Over.map_eq (v := Frame.keeps) (fun _ _ => rfl) hprev
  -- a new frame stands on the top of its stack
  have hinherited : Option.Rel (Frame.Over K.ids) (prev.filter (continuesKeeps bound))
      (prev'.filter (continuesKeeps bound)) := by
    cases hprev with
    | none => exact .none
    | some hfg =>
      have hcontinues := hfg.read_eq (v := continuesKeeps bound) fun _ _ => rfl
      rw [Option.filter_some, Option.filter_some, hcontinues]
      split
      · exact .some hfg
      · exact .none
  rw [frameFor_eq, frameFor_eq]
  simp only [hhome, h.family.clock_eq, hks]
  rcases rel_cases hinherited with ⟨hs, ht⟩ | ⟨f, g, hs, ht, below, rfl, _⟩
  · obtain ⟨hmap, hnew⟩ := newKeepMap heng.store
    simp only [hs, ht, hmap]
    refine (heng.withStore hnew).registerKeeps ?_ _ d.keeps
    exact ⟨t.stack.top, rfl, h.stack.top⟩
  · simp only [hs, ht]
    exact ⟨trivial, ⟨t.stack.top, rfl, h.stack.top⟩, heng⟩

/-- What is prepared for a push. -/
def PreparedMirrors (K : Mirroring) (x y : Bound × Definition × Option Frame) : Prop :=
  y.1 = x.1 ∧ y.2.1 = x.2.1 ∧ Option.Rel (Frame.Over K.ids) x.2.2 y.2.2

theorem Mirrors.preparePush (h : s.Mirrors K t) (definition : DefId) (args : List Argument) :
    ExceptRel K.faults (PreparedMirrors K) (s.preparePush definition args)
      (t.preparePush definition args) := by
  unfold Session.preparePush
  rw [h.maxDepth_eq, h.stack.size_eq, h.ns_eq, h.topDefinition?_eq, h.maxPointerHops_eq]
  split
  · exact .error (Lawful.same rfl)
  · refine (Namespace.canonical_mirrors s.ns _ _ _).bind fun found _ heq => ?_
    subst heq
    split
    · exact .error (Lawful.same rfl)
    · rcases rel_cases h.stack.top with ⟨hs, ht⟩ | ⟨a, b, hs, ht, hab⟩
      · rw [hs, ht]
        exact .ok ⟨rfl, rfl, .none⟩
      · rw [hs, ht]
        have hlive : ExceptRel K.faults (Option.Rel (Frame.Over K.ids)) _ _ :=
          (h.liveFrame hab).map fun _ _ => .some
        exact hlive.bind fun _ _ hfg => .ok ⟨rfl, rfl, hfg⟩

/-! ## 4. Popping and stepping out -/

theorem pinBelow_mirrors {p q : Pool} (h : K.pools p q) (hfg : f.Over K.ids g) :
    K.pools (pinBelow p f) (pinBelow q g) := by
  unfold pinBelow
  rcases rel_cases hfg.previous with ⟨hf, hg⟩ | ⟨a, b, hf, hg, hab⟩
  · rw [hf, hg]
    exact h
  · rw [hf, hg]
    exact Lawful.modify h hab fun _ _ => rfl

theorem Mirrors.pop (h : s.Mirrors K t) : ExceptRel K.faults (Mirrors K) s.pop t.pop := by
  refine h.topEntry.bind ?_
  rintro ⟨a, f⟩ ⟨b, g⟩ ⟨hab, hfg⟩
  obtain ⟨hfreed, hpool⟩ := Lawful.unpin (pinBelow_mirrors h.family.pool hfg) hab
  have hroot : Option.Rel K.ids (if s.stack.size - 1 = 0 then none else s.stack.root)
      (if t.stack.size - 1 = 0 then none else t.stack.root) := by
    rw [h.stack.size_eq]
    split
    · exact .none
    · exact h.stack.root
  simp only [hfreed]
  exact .ok ⟨h.engine.count fun _ _ => rfl, ⟨h.family.root_eq, h.family.clock_eq, hpool⟩,
    ⟨hfg.previous, hroot, congrArg (· - 1) h.stack.size_eq, h.stack.stash⟩⟩

theorem Mirrors.unpush (h : s.Mirrors K t) : ExceptRel K.faults (Mirrors K) s.unpush t.unpush := by
  refine h.topEntry.bind fun _ _ ⟨hab, hfg⟩ => ?_
  have hpool := pinBelow_mirrors h.family.pool hfg
  exact .ok ⟨h.engine, ⟨h.family.root_eq, h.family.clock_eq, hpool⟩,
    ⟨hfg.previous, h.stack.root, congrArg (· - 1) h.stack.size_eq, .cons hab h.stack.stash⟩⟩

theorem Mirrors.repush (h : s.Mirrors K t) : ExceptRel K.faults (Mirrors K) s.repush t.repush := by
  unfold Session.repush
  match s.stack.stash, t.stack.stash, h.stack.stash with
  | _, _, .nil => exact .error (Lawful.same rfl)
  | _, _, .cons hab hrest =>
    refine (h.liveFrame hab).bind fun f g hfg => ?_
    -- the frame sits on the top of both stacks or of none
    have hsits := rel_iff h.family.pool hfg.previous h.stack.top
    have hstack : ∀ {x y : Option FrameId}, Option.Rel K.ids x y →
        Stack.Mirrors K.ids { s.stack with top := x, size := s.stack.size + 1, stash := _ }
          { t.stack with top := y, size := t.stack.size + 1, stash := _ } :=
      fun hxy => ⟨hxy, h.stack.root, congrArg (· + 1) h.stack.size_eq, hrest⟩
    simp only [ne_eq, hsits]
    split
    · exact .error (Lawful.mismatch hab)
    · rcases rel_cases h.stack.top with ⟨hs, ht⟩ | ⟨current, current', hs, ht, hcurrent⟩
      · rw [hs, ht]
        exact .ok ⟨h.engine.count (f := fun c => c.freed 0) fun _ _ => rfl, h.family,
          hstack (.some hab)⟩
      · obtain ⟨hfreed, hpool⟩ := Lawful.unpin h.family.pool hcurrent
        simp only [hs, ht, hfreed]
        exact .ok ⟨h.engine.count fun _ _ => rfl, ⟨h.family.root_eq, h.family.clock_eq, hpool⟩,
          hstack (.some hab)⟩

/-! ## 5. The top frame -/

section

variable (h : s.Mirrors K t)
include h

theorem Mirrors.liveTop :
    ExceptRel K.faults (fun x y => K.Entries x y ∧
      s.family.pool.get? x.1 = some x.2 ∧ t.family.pool.get? y.1 = some y.2) s.top t.top :=
  h.topEntry.imp_ok fun _ _ hx hy hent => ⟨hent, (top_eq_ok.mp hx).2, (top_eq_ok.mp hy).2⟩

theorem Mirrors.startIteration :
    ExceptRel K.faults (fun x y => y.1 = x.1 ∧ x.2.Mirrors K y.2) s.startIteration
      t.startIteration := by
  refine h.liveTop.bind ?_
  rintro ⟨a, f⟩ ⟨b, _⟩ ⟨⟨hab, previous, rfl, hprev⟩, hf, hg⟩
  have hfr : f.startIteration.2.Over K.ids { f with previous }.startIteration.2 :=
    ⟨previous, rfl, hprev⟩
  exact .ok ⟨rfl, h.withPool (Lawful.set h.family.pool hab hf hg hfr)⟩

theorem Mirrors.setIteration (iter : Option Nat) :
    (s.setIteration iter).Mirrors K (t.setIteration iter) := by
  unfold Session.setIteration
  rcases rel_cases h.stack.top with ⟨hs, ht⟩ | ⟨a, b, hs, ht, hab⟩
  · rw [hs, ht]
    exact h
  · rw [hs, ht]
    exact h.withPool (Lawful.modify h.family.pool hab fun _ _ => rfl)

theorem Mirrors.addKeep (keep : Keep) :
    ExceptRel K.faults (fun x y => y.1 = x.1 ∧ x.2.Mirrors K y.2) (s.addKeep keep)
      (t.addKeep keep) := by
  refine h.liveTop.bind ?_
  rintro ⟨a, f⟩ ⟨b, g⟩ ⟨⟨hab, hfg⟩, hf, hg⟩
  have hbelow : t.keepsBelow g = s.keepsBelow f :=
    Frame.Over.map_eq (fun _ _ => rfl) (h.frame_of hfg.previous)
  simp only [hbelow]
  refine (ofWalk (h.engine.registerKeep hfg keep (s.keepsBelow f))).bind fun x y hkeep => ?_
  cases hkeep with
  | none => exact .ok ⟨rfl, h⟩
  | some hkept =>
    exact .ok ⟨rfl, (h.withEngine hkept.2).withPool (Lawful.set h.family.pool hab hf hg hkept.1)⟩

end

/-! ## 6. Values -/

theorem Mirrors.prepare (h : s.Mirrors K t) (r : Request) :
    (s.prepare r).Parallels K.stores (t.prepare r) := by
  unfold Session.prepare
  rw [h.ns_eq]
  match s.topFrame?, t.topFrame?, h.topFrame? with
  | _, _, .none => exact h.engine
  | _, _, .some _ =>
    cases r.globalKey with
    | none => exact h.engine
    | some key =>
      cases r.definition.bind s.ns.get? with
      | none => exact h.engine
      | some d =>
        simp only
        split
        · exact (h.engine.durableTable d).2
        · exact h.engine

theorem putInFrame_mirrors {x y : Store} (h : K.stores x y) (limit : Nat) (hfg : f.Over K.ids g)
    (key : String) (hent : ∀ p, entry ≠ .pointer p) :
    ExceptRel K.faults (fun a b => b.1 = a.1 ∧ K.stores a.2 b.2) (putInFrame x limit f key entry)
      (putInFrame y limit g key entry) := by
  have hsame : putInFrame y limit g key entry = putInFrame y limit f key entry :=
    hfg.read_eq (v := fun f => putInFrame y limit f key entry) fun _ _ => rfl
  rw [hsame]
  unfold putInFrame
  rw [keepPointer?_eq h]
  split
  · exact Store.writeThrough_mirrors h _ _ _ hent
  · simp only
    split
    · rename_i p hat
      rw [(at_pointer h _ p).mpr hat]
      exact Store.writeThrough_mirrors h _ _ _ hent
    · rename_i hnone
      split
      · rename_i p hat
        exact absurd ((at_pointer h _ p).mp hat) (hnone p)
      · exact .ok ⟨rfl, write h _ _ hent⟩

theorem putDurable_mirrors (h : e.Parallels K.stores e') (d : Definition) (key : String)
    (iter : Option Nat) (hent : ∀ p, entry ≠ .pointer p) :
    (putDurable e d key iter entry).Parallels K.stores (putDurable e' d key iter entry) := by
  obtain ⟨htab, heng⟩ := h.durableTable d
  unfold putDurable
  split
  · simp only [htab]
    exact heng.withStore (write heng.store _ _ hent)
  · exact h

/-- A pointer of a frame, on both sides. -/
def PointerMirrors (K : Mirroring) (x y : Frame × Pointer) : Prop :=
  x.1.Over K.ids y.1 ∧ y.2 = x.2

theorem passOnTo_mirrors (h : e.Parallels K.stores e') (written : Location)
    (hent : ∀ p, entry ≠ .pointer p) {x y : Option (Frame × Pointer)}
    (hxy : Option.Rel (PointerMirrors K) x y) :
    ExceptRel K.faults (Engine.Parallels K.stores) (passOnTo e written entry x)
      (passOnTo e' written entry y) := by
  match x, y, hxy with
  | _, _, .none => exact .ok h
  | some (f, pointer), some (g, _), .some ⟨hfg, rfl⟩ =>
    have hiter : g.iteration = f.iteration := hfg.read_eq fun _ _ => rfl
    simp only [passOnTo, passOn, h.maxPointerHops_eq, hiter]
    split
    · exact .ok (h.withStore h.store)
    · have hwrite := Store.writeThrough_mirrors h.store f.iteration e.limits.maxPointerHops pointer
        hent
      exact (hwrite.map fun _ _ hsto => hsto.2).map fun _ _ hsto => h.withStore hsto

omit [K.Lawful] in
theorem nearestOf_mirrors (ns : Namespace) (owner : DefId) (h : List.Forall₂ K.Entries l l') :
    ExceptRel (· = ·) (Option.Rel K.Entries) (nearestOf ns owner l) (nearestOf ns owner l') := by
  induction h with
  | nil => exact .ok .none
  | cons hent _ ih =>
    have hdef := hent.2.read_eq (v := Frame.definition) fun _ _ => rfl
    unfold nearestOf
    rw [hdef]
    split
    · exact .error rfl
    · exact .ok (.some hent)
    · exact ih

omit [K.Lawful] in
theorem ownerFrame_mirrors (ns : Namespace) (d : Definition) (h : List.Forall₂ K.Entries l l') :
    ExceptRel (· = ·) (Option.Rel K.Entries) (ownerFrame ns d l) (ownerFrame ns d l') := by
  unfold ownerFrame
  split
  · exact .ok .none
  · exact .ok .none
  · exact nearestOf_mirrors ns _ h

theorem ownerPointer_mirrors {p q : Pool} (hpool : K.pools p q) {store store' : Store}
    (hsto : K.stores store store') (d : Definition) {a b : FrameId} (hab : K.ids a b)
    {x y : FrameId × Frame} (hxy : K.Entries x y) :
    Option.Rel (PointerMirrors K) (ownerPointer store d a x) (ownerPointer store' d b y) := by
  have hsame : x.1 = a ↔ y.1 = b := Lawful.oneToOne hpool hxy.1 hab
  have hptr : y.2.keepPointer? store' d.name = x.2.keepPointer? store d.name := by
    rw [keepPointer?_eq hsto]
    exact hxy.2.read_eq (v := fun f => f.keepPointer? store d.name) fun _ _ => rfl
  unfold ownerPointer
  rw [hptr]
  simp only [hsame]
  split
  · exact .none
  · cases x.2.keepPointer? store d.name with
    | none => exact .none
    | some pointer => exact .some ⟨hxy.2, rfl⟩

theorem passOnToOwner_mirrors {p q : Pool} (hpool : K.pools p q) (h : e.Parallels K.stores e')
    (written : Location) (hent : ∀ p, entry ≠ .pointer p) (d : Definition) {a b : FrameId}
    (hab : K.ids a b) (hreach : List.Forall₂ K.Entries l l') :
    ExceptRel K.faults (Engine.Parallels K.stores) (passOnToOwner e written entry d a l)
      (passOnToOwner e' written entry d b l') := by
  unfold passOnToOwner
  rw [h.ns_eq]
  match ownerFrame e.ns d l, ownerFrame e.ns d l', ownerFrame_mirrors e.ns d hreach with
  | _, _, .error rfl => exact .error (Lawful.same rfl)
  | _, _, .ok howner =>
    refine passOnTo_mirrors h written hent ?_
    cases howner with
    | none => exact .none
    | some hfd => exact ownerPointer_mirrors hpool h.store d hab hfd

omit [K.Lawful] in
theorem find_frames_mirrors {p : Frame → Bool} (hp : Frame.Blind p)
    (h : List.Forall₂ K.Entries l l') :
    Option.Rel K.Entries (l.find? fun entry => p entry.2) (l'.find? fun entry => p entry.2) := by
  induction h with
  | nil => exact .none
  | cons hent _ ih =>
    rw [find?_cons, find?_cons, hent.2.read_eq hp]
    split
    · exact .some hent
    · exact ih

theorem containerPointer_mirrors {store store' : Store} (hsto : K.stores store store')
    (key : String) (h : List.Forall₂ K.Entries l l') :
    Option.Rel (PointerMirrors K) (containerPointer store key l)
      (containerPointer store' key l') := by
  unfold containerPointer
  cases DottedName.splitHead? key with
  | none => exact .none
  | some parts =>
    obtain ⟨container, child⟩ := parts
    simp only [bind, Option.bind]
    match find? _ l, find? _ l', find_frames_mirrors
      (p := fun f => f.containers.contains container) (fun _ _ => rfl) h with
    | _, _, .none => exact .none
    | some (_, f), some (_, g), .some hent =>
      have hptr : g.keepPointer? store' child = f.keepPointer? store child := by
        rw [keepPointer?_eq hsto]
        exact hent.2.read_eq (v := fun f => f.keepPointer? store child) fun _ _ => rfl
      simp only [hptr]
      cases f.keepPointer? store child with
      | none => exact .none
      | some pointer =>
        simp only
        split
        · exact .some ⟨hent.2, rfl⟩
        · exact .none

/-- **A value is put into the same slots.** -/
theorem Reads.putWithin (h : s.Reads K t) (key : String) (holder : Holder) (levels : Option Nat) :
    ExceptRel K.faults (· = ·) (s.putWithin key holder levels).1 (t.putWithin key holder levels).1 ∧
      (s.putWithin key holder levels).2.Mirrors K (t.putWithin key holder levels).2 := by
  have hent : ∀ p, Entry.holder holder ≠ .pointer p := nofun
  have hreach := within_mirrors levels h.frames
  unfold Session.putWithin
  rw [h.ns_eq, h.maxPointerHops_eq]
  match s.top, t.top, h.topEntry with
  | _, _, .error hflt => exact ⟨.error hflt, h.toMirrors⟩
  | .ok (a, f), .ok (b, g), .ok ⟨hab, hfg⟩ =>
    cases s.ns.find holder.nominal with
    | error gap => exact ⟨.error (Lawful.same rfl), h.toMirrors⟩
    | ok d =>
      have hiter : g.iteration = f.iteration := hfg.read_eq fun _ _ => rfl
      simp only [hiter]
      match putInFrame s.store s.limits.maxPointerHops f key (.holder holder),
        putInFrame t.store s.limits.maxPointerHops g key (.holder holder),
        putInFrame_mirrors h.store s.limits.maxPointerHops hfg key hent with
      | _, _, .error hflt => exact ⟨.error hflt, h.toMirrors⟩
      | .ok (loc, store), .ok (_, store'), .ok ⟨rfl, hsto⟩ =>
        -- first to the durable table, then to the owner, and then into the container
        have hdur := putDurable_mirrors (h.engine.withStore hsto) d key f.iteration hent
        simp only
        generalize putDurable (s.engine.withStore store) d key f.iteration _ = e at hdur
        generalize putDurable (t.engine.withStore store') d key f.iteration _ = e' at hdur
        match passOnToOwner e loc _ d a _, passOnToOwner e' loc _ d b _,
          passOnToOwner_mirrors h.family.pool hdur loc hent d hab hreach with
        | _, _, .error hflt => exact ⟨.error hflt, h.withEngine hdur⟩
        | .ok e, .ok e', .ok hpass =>
          have hcontainer := passOnTo_mirrors hpass loc hent
            (containerPointer_mirrors hpass.store key hreach)
          simp only
          match passOnTo e loc _ _, passOnTo e' loc _ _, hcontainer with
          | _, _, .error hflt => exact ⟨.error hflt, h.withEngine hpass⟩
          | _, _, .ok hdone => exact ⟨.ok rfl, h.withEngine hdone⟩

theorem Mirrors.putValue (h : s.Mirrors K t) (key : String) (value : Value) :
    ExceptRel K.faults (Mirrors K) (s.putValue key value) (t.putValue key value) := by
  refine h.topEntry.bind ?_
  rintro ⟨a, f⟩ ⟨b, _⟩ ⟨_, prev, rfl, _⟩
  exact .ok (h.withEngine (h.engine.withStore (write h.store _ _ nofun)))

/-! ## 7. Twins that move -/

/-- The results of a step are related, and the sessions mirror each other under a larger
    renaming. -/
def Replies {α : Type} (ρ : Renaming) (x y : Except Fault α × Session) : Prop :=
  ∃ ρ', ρ ⊆ ρ' ∧ ExceptRel (Fault.Mirrors ρ') (· = ·) x.1 y.1 ∧ x.2.Twins ρ' y.2

namespace Twins

theorem move {ρ' : Renaming} {s' t' : Session} (h : s.Twins ρ t) (hs : s.Move s')
    (ht : t.Move t') (h' : s'.Mirrors (.renamed ρ') t') : s'.Twins ρ' t' :=
  ⟨h', hs.effect.inOrder h.inOrder, ht.effect.inOrder h.inOrder'⟩

theorem replies {α : Type} {x y : Except Fault α × Session} (h : s.Twins ρ t)
    (hs : s.Move x.2) (ht : t.Move y.2) (hres : ExceptRel (Fault.Mirrors ρ) (· = ·) x.1 y.1)
    (h' : x.2.Mirrors (.renamed ρ) y.2) : Replies ρ x y :=
  ⟨ρ, List.Subset.refl ρ, hres, h.move hs ht h'⟩

/-- **A new frame on top**: the two stand for each other. -/
theorem enter (h : s.Twins ρ t) {engine engine' : Engine} (hfg : f.Mirrors ρ g)
    (heng : engine.Parallels Eq engine') :
    ∃ ρ', ρ ⊆ ρ' ∧ (s.enter f engine).Mirrors (.renamed ρ') (t.enter g engine') := by
  obtain ⟨_, hs⟩ := h.inOrder
  obtain ⟨_, ht⟩ := h.inOrder'
  have hpool := h.family.pool.alloc hs.accounted.tidy ht.accounted.tidy hfg
  unfold Session.enter
  generalize s.family.pool.alloc f = made at hpool
  generalize t.family.pool.alloc g = made' at hpool
  have hsub : ρ ⊆ (made.1.id, made'.1.id) :: ρ := subset_cons_self _ ρ
  have hnew : Renaming.Pairs ((made.1.id, made'.1.id) :: ρ) made.1.id made'.1.id := mem_cons_self
  have hstack := h.stack.mono hsub
  rw [h.stack.size_eq]
  refine ⟨_, hsub, heng.push _ _ _, ⟨h.family.root_eq, ?_, ?_⟩, ⟨.some hnew, ?_, rfl, hstack.stash⟩⟩
  · exact congrArg (· + 1) h.family.clock_eq
  · match s.stack.top, t.stack.top, hstack.top with
    | _, _, .none => exact hpool
    | _, _, .some hab => exact ((hpool.link hab).unpin hab).2
  · match s.stack.root, t.stack.root, hstack.root with
    | _, _, .none => exact .some hnew
    | _, _, .some hab => exact .some hab

/-- **A push has the same result**, and the new frames stand for each other. -/
theorem push (h : s.Twins ρ t) (definition : DefId) (args : List Argument) (newCall : Bool) :
    Replies ρ (s.push definition args newCall) (t.push definition args newCall) := by
  have hs := Move.push (s := s) definition args newCall
  have ht := Move.push (s := t) definition args newCall
  have hprepared := h.preparePush definition args
  unfold Session.push at hs ht ⊢
  generalize s.preparePush definition args = x at hs hprepared
  generalize t.preparePush definition args = y at ht hprepared
  match x, y, hprepared with
  | _, _, .error hflt => exact h.replies hs ht (.error hflt) h.toMirrors
  | .ok (bound, d, prev), .ok (_, _, prev'), .ok ⟨rfl, rfl, hprev⟩ =>
    obtain ⟨hkept, hfr, heng⟩ := h.frameFor bound d hprev newCall
    obtain ⟨ρ', hsub, hentered⟩ := h.enter hfr heng
    refine ⟨ρ', hsub, ?_, h.move hs ht hentered⟩
    show ExceptRel _ _ (Fault.ofWalk (s.frameFor bound d prev newCall).1)
      (Fault.ofWalk (t.frameFor bound d prev' newCall).1)
    rw [hkept]
    exact ofWalk (K := .renamed ρ') (.refl _ fun _ _ => rfl)

section

variable (h : s.Twins ρ t)
include h

theorem pushCall (call : Call) (newCall : Bool) :
    Replies ρ (s.pushCall call newCall) (t.pushCall call newCall) := by
  unfold Session.pushCall
  rw [h.ns_eq, h.topDefinition?_eq]
  split
  · exact h.replies .fail .fail (.error (.same rfl)) h.toMirrors
  · exact h.replies .fail .fail (.error (.same rfl)) h.toMirrors
  · rename_i definition _
    obtain ⟨ρ', hsub, hres, htwins⟩ := h.push definition call.arguments newCall
    refine ⟨ρ', hsub, ?_, htwins⟩
    exact hres.map fun _ _ _ => rfl

theorem pop : ExceptRel (Fault.Mirrors ρ) (Twins ρ) s.pop t.pop :=
  h.toMirrors.pop.imp_ok fun _ _ hs ht h' => h.move (.pop hs) (.pop ht) h'

theorem unpush : ExceptRel (Fault.Mirrors ρ) (Twins ρ) s.unpush t.unpush :=
  h.toMirrors.unpush.imp_ok fun _ _ hs ht h' => h.move (.unpush hs) (.unpush ht) h'

theorem repush : ExceptRel (Fault.Mirrors ρ) (Twins ρ) s.repush t.repush :=
  h.toMirrors.repush.imp_ok fun _ _ hs ht h' => h.move (.repush hs) (.repush ht) h'

theorem startIteration :
    ExceptRel (Fault.Mirrors ρ) (fun x y => y.1 = x.1 ∧ x.2.Twins ρ y.2) s.startIteration
      t.startIteration :=
  h.toMirrors.startIteration.imp_ok fun _ _ hs ht h' =>
    ⟨h'.1, h.move (.startIteration hs) (.startIteration ht) h'.2⟩

theorem setIteration (iter : Option Nat) : (s.setIteration iter).Twins ρ (t.setIteration iter) :=
  h.move (.setIteration iter) (.setIteration iter) (h.toMirrors.setIteration iter)

theorem addKeep (keep : Keep) :
    ExceptRel (Fault.Mirrors ρ) (fun x y => y.1 = x.1 ∧ x.2.Twins ρ y.2) (s.addKeep keep)
      (t.addKeep keep) :=
  (h.toMirrors.addKeep keep).imp_ok fun _ _ hs ht h' =>
    ⟨h'.1, h.move (.addKeep hs) (.addKeep ht) h'.2⟩

theorem lookup_result (r : Request) :
    ExceptRel (Fault.Mirrors ρ) (· = ·) (s.lookup r).1 (t.lookup r).1 := by
  rw [Session.lookup_result, Session.lookup_result]
  exact (h.find r).1

end

theorem lookup (h : s.Twins ρ t) (r : Request) : Replies ρ (s.lookup r) (t.lookup r) := by
  refine h.replies (.lookup r) (.lookup r) (h.lookup_result r) ?_
  obtain ⟨hfd, hhops⟩ := h.find r
  have heng := (h.prepare r).count (f := fun c => c.hops (s.find r).2) fun _ _ => rfl
  unfold Session.lookup
  generalize s.find r = x at hfd hhops heng
  generalize t.find r = y at hfd hhops
  obtain ⟨result, hops⟩ := x
  obtain ⟨result', hops'⟩ := y
  cases hhops
  cases hfd with
  | error _ => exact h.withEngine heng
  | @ok found _ heq =>
    cases heq
    refine h.withEngine (heng.count fun c n => ?_)
    cases found <;> rfl

theorem putWithin (h : s.Twins ρ t) (key : String) (holder : Holder) (levels : Option Nat) :
    Replies ρ (s.putWithin key holder levels) (t.putWithin key holder levels) := by
  obtain ⟨hres, hmirrors⟩ := h.reads.putWithin key holder levels
  exact h.replies (.putWithin key holder levels) (.putWithin key holder levels) hres hmirrors

theorem put (h : s.Twins ρ t) (key : String) (holder : Holder) :
    Replies ρ (s.put key holder) (t.put key holder) := by
  unfold Session.put
  rw [h.propagationLevels_eq]
  exact h.putWithin key holder _

theorem putValue (h : s.Twins ρ t) (key : String) (value : Value) :
    ExceptRel (Fault.Mirrors ρ) (Twins ρ) (s.putValue key value) (t.putValue key value) :=
  (h.toMirrors.putValue key value).imp_ok fun _ _ hs ht h' =>
    h.move (.putValue hs) (.putValue ht) h'

/-! ## 8. Branches -/

theorem copy (h : f.Mirrors ρ g) (sharing : Bool) (store : Store) :
    (f.copy sharing store).1.Mirrors ρ (g.copy sharing store).1 ∧
      (g.copy sharing store).2 = (f.copy sharing store).2 := by
  obtain ⟨prev, rfl, hprev⟩ := h
  cases sharing with
  | true => exact ⟨⟨prev, rfl, hprev⟩, rfl⟩
  | false => exact ⟨⟨prev, rfl, hprev⟩, rfl⟩

/-- **A branch of the one stack mirrors the branch of the other.** -/
theorem branch (h : s.Twins ρ t) (sharing : Bool) :
    ∃ ρ', ρ ⊆ ρ' ∧ (s.branch sharing).Mirrors (.renamed ρ') (t.branch sharing) := by
  obtain ⟨_, hs⟩ := h.inOrder
  obtain ⟨_, ht⟩ := h.inOrder'
  have htop := h.stack.top
  have hfr := h.topFrame?
  have hroot := h.stack.root
  unfold Session.branch
  rw [h.store_eq]
  generalize s.topFrame? = x at hfr
  generalize t.topFrame? = y at hfr
  generalize s.stack.top = x' at htop
  generalize t.stack.top = y' at htop
  have hempty : ∃ ρ', ρ ⊆ ρ' ∧ Mirrors (.renamed ρ') { s with stack := {} } { t with stack := {} } :=
    ⟨ρ, List.Subset.refl ρ, h.engine, h.family, Stack.mirrors_empty⟩
  cases htop with
  | none => exact hempty
  | @some a b hab =>
    cases hfr with
    | none => exact hempty
    | @some f g hfg =>
      obtain ⟨hcopy, hsto⟩ := copy hfg sharing s.store
      simp only [ClearFrame.copyOnto_eq]
      generalize f.copy sharing s.store = x at hcopy hsto
      generalize g.copy sharing s.store = y at hcopy hsto
      obtain ⟨copy, store⟩ := x
      obtain ⟨copy', store'⟩ := y
      cases hsto
      have hheld : Frame.Mirrors ρ { copy with pins := 1 } { copy' with pins := 1 } := by
        obtain ⟨prev, rfl, hprev⟩ := hcopy
        exact ⟨prev, rfl, hprev⟩
      have hpool := h.family.pool.alloc hs.accounted.tidy ht.accounted.tidy hheld
      -- the branch has a bottom of its own if its top is the bottom, on both sides or on none
      have hbot := rel_iff (K := .renamed ρ) h.family.pool hroot (.some hab)
      simp only [hbot]
      generalize s.family.pool.alloc { copy with pins := 1 } = made at hpool
      generalize t.family.pool.alloc { copy' with pins := 1 } = made' at hpool
      have hsub : ρ ⊆ (made.1.id, made'.1.id) :: ρ := subset_cons_self _ ρ
      have hnew : Renaming.Pairs ((made.1.id, made'.1.id) :: ρ) made.1.id made'.1.id :=
        mem_cons_self
      refine ⟨_, hsub, (h.engine.withStore (x := store) rfl).frame _ _,
        ⟨h.family.root_eq, h.family.clock_eq, ?_⟩, ⟨.some hnew, ?_, h.stack.size_eq, .nil⟩⟩
      · match f.previous, g.previous, Renaming.rel_mono hsub hfg.previous with
        | _, _, .none => exact hpool
        | _, _, .some hbel => exact hpool.link hbel
      · show Option.Rel _ (if t.stack.root = some b then some made.1.id else s.stack.root)
          (if t.stack.root = some b then some made'.1.id else t.stack.root)
        split
        · exact .some hnew
        · exact Renaming.rel_mono hsub hroot

/-- **The ends of the stacks free the same frames.** -/
theorem close (h : s.Mirrors (.renamed ρ) t) : s.close.Mirrors (.renamed ρ) t.close := by
  have hheld : List.Forall₂ ρ.Pairs (s.stack.top.toList ++ s.stack.stash.reverse)
      (t.stack.top.toList ++ t.stack.stash.reverse) := by
    refine rel_append ?_ (forall₂_reverse_iff.mpr h.stack.stash)
    match s.stack.top, t.stack.top, h.stack.top with
    | _, _, .none => exact .nil
    | _, _, .some hab => exact .cons hab .nil
  obtain ⟨hfreed, hpool⟩ := h.family.pool.unpinAll hheld
  unfold Session.close
  generalize s.family.pool.unpinAll _ = x at hfreed hpool
  generalize t.family.pool.unpinAll _ = y at hfreed hpool
  obtain ⟨freed, p⟩ := x
  obtain ⟨freed', q⟩ := y
  cases hfreed
  exact ⟨h.engine.count (f := fun c => c.freed freed) fun _ _ => rfl,
    ⟨h.family.root_eq, h.family.clock_eq, hpool⟩, Stack.mirrors_empty⟩

end Twins

end Session

end KeepTree
