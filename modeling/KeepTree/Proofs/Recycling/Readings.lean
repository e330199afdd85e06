import KeepTree.Proofs.Recycling.Pools
import KeepTree.Proofs.Session.Searches
import KeepTree.Session.Describe

/-!
# Sessions that mirror each other

Two sessions mirror each other if their pools and stacks do, ids of the one standing for ids of the
other, and if their engines differ in nothing but in whether slots are used again, in how often that
was done, and in what the tables hold. What is read off the frames of such sessions is the same, for no
reading depends on what an id is:

* `Reads.names_eq`, `marker_eq`, `argumentFor_eq`, `keepTarget?_eq`, `isKept_eq` -- **all that can be
  asked of a stack has the same answer**.
-/

namespace KeepTree

open List

variable {S : Store → Store → Prop} {K : Mirroring} {ids : FrameId → FrameId → Prop}
  {α β γ δ ε : Type} {l l' : List (FrameId × Frame)} {ρ ρ' : Renaming} {fault fault' : Fault}
  {f : Counters → Counters} {v : Frame → α} {R : α → β → Prop} {R' : γ → δ → Prop}
  {E : ε → ε → Prop}

/-! ## 1. Stores and engines -/

/-- A relation between stores that have the same pointers. What is no pointer may differ, and whatever
    is done to both keeps them related. -/
class Store.Faithful (S : Store → Store → Prop) : Prop where
  pointer?_eq : ∀ {x y}, S x y → ∀ k name, y.pointer? k name = x.pointer? k name
  at_pointer : ∀ {x y}, S x y → ∀ l p, y.at? l = some (.pointer p) ↔ x.at? l = some (.pointer p)
  write : ∀ {x y}, S x y → ∀ id key {entry}, (∀ p, entry ≠ .pointer p) →
    S (x.write id key entry) (y.write id key entry)
  newTable : ∀ {x y}, S x y → (y.newTable .empty).1 = (x.newTable .empty).1 ∧
    S (x.newTable .empty).2 (y.newTable .empty).2
  newKeepMap : ∀ {x y}, S x y → (y.newKeepMap .empty).1 = (x.newKeepMap .empty).1 ∧
    S (x.newKeepMap .empty).2 (y.newKeepMap .empty).2
  keep : ∀ {x y}, S x y → ∀ k name p, S (x.keep k name p) (y.keep k name p)

instance Store.faithful_eq : Store.Faithful Eq where
  pointer?_eq h _ _ := h ▸ rfl
  at_pointer h _ _ := h ▸ Iff.rfl
  write h _ _ _ _ := h ▸ rfl
  newTable h := h ▸ ⟨rfl, rfl⟩
  newKeepMap h := h ▸ ⟨rfl, rfl⟩
  keep h _ _ _ := h ▸ rfl

namespace Store.Faithful

variable [Store.Faithful S] {x y : Store}

theorem keepAll (h : S x y) (k : KeepMapId) (p : Pointer) (names : List String) :
    S (x.keepAll k p names) (y.keepAll k p names) := by
  induction names generalizing x y with
  | nil => exact h
  | cons name rest ih => exact ih (keep h k name p)

theorem keepPointer?_eq (h : S x y) (f : Frame) (name : String) :
    f.keepPointer? y name = f.keepPointer? x name :=
  pointer?_eq h f.keeps name

end Store.Faithful

namespace Engine

/-- The engine with another word on recycling. -/
def recast (e : Engine) (recycle : Bool) (recycled : Nat) : Engine :=
  { e with
    limits := { e.limits with recycleFrames := recycle }
    counters := { e.counters with framesRecycled := recycled } }

/-- The engines are the same but for recycling. -/
def Mirrors (e e' : Engine) : Prop := ∃ recycle recycled, e' = e.recast recycle recycled

/-- The engines are the same but for recycling and for what their tables hold. -/
def Parallels (S : Store → Store → Prop) (e e' : Engine) : Prop :=
  ∃ store recycle recycled, S e.store store ∧ e' = (e.withStore store).recast recycle recycled

variable {e e' : Engine}

theorem Parallels.mirrors (h : e.Parallels Eq e') : e.Mirrors e' := by
  obtain ⟨_, recycle, recycled, rfl, rfl⟩ := h
  exact ⟨recycle, recycled, rfl⟩

section

variable (h : e.Parallels S e')
include h

theorem Parallels.ns_eq : e'.ns = e.ns := by
  obtain ⟨_, _, _, _, rfl⟩ := h
  rfl

theorem Parallels.store : S e.store e'.store := by
  obtain ⟨_, _, _, hsto, rfl⟩ := h
  exact hsto

theorem Parallels.durable_eq : e'.sites = e.sites ∧ e'.global = e.global := by
  obtain ⟨_, _, _, _, rfl⟩ := h
  exact ⟨rfl, rfl⟩

theorem Parallels.limits_eq :
    ∃ recycle, e'.limits = { e.limits with recycleFrames := recycle } := by
  obtain ⟨_, recycle, _, _, rfl⟩ := h
  exact ⟨recycle, rfl⟩

theorem Parallels.maxPointerHops_eq : e'.limits.maxPointerHops = e.limits.maxPointerHops := by
  obtain ⟨recycle, hlim⟩ := h.limits_eq
  rw [hlim]

theorem Parallels.withStore {T : Store → Store → Prop} {x y : Store} (hxy : T x y) :
    (e.withStore x).Parallels T (e'.withStore y) := by
  obtain ⟨_, recycle, recycled, _, rfl⟩ := h
  exact ⟨y, recycle, recycled, hxy, rfl⟩

theorem Parallels.count
    (hf : ∀ c n, f { c with framesRecycled := n } = { f c with framesRecycled := n }) :
    (e.count f).Parallels S (e'.count f) := by
  obtain ⟨store, recycle, recycled, hsto, rfl⟩ := h
  refine ⟨store, recycle, recycled, hsto, ?_⟩
  rw [Engine.count, recast, hf]
  rfl

theorem Parallels.frame (again again' : Bool) :
    (e.count (·.frame again)).Parallels S (e'.count (·.frame again')) := by
  obtain ⟨store, recycle, recycled, hsto, rfl⟩ := h
  exact ⟨store, recycle, if again' then recycled + 1 else recycled, hsto, rfl⟩

theorem Parallels.push (size : Nat) (again again' : Bool) :
    (e.count (·.push size again)).Parallels S (e'.count (·.push size again')) := by
  obtain ⟨store, recycle, recycled, hsto, rfl⟩ := h
  exact ⟨store, recycle, if again' then recycled + 1 else recycled, hsto, rfl⟩

end

variable [Store.Faithful S]

theorem Parallels.siteTable (h : e.Parallels S e') (site : DefId) :
    (e'.siteTable site).1 = (e.siteTable site).1 ∧
      (e.siteTable site).2.Parallels S (e'.siteTable site).2 := by
  obtain ⟨store, recycle, recycled, hsto, rfl⟩ := h
  have hsites : ((e.withStore store).recast recycle recycled).sites = e.sites := rfl
  unfold Engine.siteTable
  rw [hsites]
  cases e.sites.get? site with
  | some table => exact ⟨rfl, store, recycle, recycled, hsto, rfl⟩
  | none =>
    obtain ⟨hid, hnew⟩ := Store.Faithful.newTable hsto
    have hid : (((e.withStore store).recast recycle recycled).store.newTable .empty).1 =
        (e.store.newTable .empty).1 := hid
    simp only [hid]
    exact ⟨trivial, _, recycle, recycled, hnew, rfl⟩

theorem Parallels.durableTable (h : e.Parallels S e') (d : Definition) :
    (e'.durableTable d).1 = (e.durableTable d).1 ∧
      (e.durableTable d).2.Parallels S (e'.durableTable d).2 := by
  unfold Engine.durableTable
  split
  · exact h.siteTable _
  · exact ⟨h.durable_eq.2, h⟩

end Engine

/-! ## 2. Faults -/

/-- The frame that a fault names. -/
def Fault.frame? : Fault → Option FrameId
  | .staleFrame id | .repushMismatch id => some id
  | _ => none

theorem Fault.Clean.frame?_eq_none {ns : Namespace} (h : fault.Clean ns) : fault.frame? = none := by
  cases fault with
  | staleFrame id => cases h.1
  | repushMismatch id => cases h.1
  | _ => rfl

/-- The same fault, of frames that stand for each other. -/
inductive Fault.Mirrors (ρ : Renaming) : Fault → Fault → Prop
  | staleFrame {a b : FrameId} : ρ.Pairs a b → Mirrors ρ (.staleFrame a) (.staleFrame b)
  | repushMismatch {a b : FrameId} :
      ρ.Pairs a b → Mirrors ρ (.repushMismatch a) (.repushMismatch b)
  | same {fault : Fault} : fault.frame? = none → Mirrors ρ fault fault

theorem Fault.Mirrors.mono (hsub : ρ ⊆ ρ') (h : fault.Mirrors ρ fault') :
    fault.Mirrors ρ' fault' := by
  cases h with
  | staleFrame hab => exact .staleFrame (hab.mono hsub)
  | repushMismatch hab => exact .repushMismatch (hab.mono hsub)
  | same h => exact .same h

theorem ExceptRel.imp_ok {R' : α → β → Prop} {x : Except ε α}
    {y : Except ε β} (h : ExceptRel E R x y) (hR : ∀ a b, x = .ok a → y = .ok b → R a b → R' a b) :
    ExceptRel E R' x y := by
  cases h with
  | error h => exact .error h
  | ok h => exact .ok (hR _ _ rfl rfl h)

theorem ExceptRel.bind {x : Except ε α} {y : Except ε β} {f : α → Except ε γ} {g : β → Except ε δ}
    (h : ExceptRel E R x y) (hfg : ∀ a b, R a b → ExceptRel E R' (f a) (g b)) :
    ExceptRel E R' (x >>= f) (y >>= g) := by
  cases h with
  | error h => exact .error h
  | ok h => exact hfg _ _ h

theorem ExceptRel.map
    {x : Except ε α} {y : Except ε β} {f : α → γ} {g : β → δ} (h : ExceptRel E R x y)
    (hfg : ∀ a b, R a b → R' (f a) (g b)) : ExceptRel E R' (x.map f) (y.map g) := by
  cases h with
  | error h => exact .error h
  | ok h => exact .ok (hfg _ _ h)

/-! ## 3. What stands for what -/

/-- The same frame, but that the one below goes by another id. -/
def Frame.Over (ids : FrameId → FrameId → Prop) (f g : Frame) : Prop :=
  ∃ previous, g = { f with previous } ∧ Option.Rel ids f.previous previous

/-- What stands for what in two sessions. -/
structure Mirroring where
  ids : FrameId → FrameId → Prop
  faults : Fault → Fault → Prop
  pools : Pool → Pool → Prop
  stores : Store → Store → Prop

namespace Mirroring

/-- Frames of two chains that stand for each other, with their ids. -/
def Entries (K : Mirroring) (x y : FrameId × Frame) : Prop :=
  K.ids x.1 y.1 ∧ x.2.Over K.ids y.2

/-- What is done to pools and stores on both sides keeps them paired, and faults that name no frame
    are paired with themselves. -/
class Lawful (K : Mirroring) : Prop where
  faithful : Store.Faithful K.stores
  same : ∀ {fault}, fault.frame? = none → K.faults fault fault
  stale : ∀ {a b}, K.ids a b → K.faults (.staleFrame a) (.staleFrame b)
  mismatch : ∀ {a b}, K.ids a b → K.faults (.repushMismatch a) (.repushMismatch b)
  oneToOne : ∀ {p q}, K.pools p q → ∀ {a b a' b'}, K.ids a b → K.ids a' b' → (a = a' ↔ b = b')
  frames : ∀ {p q}, K.pools p q → ∀ {a b}, K.ids a b →
    Option.Rel (Frame.Over K.ids) (p.get? a) (q.get? b)
  set : ∀ {p q}, K.pools p q → ∀ {a b f g f' g'}, K.ids a b → p.get? a = some f →
    q.get? b = some g → f'.Over K.ids g' → K.pools (p.set a f') (q.set b g')
  modify : ∀ {p q}, K.pools p q → ∀ {a b}, K.ids a b → ∀ {change}, Frame.Above change →
    K.pools (p.modify a change) (q.modify b change)
  unpin : ∀ {p q}, K.pools p q → ∀ {a b}, K.ids a b →
    (q.unpin b).1 = (p.unpin a).1 ∧ K.pools (p.unpin a).2 (q.unpin b).2

instance {K : Mirroring} [h : K.Lawful] : Store.Faithful K.stores := h.faithful

/-- Ids are renamed, and the stores are equal. -/
abbrev renamed (ρ : Renaming) : Mirroring where
  ids := ρ.Pairs
  faults := Fault.Mirrors ρ
  pools := Pool.Mirrors ρ
  stores := Eq

instance (ρ : Renaming) : (renamed ρ).Lawful where
  faithful := Store.faithful_eq
  same := .same
  stale := .staleFrame
  mismatch := .repushMismatch
  oneToOne h _ _ _ _ hab hab' := h.oneToOne hab hab'
  frames h _ _ hab := h.frames hab
  set h _ _ _ _ _ _ hab hf hg hnew := h.set hab hf hg hnew
  modify h _ _ hab _ hchange := h.modify hab hchange
  unpin h _ _ hab := h.unpin hab

variable [K.Lawful]

theorem refl_of {x : Except Fault α} (h : ∀ fault, x = .error fault → fault.frame? = none) :
    ExceptRel K.faults (· = ·) x x :=
  .refl x fun fault hx => Lawful.same (h fault hx)

theorem ofWalk {x : Except Dangling α} {y : Except Dangling β}
    (h : ExceptRel (· = ·) R x y) : ExceptRel K.faults R (Fault.ofWalk x) (Fault.ofWalk y) := by
  cases h with
  | ok h => exact .ok h
  | error h =>
    cases h
    exact .error (Lawful.same rfl)

theorem rel_iff {p q : Pool} (h : K.pools p q) {x y x' y' : Option FrameId}
    (hxy : Option.Rel K.ids x y) (hxy' : Option.Rel K.ids x' y') : x = x' ↔ y = y' := by
  cases hxy with
  | none => cases hxy' <;> simp
  | some hpair =>
    cases hxy' with
    | none => simp
    | some hpair' => simp [Lawful.oneToOne h hpair hpair']

end Mirroring

/-- A reading of frames that does not show what is below them. -/
def Frame.Blind {α : Type} (v : Frame → α) : Prop := ∀ f previous, v { f with previous } = v f

namespace Frame.Over

variable {f g : Frame} {x y : Option Frame}

theorem previous (h : f.Over ids g) : Option.Rel ids f.previous g.previous := by
  obtain ⟨_, rfl, hrel⟩ := h
  exact hrel

theorem read_eq (hv : Frame.Blind v) (h : f.Over ids g) : v g = v f := by
  obtain ⟨prev, rfl, _⟩ := h
  exact hv f prev

theorem map_eq (hv : Frame.Blind v) (h : Option.Rel (Frame.Over ids) x y) : y.map v = x.map v := by
  cases h with
  | none => rfl
  | some h => exact congrArg some (h.read_eq hv)

theorem bind_eq {v : Frame → Option α} (hv : Frame.Blind v)
    (h : Option.Rel (Frame.Over ids) x y) : y.bind v = x.bind v := by
  cases h with
  | none => rfl
  | some h => exact h.read_eq hv

end Frame.Over

/-! ## 4. Sessions -/

structure Family.Mirrors (K : Mirroring) (f g : Family) : Prop where
  root_eq : g.root = f.root
  clock_eq : g.clock = f.clock
  pool : K.pools f.pool g.pool

structure Stack.Mirrors (ids : FrameId → FrameId → Prop) (x y : Stack) : Prop where
  top : Option.Rel ids x.top y.top
  root : Option.Rel ids x.root y.root
  size_eq : y.size = x.size
  stash : List.Forall₂ ids x.stash y.stash

theorem Stack.Mirrors.mono {x y : Stack} (hsub : ρ ⊆ ρ') (h : x.Mirrors ρ.Pairs y) :
    x.Mirrors ρ'.Pairs y where
  top := Renaming.rel_mono hsub h.top
  root := Renaming.rel_mono hsub h.root
  size_eq := h.size_eq
  stash := h.stash.imp fun _ _ hpair => hpair.mono hsub

theorem Stack.mirrors_empty : Stack.Mirrors ids {} {} := ⟨.none, .none, rfl, .nil⟩

namespace Session

variable {s t : Session}

/-- The sessions are the same, but for what stands for each other, and for recycling. -/
structure Mirrors (K : Mirroring) (s t : Session) : Prop where
  engine : s.engine.Parallels K.stores t.engine
  family : s.family.Mirrors K t.family
  stack : s.stack.Mirrors K.ids t.stack

namespace Mirrors

section

variable (h : s.Mirrors K t)
include h

theorem ns_eq : t.ns = s.ns := h.engine.ns_eq

theorem store : K.stores s.store t.store := h.engine.store

theorem maxPointerHops_eq :
    t.limits.maxPointerHops = s.limits.maxPointerHops := h.engine.maxPointerHops_eq

theorem maxDepth_eq : t.limits.maxDepth = s.limits.maxDepth := by
  obtain ⟨recycle, hlim⟩ := h.engine.limits_eq
  rw [limits, hlim]
  rfl

theorem propagationLevels_eq : t.limits.propagationLevels = s.limits.propagationLevels := by
  obtain ⟨recycle, hlim⟩ := h.engine.limits_eq
  rw [limits, hlim]
  rfl

theorem withEngine {e e' : Engine} (he : e.Parallels K.stores e') :
    (s.withEngine e).Mirrors K (t.withEngine e') := ⟨he, h.family, h.stack⟩

theorem withPool {p q : Pool} (hpool : K.pools p q) : (s.withPool p).Mirrors K (t.withPool q) :=
  ⟨h.engine, ⟨h.family.root_eq, h.family.clock_eq, hpool⟩, h.stack⟩

theorem count (hf : ∀ c n, f { c with framesRecycled := n } = { f c with framesRecycled := n }) :
    (s.count f).Mirrors K (t.count f) := h.withEngine (h.engine.count hf)

end

/-! ### The top and the bottom -/

variable [K.Lawful]

section

variable (h : s.Mirrors K t)
include h

theorem frame_of {x y : Option FrameId} (hxy : Option.Rel K.ids x y) :
    Option.Rel (Frame.Over K.ids) (x.bind s.frame?) (y.bind t.frame?) := by
  cases hxy with
  | none => exact .none
  | some hab => exact Mirroring.Lawful.frames h.family.pool hab

theorem topFrame? : Option.Rel (Frame.Over K.ids) s.topFrame? t.topFrame? := h.frame_of h.stack.top

theorem rootFrame? :
    Option.Rel (Frame.Over K.ids) s.rootFrame? t.rootFrame? := h.frame_of h.stack.root

theorem topDefinition?_eq : t.topDefinition? = s.topDefinition? :=
  Frame.Over.map_eq (fun _ _ => rfl) h.topFrame?

theorem iteration?_eq : t.iteration? = s.iteration? :=
  Frame.Over.bind_eq (v := Frame.iteration) (fun _ _ => rfl) h.topFrame?

theorem marker_eq : t.marker = s.marker := by
  unfold marker
  rw [h.family.root_eq]
  rcases rel_cases h.topFrame? with ⟨hf, hg⟩ | ⟨f, g, hf, hg, prev, rfl, _⟩
  · rw [hf, hg]
  · rw [hf, hg]

theorem liveFrame {a b : FrameId} (hab : K.ids a b) :
    ExceptRel K.faults (Frame.Over K.ids) (s.liveFrame a) (t.liveFrame b) := by
  unfold Session.liveFrame frame?
  rcases rel_cases (Mirroring.Lawful.frames h.family.pool hab) with ⟨hf, hg⟩ | ⟨f, g, hf, hg, hfg⟩
  · rw [hf, hg]
    exact .error (Mirroring.Lawful.stale hab)
  · rw [hf, hg]
    exact .ok hfg

theorem topEntry : ExceptRel K.faults K.Entries s.top t.top := by
  have htop : ExceptRel K.faults K.ids s.topId t.topId := by
    unfold topId
    rcases rel_cases h.stack.top with ⟨hs, ht⟩ | ⟨a, b, hs, ht, hab⟩
    · rw [hs, ht]
      exact .error (Mirroring.Lawful.same rfl)
    · rw [hs, ht]
      exact .ok hab
  exact htop.bind fun _ _ hab => (h.liveFrame hab).bind fun _ _ hfg => .ok ⟨hab, hfg⟩

end

end Mirrors

/-! ## 5. Whole stacks -/

/-- The frames of the stacks stand for each other, too. -/
structure Reads (K : Mirroring) (s t : Session) : Prop extends Mirrors K s t where
  frames : List.Forall₂ K.Entries s.frames t.frames

theorem map_frames_eq (hv : Frame.Blind v) (h : List.Forall₂ K.Entries l l') :
    l'.map (fun entry => v entry.2) = l.map fun entry => v entry.2 := by
  induction h with
  | nil => rfl
  | cons hent _ ih => rw [map_cons, map_cons, ih, hent.2.read_eq hv]

theorem within_mirrors (levels : Option Nat) (h : List.Forall₂ K.Entries l l') :
    List.Forall₂ K.Entries (within levels l) (within levels l') := by
  cases levels with
  | none => exact h
  | some n => exact forall₂_take (n + 1) h

namespace Reads

theorem names_eq (h : s.Reads K t) : t.names = s.names := by
  unfold names
  rw [h.ns_eq]
  exact map_frames_eq (v := fun frame => s.ns.fullName frame.definition) (fun _ _ => rfl) h.frames

theorem describe_eq (h : s.Reads K t) (family : String) : t.describe family = s.describe family := by
  unfold describe
  rw [h.names_eq, h.stack.size_eq, h.stack.stash.length_eq]

theorem argumentFor_eq (h : s.Reads K t) (name : String) :
    t.argumentFor name = s.argumentFor name :=
  argumentFor_congr (congrArg Namespace.outline h.ns_eq)
    (h.frames.imp fun _ _ hent => (hent.2.read_eq (v := Frame.binding) fun _ _ => rfl).symm) name

variable [K.Lawful]

theorem keepTarget?_eq (h : s.Reads K t) (name : String) :
    t.keepTarget? name = s.keepTarget? name := by
  have hmap := map_frames_eq (v := fun frame => frame.keepPointer? s.store name)
    (fun _ _ => rfl) h.frames
  have hfd := congrArg (findSome? id) hmap
  rw [findSome?_map, findSome?_map] at hfd
  simp only [Function.id_comp] at hfd
  simp only [keepTarget?, Store.Faithful.keepPointer?_eq h.store, hfd]

theorem isKept_eq (h : s.Reads K t) (name : String) : t.isKept name = s.isKept name := by
  have hmap := map_frames_eq (v := fun frame => (frame.keepPointer? s.store name).isSome)
    (fun _ _ => rfl) (within_mirrors s.limits.propagationLevels h.frames)
  have hany := congrArg (any · id) hmap
  simp only [any_map, Function.id_comp] at hany
  simp only [isKept, h.propagationLevels_eq, Store.Faithful.keepPointer?_eq h.store]
  exact hany

end Reads

/-! ## 6. Twins -/

/-- The accounts of the family are in order, whatever its other stacks are. -/
def InOrder (s : Session) : Prop := ∃ rest, s.Sound s.limits rest

theorem Effect.inOrder {s' : Session} (h : Effect s s') (hs : s.InOrder) : s'.InOrder := by
  obtain ⟨rest, hsound⟩ := hs
  exact ⟨rest, h.kin.limits_eq ▸ h.sound hsound⟩

/-- Sessions that mirror each other under a renaming, each with its accounts in order. -/
structure Twins (ρ : Renaming) (s t : Session) : Prop extends Mirrors (.renamed ρ) s t where
  inOrder : s.InOrder
  inOrder' : t.InOrder

namespace Twins

variable (h : s.Twins ρ t)
include h

/-- **The frames of the stacks stand for each other.** -/
theorem reads : s.Reads (.renamed ρ) t := by
  obtain ⟨_, hs⟩ := h.inOrder
  obtain ⟨_, ht⟩ := h.inOrder'
  exact ⟨h.toMirrors,
    h.family.pool.chain hs.accounted.toBalanced ht.accounted.toBalanced h.stack.top⟩

theorem store_eq : t.store = s.store := h.store.symm

theorem resolve_eq (origin : DefId) (r : Request) (entry : Entry) (iteration : Option Nat) :
    t.resolve origin r entry iteration = s.resolve origin r entry iteration := by
  unfold resolve
  rw [h.store_eq, h.ns_eq, h.maxPointerHops_eq]

theorem durableCandidates_eq (r : Request) {f g : Frame}
    (hfg : f.Over ρ.Pairs g) : t.durableCandidates r g = s.durableCandidates r f := by
  obtain ⟨previous, rfl, _⟩ := hfg
  have htables : t.durableTables r { f with previous } = s.durableTables r f := by
    unfold durableTables
    rw [h.ns_eq, h.engine.durable_eq.1, h.engine.durable_eq.2]
  unfold durableCandidates
  rw [htables, h.store_eq]
  rfl

theorem find_eq (r : Request) {f g : Frame} (hf : s.topFrame? = some f)
    (hg : t.topFrame? = some g) (hfg : f.Over ρ.Pairs g) : t.find r = s.find r := by
  have hns : t.ns.outline = s.ns.outline := congrArg Namespace.outline h.ns_eq
  have hread : ∀ {f g : Frame}, f.Over ρ.Pairs g → g.definition = f.definition :=
    fun hfg => hfg.read_eq fun _ _ => rfl
  have hfrs := h.reads.frames.imp fun _ _ hent => hent.2
  refine find_congr hf hg (hread hfg) (rel_append ?_ ?_)
    (searchEnding_congr hns (hfrs.imp fun _ _ hfg => hread hfg))
  · rw [h.durableCandidates_eq r hfg]
    exact forall₂_same.mpr fun x _ => h.resolve_eq f.definition r x.1 x.2
  · rw [hread hfg]
    refine frameCandidates_congr hns hread (fun {f g} hfg => ?_) hfrs
    have hent : (entryIn t.store r.key g).map (·, g.iteration) =
        (entryIn s.store r.key f).map (·, f.iteration) := by
      rw [h.store_eq]
      exact hfg.read_eq (v := fun f => (entryIn s.store r.key f).map (·, f.iteration)) fun _ _ => rfl
    rw [hent]
    exact rel_agree (fun x => h.resolve_eq _ r x.1 x.2) _

end Twins

theorem find_names_no_frame {r : Request} {f : Frame} (hf : s.topFrame? = some f)
    (h : (s.find r).1 = .error fault) : fault.frame? = none := by
  obtain ⟨id, htop, hf⟩ := Option.bind_eq_some_iff.mp hf
  simp only [find, htop, liveFrame, hf] at h
  split at h
  · cases hending : (reached s.ns f.definition r s.frames).2 with
    | ok _ => simp [searchEnding, hending, Except.map, Fault.ofWalk] at h
    | error gap =>
      simp only [searchEnding, hending, Except.map, Fault.ofWalk, Except.error.injEq] at h
      rw [← h]
      rfl
  · have hclean : fault.Clean s.ns := search_fault _ h
    exact hclean.frame?_eq_none

/-- **A search has the same result, and follows as many pointers.** -/
theorem Twins.find (h : s.Twins ρ t) (r : Request) :
    ExceptRel (Fault.Mirrors ρ) (· = ·) (s.find r).1 (t.find r).1 ∧
      (t.find r).2 = (s.find r).2 := by
  rcases rel_cases h.topFrame? with ⟨hf, hg⟩ | ⟨f, g, hf, hg, hfg⟩
  · rw [find_of_no_top hf, find_of_no_top hg]
    rcases rel_cases h.stack.top with ⟨hs, ht⟩ | ⟨a, b, hs, ht, hab⟩
    · rw [hs, ht]
      exact ⟨.ok rfl, rfl⟩
    · rw [hs, ht]
      exact ⟨.error (.staleFrame hab), rfl⟩
  · rw [h.find_eq r hf hg hfg]
    exact ⟨Mirroring.refl_of (K := .renamed ρ) fun _ => find_names_no_frame hf, rfl⟩

end Session

end KeepTree
