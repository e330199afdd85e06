import KeepTree.Proofs.Evaluation.Untouched
import KeepTree.Proofs.Evaluation.Watched
import KeepTree.Proofs.Namespace.Uncached
import KeepTree.Proofs.Namespace.Words
import KeepTree.Proofs.Session.Searches

/-!
# Sessions that differ in what is cached

Of two sessions over one namespace the first keeps nothing that is computed and the second keeps
what the definitions say. They are alike if their stacks are, frame by frame, and if the slots of
their tables hold the same items of loops, the second session's apart from values that a ledger
lists for these slots:

* `Alike.push`, `Alike.unpush`, `Alike.startIteration`, `Alike.putValue`, `Alike.setIteration` --
  **what both do leaves them alike**;
* `Alike.find_some`, `Alike.find_none` -- **the second session finds what the first does, or a
  value that the ledger lists**.
-/

namespace KeepTree

open KeepTree.Frame DottedName Recur List Option

variable {ns : Namespace} {p : Pairing} {fu fc frame root : Frame} {ledger : List Answer}
  {id : DefId} {d : Definition} {tu tc cache : TableId} {slot : Location} {eu ec : Option Entry}
  {key : String} {holder : Holder} {store : Store} {value : Value} {call : Call}
  {definition inside : Option DefId}

/-! ## 1. Namespaces -/

/-- Nothing that is computed outlives the frames. -/
structure Namespace.Passing (ns : Namespace) : Prop where
  keeps : ∀ {id d}, ns.get? id = some d → d.keeps = []
  durability : ∀ {id d}, ns.get? id = some d → d.durability = .dynamic ∨ d.durability = .inContext

/-- Computes whether a namespace is passing. -/
def Namespace.isPassing (ns : Namespace) : Bool :=
  ns.definitions.all fun d =>
    d.keeps.isEmpty && (d.durability == .dynamic || d.durability == .inContext)

/-- No reference dangles, no name stands for a definition and for the item of a loop, and loops run
    in frames with a cache of their own. -/
structure Namespace.Orderly (ns : Namespace) : Prop where
  closed : ns.Closed
  apart : ns.Apart
  loops : ∀ {id d}, ns.get? id = some d → d.body.hasLoop = true →
    d.isSite = false ∧ d.kind.isIndirect = false

/-- Computes whether a namespace is orderly. -/
def Namespace.isOrderly (ns : Namespace) : Bool :=
  ns.isClosed &&
    (ns.words.all (!DottedName.isLoopKey ·) && ns.items.all fun item =>
      !DottedName.isLoopKey item && !ns.words.contains (DottedName.head item)) &&
    ns.definitions.all fun d => !d.body.hasLoop || (!d.isSite && !d.kind.isIndirect)

namespace Namespace

theorem passing_of_isPassing (h : ns.isPassing = true) : ns.Passing := by
  simp only [isPassing, Array.all_eq_true_iff_forall_mem, Bool.and_eq_true, Bool.or_eq_true,
    List.isEmpty_iff, beq_iff_eq] at h
  exact ⟨fun hd => (h _ (Array.mem_of_getElem? hd)).1, fun hd => (h _ (Array.mem_of_getElem? hd)).2⟩

theorem orderly_of_isOrderly (h : ns.isOrderly = true) : ns.Orderly := by
  simp only [isOrderly, Array.all_eq_true_iff_forall_mem, Bool.and_eq_true, Bool.or_eq_true,
    List.all_eq_true, Bool.not_eq_true', contains_eq_mem, decide_eq_false_iff_not] at h
  obtain ⟨⟨hcl, hwords, hitems⟩, hloops⟩ := h
  refine ⟨closed_of_isClosed hcl, ⟨hwords, fun item hitem => (hitems item hitem).1,
    fun item hitem => (hitems item hitem).2⟩, fun hd hloop => ?_⟩
  rcases hloops _ (Array.mem_of_getElem? hd) with hnone | hdir
  · rw [hloop] at hnone
    cases hnone
  · exact hdir

theorem Passing.isGlobal (h : ns.Passing) (hd : ns.get? id = some d) : d.isGlobal = false := by
  rw [Definition.isGlobal]
  rcases h.durability hd with e | e <;> rw [e] <;> rfl

theorem Passing.fleeting (h : ns.Passing) (ho : ns.Orderly) : ns.uncached.Fleeting where
  dynamic hd := by
    obtain ⟨original, _, rfl⟩ := get?_of_uncached hd
    rfl
  keeps hd := by
    obtain ⟨original, horiginal, rfl⟩ := get?_of_uncached hd
    exact (h.keeps horiginal :)
  loops hd hloop := by
    obtain ⟨original, horiginal, rfl⟩ := get?_of_uncached hd
    exact (ho.loops horiginal hloop :)

theorem Passing.uncached (h : ns.Passing) (ho : ns.Orderly) : ns.uncached.Passing where
  keeps hd := (h.fleeting ho).keeps hd
  durability hd := .inl ((h.fleeting ho).dynamic hd)

theorem caches_uncached (ns : Namespace) (id : DefId) : ns.uncached.caches id = false := by
  rw [caches, get?_uncached]
  cases ns.get? id <;> rfl

theorem Passing.globalKey (h : ns.Passing) (call : Call) (definition : Option DefId) :
    (request ns call definition).globalKey = none := by
  rw [request]
  cases hd : definition.bind ns.get? with
  | none => rfl
  | some d =>
    obtain ⟨id, _, hd⟩ := bind_eq_some_iff.mp hd
    simp only [bind_some, h.isGlobal hd, Bool.false_eq_true, if_false]

theorem Passing.request_uncached (h : ns.Passing) (ho : ns.Orderly) (call : Call)
    (definition : Option DefId) :
    request ns.uncached call definition = request ns call definition := by
  have hkey := ((h.uncached ho).globalKey call definition).trans (h.globalKey call definition).symm
  show Request.mk _ (request ns.uncached call definition).globalKey _ _ _ =
    Request.mk _ (request ns call definition).globalKey _ _ _
  rw [hkey]

end Namespace

/-! ## 2. Frames, slots and tables -/

/-- Which tables and which pushes of two sessions belong together. -/
structure Pairing where
  tables : TableId → TableId → Prop
  /-- The push of the first session for one of the second. -/
  states : Nat → Nat

namespace Pairing

/-- Two new frames belong together. -/
def grow (p : Pairing) (fu fc : Frame) : Pairing where
  tables tu tc := p.tables tu tc ∨ tu = fu.cache ∧ tc = fc.cache
  states state := if state = fc.state then fu.state else p.states state

theorem grow_tables (h : p.tables tu tc) : (p.grow fu fc).tables tu tc := .inl h

end Pairing

/-- Frames of one definition with the same arguments, in the same iteration. -/
structure Frame.Alike (p : Pairing) (fu fc : Frame) : Prop where
  definition_eq : fu.definition = fc.definition
  parameters_eq : fu.parameters = fc.parameters
  arguments_eq : fu.arguments = fc.arguments
  iteration_eq : fu.iteration = fc.iteration
  nextIteration_eq : fu.nextIteration = fc.nextIteration
  cache : p.tables fu.cache fc.cache
  state_eq : fu.state = p.states fc.state

namespace Frame

theorem Alike.bare (h : Alike p fu fc) : Alike p fu.bare fc.bare := { h with }

theorem Alike.of_bare (h : Alike p fu.bare fc.bare) : Alike p fu fc := { h with }

theorem Alike.slotKey_eq (h : Alike p fu fc) (key : String) : fu.slotKey key = fc.slotKey key := by
  rw [slotKey, slotKey, h.iteration_eq]

theorem Alike.grow (h : Alike p fu fc) {gu gc : Frame} (hne : fc.state ≠ gc.state) :
    Alike (p.grow gu gc) fu fc :=
  { h with
    cache := Pairing.grow_tables h.cache
    state_eq := h.state_eq.trans (if_neg hne).symm }

end Frame

/-- What a slot holds in the first session and in the second. -/
inductive Slot.Alike (ns : Namespace) (ledger : List Answer) (slot : Location) :
    Option Entry → Option Entry → Prop
  | empty : Slot.Alike ns ledger slot none none
  | item {value : Value} : stem slot.key ∈ ns.items →
      Slot.Alike ns ledger slot (some (.value value)) (some (.value value))
  | cached {holder : Holder} {value : Value} : stem slot.key ∉ ns.items →
      ns.caches holder.nominal = true → holder.data = some value →
      ⟨slot, holder.nominal, holder.nominalArguments, value⟩ ∈ ledger →
      Slot.Alike ns ledger slot none (some (.holder holder))

theorem Slot.Alike.eq_none (h : Slot.Alike ns ledger slot eu ec)
    (hkey : stem slot.key ∉ ns.items) : eu = none := by
  cases h with
  | empty => rfl
  | item hitem => exact absurd hitem hkey
  | cached => rfl

theorem Slot.Alike.ne_pointer (h : Slot.Alike ns ledger slot eu ec) (pointer : Pointer) :
    ec ≠ some (.pointer pointer) := by
  cases h <;> nofun

/-- The tables of two sessions, as far as they belong together. -/
structure Store.Alike (ns : Namespace) (ledger : List Answer) (tables : TableId → TableId → Prop)
    (u c : Store) : Prop where
  bound : ∀ {tu tc}, tables tu tc → tu < u.tables.size ∧ tc < c.tables.size
  unique : ∀ {tu tc tu' tc'}, tables tu tc → tables tu' tc' → (tu = tu' ↔ tc = tc')
  slots : ∀ {tu tc}, tables tu tc → ∀ key,
    Slot.Alike ns ledger ⟨tu, key⟩ (u.get? tu key) (c.get? tc key)
  keepless : u.Keepless
  keepless' : c.Keepless

namespace Store

variable {tables tables' : TableId → TableId → Prop} {u c u' c' : Store}

theorem Alike.weaken (h : Store.Alike ns ledger tables' u c)
    (hsub : ∀ {tu tc}, tables tu tc → tables' tu tc) : Store.Alike ns ledger tables u c where
  bound ht := h.bound (hsub ht)
  unique ht ht' := h.unique (hsub ht) (hsub ht')
  slots ht := h.slots (hsub ht)
  keepless := h.keepless
  keepless' := h.keepless'

section

variable (h : Store.Alike ns ledger tables u c)
include h

theorem Alike.of_table_eq
    (hu : u.tables.size ≤ u'.tables.size) (hc : c.tables.size ≤ c'.tables.size)
    (htu : ∀ {t}, t < u.tables.size → u'.table t = u.table t)
    (htc : ∀ {t}, t < c.tables.size → c'.table t = c.table t) (hk : u'.Keepless)
    (hk' : c'.Keepless) : Store.Alike ns ledger tables u' c' where
  bound ht := ⟨Nat.lt_of_lt_of_le (h.bound ht).1 hu, Nat.lt_of_lt_of_le (h.bound ht).2 hc⟩
  unique := h.unique
  slots ht key := by
    rw [get?, get?, htu (h.bound ht).1, htc (h.bound ht).2]
    exact h.slots ht key
  keepless := hk
  keepless' := hk'

theorem Alike.grow (hu : u.Grown u') (hc : c.Grown c')
    (hnew : tables tu tc ∨ (tu = u.tables.size ∧ tc = c.tables.size ∧
      tu < u'.tables.size ∧ tc < c'.tables.size)) :
    Store.Alike ns ledger (fun a b => tables a b ∨ a = tu ∧ b = tc) u' c' := by
  have hold := h.of_table_eq hu.size_le hc.size_le hu.table_eq hc.table_eq
    (hu.keepless h.keepless) (hc.keepless h.keepless')
  rcases hnew with hshared | ⟨rfl, rfl, hltu, hltc⟩
  · refine hold.weaken fun {a b} hab => ?_
    rcases hab with hab | ⟨rfl, rfl⟩
    · exact hab
    · exact hshared
  · refine ⟨?_, ?_, ?_, hold.keepless, hold.keepless'⟩
    · rintro a b (hab | ⟨rfl, rfl⟩)
      · exact hold.bound hab
      · exact ⟨hltu, hltc⟩
    · -- a table that was there before is not a new one
      rintro a b a' b' (hab | ⟨rfl, rfl⟩) (hab' | ⟨rfl, rfl⟩)
      · exact h.unique hab hab'
      · have hne := Nat.ne_of_lt (h.bound hab).1
        have hne' := Nat.ne_of_lt (h.bound hab).2
        exact ⟨fun e => absurd e hne, fun e => absurd e hne'⟩
      · have hne := Nat.ne_of_gt (h.bound hab').1
        have hne' := Nat.ne_of_gt (h.bound hab').2
        exact ⟨fun e => absurd e hne, fun e => absurd e hne'⟩
      · exact ⟨fun _ => rfl, fun _ => rfl⟩
    · rintro a b (hab | ⟨rfl, rfl⟩) key
      · exact hold.slots hab key
      · rw [get?, get?, hu.empty (Nat.le_refl _), hc.empty (Nat.le_refl _)]
        exact .empty

theorem Alike.write (ht : tables tu tc) (key : String)
    (entry : Entry) (hslot : Slot.Alike ns ledger ⟨tu, key⟩ (some entry) (some entry)) :
    Store.Alike ns ledger tables (u.write tu key entry) (c.write tc key entry) where
  bound hab := by simpa [Store.write] using h.bound hab
  unique := h.unique
  slots := fun {a b} hab other => by
    by_cases e : a = tu
    · obtain rfl := e
      obtain rfl := (h.unique hab ht).mp rfl
      by_cases ek : other = key
      · rw [ek, get?_write_self u (h.bound ht).1, get?_write_self c (h.bound ht).2]
        exact hslot
      · rw [get?_write_of_ne u (.inr ek), get?_write_of_ne c (.inr ek)]
        exact h.slots hab other
    · have e' : b ≠ tc := fun e' => e ((h.unique hab ht).mpr e')
      rw [get?_write_of_ne u (.inl e), get?_write_of_ne c (.inl e')]
      exact h.slots hab other
  keepless := h.keepless
  keepless' := h.keepless'

theorem Alike.write_right (ht : tables tu tc) (hkey : stem key ∉ ns.items)
    (hslot : Slot.Alike ns ledger ⟨tu, key⟩ none (some (.holder holder))) :
    Store.Alike ns ledger tables u (c.write tc key (.holder holder)) where
  bound hab := by simpa [Store.write] using h.bound hab
  unique := h.unique
  slots := fun {a b} hab other => by
    by_cases e : b = tc ∧ other = key
    · obtain ⟨rfl, rfl⟩ := e
      obtain rfl := (h.unique hab ht).mpr rfl
      -- the slot of a value is not that of an item, so the first session has nothing there
      rw [get?_write_self c (h.bound ht).2, (h.slots hab other).eq_none hkey]
      exact hslot
    · rw [get?_write_of_ne c (by rw [← not_and_or]; exact e)]
      exact h.slots hab other
  keepless := h.keepless
  keepless' := h.keepless'

end

end Store

/-! ## 3. Sessions -/

namespace Session

variable {s s' u c u' c' : Session} {rest : List Stack}

theorem Fit.length_view {α : Type} (hs : s.Fit ns rest) (v : Frame → α) :
    (s.view v).length = s.stack.size := by
  rw [hs.sound.size_eq s.stack mem_cons_self, view, Pool.view, length_map]
  rfl

theorem Fit.top_frame (hs : s.Fit ns rest) (hsize : 0 < s.stack.size) :
    ∃ id frame, s.stack.top = some id ∧ s.frame? id = some frame ∧ s.topFrame? = some frame := by
  cases htop : s.stack.top with
  | none =>
    have hzero := hs.length_view bare
    rw [view, htop, Pool.view_none] at hzero
    exact absurd hzero.symm (Nat.ne_of_gt hsize)
  | some id =>
    obtain ⟨frame, hf⟩ := hs.top_live id htop
    exact ⟨id, frame, rfl, hf, topFrame?_eq htop hf⟩

theorem Fit.size_pos (hs : s.Fit ns rest) (h : s.topFrame? = some frame) : 0 < s.stack.size := by
  obtain ⟨id, hid, hf⟩ := bind_eq_some_iff.mp h
  rw [← hs.length_view bare, view_cons hs.sound hid hf]
  exact Nat.succ_pos _

theorem Same.view_cons (hs : s.Fit ns rest) (hs' : s'.Fit ns rest) (h : s.Same unlooped s')
    (hsize : 0 < s.stack.size) (hfr : s'.topFrame? = some frame) :
    ∃ id, s'.view bare = (id, frame.bare) :: (s.view bare).tail := by
  obtain ⟨id, old, htop, hold, _⟩ := hs.top_frame hsize
  obtain ⟨new, hnew, hread, _⟩ := h.frames hold
  have htop' : s'.stack.top = some id := h.top_eq.trans htop
  cases hfr.symm.trans (topFrame?_eq htop' hnew)
  have hprev : frame.previous = old.previous := unlooped_plain.previous_eq hread
  refine ⟨id, ?_⟩
  rw [Session.view_cons hs'.sound htop' hnew, Session.view_cons hs.sound htop hold, tail_cons,
    hprev, h.below_eq hs hs' htop hold]

theorem Same.rootFrame? (h : s.Same unlooped s') (hsize : 0 < s.stack.size)
    (hroot : s.rootFrame? = some frame) :
    ∃ frame', s'.rootFrame? = some frame' ∧ frame'.cache = frame.cache := by
  obtain ⟨id, hid, hf⟩ := bind_eq_some_iff.mp hroot
  obtain ⟨frame', hf', hread, _⟩ := h.frames hf
  refine ⟨frame', ?_, (congrArg Frame.cache hread :)⟩
  rw [Session.rootFrame?, h.bottom_eq hid hsize]
  exact hf'

/-- The first session keeps nothing that is computed, the second keeps what the ledger lists; else
    they cannot be told apart. -/
structure Alike (ns : Namespace) (ledger : List Answer) (p : Pairing) (u c : Session) : Prop where
  fit : u.Fit ns.uncached []
  fit' : c.Fit ns []
  limits_eq : u.limits = c.limits
  store : Store.Alike ns ledger p.tables u.store c.store
  frames : List.Forall₂ (fun a b => Frame.Alike p a.2 b.2) (u.view bare) (c.view bare)
  root : 0 < u.stack.size → ∃ fu fc, u.rootFrame? = some fu ∧ c.rootFrame? = some fc ∧
    p.tables fu.cache fc.cache
  bottomless : u.stack.size = 0 → u.stack.root = none ∧ c.stack.root = none

section

variable (h : Alike ns ledger p u c)
include h

theorem Alike.size_eq : u.stack.size = c.stack.size := by
  rw [← h.fit.length_view bare, ← h.fit'.length_view bare]
  exact h.frames.length_eq

theorem Alike.top (hsize : 0 < u.stack.size) :
    ∃ fu fc, u.topFrame? = some fu ∧ c.topFrame? = some fc ∧ Frame.Alike p fu fc := by
  obtain ⟨idu, fu, htop, hfu, hfr⟩ := h.fit.top_frame hsize
  obtain ⟨idc, fc, htop', hfc, hfr'⟩ := h.fit'.top_frame (h.size_eq ▸ hsize)
  have hfrs := h.frames
  rw [view_cons h.fit.sound htop hfu, view_cons h.fit'.sound htop' hfc] at hfrs
  cases hfrs with
  | cons hal _ => exact ⟨fu, fc, hfr, hfr', hal.of_bare⟩

theorem Alike.topFrame? (hfu : u.topFrame? = some fu) :
    ∃ fc, c.topFrame? = some fc ∧ Frame.Alike p fu fc := by
  obtain ⟨fu', fc, hfu', hfc, hal⟩ := h.top (h.fit.size_pos hfu)
  cases hfu'.symm.trans hfu
  exact ⟨fc, hfc, hal⟩

theorem Alike.forall₂_frames :
    List.Forall₂ (fun a b => Frame.Alike p a.2 b.2) u.frames c.frames := by
  have hfrs := h.frames
  simp only [view, Pool.view, forall₂_map_left_iff, forall₂_map_right_iff] at hfrs
  exact hfrs.imp fun _ _ hal => hal.of_bare

theorem Alike.topDefinition?_eq : u.topDefinition? = c.topDefinition? := by
  by_cases hsize : 0 < u.stack.size
  · obtain ⟨fu, fc, hfu, hfc, hal⟩ := h.top hsize
    rw [topDefinition?, topDefinition?, hfu, hfc]
    exact congrArg some hal.definition_eq
  · have hu : u.topFrame? = none :=
      eq_none_iff_forall_ne_some.mpr fun _ hf => hsize (h.fit.size_pos hf)
    have hc : c.topFrame? = none :=
      eq_none_iff_forall_ne_some.mpr fun _ hf => hsize (h.size_eq ▸ h.fit'.size_pos hf)
    rw [topDefinition?, topDefinition?, hu, hc]

/-! ### What both do -/

/-- **Sessions in which the top frames alone have changed are alike** if these are, and the
    tables. -/
theorem Alike.retouch (hsize : 0 < u.stack.size) (hu : u.Same unlooped u') (hc : c.Same unlooped c')
    (hfit : u'.Fit ns.uncached []) (hfit' : c'.Fit ns [])
    (hsto : Store.Alike ns ledger p.tables u'.store c'.store) (hfu : u'.topFrame? = some fu)
    (hfc : c'.topFrame? = some fc) (htop : Frame.Alike p fu fc) : Alike ns ledger p u' c' where
  fit := hfit
  fit' := hfit'
  limits_eq := by rw [hu.limits_eq, hc.limits_eq, h.limits_eq]
  store := hsto
  frames := by
    obtain ⟨idu, hviewu⟩ := hu.view_cons h.fit hfit hsize hfu
    obtain ⟨idc, hviewc⟩ := hc.view_cons h.fit' hfit' (h.size_eq ▸ hsize) hfc
    have hfrs := h.frames
    rw [hviewu, hviewc]
    generalize u.view bare = framesu at hfrs
    generalize c.view bare = framesc at hfrs
    cases hfrs with
    | nil => exact .cons htop.bare .nil
    | cons _ hrest => exact .cons htop.bare hrest
  root _ := by
    obtain ⟨ru, rc, hru, hrc, hca⟩ := h.root hsize
    obtain ⟨ru', hru', ecu⟩ := hu.rootFrame? hsize hru
    obtain ⟨rc', hrc', ecc⟩ := hc.rootFrame? (h.size_eq ▸ hsize) hrc
    exact ⟨ru', rc', hru', hrc', by rw [ecu, ecc]; exact hca⟩
  bottomless hzero := absurd (hu.size_eq.symm.trans hzero) (Nat.ne_of_gt hsize)

/-- **Sessions that come back to what they were are alike** if their tables are. -/
theorem Alike.restore (hsize : 0 < u.stack.size) (hu : u.Same bare u') (hc : c.Same bare c')
    (hfit : u'.Fit ns.uncached []) (hfit' : c'.Fit ns [])
    (hsto : Store.Alike ns ledger p.tables u'.store c'.store) : Alike ns ledger p u' c' := by
  obtain ⟨fu, fc, hfu, hfc, hal⟩ := h.top hsize
  obtain ⟨fu', hfu', hbareu⟩ := hu.topFrame? hfu
  obtain ⟨fc', hfc', hbarec⟩ := hc.topFrame? hfc
  refine h.retouch hsize hu.unlooped_of_bare hc.unlooped_of_bare hfit hfit' hsto hfu' hfc' ?_
  refine Frame.Alike.of_bare ?_
  rw [hbareu, hbarec]
  exact hal.bare

end

theorem Fit.state_le (hs : s.Fit ns rest) : ∀ entry ∈ s.view bare,
    entry.2.state ≤ s.family.clock := by
  intro entry hmem
  obtain ⟨⟨id, frame⟩, hfr, rfl⟩ := List.mem_map.mp hmem
  exact hs.sound.recent id frame (Pool.get?_of_mem_chain hfr)

theorem forall₂_grow {framesu framesc : List (FrameId × Frame)}
    (h : List.Forall₂ (fun a b => Frame.Alike p a.2 b.2) framesu framesc)
    (hstates : ∀ entry ∈ framesc, entry.2.state < fc.state) :
    List.Forall₂ (fun a b => Frame.Alike (p.grow fu fc) a.2 b.2) framesu framesc := by
  induction h with
  | nil => exact .nil
  | cons hfst _ ih =>
    refine .cons (hfst.grow (Nat.ne_of_lt (hstates _ mem_cons_self))) (ih ?_)
    exact fun entry hmem => hstates entry (mem_cons_of_mem _ hmem)

theorem CacheFor.eq_root (h : s.CacheFor d store cache) (hroot : s.rootFrame? = some root)
    (hsite : d.isSite = true) : cache = root.cache := by
  cases h with
  | shared _ hfd => rw [Option.some.inj (hroot.symm.trans hfd)]
  | fresh hnone _ => rw [hnone hsite] at hroot; cases hroot

theorem CacheFor.eq_size (h : s.CacheFor d store cache)
    (hfresh : d.isSite = true → s.rootFrame? = none) :
    cache = s.store.tables.size ∧ s.store.tables.size < store.tables.size := by
  cases h with
  | shared hsite hfd => rw [hfresh hsite] at hfd; cases hfd
  | fresh _ hlt => exact ⟨rfl, hlt⟩

theorem Alike.caches (h : Alike ns ledger p u c) {store' : Store}
    (hu : u.CacheFor d.uncached store tu) (hc : c.CacheFor d store' tc) :
    p.tables tu tc ∨ (tu = u.store.tables.size ∧ tc = c.store.tables.size ∧
      tu < store.tables.size ∧ tc < store'.tables.size) := by
  have hfresh : (d.isSite = true → u.rootFrame? = none) → (d.isSite = true → c.rootFrame? = none) →
      tu = u.store.tables.size ∧ tc = c.store.tables.size ∧ tu < store.tables.size ∧
        tc < store'.tables.size := by
    intro hnu hnc
    obtain ⟨rfl, hltu⟩ := hu.eq_size hnu
    obtain ⟨rfl, hltc⟩ := hc.eq_size hnc
    exact ⟨rfl, rfl, hltu, hltc⟩
  by_cases hsize : 0 < u.stack.size
  · obtain ⟨ru, rc, hru, hrc, hca⟩ := h.root hsize
    cases hsite : d.isSite with
    | true =>
      rw [hu.eq_root hru hsite, hc.eq_root hrc hsite]
      exact .inl hca
    | false => exact .inr (hfresh (by simp [hsite]) (by simp [hsite]))
  · obtain ⟨hru, hrc⟩ := h.bottomless (Nat.eq_zero_of_not_pos hsize)
    refine .inr (hfresh (fun _ => ?_) fun _ => ?_)
    · rw [Session.rootFrame?, hru]; rfl
    · rw [Session.rootFrame?, hrc]; rfl

theorem enter_rootFrame? (hs : s.Fit ns rest) (frame : Frame) (engine : Engine) :
    (s.stack.root = none → (s.enter frame engine).rootFrame? = some frame) ∧
    ∀ root, s.rootFrame? = some root →
      ∃ root', (s.enter frame engine).rootFrame? = some root' ∧ root'.cache = root.cache := by
  obtain ⟨new, htop, _, hnew⟩ := enter_top hs.sound frame engine
  have hroot : (s.enter frame engine).stack.root =
      s.stack.root.or (s.enter frame engine).stack.top := rfl
  refine ⟨fun hnone => ?_, fun root h => ?_⟩
  · rw [rootFrame?, hroot, hnone, htop]
    exact hnew
  · obtain ⟨id, hid, hf⟩ := bind_eq_some_iff.mp h
    obtain ⟨root', hroot', _, hbare⟩ :=
      enter_within hs.sound frame engine bare_plain.ignoresCounts id root hf
    refine ⟨root', ?_, (congrArg Frame.cache hbare :)⟩
    rw [rootFrame?, hroot, hid]
    exact hroot'

/-- **What the first session pushes, the second does, too.** -/
theorem Alike.push (hp : ns.Passing) (ho : ns.Orderly) (h : Alike ns ledger p u c)
    {args : List Argument} {newCall : Bool} (hpush : u.push id args newCall = (.ok (), u')) :
    ∃ c' fu fc, c.push id args newCall = (.ok (), c') ∧ u'.topFrame? = some fu ∧
    c'.topFrame? = some fc ∧ Frame.Alike (p.grow fu fc) fu fc ∧
    Alike ns ledger (p.grow fu fc) u' c' ∧ 0 < u'.stack.size ∧
    c'.family.clock = c.family.clock + 1 ∧ fc.state = c.family.clock + 1 := by
  have hkeepsu : ∀ {id d}, u.ns.get? id = some d → d.keeps = [] := by
    rw [h.fit.ns_eq]
    exact (hp.fleeting ho).keeps
  have hkeepsc : ∀ {id d}, c.ns.get? id = some d → d.keeps = [] := by
    rw [h.fit'.ns_eq]
    exact hp.keeps
  obtain ⟨bound, du, fu, hu⟩ := push_pushed hkeepsu hpush
  -- both push the same definition
  have hcan := hu.canonical
  have hget := hu.get?
  rw [h.fit.ns_eq] at hcan hget
  rw [Namespace.canonical_congr ns.outline_uncached, h.topDefinition?_eq, h.limits_eq, ← h.fit'.ns_eq] at hcan
  obtain ⟨d, hd, rfl⟩ := Namespace.get?_of_uncached hget
  rw [← h.fit'.ns_eq] at hd
  have hdepth : c.stack.size < c.limits.maxDepth := by
    rw [← h.size_eq, ← h.limits_eq]
    exact hu.depth
  obtain ⟨c', hpush'⟩ := push_succeeds h.fit' hkeepsc hdepth hcan hd newCall
  obtain ⟨bound', d', fc, hc⟩ := push_pushed hkeepsc hpush'
  cases Except.ok.inj (hcan.symm.trans hc.canonical)
  cases hd.symm.trans hc.get?
  have heffectu := Effect.of_push hpush
  have heffectc := Effect.of_push hpush'
  have hsto : Store.Alike ns ledger (p.grow fu fc).tables u'.store c'.store :=
    h.store.grow hu.grown hc.grown (h.caches hu.cache hc.cache)
  have htop : Frame.Alike (p.grow fu fc) fu fc :=
    { definition_eq := hu.definition_eq.trans hc.definition_eq.symm
      parameters_eq := hu.parameters_eq.trans hc.parameters_eq.symm
      arguments_eq := hu.arguments_eq.trans hc.arguments_eq.symm
      iteration_eq := hu.fresh.iteration_eq.trans hc.fresh.iteration_eq.symm
      nextIteration_eq := hu.fresh.nextIteration_eq.trans hc.fresh.nextIteration_eq.symm
      cache := .inr ⟨rfl, rfl⟩
      state_eq := (if_pos rfl).symm }
  refine ⟨c', fu, fc, hpush', hu.topFrame? h.fit, hc.topFrame? h.fit', htop, ?_⟩
  have hlim : u'.limits = c'.limits := by
    rw [heffectu.kin.limits_eq, heffectc.kin.limits_eq, h.limits_eq]
  have hfit := heffectu.fit h.fit
  have hfit' := heffectc.fit h.fit'
  obtain ⟨engineu, _, _, rfl⟩ := hu.enter
  obtain ⟨enginec, _, _, rfl⟩ := hc.enter
  have hv := bare_plain.ignoresCounts
  obtain ⟨newu, _, _, hviewu, _⟩ := enter_view hv h.fit.sound hu.fresh hu.depth engineu
  obtain ⟨newc, _, _, hviewc, _⟩ := enter_view hv h.fit'.sound hc.fresh hc.depth enginec
  obtain ⟨hnoneu, hsomeu⟩ := enter_rootFrame? h.fit fu engineu
  obtain ⟨hnonec, hsomec⟩ := enter_rootFrame? h.fit' fc enginec
  refine ⟨⟨hfit, hfit', hlim, hsto, ?_, fun _ => ?_, nofun⟩, Nat.succ_pos _, rfl, hc.fresh.state_eq⟩
  · rw [hviewu, hviewc]
    refine .cons htop.bare (forall₂_grow h.frames fun entry hmem => ?_)
    rw [hc.fresh.state_eq]
    exact Nat.lt_succ_of_le (h.fit'.state_le entry hmem)
  · by_cases hsize : 0 < u.stack.size
    · obtain ⟨ru, rc, hru, hrc, hca⟩ := h.root hsize
      obtain ⟨ru', hru', ecu⟩ := hsomeu ru hru
      obtain ⟨rc', hrc', ecc⟩ := hsomec rc hrc
      exact ⟨ru', rc', hru', hrc', by rw [ecu, ecc]; exact .inl hca⟩
    · obtain ⟨hru, hrc⟩ := h.bottomless (Nat.eq_zero_of_not_pos hsize)
      exact ⟨fu, fc, hnoneu hru, hnonec hrc, .inr ⟨rfl, rfl⟩⟩

theorem steppedOut_rootFrame? {id : FrameId} (hroot : s.rootFrame? = some root) : ∃ root',
      (s.steppedOut id frame).rootFrame? = some root' ∧ root'.cache = root.cache := by
  obtain ⟨bottom, hbot, hf⟩ := bind_eq_some_iff.mp hroot
  obtain ⟨root', hroot', _, hbare⟩ :=
    pinBelow_within bare_plain.ignoresCounts s.family.pool frame bottom root hf
  refine ⟨root', ?_, (congrArg Frame.cache hbare :)⟩
  have hstack : (s.steppedOut id frame).stack.root = s.stack.root := rfl
  rw [rootFrame?, hstack, hbot]
  exact hroot'

/-- **Stepping out of frames that are alike leaves sessions alike**, above the bottom. -/
theorem Alike.unpush (h : Alike ns ledger p u c) (hsize : 1 < u.stack.size)
    (hu : u.unpush = .ok u') (hc : c.unpush = .ok c') : Alike ns ledger p u' c' := by
  have hfit := (Effect.unpush hu).fit h.fit
  have hfit' := (Effect.unpush hc).fit h.fit'
  obtain ⟨idu, fu, htopu, hfu, rfl⟩ := unpush_ok hu
  obtain ⟨idc, fc, htopc, hfc, rfl⟩ := unpush_ok hc
  have hv := bare_plain.ignoresCounts
  have hfrs := h.frames
  rw [steppedOut_view hv h.fit.sound htopu hfu, steppedOut_view hv h.fit'.sound htopc hfc] at hfrs
  refine ⟨hfit, hfit', h.limits_eq, h.store, ?_, fun _ => ?_, fun hzero => ?_⟩
  · cases hfrs with
    | cons _ hrest => exact hrest
  · obtain ⟨ru, rc, hru, hrc, hca⟩ := h.root (Nat.lt_trans Nat.zero_lt_one hsize)
    obtain ⟨ru', hru', ecu⟩ := steppedOut_rootFrame? hru
    obtain ⟨rc', hrc', ecc⟩ := steppedOut_rootFrame? hrc
    exact ⟨ru', rc', hru', hrc', by rw [ecu, ecc]; exact hca⟩
  · have hzero : u.stack.size - 1 = 0 := hzero
    omega

theorem set_topFrame? {id : FrameId} (htop : s.stack.top = some id) (hf : s.frame? id = some frame)
    (new : Frame) : (s.withPool (s.family.pool.set id new)).topFrame? = some new :=
  topFrame?_eq (s := s.withPool _) htop (Pool.get?_set_self hf new)

/-- **The next iteration starts in both.** -/
theorem Alike.startIteration (h : Alike ns ledger p u c) (hsize : 0 < u.stack.size) {index : Nat}
    (hu : u.startIteration = .ok (index, u')) :
    ∃ c', c.startIteration = .ok (index, c') ∧ Alike ns ledger p u' c' := by
  obtain ⟨fu, fc, hfu, hfc, hal⟩ := h.top hsize
  obtain ⟨hfit, hsame⟩ := (Discipline.restoring_lawful ns.uncached []).startIteration h.fit trivial hu
  obtain ⟨idu, fu', htopu, hfu', rfl, rfl⟩ := startIteration_effect hu
  obtain ⟨idc, htopc, hfc'⟩ := bind_eq_some_iff.mp hfc
  obtain rfl := Option.some.inj ((topFrame?_eq htopu hfu').symm.trans hfu)
  have hc : c.startIteration =
      .ok (fc.nextIteration, c.withPool (c.family.pool.set idc fc.startIteration.2)) := by
    rw [Session.startIteration, top_eq_ok.mpr ⟨htopc, hfc'⟩]
    rfl
  obtain ⟨hfit', hsame'⟩ := (Discipline.restoring_lawful ns []).startIteration h.fit' trivial hc
  refine ⟨_, hal.nextIteration_eq ▸ hc, ?_⟩
  refine h.retouch hsize hsame hsame' hfit hfit' h.store (set_topFrame? htopu hfu' _)
    (set_topFrame? htopc hfc' _) ?_
  exact
    { hal with
      iteration_eq := congrArg some hal.nextIteration_eq
      nextIteration_eq := congrArg (· + 1) hal.nextIteration_eq }

/-- **An item is bound in both.** -/
theorem Alike.putValue (ho : ns.Orderly) (h : Alike ns ledger p u c) (hsize : 0 < u.stack.size)
    (hkey : key ∈ ns.items) (hu : u.putValue key value = .ok u') :
    ∃ c', c.putValue key value = .ok c' ∧ Alike ns ledger p u' c' := by
  obtain ⟨fu, fc, hfu, hfc, hal⟩ := h.top hsize
  obtain ⟨hfit, hsame⟩ := (Discipline.restoring_lawful ns.uncached []).putValue h.fit trivial hu
  obtain ⟨idc, htopc, hfc'⟩ := bind_eq_some_iff.mp hfc
  have hc : c.putValue key value = .ok (c.withEngine (c.engine.withStore
      (c.store.write fc.cache (fc.slotKey key) (.value value)))) := by
    rw [Session.putValue, top_eq_ok.mpr ⟨htopc, hfc'⟩]
    rfl
  obtain ⟨hfit', hsame'⟩ := (Discipline.restoring_lawful ns []).putValue h.fit' trivial hc
  obtain ⟨fu', hfu', hsto⟩ := putValue_store hu
  obtain rfl := Option.some.inj (hfu'.symm.trans hfu)
  have htop : u'.topFrame? = some fu' := by
    obtain ⟨engine, _, rfl⟩ := putValue_effect hu
    exact hfu'
  refine ⟨_, hc, h.retouch hsize hsame hsame' hfit hfit' ?_ htop hfc hal⟩
  have hslot : Slot.Alike ns ledger ⟨fu'.cache, fc.slotKey key⟩ (some (.value value))
      (some (.value value)) := .item (ho.apart.stem_item hkey _)
  rw [hsto, hal.slotKey_eq key]
  exact h.store.write hal.cache _ _ hslot

theorem setIteration_same (s : Session) (iter : Option Nat) :
    s.Same unlooped (s.setIteration iter) := by
  rcases setIteration_cases s iter with h | ⟨id, frame, htop, hf, h⟩ <;> rw [h]
  · exact Same.refl _ s
  · exact (Same.refl unlooped s).set unlooped_plain htop hf hf rfl

theorem setIteration_topFrame? (h : s.topFrame? = some frame) (iteration : Option Nat) :
    (s.setIteration iteration).topFrame? = some { frame with iteration } := by
  obtain ⟨id, hid, hf⟩ := bind_eq_some_iff.mp h
  rw [setIteration_eq hid hf]
  exact set_topFrame? hid hf _

/-- **Both go to an iteration.** -/
theorem Alike.setIteration (h : Alike ns ledger p u c) (hsize : 0 < u.stack.size)
    (iteration : Option Nat) :
    Alike ns ledger p (u.setIteration iteration) (c.setIteration iteration) := by
  obtain ⟨fu, fc, hfu, hfc, hal⟩ := h.top hsize
  refine h.retouch hsize (setIteration_same u iteration) (setIteration_same c iteration)
    ((setIteration_effect u iteration).fit h.fit) ((setIteration_effect c iteration).fit h.fit') ?_
    (setIteration_topFrame? hfu iteration) (setIteration_topFrame? hfc iteration) ?_
  · rw [setIteration_store, setIteration_store]
    exact h.store
  · exact { hal with iteration_eq := rfl }

/-! ## 4. Searching -/

/-- **Names are bound to the same arguments.** -/
theorem Alike.argumentFor_eq (h : Alike ns ledger p u c) (name : String) :
    u.argumentFor name = c.argumentFor name := by
  refine (argumentFor_congr (by rw [h.fit.ns_eq, h.fit'.ns_eq, ns.outline_uncached])
    (h.forall₂_frames.imp fun _ _ hal => ?_) name).symm
  simp only [binding, hal.definition_eq, hal.parameters_eq, hal.arguments_eq]

theorem reached_alike (ns : Namespace) (origin : DefId) (r : Request)
    {framesu framesc : List (FrameId × Frame)}
    (h : List.Forall₂ (fun a b => Frame.Alike p a.2 b.2) framesu framesc) :
    List.Forall₂ (Frame.Alike p) (reached ns.uncached origin r framesu).1
      (reached ns origin r framesc).1 :=
  (reached_congr ns.outline_uncached.symm (fun hal => hal.definition_eq.symm) h).1

/-- The entries that frames have for a key. -/
def entriesIn (store : Store) (key : String) (frames : List Frame) : List (Entry × Option Nat) :=
  frames.filterMap fun frame => (entryIn store key frame).map (·, frame.iteration)

theorem entriesIn_cons_none (hk : store.Keepless)
    (h : store.get? frame.cache (frame.slotKey key) = none) (frames : List Frame) :
    entriesIn store key (frame :: frames) = entriesIn store key frames := by
  have hnone : entryIn store key frame = none := by
    simp [entryIn, cached?, keepPointer?, h, hk frame.keeps key]
  simp [entriesIn, hnone]

theorem entriesIn_cons_some {entry : Entry}
    (h : store.get? frame.cache (frame.slotKey key) = some entry) (frames : List Frame) :
    entriesIn store key (frame :: frames) =
      (entry, frame.iteration) :: entriesIn store key frames := by
  have hsome : entryIn store key frame = some entry := by simp [entryIn, cached?, h]
  simp [entriesIn, hsome]

theorem find_result (hs : s.Fit ns rest) (hcl : ns.Closed) (htop : s.topFrame? = some frame)
    {r : Request} (hr : r.globalKey = none) :
    (s.find r).1 = (s.search frame.definition r (entriesIn s.store r.key
      (reached ns frame.definition r s.frames).1)).1 := by
  have hcands : s.candidates r frame =
      entriesIn s.store r.key (reached ns frame.definition r s.frames).1 := by
    rw [candidates, durableCandidates, hr, ← hs.ns_eq]
    rfl
  have hending : s.searchEnding r frame.definition = .ok none := by
    rw [searchEnding, hs.ns_eq, reached_ok hcl frame.definition r s.frames hs.frames_held]
    rfl
  rw [find_of_top htop, hcands]
  split
  · rename_i hops hsearch
    rw [hending, hsearch]
  · rfl

/-- An answer that the second session may give where the first has none. -/
structure Served (ns : Namespace) (ledger : List Answer) (r : Request) (frames : List Frame)
    (answer : Answer) : Prop where
  mem : answer ∈ ledger
  slot : ∃ frame ∈ frames, answer.slot = ⟨frame.cache, frame.slotKey r.key⟩
  caches : ns.caches answer.definition = true
  fits : ∃ holder : Holder, r.matches? holder = true ∧ holder.nominal = answer.definition ∧
    holder.nominalArguments = answer.arguments

section

variable {framesu framesc : List Frame} (origin : DefId) (r : Request)
  (h : Store.Alike ns ledger p.tables u.store c.store)
  (hfrs : List.Forall₂ (Frame.Alike p) framesu framesc)
include h hfrs

theorem search_item (hkey : stem r.key ∈ ns.items) :
    (u.search origin r (entriesIn u.store r.key framesu)).1 =
      (c.search origin r (entriesIn c.store r.key framesc)).1 := by
  induction hfrs with
  | nil => rfl
  | @cons fu fc _ _ hfst _ ih =>
    have hslot := h.slots hfst.cache (fc.slotKey r.key)
    generalize hu : u.store.get? fu.cache (fc.slotKey r.key) = eu at hslot
    generalize hc : c.store.get? fc.cache (fc.slotKey r.key) = ec at hslot
    rw [← hfst.slotKey_eq] at hu
    cases hslot with
    | empty =>
      rw [entriesIn_cons_none h.keepless hu, entriesIn_cons_none h.keepless' hc]
      exact ih
    | item _ =>
      rw [entriesIn_cons_some hu, entriesIn_cons_some hc]
      rfl
    | cached hnot => exact absurd (stem_inLoop r.key fc.iteration ▸ hkey) hnot

/-- Slots under the key of a value hold nothing in the first session, and in the second what the
    ledger lists. -/
theorem search_value (hkey : stem r.key ∉ ns.items) :
    (u.search origin r (entriesIn u.store r.key framesu)).1 = .ok none ∧
      ((c.search origin r (entriesIn c.store r.key framesc)).1 = .ok none ∨
        ∃ answer, Served ns ledger r framesu answer ∧
          (c.search origin r (entriesIn c.store r.key framesc)).1 = .ok (some answer.value)) := by
  induction hfrs with
  | nil => exact ⟨rfl, .inl rfl⟩
  | @cons fu fc framesu framesc hfst _ ih =>
    have hstem : stem (fc.slotKey r.key) ∉ ns.items := (stem_inLoop r.key fc.iteration).symm ▸ hkey
    have hslot := h.slots hfst.cache (fc.slotKey r.key)
    have hu := hslot.eq_none hstem
    obtain ⟨ihu, ihc⟩ := ih
    have ihc : ∀ {result}, result = (c.search origin r (entriesIn c.store r.key framesc)).1 →
        result = .ok none ∨ ∃ answer, Served ns ledger r (fu :: framesu) answer ∧
          result = .ok (some answer.value) := by
      rintro _ rfl
      refine ihc.imp id ?_
      rintro ⟨answer, hserved, hres⟩
      obtain ⟨frame, hmem, hlocation⟩ := hserved.slot
      exact ⟨answer, { hserved with
        slot := ⟨frame, mem_cons_of_mem _ hmem, hlocation⟩ }, hres⟩
    generalize hc : c.store.get? fc.cache (fc.slotKey r.key) = ec at hslot
    rw [hu] at hslot
    rw [entriesIn_cons_none h.keepless (hfst.slotKey_eq r.key ▸ hu)]
    refine ⟨ihu, ?_⟩
    cases hslot with
    | empty =>
      rw [entriesIn_cons_none h.keepless' hc]
      exact ihc rfl
    | @cached holder value _ hcaches hdata hmem =>
      have hrsv : c.resolve origin r (.holder holder) fc.iteration =
          (.ok (if sees c.ns origin holder && r.matches? holder then holder.data else none), 0) := rfl
      rw [entriesIn_cons_some hc, search, hrsv]
      by_cases hserves : (sees c.ns origin holder && r.matches? holder) = true
      · rw [if_pos hserves, hdata]
        refine .inr ⟨_, ⟨hmem, ⟨fu, mem_cons_self, ?_⟩, hcaches, holder, ?_, rfl, rfl⟩, rfl⟩
        · rw [hfst.slotKey_eq]
        · exact (Bool.and_eq_true_iff.mp hserves).2
      · -- the holder is passed over
        rw [if_neg hserves]
        exact ihc rfl

end

/-- **The second session finds what the first does.** -/
theorem Alike.find_some (hp : ns.Passing) (ho : ns.Orderly) (h : Alike ns ledger p u c)
    (hsize : 0 < u.stack.size) (hu : (u.find (request ns call definition)).1 = .ok (some value)) :
    (c.find (request ns call definition)).1 = .ok (some value) := by
  obtain ⟨fu, fc, hfu, hfc, hal⟩ := h.top hsize
  have hr := hp.globalKey call definition
  rw [find_result h.fit (ho.closed.of_outline ns.outline_uncached) hfu hr, hal.definition_eq] at hu
  rw [find_result h.fit' ho.closed hfc hr]
  generalize request ns call definition = r at hu ⊢
  have hfrs := reached_alike ns fc.definition r h.forall₂_frames
  by_cases hkey : stem r.key ∈ ns.items
  · rw [← search_item fc.definition r h.store hfrs hkey]
    exact hu
  · rw [(search_value fc.definition r h.store hfrs hkey).1] at hu
    cases hu

/-- **Where the first session finds nothing, the second finds nothing or a value that the ledger
    lists.** -/
theorem Alike.find_none (hp : ns.Passing) (ho : ns.Orderly) (h : Alike ns ledger p u c)
    (hfu : u.topFrame? = some fu) (hid : ns.lookupFrom inside call.name = .ok (some id)) :
    (c.find (request ns call (some id))).1 = .ok none ∨
      ∃ answer ∈ ledger, (c.find (request ns call (some id))).1 = .ok (some answer.value) ∧
        answer.slot ∈ u.slotsFor call id fu ∧ answer.definition = id ∧
        sameArguments answer.arguments call.arguments = true ∧ ns.caches id = true := by
  obtain ⟨fc, hfc, hal⟩ := h.topFrame? hfu
  have hr := hp.globalKey call (some id)
  rw [find_result h.fit' ho.closed hfc hr]
  have hfrs := reached_alike ns fc.definition (request ns call (some id)) h.forall₂_frames
  have hkey : stem call.name ∉ ns.items := ho.apart.not_item hid none
  rcases (search_value fc.definition (request ns call (some id)) h.store hfrs hkey).2 with
    hnone | ⟨answer, hserved, hsome⟩
  · exact .inl hnone
  · obtain ⟨holder, hmatches, hnom, hargs⟩ := hserved.fits
    obtain ⟨hdef, hsame⟩ := Bool.and_eq_true_iff.mp hmatches
    have hdef : answer.definition = id := hnom.symm.trans (beq_iff_eq.mp hdef)
    refine .inr ⟨answer, hserved.mem, hsome, ?_, hdef, hargs ▸ hsame, hdef ▸ hserved.caches⟩
    obtain ⟨frame, hmem, hslot⟩ := hserved.slot
    rw [slotsFor, h.fit.ns_eq, hp.request_uncached ho, hal.definition_eq, hslot]
    exact List.mem_map.mpr ⟨frame, hmem, rfl⟩

/-! ## 5. Keeping -/

theorem isKept_eq_false (hk : s.store.Keepless) (name : String) : s.isKept name = false := by
  rw [isKept, List.any_eq_false]
  simp [keepPointer?, hk _ _]

theorem containerPointer_eq_none (hk : store.Keepless) (key : String)
    (reach : List (FrameId × Frame)) : containerPointer store key reach = none := by
  rw [containerPointer]
  cases splitHead? key with
  | none => rfl
  | some split =>
    obtain ⟨container, child⟩ := split
    simp only [bind, Option.bind]
    split
    · rfl
    · rename_i entry _
      simp only [keepPointer?, hk entry.2.keeps child]

/-- Where nothing is kept for frames, a value goes to the top frame and nowhere else. -/
theorem put_eq (hs : s.Fit ns rest) (hcl : ns.Closed) (hk : s.store.Keepless)
    (hfr : s.topFrame? = some frame)
    (hslot : ∀ pointer, s.store.get? frame.cache (frame.slotKey key) ≠ some (.pointer pointer))
    (hd : ns.get? holder.nominal = some d) (hglob : d.isGlobal = false) :
    s.put key holder = (.ok ⟨frame.cache, frame.slotKey key⟩, s.withEngine (s.engine.withStore
      (s.store.write frame.cache (frame.slotKey key) (.holder holder)))) := by
  obtain ⟨top, htop, hf⟩ := bind_eq_some_iff.mp hfr
  have hfind : s.ns.find holder.nominal = .ok d := by rw [hs.ns_eq, Namespace.find, hd]
  have hput : putInFrame s.store s.limits.maxPointerHops frame key (.holder holder) =
      .ok (⟨frame.cache, frame.slotKey key⟩,
        s.store.write frame.cache (frame.slotKey key) (.holder holder)) := by
    unfold putInFrame
    rw [keepPointer?, hk]
    simp only
    split
    · rename_i pointer hptr
      exact absurd hptr (hslot pointer)
    · rfl
  have hkept : (s.store.write frame.cache (frame.slotKey key) (.holder holder)).Keepless := hk
  have howner : ∀ {e : Engine}, e.ns = ns → e.store.Keepless → ∀ written, passOnToOwner e written
      (.holder holder) d top (within s.limits.propagationLevels s.frames) = .ok e := by
    rintro e rfl hkeepless written
    obtain ⟨found, hfd⟩ := ownerFrame_ok hcl d
      fun entry (hmem : entry ∈ within s.limits.propagationLevels s.frames) =>
        hs.frames_held entry (mem_of_mem_within hmem)
    have hptr : found.bind (ownerPointer e.store d top) = none := by
      cases found with
      | none => rfl
      | some owner => simp [ownerPointer, keepPointer?, hkeepless owner.2.keeps d.name]
    rw [passOnToOwner, hfd]
    simp only [hptr]
    rfl
  unfold put putWithin
  simp only [top_eq_ok.mpr ⟨htop, hf⟩, hfind, hput, putDurable, hglob, Bool.false_and,
    Bool.false_eq_true, if_false]
  have hpass := @howner (s.engine.withStore
    (s.store.write frame.cache (frame.slotKey key) (.holder holder))) hs.ns_eq hkept
  simp only [hpass]
  have hcontainer := containerPointer_eq_none hkept key (within s.limits.propagationLevels s.frames)
  simp only [Engine.withStore, hcontainer]
  rfl

/-- **The second session may keep a value that the ledger lists.** -/
theorem Alike.put (hp : ns.Passing) (ho : ns.Orderly) (h : Alike ns ledger p u c)
    (hfu : u.topFrame? = some fu) (hid : ns.lookupFrom inside call.name = .ok (some id))
    (hcaches : ns.caches id = true)
    (hledger : ⟨⟨fu.cache, fu.slotKey call.name⟩, id, call.arguments, value⟩ ∈ ledger)
    (hnom : holder.nominal = id) (hargs : holder.nominalArguments = call.arguments)
    (hdata : holder.data = some value) :
    ∃ loc c', c.put call.name holder = (.ok loc, c') ∧ Alike ns ledger p u c' := by
  obtain ⟨fc, hfc, hal⟩ := h.topFrame? hfu
  obtain ⟨d, hd⟩ : ∃ d, ns.get? holder.nominal = some d := by
    rw [hnom]
    cases hd : ns.get? id with
    | some d => exact ⟨d, rfl⟩
    | none => simp [Namespace.caches, hd] at hcaches
  have hslot := h.store.slots hal.cache (fc.slotKey call.name)
  have hput := put_eq h.fit' ho.closed h.store.keepless' hfc hslot.ne_pointer hd (hp.isGlobal hd)
  have hstd := (Engine.Steady.refl c.engine).withStore
    (c.store.write fc.cache (fc.slotKey call.name) (.holder holder))
  refine ⟨_, _, hput, h.restore (h.fit.size_pos hfu) (Same.refl _ u) (same_of_quiet hstd _) h.fit
    ((Effect.quiet hstd).fit h.fit') ?_⟩
  have hkey : stem (fc.slotKey call.name) ∉ ns.items := ho.apart.not_item hid fc.iteration
  refine h.store.write_right hal.cache hkey (.cached hkey (hnom ▸ hcaches) hdata ?_)
  rw [hnom, hargs, ← hal.slotKey_eq]
  exact hledger

end Session

end KeepTree
