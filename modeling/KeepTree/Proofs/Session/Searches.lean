import KeepTree.Proofs.Evaluation.Restoring
import KeepTree.Proofs.Namespace.Outlines
import Mathlib.Data.List.Forall2

/-!
# Searches that find the same

A search tries entries in a fixed order. Two sessions find the same if the entries that they try come
to the same, one by one; where the entries stand, and what else the sessions hold, does not matter:

* `search_congr`, `reached_congr`, `find_congr` -- **searches that agree find the same**;
* `Session.find_masks`, `Session.lookup_masked` -- **a search from outside the owner does not depend on
  such data**, if the definition is for its owner only.
-/

namespace KeepTree

variable {s : Session} {origin d : DefId} {r : Request} {store : Store} {R : Frame → Frame → Prop}
  {ns ns' : Namespace} {fs gs : List (FrameId × Frame)} {h : Holder}

/-! ## 1. Searches that agree -/

theorem rel_cases {α β : Type} {R : α → β → Prop} {x : Option α} {y : Option β}
    (h : Option.Rel R x y) : x = none ∧ y = none ∨ ∃ a b, x = some a ∧ y = some b ∧ R a b := by
  cases h with
  | none => exact .inl ⟨rfl, rfl⟩
  | some h => exact .inr ⟨_, _, rfl, rfl, h⟩

/-- What a frame lends: its definition, and what its parameters stand for. -/
def Frame.binding (f : Frame) : DefId × List String × List Argument :=
  (f.definition, f.parameters, f.arguments)

namespace Session

/-- An entry to try in `s` and one to try in `t` come to the same, by equally many hops. -/
def Agree (s t : Session) (origin : DefId) (r : Request) (x y : Entry × Option Nat) : Prop :=
  t.resolve origin r y.1 y.2 = s.resolve origin r x.1 x.2

variable {t : Session}

theorem rel_agree (h : ∀ x, Agree s t origin r x x) (x : Option (Entry × Option Nat)) :
    Option.Rel (Agree s t origin r) x x := by
  cases x with
  | none => exact .none
  | some x => exact .some (h x)

theorem search_congr {xs ys : List (Entry × Option Nat)}
    (h : List.Forall₂ (Agree s t origin r) xs ys) :
    t.search origin r ys = s.search origin r xs := by
  induction h with
  | nil => rfl
  | @cons x y xs ys hxy _ ih =>
    obtain ⟨entry, iteration⟩ := x
    obtain ⟨entry', iteration'⟩ := y
    have hrsv : t.resolve origin r entry' iteration' = s.resolve origin r entry iteration := hxy
    rw [search, search, hrsv, ih]

theorem reached_congr (hns : ns'.outline = ns.outline)
    (hR : ∀ {f g}, R f g → g.definition = f.definition)
    (h : List.Forall₂ (fun x y => R x.2 y.2) fs gs) :
    List.Forall₂ R (reached ns origin r fs).1 (reached ns' origin r gs).1 ∧
      (reached ns' origin r gs).2 = (reached ns origin r fs).2 := by
  induction h with
  | nil => exact ⟨.nil, rfl⟩
  | @cons x y _ _ hxy _ ih =>
    have hends : endsAt ns' origin r y.2 = endsAt ns origin r x.2 := by
      simp only [endsAt, hR hxy, Namespace.hasChild_congr hns, Namespace.isWithin_congr hns]
    unfold reached
    rw [hends]
    split
    · exact ⟨.cons hxy .nil, rfl⟩
    · exact ⟨.cons hxy .nil, rfl⟩
    · exact ⟨.cons hxy ih.1, ih.2⟩

/-- The frames that are reached give entries that agree, one by one. -/
theorem frameCandidates_congr (hns : t.ns.outline = s.ns.outline)
    (hdef : ∀ {f g}, R f g → g.definition = f.definition)
    (hent : ∀ {f g}, R f g → Option.Rel (Agree s t origin r)
      ((entryIn s.store r.key f).map (·, f.iteration))
      ((entryIn t.store r.key g).map (·, g.iteration)))
    (hfrs : List.Forall₂ (fun x y => R x.2 y.2) s.frames t.frames) :
    List.Forall₂ (Agree s t origin r) (s.frameCandidates r origin) (t.frameCandidates r origin) :=
  List.rel_filterMap (fun _ _ hfg => hent hfg) (reached_congr hns hdef hfrs).1

theorem searchEnding_congr (hns : t.ns.outline = s.ns.outline)
    (hfrs : List.Forall₂ (fun x y => y.2.definition = x.2.definition) s.frames t.frames) :
    t.searchEnding r origin = s.searchEnding r origin := by
  rw [searchEnding, searchEnding,
    (reached_congr (R := fun f g => g.definition = f.definition) hns id hfrs).2]

/-- **Searches that agree find the same**, and follow as many pointers. -/
theorem find_congr {f g : Frame} (hf : s.topFrame? = some f) (hg : t.topFrame? = some g)
    (hdef : g.definition = f.definition)
    (hcands : List.Forall₂ (Agree s t f.definition r) (s.candidates r f) (t.candidates r g))
    (hending : t.searchEnding r f.definition = s.searchEnding r f.definition) :
    t.find r = s.find r := by
  rw [find_of_top hf, find_of_top hg, hdef, hending, search_congr hcands]

theorem enclosing_congr (hns : ns'.outline = ns.outline)
    (hR : ∀ {f g}, R f g → g.definition = f.definition)
    (h : List.Forall₂ (fun x y => R x.2 y.2) fs gs) :
    List.Forall₂ R (enclosing ns fs) (enclosing ns' gs) := by
  induction h with
  | nil => exact .nil
  | cons hfst hrest ih =>
    cases hrest with
    | nil => exact .cons hfst .nil
    | cons hbel _ =>
      rw [enclosing, enclosing, Namespace.isWithin_congr hns, hR hfst, hR hbel]
      split
      · exact .cons hfst ih
      · exact .cons hfst .nil

/-- **Names are bound to the same arguments** on stacks whose frames have the same, one by one. -/
theorem argumentFor_congr (hns : t.ns.outline = s.ns.outline)
    (hfrs : List.Forall₂ (fun x y => x.2.binding = y.2.binding) s.frames t.frames)
    (name : String) : t.argumentFor name = s.argumentFor name := by
  have hR : ∀ {f g : Frame}, f.binding = g.binding → g.definition = f.definition ∧
      g.parameters = f.parameters ∧ g.arguments = f.arguments := fun h => by
    simpa only [Frame.binding, Prod.mk.injEq] using h.symm
  have hbind : ∀ {fs gs : List Frame}, List.Forall₂ (fun f g => f.binding = g.binding) fs gs →
      ∀ depth, bindingIn name depth gs = bindingIn name depth fs := by
    intro fs gs h
    induction h with
    | nil => exact fun _ => rfl
    | cons hfg _ ih =>
      obtain ⟨hdef, hpars, hargs⟩ := hR hfg
      intro depth
      simp only [bindingIn, Frame.parameterIndex?, hdef, hpars, hargs, ih]
  exact hbind (enclosing_congr (R := fun f g => f.binding = g.binding) hns (fun h => (hR h).1)
    hfrs) 0

end Session

/-! ## 2. Data that is masked -/

/-- The entries are equal, or they hold values of the definition `d` that differ in their data. -/
inductive Entry.Masks (d : DefId) : Entry → Entry → Prop
  | same (entry : Entry) : Masks d entry entry
  | data {h : Holder} (data : Option Value) : h.nominal = d → Masks d (.holder h) (.holder { h with data })

namespace Store

/-- Equal but for the data of values of the definition `d`, in any table. -/
structure Masks (d : DefId) (store store' : Store) : Prop where
  pointer?_eq : ∀ k name, store'.pointer? k name = store.pointer? k name
  slot : ∀ table key, Option.Rel (Entry.Masks d) (store.get? table key) (store'.get? table key)

variable {store' : Store}

theorem masks_write {table : TableId} {key : String}
    (hslot : store.get? table key = some (.holder h)) (hnom : h.nominal = d)
    (data : Option Value) : store.Masks d (store.write table key (.holder { h with data })) where
  pointer?_eq _ _ := rfl
  slot other otherKey := by
    by_cases hhere : other = table ∧ otherKey = key
    · obtain ⟨rfl, rfl⟩ := hhere
      have hlt : other < store.tables.size := by
        refine Nat.lt_of_not_le fun hle => ?_
        simp [get?, Store.table, Array.getElem?_eq_none hle] at hslot
      rw [get?_write_self store hlt, hslot]
      exact .some (.data data hnom)
    · rw [get?_write_of_ne store (Decidable.not_and_iff_or_not.mp hhere)]
      cases store.get? other otherKey with
      | none => exact .none
      | some entry => exact .some (.same entry)

theorem chase_congr (h : ∀ l p, store'.at? l = some (.pointer p) ↔ store.at? l = some (.pointer p))
    (iter : Option Nat) (limit : Nat) (p : Pointer) :
    store'.chase iter limit p = store.chase iter limit p := by
  induction limit generalizing p with
  | zero => rfl
  | succ limit ih =>
    rw [chase, chase]
    split
    · rename_i next hnext
      rw [(h _ next).mp hnext]
      simp only [ih]
    · rename_i hnone
      split
      · rename_i next hnext
        exact absurd ((h _ next).mpr hnext) (hnone next)
      · rfl

namespace Masks

theorem at_pointer (h : store.Masks d store') (l : Location) (p : Pointer) :
    store'.at? l = some (.pointer p) ↔ store.at? l = some (.pointer p) := by
  unfold Store.at?
  rcases rel_cases (h.slot l.table l.key) with ⟨hx, hy⟩ | ⟨_, _, hx, hy, hent⟩
  · rw [hx, hy]
  · rw [hx, hy]
    cases hent with
    | same => exact Iff.rfl
    | data data hnom => simp

theorem follow_masks (h : store.Masks d store') (iter : Option Nat) (limit : Nat) (p : Pointer) :
    (∃ next, store.follow iter limit p = .error next ∧ store'.follow iter limit p = .error next) ∨
    ∃ x y hops, store.follow iter limit p = .ok (x, hops) ∧
    store'.follow iter limit p = .ok (y, hops) ∧ Option.Rel (Entry.Masks d) x y := by
  unfold follow
  rw [chase_congr h.at_pointer]
  cases store.chase iter limit p with
  | error next => exact .inl ⟨next, rfl, rfl⟩
  | ok found => exact .inr ⟨_, _, found.2, rfl, rfl, h.slot _ _⟩

theorem entryIn_masks (h : store.Masks d store') (key : String) (frame : Frame) :
    Option.Rel (Entry.Masks d) (Session.entryIn store key frame)
      (Session.entryIn store' key frame) := by
  have hslot := h.slot frame.cache (frame.slotKey key)
  unfold Session.entryIn Frame.cached? Frame.keepPointer?
  rw [h.pointer?_eq]
  generalize store.get? frame.cache (frame.slotKey key) = x at hslot
  generalize store'.get? frame.cache (frame.slotKey key) = y at hslot
  cases hslot with
  | some hent => exact .some hent
  | none =>
    cases store.pointer? frame.keeps key with
    | none => exact .none
    | some p => exact .some (.same (.pointer p))

end Masks

end Store

namespace Session

variable {s : Session} {store : Store} {d : DefId} {definition : Definition} {owner origin : DefId}
  {r : Request}

/-- The session over another store. -/
def withStore (s : Session) (store : Store) : Session := s.withEngine (s.engine.withStore store)

@[simp] theorem store_withStore : (s.withStore store).store = store := rfl
@[simp] theorem ns_withStore : (s.withStore store).ns = s.ns := rfl
@[simp] theorem limits_withStore : (s.withStore store).limits = s.limits := rfl

theorem sees_eq_false (hd : ns.get? d = some definition) (haccess : definition.access = .ownerOnly)
    (howner : definition.owner = some owner) (houtside : ns.isWithin origin owner = false)
    (hnom : h.nominal = d) : sees ns origin h = false := by
  simp [sees, hnom, hd, haccess, howner, houtside]

theorem yields_masks (hunseen : ∀ {h : Holder}, h.nominal = d → sees ns origin h = false)
    {entry entry' : Entry} (hent : entry.Masks d entry') :
    yields ns origin r entry' = yields ns origin r entry := by
  cases hent with
  | same => rfl
  | @data h data hnom =>
    have hmasked : sees ns origin { h with data } = false := hunseen hnom
    simp [yields, hmasked, hunseen hnom]

section

variable (hmasks : s.store.Masks d store) (hunseen : ∀ {h : Holder}, h.nominal = d → sees s.ns
  origin h = false)
include hmasks hunseen

theorem resolve_masks {entry entry' : Entry}
    (hent : entry.Masks d entry') (iteration : Option Nat) :
    (s.withStore store).resolve origin r entry' iteration = s.resolve origin r entry iteration := by
  cases hent with
  | data data hnom =>
    have hyields := yields_masks (r := r) hunseen (.data data hnom)
    exact congrArg (fun found => (Except.ok found, 0)) hyields
  | same =>
    unfold resolve
    split
    · rename_i p
      rw [store_withStore, limits_withStore]
      rcases hmasks.follow_masks iteration s.limits.maxPointerHops p with
        ⟨next, hfollow, hfollow'⟩ | ⟨x, y, hops, hfollow, hfollow', hfd⟩
      · rw [hfollow, hfollow']
      · rw [hfollow, hfollow']
        cases hfd with
        | none => rfl
        | some hfd => exact congrArg (Except.ok ·, hops) (yields_masks hunseen hfd)
    · rfl

theorem agree_masks {x y : Option Entry}
    (hent : Option.Rel (Entry.Masks d) x y) (iter : Option Nat) :
    Option.Rel (Agree s (s.withStore store) origin r) (x.map (·, iter)) (y.map (·, iter)) := by
  cases hent with
  | none => exact .none
  | some hent => exact .some (resolve_masks hmasks hunseen hent iter)

end

/-- **A search from where the values are not seen does not depend on masked data.** -/
theorem find_masks (hmasks : s.store.Masks d store)
    (hunseen : ∀ {origin}, s.topDefinition? = some origin →
      ∀ {h : Holder}, h.nominal = d → sees s.ns origin h = false) (r : Request) :
    (s.withStore store).find r = s.find r := by
  cases hfr : s.topFrame? with
  | none => exact (find_of_no_top (s := s.withStore store) hfr).trans (find_of_no_top hfr).symm
  | some frame =>
    have hhere := fun {h} => hunseen (congrArg (Option.map Frame.definition) hfr) (h := h)
    have hfrs : List.Forall₂ (fun x y => x.2 = y.2) s.frames (s.withStore store).frames :=
      List.forall₂_same.mpr fun _ _ => rfl
    refine find_congr hfr hfr rfl (List.rel_append ?_ ?_)
      (searchEnding_congr rfl (hfrs.imp fun _ _ h => h ▸ rfl))
    · unfold durableCandidates
      split
      · exact .nil
      · rename_i key _
        refine List.rel_filterMap (R := Eq) (fun table _ h => ?_) (List.forall₂_refl _)
        subst h
        exact agree_masks hmasks hhere (hmasks.slot table (frame.slotKey key)) frame.iteration
    · refine frameCandidates_congr (R := Eq) rfl (fun h => h ▸ rfl) (fun {f g} h => ?_) hfrs
      subst h
      exact agree_masks hmasks hhere (hmasks.entryIn_masks r.key f) f.iteration

theorem prepare_counters (s : Session) (r : Request) : (s.prepare r).counters = s.engine.counters := by
  have hsite : ∀ site, (s.engine.siteTable site).2.counters = s.engine.counters := by
    intro site
    unfold Engine.siteTable
    split
    · rfl
    · rfl
  unfold prepare Engine.durableTable
  split
  · split
    · split
      · exact hsite _
      · rfl
    · rfl
  · rfl

theorem lookup_counters (s : Session) (r : Request) : (s.lookup r).2.engine.counters =
    match s.find r with
    | (.ok found, hops) => (s.engine.counters.hops hops).lookup found.isSome
    | (.error _, hops) => s.engine.counters.hops hops := by
  unfold lookup
  rw [← prepare_counters s r]
  cases s.find r with
  | mk result hops => cases result <;> rfl

/-- **From outside its owner nothing is seen of a value for the owner only.** Let a definition be for
    its owner only, and let the definition on top not lie within the owner. Then no lookup tells what
    the values of the definition are, in whichever tables they stand and however one comes to them:
    with other data in their place it has the same result, and counts the same. -/
theorem lookup_masked (hd : s.ns.get? d = some definition) (haccess : definition.access = .ownerOnly)
    (howner : definition.owner = some owner)
    (houtside : ∀ origin, s.topDefinition? = some origin → s.ns.isWithin origin owner = false)
    (hmasks : s.store.Masks d store) (r : Request) :
    ((s.withStore store).lookup r).1 = (s.lookup r).1 ∧
      ((s.withStore store).lookup r).2.engine.counters = (s.lookup r).2.engine.counters := by
  have hfind := find_masks hmasks
    (fun htop => sees_eq_false hd haccess howner (houtside _ htop)) r
  rw [lookup_result, lookup_result, lookup_counters, lookup_counters, hfind]
  exact ⟨rfl, rfl⟩

/-- A bank with a vault, whose code is for the vault only, and a hall beside it. -/
def bank : Namespace where
  definitions := #[
    { name := "vault", fullName := "vault", children := Dictionary.empty.insert "code" 1
      keeps := [{ target := "code", aliasName := some "entry" }] },
    { name := "code", fullName := "vault.code", owner := some 0, access := .ownerOnly },
    { name := "hall", fullName := "hall" }]
  roots := (Dictionary.empty.insert "vault" 0).insert "hall" 2

/-- A stack with the vault on top, which keeps its code also as its entry. -/
def bankVault (code : String) : Session :=
  ((Session.push ⟨.new bank {}, .new 0 {}, {}⟩ 0 [] true).2.put "code"
    (.of 1 [] (some (.text code)))).2

/-- The hall is entered from the vault. -/
def bankHall (code : String) : Session := ((bankVault code).push 2 [] true).2

theorem lookup_masked_bank :
    ((bankVault "1234").get "entry").1.toOption = some (some (.text "1234")) ∧
    (bankHall "1234").topDefinition? = some 2 ∧
    (((bankHall "1234").withStore ((bankHall "1234").store.write 1 "code"
        (.holder (.of 1 [] (some (.text "5678")))))).lookup { key := "entry" }).1 =
      ((bankHall "1234").lookup { key := "entry" }).1 := by
  have hslot : (bankHall "1234").store.get? 1 "code" =
      some (.holder (.of 1 [] (some (.text "1234")))) := by rfl
  have houtside : ∀ origin, (bankHall "1234").topDefinition? = some origin →
      (bankHall "1234").ns.isWithin origin 0 = false := by
    intro origin htop
    obtain rfl : origin = 2 := Option.some.inj (htop.symm.trans (by decide +kernel))
    decide +kernel
  exact ⟨by rfl, by decide +kernel, (lookup_masked (d := 1) rfl rfl rfl houtside
    (Store.masks_write hslot rfl (some (.text "5678"))) { key := "entry" }).1⟩

end Session

end KeepTree
