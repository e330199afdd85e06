import KeepTree.Proofs.Namespace.Closed
import Mathlib.Data.Fintype.Pigeonhole
import Mathlib.Logic.Relation

/-!
# Lines of inheritance

A definition may name another as its superdefinition, and so on; nothing keeps such a line from
running in a circle. The walks along a line count their steps. They lose nothing by it:

* `Derives`, `Line` -- one link, and a number of links in a row; `Owns` -- a child of its own;
* `Line.shorten` -- **what a line comes to, it comes to by fewer links than there are definitions**;
* `inheritsWithin_line`, `childWithin_line` -- a bounded walk answers for the part of the line that it
  sees;
* `inheritance_exact` -- so the walks of the program answer for the whole line.
-/

namespace KeepTree.Namespace

open Relation

variable {ns : Namespace} {id next other mid child : DefId} {name : String} {n m steps : Nat}

/-! ## 1. Lines -/

/-- The first definition names the second as its superdefinition. -/
def Derives (ns : Namespace) (id next : DefId) : Prop :=
  ∃ d, ns.get? id = some d ∧ d.superdefinition = some next

/-- The definition declares a child of this name itself. -/
def Owns (ns : Namespace) (id : DefId) (name : String) (child : DefId) : Prop :=
  ∃ d, ns.get? id = some d ∧ d.child? name = some child

/-- A number of links lead from the first definition to the second. -/
inductive Line (ns : Namespace) : Nat → DefId → DefId → Prop
  | here {id : DefId} : Line ns 0 id id
  | link {n : Nat} {id next other : DefId} (first : ns.Derives id next)
      (rest : Line ns n next other) : Line ns (n + 1) id other

theorem Derives.unique (h : ns.Derives id next) (h' : ns.Derives id other) : next = other := by
  obtain ⟨d, hd, hnext⟩ := h
  obtain ⟨d', hd', hoth⟩ := h'
  cases hd.symm.trans hd'
  exact Option.some.inj (hnext.symm.trans hoth)

theorem Owns.unique {child' : DefId} (h : ns.Owns id name child)
    (h' : ns.Owns id name child') : child = child' := by
  obtain ⟨d, hd, hch⟩ := h
  obtain ⟨d', hd', hch'⟩ := h'
  cases hd.symm.trans hd'
  exact Option.some.inj (hch.symm.trans hch')

theorem Line.unique (h : ns.Line n id next) (h' : ns.Line n id other) : next = other := by
  induction h with
  | here => cases h'; rfl
  | link first _ ih =>
    cases h' with
    | link first' rest' => exact ih (first'.unique first ▸ rest')

theorem Line.append (h : ns.Line n id mid) (h' : ns.Line m mid other) :
    ns.Line (m + n) id other := by
  induction h with
  | here => exact h'
  | link first _ ih => exact .link first (ih h')

theorem Line.split (h : ns.Line n id other) (hm : m ≤ n) :
    ∃ mid, ns.Line m id mid ∧ ns.Line (n - m) mid other := by
  induction h generalizing m with
  | here =>
    obtain rfl := Nat.le_zero.mp hm
    exact ⟨_, .here, .here⟩
  | @link n id _ other first rest ih =>
    cases m with
    | zero => exact ⟨id, .here, .link first rest⟩
    | succ m =>
      obtain ⟨mid, hbefore, hafter⟩ := ih (Nat.le_of_succ_le_succ hm)
      exact ⟨mid, .link first hbefore, by rwa [Nat.succ_sub_succ]⟩

theorem reaches_iff : ReflTransGen ns.Derives id other ↔ ∃ n, ns.Line n id other := by
  constructor
  · intro h
    induction h using ReflTransGen.head_induction_on with
    | refl => exact ⟨0, .here⟩
    | head first _ ih =>
      obtain ⟨n, hn⟩ := ih
      exact ⟨n + 1, .link first hn⟩
  · rintro ⟨n, h⟩
    induction h with
    | here => exact .refl
    | link first _ ih => exact .head first ih

section

variable (hns : ns.Closed) (hid : id < ns.size) (h : ns.Line n id other)
include hns hid h

theorem Line.lt : other < ns.size := by
  induction h with
  | here => exact hid
  | link first _ ih =>
    obtain ⟨d, hd, hnext⟩ := first
    exact ih (hns.superdefinition hd hnext)

/-! ## 2. Circles -/

theorem Line.repeats (hn : ns.size ≤ n) :
    ∃ i j mid, i < j ∧ j ≤ n ∧ ns.Line i id mid ∧ ns.Line j id mid := by
  have hat : ∀ k : Fin (ns.size + 1), ∃ mid : Fin ns.size, ns.Line k id mid := by
    intro k
    obtain ⟨mid, hmid, _⟩ := h.split (Nat.le_trans (Nat.le_of_lt_succ k.isLt) hn)
    exact ⟨⟨mid, hmid.lt hns hid⟩, hmid⟩
  choose along halong using hat
  obtain ⟨i, j, hne, heq⟩ := Fintype.exists_ne_map_eq_of_card_lt along (by simp)
  have hi := halong i
  have hj := halong j
  have hin := Nat.le_trans (Nat.le_of_lt_succ i.isLt) hn
  have hjn := Nat.le_trans (Nat.le_of_lt_succ j.isLt) hn
  rcases Nat.lt_or_gt_of_ne (Fin.val_ne_of_ne hne) with hlt | hlt
  · exact ⟨i, j, along j, hlt, hjn, heq ▸ hi, hj⟩
  · exact ⟨j, i, along i, hlt, hin, heq ▸ hj, hi⟩

/-- **What a line comes to, it comes to by fewer links than there are definitions.** -/
theorem Line.shorten : ∃ m < ns.size, ns.Line m id other := by
  induction n using Nat.strong_induction_on with
  | _ n ih =>
    by_cases hn : n < ns.size
    · exact ⟨n, hn, h⟩
    · -- the circle between the two visits is left out
      obtain ⟨i, j, mid, hij, hjn, hi, hj⟩ := h.repeats hns hid (Nat.le_of_not_lt hn)
      obtain ⟨mid', hmid', hafter⟩ := h.split hjn
      cases hj.unique hmid'
      exact ih (n - j + i) (by omega) (hi.append hafter)

end

/-! ## 3. Bounded walks -/

theorem inheritsWithin_line (hns : ns.Closed) (other : DefId) : ∀ (steps : Nat) {id : DefId},
    id < ns.size → ns.inheritsWithin other steps id = .ok true ∧ (∃ n, ns.Line n id other) ∨
    ns.inheritsWithin other steps id = .ok false ∧ ∀ n ≤ steps, ¬ ns.Line n id other
  | 0, id, _ => by
    by_cases heq : id = other
    · exact .inl ⟨by simp [inheritsWithin, heq], 0, heq ▸ .here⟩
    · refine .inr ⟨by simp [inheritsWithin, heq], fun n hn hline => ?_⟩
      cases Nat.le_zero.mp hn
      cases hline
      exact heq rfl
  | steps + 1, id, hid => by
    by_cases heq : id = other
    · exact .inl ⟨by simp [inheritsWithin, heq], 0, heq ▸ .here⟩
    obtain ⟨d, hfind, hd⟩ := find_of_lt hid
    have hlink : ∀ {n}, ns.Line n id other → ∃ m next, n = m + 1 ∧ d.superdefinition = some next ∧
        ns.Line m next other := by
      rintro _ (_ | ⟨⟨d', hd', hnext⟩, rest⟩)
      · exact absurd rfl heq
      · cases hd.symm.trans hd'
        exact ⟨_, _, rfl, hnext, rest⟩
    cases hsuper : d.superdefinition with
    | none =>
      refine .inr ⟨by simp [inheritsWithin, heq, hfind, hsuper], fun n _ hline => ?_⟩
      obtain ⟨_, _, _, hnext, _⟩ := hlink hline
      cases hsuper.symm.trans hnext
    | some next =>
      have hwalk : ns.inheritsWithin other (steps + 1) id = ns.inheritsWithin other steps next := by
        simp [inheritsWithin, heq, hfind, hsuper]
      rw [hwalk]
      rcases inheritsWithin_line hns other steps (hns.superdefinition hd hsuper) with
        ⟨hyes, n, hline⟩ | ⟨hno, hnone⟩
      · exact .inl ⟨hyes, n + 1, .link ⟨d, hd, hsuper⟩ hline⟩
      · refine .inr ⟨hno, fun n hn hline => ?_⟩
        obtain ⟨m, _, rfl, hnext, hline⟩ := hlink hline
        cases hsuper.symm.trans hnext
        exact hnone m (Nat.le_of_succ_le_succ hn) hline

/-- None of the first definitions in line declares a child of this name. -/
def Barren (ns : Namespace) (name : String) (steps : Nat) (id : DefId) : Prop :=
  ∀ n < steps, ∀ other, ns.Line n id other → ∀ child, ¬ ns.Owns other name child

/-- A definition is the first in line that declares a child of this name, and this is the child. -/
def First (ns : Namespace) (name : String) (id child : DefId) : Prop :=
  ∃ n other, ns.Line n id other ∧ ns.Owns other name child ∧ ns.Barren name n id

theorem First.unique {child' : DefId} (h : ns.First name id child) (h' : ns.First name id child') :
    child = child' := by
  obtain ⟨n, other, hline, howns, hbarren⟩ := h
  obtain ⟨n', other', hline', howns', hbarren'⟩ := h'
  rcases Nat.lt_trichotomy n n' with hlt | rfl | hlt
  · exact absurd howns (hbarren' n hlt other hline child)
  · cases hline.unique hline'
    exact howns.unique howns'
  · exact absurd howns' (hbarren n' hlt other' hline' child')

theorem Barren.link (h : ns.Barren name n next) (hown : ∀ child, ¬ ns.Owns id name child)
    (hnext : ns.Derives id next) : ns.Barren name (n + 1) id := by
  intro k hk other hline
  cases hline with
  | here => exact hown
  | link first rest =>
    cases first.unique hnext
    exact h _ (Nat.lt_of_succ_lt_succ hk) other rest

theorem childWithin_line (hns : ns.Closed) (name : String) : ∀ (steps : Nat) {id : DefId},
    id < ns.size →
      (∃ child, ns.childWithin name steps id = .ok (some child) ∧ ns.First name id child) ∨
      ns.childWithin name steps id = .ok none ∧ ns.Barren name steps id
  | 0, _, _ => .inr ⟨rfl, fun n hn => absurd hn (Nat.not_lt_zero n)⟩
  | steps + 1, id, hid => by
    obtain ⟨d, hfind, hd⟩ := find_of_lt hid
    cases hch : d.child? name with
    | some child =>
      exact .inl ⟨child, by simp [childWithin, hfind, hch], 0, id, .here, ⟨d, hd, hch⟩,
        fun n hn => absurd hn (Nat.not_lt_zero n)⟩
    | none =>
      have hown : ∀ child, ¬ ns.Owns id name child := by
        rintro child ⟨d', hd', hch'⟩
        cases hd.symm.trans hd'
        cases hch.symm.trans hch'
      cases hsuper : d.superdefinition with
      | none =>
        refine .inr ⟨by simp [childWithin, hfind, hch, hsuper], fun n _ other hline => ?_⟩
        cases hline with
        | here => exact hown
        | link first _ =>
          obtain ⟨d', hd', hnext⟩ := first
          cases hd.symm.trans hd'
          cases hsuper.symm.trans hnext
      | some next =>
        have hlink : ns.Derives id next := ⟨d, hd, hsuper⟩
        have hwalk : ns.childWithin name (steps + 1) id = ns.childWithin name steps next := by
          simp [childWithin, hfind, hch, hsuper]
        rw [hwalk]
        rcases childWithin_line hns name steps (hns.superdefinition hd hsuper) with
          ⟨child, hfd, n, other, hline, howns, hbarren⟩ | ⟨hnone, hbarren⟩
        · exact .inl ⟨child, hfd, n + 1, other, .link hlink hline, howns, hbarren.link hown hlink⟩
        · exact .inr ⟨hnone, hbarren.link hown hlink⟩

/-! ## 4. Whole lines -/

section

variable (hns : ns.Closed) (hid : id < ns.size) (hsteps : ns.size ≤ steps)
include hns hid hsteps

theorem inheritsWithin_iff (other : DefId) :
    (ns.inheritsWithin other steps id = .ok true ↔ ReflTransGen ns.Derives id other) ∧
      (ns.inheritsWithin other steps id = .ok false ↔ ¬ ReflTransGen ns.Derives id other) := by
  rw [reaches_iff]
  rcases inheritsWithin_line hns other steps hid with ⟨h, hline⟩ | ⟨h, hnone⟩
  · simp [h, hline]
  · have hnever : ¬ ∃ n, ns.Line n id other := by
      rintro ⟨n, hline⟩
      obtain ⟨m, hm, hshort⟩ := hline.shorten hns hid
      exact hnone m (Nat.le_of_lt (Nat.lt_of_lt_of_le hm hsteps)) hshort
    simp [h, hnever]

theorem childWithin_iff (name : String) :
    (∀ child, ns.childWithin name steps id = .ok (some child) ↔ ns.First name id child) ∧
      (ns.childWithin name steps id = .ok none ↔
        ∀ other, ReflTransGen ns.Derives id other → ∀ child, ¬ ns.Owns other name child) := by
  rcases childWithin_line hns name steps hid with ⟨own, h, hfst⟩ | ⟨h, hbarren⟩
  · rw [h]
    refine ⟨fun child => ⟨fun heq => ?_, fun hch => ?_⟩, nofun, fun hnone => ?_⟩
    · cases heq
      exact hfst
    · rw [hfst.unique hch]
    · obtain ⟨n, other, hline, howns, _⟩ := hfst
      exact absurd howns (hnone other (reaches_iff.mpr ⟨n, hline⟩) own)
  · have hnone : ∀ other, ReflTransGen ns.Derives id other → ∀ child, ¬ ns.Owns other name child := by
      intro other hreaches
      obtain ⟨n, hline⟩ := reaches_iff.mp hreaches
      obtain ⟨m, hm, hshort⟩ := hline.shorten hns hid
      exact hbarren m (Nat.lt_of_lt_of_le hm hsteps) other hshort
    rw [h]
    refine ⟨fun child => ⟨nofun, ?_⟩, fun _ => hnone, fun _ => rfl⟩
    rintro ⟨n, other, hline, howns, _⟩
    exact absurd howns (hnone other (reaches_iff.mpr ⟨n, hline⟩) child)

end

/-- **Inheritance is what links lead to**, also where they run in a circle: a definition inherits from
    those in line and from no other, and a child is that of the first in line to declare one. To count
    the steps cuts no walk short of its answer. -/
theorem inheritance_exact (hns : ns.Closed) (hid : id < ns.size) :
    (∀ other, (ns.inherits id other = .ok true ↔ ReflTransGen ns.Derives id other) ∧
      (ns.inherits id other = .ok false ↔ ¬ ReflTransGen ns.Derives id other)) ∧
    ns.inherits id id = .ok true ∧
    (∀ mid other, ns.inherits id mid = .ok true → ns.inherits mid other = .ok true →
      ns.inherits id other = .ok true) ∧
    (∀ name child, ns.child id name = .ok (some child) ↔ ∃ n other, ns.Line n id other ∧
      ns.Owns other name child ∧
      ∀ k < n, ∀ earlier, ns.Line k id earlier → ∀ child, ¬ ns.Owns earlier name child) ∧
    (∀ name, ns.child id name = .ok none ↔
      ∀ other, ReflTransGen ns.Derives id other → ∀ child, ¬ ns.Owns other name child) ∧
    ∀ steps ≥ ns.size, (∀ other, ns.inheritsWithin other steps id = ns.inherits id other) ∧
      ∀ name, ns.childWithin name (steps + 1) id = ns.child id name := by
  have hall := Nat.le_refl ns.size
  have hinherits := inheritsWithin_iff hns hid hall
  have hchild := childWithin_iff hns hid (Nat.le_succ ns.size)
  refine ⟨hinherits, (hinherits id).1.mpr .refl, fun mid other hmid hother => ?_,
    fun name => (hchild name).1, fun name => (hchild name).2, fun steps hsteps => ⟨?_, ?_⟩⟩
  · have hreaches := (hinherits mid).1.mp hmid
    obtain ⟨n, hline⟩ := reaches_iff.mp hreaches
    have hrest := (inheritsWithin_iff hns (hline.lt hns hid) hall other).1.mp hother
    exact (hinherits other).1.mpr (hreaches.trans hrest)
  · intro other
    obtain ⟨hyes, hno⟩ := inheritsWithin_iff hns hid hsteps other
    obtain ⟨answer, hanswer⟩ := hns.inherits hid other
    rw [hanswer]
    cases answer with
    | true => exact hyes.mpr ((hinherits other).1.mp hanswer)
    | false => exact hno.mpr ((hinherits other).2.mp hanswer)
  · intro name
    obtain ⟨hsome, hnone⟩ := childWithin_iff hns hid (Nat.le_succ_of_le hsteps) name
    obtain ⟨found, hfound, _⟩ := hns.findsChild hid name
    rw [hfound]
    cases found with
    | none => exact hnone.mpr ((hchild name).2.mp hfound)
    | some child => exact (hsome child).mpr (((hchild name).1 child).mp hfound)

/-- A page extends a sheet, which is one of two that extend each other. -/
def sheets : Namespace where
  definitions := #[
    { name := "page", fullName := "page", superdefinition := some 1 },
    { name := "front", fullName := "front", superdefinition := some 2 },
    { name := "back", fullName := "back", superdefinition := some 1,
      children := Dictionary.empty.insert "margin" 3 },
    { name := "margin", fullName := "back.margin", owner := some 2 }]
  roots := ((Dictionary.empty.insert "page" 0).insert "front" 1).insert "back" 2

theorem inheritance_exact_sheets : sheets.Closed ∧ sheets.inherits 0 2 = .ok true ∧
    ¬ ReflTransGen sheets.Derives 1 0 ∧ sheets.child 0 "margin" = .ok (some 3) ∧
    ∀ steps ≥ 4, sheets.childWithin "header" (steps + 1) 0 = .ok none := by
  have hclosed : sheets.Closed := closed_of_isClosed (by decide +kernel)
  have hpage : sheets.Derives 0 1 := ⟨_, rfl, rfl⟩
  have hfront : sheets.Derives 1 2 := ⟨_, rfl, rfl⟩
  obtain ⟨hinherits, _, _, hchild, _, hsteps⟩ :=
    inheritance_exact hclosed (show 0 < sheets.size by decide)
  obtain ⟨hinherits', _⟩ := inheritance_exact hclosed (show 1 < sheets.size by decide)
  refine ⟨hclosed, (hinherits 2).1.mpr (.head hpage (.single hfront)), (hinherits' 0).2.mp rfl,
    (hchild "margin" 3).mpr ⟨2, 2, .link hpage (.link hfront .here), ⟨_, rfl, rfl⟩, ?_⟩,
    fun steps h => ((hsteps steps h).2 "header").trans rfl⟩
  rintro k hk earlier hline child ⟨d, hd, howns⟩
  cases hline with
  | here =>
    cases hd
    cases howns
  | link first rest =>
    cases first.unique hpage
    cases rest with
    | here =>
      cases hd
      cases howns
    | link => omega

end KeepTree.Namespace
