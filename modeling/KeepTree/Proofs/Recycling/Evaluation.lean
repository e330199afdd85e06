import KeepTree.Proofs.Evaluation.Relations
import KeepTree.Proofs.Recycling.Moves

/-!
# Evaluations of sessions that mirror each other

An evaluation on one of two twin sessions goes step by step as on the other: it comes to the same
value, to faults that correspond, or to no end on both. The renaming grows on the way, so that what
holds of a fault met early still holds when it is reported later.

* `evaluateWithin_indifferent` -- **no evaluation tells twins apart**.
-/

namespace KeepTree

variable {ρ ρ' : Renaming} {α : Type} {fault fault' : EvalFault}

/-! ## 1. Runs -/

/-- The same fault, of frames that stand for each other. -/
inductive EvalFault.Mirrors (ρ : Renaming) : EvalFault → EvalFault → Prop
  | stack {fault fault' : Fault} : fault.Mirrors ρ fault' → Mirrors ρ (.stack fault) (.stack fault')
  | circularReference (name : String) :
      Mirrors ρ (.circularReference name) (.circularReference name)
  | noSuperdefinition (name : String) :
      Mirrors ρ (.noSuperdefinition name) (.noSuperdefinition name)
  | notIterable (item : String) : Mirrors ρ (.notIterable item) (.notIterable item)

theorem EvalFault.Mirrors.mono (hsub : ρ ⊆ ρ') (h : fault.Mirrors ρ fault') :
    fault.Mirrors ρ' fault' := by
  cases h with
  | stack h => exact .stack (h.mono hsub)
  | _ => constructor

theorem EvalFault.Mirrors.isDangling_eq (h : fault.Mirrors ρ fault') :
    fault'.isDangling = fault.isDangling := by
  cases h with
  | stack h => cases h <;> rfl
  | _ => rfl

/-- The same evaluator, at work on twins. -/
structure Run.Twins (ρ : Renaming) (x y : Run) : Prop where
  session : x.session.Twins ρ y.session
  evaluator_eq : y.evaluator = x.evaluator

theorem Run.Twins.on {x y : Run} {s t : Session} (h : x.Twins ρ y) (hst : s.Twins ρ' t) :
    (x.on s).Twins ρ' (y.on t) := ⟨hst, h.evaluator_eq⟩

theorem Run.Twins.remember {x y : Run} (h : x.Twins ρ y) (f : Evaluator → Evaluator) :
    (Eval.remember f x).Twins ρ (Eval.remember f y) := ⟨h.session, congrArg f h.evaluator_eq⟩

theorem EvalFault.Thrown.mirrors (h : fault.Thrown) : fault.Mirrors ρ fault := by
  cases fault with
  | stack cause =>
    cases cause with
    | danglingReference | stackUnderflow | undefinedDefinition | redirect => exact .stack (.same rfl)
    | _ => exact h.elim
  | _ => constructor

/-- An evaluation on twins. The renaming grows when frames are made. -/
abbrev Likeness.twinned : Likeness where
  World := Renaming
  grows := (· ⊆ ·)
  runs := Run.Twins
  faults := EvalFault.Mirrors
  lax := False

theorem Likeness.twinned_ordered : twinned.Ordered :=
  ⟨List.Subset.refl, List.Subset.trans, EvalFault.Mirrors.mono, EvalFault.Mirrors.isDangling_eq⟩

theorem Session.Reads.seems {K : Mirroring} [K.Lawful] {s t : Session} (h : s.Reads K t) :
    s.Seems t where
  ns_eq := h.ns_eq
  size_eq := h.stack.size_eq
  topFrame? := by
    match s.topFrame?, t.topFrame?, h.topFrame? with
    | _, _, .none => exact .none
    | _, _, .some ⟨prev, rfl, _⟩ => exact .some ⟨rfl, rfl⟩
  topDefinition?_eq := h.topDefinition?_eq
  iteration?_eq := h.iteration?_eq
  marker_eq := h.marker_eq
  keepTarget?_eq := h.keepTarget?_eq
  isKept_eq := h.isKept_eq
  argumentFor_eq := h.argumentFor_eq

/-! ## 2. Steps -/

namespace Eval

/-- A step does not tell twins apart. -/
abbrev Indifferent (x : Eval α) : Prop := Likeness.twinned.Matches (· = ·) x x

theorem indifferent_lift {f : Session → Except Fault α × Session}
    (hf : ∀ {ρ s t}, Session.Twins ρ s t → Session.Replies ρ (f s) (f t)) : Indifferent (lift f) := by
  refine Likeness.Ordered.lift fun {ρ run run'} h => ?_
  obtain ⟨ρ', hsub, hres, htwins⟩ := hf h.session
  exact ⟨ρ', hsub, hres.imp .stack id, h.on htwins⟩

theorem indifferent_move {f : Session → Except Fault Session}
    (hf : ∀ {ρ s t}, Session.Twins ρ s t →
      ExceptRel (Fault.Mirrors ρ) (Session.Twins ρ) (f s) (f t)) : Indifferent (move f) :=
  Likeness.twinned_ordered.move fun h => (hf h.session).imp .stack h.on

theorem indifferent_push (id : DefId) (args : List Argument) (newCall : Bool) :
    Indifferent (lift (·.push id args newCall)) :=
  indifferent_lift fun h => h.push id args newCall

theorem indifferent_putValue (key : String) (value : Value) : Indifferent (move (·.putValue key value)) :=
  indifferent_move fun h => h.putValue key value

theorem indifferent_startIteration : Indifferent (move fun s => s.startIteration.map (·.2)) := by
  refine indifferent_move fun {ρ s t} h => ?_
  exact h.startIteration.map fun _ _ hstarted => hstarted.2

end Eval

open Eval in
theorem Likeness.twinned_lawful : twinned.Lawful :=
  { twinned_ordered with
    thrown := EvalFault.Thrown.mirrors
    seems := fun h => h.session.reads.seems
    active_eq := fun h => congrArg Evaluator.active h.evaluator_eq
    active := fun _ h => h.remember _
    push := indifferent_push
    put := fun _ _ => indifferent_lift fun h => h.put _ _
    pop := indifferent_move Session.Twins.pop
    unpush := indifferent_move Session.Twins.unpush
    repush := indifferent_move Session.Twins.repush
    count := fun h => h.on (h.session.move .computation .computation (h.session.count fun _ _ => rfl))
    setIteration := fun _ h => h.on (h.session.setIteration _)
    iterate := fun item value hx => twinned_ordered.iterate indifferent_startIteration
      indifferent_putValue (fun h => h.evaluator_eq) (fun f h => h.remember f) item value hx }

/-- **No evaluation tells twins apart.** -/
theorem evaluateWithin_indifferent (fuel : Nat) (call : Call) :
    Eval.Indifferent (evaluateWithin fuel call) :=
  (matches_within Likeness.twinned_lawful (fun _ => Eval.indifferent_lift fun h => h.lookup _)
    fuel).call call

end KeepTree
