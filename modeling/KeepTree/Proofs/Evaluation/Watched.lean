import KeepTree.Proofs.Evaluation.Relations

/-!
# Evaluations that can be repeated

A value that was computed for a call may be served to later calls that find it in a table. For this
to be right, calls that can be answered from one slot must have one value, and this is a matter of
the values themselves: it can be said of an evaluation that keeps nothing. A `ledger` lists which
value belongs into which slot, for which definition and which arguments. An evaluation is watched
by comparing the value of every call with the ledger; it is given up where they disagree.

* `watched_below` -- **watching changes nothing** unless the evaluation is given up.
-/

namespace KeepTree

open Likeness

variable {ns : Namespace} {ledger : List Answer} {call : Call} {x : Eval Value} {run : Run}
  {D : Discipline} {α : Type}

/-! ## 1. Equal values -/

namespace Value

mutual
/-- Equal values, where floating-point numbers are compared bit by bit. -/
def identical : Value → Value → Bool
  | .null, .null => true
  | .bool a, .bool b => a == b
  | .int a, .int b => a == b
  | .float a, .float b => a == b
  | .text a, .text b => a == b
  | .list as, .list bs => identicalAll as bs
  | _, _ => false

def identicalAll : List Value → List Value → Bool
  | [], [] => true
  | a :: as, b :: bs => identical a b && identicalAll as bs
  | _, _ => false
end

mutual
theorem identical_iff : ∀ a b : Value, identical a b = true ↔ a = b
  | .null, b => by cases b <;> simp [identical]
  | .bool _, b => by cases b <;> simp [identical]
  | .int _, b => by cases b <;> simp [identical]
  | .float _, b => by cases b <;> simp [identical]
  | .text _, b => by cases b <;> simp [identical]
  | .list as, b => by
    cases b with
    | list bs => rw [identical, identicalAll_iff as bs, Value.list.injEq]
    | _ => simp [identical]

theorem identicalAll_iff : ∀ as bs : List Value, identicalAll as bs = true ↔ as = bs
  | [], bs => by cases bs <;> simp [identicalAll]
  | a :: as, bs => by
    cases bs with
    | nil => simp [identicalAll]
    | cons b bs =>
      rw [identicalAll, Bool.and_eq_true, identical_iff a b, identicalAll_iff as bs, List.cons.injEq]
end

instance : DecidableEq Value := fun a b => decidable_of_iff _ (identical_iff a b)

end Value

namespace Argument

mutual
/-- Equal arguments, where floating-point numbers are compared bit by bit. -/
def identical : Argument → Argument → Bool
  | .value v, .value w => v == w
  | .call f as, .call g bs => f == g && identicalAll as bs
  | .missing, .missing => true
  | _, _ => false

def identicalAll : List Argument → List Argument → Bool
  | [], [] => true
  | a :: as, b :: bs => identical a b && identicalAll as bs
  | _, _ => false
end

mutual
theorem identical_iff : ∀ a b : Argument, identical a b = true ↔ a = b
  | .value _, b => by cases b <;> simp [identical]
  | .missing, b => by cases b <;> simp [identical]
  | .call f as, b => by
    cases b with
    | call g bs =>
      rw [identical, Bool.and_eq_true, beq_iff_eq, identicalAll_iff as bs, Argument.call.injEq]
    | _ => simp [identical]

theorem identicalAll_iff : ∀ as bs : List Argument, identicalAll as bs = true ↔ as = bs
  | [], bs => by cases bs <;> simp [identicalAll]
  | a :: as, bs => by
    cases bs with
    | nil => simp [identicalAll]
    | cons b bs =>
      rw [identicalAll, Bool.and_eq_true, identical_iff a b, identicalAll_iff as bs, List.cons.injEq]
end

instance : DecidableEq Argument := fun a b => decidable_of_iff _ (identical_iff a b)

end Argument

/-! ## 2. Ledgers -/

/-- The value of a definition with these arguments belongs into this slot. -/
structure Answer where
  slot : Location
  definition : DefId
  arguments : List Argument
  value : Value
  deriving DecidableEq

/-- Values of the definition are kept. -/
def Namespace.caches (ns : Namespace) (id : DefId) : Bool :=
  (ns.get? id).any (·.durability != .dynamic)

namespace Session

/-- The definition that a call asks for, unless it is answered by an argument. -/
def asksFor (s : Session) (call : Call) : Option DefId :=
  if (DottedName.isDotted call.name || !call.arguments.isEmpty) ||
      (s.argumentFor call.name).isNone then
    match s.ns.lookupFrom s.topDefinition? call.name with
    | .ok found => found
    | .error _ => none
  else none

/-- The slots in which the value of a call is looked for, the first of them that of the top
    frame. -/
def slotsFor (s : Session) (call : Call) (id : DefId) (top : Frame) : List Location :=
  (reached s.ns top.definition (Recur.request s.ns call (some id)) s.frames).1.map fun frame =>
    ⟨frame.cache, frame.slotKey call.name⟩

/-- The value of a call agrees with a ledger. If values of the definition are kept in `ns`, the
    ledger has this value for the slot of the top frame, and no other value for this definition and
    these arguments in any slot in which a value is looked for. -/
def Agrees (ns : Namespace) (ledger : List Answer) (s : Session) (call : Call) (value : Value) :
    Prop :=
  ∀ top ∈ s.topFrame?, ∀ id ∈ s.asksFor call, ns.caches id = true →
    ⟨⟨top.cache, top.slotKey call.name⟩, id, call.arguments, value⟩ ∈ ledger ∧
    ∀ answer ∈ ledger, answer.slot ∈ s.slotsFor call id top → answer.definition = id →
      sameArguments answer.arguments call.arguments = true → answer.value = value

instance (ns : Namespace) (ledger : List Answer) (s : Session) (call : Call) (value : Value) :
    Decidable (s.Agrees ns ledger call value) := by
  unfold Agrees
  infer_instance

end Session

/-! ## 3. Watched evaluations -/

/-- Give up where the value of a call does not agree with the ledger. -/
def Eval.watch (ns : Namespace) (ledger : List Answer) (call : Call) (x : Eval Value) :
    Eval Value := fun run =>
  match x run with
  | some (.ok value, run') =>
    if run.session.Agrees ns ledger call value then some (.ok value, run') else none
  | outcome => outcome

mutual
/-- The value of a call where the values of all calls inside agree with the ledger. -/
def watchedWithin (ns : Namespace) (ledger : List Answer) : Nat → Call → Eval Value
  | 0, _ => Eval.exhausted
  | fuel + 1, call => Eval.watch ns ledger call
      (Recur.value ⟨watchedWithin ns ledger fuel, watchedFrame ns ledger fuel⟩ call)

/-- The value of a definition in the frame on top, likewise. -/
def watchedFrame (ns : Namespace) (ledger : List Answer) : Nat → DefId → Eval Value
  | 0, _ => Eval.exhausted
  | fuel + 1, id => Recur.inFrame ⟨watchedWithin ns ledger fuel, watchedFrame ns ledger fuel⟩ id
end

/-- Calls that can be answered from one slot have one value, if their values are kept in `ns`: the
    evaluation agrees with some ledger throughout. -/
def Repeatable (ns : Namespace) (fuel : Nat) (call : Call) (run : Run) : Prop :=
  ∃ ledger, (watchedWithin ns ledger fuel call run).isSome = true

namespace Eval

theorem watch_ok {value : Value} {run' : Run} (h : watch ns ledger call x run = some (.ok value, run')) :
    x run = some (.ok value, run') ∧ run.session.Agrees ns ledger call value := by
  unfold watch at h
  split at h
  · rename_i hx
    split at h
    · rename_i hagrees
      cases h
      exact ⟨hx, hagrees⟩
    · cases h
  · rename_i hoth
    exact absurd h (hoth _ _)

end Eval

theorem Discipline.Yields.watch {l : Extent} {base : Run} (h : D.Yields l base (x run)) :
    D.Yields l base (Eval.watch ns ledger call x run) := by
  unfold Eval.watch
  split
  · rename_i hx
    split
    · exact hx ▸ h
    · exact .nothing
  · exact h

theorem abides_watched (hD : D.Lawful) (ns : Namespace) (ledger : List Answer) (fuel : Nat) :
    Recur.Abides D ⟨watchedWithin ns ledger fuel, watchedFrame ns ledger fuel⟩ := by
  induction fuel with
  | zero => exact ⟨fun _ _ => Discipline.Yields.nothing, fun _ _ _ => Discipline.Yields.nothing⟩
  | succ fuel ih =>
    exact ⟨fun call hinv => (Recur.value_yields hD ih hinv call).watch,
      fun id hinv hloops => Recur.inFrame_yields hD ih hinv hloops⟩

/-! ## 4. Watching changes nothing -/

/-- Where the first step has an outcome, the second has the same. -/
def Eval.Below {α : Type} (x y : Eval α) : Prop :=
  ∀ run outcome, x run = some outcome → y run = some outcome

/-- The second evaluation has the outcome of the first, unless that is given up. -/
def Likeness.given : Likeness where
  World := Unit
  grows _ _ := True
  runs _ x y := x = y
  faults _ fault fault' := fault = fault'
  lax := True

theorem Likeness.given_ordered : given.Ordered :=
  ⟨fun _ => trivial, fun _ _ => trivial, fun _ h => h, fun h => h ▸ rfl⟩

theorem Eval.below_iff {x y : Eval α} : Below x y ↔ given.Matches (· = ·) x y := by
  constructor
  · rintro h _ run _ rfl
    cases hx : x run with
    | none => exact .givenUp trivial
    | some out =>
      rw [h run out hx]
      exact given_ordered.ends_here (.refl _ fun _ _ => rfl) rfl
  · intro h run out hx
    have hends := h (w := ()) (rfl : run = run)
    rw [hx] at hends
    generalize y run = other at hends
    cases hends with
    | some _ hres hruns => exact congrArg some (Prod.ext hres.eq.symm hruns.symm)
    | dangling hspoils => exact hspoils.elim

namespace Likeness

theorem given_refl (x : Eval α) : given.Matches (· = ·) x x := Eval.below_iff.mp fun _ _ h => h

theorem given_lawful : given.Lawful :=
  { given_ordered with
    thrown := fun _ => rfl
    seems := fun h => h ▸ .refl _
    active_eq := fun h => h ▸ rfl
    active := fun _ h => h ▸ rfl
    push := fun _ _ _ => given_refl _
    put := fun _ _ => given_refl _
    pop := given_refl _
    unpush := given_refl _
    repush := given_refl _
    count := fun h => h ▸ rfl
    setIteration := fun _ h => h ▸ rfl
    iterate := fun item value hx => given_ordered.iterate (given_refl _) (fun _ _ => given_refl _)
      (fun h => h ▸ rfl) (fun _ h => h ▸ rfl) item value hx }

end Likeness

/-- Calls and frames inside that have an outcome have the same. -/
abbrev Recur.Below (r r' : Recur) : Prop := r.Matches .given r'

theorem Recur.value_below {r r' : Recur} (hr : r.Below r') (call : Call) :
    given.Matches (· = ·) (r.value call) (r'.value call) :=
  value_matches given_lawful (fun _ => given_refl _) hr call

theorem Eval.Below.watch {y : Eval Value} (hx : Below x y) (ns : Namespace) (ledger : List Answer)
    (call : Call) : Below (watch ns ledger call x) y := by
  intro run out h
  unfold Eval.watch at h
  split at h
  · rename_i value run' hxr
    split at h
    · rw [← h]
      exact hx run _ hxr
    · cases h
  · exact hx run out h

/-- **Watching changes nothing**: where a watched evaluation is not given up, it has the outcome of
    the other. -/
theorem watched_below (ns : Namespace) (ledger : List Answer) (fuel : Nat) :
    Recur.Below ⟨watchedWithin ns ledger fuel, watchedFrame ns ledger fuel⟩
      ⟨evaluateWithin fuel, frameWithin fuel⟩ := by
  induction fuel with
  | zero => exact ⟨fun _ => given_refl _, fun _ => given_refl _⟩
  | succ fuel ih =>
    refine ⟨fun call => ?_, Recur.inFrame_matches given_lawful ih⟩
    exact Eval.below_iff.mp ((Eval.below_iff.mpr (Recur.value_below ih call)).watch ns ledger call)

theorem Repeatable.watched {fuel : Nat} (h : Repeatable ns fuel call run) :
    ∃ ledger, watchedWithin ns ledger fuel call run = evaluateWithin fuel call run := by
  obtain ⟨ledger, hsome⟩ := h
  obtain ⟨out, hout⟩ := Option.isSome_iff_exists.mp hsome
  have hbel := Eval.below_iff.mpr ((watched_below ns ledger fuel).call call)
  exact ⟨ledger, hout.trans (hbel run out hout).symm⟩

end KeepTree
