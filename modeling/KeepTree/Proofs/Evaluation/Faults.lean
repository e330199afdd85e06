import KeepTree.Proofs.Evaluation.Relations

/-!
# What an evaluation may fail with

An evaluation fails with a fault of its own, or with one of an operation of the session that it makes
use of. So if these operations keep an invariant, and fail where it holds with certain faults only, an
evaluation that begins where it holds fails with these faults only:

* `failsBy_within` -- **every evaluation fails with faults of this kind only**.
-/

namespace KeepTree

open Likeness

/-- A relation that the operations of an evaluation are in. -/
structure Tracks (P : Session → Session → Prop) : Prop where
  refl : ∀ s, P s s
  trans : ∀ {s s' s''}, P s s' → P s' s'' → P s s''
  lookup : ∀ s r, P s (s.lookup r).2
  put : ∀ s target holder, P s (s.put target holder).2
  push : ∀ s id arguments newCall, P s (s.push id arguments newCall).2
  pop : ∀ {s s'}, s.pop = .ok s' → P s s'
  unpush : ∀ {s s'}, s.unpush = .ok s' → P s s'
  repush : ∀ {s s'}, s.repush = .ok s' → P s s'
  startIteration : ∀ {s s' i}, s.startIteration = .ok (i, s') → P s s'
  setIteration : ∀ s iteration, P s (s.setIteration iteration)
  putValue : ∀ {s s' key value}, s.putValue key value = .ok s' → P s s'
  count : ∀ s, P s (s.count .computation)

/-- An operation of the session fails with such faults only. -/
def FaultsIn {α : Type} (F : EvalFault → Prop) (result : Except Fault α) : Prop :=
  ∀ fault, result = .error fault → F (.stack fault)

/-- The operations of an evaluation keep an invariant, and where it holds they fail with such faults
    only; and so may the evaluation itself. -/
structure Fallible (I : Session → Prop) (F : EvalFault → Prop) : Prop where
  tracks : Tracks fun s s' => I s → I s'
  lookup : ∀ {s} r, I s → FaultsIn F (s.lookup r).1
  put : ∀ {s} target holder, I s → FaultsIn F (s.put target holder).1
  push : ∀ {s} id arguments newCall, I s → FaultsIn F (s.push id arguments newCall).1
  pop : ∀ {s}, I s → FaultsIn F s.pop
  unpush : ∀ {s}, I s → FaultsIn F s.unpush
  repush : ∀ {s}, I s → FaultsIn F s.repush
  startIteration : ∀ {s}, I s → FaultsIn F s.startIteration
  putValue : ∀ {s} key value, I s → FaultsIn F (s.putValue key value)
  walk : ∀ gap, F (.stack (.danglingReference gap))
  underflow : F (.stack .stackUnderflow)
  undefined : ∀ name, F (.stack (.undefinedDefinition name))
  redirect : ∀ r, F (.stack (.redirect r))
  own : ∀ {fault}, (∀ cause, fault ≠ .stack cause) → F fault

variable {I : Session → Prop} {F : EvalFault → Prop} {α β : Type}

/-! ## 1. Steps -/

namespace Eval

/-- A step that begins where the invariant holds ends where it holds, with such an outcome. -/
def Settles (I : Session → Prop) (Q : Except EvalFault α → Prop) (x : Eval α) : Prop :=
  ∀ run outcome run', I run.session → x run = some (outcome, run') → I run'.session ∧ Q outcome

/-- A value, or a fault of this kind. -/
def Allowed (F : EvalFault → Prop) (outcome : Except EvalFault α) : Prop :=
  ∀ fault, outcome = .error fault → F fault

/-- The faults of a step are of this kind. -/
abbrev FailsBy (I : Session → Prop) (F : EvalFault → Prop) (x : Eval α) : Prop :=
  Settles I (Allowed F) x

theorem allowed_ok (a : α) : Allowed F (.ok a) := nofun

end Eval

/-- An evaluation and itself, where an invariant holds. -/
def Likeness.failing (I : Session → Prop) (F : EvalFault → Prop) : Likeness where
  World := Unit
  grows _ _ := True
  runs _ x y := x = y ∧ I x.session
  faults _ fault fault' := fault = fault' ∧ F fault
  lax := False

theorem Likeness.failing_ordered (I : Session → Prop) (F : EvalFault → Prop) : (failing I F).Ordered :=
  ⟨fun _ => trivial, fun _ _ => trivial, fun _ h => h, fun h => h.1 ▸ rfl⟩

namespace Eval

theorem settles_of_matches {R : α → α → Prop} {x : Eval α}
    (hx : (failing I F).Matches R x x) : FailsBy I F x := by
  intro run out run' hI h
  have hends := hx (w := ()) (⟨rfl, hI⟩ : run = run ∧ I run.session)
  rw [h] at hends
  cases hends with
  | some _ hres hruns =>
    refine ⟨hruns.2, ?_⟩
    rintro fault rfl
    cases hres with
    | error hflt => exact hflt.2
  | dangling hspoils => exact hspoils.elim

theorem failsBy_iff {x : Eval α} : FailsBy I F x ↔ (failing I F).Matches (· = ·) x x := by
  refine ⟨?_, settles_of_matches⟩
  rintro hx _ run _ ⟨rfl, hI⟩
  cases hrun : x run with
  | none => exact .none
  | some p =>
    obtain ⟨hI', hF⟩ := hx run p.1 p.2 hI hrun
    exact (failing_ordered I F).ends_here (.refl _ fun fault h => ⟨rfl, hF fault h⟩) ⟨rfl, hI'⟩

theorem FailsBy.bind {x : Eval α} {f : α → Eval β} (hx : FailsBy I F x)
    (hf : ∀ a, FailsBy I F (f a)) : FailsBy I F (x >>= f) :=
  failsBy_iff.mpr ((failing_ordered I F).bind_eq (failsBy_iff.mp hx) fun a =>
    failsBy_iff.mp (hf a))

theorem FailsBy.pure (a : α) : FailsBy I F (pure a : Eval α) := by
  rintro run _ _ hI ⟨⟩
  exact ⟨hI, allowed_ok a⟩

theorem FailsBy.get : FailsBy I F (get : Eval Run) := by
  rintro run _ _ hI ⟨⟩
  exact ⟨hI, allowed_ok run⟩

theorem FailsBy.modify {f : Run → Run} (h : ∀ run, I run.session → I (f run).session) :
    FailsBy I F (modify f : Eval PUnit) := by
  rintro run _ _ hI ⟨⟩
  exact ⟨h run hI, allowed_ok _⟩

theorem FailsBy.lift {f : Session → Except Fault α × Session} (hks : ∀ s, I s → I (f s).2)
    (hfaults : ∀ {s}, I s → FaultsIn F (f s).1) : FailsBy I F (lift f) := by
  refine failsBy_iff.mpr (Likeness.Ordered.lift ?_)
  rintro w x _ ⟨rfl, hI⟩
  exact ⟨w, trivial, .refl _ fun fault h => ⟨rfl, hfaults hI fault h⟩, rfl, hks _ hI⟩

theorem FailsBy.move {f : Session → Except Fault Session}
    (hks : ∀ {s s'}, f s = .ok s' → I s → I s') (hfaults : ∀ {s}, I s → FaultsIn F (f s)) :
    FailsBy I F (move f) := by
  refine failsBy_iff.mpr ((failing_ordered I F).move ?_)
  rintro w x _ ⟨rfl, hI⟩
  cases h : f x.session with
  | ok s => exact .ok ⟨rfl, hks h hI⟩
  | error cause => exact .error ⟨rfl, hfaults hI cause h⟩

theorem FailsBy.putValue (h : Fallible I F) (key : String) (value : Value) :
    FailsBy I F (Eval.move (·.putValue key value)) :=
  FailsBy.move h.tracks.putValue (h.putValue key value)

theorem FailsBy.startIteration (h : Fallible I F) :
    FailsBy I F (Eval.move fun s => s.startIteration.map (·.2)) := by
  refine FailsBy.move (fun hs => ?_) fun hI fault hs => h.startIteration hI fault (map_eq_error.mp hs)
  obtain ⟨started, hstarted, rfl⟩ := map_eq_ok.mp hs
  exact h.tracks.startIteration hstarted

end Eval

/-! ## 2. Bodies and calls -/

theorem Fallible.thrown (h : Fallible I F) {fault : EvalFault} (hflt : fault.Thrown) : F fault := by
  cases fault with
  | stack cause =>
    cases cause with
    | danglingReference gap => exact h.walk gap
    | stackUnderflow => exact h.underflow
    | undefinedDefinition name => exact h.undefined name
    | redirect r => exact h.redirect r
    | _ => exact hflt.elim
  | _ => exact h.own nofun

theorem Recur.bindAll_failsBy (h : Fallible I F) : ∀ bindings : List (String × Value),
    Eval.FailsBy I F (bindAll bindings)
  | [] => .pure ()
  | (key, value) :: rest => .bind (.putValue h key value) fun _ => bindAll_failsBy h rest

open Eval in
theorem Fallible.lawful (h : Fallible I F) : (failing I F).Lawful :=
  { failing_ordered I F with
    thrown := fun hflt => ⟨rfl, h.thrown hflt⟩
    seems := fun hruns => hruns.1 ▸ .refl _
    active_eq := fun hruns => hruns.1 ▸ rfl
    active := fun _ hruns => ⟨hruns.1 ▸ rfl, hruns.2⟩
    push := fun id args newCall => failsBy_iff.mp <|
      .lift (fun s => h.tracks.push s id args newCall) (h.push id args newCall)
    put := fun target holder => failsBy_iff.mp <|
      .lift (fun s => h.tracks.put s target holder) (h.put target holder)
    pop := failsBy_iff.mp (.move h.tracks.pop h.pop)
    unpush := failsBy_iff.mp (.move h.tracks.unpush h.unpush)
    repush := failsBy_iff.mp (.move h.tracks.repush h.repush)
    count := fun hruns => ⟨hruns.1 ▸ rfl, h.tracks.count _ hruns.2⟩
    setIteration := fun iter hruns =>
      ⟨hruns.1 ▸ rfl, h.tracks.setIteration _ iter hruns.2⟩
    iterate := fun item value hx => (failing_ordered I F).iterate
      (failsBy_iff.mp (.startIteration h)) (fun key value => failsBy_iff.mp (.putValue h key value))
      (fun hruns => hruns.1 ▸ rfl) (fun _ hruns => ⟨hruns.1 ▸ rfl, hruns.2⟩) item value hx }

/-- What evaluates the calls and frames inside fails in this way only. -/
structure Recur.FailsBy (I : Session → Prop) (F : EvalFault → Prop) (r : Recur) : Prop where
  call : ∀ call, Eval.FailsBy I F (r.call call)
  frame : ∀ id, Eval.FailsBy I F (r.frame id)

theorem Recur.failsBy_iff {r : Recur} : r.FailsBy I F ↔ r.Matches (.failing I F) r :=
  ⟨fun h => ⟨fun call => Eval.failsBy_iff.mp (h.call call), fun id => Eval.failsBy_iff.mp (h.frame id)⟩,
    fun h => ⟨fun call => Eval.failsBy_iff.mpr (h.call call), fun id => Eval.failsBy_iff.mpr (h.frame id)⟩⟩

theorem failsBy_within (h : Fallible I F) (fuel : Nat) :
    Recur.FailsBy I F ⟨evaluateWithin fuel, frameWithin fuel⟩ :=
  Recur.failsBy_iff.mpr <| matches_within h.lawful (fun r => Eval.failsBy_iff.mp <|
    .lift (fun s => h.tracks.lookup s r) (h.lookup r)) fuel

end KeepTree
