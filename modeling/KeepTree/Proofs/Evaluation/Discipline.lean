import KeepTree.Evaluation
import KeepTree.Proofs.Session.Effects

/-!
# What evaluations may do

An evaluation makes three kinds of changes to a session, one inside the other: those of a call,
which leave the stack as it was; those of a body, which may go on in the top frame; and those of a
loop, which is in an iteration of its own. A `Discipline` says what each may change. It is lawful
if the operations of the session that an evaluation makes use of keep to it, and if what is begun
can be ended: a pushed frame popped, a frame stepped out of stepped back into.

* `Discipline`, `Discipline.Lawful` -- what may be changed, and the operations keep to it;
* `Fine`, `Yields` -- an outcome, and a step all of whose outcomes are in order: a value or a fault
  with the session changed as it may be and the evaluator as it was, unless a reference dangled;
* `Recur.Abides`, `abides_within` -- **every evaluation keeps to a lawful discipline**.
-/

namespace KeepTree

open Eval

variable {D : Discipline} {l l' : Extent} {α β : Type} {run next inner : Run} {id : DefId}
  {s : Session} {outcome : Except EvalFault α} {x : Eval α} {body : Eval Value}

/-! ## 1. Disciplines -/

/-- The frames that a stack refers to are not as it knows them. -/
def Fault.isBroken : Fault → Bool
  | .staleFrame _ | .nothingToRepush | .repushMismatch _ => true
  | _ => false

def EvalFault.isBroken : EvalFault → Bool
  | .stack fault => fault.isBroken
  | _ => false

mutual
/-- A loop is run when the body is evaluated, not counting the bodies of other definitions. -/
def Body.hasLoop : Body → Bool
  | .each _ _ _ => true
  | .concat parts => Body.anyLoop parts
  | .list items => Body.anyLoop items
  | _ => false

def Body.anyLoop : List Body → Bool
  | [] => false
  | body :: rest => body.hasLoop || Body.anyLoop rest
end

/-- The definition has a body with a loop. -/
def Namespace.Loopy (ns : Namespace) (id : DefId) : Prop :=
  ∃ d, ns.get? id = some d ∧ d.body.hasLoop = true

/-- An evaluation may come from somewhere in the namespace to this definition. -/
inductive Namespace.Refers (ns : Namespace) (id : DefId) : Prop
  | named {inside : Option DefId} {name : String} :
      ns.lookupFrom inside name = .ok (some id) → Refers ns id
  | super {lower : DefId} {d : Definition} :
      ns.get? lower = some d → d.superdefinition = some id → Refers ns id

/-- The same evaluator, on another session. -/
def Run.on (run : Run) (s : Session) : Run := { run with session := s }

/-- How far a change goes. -/
inductive Extent where
  /-- That of a call. -/
  | call
  /-- That of a body in the top frame. -/
  | frame
  /-- That of a loop in the top frame. -/
  | loop

/-- What an evaluation may do to a session over a namespace. -/
structure Discipline where
  ns : Namespace
  /-- What holds between all steps. -/
  inv : Session → Prop
  may : Extent → Session → Session → Prop
  /-- Loops may run in the top frame. -/
  loops : Session → Prop
  /-- A reference may dangle. -/
  dangles : Prop

namespace Discipline

/-- An outcome in order, of an evaluation that began in `base`. -/
inductive Fine (D : Discipline) (l : Extent) (base : Run) : Except EvalFault α → Run → Prop
  | value {a : α} {run : Run} : D.inv run.session → D.may l base.session run.session →
      run.evaluator = base.evaluator → Fine D l base (.ok a) run
  | fault {fault : EvalFault} {run : Run} : fault.isDangling = false → fault.isBroken = false →
      D.inv run.session → D.may l base.session run.session → run.evaluator = base.evaluator →
      Fine D l base (.error fault) run
  | dangling {fault : EvalFault} {run : Run} : fault.isDangling = true → D.dangles →
      Fine D l base (.error fault) run

/-- Every outcome is in order. -/
def Yields (D : Discipline) (l : Extent) (base : Run)
    (result : Option (Except EvalFault α × Run)) : Prop :=
  ∀ outcome run, result = some (outcome, run) → D.Fine l base outcome run

/-- A frame for a definition was put on top, and can be popped once its body was evaluated. -/
structure Entered (D : Discipline) (s : Session) (id : DefId) (pushed : Session) : Prop where
  inv : D.inv pushed
  frame : ∃ frame, pushed.topFrame? = some frame ∧ (D.ns.Loopy frame.definition → D.loops pushed)
  loops : D.ns.Loopy id → D.loops pushed
  back : ∀ {s'}, D.inv s' → D.may .frame pushed s' →
    ∃ s'', s'.pop = .ok s'' ∧ D.inv s'' ∧ D.may .call s s''

/-- The top frame was stepped out of, and can be stepped back into. -/
structure SteppedOut (D : Discipline) (s out : Session) : Prop where
  inv : D.inv out
  size_eq : out.stack.size + 1 = s.stack.size
  back : ∀ {s'}, D.inv s' → D.may .call out s' →
    ∃ s'', s'.repush = .ok s'' ∧ D.inv s'' ∧ D.may .call s s''

/-- The operations of a session keep to the discipline. -/
structure Lawful (D : Discipline) : Prop where
  ns_eq : ∀ {s}, D.inv s → s.ns = D.ns
  refl : ∀ {l s}, D.may l s s
  trans : ∀ {l s s' s''}, D.may l s s' → D.may l s' s'' → D.may l s s''
  call_frame : ∀ {s s'}, D.may .call s s' → D.may .frame s s'
  frame_loop : ∀ {s s'}, D.may .frame s s' → D.may .loop s s'
  loops_kept : ∀ {s s'}, D.may .loop s s' → D.loops s → D.loops s'
  walk : ∀ {inside name gap}, D.ns.lookupFrom inside name = .error gap → D.dangles
  lookup : ∀ {run : Run} (r : Request), D.inv run.session →
    D.Fine .call run ((run.session.lookup r).1.mapError .stack) (run.on (run.session.lookup r).2)
  put : ∀ {run : Run} {start : Session} {id holder} (target : String), D.inv start →
    D.inv run.session → D.may .call start run.session →
    D.ns.lookupFrom start.topDefinition? target = .ok (some id) → holder.nominal = id →
    Recur.isStored run.session id target = true →
    D.Fine .call run ((run.session.put target holder).1.mapError .stack)
      (run.on (run.session.put target holder).2)
  count : ∀ {s}, D.inv s → D.inv (s.count .computation) ∧ D.may .call s (s.count .computation)
  push : ∀ {run : Run} {id arguments newCall s'}, D.inv run.session → D.ns.Refers id →
    run.session.push id arguments newCall = (.ok (), s') → D.Entered run.session id s'
  push_fault : ∀ {run : Run} {id arguments newCall fault s'}, D.inv run.session → D.ns.Refers id →
    run.session.push id arguments newCall = (.error fault, s') →
    D.Fine (α := Unit) .call run (.error (.stack fault)) (run.on s')
  unpush : ∀ {s}, D.inv s → 1 < s.stack.size → ∃ out, s.unpush = .ok out ∧ D.SteppedOut s out
  startIteration : ∀ {s i s'}, D.inv s → D.loops s → s.startIteration = .ok (i, s') →
    D.inv s' ∧ D.may .loop s s'
  startIteration_fault : ∀ {s fault}, D.inv s → s.startIteration = .error fault →
    fault.isDangling = false ∧ fault.isBroken = false
  putValue : ∀ {s key value s'}, D.inv s → D.loops s → s.putValue key value = .ok s' →
    D.inv s' ∧ D.may .loop s s'
  putValue_fault : ∀ {s key value fault}, D.inv s → s.putValue key value = .error fault →
    fault.isDangling = false ∧ fault.isBroken = false
  setIteration : ∀ {s s'}, D.inv s → D.inv s' → D.may .loop s s' →
    D.inv (s'.setIteration s.iteration?) ∧ D.may .frame s (s'.setIteration s.iteration?)

end Discipline

/-! ## 2. Steps, opened -/

namespace Eval

theorem bind_apply (x : Eval α) (f : α → Eval β) (run : Run) :
    (x >>= f) run = match x run with
      | none => none
      | some (.ok a, run') => f a run'
      | some (.error fault, run') => some (.error fault, run') := by
  simp only [ExceptT.bind, ExceptT.mk, bind, StateT.bind, Option.bind, ExceptT.bindCont]
  cases x run with
  | none => rfl
  | some p =>
    obtain ⟨r, run'⟩ := p
    cases r <;> rfl

theorem pure_apply (a : α) (run : Run) : (pure a : Eval α) run = some (.ok a, run) := rfl

theorem throw_apply (fault : EvalFault) (run : Run) :
    (throw fault : Eval α) run = some (.error fault, run) := rfl

theorem get_bind_apply (f : Run → Eval β) (run : Run) :
    ((get : Eval Run) >>= f) run = f run run := rfl

theorem session_bind_apply (f : Session → Eval β) (run : Run) :
    (session >>= f) run = f run.session run := rfl

theorem modify_bind_apply (g : Run → Run) (f : PUnit → Eval β) (run : Run) :
    ((modify g : Eval PUnit) >>= f) run = f ⟨⟩ (g run) := rfl

theorem lift_apply (f : Session → Except Fault α × Session) (run : Run) :
    lift f run = some ((f run.session).1.mapError .stack, run.on (f run.session).2) := by
  rw [lift, session_bind_apply]
  cases h : f run.session with
  | mk result s => cases result <;> rfl

theorem move_apply (f : Session → Except Fault Session) (run : Run) :
    move f run = match f run.session with
      | .ok s => some (.ok (), run.on s)
      | .error fault => some (.error (.stack fault), run) := by
  rw [move, session_bind_apply]
  cases f run.session <;> rfl

theorem conclude_apply (result : Except EvalFault α) (run : Run) :
    conclude result run = some (result, run) := by
  cases result <;> rfl

theorem walk_eq_ok {x : Except Dangling α} {a : α} {run' : Run} :
    walk x run = some (.ok a, run') ↔ x = .ok a ∧ run = run' := by
  cases x with
  | ok b => simp [walk, pure_apply]
  | error gap => simp [walk, throw_apply]

theorem times_succ (n : Nat) (step : Eval Unit) :
    times (n + 1) step = step >>= fun _ => times n step := rfl

theorem times_succ_apply (step : Eval Unit) : ∀ (n : Nat) (run : Run),
    times (n + 1) step run = (times n step >>= fun _ => step) run
  | 0, run => by
    rw [times_succ, bind_apply]
    show _ = step run
    cases step run with
    | none => rfl
    | some p =>
      obtain ⟨result, run'⟩ := p
      cases result <;> rfl
  | n + 1, run => by
    rw [times_succ (n + 1), bind_apply, bind_apply, times_succ n, bind_apply]
    cases step run with
    | none => rfl
    | some p =>
      obtain ⟨result, run'⟩ := p
      cases result with
      | error fault => rfl
      | ok _ =>
        have ih := times_succ_apply step n run'
        rw [bind_apply (times n step)] at ih
        exact ih

end Eval

/-! ## 3. Outcomes in order -/

namespace Discipline

variable {base : Run}

theorem Yields.nothing : D.Yields (α := α) l base none := nofun

theorem Fine.yields (h : D.Fine l base outcome run) : D.Yields l base (some (outcome, run)) := by
  rintro _ _ ⟨⟩
  exact h

/-- A value, or a fault that no reference that dangles and no broken stack has a part in. -/
def Clean (outcome : Except EvalFault α) : Prop :=
  ∀ fault, outcome = .error fault → fault.isBroken = false ∧ fault.isDangling = false

theorem Fine.retype {fault : EvalFault} (h : D.Fine (α := α) l base (.error fault) run) :
    D.Fine (α := β) l base (.error fault) run := by
  cases h with
  | fault hdang hbroken hinv hmay heval => exact .fault hdang hbroken hinv hmay heval
  | dangling hdang hmay => exact .dangling hdang hmay

/-- A step went from `base` to `run` in good order. -/
structure Leads (D : Discipline) (l : Extent) (base run : Run) : Prop where
  inv : D.inv run.session
  may : D.may l base.session run.session
  evaluator_eq : run.evaluator = base.evaluator

theorem Leads.refl (hD : D.Lawful) (h : D.inv run.session) : D.Leads l run run := ⟨h, hD.refl, rfl⟩

theorem Leads.trans (hD : D.Lawful) (h : D.Leads l base run) (h' : D.Leads l run next) :
    D.Leads l base next :=
  ⟨h'.inv, hD.trans h.may h'.may, h'.evaluator_eq.trans h.evaluator_eq⟩

theorem Leads.value (h : D.Leads l base run) (a : α) : D.Fine l base (.ok a) run :=
  .value h.inv h.may h.evaluator_eq

theorem Leads.fault (h : D.Leads l base run) {fault : EvalFault} (hdang : fault.isDangling = false)
    (hbroken : fault.isBroken = false) : D.Fine (α := α) l base (.error fault) run :=
  .fault hdang hbroken h.inv h.may h.evaluator_eq

theorem Leads.settle (h : D.Leads l base run)
    (hclean : Clean outcome) : D.Fine l base outcome run := by
  cases outcome with
  | ok a => exact h.value a
  | error fault => exact h.fault (hclean fault rfl).2 (hclean fault rfl).1

theorem Fine.leads {a : α} (h : D.Fine l base (.ok a) run) : D.Leads l base run := by
  cases h with
  | value hinv hmay heval => exact ⟨hinv, hmay, heval⟩

theorem Fine.settled (h : D.Fine l base outcome run) : (D.Leads l base run ∧ Clean outcome) ∨
    ∃ fault, outcome = .error fault ∧ fault.isDangling = true ∧ D.dangles := by
  cases h with
  | value hinv hmay heval => exact .inl ⟨⟨hinv, hmay, heval⟩, nofun⟩
  | fault hdang hbroken hinv hmay heval =>
    refine .inl ⟨⟨hinv, hmay, heval⟩, ?_⟩
    rintro _ ⟨⟩
    exact ⟨hbroken, hdang⟩
  | dangling hdang hdangles => exact .inr ⟨_, rfl, hdang, hdangles⟩

theorem Fine.leads_of_not_dangles (hD : ¬ D.dangles)
    (h : D.Fine l base outcome run) : D.Leads l base run ∧ Clean outcome :=
  h.settled.resolve_right fun ⟨_, _, _, hdangles⟩ => hD hdangles

theorem Fine.transfer {D' : Discipline} {base' : Run}
    (h : D.Fine l base outcome run) (hdangles : D.dangles → D'.dangles)
    (hstate : D.Leads l base run → D'.Leads l' base' run) : D'.Fine l' base' outcome run := by
  rcases h.settled with ⟨hleads, hclean⟩ | ⟨fault, rfl, hdang, h⟩
  · exact (hstate hleads).settle hclean
  · exact .dangling hdang (hdangles h)

theorem Leads.fine (hD : D.Lawful) (h : D.Leads l base run)
    (h' : D.Fine l run outcome next) : D.Fine l base outcome next :=
  h'.transfer id (h.trans hD)

theorem Leads.yields (hD : D.Lawful) {result : Option (Except EvalFault α × Run)}
    (h : D.Leads l base run) (h' : D.Yields l run result) : D.Yields l base result :=
  fun outcome next e => h.fine hD (h' outcome next e)

theorem Yields.widen {result : Option (Except EvalFault α × Run)}
    (hmay : ∀ {s s'}, D.may l s s' → D.may l' s s') (h : D.Yields l base result) :
    D.Yields l' base result :=
  fun outcome next e => (h outcome next e).transfer id fun h => ⟨h.inv, hmay h.may, h.evaluator_eq⟩

theorem Yields.bind {f : α → Eval β} (hx : D.Yields l base (x run))
    (hf : ∀ a run', x run = some (.ok a, run') → D.Leads l base run' →
      D.Yields l base (f a run')) : D.Yields l base ((x >>= f) run) := by
  rw [bind_apply]
  cases h : x run with
  | none => exact .nothing
  | some p =>
    obtain ⟨outcome, run'⟩ := p
    have hfine := hx outcome run' h
    cases outcome with
    | ok a => exact hf a run' h hfine.leads
    | error fault => exact hfine.retype.yields

theorem Yields.map {f : α → β} (hx : D.Yields l base (x run)) :
    D.Yields l base ((x >>= fun a => pure (f a)) run) :=
  hx.bind fun a _ _ h => (h.value (f a)).yields

theorem Yields.lift {f : Session → Except Fault α × Session}
    (h : D.Fine l base ((f run.session).1.mapError .stack) (run.on (f run.session).2)) :
    D.Yields l base (Eval.lift f run) := by
  rw [lift_apply]
  exact h.yields

theorem Yields.move {f : Session → Except Fault Session} (h : D.Leads l base run)
    (hok : ∀ s, f run.session = .ok s → D.Leads l base (run.on s))
    (hflt : ∀ fault, f run.session = .error fault →
      fault.isDangling = false ∧ fault.isBroken = false) :
    D.Yields l base (Eval.move f run) := by
  rw [move_apply]
  cases hf : f run.session with
  | ok s => exact ((hok s hf).value ()).yields
  | error fault =>
    obtain ⟨hdang, hbroken⟩ := hflt fault hf
    have hdang' : (EvalFault.stack fault).isDangling = false := hdang
    exact (h.fault hdang' hbroken).yields

theorem Yields.walk {x : Except Dangling α} (h : D.Leads l base run)
    (hdangles : ∀ gap, x = .error gap → D.dangles) : D.Yields l base (Eval.walk x run) := by
  cases x with
  | ok a => exact (h.value a).yields
  | error gap => exact (Fine.dangling rfl (hdangles gap rfl)).yields

/-! ## 4. What is begun is ended -/

theorem Yields.attempt {l' : Extent} {f : Except EvalFault α → Eval β}
    (hx : D.Yields l inner (x run))
    (hf : ∀ outcome run', D.Leads l inner run' → Clean outcome →
      D.Yields l' base (f outcome run')) :
    D.Yields l' base ((Eval.attempt x >>= f) run) := by
  rw [bind_apply, Eval.attempt]
  cases h : x run with
  | none => exact .nothing
  | some p =>
    obtain ⟨outcome, run'⟩ := p
    rcases (hx outcome run' h).settled with ⟨hleads, hclean⟩ | ⟨fault, rfl, hdang, hdangles⟩
    · have hnext := hf outcome run' hleads hclean
      cases outcome with
      | ok a => exact hnext
      | error fault =>
        simp only [(hclean fault rfl).2, Bool.false_eq_true, if_false]
        exact hnext
    · simp only [hdang, if_true]
      exact (Fine.dangling hdang hdangles).yields

theorem Yields.andThen {cleanup : Run → Run} (hx : D.Yields l inner (x run))
    (hcleanup : ∀ run', D.Leads l inner run' → D.Leads l' base (cleanup run')) :
    D.Yields l' base (Eval.andThen x cleanup run) := by
  refine hx.attempt fun outcome run' h hclean => ?_
  rw [modify_bind_apply, conclude_apply]
  exact ((hcleanup run' h).settle hclean).yields

theorem Yields.entering {name : String} {args : List Argument} (h : D.Leads l base run)
    (hx : ∀ active, D.Yields l ⟨run.session, active⟩ (x ⟨run.session, active⟩)) (hD : D.Lawful) :
    D.Yields l base (Eval.entering name args x run) := by
  rw [Eval.entering, get_bind_apply]
  simp only
  split
  · exact (h.fault rfl rfl).yields
  · rw [bind_apply]
    refine Yields.andThen (hx _) fun run' h' => ?_
    -- the call noted last is the one that is dropped
    refine h.trans hD ⟨h'.inv, h'.may, ?_⟩
    simp only [remember, h'.evaluator_eq, List.tail_cons]

theorem Yields.binding {item : String} {value : Value} (h : D.Leads l base run)
    (hx : ∀ bindings, D.Yields l ⟨run.session, bindings⟩ (x ⟨run.session, bindings⟩))
    (hD : D.Lawful) : D.Yields l base (Eval.binding item value x run) := by
  refine Yields.andThen (hx _) fun run' h' => ?_
  refine h.trans hD ⟨h'.inv, h'.may, ?_⟩
  simp only [remember, h'.evaluator_eq, List.tail_cons]

theorem Yields.onFrame (hx : D.Yields .frame inner (x run))
    (hback : ∀ run', D.Leads .frame inner run' →
      ∃ s, run'.session.pop = .ok s ∧ D.Leads .call base (run'.on s)) :
    D.Yields .call base (Eval.onFrame x run) := by
  refine hx.attempt fun outcome run' h hclean => ?_
  obtain ⟨s, hs, hleads⟩ := hback run' h
  have hpopped : Eval.attempt (Eval.move Session.pop) run' = some (.ok (.ok ()), run'.on s) := by
    rw [Eval.attempt, move_apply, hs]
  simp only [bind_apply, hpopped, conclude_apply]
  cases outcome with
  | ok a => exact (hleads.value a).yields
  | error fault => exact (hleads.settle hclean).yields

theorem Lawful.stepOut (hD : D.Lawful) : ∀ (n : Nat) {run : Run}, D.inv run.session →
    n < run.session.stack.size → ∃ out, times n (move Session.unpush) run = some (.ok (), out) ∧
    D.inv out.session ∧ out.evaluator = run.evaluator ∧ ∀ run', D.Leads .call out run' → ∃ back,
    times n (move Session.repush) run' = some (.ok (), back) ∧ D.Leads .call run back
  | 0, run, hinv, _ => ⟨run, rfl, hinv, rfl, fun run' h => ⟨run', rfl, h⟩⟩
  | n + 1, run, hinv, hn => by
    obtain ⟨s, hs, hstep⟩ := hD.unpush hinv (by omega)
    have hsize : n < s.stack.size := by
      have := hstep.size_eq
      omega
    have hinv_s : D.inv (run.on s).session := hstep.inv
    obtain ⟨out, hout, hinv', heval, hback⟩ := hD.stepOut n hinv_s hsize
    refine ⟨out, ?_, hinv', heval, fun run' h => ?_⟩
    · rw [times_succ, bind_apply, move_apply, hs]
      exact hout
    · -- the frames come back in the opposite order: the first one out is the last one in
      obtain ⟨back, hrep, hleads⟩ := hback run' h
      obtain ⟨s', hs', hinv'', hmay⟩ := hstep.back hleads.inv hleads.may
      refine ⟨back.on s', ?_, hinv'', hmay, hleads.evaluator_eq⟩
      rw [times_succ_apply, bind_apply, hrep]
      simp only [move_apply, hs']

theorem Yields.inCaller {depth : Nat} (hinv : D.inv run.session)
    (hx : ∀ out, D.inv out.session → D.Yields .call out (x out)) (hD : D.Lawful) :
    D.Yields .call run (Eval.inCaller depth x run) := by
  rw [Eval.inCaller, session_bind_apply]
  by_cases hsize : run.session.stack.size = 0
  · -- on an empty stack there is nothing to step out of
    have hfrs : min (depth + 1) (run.session.stack.size - 1) = 0 := by omega
    simp only [hfrs]
    exact Yields.andThen (hx run hinv) fun _ h => h
  · obtain ⟨out, hout, hinv', heval, hback⟩ := hD.stepOut
      (min (depth + 1) (run.session.stack.size - 1)) hinv (by omega)
    rw [bind_apply, hout]
    refine (hx out hinv').attempt fun outcome run' h hclean => ?_
    obtain ⟨back, hrep, hleads⟩ := hback run' h
    rw [bind_apply, hrep]
    simp only [conclude_apply]
    exact (hleads.settle hclean).yields

end Discipline

/-! ## 5. Bodies and calls -/

namespace Recur

open Discipline

/-- What evaluates the calls and frames inside keeps to the discipline. -/
structure Abides (D : Discipline) (r : Recur) : Prop where
  call : ∀ {run : Run} (call : Call), D.inv run.session → D.Yields .call run (r.call call run)
  frame : ∀ {run : Run} (id : DefId), D.inv run.session → (D.ns.Loopy id → D.loops run.session) →
    D.Yields .frame run (r.frame id run)

variable {r : Recur} {base : Run}

theorem elements_yields (h : D.Leads l base run) (item : String) (value : Value) :
    D.Yields l base (elements item value run) := by
  unfold elements
  split
  · exact (h.value _).yields
  · exact (h.value _).yields
  · exact (h.fault rfl rfl).yields

section

variable (hD : D.Lawful) (hloops : D.loops base.session)
include hD hloops

theorem loops_of_leads (h : D.Leads .loop base run) : D.loops run.session :=
  hD.loops_kept h.may hloops

theorem putValue_yields (h : D.Leads .loop base run) (key : String) (value : Value) :
    D.Yields .loop base (move (·.putValue key value) run) := by
  refine Yields.move h (fun s hs => ?_) fun fault hflt => hD.putValue_fault h.inv hflt
  obtain ⟨hinv, hmay⟩ := hD.putValue h.inv (loops_of_leads hD hloops h) hs
  exact h.trans hD ⟨hinv, hmay, rfl⟩

theorem bindAll_yields :
    ∀ (bindings : List (String × Value)) {run : Run}, D.Leads .loop base run →
      D.Yields .loop base (bindAll bindings run)
  | [], _, h => (h.value ()).yields
  | (name, value) :: rest, run, h => by
    exact (putValue_yields hD hloops h name value).bind fun _ run' _ h' => bindAll_yields rest h'

variable (hbody : ∀ {run : Run}, D.inv run.session → D.loops run.session →
  D.Yields .frame run (body run))
include hbody

theorem iterate_yields (h : D.Leads .loop base run) (item : String) (value : Value) :
    D.Yields .loop base (iterate item value body run) := by
  have hstart : D.Yields .loop base (move (fun s => s.startIteration.map (·.2)) run) := by
    refine Yields.move h (fun s hs => ?_) fun fault hflt =>
      hD.startIteration_fault h.inv (map_eq_error.mp hflt)
    obtain ⟨started, hstarted, rfl⟩ := map_eq_ok.mp hs
    obtain ⟨hinv, hmay⟩ := hD.startIteration h.inv (loops_of_leads hD hloops h) hstarted
    exact h.trans hD ⟨hinv, hmay, rfl⟩
  refine hstart.bind fun _ started _ hstarted => ?_
  refine (bindAll_yields hD hloops _ hstarted).bind fun _ bound _ hbound => ?_
  refine (putValue_yields hD hloops hbound item value).bind fun _ put _ hput => ?_
  refine Yields.binding hput (fun bindings => Yields.widen hD.frame_loop (hbody ?_ ?_)) hD
  · exact hput.inv
  · exact hD.loops_kept hput.may hloops

theorem iterateAll_yields (item : String) :
    ∀ (values : List Value) {run : Run}, D.Leads .loop base run →
      D.Yields .loop base (iterateAll item body values run)
  | [], _, h => (h.value []).yields
  | value :: rest, run, h => by
    refine (iterate_yields hD hloops hbody h item value).bind fun result run' _ h' => ?_
    exact (iterateAll_yields item rest h').map

end

theorem pushed_yields (hD : D.Lawful) (hinv : D.inv run.session) (hid : D.ns.Refers id)
    (args : List Argument) (newCall : Bool)
    (hx : ∀ {s}, D.Entered run.session id s → D.Yields .call run (x (run.on s))) :
    D.Yields .call run ((lift (·.push id args newCall) >>= fun _ => x) run) := by
  rw [bind_apply, lift_apply]
  cases h : run.session.push id args newCall with
  | mk result s =>
    cases result with
    | ok _ => exact hx (hD.push hinv hid h)
    | error fault => exact (hD.push_fault hinv hid h).retype.yields

theorem entered_back (h : D.Entered run.session id s) (run' : Run)
    (h' : D.Leads .frame (run.on s) run') :
    ∃ s'', run'.session.pop = .ok s'' ∧ D.Leads .call run (run'.on s'') := by
  obtain ⟨s'', hpop, hinv, hmay⟩ := h.back h'.inv h'.may
  exact ⟨s'', hpop, hinv, hmay, h'.evaluator_eq⟩

theorem superValue_yields (hD : D.Lawful) (hr : r.Abides D) (hinv : D.inv run.session) :
    D.Yields .call run (superValue r run) := by
  have htop : D.Yields .call run (topFrame run) := by
    rw [topFrame, session_bind_apply]
    cases run.session.topFrame? with
    | some frame => exact ((Leads.refl hD hinv).value frame).yields
    | none => exact ((Leads.refl hD hinv).fault rfl rfl).yields
  refine htop.bind fun frame run' _ hrun' => ?_
  rw [session_bind_apply]
  simp only [hD.ns_eq hrun'.inv]
  cases hsuper : (D.ns.get? frame.definition).bind (·.superdefinition) with
  | none => exact (hrun'.fault rfl rfl).yields
  | some next =>
    obtain ⟨d, hd, hnext⟩ := Option.bind_eq_some_iff.mp hsuper
    refine hrun'.yields hD ?_
    refine pushed_yields hD hrun'.inv (.super hd hnext) _ _ fun {s} hs => ?_
    exact Yields.onFrame (hr.frame next hs.inv hs.loops) (entered_back hs)

mutual
theorem body_yields (hD : D.Lawful) (hr : r.Abides D) : ∀ (b : Body) {run : Run},
    D.inv run.session → (b.hasLoop = true → D.loops run.session) →
      D.Yields .frame run (r.body b run)
  | .empty, _, hinv, _ => ((Leads.refl hD hinv).value _).yields
  | .literal _, _, hinv, _ => ((Leads.refl hD hinv).value _).yields
  | .ref call, _, hinv, _ => (hr.call call hinv).widen hD.call_frame
  | .concat parts, _, hinv, hloops => (bodies_yields hD hr parts hinv hloops).map
  | .list items, _, hinv, hloops => (bodies_yields hD hr items hinv hloops).map
  | .super, _, hinv, _ => (superValue_yields hD hr hinv).widen hD.call_frame
  | .redirect _ _ _, _, hinv, _ => ((Leads.refl hD hinv).fault rfl rfl).yields
  | .each item range inner, run, hinv, hloops => by
    have hhere : D.loops run.session := hloops rfl
    refine (body_yields hD hr range hinv fun _ => hhere).bind fun value ranged _ hranged => ?_
    refine (elements_yields hranged item value).bind fun items run' _ hrun' => ?_
    rw [session_bind_apply]
    have hloops' := hD.loops_kept (hD.frame_loop hrun'.may) hhere
    have hinner : ∀ {run : Run}, D.inv run.session → D.loops run.session →
        D.Yields .frame run (r.body inner run) :=
      fun hinv hloops => body_yields hD hr inner hinv fun _ => hloops
    have hall := iterateAll_yields hD hloops' hinner item items (Leads.refl hD hrun'.inv)
    -- the iteration that the loop began in comes back at its end
    refine Yields.andThen hall.map fun run'' h => hrun'.trans hD ?_
    obtain ⟨hinv', hmay⟩ := hD.setIteration hrun'.inv h.inv h.may
    exact ⟨hinv', hmay, h.evaluator_eq⟩

theorem bodies_yields (hD : D.Lawful) (hr : r.Abides D) : ∀ (bs : List Body) {run : Run},
    D.inv run.session → (Body.anyLoop bs = true → D.loops run.session) →
      D.Yields .frame run (r.bodies bs run)
  | [], _, hinv, _ => ((Leads.refl hD hinv).value _).yields
  | b :: rest, run, hinv, hloops => by
    have hfst : b.hasLoop = true → D.loops run.session := fun h =>
      hloops (by rw [Body.anyLoop, h, Bool.true_or])
    have hrest : Body.anyLoop rest = true → D.loops run.session := fun h =>
      hloops (by rw [Body.anyLoop, h, Bool.or_true])
    refine (body_yields hD hr b hinv hfst).bind fun value run' _ h => ?_
    refine h.yields hD (bodies_yields hD hr rest h.inv fun hl => ?_).map
    exact hD.loops_kept (hD.frame_loop h.may) (hrest hl)
end

theorem calls_yields (hD : D.Lawful) (hr : r.Abides D) : ∀ (cs : List Call) {run : Run},
    D.inv run.session → D.Yields .call run (r.calls cs run)
  | [], _, hinv => ((Leads.refl hD hinv).value _).yields
  | c :: rest, _, hinv => by
    refine (hr.call c hinv).bind fun value run' _ h => ?_
    exact h.yields hD (calls_yields hD hr rest h.inv).map

section

variable (hD : D.Lawful) (hr : r.Abides D)
include hD hr

theorem inFrame_yields (hinv : D.inv run.session)
    (hloops : D.ns.Loopy id → D.loops run.session) : D.Yields .frame run (r.inFrame id run) := by
  rw [inFrame, session_bind_apply, hD.ns_eq hinv]
  cases hd : D.ns.get? id with
  | none => exact ((Leads.refl hD hinv).value _).yields
  | some d =>
    have hbody := body_yields hD hr d.body hinv fun h => hloops ⟨d, hd, h⟩
    simp only
    cases d.kind with
    | collection elements =>
      cases h : d.body with
      | empty => exact (calls_yields hD hr elements hinv).map.widen hD.call_frame
      | _ => rw [h] at hbody; exact hbody
    | _ => exact hbody

theorem argument_yields (hinv : D.inv run.session) (name : String) (binding : ArgumentBinding) :
    D.Yields .call run (r.argument name binding run) := by
  unfold argument
  cases binding.argument with
  | value v => exact ((Leads.refl hD hinv).value v).yields
  | missing => exact ((Leads.refl hD hinv).value Value.null).yields
  | call callee args =>
    refine Yields.entering (Leads.refl hD hinv) (fun active => ?_) hD
    refine Yields.inCaller hinv (fun out hout => ?_) hD
    exact hr.call _ hout

theorem framed_yields (hs : D.Entered run.session id s) :
    D.Yields .frame (run.on s) ((do
      let frame ← topFrame
      return (frame, ← r.frame frame.definition)) ((run.on s).on (s.count .computation))) := by
  obtain ⟨hcounted, hmay⟩ := hD.count hs.inv
  have hcount : D.Leads .frame (run.on s) ((run.on s).on (s.count .computation)) :=
    ⟨hcounted, hD.call_frame hmay, rfl⟩
  refine hcount.yields hD ?_
  -- counting a computation leaves the frame on top
  obtain ⟨frame, hfr, hloops⟩ := hs.frame
  have htop : (s.count .computation).topFrame? = some frame := hfr
  rw [bind_apply, topFrame, session_bind_apply]
  simp only [Run.on, htop, pure_apply]
  refine (hr.frame _ hcounted fun h => ?_).map
  exact hD.loops_kept (hD.frame_loop hcount.may) (hloops h)

theorem instantiate_yields (hinv : D.inv run.session) (hid : D.ns.Refers id)
    (args : List Argument) : D.Yields .call run (r.instantiate id args run) := by
  refine pushed_yields hD hinv hid args true fun {s} hs => ?_
  exact Yields.onFrame (framed_yields hD hr hs) (entered_back hs)

theorem named_yields (hinv : D.inv run.session) (call : Call) :
    D.Yields .call run (r.named call run) := by
  rw [named, session_bind_apply]
  simp only [hD.ns_eq hinv]
  generalize (run.session.keepTarget? call.name).getD call.name = target
  have hwalk : D.Yields .call run (walk (D.ns.lookupFrom run.session.topDefinition? target) run) :=
    Yields.walk (Leads.refl hD hinv) fun _ h => hD.walk h
  refine hwalk.bind fun definition run₁ hdef h₁ => ?_
  refine (Yields.lift (h₁.fine hD (hD.lookup _ h₁.inv))).bind fun found run₂ _ h₂ => ?_
  cases found with
  | some value => exact (h₂.value value).yields
  | none =>
    cases definition with
    | none => exact (h₂.fault rfl rfl).yields
    | some id =>
      obtain ⟨hid, _⟩ := walk_eq_ok.mp hdef
      have hentered : D.Yields .call run
          (entering target call.arguments (r.instantiate id call.arguments) run₂) := by
        refine Yields.entering h₂ (fun active => ?_) hD
        refine instantiate_yields hD hr ?_ (.named hid) call.arguments
        exact h₂.inv
      refine hentered.bind fun computed run₃ _ h₃ => ?_
      obtain ⟨frame, value⟩ := computed
      rw [session_bind_apply]
      split
      · rename_i hstored
        refine Yields.bind (Yields.lift ?_) fun _ run₄ _ h₄ => (h₄.value value).yields
        exact h₃.fine hD (hD.put target hinv h₃.inv h₃.may hid rfl hstored)
      · exact (h₃.value value).yields

/-- **A call keeps to a lawful discipline if the calls and frames inside do.** -/
theorem value_yields (hinv : D.inv run.session) (call : Call) :
    D.Yields .call run (r.value call run) := by
  unfold value
  split
  · exact named_yields hD hr hinv call
  · rw [session_bind_apply]
    cases run.session.argumentFor call.name with
    | some binding => exact argument_yields hD hr hinv call.name binding
    | none => exact named_yields hD hr hinv call

end

end Recur

/-- **Every evaluation keeps to a lawful discipline**, whatever its fuel. -/
theorem abides_within (hD : D.Lawful) (fuel : Nat) :
    Recur.Abides D ⟨evaluateWithin fuel, frameWithin fuel⟩ := by
  induction fuel with
  | zero => exact ⟨fun _ _ => Discipline.Yields.nothing, fun _ _ _ => Discipline.Yields.nothing⟩
  | succ fuel ih =>
    exact ⟨fun call hinv => Recur.value_yields hD ih hinv call,
      fun id hinv hloops => Recur.inFrame_yields hD ih hinv hloops⟩

end KeepTree
