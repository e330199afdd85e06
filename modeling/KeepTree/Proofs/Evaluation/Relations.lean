import KeepTree.Proofs.Evaluation.Discipline

/-!
# Evaluations side by side

What holds of every evaluation, or of two of them that go side by side, is said of runs that are alike:
an evaluation on one of them comes to the same end as on the other. Bodies and calls are put together
from steps, and in few ways: one step after another, a session looked at, a frame pushed and popped, a
call noted as in progress. So all that is to be shown is that operations of the session leave runs
alike that were so:

* `Likeness` -- which runs are alike, and which faults, as seen from a world that grows on the way;
* `Likeness.Lawful` -- the operations that an evaluation makes use of match themselves;
* `body_matches`, `inFrame_matches`, `value_matches` -- **bodies and calls match if the calls and frames
  inside do**.
-/

namespace KeepTree

open Eval

/-- An evaluation itself throws such a fault, and not an operation of the session. -/
def EvalFault.Thrown : EvalFault → Prop
  | .stack (.danglingReference _) | .stack .stackUnderflow | .stack (.undefinedDefinition _)
  | .stack (.redirect _) => True
  | .stack _ => False
  | _ => True

/-- Frames for the same call. -/
def Frame.SameCall (f g : Frame) : Prop := g.definition = f.definition ∧ g.arguments = f.arguments

/-- An evaluation that looks at the sessions sees no difference. -/
structure Session.Seems (s t : Session) : Prop where
  ns_eq : t.ns = s.ns
  size_eq : t.stack.size = s.stack.size
  topFrame? : Option.Rel Frame.SameCall s.topFrame? t.topFrame?
  topDefinition?_eq : t.topDefinition? = s.topDefinition?
  iteration?_eq : t.iteration? = s.iteration?
  marker_eq : t.marker = s.marker
  keepTarget?_eq : ∀ key, t.keepTarget? key = s.keepTarget? key
  isKept_eq : ∀ key, t.isKept key = s.isKept key
  argumentFor_eq : ∀ name, t.argumentFor name = s.argumentFor name

theorem Session.Seems.refl (s : Session) : s.Seems s := by
  refine ⟨rfl, rfl, ?_, rfl, rfl, rfl, fun _ => rfl, fun _ => rfl, fun _ => rfl⟩
  cases s.topFrame? with
  | none => exact .none
  | some frame => exact .some ⟨rfl, rfl⟩

/-! ## 1. Likenesses -/

/-- When two evaluations are said to go side by side: how runs are alike, as seen from a world that may
    grow on the way, and how faults are. -/
structure Likeness where
  World : Type
  grows : World → World → Prop
  runs : World → Run → Run → Prop
  faults : World → EvalFault → EvalFault → Prop
  /-- The first evaluation may be given up. -/
  lax : Prop
  /-- Where a reference dangles, runs need not stay alike. -/
  spoils : Prop := False

namespace Likeness

variable {α β : Type}

/-- Evaluations come to no end, or to results that are related and to runs that are alike, in a larger
    world. -/
inductive Ends (L : Likeness) (w : L.World) (R : L.World → α → α → Prop) :
    Option (Except EvalFault α × Run) → Option (Except EvalFault α × Run) → Prop
  | none : Ends L w R none none
  | givenUp {outcome : Option (Except EvalFault α × Run)} : L.lax → Ends L w R none outcome
  | some {w' : L.World} {x y : Except EvalFault α} {run run' : Run} : L.grows w w' →
      ExceptRel (L.faults w') (R w') x y → L.runs w' run run' →
      Ends L w R (some (x, run)) (some (y, run'))
  | dangling {w' : L.World} {fault fault' : EvalFault} {run run' : Run} : L.spoils →
      L.grows w w' → L.faults w' fault fault' → fault.isDangling = true →
      Ends L w R (some (.error fault, run)) (some (.error fault', run'))

/-- Two steps come to like ends on runs that are alike. -/
def Matches (L : Likeness) (R : α → α → Prop) (x y : Eval α) : Prop :=
  ∀ ⦃w run run'⦄, L.runs w run run' → L.Ends w (fun _ => R) (x run) (y run')

/-- Worlds are ordered, and faults are alike in larger worlds, too. -/
structure Ordered (L : Likeness) : Prop where
  refl : ∀ w, L.grows w w
  trans : ∀ {w w' w''}, L.grows w w' → L.grows w' w'' → L.grows w w''
  mono : ∀ {w w' fault fault'}, L.grows w w' → L.faults w fault fault' → L.faults w' fault fault'
  isDangling_eq : ∀ {w fault fault'}, L.faults w fault fault' → fault'.isDangling = fault.isDangling

variable {L : Likeness} {w : L.World} {R : α → α → Prop} {S : β → β → Prop} {x y : Eval α}
  {run run' : Run} {Q : L.World → α → α → Prop} {Q' : L.World → β → β → Prop} {f g : α → Eval β}

/-! ### Steps -/

namespace Ordered

theorem ends_here (hL : L.Ordered) {a b : Except EvalFault α}
    (hab : ExceptRel (L.faults w) (Q w) a b) (h : L.runs w run run') :
    L.Ends w Q (some (a, run)) (some (b, run')) :=
  .some (hL.refl w) hab h

theorem pure (hL : L.Ordered) (a : α) : L.Matches (· = ·) (Pure.pure a : Eval α) (Pure.pure a) :=
  fun _ _ _ h => hL.ends_here (.ok rfl) h

theorem modify (hL : L.Ordered) {change : Run → Run}
    (hchange : ∀ {w x y}, L.runs w x y → L.runs w (change x) (change y)) :
    L.Matches (· = ·) (modify change : Eval PUnit) (modify change) :=
  fun _ _ _ h => hL.ends_here (.ok rfl) (hchange h)

theorem lift {f : Session → Except Fault α × Session}
    (hf : ∀ {w x y}, L.runs w x y → ∃ w', L.grows w w' ∧
      ExceptRel (fun a b => L.faults w' (.stack a) (.stack b)) (· = ·) (f x.session).1
        (f y.session).1 ∧ L.runs w' (x.on (f x.session).2) (y.on (f y.session).2)) :
    L.Matches (· = ·) (Eval.lift f) (Eval.lift f) := by
  intro w run run' h
  rw [lift_apply, lift_apply]
  obtain ⟨w', hsub, hres, hruns⟩ := hf h
  refine .some hsub ?_ hruns
  generalize (f run.session).1 = x at hres
  generalize (f run'.session).1 = y at hres
  cases hres with
  | error hflt => exact .error hflt
  | ok hab => exact .ok hab

theorem move (hL : L.Ordered) {f : Session → Except Fault Session}
    (hf : ∀ {w x y}, L.runs w x y → ExceptRel (fun a b => L.faults w (.stack a) (.stack b))
      (fun s t => L.runs w (x.on s) (y.on t)) (f x.session) (f y.session)) :
    L.Matches (· = ·) (Eval.move f) (Eval.move f) := by
  intro w run run' h
  rw [move_apply, move_apply]
  have hres := hf h
  generalize f run.session = x at hres
  generalize f run'.session = y at hres
  cases hres with
  | error hflt => exact hL.ends_here (.error hflt) h
  | ok hruns => exact hL.ends_here (.ok rfl) hruns

section

variable (hL : L.Ordered)
include hL

theorem ends_older {w' : L.World} (hw : L.grows w w')
    {p q : Option (Except EvalFault α × Run)} (h : L.Ends w' Q p q) : L.Ends w Q p q := by
  cases h with
  | none => exact .none
  | givenUp hlax => exact .givenUp hlax
  | some hsub hres hruns => exact .some (hL.trans hw hsub) hres hruns
  | dangling hsp hsub hflt hdang => exact .dangling hsp (hL.trans hw hsub) hflt hdang

theorem ends_bind {w' : L.World} (hw : L.grows w w') (hx : L.Ends w' Q (x run) (y run'))
    (hf : ∀ {w'' a b mid mid'}, x run = some (.ok a, mid) → L.grows w' w'' → Q w'' a b →
      L.runs w'' mid mid' → L.Ends w Q' (f a mid) (g b mid')) :
    L.Ends w Q' ((x >>= f) run) ((y >>= g) run') := by
  rw [bind_apply, bind_apply]
  generalize x run = p at hx hf
  generalize y run' = q at hx
  cases hx with
  | none => exact .none
  | givenUp hlax => exact .givenUp hlax
  | some hsub hres hmid =>
    cases hres with
    | error hflt => exact .some (hL.trans hw hsub) (.error hflt) hmid
    | ok hab => exact hf rfl hsub hab hmid
  | dangling hsp hsub hflt hdang => exact .dangling hsp (hL.trans hw hsub) hflt hdang

theorem ends_then (hx : L.Ends w Q (x run) (y run'))
    (hf : ∀ {w' a b mid mid'}, L.grows w w' → Q w' a b → L.runs w' mid mid' →
      L.Ends w' Q' (f a mid) (g b mid')) : L.Ends w Q' ((x >>= f) run) ((y >>= g) run') :=
  hL.ends_bind (hL.refl w) hx fun _ hsub hab hmid => hL.ends_older hsub (hf hsub hab hmid)

theorem bind (hx : L.Matches R x y)
    (hf : ∀ a b, R a b → L.Matches S (f a) (g b)) : L.Matches S (x >>= f) (y >>= g) :=
  fun _ _ _ h => hL.ends_then (hx h) fun _ hab hmid => hf _ _ hab hmid

theorem bind_eq (hx : L.Matches (· = ·) x y)
    (hf : ∀ a, L.Matches S (f a) (g a)) : L.Matches S (x >>= f) (y >>= g) :=
  hL.bind hx fun a _ hab => hab ▸ hf a

theorem map (hx : L.Matches (· = ·) x y) (f : α → β) :
    L.Matches (· = ·) (x >>= fun a => Pure.pure (f a)) (y >>= fun a => Pure.pure (f a)) :=
  hL.bind_eq hx fun _ => hL.pure _

end

theorem times (hL : L.Ordered) {step : Eval Unit} (hstep : L.Matches (· = ·) step step) :
    ∀ n, L.Matches (· = ·) (Eval.times n step) (Eval.times n step)
  | 0 => hL.pure ()
  | n + 1 => hL.bind_eq hstep fun _ => hL.times hstep n

/-! ### Cleaning up -/

theorem attempt (hL : L.Ordered) (hx : L.Ends w (fun _ => R) (x run) (y run')) :
    L.Ends w (fun w' => ExceptRel (L.faults w') R) (Eval.attempt x run) (Eval.attempt y run') := by
  unfold Eval.attempt
  generalize x run = p at hx
  generalize y run' = q at hx
  cases hx with
  | none => exact .none
  | givenUp hlax => exact .givenUp hlax
  | some hsub hres hmid =>
    cases hres with
    | ok hab => exact .some hsub (.ok (.ok hab)) hmid
    | error hflt =>
      simp only
      rw [hL.isDangling_eq hflt]
      split
      · exact .some hsub (.error hflt) hmid
      · exact .some hsub (.ok (.error hflt)) hmid
  | dangling hsp hsub hflt hdang =>
    simp only [hL.isDangling_eq hflt, hdang, if_true]
    exact .dangling hsp hsub hflt hdang

theorem conclude (hL : L.Ordered) {a b : Except EvalFault α} (hab : ExceptRel (L.faults w) R a b)
    (h : L.runs w run run') : L.Ends w (fun _ => R) (Eval.conclude a run) (Eval.conclude b run') := by
  rw [conclude_apply, conclude_apply]
  exact hL.ends_here hab h

theorem ends_andThen (hL : L.Ordered) (hx : L.Ends w (fun _ => R) (x run) (y run'))
    {cleanup : Run → Run} (hcleanup : ∀ {w x y}, L.runs w x y → L.runs w (cleanup x) (cleanup y)) :
    L.Ends w (fun _ => R) (Eval.andThen x cleanup run) (Eval.andThen y cleanup run') :=
  hL.ends_then (hL.attempt hx) fun _ hab hmid => hL.conclude hab (hcleanup hmid)

/-- An iteration, where the same items are bound. -/
theorem iterate (hL : L.Ordered)
    (hstart : L.Matches (· = ·) (Eval.move fun s => s.startIteration.map (·.2))
      (Eval.move fun s => s.startIteration.map (·.2)))
    (hput : ∀ key value, L.Matches (· = ·) (Eval.move (·.putValue key value))
      (Eval.move (·.putValue key value)))
    (hev : ∀ {w x y}, L.runs w x y → y.evaluator = x.evaluator)
    (hremember : ∀ {w x y} f, L.runs w x y → L.runs w (remember f x) (remember f y))
    (item : String) (value : Value) {x y : Eval Value} (hx : L.Matches (· = ·) x y) :
    L.Matches (· = ·) (Recur.iterate item value x) (Recur.iterate item value y) := by
  have hall : ∀ bindings : List (String × Value),
      L.Matches (· = ·) (Recur.bindAll bindings) (Recur.bindAll bindings) := by
    intro bindings
    induction bindings with
    | nil => exact hL.pure ()
    | cons binding rest ih => exact hL.bind_eq (hput binding.1 binding.2) fun _ => ih
  have hbind : L.Matches (· = ·) (Eval.binding item value x) (Eval.binding item value y) :=
    hL.bind_eq (hL.modify (hremember _)) fun _ _ _ _ h =>
      hL.ends_andThen (hx h) (hremember _)
  refine hL.bind_eq hstart fun _ w run run' h => ?_
  rw [get_bind_apply, get_bind_apply, hev h]
  exact hL.bind_eq (hall run.evaluator.bindings.reverse)
    (fun _ => hL.bind_eq (hput item value) fun _ => hbind) h

end Ordered

/-! ## 2. Lawful likenesses -/

/-- An evaluation sees no difference between runs that are alike. -/
structure Viewed (L : Likeness) : Prop extends L.Ordered where
  thrown : ∀ {w} {fault : EvalFault}, fault.Thrown → L.faults w fault fault
  seems : ∀ {w x y}, L.runs w x y → x.session.Seems y.session

/-- What moves on the stack leaves runs alike that were so. -/
structure Moved (L : Likeness) : Prop extends L.Viewed where
  active_eq : ∀ {w x y}, L.runs w x y → y.evaluator.active = x.evaluator.active
  active : ∀ {w x y} (f : List ActiveCall → List ActiveCall), L.runs w x y →
    L.runs w (remember (fun e => { e with active := f e.active }) x)
      (remember (fun e => { e with active := f e.active }) y)
  push : ∀ id arguments newCall, L.Matches (· = ·) (lift (·.push id arguments newCall))
    (lift (·.push id arguments newCall))
  pop : L.Matches (· = ·) (move Session.pop) (move Session.pop)
  unpush : L.Matches (· = ·) (move Session.unpush) (move Session.unpush)
  repush : L.Matches (· = ·) (move Session.repush) (move Session.repush)
  count : ∀ {w x y}, L.runs w x y →
    L.runs w (x.on (x.session.count .computation)) (y.on (y.session.count .computation))

/-- The operations of an evaluation leave runs alike that were so, but for looking for a value. -/
structure Lawful (L : Likeness) : Prop extends L.Moved where
  put : ∀ target holder, L.Matches (· = ·) (lift (·.put target holder)) (lift (·.put target holder))
  setIteration : ∀ {w x y} iteration, L.runs w x y →
    L.runs w (x.on (x.session.setIteration iteration)) (y.on (y.session.setIteration iteration))
  iterate : ∀ {x y} item value, L.Matches (· = ·) x y →
    L.Matches (· = ·) (Recur.iterate item value x) (Recur.iterate item value y)

namespace Viewed

theorem throw (hL : L.Viewed) {fault : EvalFault} (hflt : fault.Thrown) :
    L.Matches R (MonadExcept.throw fault : Eval α) (MonadExcept.throw fault) :=
  fun _ _ _ h => hL.ends_here (.error (hL.thrown hflt)) h

theorem session (hL : L.Viewed) {f g : Session → Eval α}
    (hf : ∀ {s t : Session}, s.Seems t → L.Matches R (f s) (g t)) :
    L.Matches R (Eval.session >>= f) (Eval.session >>= g) :=
  fun _ _ _ h => hf (hL.seems h) h

theorem topFrame (hL : L.Viewed) : L.Matches Frame.SameCall Eval.topFrame Eval.topFrame := by
  refine hL.session fun {s t} hst => ?_
  have htop := hst.topFrame?
  generalize s.topFrame? = x at htop
  generalize t.topFrame? = y at htop
  cases htop with
  | none => exact hL.throw trivial
  | some hfg => exact fun _ _ _ h => hL.ends_here (.ok hfg) h

end Viewed

namespace Moved

section

variable (hL : L.Moved)
include hL

theorem ends_entering {name : String} {args : List Argument} (h : L.runs w run run')
    (hx : ∀ {x' y'}, x'.session = run.session → L.runs w x' y' →
      L.Ends w (fun _ => R) (x x') (y y')) :
    L.Ends w (fun _ => R) (Eval.entering name args x run) (Eval.entering name args y run') := by
  unfold Eval.entering
  rw [get_bind_apply, get_bind_apply, hL.active_eq h, (hL.seems h).marker_eq]
  split
  · have hflt : (EvalFault.circularReference name).Thrown := trivial
    exact hL.throw hflt h
  · refine hL.ends_andThen ?_ (hL.active List.tail)
    refine hx ?_ (hL.active (_ :: ·) h)
    rfl

theorem ends_onFrame (hx : L.Ends w (fun _ => R) (x run) (y run')) :
    L.Ends w (fun _ => R) (Eval.onFrame x run) (Eval.onFrame y run') := by
  refine hL.ends_then (hL.attempt hx) fun _ hab hmid => ?_
  refine hL.ends_then (hL.attempt (hL.pop hmid)) fun hsub hdone hend => ?_
  -- the fault is older than the pop, and the world has grown no smaller
  refine hL.ends_then (hL.conclude (hab.imp (hL.mono hsub) id) hend) fun hsub' hab hend => ?_
  refine hL.ends_then (hL.conclude (hdone.imp (hL.mono hsub') id) hend) fun _ _ hend => ?_
  exact hL.ends_here (.ok hab) hend

theorem ends_inCaller {depth : Nat} (h : L.runs w run run')
    (hx : ∀ {w' out out'}, times (min (depth + 1) (run.session.stack.size - 1)) (move Session.unpush)
      run = some (.ok (), out) → L.grows w w' → L.runs w' out out' →
      L.Ends w' (fun _ => R) (x out) (y out')) :
    L.Ends w (fun _ => R) (Eval.inCaller depth x run) (Eval.inCaller depth y run') := by
  rw [Eval.inCaller, Eval.inCaller, session_bind_apply, session_bind_apply, (hL.seems h).size_eq]
  refine hL.ends_bind (hL.refl w) (hL.times hL.unpush _ h) fun hout hsub _ h => ?_
  refine hL.ends_older hsub (hL.ends_then (hL.attempt (hx hout hsub h)) fun _ hab h => ?_)
  refine hL.ends_then (hL.times hL.repush _ h) fun hsub _ h => ?_
  exact hL.conclude (hab.imp (hL.mono hsub) id) h

end

section

variable (hL : L.Moved) (hx : L.Matches R x y)
include hL hx

theorem entering (name : String) (args : List Argument) :
    L.Matches R (Eval.entering name args x) (Eval.entering name args y) :=
  fun _ _ _ h => hL.ends_entering h fun _ h => hx h

theorem onFrame : L.Matches R (Eval.onFrame x) (Eval.onFrame y) :=
  fun _ _ _ h => hL.ends_onFrame (hx h)

theorem inCaller (depth : Nat) : L.Matches R (Eval.inCaller depth x) (Eval.inCaller depth y) :=
  fun _ _ _ h => hL.ends_inCaller h fun _ _ h => hx h

end

end Moved

end Likeness

/-! ## 3. Bodies and calls -/

namespace Recur

variable {L : Likeness} {r r' : Recur}

/-- What evaluates the calls and frames inside matches. -/
structure Matches (L : Likeness) (r r' : Recur) : Prop where
  call : ∀ call, L.Matches (· = ·) (r.call call) (r'.call call)
  frame : ∀ id, L.Matches (· = ·) (r.frame id) (r'.frame id)

theorem elements_matches (hL : L.Viewed) (item : String) (value : Value) :
    L.Matches (· = ·) (elements item value) (elements item value) := by
  unfold elements
  split
  · exact hL.pure _
  · exact hL.pure _
  · exact hL.throw trivial

theorem iterateAll_matches (hL : L.Lawful) (item : String) {x y : Eval Value}
    (hx : L.Matches (· = ·) x y) : ∀ values : List Value,
    L.Matches (· = ·) (iterateAll item x values) (iterateAll item y values)
  | [] => hL.pure _
  | value :: rest => hL.bind_eq (hL.iterate item value hx) fun _ =>
      hL.map (iterateAll_matches hL item hx rest) _

theorem superValue_matches (hL : L.Lawful) (hr : r.Matches L r') :
    L.Matches (· = ·) r.superValue r'.superValue := by
  refine hL.bind hL.topFrame fun f g ⟨hdef, hargs⟩ => hL.session fun {s t} hst => ?_
  simp only [hst.ns_eq, hdef, hargs]
  cases (s.ns.get? f.definition).bind (·.superdefinition) with
  | none => exact hL.throw trivial
  | some id => exact hL.bind_eq (hL.push _ _ _) fun _ => hL.onFrame (hr.frame id)

theorem stored_matches (hL : L.Viewed) (id : DefId) {target : String} {holder : Holder}
    (hput : L.Matches (· = ·) (lift (·.put target holder)) (lift (·.put target holder)))
    (value : Value) : L.Matches (· = ·)
      (do if isStored (← session) id target then let _ ← lift (·.put target holder)
          return value)
      (do if isStored (← session) id target then let _ ← lift (·.put target holder)
          return value) := by
  refine hL.session fun {s t} hst => ?_
  rw [isStored, isStored, hst.ns_eq, hst.isKept_eq target]
  split
  · exact hL.map hput fun _ => value
  · exact hL.pure _

/-- The same value, computed in frames for the same call. -/
def SameComputed (x y : Frame × Value) : Prop := x.1.SameCall y.1 ∧ y.2 = x.2

mutual
theorem body_matches (hL : L.Lawful) (hr : r.Matches L r') :
    ∀ b : Body, L.Matches (· = ·) (r.body b) (r'.body b)
  | .empty => hL.pure _
  | .literal _ => hL.pure _
  | .ref call => hr.call call
  | .concat parts => hL.map (bodies_matches hL hr parts) _
  | .list items => hL.map (bodies_matches hL hr items) _
  | .super => superValue_matches hL hr
  | .redirect _ _ _ => hL.throw trivial
  | .each item range inner => by
    refine hL.bind_eq (body_matches hL hr range) fun value =>
      hL.bind_eq (elements_matches hL.toViewed item value) fun items => hL.session fun {s t} hst => ?_
    rw [hst.iteration?_eq]
    have hall := iterateAll_matches hL item (body_matches hL hr inner) items
    exact fun _ _ _ h => hL.ends_andThen (hL.map hall Value.list h) (hL.setIteration _)

theorem bodies_matches (hL : L.Lawful) (hr : r.Matches L r') :
    ∀ bs : List Body, L.Matches (· = ·) (r.bodies bs) (r'.bodies bs)
  | [] => hL.pure _
  | b :: rest => by
    exact hL.bind_eq (body_matches hL hr b) fun _ => hL.map (bodies_matches hL hr rest) _
end

/-- A call among the arguments is evaluated in the frame that supplied it. -/
theorem argument_matches_at (hL : L.Moved) (name : String) (binding : ArgumentBinding) {w : L.World}
    {run run' : Run} (h : L.runs w run run')
    (hcall : ∀ {callee args w' x out out'}, binding.argument = .call callee args →
      x.session = run.session →
      times (min (binding.depth + 1) (x.session.stack.size - 1)) (move Session.unpush) x =
        some (.ok (), out) → L.grows w w' → L.runs w' out out' →
      L.Ends w' (fun _ => (· = ·)) (r.call ⟨callee, args⟩ out) (r'.call ⟨callee, args⟩ out')) :
    L.Ends w (fun _ => (· = ·)) (r.argument name binding run) (r'.argument name binding run') := by
  unfold argument
  cases harg : binding.argument with
  | value v => exact hL.pure v h
  | missing => exact hL.pure Value.null h
  | call callee args =>
    exact hL.ends_entering h fun hsess h => hL.ends_inCaller h (hcall harg hsess)

section

variable (hL : L.Lawful) (hr : r.Matches L r')
include hL hr

theorem calls_matches : ∀ cs : List Call, L.Matches (· = ·) (r.calls cs) (r'.calls cs)
  | [] => hL.pure _
  | c :: rest => hL.bind_eq (hr.call c) fun _ => hL.map (calls_matches rest) _

/-- **The value of a definition in the frame on top** matches if the calls and frames inside do. -/
theorem inFrame_matches (id : DefId) : L.Matches (· = ·) (r.inFrame id) (r'.inFrame id) := by
  refine hL.session fun {s t} hst => ?_
  rw [hst.ns_eq]
  split
  · exact hL.pure _
  · split
    · exact hL.map (calls_matches hL hr _) _
    · exact body_matches hL hr _

theorem instantiate_matches (id : DefId) (args : List Argument) :
    L.Matches SameComputed (r.instantiate id args) (r'.instantiate id args) := by
  refine hL.bind_eq (hL.push id args true) fun _ => hL.bind_eq (hL.modify hL.count) fun _ => ?_
  refine hL.onFrame (hL.bind hL.topFrame fun f g hfg => ?_)
  rw [hfg.1]
  exact hL.bind_eq (hr.frame f.definition) fun value _ _ _ h => hL.ends_here (.ok ⟨hfg, rfl⟩) h

end

/-- A definition that is evaluated, and put where its values are stored. -/
def computed (r : Recur) (id : DefId) (target : String) (args : List Argument) : Eval Value := do
  let (frame, value) ← entering target args (r.instantiate id args)
  if isStored (← session) id target then
    let holder := (Holder.of id args (some value)).withResolution frame.definition frame.arguments
    let _ ← lift (·.put target holder)
  return value

theorem computed_matches_at (hL : L.Viewed) {id : DefId} {target : String} {args : List Argument}
    {w : L.World} {run run' : Run}
    (hx : L.Ends w (fun _ => SameComputed) (entering target args (r.instantiate id args) run)
      (entering target args (r'.instantiate id args) run'))
    (hput : ∀ holder, L.Matches (· = ·) (lift (·.put target holder)) (lift (·.put target holder))) :
    L.Ends w (fun _ => (· = ·)) (r.computed id target args run) (r'.computed id target args run') := by
  refine hL.ends_then hx ?_
  rintro _ ⟨frame, _⟩ ⟨_, value⟩ _ _ _ ⟨⟨hdef, hargs⟩, rfl⟩ hmid
  simp only at hdef hargs
  simp only [hdef, hargs]
  exact stored_matches hL id (hput _) value hmid

/-- A call of what a name stands for, if values are looked for and computed alike. -/
theorem named_matches_at (hL : L.Viewed) (call : Call) {w : L.World} {run run' : Run}
    (h : L.runs w run run')
    (hlook : ∀ found, run.session.ns.lookupFrom run.session.topDefinition?
        ((run.session.keepTarget? call.name).getD call.name) = .ok found →
      L.Ends w (fun _ => (· = ·)) (lift (·.lookup (request run.session.ns call found)) run)
        (lift (·.lookup (request run.session.ns call found)) run'))
    (hnew : ∀ {id w' mid mid'}, run.session.ns.lookupFrom run.session.topDefinition?
        ((run.session.keepTarget? call.name).getD call.name) = .ok (some id) →
      lift (·.lookup (request run.session.ns call (some id))) run = some (.ok none, mid) →
      L.grows w w' → L.runs w' mid mid' →
      L.Ends w' (fun _ => (· = ·))
        (r.computed id ((run.session.keepTarget? call.name).getD call.name) call.arguments mid)
        (r'.computed id ((run.session.keepTarget? call.name).getD call.name) call.arguments mid')) :
    L.Ends w (fun _ => (· = ·)) (r.named call run) (r'.named call run') := by
  have hst := hL.seems h
  rw [named, named, session_bind_apply, session_bind_apply, hst.ns_eq,
    hst.topDefinition?_eq, hst.keepTarget?_eq call.name]
  cases hfd : run.session.ns.lookupFrom run.session.topDefinition?
      ((run.session.keepTarget? call.name).getD call.name) with
  | error gap => exact hL.ends_here (.error (hL.thrown trivial)) h
  | ok definition =>
    change L.Ends w _ ((lift (·.lookup (request _ call definition)) >>= _) run)
      ((lift (·.lookup (request _ call definition)) >>= _) run')
    refine hL.ends_bind (hL.refl w) (hlook definition hfd)
      fun {_ found _ _ _} hfound hsub hsame hmid => hL.ends_older hsub ?_
    subst hsame
    cases found with
    | some value => exact hL.ends_here (.ok rfl) hmid
    | none =>
      cases definition with
      | none => exact hL.ends_here (.error (hL.thrown trivial)) hmid
      | some id => exact hnew hfd hfound hsub hmid

/-- **A call** matches if the calls and frames inside do, and values that are looked for. -/
theorem value_matches (hL : L.Lawful)
    (hlook : ∀ r, L.Matches (· = ·) (lift (·.lookup r)) (lift (·.lookup r)))
    (hr : r.Matches L r') (call : Call) : L.Matches (· = ·) (r.value call) (r'.value call) := by
  have hnamed : L.Matches (· = ·) (r.named call) (r'.named call) :=
    fun _ _ _ h => named_matches_at hL.toViewed call h (fun _ _ => hlook _ h) fun _ _ _ hmid =>
      computed_matches_at hL.toViewed (hL.entering (instantiate_matches hL hr _ _) _ _ hmid) (hL.put _)
  unfold value
  split
  · exact hnamed
  · refine hL.session fun {s t} hst => ?_
    rw [hst.argumentFor_eq call.name]
    split
    · exact fun _ _ _ h => argument_matches_at hL.toMoved _ _ h fun _ _ _ _ h => hr.call _ h
    · exact hnamed

end Recur

/-- **Every evaluation matches itself**, whatever its fuel. -/
theorem matches_within {L : Likeness} (hL : L.Lawful)
    (hlook : ∀ r, L.Matches (· = ·) (lift (·.lookup r)) (lift (·.lookup r)))
    (fuel : Nat) : Recur.Matches L ⟨evaluateWithin fuel, frameWithin fuel⟩
      ⟨evaluateWithin fuel, frameWithin fuel⟩ := by
  induction fuel with
  | zero => exact ⟨fun _ _ _ _ _ => .none, fun _ _ _ _ _ => .none⟩
  | succ fuel ih => exact ⟨Recur.value_matches hL hlook ih, Recur.inFrame_matches hL ih⟩

end KeepTree
