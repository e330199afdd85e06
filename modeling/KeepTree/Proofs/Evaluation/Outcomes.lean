import KeepTree.Proofs.Durable.Pointers
import KeepTree.Proofs.Evaluation.Items

/-!
# Outcomes

How a call comes out, apart from the state that it leaves. Pushing and popping a frame, stepping out to
the caller and noting that a call is in progress do not show in it, so a call comes out as what is
evaluated in the end, in the frames that are on the stack then:

* `Recur.named_outcome`, `superValue_outcome` -- **a call comes out as the frame that is pushed for
  it**, and so does a super call;
* `Recur.parameter_comes` -- **the name of a parameter comes out as its argument**, which is evaluated
  on the frames below the one that has the parameter.
-/

namespace KeepTree

open Discipline Eval

variable {α : Type} {run : Run} {s t : Session} {ns : Namespace} {rest : List Stack} {frame : Frame}
  {id : DefId} {arguments : List Argument} {d : Definition} {p : String} {call : Call} {x : Eval α}

/-! ## 1. Outcomes -/

namespace Eval

variable {β : Type}

/-- How a step comes out, whatever state it leaves. -/
def outcome (x : Eval α) (run : Run) : Option (Except EvalFault α) := (x run).map (·.1)

theorem outcome_bind {f : α → Eval β} {g : α → β}
    (hf : ∀ a run', x run = some (.ok a, run') → (f a).outcome run' = some (.ok (g a))) :
    (x >>= f).outcome run = (x.outcome run).map (·.map g) := by
  rw [outcome, bind_apply, outcome]
  cases hx : x run with
  | none => rfl
  | some p =>
    obtain ⟨result, run'⟩ := p
    cases result with
    | ok a => exact hf a run' hx
    | error fault => rfl

theorem outcome_attempt {f : Except EvalFault α → Eval α}
    (hf : ∀ result run', x run = some (result, run') → (f result).outcome run' = some result) :
    (attempt x >>= f).outcome run = x.outcome run := by
  rw [outcome, bind_apply, attempt, outcome]
  cases hx : x run with
  | none => rfl
  | some p =>
    obtain ⟨result, run'⟩ := p
    have hres := hf result run' hx
    cases result with
    | ok a => exact hres
    | error fault =>
      by_cases h : fault.isDangling = true
      · simp only [h, if_true]
      · simp only [h]
        exact hres

theorem outcome_andThen (x : Eval α) (cleanup : Run → Run) (run : Run) :
    (andThen x cleanup).outcome run = x.outcome run :=
  outcome_attempt fun result run' _ => by
    rw [outcome, modify_bind_apply, conclude_apply]
    rfl

theorem outcome_entering (x : Eval α) {name : String}
    (hnew : run.evaluator.active.any (·.same ⟨run.session.marker, name, arguments⟩) = false) :
    (entering name arguments x).outcome run = x.outcome (noting name arguments run) := by
  rw [outcome, entering, get_bind_apply]
  simp only [hnew, Bool.false_eq_true, if_false]
  exact outcome_andThen x _ _

theorem outcome_onFrame
    (hpop : ∀ result run', x run = some (result, run') → ∃ s, run'.session.pop = .ok s) :
    (onFrame x).outcome run = x.outcome run := by
  refine outcome_attempt fun result run' hx => ?_
  obtain ⟨s, hs⟩ := hpop result run' hx
  have hpopped : attempt (move Session.pop) run' = some (.ok (.ok ()), run'.on s) := by
    rw [attempt, move_apply, hs]
  simp only [outcome, bind_apply, hpopped, conclude_apply]
  cases result <;> rfl

end Eval

namespace Discipline

variable {D : Discipline}

theorem Lawful.outcome_inCaller (hD : D.Lawful) (hdangles : ¬ D.dangles) (hinv : D.inv run.session)
    (hsize : 1 < run.session.stack.size)
    (hx : ∀ out, D.inv out.session → D.Yields .call out (x out)) :
    ∃ s, run.session.unpush = .ok s ∧ (inCaller 0 x).outcome run = x.outcome (run.on s) := by
  obtain ⟨s, hs, hout⟩ := hD.unpush hinv hsize
  refine ⟨s, hs, ?_⟩
  have hsteps : min (0 + 1) (run.session.stack.size - 1) = 1 := by omega
  have hunp : times 1 (move Session.unpush) run = some (.ok (), run.on s) := by
    rw [times_succ, bind_apply, move_apply, hs]
    rfl
  rw [outcome, inCaller, session_bind_apply]
  simp only [hsteps]
  rw [bind_apply, hunp]
  refine outcome_attempt fun result run' h => ?_
  obtain ⟨hleads, _⟩ := (hx (run.on s) hout.inv result run' h).leads_of_not_dangles hdangles
  obtain ⟨back, hback, _⟩ := hout.back hleads.inv hleads.may
  have hrep : times 1 (move Session.repush) run' = some (.ok (), run'.on back) := by
    rw [times_succ, bind_apply, move_apply, hback]
    rfl
  simp only [outcome, bind_apply, hrep, conclude_apply]
  rfl

end Discipline

/-! ## 2. Pushing -/

namespace Session

/-- A new frame was put on top. -/
structure Tops (ns : Namespace) (rest : List Stack) (s : Session) (frame : Frame) (t : Session) :
    Prop where
  direct : t.Direct ns rest
  topFrame?_eq : t.topFrame? = some frame
  size_eq : t.stack.size = s.stack.size + 1
  limits_eq : t.limits = s.limits
  state_eq : frame.state = s.family.clock + 1
  clock_eq : t.family.clock = s.family.clock + 1
  view_eq : ∃ new, t.view Frame.bare = (new, frame.bare) :: s.view Frame.bare

/-- **A push on a stack that may grow puts a frame on top**, if the definition stands for one. -/
theorem push_tops (hs : s.Direct ns rest) (hcl : ns.Closed) {bound : Bound}
    (hroom : s.stack.size < s.limits.maxDepth)
    (hcan : ns.canonical ⟨id, arguments⟩ s.topDefinition? s.limits.maxPointerHops =
      .ok (some bound)) (hd : ns.get? bound.definition = some d) (newCall : Bool) :
    ∃ frame t, s.push id arguments newCall = (.ok (), t) ∧ s.Tops ns rest frame t ∧
      frame.definition = bound.definition ∧ frame.parameters = d.parameters ∧
      frame.arguments = bound.arguments := by
  have hns := hs.fit.ns_eq
  have hprep := preparePush_eq hs.fit.top_live hroom (hns.symm ▸ hcan) (hns.symm ▸ hd)
  have hok := frameFor_ok hcl hns (hns.symm ▸ hd) s.topFrame? newCall
  obtain ⟨hstd, hfresh, hdef, hargs, hpars, _⟩ := frameFor_effect s bound d s.topFrame? newCall
  have hdir := (direct_tracks ns rest).push s id arguments newCall hs
  have hpush : s.push id arguments newCall = (.ok (),
      s.enter (s.frameFor bound d s.topFrame? newCall).2.1
        (s.frameFor bound d s.topFrame? newCall).2.2) := by
    rw [push, hprep]
    simp only [pushBound]
    rw [hok]
    rfl
  rw [hpush] at hdir
  obtain ⟨other, _, _, hview, _⟩ := enter_view Frame.bare_plain.ignoresCounts hs.fit.sound hfresh hroom
    (s.frameFor bound d s.topFrame? newCall).2.2
  exact ⟨_, _, hpush, ⟨hdir, enter_topFrame? hs.fit.sound _ _, rfl, hstd.limits_eq,
    hfresh.state_eq, rfl, other, hview⟩, hdef, hpars, hargs⟩

theorem argumentFor_top (hs : s.Fit ns rest) (htop : s.topFrame? = some frame)
    (hp : p ∈ frame.parameters) : s.argumentFor p =
      some ⟨frame.arguments[frame.parameters.idxOf p]?.getD .missing, 0, frame.parameters.idxOf p,
        frame.definition⟩ := by
  obtain ⟨id, hid, hf⟩ := Option.bind_eq_some_iff.mp htop
  obtain ⟨more, hmore⟩ : ∃ more, enclosing s.ns s.frames = frame :: more := by
    rw [frames_cons hs.sound hid hf]
    cases s.family.pool.chain frame.previous with
    | nil => exact ⟨[], rfl⟩
    | cons below lower =>
      rw [enclosing]
      split <;> exact ⟨_, rfl⟩
  have hidx : frame.parameterIndex? p = some (frame.parameters.idxOf p) :=
    List.findIdx?_eq_some_iff_findIdx_eq.mpr ⟨List.idxOf_lt_length_of_mem hp, rfl⟩
  rw [argumentFor, hmore, bindingIn, hidx]

end Session

/-! ## 3. Calls, super calls and parameters -/

/-- The run in the frame of a definition that is evaluated for a call. -/
def Run.framed (run : Run) (call : Call) (id : DefId) : Run :=
  let found := run.on (run.session.lookup (Recur.request run.session.ns call (some id))).2
  let noted := noting ((run.session.keepTarget? call.name).getD call.name) call.arguments found
  noted.on ((found.session.push id call.arguments true).2.count .computation)

/-- What is known of a call of a definition before it is evaluated: its value, why that cannot be looked
    for, or that the call is in progress. -/
def Run.settled? (run : Run) (call : Call) (id : DefId) : Option (Except EvalFault Value) :=
  let target := (run.session.keepTarget? call.name).getD call.name
  match (run.session.find (Recur.request run.session.ns call (some id))).1 with
  | .ok (some value) => some (.ok value)
  | .error fault => some (.error (.stack fault))
  | .ok none =>
    if run.evaluator.active.any (·.same ⟨run.session.marker, target, call.arguments⟩) then
      some (.error (.circularReference target))
    else none

namespace Recur

open Session

variable {r : Recur}

/-- What evaluates calls and frames leaves the stack as it was and all tables there. -/
structure Sober (ns : Namespace) (rest : List Stack) (r : Recur) : Prop where
  abides : r.Abides (.restoring ns rest)
  fails : r.FailsBy (Direct ns rest) Unchained

theorem within_sober (ns : Namespace) (rest : List Stack) (fuel : Nat) : (within fuel).Sober ns rest :=
  ⟨abides_within (restoring_lawful ns rest) fuel, failsBy_within (direct_fallible ns rest) fuel⟩

theorem onFrame_outcome (hcl : ns.Closed) {base : Run}
    (hentered : (restoring ns rest).Entered base.session id s)
    (hx : (restoring ns rest).Yields .frame (base.on s) (x run)) :
    (onFrame x).outcome run = x.outcome run := by
  refine outcome_onFrame fun result run' h => ?_
  have hdangles : ¬ (restoring ns rest).dangles := fun hopen => hopen hcl
  obtain ⟨hleads, _⟩ := (hx result run' h).leads_of_not_dangles hdangles
  obtain ⟨s'', hpop, _⟩ := hentered.back hleads.inv hleads.may
  exact ⟨s'', hpop⟩

theorem superValue_outcome (hcl : ns.Closed) (hr : r.Sober ns rest)
    (hs : run.session.Direct ns rest) (htop : run.session.topFrame? = some frame)
    (hd : ns.get? frame.definition = some d) {upper : DefId}
    (hupper : d.superdefinition = some upper)
    (hpush : run.session.push upper frame.arguments false = (.ok (), t)) :
    r.superValue.outcome run = (r.frame upper).outcome (run.on t) := by
  have hlawful := restoring_lawful ns rest
  have hentered := hlawful.push hs.fit (.super hd hupper) hpush
  rw [← onFrame_outcome hcl hentered (hr.abides.frame upper hentered.inv hentered.loops)]
  have hnext : (run.session.ns.get? frame.definition).bind (·.superdefinition) = some upper := by
    rw [hs.fit.ns_eq, hd]
    exact hupper
  rw [outcome, superValue, bind_apply, topFrame, session_bind_apply, htop]
  simp only [pure_apply]
  rw [session_bind_apply]
  simp only [hnext]
  rw [bind_apply, lift_apply, hpush]
  rfl

theorem instantiate_outcome (hcl : ns.Closed) (hr : r.Sober ns rest)
    (hs : run.session.Direct ns rest) (hid : ns.Refers id)
    (hpush : run.session.push id arguments true = (.ok (), t)) (htop : t.topFrame? = some frame) :
    (r.instantiate id arguments).outcome run =
      ((r.frame frame.definition).outcome (run.on (t.count .computation))).map
        (·.map fun value => (frame, value)) := by
  have hlawful := restoring_lawful ns rest
  have hentered := hlawful.push hs.fit hid hpush
  have hcounted : (t.count .computation).topFrame? = some frame := htop
  have hinside := onFrame_outcome hcl hentered (framed_yields hlawful hr.abides hentered)
  rw [outcome, instantiate, bind_apply, lift_apply, hpush]
  refine Eq.trans hinside ?_
  rw [outcome, bind_apply, topFrame, session_bind_apply]
  simp only [Run.on, hcounted, pure_apply]
  exact outcome_bind fun value run' _ => rfl

theorem lookup_marker (s : Session) (request : Request) : (s.lookup request).2.marker = s.marker := by
  obtain ⟨engine, _, hs⟩ := lookup_effect s request
  rw [hs]
  rfl

theorem settled?_eq_none : run.settled? call id = none ↔
    (run.session.lookup (request run.session.ns call (some id))).1 = .ok none ∧
      run.evaluator.active.any (·.same ⟨run.session.marker,
        (run.session.keepTarget? call.name).getD call.name, call.arguments⟩) = false := by
  rw [Run.settled?, lookup_result]
  cases (run.session.find (request run.session.ns call (some id))).1 with
  | error fault => exact ⟨nofun, fun h => nomatch h.1⟩
  | ok found =>
    cases found with
    | some value => exact ⟨nofun, fun h => nomatch h.1⟩
    | none => simp

theorem named_settled
    (hfd : run.session.ns.lookupFrom run.session.topDefinition?
      ((run.session.keepTarget? call.name).getD call.name) = .ok (some id))
    {result : Except EvalFault Value} (hsettled : run.settled? call id = some result) :
    (r.named call).outcome run = some result := by
  have hwalk : walk (.ok (some id)) run = some (.ok (some id), run) := rfl
  have hmarker := lookup_marker run.session (request run.session.ns call (some id))
  rw [Run.settled?] at hsettled
  rw [outcome, named, session_bind_apply]
  simp only [hfd]
  rw [bind_apply, hwalk]
  simp only
  rw [bind_apply, lift_apply, lookup_result]
  cases hfind : (run.session.find (request run.session.ns call (some id))).1 with
  | error fault =>
    rw [hfind] at hsettled
    cases hsettled
    rfl
  | ok found =>
    cases found with
    | some value =>
      rw [hfind] at hsettled
      cases hsettled
      rfl
    | none =>
      simp only [hfind] at hsettled
      split at hsettled
      · rename_i hactive
        cases hsettled
        simp only [Except.mapError]
        rw [bind_apply, entering, get_bind_apply]
        simp only [Run.on, hmarker, hactive]
        rfl
      · cases hsettled

theorem stored_outcome (hcl : ns.Closed) (hs : run.session.Direct ns rest)
    (hsize : 0 < run.session.stack.size) (hid : id < ns.size) (target : String)
    (arguments : List Argument) (made : Frame) (value : Value) :
    outcome (do
      if isStored (← session) id target then
        let holder := (Holder.of id arguments (some value)).withResolution
          made.definition made.arguments
        let _ ← lift (·.put target holder)
      return value) run = some (.ok value) := by
  rw [outcome, session_bind_apply]
  split
  · obtain ⟨slot, hput⟩ := hs.putsWhole.succeeds hcl hsize target
      ((Holder.of id arguments (some value)).withResolution made.definition made.arguments)
      run.session.limits.propagationLevels hid
    have hput : (run.session.put target
        ((Holder.of id arguments (some value)).withResolution made.definition made.arguments)).1 =
          .ok slot := hput
    rw [bind_apply, lift_apply, hput]
    rfl
  · rfl

/-- **A call that is not settled comes out as the frame that is pushed for it.** -/
theorem named_outcome (hcl : ns.Closed) (hr : r.Sober ns rest) (hs : run.session.Direct ns rest)
    (hsize : 0 < run.session.stack.size)
    (hfd : ns.lookupFrom run.session.topDefinition?
      ((run.session.keepTarget? call.name).getD call.name) = .ok (some id))
    (hopen : run.settled? call id = none)
    (hpush : (run.session.lookup (request ns call (some id))).2.push id call.arguments true =
      (.ok (), t)) (htop : t.topFrame? = some frame) :
    (r.named call).outcome run = (r.frame frame.definition).outcome (run.framed call id) := by
  have hlawful := restoring_lawful ns rest
  obtain ⟨hmiss, hnew⟩ := settled?_eq_none.mp hopen
  rw [hs.fit.ns_eq] at hmiss
  have hlook : run.session.lookup (request ns call (some id)) =
      (.ok none, (run.session.lookup (request ns call (some id))).2) := Prod.ext hmiss rfl
  have hdir := (direct_tracks ns rest).lookup run.session (request ns call (some id)) hs
  have hframed : run.framed call id = (noting ((run.session.keepTarget? call.name).getD call.name)
      call.arguments (run.on (run.session.lookup (request ns call (some id))).2)).on
        (t.count .computation) := by
    rw [Run.framed, hs.fit.ns_eq]
    simp only [Run.on, hpush]
  rw [hframed]
  rw [outcome, named, session_bind_apply, hs.fit.ns_eq]
  simp only [hfd]
  have hmarker := lookup_marker run.session (request ns call (some id))
  have hheight : (run.session.lookup (request ns call (some id))).2.stack.size =
      run.session.stack.size := by
    obtain ⟨engine, _, hquiet⟩ := lookup_effect run.session (request ns call (some id))
    rw [hquiet]
    rfl
  -- from here on only the session after the lookup counts, and the name that stands for the definition
  generalize (run.session.lookup (request ns call (some id))).2 = found at *
  have hwalk : walk (.ok (some id)) run = some (.ok (some id), run) := rfl
  rw [bind_apply, hwalk]
  simp only
  rw [bind_apply, lift_apply, hlook]
  generalize (run.session.keepTarget? call.name).getD call.name = target at *
  refine (outcome_bind (g := Prod.snd) ?_).trans ?_
  · rintro ⟨made, value⟩ run' h
    have hL := (direct_fallible ns rest).lawful
    have hfails := hL.entering
      (instantiate_matches hL (Recur.failsBy_iff.mp hr.fails) id call.arguments) target call.arguments
    have hafter := (settles_of_matches hfails (run.on found) _ run' hdir h).1
    have hyields : (restoring ns rest).Yields .call (run.on found)
        (entering target call.arguments (r.instantiate id call.arguments) (run.on found)) :=
      Discipline.Yields.entering (.refl hlawful hdir.fit) (fun active => by
        refine instantiate_yields hlawful hr.abides ?_ (.named hfd) call.arguments
        exact hdir.fit) hlawful
    have hsame : found.Same Frame.bare run'.session := (hyields _ run' h).leads.may
    have hgrown : 0 < run'.session.stack.size := by rw [hsame.size_eq, hheight]; exact hsize
    exact stored_outcome hcl hafter hgrown (refers_lt (.named hfd) hcl) target
      call.arguments made value
  · have hnew' : (run.on found).evaluator.active.any
        (·.same ⟨(run.on found).session.marker, target, call.arguments⟩) = false := by
      rw [show (run.on found).session.marker = run.session.marker from hmarker]
      exact hnew
    have hinstantiate : (r.instantiate id call.arguments).outcome
        (noting target call.arguments (run.on found)) = _ :=
      instantiate_outcome hcl hr hdir (.named hfd) hpush htop
    rw [outcome_entering _ hnew', hinstantiate]
    cases (r.frame frame.definition).outcome _ with
    | none => rfl
    | some result => cases result <;> rfl

end Recur

/-- A call that is the argument of a parameter is evaluated on the frames below the one that has the
    parameter, which are these, and so it comes out. -/
def Run.Supplies (inside : Run) (p : String) (fuel : Nat) (call : Call)
    (frames : List (FrameId × Frame)) (outcome : Option (Except EvalFault Value)) : Prop :=
  ∃ out, inside.session.unpush = .ok out ∧ out.view Frame.bare = frames ∧
    outcome = (evaluateWithin fuel call).outcome ((noting p [] inside).on out)

/-- The value of an argument that is no call. -/
def Argument.value? : Argument → Option Value
  | .value v => some v
  | .missing => some .null
  | .call _ _ => none

theorem Argument.pad_getD (arguments : List Argument) (parameters : List String) (i : Nat) :
    (pad arguments parameters)[i]?.getD .missing = arguments[i]?.getD .missing := by
  rw [pad, List.getElem?_append]
  split
  · rfl
  · rename_i hlt
    rw [List.getElem?_eq_none (Nat.not_lt.mp hlt), List.getElem?_replicate]
    split <;> rfl

/-- How the argument of a parameter of the top frame comes out. -/
structure Run.Comes (inside : Run) (p : String) (fuel : Nat) (argument : Argument)
    (frames : List (FrameId × Frame)) (outcome : Option (Except EvalFault Value)) : Prop where
  value : ∀ value, argument.value? = some value → outcome = some (.ok value)
  call : ∀ callee arguments, argument = .call callee arguments →
    inside.Supplies p fuel ⟨callee, arguments⟩ frames outcome

namespace Recur

open Session

/-- **How a parameter of the top frame comes out.** -/
theorem parameter_comes (hcl : ns.Closed) (hs : run.session.Direct ns rest)
    (htop : run.session.topFrame? = some frame) {new : FrameId} {below : List (FrameId × Frame)}
    (hview : run.session.view Frame.bare = (new, frame.bare) :: below)
    (hsize : 1 < run.session.stack.size)
    (hactive : ∀ call ∈ run.evaluator.active, call.marker.state < frame.state)
    (hplain : DottedName.isDotted p = false) (hp : p ∈ frame.parameters) (fuel : Nat) :
    run.Comes p fuel (frame.arguments[frame.parameters.idxOf p]?.getD .missing) below
      (((within (fuel + 1)).call (.plain p)).outcome run) := by
  have hname : ¬ (DottedName.isDotted (Call.plain p).name ||
      !(Call.plain p).arguments.isEmpty) = true := by
    simp [Call.plain, hplain]
  have hbind : run.session.argumentFor (Call.plain p).name = _ := argumentFor_top hs.fit htop hp
  have hcall : (within (fuel + 1)).call (.plain p) run = (within fuel).argument p
      ⟨frame.arguments[frame.parameters.idxOf p]?.getD .missing, 0, frame.parameters.idxOf p,
        frame.definition⟩ run := by
    rw [within_call, value, if_neg hname, session_bind_apply, hbind]
    rfl
  rw [outcome, hcall]
  generalize frame.arguments[frame.parameters.idxOf p]?.getD .missing = argument
  refine ⟨fun value hval => ?_, fun callee arguments hlazy => ?_⟩
  · cases argument with
    | value v =>
      cases hval
      rfl
    | missing =>
      cases hval
      rfl
    | call callee arguments => cases hval
  · subst hlazy
    have hlawful := restoring_lawful ns rest
    have hdangles : ¬ (restoring ns rest).dangles := fun hopen => hopen hcl
    -- the frame is newer than the points at which the calls in progress were made
    have hnew : run.evaluator.active.any (·.same ⟨run.session.marker, p, []⟩) = false := by
      rw [List.any_eq_false]
      intro call hmem hsame
      simp only [ActiveCall.same, Bool.and_eq_true, decide_eq_true_eq] at hsame
      have hmarker : run.session.marker.state = frame.state := by rw [marker, htop]
      have hlt := hactive call hmem
      rw [hsame.1.1, hmarker] at hlt
      exact Nat.lt_irrefl _ hlt
    have hx : ∀ out : Run, out.session.Fit ns rest → (restoring ns rest).Yields .call out
        ((within fuel).call ⟨callee, arguments⟩ out) := fun out hout =>
      (within_sober ns rest fuel).abides.call _ hout
    have hinv : (noting p [] run).session.Fit ns rest := hs.fit
    obtain ⟨out, hout, houtcome⟩ := hlawful.outcome_inCaller hdangles hinv hsize hx
    refine ⟨out, hout, ?_, ?_⟩
    · obtain ⟨top, found, htop', hf, rfl⟩ := unpush_ok hout
      have hstepped := steppedOut_view Frame.bare_plain.ignoresCounts hs.fit.sound htop' hf
      exact (List.cons.inj (hstepped.symm.trans hview)).2
    · exact (outcome_entering _ hnew).trans houtcome

theorem frame_eq_body (hd : run.session.ns.get? id = some d) (hbody : d.body ≠ .empty) (fuel : Nat) :
    (within (fuel + 1)).frame id run = (within fuel).body d.body run := by
  have hfr : (within (fuel + 1)).frame id run = (within fuel).inFrame id run := by
    simp only [within]
    rw [frameWithin]
  rw [hfr, inFrame, session_bind_apply, hd]
  simp only
  cases d.kind with
  | collection elements =>
    cases h : d.body with
    | empty => exact absurd h hbody
    | _ => rfl
  | _ => rfl

end Recur

end KeepTree
