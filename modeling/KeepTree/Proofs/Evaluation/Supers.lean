import KeepTree.Proofs.Evaluation.Outcomes
import KeepTree.Proofs.Session.Bodies

/-!
# Super calls and arguments

A super call pushes a frame with the arguments of the frame it is made in, for what stands behind the
superdefinition, and evaluates the body that the superdefinition itself has there. So a definition that
leaves a parameter to its superdefinition is compared with one that names the parameter itself:

* `Run.super_comes`, `Run.super_null` -- how a super call comes out: as the argument, evaluated on **one
  frame more** than the parameter itself would be, or as nothing, if the superdefinition has no body of
  its own;
* `Workspace.super_passes_arguments` -- **values are passed on unchanged, and calls are evaluated with
  the frame of the definition on top**; `super_misplaces_arguments` -- that this makes a difference.
-/

namespace KeepTree

open Recur Argument

variable {ns : Namespace} {id upper : DefId} {d u : Definition} {call : Call} {p : String}
  {below : Session} {frame : Frame}

/-! ## 1. Super calls -/

/-- A definition with this parameter has a superdefinition that stands, with whatever arguments, for a
    definition with the same parameters. -/
structure Namespace.Passes (ns : Namespace) (hops : Nat) (id upper : DefId) (d u : Definition)
    (p : String) : Prop where
  get?_eq : ns.get? id = some d
  direct : d.kind.isIndirect = false
  parameter : p ∈ d.parameters
  undotted : DottedName.isDotted p = false
  superdefinition_eq : d.superdefinition = some upper
  upper_ne : upper ≠ id
  upper_eq : ns.get? upper = some u
  stands : ∃ canonical c, ns.get? canonical = some c ∧ c.parameters = d.parameters ∧
    ∀ arguments, ns.canonical ⟨upper, arguments⟩ (some id) hops =
      .ok (some ⟨canonical, pad arguments d.parameters⟩)

theorem Namespace.Passes.withBody {hops : Nat} (h : ns.Passes hops id upper d u p) (body : Body) :
    (ns.withBody id body).Passes hops id upper (d.withBody body) u p := by
  have hrebodied := ns.withBody_rebodied id body
  obtain ⟨canonical, c, hc, hpars, hcan⟩ := h.stands
  have hsame : ((ns.withBody id body).get? canonical).bind (fun c => some c.parameters) =
      some d.parameters := by
    rw [hrebodied.bind_eq (fun _ => rfl), hc, ← hpars]
    rfl
  obtain ⟨c', hc', hpars'⟩ := Option.bind_eq_some_iff.mp hsame
  exact { h with
    get?_eq := Namespace.get?_withBody_self h.get?_eq body
    upper_eq := (ns.get?_withBody_of_ne h.upper_ne body).trans h.upper_eq
    stands := ⟨canonical, c', hc', Option.some.inj hpars', fun args => by
      rw [Namespace.canonical_congr hrebodied.outline_eq]
      exact hcan args⟩ }

namespace Run

open Session

variable {rest : List Stack} {run : Run}

/-- What a call of a definition puts on top. -/
theorem framed_tops (hs : run.session.Direct ns rest) (hclosed : ns.Closed)
    (hd : ns.get? id = some d) (hdir : d.kind.isIndirect = false)
    (hroom : run.session.stack.size < run.session.limits.maxDepth) (call : Call) : ∃ frame t,
    (run.session.lookup (request ns call (some id))).2.push id call.arguments true = (.ok (), t) ∧
    t.topFrame? = some frame ∧ run.session.Tops ns rest frame (run.framed call id).session ∧
    frame.definition = id ∧ frame.parameters = d.parameters ∧
    frame.arguments = pad call.arguments d.parameters := by
  have hfd := (direct_tracks ns rest).lookup run.session (request ns call (some id)) hs
  obtain ⟨engine, hstd, hquiet⟩ := lookup_effect run.session (request ns call (some id))
  have hframed : (run.framed call id).session =
      ((run.session.lookup (request ns call (some id))).2.push id call.arguments true).2.count
        .computation := by
    rw [Run.framed, hs.fit.ns_eq]
    rfl
  rw [hframed]
  rw [hquiet] at hfd ⊢
  have hroom' : (run.session.withEngine engine).stack.size <
      (run.session.withEngine engine).limits.maxDepth := by
    have hlim : (run.session.withEngine engine).limits = run.session.limits := hstd.limits_eq
    rw [hlim]
    exact hroom
  obtain ⟨frame, t, hpush, htops, hdef, hpars, hargs⟩ := push_tops hfd hclosed
    hroom' (Namespace.canonical_direct hd hdir call.arguments _ _) hd true
  refine ⟨frame, t, hpush, htops.topFrame?_eq, ?_, hdef, hpars, hargs⟩
  rw [hpush]
  exact ⟨(direct_tracks ns rest).count t htops.direct, htops.topFrame?_eq, htops.size_eq,
    htops.limits_eq.trans hstd.limits_eq, htops.state_eq, htops.clock_eq, htops.view_eq⟩

theorem framed_active (hs : run.session.Fit ns rest)
    (hactive : ∀ call ∈ run.evaluator.active, call.marker.state ≤ run.session.family.clock)
    (call : Call) (id : DefId) : ∀ other ∈ (run.framed call id).evaluator.active,
      other.marker.state ≤ run.session.family.clock := by
  refine List.forall_mem_cons.mpr ⟨?_, hactive⟩
  show (run.session.lookup _).2.marker.state ≤ _
  rw [lookup_marker, marker]
  cases htop : run.session.topFrame? with
  | none => exact Nat.zero_le _
  | some frame =>
    obtain ⟨top, _, hf⟩ := Option.bind_eq_some_iff.mp htop
    exact hs.sound.recent top frame hf

/-- **A reference to a parameter**, in the frame that has it. -/
theorem ref_comes (hclosed : ns.Closed) (htops : below.Tops ns rest frame run.session)
    (hcaller : 0 < below.stack.size)
    (hactive : ∀ call ∈ run.evaluator.active, call.marker.state ≤ below.family.clock)
    (hd : ns.get? id = some d) (hbody : d.body = .ref (.plain p)) (hp : p ∈ frame.parameters)
    (hplain : DottedName.isDotted p = false) (fuel : Nat) :
    run.Comes p fuel (frame.arguments[frame.parameters.idxOf p]?.getD .missing)
      (below.view Frame.bare) (((Recur.within (fuel + 2)).frame id).outcome run) := by
  obtain ⟨new, hview⟩ := htops.view_eq
  have hsize : 1 < run.session.stack.size := by
    rw [htops.size_eq]
    exact Nat.succ_lt_succ hcaller
  have hnewer : ∀ call ∈ run.evaluator.active, call.marker.state < frame.state := fun call hmem => by
    rw [htops.state_eq]
    exact Nat.lt_succ_of_le (hactive call hmem)
  have hfr : (Recur.within (fuel + 2)).frame id run =
      (Recur.within (fuel + 1)).call (.plain p) run := by
    rw [frame_eq_body (htops.direct.fit.ns_eq.symm ▸ hd) (by simp [hbody]), hbody]
    rfl
  rw [Eval.outcome, hfr]
  exact parameter_comes hclosed htops.direct htops.topFrame?_eq hview hsize hnewer hplain hp fuel

/-- The run in the frame that a super call pushes. -/
def inSuper (run : Run) (upper : DefId) (arguments : List Argument) : Run :=
  run.on (run.session.push upper arguments false).2

section

variable (hclosed : ns.Closed) (htops : below.Tops ns rest frame run.session)
  (hpasses : ns.Passes run.session.limits.maxPointerHops id upper d u p)
  (hid : frame.definition = id) (hbody : d.body = .super)
  (hroom : run.session.stack.size < run.session.limits.maxDepth)
include hclosed htops hpasses hid hbody hroom

/-- **A super call** comes out as the superdefinition does in a frame with the same arguments. -/
theorem super_outcome (fuel : Nat) :
    ∃ made t, run.session.push upper frame.arguments false = (.ok (), t) ∧
      run.session.Tops ns rest made t ∧ made.parameters = d.parameters ∧
      made.arguments = pad frame.arguments d.parameters ∧
      ((Recur.within (fuel + 2)).frame id).outcome run =
        ((Recur.within (fuel + 1)).frame upper).outcome (run.on t) := by
  obtain ⟨canonical, c, hc, hpars, hrsv⟩ := hpasses.stands
  have hscope : run.session.topDefinition? = some id := by
    rw [topDefinition?, htops.topFrame?_eq]
    exact congrArg some hid
  obtain ⟨made, t, hpush, htops', _, hnames, hargs⟩ := push_tops htops.direct hclosed hroom
    (hscope.symm ▸ hrsv frame.arguments) hc false
  have hfr : (Recur.within (fuel + 2)).frame id run = (Recur.within (fuel + 1)).superValue run := by
    rw [frame_eq_body (htops.direct.fit.ns_eq.symm ▸ hpasses.get?_eq) (by simp [hbody]), hbody]
    rfl
  refine ⟨made, t, hpush, htops', hnames.trans hpars, hargs, ?_⟩
  rw [Eval.outcome, hfr]
  exact superValue_outcome hclosed (within_sober ns rest (fuel + 1)) htops.direct
    htops.topFrame?_eq (hid.symm ▸ hpasses.get?_eq) hpasses.superdefinition_eq hpush

/-- **A super call to a reference to a parameter.** The frame that the call was made in is one of those
    below. -/
theorem super_comes
    (hactive : ∀ call ∈ run.evaluator.active, call.marker.state ≤ below.family.clock)
    (hrefers : u.body = .ref (.plain p)) (fuel : Nat) :
    (run.inSuper upper frame.arguments).Comes p fuel
      (frame.arguments[d.parameters.idxOf p]?.getD .missing) (run.session.view Frame.bare)
      (((Recur.within (fuel + 3)).frame id).outcome run) := by
  obtain ⟨made, t, hpush, htops', hnames, hargs, hout⟩ :=
    super_outcome hclosed htops hpasses hid hbody hroom (fuel + 1)
  have hcaller : 0 < run.session.stack.size := by
    rw [htops.size_eq]
    exact Nat.succ_pos _
  have holder : ∀ call ∈ (run.on t).evaluator.active,
      call.marker.state ≤ run.session.family.clock := fun call hmem => by
    rw [htops.clock_eq]
    exact Nat.le_succ_of_le (hactive call hmem)
  have hcomes : (run.on t).Comes p fuel _ _ _ := ref_comes hclosed htops' hcaller holder
    hpasses.upper_eq hrefers (hnames ▸ hpasses.parameter) hpasses.undotted fuel
  rw [hnames, hargs, pad_getD, ← hout] at hcomes
  rw [inSuper, hpush]
  exact hcomes

/-- **A super call to an alias** with no body of its own gives nothing. -/
theorem super_null (hindirect : u.kind.isIndirect = true) (hempty : u.body = .empty)
    (fuel : Nat) : ((Recur.within (fuel + 2)).frame id).outcome run = some (.ok .null) := by
  obtain ⟨made, t, _, htops', _, _, hout⟩ :=
    super_outcome hclosed htops hpasses hid hbody hroom fuel
  have hget : (run.on t).session.ns.get? upper = some u :=
    htops'.direct.fit.ns_eq.symm ▸ hpasses.upper_eq
  have hfr : (Recur.within (fuel + 1)).frame upper (run.on t) =
      (Recur.within fuel).inFrame upper (run.on t) := by
    simp only [Recur.within]
    rw [frameWithin]
  rw [hout, Eval.outcome, hfr, inFrame, Eval.session_bind_apply, hget]
  simp only [hempty]
  cases hkind : u.kind with
  | collection elements => rw [hkind] at hindirect; cases hindirect
  | _ => rfl

end

/-! ## 2. The definition with another body -/

/-- The run over a namespace in which a definition has another body. -/
def withBody (run : Run) (id : DefId) (body : Body) : Run :=
  { run with session := run.session.withNamespace (run.session.ns.withBody id body) }

theorem withBody_direct (hs : run.session.Direct ns rest) (id : DefId) (body : Body) :
    (run.withBody id body).session.Direct (ns.withBody id body) rest := by
  rw [withBody, hs.fit.ns_eq]
  exact hs.withNamespace (Namespace.size_of_outline (ns.withBody_rebodied id body).outline_eq)

theorem settled?_withBody (run : Run) (id other : DefId) (body : Body) (call : Call) :
    (run.withBody id body).settled? call other = run.settled? call other := by
  have hrebodied := run.session.ns.withBody_rebodied id body
  have hrequest := request_eq hrebodied call (some other)
  have hns : (run.withBody id body).session.ns = run.session.ns.withBody id body := rfl
  have hfind : ∀ request, (run.withBody id body).session.find request = run.session.find request :=
    find_withNamespace hrebodied
  simp only [settled?, hns, hrequest, hfind]
  rfl

/-- A call is one of a definition. -/
structure Calls (run : Run) (call : Call) (id : DefId) : Prop where
  no_parameter : (DottedName.isDotted call.name || !call.arguments.isEmpty) = true ∨
    run.session.argumentFor call.name = none
  lookupFrom_eq : run.session.ns.lookupFrom run.session.topDefinition?
    ((run.session.keepTarget? call.name).getD call.name) = .ok (some id)

theorem Calls.withBody {other : DefId} (h : run.Calls call other) (id : DefId) (body : Body) :
    (run.withBody id body).Calls call other where
  no_parameter := h.no_parameter.imp_right fun hnone =>
    (argumentFor_withNamespace (run.session.ns.withBody_rebodied id body) call.name).trans hnone
  lookupFrom_eq := (Namespace.lookupFrom_congr
    (run.session.ns.withBody_rebodied id body).outline_eq _ _).trans h.lookupFrom_eq

theorem Calls.outcome_eq (h : run.Calls call id) (fuel : Nat) :
    (evaluateWithin (fuel + 1) call).outcome run = ((Recur.within fuel).named call).outcome run := by
  exact congrArg (Option.map Prod.fst) (value_eq_named _ h.no_parameter)

/-- A call of a definition is made from a frame, with room for two more. -/
structure Asks (ns : Namespace) (rest : List Stack) (run : Run) (call : Call) (id : DefId) : Prop where
  calls : run.Calls call id
  direct : run.session.Direct ns rest
  closed : ns.Closed
  caller : 0 < run.session.stack.size
  room : run.session.stack.size + 2 ≤ run.session.limits.maxDepth
  recent : ∀ other ∈ run.evaluator.active, other.marker.state ≤ run.session.family.clock

section

variable (h : run.Asks ns rest call id)
include h

theorem Asks.withBody (body : Body) :
    (run.withBody id body).Asks (ns.withBody id body) rest call id :=
  ⟨h.calls.withBody id body, withBody_direct h.direct id body,
    h.closed.of_outline (ns.withBody_rebodied id body).outline_eq, h.caller, h.room, h.recent⟩

theorem Asks.room_above {t : Session}
    (htops : run.session.Tops ns rest frame t) : t.stack.size < t.limits.maxDepth := by
  rw [htops.size_eq, htops.limits_eq]
  exact h.room

variable (hopen : run.settled? call id = none)
include hopen

theorem Asks.framed_outcome (hd : ns.get? id = some d) (hdir : d.kind.isIndirect = false)
    (fuel : Nat) :
    ∃ frame, run.session.Tops ns rest frame (run.framed call id).session ∧ frame.definition = id ∧
      frame.parameters = d.parameters ∧ frame.arguments = pad call.arguments d.parameters ∧
      (evaluateWithin (fuel + 1) call).outcome run =
        ((Recur.within fuel).frame id).outcome (run.framed call id) := by
  obtain ⟨frame, t, hpush, htop, htops, hdef, hpars, hargs⟩ :=
    framed_tops h.direct h.closed hd hdir (Nat.lt_of_succ_lt h.room) call
  refine ⟨frame, htops, hdef, hpars, hargs, ?_⟩
  have hfd := h.calls.lookupFrom_eq
  rw [h.direct.fit.ns_eq] at hfd
  rw [h.calls.outcome_eq, named_outcome h.closed (within_sober ns rest fuel) h.direct
    h.caller hfd hopen hpush htop, hdef]

theorem Asks.ref_comes (hd : ns.get? id = some d)
    (hdir : d.kind.isIndirect = false) (hbody : d.body = .ref (.plain p)) (hp : p ∈ d.parameters)
    (hplain : DottedName.isDotted p = false) (fuel : Nat) :
    (run.framed call id).Comes p fuel (call.arguments[d.parameters.idxOf p]?.getD .missing)
      (run.session.view Frame.bare) ((evaluateWithin (fuel + 3) call).outcome run) := by
  obtain ⟨frame, htops, _, hpars, hargs, hout⟩ := h.framed_outcome hopen hd hdir (fuel + 2)
  have hcomes := Run.ref_comes h.closed htops h.caller (framed_active h.direct.fit h.recent call id) hd
    hbody (hpars ▸ hp) hplain fuel
  rw [hpars, hargs, pad_getD, ← hout] at hcomes
  exact hcomes

/-- A definition that calls its superdefinition, which refers to the parameter, evaluates the argument
    on its own frame and those of the caller. -/
theorem Asks.super_comes
    (hpasses : ns.Passes run.session.limits.maxPointerHops id upper d u p) (hbody : d.body = .super)
    (hrefers : u.body = .ref (.plain p)) (fuel : Nat) :
    ∃ new frame, frame.definition = id ∧ frame.arguments = pad call.arguments d.parameters ∧
      ((run.framed call id).inSuper upper frame.arguments).Comes p fuel
        (call.arguments[d.parameters.idxOf p]?.getD .missing)
        ((new, frame) :: run.session.view Frame.bare)
        ((evaluateWithin (fuel + 4) call).outcome run) := by
  obtain ⟨frame, htops, hdef, _, hargs, hout⟩ :=
    h.framed_outcome hopen hpasses.get?_eq hpasses.direct (fuel + 3)
  obtain ⟨new, hview⟩ := htops.view_eq
  refine ⟨new, frame.bare, hdef, hargs, ?_⟩
  have hcomes := Run.super_comes h.closed htops (htops.limits_eq.symm ▸ hpasses) hdef hbody
    (h.room_above htops) (framed_active h.direct.fit h.recent call id) hrefers fuel
  rw [hview, ← hout] at hcomes
  rw [hargs, pad_getD] at hcomes
  rw [show frame.bare.arguments = _ from hargs]
  exact hcomes

theorem Asks.super_null (hpasses : ns.Passes run.session.limits.maxPointerHops id upper d u p)
    (hbody : d.body = .super) (hindirect : u.kind.isIndirect = true) (hempty : u.body = .empty)
    (fuel : Nat) : (evaluateWithin (fuel + 3) call).outcome run = some (.ok .null) := by
  obtain ⟨frame, htops, hdef, _, _, hout⟩ :=
    h.framed_outcome hopen hpasses.get?_eq hpasses.direct (fuel + 2)
  rw [hout]
  exact Run.super_null h.closed htops (htops.limits_eq.symm ▸ hpasses) hdef hbody
    (h.room_above htops) hindirect hempty fuel

end

end Run

/-! ## 3. Passing arguments on -/

namespace Workspace

variable {ns : Namespace} {limits : Limits} {w : Workspace} {name : String} {s : Session}
  {evaluator : Evaluator} {id upper : DefId} {d u : Definition} {p : String} {call : Call}

/-- **What a super call passes on.** A definition is called from a frame, and it either calls its
    superdefinition or names a parameter; the superdefinition has a body of its own that names the
    parameter. The two come out alike, unless the argument is a call that is still to be evaluated. Then
    naming the parameter evaluates it on the frames of the caller, and the super call on these and the
    frame of the definition itself. If the superdefinition is indirect and has no body of its own, the
    super call gives nothing. -/
theorem super_passes_arguments (hw : w.Reachable ns limits) (hs : w.session? name = some s)
    (hclosed : ns.Closed) (hhops : 0 < limits.maxPointerHops)
    (hpasses : ns.Passes limits.maxPointerHops id upper d u p)
    (hcalls : Run.Calls ⟨s, evaluator⟩ call id) (hcaller : 0 < s.stack.size)
    (hroom : s.stack.size + 2 ≤ limits.maxDepth)
    (hrecent : ∀ other ∈ evaluator.active, other.marker.state ≤ s.family.clock) (fuel : Nat) :
    let run : Run := ⟨s, evaluator⟩
    let argument := call.arguments[d.parameters.idxOf p]?.getD .missing
    let bySuper := run.withBody id .super
    let byName := run.withBody id (.ref (.plain p))
    let outcome := (evaluateWithin (fuel + 4) call).outcome
    (u.body = .ref (.plain p) → (∀ callee arguments, argument ≠ .call callee arguments) →
      outcome bySuper = outcome byName) ∧
    (∀ result, run.settled? call id = some result →
      outcome bySuper = some result ∧ outcome byName = some result) ∧
    (run.settled? call id = none →
      (byName.framed call id).Comes p (fuel + 1) argument (s.view Frame.bare) (outcome byName) ∧
      (u.body = .ref (.plain p) → ∃ new frame, frame.definition = id ∧
        frame.arguments = Argument.pad call.arguments d.parameters ∧
        ((bySuper.framed call id).inSuper upper frame.arguments).Comes p fuel argument
          ((new, frame) :: s.view Frame.bare) (outcome bySuper)) ∧
      (u.kind.isIndirect = true → u.body = .empty → outcome bySuper = some (.ok .null))) := by
  intro run argument bySuper byName outcome
  obtain ⟨rest, hdirect⟩ := hw.direct hhops hs
  have hlimits := hw.limits_eq hs
  have hasks : run.Asks ns rest call id :=
    ⟨hcalls, hdirect, hclosed, hcaller, hlimits ▸ hroom, hrecent⟩
  have hsuper := hpasses.withBody .super
  have hname := hpasses.withBody (.ref (.plain p))
  have hsettled : ∀ body result, run.settled? call id = some result →
      outcome (run.withBody id body) = some result := by
    intro body result h
    rw [← run.settled?_withBody id id body] at h
    have hcalls' := hcalls.withBody id body
    exact (hcalls'.outcome_eq _).trans (Recur.named_settled hcalls'.lookupFrom_eq h)
  have hcomes : run.settled? call id = none → _ := fun hopen =>
    (hasks.withBody (.ref (.plain p))).ref_comes ((run.settled?_withBody id id _ call).trans hopen)
      hname.get?_eq hname.direct rfl hname.parameter hname.undotted (fuel + 1)
  have hpassed : u.body = .ref (.plain p) → run.settled? call id = none → _ := fun hrefers hopen =>
    (hasks.withBody .super).super_comes ((run.settled?_withBody id id _ call).trans hopen)
      (hlimits.symm ▸ hsuper) rfl hrefers fuel
  refine ⟨fun hrefers hcall => ?_, fun result h => ⟨hsettled _ result h, hsettled _ result h⟩,
    fun hopen => ⟨hcomes hopen, fun hrefers => hpassed hrefers hopen, fun hindirect hempty => ?_⟩⟩
  · cases hopen : run.settled? call id with
    | some result => rw [hsettled _ result hopen, hsettled _ result hopen]
    | none =>
      obtain ⟨value, hvalue⟩ : ∃ value, argument.value? = some value := by
        cases hargument : argument with
        | value v => exact ⟨v, rfl⟩
        | missing => exact ⟨.null, rfl⟩
        | call callee arguments => exact absurd hargument (hcall callee arguments)
      obtain ⟨_, _, _, _, hpassed⟩ := hpassed hrefers hopen
      exact (hpassed.value value hvalue).trans ((hcomes hopen).value value hvalue).symm
  · exact (hasks.withBody .super).super_null ((run.settled?_withBody id id _ call).trans hopen)
      (hlimits.symm ▸ hsuper) rfl hindirect hempty (fuel + 1)

/-- A shop with labels that show their text. A badge is a label with a name of its own; a ticket is a
    label under another name. -/
def stationer : Namespace where
  definitions := #[
    { name := "shop", fullName := "shop", kind := .site,
      children := ((((Dictionary.empty.insert "label" 1).insert "badge" 2).insert "name" 4).insert
        "tag" 5).insert "ticket" 6 },
    { name := "label", fullName := "shop.label", owner := some 0, parameters := ["text"]
      body := .ref (.plain "text") },
    { name := "badge", fullName := "shop.badge", owner := some 0, parameters := ["text"]
      superdefinition := some 1, children := Dictionary.empty.insert "name" 3 },
    { name := "name", fullName := "shop.badge.name", owner := some 2
      body := .literal (.text "badge") },
    { name := "name", fullName := "shop.name", owner := some 0, body := .literal (.text "shop") },
    { name := "tag", fullName := "shop.tag", owner := some 0, kind := .aliasOf (.plain "label") },
    { name := "ticket", fullName := "shop.ticket", owner := some 0, parameters := ["text"]
      superdefinition := some 5 }]
  roots := Dictionary.empty.insert "shop" 0

/-- A stack with the shop on top. -/
def stationerShop : Session := (Session.push ⟨.new stationer {}, .new 0 {}, {}⟩ 0 [] true).2

/-- How a call from the shop comes out if the definition has this body. -/
def stationerOutcome (id : DefId) (body : Body) (call : Call) : Option (Except EvalFault Value) :=
  ((Run.withBody ⟨stationerShop, {}⟩ id body).evaluate call).map (·.1)

theorem super_passes_arguments_badge :
    stationerOutcome 2 .super ⟨"badge", [.value (.text "Hello")]⟩ = some (.ok (.text "Hello")) ∧
    (∃ out new frame, frame.definition = 2 ∧
      out.session.view Frame.bare = (new, frame) :: stationerShop.view Frame.bare ∧
      stationerOutcome 2 .super ⟨"badge", [.call "name" []]⟩ =
        (evaluateWithin (ampleFuel - 4) (.plain "name")).outcome out) ∧
    stationerOutcome 6 .super ⟨"ticket", [.value (.text "Hello")]⟩ = some (.ok .null) := by
  obtain ⟨w, hw, hs⟩ : ∃ w, Reachable stationer {} w ∧ w.session? "main" = some stationerShop :=
    reachable_of_moves (.single (.push 0 [] true))
  have hclosed : stationer.Closed := Namespace.closed_of_isClosed (by decide +kernel)
  have hbadge : stationer.Passes 10 2 1 stationer.definitions[2] stationer.definitions[1] "text" :=
    ⟨rfl, rfl, by decide, by decide +kernel, rfl, by decide, rfl, 1, _, rfl, rfl, fun _ => rfl⟩
  have hticket : stationer.Passes 10 6 5 stationer.definitions[6] stationer.definitions[5] "text" :=
    ⟨rfl, rfl, by decide, by decide +kernel, rfl, by decide, rfl, 1, _, rfl, rfl, fun _ => rfl⟩
  have hnamed : Run.Calls ⟨stationerShop, {}⟩ ⟨"badge", [.call "name" []]⟩ 2 :=
    ⟨.inl (by decide +kernel), by decide +kernel⟩
  have hvalued : Run.Calls ⟨stationerShop, {}⟩ ⟨"badge", [.value (.text "Hello")]⟩ 2 :=
    ⟨.inl (by decide +kernel), by decide +kernel⟩
  have haliased : Run.Calls ⟨stationerShop, {}⟩ ⟨"ticket", [.value (.text "Hello")]⟩ 6 :=
    ⟨.inl (by decide +kernel), by decide +kernel⟩
  obtain ⟨hequal, _, hshown⟩ := super_passes_arguments hw hs hclosed (by decide) hbadge hvalued
    (by decide +kernel) (by decide +kernel) nofun (ampleFuel - 4)
  obtain ⟨_, _, hcalled⟩ := super_passes_arguments hw hs hclosed (by decide) hbadge hnamed
    (by decide +kernel) (by decide +kernel) nofun (ampleFuel - 4)
  obtain ⟨_, _, hnull⟩ := super_passes_arguments hw hs hclosed (by decide) hticket haliased
    (by decide +kernel) (by decide +kernel) nofun (ampleFuel - 4)
  refine ⟨?_, ?_, (hnull (by decide +kernel)).2.2 rfl rfl⟩
  · exact (hequal rfl nofun).trans ((hshown (by decide +kernel)).1.value _ rfl)
  · obtain ⟨new, frame, hframe, _, hcomes⟩ := (hcalled (by decide +kernel)).2.1 rfl
    obtain ⟨out, _, hview, houtcome⟩ := hcomes.call _ _ rfl
    exact ⟨_, new, frame, hframe, hview, houtcome⟩

/-- **A super call does not always pass arguments on.** A badge that shows its text finds the name that
    the shop meant, and one that leaves this to the label finds its own; a ticket that leaves it to the
    label under its other name shows nothing. -/
theorem super_misplaces_arguments :
    stationerOutcome 2 (.ref (.plain "text")) ⟨"badge", [.call "name" []]⟩ =
      some (.ok (.text "shop")) ∧
    stationerOutcome 2 .super ⟨"badge", [.call "name" []]⟩ = some (.ok (.text "badge")) ∧
    stationerOutcome 6 (.ref (.plain "text")) ⟨"ticket", [.value (.text "Hello")]⟩ =
      some (.ok (.text "Hello")) ∧
    stationerOutcome 6 .super ⟨"ticket", [.value (.text "Hello")]⟩ = some (.ok .null) := by
  decide +kernel

end Workspace
end KeepTree
