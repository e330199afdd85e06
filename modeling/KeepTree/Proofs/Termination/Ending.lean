import KeepTree.Proofs.Evaluation.Iterations
import KeepTree.Proofs.Termination.Cost

/-!
# Evaluation comes to an end

A step comes to an end if all steps inside do, and a call or a frame inside is only reached at a lower
cost. So with more fuel than an evaluation may cost, it ends, in a value or a fault:

* `body_ends`, `inFrame_ends`, `value_ends` -- **then those end that cost as much as the bound**;
* `ending_within` -- **fuel above the cost is enough**, and more fuel changes nothing
  (`evaluateWithin_ends`).
-/

namespace KeepTree

open Session Eval Upkeep List

variable {α : Type} {run begun : Run} {ns : Namespace} {rest : List Stack} {V : Vocabulary}
  {name item : String} {args : List Argument} {binding : ArgumentBinding} {id : DefId}
  {newCall : Bool} {value : Value} {call : Call}

/-! ## 1. Steps that end -/

namespace Eval

variable {β : Type} {x : Eval α}

/-- The step has an outcome. -/
def Ends (x : Eval α) (run : Run) : Prop := (x run).isSome = true

theorem Ends.pure (a : α) : Ends (pure a : Eval α) run := rfl

theorem Ends.bind {f : α → Eval β} (hx : Ends x run)
    (hf : ∀ a run', x run = some (.ok a, run') → Ends (f a) run') : Ends (x >>= f) run := by
  obtain ⟨⟨out, run'⟩, h⟩ := Option.isSome_iff_exists.mp hx
  rw [Ends, bind_apply, h]
  cases out with
  | ok a => exact hf a run' h
  | error fault => rfl

theorem Ends.lift (f : Session → Except Fault α × Session) : Ends (lift f) run := by
  rw [Ends, lift_apply]
  rfl

theorem Ends.move (f : Session → Except Fault Session) : Ends (move f) run := by
  rw [Ends, move_apply]
  split <;> rfl

theorem Ends.walk (found : Except Dangling α) : Ends (walk found) run := by
  cases found <;> rfl

theorem Ends.attempt (hx : Ends x run) : Ends (attempt x) run := by
  obtain ⟨⟨out, run'⟩, h⟩ := Option.isSome_iff_exists.mp hx
  rw [Ends, Eval.attempt, h]
  cases out with
  | ok a => rfl
  | error fault =>
    simp only
    split <;> rfl

theorem Ends.conclude (out : Except EvalFault α) : Ends (conclude out) run := by
  rw [Ends, conclude_apply]
  rfl

theorem Ends.andThen (hx : Ends x run) (cleanup : Run → Run) : Ends (andThen x cleanup) run :=
  hx.attempt.bind fun out _ _ => Ends.conclude out

theorem Ends.times {step : Eval Unit} (h : ∀ run, Ends step run) :
    ∀ (n : Nat) (run : Run), Ends (times n step) run
  | 0, _ => Ends.pure ()
  | n + 1, _ => (h _).bind fun _ run' _ => Ends.times h n run'

theorem Ends.topFrame : Ends topFrame run := by
  rw [Ends, Eval.topFrame, session_bind_apply]
  cases run.session.topFrame? <;> rfl

theorem Ends.onFrame (hx : Ends x run) : Ends (onFrame x) run :=
  hx.attempt.bind fun out _ _ => ((Ends.move pop).attempt).bind fun popped _ _ =>
    (Ends.conclude out).bind fun value _ _ =>
      (Ends.conclude popped).bind fun _ _ _ => Ends.pure value

theorem Ends.entering
    (hx : run.evaluator.active.any (·.same ⟨run.session.marker, name, args⟩) = false →
      Ends x (noting name args run)) : Ends (entering name args x) run := by
  rw [Ends, Eval.entering, get_bind_apply]
  split
  · rfl
  · rename_i hfree
    exact (hx (Bool.eq_false_iff.mpr hfree)).andThen dropping

theorem Ends.inCaller {depth : Nat}
    (hx : ∀ out, Eval.times (min (depth + 1) (run.session.stack.size - 1))
      (Eval.move unpush) run = some (.ok (), out) → Ends x out) :
    Ends (inCaller depth x) run := by
  refine (Ends.times (fun _ => Ends.move _) _ run).bind fun _ out hout => ?_
  exact (hx out hout).attempt.bind fun outcome run' _ =>
    (Ends.times (fun _ => Ends.move _) _ run').bind fun _ _ _ => Ends.conclude outcome

end Eval

/-! ## 2. The vocabulary is kept -/

namespace Session

variable {s s' : Session}

theorem Speaks.same (h : s.Speaks V ns rest) (hfit : s'.Fit ns rest)
    (hheld : s'.Upheld (.speaking ns V)) (hsame : s.Same Frame.unlooped s') :
    s'.Speaks V ns rest := by
  refine ⟨hfit, hheld, ?_⟩
  by_cases hsize : 0 < s.stack.size
  · obtain ⟨f, f', hlev, hlev', hargs⟩ := hsame.levels_tail h.fit hfit hsize
    have hargs' := h.arguments
    rw [hlev, forall_mem_cons] at hargs'
    rw [hlev', forall_mem_cons, hargs]
    exact hargs'
  · have hlen := hfit.length_levels
    have hempty : s'.levels = [] := eq_nil_of_length_eq_zero (by have := hsame.size_eq; omega)
    rw [hempty]
    exact fun _ hf => absurd hf not_mem_nil

theorem Speaks.topFrame? (h : s.Speaks V ns rest) {frame : Frame}
    (hfr : s.topFrame? = some frame) : ∀ a ∈ frame.arguments, V.Allows a := by
  obtain ⟨id, htop, hf⟩ := Option.bind_eq_some_iff.mp hfr
  refine h.arguments frame.bare ?_
  rw [levels, view_cons h.fit.sound htop hf]
  exact mem_cons_self

theorem size_of_argumentFor (hs : s.Fit ns rest) (h : s.argumentFor name = some binding) :
    0 < s.stack.size := by
  obtain ⟨f, hf, _⟩ := bindingIn_argument h
  obtain ⟨id, hfr⟩ := mem_of_enclosing s.ns hf
  rw [← hs.length_levels]
  exact length_pos_of_mem (mem_levels hfr)

theorem push_speaks (hV : V.Closed) (hns : V.Covers ns) (h : s.Speaks V ns rest)
    (hargs : ∀ a ∈ args, V.Allows a) (hpush : s.push id args newCall = (.ok (), s')) :
    s'.Speaks V ns rest ∧ 0 < s'.stack.size := by
  have hupholds : s.Upholds (.speaking ns V) ns rest (s.push id args newCall).2 :=
    push_upholds (speaking_open hns) s id args newCall
  rw [hpush] at hupholds
  obtain ⟨hfit, hheld, _⟩ := hupholds h.fit h.held
  obtain ⟨f, bound, hlev, _, hbound, hcan⟩ := push_levels h.fit hpush
  refine ⟨⟨hfit, hheld, ?_⟩, ?_⟩
  · rw [hlev, forall_mem_cons, hbound]
    exact ⟨Namespace.canonical_allows hV hns hargs hcan, h.arguments⟩
  · rw [← hfit.length_levels, hlev]
    exact Nat.succ_pos _

theorem stepOut_speaks (hns : V.Covers ns) : ∀ (n : Nat) {run out : Run},
    run.session.Speaks V ns rest → times n (move unpush) run = some (.ok (), out) →
    out.session.Speaks V ns rest ∧ out.session.levels = run.session.levels.drop n ∧
    out.evaluator = run.evaluator ∧ run.session.Kin out.session
  | 0, run, out, h, hout => by
    obtain ⟨_, rfl⟩ := pure_eq_ok.mp hout
    exact ⟨h, rfl, rfl, rfl, rfl, rfl⟩
  | n + 1, run, out, h, hout => by
    obtain ⟨s, hs, hout⟩ := move_bind_eq_ok.mp hout
    obtain ⟨hfit, hheld, _⟩ := unpush_upholds (speaking_open hns).toPushable hs h.fit h.held
    obtain ⟨f, hlev⟩ := unpush_levels h.fit hs
    have hargs := h.arguments
    rw [hlev, forall_mem_cons] at hargs
    have hspeaks : (run.on s).session.Speaks V ns rest := ⟨hfit, hheld, hargs.2⟩
    obtain ⟨hout', hdrop, heval, hkin⟩ := stepOut_speaks hns n hspeaks hout
    have hkin' := (Effect.unpush hs).kin
    refine ⟨hout', ?_, heval, hkin.ns_eq.trans hkin'.ns_eq, hkin.limits_eq.trans hkin'.limits_eq,
      hkin.root_eq.trans hkin'.root_eq⟩
    rw [hdrop, hlev]
    rfl

end Session

theorem speaking_tracks (hns : V.Covers ns) : Tracks (Session.Upholds (.speaking ns V) ns rest) :=
  upholds_tracks (speaking_open hns)

/-! ## 3. Bodies -/

namespace Recur

/-- The calls and frames inside that cost less than a bound end, and leave the stack and the
    vocabulary as they may. -/
structure Ending (V : Vocabulary) (ns : Namespace) (rest : List Stack) (n : Nat) (r : Recur) :
    Prop where
  call : ∀ {call : Call} {run : Run}, V.Has call → run.session.Speaks V ns rest →
    run.callCost V < n → Eval.Ends (r.call call) run
  frame : ∀ {run : Run} (id : DefId), run.session.Speaks V ns rest → 0 < run.session.stack.size →
    run.frameCost V < n → Eval.Ends (r.frame id) run
  abides : r.Abides (.restoring ns rest)
  keeps : r.Keeps (Session.Upholds (.speaking ns V) ns rest)

/-- What costs no more than a body in the top frame of this run is known to end. -/
structure Affords (V : Vocabulary) (ns : Namespace) (rest : List Stack) (base : Run) (r : Recur) :
    Prop where
  proper : V.Proper
  spans : V.Spans ns
  fit : base.session.Fit ns rest
  nonempty : 0 < base.session.stack.size
  ending : r.Ending V ns rest (base.frameCost V)

/-- A body is at work in the frame it began in. -/
structure Works (V : Vocabulary) (ns : Namespace) (rest : List Stack) (base run : Run) : Prop where
  speaks : run.session.Speaks V ns rest
  same : base.session.Same Frame.unlooped run.session
  active_eq : run.evaluator.active = base.evaluator.active

variable {n : Nat} {r : Recur} {base run' : Run}

theorem Ending.mono {m : Nat} (h : r.Ending V ns rest n) (hm : m ≤ n) : r.Ending V ns rest m where
  call hcall hspeaks hcost := h.call hcall hspeaks (Nat.lt_of_lt_of_le hcost hm)
  frame id hspeaks hsize hcost := h.frame id hspeaks hsize (Nat.lt_of_lt_of_le hcost hm)
  abides := h.abides
  keeps := h.keeps

open Discipline

theorem Works.refl (h : run.session.Speaks V ns rest) : Works V ns rest run run :=
  ⟨h, .refl _ _, rfl⟩

theorem Works.step (h : Works V ns rest base run)
    (hleads : (restoring ns rest).Leads .loop run run')
    (hupholds : run.session.Upholds (.speaking ns V) ns rest run'.session) :
    Works V ns rest base run' where
  speaks := h.speaks.same hleads.inv (hupholds h.speaks.fit h.speaks.held).2.1 hleads.may
  same := h.same.trans hleads.may
  active_eq := by rw [hleads.evaluator_eq, h.active_eq]

theorem Works.after {x : Eval α} {a : α} (h : Works V ns rest base run)
    (hyields : (restoring ns rest).Yields .loop run (x run))
    (hks : Eval.Keeps (Session.Upholds (.speaking ns V) ns rest) x)
    (hx : x run = some (.ok a, run')) : Works V ns rest base run' :=
  h.step (hyields _ _ hx).leads (hks run _ run' hx)

theorem Works.begin (hns : V.Covers ns) (h : Works V ns rest base run)
    (hbegin : beginIteration item value run = some (.ok (), begun)) :
    Works V ns rest base begun := by
  have hleads := beginIteration_leads (restoring_lawful ns rest) h.speaks.fit trivial hbegin
  have hended := h.step hleads
    (beginIteration_keeps (speaking_tracks hns) item value run _ begun hbegin)
  exact ⟨hended.speaks, hended.same, hended.active_eq⟩

theorem beginIteration_ends (item : String) (value : Value) :
    Eval.Ends (beginIteration item value) run := by
  have hbindAll : ∀ (bindings : List (String × Value)) (run : Run),
      Eval.Ends (bindAll bindings) run := by
    intro bindings
    induction bindings with
    | nil => exact fun _ => Eval.Ends.pure ()
    | cons binding others ih =>
      exact fun run => (Eval.Ends.move _).bind fun _ run' _ => ih run'
  refine (Eval.Ends.move _).bind fun _ started _ => ?_
  exact (hbindAll _ started).bind fun _ _ _ => (Eval.Ends.move _).bind fun _ _ _ => rfl

section

variable (hns : V.Covers ns) {body : Eval Value}
  (hbody : ∀ {run : Run}, Works V ns rest base run → Eval.Ends body run)
include hns hbody

theorem iterate_ends (h : Works V ns rest base run) (item : String) (value : Value) :
    Eval.Ends (iterate item value body) run := by
  rw [iterate_eq]
  exact (beginIteration_ends item value).bind fun _ begun hbegin =>
    (hbody (h.begin hns hbegin)).andThen endIteration

theorem iterateAll_ends
    (hyields : ∀ {run : Run}, run.session.Fit ns rest →
      (restoring ns rest).Yields .frame run (body run))
    (hks : Eval.Keeps (Session.Upholds (.speaking ns V) ns rest) body) (item : String) :
    ∀ (values : List Value) {run : Run}, Works V ns rest base run →
      Eval.Ends (iterateAll item body values) run
  | [], _, _ => Eval.Ends.pure []
  | value :: others, run, h => by
    have hD := restoring_lawful ns rest
    refine (iterate_ends hns hbody h item value).bind fun result run' hrun' => ?_
    have hworks := h.after (iterate_yields hD trivial (fun hinv _ => hyields hinv)
      (.refl hD h.speaks.fit) item value) (iterate_keeps (speaking_tracks hns) item value hks) hrun'
    exact (iterateAll_ends hyields hks item others hworks).bind fun _ _ _ => Eval.Ends.pure _

end

theorem elements_ends (item : String) (value : Value) : Eval.Ends (elements item value) run := by
  unfold elements
  split <;> rfl

theorem pushed_ends {x : Eval α}
    (hx : ∀ {s : Session}, run.session.push id args newCall = (.ok (), s) →
      Eval.Ends x (run.on s)) : Eval.Ends (do lift (·.push id args newCall); x) run := by
  refine (Eval.Ends.lift _).bind fun _ pushed hpush => ?_
  obtain ⟨hok, rfl⟩ := lift_eq_ok.mp hpush
  exact hx (Prod.ext hok rfl)

section

variable (hr : r.Affords V ns rest base)
include hr

theorem superValue_ends (h : Works V ns rest base run) : Eval.Ends r.superValue run := by
  refine Eval.Ends.topFrame.bind fun frame run' htop => ?_
  obtain ⟨hfr, rfl⟩ := topFrame_eq_ok.mp htop
  rw [Eval.Ends, session_bind_apply]
  cases (run.session.ns.get? frame.definition).bind (·.superdefinition) with
  | none => rfl
  | some next =>
    refine pushed_ends fun {s} hpush => ?_
    obtain ⟨hspeaks, hpos⟩ :=
      push_speaks hr.proper.toClosed hr.spans.toCovers h.speaks (h.speaks.topFrame? hfr) hpush
    exact (hr.ending.frame next hspeaks hpos
      (Run.super_cost_lt hr.fit h.speaks.fit hr.nonempty h.same h.active_eq hpush)).onFrame

theorem Works.call_ends (hcall : V.Has call)
    (h : Works V ns rest base run) : Eval.Ends (r.call call) run :=
  hr.ending.call hcall h.speaks
    (Run.callCost_lt_frameCost hr.fit h.speaks.fit hr.nonempty h.same h.active_eq)

theorem body_restores (b : Body) (hfit : run.session.Fit ns rest) :
    (restoring ns rest).Yields .frame run (r.body b run) :=
  body_yields (restoring_lawful ns rest) hr.ending.abides b hfit fun _ => trivial

theorem body_upholds (b : Body) :
    Eval.Keeps (Session.Upholds (.speaking ns V) ns rest) (r.body b) :=
  body_keeps (speaking_tracks hr.spans.toCovers) hr.ending.keeps b

theorem Works.body {b : Body} (h : Works V ns rest base run)
    (hb : r.body b run = some (.ok value, run')) : Works V ns rest base run' :=
  h.after ((body_restores hr b h.speaks.fit).widen (restoring_lawful ns rest).frame_loop)
    (body_upholds hr b) hb

end

mutual
/-- **A body ends**, if what costs less does. -/
theorem body_ends (hr : r.Affords V ns rest base) : ∀ (b : Body), (∀ call ∈ b.calls, V.Has call) →
    ∀ {run : Run}, Works V ns rest base run → Eval.Ends (r.body b) run
  | .empty, _, _, _ => Eval.Ends.pure _
  | .literal _, _, _, _ => Eval.Ends.pure _
  | .ref call, hcalls, _, h => h.call_ends hr (hcalls call (by simp [Body.calls]))
  | .concat parts, hcalls, _, h =>
    (bodies_ends hr parts hcalls h).bind fun _ _ _ => Eval.Ends.pure _
  | .list items, hcalls, _, h => (bodies_ends hr items hcalls h).bind fun _ _ _ => Eval.Ends.pure _
  | .super, _, _, h => superValue_ends hr h
  | .redirect _ _ _, _, _, _ => rfl
  | .each item range inner, hcalls, run, h => by
    have hrange : ∀ call ∈ range.calls, V.Has call := fun call hmem =>
      hcalls call (by simp [Body.calls, hmem])
    have hinner : ∀ call ∈ inner.calls, V.Has call := fun call hmem =>
      hcalls call (by simp [Body.calls, hmem])
    refine (body_ends hr range hrange h).bind fun value ranged hranged => ?_
    refine (elements_ends item value).bind fun items run' hitems => ?_
    obtain rfl : run' = ranged := elements_eq_ok hitems
    rw [Eval.Ends, session_bind_apply]
    refine Eval.Ends.andThen ?_ _
    exact (iterateAll_ends hr.spans.toCovers (body_ends hr inner hinner) (body_restores hr inner)
      (body_upholds hr inner) item items (h.body hr hranged)).bind fun _ _ _ => Eval.Ends.pure _

theorem bodies_ends (hr : r.Affords V ns rest base) : ∀ (bs : List Body),
    (∀ call ∈ Body.allCalls bs, V.Has call) →
    ∀ {run : Run}, Works V ns rest base run → Eval.Ends (r.bodies bs) run
  | [], _, _, _ => Eval.Ends.pure []
  | b :: others, hcalls, run, h => by
    have hfst : ∀ call ∈ b.calls, V.Has call := fun call hmem =>
      hcalls call (by simp [Body.allCalls, hmem])
    have hothers : ∀ call ∈ Body.allCalls others, V.Has call := fun call hmem =>
      hcalls call (by simp [Body.allCalls, hmem])
    exact (body_ends hr b hfst h).bind fun value run' hrun' =>
      (bodies_ends hr others hothers (h.body hr hrun')).bind fun _ _ _ => Eval.Ends.pure _
end

theorem calls_ends (hr : r.Affords V ns rest base) : ∀ (cs : List Call), (∀ call ∈ cs, V.Has call) →
    ∀ {run : Run}, Works V ns rest base run → Eval.Ends (r.calls cs) run
  | [], _, _, _ => Eval.Ends.pure []
  | call :: others, hcalls, run, h => by
    have hD := restoring_lawful ns rest
    rw [forall_mem_cons] at hcalls
    refine (h.call_ends hr hcalls.1).bind fun value run' hrun' => ?_
    have h' : Works V ns rest base run' :=
      h.after ((hr.ending.abides.call call h.speaks.fit).widen fun hmay =>
        hD.frame_loop (hD.call_frame hmay)) (hr.ending.keeps.call call) hrun'
    exact (calls_ends hr others hcalls.2 h').bind fun _ _ _ => Eval.Ends.pure _

/-- **The body of the top frame ends**, if what costs less does. -/
theorem inFrame_ends (hr : r.Affords V ns rest base) (hspeaks : base.session.Speaks V ns rest)
    (id : DefId) : Eval.Ends (r.inFrame id) base := by
  have h := Works.refl hspeaks
  rw [Eval.Ends, inFrame, session_bind_apply, hspeaks.fit.ns_eq]
  cases hd : ns.get? id with
  | none => rfl
  | some d =>
    have hbody := body_ends hr d.body (fun call hmem => hr.spans.body hd hmem) h
    simp only
    cases hkind : d.kind with
    | collection elements =>
      cases hempty : d.body with
      | empty =>
        have helements : ∀ call ∈ elements, V.Has call := fun call hmem =>
          hr.spans.kind hd (by rw [hkind]; exact hmem)
        exact (calls_ends hr elements helements h).bind fun _ _ _ => Eval.Ends.pure _
      | _ => rw [hempty] at hbody; exact hbody
    | _ => exact hbody

/-! ## 4. Calls -/

section

variable (hV : V.Proper) (hns : V.Covers ns) (hr : r.Ending V ns rest n)
    (h : run.session.Speaks V ns rest) (hcost : run.callCost V ≤ n)
include hV hns hr h hcost

theorem argument_ends (hname : name ∈ V.names)
    (hbind : run.session.argumentFor name = some binding) :
    Eval.Ends (r.argument name binding) run := by
  have hallowed := h.argumentFor hbind
  have hsize := size_of_argumentFor h.fit hbind
  unfold argument
  cases harg : binding.argument with
  | value v => exact Eval.Ends.pure v
  | missing => exact Eval.Ends.pure Value.null
  | call callee args =>
    refine Eval.Ends.entering fun hfree => Eval.Ends.inCaller fun out hout => ?_
    have hnoted : (noting name [] run).session.Speaks V ns rest := h
    obtain ⟨hspeaks, hlev, hev, hkin⟩ := stepOut_speaks hns _ hnoted hout
    refine hr.call (hallowed callee args harg) hspeaks (Nat.lt_of_lt_of_le ?_ hcost)
    have hactive : out.evaluator.active =
        ⟨run.session.marker, name, []⟩ :: run.evaluator.active := by rw [hev]; rfl
    refine Run.entered_out_cost_lt hV h.fit ⟨hname, hV.nil_mem⟩ hfree hactive hkin hlev ?_
    rw [h.fit.length_levels]
    exact Nat.lt_of_le_of_lt (Nat.min_le_right _ _) (Nat.pred_lt_self hsize)

theorem instantiate_ends (hcall : V.Has ⟨name, args⟩)
    (hfree : run.evaluator.active.any (·.same ⟨run.session.marker, name, args⟩) = false)
    (id : DefId) : Eval.Ends (r.instantiate id args) (noting name args run) := by
  refine pushed_ends fun {s} hpush => ?_
  obtain ⟨hspeaks, hpos⟩ := push_speaks hV.toClosed hns h (hV.call hcall) hpush
  refine Eval.Ends.onFrame (Eval.Ends.topFrame.bind fun frame run' htop => ?_)
  obtain ⟨_, rfl⟩ := topFrame_eq_ok.mp htop
  have hD := restoring_lawful ns rest
  obtain ⟨hcounted, hsame⟩ := hD.count hspeaks.fit
  have hlt : (Run.mk s (noting name args run).evaluator).frameCost V < run.callCost V :=
    Run.entered_push_cost_lt hV h.fit hcall hfree rfl hpush
  have hspeaks' : (s.count .computation).Speaks V ns rest :=
    hspeaks.same hcounted ((speaking_tracks hns).count s hspeaks.fit hspeaks.held).2.1
      (hD.frame_loop (hD.call_frame hsame))
  have hlt' : (Run.mk (s.count .computation) (noting name args run).evaluator).frameCost V
      < n := Nat.lt_of_lt_of_le hlt hcost
  exact (hr.frame _ hspeaks' hpos hlt').bind fun _ _ _ => Eval.Ends.pure _

theorem named_ends (hcall : V.Has call) : Eval.Ends (r.named call) run := by
  have htgt := h.keepTarget? hcall.1
  rw [Eval.Ends, named, session_bind_apply]
  refine (Eval.Ends.walk _).bind fun definition run₁ hwalk => ?_
  obtain ⟨_, rfl⟩ := walk_eq_ok.mp hwalk
  refine (Eval.Ends.lift _).bind fun found run₂ hlook => ?_
  obtain ⟨hfd, rfl⟩ := lift_eq_ok.mp hlook
  cases found with
  | some value => exact Eval.Ends.pure value
  | none =>
    cases definition with
    | none => rfl
    | some id =>
      refine Eval.Ends.bind (Eval.Ends.entering fun hfree => ?_) fun computed run₃ _ => ?_
      · have hD := restoring_lawful ns rest
        have hleads := lookup_leads hD h.fit hfd
        have hspeaks := h.same hleads.inv ((speaking_tracks hns).lookup _ _ h.fit h.held).2.1
          (hD.frame_loop (hD.call_frame hleads.may))
        refine instantiate_ends hV hns hr hspeaks ?_ ⟨htgt, hcall.2⟩ hfree id
        exact Nat.le_trans (Nat.le_of_eq (Run.callCost_eq h.fit hleads.inv hleads.may rfl)) hcost
      · obtain ⟨frame, value⟩ := computed
        simp only
        rw [Eval.Ends, session_bind_apply]
        split
        · exact (Eval.Ends.lift _).bind fun _ _ _ => Eval.Ends.pure value
        · exact Eval.Ends.pure value

/-- **A call ends**, if what costs less does. -/
theorem value_ends (hcall : V.Has call) : Eval.Ends (r.value call) run := by
  unfold value
  split
  · exact named_ends hV hns hr h hcost hcall
  · rw [Eval.Ends, session_bind_apply]
    cases hbind : run.session.argumentFor call.name with
    | some binding => exact argument_ends hV hns hr h hcost hcall.1 hbind
    | none => exact named_ends hV hns hr h hcost hcall

end

/-- **Fuel above the cost is enough.** -/
theorem ending_within (hV : V.Proper) (hns : V.Spans ns) (fuel : Nat) :
    Ending V ns rest fuel ⟨evaluateWithin fuel, frameWithin fuel⟩ := by
  have habides := abides_within (restoring_lawful ns rest)
  induction fuel with
  | zero =>
    exact ⟨fun _ _ hcost => absurd hcost (Nat.not_lt_zero _),
      fun _ _ _ hcost => absurd hcost (Nat.not_lt_zero _), habides 0,
      keeps_within (speaking_tracks hns.toCovers) 0⟩
  | succ fuel ih =>
    refine ⟨fun {call run} hcall hspeaks hcost => ?_, fun {run} id hspeaks hsize hcost => ?_,
      habides (fuel + 1), keeps_within (speaking_tracks hns.toCovers) (fuel + 1)⟩
    · exact value_ends hV hns.toCovers ih hspeaks (Nat.le_of_lt_succ hcost) hcall
    · exact inFrame_ends ⟨hV, hns, hspeaks.fit, hsize, ih.mono (Nat.le_of_lt_succ hcost)⟩ hspeaks id

theorem below_within (fuel more : Nat) : Below ⟨evaluateWithin fuel, frameWithin fuel⟩
    ⟨evaluateWithin (fuel + more), frameWithin (fuel + more)⟩ := by
  induction fuel with
  | zero => exact ⟨fun _ _ _ _ _ => .givenUp trivial, fun _ _ _ _ _ => .givenUp trivial⟩
  | succ fuel ih =>
    rw [Nat.succ_add]
    exact ⟨value_below ih, inFrame_matches Likeness.given_lawful ih⟩

end Recur

/-- **A call of the vocabulary comes to one end**, with any fuel above its cost. -/
theorem evaluateWithin_ends (hV : V.Proper) (hns : V.Spans ns) (h : run.session.Speaks V ns rest)
    (hcall : V.Has call) : ∃ out run', ∀ more,
      evaluateWithin (run.callCost V + 1 + more) call run = some (out, run') := by
  have hends := (Recur.ending_within hV hns (run.callCost V + 1)).call hcall h (Nat.lt_succ_self _)
  obtain ⟨⟨out, run'⟩, hrun'⟩ := Option.isSome_iff_exists.mp hends
  exact ⟨out, run', fun more =>
    below_iff.mpr ((Recur.below_within (run.callCost V + 1) more).call call) run _ hrun'⟩

end KeepTree
