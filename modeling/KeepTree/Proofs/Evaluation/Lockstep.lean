import KeepTree.Proofs.Evaluation.Alike

/-!
# Evaluations in lockstep

Two evaluators work on sessions that are alike: a watched one without caching, and one with it. If
the first comes to a value, so does the second, to the same one and with sessions that are alike
again. Where the second finds a value in a table, the first computes it alone.

* `Eval.bind_eq_ok`, `Eval.andThen_eq_ok`, … -- **what a step does that comes to a value**;
* `lockstep_within` -- **an evaluation with caching follows one without**.
-/

namespace KeepTree

open Discipline Session Eval Namespace List

variable {α β : Type} {run run' u c u' : Run} {ns : Namespace} {ledger : List Answer} {p : Pairing}
  {arguments : List Argument} {frame : Frame} {s : Session} {id : DefId} {item : String}
  {r : Request} {found : Option Value} {call : Call}

/-! ## 1. Steps that come to a value -/

namespace Eval

variable {x : Eval α} {a : α}

theorem bind_eq_ok {f : α → Eval β} {b : β} : (x >>= f) run = some (.ok b, run') ↔
    ∃ a mid, x run = some (.ok a, mid) ∧ f a mid = some (.ok b, run') := by
  rw [bind_apply]
  constructor
  · intro h
    cases hx : x run with
    | none => rw [hx] at h; cases h
    | some p =>
      obtain ⟨outcome, mid⟩ := p
      cases outcome with
      | error fault => rw [hx] at h; cases h
      | ok a => exact ⟨a, mid, rfl, by rw [hx] at h; exact h⟩
  · rintro ⟨a, mid, hx, hf⟩
    rw [hx]
    exact hf

theorem pure_eq_ok {b : α} : (pure a : Eval α) run = some (.ok b, run') ↔ a = b ∧ run = run' := by
  rw [pure_apply]
  simp

theorem lift_eq_ok {f : Session → Except Fault α × Session} : lift f run = some (.ok a, run') ↔
    (f run.session).1 = .ok a ∧ run' = run.on (f run.session).2 := by
  rw [lift_apply]
  cases (f run.session).1 with
  | ok b => simp [Except.mapError, eq_comm]
  | error fault => simp [Except.mapError]

theorem move_eq_ok {f : Session → Except Fault Session} {done : Unit} :
    move f run = some (.ok done, run') ↔ ∃ s, f run.session = .ok s ∧ run' = run.on s := by
  rw [move_apply]
  cases f run.session with
  | ok s => simp [eq_comm]
  | error fault => simp

theorem move_bind_eq_ok {f : Session → Except Fault Session} {g : Unit → Eval α} :
    (move f >>= g) run = some (.ok a, run') ↔
      ∃ s, f run.session = .ok s ∧ g () (run.on s) = some (.ok a, run') := by
  rw [bind_apply, move_apply]
  cases f run.session <;> simp

theorem attempt_eq_ok : attempt x run = some (.ok (.ok a), run') ↔ x run = some (.ok a, run') := by
  rw [attempt]
  cases hx : x run with
  | none => simp
  | some p =>
    obtain ⟨outcome, mid⟩ := p
    cases outcome with
    | ok b => simp
    | error fault =>
      simp only [Option.some.injEq, Prod.mk.injEq, reduceCtorEq, false_and, iff_false]
      split <;> simp

theorem conclude_eq_ok {outcome : Except EvalFault α} :
    conclude outcome run = some (.ok a, run') ↔ outcome = .ok a ∧ run = run' := by
  rw [conclude_apply]
  simp

theorem andThen_eq_ok {cleanup : Run → Run} : andThen x cleanup run = some (.ok a, run') ↔
    ∃ mid, x run = some (.ok a, mid) ∧ run' = cleanup mid := by
  rw [andThen, bind_eq_ok]
  constructor
  · rintro ⟨outcome, mid, hx, h⟩
    rw [modify_bind_apply, conclude_eq_ok] at h
    obtain ⟨rfl, rfl⟩ := h
    exact ⟨mid, attempt_eq_ok.mp hx, rfl⟩
  · rintro ⟨mid, hx, rfl⟩
    exact ⟨.ok a, mid, attempt_eq_ok.mpr hx, rfl⟩

/-- The run with a call noted as in progress. -/
def noting (name : String) (arguments : List Argument) (run : Run) : Run :=
  remember (fun e => { e with active := ⟨run.session.marker, name, arguments⟩ :: e.active }) run

/-- The run without the call that was noted last. -/
def dropping : Run → Run := remember fun e => { e with active := e.active.tail }

theorem entering_eq_ok {name : String} : entering name arguments x run = some (.ok a, run') ↔
    run.evaluator.active.any (·.same ⟨run.session.marker, name, arguments⟩) = false ∧ ∃ mid,
    x (noting name arguments run) = some (.ok a, mid) ∧ run' = dropping mid := by
  rw [entering, get_bind_apply]
  cases run.evaluator.active.any (·.same ⟨run.session.marker, name, arguments⟩) with
  | true =>
    simp only [if_true, Bool.true_eq_false, false_and, iff_false]
    intro h
    cases h
  | false =>
    simp only [Bool.false_eq_true, if_false, true_and]
    exact andThen_eq_ok

theorem onFrame_eq_ok : onFrame x run = some (.ok a, run') ↔
    ∃ mid s, x run = some (.ok a, mid) ∧ mid.session.pop = .ok s ∧ run' = mid.on s := by
  rw [onFrame, bind_eq_ok]
  constructor
  · rintro ⟨outcome, mid, hx, h⟩
    obtain ⟨popped, mid', hpop, h⟩ := bind_eq_ok.mp h
    obtain ⟨value, mid'', hval, h⟩ := bind_eq_ok.mp h
    obtain ⟨_, mid''', hdone, h⟩ := bind_eq_ok.mp h
    obtain ⟨rfl, rfl⟩ := conclude_eq_ok.mp hval
    obtain ⟨rfl, rfl⟩ := conclude_eq_ok.mp hdone
    obtain ⟨rfl, rfl⟩ := pure_eq_ok.mp h
    obtain ⟨s, hs, rfl⟩ := move_eq_ok.mp (attempt_eq_ok.mp hpop)
    exact ⟨mid, s, attempt_eq_ok.mp hx, hs, rfl⟩
  · rintro ⟨mid, s, hx, hs, rfl⟩
    refine ⟨.ok a, mid, attempt_eq_ok.mpr hx, bind_eq_ok.mpr ⟨.ok (), mid.on s, ?_, rfl⟩⟩
    exact attempt_eq_ok.mpr (move_eq_ok.mpr ⟨s, hs, rfl⟩)

/-- How many frames an argument is evaluated down. -/
def framesOut (depth : Nat) (run : Run) : Nat := min (depth + 1) (run.session.stack.size - 1)

theorem inCaller_eq_ok {depth : Nat} : inCaller depth x run = some (.ok a, run') ↔ ∃ out mid,
    times (framesOut depth run) (move unpush) run = some (.ok (), out) ∧ x out = some (.ok a, mid) ∧
    times (framesOut depth run) (move repush) mid = some (.ok (), run') := by
  rw [inCaller, session_bind_apply]
  constructor
  · intro h
    obtain ⟨_, out, hout, h⟩ := bind_eq_ok.mp h
    obtain ⟨outcome, mid, hx, h⟩ := bind_eq_ok.mp h
    obtain ⟨_, back, hback, h⟩ := bind_eq_ok.mp h
    obtain ⟨rfl, rfl⟩ := conclude_eq_ok.mp h
    exact ⟨out, mid, hout, attempt_eq_ok.mp hx, hback⟩
  · rintro ⟨out, mid, hout, hx, hback⟩
    refine bind_eq_ok.mpr ⟨(), out, hout, bind_eq_ok.mpr ⟨.ok a, mid, attempt_eq_ok.mpr hx, ?_⟩⟩
    exact bind_eq_ok.mpr ⟨(), run', hback, rfl⟩

theorem topFrame_eq_ok : topFrame run = some (.ok frame, run') ↔
    run.session.topFrame? = some frame ∧ run = run' := by
  rw [topFrame, session_bind_apply]
  cases run.session.topFrame? with
  | some found => simp [pure_apply]
  | none => simp [throw_apply]

end Eval

/-! ## 2. Runs that are alike -/

/-- The call of the first evaluator for one of the second. -/
def Pairing.activeCall (p : Pairing) (root : Nat) (call : ActiveCall) : ActiveCall :=
  { call with marker := ⟨root, p.states call.marker.state, call.marker.iteration⟩ }

/-- The same calls are in progress and the same items bound; `root` and `clock` are of the family of
    the first session and of the second. -/
structure Evaluator.Alike (ns : Namespace) (p : Pairing) (root clock : Nat) (u c : Evaluator) :
    Prop where
  active_eq : u.active = c.active.map (p.activeCall root)
  recent : ∀ call ∈ c.active, call.marker.state ≤ clock
  bindings_eq : u.bindings = c.bindings
  items : ∀ entry ∈ c.bindings, entry.1 ∈ ns.items

/-- Evaluators on sessions that are alike. -/
structure Run.Alike (ns : Namespace) (ledger : List Answer) (p : Pairing) (u c : Run) : Prop where
  session : u.session.Alike ns ledger p c.session
  nonempty : 0 < u.session.stack.size
  evaluator : Evaluator.Alike ns p u.session.family.root c.session.family.clock u.evaluator
    c.evaluator

namespace Run

variable {c' : Run}

theorem on_eq {base : Run} (h : run.evaluator = base.evaluator) : base.on run.session = run := by
  exact congrArg _ h.symm

section

variable (h : Alike ns ledger p u c)
include h

theorem Alike.on {s' : Session} (hs : s.Alike ns ledger p s')
    (hsize : 0 < s.stack.size) (hroot : s.family.root = u.session.family.root)
    (hclock : c.session.family.clock ≤ s'.family.clock) : Alike ns ledger p (u.on s) (c.on s') where
  session := hs
  nonempty := hsize
  evaluator :=
    { active_eq := by
        have heq := h.evaluator.active_eq
        rw [← hroot] at heq
        exact heq
      recent := fun call hmem => Nat.le_trans (h.evaluator.recent call hmem) hclock
      bindings_eq := h.evaluator.bindings_eq
      items := h.evaluator.items }

theorem Alike.inv : (sparing ns.uncached []).inv u.session :=
  ⟨h.session.fit, h.session.store.keepless⟩

/-- **Runs that come back to what they were are alike** if their tables are. -/
theorem Alike.restore (hu : (sparing ns.uncached []).Leads .call u u')
    (hc : (restoring ns []).Leads .call c c')
    (hsto : Store.Alike ns ledger p.tables u'.session.store c'.session.store) :
    Alike ns ledger p u' c' := by
  obtain ⟨⟨hfit, _⟩, ⟨hsame, _⟩, heval⟩ := hu
  obtain ⟨hfit', hsame', heval'⟩ := hc
  have hsess := h.session.restore h.nonempty hsame hsame' hfit hfit' hsto
  have hal := h.on hsess (hsame.size_eq ▸ h.nonempty) hsame.root_eq hsame'.clock_le
  rwa [Run.on_eq heval, Run.on_eq heval'] at hal

theorem Alike.marker_eq : u.session.marker =
    ⟨u.session.family.root, p.states c.session.marker.state, c.session.marker.iteration⟩ := by
  obtain ⟨fu, fc, hfu, hfc, hal⟩ := h.session.top h.nonempty
  rw [marker, marker, hfu, hfc]
  simp only [hal.state_eq, hal.iteration_eq]

theorem Alike.any_active (name : String) (arguments : List Argument)
    (hu : u.evaluator.active.any (·.same ⟨u.session.marker, name, arguments⟩) = false) :
    c.evaluator.active.any (·.same ⟨c.session.marker, name, arguments⟩) = false := by
  rw [h.evaluator.active_eq, any_map] at hu
  rw [any_eq_false] at hu ⊢
  intro call hmem hsame
  refine hu call hmem ?_
  simp only [ActiveCall.same, Bool.and_eq_true, decide_eq_true_eq, Function.comp] at hsame ⊢
  obtain ⟨⟨hmarker, hname⟩, hargs⟩ := hsame
  refine ⟨⟨?_, hname⟩, hargs⟩
  rw [h.marker_eq, ← hmarker]
  rfl

theorem Alike.noting (name : String) (arguments : List Argument) :
    Alike ns ledger p (Eval.noting name arguments u) (Eval.noting name arguments c) where
  session := h.session
  nonempty := h.nonempty
  evaluator :=
    { active_eq := by
        show ActiveCall.mk u.session.marker name arguments :: u.evaluator.active = _
        rw [h.marker_eq, h.evaluator.active_eq]
        rfl
      recent := by
        intro call hmem
        rcases mem_cons.mp hmem with rfl | hmem
        · obtain ⟨fu, fc, _, hfc, _⟩ := h.session.top h.nonempty
          obtain ⟨id, _, hf⟩ := Option.bind_eq_some_iff.mp hfc
          have hrecent := h.session.fit'.sound.recent id fc hf
          rw [marker, hfc]
          exact hrecent
        · exact h.evaluator.recent call hmem
      bindings_eq := h.evaluator.bindings_eq
      items := h.evaluator.items }

theorem Alike.dropping : Alike ns ledger p (Eval.dropping u) (Eval.dropping c) where
  session := h.session
  nonempty := h.nonempty
  evaluator :=
    { active_eq := by
        show u.evaluator.active.tail = c.evaluator.active.tail.map _
        rw [h.evaluator.active_eq, map_tail]
        rfl
      recent := fun call hmem => h.evaluator.recent call (mem_of_mem_tail hmem)
      bindings_eq := h.evaluator.bindings_eq
      items := h.evaluator.items }

theorem Alike.binding
    {f : List (String × Value) → List (String × Value)}
    (hf : ∀ entry ∈ f c.evaluator.bindings, entry.1 ∈ ns.items) :
    Alike ns ledger p (remember (fun e => { e with bindings := f e.bindings }) u)
      (remember (fun e => { e with bindings := f e.bindings }) c) where
  session := h.session
  nonempty := h.nonempty
  evaluator := { h.evaluator with bindings_eq := congrArg f h.evaluator.bindings_eq, items := hf }

end

/-- **What the first evaluator pushes, the second does, too.** -/
theorem Alike.push (hp : ns.Passing) (ho : ns.Orderly) (h : Alike ns ledger p u c) {newCall : Bool}
    (hpush : u.session.push id arguments newCall = (.ok (), s)) :
    ∃ s' fu fc, c.session.push id arguments newCall = (.ok (), s') ∧ s.topFrame? = some fu ∧
      s'.topFrame? = some fc ∧ Frame.Alike (p.grow fu fc) fu fc ∧
      Alike ns ledger (p.grow fu fc) (u.on s) (c.on s') := by
  obtain ⟨s', fu, fc, hpush', hfu, hfc, hal, hsess, hsize, hclock, hstate⟩ :=
    h.session.push hp ho hpush
  have hroot : s.family.root = u.session.family.root := (Session.Effect.of_push hpush).kin.root_eq
  have hrecent := h.evaluator.recent
  refine ⟨s', fu, fc, hpush', hfu, hfc, hal, hsess, hsize, ?_, ?_, h.evaluator.bindings_eq,
    h.evaluator.items⟩
  · show u.evaluator.active = c.evaluator.active.map ((p.grow fu fc).activeCall s.family.root)
    rw [h.evaluator.active_eq, hroot]
    refine map_congr_left fun call hmem => ?_
    -- no call in progress was noted after the push
    have hne : call.marker.state ≠ fc.state := by
      rw [hstate]
      exact Nat.ne_of_lt (Nat.lt_succ_of_le (hrecent call hmem))
    simp only [Pairing.activeCall, Pairing.grow, if_neg hne]
  · intro call hmem
    show _ ≤ s'.family.clock
    rw [hclock]
    exact Nat.le_succ_of_le (hrecent call hmem)

theorem Alike.stepOut : ∀ (n : Nat) {u c out out' : Run}, Alike ns ledger p u c →
    n < u.session.stack.size → times n (move unpush) u = some (.ok (), out) →
      times n (move unpush) c = some (.ok (), out') → Alike ns ledger p out out'
  | 0, _, _, _, _, h, _, hu, hc => by
    obtain ⟨_, rfl⟩ := pure_eq_ok.mp hu
    obtain ⟨_, rfl⟩ := pure_eq_ok.mp hc
    exact h
  | n + 1, u, c, out, out', h, hn, hu, hc => by
    obtain ⟨s, hs, hu⟩ := move_bind_eq_ok.mp hu
    obtain ⟨s', hs', hc⟩ := move_bind_eq_ok.mp hc
    have hsess := h.session.unpush (by omega) hs hs'
    have hkin := (Session.Effect.unpush hs).kin
    obtain ⟨_, _, _, _, e⟩ := unpush_ok hs
    obtain ⟨_, _, _, _, e'⟩ := unpush_ok hs'
    have hsize : s.stack.size = u.session.stack.size - 1 := by rw [e]; rfl
    have hclock : c.session.family.clock ≤ s'.family.clock := by rw [e']; exact Nat.le_refl _
    have hon := h.on hsess (by omega) hkin.root_eq hclock
    refine hon.stepOut n ?_ hu hc
    show n < s.stack.size
    omega

theorem repush_times_store : ∀ (n : Nat) {run back : Run},
    times n (move repush) run = some (.ok (), back) → back.session.store = run.session.store
  | 0, _, _, h => by
    obtain ⟨_, rfl⟩ := pure_eq_ok.mp h
    rfl
  | n + 1, run, back, h => by
    obtain ⟨s, hs, h⟩ := move_bind_eq_ok.mp h
    rw [repush_times_store n h]
    exact repush_store hs

end Run

/-! ## 3. Following -/

/-- Where the first step comes to a value, the second comes to one that belongs to it, and the runs
    are alike. -/
def Follows (ns : Namespace) (ledger : List Answer) (p : Pairing) {α β : Type} (R : α → β → Prop)
    (u : Option (Except EvalFault α × Run)) (c : Option (Except EvalFault β × Run)) : Prop :=
  ∀ a u', u = some (.ok a, u') → ∃ b c', c = some (.ok b, c') ∧ R a b ∧ Run.Alike ns ledger p u' c'

namespace Follows

variable {γ δ : Type} {R : α → β → Prop} {S : γ → δ → Prop} {x : Eval α} {y : Eval β}

theorem value (h : Run.Alike ns ledger p u c) {a : α} {b : β} (hab : R a b) :
    Follows ns ledger p R (some (.ok a, u)) (some (.ok b, c)) := by
  rintro _ _ ⟨⟩
  exact ⟨b, c, rfl, hab, h⟩

theorem of_fault {fault : EvalFault} {outcome : Option (Except EvalFault β × Run)} :
    Follows ns ledger p R (some (.error fault, u)) outcome := nofun

theorem bind {f : α → Eval γ} {g : β → Eval δ} (hx : Follows ns ledger p R (x u) (y c))
    (hf : ∀ {a b u' c'}, R a b → Run.Alike ns ledger p u' c' →
      Follows ns ledger p S (f a u') (g b c')) :
    Follows ns ledger p S ((x >>= f) u) ((y >>= g) c) := by
  intro a u' hu
  obtain ⟨_, mid, hxu, hfu⟩ := Eval.bind_eq_ok.mp hu
  obtain ⟨_, mid', hyc, hab, hmid⟩ := hx _ mid hxu
  obtain ⟨b, c', hgc, hS, hal⟩ := hf hab hmid a u' hfu
  exact ⟨b, c', Eval.bind_eq_ok.mpr ⟨_, mid', hyc, hgc⟩, hS, hal⟩

theorem map {x y : Eval α} (f : α → γ) (hx : Follows ns ledger p Eq (x u) (y c)) :
    Follows ns ledger p Eq ((x >>= fun a => pure (f a)) u) ((y >>= fun a => pure (f a)) c) :=
  hx.bind fun {_ _ _ _} hab hal => hab ▸ value hal rfl

section

variable (h : Run.Alike ns ledger p u c)
include h

theorem entering (name : String) (arguments : List Argument)
    (hx : Follows ns ledger p R (x (noting name arguments u)) (y (noting name arguments c))) :
    Follows ns ledger p R (Eval.entering name arguments x u) (Eval.entering name arguments y c) := by
  intro a u' hu
  obtain ⟨hactive, mid, hxu, rfl⟩ := entering_eq_ok.mp hu
  obtain ⟨b, mid', hyc, hab, hmid⟩ := hx a mid hxu
  refine ⟨b, dropping mid', entering_eq_ok.mpr ?_, hab, hmid.dropping⟩
  exact ⟨h.any_active name arguments hactive, mid', hyc, rfl⟩

theorem binding (hitem : item ∈ ns.items) (bound : Value)
    (hx : ∀ {u c}, Run.Alike ns ledger p u c → Follows ns ledger p R (x u) (y c)) :
    Follows ns ledger p R (Eval.binding item bound x u) (Eval.binding item bound y c) := by
  intro a u' hu
  obtain ⟨mid, hxu, rfl⟩ := andThen_eq_ok.mp hu
  have hbound : ∀ entry ∈ (item, bound) :: c.evaluator.bindings, entry.1 ∈ ns.items := by
    intro entry hmem
    rcases mem_cons.mp hmem with rfl | hmem
    · exact hitem
    · exact h.evaluator.items entry hmem
  obtain ⟨b, mid', hyc, hab, hmid⟩ :=
    hx (h.binding (f := fun bindings => (item, bound) :: bindings) hbound) a mid hxu
  refine ⟨b, _, ?_, hab, hmid.binding (f := tail) fun entry hmem =>
    hmid.evaluator.items entry (mem_of_mem_tail hmem)⟩
  exact andThen_eq_ok.mpr ⟨mid', hyc, rfl⟩

/-- A frame that both pop. -/
theorem onFrame {s' : Session}
    (hs : (sparing ns.uncached []).Entered u.session id s)
    (hs' : (restoring ns []).Entered c.session id s') {q : Pairing}
    (hq : ∀ {tu tc}, p.tables tu tc → q.tables tu tc) {u₁ c₁ : Run}
    (hux : (sparing ns.uncached []).Yields .frame (u.on s) (x u₁))
    (hcy : (restoring ns []).Yields .frame (c.on s') (y c₁))
    (hx : Follows ns ledger q R (x u₁) (y c₁)) :
    Follows ns ledger p R (Eval.onFrame x u₁) (Eval.onFrame y c₁) := by
  intro a u' hu
  obtain ⟨mid, popped, hxu, hpop, rfl⟩ := onFrame_eq_ok.mp hu
  obtain ⟨b, mid', hyc, hab, hmid⟩ := hx a mid hxu
  obtain ⟨back, hback, hleads⟩ := Recur.entered_back hs mid (hux _ _ hxu).leads
  obtain ⟨back', hback', hleads'⟩ := Recur.entered_back hs' mid' (hcy _ _ hyc).leads
  cases hback.symm.trans hpop
  refine ⟨b, mid'.on back', onFrame_eq_ok.mpr ⟨mid', back', hyc, hback', rfl⟩, hab, ?_⟩
  refine h.restore hleads hleads' ?_
  have hsto := hmid.session.store.weaken hq
  rw [← pop_store hpop, ← pop_store hback'] at hsto
  exact hsto

/-- An argument that both evaluate further down. -/
theorem inCaller (hp : ns.Passing) (ho : ns.Orderly) (depth : Nat)
    (hux : ∀ {out : Run}, (sparing ns.uncached []).inv out.session →
      (sparing ns.uncached []).Yields .call out (x out))
    (hcy : ∀ {out : Run}, (restoring ns []).inv out.session →
      (restoring ns []).Yields .call out (y out))
    (hx : ∀ {u c}, Run.Alike ns ledger p u c → Follows ns ledger p R (x u) (y c)) :
    Follows ns ledger p R (Eval.inCaller depth x u) (Eval.inCaller depth y c) := by
  intro a u' hu
  obtain ⟨out, mid, hout, hxu, hrep⟩ := inCaller_eq_ok.mp hu
  have hfrs : framesOut depth c = framesOut depth u := by
    rw [framesOut, framesOut, h.session.size_eq]
  have hlt : framesOut depth u < u.session.stack.size := by
    have hsize := h.nonempty
    unfold framesOut
    omega
  obtain ⟨found, hfd, hinvOut, _, hreturn⟩ :=
    (sparing_lawful (hp.fleeting ho) []).stepOut _ h.inv hlt
  obtain ⟨out', hout', hinvOut', _, hreturn'⟩ :=
    (restoring_lawful ns []).stepOut _ h.session.fit' (h.session.size_eq ▸ hlt)
  obtain rfl : out = found := (Prod.mk.inj (Option.some.inj (hout.symm.trans hfd))).2
  obtain ⟨b, mid', hyc, hab, hmid⟩ := hx (h.stepOut _ hlt hout hout') a mid hxu
  obtain ⟨back, hback, hleads⟩ := hreturn mid (hux hinvOut _ _ hxu).leads
  obtain ⟨back', hback', hleads'⟩ := hreturn' mid' (hcy hinvOut' _ _ hyc).leads
  obtain rfl : back = u' := (Prod.mk.inj (Option.some.inj (hback.symm.trans hrep))).2
  refine ⟨b, back', inCaller_eq_ok.mpr ⟨out', mid', hfrs ▸ hout', hyc, hfrs ▸ hback'⟩,
    hab, h.restore hleads hleads' ?_⟩
  rw [Run.repush_times_store _ hback, Run.repush_times_store _ hback']
  exact hmid.session.store

end

end Follows

/-! ## 4. Bodies -/

theorem Namespace.Refers.uncached (h : ns.Refers id) : ns.uncached.Refers id := by
  cases h with
  | named h => exact .named ((lookupFrom_congr ns.outline_uncached _ _).trans h)
  | @super lower d hd hsuper =>
    have hget : ns.uncached.get? lower = some d.uncached := by rw [get?_uncached, hd]; rfl
    exact .super hget hsuper

namespace Recur

/-- The calls and frames inside are followed. -/
structure Lockstep (ns : Namespace) (ledger : List Answer) (ru rc : Recur) : Prop where
  spares : ru.Abides (.sparing ns.uncached [])
  restores : rc.Abides (.restoring ns [])
  call : ∀ {p u c} (call : Call), Run.Alike ns ledger p u c →
    Follows ns ledger p Eq (ru.call call u) (rc.call call c)
  frame : ∀ {p u c} (id : DefId), Run.Alike ns ledger p u c →
    Follows ns ledger p Eq (ru.frame id u) (rc.frame id c)

variable {ru rc : Recur}

theorem elements_follows (h : Run.Alike ns ledger p u c) (item : String) (value : Value) :
    Follows ns ledger p Eq (elements item value u) (elements item value c) := by
  cases value with
  | list items => exact .value h rfl
  | null => exact .value h rfl
  | _ => exact .of_fault

theorem startIteration_follows (h : Run.Alike ns ledger p u c) :
    Follows ns ledger p Eq (move (fun s => s.startIteration.map (·.2)) u)
      (move (fun s => s.startIteration.map (·.2)) c) := by
  intro _ u' hu
  obtain ⟨s, hs, rfl⟩ := move_eq_ok.mp hu
  obtain ⟨started, hstart, rfl⟩ := map_eq_ok.mp hs
  obtain ⟨s', hstart', hsess⟩ := h.session.startIteration h.nonempty hstart
  obtain ⟨_, _, _, _, _, heq⟩ := startIteration_effect hstart
  refine ⟨(), c.on s', move_eq_ok.mpr ⟨s', map_eq_ok.mpr ⟨_, hstart', rfl⟩, rfl⟩, rfl, ?_⟩
  obtain ⟨_, _, _, _, _, rfl⟩ := startIteration_effect hstart'
  exact h.on hsess (heq ▸ h.nonempty) (heq ▸ rfl) (Nat.le_refl _)

theorem putValue_follows (ho : ns.Orderly) (h : Run.Alike ns ledger p u c) {key : String}
    (hkey : key ∈ ns.items) (value : Value) :
    Follows ns ledger p Eq (move (·.putValue key value) u) (move (·.putValue key value) c) := by
  intro _ u' hu
  obtain ⟨s, hs, rfl⟩ := move_eq_ok.mp hu
  obtain ⟨s', hs', hsess⟩ := h.session.putValue ho h.nonempty hkey hs
  obtain ⟨_, _, rfl⟩ := putValue_effect hs
  refine ⟨(), c.on s', move_eq_ok.mpr ⟨s', hs', rfl⟩, rfl, ?_⟩
  obtain ⟨_, _, rfl⟩ := putValue_effect hs'
  exact h.on hsess h.nonempty rfl (Nat.le_refl _)

theorem bindAll_follows (ho : ns.Orderly) : ∀ (bindings : List (String × Value)) {u c : Run},
    (∀ entry ∈ bindings, entry.1 ∈ ns.items) → Run.Alike ns ledger p u c →
      Follows ns ledger p Eq (bindAll bindings u) (bindAll bindings c)
  | [], _, _, _, h => .value h rfl
  | (name, value) :: rest, u, c, hitems, h => by
    refine (putValue_follows ho h (hitems (name, value) mem_cons_self) value).bind ?_
    intro _ _ _ _ _ h'
    exact bindAll_follows ho rest (fun entry hmem => hitems entry (mem_cons_of_mem _ hmem)) h'

section

variable (ho : ns.Orderly) (hitem : item ∈ ns.items) {x y : Eval Value}
  (hx : ∀ {u c}, Run.Alike ns ledger p u c → Follows ns ledger p Eq (x u) (y c))
include ho hitem hx

theorem iterate_follows (h : Run.Alike ns ledger p u c) (value : Value) :
    Follows ns ledger p Eq (iterate item value x u) (iterate item value y c) := by
  refine (startIteration_follows h).bind ?_
  intro _ _ u₁ c₁ _ h₁
  rw [get_bind_apply, h₁.evaluator.bindings_eq]
  refine (bindAll_follows ho _ ?_ h₁).bind ?_
  · exact fun entry hmem => h₁.evaluator.items entry (mem_reverse.mp hmem)
  intro _ _ u₂ c₂ _ h₂
  refine (putValue_follows ho h₂ hitem value).bind ?_
  intro _ _ u₃ c₃ _ h₃
  exact .binding h₃ hitem value hx

theorem iterateAll_follows :
    ∀ (values : List Value) {u c : Run}, Run.Alike ns ledger p u c →
      Follows ns ledger p Eq (iterateAll item x values u) (iterateAll item y values c)
  | [], _, _, h => .value h rfl
  | value :: rest, u, c, h => by
    refine (iterate_follows ho hitem hx h value).bind ?_
    rintro result _ u₁ c₁ rfl h₁
    exact (iterateAll_follows rest h₁).map fun results => result :: results

end

theorem topFrame_follows (h : Run.Alike ns ledger p u c) :
    Follows ns ledger p (Frame.Alike p) (topFrame u) (topFrame c) := by
  intro frame u' hu
  obtain ⟨hfr, rfl⟩ := topFrame_eq_ok.mp hu
  obtain ⟨fu, fc, hfu, hfc, hal⟩ := h.session.top h.nonempty
  cases hfu.symm.trans hfr
  exact ⟨fc, c, topFrame_eq_ok.mpr ⟨hfc, rfl⟩, hal, h⟩

/-- A frame that both push. -/
theorem pushed_follows (hp : ns.Passing) (ho : ns.Orderly) (h : Run.Alike ns ledger p u c)
    (hid : ns.Refers id) (arguments : List Argument) (newCall : Bool) {R : α → β → Prop}
    {x : Eval α} {y : Eval β}
    (hx : ∀ {s s' fu fc}, (sparing ns.uncached []).Entered u.session id s →
      (restoring ns []).Entered c.session id s' →
      Run.Alike ns ledger (p.grow fu fc) (u.on s) (c.on s') →
      Follows ns ledger p R (x (u.on s)) (y (c.on s'))) :
    Follows ns ledger p R ((lift (·.push id arguments newCall) >>= fun _ => x) u)
      ((lift (·.push id arguments newCall) >>= fun _ => y) c) := by
  intro a u' hu
  obtain ⟨_, _, hlift, hu⟩ := Eval.bind_eq_ok.mp hu
  obtain ⟨hok, rfl⟩ := lift_eq_ok.mp hlift
  have hpush : u.session.push id arguments newCall =
      (.ok (), (u.session.push id arguments newCall).2) := Prod.ext hok rfl
  obtain ⟨s', fu, fc, hpush', _, _, _, hpushed⟩ := h.push hp ho hpush
  have hentered := (sparing_lawful (hp.fleeting ho) []).push h.inv hid.uncached hpush
  have hentered' := (restoring_lawful ns []).push h.session.fit' hid hpush'
  obtain ⟨b, c', hyc, hab, hal⟩ := hx hentered hentered' hpushed a u' hu
  refine ⟨b, c', Eval.bind_eq_ok.mpr ⟨(), c.on s', lift_eq_ok.mpr ?_, hyc⟩, hab, hal⟩
  rw [hpush']
  exact ⟨rfl, rfl⟩

theorem calls_follows (hr : Lockstep ns ledger ru rc) : ∀ (cs : List Call) {u c : Run},
    Run.Alike ns ledger p u c → Follows ns ledger p Eq (ru.calls cs u) (rc.calls cs c)
  | [], _, _, h => .value h rfl
  | call :: rest, u, c, h => by
    refine (hr.call call h).bind ?_
    rintro value _ u₁ c₁ rfl h₁
    exact (calls_follows hr rest h₁).map fun values => value :: values

theorem count_alike (h : Run.Alike ns ledger p u c) :
    Run.Alike ns ledger p (u.on (u.session.count .computation))
      (c.on (c.session.count .computation)) := by
  obtain ⟨hfit, hsame⟩ := (restoring_lawful ns.uncached []).count h.session.fit
  obtain ⟨hfit', hsame'⟩ := (restoring_lawful ns []).count h.session.fit'
  have hsess := h.session.restore h.nonempty hsame hsame' hfit hfit' h.session.store
  exact h.on hsess h.nonempty rfl (Nat.le_refl _)

theorem superValue_follows (hp : ns.Passing) (ho : ns.Orderly) (hr : Lockstep ns ledger ru rc)
    (h : Run.Alike ns ledger p u c) :
    Follows ns ledger p Eq (superValue ru u) (superValue rc c) := by
  refine (topFrame_follows h).bind ?_
  intro fu fc u₁ c₁ hal h₁
  have hsuper : (ns.uncached.get? fc.definition).bind (·.superdefinition) =
      (ns.get? fc.definition).bind (·.superdefinition) := by
    rw [get?_uncached]
    cases ns.get? fc.definition <;> rfl
  rw [session_bind_apply, session_bind_apply]
  simp only [h₁.session.fit.ns_eq, h₁.session.fit'.ns_eq, hal.definition_eq,
    hal.arguments_eq, hsuper]
  cases hnext : (ns.get? fc.definition).bind (·.superdefinition) with
  | none => exact .of_fault
  | some next =>
    obtain ⟨d, hd, hsuperdefinition⟩ := Option.bind_eq_some_iff.mp hnext
    refine pushed_follows hp ho h₁ (.super hd hsuperdefinition) fc.arguments false ?_
    intro s s' fu fc hs hs' hpushed
    exact .onFrame h₁ hs hs' Pairing.grow_tables (hr.spares.frame next hs.inv hs.loops)
      (hr.restores.frame next hs'.inv hs'.loops) (hr.frame next hpushed)

mutual
/-- **A body is followed if the calls and frames inside are.** -/
theorem body_follows (hp : ns.Passing) (ho : ns.Orderly) (hr : Lockstep ns ledger ru rc) :
    ∀ (b : Body) {p : Pairing} {u c : Run}, (∀ item ∈ b.items, item ∈ ns.items) →
      Run.Alike ns ledger p u c → Follows ns ledger p Eq (ru.body b u) (rc.body b c)
  | .empty, _, _, _, _, h => .value h rfl
  | .literal _, _, _, _, _, h => .value h rfl
  | .ref call, _, _, _, _, h => hr.call call h
  | .concat parts, _, _, _, hitems, h => (bodies_follows hp ho hr parts hitems h).map _
  | .list items, _, _, _, hitems, h => (bodies_follows hp ho hr items hitems h).map _
  | .super, _, _, _, _, h => superValue_follows hp ho hr h
  | .redirect _ _ _, _, _, _, _, _ => .of_fault
  | .each item range inner, p, u, c, hitems, h => by
    have hitem : item ∈ ns.items := hitems item mem_cons_self
    have hrange : ∀ item ∈ range.items, item ∈ ns.items := fun name hmem =>
      hitems name (mem_cons_of_mem _ (mem_append_left _ hmem))
    have hinner : ∀ item ∈ inner.items, item ∈ ns.items := fun name hmem =>
      hitems name (mem_cons_of_mem _ (mem_append_right _ hmem))
    refine (body_follows hp ho hr range hrange h).bind ?_
    rintro value _ u₁ c₁ rfl h₁
    refine (elements_follows h₁ item value).bind ?_
    rintro values _ u₂ c₂ rfl h₂
    rw [session_bind_apply, session_bind_apply]
    obtain ⟨fu, fc, hfu, hfc, hal⟩ := h₂.session.top h₂.nonempty
    have haround : u₂.session.iteration? = c₂.session.iteration? := by
      rw [iteration?, iteration?, hfu, hfc]
      exact hal.iteration_eq
    have hloop := (iterateAll_follows ho hitem (body_follows hp ho hr inner hinner) values h₂).map
      Value.list
    -- both go back to the iteration around the loop
    intro result u' hu
    obtain ⟨mid, hmid, rfl⟩ := andThen_eq_ok.mp hu
    obtain ⟨_, mid', hmid', rfl, h₃⟩ := hloop result mid hmid
    refine ⟨result, _, andThen_eq_ok.mpr ⟨mid', hmid', rfl⟩, rfl, ?_⟩
    rw [haround]
    have hkin := (setIteration_effect mid.session c₂.session.iteration?).kin
    have hsame := setIteration_same mid.session c₂.session.iteration?
    have hsame' := setIteration_same mid'.session c₂.session.iteration?
    exact h₃.on (h₃.session.setIteration h₃.nonempty _) (hsame.size_eq ▸ h₃.nonempty) hkin.root_eq
      hsame'.clock_le

theorem bodies_follows (hp : ns.Passing) (ho : ns.Orderly) (hr : Lockstep ns ledger ru rc) :
    ∀ (bs : List Body) {p : Pairing} {u c : Run}, (∀ item ∈ Body.allItems bs, item ∈ ns.items) →
      Run.Alike ns ledger p u c → Follows ns ledger p Eq (ru.bodies bs u) (rc.bodies bs c)
  | [], _, _, _, _, h => .value h rfl
  | b :: rest, p, u, c, hitems, h => by
    have hfst : ∀ item ∈ b.items, item ∈ ns.items := fun name hmem =>
      hitems name (mem_append_left _ hmem)
    have hrest : ∀ item ∈ Body.allItems rest, item ∈ ns.items := fun name hmem =>
      hitems name (mem_append_right _ hmem)
    refine (body_follows hp ho hr b hfst h).bind ?_
    rintro value _ u₁ c₁ rfl h₁
    exact (bodies_follows hp ho hr rest hrest h₁).map fun values => value :: values
end

theorem inFrame_follows (hp : ns.Passing) (ho : ns.Orderly) (hr : Lockstep ns ledger ru rc)
    (h : Run.Alike ns ledger p u c) (id : DefId) :
    Follows ns ledger p Eq (ru.inFrame id u) (rc.inFrame id c) := by
  rw [inFrame, inFrame, session_bind_apply, session_bind_apply, h.session.fit.ns_eq,
    h.session.fit'.ns_eq, get?_uncached]
  cases hd : ns.get? id with
  | none => exact .value h rfl
  | some d =>
    have hbody := body_follows hp ho hr d.body (fun _ hmem =>
      mem_flatMap.mpr ⟨d, Array.mem_toList_iff.mpr (Array.mem_of_getElem? hd), hmem⟩) h
    simp only [Option.map_some, Definition.uncached]
    cases d.kind with
    | collection elements =>
      cases hempty : d.body with
      | empty => exact (calls_follows hr elements h).map Value.list
      | _ => rw [hempty] at hbody; exact hbody
    | _ => exact hbody

/-! ## 5. Calls -/

theorem lookup_leads {D : Discipline} (hD : D.Lawful) (hinv : D.inv run.session)
    (h : (run.session.lookup r).1 = .ok found) :
    D.Leads .call run (run.on (run.session.lookup r).2) := by
  have hfine := hD.lookup r hinv
  rw [h] at hfine
  exact hfine.leads

theorem lookup_keeps_store (hp : ns.Passing) (hs : s.Fit ns []) (r : Request) :
    (s.lookup r).2.store = s.store := by
  refine lookup_store (fun hd => ?_) r
  rw [hs.ns_eq] at hd
  exact hp.isGlobal hd

/-- What becomes of a computed value. -/
def holderFor (id : DefId) (call : Call) (frame : Frame) (value : Value) : Holder :=
  (Holder.of id call.arguments (some value)).withResolution frame.definition frame.arguments

/-- How the value of what a call names comes about where no frame keeps anything: it is found, or
    computed, and then stored or not. -/
inductive Answered (r : Recur) (call : Call) (run : Run) (value : Value) : Run → Prop
  | found {definition : Option DefId} :
      run.session.ns.lookupFrom run.session.topDefinition? call.name = .ok definition →
      (run.session.lookup (request run.session.ns call definition)).1 = .ok (some value) →
      Answered r call run value
        (run.on (run.session.lookup (request run.session.ns call definition)).2)
  | computed {id : DefId} {frame : Frame} {next : Run} :
      run.session.ns.lookupFrom run.session.topDefinition? call.name = .ok (some id) →
      (run.session.lookup (request run.session.ns call (some id))).1 = .ok none →
      entering call.name call.arguments (r.instantiate id call.arguments)
        (run.on (run.session.lookup (request run.session.ns call (some id))).2) =
          some (.ok (frame, value), next) →
      isStored next.session id call.name = false → Answered r call run value next
  | stored {id : DefId} {frame : Frame} {next : Run} {location : Location} {s : Session} :
      run.session.ns.lookupFrom run.session.topDefinition? call.name = .ok (some id) →
      (run.session.lookup (request run.session.ns call (some id))).1 = .ok none →
      entering call.name call.arguments (r.instantiate id call.arguments)
        (run.on (run.session.lookup (request run.session.ns call (some id))).2) =
          some (.ok (frame, value), next) →
      isStored next.session id call.name = true →
      next.session.put call.name (holderFor id call frame value) = (.ok location, s) →
      Answered r call run value (next.on s)

theorem named_eq_ok {r : Recur} {value : Value} (hk : run.session.store.Keepless) :
    r.named call run = some (.ok value, run') ↔ Answered r call run value run' := by
  rw [named, session_bind_apply, keepTarget?,
    findSome?_eq_none_iff.mpr fun entry _ => hk entry.2.keeps call.name]
  simp only [Option.getD_none]
  constructor
  · intro h
    obtain ⟨definition, _, hwalk, h⟩ := Eval.bind_eq_ok.mp h
    obtain ⟨hdef, rfl⟩ := walk_eq_ok.mp hwalk
    obtain ⟨found, _, hlook, h⟩ := Eval.bind_eq_ok.mp h
    obtain ⟨hfd, rfl⟩ := lift_eq_ok.mp hlook
    cases found with
    | some v =>
      obtain ⟨rfl, rfl⟩ := pure_eq_ok.mp h
      exact .found hdef hfd
    | none =>
      cases definition with
      | none => cases h
      | some id =>
        obtain ⟨⟨frame, v⟩, next, hcomp, h⟩ := Eval.bind_eq_ok.mp h
        rw [session_bind_apply] at h
        split at h
        · rename_i hstored
          obtain ⟨location, _, hput, h⟩ := Eval.bind_eq_ok.mp h
          obtain ⟨hok, rfl⟩ := lift_eq_ok.mp hput
          obtain ⟨rfl, rfl⟩ := pure_eq_ok.mp h
          exact .stored hdef hfd hcomp hstored (Prod.ext hok rfl)
        · rename_i hstored
          obtain ⟨rfl, rfl⟩ := pure_eq_ok.mp h
          exact .computed hdef hfd hcomp (Bool.eq_false_iff.mpr hstored)
  · rintro (⟨hdef, hfd⟩ | ⟨hdef, hfd, hcomp, hstored⟩ |
      ⟨hdef, hfd, hcomp, hstored, hput⟩)
    all_goals
      refine Eval.bind_eq_ok.mpr ⟨_, run, walk_eq_ok.mpr ⟨hdef, rfl⟩, ?_⟩
      refine Eval.bind_eq_ok.mpr ⟨_, _, lift_eq_ok.mpr ⟨hfd, rfl⟩, ?_⟩
    · rfl
    all_goals
      refine Eval.bind_eq_ok.mpr ⟨_, _, hcomp, ?_⟩
      rw [session_bind_apply, hstored]
    · rfl
    · refine Eval.bind_eq_ok.mpr ⟨_, _, lift_eq_ok.mpr ⟨congrArg Prod.fst hput, rfl⟩, ?_⟩
      exact pure_eq_ok.mpr ⟨rfl, congrArg _ (congrArg Prod.snd hput)⟩

theorem isStored_eq (hs : s.Fit ns []) (hk : s.store.Keepless) (id : DefId) (target : String) :
    isStored s id target = ns.caches id := by
  rw [isStored, isKept_eq_false hk, Bool.or_false, hs.ns_eq]
  rfl

theorem lookup_alike (hp : ns.Passing) (ho : ns.Orderly) (h : Run.Alike ns ledger p u c)
    {found' : Option Value} (hu : (u.session.lookup r).1 = .ok found)
    (hc : (c.session.lookup r).1 = .ok found') :
    Run.Alike ns ledger p (u.on (u.session.lookup r).2) (c.on (c.session.lookup r).2) := by
  refine h.restore (lookup_leads (sparing_lawful (hp.fleeting ho) []) h.inv hu)
    (lookup_leads (restoring_lawful ns []) h.session.fit' hc) ?_
  show Store.Alike ns ledger p.tables (u.session.lookup r).2.store (c.session.lookup r).2.store
  rw [lookup_keeps_store (hp.uncached ho) h.session.fit, lookup_keeps_store hp h.session.fit']
  exact h.session.store

/-- The second evaluator keeps a value that the first computed anew. -/
theorem put_alike (hp : ns.Passing) (ho : ns.Orderly) (h : Run.Alike ns ledger p u c) {fu : Frame}
    (hfu : u.session.topFrame? = some fu) {inside : Option DefId} {value : Value}
    (hid : ns.lookupFrom inside call.name = .ok (some id)) (hcaches : ns.caches id = true)
    (hledger : ⟨⟨fu.cache, fu.slotKey call.name⟩, id, call.arguments, value⟩ ∈ ledger)
    (frame : Frame) : ∃ location s, c.session.put call.name (holderFor id call frame value) =
      (.ok location, s) ∧ Run.Alike ns ledger p u (c.on s) := by
  have hnom : (holderFor id call frame value).nominal = id := rfl
  obtain ⟨location, s, hput, hsess⟩ := h.session.put hp ho hfu hid hcaches hledger hnom rfl rfl
  obtain ⟨engine, _, hs⟩ := putWithin_effect c.session call.name
    (holderFor id call frame value) c.session.limits.propagationLevels
  obtain rfl : s = c.session.withEngine engine := (congrArg Prod.snd hput).symm.trans hs
  exact ⟨location, _, hput, h.on hsess h.nonempty rfl (Nat.le_refl _)⟩

theorem served_alike (hp : ns.Passing) (h : Run.Alike ns ledger p u c)
    (hu : (sparing ns.uncached []).Leads .call u u') (hc : (c.session.lookup r).1 = .ok found) :
    Run.Alike ns ledger p u' (c.on (c.session.lookup r).2) := by
  have hleads := lookup_leads (restoring_lawful ns []) h.session.fit' hc
  have hsto := lookup_keeps_store hp h.session.fit' r
  have hkeepless := hu.inv.2
  have huntouched := hu.may.2
  refine h.restore hu hleads ?_
  show Store.Alike ns ledger p.tables u'.session.store (c.session.lookup r).2.store
  rw [hsto]
  exact h.session.store.of_table_eq huntouched.size_le (Nat.le_refl _)
    (fun ht => huntouched.table_eq ht nofun) (fun _ => rfl) hkeepless h.session.store.keepless'

theorem top_of_leads (h : (sparing ns.uncached []).Leads .call run run')
    (hfr : run.session.topFrame? = some frame) : ∃ frame',
      run'.session.topFrame? = some frame' ∧ frame'.cache = frame.cache ∧
        ∀ key, frame'.slotKey key = frame.slotKey key := by
  obtain ⟨frame', hfr', hread⟩ := h.may.1.topFrame? hfr
  exact ⟨frame', hfr', (congrArg Frame.cache hread :), fun key =>
    (congrArg (Frame.slotKey · key) hread :)⟩

section

variable (hp : ns.Passing) (ho : ns.Orderly) (hr : Lockstep ns ledger ru rc)
  (h : Run.Alike ns ledger p u c)
include hp ho hr h

theorem argument_follows (name : String) (binding : ArgumentBinding) :
    Follows ns ledger p Eq (ru.argument name binding u) (rc.argument name binding c) := by
  unfold argument
  cases binding.argument with
  | value v => exact .value h rfl
  | missing => exact .value h rfl
  | call callee arguments =>
    refine .entering h name [] (.inCaller (h.noting name []) hp ho binding.depth ?_ ?_ ?_)
    · exact fun hinv => hr.spares.call _ hinv
    · exact fun hinv => hr.restores.call _ hinv
    · exact fun h' => hr.call _ h'

theorem instantiate_follows (hid : ns.Refers id) (arguments : List Argument) :
    Follows ns ledger p (fun a b => a.2 = b.2) (ru.instantiate id arguments u)
      (rc.instantiate id arguments c) := by
  refine pushed_follows hp ho h hid arguments true ?_
  intro s s' fu fc hs hs' hpushed
  have hcounted := count_alike hpushed
  have htables : ∀ {tu tc}, p.tables tu tc → (p.grow fu fc).tables tu tc := Pairing.grow_tables
  refine .onFrame h hs hs' htables ?_ ?_ ?_
  · exact framed_yields (sparing_lawful (hp.fleeting ho) []) hr.spares hs
  · exact framed_yields (restoring_lawful ns []) hr.restores hs'
  · refine (topFrame_follows hcounted).bind ?_
    intro fu fc u₁ c₁ hal h₁
    rw [hal.definition_eq]
    refine (hr.frame fc.definition h₁).bind ?_
    rintro value _ u₂ c₂ rfl h₂
    exact .value h₂ rfl

/-- **The value of what a call names is followed.** What the first evaluator computes agrees with
    the ledger, so it is what the second finds, or what it may keep. -/
theorem answered_follows {value : Value}
    (hasks : ∀ id, ns.lookupFrom c.session.topDefinition? call.name = .ok (some id) →
      u.session.asksFor call = some id) (hagrees : u.session.Agrees ns ledger call value)
    (hleads : (sparing ns.uncached []).Leads .call u u')
    (hu : Answered ru call u value u') :
    ∃ c', Answered rc call c value c' ∧ Run.Alike ns ledger p u' c' := by
  have hns := h.session.fit'.ns_eq
  have hmeans : ∀ {found}, u.session.ns.lookupFrom u.session.topDefinition? call.name = .ok found →
      c.session.ns.lookupFrom c.session.topDefinition? call.name = .ok found := by
    intro found hfd
    rw [h.session.fit.ns_eq, lookupFrom_congr ns.outline_uncached, h.session.topDefinition?_eq] at hfd
    rw [hns]
    exact hfd
  have hrequest : ∀ definition,
      request u.session.ns call definition = request c.session.ns call definition := by
    intro definition
    rw [h.session.fit.ns_eq, hp.request_uncached ho, hns]
  cases hu with
  | @found definition hdefinition hfd =>
    rw [hrequest] at hfd ⊢
    have hfd' : (c.session.lookup (request c.session.ns call definition)).1 = .ok (some value) := by
      rw [lookup_result, hns] at hfd ⊢
      exact h.session.find_some hp ho h.nonempty hfd
    exact ⟨_, .found (hmeans hdefinition) hfd', lookup_alike hp ho h hfd hfd'⟩
  | @computed id frame _ hdefinition hnone hcomp hstored =>
    have hid := hmeans hdefinition
    have hid' : ns.lookupFrom c.session.topDefinition? call.name = .ok (some id) := hns ▸ hid
    obtain ⟨fu, _, hfu, _, _⟩ := h.session.top h.nonempty
    have hagreed := hagrees fu hfu id (hasks id hid')
    rw [hrequest] at hnone hcomp
    rcases h.session.find_none hp ho hfu hid' with
      hnone' | ⟨answer, hmem, hserved, hslot, hdef, hsame, hcaches⟩
    · -- the second computes the value, too
      rw [← hns, ← lookup_result] at hnone'
      have h₁ := lookup_alike hp ho h hnone hnone'
      obtain ⟨⟨frame', _⟩, next, hcomp', rfl, hal⟩ :=
        Follows.entering h₁ call.name call.arguments
          (instantiate_follows hp ho hr (h₁.noting call.name call.arguments) (.named hid')
            call.arguments) _ _ hcomp
      have hstored' : isStored next.session id call.name = ns.caches id :=
        isStored_eq hal.session.fit' hal.session.store.keepless' id call.name
      cases hcaches : ns.caches id with
      | false => exact ⟨next, .computed hid hnone' hcomp' (hstored'.trans hcaches), hal⟩
      | true =>
        obtain ⟨fu', hfu', hca, hkey⟩ := top_of_leads hleads hfu
        have hledger := (hagreed hcaches).1
        rw [← hca, ← hkey] at hledger
        obtain ⟨location, s, hput, hal'⟩ := put_alike hp ho hal hfu' hid' hcaches hledger frame'
        exact ⟨_, .stored hid hnone' hcomp' (hstored'.trans hcaches) hput, hal'⟩
    · -- the second finds what the ledger lists, and the first came to the same
      rw [← hns, ← lookup_result, (hagreed hcaches).2 answer hmem hslot hdef hsame] at hserved
      exact ⟨_, .found hid hserved, served_alike hp h hleads hserved⟩
  | @stored id frame next _ _ hdefinition hnone hcomp hstored _ =>
    -- without caching nothing is stored
    have hsparing := sparing_lawful (hp.fleeting ho) []
    have hlooked := lookup_leads hsparing h.inv hnone
    generalize u.on (u.session.lookup (request u.session.ns call (some id))).2 = looked
      at hlooked hcomp
    have hid : ns.uncached.Refers id := .named (h.session.fit.ns_eq ▸ hdefinition)
    have hentered : (sparing ns.uncached []).Yields .call u
        (entering call.name call.arguments (ru.instantiate id call.arguments) looked) := by
      refine Discipline.Yields.entering hlooked (fun active => ?_) hsparing
      refine instantiate_yields hsparing hr.spares ?_ hid call.arguments
      exact hlooked.inv
    have hnext := (hentered _ _ hcomp).leads
    rw [isStored_eq hnext.inv.1 hnext.inv.2, caches_uncached] at hstored
    cases hstored

/-- **A call is followed if the calls and frames inside are**, and if its value agrees with the
    ledger. -/
theorem value_follows {value : Value}
    (hagrees : u.session.Agrees ns ledger call value) (hu : ru.value call u = some (.ok value, u')) :
    ∃ c', rc.value call c = some (.ok value, c') ∧ Run.Alike ns ledger p u' c' := by
  have hnamed : ((DottedName.isDotted call.name || !call.arguments.isEmpty) ||
      (u.session.argumentFor call.name).isNone) = true → ru.named call u = some (.ok value, u') →
      ∃ c', rc.named call c = some (.ok value, c') ∧ Run.Alike ns ledger p u' c' := by
    intro hplain hu
    have hleads := (named_yields (sparing_lawful (hp.fleeting ho) []) hr.spares h.inv
      call _ _ hu).leads
    have hasks : ∀ id, ns.lookupFrom c.session.topDefinition? call.name = .ok (some id) →
        u.session.asksFor call = some id := by
      intro id hid
      rw [asksFor, if_pos hplain, h.session.fit.ns_eq, lookupFrom_congr ns.outline_uncached,
        h.session.topDefinition?_eq, hid]
    obtain ⟨c', hc, hal⟩ := answered_follows hp ho hr h hasks hagrees hleads
      ((named_eq_ok h.session.store.keepless).mp hu)
    exact ⟨c', (named_eq_ok h.session.store.keepless').mpr hc, hal⟩
  unfold Recur.value at hu ⊢
  by_cases hplain : (DottedName.isDotted call.name || !call.arguments.isEmpty) = true
  · rw [if_pos hplain] at hu ⊢
    exact hnamed (by rw [hplain, Bool.true_or]) hu
  · rw [if_neg hplain, session_bind_apply] at hu ⊢
    rw [← h.session.argumentFor_eq]
    cases harg : u.session.argumentFor call.name with
    | none =>
      rw [harg] at hu
      exact hnamed (by rw [harg, Option.isNone_none, Bool.or_true]) hu
    | some binding =>
      rw [harg] at hu
      obtain ⟨_, c', hc, rfl, hal⟩ := argument_follows hp ho hr h call.name binding value u' hu
      exact ⟨c', hc, hal⟩

end

end Recur

/-- **An evaluation with caching follows a watched one without**, whatever the fuel. -/
theorem lockstep_within (hp : ns.Passing) (ho : ns.Orderly) (ledger : List Answer) (fuel : Nat) :
    Recur.Lockstep ns ledger ⟨watchedWithin ns ledger fuel, watchedFrame ns ledger fuel⟩
      ⟨evaluateWithin fuel, frameWithin fuel⟩ := by
  have hspares := abides_watched (sparing_lawful (hp.fleeting ho) []) ns ledger
  have hrestores := abides_within (restoring_lawful ns [])
  induction fuel with
  | zero => exact ⟨hspares 0, hrestores 0, fun _ _ => nofun, fun _ _ => nofun⟩
  | succ fuel ih =>
    refine ⟨hspares (fuel + 1), hrestores (fuel + 1), fun call h => ?_, fun id h => ?_⟩
    · intro value u' hu
      obtain ⟨hval, hagrees⟩ := watch_ok hu
      obtain ⟨c', hc, hal⟩ := Recur.value_follows hp ho ih h hagrees hval
      exact ⟨value, c', hc, rfl, hal⟩
    · exact Recur.inFrame_follows hp ho ih h id

end KeepTree
