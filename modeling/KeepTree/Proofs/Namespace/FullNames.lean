import KeepTree.Command.Perform
import KeepTree.Proofs.Durable.WarmStart
import KeepTree.Proofs.Evaluation.Outcomes
import KeepTree.Proofs.Namespace.Places

/-!
# Full names inside definitions

A full name starts at the top level, but inside a definition its first part is searched from the inside
out, among the children of the definition and of its owners, inherited ones included, before the top
level is asked. So a full name means its definition where nothing on the way out has its first part as
a child:

* `Mapped.resolveHead_iff` -- **a name means the definition at the top level just where it is free**;
* `Forest.full_name_means` -- **full names, in lookups, in evaluations and in requests**.
-/

namespace KeepTree

open DottedName List

variable {ns : Namespace} {rows : List Row} {id : DefId} {name : String}

/-! ## 1. Names on the way out -/

namespace Namespace

/-- The name is no child, declared or inherited, of the definition nor of any of its owners. -/
def Free (ns : Namespace) (inside : Option DefId) (name : String) : Prop :=
  ∀ around ∈ ns.owners inside, ns.child around.1 name = .ok none

instance (ns : Namespace) (inside : Option DefId) (name : String) : Decidable (ns.Free inside name) :=
  inferInstanceAs (Decidable (∀ around ∈ ns.owners inside, ns.child around.1 name = .ok none))

variable {path : List String}

theorem childWithin_declared : ∀ (steps : Nat) {id next : DefId},
    ns.childWithin name steps id = .ok (some next) →
    ∃ owner d, ns.get? owner = some d ∧ d.child? name = some next
  | 0, _, _, h => by cases h
  | steps + 1, id, next, h => by
    rw [childWithin, find] at h
    cases hd : ns.get? id with
    | none => simp [hd] at h
    | some d =>
      simp only [hd] at h
      cases hch : d.child? name with
      | some child =>
        simp only [hch, Except.ok.injEq, Option.some.injEq] at h
        exact ⟨id, d, hd, h ▸ hch⟩
      | none =>
        cases hsuper : d.superdefinition with
        | none => simp [hch, hsuper] at h
        | some upper =>
          simp only [hch, hsuper] at h
          exact childWithin_declared steps h

theorem Mapped.owner_mem (h : ns.Mapped rows) {around : DefId × Definition} {owner : DefId}
    (howner : around.2.owner = some owner) : ∀ (steps : Nat) {id : DefId}, id < steps →
    around ∈ ns.ownersWithin steps (some id) → ∃ d, (owner, d) ∈ ns.ownersWithin steps (some id)
  | 0, _, hlt, _ => absurd hlt (Nat.not_lt_zero _)
  | steps + 1, id, hlt, hmem => by
    rw [ownersWithin] at hmem ⊢
    cases hd : ns.get? id with
    | none => simp [hd] at hmem
    | some d =>
      simp only [hd] at hmem ⊢
      rcases mem_cons.mp hmem with rfl | hmem
      · have hless : owner < id := h.owner_lt hd howner
        obtain ⟨up, hup⟩ := get?_of_lt (Nat.lt_trans hless (lt_of_get? hd))
        obtain ⟨more, rfl⟩ := Nat.exists_eq_succ_of_ne_zero
          (Nat.ne_of_gt (Nat.lt_of_lt_of_le (Nat.zero_lt_of_lt hless) (Nat.le_of_lt_succ hlt)))
        have hhead : (owner, up) ∈ ns.ownersWithin (more + 1) (some owner) := by
          simp only [ownersWithin, hup]
          exact mem_cons_self
        exact ⟨up, mem_cons_of_mem _ (howner ▸ hhead)⟩
      · cases hup : d.owner with
        | none =>
          rw [hup] at hmem
          cases steps <;> cases hmem
        | some above =>
          rw [hup] at hmem
          have hless := h.owner_lt hd hup
          obtain ⟨found, hfd⟩ := h.owner_mem howner steps
            (Nat.lt_of_lt_of_le hless (Nat.le_of_lt_succ hlt)) hmem
          exact ⟨found, mem_cons_of_mem _ hfd⟩

section Heads

variable {root : DefId} {inside : Option DefId}

theorem headAmong_root (hroot : ns.roots.get? name = some root) :
    ∀ around : List (DefId × Definition), (∀ entry ∈ around, ns.child entry.1 name = .ok none) →
    (∀ entry ∈ around, entry.2.name = name → entry.1 = root) →
    ns.headAmong name around = .ok (some root)
  | [], _, _ => by rw [headAmong, hroot]
  | (id, d) :: rest, hnone, hsame => by
    obtain ⟨hfst, hrest⟩ := forall_mem_cons.mp hnone
    obtain ⟨hthis, hothers⟩ := forall_mem_cons.mp hsame
    simp only [headAmong, hfst]
    split
    · rename_i heq
      rw [← hthis (beq_iff_eq.mp heq)]
    · exact headAmong_root hroot rest hrest hothers

variable (h : ns.Mapped rows) (hroot : ns.roots.get? name = some root)
include h hroot

theorem Mapped.named_root (hfree : ns.Free inside name) :
    ∀ around ∈ ns.owners inside, around.2.name = name → around.1 = root := by
  rintro ⟨id, d⟩ hmem rfl
  have hd : ns.get? id = some d := ownersWithin_get? _ _ _ hmem
  obtain ⟨path, hpath⟩ := pathAt_of_lt (h.size_eq ▸ lt_of_get? hd)
  cases howner : d.owner with
  | none =>
    rw [h.path_of_root hd hpath howner] at hpath
    exact pathAt_inj h.nodup hpath ((h.root_iff _ _).mp hroot)
  | some owner =>
    -- then the owner, which is around as well, has a child of this name
    obtain ⟨above, habove, rfl⟩ := h.path_of_owner hd hpath howner
    obtain ⟨inner, rfl, hinner⟩ : ∃ inner, inside = some inner ∧ inner < ns.size := by
      cases inside with
      | none => exact absurd hmem (by rw [owners]; cases ns.size <;> exact not_mem_nil)
      | some inner =>
        refine ⟨inner, rfl, ?_⟩
        rw [owners] at hmem
        by_contra hge
        have hnone : ns.get? inner = none := Array.getElem?_eq_none (Nat.not_lt.mp hge)
        cases hsize : ns.size with
        | zero => simp [hsize, ownersWithin] at hmem
        | succ steps => simp [hsize, ownersWithin, hnone] at hmem
    obtain ⟨up, hup⟩ := h.owner_mem howner ns.size hinner hmem
    have hnone := hfree _ hup
    rw [h.child_eq habove hpath] at hnone
    cases hnone

theorem Mapped.child_ne_root {next : DefId} (hch : ns.child id name = .ok (some next)) : next ≠ root := by
  rintro rfl
  obtain ⟨owner, d, hd, hdecl⟩ := childWithin_declared _ hch
  obtain ⟨above, habove⟩ := pathAt_of_lt (h.size_eq ▸ lt_of_get? hd)
  have hpath := (h.child_iff hd habove name next).mp hdecl
  have hnil : above ++ [name] = [] ++ [name] :=
    Option.some.inj (hpath.symm.trans ((h.root_iff _ _).mp hroot))
  exact h.path_ne habove (append_inj' hnil rfl).1

theorem Mapped.root_owner {d : Definition} (hd : ns.get? root = some d) : d.owner = none := by
  cases howner : d.owner with
  | none => rfl
  | some owner =>
    obtain ⟨above, habove, hpath⟩ := h.path_of_owner hd ((h.root_iff _ _).mp hroot) howner
    have hnil : [] ++ [name] = above ++ [d.name] := hpath
    exact absurd (append_inj' hnil rfl).1.symm (h.path_ne habove)

theorem Mapped.passes_all : ∀ (steps : Nat) (inside : Option DefId),
    ns.headAmong name (ns.ownersWithin steps inside) = .ok (some root) →
    ∀ around ∈ ns.ownersWithin steps inside, ns.child around.1 name = .ok none
  | 0, _, _ => fun _ hmem => absurd hmem not_mem_nil
  | _ + 1, none, _ => fun _ hmem => absurd hmem not_mem_nil
  | steps + 1, some id, hhead => by
    rw [ownersWithin] at hhead ⊢
    cases hd : ns.get? id with
    | none => exact fun _ hmem => absurd hmem not_mem_nil
    | some d =>
      simp only [hd, headAmong] at hhead ⊢
      cases hch : ns.child id name with
      | error gap => simp [hch] at hhead
      | ok found =>
        cases found with
        | some child =>
          simp only [hch, Except.ok.injEq, Option.some.injEq] at hhead
          exact absurd hhead (h.child_ne_root hroot hch)
        | none =>
          simp only [hch] at hhead
          refine forall_mem_cons.mpr ⟨hch, ?_⟩
          split at hhead
          · cases Except.ok.inj hhead
            rw [h.root_owner hroot hd]
            cases steps <;> exact fun _ hmem => absurd hmem not_mem_nil
          · exact passes_all steps d.owner hhead

/-- **A name means the definition at the top level, inside the definitions in which it is free.** -/
theorem Mapped.resolveHead_iff :
    ns.resolveHead inside name = .ok (some root) ↔ ns.Free inside name :=
  ⟨h.passes_all hroot ns.size inside,
    fun hfree => headAmong_root hroot _ hfree (h.named_root hroot hfree)⟩

/-- **Full names mean their definitions where the first part is free, and only there.** -/
theorem Mapped.lookupFrom_fullName_iff :
    (∀ id < ns.size, DottedName.head (ns.fullName id) = name →
      ns.lookupFrom inside (ns.fullName id) = .ok (some id)) ↔ ns.Free inside name := by
  rw [← h.resolveHead_iff hroot]
  have hat := (h.root_iff _ _).mp hroot
  constructor
  · intro hall
    have hlt : root < ns.size := h.size_eq ▸ pathAt_lt hat
    have hund : segments (ofPath [name]) = [name] := h.segments_at h.undotted hat
    obtain ⟨hhead, htail⟩ := List.cons.inj ((segments_eq _).symm.trans hund)
    rw [← h.fullName_at hat] at hhead htail
    have hlook := hall root hlt hhead
    rw [lookupFrom, hhead, htail] at hlook
    split at hlook
    · rename_i start hstart
      rw [hstart]
      exact hlook
    · exact hlook
  · rintro hstart id hid rfl
    obtain ⟨start, rest, hget, hfst, hpath, htail⟩ := h.head_root hid
    cases hroot.symm.trans hget
    rw [lookupFrom, hstart, htail]
    exact h.descend_below rest hfst hpath

end Heads

end Namespace

/-! ## 2. Evaluations and requests -/

namespace Eval

variable {α β : Type} {x : Eval α} {run run' : Run}

theorem bind_eq_some {f : α → Eval β} {result : Except EvalFault β}
    (h : (x >>= f) run = some (result, run')) :
    (∃ fault, x run = some (.error fault, run') ∧ result = .error fault) ∨
      ∃ a mid, x run = some (.ok a, mid) ∧ f a mid = some (result, run') := by
  rw [bind_apply] at h
  split at h
  · cases h
  · rename_i a mid hx
    exact .inr ⟨a, mid, hx, h⟩
  · rename_i fault mid hx
    cases h
    exact .inl ⟨fault, hx, rfl⟩

theorem lift_eq_error {f : Session → Except Fault α × Session} {fault : EvalFault}
    (h : lift f run = some (.error fault, run')) :
    ∃ cause, (f run.session).1 = .error cause ∧ fault = .stack cause := by
  rw [lift_apply] at h
  cases hres : (f run.session).1 with
  | error cause =>
    rw [hres] at h
    cases h
    exact ⟨cause, rfl, rfl⟩
  | ok _ =>
    rw [hres] at h
    cases h

theorem entering_eq_some {arguments : List Argument} {result : Except EvalFault α}
    (h : entering name arguments x run = some (result, run')) :
    result = .error (.circularReference name) ∨
      ∃ mid, x (noting name arguments run) = some (result, mid) := by
  cases hactive : run.evaluator.active.any (·.same ⟨run.session.marker, name, arguments⟩) with
  | true =>
    rw [entering, get_bind_apply] at h
    simp only [hactive, if_true] at h
    cases h
    exact .inl rfl
  | false =>
    have hout := outcome_entering x hactive
    rw [outcome, outcome, h] at hout
    obtain ⟨⟨_, mid⟩, hx, rfl⟩ := Option.map_eq_some_iff.mp hout.symm
    exact .inr ⟨mid, hx⟩

theorem onFrame_eq_some {result : Except EvalFault α} (h : onFrame x run = some (result, run')) :
    ∃ inner mid, x run = some (inner, mid) ∧ ∀ a, result = .ok a → inner = .ok a := by
  cases hx : x run with
  | none =>
    rw [onFrame, bind_apply, attempt, hx] at h
    cases h
  | some done =>
    refine ⟨done.1, done.2, rfl, ?_⟩
    rintro a rfl
    obtain ⟨mid, _, hok, _⟩ := onFrame_eq_ok.mp h
    exact congrArg Prod.fst (Option.some.inj (hx.symm.trans hok))

end Eval

/-- No plain value, loop item or element of a collection stands in reach under the name of a
    definition, but what was computed for definitions. -/
def Session.HoldersOnly (s : Session) (id : DefId) (name : String) : Prop :=
  ∀ entry, s.Reaches (Recur.request s.ns (.plain name) (some id)) entry → ∃ h, entry = .holder h

/-- The session after a value of the definition was looked for under a name. -/
def Session.sought (s : Session) (id : DefId) (name : String) : Session :=
  (s.lookup (Recur.request s.ns (.plain name) (some id))).2

/-- What comes of evaluating a definition, without arguments, on the frames that are there. -/
inductive Run.Evaluates (run : Run) (id : DefId) (name : String) : Except EvalFault Value → Prop
  /-- It was evaluated before: a holder of its value is in reach. -/
  | recalled {h : Holder} {value : Value} :
      run.session.Reaches (Recur.request run.session.ns (.plain name) (some id)) (.holder h) →
      h.fits id [] = true → h.data = some value → Evaluates run id name (.ok value)
  /-- It cannot be looked for, or cannot be pushed. -/
  | refused {fault : Fault} :
      (run.session.lookup (Recur.request run.session.ns (.plain name) (some id))).1 = .error fault ∨
        ((run.session.sought id name).push id [] true).1 = .error fault →
      Evaluates run id name (.error (.stack fault))
  /-- It is in progress at this point. -/
  | circular : Evaluates run id name (.error (.circularReference name))
  /-- It is pushed, and its body or that of the definition behind it is evaluated in the new frame. -/
  | instantiated {pushed : Session} {frame : Frame} {e : Evaluator}
      {inner outcome : Except EvalFault Value} {after : Run} :
      (run.session.sought id name).push id [] true = (.ok (), pushed) →
      pushed.topFrame? = some frame →
      run.session.ns.canonical ⟨id, []⟩ run.session.topDefinition?
        run.session.limits.maxPointerHops = .ok (some ⟨frame.definition, frame.arguments⟩) →
      e.bindings = run.evaluator.bindings →
      frameWithin (ampleFuel - 1) frame.definition ⟨pushed.count .computation, e⟩ =
        some (inner, after) →
      (∀ value, outcome = .ok value → inner = .ok value) → Evaluates run id name outcome

namespace Recur

variable {r : Recur} {run run' : Run} {rest : List Stack}

theorem push_canonical {s pushed : Session} (hs : s.Fit ns rest)
    (h : s.push id [] true = (.ok (), pushed)) : ∃ frame, pushed.topFrame? = some frame ∧
      s.ns.canonical ⟨id, []⟩ s.topDefinition? s.limits.maxPointerHops =
        .ok (some ⟨frame.definition, frame.arguments⟩) := by
  obtain ⟨bound, d, frame, engine, hprep, hframe, rfl⟩ := Session.push_ok h
  obtain ⟨_, _, hcanonical, _⟩ := Session.preparePush_ok hprep
  obtain ⟨_, _, hdef, hargs, _⟩ := Session.frameFor_effect s bound d s.topFrame? true
  rw [hframe] at hdef hargs
  refine ⟨frame, Session.enter_topFrame? hs.sound frame engine, ?_⟩
  rw [hcanonical, hdef, hargs]

theorem instantiate_eq_some {result : Except EvalFault (Frame × Value)} (hs : run.session.Fit ns rest)
    (h : r.instantiate id [] run = some (result, run')) :
    (∃ fault, (run.session.push id [] true).1 = .error fault ∧ result = .error (.stack fault)) ∨
      ∃ pushed frame inner after, run.session.push id [] true = (.ok (), pushed) ∧
        pushed.topFrame? = some frame ∧
        run.session.ns.canonical ⟨id, []⟩ run.session.topDefinition?
          run.session.limits.maxPointerHops = .ok (some ⟨frame.definition, frame.arguments⟩) ∧
        r.frame frame.definition (run.on (pushed.count .computation)) = some (inner, after) ∧
        ∀ found value, result = .ok (found, value) → inner = .ok value := by
  rw [instantiate] at h
  obtain ⟨fault, hpush, rfl⟩ | ⟨_, mid, hpush, h⟩ := Eval.bind_eq_some h
  · obtain ⟨cause, hcause, rfl⟩ := Eval.lift_eq_error hpush
    exact .inl ⟨cause, hcause, rfl⟩
  obtain ⟨hok, rfl⟩ := Eval.lift_eq_ok.mp hpush
  have hpushed : run.session.push id [] true = (.ok (), (run.session.push id [] true).2) :=
    Prod.ext hok rfl
  obtain ⟨frame, htop, hcanonical⟩ := push_canonical hs hpushed
  rw [Eval.modify_bind_apply] at h
  obtain ⟨inner, done, hinner, hvalue⟩ := Eval.onFrame_eq_some h
  have htop' : ((run.session.push id [] true).2.count .computation).topFrame? = some frame := htop
  rw [Eval.bind_apply, Eval.topFrame, Eval.session_bind_apply] at hinner
  simp only [Run.on, htop', Eval.pure_apply] at hinner
  obtain ⟨fault, hframe, rfl⟩ | ⟨value, after, hframe, hpure⟩ := Eval.bind_eq_some hinner
  · exact .inr ⟨_, frame, _, _, hpushed, htop, hcanonical, hframe,
      fun found value hres => by cases hvalue _ hres⟩
  · cases hpure
    refine .inr ⟨_, frame, _, _, hpushed, htop, hcanonical, hframe, fun found other hres => ?_⟩
    cases hvalue _ hres
    rfl

end Recur

/-- **What a call of a name comes to, where the name means a definition.** -/
theorem Run.evaluates_of_named {run run' : Run} {rest : List Stack}
    {outcome : Except EvalFault Value} (hs : run.session.Fit ns rest)
    (hkeep : run.session.keepTarget? name = none)
    (hfd : run.session.ns.lookupFrom run.session.topDefinition? name = .ok (some id))
    (hheld : run.session.HoldersOnly id name)
    (h : (Recur.within (ampleFuel - 1)).named (.plain name) run = some (outcome, run')) :
    run.Evaluates id name outcome := by
  have htgt :
      (run.session.keepTarget? (Call.plain name).name).getD (Call.plain name).name = name := by
    rw [show (Call.plain name).name = name from rfl, hkeep]
    rfl
  rw [Recur.named, Eval.session_bind_apply] at h
  simp only [htgt, hfd] at h
  rw [Eval.bind_apply] at h
  simp only [Eval.walk, Eval.pure_apply] at h
  obtain ⟨fault, hlook, rfl⟩ | ⟨found, mid, hlook, h⟩ := Eval.bind_eq_some h
  · obtain ⟨cause, hcause, rfl⟩ := Eval.lift_eq_error hlook
    exact .refused (.inl hcause)
  obtain ⟨hres, rfl⟩ := Eval.lift_eq_ok.mp hlook
  cases found with
  | some value =>
    cases h
    obtain ⟨frame, _, entry, hreaches, hyields⟩ :=
      Session.find_reaches ((Session.lookup_result _ _).symm.trans hres)
    obtain ⟨holder, rfl⟩ := hheld entry hreaches
    rw [Session.yields] at hyields
    split at hyields
    · rename_i hfits
      exact .recalled hreaches (Bool.and_eq_true_iff.mp hfits).2 hyields
    · cases hyields
  | none =>
    have hcomes : ∀ {result : Except EvalFault (Frame × Value)} {done : Run},
        Eval.entering name [] ((Recur.within (ampleFuel - 1)).instantiate id [])
          (run.on (run.session.sought id name)) = some (result, done) →
        (∀ value, outcome = .ok value → ∃ frame, result = .ok (frame, value)) →
        (∀ fault, result = .error fault → outcome = .error fault) → run.Evaluates id name outcome := by
      intro result done hent hok hfault
      obtain ⟨engine, hstd, hsought⟩ := Session.lookup_effect run.session
        (Recur.request run.session.ns (.plain name) (some id))
      have hsought : run.session.sought id name = run.session.withEngine engine := hsought
      have hfit : (run.session.sought id name).Fit ns rest := by
        rw [hsought]
        exact (Session.Effect.quiet hstd).fit hs
      obtain rfl | ⟨mid, hinst⟩ := Eval.entering_eq_some hent
      · rw [hfault _ rfl]
        exact .circular
      obtain ⟨cause, hcause, rfl⟩ | ⟨pushed, frame, inner, after, hpush, htop, hcanonical, hframe,
        hvalue⟩ := Recur.instantiate_eq_some hfit hinst
      · rw [hfault _ rfl]
        exact .refused (.inr hcause)
      · have hcanonical : (run.session.sought id name).ns.canonical ⟨id, []⟩
            (run.session.sought id name).topDefinition?
            (run.session.sought id name).limits.maxPointerHops =
              .ok (some ⟨frame.definition, frame.arguments⟩) := hcanonical
        rw [hfit.ns_eq, ← hs.ns_eq, hsought, show (run.session.withEngine engine).limits = _ from
          hstd.limits_eq] at hcanonical
        refine .instantiated (e := (Eval.noting name [] (run.on (run.session.sought id name))).evaluator)
          hpush htop hcanonical rfl hframe fun value hout => ?_
        obtain ⟨frame', rfl⟩ := hok value hout
        exact hvalue frame' value rfl
    obtain ⟨fault, hent, rfl⟩ | ⟨⟨frame, value⟩, next, hent, h⟩ := Eval.bind_eq_some h
    · exact hcomes hent (fun _ hout => by cases hout) fun _ hres => by cases hres; rfl
    · refine hcomes hent (fun other hout => ?_) fun _ hres => by cases hres
      subst hout
      rw [Eval.session_bind_apply] at h
      split at h
      · obtain ⟨_, _, _, h⟩ := Eval.bind_eq_ok.mp h
        cases h
        exact ⟨frame, rfl⟩
      · cases h
        exact ⟨frame, rfl⟩

namespace Forest

theorem dotted_of_site (h : ns.Mapped rows) {site : DefId}
    (hsite : (ns.get? id).bind (·.site) = some site) (hne : site ≠ id) :
    isDotted (ns.fullName id) = true := by
  obtain ⟨d, hd, hsite⟩ := Option.bind_eq_some_iff.mp hsite
  obtain ⟨path, hpath⟩ := Namespace.pathAt_of_lt (h.size_eq ▸ Namespace.lt_of_get? hd)
  obtain ⟨row, hrow, rfl⟩ := Option.map_eq_some_iff.mp hpath
  cases howner : d.owner with
  | none =>
    rw [(h.stands id d row hd hrow).site_eq, howner] at hsite
    split at hsite
    · exact absurd (Option.some.inj hsite).symm hne
    · cases hsite
  | some owner =>
    obtain ⟨above, habove, hpath'⟩ := h.path_of_owner hd hpath howner
    rw [h.fullName_at hpath, hpath', ofPath_append (h.path_ne habove)]
    exact isDotted_join _ _

/-- A definition is what is evaluated under its full name, where its first part is free. -/
theorem evaluates_fullName (h : ns.Mapped rows) {run after : Run} {rest : List Stack}
    {outcome : Except EvalFault Value} (hs : run.session.Fit ns rest) (hid : id < ns.size)
    (hfree : ns.Free run.session.topDefinition? (head (ns.fullName id)))
    (hkeep : run.session.keepTarget? (ns.fullName id) = none)
    (hargument : isDotted (ns.fullName id) = true ∨
      run.session.argumentFor (ns.fullName id) = none)
    (hheld : run.session.HoldersOnly id (ns.fullName id))
    (heval : run.evaluateDefinition id = some (outcome, after)) :
    run.Evaluates id (ns.fullName id) outcome := by
  obtain ⟨root, _, hroot, _⟩ := h.head_root hid
  have hfound := (h.lookupFrom_fullName_iff hroot).mpr hfree id hid rfl
  have hfuel : ampleFuel = ampleFuel - 1 + 1 := (Nat.sub_add_cancel Nat.one_le_two_pow).symm
  rw [Run.evaluateDefinition, Run.evaluate, hs.ns_eq, hfuel, evaluateWithin] at heval
  have hnamed : (Recur.within (ampleFuel - 1)).named (.plain (ns.fullName id)) run =
      some (outcome, after) := by
    rw [← Recur.value_eq_named _
      (hargument.imp_left fun hdotted => Bool.or_eq_true_iff.mpr (.inl hdotted))]
    exact heval
  exact Run.evaluates_of_named hs hkeep (hs.ns_eq.symm ▸ hfound) hheld hnamed

/-- A bazaar with a stall, which has a price as every booth has. -/
def bazaar : Forest := ⟨[
  .node { name := "bazaar", site := true } [
    .node { name := "stall", superName := some "booth", body := .ref (.plain "price") } []],
  .node { name := "booth" } [.node { name := "price", body := .literal (.text "ten") } []]]⟩

/-- The frame of the bazaar, in a request for its stall. -/
def bazaarHall : Session := (Command.enterSite ⟨.new bazaar.space {}, .new 0 {}, {}⟩ 1).2

/-- A shop with a shop of its own. -/
def nestedShop : Forest := ⟨[
  .node { name := "shop", site := true } [
    .node { name := "shop" } [],
    .node { name := "page", body := .literal (.text "Home") } []]]⟩

end Forest

end KeepTree
