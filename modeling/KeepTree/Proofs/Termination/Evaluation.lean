import KeepTree.Proofs.Termination.Ending
import KeepTree.Proofs.Termination.Loading

/-!
# Evaluation terminates

A namespace that was read, the frames of a stack and a call have finitely many names and argument
lists in them, and an evaluation makes up no others. With the depth of the stack bounded, the
record of the calls in progress cuts every cycle:

* `Session.vocabulary`, `speaks_vocabulary` -- **what an evaluation can speak of**;
* `Workspace.evaluation_terminates` -- **every evaluation comes to an end, in a value or a fault**.
-/

namespace KeepTree

open Argument List

variable {call : Call}

/-! ## 1. The calls in a call -/

mutual
/-- The calls in an argument, at any depth. -/
def Argument.calls : Argument → List Call
  | .call name arguments => ⟨name, arguments⟩ :: allCalls arguments
  | _ => []

/-- The calls in several arguments. -/
def Argument.allCalls : List Argument → List Call
  | [] => []
  | a :: rest => a.calls ++ allCalls rest
end

/-- A call and the calls among its arguments, at any depth. -/
def Call.within (call : Call) : List Call := call :: allCalls call.arguments

namespace Argument

theorem mem_allCalls {as : List Argument} : call ∈ allCalls as ↔ ∃ a ∈ as, call ∈ a.calls := by
  induction as with
  | nil => simp [allCalls]
  | cons a rest ih => simp [allCalls, ih]

mutual
theorem calls_within : ∀ (a : Argument) {found : Call}, found ∈ a.calls →
    (∀ inner ∈ allCalls found.arguments, inner ∈ a.calls) ∧
      (a.hasNaN = false → found.hasNaN = false)
  | .value _, _, h => absurd h not_mem_nil
  | .missing, _, h => absurd h not_mem_nil
  | .call name args, found, h => by
    rcases mem_cons.mp h with rfl | h
    · exact ⟨fun _ hinner => mem_cons_of_mem _ hinner, id⟩
    · obtain ⟨hinner, hnan⟩ := allCalls_within args h
      exact ⟨fun inner hmem => mem_cons_of_mem _ (hinner inner hmem), hnan⟩

theorem allCalls_within : ∀ (as : List Argument) {found : Call}, found ∈ allCalls as →
    (∀ inner ∈ allCalls found.arguments, inner ∈ allCalls as) ∧
      (anyNaN as = false → found.hasNaN = false)
  | a :: rest, found, h => by
    rw [anyNaN, Bool.or_eq_false_iff]
    rcases mem_append.mp h with h | h
    · obtain ⟨hinner, hnan⟩ := calls_within a h
      exact ⟨fun inner hmem => mem_append_left _ (hinner inner hmem), fun hor => hnan hor.1⟩
    · obtain ⟨hinner, hnan⟩ := allCalls_within rest h
      exact ⟨fun inner hmem => mem_append_right _ (hinner inner hmem), fun hor => hnan hor.2⟩
end

end Argument

theorem Call.within_within {other : Call} (h : other ∈ call.within) :
    (∀ inner ∈ other.within, inner ∈ call.within) ∧
      (call.hasNaN = false → other.hasNaN = false) := by
  rcases mem_cons.mp h with rfl | hoth
  · exact ⟨fun _ hinner => hinner, id⟩
  · obtain ⟨hinner, hnan⟩ := allCalls_within _ hoth
    exact ⟨forall_mem_cons.mpr ⟨h, fun inner hmem =>
      mem_cons_of_mem _ (hinner inner hmem)⟩, hnan⟩

/-! ## 2. The vocabulary of calls -/

namespace Vocabulary

variable {names : List String} {calls : List Call}

/-- The vocabulary of these names, and of these calls and the calls in them. -/
def of (names : List String) (calls : List Call) : Vocabulary where
  names := names ++ (calls.flatMap Call.within).map (·.name)
  lists := [] :: (calls.flatMap Call.within).map (·.arguments)

theorem of_has (h : call ∈ calls.flatMap Call.within) : (of names calls).Has call :=
  ⟨mem_append_right _ (mem_map_of_mem h), mem_cons_of_mem _ (mem_map_of_mem h)⟩

theorem of_has_self (h : call ∈ calls) : (of names calls).Has call :=
  of_has (mem_flatMap.mpr ⟨call, h, mem_cons_self⟩)

theorem of_allows (h : call ∈ calls.flatMap Call.within) {a : Argument} (ha : a ∈ call.arguments) :
    (of names calls).Allows a := by
  rintro name args rfl
  obtain ⟨outer, houter, hcall⟩ := mem_flatMap.mp h
  have hinner : ⟨name, args⟩ ∈ call.within :=
    mem_cons_of_mem _ (mem_allCalls.mpr ⟨_, ha, mem_cons_self⟩)
  exact of_has (mem_flatMap.mpr ⟨outer, houter, (Call.within_within hcall).1 _ hinner⟩)

/-- **The vocabulary of calls is closed.** -/
theorem of_closed (names : List String) (calls : List Call) : (of names calls).Closed where
  nil_mem := mem_cons_self
  allows := fun {args a} hargs ha => by
    rcases mem_cons.mp hargs with rfl | hargs
    · cases ha
    · obtain ⟨call, hcall, rfl⟩ := mem_map.mp hargs
      exact of_allows hcall ha

theorem of_proper (h : ∀ call ∈ calls, call.hasNaN = false) : (of names calls).Proper where
  toClosed := of_closed names calls
  same := fun {args} hargs => by
    rcases mem_cons.mp hargs with rfl | hargs
    · rfl
    · obtain ⟨call, hcall, rfl⟩ := mem_map.mp hargs
      obtain ⟨outer, houter, hwithin⟩ := mem_flatMap.mp hcall
      exact sameArguments_self ((Call.within_within hwithin).2 (h outer houter))

end Vocabulary

/-! ## 3. The vocabulary of a session -/

/-- The names that are kept by keep statements of a namespace, and those of durable values. -/
def Namespace.kept (ns : Namespace) : List String :=
  ns.definitions.toList.flatMap fun d =>
    d.keeps.map (·.target) ++ if d.isGlobal then [d.fullName] else []

theorem Namespace.mem_kept {ns : Namespace} {id : DefId} {d : Definition} {name : String}
    (hd : ns.get? id = some d)
    (h : name ∈ d.keeps.map (·.target) ++ if d.isGlobal then [d.fullName] else []) :
    name ∈ ns.kept :=
  mem_flatMap.mpr ⟨d, Array.mem_def.mp (Array.mem_of_getElem? hd), h⟩

/-- The names that pointers were made for, and the keys that they lead to. -/
def Store.kept (store : Store) : List String :=
  store.keepMaps.toList.flatMap fun pointers =>
    pointers.values.flatMap fun p => [p.target.name, p.key]

theorem Store.mem_kept {store : Store} {k : KeepMapId} {name : String} {p : Pointer}
    (h : store.pointer? k name = some p) : p.target.name ∈ store.kept ∧ p.key ∈ store.kept := by
  unfold pointer? keepMap at h
  cases hmap : store.keepMaps[k]? with
  | none => simp [hmap] at h
  | some pointers =>
    rw [hmap] at h
    have hval : p ∈ pointers.values := (Dictionary.perm_of_get? h).mem_iff.mpr mem_cons_self
    have hmem : ∀ name ∈ [p.target.name, p.key], name ∈ store.kept := fun name hname =>
      mem_flatMap.mpr ⟨pointers, Array.mem_def.mp (Array.mem_of_getElem? hmap),
        mem_flatMap.mpr ⟨p, hval, hname⟩⟩
    exact ⟨hmem _ (by simp), hmem _ (by simp)⟩

namespace Session

variable {s : Session} {ns : Namespace} {rest : List Stack}

/-- Calls that are written, those that frames were given, and one more. -/
def callsWith (s : Session) (written : List Call) (call : Call) : List Call :=
  call :: written ++ s.frames.flatMap fun entry => allCalls entry.2.arguments

/-- What the evaluation of a call can speak of, where these calls are written. -/
def vocabulary (s : Session) (written : List Call) (call : Call) : Vocabulary :=
  .of (s.ns.kept ++ s.store.kept) (s.callsWith written call)

variable {written : List Call}

theorem vocabulary_has : (s.vocabulary written call).Has call :=
  Vocabulary.of_has_self mem_cons_self

theorem vocabulary_has_written {found : Call} (h : found ∈ written) :
    (s.vocabulary written call).Has found :=
  Vocabulary.of_has_self (mem_cons_of_mem _ (mem_append_left _ h))

theorem vocabulary_covers (hs : s.ns = ns) (hkind : ∀ {id d found}, ns.get? id = some d →
    found ∈ d.kind.calls → found ∈ written) : (s.vocabulary written call).Covers ns := by
  have hkept : ∀ {name}, name ∈ ns.kept → name ∈ (s.vocabulary written call).names := fun h =>
    mem_append_left _ (mem_append_left _ (hs.symm ▸ h))
  exact {
    kind := fun hd hfd => vocabulary_has_written (hkind hd hfd)
    keeps := fun hd hkeep => hkept (Namespace.mem_kept hd (mem_append_left _ (mem_map_of_mem hkeep)))
    durable := fun hd hglob => hkept (Namespace.mem_kept hd (by simp [hglob])) }

theorem vocabulary_spans (hs : s.ns = ns) : (s.vocabulary ns.calls call).Spans ns := by
  have hcalls : ∀ {id d found}, ns.get? id = some d → found ∈ d.calls → found ∈ ns.calls :=
    fun hd hfd => mem_flatMap.mpr ⟨_, Array.mem_def.mp (Array.mem_of_getElem? hd), hfd⟩
  exact ⟨vocabulary_covers hs fun hd hfd => hcalls hd (mem_append_left _ hfd),
    fun hd hfd => vocabulary_has_written (hcalls hd (mem_append_right _ hfd))⟩

/-- **A stack speaks of what its frames, its namespace and its pointers name.** -/
theorem speaks_vocabulary (hfit : s.Fit ns rest) (hdir : s.engine.Direct ns) (written : List Call)
    (call : Call) : s.Speaks (s.vocabulary written call) ns rest where
  fit := hfit
  held := by
    refine ⟨⟨hdir, fun hp => ?_⟩, fun _ _ _ => ⟨trivial, trivial, fun _ => trivial⟩⟩
    exact (Store.mem_kept hp).imp (fun h => mem_append_left _ (mem_append_right _ h))
      fun h => mem_append_left _ (mem_append_right _ h)
  arguments := fun f hf a ha => by
    rintro name args rfl
    obtain ⟨⟨id, bare⟩, hview, rfl⟩ := mem_map.mp hf
    obtain ⟨⟨id, frame⟩, hfr, hbare⟩ := mem_map.mp hview
    cases hbare
    refine Vocabulary.of_has_self (mem_append_right _ ?_)
    exact mem_flatMap.mpr ⟨(id, frame), hfr, mem_allCalls.mpr ⟨_, ha, mem_cons_self⟩⟩

theorem vocabulary_proper (hns : ns.Proper)
    (hfrs : ∀ entry ∈ s.frames, ∀ a ∈ entry.2.arguments, a.hasNaN = false)
    (hcall : call.hasNaN = false) : (s.vocabulary ns.calls call).Proper := by
  refine Vocabulary.of_proper fun found hfd => ?_
  rcases mem_append.mp hfd with hfd | hfd
  · rcases mem_cons.mp hfd with rfl | hfd
    · exact hcall
    · obtain ⟨d, hd, hfd⟩ := mem_flatMap.mp hfd
      obtain ⟨id, hid⟩ := Array.getElem?_of_mem (Array.mem_def.mpr hd)
      exact (hns.definition hid).numeric found hfd
  · obtain ⟨entry, hent, hfd⟩ := mem_flatMap.mp hfd
    exact (allCalls_within _ hfd).2 (anyNaN_eq_false.mpr (hfrs entry hent))

end Session

/-! ## 4. Every evaluation ends -/

namespace Workspace

/-- **Every evaluation comes to an end, in a value or a fault**, whatever is done with more fuel than
    it needs. The namespace was read from a text, the workspace is one that can be reached, with
    whatever limits, and neither the frames of the stack nor the call hold a not-a-number in their
    arguments. Names and superdefinitions may be circular, and calls handed down as arguments may
    lead up the stack again; still no fault is one of a dangling reference, at which an evaluation
    would break off. -/
theorem evaluation_terminates {text : String} {ns : Namespace} (hns : Namespace.read text = .ok ns)
    {limits : Limits} {w : Workspace} (hw : Reachable ns limits w) {name : String} {s : Session}
    (hs : w.session? name = some s)
    (hframes : ∀ entry ∈ s.frames, ∀ a ∈ entry.2.arguments, a.hasNaN = false) {call : Call}
    (hcall : call.hasNaN = false) (evaluator : Evaluator) :
    ∃ (fuel : Nat) (outcome : Except EvalFault Value) (run : Run),
      (∀ more, evaluateWithin (fuel + more) call ⟨s, evaluator⟩ = some (outcome, run)) ∧
      ∀ fault, outcome = .error fault → fault.isDangling = false := by
  have hproper := Namespace.read_proper hns
  obtain ⟨rest, hfit⟩ := hw.fit hs
  have hdirect : s.engine.Direct ns := (hw.lodged.session hs).1.engine.toDirect
  have hvocab := Session.vocabulary_proper hproper hframes hcall
  have hspeaks : (Run.mk s evaluator).session.Speaks (s.vocabulary ns.calls call) ns rest :=
    Session.speaks_vocabulary hfit hdirect ns.calls call
  obtain ⟨outcome, run, hrun⟩ := evaluateWithin_ends hvocab
    (Session.vocabulary_spans hfit.ns_eq) hspeaks Session.vocabulary_has
  generalize (Run.mk s evaluator).callCost (s.vocabulary ns.calls call) + 1 = fuel at hrun
  have habides := abides_within (Discipline.restoring_lawful ns rest) (fuel + 0)
  have hfine : (Discipline.restoring ns rest).Fine .call ⟨s, evaluator⟩ outcome run :=
    habides.call call hspeaks.fit outcome run (hrun 0)
  have hdangles : ¬ (Discipline.restoring ns rest).dangles := fun hopen => hopen hproper.closed
  exact ⟨fuel, outcome, run, hrun, fun fault hfault =>
    ((hfine.leads_of_not_dangles hdangles).2 fault hfault).2⟩

/-- A tree in which `turn` calls itself with its argument. -/
def turning : String :=
  Json.compact (.object [("definitions", .array [.object [("name", .string "turn"),
    ("parameters", .array [.string "x"]), ("body", (Body.ref ⟨"turn", [.call "x" []]⟩).toJson)]])])

/-- The namespace of the tree. -/
def turned : Namespace := (Namespace.read turning).toOption.getD .empty

/-- A stack on which `turn` was called with a call of itself. -/
def turn : Session :=
  (Session.push ⟨.new turned {}, .new 0 {}, {}⟩ 0 [.call "turn" [.value (.int 1)]] true).2

theorem evaluation_terminates_turning :
    ∃ w, Namespace.read turning = .ok turned ∧ Reachable turned {} w ∧
      w.session? "main" = some turn ∧
      (∀ entry ∈ turn.frames, ∀ a ∈ entry.2.arguments, a.hasNaN = false) ∧
      Call.hasNaN ⟨"turn", [.call "x" []]⟩ = false ∧
      ∃ (fuel : Nat) (outcome : Except EvalFault Value) (run : Run),
        (∀ more, evaluateWithin (fuel + more) ⟨"turn", [.call "x" []]⟩ ⟨turn, {}⟩ =
          some (outcome, run)) ∧
        ∀ fault, outcome = .error fault → fault.isDangling = false := by
  have hread : Namespace.read turning = .ok turned := by
    have hok : (Namespace.read turning).isOk = true := by decide +kernel
    unfold turned
    match Namespace.read turning, hok with
    | .ok ns, _ => rfl
  obtain ⟨w, hw, hs⟩ : ∃ w, Reachable turned {} w ∧ w.session? "main" = some turn :=
    reachable_of_moves (.single (.push 0 [.call "turn" [.value (.int 1)]] true))
  have hframes : ∀ entry ∈ turn.frames, ∀ a ∈ entry.2.arguments, a.hasNaN = false := by
    decide +kernel
  exact ⟨w, hread, hw, hs, hframes, rfl, evaluation_terminates hread hw hs hframes rfl {}⟩

end Workspace

end KeepTree
