import KeepTree.Proofs.Evaluation.Faults
import KeepTree.Proofs.Workspace.Reachable

/-!
# An evaluation is a series of moves

All that an evaluation does to a session it does by operations of the session, one after the other,
however it ends. So a relation between sessions that these operations are in, and that can be
composed, holds between the session before an evaluation and the one after it:

* `evaluateWithin_keeps` -- **every evaluation is in a relation that tracks its operations**.
-/

namespace KeepTree

variable {P : Session → Session → Prop} {α β : Type}

/-! ## 1. Steps -/

namespace Eval

/-- Whatever the step comes to, the session is one that the relation allows. -/
def Keeps (P : Session → Session → Prop) (x : Eval α) : Prop :=
  ∀ run outcome run', x run = some (outcome, run') → P run.session run'.session

variable {x : Eval α}

theorem keeps_iff (hP : Tracks P) :
    Keeps P x ↔ ∀ s, (Likeness.failing (P s) fun _ => True).Matches (· = ·) x x := by
  simp only [← failsBy_iff]
  constructor
  · intro hx s run out run' hrun h
    exact ⟨hP.trans hrun (hx run out run' h), fun _ _ => trivial⟩
  · intro hx run out run' h
    exact (hx run.session run out run' (hP.refl _) h).1

theorem Keeps.pure (hP : Tracks P) (a : α) : Keeps P (pure a : Eval α) :=
  (keeps_iff hP).mpr fun _ => (Likeness.failing_ordered _ _).pure a

theorem Keeps.bind {f : α → Eval β} (hP : Tracks P) (hx : Keeps P x)
    (hf : ∀ a, Keeps P (f a)) : Keeps P (x >>= f) :=
  (keeps_iff hP).mpr fun s => (Likeness.failing_ordered _ _).bind_eq ((keeps_iff hP).mp hx s)
    fun a => (keeps_iff hP).mp (hf a) s

theorem Keeps.lift {f : Session → Except Fault α × Session} (h : ∀ s, P s (f s).2) :
    Keeps P (lift f) := by
  intro run out run' hrun
  rw [lift_apply] at hrun
  cases hrun
  exact h run.session

theorem Keeps.move {f : Session → Except Fault Session} (hP : Tracks P)
    (h : ∀ {s s'}, f s = .ok s' → P s s') : Keeps P (move f) :=
  (keeps_iff hP).mpr fun _ =>
    failsBy_iff.mp (.move (fun hs hP' => hP.trans hP' (h hs)) fun _ _ _ => trivial)

end Eval

/-! ## 2. Bodies and calls -/

theorem Tracks.fallible (hP : Tracks P) (s : Session) : Fallible (P s) fun _ => True where
  tracks :=
    { refl := fun _ h => h
      trans := fun h h' hs => h' (h hs)
      lookup := fun s' r h => hP.trans h (hP.lookup s' r)
      put := fun s' target holder h => hP.trans h (hP.put s' target holder)
      push := fun s' id args newCall h => hP.trans h (hP.push s' id args newCall)
      pop := fun h hs => hP.trans hs (hP.pop h)
      unpush := fun h hs => hP.trans hs (hP.unpush h)
      repush := fun h hs => hP.trans hs (hP.repush h)
      startIteration := fun h hs => hP.trans hs (hP.startIteration h)
      setIteration := fun s' iter h => hP.trans h (hP.setIteration s' iter)
      putValue := fun h hs => hP.trans hs (hP.putValue h)
      count := fun s' h => hP.trans h (hP.count s') }
  lookup _ _ _ _ := trivial
  put _ _ _ _ _ := trivial
  push _ _ _ _ _ _ := trivial
  pop _ _ _ := trivial
  unpush _ _ _ := trivial
  repush _ _ _ := trivial
  startIteration _ _ _ := trivial
  putValue _ _ _ _ _ := trivial
  walk _ := trivial
  underflow := trivial
  undefined _ := trivial
  redirect _ := trivial
  own _ := trivial

namespace Recur

open Eval

/-- What evaluates the calls and frames inside is in the relation. -/
structure Keeps (P : Session → Session → Prop) (r : Recur) : Prop where
  call : ∀ call, Eval.Keeps P (r.call call)
  frame : ∀ id, Eval.Keeps P (r.frame id)

variable {r : Recur}

theorem Keeps.matches (hP : Tracks P) (hr : r.Keeps P) (s : Session) :
    r.Matches (.failing (P s) fun _ => True) r :=
  ⟨fun call => (keeps_iff hP).mp (hr.call call) s, fun id => (keeps_iff hP).mp (hr.frame id) s⟩

theorem iterate_keeps (hP : Tracks P) (item : String) (value : Value) {body : Eval Value}
    (hbody : Eval.Keeps P body) : Eval.Keeps P (iterate item value body) :=
  (keeps_iff hP).mpr fun s =>
    (hP.fallible s).lawful.iterate item value ((keeps_iff hP).mp hbody s)

theorem iterateAll_keeps (hP : Tracks P) (item : String) {body : Eval Value}
    (hbody : Eval.Keeps P body) (values : List Value) :
    Eval.Keeps P (iterateAll item body values) :=
  (keeps_iff hP).mpr fun s =>
    iterateAll_matches (hP.fallible s).lawful item ((keeps_iff hP).mp hbody s) values

theorem body_keeps (hP : Tracks P) (hr : r.Keeps P) (b : Body) : Eval.Keeps P (r.body b) :=
  (keeps_iff hP).mpr fun s => body_matches (hP.fallible s).lawful (hr.matches hP s) b

theorem bodies_keeps (hP : Tracks P) (hr : r.Keeps P) (bs : List Body) :
    Eval.Keeps P (r.bodies bs) :=
  (keeps_iff hP).mpr fun s => bodies_matches (hP.fallible s).lawful (hr.matches hP s) bs

end Recur

theorem keeps_within (hP : Tracks P) (fuel : Nat) :
    Recur.Keeps P ⟨evaluateWithin fuel, frameWithin fuel⟩ :=
  have hwithin := fun s => Recur.failsBy_iff.mp (failsBy_within (hP.fallible s) fuel)
  ⟨fun call => (Eval.keeps_iff hP).mpr fun s => (hwithin s).call call,
    fun id => (Eval.keeps_iff hP).mpr fun s => (hwithin s).frame id⟩

/-- **Every evaluation is in a relation that tracks its operations.** -/
theorem evaluateWithin_keeps (hP : Tracks P) (fuel : Nat) (call : Call) :
    Eval.Keeps P (evaluateWithin fuel call) :=
  (keeps_within hP fuel).call call

/-! ## 3. Series of moves -/

namespace Session

/-- One move after another. -/
abbrev Moves : Session → Session → Prop := Relation.ReflTransGen Move

theorem Moves.kin {s s' : Session} (h : s.Moves s') : s.Kin s' := by
  induction h with
  | refl => exact ⟨rfl, rfl, rfl⟩
  | tail _ hmove ih =>
    have hkin := hmove.effect.kin
    exact ⟨hkin.ns_eq.trans ih.ns_eq, hkin.limits_eq.trans ih.limits_eq,
      hkin.root_eq.trans ih.root_eq⟩

theorem moves_track : Tracks Moves where
  refl _ := .refl
  trans := .trans
  lookup _ r := .single (.lookup r)
  put s target holder := .single (.putWithin target holder s.limits.propagationLevels)
  push _ id arguments newCall := .single (.push id arguments newCall)
  pop h := .single (.pop h)
  unpush h := .single (.unpush h)
  repush h := .single (.repush h)
  startIteration h := .single (.startIteration h)
  setIteration _ iteration := .single (.setIteration iteration)
  putValue h := .single (.putValue h)
  count _ := .single .computation

end Session

namespace Workspace

variable {ns : Namespace} {limits : Limits} {w : Workspace} {name : String} {s s' : Session}

theorem session?_put (hfam : s'.family.root < w.families.size) :
    (w.put name s').session? name = some s' := by
  have hseat : (w.put name s').seats.get? name = some ⟨s'.family.root, s'.stack⟩ :=
    Dictionary.get?_insert_self _ _ _
  have hfd : (w.put name s').families[s'.family.root]? = some s'.family := by
    simp [put, adopt, seat, hfam]
  rw [session?, hseat]
  simp only [bind, Option.bind, hfd]
  rfl

theorem put_put (h : s'.family.root = s.family.root) :
    (w.put name s).put name s' = w.put name s' := by
  simp only [put, adopt, seat, h, Array.setIfInBounds_setIfInBounds, Dictionary.insert_insert]

theorem Reachable.moves (hw : Reachable ns limits w) (hs : w.session? name = some s)
    (h : s.Moves s') : Reachable ns limits (w.put name s') := by
  obtain ⟨_, hfam, _⟩ := hw.session hs
  have hlt : s.family.root < w.families.size := (Array.getElem?_eq_some_iff.mp hfam).1
  -- the family of the stack stays what it is, so each move is a step after the ones before
  have hall : Reachable ns limits (w.put name s') ∧ s'.family.root = s.family.root := by
    induction h with
    | refl => exact ⟨hw.step (.move hs .fail), rfl⟩
    | @tail between after _ hmove ih =>
      obtain ⟨ih, hroot⟩ := ih
      have hroot' := hmove.effect.kin.root_eq
      have hsess : (w.put name between).session? name = some between := session?_put (hroot ▸ hlt)
      refine ⟨?_, hroot'.trans hroot⟩
      rw [← put_put (s := between) hroot']
      exact ih.step (.move hsess hmove)
  exact hall.1

theorem Reachable.session?_moved (hw : Reachable ns limits w) (hs : w.session? name = some s)
    (h : s.Moves s') : (w.put name s').session? name = some s' := by
  obtain ⟨_, hfam, _⟩ := hw.session hs
  exact session?_put (h.kin.root_eq ▸ (Array.getElem?_eq_some_iff.mp hfam).1)

theorem reachable_of_moves (h : Session.Moves ⟨.new ns limits, .new 0 limits, {}⟩ s) :
    ∃ w, Reachable ns limits w ∧ w.session? "main" = some s := by
  have hstarted : Reachable ns limits ((Workspace.new ns limits).start "main") :=
    Reachable.new.step (.start "main")
  exact ⟨_, hstarted.moves rfl h, hstarted.session?_moved rfl h⟩

end Workspace

end KeepTree
