import KeepTree.Proofs.Durable.Pointers
import KeepTree.Proofs.Workspace.Markers

/-!
# Runs under terms, and local lookups

What is said of kept names holds of runs that keep to some terms: no name is kept here, no value is
put there.

* `Run.upheld` -- **what moves under terms keep up is kept up by runs**.
-/

namespace KeepTree

variable {terms terms' : Terms} {ns : Namespace} {s : Session}

/-! ## 1. Steps and runs -/

/-- What observes the terms observes the others. -/
structure Terms.Implies (terms terms' : Terms) : Prop where
  push : ∀ {s s'}, terms.push s s' → terms'.push s s'
  addKeep : ∀ {s keep}, terms.addKeep s keep → terms'.addKeep s keep
  put : ∀ {s key}, terms.put s key → terms'.put s key
  putValue : ∀ {s key}, terms.putValue s key → terms'.putValue s key

theorem Session.MoveBy.implies {s' : Session} (h : s.MoveBy terms s')
    (hterms : terms.Implies terms') : s.MoveBy terms' s' := by
  cases h with
  | fail => exact .fail
  | push h hpush => exact .push h (hterms.push hpush)
  | pop h => exact .pop h
  | unpush h => exact .unpush h
  | repush h => exact .repush h
  | startIteration h => exact .startIteration h
  | setIteration iter => exact .setIteration iter
  | addKeep hkeep h => exact .addKeep (hterms.addKeep hkeep) h
  | lookup request => exact .lookup request
  | putWithin key holder levels hput => exact .putWithin key holder levels (hterms.put hput)
  | putValue hput h => exact .putValue (hterms.putValue hput) h
  | computation => exact .computation

namespace Workspace

/-- One step of a workspace that observes the terms, on whatever stack. -/
inductive StepBy (terms : Terms) (w : Workspace) : Workspace → Prop
  | start (name : String) : StepBy terms w (w.start name)
  | finish (name : String) : StepBy terms w (w.finish name)
  | move {name : String} {s s' : Session} : w.session? name = some s → s.MoveBy terms s' →
      StepBy terms w (w.put name s')
  | branch {name : String} {s : Session} (sharing : Bool) (target : String) :
      w.session? name = some s → StepBy terms w (w.branch s sharing target)
  | restore (snapshot : Snapshot) :
      StepBy terms w { w with engine := (w.engine.restore snapshot).2 }
  | siteTable (site : DefId) : StepBy terms w { w with engine := (w.engine.siteTable site).2 }

variable {w w' : Workspace} {limits : Limits}

theorem StepBy.step (h : w.StepBy terms w') : w.Step w' := by
  cases h with
  | start name => exact .start name
  | finish name => exact .finish name
  | move hs hmove => exact .move hs hmove.move
  | branch sharing target hs => exact .branch sharing target hs
  | restore snap => exact .restore snap
  | siteTable site => exact .siteTable site

/-- Any number of steps that observe the terms. -/
inductive Run (terms : Terms) (w : Workspace) : Workspace → Prop
  | refl : Run terms w w
  | step {w' w'' : Workspace} : Run terms w w' → w'.StepBy terms w'' → Run terms w w''

theorem Run.implies (h : w.Run terms w') (hterms : terms.Implies terms') : w.Run terms' w' := by
  induction h with
  | refl => exact .refl
  | step _ hstep ih =>
    refine .step ih ?_
    cases hstep with
    | start name => exact .start name
    | finish name => exact .finish name
    | move hs hmove => exact .move hs (hmove.implies hterms)
    | branch sharing target hs => exact .branch sharing target hs
    | restore snap => exact .restore snap
    | siteTable site => exact .siteTable site

theorem Run.reachable (h : w.Run terms w') (hw : w.Reachable ns limits) :
    w'.Reachable ns limits := by
  induction h with
  | refl => exact hw
  | step _ hstep ih => exact ih.step hstep.step

theorem StepBy.acts (hw : (w.roster []).Numbered ns limits) (h : w.StepBy terms w') :
    Roster.Acts (Session.MoveBy terms) (w.roster []) (w'.roster []) := by
  cases h with
  | start name => exact start_acts hw name
  | finish name => exact (finish_acts hw name).1
  | move hs hmove => exact put_acts hw hs hmove hmove.move.effect.kin
  | branch sharing target hs => exact branch_acts hw hs sharing target
  | restore snap => exact .single (.tables (.restore snap))
  | siteTable site => exact .single (.tables (.siteTable site))

/-- **Every run is a run of the roster.** -/
theorem Run.acts (hw : (w.roster []).Numbered ns limits) (h : w.Run terms w') :
    Roster.Acts (Session.MoveBy terms) (w.roster []) (w'.roster []) := by
  induction h with
  | refl => exact .refl
  | step _ hstep ih => exact ih.trans (hstep.acts (Roster.Acts.numbered ih hw))

theorem run_of_moves
    (h : Relation.ReflTransGen (Session.MoveBy terms) ⟨.new ns limits, .new 0 limits, {}⟩ s) :
    ∃ w, (Workspace.new ns limits).Run terms w ∧ w.session? "main" = some s := by
  induction h with
  | refl => exact ⟨_, .step .refl (.start "main"), rfl⟩
  | tail _ hmove ih =>
    obtain ⟨w, hrun, hs⟩ := ih
    exact ⟨_, .step hrun (.move hs hmove),
      (hrun.reachable .new).session?_moved hs (.single hmove.move)⟩

/-- **A fact that moves under terms keep up is kept up by runs.** -/
theorem Run.upheld {U : Upkeep} (hU : U.Copied ns) (hmakes : ∀ k, U.makes k)
    (hrestorable : U.Restorable)
    (hmove : ∀ {s s' : Session} (rest : List Stack), s.MoveBy terms s' → s.Upholds U ns rest s')
    (hrun : w.Run terms w') (hw : w.Reachable ns limits) (h : w.Upheld U) : w'.Upheld U := by
  induction hrun with
  | refl => exact h
  | step hrun hstep ih =>
    have hw := hrun.reachable hw
    cases hstep with
    | start name => exact ih.start hU.toPushable name
    | finish name => exact ih.finish hU.toPushable name
    | move hs hmoved => exact ih.put hU.toPushable hw hs fun rest => hmove rest hmoved
    | branch sharing target hs => exact ih.branch hU hmakes hw hs sharing target
    | restore snap =>
      exact ih.grow hU.toPushable
        (Engine.restore_upheld hU.toPushable hrestorable ih.engine snap)
    | siteTable site =>
      exact ih.grow hU.toPushable (hU.grow ih.engine (Engine.siteTable_grows _ site).1)

end Workspace

/-! ## 2. Local lookups -/

/-- The request for a key in the top frame. -/
def Request.here (key : String) : Request := { key, topOnly := true }

namespace Session

variable {rest : List Stack} {frame : Frame} {r : Request}

theorem reached_local (hs : s.Fit ns rest) (hfr : s.topFrame? = some frame)
    (hlocal : r.topOnly = true) : reached s.ns frame.definition r s.frames = ([frame], .ok ()) := by
  obtain ⟨id, htop, hf⟩ := Option.bind_eq_some_iff.mp hfr
  rw [frames_cons hs.sound htop hf, reached]
  simp only [endsAt, hlocal, Bool.true_or, if_true]

theorem find_local (hs : s.Fit ns rest) (hfr : s.topFrame? = some frame)
    (hlocal : r.topOnly = true) (hglob : r.globalKey = none) :
    (s.find r).1 = match entryIn s.store r.key frame with
      | some entry => (s.resolve frame.definition r entry frame.iteration).1
      | none => .ok none := by
  have hreached := reached_local hs hfr hlocal
  have hending : s.searchEnding r frame.definition = .ok none := by
    rw [searchEnding, hreached]
    rfl
  have hcands : s.candidates r frame =
      ((entryIn s.store r.key frame).map (·, frame.iteration)).toList := by
    rw [candidates, durableCandidates, hglob, frameCandidates, hreached]
    cases hent : entryIn s.store r.key frame <;> simp [hent]
  rw [find_of_top hfr, hcands, hending]
  cases entryIn s.store r.key frame with
  | none => rfl
  | some entry =>
    simp only [Option.map_some, Option.toList_some, search]
    cases hrsv : s.resolve frame.definition r entry frame.iteration with
    | mk result hops =>
      cases result with
      | error fault => rfl
      | ok found => cases found <;> rfl

theorem resolve_pointer (hdir : s.engine.Direct ns) (hhops : 0 < s.limits.maxPointerHops)
    (origin : DefId) (r : Request) (p : Pointer) (iter : Option Nat) :
    (s.resolve origin r (.pointer p) iter).1 =
      .ok ((s.store.at? (p.location iter)).bind (yields s.ns origin r)) := by
  have hfollow : s.store.follow iter s.limits.maxPointerHops p =
      .ok (s.store.at? (p.location iter), 1) := hdir.follow_eq iter hhops p
  simp only [resolve, hfollow]
  cases s.store.at? (p.location iter) <;> rfl

theorem resolve_entry {entry : Entry} (hent : ∀ p, entry ≠ .pointer p) (s : Session)
    (origin : DefId) (r : Request) (iter : Option Nat) :
    (s.resolve origin r entry iter).1 = .ok (yields s.ns origin r entry) := by
  cases entry with
  | pointer p => exact absurd rfl (hent p)
  | value v => rfl
  | holder h => rfl
  | element e => rfl

/-- **A local lookup** finds what is cached in the top frame, or else what is in the slot where the top
    frame keeps the key. -/
theorem lookup_local (hs : s.Fit ns rest) (hdir : s.engine.Direct ns)
    (hhops : 0 < s.limits.maxPointerHops) (hfr : s.topFrame? = some frame)
    (hlocal : r.topOnly = true) (hglob : r.globalKey = none) :
    (s.lookup r).1 = .ok (((frame.cached? s.store r.key).or
      ((frame.keepPointer? s.store r.key).bind fun p =>
        s.store.at? (p.location frame.iteration))).bind (yields s.ns frame.definition r)) := by
  rw [lookup_result, find_local hs hfr hlocal hglob, entryIn]
  cases hcached : frame.cached? s.store r.key with
  | some entry =>
    refine resolve_entry ?_ s frame.definition r frame.iteration
    rintro p rfl
    exact hdir.no_pointer hcached
  | none =>
    cases frame.keepPointer? s.store r.key with
    | none => rfl
    | some p => exact resolve_pointer hdir hhops frame.definition r p frame.iteration

end Session

end KeepTree
