import KeepTree.Proofs.Recycling.Evaluation
import KeepTree.Proofs.Workspace.Scripts

/-!
# Recycling cannot be observed

One script is played twice, once on a workspace whose pools use their slots again and once on one
whose pools do not. The two workspaces mirror each other all the way, family by family: each family
has a renaming of its own, which grows when one of its stacks makes a frame.

* `recycling_unobservable` -- **no script tells the two workspaces apart**.
-/

namespace KeepTree

open Dictionary Array

variable {e e' : Engine} {s t : Session} {τ : Renaming}

/-! ## 1. What the stacks do -/

namespace Demand

open Eval

theorem draw_indifferent {α : Type} {f : Session → Except Fault (α × Session)}
    (hf : ∀ {ρ s t}, Session.Twins ρ s t → ExceptRel (Fault.Mirrors ρ)
      (fun x y => y.1 = x.1 ∧ x.2.Twins ρ y.2) (f s) (f t)) : Indifferent (draw f) := by
  refine indifferent_lift fun {ρ s t} h => ?_
  match f s, f t, hf h with
  | _, _, .error hflt => exact ⟨ρ, List.Subset.refl ρ, .error hflt, h⟩
  | _, _, .ok hxy => exact ⟨ρ, List.Subset.refl ρ, .ok hxy.1.symm, hxy.2⟩

/-- **Nothing that a stack can be asked for tells twins apart.** -/
theorem steps_indifferent (demand : Demand) : Indifferent demand.steps := by
  have hL := Likeness.twinned_ordered
  cases demand with
  | push definition args newCall => exact hL.map (indifferent_push definition args newCall) _
  | pushCall call newCall => exact hL.map (indifferent_lift fun h => h.pushCall call newCall) _
  | pop => exact hL.map (indifferent_move Session.Twins.pop) _
  | unpush => exact hL.map (indifferent_move Session.Twins.unpush) _
  | repush => exact hL.map (indifferent_move Session.Twins.repush) _
  | startIteration => exact hL.map (draw_indifferent Session.Twins.startIteration) _
  | setIteration iter =>
    exact hL.map (indifferent_move fun h => .ok (h.setIteration iter)) _
  | addKeep keep => exact hL.map (draw_indifferent fun h => h.addKeep keep) _
  | lookup request => exact hL.map (indifferent_lift fun h => h.lookup request) _
  | putWithin key holder levels =>
    exact hL.map (indifferent_lift fun h => h.putWithin key holder levels) _
  | put key holder => exact hL.map (indifferent_lift fun h => h.put key holder) _
  | putValue key value => exact hL.map (indifferent_putValue key value) _
  | evaluate fuel call => exact hL.map (evaluateWithin_indifferent fuel call) _

end Demand

/-! ## 2. Snapshots -/

namespace Engine

theorem Parallels.restoreValue (h : e.Parallels Eq e') (name : String) (value : Value) :
    ExceptRel (· = ·) (Parallels Eq) (e.restoreValue name value) (e'.restoreValue name value) := by
  unfold Engine.restoreValue
  rw [h.ns_eq]
  cases e.ns.lookup name with
  | error gap => exact .error rfl
  | ok found =>
    cases found with
    | none =>
      obtain ⟨_, recycle, recycled, rfl, rfl⟩ := h
      exact .ok ⟨_, recycle, recycled, rfl, rfl⟩
    | some id =>
      simp only [bind, Except.bind]
      cases e.ns.find id with
      | error gap => exact .error rfl
      | ok d =>
        obtain ⟨htab, heng⟩ := h.durableTable d
        simp only [pure, Except.pure]
        rw [htab, ← heng.store]
        exact .ok (heng.withStore rfl)

theorem Parallels.restoreValues (values : List (String × Value)) (h : e.Parallels Eq e') :
    (e'.restoreValues values).1 = (e.restoreValues values).1 ∧
      (e.restoreValues values).2.Parallels Eq (e'.restoreValues values).2 := by
  induction values generalizing e e' with
  | nil => exact ⟨rfl, h⟩
  | cons entry rest ih =>
    obtain ⟨name, value⟩ := entry
    unfold Engine.restoreValues
    have hres := h.restoreValue name value
    generalize e.restoreValue name value = x at hres
    generalize e'.restoreValue name value = y at hres
    cases hres with
    | error hflt => exact ⟨hflt ▸ rfl, h⟩
    | ok hnext => exact ih hnext

theorem Parallels.restore (h : e.Parallels Eq e') (snap : Snapshot) :
    (e'.restore snap).1 = (e.restore snap).1 ∧
      (e.restore snap).2.Parallels Eq (e'.restore snap).2 := by
  obtain ⟨hres, heng⟩ := h.restoreValues snap.values.entries
  unfold Engine.restore
  split
  · exact ⟨congrArg (Except.map fun () => snap.size) hres, heng⟩
  · exact ⟨rfl, h⟩

end Engine

/-! ## 3. Workspaces -/

/-- The same reply, of frames that stand for each other. -/
inductive Reply.Mirrors (ρ : Nat → Renaming) : Reply → Reply → Prop
  | done : Mirrors ρ .done .done
  | absent : Mirrors ρ .absent .absent
  | unfinished : Mirrors ρ .unfinished .unfinished
  | restored (count : Except Dangling Nat) : Mirrors ρ (.restored count) (.restored count)
  | table (id : TableId) : Mirrors ρ (.table id) (.table id)
  | answered (family : Nat) {x y : Except EvalFault Response} (evaluator : Evaluator) :
      ExceptRel (EvalFault.Mirrors (ρ family)) (· = ·) x y →
      Mirrors ρ (.answered family x evaluator) (.answered family y evaluator)

theorem Reply.Mirrors.mono {ρ ρ' : Nat → Renaming} (hsub : ∀ i, ρ i ⊆ ρ' i) {x y : Reply}
    (h : x.Mirrors ρ y) : x.Mirrors ρ' y := by
  cases h with
  | done => exact .done
  | absent => exact .absent
  | unfinished => exact .unfinished
  | restored count => exact .restored count
  | table id => exact .table id
  | answered family evaluator hxy =>
    exact .answered family evaluator (hxy.imp (·.mono (hsub family)) id)

/-- Stacks of one family that mirror each other. -/
def Seat.Mirrors (ρ : Nat → Renaming) (x y : Seat) : Prop :=
  y.family = x.family ∧ x.stack.Mirrors (ρ x.family).Pairs y.stack

namespace Workspace

variable {ρ ρ' : Nat → Renaming} {w v : Workspace} {ns : Namespace} {limits limits' : Limits}

/-- The workspaces are the same under a renaming for each family, but for recycling. -/
structure Mirrors (ρ : Nat → Renaming) (w v : Workspace) : Prop where
  engine : w.engine.Parallels Eq v.engine
  size_eq : v.families.size = w.families.size
  families : ∀ i, Option.Rel (Family.Mirrors (.renamed (ρ i))) w.families[i]? v.families[i]?
  root_eq : ∀ (i : Nat) (family : Family), w.families[i]? = some family → family.root = i
  /-- No frame was made in a family that is still to come. -/
  unused : ∀ i, w.families.size ≤ i → ρ i = []
  seats : ∀ name, Option.Rel (Seat.Mirrors ρ) (w.seats.get? name) (v.seats.get? name)

theorem Mirrors.session? (h : w.Mirrors ρ v) (name : String) :
    Option.Rel (fun s t => s.Mirrors (.renamed (ρ s.family.root)) t) (w.session? name)
      (v.session? name) := by
  unfold Workspace.session?
  match w.seats.get? name, v.seats.get? name, h.seats name with
  | _, _, .none => exact .none
  | some x, some y, .some ⟨hfam, hstack⟩ =>
    have hfams := h.families x.family
    have hroot := h.root_eq x.family
    simp only [bind, Option.bind]
    rw [hfam]
    generalize w.families[x.family]? = f at hfams hroot
    generalize v.families[x.family]? = g at hfams
    cases hfams with
    | none => exact .none
    | some hfg =>
      refine .some ?_
      rw [hroot _ rfl]
      exact ⟨h.engine, hfg, hstack⟩

theorem subset_update {i : Nat} (hsub : ρ i ⊆ τ) (j : Nat) : ρ j ⊆ Function.update ρ i τ j := by
  by_cases h : j = i
  · subst h
    rw [Function.update_self]
    exact hsub
  · rw [Function.update_of_ne h]
    exact List.Subset.refl _

section

variable (h : w.Mirrors ρ v)
include h

theorem Mirrors.seats_mono (hsub : ∀ i, ρ i ⊆ ρ' i) (name : String) :
    Option.Rel (Seat.Mirrors ρ') (w.seats.get? name) (v.seats.get? name) := by
  match w.seats.get? name, v.seats.get? name, h.seats name with
  | _, _, .none => exact .none
  | _, _, .some hxy => exact .some ⟨hxy.1, hxy.2.mono (hsub _)⟩

theorem Mirrors.adopt (hst : s.Mirrors (.renamed τ) t)
    (hsub : ρ s.family.root ⊆ τ) (hroot : s.family.root < w.families.size) :
    (w.adopt s).Mirrors (Function.update ρ s.family.root τ) (v.adopt t) where
  engine := hst.engine
  size_eq := by simp [Workspace.adopt, h.size_eq]
  families i := by
    simp only [Workspace.adopt, hst.family.root_eq, getElem?_setIfInBounds, h.size_eq]
    by_cases hi : s.family.root = i
    · subst hi
      rw [if_pos rfl, if_pos rfl, if_pos hroot, if_pos hroot, Function.update_self]
      exact .some hst.family
    · rw [if_neg hi, if_neg hi, Function.update_of_ne (Ne.symm hi)]
      exact h.families i
  root_eq i family hi := by
    simp only [Workspace.adopt, getElem?_setIfInBounds] at hi
    split at hi
    · rename_i e
      rw [← Option.some.inj hi, e]
    · exact h.root_eq i family hi
  unused i hi := by
    simp only [Workspace.adopt, size_setIfInBounds] at hi
    rw [Function.update_of_ne (Nat.ne_of_gt (Nat.lt_of_lt_of_le hroot hi))]
    exact h.unused i hi
  seats := h.seats_mono (subset_update hsub)

theorem Mirrors.seat (name : String) {family : Nat} {x y : Stack}
    (hxy : x.Mirrors (ρ family).Pairs y) :
    (w.seat name family x).Mirrors ρ (v.seat name family y) where
  engine := h.engine
  size_eq := h.size_eq
  families := h.families
  root_eq := h.root_eq
  unused := h.unused
  seats other := by
    simp only [Workspace.seat]
    by_cases he : other = name
    · subst he
      rw [get?_insert_self, get?_insert_self]
      exact .some ⟨rfl, hxy⟩
    · rw [get?_insert_of_ne _ he, get?_insert_of_ne _ he]
      exact h.seats other

theorem Mirrors.root_lt {name : String} (hs : w.session? name = some s) :
    s.family.root < w.families.size := by
  obtain ⟨seat, family, _, hfam, rfl⟩ := Workspace.session?_ok hs
  rw [h.root_eq _ _ hfam]
  exact (Array.getElem?_eq_some_iff.mp hfam).1

theorem Mirrors.finish (name : String) : (w.finish name).Mirrors ρ (v.finish name) := by
  have hsess := h.session? name
  have hroot : ∀ s, w.session? name = some s → s.family.root < w.families.size :=
    fun _ => h.root_lt
  unfold Workspace.finish
  generalize w.session? name = x at hsess hroot
  generalize v.session? name = y at hsess
  cases hsess with
  | none => exact h
  | @some s t hst =>
    -- no frame is made, so the renaming stays
    have hlt := hroot s rfl
    have hcl : s.close.family.root < w.families.size := hlt
    have hadopt := h.adopt (Session.Twins.close hst) (List.Subset.refl _) hcl
    have hsame : Function.update ρ s.close.family.root (ρ s.family.root) = ρ :=
      Function.update_eq_self _ _
    rw [hsame] at hadopt
    refine ⟨hadopt.engine, hadopt.size_eq, hadopt.families, hadopt.root_eq, hadopt.unused,
      fun other => ?_⟩
    by_cases he : other = name
    · subst he
      rw [get?_erase_self, get?_erase_self]
      exact .none
    · rw [get?_erase_of_ne _ he, get?_erase_of_ne _ he]
      exact h.seats other

theorem Mirrors.start (name : String) : (w.start name).Mirrors ρ (v.start name) := by
  have hw := h.finish name
  unfold Workspace.start
  simp only
  rw [hw.size_eq]
  refine Mirrors.seat ?_ name Stack.mirrors_empty
  refine ⟨hw.engine, ?_, fun i => ?_, fun i family hi => ?_, fun i hi => ?_, hw.seats⟩
  · simp [hw.size_eq]
  · simp only [getElem?_push, hw.size_eq]
    split
    · rename_i hi
      subst hi
      rw [hw.unused _ (Nat.le_refl _)]
      exact .some ⟨rfl, rfl, Pool.mirrors_empty _ _⟩
    · exact hw.families i
  · simp only [getElem?_push] at hi
    split at hi
    · rename_i e
      rw [← Option.some.inj hi, e]
      rfl
    · exact hw.root_eq i family hi
  · simp only [size_push] at hi
    exact hw.unused i (Nat.le_of_succ_le hi)

theorem Mirrors.twins (hw : Reachable ns limits w) (hv : Reachable ns limits' v) (name : String) :
    (w.session? name = none ∧ v.session? name = none) ∨ ∃ s t, w.session? name = some s ∧
    v.session? name = some t ∧ s.Twins (ρ s.family.root) t := by
  rcases rel_cases (h.session? name) with hnone | ⟨s, t, hs, ht, hst⟩
  · exact .inl hnone
  · obtain ⟨_, hfit⟩ := hw.fit hs
    obtain ⟨_, hfit'⟩ := hv.fit ht
    exact .inr ⟨s, t, hs, ht, hst, ⟨_, hfit.sound⟩, ⟨_, hfit'.sound⟩⟩

end

/-! ## 4. Scripts -/

theorem Mirrors.put (h : w.Mirrors ρ v) (name : String) (hst : s.Mirrors (.renamed τ) t)
    (hsub : ρ s.family.root ⊆ τ) (hroot : s.family.root < w.families.size) :
    (w.put name s).Mirrors (Function.update ρ s.family.root τ) (v.put name t) := by
  unfold Workspace.put
  rw [hst.family.root_eq]
  refine (h.adopt hst hsub hroot).seat name ?_
  rw [Function.update_self]
  exact hst.stack

theorem Mirrors.branch (h : w.Mirrors ρ v) (hst : s.Twins (ρ s.family.root) t)
    (hroot : s.family.root < w.families.size) (sharing : Bool) (target : String) :
    ∃ ρ', (∀ i, ρ i ⊆ ρ' i) ∧
      (w.branch s sharing target).Mirrors ρ' (v.branch t sharing target) := by
  obtain ⟨τ, hsub, hbranch⟩ := hst.branch sharing
  have hkin := (s.branch_kin sharing).root_eq
  rw [← hkin] at hsub hroot
  refine ⟨_, subset_update hsub, ?_⟩
  unfold Workspace.branch
  simp only
  rw [hbranch.family.root_eq]
  refine ((h.adopt hbranch hsub hroot).finish target).seat target ?_
  rw [Function.update_self]
  exact hbranch.stack

/-- **One instruction has the same reply on both workspaces, and they mirror each other again.** -/
theorem Mirrors.perform (h : w.Mirrors ρ v) (hw : Reachable ns limits w)
    (hv : Reachable ns limits' v) (instr : Instruction) :
    ∃ ρ', (∀ i, ρ i ⊆ ρ' i) ∧ (w.perform instr).1.Mirrors ρ' (v.perform instr).1 ∧
      (w.perform instr).2.Mirrors ρ' (v.perform instr).2 := by
  have hrefl : ∀ i, ρ i ⊆ ρ i := fun _ => List.Subset.refl _
  cases instr with
  | start name => exact ⟨ρ, hrefl, .done, h.start name⟩
  | finish name => exact ⟨ρ, hrefl, .done, h.finish name⟩
  | restore snap =>
    obtain ⟨hcount, heng⟩ := h.engine.restore snap
    simp only [Workspace.perform]
    rw [hcount]
    exact ⟨ρ, hrefl, .restored _, heng, h.size_eq, h.families, h.root_eq, h.unused, h.seats⟩
  | siteTable site =>
    obtain ⟨htab, heng⟩ := h.engine.siteTable site
    simp only [Workspace.perform]
    rw [htab]
    exact ⟨ρ, hrefl, .table _, heng, h.size_eq, h.families, h.root_eq, h.unused, h.seats⟩
  | branch name sharing target =>
    simp only [Workspace.perform]
    rcases h.twins hw hv name with ⟨hs, ht⟩ | ⟨s, t, hs, ht, hst⟩
    · rw [hs, ht]
      exact ⟨ρ, hrefl, .absent, h⟩
    · rw [hs, ht]
      obtain ⟨ρ', hsub, hbranch⟩ := h.branch hst (h.root_lt hs) sharing target
      exact ⟨ρ', hsub, .done, hbranch⟩
  | ask name evaluator demand =>
    simp only [Workspace.perform]
    rcases h.twins hw hv name with ⟨hs, ht⟩ | ⟨s, t, hs, ht, hst⟩
    · rw [hs, ht]
      exact ⟨ρ, hrefl, .absent, h⟩
    · rw [hs, ht]
      have htwins : Run.Twins _ ⟨s, evaluator⟩ ⟨t, evaluator⟩ := ⟨hst, rfl⟩
      have hend := demand.steps_indifferent htwins
      have hmoves := demand.steps_moves ⟨s, evaluator⟩
      simp only
      generalize demand.steps ⟨s, evaluator⟩ = x at hend hmoves
      generalize demand.steps ⟨t, evaluator⟩ = y at hend
      cases hend with
      | none => exact ⟨ρ, hrefl, .unfinished, h⟩
      | givenUp hlax => exact hlax.elim
      | dangling hspoils => exact hspoils.elim
      | @some τ _ _ run run' hsub hres hrun =>
        have hroot : run.session.family.root = s.family.root := (hmoves _ _ rfl).kin.root_eq
        rw [← hroot] at hsub
        refine ⟨_, subset_update hsub, ?_, h.put name hrun.session.toMirrors hsub ?_⟩
        · simp only
          rw [hst.family.root_eq, hrun.evaluator_eq, hroot]
          refine .answered _ _ ?_
          rw [Function.update_self]
          exact hres
        · rw [hroot]
          exact h.root_lt hs

/-- **A whole script has the same replies on both workspaces.** -/
theorem Mirrors.play (script : List Instruction) (h : w.Mirrors ρ v) (hw : Reachable ns limits w)
    (hv : Reachable ns limits' v) :
    ∃ ρ', (∀ i, ρ i ⊆ ρ' i) ∧ List.Forall₂ (Reply.Mirrors ρ') (w.play script).1 (v.play script).1 ∧
      (w.play script).2.Mirrors ρ' (v.play script).2 := by
  induction script generalizing w v ρ with
  | nil => exact ⟨ρ, fun _ => List.Subset.refl _, .nil, h⟩
  | cons instr script ih =>
    obtain ⟨ρ₁, hsub₁, hreply, hnext⟩ := h.perform hw hv instr
    obtain ⟨ρ₂, hsub₂, hreplies, hend⟩ :=
      ih hnext (perform_reachable hw instr) (perform_reachable hv instr)
    -- the reply was given under a smaller renaming
    exact ⟨ρ₂, fun i => List.Subset.trans (hsub₁ i) (hsub₂ i),
      .cons (hreply.mono hsub₂) hreplies, hend⟩

theorem Mirrors.oneToOne (h : w.Mirrors ρ v) (i : Nat) : (ρ i).OneToOne := by
  by_cases hi : i < w.families.size
  · have hfam := h.families i
    rw [getElem?_eq_getElem hi, getElem?_eq_getElem (h.size_eq ▸ hi)] at hfam
    obtain ⟨hfg⟩ := hfam
    exact hfg.pool.oneToOne
  · rw [h.unused i (Nat.le_of_not_lt hi)]
    exact Renaming.oneToOne_nil

end Workspace

/-! ## 5. What can be read -/

theorem Engine.Mirrors.snapshot_eq (h : e.Mirrors e') : e'.snapshot = e.snapshot := by
  obtain ⟨recycle, recycled, rfl⟩ := h
  rfl

namespace Session

variable {ρ : Renaming}

/-- All that can be read off two stacks is the same, of frames that stand for each other. -/
structure ReadAlike (ρ : Renaming) (s t : Session) : Prop where
  family_eq : t.family.root = s.family.root
  size_eq : t.stack.size = s.stack.size
  names_eq : t.names = s.names
  rootDefinition?_eq : t.rootDefinition? = s.rootDefinition?
  site?_eq : t.site? = s.site?
  marker_eq : t.marker = s.marker
  describe_eq : ∀ family, t.describe family = s.describe family
  argumentFor_eq : ∀ name, t.argumentFor name = s.argumentFor name
  keepTarget?_eq : ∀ name, t.keepTarget? name = s.keepTarget? name
  isKept_eq : ∀ name, t.isKept name = s.isKept name
  keepMaps_eq : (t.frames.map fun entry => t.store.keepMap entry.2.keeps) =
    s.frames.map fun entry => s.store.keepMap entry.2.keeps
  lookup : ∀ request, ExceptRel (Fault.Mirrors ρ) (· = ·) (s.lookup request).1 (t.lookup request).1
  frames : List.Forall₂ (Pool.EntryMirrors ρ) s.frames t.frames
  stash : List.Forall₂ ρ.Pairs s.stack.stash t.stack.stash

theorem Twins.readAlike (h : s.Twins ρ t) : s.ReadAlike ρ t where
  family_eq := h.family.root_eq
  size_eq := h.stack.size_eq
  names_eq := h.reads.names_eq
  rootDefinition?_eq := Frame.Over.map_eq (fun _ _ => rfl) h.rootFrame?
  site?_eq := Frame.Over.bind_eq (v := Frame.site) (fun _ _ => rfl) h.topFrame?
  marker_eq := h.marker_eq
  describe_eq := h.reads.describe_eq
  argumentFor_eq := h.reads.argumentFor_eq
  keepTarget?_eq := h.reads.keepTarget?_eq
  isKept_eq := h.reads.isKept_eq
  keepMaps_eq := by
    rw [h.store_eq]
    exact map_frames_eq (v := fun frame => s.store.keepMap frame.keeps) (fun _ _ => rfl)
      h.reads.frames
  lookup := h.lookup_result
  frames := h.reads.frames
  stash := h.stack.stash

end Session

namespace Workspace

theorem mirrors_new (ns : Namespace) (limits : Limits) (recycle recycle' : Bool) :
    Mirrors (fun _ => []) (.new ns { limits with recycleFrames := recycle })
      (.new ns { limits with recycleFrames := recycle' }) where
  engine := ⟨_, recycle', 0, rfl, rfl⟩
  size_eq := rfl
  families _ := .none
  root_eq _ _ h := nomatch h
  unused _ _ := rfl
  seats _ := .none

end Workspace

end KeepTree
