import KeepTree.Proofs.Durable.Lodging
import KeepTree.Proofs.Evaluation.Alike

/-!
# No table holds a pointer

Pointers stand in keep maps, and what is written to a table is never one. So the slot that a pointer
names is the end of its chain. It is found in one step, and what is put through several pointers is
put whole, for none of the writes can fail:

* `Workspace.pointers_end_at_once` -- **so it is in every reachable workspace**.
-/

namespace KeepTree

variable {e : Engine} {ns : Namespace} {s : Session} {limit : Nat} {definition : DefId}
  {args : List Argument}

/-! ## 1. Pointers -/

namespace Engine.Direct

section

variable (h : e.Direct ns) (iteration : Option Nat) (hlimit : 0 < limit) (p : Pointer)
include h iteration hlimit p

/-- **A pointer is the end of its chain.** -/
theorem chase_eq : e.store.chase iteration limit p = .ok (p, 1) := by
  cases limit with
  | zero => exact absurd hlimit (Nat.lt_irrefl 0)
  | succ limit =>
    unfold Store.chase
    split
    · rename_i next hat
      exact absurd hat h.no_pointer
    · rfl

theorem follow_eq :
    e.store.follow iteration limit p = .ok (e.store.at? (p.location iteration), 1) := by
  rw [Store.follow, h.chase_eq iteration hlimit]

theorem writeThrough_eq (entry : Entry) :
    e.store.writeThrough iteration limit p entry =
      .ok (p.location iteration, e.store.set (p.location iteration) entry) := by
  rw [Store.writeThrough, h.chase_eq iteration hlimit]

end

theorem holder (h : e.Direct ns) (l : Location) (holder : Holder) :
    (e.withStore (e.store.set l (.holder holder))).Direct ns :=
  h.set l _ nofun

end Engine.Direct

/-- A chain of pointers was too long. -/
def Fault.isChain : Fault → Bool
  | .pointerChainTooLong _ _ => true
  | _ => false

namespace Session

variable {s' : Session} {rest : List Stack} {fault : Fault}

/-! ## 2. Looking up -/

theorem resolve_ok (hdir : s.engine.Direct ns) (hhops : 0 < s.limits.maxPointerHops)
    (origin : DefId) (r : Request) (entry : Entry) (iteration : Option Nat) :
    ∃ found, (s.resolve origin r entry iteration).1 = .ok found := by
  unfold resolve
  split
  · rename_i p
    have hfollow : s.store.follow iteration s.limits.maxPointerHops p = _ :=
      hdir.follow_eq iteration hhops p
    rw [hfollow]
    split
    · exact ⟨_, rfl⟩
    · exact ⟨_, rfl⟩
    · rename_i hflt
      cases hflt
  · exact ⟨_, rfl⟩

theorem search_ok (hdir : s.engine.Direct ns) (hhops : 0 < s.limits.maxPointerHops)
    (origin : DefId) (r : Request) : ∀ entries : List (Entry × Option Nat),
    ∃ found, (s.search origin r entries).1 = .ok found
  | [] => ⟨none, rfl⟩
  | (entry, iteration) :: rest => by
    unfold search
    split
    · exact search_ok hdir hhops origin r rest
    · exact resolve_ok hdir hhops origin r entry iteration

theorem liveFrame_unchained {id : FrameId} (h : s.liveFrame id = .error fault) :
    fault.isChain = false := by
  unfold liveFrame at h
  split at h
  · cases h
  · cases h
    rfl

theorem find_unchained (hdir : s.engine.Direct ns) (hhops : 0 < s.limits.maxPointerHops)
    {r : Request} (h : (s.find r).1 = .error fault) : fault.isChain = false := by
  unfold find at h
  split at h
  · cases h
  · split at h
    · rename_i hlive
      cases h
      exact liveFrame_unchained hlive
    · rename_i frame _
      obtain ⟨found, hfd⟩ := search_ok hdir hhops frame.definition r (s.candidates r frame)
      split at h
      · unfold searchEnding Fault.ofWalk at h
        split at h
        · cases h
        · cases h
          rfl
      · rw [hfd] at h
        cases h

/-! ## 3. Putting -/

theorem putInFrame_ok (hdir : e.Direct ns) (hlimit : 0 < limit) (frame : Frame) (key : String)
    (entry : Entry) :
    ∃ l, putInFrame e.store limit frame key entry = .ok (l, e.store.set l entry) := by
  unfold putInFrame
  split
  · rename_i p _
    exact ⟨_, hdir.writeThrough_eq frame.iteration hlimit p entry⟩
  · simp only
    split
    · rename_i p hat
      exact absurd hat hdir.no_pointer
    · exact ⟨_, rfl⟩

theorem putDurable_direct (hdir : e.Direct ns) (d : Definition) (key : String)
    (iteration : Option Nat) (holder : Holder) :
    (putDurable e d key iteration (.holder holder)).Direct ns := by
  unfold putDurable
  split
  · have hgrown := hdir.grow (Engine.durableTable_grows e d).1
    exact hgrown.holder ⟨_, DottedName.inLoop d.fullName iteration⟩ holder
  · exact hdir

theorem passOnTo_ok (hdir : e.Direct ns) (hhops : 0 < e.limits.maxPointerHops) (written : Location)
    (holder : Holder) (target : Option (Frame × Pointer)) : ∃ e',
    passOnTo e written (.holder holder) target = .ok e' ∧ e'.Direct ns ∧ e'.limits = e.limits := by
  unfold passOnTo
  split
  · exact ⟨e, rfl, hdir, rfl⟩
  · rename_i frame p
    unfold passOn
    split
    · exact ⟨e, rfl, hdir, rfl⟩
    · rw [hdir.writeThrough_eq frame.iteration hhops]
      exact ⟨_, rfl, hdir.holder _ holder, rfl⟩

/-- **How a put comes out.** It succeeds, or it does nothing: the stack is empty, or the definition of
    the value is not known. Otherwise the namespace refers to something that it does not hold. -/
theorem putWithin_outcome (hs : s.Fit ns rest) (hdir : s.engine.Direct ns)
    (hhops : 0 < s.limits.maxPointerHops) (key : String) (holder : Holder) (levels : Option Nat) :
    (∃ slot, (s.putWithin key holder levels).1 = .ok slot) ∨
      (s.stack.top = none ∧ s.putWithin key holder levels = (.error .stackUnderflow, s)) ∨
      (∃ gap, ns.find holder.nominal = .error gap ∧
        s.putWithin key holder levels = (.error (.danglingReference gap), s)) ∨
      ∃ gap, ¬ ns.Closed ∧ (s.putWithin key holder levels).1 = .error (.danglingReference gap) := by
  rcases top_cases hs.top_live with ⟨hnone, htop⟩ | ⟨id, frame, hid, hf, htop⟩
  · exact .inr (.inl ⟨hnone, by simp only [putWithin, htop]⟩)
  unfold putWithin
  rw [htop, hs.ns_eq]
  cases hd : ns.find holder.nominal with
  | error gap => exact .inr (.inr (.inl ⟨gap, rfl, rfl⟩))
  | ok d =>
    obtain ⟨slot, hput⟩ := putInFrame_ok hdir hhops frame key (.holder holder)
    have hput : putInFrame s.store s.limits.maxPointerHops frame key (.holder holder) = _ := hput
    simp only [hput]
    have hwritten := putDurable_direct (hdir.holder slot holder) d key frame.iteration holder
    have hstd := putDurable_steady (s.engine.withStore (s.engine.store.set slot (.holder holder)))
      d key frame.iteration (.holder holder)
    generalize putDurable _ d key frame.iteration (.holder holder) = engine at hwritten hstd
    have hlim : engine.limits = s.limits := hstd.limits_eq
    -- the owner is looked for in the namespace, and that walk may come to nothing
    cases howner : passOnToOwner engine slot (.holder holder) d id (within levels s.frames) with
    | error fault =>
      refine .inr (.inr (.inr ?_))
      have hclean := passOnToOwner_fault hwritten.ns_eq
        (fun entry hmem => hs.frames_held entry (mem_of_mem_within hmem)) howner
      unfold passOnToOwner at howner
      split at howner
      · rename_i gap _
        cases howner
        exact ⟨gap, hclean.2 rfl, rfl⟩
      · obtain ⟨e', hok, _⟩ := passOnTo_ok hwritten (hlim ▸ hhops) slot holder (Option.bind _ _)
        rw [hok] at howner
        cases howner
    | ok passed =>
      obtain ⟨owner, _, howner⟩ := passOnToOwner_ok howner
      obtain ⟨e', hok, hpass, hpassedLimits⟩ :=
        passOnTo_ok hwritten (hlim ▸ hhops) slot holder (owner.bind _)
      obtain rfl := Except.ok.inj (hok.symm.trans howner)
      have hhops' : 0 < e'.limits.maxPointerHops := by
        rw [hpassedLimits, hlim]
        exact hhops
      obtain ⟨last, hlast, _⟩ := passOnTo_ok hpass hhops' slot holder
        (containerPointer e'.store key (within levels s.frames))
      simp only [hlast]
      exact .inl ⟨slot, rfl⟩

theorem putWithin_unchained (hs : s.Fit ns rest) (hdir : s.engine.Direct ns)
    (hhops : 0 < s.limits.maxPointerHops) {key : String} {holder : Holder} {levels : Option Nat}
    (h : (s.putWithin key holder levels).1 = .error fault) : fault.isChain = false := by
  rcases putWithin_outcome hs hdir hhops key holder levels with
    ⟨slot, hok⟩ | ⟨_, hempty⟩ | ⟨gap, _, hunknown⟩ | ⟨gap, _, hbroken⟩
  · cases hok.symm.trans h
  · rw [hempty] at h
    exact Except.error.inj h ▸ rfl
  · rw [hunknown] at h
    exact Except.error.inj h ▸ rfl
  · exact Except.error.inj (hbroken.symm.trans h) ▸ rfl

/-! ## 4. Evaluating -/

theorem preparePush_unchained (hs : s.Fit ns rest)
    (h : s.preparePush definition args = .error fault) : fault.isChain = false := by
  rcases preparePush_error hs.top_live h with rfl | hcan | rfl
  · rfl
  · rcases canonical_error hcan with rfl | ⟨_, _, rfl⟩ <;> rfl
  · rfl

theorem push_unchained (hs : s.Fit ns rest) {newCall : Bool}
    (h : (s.push definition args newCall).1 = .error fault) : fault.isChain = false := by
  unfold push at h
  split at h
  · rename_i cause hprep
    cases h
    exact preparePush_unchained hs hprep
  · unfold pushBound Fault.ofWalk at h
    simp only at h
    split at h
    · cases h
    · cases h
      rfl

theorem repush_unchained (h : s.repush = .error fault) : fault.isChain = false := by
  unfold repush at h
  split at h
  · cases h
    rfl
  · rcases bind_eq_error.mp h with hlive | ⟨frame, _, h⟩
    · exact liveFrame_unchained hlive
    · split at h <;> cases h
      rfl

/-- The accounts are in order, no table holds a pointer, and pointers may be followed. -/
structure Direct (ns : Namespace) (rest : List Stack) (s : Session) : Prop where
  fit : s.Fit ns rest
  lodged : s.Upheld (.lodging ns)
  hops : 0 < s.limits.maxPointerHops

theorem Direct.engine (h : s.Direct ns rest) : s.engine.Direct ns := h.lodged.engine.toDirect

theorem Direct.after (hks : s.Upholds (.lodging ns) ns rest s') (hmoves : s.Moves s')
    (h : s.Direct ns rest) : s'.Direct ns rest := by
  obtain ⟨hfit, hlodged, _⟩ := hks h.fit h.lodged
  exact ⟨hfit, hlodged, hmoves.kin.limits_eq ▸ h.hops⟩

theorem direct_tracks (ns : Namespace) (rest : List Stack) :
    Tracks fun s s' => s.Direct ns rest → s'.Direct ns rest := by
  have hU : Tracks (Upholds (.lodging ns) ns rest) := upholds_tracks (Upkeep.lodging_open ns)
  have hM := moves_track
  exact {
    refl := fun _ => id
    trans := fun h h' => h' ∘ h
    lookup := fun s r => .after (hU.lookup s r) (hM.lookup s r)
    put := fun s target holder => .after (hU.put s target holder) (hM.put s target holder)
    push := fun s id args newCall =>
      .after (hU.push s id args newCall) (hM.push s id args newCall)
    pop := fun h => .after (hU.pop h) (hM.pop h)
    unpush := fun h => .after (hU.unpush h) (hM.unpush h)
    repush := fun h => .after (hU.repush h) (hM.repush h)
    startIteration := fun h => .after (hU.startIteration h) (hM.startIteration h)
    setIteration := fun s iteration =>
      .after (hU.setIteration s iteration) (hM.setIteration s iteration)
    putValue := fun h => .after (hU.putValue h) (hM.putValue h)
    count := fun s => .after (hU.count s) (hM.count s) }

/-- The fault is not that of a chain of pointers. -/
def Unchained (fault : EvalFault) : Prop := ∀ cause, fault = .stack cause → cause.isChain = false

theorem unchained_stack (h : fault.isChain = false) : Unchained (.stack fault) := by
  rintro _ ⟨⟩
  exact h

theorem direct_fallible (ns : Namespace) (rest : List Stack) :
    Fallible (Direct ns rest) Unchained where
  tracks := direct_tracks ns rest
  lookup r h _ hflt :=
    unchained_stack (find_unchained h.engine h.hops ((lookup_result _ r).symm.trans hflt))
  put _ _ h _ hflt := unchained_stack (putWithin_unchained h.fit h.engine h.hops hflt)
  push _ _ _ h _ hflt := unchained_stack (push_unchained h.fit hflt)
  pop h _ hflt := unchained_stack (top_bind_fault h.fit hflt ▸ rfl)
  unpush h _ hflt := unchained_stack (top_bind_fault h.fit hflt ▸ rfl)
  repush _ _ hflt := unchained_stack (repush_unchained hflt)
  startIteration h _ hflt := unchained_stack (top_bind_fault h.fit hflt ▸ rfl)
  putValue _ _ h _ hflt := unchained_stack (top_bind_fault h.fit hflt ▸ rfl)
  walk _ := unchained_stack rfl
  underflow := unchained_stack rfl
  undefined _ := unchained_stack rfl
  redirect _ := unchained_stack rfl
  own h := fun cause hcause => absurd hcause (h cause)

theorem evaluateWithin_unchained (hs : s.Direct ns rest) {fuel : Nat} {call : Call}
    {evaluator : Evaluator} {cause : Fault} {run : Run}
    (h : evaluateWithin fuel call ⟨s, evaluator⟩ = some (.error (.stack cause), run)) :
    cause.isChain = false := by
  have hends := (failsBy_within (direct_fallible ns rest) fuel).call call ⟨s, evaluator⟩ _ run hs h
  exact hends.2 _ rfl cause rfl

/-! ## 5. Reachable workspaces -/

/-- Nothing that is asked of the stack fails for a chain of pointers. -/
structure MeetsNoChain (s : Session) : Prop where
  lookup : ∀ r fault, (s.lookup r).1 = .error fault → fault.isChain = false
  putWithin : ∀ key holder levels fault, (s.putWithin key holder levels).1 = .error fault →
    fault.isChain = false
  put : ∀ key holder fault, (s.put key holder).1 = .error fault → fault.isChain = false
  evaluate : ∀ fuel call evaluator cause run,
    evaluateWithin fuel call ⟨s, evaluator⟩ = some (.error (.stack cause), run) →
      cause.isChain = false

/-- A put is done whole or not at all. -/
structure PutsWhole (ns : Namespace) (s : Session) : Prop where
  /-- On a stack with frames, a value of a definition of the namespace is put. -/
  succeeds : ns.Closed → 0 < s.stack.size → ∀ key holder levels, holder.nominal < ns.size →
    ∃ slot, (s.putWithin key holder levels).1 = .ok slot
  unchanged : ns.Closed → ∀ key holder levels fault,
    (s.putWithin key holder levels).1 = .error fault → (s.putWithin key holder levels).2 = s
  /-- Whatever the namespace is like, nothing but a dangling reference is in the way. -/
  dangling : 0 < s.stack.size → ∀ key holder levels fault,
    (s.putWithin key holder levels).1 = .error fault → ∃ gap, fault = .danglingReference gap

theorem Direct.meetsNoChain (h : s.Direct ns rest) : s.MeetsNoChain where
  lookup r _ hflt := find_unchained h.engine h.hops ((lookup_result s r).symm.trans hflt)
  putWithin _ _ _ _ hflt := putWithin_unchained h.fit h.engine h.hops hflt
  put _ _ _ hflt := putWithin_unchained h.fit h.engine h.hops hflt
  evaluate _ _ _ _ _ hflt := evaluateWithin_unchained h hflt

theorem Direct.putsWhole (h : s.Direct ns rest) : s.PutsWhole ns where
  succeeds hcl hsize key holder levels hknown := by
    obtain ⟨id, frame, htop, _⟩ := h.fit.top_frame hsize
    obtain ⟨d, hd, _⟩ := Namespace.find_of_lt hknown
    rcases putWithin_outcome h.fit h.engine h.hops key holder levels with
      hok | ⟨hempty, _⟩ | ⟨gap, hunknown, _⟩ | ⟨_, hbroken, _⟩
    · exact hok
    · cases htop.symm.trans hempty
    · cases hd.symm.trans hunknown
    · exact absurd hcl hbroken
  unchanged hcl key holder levels fault hflt := by
    rcases putWithin_outcome h.fit h.engine h.hops key holder levels with
      ⟨slot, hok⟩ | ⟨_, hput⟩ | ⟨gap, _, hput⟩ | ⟨_, hbroken, _⟩
    · cases hok.symm.trans hflt
    · rw [hput]
    · rw [hput]
    · exact absurd hcl hbroken
  dangling hsize key holder levels fault hflt := by
    obtain ⟨id, frame, htop, _⟩ := h.fit.top_frame hsize
    rcases putWithin_outcome h.fit h.engine h.hops key holder levels with
      ⟨slot, hok⟩ | ⟨hempty, _⟩ | ⟨gap, _, hput⟩ | ⟨gap, _, hput⟩
    · cases hok.symm.trans hflt
    · cases htop.symm.trans hempty
    · rw [hput] at hflt
      exact ⟨gap, (Except.error.inj hflt).symm⟩
    · exact ⟨gap, Except.error.inj (hflt.symm.trans hput)⟩

end Session

namespace Workspace

variable {limits : Limits} {w : Workspace}

theorem Reachable.direct {name : String} (h : Reachable ns limits w)
    (hhops : 0 < limits.maxPointerHops) (hs : w.session? name = some s) :
    ∃ rest, s.Direct ns rest := by
  obtain ⟨rest, hfit⟩ := h.fit hs
  exact ⟨rest, hfit, (h.lodged.session hs).1, h.limits_eq hs ▸ hhops⟩

/-- **No table ever holds a pointer.** Whatever was done to a workspace, no table has a pointer in any
    of its slots. So a pointer is followed in one step, nothing fails for a chain of pointers that is
    too long, and a put is done whole or not at all: on a stack with frames it succeeds. -/
theorem pointers_end_at_once (h : Reachable ns limits w) :
    (∀ t key p, w.engine.store.get? t key ≠ some (.pointer p)) ∧
      (0 < limits.maxPointerHops →
        (∀ iteration p, w.engine.store.chase iteration limits.maxPointerHops p = .ok (p, 1)) ∧
        ∀ name s, w.session? name = some s → s.MeetsNoChain ∧ s.PutsWhole ns) := by
  have hdirect : w.engine.Direct ns := h.lodged.engine.toDirect
  refine ⟨fun t key p => hdirect.no_pointer, fun hhops => ⟨fun iteration p => ?_, ?_⟩⟩
  · exact hdirect.chase_eq iteration hhops p
  · intro name s hs
    obtain ⟨rest, hsession⟩ := h.direct hhops hs
    exact ⟨hsession.meetsNoChain, hsession.putsWhole⟩

/-- A shelf that keeps its label under two names. -/
def shelving : Namespace where
  definitions := #[
    { name := "shelf", fullName := "shelf", children := Dictionary.empty.insert "label" 1
      keeps := [{ target := "label", aliasName := some "tag" }] },
    { name := "label", fullName := "shelf.label", owner := some 0 }]
  roots := Dictionary.empty.insert "shelf" 0

/-- A stack with the shelf for its only frame. -/
def shelved : Session := (Session.push ⟨.new shelving {}, .new 0 {}, {}⟩ 0 [] true).2

theorem pointers_end_at_once_shelved :
    ∃ w, Reachable shelving {} w ∧ w.session? "main" = some shelved ∧
      (∃ p, shelved.topFrame?.bind (·.keepPointer? shelved.store "tag") = some p ∧
        w.engine.store.chase none 10 p = .ok (p, 1)) ∧
      ∃ slot, (shelved.putWithin "tag" (.of 1 [] (some (.text "Novels"))) none).1 = .ok slot := by
  obtain ⟨w, hw, hs⟩ : ∃ w, Reachable shelving {} w ∧ w.session? "main" = some shelved :=
    reachable_of_moves (.single (.push 0 [] true))
  obtain ⟨_, hpointers⟩ := pointers_end_at_once hw
  obtain ⟨hchase, hstacks⟩ := hpointers (by decide)
  have hwhole := (hstacks "main" shelved hs).2
  have hclosed : shelving.Closed := Namespace.closed_of_isClosed (by decide +kernel)
  obtain ⟨p, hp⟩ : ∃ p, shelved.topFrame?.bind (·.keepPointer? shelved.store "tag") = some p :=
    Option.isSome_iff_exists.mp (by decide +kernel)
  exact ⟨w, hw, hs, ⟨p, hp, hchase none p⟩,
    hwhole.succeeds hclosed (by decide +kernel) _ _ _ (by decide)⟩

end Workspace

end KeepTree
