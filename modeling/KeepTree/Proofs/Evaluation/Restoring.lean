import KeepTree.Proofs.Evaluation.Discipline
import KeepTree.Proofs.Session.Restoring
import KeepTree.Proofs.Workspace.Reachable

/-!
# Evaluation leaves the stack as it was

However an evaluation ends, with a value or with a fault, the stack is what it was: its height, its
top, the frames set aside and each frame down to the bottom, with its definition, its arguments,
its loop iteration and the number of the next one. The evaluator's two lists are what they were,
too. In particular a frame that an evaluation steps out of can be stepped back into.

* `Workspace.evaluation_restores` -- **the stack is left as it was**.
-/

namespace KeepTree

open KeepTree.Frame Fault

variable {ns : Namespace} {s s' : Session} {rest : List Stack} {fault : Fault} {α : Type}
  {store : Store} {iter : Option Nat} {limit : Nat} {entry : Entry} {r : Request} {e : Engine}
  {written : Location} {reach frames : List (FrameId × Frame)} {d : Definition}
  {definition id : DefId} {args : List Argument} {newCall : Bool}

/-! ## 1. Clean faults -/

/-- The frames are as the stack knows them, and a reference dangles only if the namespace does not
    hold all that it refers to. -/
def Fault.Clean (ns : Namespace) (fault : Fault) : Prop :=
  fault.isBroken = false ∧ (fault.isDangling = true → ¬ ns.Closed)

namespace Fault

theorem clean_dangling {gap : Dangling} (h : ¬ ns.Closed) :
    (danglingReference gap).Clean ns := ⟨rfl, fun _ => h⟩

theorem clean_pointerChainTooLong (key : String) (limit : Nat) :
    (pointerChainTooLong key limit).Clean ns := ⟨rfl, nofun⟩

end Fault

theorem Store.writeThrough_fault {p : Pointer}
    (h : store.writeThrough iter limit p entry = .error fault) :
    ∃ key, fault = .pointerChainTooLong key limit := by
  unfold writeThrough at h
  split at h
  · cases h
  · exact ⟨_, (Except.error.inj h).symm⟩

namespace Session

theorem Fit.frames_held (hs : s.Fit ns rest) : ∀ entry ∈ s.frames, entry.2.definition < ns.size :=
  fun entry hmem => hs.held entry.1 entry.2 (Pool.get?_of_mem_chain hmem)

/-! ### Looking up -/

theorem reached_ok (hcl : ns.Closed) (origin : DefId) (r : Request) :
    ∀ frames : List (FrameId × Frame), (∀ entry ∈ frames, entry.2.definition < ns.size) →
      (reached ns origin r frames).2 = .ok ()
  | [], _ => rfl
  | (id, frame) :: rest, hheld => by
    have hfr : frame.definition < ns.size := hheld (id, frame) List.mem_cons_self
    have hrest := reached_ok hcl origin r rest fun entry hmem =>
      hheld entry (List.mem_cons_of_mem _ hmem)
    have hends : ∃ answer, endsAt ns origin r frame = .ok answer := by
      simp only [endsAt]
      split
      · exact ⟨true, rfl⟩
      · exact hcl.hasChild hfr _ _
    obtain ⟨answer, hends⟩ := hends
    unfold reached
    cases answer with
    | true => simp only [hends]
    | false => simp only [hends, hrest]

theorem resolve_fault {origin : DefId} (h : (s.resolve origin r entry iter).1 = .error fault) :
    fault.Clean ns := by
  unfold resolve at h
  split at h
  · split at h
    · cases h
    · cases h
    · rw [← Except.error.inj h]
      exact clean_pointerChainTooLong _ _
  · cases h

theorem search_fault {origin : DefId} {r : Request} : ∀ entries : List (Entry × Option Nat),
    (s.search origin r entries).1 = .error fault → fault.Clean ns
  | [], h => by cases h
  | (entry, iter) :: rest, h => by
    unfold search at h
    split at h
    · exact search_fault rest h
    · exact resolve_fault h

theorem find_of_no_top (h : s.topFrame? = none) : s.find r =
    (match s.stack.top with
      | none => .ok none
      | some id => .error (.staleFrame id), 0) := by
  unfold find
  cases htop : s.stack.top with
  | none => rfl
  | some id =>
    have hgone : s.frame? id = none := by simpa [topFrame?, htop] using h
    simp only [liveFrame, hgone]

section

variable {frame holding : Frame} {before after : List Frame} {value : Value}
  (hfr : s.topFrame? = some frame)
include hfr

theorem find_of_top (r : Request) : s.find r =
    match s.search frame.definition r (s.candidates r frame) with
      | (.ok none, hops) => (s.searchEnding r frame.definition, hops)
      | found => found := by
  obtain ⟨id, htop, hf⟩ := Option.bind_eq_some_iff.mp hfr
  have hlive : s.liveFrame id = .ok frame := by rw [liveFrame, hf]
  simp only [find, htop]
  exact hlive ▸ rfl

/-- The first frame in reach that has an entry for the key answers, if the entry yields a value. -/
theorem find_first (hglob : r.globalKey = none)
    (hreached : (reached s.ns frame.definition r s.frames).1 = before ++ holding :: after)
    (hbefore : ∀ f ∈ before, entryIn s.store r.key f = none)
    (hent : entryIn s.store r.key holding = some entry)
    (hrsv : (s.resolve frame.definition r entry holding.iteration).1 = .ok (some value)) :
    s.find r = s.resolve frame.definition r entry holding.iteration := by
  have hcands : s.candidates r frame = (entry, holding.iteration) ::
      after.filterMap fun f => (entryIn s.store r.key f).map (·, f.iteration) := by
    have hnone : before.filterMap (fun f => (entryIn s.store r.key f).map (·, f.iteration)) = [] :=
      List.filterMap_eq_nil_iff.mpr fun f hmem => by rw [hbefore f hmem]; rfl
    rw [candidates, durableCandidates, hglob, frameCandidates, hreached, List.filterMap_append,
      hnone, List.filterMap_cons, hent]
    rfl
  rw [find_of_top hfr, hcands, search]
  cases hfd : s.resolve frame.definition r entry holding.iteration with
  | mk result hops =>
    rw [hfd] at hrsv
    obtain rfl : result = .ok (some value) := hrsv
    rfl

theorem find_in_top (hs : s.Fit ns rest) (hglob : r.globalKey = none)
    (hent : entryIn s.store r.key frame = some entry)
    (hrsv : (s.resolve frame.definition r entry frame.iteration).1 = .ok (some value)) :
    s.find r = s.resolve frame.definition r entry frame.iteration := by
  obtain ⟨id, htop, hf⟩ := Option.bind_eq_some_iff.mp hfr
  obtain ⟨more, hmore⟩ : ∃ more, (reached s.ns frame.definition r s.frames).1 = frame :: more := by
    rw [frames_cons hs.sound htop hf, reached]
    split <;> exact ⟨_, rfl⟩
  exact find_first hfr hglob hmore (List.forall_mem_nil _) hent hrsv

end

/-- **A search fails cleanly.** -/
theorem find_clean (hs : s.Fit ns rest) (h : (s.find r).1 = .error fault) : fault.Clean ns := by
  unfold find at h
  cases htop : s.stack.top with
  | none => simp only [htop] at h; cases h
  | some id =>
    obtain ⟨frame, hf⟩ := hs.top_live id htop
    simp only [htop, liveFrame, hf] at h
    split at h
    · -- no entry yields a value: the search fails if it is not known where it ends
      simp only [searchEnding] at h
      cases hending : (reached s.ns frame.definition r s.frames).2 with
      | ok _ => simp [hending, Except.map, ofWalk] at h
      | error gap =>
        simp only [hending, Except.map, ofWalk, Except.error.injEq] at h
        rw [← h]
        refine clean_dangling fun hcl => ?_
        have hok := reached_ok hcl frame.definition r s.frames hs.frames_held
        rw [hs.ns_eq, hok] at hending
        cases hending
    · exact search_fault _ h

theorem lookup_result (s : Session) (r : Request) : (s.lookup r).1 = (s.find r).1 := by
  unfold lookup
  simp only
  split
  · rename_i h
    rw [h]
  · rename_i h
    rw [h]

/-! ### Putting -/

theorem top_fault (hs : s.Fit ns rest) (h : s.top = .error fault) : fault = .stackUnderflow := by
  rcases top_cases hs.top_live with ⟨_, htop⟩ | ⟨_, _, _, _, htop⟩
  · exact (Except.error.inj (htop.symm.trans h)).symm
  · rw [htop] at h
    cases h

theorem top_bind_fault {f : FrameId × Frame → α} (hs : s.Fit ns rest)
    (h : (s.top >>= fun top => .ok (f top)) = .error fault) : fault = .stackUnderflow := by
  rcases bind_eq_error.mp h with htop | ⟨_, _, ⟨⟩⟩
  exact top_fault hs htop

theorem putInFrame_fault {frame : Frame} {key : String}
    (h : putInFrame store limit frame key entry = .error fault) : fault.Clean ns := by
  unfold putInFrame at h
  split at h
  · obtain ⟨key', rfl⟩ := Store.writeThrough_fault h
    exact clean_pointerChainTooLong key' limit
  · simp only at h
    split at h
    · obtain ⟨key', rfl⟩ := Store.writeThrough_fault h
      exact clean_pointerChainTooLong key' limit
    · cases h

theorem passOnTo_fault {target : Option (Frame × Pointer)}
    (h : passOnTo e written entry target = .error fault) : fault.Clean ns := by
  unfold passOnTo at h
  split at h
  · cases h
  · have hpass := map_eq_error.mp h
    unfold passOn at hpass
    split at hpass
    · cases hpass
    · obtain ⟨key, rfl⟩ := Store.writeThrough_fault (map_eq_error.mp hpass)
      exact clean_pointerChainTooLong key _

theorem nearestOf_ok (hcl : ns.Closed) (owner : DefId) : ∀ reach : List (FrameId × Frame),
    (∀ entry ∈ reach, entry.2.definition < ns.size) → ∃ found, nearestOf ns owner reach = .ok found
  | [], _ => ⟨none, rfl⟩
  | (id, frame) :: rest, hheld => by
    obtain ⟨answer, hanswer⟩ := hcl.inherits (hheld (id, frame) List.mem_cons_self) owner
    unfold nearestOf
    cases answer with
    | true => exact ⟨_, by simp only [hanswer]; rfl⟩
    | false =>
      simp only [hanswer]
      exact nearestOf_ok hcl owner rest fun entry hmem =>
        hheld entry (List.mem_cons_of_mem _ hmem)

theorem ownerFrame_ok (hcl : ns.Closed) (d : Definition)
    (hheld : ∀ entry ∈ reach, entry.2.definition < ns.size) :
    ∃ found, ownerFrame ns d reach = .ok found := by
  unfold ownerFrame
  split
  · exact ⟨_, rfl⟩
  · exact ⟨_, rfl⟩
  · exact nearestOf_ok hcl _ reach hheld

theorem passOnToOwner_fault {top : FrameId} (hns : e.ns = ns)
    (hheld : ∀ entry ∈ reach, entry.2.definition < ns.size)
    (h : passOnToOwner e written entry d top reach = .error fault) : fault.Clean ns := by
  unfold passOnToOwner at h
  split at h
  · rename_i gap howner
    rw [← Except.error.inj h]
    refine clean_dangling fun hcl => ?_
    obtain ⟨found, hfd⟩ := ownerFrame_ok hcl d hheld
    rw [hns, hfd] at howner
    cases howner
  · exact passOnTo_fault h

theorem mem_of_mem_within {levels : Option Nat} {entry : FrameId × Frame}
    (h : entry ∈ within levels frames) : entry ∈ frames := by
  unfold within at h
  split at h
  · exact List.mem_of_mem_take h
  · exact h

/-- **Putting a value fails cleanly** if a closed namespace holds its definition. -/
theorem put_clean (hs : s.Fit ns rest) {target : String} {holder : Holder}
    (hheld : ns.Closed → holder.nominal < ns.size)
    (h : (s.put target holder).1 = .error fault) : fault.Clean ns := by
  unfold put putWithin at h
  split at h
  · rename_i fault' _ htop
    rw [← Except.error.inj h, top_fault hs htop]
    exact ⟨rfl, nofun⟩
  · rename_i gap hfind _
    rw [← Except.error.inj h]
    refine clean_dangling fun hcl => ?_
    obtain ⟨d, hd, _⟩ := Namespace.find_of_lt (hheld hcl)
    rw [hs.ns_eq, hd] at hfind
    cases hfind
  · rename_i top frame d _ _
    simp only at h
    split at h
    · rename_i fault' hput
      rw [← Except.error.inj h]
      exact putInFrame_fault hput
    · rename_i written store _
      have hstd := ((Engine.Steady.refl s.engine).withStore store).trans
        (putDurable_steady _ d target frame.iteration (.holder holder))
      split at h
      · rename_i fault' howner
        rw [← Except.error.inj h]
        exact passOnToOwner_fault (hstd.ns_eq.trans hs.ns_eq)
          (fun entry hmem => hs.frames_held entry (mem_of_mem_within hmem)) howner
      · split at h
        · rename_i fault' hcontainer
          rw [← Except.error.inj h]
          exact passOnTo_fault hcontainer
        · cases h

/-! ### Pushing -/

theorem registerKeeps_ok (hcl : ns.Closed) (below : Option KeepMapId) :
    ∀ (keeps : List Keep) {e : Engine} {frame : Frame}, e.ns = ns →
      frame.definition < ns.size → (e.registerKeeps frame below keeps).1 = .ok ()
  | [], _, _, _, _ => rfl
  | keep :: rest, e, frame, hns, hheld => by
    obtain ⟨found, hfd⟩ := hcl.keepTargets hheld keep
    have hkeep : e.registerKeep frame keep below = .ok (found.map fun target =>
        e.keepTarget frame keep below target.1 target.2) := by
      rw [Engine.registerKeep, hns, hfd]
      rfl
    unfold Engine.registerKeeps
    rw [hkeep]
    cases found with
    | none => exact registerKeeps_ok hcl below rest hns hheld
    | some target =>
      obtain ⟨hstd, containers, hfr⟩ :=
        Engine.keepTarget_effect e frame keep below target.1 target.2
      have hdef := congrArg Frame.definition hfr
      exact registerKeeps_ok hcl below rest (hstd.ns_eq.trans hns) (hdef ▸ hheld)

theorem frameFor_ok (hcl : ns.Closed) (hns : s.ns = ns) {bound : Bound}
    (hd : s.ns.get? bound.definition = some d) (prev : Option Frame) (newCall : Bool) :
    (s.frameFor bound d prev newCall).1 = .ok () := by
  have hheld : bound.definition < ns.size := hns ▸ Namespace.lt_of_get? hd
  have hhome := homeFor_steady s bound.definition d prev
  rw [frameFor_eq]
  simp only
  split
  · rfl
  · refine registerKeeps_ok hcl _ d.keeps ?_ hheld
    exact (hhome.withStore _).ns_eq.trans hns

theorem preparePush_clean (hs : s.Fit ns rest) (hheld : ns.Closed → definition < ns.size)
    (h : s.preparePush definition args = .error fault) : fault.Clean ns := by
  rcases preparePush_error hs.top_live h with rfl | hcan | rfl
  · exact ⟨rfl, nofun⟩
  · rcases canonical_error hcan with rfl | ⟨gap, hrsv, rfl⟩
    · exact ⟨rfl, nofun⟩
    · refine clean_dangling fun hcl => ?_
      rw [hs.ns_eq] at hrsv
      exact hcl.resolveWithin s.topDefinition? _ (hheld hcl) gap hrsv
  · exact ⟨rfl, nofun⟩

/-- **A push fails cleanly, and then changes nothing**, unless a reference dangles. -/
theorem push_clean (hs : s.Fit ns rest) (hheld : ns.Closed → definition < ns.size)
    (h : s.push definition args newCall = (.error fault, s')) :
    fault.Clean ns ∧ (fault.isDangling = false → s' = s) := by
  unfold push at h
  split at h
  · rename_i fault' hprep
    obtain ⟨hflt, rfl⟩ := Prod.mk.inj h
    obtain rfl := Except.error.inj hflt
    exact ⟨preparePush_clean hs hheld hprep, fun _ => rfl⟩
  · rename_i bound d prev hprep
    have hkept : ofWalk (s.frameFor bound d prev newCall).1 = .error fault := congrArg Prod.fst h
    obtain ⟨_, hd, _⟩ := preparePush_ok hprep
    cases hres : (s.frameFor bound d prev newCall).1 with
    | ok _ =>
      rw [hres] at hkept
      cases hkept
    | error gap =>
      rw [hres] at hkept
      obtain rfl := Except.error.inj hkept
      refine ⟨clean_dangling fun hcl => ?_, nofun⟩
      rw [frameFor_ok hcl hs.ns_eq hd] at hres
      cases hres

end Session

/-! ## 2. The discipline -/

/-- Calls leave the stack as it was; a body may have run iterations in the top frame, and a loop
    may be in one. -/
def Discipline.restoring (ns : Namespace) (rest : List Stack) : Discipline where
  ns := ns
  inv := Session.Fit ns rest
  may
    | .call => Session.Same bare
    | .frame => Session.Same uncounted
    | .loop => Session.Same unlooped
  loops _ := True
  dangles := ¬ ns.Closed

namespace Discipline

variable {run : Run}

open Session

theorem restoring_fine_of_quiet {engine : Engine} {result : Except Fault α}
    (hinv : run.session.Fit ns rest) (hquiet : run.session.engine.Steady engine)
    (hs' : s' = run.session.withEngine engine)
    (hflt : ∀ fault, result = .error fault → fault.Clean ns) :
    (restoring ns rest).Fine .call run (result.mapError .stack) (run.on s') := by
  subst hs'
  have hfit := (Effect.quiet hquiet).fit hinv
  have hsame := same_of_quiet hquiet bare
  cases result with
  | ok a => exact .value hfit hsame rfl
  | error fault =>
    obtain ⟨hbroken, hdang⟩ := hflt fault rfl
    by_cases h : fault.isDangling = true
    · exact .dangling h (hdang h)
    · exact .fault (Bool.eq_false_iff.mpr h) hbroken hfit hsame rfl

theorem refers_lt (h : ns.Refers id) (hcl : ns.Closed) : id < ns.size := by
  cases h with
  | @named inside name h =>
    obtain ⟨found, hfd, hheld⟩ := hcl.lookupFrom inside name
    rw [h] at hfd
    cases hfd
    exact hheld id rfl
  | super hd hsuper => exact hcl.superdefinition hd hsuper

theorem fine_of_push_error {D : Discipline} (hfit : run.session.Fit ns rest) (hid : ns.Refers id)
    (h : run.session.push id args newCall = (.error fault, s'))
    (hdangles : ¬ ns.Closed → D.dangles) (hleads : D.Leads .call run run) :
    D.Fine (α := α) .call run (.error (.stack fault)) (run.on s') := by
  obtain ⟨⟨hbroken, hdang⟩, hs'⟩ := push_clean hfit (refers_lt hid) h
  by_cases hd : fault.isDangling = true
  · exact .dangling hd (hdangles (hdang hd))
  · have hd := Bool.eq_false_iff.mpr hd
    rw [hs' hd]
    exact hleads.fault hd hbroken

/-- **Every operation leaves the stack as it may.** -/
theorem restoring_lawful (ns : Namespace) (rest : List Stack) : (restoring ns rest).Lawful where
  ns_eq hinv := hinv.ns_eq
  refl := fun {l s} => by cases l <;> exact Same.refl _ s
  trans := fun {l s s' s''} h h' => by cases l <;> exact Same.trans h h'
  call_frame h := h.coarsen uncounted_plain.bare
  frame_loop h := h.coarsen unlooped_of_uncounted
  loops_kept _ _ := trivial
  walk := fun {inside name gap} h hcl => by
    obtain ⟨found, hfd, _⟩ := hcl.lookupFrom inside name
    cases hfd.symm.trans h
  lookup := fun {run} r hinv => by
    obtain ⟨engine, hstd, hs'⟩ := lookup_effect run.session r
    refine restoring_fine_of_quiet hinv hstd hs' fun fault hflt => ?_
    exact find_clean hinv (lookup_result run.session r ▸ hflt)
  put := fun {run start id holder} target _ hinv _ hid hnom _ => by
    obtain ⟨engine, hstd, hs'⟩ :=
      putWithin_effect run.session target holder run.session.limits.propagationLevels
    refine restoring_fine_of_quiet hinv hstd hs' fun fault hflt => ?_
    exact put_clean hinv (fun hcl => hnom ▸ refers_lt (.named hid) hcl) hflt
  count := fun {s} hinv => by
    have hquiet : s.engine.Steady (s.engine.count .computation) :=
      (Engine.Steady.refl s.engine).count (fun _ => rfl) fun _ => rfl
    exact ⟨(Effect.quiet hquiet).fit hinv, same_of_quiet hquiet bare⟩
  push := fun {run id args newCall s'} hinv hid h => by
    obtain ⟨bound, d, frame, engine, hprep, hframeFor, rfl⟩ := push_ok h
    obtain ⟨hstd, hfresh, _⟩ := frameFor_effect run.session bound d run.session.topFrame? newCall
    rw [hframeFor] at hstd hfresh
    exact
      { inv := (Effect.of_push h).fit hinv
        frame := ⟨frame, enter_topFrame? hinv.sound frame engine, fun _ => trivial⟩
        loops := fun _ => trivial
        back := fun hs' hmay => Same.pop hinv hfresh hstd hmay hs' }
  push_fault hinv hid h := fine_of_push_error hinv hid h id ⟨hinv, Same.refl _ _, rfl⟩
  unpush := fun {s} hinv hsize => by
    rcases top_cases hinv.top_live with ⟨htop, _⟩ | ⟨id, frame, htop, hf, _⟩
    · have hzero := hinv.sound.size_eq s.stack List.mem_cons_self
      rw [htop, Pool.height_none] at hzero
      omega
    · have hunp := unpush_eq htop hf
      refine ⟨_, hunp, (Effect.unpush hunp).fit hinv, ?_, fun hs' hmay => ?_⟩
      · show s.stack.size - 1 + 1 = s.stack.size
        omega
      · exact Same.repush hinv hsize htop hf hmay hs'
  startIteration := fun {s i s'} hinv _ h => by
    obtain ⟨id, frame, htop, hf, _, rfl⟩ := startIteration_effect h
    exact ⟨(Move.startIteration h).effect.fit hinv,
      (Same.refl unlooped s).set unlooped_plain htop hf hf rfl⟩
  startIteration_fault hinv h := top_bind_fault hinv h ▸ ⟨rfl, rfl⟩
  putValue := fun {s key value s'} hinv _ h => by
    obtain ⟨engine, hstd, rfl⟩ := putValue_effect h
    exact ⟨(Effect.quiet hstd).fit hinv, same_of_quiet hstd unlooped⟩
  putValue_fault hinv h := top_bind_fault hinv h ▸ ⟨rfl, rfl⟩
  setIteration := fun {s s'} hinv hs' hmay =>
    ⟨(setIteration_effect s' s.iteration?).fit hs', Same.setIteration hinv hmay⟩

end Discipline

/-! ## 3. Reachable sessions -/

theorem definition_lasting : Lasting Frame.definition where
  counts := Session.definition_ignoresCounts
  settled := fun {frame frame'} h =>
    show frame.settled.definition = frame'.settled.definition from congrArg Frame.definition h
  copy source sharing store := (Session.copy_like source sharing store).2.2.2.1

namespace Session

theorem branch_held (hs : s.Fit ns rest) (sharing : Bool) :
    ∀ id frame, (s.branch sharing).frame? id = some frame → frame.definition < ns.size := by
  cases htop : s.stack.top with
  | none =>
    rw [branch_empty sharing htop]
    exact hs.held
  | some top =>
    obtain ⟨source, hsource⟩ := hs.top_live top htop
    obtain ⟨copied, hpl, _, hcopied, hpool, _⟩ :=
      branch_placed definition_lasting hs.sound sharing htop hsource
    have hlinked := linkBelow_within definition_ignoresCounts hs.sound.accounted.tidy hpl
    intro id frame hf
    rw [frame?, hpool] at hf
    obtain ⟨found, hfd, _, hdef⟩ := hlinked id frame hf
    rw [← hdef]
    rcases Pool.get?_of_alloc hs.sound.accounted.tidy hfd with ⟨_, rfl⟩ | ⟨_, hfd⟩
    · exact hcopied ▸ hs.held top source hsource
    · exact hs.held id found hfd

theorem Change.held {members : List Stack} (h : Change Move s s' members) (hs : s.Fit ns rest) :
    ∀ id frame, s'.frame? id = some frame → frame.definition < ns.size := by
  cases h with
  | move h => exact (h.effect.fit hs).held
  | branch sharing => exact branch_held hs sharing
  | close => exact held_of_within (Pool.unpinAll_within definition_ignoresCounts _ _) hs.held

end Session

namespace Workspace

variable {ns : Namespace} {limits : Limits} {w : Workspace} {name : String} {s : Session}

theorem fit_kept (ns : Namespace) (limits : Limits) :
    Family.Kept Session.Move ns limits fun family members => family.Sound limits members ∧
      ∀ id frame, family.pool.get? id = some frame → frame.definition < ns.size where
  perm h hperm := ⟨h.1.perm hperm, h.2⟩
  start root := ⟨Family.sound_new root limits, fun id frame h => by
    simp [Family.new, Pool.get?] at h⟩
  change := fun {s s' members rest} hns hlim h hchange => by
    subst hns hlim
    have hfit : s.Fit s.ns rest := ⟨rfl, h.1, h.2⟩
    exact ⟨hchange.sound h.1, hchange.held hfit⟩

theorem session_fit {unnamed : List Seat} (hw : (w.roster unnamed).Reachable ns limits)
    (hs : w.session? name = some s) : ∃ rest, s.Fit ns rest := by
  have hfocus : Roster.Reachable ns limits _ := .tail hw (focus hw.numbered hs)
  obtain ⟨_, hfam, _⟩ := session?_eq_some hw.numbered hs
  exact ⟨_, hfocus.numbered.ns_eq, session_sound hw hs,
    (Roster.Acts.holds (fit_kept ns limits) hfocus hfam).2⟩

/-- **Every session of a reachable workspace is fit.** -/
theorem Reachable.fit (h : Reachable ns limits w) (hs : w.session? name = some s) :
    ∃ rest, s.Fit ns rest :=
  session_fit h.roster hs

/-- **Evaluation leaves the stack as it was.** Whatever is evaluated on a stack of a reachable
    workspace, by whatever evaluator, and whether it ends with a value or with a fault: the stack
    has the same height, the same top and the same frames set aside; all its frames, and all others
    that were alive, are what they were but for the counts of references: of the same definition,
    with the same arguments, in the same iteration and with the same next one. The calls in
    progress and the items bound are what they were. No fault is one of a dead frame, and from
    wherever below an argument is evaluated, all the frames that were stepped out of can be stepped
    back into. -/
theorem evaluation_restores (hw : Reachable ns limits w) (hns : ns.Closed)
    (hs : w.session? name = some s) (evaluator : Evaluator) (call : Call) (fuel : Nat)
    {outcome : Except EvalFault Value} {run : Run}
    (h : evaluateWithin fuel call ⟨s, evaluator⟩ = some (outcome, run)) :
    run.session.stack.size = s.stack.size ∧ run.session.stack.top = s.stack.top ∧
      run.session.stack.stash = s.stack.stash ∧
      run.session.view Frame.bare = s.view Frame.bare ∧
      (∀ id frame, s.frame? id = some frame →
        ∃ frame', run.session.frame? id = some frame' ∧ frame'.bare = frame.bare) ∧
      run.evaluator = evaluator ∧
      (∀ fault, outcome = .error fault → fault.isBroken = false ∧ fault.isDangling = false) ∧
      ∀ n, n < s.stack.size → ∃ out,
        Eval.times n (Eval.move Session.unpush) ⟨s, evaluator⟩ = some (.ok (), out) ∧
        ∀ argument outcome run, evaluateWithin fuel argument out = some (outcome, run) →
          ∃ back, Eval.times n (Eval.move Session.repush) run = some (.ok (), back) := by
  obtain ⟨rest, hfit⟩ := hw.fit hs
  have hlawful := Discipline.restoring_lawful ns rest
  have habides := abides_within hlawful fuel
  have hdangles : ¬ (Discipline.restoring ns rest).dangles := fun hopen => hopen hns
  have hstart : (Discipline.restoring ns rest).inv (Run.mk s evaluator).session := hfit
  obtain ⟨⟨hfit', hsame, heval⟩, hfault⟩ :=
    (habides.call call hstart outcome run h).leads_of_not_dangles hdangles
  refine ⟨hsame.size_eq, hsame.top_eq, hsame.stash_eq,
    hsame.view_eq Frame.bare_plain hfit hfit', fun id frame hf => ?_, heval, hfault, ?_⟩
  · obtain ⟨frame', hf', hbare, _⟩ := hsame.frames hf
    exact ⟨frame', hf', hbare⟩
  · intro n hn
    obtain ⟨out, hout, hinv, _, hback⟩ := hlawful.stepOut n hstart hn
    refine ⟨out, hout, fun argument outcome run hargument => ?_⟩
    have hfine := habides.call argument hinv outcome run hargument
    obtain ⟨back, hrepush, _⟩ := hback run (hfine.leads_of_not_dangles hdangles).1
    exact ⟨back, hrepush⟩

/-- A site in which `lend` hands the call `gift` to `take`, which evaluates it. -/
def lending : Namespace where
  definitions := #[
    { name := "site", fullName := "site", kind := .site, site := some 0
      children := ((Dictionary.empty.insert "take" 1).insert "lend" 2).insert "gift" 3 },
    { name := "take", fullName := "site.take", owner := some 0, site := some 0
      parameters := ["given"], body := .ref (.plain "given") },
    { name := "lend", fullName := "site.lend", owner := some 0, site := some 0
      body := .ref ⟨"take", [.call "gift" []]⟩ },
    { name := "gift", fullName := "site.gift", owner := some 0, site := some 0
      body := .literal (.text "book") }]
  roots := Dictionary.empty.insert "site" 0

/-- A stack with a frame for the site. -/
def inSite : Workspace :=
  let started := (Workspace.new lending {}).start "main"
  match started.session? "main" with
  | some s => started.put "main" (s.push 0 [] true).2
  | none => started

theorem inSite_reachable : Reachable lending {} inSite := by
  have hnew : Reachable lending {} (.new _ {}) := .new
  exact (hnew.step (.start "main")).step (@Step.move _ "main" _ _ rfl (.push 0 [] true))

/-- The argument is evaluated in the frame of `lend`, and the stack is as before. -/
theorem evaluation_restores_lending : Reachable lending {} inSite ∧ lending.Closed ∧
    ∃ s value run, inSite.session? "main" = some s ∧
      Run.evaluate ⟨s, {}⟩ (.plain "lend") = some (.ok value, run) ∧
      value.asText? = some "book" ∧ run.session.view Frame.bare = s.view Frame.bare := by
  have hclosed : lending.Closed := Namespace.closed_of_isClosed (by decide +kernel)
  have hbook : ((inSite.session? "main").bind fun s =>
      (Run.evaluate ⟨s, {}⟩ (.plain "lend")).bind fun (outcome, _) =>
        outcome.toOption.bind Value.asText?) = some "book" := by decide +kernel
  obtain ⟨s, hs, hbook⟩ := Option.bind_eq_some_iff.mp hbook
  obtain ⟨⟨outcome, run⟩, hrun, hbook⟩ := Option.bind_eq_some_iff.mp hbook
  obtain ⟨value, hvalue, hbook⟩ := Option.bind_eq_some_iff.mp hbook
  cases outcome with
  | error fault => cases hvalue
  | ok found =>
    obtain rfl := Option.some.inj hvalue
    obtain ⟨_, _, _, hview, _⟩ :=
      evaluation_restores inSite_reachable hclosed hs {} (.plain "lend") ampleFuel hrun
    exact ⟨inSite_reachable, hclosed, s, found, run, hs, hrun, hbook, hview⟩

end Workspace

end KeepTree
