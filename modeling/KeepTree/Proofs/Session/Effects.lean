import KeepTree.Evaluation.Run
import KeepTree.Proofs.Pool.Cells

/-!
# What a move does

A session changes by moves: its stack grows and shrinks, and its tables are read and written. This
file says once what a move can do to the family and the stack, so that an invariant of them is
proved from five effects and not from a dozen operations:

* `Move.effect` -- **every move has one of these effects**.
-/

namespace KeepTree

open Engine

variable {e e' : Engine} {frame frame' : Frame} {ε α β : Type} {fault : Fault} {keep : Keep}
  {below : Option KeepMapId} {definition : DefId} {arguments : List Argument} {bound : Bound}
  {d : Definition} {newCall added : Bool} {written : Location} {entry : Entry}
  {target : Option (Frame × Pointer)} {key : String} {value : Value} {x : Except ε α}

theorem bind_eq_ok {f : α → Except ε β} {b : β} :
    x >>= f = .ok b ↔ ∃ a, x = .ok a ∧ f a = .ok b := by
  cases x <;> simp [bind, Except.bind]

theorem map_eq_ok {f : α → β} {b : β} : x.map f = .ok b ↔ ∃ a, x = .ok a ∧ f a = b := by
  cases x <;> simp [Except.map]

theorem bind_eq_error {f : α → Except ε β} {fault : ε} :
    x >>= f = .error fault ↔ x = .error fault ∨ ∃ a, x = .ok a ∧ f a = .error fault := by
  cases x <;> simp [bind, Except.bind]

theorem map_eq_error {f : α → β} {fault : ε} : x.map f = .error fault ↔ x = .error fault := by
  cases x <;> simp [Except.map]

/-- Both fail, with faults that are related, or both succeed, with results that are. -/
inductive ExceptRel {ε α β : Type} (E : ε → ε → Prop) (R : α → β → Prop) :
    Except ε α → Except ε β → Prop
  | error {fault fault' : ε} : E fault fault' → ExceptRel E R (.error fault) (.error fault')
  | ok {a : α} {b : β} : R a b → ExceptRel E R (.ok a) (.ok b)

theorem ExceptRel.imp {E E' : ε → ε → Prop} {R R' : α → β → Prop} {y : Except ε β}
    (hE : ∀ {a b}, E a b → E' a b) (hR : ∀ {a b}, R a b → R' a b) (h : ExceptRel E R x y) :
    ExceptRel E' R' x y := by
  cases h with
  | error h => exact .error (hE h)
  | ok h => exact .ok (hR h)

theorem ExceptRel.refl {E : ε → ε → Prop} (x : Except ε α)
    (h : ∀ fault, x = .error fault → E fault fault) : ExceptRel E (· = ·) x x := by
  cases x with
  | error fault => exact .error (h fault rfl)
  | ok a => exact .ok rfl

theorem ExceptRel.eq {y : Except ε α} (h : ExceptRel (· = ·) (· = ·) x y) : x = y := by
  cases h with
  | error h => exact congrArg _ h
  | ok h => exact congrArg _ h

/-! ## 1. Engines -/

/-- Same namespace, same limits, and as many frames made and freed. -/
structure Engine.Steady (e e' : Engine) : Prop where
  ns_eq : e'.ns = e.ns
  limits_eq : e'.limits = e.limits
  allocated_eq : e'.counters.framesAllocated = e.counters.framesAllocated
  freed_eq : e'.counters.framesFreed = e.counters.framesFreed

namespace Engine

variable {e'' : Engine}

theorem Steady.refl (e : Engine) : e.Steady e := ⟨rfl, rfl, rfl, rfl⟩

theorem Steady.trans (h : e.Steady e') (h' : e'.Steady e'') : e.Steady e'' where
  ns_eq := h'.ns_eq.trans h.ns_eq
  limits_eq := h'.limits_eq.trans h.limits_eq
  allocated_eq := h'.allocated_eq.trans h.allocated_eq
  freed_eq := h'.freed_eq.trans h.freed_eq

theorem Steady.withStore (h : e.Steady e') (store : Store) : e.Steady (e'.withStore store) :=
  ⟨h.ns_eq, h.limits_eq, h.allocated_eq, h.freed_eq⟩

theorem Steady.count (h : e.Steady e') {f : Counters → Counters}
    (hallocated : ∀ c, (f c).framesAllocated = c.framesAllocated)
    (hfreed : ∀ c, (f c).framesFreed = c.framesFreed) : e.Steady (e'.count f) where
  ns_eq := h.ns_eq
  limits_eq := h.limits_eq
  allocated_eq := (hallocated _).trans h.allocated_eq
  freed_eq := (hfreed _).trans h.freed_eq

theorem siteTable_steady (e : Engine) (site : DefId) : e.Steady (e.siteTable site).2 := by
  unfold siteTable
  split
  · exact .refl e
  · exact ⟨rfl, rfl, rfl, rfl⟩

theorem durableTable_steady (e : Engine) (d : Definition) : e.Steady (e.durableTable d).2 := by
  unfold durableTable
  split
  · exact siteTable_steady e _
  · exact .refl e

theorem keepTarget_effect (e : Engine) (frame : Frame) (keep : Keep) (below : Option KeepMapId)
    (targetId : DefId) (aliasTarget : Option Binding) :
    e.Steady (e.keepTarget frame keep below targetId aliasTarget).2 ∧ ∃ containers,
    (e.keepTarget frame keep below targetId aliasTarget).1 = { frame with containers } := by
  unfold keepTarget
  simp only
  split
  · refine ⟨Steady.count ((durableTable_steady e _).withStore _) (fun _ => rfl) fun _ => rfl, ?_⟩
    exact ⟨frame.containers, rfl⟩
  · refine ⟨Steady.count ((Steady.refl e).withStore _) (fun _ => rfl) fun _ => rfl, ?_⟩
    unfold Frame.keepTable
    split
    · exact ⟨frame.containers, rfl⟩
    · split
      · exact ⟨frame.containers, rfl⟩
      · exact ⟨_, rfl⟩

theorem registerKeep_ok (h : e.registerKeep frame keep below = .ok (some (frame', e'))) :
    ∃ target aliasTarget, keepTargets e.ns frame.definition keep = .ok (some (target, aliasTarget)) ∧
      e.keepTarget frame keep below target aliasTarget = (frame', e') := by
  obtain ⟨found, hfd, hmap⟩ := map_eq_ok.mp h
  obtain ⟨⟨target, aliasTarget⟩, rfl, hkept⟩ := Option.map_eq_some_iff.mp hmap
  exact ⟨target, aliasTarget, hfd, hkept⟩

theorem registerKeep_effect (h : e.registerKeep frame keep below = .ok (some (frame', e'))) :
    e.Steady e' ∧ ∃ containers, frame' = { frame with containers } := by
  obtain ⟨target, aliasTarget, _, hkept⟩ := registerKeep_ok h
  have heff := keepTarget_effect e frame keep below target aliasTarget
  rwa [hkept] at heff

theorem registerKeeps_effect (below : Option KeepMapId) : ∀ (keeps : List Keep) (e : Engine)
    (frame : Frame), e.Steady (e.registerKeeps frame below keeps).2.2 ∧
      ∃ containers, (e.registerKeeps frame below keeps).2.1 = { frame with containers }
  | [], e, frame => ⟨.refl e, frame.containers, rfl⟩
  | keep :: rest, e, frame => by
    unfold registerKeeps
    split
    · exact ⟨.refl e, frame.containers, rfl⟩
    · rename_i frame' e' h
      obtain ⟨hstd, containers, rfl⟩ := registerKeep_effect h
      obtain ⟨hrest, containers', hfr⟩ := registerKeeps_effect below rest e' _
      exact ⟨hstd.trans hrest, containers', hfr⟩
    · exact registerKeeps_effect below rest e frame

end Engine

/-! ## 2. Frames -/

/-- The part of a frame that stays as it is while the frame is on a stack. -/
def Frame.settled (f : Frame) : Frame :=
  { f with containers := .empty, iteration := none, nextIteration := 0 }

/-- A frame to put on top of a stack. -/
structure Session.Fresh (s : Session) (frame : Frame) : Prop where
  previous_eq : frame.previous = s.stack.top
  links_eq : frame.links = 0
  pins_eq : frame.pins = 1
  state_eq : frame.state = s.family.clock + 1
  iteration_eq : frame.iteration = none
  nextIteration_eq : frame.nextIteration = 0

/-! ## 3. Moves -/

namespace Session

/-- One call of the library on a session. Most calls that fail change nothing. -/
inductive Move (s : Session) : Session → Prop
  | fail : Move s s
  | push (definition : DefId) (arguments : List Argument) (newCall : Bool) :
      Move s (s.push definition arguments newCall).2
  | pushCall (call : Call) (newCall : Bool) : Move s (s.pushCall call newCall).2
  | pop {s' : Session} : s.pop = .ok s' → Move s s'
  | unpush {s' : Session} : s.unpush = .ok s' → Move s s'
  | repush {s' : Session} : s.repush = .ok s' → Move s s'
  | startIteration {s' : Session} {index : Nat} : s.startIteration = .ok (index, s') → Move s s'
  | setIteration (iteration : Option Nat) : Move s (s.setIteration iteration)
  | addKeep {s' : Session} {keep : Keep} {added : Bool} : s.addKeep keep = .ok (added, s') →
      Move s s'
  | lookup (request : Request) : Move s (s.lookup request).2
  | putWithin (key : String) (holder : Holder) (levels : Option Nat) :
      Move s (s.putWithin key holder levels).2
  | putValue {s' : Session} {key : String} {value : Value} : s.putValue key value = .ok s' →
      Move s s'
  | computation : Move s (s.count .computation)

/-- What a move can do. -/
inductive Effect (s : Session) : Session → Prop
  | quiet {engine : Engine} : s.engine.Steady engine → Effect s (s.withEngine engine)
  | retouch {engine : Engine} {id : FrameId} {frame new : Frame} : s.engine.Steady engine →
      s.stack.top = some id → s.frame? id = some frame → new.settled = frame.settled →
      Effect s ((s.withEngine engine).withPool (s.family.pool.set id new))
  | push {frame : Frame} {engine : Engine} : s.engine.Steady engine → s.Fresh frame →
      s.stack.size < s.limits.maxDepth → (∃ d, s.ns.get? frame.definition = some d) →
      Effect s (s.enter frame engine)
  | pop {s' : Session} : s.pop = .ok s' → Effect s s'
  | unpush {s' : Session} : s.unpush = .ok s' → Effect s s'
  | repush {s' : Session} : s.repush = .ok s' → Effect s s'

variable {s s' : Session} {id : FrameId}

theorem Effect.refl (s : Session) : Effect s s := .quiet (.refl s.engine)

/-! ### The top frame -/

theorem liveFrame_eq_ok : s.liveFrame id = .ok frame ↔ s.frame? id = some frame := by
  unfold liveFrame
  cases s.frame? id <;> simp

theorem top_eq_ok : s.top = .ok (id, frame) ↔ s.stack.top = some id ∧ s.frame? id = some frame := by
  have htop : ∀ {top}, s.topId = .ok top ↔ s.stack.top = some top := by
    unfold topId
    cases s.stack.top <;> simp
  simp only [top, bind_eq_ok, htop, liveFrame_eq_ok, pure, Except.pure, Except.ok.injEq,
    Prod.mk.injEq]
  constructor
  · rintro ⟨_, hid, _, hf, rfl, rfl⟩
    exact ⟨hid, hf⟩
  · exact fun ⟨hid, hf⟩ => ⟨id, hid, frame, hf, rfl, rfl⟩

theorem top_bind_ok {f : FrameId × Frame → Except Fault α} {a : α} (h : s.top >>= f = .ok a) :
    ∃ id frame, s.stack.top = some id ∧ s.frame? id = some frame ∧ f (id, frame) = .ok a := by
  obtain ⟨⟨id, frame⟩, htop, h⟩ := bind_eq_ok.mp h
  obtain ⟨hid, hf⟩ := top_eq_ok.mp htop
  exact ⟨id, frame, hid, hf, h⟩

theorem topFrame?_eq (htop : s.stack.top = some id) (hf : s.frame? id = some frame) :
    s.topFrame? = some frame :=
  Option.bind_eq_some_iff.mpr ⟨id, htop, hf⟩

/-! ### Pushing -/

theorem homeFor_steady (s : Session) (id : DefId) (d : Definition) (prev : Option Frame) :
    s.engine.Steady (s.homeFor id d prev).2 := by
  unfold homeFor
  split
  · cases s.rootFrame? with
    | some root => exact siteTable_steady s.engine id
    | none => exact ((Engine.Steady.refl _).withStore _).trans (siteTable_steady _ id)
  · simp only
    split
    · split
      · exact (Engine.Steady.refl _).withStore _
      · exact ((Engine.Steady.refl _).withStore _).trans (siteTable_steady _ _)
    · exact (Engine.Steady.refl _).withStore _

theorem frameFor_eq (s : Session) (bound : Bound) (d : Definition) (previous : Option Frame)
    (newCall : Bool) : s.frameFor bound d previous newCall =
      let (home, engine) := s.homeFor bound.definition d previous
      let inherited := previous.filter (continuesKeeps bound)
      let (keeps, containers, engine) := match inherited with
        | some frame => (frame.keeps, frame.containers, engine)
        | none =>
          let (keeps, store) := engine.store.newKeepMap .empty
          (keeps, .empty, engine.withStore store)
      let frame : Frame :=
        { definition := bound.definition
          continues := if newCall then none else some bound.definition
          parameters := d.parameters
          arguments := bound.arguments
          cache := home.cache
          keeps
          containers
          siteTable := home.siteTable
          site := home.site
          previous := s.stack.top
          pins := 1
          state := s.family.clock + 1 }
      match inherited with
      | some _ => (.ok (), frame, engine)
      | none => engine.registerKeeps frame (previous.map Frame.keeps) d.keeps := by
  unfold frameFor
  cases previous.filter (continuesKeeps bound) with
  | none =>
    obtain ⟨definition, hvacant⟩ := s.family.pool.vacant_frame
      (s.homeFor bound.definition d previous).1.cache
      ((s.homeFor bound.definition d previous).2.store.newKeepMap .empty).1
    simp only [hvacant]
  | some below =>
    obtain ⟨definition, hvacant⟩ := s.family.pool.vacant_frame
      (s.homeFor bound.definition d previous).1.cache below.keeps
    simp only [hvacant]

/-- The frame that a push makes, up to its tables. -/
theorem frameFor_effect (s : Session) (bound : Bound) (d : Definition) (prev : Option Frame)
    (newCall : Bool) :
    s.engine.Steady (s.frameFor bound d prev newCall).2.2 ∧
      s.Fresh (s.frameFor bound d prev newCall).2.1 ∧
      (s.frameFor bound d prev newCall).2.1.definition = bound.definition ∧
      (s.frameFor bound d prev newCall).2.1.arguments = bound.arguments ∧
      (s.frameFor bound d prev newCall).2.1.parameters = d.parameters ∧
      (s.frameFor bound d prev newCall).2.1.continues =
        if newCall then none else some bound.definition := by
  have hhome := homeFor_steady s bound.definition d prev
  rw [frameFor_eq]
  simp only
  split
  · exact ⟨hhome, ⟨rfl, rfl, rfl, rfl, rfl, rfl⟩, rfl, rfl, rfl, rfl⟩
  · obtain ⟨hstd, containers, hfr⟩ := registerKeeps_effect (prev.map Frame.keeps)
      d.keeps _ _
    rw [hfr]
    exact ⟨(hhome.withStore _).trans hstd, ⟨rfl, rfl, rfl, rfl, rfl, rfl⟩, rfl, rfl, rfl, rfl⟩

theorem preparePush_ok {previous : Option Frame}
    (h : s.preparePush definition arguments = .ok (bound, d, previous)) :
    s.stack.size < s.limits.maxDepth ∧ s.ns.get? bound.definition = some d ∧
      s.ns.canonical ⟨definition, arguments⟩ s.topDefinition? s.limits.maxPointerHops =
        .ok (some bound) ∧
      previous = s.topFrame? ∧ ∀ id ∈ s.stack.top, ∃ below, s.frame? id = some below := by
  unfold preparePush at h
  split at h
  · cases h
  · rename_i hdepth
    obtain ⟨found, hfd, h⟩ := bind_eq_ok.mp h
    split at h
    · cases h
    · rename_i bound' d' hbound
      obtain ⟨b, rfl, hd⟩ := Option.bind_eq_some_iff.mp hbound
      obtain ⟨d'', hd, e⟩ := Option.map_eq_some_iff.mp hd
      cases e
      cases htop : s.stack.top with
      | none =>
        simp only [htop, pure, Except.pure, bind, Except.bind, Except.ok.injEq, Prod.mk.injEq] at h
        obtain ⟨rfl, rfl, rfl⟩ := h
        exact ⟨Nat.lt_of_not_le hdepth, hd, hfd, by simp [topFrame?, htop], by simp⟩
      | some top =>
        simp only [htop] at h
        obtain ⟨_, hlive, h⟩ := bind_eq_ok.mp h
        obtain ⟨below, hbel, rfl⟩ := map_eq_ok.mp hlive
        obtain ⟨rfl, rfl, rfl⟩ : bound' = bound ∧ d' = d ∧ some below = previous := by
          simpa [pure, Except.pure] using h
        have hf := liveFrame_eq_ok.mp hbel
        refine ⟨Nat.lt_of_not_le hdepth, hd, hfd, (topFrame?_eq htop hf).symm, ?_⟩
        rintro id ⟨⟩
        exact ⟨below, hf⟩

theorem preparePush_eq (hlive : ∀ id ∈ s.stack.top, ∃ frame, s.frame? id = some frame)
    (hroom : s.stack.size < s.limits.maxDepth)
    (hcan : s.ns.canonical ⟨definition, arguments⟩ s.topDefinition?
      s.limits.maxPointerHops = .ok (some bound)) (hd : s.ns.get? bound.definition = some d) :
    s.preparePush definition arguments = .ok (bound, d, s.topFrame?) := by
  rw [preparePush, if_neg (Nat.not_le.mpr hroom), hcan]
  simp only [bind, Except.bind, Option.bind_some, hd, Option.map_some]
  cases htop : s.stack.top with
  | none =>
    rw [topFrame?, htop]
    rfl
  | some top =>
    obtain ⟨frame, hf⟩ := hlive top htop
    rw [topFrame?_eq htop hf]
    simp only [liveFrame, hf]
    rfl

theorem preparePush_error (hlive : ∀ id ∈ s.stack.top, ∃ frame, s.frame? id = some frame)
    (h : s.preparePush definition arguments = .error fault) :
    fault = .depthExceeded s.limits.maxDepth ∨
    s.ns.canonical ⟨definition, arguments⟩ s.topDefinition? s.limits.maxPointerHops = .error fault ∨
    fault = .nullDefinition (s.ns.fullName definition) := by
  unfold preparePush at h
  split at h
  · exact .inl (Except.error.inj h).symm
  rcases bind_eq_error.mp h with hcan | ⟨found, _, h⟩
  · exact .inr (.inl hcan)
  split at h
  · exact .inr (.inr (Except.error.inj h).symm)
  · cases htop : s.stack.top with
    | none => simp [htop, pure, Except.pure, bind, Except.bind] at h
    | some top =>
      obtain ⟨frame, hf⟩ := hlive top htop
      simp [htop, liveFrame, hf, Except.map, pure, Except.pure, bind, Except.bind] at h

theorem canonical_error {ns : Namespace} {scope : Option DefId} {limit : Nat}
    (h : ns.canonical bound scope limit = .error fault) :
    fault = .dereferenceLoop (ns.fullName bound.definition) limit ∨ ∃ gap,
    ns.resolveWithin scope (limit + 1) bound = .dangling gap ∧ fault = .danglingReference gap := by
  unfold Namespace.canonical at h
  split at h
  · cases h
  · cases h
  · exact .inl (Except.error.inj h).symm
  · exact .inr ⟨_, ‹_›, (Except.error.inj h).symm⟩

theorem push_cases (s : Session) (definition : DefId) (arguments : List Argument)
    (newCall : Bool) : (s.push definition arguments newCall).2 = s ∨ ∃ bound d,
      s.preparePush definition arguments = .ok (bound, d, s.topFrame?) ∧
        (s.push definition arguments newCall).2 =
          s.enter (s.frameFor bound d s.topFrame? newCall).2.1
            (s.frameFor bound d s.topFrame? newCall).2.2 := by
  unfold push
  cases h : s.preparePush definition arguments with
  | error fault => exact .inl rfl
  | ok prepared =>
    obtain ⟨bound, d, prev⟩ := prepared
    obtain ⟨_, _, _, rfl, _⟩ := preparePush_ok h
    exact .inr ⟨bound, d, rfl, rfl⟩

theorem push_effect (s : Session) (definition : DefId) (arguments : List Argument)
    (newCall : Bool) : Effect s (s.push definition arguments newCall).2 := by
  rcases push_cases s definition arguments newCall with h | ⟨bound, d, hprep, h⟩
  · rw [h]
    exact .refl s
  · obtain ⟨hdepth, hd, _⟩ := preparePush_ok hprep
    obtain ⟨hstd, hfresh, hdef, _⟩ := frameFor_effect s bound d s.topFrame? newCall
    rw [h]
    exact .push hstd hfresh hdepth ⟨d, (congrArg s.ns.get? hdef).trans hd⟩

theorem Effect.of_push {result : Except Fault Unit}
    (h : s.push definition arguments newCall = (result, s')) : Effect s s' := by
  have heff := push_effect s definition arguments newCall
  rwa [h] at heff

theorem push_ok (h : s.push definition arguments newCall = (.ok (), s')) : ∃ bound d frame engine,
      s.preparePush definition arguments = .ok (bound, d, s.topFrame?) ∧
        s.frameFor bound d s.topFrame? newCall = (.ok (), frame, engine) ∧
        s' = s.enter frame engine := by
  unfold push at h
  split at h
  · cases (Prod.mk.inj h).1
  · rename_i bound d prev hprep
    obtain ⟨_, _, _, rfl, _⟩ := preparePush_ok hprep
    cases hframeFor : s.frameFor bound d s.topFrame? newCall with
    | mk kept made =>
      rw [pushBound, hframeFor] at h
      obtain ⟨hkept, hs'⟩ := Prod.mk.inj h
      cases kept with
      | error gap => cases hkept
      | ok _ => exact ⟨bound, d, made.1, made.2, hprep, hframeFor, hs'.symm⟩

theorem pushCall_cases (s : Session) (call : Call) (newCall : Bool) :
    (s.pushCall call newCall).2 = s ∨ ∃ definition,
      (s.pushCall call newCall).2 = (s.push definition call.arguments newCall).2 := by
  unfold pushCall
  split
  · exact .inl rfl
  · exact .inl rfl
  · exact .inr ⟨_, rfl⟩

theorem pushCall_effect (s : Session) (call : Call) (newCall : Bool) :
    Effect s (s.pushCall call newCall).2 := by
  rcases pushCall_cases s call newCall with h | ⟨definition, h⟩
  · rw [h]
    exact .refl s
  · rw [h]
    exact push_effect s definition call.arguments newCall

/-! ### Reading and writing tables -/

theorem prepare_cases (s : Session) (r : Request) :
    s.prepare r = s.engine ∨ ∃ d, s.prepare r = (s.engine.durableTable d).2 := by
  unfold prepare
  split
  · split
    · exact .inr ⟨_, rfl⟩
    · exact .inl rfl
  · exact .inl rfl

theorem prepare_steady (s : Session) (r : Request) : s.engine.Steady (s.prepare r) := by
  rcases prepare_cases s r with h | ⟨d, h⟩
  · exact h ▸ .refl s.engine
  · exact h ▸ durableTable_steady s.engine d

theorem lookup_effect (s : Session) (r : Request) :
    ∃ engine, s.engine.Steady engine ∧ (s.lookup r).2 = s.withEngine engine := by
  have hhops : ∀ hops, s.engine.Steady ((s.prepare r).count (·.hops hops)) := fun hops =>
    (prepare_steady s r).count (fun _ => rfl) fun _ => rfl
  unfold lookup
  simp only
  split
  · refine ⟨_, (hhops _).count ?_ ?_, rfl⟩
    · intro c
      unfold Counters.lookup
      split <;> rfl
    · intro c
      unfold Counters.lookup
      split <;> rfl
  · exact ⟨_, hhops _, rfl⟩

theorem putDurable_steady (e : Engine) (d : Definition) (key : String) (iter : Option Nat)
    (entry : Entry) : e.Steady (putDurable e d key iter entry) := by
  unfold putDurable
  split
  · exact (durableTable_steady e d).withStore _
  · exact .refl e

theorem passOnTo_cases (h : passOnTo e written entry target = .ok e') :
    e' = e ∨ ∃ frame p l store, target = some (frame, p) ∧
      e.store.writeThrough frame.iteration e.limits.maxPointerHops p entry = .ok (l, store) ∧
      e' = e.withStore store := by
  unfold passOnTo at h
  split at h
  · exact .inl (Except.ok.inj h).symm
  · rename_i frame p
    obtain ⟨store, hpass, rfl⟩ := map_eq_ok.mp h
    unfold passOn at hpass
    split at hpass
    · exact .inl (by rw [← Except.ok.inj hpass]; rfl)
    · obtain ⟨⟨l, store⟩, hwrite, rfl⟩ := map_eq_ok.mp hpass
      exact .inr ⟨frame, p, l, store, rfl, hwrite, rfl⟩

theorem passOnTo_steady (h : passOnTo e written entry target = .ok e') : e.Steady e' := by
  rcases passOnTo_cases h with rfl | ⟨_, _, _, store, _, _, rfl⟩
  · exact .refl e'
  · exact (Engine.Steady.refl e).withStore store

theorem passOnToOwner_ok {top : FrameId} {reach : List (FrameId × Frame)}
    (h : passOnToOwner e written entry d top reach = .ok e') :
    ∃ owner, ownerFrame e.ns d reach = .ok owner ∧
      passOnTo e written entry (owner.bind (ownerPointer e.store d top)) = .ok e' := by
  unfold passOnToOwner at h
  split at h
  · cases h
  · rename_i owner howner
    exact ⟨owner, howner, h⟩

theorem putWithin_effect (s : Session) (key : String) (holder : Holder) (levels : Option Nat) :
    ∃ engine, s.engine.Steady engine ∧ (s.putWithin key holder levels).2 = s.withEngine engine := by
  unfold putWithin
  split
  · exact ⟨s.engine, .refl _, rfl⟩
  · exact ⟨s.engine, .refl _, rfl⟩
  · rename_i top frame d _ _
    simp only
    split
    · exact ⟨s.engine, .refl _, rfl⟩
    · rename_i written store _
      have hdur := ((Engine.Steady.refl s.engine).withStore store).trans
        (putDurable_steady _ d key frame.iteration (.holder holder))
      split
      · exact ⟨_, hdur, rfl⟩
      · rename_i engine howner
        obtain ⟨_, _, howner⟩ := passOnToOwner_ok howner
        have hpass := hdur.trans (passOnTo_steady howner)
        split
        · exact ⟨_, hpass, rfl⟩
        · rename_i engine' hcontainer
          exact ⟨_, hpass.trans (passOnTo_steady hcontainer), rfl⟩

theorem putValue_ok (h : s.putValue key value = .ok s') :
    ∃ frame, s.topFrame? = some frame ∧ s' = s.withEngine (s.engine.withStore
      (s.store.set ⟨frame.cache, frame.slotKey key⟩ (.value value))) := by
  obtain ⟨id, frame, htop, hf, h⟩ := top_bind_ok h
  exact ⟨frame, topFrame?_eq htop hf, (Except.ok.inj h).symm⟩

theorem putValue_effect (h : s.putValue key value = .ok s') :
    ∃ engine, s.engine.Steady engine ∧ s' = s.withEngine engine := by
  obtain ⟨frame, _, rfl⟩ := putValue_ok h
  exact ⟨_, (Engine.Steady.refl s.engine).withStore _, rfl⟩

/-! ### Touching the top frame -/

theorem startIteration_effect {index : Nat} (h : s.startIteration = .ok (index, s')) :
    ∃ id frame, s.stack.top = some id ∧ s.frame? id = some frame ∧ index = frame.nextIteration ∧
      s' = s.withPool (s.family.pool.set id frame.startIteration.2) := by
  obtain ⟨id, frame, htop, hf, h⟩ := top_bind_ok h
  cases h
  exact ⟨id, frame, htop, hf, rfl, rfl⟩

theorem setIteration_eq (htop : s.stack.top = some id) (hf : s.frame? id = some frame)
    (iteration : Option Nat) : s.setIteration iteration =
      s.withPool (s.family.pool.set id { frame with iteration }) := by
  have hf : s.family.pool.get? id = some frame := hf
  simp only [setIteration, htop, Pool.modify, hf]

theorem setIteration_cases (s : Session) (iteration : Option Nat) :
    s.setIteration iteration = s ∨ ∃ id frame, s.stack.top = some id ∧ s.frame? id = some frame ∧
      s.setIteration iteration = s.withPool (s.family.pool.set id { frame with iteration }) := by
  unfold setIteration Pool.modify
  split
  · rename_i id htop
    split
    · rename_i frame hf
      exact .inr ⟨id, frame, htop, hf, rfl⟩
    · exact .inl rfl
  · exact .inl rfl

theorem setIteration_effect (s : Session) (iter : Option Nat) : Effect s (s.setIteration iter) := by
  rcases setIteration_cases s iter with h | ⟨id, frame, htop, hf, h⟩
  · rw [h]
    exact .refl s
  · rw [h]
    exact .retouch (.refl s.engine) htop hf rfl

theorem addKeep_ok (h : s.addKeep keep = .ok (added, s')) :
    ∃ id frame, s.stack.top = some id ∧ s.frame? id = some frame ∧
      (s' = s ∨ ∃ new engine,
        s.engine.registerKeep frame keep (s.keepsBelow frame) = .ok (some (new, engine)) ∧
          s' = (s.withEngine engine).withPool (s.family.pool.set id new)) := by
  obtain ⟨id, frame, htop, hf, h⟩ := top_bind_ok h
  refine ⟨id, frame, htop, hf, ?_⟩
  obtain ⟨found, hfd, h⟩ := bind_eq_ok.mp h
  cases hkeep : s.engine.registerKeep frame keep (s.keepsBelow frame) with
  | error gap => simp [hkeep, Fault.ofWalk] at hfd
  | ok kept =>
    simp only [hkeep, Fault.ofWalk, Except.ok.injEq] at hfd
    subst hfd
    cases kept with
    | none => exact .inl (Prod.mk.inj (Except.ok.inj h)).2.symm
    | some kept => exact .inr ⟨kept.1, kept.2, rfl, (Prod.mk.inj (Except.ok.inj h)).2.symm⟩

theorem addKeep_effect (h : s.addKeep keep = .ok (added, s')) : Effect s s' := by
  obtain ⟨id, frame, hid, hf, rfl | ⟨new, engine, hkeep, rfl⟩⟩ := addKeep_ok h
  · exact .refl s'
  · obtain ⟨hstd, containers, rfl⟩ := registerKeep_effect hkeep
    exact .retouch hstd hid hf rfl

/-- **Every move has one of the effects.** -/
theorem Move.effect (h : Move s s') : Effect s s' := by
  cases h with
  | fail => exact .refl s
  | push definition arguments newCall => exact push_effect s definition arguments newCall
  | pushCall call newCall => exact pushCall_effect s call newCall
  | pop h => exact .pop h
  | unpush h => exact .unpush h
  | repush h => exact .repush h
  | startIteration h =>
    obtain ⟨id, frame, htop, hf, _, rfl⟩ := startIteration_effect h
    exact .retouch (.refl s.engine) htop hf rfl
  | setIteration iter => exact setIteration_effect s iter
  | addKeep h => exact addKeep_effect h
  | lookup request =>
    obtain ⟨engine, hstd, e⟩ := lookup_effect s request
    rw [e]
    exact .quiet hstd
  | putWithin key holder levels =>
    obtain ⟨engine, hstd, e⟩ := putWithin_effect s key holder levels
    rw [e]
    exact .quiet hstd
  | putValue h =>
    obtain ⟨engine, hstd, rfl⟩ := putValue_effect h
    exact .quiet hstd
  | computation => exact .quiet ((Engine.Steady.refl s.engine).count (fun _ => rfl) fun _ => rfl)

/-! ## 4. Popping and stepping out, opened -/

/-- What popping the top frame leaves. -/
def popped (s : Session) (id : FrameId) (frame : Frame) : Session :=
  let released := (pinBelow s.family.pool frame).unpin id
  { engine := s.engine.count fun c => c.pop.freed released.1
    family := { s.family with pool := released.2 }
    stack :=
      { s.stack with
        top := frame.previous
        root := if s.stack.size - 1 = 0 then none else s.stack.root
        size := s.stack.size - 1 } }

/-- What stepping out of the top frame leaves. -/
def steppedOut (s : Session) (id : FrameId) (frame : Frame) : Session :=
  { s with
    family := { s.family with pool := pinBelow s.family.pool frame }
    stack :=
      { s.stack with
        top := frame.previous
        size := s.stack.size - 1
        stash := id :: s.stack.stash } }

/-- What stepping back into a frame leaves; `stash` holds the frames that are still set aside. -/
def steppedIn (s : Session) (id : FrameId) (stash : List FrameId) : Session :=
  let released := match s.stack.top with
    | some current => s.family.pool.unpin current
    | none => (0, s.family.pool)
  { engine := s.engine.count (·.freed released.1)
    family := { s.family with pool := released.2 }
    stack := { s.stack with top := some id, size := s.stack.size + 1, stash } }

theorem pop_eq (htop : s.stack.top = some id) (hf : s.frame? id = some frame) :
    s.pop = .ok (s.popped id frame) := by
  have h := top_eq_ok.mpr ⟨htop, hf⟩
  simp only [pop, h, bind, Except.bind]
  rfl

theorem unpush_eq (htop : s.stack.top = some id) (hf : s.frame? id = some frame) :
    s.unpush = .ok (s.steppedOut id frame) := by
  have h := top_eq_ok.mpr ⟨htop, hf⟩
  simp only [unpush, h, bind, Except.bind]
  rfl

theorem repush_eq {stash : List FrameId} (hstash : s.stack.stash = id :: stash)
    (hf : s.frame? id = some frame) :
    s.repush = if frame.previous ≠ s.stack.top then .error (.repushMismatch id)
      else .ok (s.steppedIn id stash) := by
  simp only [repush, hstash, liveFrame, hf, bind, Except.bind]
  split
  · rfl
  · simp only [steppedIn]
    cases s.stack.top <;> rfl

theorem pop_ok (h : s.pop = .ok s') : ∃ id frame, s.stack.top = some id ∧
    s.frame? id = some frame ∧ s' = s.popped id frame := by
  obtain ⟨id, frame, htop, hf, h⟩ := top_bind_ok h
  exact ⟨id, frame, htop, hf, (Except.ok.inj h).symm⟩

theorem unpush_ok (h : s.unpush = .ok s') : ∃ id frame, s.stack.top = some id ∧
    s.frame? id = some frame ∧ s' = s.steppedOut id frame := by
  obtain ⟨id, frame, htop, hf, h⟩ := top_bind_ok h
  exact ⟨id, frame, htop, hf, (Except.ok.inj h).symm⟩

theorem repush_ok (h : s.repush = .ok s') : ∃ id frame stash, s.stack.stash = id :: stash ∧
    s.frame? id = some frame ∧ frame.previous = s.stack.top ∧ s' = s.steppedIn id stash := by
  cases hstash : s.stack.stash with
  | nil => simp [repush, hstash] at h
  | cons id stash =>
    cases hf : s.frame? id with
    | none => simp [repush, hstash, liveFrame, hf, bind, Except.bind] at h
    | some frame =>
      rw [repush_eq hstash hf] at h
      split at h
      · cases h
      · rename_i hprev
        exact ⟨id, frame, stash, rfl, hf, Decidable.not_not.mp hprev, (Except.ok.inj h).symm⟩

/-! ## 5. What no move changes -/

/-- Sessions of one family over engines with one namespace and one set of limits. -/
structure Kin (s s' : Session) : Prop where
  ns_eq : s'.ns = s.ns
  limits_eq : s'.limits = s.limits
  root_eq : s'.family.root = s.family.root

theorem Effect.kin (h : Effect s s') : s.Kin s' := by
  cases h with
  | quiet h => exact ⟨h.ns_eq, h.limits_eq, rfl⟩
  | retouch h _ _ _ => exact ⟨h.ns_eq, h.limits_eq, rfl⟩
  | push h _ _ _ => exact ⟨h.ns_eq, h.limits_eq, rfl⟩
  | pop h =>
    obtain ⟨id, frame, _, _, rfl⟩ := pop_ok h
    exact ⟨rfl, rfl, rfl⟩
  | unpush h =>
    obtain ⟨id, frame, _, _, rfl⟩ := unpush_ok h
    exact ⟨rfl, rfl, rfl⟩
  | repush h =>
    obtain ⟨id, frame, stash, _, _, _, rfl⟩ := repush_ok h
    cases s.stack.top <;> exact ⟨rfl, rfl, rfl⟩

end Session

end KeepTree
