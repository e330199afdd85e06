import KeepTree.Proofs.Session.Views
import KeepTree.Proofs.Workspace.Lists

/-!
# One stack as a list

A tagging of the live frames turns each stack into a list (`pileOf`). The list of a stack depends on
its own frames only, and an operation on the stack does to it what the operation on lists says:

* `operate_simulates` -- **one operation on a stack is one operation on its list**.
-/

namespace KeepTree

open KeepTree.Frame List

variable {tag : FrameId → Nat} {made : Nat} {id new : FrameId} {frame : Frame}
  {top : Option FrameId} {s' : Session}

def Frame.face (f : Frame) : Face := ⟨f.definition, f.arguments, f.continues, f.state⟩

theorem face_lasting : Lasting face where
  counts _ _ _ := rfl
  settled h := (congrArg face h :)
  copy source sharing store := by
    obtain ⟨_, hstate, _, hdef, hargs, hcontinues⟩ := Session.copy_like source sharing store
    simp only [face, hstate, hdef, hargs, hcontinues]

/-! ## 1. A stack as a list -/

/-- The frames from one frame down, as cards. -/
def cardsOf (tag : FrameId → Nat) (pool : Pool) (top : Option FrameId) : List Card :=
  (pool.view Frame.face top).map fun (id, face) => ⟨tag id, face⟩

/-- The top card and the cards below it. -/
def takeTop : List Card → Option (Card × List Card)
  | [] => none
  | card :: below => some (card, below)

/-- A stack as a list. -/
def pileOf (tag : FrameId → Nat) (pool : Pool) (t : Stack) : Pile where
  cards := cardsOf tag pool t.top
  stash := (t.stash.map fun id => cardsOf tag pool (some id)).filterMap takeTop

/-- Live frames have tags of their own, which have been given out. -/
structure Tagged (tag : FrameId → Nat) (pool : Pool) (made : Nat) : Prop where
  lt : ∀ {id frame}, pool.get? id = some frame → tag id < made
  inj : ∀ {id id' frame frame'}, pool.get? id = some frame → pool.get? id' = some frame' →
    tag id = tag id' → id = id'

/-- Live frames have the same tags. -/
def SameTags (pool : Pool) (tag tag' : FrameId → Nat) : Prop :=
  ∀ id frame, pool.get? id = some frame → tag' id = tag id

theorem SameTags.refl (pool : Pool) (tag : FrameId → Nat) : SameTags pool tag tag :=
  fun _ _ _ => rfl

section Cards

variable {pool pool' : Pool} {held held' : List FrameId} {tag' : FrameId → Nat}

theorem cardsOf_some (ha : pool.Accounted held) (h : pool.get? id = some frame) :
    cardsOf tag pool (some id) = ⟨tag id, frame.face⟩ :: cardsOf tag pool frame.previous := by
  rw [cardsOf, Pool.view_some ha.toBalanced h, map_cons, cardsOf]

theorem cardsOf_none (tag : FrameId → Nat) (pool : Pool) : cardsOf tag pool none = [] := by
  rw [cardsOf, Pool.view_none, map_nil]

section

variable (ha : pool.Accounted held) (hakin : Pool.Akin face pool pool')
    (htags : SameTags pool tag tag')
include ha hakin htags

theorem cardsOf_eq (hlive : ∀ id ∈ top, ∃ frame, pool.get? id = some frame)
    (hlive' : ∀ id ∈ top, ∃ frame, pool'.get? id = some frame) :
    cardsOf tag' pool' top = cardsOf tag pool top := by
  unfold cardsOf
  rw [hakin top hlive hlive']
  refine map_congr_left fun entry hmem => ?_
  obtain ⟨⟨id, frame⟩, hchain, rfl⟩ := mem_map.mp hmem
  simp only [htags id frame ((ha.toBalanced.chain hlive).get? hchain)]

theorem cardsOf_map_eq {ids : List FrameId} (hlive : ∀ id ∈ ids, ∃ frame, pool.get? id = some frame)
    (hlive' : ∀ id ∈ ids, ∃ frame, pool'.get? id = some frame) :
    (ids.map fun id => cardsOf tag' pool' (some id)) =
      ids.map fun id => cardsOf tag pool (some id) := by
  refine map_congr_left fun id hid => cardsOf_eq ha hakin htags ?_ ?_
  · rintro other ⟨⟩
    exact hlive id hid
  · rintro other ⟨⟩
    exact hlive' id hid

/-- **A stack of which all frames stay alive stays the same list.** -/
theorem pileOf_eq {t : Stack} (hlive : ∀ id ∈ t.held, ∃ frame, pool.get? id = some frame)
    (hlive' : ∀ id ∈ t.held, ∃ frame, pool'.get? id = some frame) :
    pileOf tag' pool' t = pileOf tag pool t := by
  have htop : cardsOf tag' pool' t.top = cardsOf tag pool t.top := by
    refine cardsOf_eq ha hakin htags ?_ ?_
    · exact fun id hid => hlive id (mem_append_left _ (Option.mem_toList.mpr hid))
    · exact fun id hid => hlive' id (mem_append_left _ (Option.mem_toList.mpr hid))
  have hstash := cardsOf_map_eq ha hakin htags (fun id hid => hlive id (mem_append_right _ hid))
    (fun id hid => hlive' id (mem_append_right _ hid))
  rw [pileOf, htop, hstash, pileOf]

end

theorem tags_eq_iff (ha : pool.Accounted held) (htag : Tagged tag pool made) {top' : Option FrameId}
    (hlive : ∀ id ∈ top, ∃ frame, pool.get? id = some frame)
    (hlive' : ∀ id ∈ top', ∃ frame, pool.get? id = some frame) :
    (cardsOf tag pool top).map Card.tag = (cardsOf tag pool top').map Card.tag ↔ top = top' := by
  refine ⟨fun e => ?_, fun e => e ▸ rfl⟩
  cases top with
  | none =>
    cases top' with
    | none => rfl
    | some id' =>
      obtain ⟨frame', h'⟩ := hlive' id' rfl
      rw [cardsOf_none, cardsOf_some ha h'] at e
      cases e
  | some id =>
    obtain ⟨frame, h⟩ := hlive id rfl
    cases top' with
    | none =>
      rw [cardsOf_none, cardsOf_some ha h] at e
      cases e
    | some id' =>
      obtain ⟨frame', h'⟩ := hlive' id' rfl
      rw [cardsOf_some ha h, cardsOf_some ha h', map_cons] at e
      rw [htag.inj h h' (List.cons.inj e).1]

theorem Tagged.grow (htag : Tagged tag pool made) (hnew : pool.get? new = none)
    (hold : ∀ id frame, pool'.get? id = some frame → id = new ∨ ∃ old, pool.get? id = some old) :
    SameTags pool tag (fun id => if id = new then made else tag id) ∧
      Tagged (fun id => if id = new then made else tag id) pool' (made + 1) := by
  have hcases : ∀ {id frame}, pool'.get? id = some frame →
      (id = new) ∨ (id ≠ new ∧ tag id < made) := by
    intro id frame h
    rcases hold id frame h with e | ⟨old, hlive⟩
    · exact .inl e
    · refine .inr ⟨?_, htag.lt hlive⟩
      rintro rfl
      rw [hnew] at hlive
      cases hlive
  refine ⟨fun id frame h => ?_, fun {id frame} h => ?_, fun {id id' frame frame'} h h' e => ?_⟩
  · refine if_neg ?_
    rintro rfl
    rw [hnew] at h
    cases h
  · rcases hcases h with e | ⟨hne, hlt⟩
    · simp [e]
    · simp only [if_neg hne]
      omega
  · rcases hcases h with e₁ | ⟨hne, hlt⟩ <;> rcases hcases h' with e₂ | ⟨hne', hlt'⟩
    · rw [e₁, e₂]
    · simp only [e₁, if_pos, if_neg hne'] at e
      omega
    · simp only [e₂, if_pos, if_neg hne] at e
      omega
    · simp only [if_neg hne, if_neg hne'] at e
      rcases hold id frame h with e' | ⟨old, hlive⟩
      · exact absurd e' hne
      · rcases hold id' frame' h' with e' | ⟨old', hlive'⟩
        · exact absurd e' hne'
        · exact htag.inj hlive hlive' e

theorem cardsOf_placed {face : Face} {below : Option FrameId} (ha : pool.Accounted held)
    (hview : pool'.view Frame.face top = (new, face) :: pool.view Frame.face below)
    (hlive : ∀ id ∈ below, ∃ frame, pool.get? id = some frame)
    (htags : SameTags pool tag (fun id => if id = new then made else tag id)) :
    cardsOf (fun id => if id = new then made else tag id) pool' top =
      ⟨made, face⟩ :: cardsOf tag pool below := by
  have hbel := cardsOf_eq ha (fun _ _ _ => rfl) htags hlive hlive
  rw [← hbel, cardsOf, hview, map_cons]
  simp only [if_pos]
  rfl

theorem Tagged.shrink (htag : Tagged tag pool made) (hw : Pool.Within face pool' pool) :
    Tagged tag pool' made where
  lt h := by
    obtain ⟨_, hold, _, _⟩ := hw _ _ h
    exact htag.lt hold
  inj h h' e := by
    obtain ⟨_, hold, _, _⟩ := hw _ _ h
    obtain ⟨_, hold', _, _⟩ := hw _ _ h'
    exact htag.inj hold hold' e

theorem Tagged.succ (htag : Tagged tag pool made) : Tagged tag pool (made + 1) where
  lt h := Nat.lt_succ_of_lt (htag.lt h)
  inj := htag.inj

end Cards

/-! ## 2. One operation on one stack -/

/-- A fault, whichever frame it names. -/
def Fault.anyFrame : Fault → Fault
  | .staleFrame _ => .staleFrame ⟨0, 0⟩
  | .repushMismatch _ => .repushMismatch ⟨0, 0⟩
  | fault => fault

/-- Two results are the same up to the frames that are named. -/
def SameOutcome (r r' : Except Fault Unit) : Prop :=
  r.mapError Fault.anyFrame = r'.mapError Fault.anyFrame

namespace Session

variable {s : Session} {rest : List Stack}

/-- The stack of a session as a list. -/
def pile (s : Session) (tag : FrameId → Nat) : Pile := pileOf tag s.family.pool s.stack

theorem pile_length (hs : s.Sound s.limits rest) (tag : FrameId → Nat) :
    (s.pile tag).cards.length = s.stack.size := by
  rw [hs.size_eq s.stack mem_cons_self]
  simp [pile, pileOf, cardsOf, Pool.view, Pool.height]

theorem pile_cards (hs : s.Sound s.limits rest) (htop : s.stack.top = some id)
    (hf : s.frame? id = some frame) :
    (s.pile tag).cards = ⟨tag id, frame.face⟩ :: cardsOf tag s.family.pool frame.previous := by
  rw [pile, pileOf, htop]
  exact cardsOf_some hs.accounted hf

theorem pile_empty (htop : s.stack.top = none) (tag : FrameId → Nat) : (s.pile tag).cards = [] := by
  rw [pile, pileOf, htop]
  exact cardsOf_none tag _

section

variable (hs : s.Sound s.limits rest)
include hs

theorem stash_kept (hs' : s'.Sound s'.limits rest)
    (hw : Pool.Within Frame.face s'.family.pool s.family.pool) (tag : FrameId → Nat) :
    (s'.stack.stash.map fun id => cardsOf tag s'.family.pool (some id)) =
      s'.stack.stash.map fun id => cardsOf tag s.family.pool (some id) := by
  refine cardsOf_map_eq hs.accounted (hw.akin hs'.accounted.toBalanced hs.accounted.toBalanced).symm
    (.refl _ tag) (fun id hid => ?_) hs'.stash_live
  obtain ⟨frame, hf⟩ := hs'.stash_live id hid
  obtain ⟨old, hold, _⟩ := hw id frame hf
  exact ⟨old, hold⟩

theorem pile_head (tag : FrameId → Nat) :
    (s.pile tag).cards.head?.map Card.face = s.topFrame?.map face := by
  cases htop : s.stack.top with
  | none => simp [pile, pileOf, htop, cardsOf_none, topFrame?]
  | some id =>
    obtain ⟨frame, hf⟩ := hs.live _ htop
    rw [pile_cards hs htop hf, topFrame?_eq htop hf]
    rfl

theorem pile_topDefinition?
    (tag : FrameId → Nat) : (s.pile tag).topDefinition? = s.topDefinition? := by
  have hhead := congrArg (Option.map Face.definition) (pile_head hs tag)
  simp only [Option.map_map] at hhead
  exact hhead

theorem pile_continuesKeeps (tag : FrameId → Nat) (bound : Bound) :
    (s.pile tag).continuesKeeps bound = s.topFrame?.any (continuesKeeps bound) := by
  have hhead := congrArg (Option.any fun face : Face => face.definition == bound.definition &&
    (bound.arguments.all Argument.isMissing || sameArguments face.arguments bound.arguments))
    (pile_head hs tag)
  simp only [Option.any_map] at hhead
  exact hhead

theorem pile_preparePush (tag : FrameId → Nat) (definition : DefId) (args : List Argument) :
    (s.pile tag).preparePush s.ns s.limits definition args =
      (s.preparePush definition args).map fun (bound, d, _) => (bound, d) := by
  unfold Pile.preparePush preparePush
  rw [pile_length hs, pile_topDefinition? hs]
  split
  · rfl
  · cases s.ns.canonical ⟨definition, args⟩ s.topDefinition? s.limits.maxPointerHops with
    | error fault => rfl
    | ok found =>
      simp only [bind, Except.bind]
      cases found.bind fun bound => (s.ns.get? bound.definition).map (bound, ·) with
      | none => rfl
      | some prepared =>
        cases htop : s.stack.top with
        | none => rfl
        | some id =>
          obtain ⟨frame, hf⟩ := hs.live _ htop
          have hlive : s.liveFrame id = .ok frame := by
            rw [liveFrame, show s.frame? id = some frame from hf]
          simp only [hlive]
          rfl

end

theorem registerKeeps_outcome (below : Option KeepMapId) : ∀ (keeps : List Keep) (e : Engine)
    (frame : Frame), (e.registerKeeps frame below keeps).1 =
      Pile.followKeeps e.ns frame.definition keeps
  | [], _, _ => rfl
  | keep :: rest, e, frame => by
    unfold Engine.registerKeeps Pile.followKeeps
    cases hreg : e.registerKeep frame keep below with
    | error gap => simp only [map_eq_error.mp hreg]
    | ok registered =>
      obtain ⟨found, htargets, _⟩ := map_eq_ok.mp hreg
      simp only [htargets]
      cases registered with
      | none => exact registerKeeps_outcome below rest e frame
      | some registered =>
        obtain ⟨frame', e'⟩ := registered
        obtain ⟨hstd, containers, rfl⟩ := Engine.registerKeep_effect hreg
        have hrest := registerKeeps_outcome below rest e' { frame with containers }
        rw [hstd.ns_eq] at hrest
        exact hrest

theorem frameFor_outcome (s : Session) (bound : Bound) (d : Definition)
    (prev : Option Frame) (newCall : Bool) :
    (s.frameFor bound d prev newCall).1 =
      if prev.any (continuesKeeps bound) then .ok ()
      else Pile.followKeeps s.ns bound.definition d.keeps := by
  have hns := (homeFor_steady s bound.definition d prev).ns_eq
  rw [frameFor_eq]
  cases prev with
  | none =>
    simp only [Option.filter_none, Option.any_none, Bool.false_eq_true, if_false]
    rw [registerKeeps_outcome]
    exact congrArg (Pile.followKeeps · bound.definition d.keeps) hns
  | some frame =>
    cases hcontinues : continuesKeeps bound frame with
    | true => simp [Option.filter, hcontinues]
    | false =>
      simp only [Option.filter, hcontinues, Option.any_some, Bool.false_eq_true, if_false]
      rw [registerKeeps_outcome]
      exact congrArg (Pile.followKeeps · bound.definition d.keeps) hns

/-- An operation on a session came out as one on its list did. -/
def Simulated (s : Session) (tag : FrameId → Nat) (made : Nat) (r : Except Fault Unit × Session)
    (l : Except Fault Unit × Pile × Nat) : Prop :=
  ∃ tag', SameTags s.family.pool tag tag' ∧ Tagged tag' r.2.family.pool (made + 1) ∧
    SameOutcome r.1 l.1 ∧ l.2.1 = r.2.pile tag' ∧ l.2.2 = r.2.family.clock

theorem simulated_stay (htag : Tagged tag s.family.pool made) {fault fault' : Fault}
    (h : fault.anyFrame = fault'.anyFrame) :
    Simulated s tag made (.error fault, s) (.error fault', s.pile tag, s.family.clock) :=
  ⟨tag, .refl _ tag, htag.succ, congrArg Except.error h, rfl, rfl⟩

theorem push_simulated (hs : s.Sound s.limits rest) (htag : Tagged tag s.family.pool made)
    (definition : DefId) (args : List Argument) (newCall : Bool) :
    Simulated s tag made (s.push definition args newCall)
    ((s.pile tag).push s.ns s.limits made s.family.clock definition args newCall) := by
  unfold push Pile.push
  rw [pile_preparePush hs]
  cases hprep : s.preparePush definition args with
  | error fault => exact simulated_stay htag rfl
  | ok prepared =>
    obtain ⟨bound, d, prev⟩ := prepared
    obtain ⟨hdepth, _, _, rfl, _⟩ := preparePush_ok hprep
    obtain ⟨_, hfresh, hdef, hargs, _, hcontinues⟩ := frameFor_effect s bound d s.topFrame? newCall
    have hout := frameFor_outcome s bound d s.topFrame? newCall
    simp only [Except.map, pushBound]
    generalize s.frameFor bound d s.topFrame? newCall = made' at *
    obtain ⟨kept, frame, engine⟩ := made'
    -- the new frame gets the next tag, and all else stays
    have hsound := enter_sound hs hfresh hdepth engine
    obtain ⟨new, htop, hunused, hview, hstash⟩ :=
      enter_view face_lasting.counts hs hfresh hdepth engine
    obtain ⟨ha, hw, _⟩ := enter_pool hs hfresh face_lasting.counts engine
    have hakin := enter_akin face_lasting hs hfresh engine
    have hold : ∀ id frame', (s.enter frame engine).family.pool.get? id = some frame' →
        id = new ∨ ∃ old, s.family.pool.get? id = some old := by
      intro id frame' h
      obtain ⟨found, hfd, _, _⟩ := hw id frame' h
      rcases Pool.get?_of_alloc hs.accounted.tidy hfd with ⟨e, _⟩ | ⟨_, hfd⟩
      · exact .inl (e.trans (Option.some.inj htop))
      · exact .inr ⟨found, hfd⟩
    obtain ⟨hsame, htagged⟩ := htag.grow hunused hold
    refine ⟨_, hsame, htagged, ?_, ?_, rfl⟩
    · rw [hout, pile_continuesKeeps hs]
      rfl
    · have hcards := cardsOf_placed hs.accounted hview hs.live hsame
      have hset := cardsOf_map_eq hs.accounted hakin hsame
        hs.stash_live (fun id hid => hsound.stash_live id (hstash.symm ▸ hid))
      have hface : frame.face = ⟨bound.definition, bound.arguments,
          if newCall then none else some bound.definition, s.family.clock + 1⟩ := by
        rw [face, hdef, hargs, hcontinues, hfresh.state_eq]
      rw [hface] at hcards
      rw [pile, Pile.mk.injEq]
      exact ⟨hcards.symm, congrArg (filterMap takeTop) hset.symm⟩

theorem pushCall_simulated (hs : s.Sound s.limits rest)
    (htag : Tagged tag s.family.pool made) (call : Call) (newCall : Bool) :
    Simulated s tag made (s.operate (.pushCall call newCall))
      ((s.pile tag).pushCall s.ns s.limits made s.family.clock call newCall) := by
  simp only [operate, pushCall, Pile.pushCall, pile_topDefinition? hs]
  cases hfd : s.ns.lookupFrom s.topDefinition? call.name with
  | error gap => exact simulated_stay htag rfl
  | ok found =>
    cases found with
    | none => exact simulated_stay htag rfl
    | some definition =>
      obtain ⟨tag', hsame, htagged, hout, hpile, hclock⟩ :=
        push_simulated hs htag definition call.arguments newCall
      refine ⟨tag', hsame, htagged, ?_, hpile, hclock⟩
      have hunit : ((s.push definition call.arguments newCall).1.map fun _ => definition).map
          (fun _ => ()) = (s.push definition call.arguments newCall).1 := by
        cases (s.push definition call.arguments newCall).1 <;> rfl
      simp only [hunit]
      exact hout

theorem pile_below (hview : s.view face = (id, frame.face) :: s'.view face) :
    (s.pile tag).cards = ⟨tag id, frame.face⟩ :: (s'.pile tag).cards := by
  show List.map _ (s.view face) = _
  rw [hview]
  rfl

section

variable (hs : s.Sound s.limits rest) (htag : Tagged tag s.family.pool made)
include hs htag

theorem pop_simulated :
    Simulated s tag made (orStay s s.pop)
      ((orStay (s.pile tag) (s.pile tag).pop).1, (orStay (s.pile tag) (s.pile tag).pop).2,
        s.family.clock) := by
  rcases top_cases hs.live with
    ⟨htop, h⟩ | ⟨id, frame, htop, hf, _⟩
  · simp only [pop, h, bind, Except.bind, Pile.pop, pile_empty htop, orStay]
    exact simulated_stay htag rfl
  · have hw := popped_within face_lasting.counts hs hf
    have hcards : (s.pile tag).cards = ⟨tag id, frame.face⟩ :: ((s.popped id frame).pile tag).cards :=
      pile_below (popped_view face_lasting.counts hs htop hf)
    have hset := stash_kept hs (popped_sound hs htop hf) hw tag
    simp only [pop_eq htop hf, Pile.pop, hcards, orStay]
    refine ⟨tag, .refl _ tag, (htag.shrink hw).succ, rfl, ?_, rfl⟩
    rw [pile, pile, Pile.mk.injEq]
    exact ⟨rfl, congrArg (filterMap takeTop) hset.symm⟩

theorem unpush_simulated :
    Simulated s tag made (orStay s s.unpush)
      ((orStay (s.pile tag) (s.pile tag).unpush).1, (orStay (s.pile tag) (s.pile tag).unpush).2,
        s.family.clock) := by
  rcases top_cases hs.live with
    ⟨htop, h⟩ | ⟨id, frame, htop, hf, _⟩
  · simp only [unpush, h, bind, Except.bind, Pile.unpush, pile_empty htop, orStay]
    exact simulated_stay htag rfl
  · have hw := steppedOut_within face_lasting.counts hs hf
    have hcards : (s.pile tag).cards =
        ⟨tag id, frame.face⟩ :: ((s.steppedOut id frame).pile tag).cards :=
      pile_below (steppedOut_view face_lasting.counts hs htop hf)
    have hset := stash_kept hs (steppedOut_sound hs htop hf) hw tag
    have hfst : cardsOf tag s.family.pool (some id) =
        ⟨tag id, frame.face⟩ :: ((s.steppedOut id frame).pile tag).cards := by
      rw [← htop]
      exact hcards
    have hstash : ((s.steppedOut id frame).pile tag).stash =
        (⟨tag id, frame.face⟩, ((s.steppedOut id frame).pile tag).cards) :: (s.pile tag).stash := by
      calc ((s.steppedOut id frame).pile tag).stash
          = (cardsOf tag s.family.pool (some id) ::
              s.stack.stash.map fun id => cardsOf tag s.family.pool (some id)).filterMap takeTop :=
            congrArg (filterMap takeTop) hset
        _ = _ := by rw [hfst]; rfl
    simp only [unpush_eq htop hf, Pile.unpush, hcards, orStay]
    refine ⟨tag, .refl _ tag, (htag.shrink hw).succ, rfl, ?_, rfl⟩
    rw [← hstash]

theorem repush_simulated :
    Simulated s tag made (orStay s s.repush)
      ((orStay (s.pile tag) (s.pile tag).repush).1, (orStay (s.pile tag) (s.pile tag).repush).2,
        s.family.clock) := by
  cases hstash : s.stack.stash with
  | nil =>
    have hnone : (s.pile tag).stash = [] := by simp [pile, pileOf, hstash]
    simp only [repush, hstash, Pile.repush, hnone, orStay]
    exact simulated_stay htag rfl
  | cons id stash =>
    obtain ⟨frame, hf⟩ := hs.stash_live id (hstash ▸ mem_cons_self)
    have hset : (s.pile tag).stash =
        (⟨tag id, frame.face⟩, cardsOf tag s.family.pool frame.previous) ::
          (stash.map fun id => cardsOf tag s.family.pool (some id)).filterMap takeTop := by
      rw [pile, pileOf, hstash, map_cons, cardsOf_some hs.accounted hf]
      rfl
    have htags : (cardsOf tag s.family.pool frame.previous).map Card.tag =
        (s.pile tag).cards.map Card.tag ↔ frame.previous = s.stack.top :=
      tags_eq_iff hs.accounted htag (hs.accounted.toBalanced.below_alive hf) hs.live
    rw [repush_eq hstash hf]
    simp only [Pile.repush, hset]
    by_cases hprev : frame.previous = s.stack.top
    · have hw := steppedIn_within face_lasting.counts s id stash
      have hview := steppedIn_view face_lasting.counts hs hstash hf hprev
      have hrest := stash_kept hs (steppedIn_sound hs hstash hf hprev) hw tag
      have hcards : ((s.steppedIn id stash).pile tag).cards =
          ⟨tag id, frame.face⟩ :: (s.pile tag).cards := pile_below hview
      rw [if_neg (not_not_intro hprev), if_pos (htags.mpr hprev)]
      refine ⟨tag, .refl _ tag, (htag.shrink hw).succ, rfl, ?_, rfl⟩
      rw [← hcards]
      exact congrArg (fun cards => Pile.mk _ (cards.filterMap takeTop)) hrest.symm
    · rw [if_pos hprev, if_neg fun e => hprev (htags.mp e)]
      exact simulated_stay htag rfl

/-- **An operation on a stack does to its list what the operation on lists says.** -/
theorem operate_simulates (op : Operation) :
    Simulated s tag made (s.operate op)
      ((s.pile tag).operate s.ns s.limits made s.family.clock op) := by
  cases op with
  | push definition args newCall => exact push_simulated hs htag _ _ _
  | pushCall call newCall => exact pushCall_simulated hs htag call newCall
  | pop => exact pop_simulated hs htag
  | unpush => exact unpush_simulated hs htag
  | repush => exact repush_simulated hs htag

theorem branch_simulated (sharing : Bool) : ∃ tag', SameTags s.family.pool tag tag' ∧
    Tagged tag' (s.branch sharing).family.pool (made + 1) ∧
    (s.branch sharing).pile tag' = (s.pile tag).branch made := by
  cases htop : s.stack.top with
  | none =>
    rw [branch_empty sharing htop]
    refine ⟨tag, .refl _ tag, htag.succ, ?_⟩
    simp only [Pile.branch, pile, pileOf, htop, cardsOf_none]
    rfl
  | some id =>
    obtain ⟨frame, hf⟩ := hs.live _ htop
    obtain ⟨new, hnew, hunused, hview, hstash⟩ := branch_view face_lasting hs sharing htop hf
    obtain ⟨copied, hpl, _, _, hpool, hplaced, _⟩ := branch_placed face_lasting hs sharing htop hf
    have hold : ∀ id frame', (s.branch sharing).family.pool.get? id = some frame' →
        id = new ∨ ∃ old, s.family.pool.get? id = some old := by
      intro id frame' h
      have hw := linkBelow_within face_lasting.counts hs.accounted.tidy hpl
      rw [← hpool] at hw
      obtain ⟨found, hfd, _, _⟩ := hw id frame' h
      rcases Pool.get?_of_alloc hs.accounted.tidy hfd with ⟨e, _⟩ | ⟨_, hfd⟩
      · exact .inl (e.trans (Option.some.inj (hplaced.symm.trans hnew)))
      · exact .inr ⟨found, hfd⟩
    obtain ⟨hsame, htagged⟩ := htag.grow hunused hold
    refine ⟨_, hsame, htagged, ?_⟩
    have hcards := cardsOf_placed hs.accounted hview (hs.accounted.toBalanced.below_alive hf) hsame
    simp only [Pile.branch, pile_cards hs htop hf]
    rw [pile, pileOf, hcards, hstash]
    rfl

end

theorem orStay_move {result : Except Fault Session} (h : ∀ {s'}, result = .ok s' → Move s s') :
    Move s (orStay s result).2 := by
  cases result with
  | error fault => exact .fail
  | ok s' => exact h rfl

theorem operate_move (s : Session) (op : Operation) : Move s (s.operate op).2 := by
  cases op with
  | push definition args newCall => exact .push definition args newCall
  | pushCall call newCall => exact .pushCall call newCall
  | pop => exact orStay_move .pop
  | unpush => exact orStay_move .unpush
  | repush => exact orStay_move .repush

end Session

end KeepTree
