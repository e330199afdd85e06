import KeepTree.Proofs.Keeping.Slots
import KeepTree.Proofs.Workspace.Piles

/-!
# The root on record

A stack has a frame on record as its root, which should be the bottom frame, and site frames share its
cache. The record is kept by pushes, pops and branches. Stepping out and back in do not touch it,
though they too can empty a stack and fill it again; so it is right as long as nothing is pushed on an
empty stack while the bottom frame is set aside:

* `enter_grounded_iff` -- a push keeps the record right **if and only if** it observes the terms;
* `Workspace.root_is_bottom` -- **the root on record is the bottom frame**.
-/

namespace KeepTree

open KeepTree.Frame Pool List Option

variable {terms : Terms} {ns : Namespace} {limits : Limits} {w : Workspace} {pool pool' : Pool}
  {s : Session}

/-! ## 1. Facts about each stack -/

/-- A fact about a stack in the pool of its family that empty stacks have, moves of the stack itself and
    branches off it keep up, and other stacks leave alone. -/
structure Stack.Kept (terms : Terms) (P : Pool → Stack → Prop) : Prop where
  empty : ∀ pool, P pool {}
  move : ∀ {s s' : Session} {rest : List Stack}, s.Sound s.limits rest →
    P s.family.pool s.stack → s.MoveBy terms s' → P s'.family.pool s'.stack
  branch : ∀ {s : Session} {rest : List Stack} (sharing : Bool),
    s.Sound s.limits rest → P s.family.pool s.stack →
    P (s.branch sharing).family.pool (s.branch sharing).stack
  other : ∀ {s s' : Session} {members rest : List Stack} {t : Stack},
    s.Sound s.limits rest → s.Change Session.Move s' members → t ∈ s.stack :: rest →
    t ∈ members ++ rest → P s.family.pool t → P s'.family.pool t

namespace Workspace

variable {P : Pool → Stack → Prop}

theorem each_kept (hP : Stack.Kept terms P) (ns : Namespace) (limits : Limits) :
    Family.Kept (Session.MoveBy terms) ns limits fun family members =>
      family.Sound limits members ∧ ∀ t ∈ members, P family.pool t where
  perm h hperm := ⟨h.1.perm hperm, fun t ht => h.2 t (hperm.mem_iff.mpr ht)⟩
  start root := ⟨Family.sound_new root limits, forall_mem_singleton.mpr (hP.empty _)⟩
  change := fun {s s' members rest} _ hlim ⟨hs, heach⟩ hchange => by
    subst hlim
    obtain ⟨hself, hrest⟩ := forall_mem_cons.mp heach
    have hchanged := hchange.mono Session.MoveBy.move
    refine ⟨hchanged.sound hs, fun t ht => ?_⟩
    rcases mem_append.mp ht with hnew | hstay
    · cases hchange with
      | move hmove _ =>
        obtain rfl := mem_singleton.mp hnew
        exact hP.move hs hself hmove
      | branch sharing =>
        rcases mem_cons.mp hnew with rfl | hold
        · exact hP.branch sharing hs hself
        · obtain rfl := mem_singleton.mp hold
          exact hP.other hs (.branch sharing) mem_cons_self ht hself
      | close => cases hnew
    · exact hP.other hs hchanged (mem_cons_of_mem _ hstay) ht (hrest t hstay)

/-- **What each stack keeps up holds of every stack at all times.** -/
theorem Run.each (hP : Stack.Kept terms P) (hrun : (Workspace.new ns limits).Run terms w) {i : Nat}
    {family : Family} (hfam : w.families[i]? = some family) :
    ∀ t ∈ w.stacksOf i, P family.pool t :=
  (Roster.Acts.holds (each_kept hP ns limits) (hrun.acts (Roster.new_numbered ns limits)) hfam).2

end Workspace

/-! ## 2. Bottom frames -/

/-- The bottom frame of a chain. -/
def Pool.bottom? (pool : Pool) (top : Option FrameId) : Option FrameId :=
  (pool.chain top).getLast?.map (·.1)

/-- The bottom frames among those that were set aside. -/
def Stack.bottoms (t : Stack) (pool : Pool) : List FrameId :=
  t.stash.filter fun id => pool.height (some id) == 1

/-- The root on record is the bottom frame. An empty stack may have set its bottom frame aside, and no
    more than one; then that one is on record. -/
structure Stack.Grounded (t : Stack) (pool : Pool) : Prop where
  root_eq : t.root = (pool.bottom? t.top).or (t.bottoms pool).head?
  one : (t.bottoms pool).length ≤ 1
  bottoms_eq : ∀ id, t.top = some id → t.bottoms pool = []

/-- Nothing is pushed on an empty stack that has set its bottom frame aside. -/
def Terms.grounded : Terms where
  push s _ := s.stack.top = none → s.stack.bottoms s.family.pool = []
  addKeep _ _ := True
  put _ _ := True
  putValue _ _ := True

namespace Pool

variable {top : Option FrameId}

theorem bottom?_eq_view (pool : Pool) (top : Option FrameId) :
    pool.bottom? top = (pool.view face top).getLast?.map (·.1) := by
  rw [view, getLast?_map, Option.map_map]
  rfl

theorem height_eq_view (pool : Pool) (top : Option FrameId) :
    pool.height top = (pool.view face top).length := by
  rw [height, view, length_map]

end Pool

namespace Stack

variable {t t' : Stack}

theorem bottoms_eq_of_akin (hakin : Pool.Akin face pool pool') (hstash : t'.stash = t.stash)
    (hlive : ∀ id ∈ t.stash, ∃ frame, pool.get? id = some frame)
    (hlive' : ∀ id ∈ t.stash, ∃ frame, pool'.get? id = some frame) :
    t'.bottoms pool' = t.bottoms pool := by
  unfold bottoms
  rw [hstash]
  refine filter_congr fun id hid => ?_
  have hview : pool'.view face (some id) = pool.view face (some id) := by
    refine hakin (some id) ?_ ?_
    · rintro _ ⟨⟩
      exact hlive id hid
    · rintro _ ⟨⟩
      exact hlive' id hid
  rw [height_eq_view, height_eq_view, hview]

theorem Grounded.of_akin (h : t.Grounded pool) (hakin : Pool.Akin face pool pool')
    (hlive : ∀ id ∈ t.held, ∃ frame, pool.get? id = some frame)
    (hlive' : ∀ id ∈ t.held, ∃ frame, pool'.get? id = some frame) : t.Grounded pool' := by
  have hbots : t.bottoms pool' = t.bottoms pool :=
    bottoms_eq_of_akin hakin rfl (fun id hid => hlive id (mem_append_right _ hid))
      fun id hid => hlive' id (mem_append_right _ hid)
  have hbot : pool'.bottom? t.top = pool.bottom? t.top := by
    rw [bottom?_eq_view, bottom?_eq_view]
    refine congrArg (fun l : List (FrameId × Face) => l.getLast?.map (·.1)) (hakin t.top ?_ ?_)
    · exact fun id hid => hlive id (mem_append_left _ (mem_toList.mpr hid))
    · exact fun id hid => hlive' id (mem_append_left _ (mem_toList.mpr hid))
  exact ⟨by rw [hbot, hbots]; exact h.root_eq, hbots ▸ h.one, hbots ▸ h.bottoms_eq⟩

end Stack

/-! ## 3. Moves -/

namespace Session

variable {s' : Session} {rest : List Stack} {id : FrameId} {frame : Frame}

/-- The root on record is the bottom frame of the stack. -/
def Grounded (s : Session) : Prop := s.stack.Grounded s.family.pool

/-- The bottom frames that the stack has set aside. -/
def bottoms (s : Session) : List FrameId := s.stack.bottoms s.family.pool

theorem bottom?_eq (s : Session) :
    s.family.pool.bottom? s.stack.top = (s.view face).getLast?.map (·.1) :=
  s.family.pool.bottom?_eq_view s.stack.top

theorem size_lt_of_enter {engine : Engine} (hs' : (s.enter frame engine).Sound s.limits rest) :
    s.stack.size < s.limits.maxDepth := by
  obtain ⟨top, htop⟩ : ∃ id, (s.enter frame engine).stack.top = some id := ⟨_, rfl⟩
  obtain ⟨found, hfd⟩ := hs'.live _ htop
  have hsize : s.stack.size + 1 = _ := hs'.size_eq _ mem_cons_self
  rw [htop] at hsize
  have hheight := hs'.height_le top found hfd
  omega

theorem view_ne_nil (hs : s.Sound s.limits rest) (htop : s.stack.top = some id) :
    s.view face ≠ [] := by
  obtain ⟨frame, hf⟩ := hs.live _ htop
  rw [view_cons hs htop hf]
  exact cons_ne_nil _ _

theorem top_of_view_eq_nil (hs : s.Sound s.limits rest)
    (h : s.view face = []) : s.stack.top = none := by
  cases htop : s.stack.top with
  | none => rfl
  | some id => exact absurd h (view_ne_nil hs htop)

theorem view_of_top_eq_none (htop : s.stack.top = none) : s.view face = [] := by
  rw [view, htop, view_none]

theorem Grounded.root_eq_view (h : s.Grounded) (htop : s.stack.top = some id) :
    s.stack.root = (s.view face).getLast?.map (·.1) := by
  rw [h.root_eq, h.bottoms_eq id htop, bottom?_eq]
  exact or_none

theorem grounded_of_view (hroot : s.stack.root = (s.view face).getLast?.map (·.1))
    (hbots : s.bottoms = []) : s.Grounded := by
  have hbots : s.stack.bottoms s.family.pool = [] := hbots
  refine ⟨?_, ?_, fun _ _ => hbots⟩
  · rw [hbots, bottom?_eq, hroot]
    exact or_none.symm
  · rw [hbots]
    exact Nat.zero_le 1

theorem bottoms_eq_of_akin (hs : s.Sound s.limits rest) (hs' : s'.Sound s.limits rest)
    (hakin : Pool.Akin face s.family.pool s'.family.pool)
    (hstash : s'.stack.stash = s.stack.stash) : s'.bottoms = s.bottoms := by
  refine Stack.bottoms_eq_of_akin hakin hstash hs.stash_live ?_
  exact fun id hid => hs'.stash_live id (hstash ▸ hid)

section

variable (h : s.Grounded) (hs : s.Sound s.limits rest)
include h hs

/-- **A push keeps the record right if and only if** no bottom frame is set aside below it. -/
theorem enter_grounded_iff
    (hfresh : s.Fresh frame) (hdepth : s.stack.size < s.limits.maxDepth) (engine : Engine) :
    (s.enter frame engine).stack.root =
        (s.enter frame engine).family.pool.bottom? (s.enter frame engine).stack.top ↔
      (s.stack.top = none → s.bottoms = []) := by
  obtain ⟨new, htop, hunused, hview, _⟩ := enter_view face_lasting.counts hs hfresh hdepth engine
  have hroot : (s.enter frame engine).stack.root = s.stack.root.or (some new) := by
    rw [← htop]
    rfl
  rw [bottom?_eq, hview, hroot]
  cases hold : s.stack.top with
  | some id =>
    obtain ⟨entry, below, hcons⟩ := exists_cons_of_ne_nil (view_ne_nil hs hold)
    have hroot := h.root_eq_view hold
    rw [hroot, hcons, getLast?_cons_cons, getLast?_eq_some_getLast (cons_ne_nil _ _)]
    simp
  | none =>
    have hroot : s.stack.root = s.bottoms.head? := by
      rw [h.root_eq, hold, bottom?, chain_none]
      rfl
    rw [hroot, view_of_top_eq_none hold]
    cases hbots : s.bottoms with
    | nil => simp
    | cons first others =>
      -- the frame on record is alive, and the new one was not
      have hmem : first ∈ s.stack.stash := mem_of_mem_filter
        (show first ∈ s.bottoms from hbots ▸ mem_cons_self)
      have hne : first ≠ new := by
        rintro rfl
        obtain ⟨_, hlive⟩ := hs.stash_live first hmem
        cases hunused.symm.trans hlive
      simp [hne]

theorem push_grounded (hpush : s.Push s') (hterms : Terms.grounded.push s s') : s'.Grounded := by
  have heff := hpush.move.effect
  have hs' := heff.sound hs
  have hakin := heff.akin face_lasting hs
  rcases hpush.enters with rfl | ⟨frame, engine, hfresh, rfl⟩
  · exact h
  · have hbots : (s.enter frame engine).bottoms = s.bottoms :=
      bottoms_eq_of_akin hs hs' hakin rfl
    refine grounded_of_view ?_ ?_
    · rw [← bottom?_eq]
      exact (enter_grounded_iff h hs hfresh (size_lt_of_enter hs') engine).mpr hterms
    · rw [hbots]
      cases htop : s.stack.top with
      | none => exact hterms htop
      | some id => exact h.bottoms_eq id htop

theorem pop_grounded (hpop : s.pop = .ok s') : s'.Grounded := by
  have heff : s.Effect s' := .pop hpop
  have hs' := heff.sound hs
  obtain ⟨id, frame, htop, hf, rfl⟩ := pop_ok hpop
  have hview := popped_view face_lasting.counts hs htop hf
  have hroot := h.root_eq_view htop
  have hsize : s.stack.size - 1 = ((s.popped id frame).view face).length := by
    have hheight := hs'.size_eq (s.popped id frame).stack mem_cons_self
    rw [height_eq_view] at hheight
    exact hheight
  refine grounded_of_view ?_ ?_
  · show (if s.stack.size - 1 = 0 then none else s.stack.root) = _
    rw [hsize, hroot, hview]
    cases (s.popped id frame).view face with
    | nil => rfl
    | cons entry below => rw [if_neg (by simp), getLast?_cons_cons]
  · have hbots : (s.popped id frame).bottoms = s.bottoms :=
      bottoms_eq_of_akin hs hs' (heff.akin face_lasting hs) rfl
    exact hbots.trans (h.bottoms_eq id htop)

theorem steppedOut_bottoms (htop : s.stack.top = some id) (hf : s.frame? id = some frame) :
    (s.steppedOut id frame).bottoms =
      if ((s.steppedOut id frame).view face).length = 0 then [id] else [] := by
  have heff : s.Effect (s.steppedOut id frame) := .unpush (unpush_eq htop hf)
  have hs' := heff.sound hs
  have hakin := heff.akin face_lasting hs
  have hview := steppedOut_view face_lasting.counts hs htop hf
  have hheight : (s.steppedOut id frame).family.pool.height (some id) =
      ((s.steppedOut id frame).view face).length + 1 := by
    have hsame := hakin (some id) (by rintro _ ⟨⟩; exact ⟨frame, hf⟩)
      (by rintro _ ⟨⟩; exact hs'.stash_live id mem_cons_self)
    rw [height_eq_view, hsame, ← length_cons (a := (id, frame.face)), ← hview, view, htop]
  have hbots : s.stack.bottoms (s.steppedOut id frame).family.pool = s.bottoms :=
    Stack.bottoms_eq_of_akin hakin rfl hs.stash_live
      fun other hmem => hs'.stash_live other (mem_cons_of_mem _ hmem)
  have hstash : s.stack.stash.filter (fun other =>
      (s.steppedOut id frame).family.pool.height (some other) == 1) = [] :=
    hbots.trans (h.bottoms_eq id htop)
  have hset : (s.steppedOut id frame).stack.stash = id :: s.stack.stash := rfl
  rw [bottoms, Stack.bottoms, hset, filter_cons, hstash, hheight]
  simp

theorem unpush_grounded (hunp : s.unpush = .ok s') : s'.Grounded := by
  have hs' := (Effect.unpush hunp).sound hs
  obtain ⟨id, frame, htop, hf, rfl⟩ := unpush_ok hunp
  have hview := steppedOut_view face_lasting.counts hs htop hf
  have hbots := steppedOut_bottoms h hs htop hf
  have hroot : (s.steppedOut id frame).stack.root = (s.view face).getLast?.map (·.1) :=
    h.root_eq_view htop
  cases hleft : (s.steppedOut id frame).view face with
  | cons entry below =>
    refine grounded_of_view ?_ ?_
    · rw [hroot, hview, hleft, getLast?_cons_cons]
    · rw [hbots, hleft]
      rfl
  | nil =>
    -- the bottom frame is set aside, and stays on record
    rw [hleft] at hbots hview
    have hnone := top_of_view_eq_nil hs' hleft
    refine ⟨?_, ?_, ?_⟩
    · rw [bottom?_eq, hleft, hroot, hview]
      exact (congrArg head? hbots).symm
    · exact Nat.le_of_eq (congrArg length hbots)
    · intro other hoth
      cases hnone.symm.trans hoth

theorem repush_grounded (hrep : s.repush = .ok s') : s'.Grounded := by
  have heff : s.Effect s' := .repush hrep
  have hs' := heff.sound hs
  have hakin := heff.akin face_lasting hs
  obtain ⟨id, frame, stash, hstash, hf, hprev, rfl⟩ := repush_ok hrep
  have hview := steppedIn_view face_lasting.counts hs hstash hf hprev
  have hheight : s.family.pool.height (some id) = (s.view face).length + 1 := by
    rw [height_eq_view, view_some hs.accounted.toBalanced hf, hprev]
    rfl
  have hsplit : s.bottoms = List.filter (fun other => s.family.pool.height (some other) == 1) [id] ++
      (s.steppedIn id stash).bottoms := by
    have hrest : (s.steppedIn id stash).bottoms =
        stash.filter fun other => s.family.pool.height (some other) == 1 :=
      Stack.bottoms_eq_of_akin (t := { s.stack with stash }) hakin rfl
        (fun other hmem => hs.stash_live other (hstash ▸ mem_cons_of_mem _ hmem)) hs'.stash_live
    rw [hrest, ← filter_append, bottoms, Stack.bottoms, hstash]
    rfl
  have hroot : (s.steppedIn id stash).stack.root = s.stack.root := rfl
  cases htop : s.stack.top with
  | some top =>
    obtain ⟨entry, below, hcons⟩ := exists_cons_of_ne_nil (view_ne_nil hs htop)
    have hnone : s.bottoms = [] := h.bottoms_eq top htop
    refine grounded_of_view ?_ (append_eq_nil_iff.mp (hsplit.symm.trans hnone)).2
    rw [hroot, h.root_eq_view htop, hview, hcons, getLast?_cons_cons]
  | none =>
    -- the frame was at the bottom, so it was on record, and no other one was
    have hempty := view_of_top_eq_none htop
    have hbots : s.bottoms = id :: (s.steppedIn id stash).bottoms := by
      rw [hsplit, filter_singleton, hheight, hempty]
      rfl
    refine grounded_of_view ?_ ?_
    · rw [hroot, h.root_eq, htop, bottom?, chain_none, hview, hempty]
      exact congrArg head? hbots
    · have hone : s.bottoms.length ≤ 1 := h.one
      rw [hbots] at hone
      exact eq_nil_of_length_eq_zero (by simpa using hone)

theorem branch_grounded (sharing : Bool) : (s.branch sharing).Grounded := by
  cases htop : s.stack.top with
  | none =>
    rw [branch_empty sharing htop]
    exact grounded_of_view (by rw [view_of_top_eq_none rfl]; rfl) rfl
  | some id =>
    obtain ⟨frame, hf⟩ := hs.live _ htop
    obtain ⟨new, hnew, _, hview, hstash⟩ := branch_view face_lasting hs sharing htop hf
    have hroot : (s.branch sharing).stack.root =
        if s.stack.root = some id then some new else s.stack.root := by
      rw [← hnew, branch_eq sharing htop hf]
    have hbot := h.root_eq_view htop
    rw [view_cons hs htop hf] at hbot
    refine grounded_of_view ?_ ?_
    · rw [hroot, hview]
      rw [getLast?_cons] at hbot ⊢
      cases hlast : (s.family.pool.view face frame.previous).getLast? with
      | none =>
        rw [hlast] at hbot
        exact if_pos hbot
      | some bottom =>
        -- the root stays below, and is not the frame that was copied
        rw [hlast] at hbot
        obtain ⟨⟨other, below⟩, hbel, rfl⟩ := List.mem_map.mp (mem_of_getLast? hlast)
        rw [hbot]
        refine if_neg fun e => ?_
        have hself : other = id := Option.some.inj e
        exact hs.accounted.toBalanced.not_mem_below hf (hself ▸ hbel)
    · rw [bottoms, Stack.bottoms, hstash]
      rfl

end

theorem MoveBy.stack_cases (h : s.MoveBy terms s') : s.Push s' ∧ terms.push s s' ∨
    s.pop = .ok s' ∨ s.unpush = .ok s' ∨ s.repush = .ok s' ∨ s'.stack = s.stack := by
  cases h
  case push hpush hterms => exact .inl ⟨hpush, hterms⟩
  case pop h => exact .inr (.inl h)
  case unpush h => exact .inr (.inr (.inl h))
  case repush h => exact .inr (.inr (.inr (.inl h)))
  all_goals refine .inr (.inr (.inr (.inr ?_)))
  case fail => rfl
  case startIteration h =>
    obtain ⟨_, _, _, _, _, rfl⟩ := startIteration_effect h
    rfl
  case setIteration iter =>
    unfold Session.setIteration
    split <;> rfl
  case addKeep h =>
    obtain ⟨_, _, _, _, rfl | ⟨_, _, _, rfl⟩⟩ := addKeep_ok h <;> rfl
  case lookup request =>
    obtain ⟨_, _, e⟩ := lookup_effect s request
    rw [e]
    rfl
  case putWithin key holder levels _ =>
    obtain ⟨_, _, e⟩ := putWithin_effect s key holder levels
    rw [e]
    rfl
  case putValue h =>
    obtain ⟨_, _, rfl⟩ := putValue_effect h
    rfl
  case computation => rfl

/-- **A move that observes the terms keeps the record right.** -/
theorem MoveBy.grounded (h : s.MoveBy .grounded s') (hs : s.Sound s.limits rest)
    (hgrounded : s.Grounded) : s'.Grounded := by
  have heff := h.move.effect
  have hs' := heff.sound hs
  rcases h.stack_cases with ⟨hpush, hterms⟩ | hpop | hunp | hrep | hstack
  · exact push_grounded hgrounded hs hpush hterms
  · exact pop_grounded hgrounded hs hpop
  · exact unpush_grounded hgrounded hs hunp
  · exact repush_grounded hgrounded hs hrep
  · rw [Grounded, hstack]
    exact hgrounded.of_akin (heff.akin face_lasting hs)
      (fun id hid => hs.held_live mem_cons_self hid)
      fun id hid => hs'.held_live mem_cons_self (hstack ▸ hid)

theorem grounded_kept : Stack.Kept .grounded fun pool t => t.Grounded pool where
  empty pool := ⟨by rw [bottom?, chain_none]; rfl, Nat.zero_le 1, fun _ _ => rfl⟩
  move hs h hmove := hmove.grounded hs h
  branch sharing hs h := branch_grounded h hs sharing
  other hs hchange ht ht' h := h.of_akin (hchange.akin hs face_lasting)
    (fun id hid => hs.held_live ht hid) fun id hid => (hchange.sound hs).held_live ht' hid

theorem orStay_moveBy {moved : Except Fault Session}
    (h : ∀ s', moved = .ok s' → s.MoveBy terms s') : s.MoveBy terms (orStay s moved).2 := by
  cases moved with
  | error fault => exact .fail
  | ok s' => exact h s' rfl

theorem frames_eq_nil_iff (hs : s.Sound s.limits rest) : s.frames = [] ↔ s.stack.top = none := by
  have hview : s.view face = [] ↔ s.frames = [] := map_eq_nil_iff
  rw [← hview]
  exact ⟨top_of_view_eq_nil hs, view_of_top_eq_none⟩

theorem Grounded.rootFrame?_eq (h : s.Grounded) (htop : s.stack.top = some id) :
    s.rootFrame? = s.frames.getLast?.map (·.2) := by
  have hroot : s.stack.root = s.frames.getLast?.map (·.1) := by
    rw [h.root_eq, h.bottoms_eq id htop]
    exact or_none
  rw [rootFrame?, hroot]
  cases hlast : s.frames.getLast? with
  | none => rfl
  | some bottom => exact get?_of_mem_chain (mem_of_getLast? hlast)

/-- **A site frame that is pushed shares the cache of the bottom frame.** -/
theorem Grounded.shares (h : s.Grounded) (hs : s.Sound s.limits rest) (hpush : s.Push s')
    (hsize : s.stack.size < s'.stack.size) {d : Definition} (hfr : s'.topFrame? = some frame)
    (hd : s.ns.get? frame.definition = some d) (hsite : d.isSite = true) {bottom : FrameId × Frame}
    (hbot : s.frames.getLast? = some bottom) : frame.cache = bottom.2.cache := by
  rcases hpush.made with rfl | ⟨bound, found, newCall, hfd, rfl⟩
  · exact absurd hsize (Nat.lt_irrefl _)
  · obtain ⟨new, hnew, _, hget⟩ := enter_top hs (s.frameFor bound found s.topFrame? newCall).2.1
      (s.frameFor bound found s.topFrame? newCall).2.2
    rw [topFrame?, hnew, bind_some, hget] at hfr
    cases hfr
    obtain ⟨_, _, hdef, _⟩ := frameFor_effect s bound found s.topFrame? newCall
    rw [hdef, hfd] at hd
    cases hd
    obtain ⟨id, htop⟩ : ∃ id, s.stack.top = some id := by
      refine ne_none_iff_exists'.mp fun hnone => ?_
      rw [(frames_eq_nil_iff hs).mpr hnone] at hbot
      cases hbot
    have hroot : s.rootFrame? = some bottom.2 := by
      rw [h.rootFrame?_eq htop, hbot]
      rfl
    rw [frameFor_cache, homeFor_shared hsite hroot]

end Session

namespace Workspace

variable {ns : Namespace} {limits : Limits} {w : Workspace} {name : String} {s : Session}

/-- **The root on record is the bottom frame.** In a run in which nothing is pushed on an empty stack
    while its bottom frame is set aside, every stack that is not empty has its bottom frame on record,
    an empty stack has the bottom frame that it has set aside, if any, and a site frame shares the cache
    of the bottom frame of the stack it is pushed on. A push that does not observe the terms leaves a
    frame on record that is not at the bottom. -/
theorem root_is_bottom (hrun : (Workspace.new ns limits).Run .grounded w)
    (hs : w.session? name = some s) :
    (s.frames ≠ [] → s.stack.root = s.frames.getLast?.map (·.1) ∧
      s.rootDefinition? = s.frames.getLast?.map (·.2.definition)) ∧
    (s.frames = [] → s.stack.root = s.bottoms.head? ∧
      (s.stack.stash = [] → s.rootDefinition? = none)) ∧
    ∀ s', s.Push s' → s.stack.size < s'.stack.size →
      (s'.stack.root = s'.frames.getLast?.map (·.1) ↔ (s.frames = [] → s.bottoms = [])) ∧
      ∀ frame d, s'.topFrame? = some frame → ns.get? frame.definition = some d → d.isSite = true →
        ∀ bottom, s.frames.getLast? = some bottom → frame.cache = bottom.2.cache := by
  have hw := hrun.reachable .new
  obtain ⟨rest, hfit⟩ := hw.fit hs
  have hsound := hfit.sound
  have hempty := Session.frames_eq_nil_iff hsound
  obtain ⟨_, hfamily, hmem⟩ := hw.session hs
  have hgrounded : s.Grounded :=
    hrun.each Session.grounded_kept hfamily _ hmem
  refine ⟨fun hne => ?_, fun hnil => ?_, fun s' hpush hsize => ⟨?_, ?_⟩⟩
  · obtain ⟨id, htop⟩ := Option.ne_none_iff_exists'.mp fun hnone => hne (hempty.mpr hnone)
    refine ⟨?_, ?_⟩
    · rw [hgrounded.root_eq, hgrounded.bottoms_eq id htop]
      exact Option.or_none
    · rw [Session.rootDefinition?, hgrounded.rootFrame?_eq htop, Option.map_map]
      rfl
  · have hroot : s.stack.root = s.bottoms.head? := by
      rw [hgrounded.root_eq, hempty.mp hnil, Pool.bottom?, Pool.chain_none]
      rfl
    refine ⟨hroot, fun hstash => ?_⟩
    rw [Session.rootDefinition?, Session.rootFrame?, hroot, Session.bottoms, Stack.bottoms, hstash]
    rfl
  · have hs' := hpush.move.effect.sound hsound
    rcases hpush.enters with rfl | ⟨frame, engine, hfresh, rfl⟩
    · exact absurd hsize (Nat.lt_irrefl _)
    · rw [hempty]
      exact Session.enter_grounded_iff hgrounded hsound hfresh (Session.size_lt_of_enter hs') engine
  · intro frame d hframe hd hsite bottom hbottom
    rw [← hfit.ns_eq] at hd
    exact hgrounded.shares hsound hpush hsize hframe hd hsite hbottom

/-- A gate, a path and a stand, which is a site. -/
def park : Namespace where
  definitions := #[
    { name := "gate", fullName := "gate" },
    { name := "path", fullName := "path" },
    { name := "stand", fullName := "stand", kind := .site, site := some 2 }]
  roots := ((Dictionary.empty.insert "gate" 0).insert "path" 1).insert "stand" 2

/-- A stack at the gate, the same outside of it, and back in. -/
def atGate : Session := (Session.operate ⟨.new park {}, .new 0 {}, {}⟩ (.push 0 [] true)).2

def outside : Session := (atGate.operate .unpush).2

def backIn : Session := (outside.operate .repush).2

def parkOpened : Workspace :=
  ((((Workspace.new park {}).start "main").put "main" atGate).put "main" outside).put "main" backIn

/-- Back at the gate, the gate is on record, and a stand shares its cache. -/
theorem root_is_bottom_park : backIn.names = ["gate"] ∧
    backIn.rootDefinition? = backIn.frames.getLast?.map (·.2.definition) ∧
    ∃ frame bottom, (backIn.push 2 [] true).2.topFrame? = some frame ∧ frame.definition = 2 ∧
      backIn.frames.getLast? = some bottom ∧ frame.cache = bottom.2.cache := by
  have hstarted : ((Workspace.new park {}).start "main").session? "main" =
      some ⟨.new park {}, .new 0 {}, {}⟩ := rfl
  have hrun : (Workspace.new park {}).Run .grounded parkOpened := by
    refine .step (.step (.step (.step .refl (.start "main"))
      (.move hstarted (.push (.push 0 [] true) fun _ => rfl)))
      (.move (session?_put ?_) (Session.orStay_moveBy fun _ h => .unpush h)))
      (.move (session?_put ?_) (Session.orStay_moveBy fun _ h => .repush h))
    all_goals decide +kernel
  have hs : parkOpened.session? "main" = some backIn := session?_put (by decide +kernel)
  obtain ⟨hfull, _, hpushed⟩ := root_is_bottom hrun hs
  have hne : backIn.frames ≠ [] := by
    rw [← List.length_pos_iff]
    decide +kernel
  obtain ⟨bottom, hbottom⟩ : ∃ bottom, backIn.frames.getLast? = some bottom :=
    ⟨_, List.getLast?_eq_some_getLast hne⟩
  have hread : (backIn.push 2 [] true).2.topDefinition? = some 2 := by decide +kernel
  obtain ⟨frame, hframe, hdefinition⟩ := Option.map_eq_some_iff.mp hread
  have hd : park.get? frame.definition = some park.definitions[2] := by
    rw [hdefinition]
    rfl
  have hshared := (hpushed _ (.push 2 [] true) (by decide +kernel)).2 frame _ hframe hd rfl
  exact ⟨by decide +kernel, (hfull hne).2, frame, bottom, hframe, hdefinition, hbottom,
    hshared bottom hbottom⟩

/-- **A push on an empty stack leaves the frame that was set aside on record**, and a stand then shares
    the cache of that one. Once the frame that was pushed is popped, the one that was set aside can be
    stepped into, and is not on record any more. -/
theorem root_left_behind :
    ((outside.push 1 [] true).2.names, (outside.push 1 [] true).2.rootDefinition?) =
        (["path"], some 0) ∧
      (((outside.push 1 [] true).2.push 2 [] true).2.frames.map (·.2.cache)).Nodup ∧
      ((outside.push 1 [] true).2.pop.toOption.bind fun popped =>
        popped.repush.toOption.map fun back => (back.names, back.rootDefinition?)) =
        some (["gate"], none) := by
  decide +kernel

end Workspace

end KeepTree
