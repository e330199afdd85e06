import KeepTree.Proofs.Workspace.Piles
import KeepTree.Proofs.Workspace.Reachable

/-!
# Stacks are lists

Frames are shared between stacks, released and used again, but nothing of this can be seen: a
workspace does what plain lists do.

* `stacks_are_lists` -- **whatever is done, a workspace and a desk of lists come out alike**.
-/

namespace KeepTree

open Dictionary Family List

variable {name : String} {s s' : Session} {members rest : List Stack} {tag' : FrameId → Nat}
  {seat : Seat}

/-! ## 1. One action on a workspace -/

theorem Session.Change.pileOf_eq {tag : FrameId → Nat} (h : s.Change Move s' members)
    (hs : s.Sound s.limits rest) (htags : SameTags s.family.pool tag tag')
    {t : Stack} (ht : t ∈ s.stack :: rest) (ht' : t ∈ members ++ rest) :
    KeepTree.pileOf tag' s'.family.pool t = KeepTree.pileOf tag s.family.pool t := by
  exact KeepTree.pileOf_eq hs.accounted (h.akin hs face_lasting) htags
    (fun id hid => hs.held_live ht hid) fun id hid => (h.sound hs).held_live ht' hid

namespace Workspace

variable {ns : Namespace} {limits : Limits} {w : Workspace} {unnamed : List Seat}
  {tag : Nat → FrameId → Nat} {d : Desk}

/-- The frames of a family. -/
def poolOf (w : Workspace) (i : Nat) : Pool :=
  match w.families[i]? with
  | some family => family.pool
  | none => { recycle := false }

/-- A stack as a list, with the number of its family. -/
def shown (w : Workspace) (tag : Nat → FrameId → Nat) (seat : Seat) : Nat × Pile :=
  (seat.family, pileOf (tag seat.family) (w.poolOf seat.family) seat.stack)

/-- A desk shows the stacks of a workspace. -/
structure Shows (tag : Nat → FrameId → Nat) (w : Workspace) (d : Desk) : Prop where
  clocks_eq : d.clocks = w.families.map clock
  tagged : ∀ i, Tagged (tag i) (w.poolOf i) d.made
  piles_eq : ∀ name, d.piles.get? name = (w.seats.get? name).map (w.shown tag)

theorem poolOf_adopt (h : s.family.root < w.families.size) (i : Nat) :
    (w.adopt s).poolOf i = if i = s.family.root then s.family.pool else w.poolOf i := by
  simp only [poolOf, adopt, Array.getElem?_setIfInBounds]
  by_cases e : s.family.root = i
  · subst e
    simp [h]
  · simp [e, Ne.symm e]

theorem poolOf_eq {i : Nat} {family : Family} (h : w.families[i]? = some family) :
    w.poolOf i = family.pool := by
  rw [poolOf, h]

/-- The tags of one family are replaced. -/
def retag (tag : Nat → FrameId → Nat) (root : Nat) (tag' : FrameId → Nat) :
    Nat → FrameId → Nat :=
  fun i => if i = root then tag' else tag i

/-- **A change of one stack is not seen by any other.** -/
theorem shown_adopt (hw : (w.roster unnamed).Reachable ns limits) (hs : w.session? name = some s)
    (h : s.Change Session.Move s' members) (htags : SameTags s.family.pool (tag s.family.root) tag')
    (hseat : seat ∈ unnamed ++ (w.seats.erase name).values ∨
      seat = ⟨s.family.root, s.stack⟩ ∧ s.stack ∈ members) :
    (w.adopt s').shown (retag tag s.family.root tag') seat = w.shown tag seat := by
  obtain ⟨_, hfam, _⟩ := session?_eq_some hw.numbered hs
  have hroot := h.kin.root_eq
  have hlt : s'.family.root < w.families.size := by
    rw [hroot]
    exact (Array.getElem?_eq_some_iff.mp hfam).1
  simp only [shown, poolOf_adopt hlt, hroot, retag]
  by_cases e : seat.family = s.family.root
  · have hmem : seat.stack ∈ s.stack ::
        stacksIn s.family.root (unnamed ++ (w.seats.erase name).values) ∧
        seat.stack ∈ members ++
          stacksIn s.family.root (unnamed ++ (w.seats.erase name).values) := by
      rcases hseat with hseat | ⟨rfl, hstay⟩
      · have hstack : seat.stack ∈
            stacksIn s.family.root (unnamed ++ (w.seats.erase name).values) := by
          simp only [stacksIn, mem_map, mem_filter, decide_eq_true_eq]
          exact ⟨seat, ⟨hseat, e⟩, rfl⟩
        exact ⟨mem_cons_of_mem _ hstack, mem_append_right _ hstack⟩
      · exact ⟨mem_cons_self, mem_append_left _ hstay⟩
    rw [if_pos e, if_pos e, e, poolOf_eq hfam,
      h.pileOf_eq (session_sound hw hs) htags hmem.1 hmem.2]
  · rw [if_neg e, if_neg e]

theorem shown_adopt_self (hfam : w.families[s.family.root]? = some s.family)
    (hroot : s'.family.root = s.family.root) :
    (w.adopt s').shown (retag tag s.family.root tag') ⟨s'.family.root, s'.stack⟩ =
      (s.family.root, s'.pile tag') := by
  rw [shown, poolOf_adopt (hroot ▸ (Array.getElem?_eq_some_iff.mp hfam).1), if_pos rfl, retag,
    if_pos hroot, hroot]
  rfl

theorem Shows.clocks_same (h : Shows tag w d)
    (hfam : w.families[s.family.root]? = some s.family) :
    d.clocks.setIfInBounds s.family.root s.family.clock = d.clocks := by
  refine Array.ext (by simp) fun i hi hi' => ?_
  rw [Array.getElem_setIfInBounds]
  split
  · rename_i e
    subst e
    simp only [h.clocks_eq, Array.getElem_map, (Array.getElem?_eq_some_iff.mp hfam).2]
  · rfl

theorem seat_mem {other : String} (h : w.seats.get? other = some seat) (hne : other ≠ name) :
    seat ∈ unnamed ++ (w.seats.erase name).values := by
  rw [← w.seats.get?_erase_of_ne hne] at h
  exact mem_append_right _ ((perm_of_get? h).mem_iff.mpr mem_cons_self)

/-- **A change of one stack shows in the clock of its family and in its own list only.** Other names
    stay what they were, or end with the change. -/
theorem adopt_shows (hw : (w.roster unnamed).Reachable ns limits) (hshows : Shows tag w d)
    (hs : w.session? name = some s) (h : s.Change Session.Move s' members)
    (htags : SameTags s.family.pool (tag s.family.root) tag') {made : Nat} (hmade : d.made ≤ made)
    (htagged : Tagged tag' s'.family.pool made) {seats : Dictionary String Seat}
    {piles : Dictionary String (Nat × Pile)}
    (hstay : ∀ other, seats.get? other = none ∧ piles.get? other = none ∨
      seats.get? other = w.seats.get? other ∧ piles.get? other = d.piles.get? other ∧
        (other = name → s.stack ∈ members)) :
    Shows (retag tag s.family.root tag') { w.adopt s' with seats }
      ⟨d.clocks.setIfInBounds s.family.root s'.family.clock, made, piles⟩ := by
  obtain ⟨_, hfam, hseat⟩ := session?_eq_some hw.numbered hs
  have hroot := h.kin.root_eq
  have hlt : s'.family.root < w.families.size := hroot ▸ (Array.getElem?_eq_some_iff.mp hfam).1
  refine ⟨?_, fun i => ?_, fun other => ?_⟩
  · simp [hshows.clocks_eq, adopt, hroot]
  · show Tagged _ ((w.adopt s').poolOf i) made
    rw [poolOf_adopt hlt, hroot, retag]
    split
    · exact htagged
    · exact ⟨fun h => Nat.lt_of_lt_of_le ((hshows.tagged i).lt h) hmade, (hshows.tagged i).inj⟩
  · show _ = Option.map _ (seats.get? other)
    rcases hstay other with ⟨hnone, hnone'⟩ | ⟨hsame, hsame', hself⟩
    · rw [hnone, hnone']
      rfl
    · rw [hsame, hsame', hshows.piles_eq]
      cases hoth : w.seats.get? other with
      | none => rfl
      | some seat =>
        refine congrArg some (shown_adopt hw hs h htags ?_).symm
        by_cases e : other = name
        · subst e
          exact .inr ⟨Option.some.inj (hoth.symm.trans hseat), hself rfl⟩
        · exact .inl (seat_mem hoth e)

theorem erase_stays (w : Workspace) (d : Desk) (name : String) (stays : Prop) (other : String) :
    (w.seats.erase name).get? other = none ∧ (d.piles.erase name).get? other = none ∨
      (w.seats.erase name).get? other = w.seats.get? other ∧
        (d.piles.erase name).get? other = d.piles.get? other ∧ (other = name → stays) := by
  by_cases e : other = name
  · subst e
    exact .inl ⟨get?_erase_self _ _, get?_erase_self _ _⟩
  · exact .inr ⟨get?_erase_of_ne _ e, get?_erase_of_ne _ e, fun h => absurd h e⟩

theorem seat_shows (hshows : Shows tag w d) (name : String) (family : Nat) (stack : Stack) :
    Shows tag (w.seat name family stack)
      { d with piles := d.piles.insert name (w.shown tag ⟨family, stack⟩) } := by
  refine ⟨hshows.clocks_eq, hshows.tagged, fun other => ?_⟩
  show get? (d.piles.insert name _) other = Option.map _ ((w.seats.insert name _).get? other)
  by_cases e : other = name
  · subst e
    rw [get?_insert_self, get?_insert_self]
    rfl
  · rw [get?_insert_of_ne _ e, get?_insert_of_ne _ e, hshows.piles_eq]
    rfl

theorem operate_shows (hw : (w.roster []).Reachable ns limits) (hshows : Shows tag w d)
    (hs : w.session? name = some s) (op : Operation) :
    ∃ tag', SameOutcome (s.operate op).1
        ((s.pile (tag s.family.root)).operate ns limits d.made s.family.clock op).1 ∧
      Shows tag' (w.put name (s.operate op).2)
        { clocks := d.clocks.setIfInBounds s.family.root
            ((s.pile (tag s.family.root)).operate ns limits d.made s.family.clock op).2.2
          made := d.made + 1
          piles := d.piles.insert name (s.family.root,
            ((s.pile (tag s.family.root)).operate ns limits d.made s.family.clock
              op).2.1) } := by
  obtain ⟨heng, hfam, _⟩ := session?_eq_some hw.numbered hs
  have hns : s.ns = ns := (congrArg Engine.ns heng).trans hw.numbered.ns_eq
  have hlim : s.limits = limits := (congrArg Engine.limits heng).trans hw.numbered.limits_eq
  have htag := hshows.tagged s.family.root
  rw [poolOf_eq hfam] at htag
  have hmove := s.operate_move op
  have hchange : s.Change Session.Move (s.operate op).2 _ := .move hmove hmove.effect.kin
  have hroot := hchange.kin.root_eq
  obtain ⟨tag', hsame, htagged, hout, hpile, hclock⟩ :=
    Session.operate_simulates (session_sound hw hs) htag op
  rw [hns, hlim] at hout hpile hclock
  have hadopted := adopt_shows hw hshows hs hchange hsame (Nat.le_succ _) htagged
    (erase_stays w d name _)
  have hseated := seat_shows hadopted name (s.operate op).2.family.root (s.operate op).2.stack
  refine ⟨retag tag s.family.root tag', hout, ?_⟩
  rw [hpile, hclock, ← insert_erase, ← shown_adopt_self hfam hroot, put, seat, ← insert_erase]
  exact hseated

theorem finish_shows (hw : (w.roster unnamed).Reachable ns limits) (hshows : Shows tag w d)
    (name : String) :
    Shows tag (w.finish name) { d with piles := d.piles.erase name } ∧
      ∀ seat ∈ unnamed, (w.finish name).shown tag seat = w.shown tag seat := by
  unfold finish
  cases hs : w.session? name with
  | none =>
    have hnone : d.piles.get? name = none := by
      rw [hshows.piles_eq, get?_of_session?_eq_none hw.numbered hs, Option.map_none]
    rw [erase_of_get?_eq_none hnone]
    exact ⟨hshows, fun _ _ => rfl⟩
  | some s =>
    obtain ⟨_, hfam, _⟩ := session?_eq_some hw.numbered hs
    have htag := hshows.tagged s.family.root
    rw [poolOf_eq hfam] at htag
    have hself : retag tag s.family.root (tag s.family.root) = tag := by
      funext i
      rw [retag]
      split
      · rename_i e
        rw [e]
      · rfl
    have hclosed := Pool.unpinAll_within face_lasting.counts
      (s.stack.top.toList ++ s.stack.stash.reverse) s.family.pool
    have hadopted := adopt_shows hw hshows hs .close (.refl _ _) (Nat.le_refl _)
      (htag.shrink hclosed) (erase_stays w d name _)
    rw [hself, show s.close.family.clock = s.family.clock from rfl,
      hshows.clocks_same hfam] at hadopted
    refine ⟨hadopted, fun seat hseat => ?_⟩
    have hshown := shown_adopt hw hs .close (.refl _ (tag s.family.root))
      (.inl (mem_append_left _ hseat))
    rwa [hself] at hshown

/-- One more family. -/
def opened (w : Workspace) : Workspace :=
  { w with families := w.families.push (.new w.families.size w.engine.limits) }

theorem poolOf_opened (w : Workspace) (i : Nat) : w.opened.poolOf i =
    if i = w.families.size then { recycle := w.engine.limits.recycleFrames } else w.poolOf i := by
  simp only [poolOf, opened, Array.getElem?_push]
  by_cases e : i = w.families.size <;> simp [e, Family.new]

section

variable (hw : (w.roster []).Reachable ns limits) (hshows : Shows tag w d)
include hw hshows

theorem start_shows (name : String) :
    Shows tag (w.start name)
      { d with clocks := d.clocks.push 0, piles := d.piles.insert name (d.clocks.size, {}) } := by
  obtain ⟨hfinish, _⟩ := finish_shows hw hshows name
  have hacts : Roster.Acts Session.Move _ _ := (finish_acts hw.numbered name).1
  have hnumbered := hacts.numbered hw.numbered
  show Shows tag ((w.finish name).opened.seat name (w.finish name).families.size {}) _
  generalize w.finish name = w' at *
  have hopened : Shows tag w'.opened
      { d with clocks := d.clocks.push 0, piles := d.piles.erase name } := by
    refine ⟨?_, fun i => ?_, fun other => ?_⟩
    · rw [opened, Array.map_push, ← hfinish.clocks_eq]
      rfl
    · rw [poolOf_opened]
      split
      · exact ⟨fun h => by simp [Pool.get?] at h, fun h => by simp [Pool.get?] at h⟩
      · exact hfinish.tagged i
    · rw [hfinish.piles_eq]
      show _ = Option.map _ (w'.seats.get? other)
      cases hseat : w'.seats.get? other with
      | none => rfl
      | some seat =>
        have hmem : seat ∈ w'.seats.values := (perm_of_get? hseat).mem_iff.mpr mem_cons_self
        have hne : seat.family ≠ w'.families.size := Nat.ne_of_lt (hnumbered.seated seat hmem)
        simp only [Option.map_some, shown, poolOf_opened, if_neg hne]
  have hsize : d.clocks.size = w'.families.size := by
    rw [hfinish.clocks_eq, Array.size_map]
  have hseated := seat_shows hopened name w'.families.size {}
  have hempty : w'.opened.shown tag ⟨w'.families.size, {}⟩ = (d.clocks.size, {}) := by
    rw [shown, hsize, pileOf, cardsOf_none]
    rfl
  rw [hempty, insert_erase] at hseated
  exact hseated

theorem branch_shows (hs : w.session? name = some s) (sharing : Bool) (target : String) :
    ∃ tag', Shows tag' (w.branch s sharing target)
      { d with
        made := d.made + 1
        piles := d.piles.insert target (s.family.root,
          (s.pile (tag s.family.root)).branch d.made) } := by
  obtain ⟨_, hfam, _⟩ := session?_eq_some hw.numbered hs
  have htag := hshows.tagged s.family.root
  rw [poolOf_eq hfam] at htag
  have hchange : s.Change Session.Move (s.branch sharing) _ := .branch sharing
  have hroot := hchange.kin.root_eq
  obtain ⟨tag', hsame, htagged, hpile⟩ :=
    Session.branch_simulated (session_sound hw hs) htag sharing
  -- the branch is there, but has no name yet
  have hadopted := adopt_shows hw hshows hs hchange hsame (Nat.le_succ _) htagged
    fun _ => .inr ⟨rfl, rfl, fun _ => by simp⟩
  rw [s.branch_clock sharing, hshows.clocks_same hfam] at hadopted
  obtain ⟨hfinish, hstay⟩ :=
    finish_shows (hw.trans (branched_acts hw.numbered hs sharing)) hadopted target
  refine ⟨retag tag s.family.root tag', ?_⟩
  rw [← insert_erase, ← hpile, ← shown_adopt_self hfam hroot, ← hstay _ mem_cons_self]
  exact seat_shows hfinish target _ _

/-- **An action on a workspace and the action on its desk come out alike.** -/
theorem act_shows (action : Action) :
    ∃ tag', (w.act action).1.map (Except.mapError Fault.anyFrame) =
        (d.act ns limits action).1.map (Except.mapError Fault.anyFrame) ∧
      Shows tag' (w.act action).2 (d.act ns limits action).2 := by
  have hpile : ∀ {name : String} {s : Session}, w.session? name = some s →
      d.piles.get? name = some (s.family.root, s.pile (tag s.family.root)) ∧
        d.clocks[s.family.root]? = some s.family.clock := by
    intro name s hs
    obtain ⟨_, hfam, hseat⟩ := session?_eq_some hw.numbered hs
    rw [hshows.piles_eq, hseat, hshows.clocks_eq, Array.getElem?_map, hfam]
    simp [shown, poolOf_eq hfam, Session.pile]
  have hnone : ∀ {name : String}, w.session? name = none → d.piles.get? name = none := by
    intro name hs
    rw [hshows.piles_eq, get?_of_session?_eq_none hw.numbered hs, Option.map_none]
  cases action with
  | start name => exact ⟨tag, rfl, start_shows hw hshows name⟩
  | finish name => exact ⟨tag, rfl, (finish_shows hw hshows name).1⟩
  | operate name op =>
    cases hs : w.session? name with
    | none =>
      simp only [act, Desk.act, hs, hnone hs]
      exact ⟨tag, trivial, hshows⟩
    | some s =>
      obtain ⟨tag', hout, hshows'⟩ := operate_shows hw hshows hs op
      simp only [act, Desk.act, hs, hpile hs, Option.getD_some]
      exact ⟨tag', congrArg some hout, hshows'⟩
  | branch name sharing target =>
    cases hs : w.session? name with
    | none =>
      simp only [act, Desk.act, hs, hnone hs]
      exact ⟨tag, trivial, hshows⟩
    | some s =>
      obtain ⟨tag', hshows'⟩ := branch_shows hw hshows hs sharing target
      simp only [act, Desk.act, hs, hpile hs]
      exact ⟨tag', trivial, hshows'⟩

end

theorem act_reachable (hw : w.Reachable ns limits) (action : Action) :
    (w.act action).2.Reachable ns limits := by
  cases action with
  | start name => exact hw.step (.start name)
  | finish name => exact hw.step (.finish name)
  | operate name op =>
    simp only [act]
    split
    · exact hw
    · rename_i s hs
      exact hw.step (.move hs (s.operate_move op))
  | branch name sharing target =>
    simp only [act]
    split
    · exact hw
    · rename_i s hs
      exact hw.step (.branch sharing target hs)

theorem act_seats_of_ne (w : Workspace) (action : Action) (h : name ≠ action.target) :
    (w.act action).2.seats.get? name = w.seats.get? name := by
  have hfinish : ∀ (w : Workspace) {other : String}, name ≠ other →
      (w.finish other).seats.get? name = w.seats.get? name := by
    intro w other hne
    unfold finish
    split
    · exact w.seats.get?_erase_of_ne hne
    · rfl
  cases action with
  | start other => exact (get?_insert_of_ne _ h _).trans (hfinish w h)
  | finish other => exact hfinish w h
  | operate other op =>
    simp only [act]
    split
    · rfl
    · exact get?_insert_of_ne _ h _
  | branch other sharing target =>
    simp only [act]
    split
    · rfl
    · exact (get?_insert_of_ne _ h _).trans (hfinish _ h)

/-! ## 2. Whole runs -/

/-- **Whatever is done, the desk goes on showing the workspace.** -/
theorem run_shows : ∀ (actions : List Action) {w : Workspace} {d : Desk}
    {tag : Nat → FrameId → Nat}, w.Reachable ns limits → Shows tag w d →
    (w.run actions).1.map (Option.map (Except.mapError Fault.anyFrame)) =
        (d.run ns limits actions).1.map (Option.map (Except.mapError Fault.anyFrame)) ∧
      (w.run actions).2.Reachable ns limits ∧
      ∃ tag', Shows tag' (w.run actions).2 (d.run ns limits actions).2
  | [], _, _, tag, hw, hshows => ⟨rfl, hw, tag, hshows⟩
  | action :: rest, w, d, tag, hw, hshows => by
    obtain ⟨tag', hout, hshows'⟩ := act_shows hw.roster hshows action
    obtain ⟨houtcomes, hrun⟩ := run_shows rest (act_reachable hw action) hshows'
    refine ⟨?_, hrun⟩
    simp only [run, Desk.run, map_cons]
    rw [hout, houtcomes]

end Workspace

/-- All that can be seen of a stack is in its list: its height, which is the number of its frames
    and no more than is allowed, the names and faces of the frames, the face of the top one, and how
    many frames are set aside. -/
structure Session.LooksLike (s : Session) (limits : Limits) (p : Pile) : Prop where
  size_eq : s.stack.size = p.cards.length
  size_eq_length : s.stack.size = s.frames.length
  size_le : s.stack.size ≤ limits.maxDepth
  names_eq : s.names = p.cards.map fun card => s.ns.fullName card.face.definition
  faces_eq : (s.frames.map fun (_, frame) => frame.face) = p.cards.map Card.face
  top_eq : s.topFrame?.map Frame.face = p.cards.head?.map Card.face
  stash_eq : s.stack.stash.length = p.stash.length

theorem Session.looksLike_pile (hs : s.Sound s.limits rest)
    (tag : FrameId → Nat) : s.LooksLike s.limits (s.pile tag) where
  size_eq := (pile_length hs tag).symm
  size_eq_length := hs.size_eq s.stack mem_cons_self
  size_le := by
    rw [hs.size_eq s.stack mem_cons_self]
    cases htop : s.stack.top with
    | none => exact (Pool.height_none _) ▸ Nat.zero_le _
    | some id =>
      obtain ⟨frame, hf⟩ := hs.live _ htop
      exact hs.height_le id frame hf
  names_eq := by simp [names, frames, pile, pileOf, cardsOf, Pool.view, Frame.face]
  faces_eq := by simp [frames, pile, pileOf, cardsOf, Pool.view]
  top_eq := (pile_head hs tag).symm
  stash_eq := by
    have hlen : ∀ ids : List FrameId, (∀ id ∈ ids, ∃ frame, s.family.pool.get? id = some frame) →
        ((ids.map fun id => cardsOf tag s.family.pool (some id)).filterMap takeTop).length =
          ids.length := by
      intro ids hlive
      induction ids with
      | nil => rfl
      | cons id ids ih =>
        obtain ⟨frame, hf⟩ := hlive id mem_cons_self
        have hrest := ih fun id hid => hlive id (mem_cons_of_mem _ hid)
        simp only [map_cons, cardsOf_some hs.accounted hf, filterMap_cons, takeTop,
          length_cons, hrest]
    exact (hlen s.stack.stash hs.stash_live).symm

namespace Workspace

/-- **Stacks are lists.** Whatever is done to the stacks of a workspace, in whatever order, every
    action comes out as it does on lists, the same names have stacks and lists, and every stack
    looks like its list. The next action leaves every stack but its target as it is. -/
theorem stacks_are_lists (ns : Namespace) (limits : Limits) (actions : List Action) :
    let (outcomes, w) := (Workspace.new ns limits).run actions
    let (outcomes', d) := ({} : Desk).run ns limits actions
    outcomes.map (Option.map (Except.mapError Fault.anyFrame)) =
        outcomes'.map (Option.map (Except.mapError Fault.anyFrame)) ∧
      (∀ name, w.session? name = none ↔ d.piles.get? name = none) ∧
      (∀ name s family p, w.session? name = some s → d.piles.get? name = some (family, p) →
        s.LooksLike limits p) ∧
      ∀ action name s, name ≠ action.target → w.session? name = some s →
        ∃ s', (w.act action).2.session? name = some s' ∧ s'.stack = s.stack ∧
          (s'.frames.map fun (_, frame) => frame.face) =
            s.frames.map fun (_, frame) => frame.face := by
  have hstart : Shows (fun _ _ => 0) (.new ns limits) {} := by
    refine ⟨by simp [Workspace.new], fun i => ?_, fun name => rfl⟩
    have hpool : (Workspace.new ns limits).poolOf i = { recycle := false } := rfl
    rw [hpool]
    exact ⟨fun h => by simp [Pool.get?] at h, fun h => by simp [Pool.get?] at h⟩
  obtain ⟨houtcomes, hreach, tag, hshows⟩ := run_shows actions .new hstart
  simp only
  generalize (Workspace.new ns limits).run actions = ran at *
  generalize ({} : Desk).run ns limits actions = ran' at *
  obtain ⟨outcomes, w⟩ := ran
  obtain ⟨outcomes', d⟩ := ran'
  have hlooks : ∀ {w : Workspace} {d : Desk} {tag : Nat → FrameId → Nat}
      (_ : w.Reachable ns limits) (_ : Shows tag w d) {name : String} {s : Session},
      w.session? name = some s →
        ∃ p, d.piles.get? name = some (s.family.root, p) ∧ s.LooksLike limits p := by
    intro w d tag hreach hshows name s hs
    obtain ⟨_, hfamily, hseat⟩ := session?_eq_some hreach.roster.numbered hs
    have hlooks := Session.looksLike_pile (session_sound hreach.roster hs) (tag s.family.root)
    refine ⟨s.pile (tag s.family.root), ?_, hreach.limits_eq hs ▸ hlooks⟩
    rw [hshows.piles_eq, hseat, Option.map_some, shown, poolOf_eq hfamily]
    rfl
  refine ⟨houtcomes, fun name => ⟨fun hs => ?_, fun hp => ?_⟩, fun name s family p hs hp => ?_,
    fun action name s hne hs => ?_⟩
  · rw [hshows.piles_eq, get?_of_session?_eq_none hreach.roster.numbered hs, Option.map_none]
  · cases hs : w.session? name with
    | none => rfl
    | some s =>
      obtain ⟨p, hp', _⟩ := hlooks hreach hshows hs
      rw [hp] at hp'
      cases hp'
  · obtain ⟨p', hp', hlike⟩ := hlooks hreach hshows hs
    rw [hp] at hp'
    cases hp'
    exact hlike
  · obtain ⟨p, hp, hlike⟩ := hlooks hreach hshows hs
    obtain ⟨_, _, hseat⟩ := session?_eq_some hreach.roster.numbered hs
    obtain ⟨tag', _, hshows'⟩ := act_shows hreach.roster hshows action
    have hreach' := act_reachable hreach action
    have hseat' := (act_seats_of_ne w action hne).trans hseat
    cases hs' : (w.act action).2.session? name with
    | none =>
      rw [get?_of_session?_eq_none hreach'.roster.numbered hs'] at hseat'
      cases hseat'
    | some s' =>
      obtain ⟨_, _, hseat''⟩ := session?_eq_some hreach'.roster.numbered hs'
      obtain ⟨p', hp', hlike'⟩ := hlooks hreach' hshows' hs'
      rw [d.act_piles_of_ne ns limits action hne, hp] at hp'
      rw [hseat'] at hseat''
      obtain rfl : p = p' := congrArg Prod.snd (Option.some.inj hp')
      have hstack : s.stack = s'.stack := congrArg Seat.stack (Option.some.inj hseat'')
      exact ⟨s', rfl, hstack.symm, hlike'.faces_eq.trans hlike.faces_eq.symm⟩

end Workspace

end KeepTree
