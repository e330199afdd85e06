import KeepTree.Proofs.Evaluation.Restoring

/-!
# What markers tell

A marker is a family, a state and an iteration. States are given out by pushes and copied by
branches, frames are freed and their slots are used again. To say what a marker tells, a run is
watched from outside: a `Moment` is a workspace together with, for each frame, the number of the step
that pushed it. Nothing in a moment's notes looks at states.

* `Moment.Next`, `History` -- the moments of a run, and what is noted at each step;
* `Moment.Next.follows` -- what a step does to states and notes: a live frame has both from a frame
  that was alive before, or both are new;
* `History.account` -- so two frames, however far apart in time, have one state if and only if they
  stem from one push;
* `Workspace.markers_identify` -- **markers identify the points of an evaluation**.
-/

namespace KeepTree

open Session Workspace Option

variable {ns : Namespace} {limits : Limits} {w w' : Workspace} {s s' : Session} {name : String}
  {m m' : Moment} {id : FrameId} {moments : List Moment}

/-! ## 1. States -/

theorem Session.state_lasting : Lasting Frame.state where
  counts := state_ignoresCounts
  settled h := (settled_counts h).2.1
  copy source sharing store := (copy_like source sharing store).2.1

/-! ## 2. Histories -/

/-- A workspace, and the numbers of the steps that pushed its frames, family by family. -/
structure Moment where
  workspace : Workspace
  origin : Nat → FrameId → Option Nat

namespace Moment

/-- A push that goes well makes a frame that stems from it. -/
def noting (m : Moment) (step : Nat) (s s' : Session) : Nat → FrameId → Option Nat :=
  fun family id =>
    if family = s.family.root ∧ s.stack.size < s'.stack.size ∧ s'.stack.top = some id then some step
    else m.origin family id

/-- The top frame of a branch stems from the push that the frame it copies stems from. -/
def copying (m : Moment) (s branched : Session) : Nat → FrameId → Option Nat :=
  fun family id =>
    if family = s.family.root ∧ branched.stack.top = some id then
      s.stack.top.bind (m.origin family)
    else m.origin family id

/-- One step of a workspace, of this number, and what is noted of it. -/
inductive Next (step : Nat) (m : Moment) : Moment → Prop
  | push {name : String} {s s' : Session} : m.workspace.session? name = some s → s.Push s' →
      Next step m ⟨m.workspace.put name s', m.noting step s s'⟩
  | move {name : String} {s s' : Session} : m.workspace.session? name = some s → s.Move s' →
      ¬ s.Push s' → Next step m ⟨m.workspace.put name s', m.origin⟩
  | branch {name : String} {s : Session} (sharing : Bool) (target : String) :
      m.workspace.session? name = some s →
      Next step m ⟨m.workspace.branch s sharing target, m.copying s (s.branch sharing)⟩
  | start (name : String) : Next step m ⟨m.workspace.start name, m.origin⟩
  | finish (name : String) : Next step m ⟨m.workspace.finish name, m.origin⟩
  | restore (snapshot : Snapshot) :
      Next step m ⟨{ m.workspace with engine := (m.workspace.engine.restore snapshot).2 }, m.origin⟩
  | siteTable (site : DefId) :
      Next step m ⟨{ m.workspace with engine := (m.workspace.engine.siteTable site).2 }, m.origin⟩

end Moment

/-- The moments of a run, the last one first. -/
inductive History (ns : Namespace) (limits : Limits) : List Moment → Prop
  | new : History ns limits [⟨.new ns limits, fun _ _ => none⟩]
  | next {m m' : Moment} {past : List Moment} : History ns limits (m :: past) →
      m.Next past.length m' → History ns limits (m' :: m :: past)

theorem Moment.Next.step {number : Nat} (h : m.Next number m') : m.workspace.Step m'.workspace := by
  cases h with
  | push hs hpush => exact .move hs hpush.move
  | move hs hmove _ => exact .move hs hmove
  | branch sharing target hs => exact .branch sharing target hs
  | start name => exact .start name
  | finish name => exact .finish name
  | restore snap => exact .restore snap
  | siteTable site => exact .siteTable site

theorem History.reachable (h : History ns limits moments) :
    ∀ m ∈ moments, m.workspace.Reachable ns limits := by
  induction h with
  | new =>
    intro m hm
    obtain rfl := List.mem_singleton.mp hm
    exact .new
  | next _ hnext ih =>
    intro m hm
    rcases List.mem_cons.mp hm with rfl | hm
    · exact (ih _ List.mem_cons_self).step hnext.step
    · exact ih m hm

/-! ## 3. What a step does to states and notes -/

namespace Workspace

/-- A frame of a family is alive. -/
def Lives (w : Workspace) (i : Nat) (id : FrameId) (frame : Frame) : Prop :=
  ∃ family, w.families[i]? = some family ∧ family.pool.get? id = some frame

/-- The number of states that a family has given out. -/
def clock? (w : Workspace) (i : Nat) : Option Nat := w.families[i]?.map (·.clock)

/-- Frames were freed at most. -/
structure Thinner (w w' : Workspace) : Prop where
  frames : ∀ i id frame, w'.Lives i id frame → ∃ old, w.Lives i id old ∧ old.state = frame.state
  clocks : ∀ i c, w.clock? i = some c → w'.clock? i = some c

theorem Thinner.refl (w : Workspace) : w.Thinner w :=
  ⟨fun _ _ frame h => ⟨frame, h, rfl⟩, fun _ _ h => h⟩

theorem Thinner.congr {w'' : Workspace} (h : w.Thinner w') (e : w''.families = w'.families) :
    w.Thinner w'' := by
  refine ⟨fun i id frame hlives => h.frames i id frame ?_, fun i c hc => ?_⟩
  · rwa [Lives, ← e]
  · rw [clock?, e]
    exact h.clocks i c hc

theorem families_adopt (hfam : w.families[s.family.root]? = some s.family)
    (hroot : s'.family.root = s.family.root) (i : Nat) :
    (w.adopt s').families[i]? =
      if i = s.family.root then some s'.family else w.families[i]? := by
  have hlt : s.family.root < w.families.size := (Array.getElem?_eq_some_iff.mp hfam).1
  rw [adopt, hroot]
  by_cases h : i = s.family.root
  · subst h
    simp [hlt]
  · rw [if_neg h, Array.getElem?_setIfInBounds_ne (Ne.symm h)]

theorem adopt_thinner (hfam : w.families[s.family.root]? = some s.family)
    (hroot : s'.family.root = s.family.root)
    (hwithin : Pool.Within Frame.state s'.family.pool s.family.pool)
    (hclock : s'.family.clock = s.family.clock) : w.Thinner (w.adopt s') := by
  have hfams := families_adopt hfam hroot
  refine ⟨fun i id frame hlives => ?_, fun i c hc => ?_⟩
  · obtain ⟨family, hi, hf⟩ := hlives
    rw [hfams] at hi
    split at hi
    · rename_i h
      cases hi
      obtain ⟨old, hold, _, hstate⟩ := hwithin id frame hf
      exact ⟨old, ⟨s.family, h ▸ hfam, hold⟩, hstate⟩
    · exact ⟨frame, ⟨family, hi, hf⟩, rfl⟩
  · rw [clock?, hfams]
    split
    · rename_i h
      subst h
      rw [clock?, hfam] at hc
      rwa [map_some, hclock]
    · exact hc

theorem finish_thinner {unnamed : List Seat} (hw : (w.roster unnamed).Numbered ns limits)
    (name : String) : w.Thinner (w.finish name) := by
  unfold finish
  split
  · rename_i s hs
    obtain ⟨_, hfam, _⟩ := session?_eq_some hw hs
    have hcl : w.Thinner (w.adopt s.close) :=
      adopt_thinner hfam rfl (s.close_within state_ignoresCounts) rfl
    exact hcl.congr rfl
  · exact .refl w

end Workspace

namespace Moment

/-- What a step does: a live frame has its state and its note from one that was alive before, or
    both are new. -/
structure Follows (step : Nat) (m m' : Moment) : Prop where
  frames : ∀ i id frame, m'.workspace.Lives i id frame →
    (∃ old source, m.workspace.Lives i old source ∧ source.state = frame.state ∧
      m'.origin i id = m.origin i old) ∨
    ∃ c, m.workspace.clock? i = some c ∧ m'.workspace.clock? i = some (c + 1) ∧
      frame.state = c + 1 ∧ m'.origin i id = some step
  clocks : ∀ i c, m.workspace.clock? i = some c → ∃ c', m'.workspace.clock? i = some c' ∧ c ≤ c'

variable {step : Nat} {origin : Nat → FrameId → Option Nat}

theorem Follows.of_thinner (h : m.workspace.Thinner w) : m.Follows step ⟨w, m.origin⟩ where
  frames i id frame hlives := by
    obtain ⟨old, hold, hstate⟩ := h.frames i id frame hlives
    exact .inl ⟨id, old, hold, hstate, rfl⟩
  clocks i c hc := ⟨c, h.clocks i c hc, Nat.le_refl c⟩

theorem Follows.thin (h : m.Follows step ⟨w, origin⟩) (hthin : w.Thinner w') :
    m.Follows step ⟨w', origin⟩ where
  frames i id frame hlives := by
    obtain ⟨old, hold, hstate⟩ := hthin.frames i id frame hlives
    rcases h.frames i id old hold with ⟨source, f, hf, hsame, horg⟩ | ⟨c, hc, hc', hnew, horg⟩
    · exact .inl ⟨source, f, hf, hsame.trans hstate, horg⟩
    · exact .inr ⟨c, hc, hthin.clocks i _ hc', hstate.symm.trans hnew, horg⟩
  clocks i c hc := by
    obtain ⟨c', hc', hle⟩ := h.clocks i c hc
    exact ⟨c', hthin.clocks i c' hc', hle⟩

variable {frame : Frame}

section

variable (hfam : m.workspace.families[s.family.root]? = some s.family)
  (hroot : s'.family.root = s.family.root)
include hfam hroot

/-- A session is taken over, and notes are made in its family alone. -/
theorem Follows.of_adopt (hclock : s.family.clock ≤ s'.family.clock)
    (hother : ∀ i, i ≠ s.family.root → ∀ id, origin i id = m.origin i id)
    (hframes : ∀ id frame, s'.frame? id = some frame →
      (∃ old source, s.frame? old = some source ∧ source.state = frame.state ∧
        origin s.family.root id = m.origin s.family.root old) ∨
      s'.family.clock = s.family.clock + 1 ∧ frame.state = s.family.clock + 1 ∧
        origin s.family.root id = some step) :
    m.Follows step ⟨m.workspace.adopt s', origin⟩ := by
  have hfams := families_adopt hfam hroot
  refine ⟨fun i id frame hlives => ?_, fun i c hc => ?_⟩
  · obtain ⟨family, hi, hf⟩ := hlives
    rw [hfams] at hi
    split at hi
    · rename_i h
      subst h
      cases hi
      rcases hframes id frame hf with ⟨old, source, hold, hstate, horg⟩ | ⟨hnext, hstate, horg⟩
      · exact .inl ⟨old, source, ⟨s.family, hfam, hold⟩, hstate, horg⟩
      · refine .inr ⟨s.family.clock, by rw [clock?, hfam, map_some], ?_, hstate, horg⟩
        rw [clock?, hfams, if_pos rfl, map_some, hnext]
    · rename_i hne
      exact .inl ⟨id, frame, ⟨family, hi, hf⟩, rfl, hother i hne id⟩
  · rw [clock?, hfams]
    split
    · rename_i h
      subst h
      rw [clock?, hfam] at hc
      cases hc
      exact ⟨_, rfl, hclock⟩
    · exact ⟨c, hc, Nat.le_refl c⟩

theorem Follows.of_push (hgrown : s.Grown Frame.state (s.family.clock + 1) s')
    (hsize : s.stack.size < s'.stack.size) (hclock : s'.family.clock = s.family.clock + 1) :
    m.Follows step ⟨m.workspace.adopt s', m.noting step s s'⟩ := by
  refine of_adopt hfam hroot (hclock ▸ Nat.le_succ _) (fun i hne id => if_neg fun h => hne h.1)
    fun id frame hf => ?_
  rcases hgrown.frames id frame hf with ⟨htop, hstate⟩ | ⟨old, hold, hstate⟩
  · exact .inr ⟨hclock, hstate, if_pos ⟨rfl, hsize, htop⟩⟩
  · refine .inl ⟨id, old, hold, hstate, if_neg fun h => ?_⟩
    rw [hgrown.fresh id h.2.2] at hold
    cases hold

theorem Follows.of_copy (htop : s.stack.top = some id) (hf : s.frame? id = some frame)
    (hgrown : s.Grown Frame.state frame.state s') (hclock : s'.family.clock = s.family.clock) :
    m.Follows step ⟨m.workspace.adopt s', m.copying s s'⟩ := by
  refine of_adopt hfam hroot (Nat.le_of_eq hclock.symm) (fun i hne id => if_neg fun h => hne h.1)
    fun other found hfd => .inl ?_
  rcases hgrown.frames other found hfd with ⟨hnew, hstate⟩ | ⟨old, hold, hstate⟩
  · refine ⟨id, frame, hf, hstate.symm, ?_⟩
    exact (if_pos ⟨rfl, hnew⟩).trans (by rw [htop, bind_some])
  · refine ⟨other, old, hold, hstate, if_neg fun h => ?_⟩
    rw [hgrown.fresh other h.2] at hold
    cases hold

end

theorem Follows.of_start (hw : (m.workspace.roster []).Numbered ns limits) (name : String) :
    m.Follows step ⟨m.workspace.start name, m.origin⟩ := by
  have hfin := finish_thinner hw name
  refine (Follows.of_thinner hfin).thin ⟨fun i id frame hlives => ?_, fun i c hc => ?_⟩
  · obtain ⟨family, hi, hf⟩ := hlives
    rcases families_start hi with hnone | hi
    · rw [hnone] at hf
      cases hf
    · exact ⟨frame, ⟨family, hi, hf⟩, rfl⟩
  · obtain ⟨family, hi, hclock⟩ := map_eq_some_iff.mp hc
    have hlt : i < (m.workspace.finish name).families.size := (Array.getElem?_eq_some_iff.mp hi).1
    show (((m.workspace.finish name).families.push (.new _ _))[i]?).map _ = _
    rw [Array.getElem?_push, if_neg (Nat.ne_of_lt hlt), hi, map_some, hclock]

/-- **Every step is of this kind.** -/
theorem Next.follows (h : m.Next step m') (hw : m.workspace.Reachable ns limits) :
    m.Follows step m' := by
  have hnumbered := hw.roster.numbered
  cases h with
  | @push name s s' hs hpush =>
    obtain ⟨_, hfam, _⟩ := hw.session hs
    obtain ⟨rest, hfit⟩ := hw.fit hs
    rcases hpush.enters with rfl | ⟨frame, engine, hfresh, e⟩
    · -- the push failed
      have horg : m.noting step s' s' = m.origin := by
        funext family id
        exact if_neg fun h => Nat.lt_irrefl _ h.2.1
      rw [horg]
      exact .of_thinner ((adopt_thinner hfam rfl (.refl _ _) rfl).congr rfl)
    · subst e
      have hgrown := enter_grown state_ignoresCounts hfit.sound hfresh engine
      rw [hfresh.state_eq] at hgrown
      have hkin : (s.enter frame engine).family.root = s.family.root := rfl
      exact (Follows.of_push hfam hkin hgrown (Nat.lt_succ_self _) rfl).thin ((Thinner.refl _).congr rfl)
  | @move name s s' hs hmove hpush =>
    obtain ⟨_, hfam, _⟩ := hw.session hs
    obtain ⟨rest, hfit⟩ := hw.fit hs
    obtain ⟨hwithin, hclock⟩ := (hmove.moveBy.within state_lasting.toStanding
      hfit.sound).resolve_left fun h => hpush h.1
    have hroot := hmove.effect.kin.root_eq
    exact .of_thinner ((adopt_thinner hfam hroot hwithin hclock).congr rfl)
  | @branch name s sharing target hs =>
    obtain ⟨_, hfam, _⟩ := hw.session hs
    obtain ⟨rest, hfit⟩ := hw.fit hs
    have hroot := (s.branch_kin sharing).root_eq
    have hbranched : Roster.Acts Session.Move _ _ := branched_acts hnumbered hs sharing
    have hfin := finish_thinner (hbranched.numbered hnumbered) target
    refine Follows.thin ?_ (hfin.congr rfl)
    cases htop : s.stack.top with
    | none =>
      have hempty := branch_empty sharing htop
      have horg : m.copying s (s.branch sharing) = m.origin := by
        funext family id
        rw [hempty]
        refine if_neg ?_
        rintro ⟨_, ⟨⟩⟩
      rw [horg, hempty]
      exact .of_thinner (adopt_thinner hfam rfl (.refl _ _) rfl)
    | some id =>
      obtain ⟨frame, hf⟩ := hfit.top_live _ htop
      have hgrown := branch_grown state_ignoresCounts hfit.sound sharing htop hf
      rw [state_lasting.copy] at hgrown
      exact .of_copy hfam hroot htop hf hgrown (s.branch_clock sharing)
  | start name => exact .of_start hnumbered name
  | finish name => exact .of_thinner (finish_thinner hnumbered name)
  | restore snap => exact .of_thinner ((Workspace.Thinner.refl m.workspace).congr rfl)
  | siteTable site => exact .of_thinner ((Workspace.Thinner.refl m.workspace).congr rfl)

end Moment

/-! ## 4. Two frames, however far apart -/

/-- What can be said of all frames at all moments: `now` is the last moment, and `steps` steps led to
    it. -/
structure Account (now : Moment) (steps : Nat) (moments : List Moment) : Prop where
  /-- Every frame stems from a push, and its state is one of those given out so far. -/
  noted : ∀ m ∈ moments, ∀ i id frame, m.workspace.Lives i id frame →
    ∃ push c, m.origin i id = some push ∧ push < steps ∧ now.workspace.clock? i = some c ∧
      frame.state ≤ c
  /-- One push, one state. -/
  apart : ∀ m ∈ moments, ∀ m' ∈ moments, ∀ i id frame id' frame', m.workspace.Lives i id frame →
    m'.workspace.Lives i id' frame' → (m.origin i id = m'.origin i id' ↔ frame.state = frame'.state)

theorem Account.next {now now' : Moment} {past : List Moment}
    (h : Account now past.length (now :: past)) (hstep : now.Follows past.length now') :
    Account now' (now :: past).length (now' :: now :: past) := by
  -- a frame of any moment is one of the moments before, or it is new in all respects
  have hcases : ∀ m ∈ now' :: now :: past, ∀ i id frame, m.workspace.Lives i id frame →
      (∃ m₀ ∈ now :: past, ∃ id₀ frame₀, m₀.workspace.Lives i id₀ frame₀ ∧
        frame₀.state = frame.state ∧ m.origin i id = m₀.origin i id₀) ∨
      ∃ c, now.workspace.clock? i = some c ∧ now'.workspace.clock? i = some (c + 1) ∧
        frame.state = c + 1 ∧ m.origin i id = some past.length := by
    intro m hm i id frame hlives
    rcases List.mem_cons.mp hm with rfl | hm
    · rcases hstep.frames i id frame hlives with ⟨old, source, hsource, hstate, horg⟩ | hnew
      · exact .inl ⟨now, List.mem_cons_self, old, source, hsource, hstate, horg⟩
      · exact .inr hnew
    · exact .inl ⟨m, hm, id, frame, hlives, rfl, rfl⟩
  -- what is new differs from all there was
  have hold : ∀ m ∈ now :: past, ∀ i id frame c, m.workspace.Lives i id frame →
      now.workspace.clock? i = some c →
      m.origin i id ≠ some past.length ∧ frame.state ≠ c + 1 := by
    intro m hm i id frame c hlives hc
    obtain ⟨push, c', horg, hlt, hc', hle⟩ := h.noted m hm i id frame hlives
    rw [hc] at hc'
    cases hc'
    rw [horg]
    exact ⟨fun e => Nat.ne_of_lt hlt (Option.some.inj e), by omega⟩
  refine ⟨fun m hm i id frame hlives => ?_, fun m hm m' hm' i id frame id' frame' hf hf' => ?_⟩
  · rcases hcases m hm i id frame hlives with
      ⟨m₀, hm₀, id₀, frame₀, hlives₀, hstate, horg⟩ | ⟨c, _, hc', hstate, horg⟩
    · obtain ⟨push, c, hpush, hlt, hc, hle⟩ := h.noted m₀ hm₀ i id₀ frame₀ hlives₀
      obtain ⟨c', hc', hle'⟩ := hstep.clocks i c hc
      exact ⟨push, c', horg.trans hpush, Nat.lt_succ_of_lt hlt, hc', by omega⟩
    · exact ⟨_, c + 1, horg, Nat.lt_succ_self _, hc', Nat.le_of_eq hstate⟩
  · rcases hcases m hm i id frame hf with
      ⟨m₀, hm₀, id₀, frame₀, hf₀, hstate, horg⟩ | ⟨c, hc, _, hstate, horg⟩ <;>
    rcases hcases m' hm' i id' frame' hf' with
      ⟨m₁, hm₁, id₁, frame₁, hf₁, hstate', horg'⟩ | ⟨c', hc', _, hstate', horg'⟩
    · rw [horg, horg', ← hstate, ← hstate']
      exact h.apart m₀ hm₀ m₁ hm₁ i id₀ frame₀ id₁ frame₁ hf₀ hf₁
    · obtain ⟨hne, hne'⟩ := hold m₀ hm₀ i id₀ frame₀ c' hf₀ hc'
      rw [horg, horg', ← hstate, hstate']
      exact iff_of_false hne hne'
    · obtain ⟨hne, hne'⟩ := hold m₁ hm₁ i id₁ frame₁ c hf₁ hc
      rw [horg, horg', hstate, ← hstate']
      exact iff_of_false (Ne.symm hne) (Ne.symm hne')
    · rw [hc] at hc'
      cases hc'
      rw [horg, horg', hstate, hstate']
      exact iff_of_true rfl rfl

theorem History.account (h : History ns limits moments) :
    ∃ now past, moments = now :: past ∧ Account now past.length moments := by
  induction h with
  | new =>
    have hnone : ∀ i id frame, ¬ (Workspace.new ns limits).Lives i id frame := by
      rintro i id frame ⟨family, hi, _⟩
      simp [Workspace.new] at hi
    refine ⟨_, _, rfl, fun m hm i id frame hlives => ?_, fun m hm m' _ i id frame _ _ hlives => ?_⟩
    all_goals
      obtain rfl := List.mem_singleton.mp hm
      exact absurd hlives (hnone i id frame)
  | @next m m' past hpast hnext ih =>
    obtain ⟨_, _, e, haccount⟩ := ih
    obtain ⟨rfl, rfl⟩ := List.cons.inj e
    exact ⟨_, _, rfl, haccount.next (hnext.follows (hpast.reachable _ List.mem_cons_self))⟩

/-! ## 5. Markers -/

namespace Workspace

theorem Reachable.marker_eq (h : w.Reachable ns limits) (hs : w.session? name = some s)
    (htop : s.stack.top = some id) : ∃ frame, w.Lives s.family.root id frame ∧
      s.marker = ⟨s.family.root, frame.state, s.iteration?⟩ := by
  obtain ⟨_, hfam, hmem⟩ := h.session hs
  obtain ⟨frame, hf⟩ := (h.sound hfam).top_live hmem htop
  refine ⟨frame, ⟨s.family, hfam, hf⟩, ?_⟩
  rw [marker, iteration?, topFrame?_eq htop hf, bind_some]

/-- **Markers identify the points of an evaluation.** Of two stacks that are not empty, at any two
    moments of any history, the markers are equal if and only if the stacks are of one family, are
    in the same iteration, and have top frames that stem from one push: the frame that it made, or
    copies of it. And on every chain of frames the states go down, so no two frames of a stack have
    the same one. -/
theorem markers_identify {moments : List Moment} (h : History ns limits moments) :
    (∀ m ∈ moments, ∀ m' ∈ moments, ∀ name name' s s' id id',
      m.workspace.session? name = some s → m'.workspace.session? name' = some s' →
      s.stack.top = some id → s'.stack.top = some id' →
      (s.marker = s'.marker ↔ s.family.root = s'.family.root ∧ s.iteration? = s'.iteration? ∧
        ∃ push, m.origin s.family.root id = some push ∧
          m'.origin s'.family.root id' = some push)) ∧
    ∀ m ∈ moments, ∀ (i : Nat) (family : Family), m.workspace.families[i]? = some family →
      ∀ top frame, family.pool.get? top = some frame →
        (family.pool.chain (some top)).Pairwise fun above below =>
          below.2.state < above.2.state := by
  obtain ⟨now, past, rfl, haccount⟩ := h.account
  refine ⟨?_, fun m hm i family hi top frame hf => ?_⟩
  · intro m hm m' hm' name name' s s' id id' hs hs' htop htop'
    obtain ⟨frame, hlives, hmarker⟩ := (h.reachable m hm).marker_eq hs htop
    obtain ⟨frame', hlives', hmarker'⟩ := (h.reachable m' hm').marker_eq hs' htop'
    obtain ⟨push, _, hpush, _⟩ := haccount.noted m hm _ id frame hlives
    rw [hmarker, hmarker', Marker.mk.injEq, hpush]
    constructor
    · rintro ⟨hroot, hstate, hiteration⟩
      rw [← hroot] at hlives' ⊢
      have horigin := (haccount.apart m hm m' hm' _ _ _ _ _ hlives hlives').mpr hstate
      exact ⟨rfl, hiteration, push, rfl, horigin ▸ hpush⟩
    · rintro ⟨hroot, hiteration, _, ⟨⟩, horigin⟩
      rw [← hroot] at hlives' horigin
      have hstate := (haccount.apart m hm m' hm' _ _ _ _ _ hlives hlives').mp
        (hpush.trans horigin.symm)
      exact ⟨hroot, hstate, hiteration⟩
  · have hsound := (h.reachable m hm).sound hi
    have hb := hsound.accounted.toBalanced
    obtain ⟨l, hl⟩ := hb.exists_chain hf
    rw [hl.chain_eq hb]
    exact hl.state_lt hb

/-- A frame and its copy have one marker. When the frame is popped and its slot is used again, the
    marker is another one. -/
theorem markers_identify_forked : ∃ moments m m' left right again,
    History (Namespace.empty.define none "site").2 {} moments ∧ m ∈ moments ∧ m' ∈ moments ∧
      m.workspace.session? "left" = some left ∧ m.workspace.session? "right" = some right ∧
      m'.workspace.session? "left" = some again ∧
      left.stack.top ≠ right.stack.top ∧ left.marker = right.marker ∧
      again.stack.top.map (·.index) = left.stack.top.map (·.index) ∧
      again.marker ≠ left.marker := by
  have hnew : History (Namespace.empty.define none "site").2 {} _ := .new
  have hstarted := hnew.next (.start "left")
  have hpushed := hstarted.next (@Moment.Next.push _ _ "left" _ _ rfl (.push 0 [] true))
  have hforked := hpushed.next (@Moment.Next.branch _ _ "left" _ false "right" rfl)
  have hpopped := hforked.next (@Moment.Next.move _ _ "left" _ _ rfl (.pop rfl)
    (Session.not_push_of_size (by decide)))
  have hagain := hpopped.next (@Moment.Next.push _ _ "left" _ _ rfl (.push 0 [] true))
  obtain ⟨hmarkers, _⟩ := markers_identify hagain
  have hcopy := hmarkers _ (.tail _ (.tail _ (.head _))) _ (.tail _ (.tail _ (.head _)))
    "left" "right" _ _ _ _ rfl rfl rfl rfl
  have hpush := hmarkers _ (.head _) _ (.tail _ (.tail _ (.head _)))
    "left" "left" _ _ _ _ rfl rfl rfl rfl
  refine ⟨_, _, _, _, _, _, hagain, .tail _ (.tail _ (.head _)), .head _, rfl, rfl, rfl, by decide,
    hcopy.mpr ⟨rfl, rfl, 1, rfl, rfl⟩, by decide, fun e => ?_⟩
  obtain ⟨_, _, push, hleft, hright⟩ := hpush.mp e
  exact absurd (hleft.trans hright.symm) (by decide)

end Workspace

end KeepTree
