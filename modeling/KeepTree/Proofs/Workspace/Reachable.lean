import KeepTree.Proofs.Session.Views
import KeepTree.Snapshot
import KeepTree.Workspace
import Mathlib.Logic.Relation

/-!
# Reachable workspaces

Stacks are started, moved, branched off and ended in any order, over any number of families. Names
play no part in what happens to frames, and a stack that takes the name of another first ends it. So
the runs of a workspace are told by a smaller system, a `Roster`: the engine, the families, and the
stacks in some order, of which one at a time changes.

* `Workspace.Step`, `Workspace.Reachable` -- what can be done to a workspace, and what comes of it;
* `Workspace.Reachable.roster` -- **every run of a workspace is a run of its roster**;
* `Roster.Acts.holds` -- what a change of one stack keeps for its family holds of every family
  at all times;
* `Workspace.frames_accounted` -- the accounts of frames in a reachable workspace.
-/

namespace KeepTree

open Session Dictionary Workspace List

variable {s s' : Session} {move move' : Session → Session → Prop} {members : List Stack}
  {ns : Namespace} {limits : Limits} {r : Roster} {w : Workspace} {name : String}
  {unnamed : List Seat} {e : Engine} {families : Array Family} {family : Family} {i : Nat}

/-! ## 1. What never changes -/

namespace Engine

theorem restoreValue_ok {e' : Engine} {value : Value} (h : e.restoreValue name value = .ok e') :
    e.ns.lookup name = .ok none ∧ e' = e.withStore (e.store.set ⟨e.global, name⟩ (.value value)) ∨
      ∃ id d, e.ns.lookup name = .ok (some id) ∧ e' = (e.durableTable d).2.withStore
        ((e.durableTable d).2.store.set ⟨(e.durableTable d).1, name⟩
          (.holder (.of id [] (some value)))) := by
  obtain ⟨found, hfd, h⟩ := bind_eq_ok.mp h
  cases found with
  | none => exact .inl ⟨hfd, (Except.ok.inj h).symm⟩
  | some id =>
    obtain ⟨d, _, h⟩ := bind_eq_ok.mp h
    exact .inr ⟨id, d, hfd, (Except.ok.inj h).symm⟩

theorem restoreValues_preserves {P : Engine → Prop} : ∀ (values : List (String × Value))
    {e : Engine}, (∀ {e e' name value}, (name, value) ∈ values → P e →
      e.restoreValue name value = .ok e' → P e') → P e → P (e.restoreValues values).2
  | [], _, _, h => h
  | (name, value) :: rest, e, hP, h => by
    unfold restoreValues
    split
    · exact h
    · exact restoreValues_preserves rest (fun hmem => hP (mem_cons_of_mem _ hmem))
        (hP mem_cons_self h ‹_›)

theorem restore_preserves {P : Engine → Prop} (snap : Snapshot)
    (hP : ∀ {e e' name value}, (name, value) ∈ snap.values.entries → P e →
      e.restoreValue name value = .ok e' → P e') (h : P e) : P (e.restore snap).2 := by
  unfold restore
  split
  · exact restoreValues_preserves snap.values.entries hP h
  · exact h

theorem restore_steady (e : Engine) (snap : Snapshot) : e.Steady (e.restore snap).2 := by
  refine restore_preserves snap (fun _ hstd h => ?_) (.refl e)
  rcases restoreValue_ok h with ⟨_, rfl⟩ | ⟨_, d, _, rfl⟩
  · exact hstd.withStore _
  · exact hstd.trans ((durableTable_steady _ d).withStore _)

end Engine

namespace Session

theorem branch_kin (s : Session) (sharing : Bool) : s.Kin (s.branch sharing) := by
  unfold branch
  split <;> exact ⟨rfl, rfl, rfl⟩

theorem branch_clock (s : Session) (sharing : Bool) :
    (s.branch sharing).family.clock = s.family.clock := by
  unfold branch
  split <;> rfl

/-- What becomes of a stack, and of the engine and the family with it: it moves in some way, another
    one is branched off it, or it ends. -/
inductive Change (move : Session → Session → Prop) (s : Session) : Session → List Stack → Prop
  | move {s' : Session} : move s s' → s.Kin s' → Change move s s' [s'.stack]
  | branch (sharing : Bool) :
      Change move s (s.branch sharing) [(s.branch sharing).stack, s.stack]
  | close : Change move s s.close []

variable {rest : List Stack}

theorem Change.kin (h : Change move s s' members) : s.Kin s' := by
  cases h with
  | move _ hkin => exact hkin
  | branch sharing => exact branch_kin s sharing
  | close => exact ⟨rfl, rfl, rfl⟩

theorem Change.mono (h : Change move s s' members) (hmove : ∀ {s'}, move s s' → move' s s') :
    Change move' s s' members := by
  cases h with
  | move h hkin => exact .move (hmove h) hkin
  | branch sharing => exact .branch sharing
  | close => exact .close

section

variable (h : Change Move s s' members) (hs : s.Sound s.limits rest)
include h hs

theorem Change.sound : s'.family.Sound s.limits (members ++ rest) := by
  cases h with
  | move h => exact h.effect.sound hs
  | branch sharing => exact branch_sound hs sharing
  | close => exact close_sound hs

theorem Change.akin {v : Frame → α} (hv : Lasting v) :
    Pool.Akin v s.family.pool s'.family.pool := by
  cases h with
  | move h => exact h.effect.akin hv hs
  | branch sharing => exact branch_akin hv hs sharing
  | close => exact close_akin hv hs

theorem Change.balance : BalancedWith s s' := by
  cases h with
  | move h => exact h.effect.balance hs
  | branch sharing => exact branch_balance hs sharing
  | close => exact close_balance hs

end

end Session

/-! ## 2. Workspaces and rosters -/

/-- One step of a workspace. The counters are never reset. -/
inductive Workspace.Step (w : Workspace) : Workspace → Prop
  | start (name : String) : Step w (w.start name)
  | finish (name : String) : Step w (w.finish name)
  | move {name : String} {s s' : Session} : w.session? name = some s → Session.Move s s' →
      Step w (w.put name s')
  | branch {name : String} {s : Session} (sharing : Bool) (target : String) :
      w.session? name = some s → Step w (w.branch s sharing target)
  | restore (snapshot : Snapshot) : Step w { w with engine := (w.engine.restore snapshot).2 }
  | siteTable (site : DefId) : Step w { w with engine := (w.engine.siteTable site).2 }

/-- The workspaces that come of a new one. -/
inductive Workspace.Reachable (ns : Namespace) (limits : Limits) : Workspace → Prop
  | new : Reachable ns limits (.new ns limits)
  | step {w w' : Workspace} : Reachable ns limits w → w.Step w' → Reachable ns limits w'

/-- The stacks of one family. -/
def stacksIn (i : Nat) (seats : List Seat) : List Stack :=
  (seats.filter (·.family = i)).map (·.stack)

/-- The stacks of one family of a workspace. -/
def Workspace.stacksOf (w : Workspace) (i : Nat) : List Stack := stacksIn i w.seats.values

/-- A workspace without names. -/
structure Roster where
  engine : Engine
  families : Array Family
  seats : List Seat

/-- The roster of a workspace, with some more stacks that have no name yet. -/
def Workspace.roster (w : Workspace) (unnamed : List Seat) : Roster :=
  ⟨w.engine, w.families, unnamed ++ w.seats.values⟩

theorem getElem?_of_push {new : Family} (h : (families.push new)[i]? = some family) :
    i = families.size ∧ family = new ∨ i ≠ families.size ∧ families[i]? = some family := by
  rw [Array.getElem?_push] at h
  split at h
  · exact .inl ⟨‹_›, (Option.some.inj h).symm⟩
  · exact .inr ⟨‹_›, h⟩

theorem getElem?_of_set {new : Family} {root : Nat}
    (h : (families.setIfInBounds root new)[i]? = some family) :
    root = i ∧ family = new ∨ root ≠ i ∧ families[i]? = some family := by
  rw [Array.getElem?_setIfInBounds] at h
  split at h
  · split at h
    · exact .inl ⟨‹_›, (Option.some.inj h).symm⟩
    · cases h
  · exact .inr ⟨‹_›, h⟩

/-- What is done to the tables of an engine from outside. -/
inductive Engine.Stocked (e : Engine) : Engine → Prop
  | restore (snapshot : Snapshot) : Stocked e (e.restore snapshot).2
  | siteTable (site : DefId) : Stocked e (e.siteTable site).2

theorem Engine.Stocked.steady {e' : Engine} (h : e.Stocked e') : e.Steady e' := by
  cases h with
  | restore snap => exact restore_steady e snap
  | siteTable site => exact siteTable_steady e site

namespace Roster

/-- What happens to a roster whose stacks move in some way. -/
inductive Act (move : Session → Session → Prop) : Roster → Roster → Prop
  | reorder {engine : Engine} {families : Array Family} {seats seats' : List Seat} :
      seats.Perm seats' → Act move ⟨engine, families, seats⟩ ⟨engine, families, seats'⟩
  | tables {r : Roster} {engine : Engine} : r.engine.Stocked engine → Act move r { r with engine }
  | start {r : Roster} :
      Act move r { r with
        families := r.families.push (.new r.families.size r.engine.limits)
        seats := ⟨r.families.size, {}⟩ :: r.seats }
  | change {families : Array Family} {s s' : Session} {members : List Stack} {seats : List Seat} :
      families[s.family.root]? = some s.family → s.Change move s' members →
      Act move ⟨s.engine, families, ⟨s.family.root, s.stack⟩ :: seats⟩
        ⟨s'.engine, families.setIfInBounds s.family.root s'.family,
          members.map (Seat.mk s.family.root) ++ seats⟩

/-- One thing happens after the other. -/
abbrev Acts (move : Session → Session → Prop) : Roster → Roster → Prop :=
  Relation.ReflTransGen (Act move)

/-- The rosters that come of an empty one. -/
abbrev Reachable (ns : Namespace) (limits : Limits) : Roster → Prop :=
  Acts Session.Move ((new ns limits).roster [])

variable {r' : Roster}

/-- Families bear the numbers they are kept under, and every stack has a family. -/
structure Numbered (ns : Namespace) (limits : Limits) (r : Roster) : Prop where
  ns_eq : r.engine.ns = ns
  limits_eq : r.engine.limits = limits
  root_eq : ∀ (i : Nat) (family : Family), r.families[i]? = some family → family.root = i
  seated : ∀ seat ∈ r.seats, seat.family < r.families.size

theorem Act.numbered (h : Act move r r') (hr : r.Numbered ns limits) : r'.Numbered ns limits := by
  cases h with
  | reorder hperm =>
    exact ⟨hr.ns_eq, hr.limits_eq, hr.root_eq,
      fun seat hmem => hr.seated seat (hperm.mem_iff.mpr hmem)⟩
  | tables h =>
    exact ⟨h.steady.ns_eq.trans hr.ns_eq, h.steady.limits_eq.trans hr.limits_eq, hr.root_eq,
      hr.seated⟩
  | start =>
    refine ⟨hr.ns_eq, hr.limits_eq, fun i family hi => ?_, fun seat hmem => ?_⟩
    · rcases getElem?_of_push hi with ⟨rfl, rfl⟩ | ⟨_, hi⟩
      · rfl
      · exact hr.root_eq i family hi
    · rw [Array.size_push]
      rcases mem_cons.mp hmem with rfl | hmem
      · exact Nat.lt_succ_self _
      · exact Nat.lt_succ_of_lt (hr.seated seat hmem)
  | change hfam hchange =>
    have hkin := hchange.kin
    refine ⟨hkin.ns_eq.trans hr.ns_eq, hkin.limits_eq.trans hr.limits_eq, fun i family hi => ?_,
      fun seat hmem => ?_⟩
    · rcases getElem?_of_set hi with ⟨rfl, rfl⟩ | ⟨_, hi⟩
      · exact hkin.root_eq
      · exact hr.root_eq i family hi
    · rw [Array.size_setIfInBounds]
      rcases mem_append.mp hmem with hmem | hmem
      · obtain ⟨stack, _, rfl⟩ := mem_map.mp hmem
        have hlt := hr.seated _ mem_cons_self
        exact hlt
      · exact hr.seated seat (mem_cons_of_mem _ hmem)

theorem Acts.numbered (h : Acts move r r') (hr : r.Numbered ns limits) : r'.Numbered ns limits := by
  induction h with
  | refl => exact hr
  | tail _ hact ih => exact hact.numbered ih

theorem new_numbered (ns : Namespace) (limits : Limits) :
    ((new ns limits).roster []).Numbered ns limits :=
  ⟨rfl, rfl, fun i family hi => by simp [roster, new] at hi, nofun⟩

theorem Reachable.numbered (h : Reachable ns limits r) : r.Numbered ns limits :=
  Acts.numbered h (new_numbered ns limits)

end Roster

/-! ## 3. Every run of a workspace is a run of its roster -/

namespace Workspace

open Roster

variable {w' : Workspace}

theorem session?_ok (hs : w.session? name = some s) : ∃ seat family, w.seats.get? name = some seat ∧
    w.families[seat.family]? = some family ∧ s = ⟨w.engine, family, seat.stack⟩ := by
  simp only [session?, bind, Option.bind_eq_some_iff, pure, Option.some.injEq] at hs
  obtain ⟨seat, hseat, family, hfam, rfl⟩ := hs
  exact ⟨seat, family, hseat, hfam, rfl⟩

section

variable (hw : (w.roster unnamed).Numbered ns limits)
include hw

theorem session?_eq_some (hs : w.session? name = some s) :
    s.engine = w.engine ∧ w.families[s.family.root]? = some s.family ∧
      w.seats.get? name = some ⟨s.family.root, s.stack⟩ := by
  obtain ⟨seat, family, hseat, hfam, rfl⟩ := session?_ok hs
  have hroot := hw.root_eq seat.family family hfam
  exact ⟨rfl, by rw [hroot, hfam], by rw [hseat, hroot]⟩

theorem get?_of_session?_eq_none (hs : w.session? name = none) : w.seats.get? name = none := by
  cases hseat : w.seats.get? name with
  | none => rfl
  | some seat =>
    have hmem : seat ∈ w.seats.values := (perm_of_get? hseat).mem_iff.mpr mem_cons_self
    have hlt : seat.family < w.families.size := hw.seated seat (mem_append_right _ hmem)
    simp [session?, hseat, Array.getElem?_eq_getElem hlt] at hs

theorem focus (hs : w.session? name = some s) :
    Act move (w.roster unnamed) ⟨s.engine, w.families,
      ⟨s.family.root, s.stack⟩ :: (unnamed ++ (w.seats.erase name).values)⟩ := by
  obtain ⟨heng, _, hseat⟩ := session?_eq_some hw hs
  rw [heng]
  exact .reorder (((perm_of_get? hseat).append_left unnamed).trans perm_middle)

theorem changed (hs : w.session? name = some s) (h : s.Change move s' members) :
    Acts move (w.roster unnamed) ⟨s'.engine, w.families.setIfInBounds s'.family.root s'.family,
      members.map (Seat.mk s'.family.root) ++ (unnamed ++ (w.seats.erase name).values)⟩ := by
  obtain ⟨_, hfam, _⟩ := session?_eq_some hw hs
  rw [h.kin.root_eq]
  exact .tail (.single (focus hw hs)) (.change hfam h)

end

theorem seat_act {family : Nat} {stack : Stack} (hname : w.seats.get? name = none) :
    Act move (w.roster (⟨family, stack⟩ :: unnamed))
      ((w.seat name family stack).roster unnamed) := by
  have hinsert := w.seats.perm_insert name ⟨family, stack⟩
  rw [erase_of_get?_eq_none hname] at hinsert
  exact .reorder (perm_middle.symm.trans (hinsert.symm.append_left unnamed))

theorem finish_acts (hw : (w.roster unnamed).Numbered ns limits) (name : String) :
    Acts move (w.roster unnamed) ((w.finish name).roster unnamed) ∧
      (w.finish name).seats.get? name = none := by
  unfold finish
  split
  · rename_i s hs
    exact ⟨changed hw hs .close, w.seats.get?_erase_self name⟩
  · rename_i hs
    exact ⟨.refl, get?_of_session?_eq_none hw hs⟩

section

variable (hw : (w.roster []).Numbered ns limits)
include hw

theorem start_acts (name : String) : Acts move (w.roster []) ((w.start name).roster []) := by
  obtain ⟨hfinish, hname⟩ := finish_acts hw name
  exact .tail (.tail hfinish .start) (seat_act (w := { w.finish name with families := _ }) hname)

theorem put_acts (hs : w.session? name = some s)
    (h : move s s') (hkin : s.Kin s') : Acts move (w.roster []) ((w.put name s').roster []) := by
  refine .tail (changed hw hs (.move h hkin)) (.reorder ?_)
  exact (w.seats.perm_insert name ⟨s'.family.root, s'.stack⟩).symm

theorem branched_acts (hs : w.session? name = some s)
    (sharing : Bool) : Acts move (w.roster []) ((w.adopt (s.branch sharing)).roster
      [⟨(s.branch sharing).family.root, (s.branch sharing).stack⟩]) := by
  obtain ⟨_, _, hseat⟩ := session?_eq_some hw hs
  refine .tail (changed hw hs (.branch sharing)) (.reorder (.cons _ ?_))
  rw [(s.branch_kin sharing).root_eq]
  exact (perm_of_get? hseat).symm

theorem branch_acts (hs : w.session? name = some s) (sharing : Bool) (target : String) :
    Acts move (w.roster []) ((w.branch s sharing target).roster []) := by
  have hbranched : Acts move _ _ := branched_acts hw hs sharing
  -- the stack that had the name ends before the branch takes it
  obtain ⟨hfinish, hname⟩ := finish_acts (hbranched.numbered hw) target
  exact .tail (hbranched.trans hfinish) (seat_act hname)

theorem Step.acts (h : w.Step w') : Acts Session.Move (w.roster []) (w'.roster []) := by
  cases h with
  | start name => exact start_acts hw name
  | finish name => exact (finish_acts hw name).1
  | move hs hmove => exact put_acts hw hs hmove hmove.effect.kin
  | branch sharing target hs => exact branch_acts hw hs sharing target
  | restore snap => exact .single (.tables (.restore snap))
  | siteTable site => exact .single (.tables (.siteTable site))

end

theorem families_start (h : (w.start name).families[i]? = some family) :
    (∀ id, family.pool.get? id = none) ∨ (w.finish name).families[i]? = some family := by
  rcases getElem?_of_push h with ⟨_, rfl⟩ | ⟨_, h⟩
  · exact .inl fun id => by simp [Family.new, Pool.get?]
  · exact .inr h

/-- **Every run of a workspace is a run of its roster.** -/
theorem Reachable.roster (h : Reachable ns limits w) : (w.roster []).Reachable ns limits := by
  induction h with
  | new => exact .refl
  | step _ hstep ih => exact ih.trans (hstep.acts ih.numbered)

end Workspace

/-! ## 4. What holds of every family -/

theorem stacksIn_append (i : Nat) (seats seats' : List Seat) :
    stacksIn i (seats ++ seats') = stacksIn i seats ++ stacksIn i seats' := by
  simp [stacksIn]

theorem stacksIn_map (i root : Nat) (members : List Stack) :
    stacksIn i (members.map (Seat.mk root)) = if root = i then members else [] := by
  induction members with
  | nil => simp [stacksIn]
  | cons stack rest ih =>
    have hcons : stacksIn i ((stack :: rest).map (Seat.mk root)) =
        stacksIn i [Seat.mk root stack] ++ stacksIn i (rest.map (Seat.mk root)) :=
      stacksIn_append i [Seat.mk root stack] _
    rw [hcons, ih]
    by_cases h : root = i <;> simp [stacksIn, h]

theorem stacksIn_cons (i root : Nat) (stack : Stack) (seats : List Seat) :
    stacksIn i (⟨root, stack⟩ :: seats) =
      if root = i then stack :: stacksIn i seats else stacksIn i seats := by
  by_cases h : root = i <;> simp [stacksIn, h]

/-- An invariant of a family and all its stacks: it holds at the start, and a change of one stack
    keeps it. -/
structure Family.Kept (move : Session → Session → Prop) (ns : Namespace) (limits : Limits)
    (I : Family → List Stack → Prop) : Prop where
  perm : ∀ {family members members'}, I family members → members.Perm members' → I family members'
  start : ∀ root, I (.new root limits) [{}]
  change : ∀ {s s' : Session} {members rest}, s.ns = ns → s.limits = limits →
    I s.family (s.stack :: rest) → s.Change move s' members → I s'.family (members ++ rest)

/-- The live frames of these families. -/
def liveIn : List Family → Nat
  | [] => 0
  | family :: families => family.pool.live + liveIn families

theorem liveIn_set (new : Family) : ∀ {families : List Family} {i : Nat} {old : Family},
    families[i]? = some old →
      liveIn (families.set i new) + old.pool.live = liveIn families + new.pool.live
  | [], i, old, h => by simp at h
  | family :: families, 0, old, h => by
    obtain rfl : family = old := by simpa using h
    simp only [set_cons_zero, liveIn]
    omega
  | family :: families, i + 1, old, h => by
    have hrest : families[i]? = some old := by simpa using h
    have ih := liveIn_set new hrest
    simp only [set_cons_succ, liveIn]
    omega

theorem liveIn_append (families families' : List Family) :
    liveIn (families ++ families') = liveIn families + liveIn families' := by
  induction families with
  | nil => exact (Nat.zero_add _).symm
  | cons family families ih =>
    rw [cons_append, liveIn, liveIn]
    omega

namespace Roster

variable {I : Family → List Stack → Prop}

/-- **What a change of one stack keeps holds of every family at all times.** -/
theorem Acts.holds (hI : Family.Kept move ns limits I)
    (h : Acts move ((Workspace.new ns limits).roster []) r) (hi : r.families[i]? = some family) :
    I family (stacksIn i r.seats) := by
  induction h generalizing i family with
  | refl => simp [roster, Workspace.new] at hi
  | @tail r _ hr hact ih =>
    have hnumbered := Acts.numbered hr (new_numbered ns limits)
    cases hact with
    | reorder hperm => exact hI.perm (ih hi) ((hperm.filter _).map _)
    | tables _ => exact ih hi
    | start =>
      rw [stacksIn_cons]
      rcases getElem?_of_push hi with ⟨rfl, rfl⟩ | ⟨hne, hi⟩
      · -- the family is new, and none of the stacks before is of it
        have hnone : stacksIn r.families.size r.seats = [] := by
          rw [stacksIn, map_eq_nil_iff, filter_eq_nil_iff]
          intro seat hmem
          have hlt := hnumbered.seated seat hmem
          simp only [decide_eq_true_eq]
          omega
        rw [if_pos rfl, hnone, hnumbered.limits_eq]
        exact hI.start _
      · rw [if_neg (Ne.symm hne)]
        exact ih hi
    | @change families s s' members seats hfam hchange =>
      rw [stacksIn_append, stacksIn_map]
      rcases getElem?_of_set hi with ⟨rfl, rfl⟩ | ⟨hne, hi⟩
      · have hbefore := ih hfam
        rw [stacksIn_cons, if_pos rfl] at hbefore
        rw [if_pos rfl]
        exact hI.change hnumbered.ns_eq hnumbered.limits_eq hbefore hchange
      · have hbefore := ih hi
        rw [stacksIn_cons, if_neg hne] at hbefore
        rwa [if_neg hne]

theorem Reachable.sound (h : Reachable ns limits r) (hi : r.families[i]? = some family) :
    family.Sound limits (stacksIn i r.seats) := by
  refine Acts.holds (I := fun family members => family.Sound limits members) ⟨?_, ?_, ?_⟩ h hi
  · exact fun hs hperm => hs.perm hperm
  · exact fun root => Family.sound_new root limits
  · intro s s' members rest _ hlim hs hchange
    subst hlim
    exact hchange.sound hs

/-- **Frames made are frames freed and live frames.** -/
theorem Reachable.balance (h : Reachable ns limits r) :
    r.engine.counters.framesAllocated =
      r.engine.counters.framesFreed + liveIn r.families.toList := by
  induction h with
  | refl => rfl
  | @tail r _ hr hact ih =>
    cases hact with
    | reorder _ => exact ih
    | tables h => rw [h.steady.allocated_eq, h.steady.freed_eq]; exact ih
    | start =>
      rw [ih]
      simp [liveIn_append, liveIn, Family.new]
    | @change families s s' members seats hfam hchange =>
      have hsound := Reachable.sound hr hfam
      rw [stacksIn_cons, if_pos rfl, ← (Reachable.numbered hr).limits_eq] at hsound
      have hbalance := hchange.balance hsound
      have hsum := liveIn_set s'.family (Array.getElem?_toList.trans hfam)
      rw [← Array.toList_setIfInBounds] at hsum
      dsimp only at ih ⊢
      unfold Session.BalancedWith at hbalance
      omega

end Roster

/-! ## 5. The accounts of a workspace -/

/-- No operation of the stack finds a frame dead that it refers to. -/
structure Session.MeetsLive (s : Session) : Prop where
  push : ∀ definition arguments newCall id,
    (s.push definition arguments newCall).1 ≠ .error (.staleFrame id)
  pushCall : ∀ call newCall id, (s.pushCall call newCall).1 ≠ .error (.staleFrame id)
  pop : ∀ id, s.pop ≠ .error (.staleFrame id)
  unpush : ∀ id, s.unpush ≠ .error (.staleFrame id)
  repush : ∀ id, s.repush ≠ .error (.staleFrame id)
  startIteration : ∀ id, s.startIteration ≠ .error (.staleFrame id)

theorem Family.Sound.meetsLive (hs : s.family.Sound limits members) (hmem : s.stack ∈ members) :
    s.MeetsLive := by
  have htop : ∀ id ∈ s.stack.top, ∃ frame, s.frame? id = some frame :=
    fun id hid => hs.top_live hmem hid
  have hstash : ∀ id ∈ s.stack.stash, ∃ frame, s.frame? id = some frame :=
    fun id hid => hs.held_live hmem (mem_append_right _ hid)
  exact ⟨push_ne_stale htop, pushCall_ne_stale htop, pop_ne_stale htop,
    unpush_ne_stale htop, repush_ne_stale hstash,
    startIteration_ne_stale htop⟩

theorem count_held (members : List Stack) (id : FrameId) :
    (members.flatMap Stack.held).count id =
      members.countP (·.top = some id) + (members.flatMap Stack.stash).count id := by
  induction members with
  | nil => rfl
  | cons t rest ih =>
    have htop : t.top.toList.count id = if t.top = some id then 1 else 0 := by
      cases t.top with
      | none => rfl
      | some top => by_cases h : top = id <;> simp [h]
    rw [flatMap_cons, count_append, Stack.held, count_append,
      countP_cons, flatMap_cons, count_append]
    simp only [decide_eq_true_eq]
    omega

namespace Workspace

theorem session_sound (hw : (w.roster unnamed).Reachable ns limits) (hs : w.session? name = some s) :
    s.family.Sound s.limits
      (s.stack :: stacksIn s.family.root (unnamed ++ (w.seats.erase name).values)) := by
  have hfocus : Roster.Reachable ns limits _ := .tail hw (focus hw.numbered hs)
  obtain ⟨_, hfam, _⟩ := session?_eq_some hw.numbered hs
  have hsound := hfocus.sound hfam
  rw [stacksIn_cons, if_pos rfl, ← hfocus.numbered.limits_eq] at hsound
  exact hsound

theorem Reachable.sound (h : Reachable ns limits w) (hi : w.families[i]? = some family) :
    family.Sound limits (w.stacksOf i) :=
  h.roster.sound hi

theorem Reachable.limits_eq (h : Reachable ns limits w) (hs : w.session? name = some s) :
    s.limits = limits := by
  obtain ⟨heng, _⟩ := session?_eq_some h.roster.numbered hs
  exact (congrArg Engine.limits heng).trans h.roster.numbered.limits_eq

theorem Reachable.session (h : Reachable ns limits w) (hs : w.session? name = some s) :
    s.engine = w.engine ∧ w.families[s.family.root]? = some s.family ∧
      s.stack ∈ w.stacksOf s.family.root := by
  obtain ⟨heng, hfam, hseat⟩ := session?_eq_some h.roster.numbered hs
  refine ⟨heng, hfam, ?_⟩
  have hmem : (⟨s.family.root, s.stack⟩ : Seat) ∈ w.seats.values :=
    (perm_of_get? hseat).mem_iff.mpr mem_cons_self
  simp only [stacksOf, stacksIn, mem_map, mem_filter, decide_eq_true_eq]
  exact ⟨_, ⟨hmem, rfl⟩, rfl⟩

/-- **The accounts of frames are in order in every reachable workspace.** A live frame counts the
    live frames on it and the stacks that hold it, never none; what a live frame or a stack refers
    to is alive; the number of live frames is right, and nil once the stacks of the family have
    ended. So no operation meets a dead frame, none clears a frame that is in use, and frames made
    are frames freed and live frames. -/
theorem frames_accounted (h : Reachable ns limits w) :
    (∀ (i : Nat) (family : Family), w.families[i]? = some family →
      (∀ id frame, family.pool.get? id = some frame →
        frame.links = family.pool.countLive (·.previous == some id) ∧
        frame.pins = (w.stacksOf i).countP (·.top = some id) +
          ((w.stacksOf i).flatMap Stack.stash).count id ∧
        (∀ below ∈ frame.previous, ∃ lower, family.pool.get? below = some lower) ∧
        ¬ (frame.links = 0 ∧ frame.pins = 0)) ∧
      (∀ t ∈ w.stacksOf i, ∀ id, (t.top = some id ∨ id ∈ t.stash) →
        ∃ frame, family.pool.get? id = some frame) ∧
      family.pool.live = family.pool.countLive (fun _ => true) ∧
      (w.stacksOf i = [] → family.pool.live = 0)) ∧
    (∀ name s, w.session? name = some s → s.MeetsLive) ∧
    (∀ (pool : Pool) id, pool.unpinChecked id = .ok (pool.unpin id)) ∧
    w.engine.counters.framesAllocated =
      w.engine.counters.framesFreed + liveIn w.families.toList := by
  refine ⟨fun i family hi => ?_, fun name s hs => ?_, Pool.unpinChecked_eq, h.roster.balance⟩
  · have hsound := h.sound hi
    have ha := hsound.accounted
    refine ⟨fun id frame hf => ⟨?_, ?_, ?_, ?_⟩, fun t ht id hid => ?_, ha.tidy.live_eq,
      fun hnone => ?_⟩
    · exact ha.links_eq hf
    · rw [ha.pins_eq hf, count_held]
    · intro below hbelow
      obtain ⟨lower, hlower, _⟩ := ha.below_live hf hbelow
      exact ⟨lower, hlower⟩
    · rw [← Pool.isUnreferenced_iff, ha.referenced hf]
      exact Bool.false_ne_true
    · rcases hid with htop | hstash
      · exact hsound.top_live ht htop
      · exact hsound.held_live ht (List.mem_append_right _ hstash)
    · rw [hnone] at ha
      exact ha.live_eq_zero hsound.recent
  · obtain ⟨_, hfamily, hmem⟩ := h.session hs
    exact (h.sound hfamily).meetsLive hmem

/-- A stack with one frame, and a branch of it. -/
def forked : Workspace :=
  let started := (new (Namespace.empty.define none "site").2 {}).start "left"
  match started.session? "left" with
  | some s => (started.put "left" (s.push 0 [] true).2).branch (s.push 0 [] true).2 false "right"
  | none => started

theorem forked_reachable : Reachable (Namespace.empty.define none "site").2 {} forked := by
  have hnew : Reachable (Namespace.empty.define none "site").2 {} (.new _ {}) := .new
  have hstarted := hnew.step (.start "left")
  have hpushed := hstarted.step (@Step.move _ "left" _ _ rfl (.push 0 [] true))
  exact hpushed.step (@Step.branch _ "left" _ false "right" rfl)

theorem frames_accounted_forked :
    Reachable (Namespace.empty.define none "site").2 {} forked ∧
      (forked.stacksOf 0).length = 2 ∧ forked.engine.counters.framesAllocated = 2 ∧
      2 = forked.engine.counters.framesFreed + liveIn forked.families.toList := by
  have hmade : forked.engine.counters.framesAllocated = 2 := by decide
  obtain ⟨_, _, _, hbalance⟩ := frames_accounted forked_reachable
  exact ⟨forked_reachable, by decide, hmade, hmade ▸ hbalance⟩

end Workspace

end KeepTree
