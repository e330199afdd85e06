import KeepTree.Proofs.Pool.Chains
import KeepTree.Proofs.Pool.Generations
import Mathlib.Data.List.Forall2

/-!
# Pools that mirror each other

Two pools on which the same is done hold the same frames, under ids of their own: one may use its
slots again and the other not. A renaming lists which id of the one stands for which of the other,
for all frames that were ever made. It grows with every new frame, and never loses a pair:

* `Mirrors.alloc` -- **new frames stand for each other from then on**, since neither id was given out
  before (`Issued`).
-/

namespace KeepTree

variable {ρ ρ' : Renaming} {f g : Frame} {x y top : Option FrameId}

/-! ## 1. Renamings -/

/-- Which frame of one pool stands for which of another. -/
abbrev Renaming := List (FrameId × FrameId)

namespace Renaming

variable {a b a' b' : FrameId}

/-- The first id stands for the second. -/
def Pairs (ρ : Renaming) (a b : FrameId) : Prop := (a, b) ∈ ρ

/-- No id stands for two others, and no two for one. -/
def OneToOne (ρ : Renaming) : Prop :=
  ∀ ⦃a b a' b'⦄, ρ.Pairs a b → ρ.Pairs a' b' → (a = a' ↔ b = b')

theorem Pairs.mono (hsub : ρ ⊆ ρ') (h : ρ.Pairs a b) : ρ'.Pairs a b := hsub h

theorem rel_mono (hsub : ρ ⊆ ρ') (h : Option.Rel ρ.Pairs x y) : Option.Rel ρ'.Pairs x y := by
  cases h with
  | some h => exact .some (h.mono hsub)
  | none => exact .none

theorem oneToOne_nil : OneToOne [] := fun _ _ _ _ h => absurd h List.not_mem_nil

theorem OneToOne.cons (h : ρ.OneToOne) (ha : ∀ b, ¬ ρ.Pairs a b) (hb : ∀ a, ¬ ρ.Pairs a b) :
    OneToOne ((a, b) :: ρ) := by
  intro x y x' y' hxy hxy'
  rcases List.mem_cons.mp hxy with heq | hold <;> rcases List.mem_cons.mp hxy' with heq' | hold'
  · cases heq
    cases heq'
    exact iff_of_true rfl rfl
  · cases heq
    exact iff_of_false (fun e => ha y' (e ▸ hold')) (fun e => hb x' (e ▸ hold'))
  · cases heq'
    exact iff_of_false (fun e => ha y (e ▸ hold)) (fun e => hb x (e ▸ hold))
  · exact h hold hold'

end Renaming

/-! ## 2. Frames -/

/-- The same frame, but that the one below goes by another id. -/
def Frame.Mirrors (ρ : Renaming) (f g : Frame) : Prop :=
  ∃ previous, g = { f with previous } ∧ Option.Rel ρ.Pairs f.previous previous

theorem Frame.Mirrors.mono (hsub : ρ ⊆ ρ') (h : f.Mirrors ρ g) : f.Mirrors ρ' g := by
  obtain ⟨prev, hg, hrel⟩ := h
  exact ⟨prev, hg, Renaming.rel_mono hsub hrel⟩

theorem Frame.Mirrors.previous (h : f.Mirrors ρ g) : Option.Rel ρ.Pairs f.previous g.previous := by
  obtain ⟨prev, rfl, hrel⟩ := h
  exact hrel

/-- A change of a frame that ignores what is below it. -/
def Frame.Above (change : Frame → Frame) : Prop :=
  ∀ f previous, change { f with previous } = { change f with previous }

theorem Frame.Mirrors.change {change : Frame → Frame} (hchange : Frame.Above change)
    (h : f.Mirrors ρ g) : (change f).Mirrors ρ (change g) := by
  obtain ⟨prev, rfl, hrel⟩ := h
  have hown : (change f).previous = f.previous := by
    exact (congrArg Frame.previous (hchange f f.previous) :)
  exact ⟨prev, hchange f prev, hown ▸ hrel⟩

theorem Frame.unlink_above : Frame.Above fun f => { f with links := f.links - 1 } := fun _ _ => rfl

theorem Frame.unpin_above : Frame.Above fun f => { f with pins := f.pins - 1 } := fun _ _ => rfl

theorem Frame.Mirrors.isUnreferenced_eq (h : f.Mirrors ρ g) :
    g.isUnreferenced = f.isUnreferenced := by
  obtain ⟨prev, rfl, _⟩ := h
  rfl

theorem Frame.Mirrors.clear (h : f.Mirrors ρ g) :
    (∃ inUse inUse', f.clear = .error inUse ∧ g.clear = .error inUse') ∨
      ∃ cleared cleared', f.clear = .ok cleared ∧ g.clear = .ok cleared' := by
  by_cases hu : f.isUnreferenced = true
  · exact .inr ⟨_, _, dif_pos hu, dif_pos (h.isUnreferenced_eq.trans hu)⟩
  · exact .inl ⟨_, _, dif_neg hu, dif_neg (h.isUnreferenced_eq ▸ hu)⟩

/-! ## 3. Pools -/

namespace Pool

variable {p q : Pool} {a b : FrameId} {f' g' : Frame}

/-- The frames are the same, under ids that stand for each other. -/
structure Mirrors (ρ : Renaming) (p q : Pool) : Prop where
  oneToOne : ρ.OneToOne
  frames : ∀ {a b}, ρ.Pairs a b → Option.Rel (Frame.Mirrors ρ) (p.get? a) (q.get? b)
  live_eq : q.live = p.live
  issued : ∀ {a b}, ρ.Pairs a b → p.Issued a ∧ q.Issued b

theorem mirrors_empty (recycle recycle' : Bool) : Mirrors [] { recycle } { recycle := recycle' } where
  oneToOne := Renaming.oneToOne_nil
  frames h := absurd h List.not_mem_nil
  live_eq := rfl
  issued h := absurd h List.not_mem_nil

section

variable (h : p.Mirrors ρ q) (hab : ρ.Pairs a b)
include h hab

theorem Mirrors.frame (hf : p.get? a = some f) : ∃ g, q.get? b = some g ∧ f.Mirrors ρ g := by
  have hrel := h.frames hab
  rw [hf] at hrel
  generalize q.get? b = found at hrel
  cases hrel with
  | some hfg => exact ⟨_, rfl, hfg⟩

theorem Mirrors.dead (hf : p.get? a = none) : q.get? b = none := by
  have hrel := h.frames hab
  rw [hf] at hrel
  generalize q.get? b = found at hrel
  cases hrel with
  | none => rfl

theorem Mirrors.set (hf : p.get? a = some f)
    (hg : q.get? b = some g) (hnew : f'.Mirrors ρ g') : (p.set a f').Mirrors ρ (q.set b g') where
  oneToOne := h.oneToOne
  frames := fun {x y} hxy => by
    rw [get?_set hf, get?_set hg]
    by_cases hx : x = a
    · rw [if_pos hx, if_pos ((h.oneToOne hxy hab).mp hx)]
      exact .some hnew
    · rw [if_neg hx, if_neg fun hy => hx ((h.oneToOne hxy hab).mpr hy)]
      exact h.frames hxy
  live_eq := h.live_eq
  issued hxy := ⟨(h.issued hxy).1.later (later_set hf f'), (h.issued hxy).2.later (later_set hg g')⟩

end

theorem Mirrors.modify (h : p.Mirrors ρ q) (hab : ρ.Pairs a b) {change : Frame → Frame}
    (hchange : Frame.Above change) : (p.modify a change).Mirrors ρ (q.modify b change) := by
  unfold Pool.modify
  cases hf : p.get? a with
  | none =>
    rw [h.dead hab hf]
    exact h
  | some f =>
    obtain ⟨g, hg, hfg⟩ := h.frame hab hf
    rw [hg]
    exact h.set hab hf hg (hfg.change hchange)

section

variable (h : p.Mirrors ρ q) (hab : ρ.Pairs a b)
include h hab

theorem Mirrors.link : (p.link a).Mirrors ρ (q.link b) := h.modify hab fun _ _ => rfl

/-! ## 4. Letting go -/

theorem Mirrors.retire (hf : p.get? a = some f) (hg : q.get? b = some g)
    (cleared cleared' : ClearFrame) : (p.retire a cleared).Mirrors ρ (q.retire b cleared') where
  oneToOne := h.oneToOne
  frames := fun {x y} hxy => by
    rw [get?_retire hf, get?_retire hg]
    by_cases hx : x = a
    · rw [if_pos hx, if_pos ((h.oneToOne hxy hab).mp hx)]
      exact .none
    · rw [if_neg hx, if_neg fun hy => hx ((h.oneToOne hxy hab).mpr hy)]
      exact h.frames hxy
  live_eq := congrArg (· - 1) h.live_eq
  issued hxy := ⟨(h.issued hxy).1.later (later_retire hf cleared),
    (h.issued hxy).2.later (later_retire hg cleared')⟩

end

theorem release_steps : ∀ {steps more : Nat} {a : FrameId} {p : Pool}, p.occupied ≤ steps →
    steps ≤ more → release more a p = release steps a p
  | 0, 0, _, _, _, _ => rfl
  | 0, more + 1, a, p, hsteps, _ => by
    have hnone : p.get? a = none := by
      cases hf : p.get? a with
      | none => rfl
      | some f => exact absurd (occupied_pos hf) (Nat.not_lt.mpr hsteps)
    simp only [release, hnone]
  | steps + 1, more + 1, a, p, hsteps, hmore => by
    unfold release
    cases hf : p.get? a with
    | none => rfl
    | some f =>
      simp only
      cases f.clear with
      | error => rfl
      | ok cleared =>
        simp only
        cases f.previous with
        | none => rfl
        | some below =>
          simp only
          cases hlow : (p.retire a cleared).get? below with
          | none => rfl
          | some lower =>
            -- the freed frame leaves one live frame less, and the changed count none more
            have hretired := occupied_retire hf cleared
            have hset := countLive_set hlow { lower with links := lower.links - 1 } fun _ => true
            have hoccupied : ((p.retire a cleared).set below
                { lower with links := lower.links - 1 }).occupied = (p.retire a cleared).occupied :=
              Nat.add_right_cancel hset
            simp only
            rw [release_steps (by omega) (Nat.le_of_succ_le_succ hmore)]

theorem Mirrors.release_within : ∀ (steps : Nat) {a b : FrameId} {p q : Pool}, p.Mirrors ρ q →
    ρ.Pairs a b → (release steps b q).1 = (release steps a p).1 ∧
      (release steps a p).2.Mirrors ρ (release steps b q).2
  | 0, _, _, _, _, h, _ => ⟨rfl, h⟩
  | steps + 1, a, b, p, q, h, hab => by
    unfold release
    cases hf : p.get? a with
    | none =>
      rw [h.dead hab hf]
      exact ⟨rfl, h⟩
    | some f =>
      obtain ⟨g, hg, hfg⟩ := h.frame hab hf
      have hprev := hfg.previous
      rw [hg]
      rcases hfg.clear with ⟨_, _, hclear, hclear'⟩ | ⟨cleared, cleared', hclear, hclear'⟩
      · simpa only [hclear, hclear', true_and] using h
      have hretired := h.retire hab hf hg cleared cleared'
      simp only [hclear, hclear']
      generalize f.previous = x at hprev
      generalize g.previous = y at hprev
      cases hprev with
      | none => exact ⟨rfl, hretired⟩
      | @some below below' hbel =>
        simp only
        cases hlow : (p.retire a cleared).get? below with
        | none =>
          rw [hretired.dead hbel hlow]
          exact ⟨rfl, hretired⟩
        | some lower =>
          obtain ⟨lower', hlow', hmirrors⟩ := hretired.frame hbel hlow
          have hless := hmirrors.change Frame.unlink_above
          have hset := hretired.set hbel hlow hlow' hless
          rw [hlow']
          simp only
          rw [hless.isUnreferenced_eq]
          split
          · obtain ⟨hfreed, hrest⟩ := Mirrors.release_within steps hset hbel
            exact ⟨congrArg (· + 1) hfreed, hrest⟩
          · exact ⟨rfl, hset⟩

/-- **The same frames are freed**, however many slots there are. -/
theorem Mirrors.release (h : p.Mirrors ρ q) (hab : ρ.Pairs a b) :
    (Pool.release q.slots.size b q).1 = (Pool.release p.slots.size a p).1 ∧
      (Pool.release p.slots.size a p).2.Mirrors ρ (Pool.release q.slots.size b q).2 := by
  have hp := release_steps (a := a) (occupied_le_size p) (Nat.le_max_left _ q.slots.size)
  have hq := release_steps (a := b) (occupied_le_size q) (Nat.le_max_right p.slots.size _)
  rw [← hp, ← hq]
  exact h.release_within _ hab

theorem Mirrors.unpin (h : p.Mirrors ρ q) (hab : ρ.Pairs a b) :
    (q.unpin b).1 = (p.unpin a).1 ∧ (p.unpin a).2.Mirrors ρ (q.unpin b).2 := by
  unfold Pool.unpin
  cases hf : p.get? a with
  | none =>
    rw [h.dead hab hf]
    exact ⟨rfl, h⟩
  | some f =>
    obtain ⟨g, hg, hfg⟩ := h.frame hab hf
    have hless := hfg.change Frame.unpin_above
    have hset := h.set hab hf hg hless
    rw [hg]
    simp only
    rw [hless.isUnreferenced_eq]
    split
    · exact hset.release hab
    · exact ⟨rfl, hset⟩

theorem Mirrors.unpinAll {as bs : List FrameId} (h : p.Mirrors ρ q)
    (hall : List.Forall₂ ρ.Pairs as bs) :
    (q.unpinAll bs).1 = (p.unpinAll as).1 ∧ (p.unpinAll as).2.Mirrors ρ (q.unpinAll bs).2 := by
  induction hall generalizing p q with
  | nil => exact ⟨rfl, h⟩
  | cons hab _ ih =>
    obtain ⟨hfreed, hrest⟩ := h.unpin hab
    obtain ⟨hmore, hlast⟩ := ih hrest
    exact ⟨congrArg₂ (· + ·) hfreed hmore, hlast⟩

/-! ## 5. New frames -/

/-- **New frames stand for each other from then on.** -/
theorem Mirrors.alloc (h : p.Mirrors ρ q) (hp : p.Tidy) (hq : q.Tidy) (hfg : f.Mirrors ρ g) :
    (p.alloc f).2.Mirrors
      (((p.alloc f).1.id, (q.alloc g).1.id) :: ρ) (q.alloc g).2 := by
  have hfresh : ∀ {b}, ¬ ρ.Pairs (p.alloc f).1.id b := fun hpair =>
    not_issued_alloc hp _ (h.issued hpair).1
  have hfresh' : ∀ {a}, ¬ ρ.Pairs a (q.alloc g).1.id := fun hpair =>
    not_issued_alloc hq _ (h.issued hpair).2
  have hsub : ρ ⊆ ((p.alloc f).1.id, (q.alloc g).1.id) :: ρ :=
    List.subset_cons_self _ _
  refine ⟨h.oneToOne.cons (fun _ => hfresh) fun _ => hfresh', fun {x y} hxy => ?_, ?_,
    fun {x y} hxy => ?_⟩
  · rw [get?_alloc hp, get?_alloc hq]
    rcases List.mem_cons.mp hxy with heq | hold
    · obtain ⟨hx, hy⟩ := Prod.mk.inj heq
      rw [if_pos hx, if_pos hy]
      exact .some (hfg.mono hsub)
    · rw [if_neg fun e => hfresh (e ▸ hold), if_neg fun e => hfresh' (e ▸ hold)]
      have hrel := h.frames hold
      generalize p.get? x = found at hrel
      generalize q.get? y = found' at hrel
      cases hrel with
      | none => exact .none
      | some hold => exact .some (hold.mono hsub)
  · rcases alloc_cases hp f with ⟨_, _, _, _, _, _, heq⟩ | ⟨_, heq⟩ <;>
      rcases alloc_cases hq g with ⟨_, _, _, _, _, _, heq'⟩ | ⟨_, heq'⟩ <;>
      rw [heq, heq'] <;> exact congrArg (· + 1) h.live_eq
  · rcases List.mem_cons.mp hxy with heq | hold
    · cases heq
      exact ⟨issued_of_alive (get?_alloc_self hp _), issued_of_alive (get?_alloc_self hq _)⟩
    · exact ⟨(h.issued hold).1.later (later_alloc hp _), (h.issued hold).2.later (later_alloc hq _)⟩

/-! ## 6. Chains -/

/-- A frame of a chain, with its id. -/
def EntryMirrors (ρ : Renaming) (x y : FrameId × Frame) : Prop :=
  ρ.Pairs x.1 y.1 ∧ x.2.Mirrors ρ y.2

theorem Mirrors.chain_of_chain (h : p.Mirrors ρ q) {l : List (FrameId × Frame)} (hl : p.Chain top l) :
    ∀ {top' : Option FrameId}, Option.Rel ρ.Pairs top top' →
      ∃ l', q.Chain top' l' ∧ List.Forall₂ (EntryMirrors ρ) l l' := by
  induction hl with
  | bottom =>
    intro top' htop
    cases htop
    exact ⟨[], .bottom, .nil⟩
  | @link a f rest hf _ ih =>
    intro top' htop
    cases htop with
    | @some _ b hab =>
      obtain ⟨g, hg, hfg⟩ := h.frame hab hf
      obtain ⟨rest', hrest, hall⟩ := ih hfg.previous
      exact ⟨(b, g) :: rest', .link hg hrest, .cons ⟨hab, hfg⟩ hall⟩

/-- **The chains from two frames that stand for each other.** -/
theorem Mirrors.chain (h : p.Mirrors ρ q) {held owed due held' owed' due' : List FrameId}
    (hp : p.Balanced held owed due) (hq : q.Balanced held' owed' due') {top top' : Option FrameId}
    (htop : Option.Rel ρ.Pairs top top') :
    List.Forall₂ (EntryMirrors ρ) (p.chain top) (q.chain top') := by
  cases htop with
  | none =>
    rw [chain_none, chain_none]
    exact .nil
  | @some a b hab =>
    cases hf : p.get? a with
    | none =>
      have hdead : ∀ {pool : Pool} {id : FrameId}, pool.get? id = none →
          pool.chain (some id) = [] := by
        intro pool id hnone
        unfold Pool.chain
        cases pool.slots.size with
        | zero => rfl
        | succ steps => simp only [chainFrom, hnone]
      rw [hdead hf, hdead (h.dead hab hf)]
      exact .nil
    | some f =>
      obtain ⟨l, hl⟩ := hp.exists_chain hf
      obtain ⟨l', hl', hall⟩ := h.chain_of_chain hl (.some hab)
      rw [hl.chain_eq hp, hl'.chain_eq hq]
      exact hall

end Pool

end KeepTree
