import KeepTree.Proofs.Evaluation.Restoring
import KeepTree.Proofs.Session.Growth

/-!
# Evaluation without caching writes to its own frames only

Where nothing that is computed is kept, the only values that an evaluation puts into tables are the
items of loops, and these go to the frame in which the loop runs. If no loop runs in the frame of a
site, which shares its cache with others, the tables that were there before a call are what they
were after it:

* `Discipline.sparing`, `sparing_lawful` -- **calls leave all tables as they were**.
-/

namespace KeepTree

open KeepTree.Frame

variable {ns : Namespace} {rest : List Stack} {id : DefId} {d : Definition}
  {args : List Argument}

/-- Nothing that is computed is kept, and the loops of a body run in a frame with a cache of its
    own: the body is that of neither a site nor an indirect definition. -/
structure Namespace.Fleeting (ns : Namespace) : Prop where
  dynamic : ∀ {id d}, ns.get? id = some d → d.durability = .dynamic
  keeps : ∀ {id d}, ns.get? id = some d → d.keeps = []
  loops : ∀ {id d}, ns.get? id = some d → d.body.hasLoop = true →
    d.isSite = false ∧ d.kind.isIndirect = false

theorem Namespace.canonical_direct (hd : ns.get? id = some d) (hkind : d.kind.isIndirect = false)
    (args : List Argument) (scope : Option DefId) (limit : Nat) :
    ns.canonical ⟨id, args⟩ scope limit = .ok (some ⟨id, Argument.pad args d.parameters⟩) := by
  have hfind : ns.find id = .ok d := by rw [find, hd]
  simp [canonical, resolveWithin, hfind, hkind]

namespace Session

variable {s s' s'' : Session} {own : Option TableId}

/-! ## 1. Tables left as they were -/

/-- The cache of the top frame, if it shares it with no other. -/
def ownCache? (s : Session) : Option TableId :=
  s.topFrame?.bind fun frame =>
    if (s.ns.get? frame.definition).any (·.isSite) then none else some frame.cache

/-- The tables of `s` are what they were, but perhaps for its own cache `own`. -/
structure Untouched (own : Option TableId) (s s' : Session) : Prop where
  own_eq : s'.ownCache? = s.ownCache?
  size_le : s.store.tables.size ≤ s'.store.tables.size
  table_eq : ∀ {t}, t < s.store.tables.size → own ≠ some t → s'.store.table t = s.store.table t

theorem Untouched.refl (own : Option TableId) (s : Session) : Untouched own s s :=
  ⟨rfl, Nat.le_refl _, fun _ _ => rfl⟩

theorem Untouched.trans (h : Untouched own s s') (h' : Untouched own s' s'') :
    Untouched own s s'' where
  own_eq := h'.own_eq.trans h.own_eq
  size_le := Nat.le_trans h.size_le h'.size_le
  table_eq ht hne := (h'.table_eq (Nat.lt_of_lt_of_le ht h.size_le) hne).trans (h.table_eq ht hne)

theorem Same.ownCache?_eq (hs : s.Fit ns rest) (h : s.Same unlooped s') :
    s'.ownCache? = s.ownCache? := by
  unfold ownCache? Session.topFrame?
  rw [h.top_eq, h.ns_eq]
  cases htop : s.stack.top with
  | none => rfl
  | some id =>
    obtain ⟨frame, hf⟩ := hs.top_live id htop
    obtain ⟨frame', hf', hread, _⟩ := h.frames hf
    have hdef : frame'.definition = frame.definition := (congrArg definition hread :)
    have hca : frame'.cache = frame.cache := (congrArg cache hread :)
    simp only [Option.bind_some, hf, hf', hdef, hca]

theorem untouched_of_store_eq (hs : s.Fit ns rest) (h : s.Same unlooped s')
    (hsto : s'.store = s.store) (own : Option TableId) : Untouched own s s' :=
  ⟨h.ownCache?_eq hs, Nat.le_of_eq (by rw [hsto]), fun _ _ => by rw [hsto]⟩

theorem Same.unlooped_of_bare (h : s.Same bare s') : s.Same unlooped s' :=
  h.coarsen unlooped_plain.bare

theorem Same.unlooped_of_uncounted (h : s.Same uncounted s') : s.Same unlooped s' :=
  h.coarsen Frame.unlooped_of_uncounted

/-! ## 2. The operations -/

theorem lookup_store (hns : ∀ {id d}, s.ns.get? id = some d → d.isGlobal = false) (r : Request) :
    (s.lookup r).2.store = s.store := by
  have hprep : s.prepare r = s.engine := by
    unfold prepare
    split
    · rename_i d hd
      obtain ⟨id, _, hd⟩ := Option.bind_eq_some_iff.mp hd
      rw [if_neg (by rw [hns hd]; exact Bool.false_ne_true)]
    · rfl
  unfold lookup
  simp only [hprep]
  split <;> rfl

theorem repush_store (h : s.repush = .ok s') : s'.store = s.store := by
  obtain ⟨id, frame, stash, _, _, _, rfl⟩ := repush_ok h
  rfl

theorem pop_store (h : s.pop = .ok s') : s'.store = s.store := by
  obtain ⟨id, frame, _, _, rfl⟩ := pop_ok h
  rfl

theorem putValue_store {key : String} {value : Value} (h : s.putValue key value = .ok s') :
    ∃ frame, s.topFrame? = some frame ∧
      s'.store = s.store.write frame.cache (frame.slotKey key) (.value value) := by
  obtain ⟨frame, hfr, rfl⟩ := putValue_ok h
  exact ⟨frame, hfr, rfl⟩

theorem setIteration_store (s : Session) (iter : Option Nat) :
    (s.setIteration iter).store = s.store := by
  unfold setIteration
  split <;> rfl

theorem Pushed.ownCache? {bound : Bound} {frame : Frame}
    (h : s.Pushed id args s' bound d frame) (hs : s.Fit ns rest) :
    s'.ownCache? = if d.isSite then none else some frame.cache := by
  have hd : s'.ns.get? frame.definition = some d := by rw [h.ns_eq, h.definition_eq, h.get?]
  rw [Session.ownCache?, h.topFrame? hs]
  simp only [Option.bind_some, hd, Option.any_some]

end Session

/-! ## 3. The discipline -/

/-- Calls leave the stack and all tables as they were; a body may have written to the cache of its
    own frame. -/
def Discipline.sparing (ns : Namespace) (rest : List Stack) : Discipline where
  ns := ns
  inv s := s.Fit ns rest ∧ s.store.Keepless
  may
    | .call, s, s' => s.Same bare s' ∧ Session.Untouched none s s'
    | .frame, s, s' => s.Same uncounted s' ∧ Session.Untouched s.ownCache? s s'
    | .loop, s, s' => s.Same unlooped s' ∧ Session.Untouched s.ownCache? s s'
  loops s := s.ownCache?.isSome = true
  dangles := ¬ ns.Closed

namespace Discipline

variable {run : Run}

open Session

theorem sparing_push (hns : ns.Fleeting) {s s' : Session} {newCall : Bool}
    (hinv : (sparing ns rest).inv s) (hid : ns.Refers id)
    (h : s.push id args newCall = (.ok (), s')) : (sparing ns rest).Entered s id s' := by
  obtain ⟨hfit, hkeepless⟩ := hinv
  have hks : ∀ {id d}, s.ns.get? id = some d → d.keeps = [] := by
    rw [hfit.ns_eq]
    exact hns.keeps
  obtain ⟨bound, d, frame, hpushed⟩ := push_pushed hks h
  have hrun : (restoring ns rest).inv (Run.mk s {}).session := hfit
  have hentered := (restoring_lawful ns rest).push hrun hid h
  have hd : ns.get? frame.definition = some d := by
    rw [hpushed.definition_eq, ← hfit.ns_eq, hpushed.get?]
  have hown : d.body.hasLoop = true → s'.ownCache?.isSome = true := by
    intro hloop
    rw [hpushed.ownCache? hfit, (hns.loops hd hloop).1]
    rfl
  refine ⟨⟨hentered.inv, hpushed.grown.keepless hkeepless⟩, ⟨frame, hpushed.topFrame? hfit, ?_⟩,
    ?_, ?_⟩
  · rintro ⟨d', hd', hloop⟩
    cases hd.symm.trans hd'
    exact hown hloop
  · -- a definition with loops stands for itself, so the frame is one of its own
    rintro ⟨d', hd', hloop⟩
    have hd' : ns.get? id = some d' := hd'
    have hdir := Namespace.canonical_direct hd' (hns.loops hd' hloop).2 args
      s.topDefinition? s.limits.maxPointerHops
    have hcan := hpushed.canonical
    rw [hfit.ns_eq, hdir] at hcan
    have hbound := congrArg Bound.definition (Option.some.inj (Except.ok.inj hcan))
    rw [hpushed.definition_eq, ← hbound, hd'] at hd
    cases hd
    exact hown hloop
  · intro after ⟨hfit', hkeepless'⟩ ⟨hsame, huntouched⟩
    obtain ⟨back, hpop, hfit'', hsame'⟩ := hentered.back hfit' hsame
    have hsto := pop_store hpop
    refine ⟨back, hpop, ⟨hfit'', hsto ▸ hkeepless'⟩, hsame',
      hsame'.unlooped_of_bare.ownCache?_eq hfit, ?_, fun {t} ht _ => ?_⟩
    · rw [hsto]
      exact Nat.le_trans hpushed.grown.size_le huntouched.size_le
    · -- what the frame wrote went to a table that came with it
      have hne : s'.ownCache? ≠ some t := by
        rw [hpushed.ownCache? hfit]
        cases hsite : d.isSite with
        | true => nofun
        | false =>
          rw [hpushed.cache.of_not_isSite hsite]
          intro e
          exact Nat.ne_of_gt ht (Option.some.inj e)
      have ht' := Nat.lt_of_lt_of_le ht hpushed.grown.size_le
      rw [hsto, huntouched.table_eq ht' hne]
      exact hpushed.grown.table_eq ht

/-- **Calls leave all tables as they were.** -/
theorem sparing_lawful (hns : ns.Fleeting) (rest : List Stack) : (sparing ns rest).Lawful where
  ns_eq hinv := hinv.1.ns_eq
  refl := fun {l s} => by cases l <;> exact ⟨Same.refl _ s, .refl _ s⟩
  trans := fun {l s s' s''} h h' => by
    cases l with
    | call => exact ⟨h.1.trans h'.1, h.2.trans h'.2⟩
    | frame => exact ⟨h.1.trans h'.1, h.2.trans (h.2.own_eq ▸ h'.2)⟩
    | loop => exact ⟨h.1.trans h'.1, h.2.trans (h.2.own_eq ▸ h'.2)⟩
  call_frame h :=
    ⟨h.1.coarsen uncounted_plain.bare, h.2.own_eq, h.2.size_le, fun ht _ => h.2.table_eq ht nofun⟩
  frame_loop h := ⟨h.1.unlooped_of_uncounted, h.2⟩
  loops_kept h hloops := by
    show Option.isSome _ = true
    rw [h.2.own_eq]
    exact hloops
  walk h := (restoring_lawful ns rest).walk h
  lookup := fun {run} r hinv => by
    have hglob : ∀ {id d}, run.session.ns.get? id = some d → d.isGlobal = false := by
      intro id d hd
      rw [hinv.1.ns_eq] at hd
      rw [Definition.isGlobal, hns.dynamic hd]
      rfl
    have hsto := lookup_store hglob r
    refine ((restoring_lawful ns rest).lookup r hinv.1).transfer id fun h => ?_
    exact ⟨⟨h.inv, hsto ▸ hinv.2⟩, ⟨h.may,
      untouched_of_store_eq hinv.1 (Same.unlooped_of_bare h.may) hsto none⟩, h.evaluator_eq⟩
  put := fun {run start id holder} target _ hinv _ _ _ hstored => by
    -- there is nothing to put: no value is kept, and no frame keeps a name
    have hkept : run.session.isKept target = false := by
      rw [isKept, List.any_eq_false]
      simp [keepPointer?, hinv.2 _ _]
    rw [Recur.isStored, hkept, hinv.1.ns_eq] at hstored
    cases hd : ns.get? id with
    | none => simp [hd] at hstored
    | some d => simp [hd, hns.dynamic hd] at hstored
  count := fun {s} hinv => by
    obtain ⟨hfit, hsame⟩ := (restoring_lawful ns rest).count hinv.1
    exact ⟨⟨hfit, hinv.2⟩, hsame, untouched_of_store_eq hinv.1 hsame.unlooped_of_bare rfl none⟩
  push hinv hid h := sparing_push hns hinv hid h
  push_fault hinv hid h :=
    fine_of_push_error hinv.1 hid h id ⟨hinv, ⟨Same.refl _ _, .refl none _⟩, rfl⟩
  unpush := fun {s} hinv hsize => by
    obtain ⟨out, hunp, hout⟩ := (restoring_lawful ns rest).unpush hinv.1 hsize
    have hsto : out.store = s.store := by
      obtain ⟨id, frame, _, _, rfl⟩ := unpush_ok hunp
      rfl
    refine ⟨out, hunp, ⟨hout.inv, hsto ▸ hinv.2⟩, hout.size_eq, ?_⟩
    intro s' ⟨hfit, hkeepless⟩ ⟨hsame, huntouched⟩
    obtain ⟨back, hrep, hfit', hsame'⟩ := hout.back hfit hsame
    have hback := repush_store hrep
    refine ⟨back, hrep, ⟨hfit', hback ▸ hkeepless⟩, hsame',
      hsame'.unlooped_of_bare.ownCache?_eq hinv.1, ?_, fun {t} ht _ => ?_⟩
    · rw [hback, ← hsto]
      exact huntouched.size_le
    · rw [hback, ← hsto]
      exact huntouched.table_eq (hsto ▸ ht) nofun
  startIteration := fun {s i s'} hinv hloops h => by
    obtain ⟨hfit, hsame⟩ := (restoring_lawful ns rest).startIteration hinv.1 trivial h
    have hsto : s'.store = s.store := by
      obtain ⟨id, frame, _, _, _, rfl⟩ := startIteration_effect h
      rfl
    exact ⟨⟨hfit, hsto ▸ hinv.2⟩, hsame, untouched_of_store_eq hinv.1 hsame hsto _⟩
  startIteration_fault hinv h := (restoring_lawful ns rest).startIteration_fault hinv.1 h
  putValue := fun {s key value s'} hinv hloops h => by
    obtain ⟨hfit, hsame⟩ := (restoring_lawful ns rest).putValue hinv.1 trivial h
    obtain ⟨frame, hfr, hsto⟩ := putValue_store h
    have hown : s.ownCache? = some frame.cache := by
      have hsome : s.ownCache?.isSome = true := hloops
      rw [ownCache?, hfr] at hsome ⊢
      simp only [Option.bind_some] at hsome ⊢
      split at hsome
      · cases hsome
      · rw [if_neg ‹_›]
    refine ⟨⟨hfit, ?_⟩, hsame, hsame.ownCache?_eq hinv.1, ?_, fun {t} _ hne => ?_⟩
    · rw [hsto]
      exact hinv.2
    · rw [hsto]
      exact Nat.le_of_eq (by simp [Store.write])
    · rw [hsto]
      refine s.store.table_write_of_ne (fun e => hne ?_) _ _
      rw [hown, e]
  putValue_fault hinv h := (restoring_lawful ns rest).putValue_fault hinv.1 h
  setIteration := fun {s s'} hinv hinv' hmay => by
    obtain ⟨hfit, hsame⟩ := (restoring_lawful ns rest).setIteration hinv.1 hinv'.1 hmay.1
    have hsto := setIteration_store s' s.iteration?
    refine ⟨⟨hfit, hsto ▸ hinv'.2⟩, hsame, hsame.unlooped_of_uncounted.ownCache?_eq hinv.1, ?_,
      fun ht hne => ?_⟩
    · rw [hsto]
      exact hmay.2.size_le
    · rw [hsto]
      exact hmay.2.table_eq ht hne

end Discipline

end KeepTree
