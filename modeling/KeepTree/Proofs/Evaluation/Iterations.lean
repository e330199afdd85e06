import KeepTree.Proofs.Evaluation.Guarding
import KeepTree.Proofs.Evaluation.Lockstep

/-!
# Iterations

A loop binds its item in each iteration, and loops inside its body run in iterations of their own, in
which all items around are bound again. So whatever a body evaluates leaves the items of earlier
iterations alone; other frames do not reach them (`Guarding`):

* `body_passes` -- **evaluating a body leaves the items of earlier iterations**.
-/

namespace KeepTree

open Discipline Session Eval DottedName List

variable {ns : Namespace} {rest : List Stack} {c : TableId} {item name : String} {r : Recur}
  {s : Session} {value : Value}

/-! ## 1. Bound items -/

theorem Store.at?_set (s : Store) (l : Location) (entry : Entry) (other : Location) :
    (s.set l entry).at? other =
      if other = l ∧ l.table < s.tables.size then some entry else s.at? other := by
  by_cases hslot : other = l
  · subst hslot
    by_cases hlt : other.table < s.tables.size
    · rw [if_pos ⟨rfl, hlt⟩]
      exact get?_write_self s hlt _ entry
    · rw [if_neg fun h => hlt h.2]
      simp [set, at?, get?, table, write, hlt]
  · rw [if_neg fun h => hslot h.1]
    refine get?_write_of_ne s ?_ entry
    by_cases htab : other.table = l.table
    · exact .inr fun hkey => hslot (by cases other; cases l; simp_all)
    · exact .inl htab

/-- Items are bound in the slots that a frame has for their names, one after another. -/
def Frame.bindItems (frame : Frame) (items : List (String × Value)) (s : Store) : Store :=
  items.foldl (fun s item => s.set (frame.ownSlot item.1) (.value item.2)) s

section

variable {frame : Frame} {s : Store}

theorem Frame.bindItems_size (items : List (String × Value)) (s : Store) :
    (frame.bindItems items s).tables.size = s.tables.size := by
  induction items generalizing s with
  | nil => rfl
  | cons item rest ih => exact (ih _).trans (by simp [Store.set, Store.write])

/-- The first item of a name is the one that is bound last. -/
theorem Frame.bindItems_at (hlt : frame.cache < s.tables.size) (l : Location) :
    ∀ items : List (String × Value), (frame.bindItems items.reverse s).at? l =
      ((items.find? fun item => frame.ownSlot item.1 = l).map fun item => .value item.2).or (s.at? l)
  | [] => rfl
  | item :: rest => by
    have ih := bindItems_at hlt l rest
    have hsize : (frame.bindItems rest.reverse s).tables.size = s.tables.size := bindItems_size _ s
    simp only [bindItems, foldl_reverse, foldr_cons] at ih hsize ⊢
    rw [Store.at?_set, ih, hsize, find?_cons]
    by_cases hslot : frame.ownSlot item.1 = l
    · rw [if_pos ⟨hslot.symm, hlt⟩]
      simp [hslot]
    · rw [if_neg fun h => hslot h.1.symm]
      simp [hslot]

end

theorem Engine.Guards.bindItems (frame : Frame) : ∀ (items : List (String × Value)) {e : Engine},
    e.Guards ns c item → (e.withStore (frame.bindItems items e.store)).Guards ns c item
  | [], _, h => h
  | _ :: rest, _, h => bindItems frame rest (h.write _ _ (by simp))

/-! ## 2. What a body evaluates directly -/

namespace Recur

/-- The beginning of the next iteration of a loop: its item and those of the loops around are
    bound. -/
def beginIteration (item : String) (value : Value) : Eval Unit := do
  move fun s => s.startIteration.map (·.2)
  bindAll (← get).evaluator.bindings.reverse
  move (·.putValue item value)
  modify (remember fun e => { e with bindings := (item, value) :: e.bindings })

/-- The end of an iteration: its item is no longer bound. -/
def endIteration : Run → Run := remember fun e => { e with bindings := e.bindings.tail }

theorem iterate_eq (item : String) (value : Value) (body : Eval Value) :
    iterate item value body = beginIteration item value >>= fun _ => andThen body endIteration := by
  simp only [iterate, beginIteration, binding, bind_assoc]
  rfl

theorem beginIteration_keeps {P : Session → Session → Prop} (hP : Tracks P) (item : String)
    (value : Value) : Eval.Keeps P (beginIteration item value) :=
  (keeps_iff hP).mpr fun s => Eval.failsBy_iff.mp <|
    .bind (.startIteration (hP.fallible s)) fun _ => .bind .get fun run =>
      .bind (bindAll_failsBy (hP.fallible s) run.evaluator.bindings.reverse) fun _ =>
        .bind (.putValue (hP.fallible s) item value) fun _ => .modify fun _ h => h

theorem putValue_apply (id : FrameId) (frame : Frame) {run : Run}
    (htop : run.session.top = .ok (id, frame)) (item : String) (value : Value) :
    move (·.putValue item value) run = some (.ok (), run.on (run.session.withEngine
      (run.session.engine.withStore (run.session.store.set (frame.ownSlot item) (.value value))))) := by
  rw [move_apply, Session.putValue, htop]
  rfl

theorem bindAll_apply {id : FrameId} {frame : Frame} :
    ∀ (bindings : List (String × Value)) {run : Run}, run.session.top = .ok (id, frame) →
      bindAll bindings run = some (.ok (), run.on (run.session.withEngine
        (run.session.engine.withStore (frame.bindItems bindings run.session.store))))
  | [], _, _ => rfl
  | (name, value) :: rest, run, htop => by
    unfold bindAll
    rw [bind_apply, putValue_apply id frame htop]
    exact bindAll_apply rest htop

theorem beginIteration_apply {run : Run} {s : Session} {index : Nat} {id : FrameId} {frame : Frame}
    (hs : run.session.startIteration = .ok (index, s)) (htop : s.top = .ok (id, frame))
    (item : String) (value : Value) : beginIteration item value run = some (.ok (),
      remember (fun e => { e with bindings := (item, value) :: e.bindings }) (run.on (s.withEngine
        (s.engine.withStore
          (frame.bindItems ((item, value) :: run.evaluator.bindings).reverse s.store))))) := by
  have htop' : (run.on s).session.top = .ok (id, frame) := htop
  have hlast : frame.bindItems (run.evaluator.bindings.reverse ++ [(item, value)]) s.store =
      (frame.bindItems run.evaluator.bindings.reverse s.store).set (frame.ownSlot item)
        (.value value) := foldl_append
  unfold beginIteration
  rw [bind_apply, move_apply, hs]
  simp only [Except.map]
  rw [get_bind_apply, bind_apply, bindAll_apply _ htop', reverse_cons, hlast]
  simp only
  rw [bind_apply, putValue_apply id frame]
  · rfl
  · exact htop

theorem beginIteration_leads {D : Discipline} {run begun : Run} (hD : D.Lawful)
    (hinv : D.inv run.session)
    (hloops : D.loops run.session) (h : beginIteration item value run = some (.ok (), begun)) :
    D.Leads .loop run (endIteration begun) := by
  -- an iteration that does nothing ends as it began
  have hidle : iterate item value (pure .null) run = some (.ok .null, endIteration begun) := by
    rw [iterate_eq, Eval.bind_eq_ok]
    exact ⟨(), begun, h, rfl⟩
  exact (iterate_yields hD hloops (fun hinv _ => ((Leads.refl hD hinv).value _).yields)
    (.refl hD hinv) item value _ _ hidle).leads

/-- An iteration of a loop begins, after the range and the iterations before it. -/
def Iterates (r : Recur) (item : String) (range inner : Body) (run : Run) (value : Value)
    (begun : Run) : Prop :=
  ∃ whole ranged earlier later results between, r.body range run = some (.ok whole, ranged) ∧
    elements item whole ranged = some (.ok (earlier ++ value :: later), ranged) ∧
    iterateAll item (r.body inner) earlier ranged = some (.ok results, between) ∧
    beginIteration item value between = some (.ok (), begun)

/-- Evaluating one body comes to another, in the same frame and with all before it evaluated;
    on the way it goes into loops whose items are in `P`. -/
inductive Visits (r : Recur) (P : String → Prop) : Body → Run → Body → Run → Prop
  | here (b : Body) (run : Run) : Visits r P b run b run
  | concat {before after : List Body} {part b : Body} {values : List Value} {run mid run' : Run} :
      r.bodies before run = some (.ok values, mid) → Visits r P part mid b run' →
      Visits r P (.concat (before ++ part :: after)) run b run'
  | list {before after : List Body} {part b : Body} {values : List Value} {run mid run' : Run} :
      r.bodies before run = some (.ok values, mid) → Visits r P part mid b run' →
      Visits r P (.list (before ++ part :: after)) run b run'
  | range {item : String} {range inner b : Body} {run run' : Run} :
      Visits r P range run b run' → Visits r P (.each item range inner) run b run'
  | iteration {item : String} {range inner b : Body} {value : Value} {run begun run' : Run} :
      P item → r.Iterates item range inner run value begun → Visits r P inner begun b run' →
      Visits r P (.each item range inner) run b run'

theorem Visits.keep {P : String → Prop} {Q : Run → Prop} {b b' : Body} {run run' : Run}
    (h : r.Visits P b run b' run')
    (hbodies : ∀ {bs values run run'}, Q run → r.bodies bs run = some (.ok values, run') → Q run')
    (hbegin : ∀ {item range inner value run begun}, P item → Q run →
      r.Iterates item range inner run value begun → Q begun) (hrun : Q run) : Q run' := by
  induction h with
  | here b run => exact hrun
  | concat hbefore _ ih => exact ih (hbodies hrun hbefore)
  | list hbefore _ ih => exact ih (hbodies hrun hbefore)
  | range _ ih => exact ih hrun
  | iteration hitem hiters _ ih => exact ih (hbegin hitem hrun hiters)

end Recur

/-! ## 3. Bodies leave earlier items -/

/-- The item that a name is bound to, by the innermost loop that binds it. -/
def boundItem (item : String) (bindings : List (String × Value)) : Option Value :=
  (bindings.find? (·.1 == item)).map (·.2)

/-- A session at work in the one frame whose cache is guarded. -/
structure Inside (ns : Namespace) (rest : List Stack) (c : TableId) (item : String) (frame : Frame)
    (s : Session) : Prop where
  inv : (guarding ns rest c item).inv s
  top : s.topFrame? = some frame
  cache : frame.cache = c

/-- A step in this frame that leaves the items of the iterations before it. -/
structure Passes (ns : Namespace) (rest : List Stack) (c : TableId) (item : String)
    (frame frame' : Frame) (run run' : Run) : Prop where
  inside : Inside ns rest c item frame' run'.session
  same : run.session.Same Frame.unlooped run'.session
  evaluator_eq : run'.evaluator = run.evaluator
  next_le : frame.nextIteration ≤ frame'.nextIteration
  item_eq : ∀ n < frame.nextIteration,
    run'.session.store.get? c (inLoop item (some n)) =
      run.session.store.get? c (inLoop item (some n))

section Steps

variable {frame frame' frame'' : Frame} {run run' run'' : Run}

theorem Passes.refl (h : Inside ns rest c item frame run.session) :
    Passes ns rest c item frame frame run run :=
  ⟨h, .refl _ _, rfl, Nat.le_refl _, fun _ _ => rfl⟩

theorem Passes.trans (h : Passes ns rest c item frame frame' run run')
    (h' : Passes ns rest c item frame' frame'' run' run'') :
    Passes ns rest c item frame frame'' run run'' where
  inside := h'.inside
  same := h.same.trans h'.same
  evaluator_eq := h'.evaluator_eq.trans h.evaluator_eq
  next_le := Nat.le_trans h.next_le h'.next_le
  item_eq n hn := (h'.item_eq n (Nat.lt_of_lt_of_le hn h.next_le)).trans (h.item_eq n hn)

theorem passes_of_leads (h : Inside ns rest c item frame run.session)
    (hleads : (guarding ns rest c item).Leads .call run run') :
    ∃ frame', Passes ns rest c item frame frame' run run' ∧ frame'.iteration = frame.iteration := by
  obtain ⟨hinv, ⟨hsame, hspares⟩, heval⟩ := hleads
  obtain ⟨frame', htop, hbare⟩ := hsame.topFrame? h.top
  have hca : frame'.cache = frame.cache := (congrArg Frame.cache hbare :)
  have hnext : frame'.nextIteration = frame.nextIteration := (congrArg Frame.nextIteration hbare :)
  exact ⟨frame', ⟨⟨hinv, htop, hca.trans h.cache⟩, hsame.unlooped_of_bare, heval,
    Nat.le_of_eq hnext.symm, fun n _ => hspares.item_eq n⟩, (congrArg Frame.iteration hbare :)⟩

theorem startIteration_passes (hitem : isDotted item = false)
    (h : Inside ns rest c item frame run.session) {index : Nat}
    (hs : run.session.startIteration = .ok (index, s)) :
    Passes ns rest c item frame frame.startIteration.2 run (run.on s) := by
  have hU := Upkeep.guarding_kept ns c hitem
  obtain ⟨_, hsame⟩ := (restoring_lawful ns rest).startIteration h.inv.1 trivial hs
  obtain ⟨hinv, _, hspares⟩ := guarding_of_upholds h.inv
    (startIteration_upholds hU.toPushable hs) hsame hsame
  obtain ⟨id, found, htop, hf, _, rfl⟩ := startIteration_effect hs
  cases (topFrame?_eq htop hf).symm.trans h.top
  exact ⟨⟨hinv, set_topFrame? htop hf _, h.cache⟩, hsame, rfl, Nat.le_succ _,
    fun n _ => hspares.item_eq n⟩

theorem beginIteration_inside (hitem : isDotted item = false)
    (h : Inside ns rest c item frame run.session) {begun : Run}
    (hrun : Recur.beginIteration name value run = some (.ok (), begun)) : ∃ frame',
    Inside ns rest c item frame' begun.session ∧ run.session.Same Frame.unlooped begun.session ∧
    begun.evaluator = { run.evaluator with bindings := (name, value) :: run.evaluator.bindings } ∧
      frame'.iteration = some frame.nextIteration ∧
      frame'.nextIteration = frame.nextIteration + 1 ∧
      (∀ n < frame.nextIteration,
        begun.session.store.get? c (inLoop item (some n)) =
          run.session.store.get? c (inLoop item (some n))) ∧
      ∀ v, boundItem item begun.evaluator.bindings = some v →
        begun.session.store.get? c (inLoop item (some frame.nextIteration)) = some (.value v) := by
  obtain ⟨_, hs, _⟩ := move_bind_eq_ok.mp hrun
  obtain ⟨made, hstarted, rfl⟩ := map_eq_ok.mp hs
  have hpasses := startIteration_passes hitem h hstarted
  obtain ⟨id, htop, hf⟩ := Option.bind_eq_some_iff.mp hpasses.inside.top
  have hbegun := Recur.beginIteration_apply hstarted (top_eq_ok.mpr ⟨htop, hf⟩) name value
  have hleads := Recur.beginIteration_leads (restoring_lawful ns rest) h.inv.1 trivial hrun
  cases hrun.symm.trans hbegun
  obtain ⟨_, hheld, hroot⟩ := hpasses.inside.inv
  have hlt : frame.startIteration.2.cache < made.2.store.tables.size :=
    hpasses.inside.cache ▸ hheld.engine.isPrivate.lt
  have hslot (n : Nat) := Frame.bindItems_at hlt ⟨c, inLoop item (some n)⟩
    ((name, value) :: run.evaluator.bindings)
  have hown : ∀ n other, frame.startIteration.2.ownSlot other = ⟨c, inLoop item (some n)⟩ →
      other = item ∧ frame.nextIteration = n := fun _ _ heq => inLoop_inj (Location.mk.inj heq).2
  refine ⟨frame.startIteration.2, ⟨⟨hleads.inv, ⟨hheld.engine.bindItems _ _, fun id f hf => ?_⟩,
    hroot.size_pos, hroot.root⟩, hpasses.inside.top, h.cache⟩, hleads.may, rfl, rfl, rfl,
    fun n hn => ?_, fun v hv => ?_⟩
  · have hold := hheld.frames id f hf
    exact ⟨hold.cache, hold.keeps, hold.container⟩
  · refine (hslot n).trans ?_
    rw [find?_eq_none.mpr fun other _ heq =>
      Nat.ne_of_gt hn (hown n other.1 (of_decide_eq_true heq)).2]
    exact hpasses.item_eq n hn
  · have hname : (fun other : String × Value => decide (frame.startIteration.2.ownSlot other.1 =
        ⟨c, inLoop item (some frame.nextIteration)⟩)) = (·.1 == item) := by
      funext other
      rw [Bool.eq_iff_iff, decide_eq_true_iff, beq_iff_eq]
      refine ⟨fun heq => (hown _ _ heq).1, fun heq => ?_⟩
      rw [heq, Frame.ownSlot, ← h.cache]
      rfl
    refine (hslot _).trans ?_
    obtain ⟨found, hfd, rfl⟩ := Option.map_eq_some_iff.mp hv
    rw [hname, show ((name, value) :: run.evaluator.bindings).find? (·.1 == item) = some found
      from hfd]
    rfl

section

variable (hitem : isDotted item = false) {body : Eval Value}
  (hbody : ∀ {frame run run' v}, Inside ns rest c item frame run.session →
    body run = some (.ok v, run') → ∃ frame', Passes ns rest c item frame frame' run run')
include hitem hbody

theorem iterate_passes (h : Inside ns rest c item frame run.session) {v : Value}
    (hrun : Recur.iterate name value body run = some (.ok v, run')) :
    ∃ frame', Passes ns rest c item frame frame' run run' := by
  rw [Recur.iterate_eq] at hrun
  obtain ⟨_, begun, hbegin, hrun⟩ := Eval.bind_eq_ok.mp hrun
  obtain ⟨mid, hmid, rfl⟩ := andThen_eq_ok.mp hrun
  obtain ⟨first, hinside, hsame, heval, _, hnext, hitems, _⟩ := beginIteration_inside hitem h hbegin
  obtain ⟨last, hpasses⟩ := hbody hinside hmid
  refine ⟨last, hpasses.inside, hsame.trans hpasses.same, ?_, ?_, fun n hn => ?_⟩
  · show { mid.evaluator with bindings := mid.evaluator.bindings.tail } = _
    rw [hpasses.evaluator_eq, heval]
    rfl
  · have hle := hpasses.next_le
    omega
  · exact (hpasses.item_eq n (by omega)).trans (hitems n hn)

theorem iterateAll_passes {name : String} : ∀ (values : List Value) {frame : Frame}
    {run run' : Run} {results : List Value}, Inside ns rest c item frame run.session →
      Recur.iterateAll name body values run = some (.ok results, run') →
      ∃ frame', Passes ns rest c item frame frame' run run'
  | [], frame, run, run', results, h, hrun => by
    obtain ⟨_, rfl⟩ := pure_eq_ok.mp hrun
    exact ⟨frame, .refl h⟩
  | value :: others, frame, run, run', results, h, hrun => by
    obtain ⟨result, mid, hfst, hrun⟩ := Eval.bind_eq_ok.mp hrun
    obtain ⟨more, last, hmore, hrun⟩ := Eval.bind_eq_ok.mp hrun
    obtain ⟨_, rfl⟩ := pure_eq_ok.mp hrun
    obtain ⟨frame', hpasses⟩ := iterate_passes hitem hbody h hfst
    obtain ⟨frame'', hpasses'⟩ := iterateAll_passes others hpasses.inside hmore
    exact ⟨frame'', hpasses.trans hpasses'⟩

end

theorem elements_eq_ok {whole : Value} {items : List Value}
    (h : Recur.elements name whole run = some (.ok items, run')) : run' = run := by
  unfold Recur.elements at h
  split at h
  · exact (pure_eq_ok.mp h).2.symm
  · exact (pure_eq_ok.mp h).2.symm
  · cases h

theorem setIteration_passes (hitem : isDotted item = false)
    (h : Inside ns rest c item frame run.session) (iteration : Option Nat) :
    Passes ns rest c item frame { frame with iteration } run
      (run.on (run.session.setIteration iteration)) := by
  have hU := Upkeep.guarding_kept ns c hitem
  have hsame := setIteration_same run.session iteration
  obtain ⟨hinv, _, hspares⟩ := guarding_of_upholds h.inv
    (setIteration_upholds hU.toPushable run.session iteration) hsame hsame
  exact ⟨⟨hinv, setIteration_topFrame? h.top iteration, h.cache⟩, hsame, rfl, Nat.le_refl _,
    fun n _ => hspares.item_eq n⟩

end Steps

namespace Recur

open Discipline

mutual
/-- **Evaluating a body leaves the items of earlier iterations.** -/
theorem body_passes (hitem : isDotted item = false)
    (hr : r.Abides (guarding ns rest c item)) : ∀ (b : Body) {frame : Frame} {run run' : Run}
      {v : Value}, Inside ns rest c item frame run.session → r.body b run = some (.ok v, run') →
      ∃ frame', Passes ns rest c item frame frame' run run' ∧ frame'.iteration = frame.iteration
  | .empty, frame, run, run', v, h, hrun => by
    obtain ⟨_, rfl⟩ := pure_eq_ok.mp hrun
    exact ⟨frame, .refl h, rfl⟩
  | .literal _, frame, run, run', v, h, hrun => by
    obtain ⟨_, rfl⟩ := pure_eq_ok.mp hrun
    exact ⟨frame, .refl h, rfl⟩
  | .ref call, frame, run, run', v, h, hrun =>
    passes_of_leads h (hr.call call h.inv _ _ hrun).leads
  | .concat parts, frame, run, run', v, h, hrun => by
    obtain ⟨values, mid, hparts, hrun⟩ := Eval.bind_eq_ok.mp hrun
    obtain ⟨_, rfl⟩ := pure_eq_ok.mp hrun
    exact bodies_passes hitem hr parts h hparts
  | .list items, frame, run, run', v, h, hrun => by
    obtain ⟨values, mid, hitems, hrun⟩ := Eval.bind_eq_ok.mp hrun
    obtain ⟨_, rfl⟩ := pure_eq_ok.mp hrun
    exact bodies_passes hitem hr items h hitems
  | .super, frame, run, run', v, h, hrun =>
    passes_of_leads h (superValue_yields (guarding_lawful ns rest c hitem) hr h.inv _ _ hrun).leads
  | .redirect _ _ _, frame, run, run', v, h, hrun => by cases hrun
  | .each name range inner, frame, run, run', v, h, hrun => by
    obtain ⟨whole, ranged, hrange, hrest⟩ := Eval.bind_eq_ok.mp hrun
    obtain ⟨items, mid, helements, hloops⟩ := Eval.bind_eq_ok.mp hrest
    obtain rfl := elements_eq_ok helements
    rw [session_bind_apply] at hloops
    obtain ⟨looped, hloop, rfl⟩ := andThen_eq_ok.mp hloops
    obtain ⟨results, last, hall, hloop⟩ := Eval.bind_eq_ok.mp hloop
    obtain ⟨_, rfl⟩ := pure_eq_ok.mp hloop
    obtain ⟨frame', hranged, hiter⟩ := body_passes hitem hr range h hrange
    obtain ⟨frame'', hlooped⟩ := iterateAll_passes hitem
      (fun hinside hrun => (body_passes hitem hr inner hinside hrun).imp fun _ => And.left) items
      hranged.inside hall
    -- the iteration that the loop began in comes back
    have haround : mid.session.iteration? = frame.iteration := by
      rw [iteration?, hranged.inside.top]
      exact hiter
    rw [haround]
    exact ⟨_, (hranged.trans hlooped).trans (setIteration_passes hitem hlooped.inside _), rfl⟩

theorem bodies_passes (hitem : isDotted item = false) (hr : r.Abides (guarding ns rest c item)) :
    ∀ (bs : List Body) {frame : Frame} {run run' : Run} {values : List Value},
    Inside ns rest c item frame run.session → r.bodies bs run = some (.ok values, run') → ∃ frame',
    Passes ns rest c item frame frame' run run' ∧ frame'.iteration = frame.iteration
  | [], frame, run, run', values, h, hrun => by
    obtain ⟨_, rfl⟩ := pure_eq_ok.mp hrun
    exact ⟨frame, .refl h, rfl⟩
  | b :: others, frame, run, run', values, h, hrun => by
    obtain ⟨value, mid, hfst, hrun⟩ := Eval.bind_eq_ok.mp hrun
    obtain ⟨more, last, hmore, hrun⟩ := Eval.bind_eq_ok.mp hrun
    obtain ⟨_, rfl⟩ := pure_eq_ok.mp hrun
    obtain ⟨frame', hpasses, hiter⟩ := body_passes hitem hr b h hfst
    obtain ⟨frame'', hpasses', hiter'⟩ := bodies_passes hitem hr others hpasses.inside hmore
    exact ⟨frame'', hpasses.trans hpasses', hiter'.trans hiter⟩
end

end Recur

end KeepTree
