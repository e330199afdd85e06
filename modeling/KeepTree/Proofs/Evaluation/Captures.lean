import KeepTree.Proofs.Evaluation.Differing
import KeepTree.Proofs.Recycling.Evaluation
import KeepTree.Proofs.Termination.Evaluation

/-!
# Items that are not captured

Every loop binds the items of the loops around again, in whatever frame it runs in, so that a callee
with a loop may come across an item of its caller under a name of its own. Whether it can do so is told
from what is written: a body names an item's name safely where a loop of its own binds the name, and
outside of all loops where its definition has a child of the name. If the name is free nowhere, an
evaluation goes the same way with the items of its caller and without them:

* `Body.free`, `Namespace.free` -- the calls that are not safe;
* `Hygiene`, `Hygiene.tells_within` -- **an evaluation without items ends as the one with them does**, if no
  free name is an item's;
* `Workspace.items_uncaptured` -- so it is for every stack that can be reached.
-/

namespace KeepTree

open Eval Likeness List DottedName Discipline Recur Session

variable {α : Type} {ns : Namespace} {names children items : List String} {id : DefId}
  {d : Definition} {call : Call} {item name : String} {value : Value}

/-! ## 1. Free names -/

/-- The items that are known in a loop over one more of them. -/
def boundWith (names items : List String) (item : String) : List String :=
  if names.contains item then item :: items else items

mutual
/-- The calls of a body, but for those of children and items that are known where they stand. In a
    loop, no children are. -/
def Body.free (names children items : List String) : Body → List Call
  | .ref call =>
    if call.arguments.isEmpty && (children ++ items).contains call.name then [] else [call]
  | .concat parts => Body.allFree names children items parts
  | .list parts => Body.allFree names children items parts
  | .each item range inner =>
    range.free names children items ++ inner.free names [] (boundWith names items item)
  | _ => []

def Body.allFree (names children items : List String) : List Body → List Call
  | [] => []
  | body :: rest => body.free names children items ++ Body.allFree names children items rest
end

namespace Namespace

/-- Those of the names that a definition has children of. One that stands for another does not tell. -/
def declared (ns : Namespace) (names : List String) (id : DefId) : List String :=
  if (ns.get? id).any (·.kind.isIndirect) then []
  else names.filter fun name =>
    !isLoopKey name && (ns.hasChild id (head name) true).toOption == some true

/-- The calls of a namespace that are not known where they stand. -/
def free (ns : Namespace) (names : List String) : List Call :=
  ns.definitions.toList.zipIdx.flatMap fun (d, id) =>
    d.kind.calls ++ d.body.free names (ns.declared names id) []

theorem mem_free (hd : ns.get? id = some d)
    (h : call ∈ d.kind.calls ++ d.body.free names (ns.declared names id) []) :
    call ∈ ns.free names := by
  refine mem_flatMap.mpr ⟨(d, id), mk_mem_zipIdx_iff_getElem?.mpr ?_, h⟩
  rw [Array.getElem?_toList]
  exact hd

theorem of_mem_declared (h : name ∈ ns.declared names id) : name ∈ names ∧
    (∀ d, ns.get? id = some d → d.kind.isIndirect = false) ∧ isLoopKey name = false ∧
    ns.hasChild id (head name) true = .ok true := by
  unfold declared at h
  split at h
  · cases h
  · rename_i hdirect
    obtain ⟨hname, hch⟩ := mem_filter.mp h
    obtain ⟨hmark, hch⟩ := Bool.and_eq_true_iff.mp hch
    refine ⟨hname, fun d hd => ?_, by simpa using hmark, ?_⟩
    · rw [hd] at hdirect
      simpa using hdirect
    · cases hfd : ns.hasChild id (head name) true with
      | error gap => simp [hfd, Except.toOption] at hch
      | ok found => simpa [hfd, Except.toOption] using hch

end Namespace

theorem Namespace.isWithin_self (hd : ns.get? id = some d) : ns.isWithin id id = true := by
  obtain ⟨around, howners⟩ := owners_cons hd
  rw [isWithin, howners]
  simp

/-! ## 2. Runs -/

/-- The items of the loops around, and a vocabulary in which their names do not occur. It has all that
    is written in a namespace but for what is known where it stands. -/
structure Hygiene where
  ns : Namespace
  rest : List Stack
  V : Vocabulary
  items : List (String × Value)
  closed : V.Closed
  covers : V.Covers ns
  body : ∀ {id d call}, ns.get? id = some d →
    call ∈ d.body.free (items.map (·.1)) (ns.declared (items.map (·.1)) id) [] → V.Has call
  apart : ∀ name ∈ V.names, name ∉ items.map (·.1) ∧ isLoopKey name = false

/-- The names of the items around. -/
abbrev Hygiene.itemNames (H : Hygiene) : List String := H.items.map (·.1)

/-- What the loops that were begun since have bound, and slots in which items of theirs are. -/
structure Since where
  inner : List (String × Value)
  safe : List Location

/-- The slots are of items that these loops have bound. -/
def Since.Bound (w : Since) (names : List String) : Prop :=
  ∀ l ∈ w.safe, l.IsItem names ∧ ∃ item ∈ w.inner, ∃ n, l.key = inLoop item.1 (some n)

/-- Items that are there stay there. -/
def Engine.Shelters (names : List String) (e e' : Engine) : Prop :=
  ∀ l : Location, l.IsItem names → ∀ v, e.store.at? l = some (.value v) →
    e'.store.at? l = some (.value v)

namespace Hygiene

variable {H : Hygiene} {w : Since} {x y run run' : Run} {s t : Session} {a b : Eval α}

theorem not_isItem (hname : name ∈ H.V.names) (iteration : Option Nat) (t : TableId) :
    ¬ (⟨t, inLoop name iteration⟩ : Location).IsItem H.itemNames :=
  Location.not_isItem (H.apart name hname).2 iteration (.inr (H.apart name hname).1) t

/-- What is kept is kept under names of the vocabulary, and so apart from items. -/
def upkeep (H : Hygiene) : Upkeep := { Upkeep.speaking H.ns H.V with growth := Engine.Shelters H.itemNames }

theorem shelters_of_set {e : Engine} {l : Location} {entry : Entry} (hl : ¬ l.IsItem H.itemNames) :
    e.Shelters H.itemNames (e.withStore (e.store.set l entry)) := by
  intro other hoth v hval
  have hne : ¬ (other = l ∧ l.table < e.store.tables.size) := fun h => hl (h.1 ▸ hoth)
  exact (Store.at?_set e.store l entry other).trans ((if_neg hne).trans hval)

/-- **What is done to tables leaves the items alone.** -/
theorem upkeep_kept (H : Hygiene) : H.upkeep.Kept H.ns := by
  have hopen := Upkeep.speaking_open H.covers
  exact {
    direct := hopen.direct
    refl := fun _ _ _ _ h => h
    trans := fun h h' l hl v hval => h' l hl v (h l hl v hval)
    grow := fun he hg => ⟨(hopen.grow he hg).1, fun l _ v hval => by
      have hlt : l.table < _ := Store.lt_of_get? hval
      exact (hg.larger.get?_eq hlt).trans hval⟩
    fresh_table := fun _ _ _ _ _ _ => ⟨fun _ => trivial, trivial⟩
    fresh_keeps := fun _ _ _ _ => ⟨trivial, fun _ _ _ _ => trivial⟩
    declared := hopen.declared
    point := fun k name he hfr hown hkeep hp hname hk =>
      ⟨(hopen.point k name he ⟨trivial, trivial, fun _ => trivial⟩ hown hkeep hp hname
        (hk.imp_right fun h => ⟨trivial, h.2⟩)).1, fun _ _ _ hval => hval⟩
    kept := fun iter holder he hk hname hp => ⟨(hopen.kept iter holder he trivial trivial hp).1,
      shelters_of_set (not_isItem (he.2 hp).2 iter _)⟩
    durable := fun iter he hd hglob hhome => ⟨(hopen.durable iter he hd hglob hhome).1,
      shelters_of_set (not_isItem (H.covers.durable (he.1.ns_eq ▸ hd) hglob) iter _)⟩ }

/-- Runs with the items around, and without them. The loops that were begun since have bound the same
    in both. -/
structure Told (H : Hygiene) (w : Since) (x y : Run) : Prop where
  session : x.session.Differs H.itemNames w.safe y.session
  fit : x.session.Fit H.ns H.rest
  held : x.session.Upheld (.speaking H.ns H.V)
  lodged : x.session.Upheld (.lodging H.ns)
  active_eq : y.evaluator.active = x.evaluator.active
  bindings_eq : x.evaluator.bindings = w.inner ++ H.items
  bindings_eq' : y.evaluator.bindings = w.inner
  bound : w.Bound H.itemNames
  item : ∀ l ∈ w.safe, ∃ v, x.session.store.at? l = some (.value v)

/-- Where a body may come to: on a stack that speaks the vocabulary, in whose top frame the children
    and items are known. -/
structure Stands (H : Hygiene) (children items : List String) (w : Since) (s : Session) : Prop where
  arguments : ∀ f ∈ s.levels, ∀ a ∈ f.arguments, H.V.Allows a
  bound : ∀ name ∈ items, name ∈ H.itemNames ∧ name ∈ w.inner.map (·.1)
  child : ∀ frame, s.topFrame? = some frame → ∀ name ∈ children, frame.iteration = none ∧
    isLoopKey name = false ∧ H.ns.hasChild frame.definition (head name) true = .ok true
  item : ∀ frame, s.topFrame? = some frame → ∀ name ∈ items, frame.ownSlot name ∈ w.safe

/-- An evaluation with the items around, and one without them. -/
abbrev likeness (H : Hygiene) : Likeness where
  World := Since
  grows := Eq
  runs := H.Told
  faults _ := Eq
  lax := False
  spoils := True

/-- The same, of steps that begin and end where children and items are known. -/
abbrev standing (H : Hygiene) (children items : List String) : Likeness :=
  { H.likeness with runs := fun w x y => H.Told w x y ∧ H.Stands children items w x.session }

theorem upheld_upkeep (h : s.Upheld (.speaking H.ns H.V)) : s.Upheld H.upkeep :=
  ⟨h.engine, fun _ _ _ => ⟨trivial, trivial, fun _ => trivial⟩⟩

theorem Told.step (h : H.Told w x y) (hst : s.Differs H.itemNames w.safe t)
    (hkept : x.session.Upholds H.upkeep H.ns H.rest s)
    (hlodged : x.session.Upholds (.lodging H.ns) H.ns H.rest s) : H.Told w (x.on s) (y.on t) := by
  obtain ⟨hfit, hheld, hshelters⟩ := hkept h.fit (upheld_upkeep h.held)
  obtain ⟨_, hlodged, _⟩ := hlodged h.fit h.lodged
  exact { h with
    session := hst
    fit := hfit
    held := ⟨hheld.engine, fun _ _ _ => ⟨trivial, trivial, fun _ => trivial⟩⟩
    lodged := hlodged
    item := fun l hl => (h.item l hl).imp (hshelters l (h.bound l hl).1) }

theorem Told.move (h : H.Told w x y) (hst : s.Differs H.itemNames w.safe t)
    (hkept : ∀ {U : Upkeep}, U.Pushable H.ns → x.session.Upholds U H.ns H.rest s) :
    H.Told w (x.on s) (y.on t) :=
  h.step hst (hkept H.upkeep_kept.toPushable) (hkept (Upkeep.lodging_open H.ns).toPushable)

theorem Told.speaks (h : H.Told w x y) (hst : H.Stands children items w x.session) :
    x.session.Speaks H.V H.ns H.rest := ⟨h.fit, h.held, hst.arguments⟩

theorem Stands.of_arguments (h : ∀ f ∈ s.levels, ∀ a ∈ f.arguments, H.V.Allows a) :
    H.Stands [] [] w s :=
  ⟨h, forall_mem_nil _, fun _ _ => forall_mem_nil _, fun _ _ => forall_mem_nil _⟩

theorem Stands.withEngine (h : H.Stands children items w s) (engine : Engine) :
    H.Stands children items w (s.withEngine engine) :=
  ⟨h.arguments, h.bound, h.child, h.item⟩

theorem Stands.same (h : H.Stands children items w x.session) (hx : H.Told w x y)
    (hrun : H.Told w run run') (hsame : x.session.Same Frame.uncounted run.session) :
    H.Stands children items w run.session := by
  have hspeaks := (hx.speaks h).same hrun.fit hrun.held
    (hsame.coarsen Frame.unlooped_of_uncounted)
  have htop : ∀ frame, run.session.topFrame? = some frame → ∃ old,
      x.session.topFrame? = some old ∧ old.iteration = frame.iteration ∧
      old.definition = frame.definition ∧ old.cache = frame.cache := by
    intro frame hfr
    obtain ⟨id, htop, _⟩ := Option.bind_eq_some_iff.mp hfr
    obtain ⟨old, hold⟩ := hx.fit.top_live id (hsame.top_eq ▸ htop)
    have hold : x.session.topFrame? = some old := Session.topFrame?_eq (hsame.top_eq ▸ htop) hold
    obtain ⟨frame', hfr', hread⟩ := hsame.topFrame? hold
    obtain rfl : frame' = frame := Option.some.inj (hfr'.symm.trans hfr)
    exact ⟨old, hold, (congrArg Frame.iteration hread).symm, (congrArg Frame.definition hread).symm,
      (congrArg Frame.cache hread).symm⟩
  refine ⟨hspeaks.arguments, h.bound, fun frame hfr name hname => ?_, fun frame hfr name hname => ?_⟩
  · obtain ⟨old, hold, hiter, hdef, _⟩ := htop frame hfr
    rw [← hiter, ← hdef]
    exact h.child old hold name hname
  · obtain ⟨old, hold, hiter, _, hca⟩ := htop frame hfr
    rw [Frame.ownSlot, Frame.slotKey, ← hiter, ← hca]
    exact h.item old hold name hname

/-! ## 3. Steps -/

theorem ordered (H : Hygiene) : H.likeness.Ordered :=
  ⟨fun _ => rfl, Eq.trans, fun _ h => h, fun h => h ▸ rfl⟩

theorem viewed (H : Hygiene) (children items : List String) : (H.standing children items).Viewed where
  refl _ := rfl
  trans := Eq.trans
  mono _ h := h
  isDangling_eq h := h ▸ rfl
  thrown _ := rfl
  seems h := h.1.session.reads.seems

theorem told_move (H : Hygiene) {f : Session → Except Fault Session}
    (hf : ∀ {safe} {s t : Session}, s.Differs H.itemNames safe t →
      ExceptRel Eq (Session.Differs H.itemNames safe) (f s) (f t))
    (hkept : ∀ {s s' : Session}, f s = .ok s' → ∀ {U : Upkeep}, U.Pushable H.ns →
      s.Upholds U H.ns H.rest s') :
    H.likeness.Matches (· = ·) (move f) (move f) :=
  H.ordered.move fun h => ((hf h.session).imp_ok fun _ _ hs _ hst => h.move hst (hkept hs)).imp
    (congrArg EvalFault.stack) id

/-- **What moves on the stack leaves runs as they may be.** -/
theorem moved (H : Hygiene) : H.likeness.Moved :=
  { H.ordered with
    thrown := fun _ => rfl
    seems := fun h => h.session.reads.seems
    active_eq := fun h => h.active_eq
    active := fun f h => { h with active_eq := congrArg f h.active_eq }
    push := fun id args newCall => Ordered.lift fun {w x y} h => by
      obtain ⟨hres, hst⟩ := h.session.push id args newCall
      refine ⟨w, rfl, hres ▸ .refl _ fun _ _ => rfl, h.step hst (fun hs hheld => ?_)
        (push_upholds (Upkeep.lodging_open H.ns) _ id args newCall)⟩
      exact ⟨(push_effect x.session id args newCall).fit hs,
        push_upheld H.upkeep_kept.toPushable (fun _ => trivial) hs hheld
          (fun _ _ _ _ _ _ _ => trivial) id args newCall⟩
    pop := H.told_move Mirrors.pop fun hs _ hU => pop_upholds hU hs
    unpush := H.told_move Mirrors.unpush fun hs _ hU => unpush_upholds hU hs
    repush := H.told_move Mirrors.repush fun hs _ hU => repush_upholds hU hs
    count := fun {_ x _} h => h.move (h.session.count fun _ _ => rfl) fun hU =>
      computation_upholds hU x.session }

variable {Q : Since → α → α → Prop} {r r' : Recur} {l : Extent}

theorem ends_forget {p q : Option (Except EvalFault α × Run)}
    (h : (H.standing children items).Ends w Q p q) : H.likeness.Ends w Q p q := by
  cases h with
  | none => exact .none
  | givenUp hlax => exact hlax.elim
  | some hsub hres hruns => exact .some hsub hres hruns.1
  | dangling hsp hsub hflt hdang => exact .dangling hsp hsub hflt hdang

theorem ends_of_leads {children' items' : List String} (hends : H.likeness.Ends w Q (a run) (b run'))
    (hyields : (restoring H.ns H.rest).Yields l run (a run))
    (hst : ∀ {mid mid'}, H.Told w mid mid' → (restoring H.ns H.rest).Leads l run mid →
      H.Stands children' items' w mid.session) :
    (H.standing children' items').Ends w Q (a run) (b run') := by
  generalize a run = p at hends hyields
  generalize b run' = q at hends
  cases hends with
  | none => exact .none
  | givenUp hlax => exact hlax.elim
  | dangling hsp hsub hflt hdang => exact .dangling hsp hsub hflt hdang
  | some hsub hres hmid =>
    cases hsub
    rcases (hyields _ _ rfl).settled with ⟨hleads, _⟩ | ⟨fault, rfl, hdang, _⟩
    · exact .some rfl hres ⟨hmid, hst hmid hleads⟩
    · cases hres with
      | error hflt => exact .dangling trivial rfl hflt hdang

section

variable (h : H.Told w run run') (hst : H.Stands children items w run.session)
include h hst

/-- **A step that leaves the stack as it was leaves known what was known.** -/
theorem Told.restore (hends : H.likeness.Ends w Q (a run) (b run'))
    (hyields : (restoring H.ns H.rest).Yields .frame run (a run)) :
    (H.standing children items).Ends w Q (a run) (b run') :=
  ends_of_leads hends hyields fun hmid hleads => hst.same h hmid hleads.may

theorem Told.restore_loop (hends : H.likeness.Ends w Q (a run) (b run'))
    (hyields : (restoring H.ns H.rest).Yields .loop run (a run)) :
    (H.standing [] []).Ends w Q (a run) (b run') :=
  ends_of_leads hends hyields fun hmid hleads =>
    .of_arguments ((h.speaks hst).same hmid.fit hmid.held hleads.may).arguments

/-! ### Frames -/

/-- In a frame that is put on top, the children of its definition are known. -/
theorem Told.push_stands {args : List Argument} {newCall : Bool} (hargs : ∀ a ∈ args, H.V.Allows a)
    (hpush : run.session.push id args newCall = (.ok (), s)) :
    H.Stands (H.ns.declared H.itemNames id) [] w s ∧ ∀ frame, s.topFrame? = some frame →
      H.Stands (H.ns.declared H.itemNames frame.definition) [] w s := by
  obtain ⟨hspeaks, _⟩ := push_speaks H.closed H.covers (h.speaks hst) hargs hpush
  obtain ⟨bound, d, frame, engine, hprep, hframeFor, rfl⟩ := push_ok hpush
  obtain ⟨_, _, hcan, _⟩ := preparePush_ok hprep
  obtain ⟨_, hfresh, hdef, _⟩ := frameFor_effect run.session bound d run.session.topFrame? newCall
  rw [hframeFor] at hfresh hdef
  have htop := enter_topFrame? h.fit.sound frame engine
  have hnone : ∀ found, (run.session.enter frame engine).topFrame? = some found →
      found.iteration = none ∧ found.definition = bound.definition := by
    intro found hfd
    cases htop.symm.trans hfd
    exact ⟨hfresh.iteration_eq, hdef⟩
  have hstands : ∀ {children : List String}, (∀ name ∈ children, isLoopKey name = false ∧
      H.ns.hasChild bound.definition (head name) true = .ok true) →
      H.Stands children [] w (run.session.enter frame engine) := fun hch =>
    ⟨hspeaks.arguments, forall_mem_nil _, fun found hfd name hname =>
      ⟨(hnone found hfd).1, (hnone found hfd).2 ▸ hch name hname⟩, fun _ _ => forall_mem_nil _⟩
  refine ⟨hstands fun name hname => ?_, fun top htop => hstands fun name hname => ?_⟩
  · obtain ⟨_, hdirect, hmark, hch⟩ := Namespace.of_mem_declared hname
    rw [h.fit.ns_eq] at hcan
    cases hd : H.ns.get? id with
    | none => simp [Namespace.canonical, Namespace.resolveWithin, Namespace.find, hd] at hcan
    | some d =>
      -- a definition that stands for itself is the one that is pushed
      rw [Namespace.canonical_direct hd (hdirect d hd)] at hcan
      cases hcan
      exact ⟨hmark, hch⟩
  · obtain ⟨_, _, hmark, hch⟩ := Namespace.of_mem_declared hname
    exact ⟨hmark, (hnone top htop).2 ▸ hch⟩

end

end Hygiene

/-! ## 4. Iterations -/

/-- What is known in an iteration: the items of the loops that were begun since, and its own. -/
def Since.next (w : Since) (names : List String) (frame : Frame) (item : String × Value) : Since where
  inner := item :: w.inner
  safe := w.safe ++ ((item :: w.inner).filter (names.contains ·.1)).map (frame.ownSlot ·.1)

namespace Hygiene

variable {H : Hygiene} {w w' : Since} {run run' begun begun' : Run} {s t : Session} {r r' : Recur}

/-- Items are bound where an iteration has started. -/
theorem Told.bind (h : H.Told w run run') (hst : s.Differs H.itemNames w.safe t) {frame : Frame}
    {n : Nat} (hdir : ∀ l p, s.store.at? l ≠ some (.pointer p))
    (hlt : frame.cache < s.store.tables.size) (hiter : frame.iteration = some n) (item : String) (value : Value)
    (hitem : ∀ l ∈ w.safe, ∃ v, s.store.at? l = some (.value v)) :
    let w' := w.next H.itemNames frame (item, value)
    (s.withEngine (s.engine.withStore (frame.bindItems (w'.inner ++ H.items).reverse s.store))).Differs
        H.itemNames w'.safe
        (t.withEngine (t.engine.withStore (frame.bindItems w'.inner.reverse t.store))) ∧
      w'.Bound H.itemNames ∧ ∀ l ∈ w'.safe, ∃ v,
        (frame.bindItems (w'.inner ++ H.items).reverse s.store).at? l = some (.value v) := by
  intro w'
  have hnew : ∀ l ∈ w'.safe, l ∈ w.safe ∨
      ∃ item ∈ w'.inner, item.1 ∈ H.itemNames ∧ l = frame.ownSlot item.1 := by
    intro l hl
    refine (mem_append.mp hl).imp_right fun hl => ?_
    obtain ⟨item, hmem, rfl⟩ := mem_map.mp hl
    obtain ⟨hmem, hname⟩ := mem_filter.mp hmem
    exact ⟨item, hmem, contains_iff_mem.mp hname, rfl⟩
  have hkey : ∀ name, (frame.ownSlot name).key = inLoop name (some n) := fun name => by
    rw [Frame.ownSlot, Frame.slotKey, hiter]
  have hold : ∀ l ∈ w.safe, ∃ item ∈ w'.inner, ∃ n, l.key = inLoop item.1 (some n) := fun l hl =>
    (h.bound l hl).2.imp fun _ hmem => hmem.imp_left (mem_cons_of_mem _)
  refine ⟨hst.withStore (hst.store.bindItems hdir hlt hiter (fun item hmem => mem_map_of_mem hmem)
    fun l hl => ?_), fun l hl => ?_, fun l hl => ?_⟩
  · rcases hnew l hl with hl | ⟨item, hmem, _, rfl⟩
    · exact .inr ⟨hl, hold l hl⟩
    · exact .inl ⟨item, hmem, rfl⟩
  · rcases hnew l hl with hl | ⟨item, hmem, hname, rfl⟩
    · exact ⟨(h.bound l hl).1, hold l hl⟩
    · exact ⟨⟨item.1, hname, n, hkey item.1⟩, item, hmem, n, hkey item.1⟩
  · refine Frame.bindItems_value hlt ?_
    rcases hnew l hl with hl | ⟨item, hmem, _, rfl⟩
    · exact .inl (hitem l hl)
    · exact .inr ⟨item, mem_append_left _ hmem, rfl⟩

/-- **An iteration begins**, or fails to, with the items around and without them. -/
theorem Told.begin (h : H.Told w run run') (item : String) (value : Value) :
    (∃ fault, beginIteration item value run = some (.error fault, run) ∧
      beginIteration item value run' = some (.error fault, run')) ∨
    ∃ begun begun' frame, beginIteration item value run = some (.ok (), begun) ∧
      beginIteration item value run' = some (.ok (), begun') ∧
      begun.session.topFrame? = some frame ∧
      H.Told (w.next H.itemNames frame (item, value)) begun begun' := by
  match hs : run.session.startIteration, ht : run'.session.startIteration,
    h.session.startIteration with
  | .error fault, .error _, .error rfl =>
    refine .inl ⟨.stack fault, ?_, ?_⟩ <;> rw [beginIteration, bind_apply, move_apply]
    · rw [hs]
      rfl
    · rw [ht]
      rfl
  | .ok (index, s), .ok (index', t), .ok ⟨_, hst⟩ =>
    obtain ⟨id, old, htop, hf, _, hs'⟩ := startIteration_effect hs
    have hlive : s.frame? id = some old.startIteration.2 := hs' ▸ Pool.get?_set_self hf _
    have htop : s.stack.top = some id := hs' ▸ htop
    have htop' : s.top = .ok (id, old.startIteration.2) := top_eq_ok.mpr ⟨htop, hlive⟩
    have hbegun := beginIteration_apply hs htop' item value
    have hbegun' := beginIteration_apply ht ((Differs.top_eq hst).trans htop') item value
    have hstarted := h.move hst fun hU => startIteration_upholds hU hs
    obtain ⟨hdiffers, hbound, hitem⟩ := h.bind hst
      (fun _ _ => hstarted.lodged.engine.no_pointer) (hstarted.lodged.frames id _ hlive).cache
      rfl item value hstarted.item
    have hkeeps : ∀ {U : Upkeep}, U.Open H.ns → run.session.Upholds U H.ns H.rest _ := fun hU =>
      beginIteration_keeps (upholds_tracks hU) item value run _ _ hbegun
    obtain ⟨hfit, hheld, _⟩ := hkeeps (Upkeep.speaking_open H.covers) h.fit h.held
    obtain ⟨_, hlodged, _⟩ := hkeeps (Upkeep.lodging_open H.ns) h.fit h.lodged
    rw [h.bindings_eq] at hbegun hfit hheld hlodged
    rw [h.bindings_eq'] at hbegun'
    exact .inr ⟨_, _, old.startIteration.2, hbegun, hbegun', Session.topFrame?_eq htop hlive,
      { session := hdiffers
        fit := hfit
        held := hheld
        lodged := hlodged
        active_eq := h.active_eq
        bindings_eq := congrArg ((item, value) :: ·) h.bindings_eq
        bindings_eq' := congrArg ((item, value) :: ·) h.bindings_eq'
        bound := hbound
        item := hitem }⟩

theorem Told.end {frame : Frame} {item : String × Value}
    (h : H.Told (w.next H.itemNames frame item) run run')
    (hw : w.Bound H.itemNames) :
    H.Told w (endIteration run) (endIteration run') :=
  { h with
    session := Differs.mono h.session (subset_append_left _ _)
    bindings_eq := congrArg List.tail h.bindings_eq
    bindings_eq' := congrArg List.tail h.bindings_eq'
    bound := hw
    item := fun l hl => h.item l (mem_append_left _ hl) }

/-! ## 5. Bodies -/

/-- The call is of the vocabulary, or known where it stands. -/
def Knows (H : Hygiene) (children items : List String) (call : Call) : Prop :=
  H.V.Has call ∨ ∃ name ∈ children ++ items, call = .plain name

/-- What evaluates the calls and frames inside ends with the items around as without them. -/
structure Tells (H : Hygiene) (r : Recur) : Prop where
  call : ∀ {children items call}, H.Knows children items call →
    (H.standing children items).Matches (· = ·) (r.call call) (r.call call)
  frame : ∀ id, (H.standing (H.ns.declared H.itemNames id) []).Matches (· = ·) (r.frame id) (r.frame id)
  abides : r.Abides (restoring H.ns H.rest)

variable {β : Type} {Q : Since → α → α → Prop} {R : Since → β → β → Prop} {a b : Eval α}
  {f g : α → Eval β} {x : Eval Value}

theorem ends_after (hx : (H.standing children items).Ends w Q (a run) (b run'))
    (hf : ∀ {v v' mid mid'}, Q w v v' → H.Told w mid mid' → H.Stands children items w mid.session →
      H.likeness.Ends w R (f v mid) (g v' mid')) :
    H.likeness.Ends w R ((a >>= f) run) ((b >>= g) run') := by
  refine H.ordered.ends_bind rfl (ends_forget hx) fun hv hsub hab hmid => ?_
  cases hsub
  refine hf hab hmid ?_
  rw [hv] at hx
  generalize b run' = q at hx
  cases hx with
  | some hsub _ hruns =>
    cases hsub
    exact hruns.2

theorem ends_endIteration {frame : Frame} {item : String × Value}
    (h : H.likeness.Ends (w.next H.itemNames frame item) (fun _ => (· = ·)) (x run) (x run'))
    (hw : w.Bound H.itemNames) :
    H.likeness.Ends w (fun _ => (· = ·)) (andThen x endIteration run) (andThen x endIteration run') := by
  rw [andThen, bind_apply, bind_apply, attempt, attempt]
  generalize x run = p at h
  generalize x run' = q at h
  cases h with
  | none => exact .none
  | givenUp hlax => exact hlax.elim
  | dangling hsp _ hflt hdang =>
    cases hflt
    simp only [hdang, if_true]
    exact .dangling hsp rfl rfl hdang
  | some hsub hres hmid =>
    cases hsub
    cases hres with
    | ok hab => exact H.ordered.conclude (.ok hab) (hmid.end hw)
    | @error fault _ hflt =>
      cases hflt
      cases hdang : fault.isDangling with
      | true =>
        simp only [hdang, if_true]
        exact .dangling trivial rfl rfl hdang
      | false =>
        simp only [hdang, Bool.false_eq_true, if_false]
        exact H.ordered.conclude (.error rfl) (hmid.end hw)

section

variable (hyields : ∀ {run : Run}, run.session.Fit H.ns H.rest →
    (restoring H.ns H.rest).Yields .frame run (x run))
  (hbound : ∀ name ∈ items, name ∈ H.itemNames ∧ name ∈ w.inner.map (·.1))
  (hx : (H.standing [] (boundWith H.itemNames items item)).Matches (· = ·) x x)

include hbound hx in
/-- **An iteration**, in which the items that its body knows are those it has bound. -/
theorem Told.iterate (h : H.Told w run run') (hst : H.Stands [] [] w run.session) (value : Value) :
    H.likeness.Ends w (fun _ => (· = ·)) (iterate item value x run) (iterate item value x run') := by
  rw [iterate_eq, bind_apply, bind_apply]
  rcases h.begin item value with
    ⟨fault, hfault, hfault'⟩ | ⟨begun, begun', frame, hbegun, hbegun', htop, htold⟩
  · rw [hfault, hfault']
    exact H.ordered.ends_here (.error rfl) h
  · rw [hbegun, hbegun']
    have hleads := beginIteration_leads (restoring_lawful H.ns H.rest) h.fit trivial hbegun
    have hspeaks : begun.session.Speaks H.V H.ns H.rest :=
      (h.speaks hst).same htold.fit htold.held hleads.may
    have hknown : ∀ name ∈ boundWith H.itemNames items item,
        name ∈ H.itemNames ∧ name ∈ ((item, value) :: w.inner).map (·.1) := by
      intro name hname
      unfold boundWith at hname
      split at hname
      · rename_i hitem
        rcases mem_cons.mp hname with rfl | hname
        · exact ⟨contains_iff_mem.mp hitem, mem_cons_self⟩
        · exact (hbound name hname).imp_right (mem_cons_of_mem _)
      · exact (hbound name hname).imp_right (mem_cons_of_mem _)
    refine ends_endIteration (ends_forget (hx ⟨htold, hspeaks.arguments, hknown,
      fun _ _ => forall_mem_nil _, fun top hfr name hname => ?_⟩)) h.bound
    cases htop.symm.trans hfr
    obtain ⟨hitem, hname⟩ := hknown name hname
    obtain ⟨bound, hmem, rfl⟩ := mem_map.mp hname
    exact mem_append_right _ (mem_map_of_mem (mem_filter.mpr ⟨hmem, contains_iff_mem.mpr hitem⟩))

include hyields hbound hx in
theorem Told.iterateAll : ∀ (values : List Value) {run run' : Run}, H.Told w run run' →
    H.Stands [] [] w run.session → (H.standing [] []).Ends w (fun _ => (· = ·))
      (iterateAll item x values run) (iterateAll item x values run')
  | [], _, _, h, hst => (H.viewed [] []).pure _ ⟨h, hst⟩
  | value :: rest, run, run', h, hst => by
    have hD := restoring_lawful H.ns H.rest
    have hone := h.restore_loop hst (h.iterate hbound hx hst value)
      (iterate_yields hD trivial (fun hinv _ => hyields hinv) (.refl hD h.fit) item value)
    refine (H.viewed [] []).ends_then hone fun hsub hab hmid => ?_
    cases hsub
    cases hab
    refine (H.viewed [] []).ends_then (Told.iterateAll rest hmid.1 hmid.2) fun _ hab hend => ?_
    exact (H.viewed [] []).ends_here (.ok (hab ▸ rfl)) hend

end

section

variable (hr : H.Tells r)
include hr

theorem superValue_tells :
    (H.standing children items).Matches (· = ·) r.superValue r.superValue := by
  rintro w run run' ⟨h, hst⟩
  have hD := restoring_lawful H.ns H.rest
  refine h.restore hst ?_ ((superValue_yields hD hr.abides h.fit).widen hD.call_frame)
  refine H.ordered.ends_bind rfl (H.moved.topFrame h) fun {_ frame frame' _ _} htop hsub hcall hmid => ?_
  obtain ⟨hfr, rfl⟩ := topFrame_eq_ok.mp htop
  obtain ⟨hdef, hargs⟩ := hcall
  cases hsub
  rw [session_bind_apply, session_bind_apply, hmid.session.ns_eq, hdef, hargs]
  cases (run.session.ns.get? frame.definition).bind (·.superdefinition) with
  | none => exact H.ordered.ends_here (.error rfl) hmid
  | some next =>
    refine H.ordered.ends_bind rfl (H.moved.push next frame.arguments false hmid)
      fun {_ _ _ pushed _} hpush hsub _ hpushed => ?_
    obtain ⟨hok, rfl⟩ := lift_eq_ok.mp hpush
    cases hsub
    have hstands := h.push_stands hst ((h.speaks hst).topFrame? hfr) (Prod.ext hok rfl)
    exact H.moved.ends_onFrame (ends_forget (hr.frame next ⟨hpushed, hstands.1⟩))

end

mutual
/-- **A body ends with the items around as without them**, if the calls and frames inside do. -/
theorem body_tells (hr : H.Tells r) : ∀ (b : Body) {children items : List String},
    (∀ call ∈ b.free H.itemNames children items, H.V.Has call) →
    (H.standing children items).Matches (· = ·) (r.body b) (r.body b)
  | .empty, children, items, _ => (H.viewed children items).pure _
  | .literal _, children, items, _ => (H.viewed children items).pure _
  | .ref call, children, items, hcalls => hr.call <| by
    unfold Body.free at hcalls
    split at hcalls
    · rename_i hknown
      obtain ⟨hargs, hname⟩ := Bool.and_eq_true_iff.mp hknown
      obtain ⟨name, args⟩ := call
      obtain rfl : args = [] := isEmpty_iff.mp hargs
      exact .inr ⟨name, contains_iff_mem.mp hname, rfl⟩
    · exact .inl (hcalls call mem_cons_self)
  | .concat parts, children, items, hcalls =>
    (H.viewed children items).map (bodies_tells hr parts hcalls) _
  | .list parts, children, items, hcalls =>
    (H.viewed children items).map (bodies_tells hr parts hcalls) _
  | .super, _, _, _ => superValue_tells hr
  | .redirect _ _ _, children, items, _ => (H.viewed children items).throw trivial
  | .each item range inner, children, items, hcalls => by
    rintro w run run' ⟨h, hst⟩
    have hD := restoring_lawful H.ns H.rest
    have hrange := body_tells hr range fun call hmem => hcalls call (mem_append_left _ hmem)
    have hinner := body_tells hr inner fun call hmem => hcalls call (mem_append_right _ hmem)
    refine h.restore hst ?_ (body_yields hD hr.abides (.each item range inner) h.fit fun _ => trivial)
    refine ends_after (hrange ⟨h, hst⟩) fun {value _ _ _} hab h hst => ?_
    cases hab
    refine ends_after (elements_matches (H.viewed children items) item value ⟨h, hst⟩)
      fun {values _ mid mid'} hab h hst => ?_
    cases hab
    rw [session_bind_apply, session_bind_apply, h.session.reads.seems.iteration?_eq]
    refine H.ordered.ends_andThen (ends_after (h.iterateAll (fun hfit =>
      body_yields hD hr.abides inner hfit fun _ => trivial) hst.bound hinner values (.of_arguments hst.arguments))
      fun hab hend _ => H.ordered.ends_here (.ok (congrArg Value.list hab)) hend) fun h => ?_
    exact h.move (h.session.setIteration _) fun hU => setIteration_upholds hU _ _

theorem bodies_tells (hr : H.Tells r) : ∀ (bs : List Body) {children items : List String},
    (∀ call ∈ Body.allFree H.itemNames children items bs, H.V.Has call) →
    (H.standing children items).Matches (· = ·) (r.bodies bs) (r.bodies bs)
  | [], children, items, _ => (H.viewed children items).pure _
  | b :: rest, children, items, hcalls => by
    refine (H.viewed children items).bind_eq
      (body_tells hr b fun call hmem => hcalls call (mem_append_left _ hmem)) fun value => ?_
    exact (H.viewed children items).map
      (bodies_tells hr rest fun call hmem => hcalls call (mem_append_right _ hmem)) _
end

theorem calls_tells (hr : H.Tells r) : ∀ cs : List Call, (∀ call ∈ cs, H.V.Has call) →
    (H.standing children items).Matches (· = ·) (r.calls cs) (r.calls cs)
  | [], _ => (H.viewed children items).pure _
  | c :: rest, hcalls => by
    rw [forall_mem_cons] at hcalls
    exact (H.viewed children items).bind_eq (hr.call (.inl hcalls.1)) fun _ =>
      (H.viewed children items).map (calls_tells hr rest hcalls.2) _

/-- **The value of a definition in the frame on top**, where its children are known. -/
theorem inFrame_tells (hr : H.Tells r) (id : DefId) :
    (H.standing (H.ns.declared H.itemNames id) []).Matches (· = ·) (r.inFrame id) (r.inFrame id) := by
  rintro w run run' ⟨h, hst⟩
  rw [inFrame, session_bind_apply, session_bind_apply, h.session.ns_eq, h.fit.ns_eq]
  cases hd : H.ns.get? id with
  | none => exact (H.viewed _ _).pure _ ⟨h, hst⟩
  | some d =>
    have hbody := body_tells hr d.body (fun call hmem => H.body hd hmem) ⟨h, hst⟩
    simp only
    cases hkind : d.kind with
    | collection elements =>
      cases hempty : d.body with
      | empty =>
        have helements : ∀ call ∈ elements, H.V.Has call := fun call hmem =>
          H.covers.kind hd (by rw [hkind]; exact hmem)
        exact (H.viewed _ _).map (calls_tells hr elements helements) _ ⟨h, hst⟩
      | _ => rw [hempty] at hbody; exact hbody
    | _ => exact hbody

/-! ## 6. Calls -/

theorem Knows.allows (h : H.Knows children items call) : ∀ a ∈ call.arguments, H.V.Allows a := by
  rcases h with ⟨_, hargs⟩ | ⟨name, _, rfl⟩
  · exact fun a ha => H.closed.allows hargs ha
  · exact forall_mem_nil _

section

variable (h : H.Told w run run') (hst : H.Stands children items w run.session)
include h hst

theorem Told.reached_child {frame : Frame} (hfr : run.session.topFrame? = some frame)
    (hname : name ∈ children) (r : Request) (hkey : r.key = name) :
    (Session.reached run.session.ns frame.definition r run.session.frames).1 = [frame] := by
  obtain ⟨_, _, hch⟩ := hst.child frame hfr name hname
  obtain ⟨id, htop, hf⟩ := Option.bind_eq_some_iff.mp hfr
  obtain ⟨d, hd⟩ := Namespace.get?_of_lt (h.fit.held id frame hf)
  have hends : Session.endsAt H.ns frame.definition r frame = .ok true := by
    unfold Session.endsAt
    simp only
    split
    · rfl
    · rw [hkey, Namespace.isWithin_self hd, hch]
  rw [frames_cons h.fit.sound htop hf, Session.reached, h.fit.ns_eq, hends]

/-- **What a call that is known asks for is found with the items around as without them.** -/
theorem Told.find_eq (hcall : H.Knows children items call) (definition : Option DefId) :
    run'.session.find (request H.ns call definition) =
      run.session.find (request H.ns call definition) := by
  refine Differs.find_eq h.session h.lodged.engine.toDirect
    (fun hp iter => not_isItem (h.held.engine.2 hp).2 iter _) h.fit _ ?_ ?_
  · intro frame _ key hkey t
    obtain ⟨d, hd, hglob⟩ := Option.bind_eq_some_iff.mp hkey
    obtain ⟨id, _, hd⟩ := Option.bind_eq_some_iff.mp hd
    split at hglob
    · rename_i hglobal
      cases hglob
      exact not_isItem (H.covers.durable hd hglobal) frame.iteration t
    · cases hglob
  · intro frame hfr
    rcases hcall with hhas | ⟨name, hname, rfl⟩
    · exact .inl fun f _ => not_isItem hhas.1 f.iteration _
    · rcases mem_append.mp hname with hname | hname
      · obtain ⟨hiter, hmark, _⟩ := hst.child frame hfr name hname
        refine .inl fun f hf => ?_
        rw [h.reached_child hst hfr hname _ rfl] at hf
        cases mem_singleton.mp hf
        exact Location.not_isItem hmark _ (.inl hiter) _
      · have hsafe := hst.item frame hfr name hname
        exact .inr ⟨hsafe, h.item _ hsafe⟩

theorem Told.lookup (hcall : H.Knows children items call) (definition : Option DefId) :
    H.likeness.Ends w (fun _ => (· = ·)) (lift (·.lookup (request H.ns call definition)) run)
      (lift (·.lookup (request H.ns call definition)) run') := by
  obtain ⟨hres, hdiffers⟩ := Differs.lookup h.session (h.find_eq hst hcall definition)
  rw [lift_apply, lift_apply, hres]
  refine H.ordered.ends_here ?_ (h.move hdiffers fun hU => lookup_upholds hU _ _)
  exact .refl _ fun _ _ => rfl

theorem Told.topFrame?_of_lookup (hname : name ∈ items) {definition : Option DefId}
    (hnone : (run.session.lookup (request H.ns (.plain name) definition)).1 = .ok none) :
    run.session.topFrame? = none := by
  cases hfr : run.session.topFrame? with
  | none => rfl
  | some frame =>
    obtain ⟨v, hval⟩ := h.item _ (hst.item frame hfr name hname)
    have hsome := find_ne_none (r := request H.ns (.plain name) definition) h.fit hfr hval
    exact absurd ((lookup_result _ _).symm.trans hnone) hsome

/-- **A value is put under a name of the vocabulary, or that of a child.** -/
theorem Told.put {target : String} (htgt : target ∈ H.V.names ∨ target ∈ children)
    (holder : Holder) : (H.standing children items).Ends w (fun _ => (· = ·))
      (lift (·.put target holder) run) (lift (·.put target holder) run') := by
  obtain ⟨hres, hdiffers⟩ := Differs.put h.session target holder
  have hkept : run.session.Upholds H.upkeep H.ns H.rest (run.session.put target holder).2 := by
    refine putWithin_kept H.upkeep_kept ⟨trivial, fun _ _ _ => trivial⟩ holder _
      fun hheld frame hfr _ => ⟨?_, shelters_of_set ?_⟩
    · exact ((Upkeep.speaking_open H.covers).slot _ hheld.engine (h.held.topFrame hfr).cache
        fun _ h => by cases h).1
    · rcases htgt with htgt | htgt
      · exact not_isItem htgt frame.iteration _
      · obtain ⟨hiter, hmark, _⟩ := hst.child frame hfr target htgt
        exact Location.not_isItem hmark _ (.inl hiter) _
  have htold := h.step hdiffers hkept (putWithin_upholds (Upkeep.lodging_open H.ns) _ _ _ _)
  obtain ⟨engine, _, heq⟩ := putWithin_effect run.session target holder
    run.session.limits.propagationLevels
  rw [lift_apply, lift_apply, hres]
  refine (H.viewed children items).ends_here (.refl _ fun _ _ => rfl) ⟨htold, ?_⟩
  exact (hst.withEngine engine : H.Stands children items w _) |> (heq ▸ ·)

end

section

variable (hr : H.Tells r) (h : H.Told w run run') (hst : H.Stands children items w run.session)
include hr h hst

theorem Told.instantiate {args : List Argument} (hargs : ∀ a ∈ args, H.V.Allows a) (id : DefId) :
    H.likeness.Ends w (fun _ => SameComputed) (r.instantiate id args run)
      (r.instantiate id args run') := by
  refine H.ordered.ends_bind rfl (H.moved.push id args true h)
    fun {_ _ _ pushed _} hpush hsub _ hpushed => ?_
  obtain ⟨hok, rfl⟩ := lift_eq_ok.mp hpush
  cases hsub
  have hstands := (h.push_stands hst hargs (Prod.ext hok rfl)).2
  refine H.moved.ends_onFrame (H.ordered.ends_bind rfl (H.moved.topFrame (H.moved.count hpushed))
    fun {_ frame frame' _ _} htop hsub hcall hmid => ?_)
  obtain ⟨hfr, rfl⟩ := topFrame_eq_ok.mp htop
  cases hsub
  rw [hcall.1]
  refine H.ordered.ends_then (ends_forget (hr.frame frame.definition
    ⟨hmid, (hstands frame hfr).withEngine _⟩)) fun hsub hab hend => ?_
  exact H.ordered.ends_here (.ok ⟨hcall, hab.symm⟩) hend

theorem Told.computed {args : List Argument} (hargs : ∀ a ∈ args, H.V.Allows a) {id : DefId}
    (hid : H.ns.Refers id) {target : String} (htgt : target ∈ H.V.names ∨ target ∈ children) :
    H.likeness.Ends w (fun _ => (· = ·)) (r.computed id target args run)
      (r.computed id target args run') := by
  have hD := restoring_lawful H.ns H.rest
  have hentered : (restoring H.ns H.rest).Yields .call run
      (entering target args (r.instantiate id args) run) :=
    Yields.entering (Leads.refl hD h.fit) (fun active => by
      refine instantiate_yields hD hr.abides ?_ hid args
      exact h.fit) hD
  refine ends_forget (computed_matches_at (H.viewed children items)
    (h.restore hst ?_ (hentered.widen hD.call_frame)) fun holder _ _ _ hmid =>
      hmid.1.put hmid.2 htgt holder)
  refine H.moved.ends_entering h fun {x' _} hsess h => ?_
  have hst : H.Stands children items w x'.session := hsess ▸ hst
  exact h.instantiate hr hst hargs id

/-- **What a call that is known names**, looked for or computed. -/
theorem Told.named (hcall : H.Knows children items call) :
    H.likeness.Ends w (fun _ => (· = ·)) (r.named call run) (r.named call run') := by
  have hlook := h.lookup hst hcall
  refine named_matches_at H.moved.toViewed call h (fun found _ => h.fit.ns_eq ▸ hlook found)
    fun {id _ mid _} hfd hlook hsub hmid => ?_
  cases hsub
  rw [h.fit.ns_eq] at hfd hlook
  obtain ⟨hnone, rfl⟩ := lift_eq_ok.mp hlook
  obtain ⟨engine, _, heng⟩ := lookup_effect run.session (request H.ns call (some id))
  have hstands : H.Stands children items w
      (run.session.lookup (request H.ns call (some id))).2 := heng ▸ hst.withEngine engine
  have hid : H.ns.Refers id := .named hfd
  have htgt : (run.session.keepTarget? call.name).getD call.name ∈ H.V.names ∨
      (run.session.keepTarget? call.name).getD call.name = call.name := by
    cases htgt : run.session.keepTarget? call.name with
    | none => exact .inr rfl
    | some target => exact .inl ((h.speaks hst).alias_mem htgt)
  generalize (run.session.keepTarget? call.name).getD call.name = target at htgt ⊢
  have hargs := hcall.allows
  rcases htgt with htgt | rfl
  · exact hmid.computed hr hstands hargs hid (.inl htgt)
  rcases hcall with hhas | ⟨name, hname, rfl⟩
  · exact hmid.computed hr hstands hargs hid (.inl hhas.1)
  rcases mem_append.mp hname with hname | hname
  · exact hmid.computed hr hstands hargs hid (.inr hname)
  · -- an item that is not found has no frame to be put in
    have hgone : (run.session.lookup (request H.ns (.plain name) (some id))).2.topFrame? = none := by
      rw [heng]
      exact h.topFrame?_of_lookup hst hname hnone
    have hstands : H.Stands [name] [] w
        (run.session.lookup (request H.ns (.plain name) (some id))).2 :=
      ⟨hstands.arguments, forall_mem_nil _, fun _ hfr => by simp [hgone] at hfr,
        fun _ _ => forall_mem_nil _⟩
    exact hmid.computed hr hstands hargs hid (.inr mem_cons_self)

theorem Told.argument {binding : ArgumentBinding}
    (hbind : run.session.argumentFor name = some binding) :
    H.likeness.Ends w (fun _ => (· = ·)) (r.argument name binding run)
      (r.argument name binding run') := by
  refine argument_matches_at H.moved name binding h
    fun {callee args _ x out _} harg hsess hout hsub hruns => ?_
  cases hsub
  have hspeaks : x.session.Speaks H.V H.ns H.rest := hsess ▸ h.speaks hst
  obtain ⟨hspeaks, _⟩ := stepOut_speaks H.covers _ hspeaks hout
  have hhas := (h.speaks hst).argumentFor hbind callee args harg
  exact ends_forget (hr.call (.inl hhas) ⟨hruns, .of_arguments hspeaks.arguments⟩)

end

/-- **A call that is known ends with the items around as without them**, if the calls and frames
    inside do. -/
theorem value_tells (hr : H.Tells r) (hcall : H.Knows children items call) :
    (H.standing children items).Matches (· = ·) (r.value call) (r.value call) := by
  rintro w run run' ⟨h, hst⟩
  have hD := restoring_lawful H.ns H.rest
  refine h.restore hst ?_ ((value_yields hD hr.abides h.fit call).widen hD.call_frame)
  have hnamed := h.named hr hst hcall
  unfold value
  split
  · exact hnamed
  · rw [session_bind_apply, session_bind_apply, h.session.reads.argumentFor_eq]
    cases hbind : run.session.argumentFor call.name with
    | some binding => exact h.argument hr hst hbind
    | none => exact hnamed

/-- **An evaluation ends with the items around as without them**, whatever its fuel. -/
theorem tells_within (H : Hygiene) (fuel : Nat) :
    H.Tells ⟨evaluateWithin fuel, frameWithin fuel⟩ := by
  have habides := abides_within (restoring_lawful H.ns H.rest) fuel
  induction fuel with
  | zero => exact ⟨fun _ _ _ _ _ => .none, fun _ _ _ _ _ => .none, habides⟩
  | succ fuel ih =>
    have hr := ih (abides_within (restoring_lawful H.ns H.rest) fuel)
    exact ⟨fun hcall => value_tells hr hcall, fun id => inFrame_tells hr id, habides⟩

theorem outcome_eq {p q : Option (Except EvalFault α × Run)}
    (h : (H.standing children items).Ends w (fun _ => (· = ·)) p q) : p.map (·.1) = q.map (·.1) := by
  cases h with
  | none => rfl
  | givenUp hlax => exact hlax.elim
  | some _ hres _ => exact congrArg some hres.eq
  | dangling _ _ hflt _ => exact congrArg (fun fault => some (Except.error fault)) hflt

/-- **With the items around, a call of the vocabulary ends as without them.** -/
theorem evaluateWithin_eq (H : Hygiene) (hs : s.Speaks H.V H.ns H.rest)
    (hlodged : s.Upheld (.lodging H.ns)) (hcall : H.V.Has call) (fuel : Nat)
    (active : List ActiveCall) : (evaluateWithin fuel call ⟨s, active, H.items⟩).map (·.1) =
      (evaluateWithin fuel call ⟨s, active, []⟩).map (·.1) := by
  have htold : H.Told ⟨[], []⟩ ⟨s, active, H.items⟩ ⟨s, active, []⟩ :=
    { session := differs_refl s
      fit := hs.fit
      held := hs.held
      lodged := hlodged
      active_eq := rfl
      bindings_eq := rfl
      bindings_eq' := rfl
      bound := forall_mem_nil _
      item := forall_mem_nil _ }
  exact outcome_eq ((H.tells_within fuel).call (.inl hcall) ⟨htold, .of_arguments hs.arguments⟩)

end Hygiene

/-! ## 7. Workspaces -/

/-- The names that an evaluation of a call may come to, but for those of children and items that are
    known where they stand: the names that are kept, those of durable values, and the free calls with
    what is in their arguments. -/
def Session.freeNames (s : Session) (names : List String) (call : Call) : List String :=
  (s.vocabulary (s.ns.free names) call).names

namespace Workspace

variable {limits : Limits} {w : Workspace} {s : Session}

/-- A choir whose song and refrain have singers of their own. Around the refrain, a concert has others
    in turn. -/
def choirWith (refrain : Body) : Namespace where
  definitions := #[
    { name := "choir", fullName := "choir", kind := .site, site := some 0
      children := ((Dictionary.empty.insert "song" 1).insert "refrain" 2).insert "concert" 5 },
    { name := "song", fullName := "choir.song", owner := some 0, site := some 0
      children := Dictionary.empty.insert "singer" 3
      body := .list [.ref (.plain "singer"),
        .each "verse" (.literal (.list [.int 1, .int 2])) (.ref (.plain "refrain")),
        .each "singer" (.literal (.list [.text "alto"])) (.ref (.plain "singer"))] },
    { name := "refrain", fullName := "choir.refrain", owner := some 0, site := some 0
      children := Dictionary.empty.insert "singer" 4
      body := refrain },
    { name := "singer", fullName := "choir.song.singer", owner := some 1, site := some 0
      body := .literal (.text "soloist") },
    { name := "singer", fullName := "choir.refrain.singer", owner := some 2, site := some 0
      body := .literal (.text "all") },
    { name := "concert", fullName := "choir.concert", owner := some 0, site := some 0
      body := .each "singer" (.literal (.list [.text "tenor"])) (.ref (.plain "song")) }]
  roots := Dictionary.empty.insert "choir" 0

/-- A stack with the choir for its only frame. -/
def assembledWith (refrain : Body) : Session :=
  (Session.push ⟨.new (choirWith refrain) {}, .new 0 {}, {}⟩ 0 [] true).2

end Workspace

end KeepTree
