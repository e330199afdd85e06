import KeepTree.Proofs.Durable.Lodging
import KeepTree.Proofs.Evaluation.Alike

/-!
# The items of a loop are out of reach

A loop puts its items into the cache of the frame it runs in, under keys of their own. What is
evaluated in other frames writes to that cache in two ways only: when the frame itself is on top again
and a computed value is put there, and through pointers by which the frame keeps its children. Neither
writes under the key of an item, unless a definition goes by such a key:

* `Discipline.guarding`, `guarding_lawful` -- **no call changes an item**, nor does a loop in another
  frame.
-/

namespace KeepTree

open KeepTree.Frame DottedName Upkeep List Nat

variable {ns : Namespace} {item name : String} {c : TableId} {s s' : Session} {rest : List Stack}
  {id : DefId}

/-! ## 1. Keys of iterations -/

namespace DottedName

theorem not_mem_repr {c : Char} (hc : c.isDigit = false) (n : Nat) : c ∉ (Nat.repr n).toList := by
  intro hmem
  have hdigits : c ∈ toDigits 10 n := by simpa [Nat.repr] using hmem
  have hdigit := isDigit_of_mem_toDigits (by decide) (by decide) hdigits
  exact absurd (hdigit.symm.trans hc) (by decide)

theorem repr_inj {m n : Nat} (h : (Nat.repr m).toList = (Nat.repr n).toList) : m = n := by
  have hdigits : toDigits 10 m = toDigits 10 n := by simpa [Nat.repr] using h
  calc m = ofDigitChars 10 (toDigits 10 m) 0 := ofDigitChars_ten_toDigits.symm
    _ = ofDigitChars 10 (toDigits 10 n) 0 := by rw [hdigits]
    _ = n := ofDigitChars_ten_toDigits

theorem inLoop_inj {key key' : String} {m n : Nat}
    (h : inLoop key (some m) = inLoop key' (some n)) : key = key' ∧ m = n := by
  have hlists : key.toList ++ '#' :: (Nat.repr m).toList =
      key'.toList ++ '#' :: (Nat.repr n).toList := by
    have hsharp : "#".toList = ['#'] := rfl
    have := congrArg String.toList h
    simpa only [inLoop, String.toList_append, hsharp, append_assoc, singleton_append] using this
  rcases append_eq_append_iff.mp hlists with ⟨more, hkey, hrest⟩ | ⟨more, hkey, hrest⟩
  · cases more with
    | nil =>
      refine ⟨String.toList_inj.mp (by simpa using hkey.symm), repr_inj ?_⟩
      simpa using hrest
    | cons c more =>
      refine absurd ?_ (not_mem_repr (c := '#') (by decide) m)
      simp [(List.cons.inj hrest).2]
  · cases more with
    | nil =>
      refine ⟨String.toList_inj.mp (by simpa using hkey), repr_inj ?_⟩
      simpa using hrest.symm
    | cons c more =>
      refine absurd ?_ (not_mem_repr (c := '#') (by decide) n)
      simp [(List.cons.inj hrest).2]

theorem isLoopKey_inLoop (name : String) (index : Nat) :
    isLoopKey (inLoop name (some index)) = true := by
  have hsharp : "#".toList = ['#'] := rfl
  simp [isLoopKey, inLoop, String.toList_append, hsharp]

theorem isDotted_inLoop (key : String) (iter : Option Nat) :
    isDotted (inLoop key iter) = isDotted key := by
  cases iter with
  | none => rfl
  | some n =>
    have hsharp : "#".toList = ['#'] := rfl
    have hdigits := not_mem_repr (c := '.') (by decide) n
    simp only [isDotted, inLoop, String.toList_append, hsharp, contains_eq_mem,
      mem_append, hdigits, or_false]
    simp

theorem head_eq_self (h : isDotted name = false) : head name = name := by
  have hall : ∀ c ∈ name.toList, (c != '.') = true := by
    intro c hc
    rw [isDotted, contains_eq_mem, decide_eq_false_iff_not] at h
    exact bne_iff_ne.mpr fun e => h (e ▸ hc)
  have htake : (name.toList ++ []).takeWhile (· != '.') = name.toList ++ [] :=
    takeWhile_append_of_pos hall
  rw [append_nil] at htake
  rw [head, htake, String.ofList_toList]

theorem splitDots_of_not_mem : ∀ {text : List Char}, '.' ∉ text → splitDots text = [text]
  | [], _ => rfl
  | c :: rest, h => by
    have hc : c ≠ '.' := fun e => h (e ▸ mem_cons_self)
    rw [splitDots, if_neg hc, splitDots_of_not_mem fun hmem => h (mem_cons_of_mem _ hmem)]

theorem tail_eq_nil (h : isDotted name = false) : tail name = [] := by
  have hmem : '.' ∉ name.toList := by
    rw [isDotted, contains_eq_mem, decide_eq_false_iff_not] at h
    exact h
  rw [tail, segments, splitDots_of_not_mem hmem]
  rfl

end DottedName

namespace Namespace

variable {inside : DefId}

/-- No name that means something inside a definition gives a key of the item. -/
def Spares (ns : Namespace) (inside : DefId) (item : String) : Prop :=
  ∀ key id, ns.lookupFrom (some inside) key = .ok (some id) → ∀ iteration n,
    inLoop key iteration ≠ inLoop item (some n)

theorem spares_of_nothing (hitem : ns.lookupFrom (some inside) item = .ok none)
    (hkeys : ∀ n id, ns.lookupFrom (some inside) (inLoop item (some n)) ≠ .ok (some id)) :
    ns.Spares inside item := by
  intro key id hid iter n heq
  cases iter with
  | none => exact hkeys n id (heq ▸ hid)
  | some m =>
    obtain ⟨rfl, _⟩ := inLoop_inj heq
    cases hitem.symm.trans hid

theorem owners_cons {d : Definition} (hd : ns.get? id = some d) :
    ∃ around, ns.owners (some id) = (id, d) :: around := by
  unfold owners
  cases hsize : ns.size with
  | zero => exact absurd (lt_of_get? hd) (by rw [hsize]; exact Nat.not_lt_zero _)
  | succ n => exact ⟨ns.ownersWithin n d.owner, by rw [ownersWithin, hd]⟩

theorem lookupFrom_of_child {x : DefId} (hch : ns.child id name = .ok (some x))
    (hname : isDotted name = false) : ns.lookupFrom (some id) name = .ok (some x) := by
  have hget : ∃ d, ns.get? id = some d := by
    unfold child childWithin at hch
    cases hfind : ns.find id with
    | error gap => simp [hfind] at hch
    | ok d => exact ⟨d, get?_of_find hfind⟩
  obtain ⟨d, hd⟩ := hget
  obtain ⟨around, howners⟩ := owners_cons hd
  rw [lookupFrom, head_eq_self hname, tail_eq_nil hname, resolveHead, howners, headAmong, hch]
  rfl

end Namespace

/-! ## 2. Tables -/

namespace Engine

variable {e e' e'' : Engine}

/-- A table of frames whose items no pointer leads to. -/
structure Guards (ns : Namespace) (c : TableId) (item : String) (e : Engine) : Prop
    extends e.Direct ns where
  isPrivate : e.Private c
  apart : ∀ {k name p}, e.store.pointer? k name = some p → p.table = c → ∀ iteration n,
    p.slotKey iteration ≠ inLoop item (some n)

/-- The items are what they were. -/
structure Spares (c : TableId) (item : String) (e e' : Engine) : Prop extends e.Extends e' where
  item_eq : ∀ n, e'.store.get? c (inLoop item (some n)) = e.store.get? c (inLoop item (some n))

theorem Spares.refl (c : TableId) (item : String) (e : Engine) : e.Spares c item e :=
  ⟨.refl e, fun _ => rfl⟩

theorem Spares.trans (h : e.Spares c item e') (h' : e'.Spares c item e'') : e.Spares c item e'' :=
  ⟨h.toExtends.trans h'.toExtends, fun n => (h'.item_eq n).trans (h.item_eq n)⟩

theorem Guards.grow (h : e.Guards ns c item) (hg : e.Grown e') :
    e'.Guards ns c item ∧ e.Spares c item e' :=
  ⟨⟨h.toDirect.grow hg, hg.isPrivate h.isPrivate, fun hp => h.apart (hg.pointer? hp)⟩,
    hg.toExtends, fun _ => hg.larger.get?_eq h.isPrivate.lt⟩

theorem Guards.write (h : e.Guards ns c item) (l : Location) (entry : Entry)
    (hent : ∀ p, entry ≠ .pointer p) : (e.withStore (e.store.set l entry)).Guards ns c item :=
  ⟨h.toDirect.set l entry hent, (e.set_extends l entry).isPrivate h.isPrivate, h.apart⟩

theorem Guards.set (h : e.Guards ns c item) {l : Location} {entry : Entry}
    (hent : ∀ p, entry ≠ .pointer p) (hslot : l.table = c → ∀ n, l.key ≠ inLoop item (some n)) :
    (e.withStore (e.store.set l entry)).Guards ns c item ∧
    e.Spares c item (e.withStore (e.store.set l entry)) := by
  refine ⟨h.write l entry hent, e.set_extends l entry,
    fun n => Store.get?_write_of_ne e.store ?_ entry⟩
  by_cases htab : l.table = c
  · exact .inr (hslot htab n).symm
  · exact .inl (Ne.symm htab)

end Engine

/-- No frame keeps or puts anything in the place of an item, but the one frame whose cache it is, and
    that one in the names its definition has a meaning for. -/
def Upkeep.guarding (ns : Namespace) (c : TableId) (item : String) : Upkeep where
  engine := Engine.Guards ns c item
  cache _ d _ t := t = c → ns.Spares d item
  container _ _ t := t ≠ c
  growth := Engine.Spares c item

/-- **What is done to tables leaves the items alone.** -/
theorem Upkeep.guarding_kept (ns : Namespace) (c : TableId)
    (hitem : isDotted item = false) : (guarding ns c item).Kept ns where
  direct he := he.toDirect
  refl := .refl c item
  trans := .trans
  grow he hg := he.grow hg
  fresh_table := fun {e e' t} he _ ht _ _ _ => by
    have hne : t ≠ c := Nat.ne_of_gt (Nat.lt_of_lt_of_le he.isPrivate.lt ht)
    exact ⟨fun _ h => absurd h hne, hne⟩
  fresh_keeps _ _ _ _ := ⟨trivial, fun _ _ _ _ => trivial⟩
  point := fun {e f keep p} k name he hfr _ _ hp _ _ => by
    have hext := e.keep_extends k name p
    refine ⟨⟨he.toDirect.keep k name p, hext.isPrivate he.isPrivate, fun hfd => ?_⟩,
      hext, fun _ => rfl⟩
    rcases Store.pointer?_keep hfd with rfl | hold
    · intro htab iter n heq
      cases hp with
      | @cache x hch hca hkey =>
        -- a child of the one frame: its name has a meaning there
        have hname : isDotted keep.target = false := by
          rw [Pointer.slotKey, hkey] at heq
          rw [← isDotted_inLoop keep.target iter, heq, isDotted_inLoop, hitem]
        rw [he.ns_eq] at hch
        rw [Pointer.slotKey, hkey] at heq
        exact hfr.cache (hca.symm.trans htab) keep.target x
          (Namespace.lookupFrom_of_child hch hname) iter n heq
      | container hget => exact hfr.container hget htab
      | durable _ _ _ _ hhome =>
        exact he.isPrivate.not_durable (htab ▸ Engine.durable_of_home? hhome)
    · exact he.apart hold
  kept iter holder he _ _ hp := he.set nofun fun htab => he.apart hp htab iter
  durable _ he _ _ hhome := he.set nofun fun htab =>
    absurd (htab ▸ Engine.durable_of_home? hhome) he.isPrivate.not_durable

/-! ## 3. Evaluation -/

namespace Session

/-- Sites, if there are any, have another table for a cache. -/
structure Rooted (ns : Namespace) (c : TableId) (s : Session) : Prop where
  size_pos : 0 < s.stack.size
  root : (∀ id d, ns.get? id = some d → d.isSite = false) ∨
    ∃ root, s.rootFrame? = some root ∧ root.cache ≠ c

theorem Rooted.same (h : s.Rooted ns c) (hsame : s.Same unlooped s') : s'.Rooted ns c := by
  refine ⟨hsame.size_eq ▸ h.size_pos, h.root.imp_right fun ⟨root, hroot, hne⟩ => ?_⟩
  obtain ⟨root', hroot', hca⟩ := hsame.rootFrame? h.size_pos hroot
  exact ⟨root', hroot', hca ▸ hne⟩

theorem Rooted.enter (h : s.Rooted ns c) (hs : s.Fit ns rest) (frame : Frame) (engine : Engine) :
    (s.enter frame engine).Rooted ns c := by
  refine ⟨succ_pos _, h.root.imp_right fun ⟨root, hroot, hne⟩ => ?_⟩
  obtain ⟨root', hroot', hca⟩ := (enter_rootFrame? hs frame engine).2 root hroot
  exact ⟨root', hroot', hca ▸ hne⟩

theorem homeFor_cache_ne (hroot : s.Rooted ns c) (hc : c < s.store.tables.size) {d : Definition}
    (hd : ns.get? id = some d) (prev : Option Frame) : (s.homeFor id d prev).1.cache ≠ c := by
  have hca := (s.homeFor_grown id d prev).2
  generalize (s.homeFor id d prev).1.cache = cache at hca
  cases hca with
  | @shared root hsite hshared =>
    rcases hroot.root with hnone | ⟨other, hoth, hne⟩
    · exact absurd (hsite.symm.trans (hnone id d hd)) (by decide)
    · cases hoth.symm.trans hshared
      exact hne
  | fresh _ _ => exact Nat.ne_of_gt hc

theorem put_guarded (hitem : isDotted item = false) {start : Session}
    (hstart : start.Fit ns rest) (hsame : start.Same bare s) {target : String}
    (hid : ns.lookupFrom start.topDefinition? target = .ok (some id)) (holder : Holder) :
    s.Upholds (.guarding ns c item) ns rest (s.put target holder).2 := by
  refine putWithin_kept (guarding_kept ns c hitem) ⟨trivial, fun _ _ _ => trivial⟩ holder _
    fun hheld frame hfr _ => hheld.engine.set nofun fun htab n => ?_
  obtain ⟨top, htop, hf⟩ := Option.bind_eq_some_iff.mp hfr
  have htop : start.stack.top = some top := hsame.top_eq ▸ htop
  obtain ⟨before, hbefore⟩ := hstart.top_live top htop
  obtain ⟨after, hafter, hread⟩ := hsame.topFrame? (topFrame?_eq htop hbefore)
  obtain rfl := Option.some.inj (hafter.symm.trans hfr)
  have hdef : start.topDefinition? = some after.definition := by
    rw [topDefinition?, topFrame?_eq htop hbefore]
    exact congrArg some (congrArg definition hread.symm :)
  exact (hheld.topFrame hfr).cache htab target id (hdef ▸ hid) after.iteration n

end Session

/-- The items of one table are what they were; loops run in other frames. -/
def Discipline.guarding (ns : Namespace) (rest : List Stack) (c : TableId) (item : String) :
    Discipline where
  ns := ns
  inv s := s.Fit ns rest ∧ s.Upheld (.guarding ns c item) ∧ s.Rooted ns c
  may
    | .call, s, s' => s.Same bare s' ∧ s.engine.Spares c item s'.engine
    | .frame, s, s' => s.Same uncounted s' ∧ s.engine.Spares c item s'.engine
    | .loop, s, s' => s.Same unlooped s' ∧ s.engine.Spares c item s'.engine
  loops s := ∃ frame, s.topFrame? = some frame ∧ frame.cache ≠ c
  dangles := ¬ ns.Closed

namespace Discipline

variable {run : Run}

open Session

theorem guarding_of_upholds {v : Frame → Frame} (hinv : (guarding ns rest c item).inv s)
    (hupholds : s.Upholds (.guarding ns c item) ns rest s') (hsame : s.Same v s')
    (hunlooped : s.Same unlooped s') :
    (guarding ns rest c item).inv s' ∧ s.Same v s' ∧ s.engine.Spares c item s'.engine := by
  obtain ⟨hfit, hheld, hroot⟩ := hinv
  obtain ⟨hfit', hheld', hspares⟩ := hupholds hfit hheld
  exact ⟨⟨hfit', hheld', hroot.same hunlooped⟩, hsame, hspares⟩

theorem guarding_transfer {α : Type} {out : Except EvalFault α} {run' : Run}
    (hinv : (guarding ns rest c item).inv run.session)
    (hupholds : run.session.Upholds (.guarding ns c item) ns rest run'.session)
    (h : (restoring ns rest).Fine .call run out run') :
    (guarding ns rest c item).Fine .call run out run' := by
  refine h.transfer id fun hleads => ?_
  have hsame : run.session.Same bare run'.session := hleads.may
  obtain ⟨hinv', hmay⟩ := guarding_of_upholds hinv hupholds hsame hsame.unlooped_of_bare
  exact ⟨hinv', hmay, hleads.evaluator_eq⟩

theorem guarding_push (hitem : isDotted item = false) {args : List Argument}
    {newCall : Bool} (hinv : (guarding ns rest c item).inv s) (hid : ns.Refers id)
    (h : s.push id args newCall = (.ok (), s')) :
    (guarding ns rest c item).Entered s id s' := by
  obtain ⟨hfit, hheld, hroot⟩ := hinv
  have hU := guarding_kept ns c hitem
  have hrun : (restoring ns rest).inv (Run.mk s {}).session := hfit
  have hentered := (restoring_lawful ns rest).push hrun hid h
  have hpushed := push_upheld hU.toPushable (fun _ => trivial) hfit hheld
    (fun other d root hd hsite hshared => by
    rcases hroot.root with hnone | ⟨bottom, hbot, hne⟩
    · exact absurd (hsite.symm.trans (hnone other d hd)) (by decide)
    · cases hbot.symm.trans hshared
      exact fun _ e => absurd e hne) id args newCall
  rw [h] at hpushed
  obtain ⟨hheld', hspares⟩ := hpushed
  obtain ⟨bound, d, frame, engine, hprep, hframeFor, rfl⟩ := push_ok h
  obtain ⟨_, hd, _⟩ := preparePush_ok hprep
  -- the new frame has a cache of its own, or that of the root
  have hca : frame.cache ≠ c := by
    have hfr := frameFor_cache s bound d s.topFrame? newCall
    rw [hframeFor] at hfr
    rw [hfr]
    exact homeFor_cache_ne hroot hheld.engine.isPrivate.lt (hfit.ns_eq ▸ hd) s.topFrame?
  have htop := enter_topFrame? hfit.sound frame engine
  have hloops : (guarding ns rest c item).loops (s.enter frame engine) := ⟨frame, htop, hca⟩
  refine ⟨⟨hentered.inv, hheld', hroot.enter hfit frame engine⟩, ⟨frame, htop, fun _ => hloops⟩,
    fun _ => hloops, ?_⟩
  rintro after ⟨hfit', hafter, _⟩ ⟨hsame, hspares'⟩
  obtain ⟨back, hpop, hfit'', hsame'⟩ := hentered.back hfit' hsame
  obtain ⟨_, hback, hspares''⟩ := pop_upholds hU.toPushable hpop hfit' hafter
  exact ⟨back, hpop, ⟨hfit'', hback, hroot.same hsame'.unlooped_of_bare⟩, hsame',
    (hspares.trans hspares').trans hspares''⟩

/-- **No call changes an item.** -/
theorem guarding_lawful (ns : Namespace) (rest : List Stack) (c : TableId)
    (hitem : isDotted item = false) : (guarding ns rest c item).Lawful where
  ns_eq hinv := hinv.1.ns_eq
  refl := fun {l s} => by
    cases l <;> exact ⟨Same.refl _ s, .refl c item _⟩
  trans := fun {l s s' s''} h h' => by
    cases l <;> exact ⟨h.1.trans h'.1, h.2.trans h'.2⟩
  call_frame h := ⟨h.1.coarsen uncounted_plain.bare, h.2⟩
  frame_loop h := ⟨h.1.unlooped_of_uncounted, h.2⟩
  loops_kept := fun {s s'} h ⟨frame, hfr, hne⟩ => by
    obtain ⟨frame', hfr', hread⟩ := h.1.topFrame? hfr
    have hca : frame'.cache = frame.cache := (congrArg Frame.cache hread :)
    exact ⟨frame', hfr', hca ▸ hne⟩
  walk h := (restoring_lawful ns rest).walk h
  lookup r hinv := guarding_transfer hinv (lookup_upholds (guarding_kept ns c hitem).toPushable _ r)
    ((restoring_lawful ns rest).lookup r hinv.1)
  put target hstart hinv hmay hid hnom hstored := guarding_transfer hinv
    (put_guarded hitem hstart.1 hmay.1 hid _)
    ((restoring_lawful ns rest).put target hstart.1 hinv.1 hmay.1 hid hnom hstored)
  count := fun {s} hinv => by
    obtain ⟨_, hsame⟩ := (restoring_lawful ns rest).count hinv.1
    exact guarding_of_upholds hinv (computation_upholds
      (guarding_kept ns c hitem).toPushable s) hsame (Same.unlooped_of_bare hsame)
  push hinv hid h := guarding_push hitem hinv hid h
  push_fault hinv hid h :=
    fine_of_push_error hinv.1 hid h id ⟨hinv, ⟨Same.refl _ _, .refl c item _⟩, rfl⟩
  unpush := fun {s} hinv hsize => by
    have hU := guarding_kept ns c hitem
    obtain ⟨out, hunp, hout⟩ := (restoring_lawful ns rest).unpush hinv.1 hsize
    obtain ⟨hfit, hheld, hspares⟩ := unpush_upholds hU.toPushable hunp hinv.1 hinv.2.1
    have hroot : out.Rooted ns c := by
      refine ⟨by have := hout.size_eq; omega, hinv.2.2.root.imp_right fun ⟨root, hroot, hne⟩ => ?_⟩
      obtain ⟨id, frame, _, _, rfl⟩ := unpush_ok hunp
      obtain ⟨root', hroot', hca⟩ := steppedOut_rootFrame? hroot
      exact ⟨root', hroot', hca ▸ hne⟩
    refine ⟨out, hunp, ⟨hfit, hheld, hroot⟩, hout.size_eq, ?_⟩
    intro s' ⟨hfit', hheld', _⟩ ⟨hsame, hspares'⟩
    obtain ⟨back, hrep, hfit'', hsame'⟩ := hout.back hfit' hsame
    obtain ⟨_, hback, hspares''⟩ := repush_upholds hU.toPushable hrep hfit' hheld'
    exact ⟨back, hrep, ⟨hfit'', hback, hinv.2.2.same hsame'.unlooped_of_bare⟩, hsame',
      (hspares.trans hspares').trans hspares''⟩
  startIteration := fun {s i s'} hinv hloops h => by
    obtain ⟨_, hsame⟩ := (restoring_lawful ns rest).startIteration hinv.1 trivial h
    exact guarding_of_upholds hinv
      (startIteration_upholds (guarding_kept ns c hitem).toPushable h) hsame hsame
  startIteration_fault hinv h := (restoring_lawful ns rest).startIteration_fault hinv.1 h
  putValue := fun {s key value s'} hinv hloops h => by
    obtain ⟨_, hsame⟩ := (restoring_lawful ns rest).putValue hinv.1 trivial h
    obtain ⟨frame, hfr, hne⟩ := hloops
    refine guarding_of_upholds hinv (putValue_upheld (guarding_kept ns c hitem).toPushable h
      fun hheld top htop => ?_) hsame hsame
    cases hfr.symm.trans htop
    exact hheld.engine.set nofun fun htab => absurd htab hne
  putValue_fault hinv h := (restoring_lawful ns rest).putValue_fault hinv.1 h
  setIteration := fun {s s'} hinv hinv' hmay => by
    obtain ⟨hfit, hsame⟩ := (restoring_lawful ns rest).setIteration hinv.1 hinv'.1 hmay.1
    obtain ⟨_, hheld, hspares⟩ := setIteration_upholds (guarding_kept ns c hitem).toPushable
      s' s.iteration? hinv'.1 hinv'.2.1
    exact ⟨⟨hfit, hheld, hinv.2.2.same hsame.unlooped_of_uncounted⟩, hsame, hmay.2.trans hspares⟩

end Discipline

end KeepTree
