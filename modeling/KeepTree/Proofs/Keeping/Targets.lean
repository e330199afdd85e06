import KeepTree.Proofs.Keeping.ReadBack
import KeepTree.Proofs.Keeping.Sparing

/-!
# Where a put goes

A value is put into the slot that the top frame has for its key. If its definition is durable, and the
key is the definition's name, it also goes to the durable table. And it is passed on to the nearest
frame whose definition owns its definition. These slots are all that a put changes:

* `Workspace.put_fills_exactly` -- **so it is in every reachable workspace**.
-/

namespace KeepTree

open DottedName List

variable {entry : Entry} {s : Session} {ns : Namespace} {frame : Frame} {key : String}
  {holder : Holder} {d : Definition} {l : Location} {top : FrameId}

/-! ## 1. Slots that are filled -/

namespace Store

variable {store store' store'' : Store} {slots slots' : List Location}

/-- Outside of these slots, the tables hold the same; the keep maps are the same. -/
structure SameBut (slots : List Location) (store store' : Store) : Prop where
  size_le : store.tables.size ≤ store'.tables.size
  pointer?_eq : ∀ k name, store'.pointer? k name = store.pointer? k name
  at?_eq : ∀ l, l ∉ slots → store'.at? l = store.at? l

theorem SameBut.mono (h : store.SameBut slots store') (hslots : slots ⊆ slots') :
    store.SameBut slots' store' :=
  ⟨h.size_le, h.pointer?_eq, fun l hl => h.at?_eq l fun hmem => hl (hslots hmem)⟩

/-- The entry was put into these slots, and into no other. -/
structure Fills (entry : Entry) (slots : List Location) (store store' : Store) : Prop extends
    store.SameBut slots store' where
  filled : ∀ l ∈ slots, store'.at? l = some entry

theorem Fills.at?_eq_if (h : store.Fills entry slots store') (l : Location) :
    store'.at? l = if l ∈ slots then some entry else store.at? l := by
  split
  · exact h.filled l ‹_›
  · exact h.at?_eq l ‹_›

theorem Fills.refl (entry : Entry) (store : Store) : store.Fills entry [] store :=
  ⟨⟨Nat.le_refl _, fun _ _ => rfl, fun _ _ => rfl⟩, nofun⟩

theorem Fills.trans (h : store.Fills entry slots store') (h' : store'.Fills entry slots' store'') :
    store.Fills entry (slots ++ slots') store'' where
  size_le := Nat.le_trans h.size_le h'.size_le
  pointer?_eq k name := (h'.pointer?_eq k name).trans (h.pointer?_eq k name)
  at?_eq l hl := by
    rw [mem_append, not_or] at hl
    exact (h'.at?_eq l hl.2).trans (h.at?_eq l hl.1)
  filled l hl := by
    by_cases hlast : l ∈ slots'
    · exact h'.filled l hlast
    · exact (h'.at?_eq l hlast).trans (h.filled l ((mem_append.mp hl).resolve_right hlast))

theorem set_fills (hlt : l.table < store.tables.size) (entry : Entry) :
    store.Fills entry [l] (store.set l entry) where
  size_le := store.le_size_set l entry
  pointer?_eq _ _ := rfl
  at?_eq other hoth := by
    refine get?_write_of_ne store ?_ entry
    by_cases ht : other.table = l.table
    · refine .inr fun hkey => hoth (mem_singleton.mpr ?_)
      exact Location.mk.injEq .. ▸ ⟨ht, hkey⟩
    · exact .inl ht
  filled other hoth := by
    obtain rfl := mem_singleton.mp hoth
    exact get?_write_self store hlt other.key entry

theorem fills_of_at? (hat : store.at? l = some entry) : store.Fills entry [l] store where
  size_le := Nat.le_refl _
  pointer?_eq _ _ := rfl
  at?_eq _ _ := rfl
  filled _ hoth := mem_singleton.mp hoth ▸ hat

end Store

theorem Engine.Grown.fills {e e' : Engine} (h : e.Grown e') (entry : Entry) :
    e.store.Fills entry [] e'.store where
  size_le := h.larger.size_le
  pointer?_eq := h.pointer?_eq
  at?_eq l _ := by
    by_cases ht : l.table < e.store.tables.size
    · exact h.larger.get?_eq ht
    · have hle := Nat.le_of_not_lt ht
      exact (h.larger.empty hle).trans (Store.get?_of_size_le hle l.key).symm
  filled := nofun

/-! ## 2. The durable slot -/

/-- The slot of the durable table for a definition's own value. -/
def Engine.durableSlot? (e : Engine) (d : Definition) (key : String) (iteration : Option Nat) :
    Option Location :=
  if d.isGlobal && d.name == key then
    some ⟨(e.durableTable d).1, inLoop d.fullName iteration⟩
  else none

theorem Engine.durableSlot?_set (e : Engine) (l : Location) (entry : Entry) (d : Definition)
    (key : String) (iteration : Option Nat) :
    (e.withStore (e.store.set l entry)).durableSlot? d key iteration =
      e.durableSlot? d key iteration := by
  have hsite : ∀ site, ((e.withStore (e.store.set l entry)).siteTable site).1 =
      (e.siteTable site).1 := by
    intro site
    have hsites : (e.withStore (e.store.set l entry)).sites = e.sites := rfl
    unfold siteTable
    rw [hsites]
    split
    · rfl
    · simp [Store.newTable, withStore, Store.set, Store.write]
  have htab : ((e.withStore (e.store.set l entry)).durableTable d).1 = (e.durableTable d).1 := by
    unfold durableTable
    split
    · exact hsite _
    · rfl
  rw [durableSlot?, durableSlot?, htab]

/-- Whom a value of the definition is passed on to: its owner, unless it is for the owner only. -/
def Definition.passesTo? (d : Definition) : Option DefId :=
  match d.access with
  | .ownerOnly => none
  | _ => d.owner

namespace Session

variable {s' : Session} {rest : List Stack} {e e' : Engine} {levels : Option Nat} {owner : DefId}

theorem putDurable_fills (hdir : e.Direct ns) (d : Definition) (key : String)
    (iter : Option Nat) (entry : Entry) :
    e.store.Fills entry (e.durableSlot? d key iter).toList
      (putDurable e d key iter entry).store := by
  unfold putDurable Engine.durableSlot?
  split
  · obtain ⟨hgrown, hhome⟩ := Engine.durableTable_grows e d
    have hlt := (hgrown.ranged hdir.toRanged).lt (Engine.durable_of_home? hhome)
    exact (hgrown.fills entry).trans (Store.set_fills
      (l := ⟨(e.durableTable d).1, inLoop d.fullName iter⟩) hlt entry)
  · exact .refl entry e.store

/-! ## 3. The owner's slot -/

/-- The definition of a frame is `owner` or inherits from it. -/
def isOf (ns : Namespace) (owner : DefId) (entry : FrameId × Frame) : Bool :=
  (ns.inherits entry.2.definition owner).toOption == some true

/-- How many frames below the top the nearest one is whose definition is `owner` or inherits from
    it. -/
def ownerDepth? (s : Session) (owner : DefId) : Option Nat := s.frames.findIdx? (isOf s.ns owner)

/-- The slot that a value is passed on to: where the nearest frame of its owner keeps the name of its
    definition, in the iteration of that frame. The frame is not the top one, and at most `levels`
    frames below. -/
def mirrorSlot? (s : Session) (d : Definition) (levels : Option Nat) : Option Location := do
  let owner ← d.passesTo?
  let depth ← s.ownerDepth? owner
  let (_, keeper) ← s.frames[depth]?
  let pointer ← keeper.keepPointer? s.store d.name
  if 0 < depth ∧ levels.all (depth ≤ ·) then some (pointer.location keeper.iteration) else none

/-- The slots that a put fills. -/
def putSlots (s : Session) (frame : Frame) (d : Definition) (key : String) (levels : Option Nat) :
    List Location :=
  frame.slot s.store key :: (s.engine.durableSlot? d key frame.iteration).toList ++
    (s.mirrorSlot? d levels).toList

theorem nearestOf_eq : ∀ {reach : List (FrameId × Frame)} {found : Option (FrameId × Frame)},
    nearestOf ns owner reach = .ok found → found = reach.find? (isOf ns owner)
  | [], found, h => (Except.ok.inj h).symm
  | (id, frame) :: rest, found, h => by
    unfold nearestOf at h
    rw [find?_cons]
    cases hinherits : ns.inherits frame.definition owner with
    | error gap => simp [hinherits] at h
    | ok answer =>
      cases answer with
      | true =>
        simp only [hinherits, Except.ok.injEq] at h
        simp [isOf, hinherits, Except.toOption, h]
      | false =>
        simp only [hinherits] at h
        simp only [isOf, hinherits, Except.toOption]
        exact nearestOf_eq h

theorem ownerFrame_eq {reach : List (FrameId × Frame)} {found : Option (FrameId × Frame)}
    (h : ownerFrame ns d reach = .ok found) :
    found = d.passesTo?.bind fun owner => reach.find? (isOf ns owner) := by
  unfold ownerFrame at h
  unfold Definition.passesTo?
  cases haccess : d.access with
  | ownerOnly =>
    simp only [haccess] at h
    exact (Except.ok.inj h).symm
  | _ =>
    cases howner : d.owner with
    | none =>
      simp only [haccess, howner] at h
      exact (Except.ok.inj h).symm
    | some owner =>
      simp only [haccess, howner] at h
      exact nearestOf_eq h

theorem find?_within (levels : Option Nat) (frames : List (FrameId × Frame))
    (p : FrameId × Frame → Bool) :
    (within levels frames).find? p =
      (frames.findIdx? p).bind fun depth => if levels.all (depth ≤ ·) then frames[depth]? else none := by
  rw [find?_eq_bind_findIdx?_getElem?]
  cases levels with
  | none => rfl
  | some n =>
    rw [within, findIdx?_take]
    cases frames.findIdx? p with
    | none => rfl
    | some depth =>
      by_cases hdepth : depth ≤ n
      · have hlt : depth < n + 1 := Nat.lt_succ_of_le hdepth
        have hall : (some n).all (depth ≤ ·) = true := decide_eq_true hdepth
        rw [Option.bind_some, Option.bind_some, Option.guard, if_pos (decide_eq_true hlt),
          Option.bind_some, getElem?_take, if_pos hlt, if_pos hall]
      · have hge : ¬ depth < n + 1 := fun hlt => hdepth (Nat.le_of_lt_succ hlt)
        have hall : ¬ (some n).all (depth ≤ ·) = true := fun h => hdepth (of_decide_eq_true h)
        rw [Option.bind_some, Option.bind_some, Option.guard,
          if_neg fun h => hge (of_decide_eq_true h), Option.bind_none, if_neg hall]

theorem frames_top_iff (hs : s.Fit ns rest) {id : FrameId} {keeper : Frame} {depth : Nat}
    (htop : s.stack.top = some top) (hdepth : s.frames[depth]? = some (id, keeper)) :
    id = top ↔ depth = 0 := by
  have hchain := frames_chain hs.sound
  obtain ⟨frame, hf⟩ := hs.top_live top htop
  have hfrs := frames_cons hs.sound htop hf
  constructor
  · intro hid
    subst hid
    cases depth with
    | zero => rfl
    | succ depth =>
      -- the same frame further down would be older than itself
      rw [hfrs, getElem?_cons_succ] at hdepth
      have hmem := mem_of_getElem? hdepth
      have hsame : s.frame? id = some keeper := hchain.get? (hfrs ▸ mem_cons_of_mem _ hmem)
      cases hf.symm.trans hsame
      have hage := hchain.state_lt hs.sound.accounted.toBalanced
      rw [hfrs] at hage
      exact absurd ((pairwise_cons.mp hage).1 _ hmem) (Nat.lt_irrefl _)
  · intro hzero
    subst hzero
    rw [hfrs] at hdepth
    exact (congrArg Prod.fst (Option.some.inj hdepth)).symm

theorem mirrorSlot?_eq (hs : s.Fit ns rest) (htop : s.stack.top = some top) (d : Definition)
    (levels : Option Nat) :
    ((d.passesTo?.bind fun owner => (within levels s.frames).find? (isOf s.ns owner)).bind
      (ownerPointer s.store d top)).map (fun (keeper, p) => p.location keeper.iteration) =
        s.mirrorSlot? d levels := by
  unfold mirrorSlot?
  cases d.passesTo? with
  | none => rfl
  | some owner =>
    simp only [Option.bind_some, Option.bind_eq_bind]
    rw [find?_within, ownerDepth?]
    cases s.frames.findIdx? (isOf s.ns owner) with
    | none => rfl
    | some depth =>
      cases hkeeper : s.frames[depth]? with
      | none => simp [hkeeper]
      | some entry =>
        obtain ⟨id, keeper⟩ := entry
        have hiff := frames_top_iff hs htop hkeeper
        simp only [hkeeper, Option.bind_some]
        by_cases hreach : levels.all (depth ≤ ·) = true
        · rw [if_pos hreach, Option.bind_some, ownerPointer]
          by_cases hzero : depth = 0
          · simp [hiff.mpr hzero, hzero]
          · have hid : id ≠ top := fun h => hzero (hiff.mp h)
            have hpos : 0 < depth := Nat.pos_of_ne_zero hzero
            rw [if_neg hid]
            cases keeper.keepPointer? s.store d.name with
            | none => rfl
            | some p => simp [hpos, hreach]
        · rw [if_neg hreach]
          cases keeper.keepPointer? s.store d.name with
          | none => rfl
          | some p => simp [hreach]

/-! ## 4. Putting -/

theorem passOnTo_fills (hdir : e.Direct ns) {written : Location}
    (hwritten : e.store.at? written = some entry) {target : Option (Frame × Pointer)}
    (hlt : ∀ keeper p, target = some (keeper, p) → p.table < e.store.tables.size)
    (h : passOnTo e written entry target = .ok e') :
    e.store.Fills entry (target.map fun (keeper, p) => p.location keeper.iteration).toList
      e'.store := by
  cases target with
  | none =>
    cases h
    exact .refl entry e.store
  | some target =>
    obtain ⟨keeper, p⟩ := target
    simp only [passOnTo, passOn] at h
    by_cases hsame : p.location keeper.iteration = written
    · rw [if_pos hsame] at h
      cases h
      have hat : e.store.at? (p.location keeper.iteration) = some entry := hsame ▸ hwritten
      exact Store.fills_of_at? hat
    · rw [if_neg hsame] at h
      rcases Nat.eq_zero_or_pos e.limits.maxPointerHops with hzero | hhops
      · rw [hzero] at h
        cases h
      · rw [hdir.writeThrough_eq keeper.iteration hhops] at h
        cases h
        exact Store.set_fills (hlt keeper p rfl) entry

theorem ownerPointer_eq {store store' : Store}
    (h : ∀ k name, store'.pointer? k name = store.pointer? k name)
    (d : Definition) (top : FrameId) : ownerPointer store' d top = ownerPointer store d top := by
  funext entry
  rw [ownerPointer, ownerPointer, Frame.keepPointer?, Frame.keepPointer?, h]

/-- The engine after a value was put into the top frame and into the durable table. -/
def putHere (s : Session) (frame : Frame) (d : Definition) (key : String) (holder : Holder) : Engine :=
  putDurable (s.engine.withStore (s.store.set (frame.slot s.store key) (.holder holder))) d key
    frame.iteration (.holder holder)

theorem putHere_fills (hheld : s.Upheld (.lodging ns)) (hfr : s.topFrame? = some frame)
    (d : Definition) (key : String) (holder : Holder) :
    s.store.Fills (.holder holder)
      (frame.slot s.store key :: (s.engine.durableSlot? d key frame.iteration).toList)
      (s.putHere frame d key holder).store := by
  have hdir := hheld.engine.toDirect.holder (frame.slot s.store key) holder
  have hprimary := Store.set_fills (slot_lt hheld hfr key) (.holder holder)
  have hdur := putDurable_fills hdir d key frame.iteration (.holder holder)
  rw [Engine.durableSlot?_set] at hdur
  exact hprimary.trans hdur

/-- **What is passed on to the owner goes to the mirror slot.** -/
theorem passOnToOwner_fills (hs : s.Fit ns rest) (hheld : s.Upheld (.lodging ns))
    (htop : s.stack.top = some top) (hf : s.frame? top = some frame) {passed : Engine}
    (h : passOnToOwner (s.putHere frame d key holder) (frame.slot s.store key) (.holder holder) d top
      (within levels s.frames) = .ok passed) :
    s.store.Fills (.holder holder) (s.putSlots frame d key levels) passed.store := by
  have hhere := putHere_fills hheld (topFrame?_eq htop hf) d key holder
  have hdir : (s.putHere frame d key holder).Direct ns :=
    putDurable_direct (hheld.engine.toDirect.holder (frame.slot s.store key) holder) d key
      frame.iteration holder
  unfold passOnToOwner at h
  split at h
  · cases h
  rename_i found howner
  rw [hdir.ns_eq, ← hs.ns_eq] at howner
  -- the owner keeps the name where it did before
  rw [ownerFrame_eq howner, ownerPointer_eq hhere.pointer?_eq] at h
  have hmirror := passOnTo_fills hdir (hhere.filled _ mem_cons_self)
    (fun keeper p htgt => by
      obtain ⟨found, -, hkept⟩ := ownerPointer_kept htgt
      exact Nat.lt_of_lt_of_le (hheld.engine.pointer_lt hkept) hhere.size_le) h
  rw [mirrorSlot?_eq hs htop] at hmirror
  exact hhere.trans hmirror

/-- **How a put under a key without dots comes out.** It does nothing; or it ends before the value is
    passed on; or it fills all its slots. -/
theorem putWithin_cases (hs : s.Fit ns rest) (hheld : s.Upheld (.lodging ns))
    (hfr : s.topFrame? = some frame) (hkey : isDotted key = false)
    (hd : ns.get? holder.nominal = some d) (levels : Option Nat) :
    (∃ fault, s.putWithin key holder levels = (.error fault, s)) ∨
      (∃ fault, s.putWithin key holder levels =
        (.error fault, s.withEngine (s.putHere frame d key holder))) ∨
      ∃ engine, s.putWithin key holder levels =
          (.ok (frame.slot s.store key), s.withEngine engine) ∧
        s.store.Fills (.holder holder) (s.putSlots frame d key levels) engine.store := by
  obtain ⟨top, htop, hf⟩ := Option.bind_eq_some_iff.mp hfr
  have hfind : s.ns.find holder.nominal = .ok d := by
    rw [hs.ns_eq, Namespace.find, hd]
  simp only [putWithin, top_eq_ok.mpr ⟨htop, hf⟩, hfind]
  cases hput : putInFrame s.store s.limits.maxPointerHops frame key (.holder holder) with
  | error fault => exact .inl ⟨fault, rfl⟩
  | ok written =>
    obtain ⟨slot, store⟩ := written
    obtain ⟨hslot, hsto, -⟩ := putInFrame_slot hheld.engine.toDirect hput
    obtain rfl : slot = frame.slot s.store key := hslot
    obtain rfl : store = s.store.set (frame.slot s.store key) (.holder holder) := hsto
    cases hpass : passOnToOwner (s.putHere frame d key holder) (frame.slot s.store key)
        (.holder holder) d top (within levels s.frames) with
    | error fault =>
      rw [putHere] at hpass
      exact .inr (.inl ⟨fault, by simp only [hpass, putHere]⟩)
    | ok passed =>
      have hfills := passOnToOwner_fills hs hheld htop hf hpass
      have hcontainer : containerPointer passed.store key (within levels s.frames) = none := by
        rw [containerPointer, splitHead?_eq_none hkey]
        rfl
      rw [putHere] at hpass
      exact .inr (.inr ⟨passed, by simp only [hpass, hcontainer, passOnTo], hfills⟩)

/-- **A put fills the slot of the top frame, that of the durable table and that of the owner.** -/
theorem putWithin_fills (h : s.Direct ns rest) (hcl : ns.Closed) (hfr : s.topFrame? = some frame)
    (hkey : isDotted key = false) (hd : ns.get? holder.nominal = some d) (levels : Option Nat) :
    ∃ engine, s.putWithin key holder levels = (.ok (frame.slot s.store key), s.withEngine engine) ∧
    s.store.Fills (.holder holder) (s.putSlots frame d key levels) engine.store := by
  have hok : ∃ slot, (s.putWithin key holder levels).1 = .ok slot := by
    rcases putWithin_outcome h.fit h.engine h.hops key holder levels with
      hok | ⟨hempty, _⟩ | ⟨gap, hunknown, _⟩ | ⟨_, hbroken, _⟩
    · exact hok
    · rw [topFrame?, hempty] at hfr
      cases hfr
    · rw [Namespace.find, hd] at hunknown
      cases hunknown
    · exact absurd hcl hbroken
  obtain ⟨slot, hok⟩ := hok
  rcases putWithin_cases h.fit h.lodged hfr hkey hd levels with
    ⟨fault, hflt⟩ | ⟨fault, hflt⟩ | hfills
  · rw [hflt] at hok
    cases hok
  · rw [hflt] at hok
    cases hok
  · exact hfills

end Session

namespace Workspace

variable {ns : Namespace} {limits : Limits} {w : Workspace} {name key : String} {s : Session}
  {frame : Frame} {holder : Holder} {d : Definition}

/-- **What a put changes.** In a reachable workspace let a value be put under a key without dots. The
    put succeeds, and it names the slot that the top frame has for the key. The slots that now hold the
    value are this one; that of the durable table, if the value's definition is durable and the key is
    its name; and, if the definition has an owner and is not for that owner only, the one where the
    nearest frame of the owner keeps the definition's name, if this frame is not the top one and is
    within reach. All other slots, all keep maps and all frames are as before. -/
theorem put_fills_exactly (hw : w.Reachable ns limits) (hs : w.session? name = some s)
    (hclosed : ns.Closed) (hhops : 0 < limits.maxPointerHops) (hframe : s.topFrame? = some frame)
    (hkey : DottedName.isDotted key = false) (hd : ns.get? holder.nominal = some d)
    (levels : Option Nat) :
    ∃ s', s.putWithin key holder levels = (.ok (frame.slot s.store key), s') ∧
      (∀ l, s'.store.at? l = if l ∈ s.putSlots frame d key levels then some (.holder holder)
        else s.store.at? l) ∧
      (∀ k kept, s'.store.pointer? k kept = s.store.pointer? k kept) ∧
      s'.family = s.family ∧ s'.stack = s.stack := by
  obtain ⟨rest, hdirect⟩ := hw.direct hhops hs
  obtain ⟨engine, hput, hfills⟩ := Session.putWithin_fills hdirect hclosed hframe hkey hd levels
  exact ⟨s.withEngine engine, hput, hfills.at?_eq_if, hfills.pointer?_eq, rfl, rfl⟩

/-- A menu that outlives the frames. -/
def tavernMenu : Definition :=
  { name := "menu", fullName := "hall.menu", owner := some 0, durability := .cosmic }

/-- A tavern whose hall keeps the menu, and a desk in the hall. -/
def tavern : Namespace where
  definitions := #[
    { name := "hall", fullName := "hall", children := Dictionary.empty.insert "menu" 1
      keeps := [{ target := "menu" }] },
    tavernMenu,
    { name := "desk", fullName := "desk" }]
  roots := (Dictionary.empty.insert "hall" 0).insert "desk" 2

def tavernHall : Session := (Session.push ⟨.new tavern {}, .new 0 {}, {}⟩ 0 [] true).2

def tavernSeated : Session := (tavernHall.push 2 [] true).2

/-- A stack with the desk above the hall, the desk in a loop. -/
def tavernDesk : Session := tavernSeated.setIteration (some 0)

def tavernSoup : Holder := .of 1 [] (some (.text "soup"))

/-- The desk, the durable table in the desk's iteration, and where the hall keeps the menu. -/
def tavernSlots : List Location := [⟨2, "menu#0"⟩, ⟨0, "hall.menu#0"⟩, ⟨0, "hall.menu"⟩]

theorem put_fills_exactly_tavern : ∃ s', tavernDesk.putWithin "menu" tavernSoup (some 1) =
      (.ok ⟨2, "menu#0"⟩, s') ∧
    ∀ l, s'.store.at? l = if l ∈ tavernSlots then some (.holder tavernSoup)
      else tavernDesk.store.at? l := by
  obtain ⟨w, hw, hs⟩ : ∃ w, Reachable tavern {} w ∧ w.session? "main" = some tavernDesk :=
    reachable_of_moves (.tail (.tail (.single (.push 0 [] true)) (.push 2 [] true))
      (.setIteration (some 0)))
  obtain ⟨frame, hframe, hread⟩ := (Option.any_eq_true (fun top : Frame =>
    top.slot tavernDesk.store "menu" = ⟨2, "menu#0"⟩ ∧
      tavernDesk.putSlots top tavernMenu "menu" (some 1) = tavernSlots) tavernDesk.topFrame?).mp
    (by decide +kernel)
  obtain ⟨hslot, hslots⟩ := of_decide_eq_true hread
  have hkey : DottedName.isDotted "menu" = false := by decide +kernel
  have hd : tavern.get? tavernSoup.nominal = some tavernMenu := rfl
  obtain ⟨s', hput, hat, -⟩ := put_fills_exactly hw hs
    (Namespace.closed_of_isClosed (by decide +kernel)) (by decide) hframe hkey hd (some 1)
  rw [hslot] at hput
  rw [hslots] at hat
  exact ⟨s', hput, hat⟩

end Workspace

end KeepTree
