import KeepTree.Proofs.Keeping.Runs

/-!
# Reading back what was put

A value is put where the top frame keeps its key, and into the frame's own cache only if the key is
not kept. It is looked up in the cache first. So it is read back unless the cache holds something
under a key that is kept elsewhere:

* `Workspace.put_read_back` -- **what is put is read back, unless it is hidden**.
-/

namespace KeepTree

variable {store store' : Store} {entry : Entry} {ns : Namespace} {frame f : Frame} {key : String}
  {holder : Holder} {value : Value} {written l : Location} {p : Pointer} {limit : Nat}

/-! ## 1. Stores that take an entry -/

namespace Store

variable {store'' : Store}

/-- The entry was put into some slots. Tables may have been added. -/
structure Takes (entry : Entry) (store store' : Store) : Prop where
  keepMaps_le : store.keepMaps.size ≤ store'.keepMaps.size
  pointer?_eq : ∀ k name, store'.pointer? k name = store.pointer? k name
  get?_eq : ∀ t key, store'.get? t key = store.get? t key ∨ store'.get? t key = some entry

theorem Takes.refl (entry : Entry) (store : Store) : store.Takes entry store :=
  ⟨Nat.le_refl _, fun _ _ => rfl, fun _ _ => .inl rfl⟩

theorem Takes.trans (h : store.Takes entry store') (h' : store'.Takes entry store'') :
    store.Takes entry store'' where
  keepMaps_le := Nat.le_trans h.keepMaps_le h'.keepMaps_le
  pointer?_eq k name := (h'.pointer?_eq k name).trans (h.pointer?_eq k name)
  get?_eq t key := by
    rcases h'.get?_eq t key with heq | htaken
    · rw [heq]
      exact h.get?_eq t key
    · exact .inr htaken

theorem takes_set (store : Store) (l : Location) (entry : Entry) :
    store.Takes entry (store.set l entry) where
  keepMaps_le := Nat.le_refl _
  pointer?_eq _ _ := rfl
  get?_eq t key := by
    by_cases hslot : t = l.table ∧ key = l.key
    · obtain ⟨rfl, rfl⟩ := hslot
      by_cases hlt : l.table < store.tables.size
      · exact .inr (get?_write_self store hlt l.key entry)
      · left
        rw [get?_of_size_le (Nat.le_of_not_lt hlt)]
        exact get?_of_size_le (by simpa [set, write] using hlt) l.key
    · refine .inl (get?_write_of_ne store ?_ entry)
      exact Decidable.not_and_iff_or_not.mp hslot

end Store

theorem Engine.Grown.takes {e e' : Engine} (h : e.Grown e') (entry : Entry) :
    e.store.Takes entry e'.store where
  keepMaps_le := h.keepMaps_le
  pointer?_eq := h.pointer?_eq
  get?_eq t key := by
    left
    by_cases ht : t < e.store.tables.size
    · exact h.larger.get?_eq ht
    · have hle := Nat.le_of_not_lt ht
      rw [h.larger.empty hle, Store.get?_of_size_le hle]

/-! ## 2. The slot of a key -/

namespace Frame

/-- The slot that a frame has for a key: where the key is kept, or else in the cache. -/
def slot (f : Frame) (store : Store) (key : String) : Location :=
  match f.keepPointer? store key with
  | some p => p.location f.iteration
  | none => f.ownSlot key

theorem slot_of_kept (h : f.keepPointer? store key = some p) :
    f.slot store key = p.location f.iteration := by
  rw [slot, h]

theorem slot_of_unkept (h : f.keepPointer? store key = none) :
    f.slot store key = f.ownSlot key := by
  rw [slot, h]

/-- The key is kept in a slot apart from the cache, and the cache holds an entry under it. -/
def Hides (f : Frame) (store : Store) (key : String) (entry : Entry) : Prop :=
  f.slot store key ≠ f.ownSlot key ∧ f.cached? store key = some entry

end Frame

namespace Session

variable {s s' : Session} {rest : List Stack} {e e' : Engine} {levels : Option Nat}

/-! ## 3. Putting -/

theorem putInFrame_slot (hdir : e.Direct ns)
    (h : putInFrame e.store limit frame key entry = .ok (l, store)) : l = frame.slot e.store key ∧
    store = e.store.set l entry ∧ ((frame.keepPointer? e.store key).isSome → 0 < limit) := by
  unfold putInFrame at h
  split at h
  · rename_i p hkept
    rw [Frame.slot_of_kept hkept]
    cases limit with
    | zero => cases h
    | succ limit =>
      rw [hdir.writeThrough_eq frame.iteration (Nat.succ_pos limit)] at h
      cases h
      exact ⟨rfl, rfl, fun _ => Nat.succ_pos limit⟩
  · rename_i hkept
    rw [Frame.slot_of_unkept hkept]
    simp only at h
    split at h
    · rename_i p hat
      exact absurd hat hdir.no_pointer
    · cases h
      exact ⟨rfl, rfl, by simp [hkept]⟩

theorem writeThrough_takes {iter : Option Nat}
    (h : store.writeThrough iter limit p entry = .ok (l, store')) : store.Takes entry store' := by
  unfold Store.writeThrough at h
  split at h
  · cases h
    exact store.takes_set _ entry
  · cases h

theorem putInFrame_takes (h : putInFrame store limit frame key entry = .ok (l, store')) :
    store.Takes entry store' := by
  unfold putInFrame at h
  split at h
  · exact writeThrough_takes h
  · simp only at h
    split at h
    · exact writeThrough_takes h
    · cases h
      exact store.takes_set _ entry

theorem putDurable_takes (e : Engine) (d : Definition) (key : String) (iter : Option Nat)
    (entry : Entry) : e.store.Takes entry (putDurable e d key iter entry).store := by
  unfold putDurable
  split
  · refine ((Engine.durableTable_grows e d).1.takes entry).trans ?_
    exact Store.takes_set _ ⟨(e.durableTable d).1, DottedName.inLoop d.fullName iter⟩ entry
  · exact .refl entry e.store

theorem passOnTo_takes {target : Option (Frame × Pointer)}
    (h : passOnTo e written entry target = .ok e') : e.store.Takes entry e'.store := by
  unfold passOnTo at h
  split at h
  · cases h
    exact .refl entry e.store
  · rename_i keeper p
    unfold passOn at h
    split at h
    · cases h
      exact .refl entry e.store
    · cases hwrite : e.store.writeThrough keeper.iteration e.limits.maxPointerHops p entry with
      | error fault => simp [hwrite, Except.map] at h
      | ok result =>
        simp only [hwrite, Except.map, Except.ok.injEq] at h
        subst h
        exact writeThrough_takes hwrite

theorem passOnToOwner_takes {d : Definition} {top : FrameId} {reach : List (FrameId × Frame)}
    (h : passOnToOwner e written entry d top reach = .ok e') : e.store.Takes entry e'.store := by
  unfold passOnToOwner at h
  split at h
  · cases h
  · exact passOnTo_takes h

/-- **A put puts the value into some slots**, and into no slot anything else, however it comes out. -/
theorem putWithin_takes (s : Session) (key : String) (holder : Holder) (levels : Option Nat) :
    s.store.Takes (.holder holder) (s.putWithin key holder levels).2.store := by
  unfold putWithin
  split
  · exact .refl _ s.store
  · exact .refl _ s.store
  · rename_i top frame d _ _
    simp only
    split
    · exact .refl _ s.store
    · rename_i written store hput
      have hdur := (putInFrame_takes hput).trans (putDurable_takes (s.engine.withStore store) d key
        frame.iteration (.holder holder))
      split
      · exact hdur
      · rename_i engine howner
        have hpass := hdur.trans (passOnToOwner_takes howner)
        split
        · exact hpass
        · rename_i engine' hcontainer
          exact hpass.trans (passOnTo_takes hcontainer)

/-- What a put leaves that goes well. -/
structure Took (s : Session) (frame : Frame) (key : String) (holder : Holder) (s' : Session) :
    Prop where
  engine_eq : ∃ engine, s.engine.Steady engine ∧ s' = s.withEngine engine
  takes : s.store.Takes (.holder holder) s'.store
  slot_eq : s'.store.at? (frame.slot s.store key) = some (.holder holder)
  hops : (frame.keepPointer? s.store key).isSome → 0 < s.limits.maxPointerHops

theorem slot_lt (hheld : s.Upheld (.lodging ns)) (hfr : s.topFrame? = some frame) (key : String) :
    (frame.slot s.store key).table < s.store.tables.size := by
  cases hkept : frame.keepPointer? s.store key with
  | some p =>
    rw [Frame.slot_of_kept hkept]
    exact hheld.engine.pointer_lt hkept
  | none =>
    rw [Frame.slot_of_unkept hkept]
    exact (hheld.topFrame hfr).cache

/-- **A put that goes well** puts the value into the slot that the top frame has for the key. -/
theorem putWithin_took (hheld : s.Upheld (.lodging ns)) (hfr : s.topFrame? = some frame)
    (h : s.putWithin key holder levels = (.ok written, s')) : s.Took frame key holder s' := by
  obtain ⟨engine, hstd, heng⟩ := putWithin_effect s key holder levels
  have htakes := putWithin_takes s key holder levels
  rw [h] at heng htakes
  obtain ⟨top, htop, hf⟩ := Option.bind_eq_some_iff.mp hfr
  have hlt := slot_lt hheld hfr key
  unfold putWithin at h
  rw [top_eq_ok.mpr ⟨htop, hf⟩] at h
  cases hd : s.ns.find holder.nominal with
  | error gap => simp [hd] at h
  | ok d =>
    simp only [hd] at h
    split at h
    · cases h
    rename_i slot store hput
    obtain ⟨rfl, rfl, hhops⟩ := putInFrame_slot hheld.engine.toDirect hput
    have hat : (s.store.set (frame.slot s.store key) (.holder holder)).at? (frame.slot s.store key) =
      some (.holder holder) := Store.get?_write_self s.store hlt _ _
    split at h
    · cases h
    rename_i owned howner
    split at h
    · cases h
    rename_i passed hpass
    have hmore := ((putDurable_takes _ d key frame.iteration _).trans
      (passOnToOwner_takes howner)).trans (passOnTo_takes hpass)
    obtain ⟨_, rfl⟩ := Prod.mk.inj h
    exact ⟨⟨engine, hstd, heng⟩, htakes,
      (hmore.get?_eq _ _).elim (fun heq => heq.trans hat) id, hhops⟩

theorem put_lodges {result : Except Fault Location} (h : s.put key holder = (result, s')) :
    s.Upholds (.lodging ns) ns rest s' := by
  have hput : s.Upholds (.lodging ns) ns rest (s.put key holder).2 :=
    putWithin_upholds (Upkeep.lodging_open ns) s key holder s.limits.propagationLevels
  rwa [h] at hput

/-! ## 4. Looking up -/

section

variable (hs : s.Fit ns rest) (hdir : s.engine.Direct ns) (hfr : s.topFrame? = some frame)
  (hyields : yields ns frame.definition { key } entry = some value)
include hs hdir hfr hyields

theorem get_cached (hcached : frame.cached? s.store key = some entry) :
    (s.get key).1 = .ok (some value) := by
  have hent : entryIn s.store key frame = some entry := by rw [entryIn, hcached]
  have hrsv : (s.resolve frame.definition { key } entry frame.iteration).1 = .ok (some value) := by
    rw [resolve_entry (fun p hp => hdir.no_pointer (hp ▸ hcached)), hs.ns_eq, hyields]
  rw [get, lookup_result, find_in_top hfr hs rfl hent hrsv, hrsv]

theorem get_kept (hhops : 0 < s.limits.maxPointerHops) (hcached : frame.cached? s.store key = none)
    (hkept : frame.keepPointer? s.store key = some p)
    (hat : s.store.at? (p.location frame.iteration) = some entry) :
    (s.get key).1 = .ok (some value) := by
  have hent : entryIn s.store key frame = some (.pointer p) := by rw [entryIn, hcached, hkept]; rfl
  have hrsv : (s.resolve frame.definition { key } (.pointer p) frame.iteration).1 = .ok (some value) := by
    rw [resolve_pointer hdir hhops, hat, Option.bind_some, hs.ns_eq, hyields]
  rw [get, lookup_result, find_in_top hfr hs rfl hent hrsv, hrsv]

end

/-! ## 5. Reading back -/

theorem yields_holder (hdata : holder.data = some value)
    (hsees : sees ns frame.definition holder = true) :
    yields ns frame.definition { key } (.holder holder) = some value := by
  simp [yields, hsees, Request.matches?, hdata]

theorem Took.get (h : s.Took frame key holder s') (hs : s'.Fit ns rest)
    (hdir : s'.engine.Direct ns) (hfr : s'.topFrame? = some frame)
    (hdata : holder.data = some value) (hsees : sees ns frame.definition holder = true)
    (hshown : ∀ entry, ¬ frame.Hides s.store key entry) : (s'.get key).1 = .ok (some value) := by
  have hyields : yields ns frame.definition { key } (.holder holder) = some value :=
    yields_holder hdata hsees
  cases hcached : frame.cached? s'.store key with
  | some entry =>
    refine get_cached hs hdir hfr ?_ hcached
    suffices entry = .holder holder by rw [this, hyields]
    by_cases hown : frame.slot s.store key = frame.ownSlot key
    · have hat := h.slot_eq
      rw [hown] at hat
      exact Option.some.inj (hcached.symm.trans hat)
    · rcases h.takes.get?_eq frame.cache (frame.slotKey key) with heq | htaken
      · exact absurd ⟨hown, heq.symm.trans hcached⟩ (hshown entry)
      · exact Option.some.inj (hcached.symm.trans htaken)
  | none =>
    cases hkept : frame.keepPointer? s.store key with
    | none =>
      have hat := h.slot_eq
      rw [Frame.slot_of_unkept hkept] at hat
      exact absurd (hcached.symm.trans hat) nofun
    | some p =>
      have hat := h.slot_eq
      rw [Frame.slot_of_kept hkept] at hat
      obtain ⟨engine, hstd, rfl⟩ := h.engine_eq
      have hhops : 0 < (s.withEngine engine).limits.maxPointerHops := by
        rw [limits, withEngine, hstd.limits_eq]
        exact h.hops (by rw [hkept]; rfl)
      exact get_kept hs hdir hfr hyields hhops hcached ((h.takes.pointer?_eq _ _).trans hkept) hat

end Session

namespace Workspace

variable {ns : Namespace} {limits : Limits} {w : Workspace} {name key : String} {s s' : Session}
  {frame : Frame} {holder : Holder} {value : Value} {written : Location}

/-- **What is put is read back, unless it is hidden.** In a reachable workspace let a value that the
    top frame sees be put. If the cache of the frame does not hide the slot that the frame has for the
    key, a lookup of the key finds the value. If it does, and what it holds there yields a value, a
    lookup finds that one; but the put may have been passed on to this very slot of the cache. -/
theorem put_read_back (hw : w.Reachable ns limits) (hs : w.session? name = some s)
    (hframe : s.topFrame? = some frame) (hput : s.put key holder = (.ok written, s'))
    (hdata : holder.data = some value) (hsees : Session.sees ns frame.definition holder = true) :
    ((∀ entry, ¬ frame.Hides s.store key entry) → (s'.get key).1 = .ok (some value)) ∧
    ∀ entry stale, frame.Hides s.store key entry →
      Session.yields ns frame.definition { key } entry = some stale →
      (frame.cached? s'.store key = some entry ∧ (s'.get key).1 = .ok (some stale)) ∨
        (frame.cached? s'.store key = some (.holder holder) ∧ (s'.get key).1 = .ok (some value)) := by
  obtain ⟨rest, hfit⟩ := hw.fit hs
  have hheld := (hw.lodged.session hs).1
  have htook := Session.putWithin_took hheld hframe hput
  obtain ⟨engine, hsteady, rfl⟩ := htook.engine_eq
  obtain ⟨hfit', hheld', _⟩ := Session.put_lodges hput hfit hheld
  have hdirect : (s.withEngine engine).engine.Direct ns := hheld'.engine.toDirect
  refine ⟨htook.get hfit' hdirect hframe hdata hsees, fun entry stale hhides hyields => ?_⟩
  rcases htook.takes.get?_eq frame.cache (frame.slotKey key) with heq | htaken
  · have hcached : frame.cached? (s.withEngine engine).store key = some entry :=
      heq.trans hhides.2
    exact .inl ⟨hcached, Session.get_cached hfit' hdirect hframe hyields hcached⟩
  · exact .inr ⟨htaken, Session.get_cached hfit' hdirect hframe
      (Session.yields_holder hdata hsees) htaken⟩

/-- A leaflet whose only page keeps its title, as its heading as well. -/
def leaflet : Namespace where
  definitions := #[
    { name := "page", fullName := "page", children := Dictionary.empty.insert "title" 1
      keeps := [{ target := "title", aliasName := some "heading" }] },
    { name := "title", fullName := "page.title", owner := some 0 }]
  roots := Dictionary.empty.insert "page" 0

/-- A stack with the page on top, in a loop. -/
def leafletPage : Session :=
  (Session.push ⟨.new leaflet {}, .new 0 {}, {}⟩ 0 [] true).2.setIteration (some 0)

def leafletTitle (text : String) : Holder := .of 1 [] (some (.text text))

def leafletPrinted : Session := (leafletPage.put "heading" (leafletTitle "News")).2

theorem put_read_back_leaflet : leafletPage.iteration? = some 0 ∧
    (leafletPrinted.get "heading").1 = .ok (some (.text "News")) := by
  obtain ⟨w, hw, hs⟩ : ∃ w, Reachable leaflet {} w ∧ w.session? "main" = some leafletPage :=
    reachable_of_moves (.tail (.single (.push 0 [] true)) (.setIteration (some 0)))
  obtain ⟨frame, hframe, hread⟩ := (Option.any_eq_true (fun top : Frame =>
    (top.cached? leafletPage.store "heading").isNone &&
      Session.sees leaflet top.definition (leafletTitle "News")) leafletPage.topFrame?).mp
    (by decide +kernel)
  obtain ⟨hnone, hsees⟩ := Bool.and_eq_true_iff.mp hread
  have hput : leafletPage.put "heading" (leafletTitle "News") =
      (.ok ⟨1, "title#0"⟩, leafletPrinted) := Prod.ext (by decide +kernel) rfl
  refine ⟨by decide +kernel, (put_read_back hw hs hframe hput rfl hsees).1 fun entry hhides => ?_⟩
  exact nomatch (Option.isNone_iff_eq_none.mp hnone).symm.trans hhides.2

/-- **A value bound under a kept name hides what is put there**, and so does one that was put before the
    name was kept: the lookup finds the old value. -/
theorem put_hidden :
    ((leafletPage.putValue "heading" (.text "old")).toOption.map fun bound =>
      let put := bound.put "heading" (leafletTitle "new")
      (put.1.isOk, (put.2.get "heading").1.toOption)) = some (true, some (some (.text "old"))) ∧
    (((leafletPage.put "cover" (leafletTitle "old")).2.addKeep
        { target := "title", aliasName := some "cover" }).toOption.map fun kept =>
      let put := kept.2.put "cover" (leafletTitle "new")
      (put.1.isOk, (put.2.get "cover").1.toOption, (put.2.get "title").1.toOption)) =
        some (true, some (some (.text "old")), some (some (.text "new"))) := by
  decide +kernel

end Workspace

end KeepTree
