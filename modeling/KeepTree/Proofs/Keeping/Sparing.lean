import KeepTree.Proofs.Keeping.Claims

/-!
# Tables that are spared

A stack puts values into the tables of its frames, and into those where its frames keep names. What it
can get at, it gets at through frames: its top frame, those it has set aside, the one on record as its
root, and the frames below all these. So if none of them gives access to some tables, the stack spares
them, whatever it does, and leaves all other frames alone:

* `MoveBy.confines` -- **moves that put values under keys without dots keep it so**.
-/

namespace KeepTree

open KeepTree.Frame DottedName

variable {ns : Namespace} {spared : TableId → Prop} {map : KeepMapId} {before engine : Engine}
  {rest : List Stack} {mine : FrameId → Prop} {entry : Entry} {frame : Frame} {id : FrameId}

/-! ## 1. Tables and keep maps that stay as they were -/

namespace Engine

variable {e e' : Engine}

/-- The tables that are spared hold what they did `before`, and so does the keep map. -/
structure SparesAll (ns : Namespace) (spared : TableId → Prop) (map : KeepMapId) (before e : Engine) :
    Prop extends e.Direct ns where
  isPrivate : ∀ {t}, spared t → e.Private t
  get?_eq : ∀ {t}, spared t → ∀ key, e.store.get? t key = before.store.get? t key
  map_lt : map < e.store.keepMaps.size
  pointer?_eq : ∀ name, e.store.pointer? map name = before.store.pointer? map name

section

variable (h : before.SparesAll ns spared map e)
include h

theorem SparesAll.grow (hg : e.Grown e') : before.SparesAll ns spared map e' where
  toDirect := h.toDirect.grow hg
  isPrivate ht := hg.isPrivate (h.isPrivate ht)
  get?_eq ht key := (hg.larger.get?_eq (h.isPrivate ht).lt).trans (h.get?_eq ht key)
  map_lt := Nat.lt_of_lt_of_le h.map_lt hg.keepMaps_le
  pointer?_eq name := (hg.pointer?_eq map name).trans (h.pointer?_eq name)

theorem SparesAll.set {l : Location} (hl : ¬ spared l.table) (hent : ∀ p, entry ≠ .pointer p) :
    before.SparesAll ns spared map (e.withStore (e.store.set l entry)) where
  toDirect := h.toDirect.set l entry hent
  isPrivate ht := (e.set_extends l entry).isPrivate (h.isPrivate ht)
  get?_eq := fun {t} ht key => by
    have hne : t ≠ l.table := fun heq => hl (heq ▸ ht)
    exact (Store.get?_write_of_ne e.store (.inl hne) entry).trans (h.get?_eq ht key)
  map_lt := h.map_lt
  pointer?_eq := h.pointer?_eq

theorem SparesAll.keep {k : KeepMapId} (hk : k ≠ map) (name : String)
    (p : Pointer) : before.SparesAll ns spared map (e.withStore (e.store.keep k name p)) where
  toDirect := h.toDirect.keep k name p
  isPrivate ht := ⟨(h.isPrivate ht).lt, (h.isPrivate ht).not_durable⟩
  get?_eq := h.get?_eq
  map_lt := Nat.lt_of_lt_of_eq h.map_lt (by simp [Store.keep, withStore])
  pointer?_eq other := (Store.pointer?_keep_of_ne (.inl (Ne.symm hk)) p).trans (h.pointer?_eq other)

end

end Engine

/-- Some tables and a keep map are spared; frames do not name them, nor do they keep names without dots
    in the tables. -/
def Upkeep.sparing (ns : Namespace) (spared : TableId → Prop) (map : KeepMapId) (before : Engine) :
    Upkeep where
  engine := before.SparesAll ns spared map
  cache _ _ _ t := ¬ spared t
  keeps e k := k ≠ map ∧ ∀ name p, isDotted name = false →
    e.store.pointer? k name = some p → ¬ spared p.table
  own _ _ _ := True
  container _ _ t := ¬ spared t
  statement _ _ := True
  reads name := isDotted name = false
  growth e e' := ∀ k name p, isDotted name = false →
    e'.store.pointer? k name = some p → spared p.table → e.store.pointer? k name = some p

theorem DottedName.splitHead?_eq_none {name : String} (h : isDotted name = false) :
    splitHead? name = none := by
  have hall : ∀ c ∈ name.toList, (c != '.') = true := by
    intro c hc
    rw [isDotted, List.contains_eq_mem, decide_eq_false_iff_not] at h
    exact bne_iff_ne.mpr fun e => h (e ▸ hc)
  have hdrop : (name.toList ++ []).dropWhile (· != '.') = [] := List.dropWhile_append_of_pos hall
  rw [List.append_nil] at hdrop
  rw [splitHead?, hdrop]

/-- The names of definitions have no dots. -/
def Namespace.Undotted (ns : Namespace) : Prop :=
  ∀ id d, ns.get? id = some d → isDotted d.name = false

namespace Upkeep

/-- **What is done to tables spares them**, where it is done through frames that do not name them. -/
theorem sparing_kept (hns : ns.Undotted) : (sparing ns spared map before).Kept ns where
  direct he := he.toDirect
  refl _ := fun _ _ _ _ hp _ => hp
  trans h h' := fun k name p hname hp ht => h k name p hname (h' k name p hname hp ht) ht
  keeps_growth h hk := ⟨hk.1, fun name p hname hp ht =>
    hk.2 name p hname (h _ name p hname hp ht) ht⟩
  grow he hg := ⟨he.grow hg, fun _ _ _ _ hp _ => hg.pointer? hp⟩
  fresh_table he _ hle _ _ _ := have hnew := fun ht => Nat.not_le_of_lt (he.isPrivate ht).lt hle
    ⟨fun _ => hnew, hnew⟩
  fresh_keeps := fun {e e' k} he hg hle _ => by
    refine ⟨⟨fun heq => Nat.not_le_of_lt he.map_lt (heq ▸ hle), fun name p _ hp => ?_⟩,
      fun _ _ _ _ => trivial⟩
    rw [hg.pointer?_eq, Store.pointer?_of_size_le hle] at hp
    cases hp
  point := fun {e f keep p} k name he hfr _ _ hp _ hplace => by
    have hk : k ≠ map := by
      rcases hplace with rfl | ⟨hks, _⟩
      · exact hfr.keeps.1
      · exact hks.1
    have hspares : ¬ spared p.table := by
      cases hp with
      | cache _ htab _ => exact htab ▸ hfr.cache
      | container hget => exact hfr.container hget
      | durable _ _ _ _ hhome =>
        exact fun ht => (he.isPrivate ht).not_durable (Engine.durable_of_home? hhome)
    refine ⟨he.keep hk name p, fun k' other found _ hfd ht => ?_⟩
    rcases Store.pointer?_keep hfd with rfl | hold
    · exact absurd ht hspares
    · exact hold
  named hd := hns _ _ hd
  kept _ holder he hk hname hp := ⟨he.set (hk.2 _ _ hname hp) nofun, fun _ _ _ _ hp _ => hp⟩
  durable _ he _ _ hhome :=
    ⟨he.set (fun ht => (he.isPrivate ht).not_durable (Engine.durable_of_home? hhome)) nofun,
      fun _ _ _ _ hp _ => hp⟩

theorem sparing_readable {key : String} (hkey : isDotted key = false) :
    (sparing ns spared map before).Readable key := by
  refine ⟨hkey, fun container child hsplit => ?_⟩
  rw [splitHead?_eq_none hkey] at hsplit
  cases hsplit

end Upkeep

/-! ## 2. Stacks that spare them -/

theorem Frame.tables_eq_of_bare {f f' : Frame} (h : f.bare = f'.bare) : f.tables = f'.tables := by
  exact (congrArg tables h :)

/-- The stack has the frame on top, set aside, or on record as its root. -/
def Stack.Holds (stack : Stack) (id : FrameId) : Prop :=
  stack.top = some id ∨ id ∈ stack.stash ∨ stack.root = some id

namespace Session

variable {s s' : Session} {U : Upkeep}

/-- The stack gets at the frames that are `mine` only, and these name what they may. -/
structure Confined (U : Upkeep) (mine : FrameId → Prop) (s : Session) : Prop where
  engine : U.engine s.engine
  housed : ∀ {id f}, mine id → s.frame? id = some f → U.Housed s.engine f
  below : ∀ {id f below}, mine id → s.frame? id = some f → f.previous = some below → mine below
  held : ∀ {id}, s.stack.Holds id → mine id

theorem Confined.topFrame (h : s.Confined U mine) (hfr : s.topFrame? = some frame) :
    U.Housed s.engine frame := by
  obtain ⟨id, htop, hf⟩ := Option.bind_eq_some_iff.mp hfr
  exact h.housed (h.held (.inl htop)) hf

theorem Confined.mem_frames (h : s.Confined U mine) (hs : s.Fit ns rest) :
    ∀ entry ∈ s.frames, mine entry.1 ∧ U.Housed s.engine entry.2 := by
  have hmine : ∀ {top : Option FrameId} {l : List (FrameId × Frame)}, s.family.pool.Chain top l →
      (∀ id, top = some id → mine id) → ∀ entry ∈ l, mine entry.1 := by
    intro top l hchain
    induction hchain with
    | bottom => exact fun _ _ hmem => nomatch hmem
    | @link id frame rest hf _ ih =>
      intro htop entry hmem
      have hid := htop id rfl
      rcases List.mem_cons.mp hmem with rfl | hmem
      · exact hid
      · exact ih (fun below hbel => h.below hid hf hbel) entry hmem
  intro entry hmem
  have hent := hmine (frames_chain hs.sound) (fun id htop => h.held (.inl htop)) entry hmem
  exact ⟨hent, h.housed hent (Pool.get?_of_mem_chain hmem)⟩

/-- What is done to a stack leaves the frames alone that are not `mine'`; and these were not `mine`,
    unless they are new. -/
structure Leaves (s : Session) (mine mine' : FrameId → Prop) (s' : Session) : Prop where
  fresh : ∀ {id}, mine' id → mine id ∨ s.frame? id = none
  frames : ∀ {id f}, s'.frame? id = some f → ¬ mine' id →
    ∃ old, s.frame? id = some old ∧ f.bare = old.bare

/-- An operation after which the stack is confined as before, but for a new frame. -/
def Confines (U : Upkeep) (ns : Namespace) (rest : List Stack) (s s' : Session) : Prop :=
  s.Fit ns rest → ∀ mine, s.Confined U mine → ∃ mine', s'.Confined U mine' ∧ s.Leaves mine mine' s'

theorem Confines.refl (s : Session) : s.Confines U ns rest s :=
  fun _ mine h => ⟨mine, h, .inl, fun hf _ => ⟨_, hf, rfl⟩⟩

section

variable (hU : U.Pushable ns)
include hU

/-- An operation that makes no frame, and changes the top frame at most. -/
theorem confines_of_frames
    (heng : s.Fit ns rest → ∀ mine, s.Confined U mine →
      U.engine s'.engine ∧ U.growth s.engine s'.engine)
    (hfrs : s.Fit ns rest → ∀ mine, s.Confined U mine → ∀ id f, s'.frame? id = some f →
      ∃ old, s.frame? id = some old ∧ f.previous = old.previous ∧
        (f.bare = old.bare ∨ s.stack.top = some id ∧ U.Housed s'.engine f))
    (hheld : ∀ mine, s.Confined U mine → ∀ id, s'.stack.Holds id → mine id) :
    s.Confines U ns rest s' := by
  intro hs mine h
  obtain ⟨heng, hgr⟩ := heng hs mine h
  have hfrs := hfrs hs mine h
  refine ⟨mine, ⟨heng, fun {id f} hid hf => ?_, fun {id f below} hid hf hbel => ?_,
    fun {id} => hheld mine h id⟩, .inl, fun {id f} hf hid => ?_⟩
  · obtain ⟨old, hold, _, hbare | ⟨_, hhoused⟩⟩ := hfrs id f hf
    · exact ((h.housed hid hold).growth hU hgr).of_tables_eq (tables_eq_of_bare hbare)
    · exact hhoused
  · obtain ⟨old, hold, hprev, _⟩ := hfrs id f hf
    exact h.below hid hold (hprev.symm.trans hbel)
  · obtain ⟨old, hold, _, hbare | ⟨htop, _⟩⟩ := hfrs id f hf
    · exact ⟨old, hold, hbare⟩
    · exact absurd (h.held (.inl htop)) hid

theorem confines_of_engine
    (h : s.Fit ns rest → ∀ mine, s.Confined U mine → U.engine engine ∧ U.growth s.engine engine) :
    s.Confines U ns rest (s.withEngine engine) :=
  confines_of_frames hU h (fun _ _ _ _ f hf => ⟨f, hf, rfl, .inl rfl⟩)
    fun _ hconf _ => hconf.held

theorem confines_of_within (hwithin : s.Fit ns rest → Pool.Within bare s'.family.pool s.family.pool)
    (hcount : ∃ f, s'.engine = s.engine.count f)
    (hheld : ∀ mine, s.Confined U mine → ∀ id, s'.stack.Holds id → mine id) :
    s.Confines U ns rest s' := by
  obtain ⟨f, hcount⟩ := hcount
  refine confines_of_frames hU (fun _ _ h => ?_) (fun hs _ _ id f hf => ?_) hheld
  · rw [hcount]
    exact hU.count f h.engine
  · obtain ⟨old, hold, hprev, hbare⟩ := hwithin hs id f hf
    exact ⟨old, hold, hprev.symm, .inl hbare.symm⟩

theorem confines_of_set {new : Frame} (htop : s.stack.top = some id)
    (hf : s.frame? id = some frame) (hprev : new.previous = frame.previous)
    (h : s.Fit ns rest → ∀ mine, s.Confined U mine → U.engine engine ∧ U.growth s.engine engine ∧
      U.Housed engine new) :
    s.Confines U ns rest ((s.withEngine engine).withPool (s.family.pool.set id new)) := by
  have hpool : s.family.pool.get? id = some frame := hf
  refine confines_of_frames hU (fun hs mine hconf => ?_) (fun hs mine hconf other f hfd => ?_)
    fun _ hconf _ => hconf.held
  · obtain ⟨heng, hgr, _⟩ := h hs mine hconf
    exact ⟨heng, hgr⟩
  · obtain ⟨_, _, hhoused⟩ := h hs mine hconf
    have hfd : (s.family.pool.set id new).get? other = some f := hfd
    rw [Pool.get?_set hpool] at hfd
    split at hfd
    · rename_i heq
      cases hfd
      exact ⟨frame, heq ▸ hf, hprev, .inr ⟨heq ▸ htop, hhoused⟩⟩
    · exact ⟨f, hfd, rfl, .inl rfl⟩

/-! ### Moves -/

theorem pop_confines (h : s.pop = .ok s') : s.Confines U ns rest s' := by
  obtain ⟨id, frame, htop, hf, rfl⟩ := pop_ok h
  refine confines_of_within hU (fun hs => popped_within bare_plain.ignoresCounts hs.sound hf)
    ⟨fun c => c.pop.freed _, rfl⟩ fun mine hconf other hheld => ?_
  rcases hheld with hbel | hstash | hroot
  · exact hconf.below (hconf.held (.inl htop)) hf hbel
  · exact hconf.held (.inr (.inl hstash))
  · have hroot : (if s.stack.size - 1 = 0 then none else s.stack.root) = some other := hroot
    split at hroot
    · cases hroot
    · exact hconf.held (.inr (.inr hroot))

theorem unpush_confines (h : s.unpush = .ok s') : s.Confines U ns rest s' := by
  obtain ⟨id, frame, htop, hf, rfl⟩ := unpush_ok h
  refine confines_of_within hU
    (fun hs => steppedOut_within bare_plain.ignoresCounts hs.sound hf) ⟨fun c => c, rfl⟩
    fun mine hconf other hheld => ?_
  have htop := hconf.held (.inl htop)
  rcases hheld with hbel | hstash | hroot
  · exact hconf.below htop hf hbel
  · rcases List.mem_cons.mp hstash with rfl | hstash
    · exact htop
    · exact hconf.held (.inr (.inl hstash))
  · exact hconf.held (.inr (.inr hroot))

theorem repush_confines (h : s.repush = .ok s') : s.Confines U ns rest s' := by
  obtain ⟨id, frame, stash, hstash, _, _, rfl⟩ := repush_ok h
  refine confines_of_within hU
    (fun _ => steppedIn_within bare_plain.ignoresCounts s id stash) ⟨(·.freed _), rfl⟩
    fun mine hconf other hheld => ?_
  have hmem : ∀ {other}, other ∈ id :: stash → mine other := fun hmem =>
    hconf.held (.inr (.inl (hstash ▸ hmem)))
  rcases hheld with htop | hstashed | hroot
  · cases htop
    exact hmem List.mem_cons_self
  · exact hmem (List.mem_cons_of_mem _ hstashed)
  · exact hconf.held (.inr (.inr hroot))

theorem loop_confines {new : Frame} (htop : s.stack.top = some id) (hf : s.frame? id = some frame)
    (hprev : new.previous = frame.previous) (htables : new.tables = frame.tables) :
    s.Confines U ns rest (s.withPool (s.family.pool.set id new)) :=
  confines_of_set hU htop hf hprev fun _ _ hconf =>
    ⟨hconf.engine, hU.refl _, (hconf.housed (hconf.held (.inl htop)) hf).of_tables_eq htables⟩

theorem setIteration_confines (s : Session) (iter : Option Nat) :
    s.Confines U ns rest (s.setIteration iter) := by
  unfold setIteration Pool.modify
  split
  · rename_i id htop
    split
    · rename_i frame hf
      exact loop_confines hU htop hf rfl rfl
    · exact .refl s
  · exact .refl s

theorem addKeep_confines {keep : Keep} {added : Bool} (h : s.addKeep keep = .ok (added, s'))
    (hkeep : ∀ frame, s.topFrame? = some frame →
      U.own s.engine frame.cache frame.keeps ∧ U.statement frame.definition keep) :
    s.Confines U ns rest s' := by
  obtain ⟨id, frame, htop, hf, rfl | ⟨frame', engine, hreg, rfl⟩⟩ := addKeep_ok h
  · exact .refl s'
  have hprev : frame'.previous = frame.previous := by
    obtain ⟨_, containers, rfl⟩ := Engine.registerKeep_effect hreg
    rfl
  refine confines_of_set hU htop hf hprev fun hs mine hconf => ?_
  have hid := hconf.held (.inl htop)
  obtain ⟨hown, hstmt⟩ := hkeep frame (by rw [topFrame?, htop]; exact hf)
  refine Engine.registerKeep_upheld hU hconf.engine (hconf.housed hid hf) hown hstmt
    (fun k hk => ?_) hreg
  obtain ⟨below, hbel, rfl⟩ := Option.map_eq_some_iff.mp hk
  obtain ⟨belowId, hprev, hbel⟩ := Option.bind_eq_some_iff.mp hbel
  exact (hconf.housed (hconf.below hid hf hprev) hbel).keeps

theorem lookup_confines (s : Session) (r : Request) : s.Confines U ns rest (s.lookup r).2 := by
  obtain ⟨engine, _, heq⟩ := lookup_effect s r
  have hgrown := s.lookup_grows r
  rw [heq] at hgrown ⊢
  exact confines_of_engine hU fun _ _ hconf => hU.grow hconf.engine hgrown

/-- **A frame more is one more to get at.** -/
theorem Push.confines (hmakes : ∀ k, U.makes k)
    (hshared : ∀ {e d k t}, U.cache e d k t → ∀ d' k', U.cache e d' k' t) (h : s.Push s') :
    s.Confines U ns rest s' := by
  rcases h.made with rfl | ⟨bound, d, newCall, hd, rfl⟩
  · exact .refl s'
  intro hs mine hconf
  obtain ⟨_, hfresh, _, _⟩ := frameFor_effect s bound d s.topFrame? newCall
  obtain ⟨heng, hgr, hmade⟩ := frameFor_upheld hU hconf.engine
    (fun _ => hconf.topFrame) hd (fun _ root hroot k _ => by
      obtain ⟨id, hid, hf⟩ := Option.bind_eq_some_iff.mp hroot
      exact hshared (hconf.housed (hconf.held (.inr (.inr hid))) hf).cache _ k)
    (hmakes (s.frameFor bound d s.topFrame? newCall).2.1.keeps)
  generalize (s.frameFor bound d s.topFrame? newCall).2 = made at hfresh heng hgr hmade ⊢
  obtain ⟨hcount, hcounted⟩ := hU.count (·.push (s.stack.size + 1)
    (s.family.pool.alloc made.1).1.recycled) heng
  have hgrown := enter_grown bare_plain.ignoresCounts hs.sound hfresh made.2
  -- a frame that is not new is the one it was, and was `mine` if it is
  have hfrs : ∀ id f, (s.enter made.1 made.2).frame? id = some f →
      f.bare = made.1.bare ∨ ∃ old, s.frame? id = some old ∧ f.bare = old.bare ∧
        (mine id ∨ (s.enter made.1 made.2).stack.top = some id → mine id) := by
    intro id f hf
    rcases hgrown.frames id f hf with ⟨_, hbare⟩ | ⟨old, hold, hbare⟩
    · exact .inl hbare
    · refine .inr ⟨old, hold, hbare.symm, fun hid => hid.elim (fun hmine => hmine) fun htop => ?_⟩
      rw [hgrown.fresh id htop] at hold
      cases hold
  refine ⟨fun id => mine id ∨ (s.enter made.1 made.2).stack.top = some id,
    ⟨hcount, fun {id f} hid hf => ?_, fun {id f below} hid hf hbel => ?_, fun {id} hheld => ?_⟩,
    fun hid => hid.imp_right (hgrown.fresh _), fun {id f} hf hid => ?_⟩
  · rcases hfrs id f hf with hbare | ⟨old, hold, hbare, hmine⟩
    · exact (hmade.growth hU hcounted).of_tables_eq (tables_eq_of_bare hbare)
    · exact ((hconf.housed (hmine hid) hold).growth hU (hU.trans hgr hcounted)).of_tables_eq
        (tables_eq_of_bare hbare)
  · rcases hfrs id f hf with hbare | ⟨old, hold, hbare, hmine⟩
    · rw [bare_plain.previous_eq hbare, hfresh.previous_eq] at hbel
      exact .inl (hconf.held (.inl hbel))
    · exact .inl (hconf.below (hmine hid) hold ((bare_plain.previous_eq hbare).symm.trans hbel))
  · rcases hheld with htop | hstash | hroot
    · exact .inr htop
    · exact .inl (hconf.held (.inr (.inl hstash)))
    · rcases Option.or_eq_some_iff.mp hroot with hroot | ⟨_, htop⟩
      · exact .inl (hconf.held (.inr (.inr hroot)))
      · exact .inr htop
  · rcases hgrown.frames id f hf with ⟨htop, _⟩ | ⟨old, hold, hbare⟩
    · exact absurd (.inr htop) hid
    · exact ⟨old, hold, hbare.symm⟩

end

theorem Confined.close (h : s.Confined U mine) (hU : U.Pushable ns) :
    U.engine s.close.engine ∧ s.Leaves mine mine s.close := by
  obtain ⟨hcount, _⟩ := hU.count (·.freed (s.family.pool.unpinAll
    (s.stack.top.toList ++ s.stack.stash.reverse)).1) h.engine
  refine ⟨hcount, .inl, fun {id f} hf _ => ?_⟩
  obtain ⟨old, hold, _, hbare⟩ := close_within bare_plain.ignoresCounts s id f hf
  exact ⟨old, hold, hbare.symm⟩

end Session

/-- Values are put under keys without dots. -/
def Terms.undotted : Terms :=
  { Terms.free with put := fun _ key => isDotted key = false }

namespace Session

variable {s s' : Session}

theorem Confined.setTop (h : s.Confined (.sparing ns spared map before) mine)
    (hfr : s.topFrame? = some frame) (key : String) (hent : ∀ p, entry ≠ .pointer p) :
    before.SparesAll ns spared map (s.engine.withStore (s.store.set ⟨frame.cache, key⟩ entry)) ∧
      (Upkeep.sparing ns spared map before).growth s.engine
        (s.engine.withStore (s.store.set ⟨frame.cache, key⟩ entry)) := by
  have hca : ¬ spared frame.cache := (h.topFrame hfr).cache
  exact ⟨Engine.SparesAll.set h.engine hca hent, fun _ _ _ _ hp _ => hp⟩

/-- **Moves that put values under keys without dots spare what the stack does not get at.** -/
theorem MoveBy.confines (hns : ns.Undotted) (h : s.MoveBy .undotted s') :
    s.Confines (.sparing ns spared map before) ns rest s' := by
  have hkept : (Upkeep.sparing ns spared map before).Kept ns := Upkeep.sparing_kept hns
  have hU := hkept.toPushable
  cases h with
  | fail => exact .refl s
  | push h _ => exact h.confines hU (fun _ => trivial) fun ht _ _ => ht
  | pop h => exact pop_confines hU h
  | unpush h => exact unpush_confines hU h
  | repush h => exact repush_confines hU h
  | startIteration h =>
    obtain ⟨id, frame, htop, hf, _, rfl⟩ := startIteration_effect h
    exact loop_confines hU htop hf rfl rfl
  | setIteration iter => exact setIteration_confines hU s iter
  | addKeep _ h => exact addKeep_confines hU h fun _ _ => ⟨trivial, trivial⟩
  | lookup request => exact lookup_confines hU s request
  | putWithin key holder levels hkey =>
    obtain ⟨engine, _, heq⟩ := putWithin_effect s key holder levels
    have hput : s.Fit ns rest → ∀ mine, s.Confined (.sparing ns spared map before) mine →
        before.SparesAll ns spared map (s.putWithin key holder levels).2.engine ∧
          (Upkeep.sparing ns spared map before).growth s.engine
            (s.putWithin key holder levels).2.engine := fun hs mine hconf =>
      putWithin_upheld hkept hconf.engine (Upkeep.sparing_readable hkey) holder
        (fun entry hmem => (hconf.mem_frames hs entry hmem).2.keeps)
        (fun frame hfr _ => hconf.setTop hfr _ nofun) levels
    rw [heq] at hput ⊢
    exact confines_of_engine hU hput
  | putValue _ h =>
    obtain ⟨frame, hfr, rfl⟩ := putValue_ok h
    exact confines_of_engine hU fun _ _ hconf => hconf.setTop hfr _ nofun
  | computation =>
    exact confines_of_engine hU fun _ _ hconf => hU.count Counters.computation hconf.engine

end Session

end KeepTree
