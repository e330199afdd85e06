import KeepTree.Proofs.Evaluation.Guarding
import KeepTree.Proofs.Keeping.Targets

/-!
# Iterations are apart

The key of a slot tells the iteration, so what is put in one iteration of a frame is not read in
another one. Only what is passed on to the owner goes to a slot of another iteration, that of the
owner's frame. The top frame reads this slot if it keeps a name there, or if it is durable; it is
never in a table of the top frame's own:

* `Claimed.mirror_foreign` -- **nothing is passed on to the tables of the top frame**;
* `Workspace.iterations_apart` -- **local lookups do not see what is put in another iteration**, unless it
  is passed on to what they read.
-/

namespace KeepTree

open DottedName List Option

variable {ns : Namespace} {top : Frame} {d : Definition} {key : String} {levels j : Option Nat}
  {l : Location} {limits : Limits} {w : Workspace} {C : Claims} {p : Pointer}

/-! ## 1. Slots of an iteration -/

/-- The key of the slot is a name without marks, in this iteration. -/
def Location.IsOf (l : Location) (iteration : Option Nat) : Prop :=
  ∃ name, isLoopKey name = false ∧ l.key = inLoop name iteration

/-- **A slot is of one iteration at most.** -/
theorem Location.IsOf.eq {i : Option Nat} (h : l.IsOf i) (h' : l.IsOf j) : i = j := by
  obtain ⟨name, hname, hkey⟩ := h
  obtain ⟨name', hname', hkey'⟩ := h'
  rw [hkey] at hkey'
  cases i with
  | none =>
    cases j with
    | none => rfl
    | some n =>
      have hmarked := isLoopKey_inLoop name' n
      rw [← hkey', inLoop, hname] at hmarked
      cases hmarked
  | some m =>
    cases j with
    | none =>
      have hmarked := isLoopKey_inLoop name m
      rw [hkey', inLoop, hname'] at hmarked
      cases hmarked
    | some n => rw [(inLoop_inj hkey').2]

/-! ## 2. Names without marks -/

/-- Neither the full names of definitions nor what they keep have a mark of iteration in them. -/
structure Namespace.Unmarked (ns : Namespace) : Prop where
  fullName : ∀ {id d}, ns.get? id = some d → isLoopKey d.fullName = false
  target : ∀ {id d keep}, ns.get? id = some d → keep ∈ d.keeps → isLoopKey keep.target = false

/-- The key of a request, and the full name that it asks for, have no mark of iteration in them. -/
structure Request.Unmarked (r : Request) : Prop where
  key : isLoopKey r.key = false
  globalKey : ∀ {key}, r.globalKey = some key → isLoopKey key = false

/-- No name with a mark of iteration is kept. -/
def Terms.unmarked : Terms :=
  { Terms.free with addKeep := fun _ keep => isLoopKey keep.target = false }

/-- Names are kept in slots of iterations. -/
def Upkeep.unmarking (ns : Namespace) : Upkeep :=
  .pointing ns (fun p => isLoopKey p.key = false)
    fun keep => isLoopKey keep.target = false

theorem Upkeep.unmarking_open (hns : ns.Unmarked) : (unmarking ns).Open ns := by
  refine pointing_open hns.target (fun hsame htgt hp _ => ?_) fun _ hkey => hkey
  cases hp with
  | cache _ _ hkey => rw [hkey, htgt]
  | container _ hkey => rw [hkey, htgt]
  | durable _ hd _ hkey _ => rw [hkey, hns.fullName (hsame ▸ hd)]

theorem Workspace.Run.unmarked (hns : ns.Unmarked)
    (hrun : (Workspace.new ns limits).Run .unmarked w) : w.Upheld (.unmarking ns) := by
  have hU := Upkeep.unmarking_open hns
  refine hrun.upheld hU.toCopied hU.makes_any (fun key he _ hent => ?_)
    (fun _ hmove => hmove.upholds hU fun hkeep _ => ⟨trivial, hkeep⟩) .new
    (new_upheld ⟨Engine.new_direct ns limits, nofun⟩)
  exact ⟨⟨he.1.set _ _ hent, he.2⟩, trivial⟩

namespace Session

variable {s s' : Session} {rest : List Stack} {holder : Holder}

/-! ## 3. What a put leaves alone -/

/-- The slot that a value is passed on to, if its definition is known. -/
def mirrorOf? (s : Session) (holder : Holder) (levels : Option Nat) : Option Location :=
  (s.ns.get? holder.nominal).bind (s.mirrorSlot? · levels)

theorem slot_isOf (hkept : s.Upheld (.unmarking ns)) (hkey : isLoopKey key = false)
    (top : Frame) : (top.slot s.store key).IsOf top.iteration := by
  cases hp : top.keepPointer? s.store key with
  | some p =>
    rw [Frame.slot_of_kept hp]
    exact ⟨p.key, hkept.engine.2 hp, rfl⟩
  | none =>
    rw [Frame.slot_of_unkept hp]
    exact ⟨key, hkey, rfl⟩

/-- **In another iteration, a put changes the mirror slot at most.** -/
theorem putWithin_apart (hs : s.Fit ns rest) (hheld : s.Upheld (.lodging ns)) (hns : ns.Unmarked)
    (hkept : s.Upheld (.unmarking ns)) (hfr : s.topFrame? = some top)
    (hkey : isLoopKey key = false) (hdots : isDotted key = false)
    (holder : Holder) (levels : Option Nat) :
    (∀ k name, (s.putWithin key holder levels).2.store.pointer? k name = s.store.pointer? k name) ∧
      ∀ l j, l.IsOf j → j ≠ top.iteration → s.mirrorOf? holder levels ≠ some l →
        (s.putWithin key holder levels).2.store.at? l = s.store.at? l := by
  cases hd : ns.get? holder.nominal with
  | none =>
    obtain ⟨id, htop, hf⟩ := bind_eq_some_iff.mp hfr
    have hput : (s.putWithin key holder levels).2 = s := by
      simp only [putWithin, top_eq_ok.mpr ⟨htop, hf⟩, Namespace.find, hs.ns_eq, hd]
    rw [hput]
    exact ⟨fun _ _ => rfl, fun _ _ _ _ _ => rfl⟩
  | some d =>
    have hsame : s.store.SameBut (s.putSlots top d key levels)
        (s.putWithin key holder levels).2.store := by
      rcases putWithin_cases hs hheld hfr hdots hd levels with
        ⟨fault, hput⟩ | ⟨fault, hput⟩ | ⟨engine, hput, hfills⟩
      · rw [hput]
        exact (Store.Fills.refl (.holder holder) s.store).toSameBut.mono (nil_subset _)
      · rw [hput]
        exact (putHere_fills hheld hfr d key holder).toSameBut.mono (subset_append_left _ _)
      · rw [hput]
        exact hfills.toSameBut
    refine ⟨hsame.pointer?_eq, fun l j hl hj hmirror => hsame.at?_eq l fun hmem => ?_⟩
    rw [mirrorOf?, hs.ns_eq, hd] at hmirror
    rcases mem_append.mp hmem with hmem | hmem
    · rcases mem_cons.mp hmem with rfl | hmem
      · exact hj (hl.eq (slot_isOf hkept hkey top))
      · -- the durable slot has the definition's full name for a key
        rw [mem_toList, Engine.durableSlot?] at hmem
        split at hmem
        · cases hmem
          exact hj (hl.eq ⟨d.fullName, hns.fullName hd, rfl⟩)
        · cases hmem
    · exact hmirror (mem_toList.mp hmem)

theorem mirrorSlot?_kept (hs : s.Fit ns rest) {id : FrameId} (htop : s.stack.top = some id)
    (hf : s.frame? id = some top) (h : s.mirrorSlot? d levels = some l) :
    ∃ entry ∈ s.family.pool.chain top.previous, entry.2.definition ≠ top.definition ∧
      ∃ p, entry.2.keepPointer? s.store d.name = some p ∧ p.table = l.table := by
  have hfrs := frames_cons hs.sound htop hf
  simp only [mirrorSlot?, bind, bind_eq_some_iff] at h
  obtain ⟨owner, -, depth, hdepth, entry, hent, p, hp, hslot⟩ := h
  split at hslot
  · rename_i hpos
    cases hslot
    obtain ⟨hlt, hof, hnone⟩ := findIdx?_eq_some_iff_getElem.mp hdepth
    obtain ⟨n, rfl⟩ := Nat.exists_eq_succ_of_ne_zero (Nat.ne_of_gt hpos.1)
    have hhere : isOf s.ns owner entry = true := by
      rw [← Option.some.inj ((getElem?_eq_getElem hlt).symm.trans hent)]
      exact hof
    have habove : isOf s.ns owner (id, top) = false := by
      have hfst := hnone 0 (Nat.succ_pos n)
      simp only [hfrs, getElem_cons_zero, Bool.not_eq_true] at hfst
      exact hfst
    refine ⟨entry, ?_, fun hsame => ?_, p, hp, rfl⟩
    · rw [hfrs] at hent
      exact mem_of_getElem? hent
    · rw [isOf, hsame] at hhere
      rw [isOf, hhere] at habove
      cases habove
  · cases hslot

/-- **Nothing is passed on to the tables of the top frame**, if it is not that of a site. -/
theorem Claimed.mirror_foreign (h : s.Claimed ns C) (hs : s.Fit ns rest) (hns : ns.Undotted)
    (hfr : s.topFrame? = some top) (hd : ns.get? top.definition = some d) (hsite : d.isSite = false)
    (hmirror : s.mirrorOf? holder levels = some l) : ¬ top.Owns l.table := by
  obtain ⟨id, htop, hf⟩ := bind_eq_some_iff.mp hfr
  rw [mirrorOf?, hs.ns_eq] at hmirror
  obtain ⟨nominal, hnom, hmirror⟩ := bind_eq_some_iff.mp hmirror
  obtain ⟨entry, hmem, hdef, p, hp, htab⟩ := mirrorSlot?_kept hs htop hf hmirror
  have hks : entry.2.keeps ≠ top.keeps := fun hsame =>
    hdef (h.seats.definition_eq hf (Pool.get?_of_mem_chain hmem) hsame)
  intro howns
  exact h.not_writes hs hf hd hsite hmem hks howns (.inr ⟨nominal.name, p, hns _ _ hnom, hp, htab⟩)

/-! ## 4. What a local lookup reads -/

/-- The slots that a lookup in the top frame alone reads: those of the durable tables, if it names one,
    the one in the frame's cache, and the one where the frame keeps the key. -/
def localSlots (s : Session) (r : Request) : List Location :=
  match s.topFrame? with
  | none => []
  | some top =>
    (r.globalKey.toList.flatMap fun key =>
      (s.durableTables r top).map fun table => ⟨table, top.slotKey key⟩) ++
    ⟨top.cache, top.slotKey r.key⟩ ::
      ((top.keepPointer? s.store r.key).map (·.location top.iteration)).toList

variable {r : Request} {e' : Engine}

theorem localSlots_isOf (hkept : s.Upheld (.unmarking ns)) (hfr : s.topFrame? = some top)
    (hr : r.Unmarked) (hl : l ∈ s.localSlots r) : l.IsOf top.iteration := by
  simp only [localSlots, hfr, mem_append, mem_cons, mem_flatMap, List.mem_map, mem_toList] at hl
  rcases hl with ⟨key, hkey, table, -, rfl⟩ | rfl | hl
  · exact ⟨key, hr.globalKey hkey, rfl⟩
  · exact ⟨r.key, hr.key, rfl⟩
  · obtain ⟨p, hp, rfl⟩ := map_eq_some_iff.mp hl
    exact ⟨p.key, hkept.engine.2 hp, rfl⟩

theorem durableTables_extends (h : s.engine.Extends e') (r : Request) (top : Frame) :
    (s.withEngine e').durableTables r top = s.durableTables r top ∨ ∃ t, s.store.tables.size ≤ t ∧
    (s.withEngine e').durableTables r top = t :: s.durableTables r top := by
  have hns : (s.withEngine e').ns = s.ns := h.ns_eq
  have hglob : (s.withEngine e').engine.global = s.engine.global := h.global_eq
  simp only [durableTables, hns, hglob]
  cases r.definition.bind s.ns.get? with
  | none => exact .inl rfl
  | some d =>
    simp only [bind_some]
    split
    · split
      · rename_i site _ _
        cases hsite : s.engine.sites.get? site with
        | some t =>
          have hsite' : (s.withEngine e').engine.sites.get? site = some t := h.sites hsite
          rw [hsite']
          exact .inl rfl
        | none =>
          cases hsite' : (s.withEngine e').engine.sites.get? site with
          | none => exact .inl rfl
          | some t =>
            refine .inr ⟨t, (h.fresh hsite').resolve_left fun hold => ?_, rfl⟩
            rw [hsite] at hold
            cases hold
      · exact .inl rfl
    · exact .inl rfl

/-- The engine goes on, and what a local lookup reads is as before. -/
structure ReadsOn (s : Session) (r : Request) (e' : Engine) : Prop extends s.engine.Extends e' where
  limits_eq : e'.limits = s.limits
  pointer?_eq : ∀ k name, e'.store.pointer? k name = s.store.pointer? k name
  at?_eq : ∀ l ∈ s.localSlots r, e'.store.at? l = s.store.at? l
  fresh_eq : ∀ top key t, s.topFrame? = some top → r.globalKey = some key →
    s.store.tables.size ≤ t → e'.store.get? t (top.slotKey key) = none

section

variable (hfr : s.topFrame? = some top)
include hfr

theorem mem_localSlots_durable (hkey : r.globalKey = some key)
    {t : TableId} (ht : t ∈ s.durableTables r top) : ⟨t, top.slotKey key⟩ ∈ s.localSlots r := by
  simp only [localSlots, hfr, hkey, toList_some, flatMap_singleton]
  exact mem_append_left _ (List.mem_map.mpr ⟨t, ht, rfl⟩)

theorem mem_localSlots_cache : ⟨top.cache, top.slotKey r.key⟩ ∈ s.localSlots r := by
  simp only [localSlots, hfr]
  exact mem_append_right _ mem_cons_self

theorem mem_localSlots_kept (hp : top.keepPointer? s.store r.key = some p) :
    p.location top.iteration ∈ s.localSlots r := by
  simp only [localSlots, hfr, hp]
  exact mem_append_right _ (mem_cons_of_mem _ mem_cons_self)

theorem ReadsOn.durableCandidates_eq (h : s.ReadsOn r e') :
    (s.withEngine e').durableCandidates r top = s.durableCandidates r top := by
  unfold durableCandidates
  cases hkey : r.globalKey with
  | none => rfl
  | some key =>
    have hsame : (s.durableTables r top).filterMap (fun table =>
          ((s.withEngine e').store.get? table (top.slotKey key)).map (·, top.iteration)) =
        (s.durableTables r top).filterMap fun table =>
          (s.store.get? table (top.slotKey key)).map (·, top.iteration) := by
      refine filterMap_congr fun t ht => ?_
      have hat : (s.withEngine e').store.get? t (top.slotKey key) = s.store.get? t (top.slotKey key) :=
        h.at?_eq _ (mem_localSlots_durable hfr hkey ht)
      rw [hat]
    rcases durableTables_extends h.toExtends r top with htables | ⟨t, ht, htables⟩
    · rw [htables]
      exact hsame
    · have hnone : (s.withEngine e').store.get? t (top.slotKey key) = none :=
        h.fresh_eq top key t hfr hkey ht
      simp only [htables, filterMap_cons, hnone, map_none]
      exact hsame

/-- The entries that a local lookup tries are no pointers, but for the one by which the frame keeps the
    key. -/
theorem local_candidate (hs : s.Fit ns rest) (hdir : s.engine.Direct ns)
    (hlocal : r.topOnly = true) {entry : Entry} {iter : Option Nat}
    (h : (entry, iter) ∈ s.candidates r top) : (∀ p, entry ≠ .pointer p) ∨ iter = top.iteration ∧
    ∃ p, entry = .pointer p ∧ top.keepPointer? s.store r.key = some p := by
  rcases mem_append.mp h with h | h
  · left
    rintro p rfl
    unfold durableCandidates at h
    split at h
    · cases h
    · obtain ⟨t, -, hget⟩ := mem_filterMap.mp h
      obtain ⟨_, hheld, heq⟩ := map_eq_some_iff.mp hget
      cases heq
      exact hdir.no_pointer hheld
  · rw [frameCandidates, reached_local hs hfr hlocal] at h
    obtain ⟨_, hf, hread⟩ := mem_filterMap.mp h
    obtain rfl := mem_singleton.mp hf
    obtain ⟨_, hent, heq⟩ := map_eq_some_iff.mp hread
    cases heq
    unfold entryIn at hent
    split at hent
    · rename_i cached hcached
      cases hent
      exact .inl fun p hp => hdir.no_pointer (hp ▸ hcached)
    · obtain ⟨p, hp, rfl⟩ := map_eq_some_iff.mp hent
      exact .inr ⟨rfl, p, rfl, hp⟩

theorem ReadsOn.follow_eq (h : s.ReadsOn r e') (hdir : s.engine.Direct ns) (hdir' : e'.Direct ns)
    (hp : top.keepPointer? s.store r.key = some p) (limit : Nat) :
    e'.store.follow top.iteration limit p = s.store.follow top.iteration limit p := by
  have hat := h.at?_eq _ (mem_localSlots_kept hfr hp)
  rcases Nat.eq_zero_or_pos limit with rfl | hpos
  · rfl
  · have hold : s.store.follow top.iteration limit p = _ := hdir.follow_eq top.iteration hpos p
    rw [hdir'.follow_eq top.iteration hpos p, hold, hat]
    rfl

/-- **A local lookup finds what it found**, if what it reads is as before. -/
theorem ReadsOn.lookup_eq (h : s.ReadsOn r e') (hs : s.Fit ns rest) (hdir : s.engine.Direct ns)
    (hdir' : e'.Direct ns) (hlocal : r.topOnly = true) :
    ((s.withEngine e').lookup r).1 = (s.lookup r).1 := by
  have hns : (s.withEngine e').ns = s.ns := h.ns_eq
  have hlim : (s.withEngine e').limits = s.limits := h.limits_eq
  have hfrs : (s.withEngine e').frames = s.frames := rfl
  have hent : entryIn (s.withEngine e').store r.key top = entryIn s.store r.key top := by
    have hcached : top.cached? (s.withEngine e').store r.key = top.cached? s.store r.key :=
      h.at?_eq _ (mem_localSlots_cache hfr)
    have hkept : top.keepPointer? (s.withEngine e').store r.key = top.keepPointer? s.store r.key :=
      h.pointer?_eq _ _
    rw [entryIn, entryIn, hcached, hkept]
  have hcands : (s.withEngine e').candidates r top = s.candidates r top := by
    rw [candidates, candidates, h.durableCandidates_eq hfr, frameCandidates, frameCandidates, hns,
      hfrs, reached_local hs hfr hlocal]
    simp only [filterMap_cons, filterMap_nil, hent]
  rw [lookup_result, lookup_result]
  refine congrArg Prod.fst (find_congr (t := s.withEngine e') hfr hfr rfl ?_ ?_)
  · rw [hcands]
    refine forall₂_same.mpr fun x hx => ?_
    obtain ⟨entry, iter⟩ := x
    rcases local_candidate hfr hs hdir hlocal hx with hplain | ⟨rfl, p, rfl, hp⟩
    · cases entry with
      | pointer p => exact absurd rfl (hplain p)
      | _ => simp only [Agree, resolve, hns]
    · have hfollow : (s.withEngine e').store.follow top.iteration s.limits.maxPointerHops p = _ :=
        h.follow_eq hfr hdir hdir' hp s.limits.maxPointerHops
      simp only [Agree, resolve, hlim, hfollow, hns]
  · rw [searchEnding, searchEnding, hns, hfrs]

end

/-! ## 5. Another iteration -/

theorem setIteration_withEngine (s : Session) (engine : Engine) (iter : Option Nat) :
    (s.withEngine engine).setIteration iter = (s.setIteration iter).withEngine engine := by
  unfold setIteration
  split <;> rename_i htop
  · have htop : s.stack.top = some _ := htop
    rw [htop]
    rfl
  · have htop : s.stack.top = none := htop
    rw [htop]

section

variable (hs : s.Fit ns rest) (hheld : s.Upheld (.lodging ns)) (hns : ns.Unmarked) (hkept : s.Upheld
  (.unmarking ns)) (hfr : s.topFrame? = some top)
include hs hheld hns hkept hfr

/-- **A local lookup in another iteration finds what it found**, if the slots of that iteration which it
    reads are as before, and nothing was put into new tables. -/
theorem lookup_elsewhere (hlocal : r.topOnly = true)
    (hr : r.Unmarked) (hext : s.engine.Extends e') (hlim : e'.limits = s.limits)
    (hdir' : e'.Direct ns)
    (hptrs : ∀ k name, e'.store.pointer? k name = s.store.pointer? k name)
    (hat : ∀ l, l.IsOf j → l ∈ (s.setIteration j).localSlots r ∨ s.store.tables.size ≤ l.table →
      e'.store.at? l = s.store.at? l) :
    (((s.withEngine e').setIteration j).lookup r).1 = ((s.setIteration j).lookup r).1 := by
  have heng : (s.setIteration j).engine = s.engine := by
    unfold setIteration
    split <;> rfl
  have hsto : (s.setIteration j).store = s.store := congrArg Engine.store heng
  have hfr' := setIteration_topFrame? hfr j
  obtain ⟨hs', hheld', -⟩ := setIteration_upholds (Upkeep.lodging_open ns).toPushable s j hs hheld
  obtain ⟨-, hkept', -⟩ := setIteration_upholds (Upkeep.unmarking_open hns).toPushable s j hs hkept
  rw [setIteration_withEngine]
  refine ReadsOn.lookup_eq hfr' ⟨heng ▸ hext, ?_, ?_, fun l hl => ?_, ?_⟩ hs'
    hheld'.engine.toDirect hdir' hlocal
  · rw [hlim, limits, limits, heng]
  · rw [hsto]
    exact hptrs
  · rw [hsto]
    exact hat l (localSlots_isOf hkept' hfr' hr hl) (.inl hl)
  · intro frame key t hfd hkey hle
    rw [hfr'] at hfd
    cases hfd
    rw [hsto] at hle
    have hnew := hat ⟨t, inLoop key j⟩ ⟨key, hr.globalKey hkey, rfl⟩ (.inr hle)
    exact hnew.trans (Store.get?_of_size_le hle _)

/-- **A value that is bound in one iteration is not seen in another.** -/
theorem putValue_elsewhere (hoth : j ≠ top.iteration) (hkey : isLoopKey key = false) {value : Value}
    (hput : s.putValue key value = .ok s') (hlocal : r.topOnly = true) (hr : r.Unmarked) :
    ((s'.setIteration j).lookup r).1 = ((s.setIteration j).lookup r).1 := by
  obtain ⟨_, hfd, rfl⟩ := putValue_ok hput
  cases hfr.symm.trans hfd
  have hfills := Store.set_fills (l := ⟨top.cache, top.slotKey key⟩) (hheld.topFrame hfr).cache
    (.value value)
  refine lookup_elsewhere hs hheld hns hkept hfr hlocal hr
    (Engine.withStore_extends hfills.size_le) rfl (hheld.engine.toDirect.set _ _ nofun)
    hfills.pointer?_eq fun l hl _ => hfills.at?_eq l fun hmem => ?_
  obtain rfl := mem_singleton.mp hmem
  exact hoth (hl.eq ⟨key, hkey, rfl⟩)

end

/-- **A value that is put in one iteration is not seen in another**, unless it is passed on to what is
    read there. -/
theorem Claimed.putWithin_elsewhere (h : s.Claimed ns C) (hs : s.Fit ns rest)
    (hund : ns.Undotted) (hns : ns.Unmarked) (hkept : s.Upheld (.unmarking ns))
    (hfr : s.topFrame? = some top) (hd : ns.get? top.definition = some d)
    (hsite : d.isSite = false) (hoth : j ≠ top.iteration)
    (hkey : isLoopKey key = false) (hdots : isDotted key = false)
    (hlocal : r.topOnly = true) (hr : r.Unmarked)
    (hmirror : ∀ l, s.mirrorOf? holder levels = some l → l ∈ (s.setIteration j).localSlots r →
      top.Owns l.table) :
    (((s.putWithin key holder levels).2.setIteration j).lookup r).1 =
      ((s.setIteration j).lookup r).1 := by
  obtain ⟨hptrs, hat⟩ := putWithin_apart hs h.lodged hns hkept hfr hkey hdots holder levels
  obtain ⟨-, hheld', hgr⟩ := putWithin_claimed C s key holder levels hs h.upheld
  obtain ⟨engine, hstd, heq⟩ := putWithin_effect s key holder levels
  rw [heq] at hptrs hat hheld' hgr ⊢
  refine lookup_elsewhere hs h.lodged hns hkept hfr hlocal hr hgr.toExtends hstd.limits_eq
    hheld'.engine.toDirect hptrs fun l hl hread => hat l j hl hoth fun hpass => ?_
  rcases hread with hread | hle
  · exact h.mirror_foreign hs hund hfr hd hsite hpass (hmirror l hpass hread)
  · -- what is kept is kept in tables that were there
    obtain ⟨id, htop, hf⟩ := bind_eq_some_iff.mp hfr
    obtain ⟨_, -, hslot⟩ := bind_eq_some_iff.mp hpass
    obtain ⟨_, -, -, p, hp, htab⟩ := mirrorSlot?_kept hs htop hf hslot
    exact Nat.not_lt_of_le hle (htab ▸ h.lodged.engine.pointer_lt hp)

end Session

namespace Workspace

variable {ns : Namespace} {limits : Limits} {w : Workspace} {name key : String} {c : Session}
  {top : Frame} {d : Definition}

/-- **Iterations are apart.** Let no name of a definition have a dot or a mark of iteration in it, and
    let no name with a mark be kept. Let the top frame of a stack be no site's, and `j` not the iteration
    that it is in. What a local lookup in iteration `j` finds is not changed by binding a value in the
    frame's iteration. Nor is it changed by putting a value under a key without dots, if sites were pushed
    only while the frame on record as the root was the bottom frame, unless the value is passed on to the
    very slot that the lookup reads, and this slot is not in one of the frame's own tables. -/
theorem iterations_apart (hundotted : ns.Undotted) (hunmarked : ns.Unmarked)
    (hrun : (Workspace.new ns limits).Run .unmarked w) (hs : w.session? name = some c)
    (hframe : c.topFrame? = some top) (hd : ns.get? top.definition = some d)
    (hsite : d.isSite = false) {j : Option Nat} (hother : j ≠ top.iteration)
    (hkey : DottedName.isLoopKey key = false) :
    (∀ value, ∃ c', c.putValue key value = .ok c' ∧ ∀ r : Request, r.topOnly = true → r.Unmarked →
      ((c'.setIteration j).lookup r).1 = ((c.setIteration j).lookup r).1) ∧
    ((Workspace.new ns limits).Run .rooted w → DottedName.isDotted key = false →
      ∀ holder levels (r : Request), r.topOnly = true → r.Unmarked →
      (∀ l, c.mirrorOf? holder levels = some l → l ∈ (c.setIteration j).localSlots r →
        top.Owns l.table) →
      (((c.putWithin key holder levels).2.setIteration j).lookup r).1 =
        ((c.setIteration j).lookup r).1) := by
  have hw := hrun.reachable .new
  obtain ⟨rest, hfit⟩ := hw.fit hs
  obtain ⟨hkept, -⟩ := (hrun.unmarked hunmarked).session hs
  refine ⟨fun value => ?_, fun hrooted hdots holder levels r hlocal hr hmirror => ?_⟩
  · obtain ⟨id, htop, hf⟩ := Option.bind_eq_some_iff.mp hframe
    obtain ⟨c', hput⟩ : ∃ c', c.putValue key value = .ok c' := by
      rw [Session.putValue, Session.top_eq_ok.mpr ⟨htop, hf⟩]
      exact ⟨_, rfl⟩
    obtain ⟨hlodged, -⟩ := hw.lodged.session hs
    exact ⟨c', hput, fun r hlocal hr => Session.putValue_elsewhere hfit hlodged hunmarked
      hkept hframe hother hkey hput hlocal hr⟩
  · obtain ⟨C, hnotes⟩ := hrooted.claimable .new (new_claimable ns limits)
    obtain ⟨hclaimed, -⟩ := hnotes.session hs
    exact hclaimed.putWithin_elsewhere hfit hundotted hunmarked hkept hframe hd hsite hother hkey
      hdots hlocal hr hmirror

/-- A hall that keeps its paper, a desk, and a stand, which is a site and keeps a paper of its own. -/
def lobby : Namespace where
  definitions := #[
    { name := "hall", fullName := "hall", children := Dictionary.empty.insert "paper" 1
      keeps := [{ target := "paper" }] },
    { name := "paper", fullName := "hall.paper", owner := some 0 },
    { name := "desk", fullName := "desk" },
    { name := "stand", fullName := "stand", kind := .site, site := some 3
      children := Dictionary.empty.insert "paper" 4, keeps := [{ target := "paper" }] },
    { name := "paper", fullName := "stand.paper", owner := some 3, site := some 3 }]
  roots := ((Dictionary.empty.insert "hall" 0).insert "desk" 2).insert "stand" 3

theorem lobby_undotted : lobby.Undotted := by
  intro id d hd
  have hall : ∀ d ∈ lobby.definitions, isDotted d.name = false := by decide
  exact hall d (Array.mem_of_getElem? hd)

theorem lobby_unmarked : lobby.Unmarked := by
  have hall : ∀ d ∈ lobby.definitions, isLoopKey d.fullName = false ∧
    ∀ keep ∈ d.keeps, isLoopKey keep.target = false := by decide
  exact ⟨fun hd => (hall _ (Array.mem_of_getElem? hd)).1,
    fun hd => (hall _ (Array.mem_of_getElem? hd)).2 _⟩

def lobbyHall : Session := (Session.push ⟨.new lobby {}, .new 0 {}, {}⟩ 0 [] true).2

def lobbyDesk : Session := (lobbyHall.push 2 [] true).2

def lobbyLoop : Session := lobbyDesk.setIteration (some 0)

def lobbyPaper : Holder := .of 1 [] (some (.text "news"))

/-- The paper is put at the desk, in a loop, and passed on to the hall. Out of the loop it is not found
    at the desk. -/
theorem iterations_apart_lobby :
    lobbyLoop.mirrorOf? lobbyPaper none = some ⟨1, "paper"⟩ ∧
      ((lobbyLoop.putWithin "post" lobbyPaper none).2.lookup (.here "post")).1.toOption =
        some (some (.text "news")) ∧
      (((lobbyLoop.putWithin "post" lobbyPaper none).2.setIteration none).lookup (.here "post")).1 =
        ((lobbyLoop.setIteration none).lookup (.here "post")).1 ∧
      ∃ bound, lobbyLoop.putValue "post" (.text "bill") = .ok bound ∧
        ((bound.setIteration none).lookup (.here "post")).1 =
          ((lobbyLoop.setIteration none).lookup (.here "post")).1 := by
  obtain ⟨w, hrun, hs⟩ : ∃ w, (Workspace.new lobby {}).Run
      { Terms.rooted with addKeep := fun _ _ => False } w ∧ w.session? "main" = some lobbyLoop := by
    refine run_of_moves (.tail (.tail (.single (.push (.push 0 [] true)
      (Terms.rooted_plain 0 ?_ ?_))) (.push (.push 2 [] true) (Terms.rooted_plain 2 ?_ ?_)))
      (.setIteration (some 0)))
    all_goals decide +kernel
  obtain ⟨top, hframe, hread⟩ := (Option.any_eq_true (fun top : Frame =>
    top.definition = 2 ∧ top.iteration = some 0) lobbyLoop.topFrame?).mp (by decide +kernel)
  obtain ⟨hdefinition, hiteration⟩ := of_decide_eq_true hread
  have hd : lobby.get? top.definition = some lobby.definitions[2] := by
    rw [hdefinition]
    rfl
  have hr : (Request.here "post").Unmarked := ⟨by decide, nofun⟩
  have hmirror : lobbyLoop.mirrorOf? lobbyPaper none = some ⟨1, "paper"⟩ := by decide +kernel
  have hslots : (lobbyLoop.setIteration none).localSlots (.here "post") = [⟨2, "post"⟩] := by
    decide +kernel
  have hother : none ≠ top.iteration := by rw [hiteration]; nofun
  have hkey : DottedName.isLoopKey "post" = false := by decide
  have hunmarked : (Workspace.new lobby {}).Run .unmarked w := hrun.implies
    ⟨fun _ => trivial, False.elim, fun _ => trivial, fun _ => trivial⟩
  have hrooted : (Workspace.new lobby {}).Run .rooted w := hrun.implies
    ⟨fun h => h, fun _ => trivial, fun _ => trivial, fun _ => trivial⟩
  obtain ⟨hvalue, hput⟩ :=
    iterations_apart lobby_undotted lobby_unmarked hunmarked hs hframe hd rfl hother hkey
  obtain ⟨bound, hbound, hlookup⟩ := hvalue (.text "bill")
  refine ⟨hmirror, by decide +kernel, hput hrooted (by decide) lobbyPaper none _ rfl hr ?_, bound, hbound,
    hlookup _ rfl hr⟩
  intro l hl hmem
  rw [hmirror] at hl
  rw [hslots, ← Option.some.inj hl] at hmem
  exact absurd hmem (by decide)

/-- At the desk, after a visit to the stand. -/
def lobbyReturned : Session :=
  match (lobbyDesk.push 3 [] true).2.pop with
  | .ok back => back
  | .error _ => lobbyDesk

/-- **What is passed on reaches other iterations.** The stand keeps its paper in the cache of the hall,
    and the desk keeps that slot under the paper's full name, in a table that is not durable. A paper of
    the hall that is put at the desk, in a loop, is passed on to this slot; the desk finds it there out
    of the loop. -/
theorem iteration_reached :
    lobbyReturned.topDefinition? = some 2 ∧
      lobbyReturned.topFrame?.all (fun top =>
        (top.keepPointer? lobbyReturned.store "stand.paper").any fun p =>
          !decide (lobbyReturned.engine.Durable p.table) && !decide (top.Owns p.table)) = true ∧
      ((lobbyReturned.setIteration none).lookup (.here "stand.paper")).1.toOption = some none ∧
      ((((lobbyReturned.setIteration (some 0)).putWithin "news" lobbyPaper none).2.setIteration
        none).lookup (.here "stand.paper")).1.toOption = some (some (.text "news")) := by
  decide +kernel

end Workspace

end KeepTree
