import KeepTree.Proofs.Keeping.Targets

/-!
# Chains of pointers

A slot that a pointer names may hold a pointer again, in another table or the same one, and chains may
run in a circle. A read and a write each go along the chain, and give up after as many slots as they may
look at. Here they are said one slot at a time, beside the chain itself:

* `Chain`, `Ends` -- a number of slots in a row that hold pointers, and a slot that holds none;
* `reading`, `writing` -- the two walks as they run: a read counts the slots that it looks at, a write
  those that it may still look at, and it leaves tables behind whatever comes of it;
* `Chain.comes_to`, `Chain.gives_up` -- **both end where the chain does, or give up at the same slot**;
* `pointers_read_as_written` -- so what is written through a pointer is read through it.
-/

namespace KeepTree

namespace Store

variable {s s' : Store} {iteration : Option Nat} {limit n : Nat} {p q : Pointer}

/-! ## 1. Chains -/

/-- So many slots in a row hold pointers: the first is that of `p`, each names the next, and `q` is in
    the last. -/
inductive Chain (s : Store) (iteration : Option Nat) : Nat → Pointer → Pointer → Prop
  | here {p : Pointer} : Chain s iteration 0 p p
  | hop {n : Nat} {p next q : Pointer} (first : s.at? (p.location iteration) = some (.pointer next))
      (rest : Chain s iteration n next q) : Chain s iteration (n + 1) p q

/-- The slot of the pointer holds no pointer. -/
def Ends (s : Store) (iteration : Option Nat) (p : Pointer) : Prop :=
  ∀ next, s.at? (p.location iteration) ≠ some (.pointer next)

/-- Every pointer in a table names a table. -/
def Housed (s : Store) : Prop := ∀ l p, s.at? l = some (.pointer p) → p.table < s.tables.size

/-- The tables hold only pointers that name a table. -/
def isHoused (s : Store) : Bool :=
  s.tables.all fun table => table.values.all fun entry =>
    entry.pointer?.all fun p => decide (p.table < s.tables.size)

theorem housed_of_isHoused (h : s.isHoused = true) : s.Housed := by
  intro l p hat
  have hlt := lt_of_get? hat
  rw [at?, get?, table, Array.getElem?_eq_getElem hlt, Option.getD_some] at hat
  have htab := Array.all_eq_true.mp h l.table hlt
  have hent := List.all_eq_true.mp htab _ (Dictionary.mem_values_iff.mpr ⟨l.key, hat⟩)
  exact of_decide_eq_true hent

theorem Chain.table_lt (hs : s.Housed) (hp : p.table < s.tables.size) (h : s.Chain iteration n p q) :
    q.table < s.tables.size := by
  induction h with
  | here => exact hp
  | hop first _ ih => exact ih (hs _ _ first)

theorem chain_or_ends (s : Store) (iteration : Option Nat) : ∀ (limit : Nat) (p : Pointer),
    (∃ q, s.Chain iteration limit p q) ∨
      ∃ n q, n < limit ∧ s.Chain iteration n p q ∧ s.Ends iteration q
  | 0, p => .inl ⟨p, .here⟩
  | limit + 1, p => by
    by_cases hends : s.Ends iteration p
    · exact .inr ⟨0, p, Nat.succ_pos limit, .here, hends⟩
    · obtain ⟨next, hnext⟩ := not_forall_not.mp hends
      rcases chain_or_ends s iteration limit next with ⟨q, hchain⟩ | ⟨n, q, hn, hchain, hends⟩
      · exact .inl ⟨q, .hop hnext hchain⟩
      · exact .inr ⟨n + 1, q, Nat.succ_lt_succ hn, .hop hnext hchain, hends⟩

/-! ## 2. Slot by slot -/

/-- Read at the end of a chain: so many slots may be looked at, and the first is number `hops`. -/
def reading (s : Store) (iteration : Option Nat) :
    Nat → Nat → Pointer → Except Pointer (Option Entry × Nat)
  | 0, _, p => .error p
  | left + 1, hops, p =>
    match s.at? (p.location iteration) with
    | some (.pointer next) => s.reading iteration left (hops + 1) next
    | found => .ok (found, hops)

/-- Write at the end of a chain, and the tables after that, whatever comes of it. -/
def writing (s : Store) (iteration : Option Nat) (limit : Nat) (entry : Entry) :
    Nat → Pointer → Except Fault Location × Store
  | 0, p => (.error (.pointerChainTooLong p.key limit), s)
  | left + 1, p =>
    match s.at? (p.location iteration) with
    | some (.pointer next) => s.writing iteration limit entry left next
    | _ => (.ok (p.location iteration), s.set (p.location iteration) entry)

theorem Ends.stops (h : s.Ends iteration q) (limit left hops : Nat) (entry : Entry) :
    s.chase iteration (left + 1) q = .ok (q, 1) ∧
      s.reading iteration (left + 1) hops q = .ok (s.at? (q.location iteration), hops) ∧
      s.writing iteration limit entry (left + 1) q =
        (.ok (q.location iteration), s.set (q.location iteration) entry) := by
  rw [chase, reading, writing]
  cases hat : s.at? (q.location iteration) with
  | none => exact ⟨rfl, rfl, rfl⟩
  | some found =>
    cases found with
    | pointer next => exact absurd hat (h next)
    | _ => exact ⟨rfl, rfl, rfl⟩

section

variable (h : s.Chain iteration n p q)
include h

theorem Chain.reading (left hops : Nat) :
    s.reading iteration (left + n) hops p = s.reading iteration left (hops + n) q := by
  induction h generalizing hops with
  | here => rfl
  | @hop n _ _ _ first _ ih =>
    rw [← Nat.add_assoc, Store.reading, first]
    simp only
    rw [ih, Nat.add_right_comm, Nat.add_assoc]

theorem Chain.writing (limit : Nat) (entry : Entry) (left : Nat) :
    s.writing iteration limit entry (left + n) p = s.writing iteration limit entry left q := by
  induction h with
  | here => rfl
  | hop first _ ih =>
    rw [← Nat.add_assoc, Store.writing, first]
    exact ih

theorem Chain.chase (left : Nat) : s.chase iteration (left + n) p =
    (s.chase iteration left q).map fun (last, hops) => (last, hops + n) := by
  induction h with
  | here => cases s.chase iteration left _ <;> rfl
  | hop first _ ih =>
    rw [← Nat.add_assoc, Store.chase, first]
    simp only [ih]
    cases s.chase iteration left _ <;> rfl

theorem Chain.gives_up (entry : Entry) :
    s.follow iteration n p = .error q ∧ s.reading iteration n 1 p = .error q ∧
      s.writeThrough iteration n p entry = .error (.pointerChainTooLong q.key n) ∧
      s.writing iteration n entry n p = (.error (.pointerChainTooLong q.key n), s) := by
  have hchase := h.chase 0
  have hreading := h.reading 0 1
  have hwriting := h.writing n entry 0
  rw [Nat.zero_add] at hchase hreading hwriting
  refine ⟨?_, hreading, ?_, hwriting⟩
  · rw [follow, hchase]
    rfl
  · rw [writeThrough, hchase]
    rfl

/-- Where the chain ends before, both walks come to its end. -/
theorem Chain.comes_to (hends : s.Ends iteration q) (hn : n < limit) (entry : Entry) :
    s.follow iteration limit p = .ok (s.at? (q.location iteration), n + 1) ∧
      s.reading iteration limit 1 p = .ok (s.at? (q.location iteration), n + 1) ∧
      s.writeThrough iteration limit p entry =
        .ok (q.location iteration, s.set (q.location iteration) entry) ∧
      s.writing iteration limit entry limit p =
        (.ok (q.location iteration), s.set (q.location iteration) entry) := by
  obtain ⟨left, rfl⟩ : ∃ left, limit = left + 1 + n := ⟨limit - n - 1, by omega⟩
  obtain ⟨hlast, hread, hwritten⟩ := hends.stops (left + 1 + n) left (1 + n) entry
  have hchase := h.chase (left + 1)
  rw [hlast] at hchase
  refine ⟨?_, ?_, ?_, (h.writing _ entry (left + 1)).trans hwritten⟩
  · rw [follow, hchase, Nat.add_comm n 1]
    rfl
  · rw [Nat.add_comm n 1, ← hread]
    exact h.reading (left + 1) 1
  · rw [writeThrough, hchase]
    rfl

end

/-! ## 3. Reading what was written -/

theorem Chain.mono (h : s.Chain iteration n p q)
    (hks : ∀ l next, s.at? l = some (.pointer next) → s'.at? l = some (.pointer next)) :
    s'.Chain iteration n p q := by
  induction h with
  | here => exact .here
  | hop first _ ih => exact .hop (hks _ _ first) ih

/-- **Writing through a pointer and reading through it agree**, on tables with any chains of pointers,
    circles included. A write fails exactly where a read does, and has changed nothing then. If it
    succeeds, it changes the slot that it names and no other, which held what was read before; and what is
    read then is what was written. -/
theorem pointers_read_as_written (hs : s.Housed) (hp : p.table < s.tables.size)
    (iteration : Option Nat) (limit : Nat) (holder : Holder) :
    s.reading iteration limit 1 p = s.follow iteration limit p ∧
    (s.writing iteration limit (.holder holder) limit p).1 =
      (s.writeThrough iteration limit p (.holder holder)).map (·.1) ∧
    (∀ fault, s.writeThrough iteration limit p (.holder holder) = .error fault ↔
      ∃ q, s.follow iteration limit p = .error q ∧ fault = .pointerChainTooLong q.key limit) ∧
    (∀ (session : Session) origin r, session.store = s → session.limits.maxPointerHops = limit →
      ((session.resolve origin r (.pointer p) iteration).1 =
          .error (.pointerChainTooLong r.key limit) ↔
        ∃ fault, s.writeThrough iteration limit p (.holder holder) = .error fault)) ∧
    (∀ fault, s.writeThrough iteration limit p (.holder holder) = .error fault →
      (s.writing iteration limit (.holder holder) limit p).2 = s) ∧
    ∀ l s', s.writeThrough iteration limit p (.holder holder) = .ok (l, s') →
      (s.writing iteration limit (.holder holder) limit p).2 = s' ∧ s.SameBut [l] s' ∧
      s'.tables.size = s.tables.size ∧ ∃ hops, s.follow iteration limit p = .ok (s.at? l, hops) ∧
        s'.follow iteration limit p = .ok (some (.holder holder), hops) := by
  rcases chain_or_ends s iteration limit p with ⟨q, hchain⟩ | ⟨n, q, hn, hchain, hends⟩
  · obtain ⟨hfollow, hreading, hwrite, hwriting⟩ := hchain.gives_up (.holder holder)
    rw [hfollow, hreading, hwrite, hwriting]
    refine ⟨rfl, rfl, by simp [eq_comm], fun session origin r hstore hlimit => ?_, fun _ _ => rfl,
      by simp⟩
    rw [Session.resolve, hstore, hlimit, hfollow]
    simp
  · obtain ⟨hfollow, hreading, hwrite, hwriting⟩ := hchain.comes_to hends hn (.holder holder)
    rw [hfollow, hreading, hwrite, hwriting]
    refine ⟨rfl, rfl, by simp, fun session origin r hstore hlimit => ?_, by simp, ?_⟩
    · rw [Session.resolve, hstore, hlimit, hfollow]
      cases s.at? (q.location iteration) <;> simp
    · rintro l s' ⟨⟩
      have hlt : (q.location iteration).table < s.tables.size := hchain.table_lt hs hp
      have hfills := set_fills hlt (.holder holder)
      -- the slot held no pointer, so the chain is as it was
      have hchain' := hchain.mono fun l next hnext =>
        (hfills.at?_eq l fun hmem => hends next (List.mem_singleton.mp hmem ▸ hnext)).trans hnext
      have hread := hfills.filled _ (List.mem_singleton.mpr rfl)
      have hends' : (s.set (q.location iteration) (.holder holder)).Ends iteration q := by
        intro next hnext
        cases hread.symm.trans hnext
      obtain ⟨hfollow', _⟩ := hchain'.comes_to hends' hn (.holder holder)
      refine ⟨rfl, hfills.toSameBut, by simp [set, write], n + 1, rfl, ?_⟩
      rw [hfollow', hread]

/-- The slot of a pointer in a table, for some definition. -/
def arrow (table : TableId) (key : String) : Pointer := ⟨.plain 0 key, none, key, none, table⟩

/-- A chain through two tables, and a circle beside it. -/
def arrows : Store where
  tables := #[
    (Dictionary.empty.insert "start" (.pointer (arrow 1 "middle"))).insert "east"
      (.pointer (arrow 1 "west")),
    (Dictionary.empty.insert "middle" (.pointer (arrow 0 "goal"))).insert "west"
      (.pointer (arrow 0 "east"))]
  keepMaps := #[]

theorem pointers_read_as_written_arrows : arrows.Housed ∧
    (∃ s hops, arrows.writeThrough none 3 (arrow 0 "start") (.holder (.of 0 [] none)) =
        .ok (⟨0, "goal"⟩, s) ∧
      s.follow none 3 (arrow 0 "start") = .ok (some (.holder (.of 0 [] none)), hops)) ∧
    ∃ fault, arrows.writeThrough none 9 (arrow 0 "east") (.holder (.of 0 [] none)) = .error fault := by
  have hhoused : arrows.Housed := housed_of_isHoused (by decide +kernel)
  obtain ⟨_, _, _, _, _, hwritten⟩ := pointers_read_as_written hhoused
    (show (arrow 0 "start").table < _ by decide) none 3 (.of 0 [] none)
  obtain ⟨_, _, hfails, _⟩ := pointers_read_as_written hhoused
    (show (arrow 0 "east").table < _ by decide) none 9 (.of 0 [] none)
  obtain ⟨_, _, _, hops, _, hread⟩ := hwritten ⟨0, "goal"⟩ _ rfl
  exact ⟨hhoused, ⟨_, hops, rfl, hread⟩, _, (hfails _).mpr ⟨_, rfl, rfl⟩⟩

end Store

end KeepTree
