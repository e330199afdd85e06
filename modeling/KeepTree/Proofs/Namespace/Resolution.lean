import KeepTree.Proofs.Namespace.Closed

/-!
# Resolution of indirect definitions

The links behind a definition, said without counting steps: where each kind of indirect definition
leads, and where a row of such links comes to.

* `resolveWithin_reaches` -- **a bounded resolution follows the links** up to an end or to its bound;
* `canonical_exact` -- what it answers, exactly, and that the bound does not matter but for loops.
-/

namespace KeepTree.Namespace

/-! ## 1. Links -/

/-- What is one link behind a definition that was given arguments. Names are read where the definition
    is declared, or in `scope` if it has no owner; that of an element where its collection is declared.
    An alias without arguments, a flavor and a wrapper pass on what they were given. -/
inductive Behind (ns : Namespace) (scope : Option DefId) (d : Definition) (given : List Argument) :
    Bound → Prop where
  | aliasBare {target : Call} {next : DefId} (kind : d.kind = .aliasOf target)
    (bare : target.arguments = [])
    (found : ns.lookupFrom (d.owner.or scope) target.name = .ok (some next)) :
    Behind ns scope d given ⟨next, given⟩
  | aliasWith {target : Call} {next : DefId} (kind : d.kind = .aliasOf target)
    (own : target.arguments ≠ [])
    (found : ns.lookupFrom (d.owner.or scope) target.name = .ok (some next)) :
    Behind ns scope d given ⟨next, target.arguments⟩
  | elementRef {name : String} {index : Nat} {listing next : DefId} {collection : Definition}
    {elements : List Call} {element : Call} (kind : d.kind = .elementRef name index)
    (among : ns.lookupFrom (d.owner.or scope) name = .ok (some listing))
    (held : ns.get? listing = some collection) (lists : collection.kind = .collection elements)
    (at_index : elements[index]? = some element)
    (found : ns.lookupFrom collection.owner element.name = .ok (some next)) :
    Behind ns scope d given ⟨next, element.arguments⟩
  | flavor {next : DefId} (kind : d.kind = .flavor next) : Behind ns scope d given ⟨next, given⟩
  | typeWrapper {next : DefId} (kind : d.kind = .typeWrapper next) :
    Behind ns scope d given ⟨next, given⟩
  | collectionElement {call : Call} {next : DefId} (kind : d.kind = .collectionElement call)
    (found : ns.lookupFrom (d.owner.or scope) call.name = .ok (some next)) :
    Behind ns scope d given ⟨next, call.arguments⟩

/-- One link from a definition with its arguments to the next. -/
def StandsFor (ns : Namespace) (scope : Option DefId) (b c : Bound) : Prop :=
  ∃ d, ns.get? b.definition = some d ∧ ns.Behind scope d b.arguments c

/-- A number of links in a row. -/
inductive Reaches (ns : Namespace) (scope : Option DefId) : Nat → Bound → Bound → Prop where
  | refl {b : Bound} : Reaches ns scope 0 b b
  | link {n : Nat} {b c e : Bound} (first : ns.StandsFor scope b c) (rest : Reaches ns scope n c e) :
    Reaches ns scope (n + 1) b e

variable {ns : Namespace} {scope : Option DefId} {d : Definition} {given : List Argument}
  {b c e r : Bound} {n m : Nat}

theorem bindName_eq_ok {inside : Option DefId} {name : String} {args : List Argument} :
    ns.bindName inside name args = .ok (some c) ↔
      ∃ next, ns.lookupFrom inside name = .ok (some next) ∧ c = ⟨next, args⟩ := by
  rw [bindName]
  rcases ns.lookupFrom inside name with gap | _ | next <;> simp [Except.map, eq_comm]

theorem element?_eq_some {index : Nat} {listing : DefId} {owner : Option DefId} {element : Call} :
    ns.element? index listing = some (owner, element) ↔ ∃ collection elements,
      ns.get? listing = some collection ∧ collection.kind = .collection elements ∧
      elements[index]? = some element ∧ collection.owner = owner := by
  unfold element?
  cases ns.get? listing with
  | none => simp
  | some collection => cases hkind : collection.kind <;> simp [hkind]

theorem behind_iff : ns.Behind scope d given c ↔ ns.behind scope d given = .ok (some c) := by
  constructor
  · intro h
    cases h with
    | aliasBare kind bare found =>
      simp only [behind, kind, bare, List.isEmpty_nil, if_true]
      exact bindName_eq_ok.mpr ⟨_, found, rfl⟩
    | aliasWith kind own found =>
      simp only [behind, kind, List.isEmpty_iff, if_neg own]
      exact bindName_eq_ok.mpr ⟨_, found, rfl⟩
    | elementRef kind among held lists at_index found =>
      have helement := element?_eq_some.mpr ⟨_, _, held, lists, at_index, rfl⟩
      simp only [behind, kind, among, Option.bind_some, helement]
      exact bindName_eq_ok.mpr ⟨_, found, rfl⟩
    | flavor kind => simp only [behind, kind]
    | typeWrapper kind => simp only [behind, kind]
    | collectionElement kind found =>
      simp only [behind, kind]
      exact bindName_eq_ok.mpr ⟨_, found, rfl⟩
  · intro h
    unfold behind at h
    cases hkind : d.kind with
    | plain => simp only [hkind, Except.ok.injEq, reduceCtorEq] at h
    | site => simp only [hkind, Except.ok.injEq, reduceCtorEq] at h
    | collection elements => simp only [hkind, Except.ok.injEq, reduceCtorEq] at h
    | aliasOf target =>
      simp only [hkind] at h
      obtain ⟨next, hfd, rfl⟩ := bindName_eq_ok.mp h
      by_cases hbare : target.arguments = []
      · simp only [hbare, List.isEmpty_nil, if_true]
        exact .aliasBare hkind hbare hfd
      · simp only [List.isEmpty_iff, if_neg hbare]
        exact .aliasWith hkind hbare hfd
    | elementRef name index =>
      simp only [hkind] at h
      split at h
      · cases h
      · rename_i found hfd
        split at h
        · rename_i owner element helement
          obtain ⟨listing, rfl, helement⟩ := Option.bind_eq_some_iff.mp helement
          obtain ⟨collection, elements, hheld, hlists, hidx, rfl⟩ := element?_eq_some.mp helement
          obtain ⟨next, hnext, rfl⟩ := bindName_eq_ok.mp h
          exact .elementRef hkind hfd hheld hlists hidx hnext
        · cases h
    | flavor next =>
      simp only [hkind, Except.ok.injEq, Option.some.injEq] at h
      exact h ▸ .flavor hkind
    | typeWrapper next =>
      simp only [hkind, Except.ok.injEq, Option.some.injEq] at h
      exact h ▸ .typeWrapper hkind
    | collectionElement call =>
      simp only [hkind] at h
      obtain ⟨next, hfd, rfl⟩ := bindName_eq_ok.mp h
      exact .collectionElement hkind hfd

theorem Behind.isIndirect (h : ns.Behind scope d given c) : d.kind.isIndirect = true := by
  cases h with
  | aliasBare kind | aliasWith kind | elementRef kind | flavor kind | typeWrapper kind
  | collectionElement kind => rw [kind]; rfl

theorem Behind.rebind (h : ns.Behind scope d given c) (given' : List Argument) :
    ∃ args, ns.Behind scope d given' ⟨c.definition, args⟩ := by
  cases h with
  | aliasBare kind bare found => exact ⟨_, .aliasBare kind bare found⟩
  | aliasWith kind own found => exact ⟨_, .aliasWith kind own found⟩
  | elementRef kind among held lists at_index found =>
    exact ⟨_, .elementRef kind among held lists at_index found⟩
  | flavor kind => exact ⟨_, .flavor kind⟩
  | typeWrapper kind => exact ⟨_, .typeWrapper kind⟩
  | collectionElement kind found => exact ⟨_, .collectionElement kind found⟩

theorem StandsFor.unique (h : ns.StandsFor scope b c) (h' : ns.StandsFor scope b e) : c = e := by
  obtain ⟨d, hd, hbehind⟩ := h
  obtain ⟨d', hd', hbehind'⟩ := h'
  cases hd.symm.trans hd'
  exact Option.some.inj (Except.ok.inj ((behind_iff.mp hbehind).symm.trans (behind_iff.mp hbehind')))

/-! ## 2. Links in a row -/

section

variable (h : ns.Reaches scope n b c)
include h

theorem Reaches.trans (h' : ns.Reaches scope m c e) : ns.Reaches scope (m + n) b e := by
  induction h with
  | refl => exact h'
  | link first _ ih => exact .link first (ih h')

theorem Reaches.shorten (hle : m ≤ n) : ∃ e, ns.Reaches scope m b e := by
  induction h generalizing m with
  | refl =>
    obtain rfl := Nat.le_zero.mp hle
    exact ⟨_, .refl⟩
  | link first _ ih =>
    cases m with
    | zero => exact ⟨_, .refl⟩
    | succ m =>
      obtain ⟨e, he⟩ := ih (Nat.le_of_succ_le_succ hle)
      exact ⟨e, .link first he⟩

theorem Reaches.rebind (args : List Argument) :
    ∃ args', ns.Reaches scope n ⟨b.definition, args⟩ ⟨c.definition, args'⟩ := by
  induction h generalizing args with
  | refl => exact ⟨args, .refl⟩
  | link first _ ih =>
    obtain ⟨d, hd, hbehind⟩ := first
    obtain ⟨between, hfst⟩ := hbehind.rebind args
    obtain ⟨last, hrest⟩ := ih between
    exact ⟨last, .link ⟨d, hd, hfst⟩ hrest⟩

/-- **A row that comes back to a definition goes on forever.** -/
theorem Reaches.endless (hround : ns.Reaches scope (m + 1) c e)
    (hback : e.definition = c.definition) (length : Nat) : ∃ x, ns.Reaches scope length b x := by
  have hrounds : ∀ rounds, ∃ total args, rounds ≤ total ∧
      ns.Reaches scope total b ⟨c.definition, args⟩ := by
    intro rounds
    induction rounds with
    | zero => exact ⟨n, c.arguments, Nat.zero_le _, h⟩
    | succ rounds ih =>
      obtain ⟨total, args, hle, htotal⟩ := ih
      obtain ⟨args', hnext⟩ := hround.rebind args
      exact ⟨_, args', by omega, hback ▸ htotal.trans hnext⟩
  obtain ⟨total, args, hle, htotal⟩ := hrounds length
  exact htotal.shorten hle

end

/-! ## 3. Ends -/

/-- A definition that stands for itself, with its parameters filled up. -/
def Settled (ns : Namespace) (b r : Bound) : Prop :=
  ∃ d, ns.get? b.definition = some d ∧ d.kind.isIndirect = false ∧ r.definition = b.definition ∧
    r.arguments = b.arguments ++
      List.replicate (d.parameters.length - b.arguments.length) Argument.missing

/-- An indirect definition that leads to nothing. -/
def Stuck (ns : Namespace) (scope : Option DefId) (b : Bound) : Prop :=
  (∃ d, ns.get? b.definition = some d ∧ d.kind.isIndirect = true) ∧ ¬ ∃ c, ns.StandsFor scope b c

theorem Settled.no_link (h : ns.Settled b r) : ¬ ∃ c, ns.StandsFor scope b c := by
  rintro ⟨c, d, hd, hbehind⟩
  obtain ⟨d', hd', hdir, _⟩ := h
  cases hd.symm.trans hd'
  cases hdir.symm.trans hbehind.isIndirect

theorem Settled.unique {r' : Bound} (h : ns.Settled b r) (h' : ns.Settled b r') : r = r' := by
  obtain ⟨d, hd, _, hdef, harg⟩ := h
  obtain ⟨d', hd', _, hdef', harg'⟩ := h'
  cases hd.symm.trans hd'
  exact congr (congrArg Bound.mk (hdef.trans hdef'.symm)) (harg.trans harg'.symm)

theorem Settled.not_stuck (h : ns.Settled b r) : ¬ ns.Stuck scope b := by
  rintro ⟨⟨d, hd, hindirect⟩, _⟩
  obtain ⟨d', hd', hdir, _⟩ := h
  cases hd.symm.trans hd'
  cases hdir.symm.trans hindirect

theorem Settled.again (h : ns.Settled b r) : ns.Settled r r := by
  obtain ⟨d, hd, hdir, hdef, harg⟩ := h
  refine ⟨d, hdef ▸ hd, hdir, rfl, ?_⟩
  have hfull : d.parameters.length - r.arguments.length = 0 := by
    rw [harg, List.length_append, List.length_replicate]
    omega
  rw [hfull, List.replicate_zero, List.append_nil]

theorem Reaches.le_of_end (h : ns.Reaches scope n b c) (hend : ¬ ∃ e, ns.StandsFor scope c e)
    (h' : ns.Reaches scope m b e) : m ≤ n := by
  induction h generalizing m with
  | refl =>
    cases h' with
    | refl => exact Nat.le_refl _
    | link first _ => exact absurd ⟨_, first⟩ hend
  | link first _ ih =>
    cases h' with
    | refl => exact Nat.zero_le _
    | link first' rest' =>
      obtain rfl := first.unique first'
      exact Nat.succ_le_succ (ih hend rest')

theorem Reaches.unique (h : ns.Reaches scope n b c) (h' : ns.Reaches scope n b e) : c = e := by
  induction h with
  | refl => cases h' with | refl => rfl
  | link first _ ih =>
    cases h' with
    | link first' rest' =>
      obtain rfl := first.unique first'
      exact ih rest'

theorem Reaches.end_unique (h : ns.Reaches scope n b c) (hend : ¬ ∃ x, ns.StandsFor scope c x)
    (h' : ns.Reaches scope m b e) (hend' : ¬ ∃ x, ns.StandsFor scope e x) : c = e := by
  obtain rfl : m = n := Nat.le_antisymm (h.le_of_end hend h') (h'.le_of_end hend' h)
  exact h.unique h'

/-! ## 4. Bounded resolution -/

theorem resolveWithin_succ (hclosed : ns.Closed) (hb : b.definition < ns.size) :
    (∃ r, ns.Settled b r ∧ ∀ steps, ns.resolveWithin scope (steps + 1) b = .canonical r) ∨
    (ns.Stuck scope b ∧ ∀ steps, ns.resolveWithin scope (steps + 1) b = .nothing) ∨
    ∃ c, ns.StandsFor scope b c ∧ c.definition < ns.size ∧
      ∀ steps, ns.resolveWithin scope (steps + 1) b = ns.resolveWithin scope steps c := by
  obtain ⟨d, hfind, hd⟩ := find_of_lt hb
  simp only [resolveWithin, hfind]
  cases hindirect : d.kind.isIndirect with
  | false =>
    exact .inl ⟨⟨b.definition, Argument.pad b.arguments d.parameters⟩,
      ⟨d, hd, hindirect, rfl, rfl⟩, fun _ => rfl⟩
  | true =>
    obtain ⟨found, hbehind, hheld⟩ := hclosed.behind hd scope b.arguments
    simp only [hbehind, if_true]
    cases found with
    | none =>
      refine .inr (.inl ⟨⟨⟨d, hd, hindirect⟩, ?_⟩, fun _ => rfl⟩)
      rintro ⟨c, d', hd', hnext⟩
      cases hd.symm.trans hd'
      cases hbehind.symm.trans (behind_iff.mp hnext)
    | some c => exact .inr (.inr ⟨c, ⟨d, hd, behind_iff.mpr hbehind⟩, hheld c rfl, fun _ => rfl⟩)

/-- **A bounded resolution follows the links**, up to an end of the row or to its bound. -/
theorem resolveWithin_reaches (hclosed : ns.Closed) : ∀ (steps : Nat) {b : Bound}, b.definition < ns.size →
    (∃ c, ns.Reaches scope steps b c ∧ ns.resolveWithin scope steps b = .endless) ∨
    (∃ n < steps, ∃ c, ns.Reaches scope n b c ∧ ns.Stuck scope c ∧
      ns.resolveWithin scope steps b = .nothing) ∨
    ∃ n < steps, ∃ c r, ns.Reaches scope n b c ∧ ns.Settled c r ∧
      ns.resolveWithin scope steps b = .canonical r
  | 0, b, _ => .inl ⟨b, .refl, rfl⟩
  | steps + 1, b, hb => by
    rcases resolveWithin_succ hclosed hb with ⟨r, hr, heq⟩ | ⟨hstuck, heq⟩ |
      ⟨next, hnext, hheld, heq⟩
    · exact .inr (.inr ⟨0, Nat.zero_lt_succ _, b, r, .refl, hr, heq steps⟩)
    · exact .inr (.inl ⟨0, Nat.zero_lt_succ _, b, .refl, hstuck, heq steps⟩)
    · rw [heq steps]
      rcases resolveWithin_reaches hclosed steps hheld with ⟨c, hc, hres⟩ | ⟨n, hn, c, hc, hend⟩ |
        ⟨n, hn, c, r, hc, hend⟩
      · exact .inl ⟨c, .link hnext hc, hres⟩
      · exact .inr (.inl ⟨n + 1, Nat.succ_lt_succ hn, c, .link hnext hc, hend⟩)
      · exact .inr (.inr ⟨n + 1, Nat.succ_lt_succ hn, c, r, .link hnext hc, hend⟩)

section Canonical

variable (hclosed : ns.Closed) (hb : b.definition < ns.size) (scope : Option DefId)

include hclosed hb

/-- **An answer is the end of the row**, if that is within the limit. -/
theorem canonical_of_reaches (limit : Nat) :
    (∃ c, ns.Reaches scope (limit + 1) b c ∧ ns.canonical b scope limit =
      .error (.dereferenceLoop (ns.fullName b.definition) limit)) ∨
    (∃ n ≤ limit, ∃ c, ns.Reaches scope n b c ∧ ns.Stuck scope c ∧
      ns.canonical b scope limit = .ok none) ∨
    ∃ n ≤ limit, ∃ c r, ns.Reaches scope n b c ∧ ns.Settled c r ∧
      ns.canonical b scope limit = .ok (some r) := by
  unfold canonical
  rcases resolveWithin_reaches hclosed (limit + 1) hb with ⟨c, hc, h⟩ | ⟨n, hn, c, hc, hend, h⟩ |
    ⟨n, hn, c, r, hc, hend, h⟩
  · exact .inl ⟨c, hc, by rw [h]⟩
  · exact .inr (.inl ⟨n, Nat.le_of_lt_succ hn, c, hc, hend, by rw [h]⟩)
  · exact .inr (.inr ⟨n, Nat.le_of_lt_succ hn, c, r, hc, hend, by rw [h]⟩)

theorem canonical_loop_iff (limit : Nat) : ns.canonical b scope limit =
    .error (.dereferenceLoop (ns.fullName b.definition) limit) ↔
      ∃ c, ns.Reaches scope (limit + 1) b c := by
  rcases canonical_of_reaches hclosed hb scope limit with ⟨c, hc, h⟩ | ⟨n, hn, c, hc, hend, h⟩ |
    ⟨n, hn, c, r, hc, hend, h⟩ <;> rw [h]
  · exact iff_of_true rfl ⟨c, hc⟩
  · refine iff_of_false nofun ?_
    rintro ⟨e, he⟩
    have hle := hc.le_of_end hend.2 he
    omega
  · refine iff_of_false nofun ?_
    rintro ⟨e, he⟩
    have hle := hc.le_of_end hend.no_link he
    omega

theorem canonical_nothing_iff (limit : Nat) : ns.canonical b scope limit = .ok none ↔
    ∃ n ≤ limit, ∃ c, ns.Reaches scope n b c ∧ ns.Stuck scope c := by
  rcases canonical_of_reaches hclosed hb scope limit with ⟨c, hc, h⟩ | ⟨n, hn, c, hc, hend, h⟩ |
    ⟨n, hn, c, r, hc, hend, h⟩ <;> rw [h]
  · refine iff_of_false nofun ?_
    rintro ⟨n, hn, e, he, hend⟩
    have hle := he.le_of_end hend.2 hc
    omega
  · exact iff_of_true rfl ⟨n, hn, c, hc, hend⟩
  · refine iff_of_false nofun ?_
    rintro ⟨m, hm, e, he, hstuck⟩
    obtain rfl := hc.end_unique hend.no_link he hstuck.2
    exact hend.not_stuck hstuck

theorem canonical_some_iff (limit : Nat) (r : Bound) : ns.canonical b scope limit = .ok (some r) ↔
    ∃ n ≤ limit, ∃ c, ns.Reaches scope n b c ∧ ns.Settled c r := by
  constructor
  · intro h
    rcases canonical_of_reaches hclosed hb scope limit with ⟨c, hc, h'⟩ | ⟨n, hn, c, hc, hend, h'⟩ |
      ⟨n, hn, c, r', hc, hend, h'⟩
    · cases h.symm.trans h'
    · cases h.symm.trans h'
    · cases h.symm.trans h'
      exact ⟨n, hn, c, hc, hend⟩
  · rintro ⟨n, hn, c, hc, hend⟩
    rcases canonical_of_reaches hclosed hb scope limit with ⟨e, he, _⟩ | ⟨m, hm, e, he, hstuck, h⟩ |
      ⟨m, hm, e, r', he, hend', h⟩
    · have hle := hc.le_of_end hend.no_link he
      omega
    · obtain rfl := hc.end_unique hend.no_link he hstuck.2
      exact absurd hstuck hend.not_stuck
    · obtain rfl := hc.end_unique hend.no_link he hend'.no_link
      rw [h, hend.unique hend']

end Canonical

/-- **Resolution is exact.** It finds a loop just if there are more links than the limit, nothing just if
    the row of links ends within the limit at an indirect definition, and else the definition at its
    end, with its parameters filled up. A row that comes back to a definition is a loop for every
    limit. An answer is the same for every larger limit, and is its own answer everywhere. -/
theorem canonical_exact (hclosed : ns.Closed) (hb : b.definition < ns.size)
    (scope : Option DefId) :
    (∀ limit, ns.canonical b scope limit =
      .error (.dereferenceLoop (ns.fullName b.definition) limit) ↔
        ∃ c, ns.Reaches scope (limit + 1) b c) ∧
    (∀ limit, ns.canonical b scope limit = .ok none ↔
      ∃ n ≤ limit, ∃ c, ns.Reaches scope n b c ∧ ns.Stuck scope c) ∧
    (∀ limit r, ns.canonical b scope limit = .ok (some r) ↔
      ∃ n ≤ limit, ∃ c, ns.Reaches scope n b c ∧ ns.Settled c r) ∧
    (∀ limit, ns.canonical b scope limit =
      .error (.dereferenceLoop (ns.fullName b.definition) limit) ∨
        ∃ answer, ns.canonical b scope limit = .ok answer) ∧
    (∀ n m c e, ns.Reaches scope n b c → ns.Reaches scope (m + 1) c e →
      e.definition = c.definition → ∀ limit, ns.canonical b scope limit =
        .error (.dereferenceLoop (ns.fullName b.definition) limit)) ∧
    (∀ limit more answer, limit ≤ more → ns.canonical b scope limit = .ok answer →
      ns.canonical b scope more = .ok answer) ∧
    ∀ limit r, ns.canonical b scope limit = .ok (some r) →
      (∃ d, ns.get? r.definition = some d ∧ d.parameters.length ≤ r.arguments.length) ∧
      ∀ inside again, ns.canonical r inside again = .ok (some r) := by
  have hloop := canonical_loop_iff hclosed hb scope
  have hnothing := canonical_nothing_iff hclosed hb scope
  have hsome := canonical_some_iff hclosed hb scope
  refine ⟨hloop, hnothing, hsome, fun limit => ?_, fun n m c e hc hround hback limit => ?_,
    fun limit more answer hle h => ?_, fun limit r h => ?_⟩
  · rcases canonical_of_reaches hclosed hb scope limit with ⟨c, _, h⟩ | ⟨n, _, c, _, _, h⟩ |
      ⟨n, _, c, r, _, _, h⟩
    · exact .inl h
    · exact .inr ⟨_, h⟩
    · exact .inr ⟨_, h⟩
  · exact (hloop limit).mpr (hc.endless hround hback (limit + 1))
  · cases answer with
    | none =>
      obtain ⟨n, hn, hend⟩ := (hnothing limit).mp h
      exact (hnothing more).mpr ⟨n, Nat.le_trans hn hle, hend⟩
    | some r =>
      obtain ⟨n, hn, hend⟩ := (hsome limit r).mp h
      exact (hsome more r).mpr ⟨n, Nat.le_trans hn hle, hend⟩
  · obtain ⟨n, _, c, _, hsettled⟩ := (hsome limit r).mp h
    obtain ⟨d, hd, hdirect, hdef, harg⟩ := hsettled.again
    have hlength := congrArg List.length harg
    rw [List.length_append, List.length_replicate] at hlength
    refine ⟨⟨d, hd, by omega⟩, fun inside again => ?_⟩
    exact (canonical_some_iff hclosed (lt_of_get? hd) inside again r).mpr
      ⟨0, Nat.zero_le _, r, .refl, d, hd, hdirect, hdef, harg⟩

/-- A card, two names for it behind each other, and two names that stand for each other. -/
def cards : Namespace where
  definitions := #[
    { name := "card", fullName := "card", parameters := ["title"] },
    { name := "pass", fullName := "pass", kind := .aliasOf ⟨"card", []⟩ },
    { name := "ticket", fullName := "ticket", kind := .flavor 1 },
    { name := "left", fullName := "left", kind := .aliasOf ⟨"right", []⟩ },
    { name := "right", fullName := "right", kind := .aliasOf ⟨"left", []⟩ }]
  roots := ((((Dictionary.empty.insert "card" 0).insert "pass" 1).insert "ticket" 2).insert
    "left" 3).insert "right" 4

theorem canonical_exact_cards : cards.Closed ∧
    cards.canonical ⟨2, []⟩ none 1 = .error (.dereferenceLoop "ticket" 1) ∧
    cards.canonical ⟨2, []⟩ none 2 = .ok (some ⟨0, [.missing]⟩) ∧
    ∀ limit, cards.canonical ⟨3, []⟩ none limit = .error (.dereferenceLoop "left" limit) := by
  have hclosed : cards.Closed := closed_of_isClosed (by decide +kernel)
  have hticket : cards.Reaches none 2 ⟨2, []⟩ ⟨0, []⟩ :=
    .link ⟨_, rfl, .flavor rfl⟩ (.link ⟨_, rfl, .aliasBare rfl rfl rfl⟩ .refl)
  have hleft : cards.StandsFor none ⟨3, []⟩ ⟨4, []⟩ := ⟨_, rfl, .aliasBare rfl rfl rfl⟩
  have hright : cards.StandsFor none ⟨4, []⟩ ⟨3, []⟩ := ⟨_, rfl, .aliasBare rfl rfl rfl⟩
  obtain ⟨hloop, _, hsome, _⟩ := canonical_exact (b := ⟨2, []⟩) hclosed (by decide) none
  obtain ⟨_, _, _, _, hendless, _⟩ := canonical_exact (b := ⟨3, []⟩) hclosed (by decide) none
  exact ⟨hclosed, (hloop 1).mpr ⟨_, hticket⟩,
    (hsome 2 _).mpr ⟨2, Nat.le_refl 2, _, hticket, _, rfl, rfl, rfl, rfl⟩,
    hendless 0 1 _ _ .refl (.link hleft (.link hright .refl)) rfl⟩

end KeepTree.Namespace
