import KeepTree.Proofs.Termination.Vocabulary
import KeepTree.Tree.Document

/-!
# No text writes a not-a-number

A not-a-number differs from itself, so a call that passes one is never recognised as in progress.
No such call can be written down, for numbers that are read are rounded to the nearest and have a
sign, and rounding comes to infinity at most:

* `Json.Numeric`, `Json.read?_numeric` -- **a document that was read holds numbers only**;
* `Call.readsNumeric`, `Body.readsNumeric` -- **calls and bodies that were read hold none**.
-/

namespace KeepTree

open Value Binary64 List Option Binary64

variable {depth : Nat} {json : Json} {x : Binary64} {members : List (Option String × Json)}
  {as arguments : List Argument} {call : Call} {bs : List Body} {b : Body}

/-! ## 1. Words -/

namespace Binary64

theorem isNaN_ofNat {word : Nat} (h : word ≤ infinity) : isNaN ⟨UInt64.ofNat word⟩ = false := by
  have hword : word ≤ 9218868437227405312 := h
  have hbits : (UInt64.ofNat word).toNat = word :=
    UInt64.toNat_ofNat_of_lt' (Nat.lt_of_le_of_lt hword (by decide))
  have hexponent : exponentField ⟨UInt64.ofNat word⟩ = word / 4503599627370496 % 2048 := by
    rw [exponentField, hbits]
  have hfraction : fraction ⟨UInt64.ofNat word⟩ = word % 4503599627370496 := by
    rw [fraction, hbits]
  rw [isNaN, Bool.and_eq_false_imp]
  intro hlast
  rw [beq_iff_eq] at hlast
  rw [bne_eq_false_iff_eq]
  omega

theorem isNaN_nearest (num den : Nat) : (nearest num den).isNaN = false := by
  unfold nearest
  split
  · rfl
  · exact isNaN_ofNat (Nat.min_le_right _ _)

theorem isNaN_negate (x : Binary64) : x.negate.isNaN = x.isNaN := by
  have hbits : x.negate.bits.toNat = x.bits.toNat ^^^ 9223372036854775808 := UInt64.toNat_xor _ _
  have hexponent : x.negate.exponentField = x.exponentField := by
    show x.negate.bits.toNat / 2 ^ 52 % 2 ^ 11 = x.bits.toNat / 2 ^ 52 % 2 ^ 11
    rw [hbits, Nat.xor_div_two_pow, Nat.xor_mod_two_pow]
    exact Nat.xor_zero _
  have hfraction : x.negate.fraction = x.fraction := by
    show x.negate.bits.toNat % 2 ^ 52 = x.bits.toNat % 2 ^ 52
    rw [hbits, Nat.xor_mod_two_pow]
    exact Nat.xor_zero _
  rw [isNaN, isNaN, hexponent, hfraction]

end Binary64

/-! ## 2. Documents -/

namespace Json

/-- All floating-point words in the document are numbers. -/
inductive Numeric : Json → Prop
  | null : Numeric .null
  | bool (b : Bool) : Numeric (.bool b)
  | int (n : Int) : Numeric (.int n)
  | float {x : Binary64} : x.isNaN = false → Numeric (.float x)
  | string (s : String) : Numeric (.string s)
  | array {items : List Json} : (∀ item ∈ items, Numeric item) → Numeric (.array items)
  | object {members : List (String × Json)} :
      (∀ member ∈ members, Numeric member.2) → Numeric (.object members)
  | unreadable : Numeric .unreadable

namespace Numeral

theorem scaled_isNaN {significand : Nat} {exponent : Int} (h : scaled significand exponent = some x) :
    x.isNaN = false := by
  unfold scaled at h
  simp only at h
  split at h
  · split at h
    · cases h
      exact isNaN_nearest _ _
    · split at h
      · cases h
      · split at h
        · cases h
        · cases h
          exact isNaN_nearest _ _
  · cases h
    exact isNaN_nearest _ _

theorem approximate_isNaN {n : Numeral} (h : n.approximate = some x) : x.isNaN = false := by
  unfold approximate at h
  simp only at h
  split at h
  · exact scaled_isNaN h
  · split at h
    · exact scaled_isNaN h
    · split at h
      · cases h
        rfl
      · cases h

theorem toJson_numeric (n : Numeral) : n.toJson.Numeric := by
  unfold toJson
  simp only
  split
  · exact .int _
  · split
    · rename_i x hx
      refine .float ?_
      split
      · rw [isNaN_negate]
        exact approximate_isNaN hx
      · exact approximate_isNaN hx
    · exact .unreadable

end Numeral

end Json

theorem mem_of_mapM {α β : Type} {f : α → Option β} : ∀ {as : List α} {bs : List β},
    as.mapM f = some bs → ∀ b ∈ bs, ∃ a ∈ as, f a = some b
  | [], bs, h, b, hb => by
    obtain rfl : bs = [] := by simpa using h.symm
    cases hb
  | a :: as, bs, h, b, hb => by
    rw [mapM_cons] at h
    obtain ⟨first, hfst, h⟩ := bind_eq_some_iff.mp h
    obtain ⟨others, hothers, h⟩ := bind_eq_some_iff.mp h
    obtain rfl : first :: others = bs := by simpa using h
    rcases mem_cons.mp hb with rfl | hb
    · exact ⟨a, mem_cons_self, hfst⟩
    · obtain ⟨other, hmem, hoth⟩ := mem_of_mapM hothers b hb
      exact ⟨other, mem_cons_of_mem _ hmem, hoth⟩

namespace Json

theorem ofMembers_numeric (h : ∀ member ∈ members, member.2.Numeric) :
    (ofMembers members).Numeric := by
  unfold ofMembers
  split
  · rename_i found hfd
    refine .object fun member hmem => ?_
    obtain ⟨⟨name, value⟩, hold, hmap⟩ := mem_of_mapM hfd member hmem
    obtain ⟨_, _, rfl⟩ := map_eq_some_iff.mp hmap
    exact h _ hold
  · exact .unreadable

/-- What is read in this many steps holds numbers only. -/
structure ReadsNumeric (steps : Nat) : Prop where
  scan : ∀ {s json rest}, scan? steps s = some (json, rest) → json.Numeric
  items : ∀ {s items rest}, scanItems? steps s = some (items, rest) → ∀ item ∈ items, item.Numeric
  members : ∀ {s members rest}, scanMembers? steps s = some (members, rest) →
    ∀ member ∈ members, member.2.Numeric

section Step

variable {steps : Nat} {s rest : List Char}

theorem scan?_numeric (hr : ReadsNumeric steps) (h : scan? (steps + 1) s = some (json, rest)) :
    json.Numeric := by
  rw [scan?] at h
  split at h
  · cases h
    exact .null
  · cases h
    exact .bool _
  · cases h
    exact .bool _
  · split at h
    · cases h
      exact .string _
    · cases h
      exact .unreadable
    · cases h
  · split at h
    · cases h
      exact .array nofun
    · obtain ⟨⟨items, _⟩, hitems, hjson⟩ := map_eq_some_iff.mp h
      cases hjson
      exact .array (hr.items hitems)
  · split at h
    · cases h
      exact .object nofun
    · obtain ⟨⟨members, _⟩, hmembers, hjson⟩ := map_eq_some_iff.mp h
      cases hjson
      exact ofMembers_numeric (hr.members hmembers)
  · obtain ⟨⟨n, _⟩, _, hjson⟩ := map_eq_some_iff.mp h
    cases hjson
    exact n.toJson_numeric

theorem scanItems?_numeric (hr : ReadsNumeric steps) {items : List Json}
    (h : scanItems? (steps + 1) s = some (items, rest)) : ∀ item ∈ items, item.Numeric := by
  rw [scanItems?] at h
  split at h
  · cases h
  · rename_i item after hitem
    split at h
    · obtain ⟨⟨others, _⟩, hothers, heq⟩ := map_eq_some_iff.mp h
      cases heq
      exact forall_mem_cons.mpr ⟨hr.scan hitem, hr.items hothers⟩
    · cases h
      exact forall_mem_singleton.mpr (hr.scan hitem)
    · cases h

theorem scanMembers?_numeric (hr : ReadsNumeric steps)
    (h : scanMembers? (steps + 1) s = some (members, rest)) :
    ∀ member ∈ members, member.2.Numeric := by
  rw [scanMembers?] at h
  split at h
  · split at h
    · cases h
    · split at h
      · split at h
        · cases h
        · rename_i value after hval
          split at h
          · obtain ⟨⟨others, _⟩, hothers, heq⟩ := map_eq_some_iff.mp h
            cases heq
            exact forall_mem_cons.mpr ⟨hr.scan hval, hr.members hothers⟩
          · cases h
            exact forall_mem_singleton.mpr (hr.scan hval)
          · cases h
      · cases h
  · cases h

end Step

theorem readsNumeric (steps : Nat) : ReadsNumeric steps := by
  induction steps with
  | zero => exact ⟨nofun, nofun, nofun⟩
  | succ steps ih => exact ⟨scan?_numeric ih, scanItems?_numeric ih, scanMembers?_numeric ih⟩

/-- **A document that was read holds numbers only.** -/
theorem read?_numeric {text : String} (h : read? text = some json) : json.Numeric := by
  unfold read? at h
  simp only at h
  split at h
  · rename_i found rest hfd
    split at h
    · cases h
      exact (readsNumeric _).scan hfd
    · cases h
  · cases h

/-! ## 3. Records -/

/-- All fields hold numbers only. -/
def Record.Numeric (r : Record) : Prop := ∀ field json, r.lookup field = some json → json.Numeric

theorem mem_of_lookup {field : String} {json : Json} : ∀ {r : Record}, r.lookup field = some json →
    (field, json) ∈ r
  | (name, value) :: rest, h => by
    rw [lookup_cons] at h
    split at h
    · rename_i heq
      cases h
      obtain rfl := beq_iff_eq.mp heq
      exact mem_cons_self
    · exact mem_cons_of_mem _ (mem_of_lookup h)

theorem Numeric.record? {fields : List String} {json : Json} {r : Record} (h : json.Numeric)
    (hr : json.record? fields = some r) : r.Numeric := by
  intro field value hval
  have hmem := mem_of_lookup hval
  unfold Json.record? at hr
  cases h with
  | object hmembers =>
    simp only at hr
    split at hr
    · cases hr
      exact hmembers _ hmem
    · cases hr
  | array hitems =>
    simp only at hr
    split at hr
    · cases hr
      exact hitems _ (of_mem_zip hmem).2
    · cases hr
  | _ => cases hr

namespace Record

variable {α : Type} {r : Record} {field : String} {decode : Json → Option α} {a : α}
  {P : α → Prop}

theorem Numeric.required (h : r.Numeric)
    (hdecode : ∀ {json a}, json.Numeric → decode json = some a → P a)
    (ha : r.required field decode = some a) : P a := by
  obtain ⟨json, hjson, ha⟩ := bind_eq_some_iff.mp ha
  exact hdecode (h _ _ hjson) ha

theorem Numeric.optional (h : r.Numeric) {default : α} (hdefault : P default)
    (hdecode : ∀ {json a}, json.Numeric → decode json = some a → P a)
    (ha : r.optional field default decode = some a) : P a := by
  unfold Record.optional at ha
  split at ha
  · rename_i json hjson
    exact hdecode (h _ _ hjson) ha
  · exact Option.some.inj ha ▸ hdefault

end Record

end Json

/-! ## 4. Values, arguments and calls -/

mutual
/-- There is a not-a-number in the value. -/
def Value.hasNaN : Value → Bool
  | .float x => x.isNaN
  | .list items => anyNaN items
  | _ => false

/-- There is a not-a-number in one of the values. -/
def Value.anyNaN : List Value → Bool
  | [] => false
  | v :: rest => v.hasNaN || anyNaN rest
end

mutual
/-- There is a not-a-number in the argument, or in a call that is one. -/
def Argument.hasNaN : Argument → Bool
  | .value v => v.hasNaN
  | .call _ arguments => Argument.anyNaN arguments
  | .missing => false

/-- There is a not-a-number in one of the arguments. -/
def Argument.anyNaN : List Argument → Bool
  | [] => false
  | a :: rest => a.hasNaN || Argument.anyNaN rest
end

/-- There is a not-a-number in the arguments of the call. -/
def Call.hasNaN (call : Call) : Bool := Argument.anyNaN call.arguments

theorem Value.anyNaN_eq_false {vs : List Value} :
    anyNaN vs = false ↔ ∀ v ∈ vs, v.hasNaN = false := by
  induction vs with
  | nil => simp [anyNaN]
  | cons v rest ih => simp [anyNaN, ih]

theorem Argument.anyNaN_eq_false : anyNaN as = false ↔ ∀ a ∈ as, a.hasNaN = false := by
  induction as with
  | nil => simp [anyNaN]
  | cons a rest ih => simp [anyNaN, ih]

mutual
theorem Value.same_self : ∀ v : Value, v.hasNaN = false → v.same v = true
  | .null, _ => rfl
  | .bool b, _ => beq_self_eq_true b
  | .int n, _ => beq_self_eq_true n
  | .float _, h => Binary64.same_self h
  | .text s, _ => beq_self_eq_true s
  | .list items, h => sameAll_self items h

theorem Value.sameAll_self : ∀ vs : List Value, anyNaN vs = false → sameAll vs vs = true
  | [], _ => rfl
  | v :: rest, h => by
    rw [anyNaN, Bool.or_eq_false_iff] at h
    rw [sameAll, Value.same_self v h.1, sameAll_self rest h.2]
    rfl
end

mutual
theorem Argument.same_self : ∀ a : Argument, a.hasNaN = false → a.same a = true
  | .value v, h => by
    exact v.same_self h
  | .call name arguments, h => by
    rw [Argument.same, Argument.sameAll_self arguments h, beq_self_eq_true]
    rfl
  | .missing, _ => rfl

theorem Argument.sameAll_self : ∀ as : List Argument, Argument.anyNaN as = false →
    Argument.sameAll as as = true
  | [], _ => rfl
  | a :: rest, h => by
    rw [Argument.anyNaN, Bool.or_eq_false_iff] at h
    rw [Argument.sameAll, Argument.same_self a h.1, Argument.sameAll_self rest h.2]
    rfl
end

theorem Argument.mem_of_significant : ∀ {as : List Argument} {a : Argument},
    a ∈ significant as → a ∈ as
  | b :: rest, a, h => by
    rw [significant] at h
    split at h
    · split at h
      · cases h
      · exact mem_singleton.mp h ▸ mem_cons_self
    · rename_i first others hothers
      rcases mem_cons.mp h with rfl | h
      · exact mem_cons_self
      · exact mem_cons_of_mem _ (mem_of_significant (hothers ▸ h))

/-- **Arguments that are made of numbers are the same as themselves.** -/
theorem sameArguments_self (h : Argument.anyNaN as = false) : sameArguments as as = true :=
  Argument.sameAll_self _ (Argument.anyNaN_eq_false.mpr fun _ ha =>
    Argument.anyNaN_eq_false.mp h _ (Argument.mem_of_significant ha))

/-! ## 5. Reading -/

namespace Value

theorem ofWhole_hasNaN (n : Int) : (ofWhole n).hasNaN = false := by
  unfold ofWhole
  split
  · rfl
  · split
    · exact isNaN_nearest _ _
    · rw [hasNaN, isNaN_negate]
      exact isNaN_nearest _ _

theorem ofJson?_numeric : ∀ (depth : Nat) {json : Json} {v : Value}, json.Numeric →
    ofJson? depth json = some v → v.hasNaN = false
  | depth, _, _, .null, h => by
    rw [ofJson?] at h
    exact Option.some.inj h ▸ rfl
  | depth, _, _, .bool _, h => by
    rw [ofJson?] at h
    exact Option.some.inj h ▸ rfl
  | depth, _, _, .int n, h => by
    rw [ofJson?] at h
    exact Option.some.inj h ▸ ofWhole_hasNaN n
  | depth, _, _, .float hx, h => by
    rw [ofJson?] at h
    exact Option.some.inj h ▸ hx
  | depth, _, _, .string _, h => by
    rw [ofJson?] at h
    exact Option.some.inj h ▸ rfl
  | depth + 1, _, _, .array hitems, h => by
    obtain ⟨values, hvalues, rfl⟩ := map_eq_some_iff.mp h
    refine anyNaN_eq_false.mpr fun v hv => ?_
    obtain ⟨item, hmem, hitem⟩ := mem_of_mapM hvalues v hv
    exact ofJson?_numeric depth (hitems item hmem) hitem
  | 0, _, _, .array _, h => by cases h
  | depth, _, _, .object _, h => by
    rw [ofJson?] at h
    cases h
  | depth, _, _, .unreadable, h => by
    rw [ofJson?] at h
    cases h

end Value

/-- What is read this deep is made of numbers. -/
structure Call.ReadsNumeric (depth : Nat) : Prop where
  call : ∀ {json call}, json.Numeric → Call.ofJson? depth json = some call → call.hasNaN = false
  list : ∀ {json arguments}, json.Numeric → Argument.listOfJson? depth json = some arguments →
    Argument.anyNaN arguments = false
  argument : ∀ {json a}, json.Numeric → Argument.ofJson? depth json = some a → a.hasNaN = false

section Calls

theorem Call.ofJson?_succ_numeric (hr : ReadsNumeric depth) (hjson : json.Numeric)
    (h : Call.ofJson? (depth + 1) json = some call) : call.hasNaN = false := by
  obtain ⟨r, hrecord, h⟩ := bind_eq_some_iff.mp h
  obtain ⟨name, _, h⟩ := bind_eq_some_iff.mp h
  obtain ⟨arguments, hargs, h⟩ := bind_eq_some_iff.mp h
  cases h
  exact (hjson.record? hrecord).optional (P := fun as => Argument.anyNaN as = false) rfl hr.list
    hargs

theorem Argument.listOfJson?_succ_numeric (hr : Call.ReadsNumeric depth) (hjson : json.Numeric)
    (h : listOfJson? (depth + 1) json = some arguments) : anyNaN arguments = false := by
  cases hjson with
  | array hitems =>
    refine anyNaN_eq_false.mpr fun a ha => ?_
    obtain ⟨item, hmem, hitem⟩ := mem_of_mapM h a ha
    exact hr.argument (hitems item hmem) hitem
  | _ => cases h

theorem Argument.ofJson?_numeric {a : Argument} (hr : ∀ {inner}, inner < depth →
    Call.ReadsNumeric inner) (hjson : json.Numeric) (h : ofJson? depth json = some a) :
    a.hasNaN = false := by
  unfold ofJson? at h
  split at h
  · rename_i inner members
    cases hjson with
    | object hmembers =>
      split at h
      · split at h
        · rename_i name call hfilter
          obtain ⟨found, hfd, rfl⟩ := map_eq_some_iff.mp h
          have hmem : (name, call) ∈ [(name, call)] := mem_singleton_self _
          rw [← hfilter] at hmem
          exact (hr (Nat.lt_succ_self inner)).call (hmembers _ (mem_filter.mp hmem).1) hfd
        · cases h
      · cases h
  · obtain ⟨v, hv, rfl⟩ := map_eq_some_iff.mp h
    exact Value.ofJson?_numeric _ hjson hv

/-- **A call that was read is made of numbers.** -/
theorem Call.readsNumeric (depth : Nat) : ReadsNumeric depth := by
  induction depth using Nat.strongRecOn with
  | ind depth ih =>
    cases depth with
    | zero => exact ⟨nofun, nofun, Argument.ofJson?_numeric (ih _)⟩
    | succ depth =>
      have hr := ih depth (Nat.lt_succ_self depth)
      exact ⟨ofJson?_succ_numeric hr, Argument.listOfJson?_succ_numeric hr,
        Argument.ofJson?_numeric (ih _)⟩

end Calls

/-- What is read this deep holds calls that are made of numbers. -/
structure Body.ReadsNumeric (depth : Nat) : Prop where
  body : ∀ {json b}, json.Numeric → Body.ofJson? depth json = some b →
    ∀ call ∈ b.calls, call.hasNaN = false
  list : ∀ {json bs}, json.Numeric → Body.listOfJson? depth json = some bs →
    ∀ call ∈ Body.allCalls bs, call.hasNaN = false
  each : ∀ {json b}, json.Numeric → Body.eachOfJson? depth json = some b →
    ∀ call ∈ b.calls, call.hasNaN = false

namespace Body

theorem mem_allCalls : call ∈ allCalls bs ↔ ∃ b ∈ bs, call ∈ b.calls := by
  induction bs with
  | nil => simp [allCalls]
  | cons b rest ih => simp [allCalls, ih]

theorem listOfJson?_succ_numeric (hr : ReadsNumeric depth) (hjson : json.Numeric)
    (h : listOfJson? (depth + 1) json = some bs) : ∀ call ∈ allCalls bs, call.hasNaN = false := by
  intro call hcall
  obtain ⟨b, hb, hcall⟩ := mem_allCalls.mp hcall
  cases hjson with
  | array hitems =>
    obtain ⟨item, hmem, hitem⟩ := mem_of_mapM h b hb
    exact hr.body (hitems item hmem) hitem call hcall
  | _ => cases h

theorem eachOfJson?_succ_numeric (hr : ReadsNumeric depth) (hjson : json.Numeric)
    (h : eachOfJson? (depth + 1) json = some b) : ∀ call ∈ b.calls, call.hasNaN = false := by
  obtain ⟨r, hrecord, h⟩ := bind_eq_some_iff.mp h
  obtain ⟨item, _, h⟩ := bind_eq_some_iff.mp h
  obtain ⟨range, hrange, h⟩ := bind_eq_some_iff.mp h
  obtain ⟨inner, hinner, h⟩ := bind_eq_some_iff.mp h
  cases h
  have hnumeric := hjson.record? hrecord
  intro call hcall
  rw [calls, mem_append] at hcall
  rcases hcall with hcall | hcall
  · exact hnumeric.required hr.body hrange call hcall
  · exact hnumeric.required hr.body hinner call hcall

theorem ofJson?_numeric (hr : ∀ {inner}, inner < depth → ReadsNumeric inner) (hjson : json.Numeric)
    (h : ofJson? depth json = some b) : ∀ call ∈ b.calls, call.hasNaN = false := by
  unfold ofJson? at h
  split at h
  · cases h
    exact nofun
  · cases h
    exact nofun
  · rename_i inner choice content
    have hr := hr (Nat.lt_succ_self inner)
    have hcontent : content.Numeric := by
      cases hjson with
      | object hmembers => exact hmembers _ mem_cons_self
    split at h
    · split at h
      · cases h
        exact nofun
      · cases h
    · split at h
      · cases h
        exact nofun
      · cases h
    · obtain ⟨v, _, rfl⟩ := map_eq_some_iff.mp h
      exact nofun
    · obtain ⟨call, hcall, rfl⟩ := map_eq_some_iff.mp h
      exact forall_mem_singleton.mpr ((Call.readsNumeric inner).call hcontent hcall)
    · obtain ⟨bs, hbs, rfl⟩ := map_eq_some_iff.mp h
      exact hr.list hcontent hbs
    · obtain ⟨bs, hbs, rfl⟩ := map_eq_some_iff.mp h
      exact hr.list hcontent hbs
    · exact hr.each hcontent h
    · split at h
      · cases h
      · obtain ⟨r, _, h⟩ := bind_eq_some_iff.mp h
        obtain ⟨status, _, h⟩ := bind_eq_some_iff.mp h
        obtain ⟨loc, _, h⟩ := bind_eq_some_iff.mp h
        obtain ⟨message, _, h⟩ := bind_eq_some_iff.mp h
        cases h
        exact nofun
    · cases h
  · cases h

/-- **The calls of a body that was read are made of numbers.** -/
theorem readsNumeric (depth : Nat) : ReadsNumeric depth := by
  induction depth using Nat.strongRecOn with
  | ind depth ih =>
    cases depth with
    | zero => exact ⟨ofJson?_numeric (ih _), nofun, nofun⟩
    | succ depth =>
      have hr := ih depth (Nat.lt_succ_self depth)
      exact ⟨ofJson?_numeric (ih _), listOfJson?_succ_numeric hr, eachOfJson?_succ_numeric hr⟩

end Body

end KeepTree
