import KeepTree.Json.Reader
import KeepTree.Json.Writer

/-!
# Written documents read back

A document is written so that the reader finds it again, in either spacing and whatever text
follows it. What cannot be written exactly is left out: floating-point numbers, whole numbers
beyond the range of a word, and what was unreadable in the first place.

* `read?_written` -- **a document that is written exactly reads back**.
-/

namespace KeepTree.Json

open List Nat

variable {rest : List Char} {steps n outer : Nat} {c : Char} {json : Json}

/-! ## 1. Blanks -/

variable {spacing : Spacing} {level : Nat} {s : List Char}

theorem skipBlanks_cons (h : isBlank c = false) (s : List Char) : skipBlanks (c :: s) = c :: s := by
  rw [skipBlanks, dropWhile_cons_of_neg (by simp [h])]

@[simp] theorem skipBlanks_newLine (spacing : Spacing) (level : Nat) (s : List Char) :
    skipBlanks (spacing.newLine level ++ s) = skipBlanks s := by
  have hblank : ∀ c ∈ spacing.newLine level, isBlank c = true := by
    cases spacing with
    | compact => exact nofun
    | indented => simp [Spacing.newLine, isBlank]
  rw [skipBlanks, skipBlanks, dropWhile_append_of_pos hblank]

theorem scan?_newLine (steps : Nat) : scan? steps (spacing.newLine level ++ s) = scan? steps s := by
  cases steps with
  | zero => rfl
  | succ steps => rw [scan?, scan?, skipBlanks_newLine]

theorem scanItems?_newLine (steps : Nat) :
    scanItems? steps (spacing.newLine level ++ s) = scanItems? steps s := by
  cases steps with
  | zero => rfl
  | succ steps => rw [scanItems?, scanItems?, scan?_newLine]

theorem scanMembers?_newLine (steps : Nat) :
    scanMembers? steps (spacing.newLine level ++ s) = scanMembers? steps s := by
  cases steps with
  | zero => rfl
  | succ steps => rw [scanMembers?, scanMembers?, skipBlanks_newLine]

/-! ## 2. Texts -/

theorem hexDigit?_hexChar : ∀ n < 16, hexDigit? (hexChar n) = some n := by decide

theorem hexUnit?_control (h : n < 0x20) :
    hexUnit? '0' '0' (hexChar (n / 16)) (hexChar (n % 16)) = some n := by
  have hzero : hexDigit? '0' = some 0 := by decide
  have hhigh := hexDigit?_hexChar (n / 16) (by omega)
  have hlow := hexDigit?_hexChar (n % 16) (by omega)
  simp only [hexUnit?, hzero, hhigh, hlow, bind, Option.bind, pure, Option.some.injEq]
  omega

theorem ofNat_control (h : c.toNat < 0x20) : TextUnit.ofNat c.toNat = .whole c := by
  have hleading : isLeading c.toNat = false := decide_eq_false (by omega)
  have htrailing : isTrailing c.toNat = false := decide_eq_false (by omega)
  simp [TextUnit.ofNat, hleading, htrailing]

theorem scanUnits?_writeChar (c : Char) (s : List Char) :
    scanUnits? (writeChar c ++ s) =
      (scanUnits? s).map fun (units, rest) => (.whole c :: units, rest) := by
  unfold writeChar
  split
  · subst c; simp [scanUnits?, escaped?]
  split
  · subst c; simp [scanUnits?, escaped?]
  split
  · subst c; simp [scanUnits?, escaped?]
  split
  · subst c; simp [scanUnits?, escaped?]
  split
  · subst c; simp [scanUnits?, escaped?]
  split
  · subst c; simp [scanUnits?, escaped?]
  split
  · subst c; simp [scanUnits?, escaped?]
  split
  · rename_i hcontrol
    simp [scanUnits?, hexUnit?_control hcontrol, ofNat_control hcontrol]
  · rename_i hquote hslash _ _ _ _ _ hcontrol
    simp [scanUnits?, hslash, hcontrol]

theorem joinUnits?_whole (cs : List Char) : joinUnits? (cs.map .whole) = some cs := by
  induction cs with
  | nil => rfl
  | cons c cs ih => simp [joinUnits?, ih]

theorem scanUnits?_written (cs rest : List Char) :
    scanUnits? (cs.flatMap writeChar ++ '"' :: rest) = some (cs.map .whole, rest) := by
  induction cs with
  | nil => simp [scanUnits?]
  | cons c cs ih =>
    rw [flatMap_cons, append_assoc, scanUnits?_writeChar, ih]
    rfl

/-- **A text reads back**, up to its closing quote. -/
theorem scanText?_written (text : String) (rest : List Char) :
    scanText? (text.toList.flatMap writeChar ++ '"' :: rest) = some (some text, rest) := by
  rw [scanText?, scanUnits?_written]
  simp [joinUnits?_whole]

/-! ## 3. Whole numbers -/

namespace Numeral

/-- A numeral ends here: neither a digit nor a point nor an exponent follows. -/
def EndsBefore (rest : List Char) : Prop :=
  ∀ c ∈ rest.head?, c.isDigit = false ∧ c ≠ '.' ∧ c ≠ 'e' ∧ c ≠ 'E'

theorem digits?_append {ds : List Char} (hne : ds ≠ []) (hds : ∀ c ∈ ds, c.isDigit = true)
    (hrest : EndsBefore rest) : digits? (ds ++ rest) = some (ds, rest) := by
  have htake : (ds ++ rest).takeWhile Char.isDigit = ds := by
    rw [takeWhile_append_of_pos hds]
    cases rest with
    | nil => simp
    | cons c rest => simp [(hrest c rfl).1]
  have hdrop : (ds ++ rest).dropWhile Char.isDigit = rest := by
    rw [dropWhile_append_of_pos hds]
    cases rest with
    | nil => rfl
    | cons c rest => simp [(hrest c rfl).1]
  rw [digits?, htake, hdrop]
  cases ds with
  | nil => exact absurd rfl hne
  | cons d ds => rfl

theorem toDigits_eq_cons (n : Nat) : ∃ d ds, toDigits 10 n = d :: ds ∧ d.isDigit = true := by
  cases hds : toDigits 10 n with
  | nil => exact absurd hds toDigits_ne_nil
  | cons d ds =>
    have hmem : d ∈ toDigits 10 n := hds ▸ mem_cons_self
    exact ⟨d, ds, rfl, isDigit_of_mem_toDigits (by decide) (by decide) hmem⟩

theorem head?_toDigits (h : 0 < n) : (toDigits 10 n).head? ≠ some '0' := by
  induction n using Nat.strongRecOn with
  | ind n ih =>
    by_cases hn : n < 10
    · rw [toDigits_of_lt_base hn]
      have hdigits : ∀ n < 10, 0 < n → [n.digitChar].head? ≠ some '0' := by decide
      exact hdigits n hn h
    · have hshorter := ih (n / 10) (by omega) (by omega)
      obtain ⟨d, ds, hds, _⟩ := toDigits_eq_cons (n / 10)
      rw [toDigits_of_base_le (by decide) (by omega)]
      rw [hds] at hshorter ⊢
      exact hshorter

theorem whole?_toDigits (n : Nat) (hrest : EndsBefore rest) :
    whole? (toDigits 10 n ++ rest) = some (toDigits 10 n, rest) := by
  have hdigits : digits? (toDigits 10 n ++ rest) = some (toDigits 10 n, rest) :=
    digits?_append toDigits_ne_nil (fun c => isDigit_of_mem_toDigits (by decide) (by decide)) hrest
  rcases Nat.eq_zero_or_pos n with rfl | hn
  · rw [toDigits_zero]
    rfl
  · rw [whole?, hdigits]
    intro tail htail
    have hhead := head?_toDigits hn
    obtain ⟨d, ds, hds, _⟩ := toDigits_eq_cons n
    rw [hds] at htail
    rw [hds, (List.cons.inj htail).1] at hhead
    exact hhead rfl

theorem natural_toDigits (n : Nat) : natural (toDigits 10 n) = n := by
  have hfold : natural (toDigits 10 n) = ofDigitChars 10 (toDigits 10 n) 0 := by
    simp only [natural, digit, ofDigitChars_eq_foldl, Nat.mul_comm]
  rw [hfold, ofDigitChars_ten_toDigits]

theorem fraction?_none (hrest : EndsBefore rest) : fraction? rest = some ([], rest) := by
  cases rest with
  | nil => rfl
  | cons c rest =>
    obtain ⟨_, hpoint, _⟩ := hrest c rfl
    simp [fraction?, hpoint]

theorem exponent?_none (hrest : EndsBefore rest) : exponent? rest = some (none, rest) := by
  cases rest with
  | nil => rfl
  | cons c rest =>
    obtain ⟨_, _, he, hE⟩ := hrest c rfl
    simp [exponent?, he, hE]

/-- The numeral of a whole number. -/
def ofInt (n : Int) : Numeral := ⟨decide (n < 0), toDigits 10 n.natAbs, [], none⟩

theorem toJson_ofInt {n : Int} (hlow : -(Nat.pow 2 63 : Int) ≤ n) (hhigh : n < Nat.pow 2 64) :
    (ofInt n).toJson = .int n := by
  have hhalf : Nat.pow 2 64 = 2 * Nat.pow 2 63 := Nat.pow_succ'
  have hword : n.natAbs < Nat.pow 2 64 := by omega
  rw [toJson, ofInt, natural_toDigits]
  by_cases hn : n < 0
  · have hrange : 0 < n.natAbs ∧ n.natAbs ≤ Nat.pow 2 63 := by omega
    have habs : -(n.natAbs : Int) = n := by omega
    simp only [hn, hword, hrange, habs, decide_true, isEmpty_nil, Option.isNone_none,
      Bool.and_self, Bool.not_true, Bool.or_true, and_self, if_true]
  · have habs : (n.natAbs : Int) = n := by omega
    simp only [hn, hword, habs, decide_true, decide_false, isEmpty_nil, Option.isNone_none,
      Bool.and_self, Bool.not_false, Bool.true_or, if_true, Bool.false_eq_true, if_false]

theorem toList_repr (n : Int) :
    n.repr.toList = (if n < 0 then ['-'] else []) ++ toDigits 10 n.natAbs := by
  cases n with
  | ofNat n => simp [Int.repr, repr_eq_ofList_toDigits]
  | negSucc n => simp [Int.repr, repr_eq_ofList_toDigits, Int.negSucc_lt_zero]

theorem repr_eq_cons (n : Int) : ∃ c s, n.repr.toList = c :: s ∧ (c = '-' ∨ c.isDigit = true) := by
  rw [toList_repr]
  by_cases hn : n < 0
  · exact ⟨'-', toDigits 10 n.natAbs, by simp [hn], .inl rfl⟩
  · obtain ⟨d, ds, hds, hdigit⟩ := toDigits_eq_cons n.natAbs
    exact ⟨d, ds, by simp [hn, hds], .inr hdigit⟩

theorem scan?_repr (n : Int) (hrest : EndsBefore rest) :
    scan? (n.repr.toList ++ rest) = some (ofInt n, rest) := by
  rw [toList_repr]
  by_cases hn : n < 0
  · simp [hn, scan?, whole?_toDigits _ hrest, fraction?_none hrest, exponent?_none hrest, ofInt]
  · have hsign : ∀ tail, toDigits 10 n.natAbs ++ rest ≠ '-' :: tail := by
      intro tail htail
      obtain ⟨d, ds, hds, hdigit⟩ := toDigits_eq_cons n.natAbs
      rw [hds] at htail
      rw [(List.cons.inj htail).1] at hdigit
      exact absurd hdigit (by decide)
    simp [hn, scan?, whole?_toDigits _ hrest, fraction?_none hrest, exponent?_none hrest, ofInt]

theorem endsBefore_newLine (spacing : Spacing) (level : Nat) (h : EndsBefore (c :: rest)) :
    EndsBefore (spacing.newLine level ++ c :: rest) := by
  cases spacing with
  | compact => exact h
  | indented => simp [Spacing.newLine, EndsBefore]

end Numeral

/-! ## 4. Documents -/

/-- A document that is written exactly: without floating-point numbers and unreadable parts, and
    with whole numbers in the range of a word. -/
inductive Lossless : Json → Prop
  | null : Lossless .null
  | bool (b : Bool) : Lossless (.bool b)
  | int {n : Int} : -(Nat.pow 2 63 : Int) ≤ n → n < Nat.pow 2 64 → Lossless (.int n)
  | string (s : String) : Lossless (.string s)
  | array {items : List Json} : (∀ item ∈ items, Lossless item) → Lossless (.array items)
  | object {members : List (String × Json)} :
      (∀ member ∈ members, Lossless member.2) → Lossless (.object members)

theorem ne_of_numeral (hc : c = '-' ∨ c.isDigit = true) (other : Char)
    (h : (other == '-' || other.isDigit) = false) : c ≠ other := by
  rintro rfl
  rcases hc with rfl | hc
  · exact absurd h (by decide)
  · simp [hc] at h

theorem isBlank_of_numeral (hc : c = '-' ∨ c.isDigit = true) : isBlank c = false := by
  have hne := ne_of_numeral hc
  simp [isBlank, hne ' ', hne '\n', hne '\t', hne '\r']

theorem Lossless.starts (h : Lossless json) (spacing : Spacing) (level : Nat) :
    ∃ c s, writeAt spacing level json = c :: s ∧ isBlank c = false ∧ c ≠ ']' := by
  cases h with
  | null => exact ⟨_, _, rfl, by decide⟩
  | bool b => cases b <;> exact ⟨_, _, rfl, by decide⟩
  | @int n _ _ =>
    obtain ⟨c, s, hs, hc⟩ := Numeral.repr_eq_cons n
    exact ⟨c, s, hs, isBlank_of_numeral hc, ne_of_numeral hc _ (by decide)⟩
  | string s => exact ⟨_, _, rfl, by decide⟩
  | @array items _ => cases items <;> exact ⟨_, _, rfl, by decide⟩
  | @object members _ => cases members <;> exact ⟨_, _, rfl, by decide⟩

theorem writeText_append (text : String) (s : List Char) :
    writeText text ++ s = '"' :: (text.toList.flatMap writeChar ++ '"' :: s) := by
  simp [writeText]

theorem colon_eq (spacing : Spacing) : ∃ gap, spacing.colon = ':' :: gap ∧
    ∀ steps s, scan? steps (gap ++ s) = scan? steps s := by
  cases spacing with
  | compact => exact ⟨[], rfl, fun _ _ => rfl⟩
  | indented =>
    refine ⟨[' '], rfl, fun steps s => ?_⟩
    cases steps with
    | zero => rfl
    | succ steps => simp [scan?, skipBlanks, isBlank]

/-- What is read back in this many steps, if it is written in no more characters. -/
structure ReadsBack (spacing : Spacing) (steps : Nat) : Prop where
  scan : ∀ {level json rest}, Lossless json → (writeAt spacing level json).length ≤ steps →
    Numeral.EndsBefore rest → scan? steps (writeAt spacing level json ++ rest) = some (json, rest)
  items : ∀ {level outer item items rest}, Lossless item → (∀ item ∈ items, Lossless item) →
    (writeAt spacing level item).length + (writeItems spacing level items).length < steps →
    scanItems? steps (writeAt spacing level item ++
      (writeItems spacing level items ++ (spacing.newLine outer ++ ']' :: rest))) =
      some (item :: items, rest)
  members : ∀ {level outer name value members rest}, Lossless value →
    (∀ member ∈ members, Lossless member.2) →
    (writeText name).length + (writeAt spacing level value).length +
      (writeMembers spacing level members).length < steps →
    scanMembers? steps (writeText name ++ (spacing.colon ++ (writeAt spacing level value ++
      (writeMembers spacing level members ++ (spacing.newLine outer ++ '}' :: rest))))) =
      some (((name, value) :: members).map fun member => (some member.1, member.2), rest)

theorem mapM_some (members : List (String × Json)) :
    (members.map fun member => (some member.1, member.2)).mapM
      (fun (name, value) => name.map (·, value)) = some members := by
  induction members with
  | nil => rfl
  | cons member members ih => simp [mapM_cons, ih]

theorem ofMembers_some (members : List (String × Json)) :
    ofMembers (members.map fun member => (some member.1, member.2)) = .object members := by
  rw [ofMembers, mapM_some]

theorem scan?_repr (n : Int) :
    scan? (steps + 1) (n.repr.toList ++ rest) =
      (Numeral.scan? (n.repr.toList ++ rest)).map fun (n, rest) => (n.toJson, rest) := by
  obtain ⟨c, s, hs, hc⟩ := Numeral.repr_eq_cons n
  have hne := ne_of_numeral hc
  rw [hs, cons_append, scan?, skipBlanks_cons (isBlank_of_numeral hc)]
  simp [hne 'n', hne 't', hne 'f', hne '"', hne '[', hne '{']

/-- **One step more reads back what is written with one character more.** -/
theorem ReadsBack.step (hr : ReadsBack spacing steps) : ReadsBack spacing (steps + 1) where
  scan := fun {level json rest} h hsteps hrest => by
    cases h with
    | null => simp [writeAt, scan?, skipBlanks, isBlank]
    | bool b => cases b <;> simp [writeAt, scan?, skipBlanks, isBlank]
    | @int n hlow hhigh =>
      rw [writeAt, scan?_repr, Numeral.scan?_repr n hrest]
      simp only [Option.map_some, Numeral.toJson_ofInt hlow hhigh]
    | string s =>
      rw [writeAt, writeText_append, scan?]
      simp (disch := decide) only [skipBlanks_cons, scanText?_written]
    | @array items hitems =>
      cases items with
      | nil => simp [writeAt, scan?, skipBlanks, isBlank]
      | cons item items =>
        obtain ⟨hitem, hothers⟩ := forall_mem_cons.mp hitems
        have hlen : (writeAt spacing (level + 1) item).length +
            (writeItems spacing (level + 1) items).length < steps := by
          simp only [writeAt, length_cons, length_append, length_nil] at hsteps
          omega
        have hmore : scanItems? steps (writeAt spacing (level + 1) item ++
            (writeItems spacing (level + 1) items ++ (spacing.newLine level ++ ']' :: rest))) =
            some (item :: items, rest) := hr.items hitem hothers hlen
        obtain ⟨c, s, hstart, hblank, hclose⟩ := hitem.starts spacing (level + 1)
        simp only [hstart, cons_append] at hmore
        simp (disch := decide) only [writeAt, hstart, cons_append, append_assoc, scan?,
          skipBlanks_cons, skipBlanks_newLine, skipBlanks_cons hblank, nil_append]
        simp [hmore, hclose]
    | @object members hmembers =>
      cases members with
      | nil => simp [writeAt, scan?, skipBlanks, isBlank]
      | cons member members =>
        obtain ⟨name, value⟩ := member
        obtain ⟨hval, hothers⟩ := forall_mem_cons.mp hmembers
        have hlen : (writeText name).length + (writeAt spacing (level + 1) value).length +
            (writeMembers spacing (level + 1) members).length < steps := by
          simp only [writeAt, length_cons, length_append, length_nil] at hsteps
          omega
        have hmore : scanMembers? steps (writeText name ++ (spacing.colon ++
            (writeAt spacing (level + 1) value ++ (writeMembers spacing (level + 1) members ++
              (spacing.newLine level ++ '}' :: rest))))) =
            some (((name, value) :: members).map fun member => (some member.1, member.2), rest) :=
          hr.members hval hothers hlen
        rw [writeText_append] at hmore
        simp (disch := decide) only [writeAt, cons_append, append_assoc, scan?,
          skipBlanks_cons, skipBlanks_newLine, writeText_append, nil_append]
        simpa [hmore] using ofMembers_some ((name, value) :: members)
  items := fun {level outer item items rest} hitem hitems hsteps => by
    have hends : Numeral.EndsBefore
        (writeItems spacing level items ++ (spacing.newLine outer ++ ']' :: rest)) := by
      cases items with
      | nil => exact Numeral.endsBefore_newLine _ _ (by simp [Numeral.EndsBefore])
      | cons next others => simp [writeItems, Numeral.EndsBefore]
    rw [scanItems?, hr.scan hitem (by omega) hends]
    cases items with
    | nil =>
      simp (disch := decide) only [writeItems, nil_append, skipBlanks_newLine, skipBlanks_cons]
    | cons next others =>
      obtain ⟨hnext, hothers⟩ := forall_mem_cons.mp hitems
      have hlen : (writeAt spacing level next).length +
          (writeItems spacing level others).length < steps := by
        simp only [writeItems, length_cons, length_append] at hsteps
        omega
      simp (disch := decide) only [writeItems, cons_append, append_assoc, skipBlanks_cons,
        scanItems?_newLine, hr.items hnext hothers hlen, Option.map_some]
  members := fun {level outer name value members rest} hval hmembers hsteps => by
    have hends : Numeral.EndsBefore
        (writeMembers spacing level members ++ (spacing.newLine outer ++ '}' :: rest)) := by
      cases members with
      | nil => exact Numeral.endsBefore_newLine _ _ (by simp [Numeral.EndsBefore])
      | cons next others => simp [writeMembers, Numeral.EndsBefore]
    have hlong : (writeAt spacing level value).length ≤ steps := by omega
    obtain ⟨gap, hcolon, hgap⟩ := colon_eq spacing
    rw [writeText_append, scanMembers?]
    simp (disch := decide) only [skipBlanks_cons, scanText?_written, hcolon, cons_append, hgap,
      hr.scan hval hlong hends]
    cases members with
    | nil =>
      simp (disch := decide) only [writeMembers, nil_append, skipBlanks_newLine,
        skipBlanks_cons, map_cons, map_nil]
    | cons next others =>
      obtain ⟨nextName, nextValue⟩ := next
      obtain ⟨hnext, hothers⟩ := forall_mem_cons.mp hmembers
      have hlen : (writeText nextName).length + (writeAt spacing level nextValue).length +
          (writeMembers spacing level others).length < steps := by
        simp only [writeMembers, length_cons, length_append] at hsteps
        omega
      simp (disch := decide) only [writeMembers, cons_append, append_assoc, skipBlanks_cons,
        scanMembers?_newLine, hr.members hnext hothers hlen, Option.map_some, map_cons]

theorem readsBack (spacing : Spacing) (steps : Nat) : ReadsBack spacing steps := by
  induction steps with
  | zero =>
    refine ⟨fun h hsteps _ => ?_, nofun, nofun⟩
    obtain ⟨c, s, hs, _⟩ := h.starts spacing _
    rw [hs] at hsteps
    cases hsteps
  | succ steps ih => exact ih.step

/-- **A document that is written exactly reads back**, in either spacing. -/
theorem read?_written (h : Lossless json) (spacing : Spacing) :
    read? (String.ofList (writeAt spacing 0 json)) = some json := by
  have henough : (writeAt spacing 0 json).length ≤ 2 * (writeAt spacing 0 json).length + 2 := by
    omega
  have hscan : scan? _ (writeAt spacing 0 json ++ []) = some (json, []) :=
    (readsBack spacing _).scan h henough nofun
  rw [append_nil] at hscan
  simp [read?, hscan, skipBlanks]

end KeepTree.Json
