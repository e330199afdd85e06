import KeepTree.Json.Numeral
import KeepTree.Toml

/-!
# Scalars of TOML texts

Texts in quotes, whole numbers, floating-point numbers, dates and times. Every function takes the
characters from a place in the text on and gives back what it read and the characters after it.
-/

namespace KeepTree.Toml

/-! ## 1. Characters -/

/-- A blank within a line. -/
def isBlank (c : Char) : Bool := c == ' ' || c == '\t'

def skipBlanks (s : List Char) : List Char := s.dropWhile isBlank

/-- A character that may stand in texts and comments. -/
def isPrintable (c : Char) : Bool := c == '\t' || (decide (0x20 ≤ c.toNat) && c.toNat != 0x7F)

/-- The characters after a line end. -/
def lineEnd? : List Char → Option (List Char)
  | '\n' :: rest => some rest
  | '\r' :: '\n' :: rest => some rest
  | _ => none

/-- The value of a hexadecimal digit. -/
def hexDigit? (c : Char) : Option Nat :=
  if '0' ≤ c ∧ c ≤ '9' then some (c.toNat - '0'.toNat)
  else if 'a' ≤ c ∧ c ≤ 'f' then some (c.toNat - 'a'.toNat + 10)
  else if 'A' ≤ c ∧ c ≤ 'F' then some (c.toNat - 'A'.toNat + 10)
  else none

/-- The character whose number is written by hexadecimal digits. -/
def charOfHex? (digits : List Char) : Option Char := do
  let values ← digits.mapM hexDigit?
  let code := values.foldl (fun n d => n * 16 + d) 0
  if code < 0xD800 ∨ 0xE000 ≤ code ∧ code < 0x110000 then some (Char.ofNat code) else none

/-! ## 2. Texts -/

/-- The character of a one-letter escape. -/
def escaped? : Char → Option Char
  | 'b' => some '\x08'
  | 't' => some '\t'
  | 'n' => some '\n'
  | 'f' => some '\x0c'
  | 'r' => some '\r'
  | '"' => some '"'
  | '\\' => some '\\'
  | _ => none

/-- The characters after the closing quotes. A text of several lines may end with one or two quotes
    before the three that close it. -/
def closing? (quote : Char) (lines : Bool) (s : List Char) : Option (List Char) :=
  let run := (s.takeWhile (· == quote)).length
  if lines then if 3 ≤ run then some (s.drop (min run 5)) else none
  else if 1 ≤ run then some (s.drop 1) else none

/-- Put a character in front of a scanned text. -/
def pushChar (c : Char) (t : Option (List Char × List Char)) : Option (List Char × List Char) :=
  t.map fun (text, rest) => (c :: text, rest)

/-- A character that stands for itself inside a text. -/
def isPlain (lines : Bool) (c : Char) (rest : List Char) : Bool :=
  isPrintable c || lines && (lineEnd? (c :: rest)).isSome

/-- The rest of a text with escapes, after the opening quotes. -/
def basicText? (lines : Bool) : List Char → Option (List Char × List Char)
  | [] => none
  | c :: rest =>
    match closing? '"' lines (c :: rest) with
    | some after => some ([], after)
    | none =>
      if c = '\\' then
        match rest with
        | 'u' :: d₁ :: d₂ :: d₃ :: d₄ :: rest =>
          (charOfHex? [d₁, d₂, d₃, d₄]).bind fun e => pushChar e (basicText? lines rest)
        | 'U' :: d₁ :: d₂ :: d₃ :: d₄ :: d₅ :: d₆ :: d₇ :: d₈ :: rest =>
          (charOfHex? [d₁, d₂, d₃, d₄, d₅, d₆, d₇, d₈]).bind fun e =>
            pushChar e (basicText? lines rest)
        | e :: after =>
          match escaped? e with
          | some e => pushChar e (basicText? lines after)
          | none =>
            -- the end of a line may be hidden, with the blanks before it
            if lines && (lineEnd? (skipBlanks (e :: after))).isSome then basicText? lines after
            else none
        | [] => none
      else if isPlain lines c rest then pushChar c (basicText? lines rest)
      else none

/-- The rest of a text without escapes, after the opening quotes. -/
def literalText? (lines : Bool) : List Char → Option (List Char × List Char)
  | [] => none
  | c :: rest =>
    match closing? '\x27' lines (c :: rest) with
    | some after => some ([], after)
    | none =>
      if isPlain lines c rest then pushChar c (literalText? lines rest) else none

/-- A text on one line. -/
def shortText? : List Char → Option (List Char × List Char)
  | '"' :: rest => basicText? false rest
  | '\x27' :: rest => literalText? false rest
  | _ => none

/-- A text. -/
def text? : List Char → Option (List Char × List Char)
  | '"' :: '"' :: '"' :: rest => basicText? true rest
  | '\x27' :: '\x27' :: '\x27' :: rest => literalText? true rest
  | s => shortText? s

/-! ## 3. Numbers -/

/-- Further digits, with single underscores between them. -/
def moreDigits (isDigit : Char → Bool) : List Char → List Char × List Char
  | '_' :: c :: rest =>
    if isDigit c then
      let (digits, rest) := moreDigits isDigit rest
      (c :: digits, rest)
    else ([], '_' :: c :: rest)
  | c :: rest =>
    if isDigit c then
      let (digits, rest) := moreDigits isDigit rest
      (c :: digits, rest)
    else ([], c :: rest)
  | [] => ([], [])

/-- At least one digit, with single underscores between them. -/
def digits? (isDigit : Char → Bool) : List Char → Option (List Char × List Char)
  | c :: rest =>
    if isDigit c then
      let (digits, rest) := moreDigits isDigit rest
      some (c :: digits, rest)
    else none
  | [] => none

/-- The sign of a number: whether it is negative. -/
def sign : List Char → Bool × List Char
  | '-' :: rest => (true, rest)
  | '+' :: rest => (false, rest)
  | s => (false, s)

/-- Decimal digits that do not start with a zero, or a zero alone. -/
def decimal? : List Char → Option (List Char × List Char)
  | '0' :: rest => some (['0'], rest)
  | s => digits? Char.isDigit s

/-- A digit to the base `b`. -/
def isDigitOf (b : Nat) (c : Char) : Bool := (hexDigit? c).any (· < b)

/-- A whole number to another base, in the range of a signed word. -/
def based? (b : Nat) (s : List Char) : Option (Node × List Char) := do
  let (digits, rest) ← digits? (isDigitOf b) s
  let n := digits.foldl (fun n c => n * b + (hexDigit? c).getD 0) 0
  if n < Nat.pow 2 63 then some (.integer n, rest) else none

/-- A whole number in the range of a signed word. -/
def integer? : List Char → Option (Node × List Char)
  | '0' :: 'x' :: rest => based? 16 rest
  | '0' :: 'o' :: rest => based? 8 rest
  | '0' :: 'b' :: rest => based? 2 rest
  | s => do
    let (negative, s) := sign s
    let (digits, rest) ← decimal? s
    let n := Json.Numeral.natural digits
    if negative then if n ≤ Nat.pow 2 63 then some (.integer (-n), rest) else none
    else if n < Nat.pow 2 63 then some (.integer n, rest)
    else none

/-- The number `digits * 10 ^ power` is beyond all floating-point numbers. -/
def overflows (digits : List Char) (power : Int) : Bool :=
  let digits := digits.dropWhile (· == '0')
  let magnitude : Int := digits.length + power
  if digits.isEmpty || decide (magnitude < 309) then false
  else if 309 < magnitude then true
  else (Binary64.nearest (Json.Numeral.natural digits * Nat.pow 10 power.toNat)
    (Nat.pow 10 (-power).toNat)).isInfinite

/-- The exponent of a floating-point number. -/
def exponent? : List Char → Option (Int × List Char)
  | 'e' :: rest | 'E' :: rest => do
    let (negative, rest) := sign rest
    let (digits, rest) ← digits? Char.isDigit rest
    let n : Int := Json.Numeral.natural digits
    some (if negative then -n else n, rest)
  | _ => none

/-- A floating-point number: with a fraction, an exponent or both, or one of the special ones. -/
def float? (s : List Char) : Option (Node × List Char) :=
  let (negative, s) := sign s
  match s with
  | 'i' :: 'n' :: 'f' :: rest | 'n' :: 'a' :: 'n' :: rest => some (.other, rest)
  | s => do
    let (whole, s) ← decimal? s
    let (fraction, exponent, rest) ← match s with
      | '.' :: s => do
        let (fraction, s) ← digits? Char.isDigit s
        match exponent? s with
        | some (exponent, s) => some (fraction, exponent, s)
        | none => some (fraction, 0, s)
      | s => (exponent? s).map fun (exponent, s) => ([], exponent, s)
    if !negative && overflows (whole ++ fraction) (exponent - fraction.length) then none
    else some (.other, rest)

/-! ## 4. Dates and times -/

/-- A number of exactly `n` digits, in a range. -/
def fixed? (n low high : Nat) (s : List Char) : Option (Nat × List Char) :=
  let digits := s.take n
  let value := Json.Numeral.natural digits
  if digits.length = n ∧ digits.all Char.isDigit ∧ low ≤ value ∧ value ≤ high then
    some (value, s.drop n)
  else none

/-- The characters after an expected one. -/
def expect? (c : Char) : List Char → Option (List Char)
  | d :: rest => if d = c then some rest else none
  | [] => none

/-- The number of days in a month. -/
def daysIn (year month : Nat) : Nat :=
  if month = 2 then
    if year % 4 = 0 ∧ (year % 100 ≠ 0 ∨ year % 400 = 0) then 29 else 28
  else if month = 4 ∨ month = 6 ∨ month = 9 ∨ month = 11 then 30
  else 31

/-- A date; the characters after it. -/
def date? (s : List Char) : Option (List Char) := do
  let (year, s) ← fixed? 4 0 9999 s
  let s ← expect? '-' s
  let (month, s) ← fixed? 2 1 12 s
  let s ← expect? '-' s
  let (_, s) ← fixed? 2 1 (daysIn year month) s
  return s

/-- A time of the day; the characters after it. -/
def time? (s : List Char) : Option (List Char) := do
  let (_, s) ← fixed? 2 0 23 s
  let s ← expect? ':' s
  let (_, s) ← fixed? 2 0 59 s
  let s ← expect? ':' s
  let (_, s) ← fixed? 2 0 60 s
  match s with
  | '.' :: rest =>
    match rest.takeWhile Char.isDigit with
    | [] => return s
    | _ => return rest.dropWhile Char.isDigit
  | s => return s

/-- An offset of a time; the characters after it. -/
def offset? : List Char → Option (List Char)
  | 'Z' :: rest | 'z' :: rest => some rest
  | '+' :: rest | '-' :: rest => do
    let (_, s) ← fixed? 2 0 23 rest
    let s ← expect? ':' s
    let (_, s) ← fixed? 2 0 59 s
    return s
  | _ => none

/-- A date, a time, or both. -/
def dateTime? (s : List Char) : Option (Node × List Char) :=
  match date? s with
  | some rest =>
    match rest with
    | 'T' :: after | 't' :: after | ' ' :: after =>
      match time? after with
      | some after => some (.other, (offset? after).getD after)
      | none => some (.other, rest)
    | rest => some (.other, rest)
  | none => (time? s).map (.other, ·)

/-- A number, a date or a time. -/
def number? (s : List Char) : Option (Node × List Char) :=
  match dateTime? s with
  | some found => some found
  | none =>
    match float? s with
    | some found => some found
    | none => integer? s

end KeepTree.Toml
