import KeepTree.Text.Extending
import KeepTree.Text.Unassigned

/-!
# Quoted texts

A text in quotes is for people who look into things, so it must be plain what is in it. A character
that cannot be seen, or cannot be seen on its own, is written by its number.
-/

namespace KeepTree.Text

/-! ## 1. Characters that are not seen -/

/-- Controls (general category Cc). -/
def controlRanges : List (Nat × Nat) :=
  [(0x0, 0x1F), (0x7F, 0x9F)]

/-- Separators other than the space (Zs, Zl and Zp). -/
def separatorRanges : List (Nat × Nat) :=
  [(0xA0, 0xA0), (0x1680, 0x1680), (0x2000, 0x200A), (0x2028, 0x2029), (0x202F, 0x202F),
    (0x205F, 0x205F), (0x3000, 0x3000)]

/-- Formats (Cf). -/
def formatRanges : List (Nat × Nat) :=
  [(0xAD, 0xAD), (0x600, 0x605), (0x61C, 0x61C), (0x6DD, 0x6DD), (0x70F, 0x70F), (0x890, 0x891),
    (0x8E2, 0x8E2), (0x180E, 0x180E), (0x200B, 0x200F), (0x202A, 0x202E), (0x2060, 0x2064),
    (0x2066, 0x206F), (0xFEFF, 0xFEFF), (0xFFF9, 0xFFFB), (0x110BD, 0x110BD), (0x110CD, 0x110CD),
    (0x13430, 0x1343F), (0x1BCA0, 0x1BCA3), (0x1D173, 0x1D17A), (0xE0001, 0xE0001),
    (0xE0020, 0xE007F)]

/-- Code points for private use (Co). -/
def privateRanges : List (Nat × Nat) :=
  [(0xE000, 0xF8FF), (0xF0000, 0xFFFFD), (0x100000, 0x10FFFD)]

/-- Letters that only fill a place (of the code points with `Default_Ignorable_Code_Point` those in
    no other of the lists). -/
def fillerRanges : List (Nat × Nat) :=
  [(0x115F, 0x1160), (0x3164, 0x3164), (0xFFA0, 0xFFA0)]

/-- The character cannot be seen, or not on its own. -/
def isUnseen (c : Char) : Bool :=
  inRanges controlRanges c || inRanges separatorRanges c || inRanges formatRanges c ||
    inRanges privateRanges c || inRanges fillerRanges c || isExtending c || isUnassigned c

/-! ## 2. Quoting -/

/-- The characters that have a short form after a backslash. -/
def shortForm? (c : Char) : Option Char :=
  if c = '"' || c = '\\' then some c
  else if c = '\n' then some 'n'
  else if c = '\r' then some 'r'
  else if c = '\t' then some 't'
  else if c = '\x00' then some '0'
  else none

/-- A character inside quotes. -/
def quotedChar (c : Char) : String :=
  match shortForm? c with
  | some short => String.ofList ['\\', short]
  | none =>
    if isUnseen c then "\\u\x7b" ++ String.ofList (Nat.toDigits 16 c.toNat) ++ "\x7d"
    else String.singleton c

/-- A text in quotes. -/
def quoted (s : String) : String := "\"" ++ String.join (s.toList.map quotedChar) ++ "\""

end KeepTree.Text
