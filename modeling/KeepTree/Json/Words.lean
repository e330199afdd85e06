import KeepTree.Json.Reader

/-!
# Floating-point numbers as words

A document in which every floating-point number is an object with its sixteen hexadecimal digits,
so that none of its bits can be lost in decimal notation.
-/

namespace KeepTree.Json

/-- The sixteen hexadecimal digits of a floating-point number. -/
def wordText (x : Binary64) : String :=
  let digits := Nat.toDigits 16 x.bits.toNat
  String.ofList (List.replicate (16 - digits.length) '0' ++ digits)

mutual
/-- The document with floating-point numbers as words. -/
def withWords : Json → Json
  | .float x => .object [("f64", .string (wordText x))]
  | .array items => .array (withWordsAll items)
  | .object members => .object (withWordsMembers members)
  | json => json

/-- The items of an array with floating-point numbers as words. -/
def withWordsAll : List Json → List Json
  | [] => []
  | json :: rest => json.withWords :: withWordsAll rest

/-- The members of an object with floating-point numbers as words. -/
def withWordsMembers : List (String × Json) → List (String × Json)
  | [] => []
  | (name, json) :: rest => (name, json.withWords) :: withWordsMembers rest
end

/-- The floating-point number that sixteen hexadecimal digits write. -/
def ofWordText? (s : String) : Option Binary64 :=
  if s.length = 16 then
    (s.toList.mapM hexDigit?).map fun ds => ⟨UInt64.ofNat (ds.foldl (fun n d => n * 16 + d) 0)⟩
  else none

end KeepTree.Json
