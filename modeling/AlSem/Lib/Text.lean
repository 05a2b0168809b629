/-
# Text operations

The string operations of the standard library the model uses, as the library documents them.
Strings are Lean's: a sequence of Unicode scalar values, ordered as their UTF-8 bytes are.
-/
import Mathlib.Data.String.Basic

namespace Text

/-- The characters with the Unicode property `White_Space`, which `trim` removes. -/
def isWhitespace (c : Char) : Bool :=
  let n := c.toNat
  (9 ≤ n && n ≤ 13) || n == 0x20 || n == 0x85 || n == 0xA0 || n == 0x1680 ||
    (0x2000 ≤ n && n ≤ 0x200A) || n == 0x2028 || n == 0x2029 || n == 0x202F || n == 0x205F ||
    n == 0x3000

/-- Drop the characters satisfying `p` at both ends. -/
def trimBy (p : Char → Bool) (s : String) : String :=
  String.ofList ((((s.toList.dropWhile p).reverse).dropWhile p).reverse)

/-- `trim`: drop the white space at both ends. -/
def trim (s : String) : String := trimBy isWhitespace s

/-- `trim_matches(c)`: drop the character `c` at both ends. -/
def trimMatches (c : Char) (s : String) : String := trimBy (· == c) s

/-- `to_ascii_lowercase`: only `A` to `Z` change. -/
def toAsciiLowercase (s : String) : String := s.map Char.toLower

/-- `eq_ignore_ascii_case`. -/
def eqIgnoreAsciiCase (a b : String) : Bool := toAsciiLowercase a == toAsciiLowercase b

/-- The comparison by characters. -/
theorem eqIgnoreAsciiCase_eq : eqIgnoreAsciiCase =
    fun a b => a.toList.map Char.toLower == b.toList.map Char.toLower := by
  funext a b
  simp only [eqIgnoreAsciiCase, toAsciiLowercase]
  rw [Bool.eq_iff_iff, beq_iff_eq, beq_iff_eq, ← String.toList_inj, String.toList_map,
    String.toList_map]

/-- The split of a list at the last place where `pat` starts: what is before, and what follows
`pat`. -/
def rsplitOnceList (pat : List Char) : List Char → Option (List Char × List Char)
  | [] => none
  | c :: cs =>
    match rsplitOnceList pat cs with
    | some (a, b) => some (c :: a, b)
    | none =>
      if pat.isPrefixOf (c :: cs) then some ([], (c :: cs).drop pat.length) else none

/-- `rsplit_once(pat)` for a non-empty `pat`. -/
def rsplitOnce (pat s : String) : Option (String × String) :=
  (rsplitOnceList pat.toList s.toList).map fun p => (String.ofList p.1, String.ofList p.2)

/-- The value of a list of decimal digits, `none` when another character is among them. -/
def digits (acc : ℕ) : List Char → Option ℕ
  | [] => some acc
  | c :: cs => if c.isDigit then digits (acc * 10 + (c.toNat - '0'.toNat)) cs else none

/-- `parse::<u64>()`: an optional `+`, then one decimal digit or more, below `2 ^ 64`. -/
def parseU64 (s : String) : Option ℕ :=
  let body :=
    match s.toList with
    | '+' :: cs => cs
    | cs => cs
  if body.isEmpty then none
  else (digits 0 body).bind fun n => if n < 2 ^ 64 then some n else none

/-- The split of a list at the first place where `pat` starts. -/
def splitOnceList (pat : List Char) : List Char → Option (List Char × List Char)
  | [] => none
  | c :: cs =>
    if pat.isPrefixOf (c :: cs) then some ([], (c :: cs).drop pat.length)
    else (splitOnceList pat cs).map fun p => (c :: p.1, p.2)

/-- `strip_prefix(pat)` of a list of characters. -/
def stripPrefix (pat : String) (cs : List Char) : Option (List Char) :=
  pat.toList.isPrefixOf? cs

/-- `starts_with(pat)` of a list of characters. -/
def startsWith (pat : String) (cs : List Char) : Bool := pat.toList.isPrefixOf cs

/-- Drop the characters satisfying `p` at the end. -/
def trimEndBy (p : Char → Bool) (cs : List Char) : List Char := (cs.reverse.dropWhile p).reverse

/-- `trim_start`. -/
def trimStartList (cs : List Char) : List Char := cs.dropWhile isWhitespace

/-- `trim_end`. -/
def trimEndList (cs : List Char) : List Char := trimEndBy isWhitespace cs

/-- `trim` of a list of characters. -/
def trimList (cs : List Char) : List Char := trimEndList (trimStartList cs)

theorem toList_trim (s : String) : (trim s).toList = trimList s.toList := String.toList_ofList

/-- `contains(pat)`. -/
def contains (pat s : String) : Bool := s.toList.tails.any fun t => pat.toList.isPrefixOf t

end Text
