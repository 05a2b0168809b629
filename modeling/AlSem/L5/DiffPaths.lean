/-
# Paths in a unified diff

`l5/diff_parser.rs`: the path of a `---` or `+++` line, and the destination of a section header.  A
line is its list of characters; where the source cuts at byte offsets the cut is at a character.
-/
import AlSem.Lib.Text
import AlSem.Lib.Utf8Lossy
import Mathlib.Algebra.GroupWithZero.Nat

namespace AlSem.L5

open Text

def stripAbPrefix (p : List Char) : List Char :=
  if startsWith "a/" p || startsWith "b/" p then p.drop 2 else p

def isOctal (c : Char) : Bool := '0' ≤ c && c ≤ '7'

/-- The byte of a one-letter escape. -/
def escapeByte : Char → Option ℕ
  | '"' => some 0x22
  | '\\' => some 0x5C
  | 'n' => some 0x0A
  | 't' => some 0x09
  | 'r' => some 0x0D
  | 'a' => some 0x07
  | 'b' => some 0x08
  | 'f' => some 0x0C
  | 'v' => some 0x0B
  | _ => none

/-- The bytes of a character. -/
def utf8Bytes (c : Char) : List ℕ := (String.utf8EncodeChar c).map UInt8.toNat

/-- The bytes a quoted name stands for: escapes are bytes, an octal escape above `\377` and an
unknown escape stay as they are. -/
def unquoteBytes : List Char → List ℕ
  | [] => []
  | '\\' :: [] => [0x5C]
  | '\\' :: c :: cs =>
    match escapeByte c with
    | some b => b :: unquoteBytes cs
    | none =>
      if isOctal c then
        let more := (cs.take 2).takeWhile isOctal
        let n := Nat.ofDigitChars 8 (c :: more) 0
        (if n ≤ 255 then [n] else 0x5C :: (c :: more).flatMap utf8Bytes) ++
          unquoteBytes (cs.drop more.length)
      else 0x5C :: utf8Bytes c ++ unquoteBytes cs
  | c :: cs => utf8Bytes c ++ unquoteBytes cs
  termination_by cs => cs.length
  decreasing_by all_goals (simp only [List.length_cons, List.length_drop]; omega)

/-- Unquote a C-quoted path; an invalid UTF-8 result degrades to U+FFFD. -/
def unquotePath (s : List Char) : List Char :=
  let trimmed := trimList s
  match trimmed with
  | '"' :: rest =>
    if rest.getLast? = some '"' then Utf8Lossy.decode (unquoteBytes rest.dropLast) else trimmed
  | _ => trimmed

/-- `replace('\\', "/")`. -/
def forwardSlashes (cs : List Char) : List Char := cs.map fun c => if c = '\\' then '/' else c

/-- The path of a `---` or `+++` line, `none` for `/dev/null`.  A raw TAB ends the path. -/
def extractPath (line : List Char) : Option (List Char) :=
  let rest := (trimStartList (line.drop 4)).takeWhile (· != '\t')
  if trimEndList rest = "/dev/null".toList then none
  else some (stripAbPrefix (forwardSlashes (unquotePath rest)))

/-- The length of the quoted token that `s` starts with, both quotes included; `none` when it is not
terminated.  The search starts after the opening quote. -/
def quotedTokenEnd : List Char → Option ℕ
  | [] => none
  | ['\\'] => none
  | '\\' :: _ :: cs => (quotedTokenEnd cs).map (· + 2)
  | '"' :: _ => some 1
  | _ :: cs => (quotedTokenEnd cs).map (· + 1)

def quotedTokenLen (s : List Char) : Option ℕ := (quotedTokenEnd (s.drop 1)).map (· + 1)

/-- The text from the opening quote of the last quoted token on. -/
def quotedBStart (rest : List Char) : Option (List Char) :=
  match rest with
  | [] => none
  | c :: cs =>
    if c = '"' then
      match quotedTokenEnd cs with
      | none => some (c :: cs)
      | some n => (quotedBStart (cs.drop n)).orElse fun _ => some (c :: cs)
    else quotedBStart cs
  termination_by rest.length
  decreasing_by all_goals (simp; try omega)

/-- The cut at a byte offset, when a character starts there. -/
def splitAtByte : ℕ → List Char → Option (List Char × List Char)
  | 0, cs => some ([], cs)
  | _, [] => none
  | n, c :: cs =>
    if c.utf8Size ≤ n then (splitAtByte (n - c.utf8Size) cs).map fun p => (c :: p.1, p.2) else none

/-- The destination (b-side) of a `diff --git <a> <b>` line, from the text after `diff --git `. -/
def gitHeaderDest (text : List Char) : Option (List Char) :=
  let rest := trimEndList text
  let b : Option (List Char) :=
    if rest.head? = some '"' then
      (quotedTokenLen rest).bind fun n => stripPrefix " " (rest.drop n)
    else if rest.getLast? = some '"' then quotedBStart rest
    else if rest.count ' ' = 1 then (splitOnceList [' '] rest).map Prod.snd
    else
      match splitAtByte ((rest.map Char.utf8Size).sum / 2) rest with
      | some (a, ' ' :: b) => if stripAbPrefix a = stripAbPrefix b then some b else none
      | _ => none
  b.map fun b => stripAbPrefix (forwardSlashes (unquotePath b))

/-- The destination of a section header line; `none` for any other line. -/
def sectionHeaderDest (line : List Char) : Option (Option (List Char)) :=
  match stripPrefix "diff --git " line with
  | some rest => some (gitHeaderDest rest)
  | none =>
    ((stripPrefix "diff --cc " line).orElse fun _ => stripPrefix "diff --combined " line).map
      fun path => some (forwardSlashes (unquotePath path))

end AlSem.L5
