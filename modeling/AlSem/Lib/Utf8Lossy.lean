/-
# Bytes read as UTF-8, with replacements

`from_utf8_lossy`: the scalar values the bytes encode; a longest prefix of a sequence that cannot be
completed is one U+FFFD.
-/
import Mathlib.Data.List.Basic

namespace Utf8Lossy

/-- The replacement character. -/
def replacement : Char := Char.ofNat 0xFFFD

def isContinuation (b : ℕ) : Bool := 0x80 ≤ b && b ≤ 0xBF

/-- The second bytes a three-byte sequence may have. -/
def secondOfThree (b0 b1 : ℕ) : Bool :=
  if b0 = 0xE0 then 0xA0 ≤ b1 && b1 ≤ 0xBF
  else if b0 = 0xED then 0x80 ≤ b1 && b1 ≤ 0x9F
  else isContinuation b1

/-- The second bytes a four-byte sequence may have. -/
def secondOfFour (b0 b1 : ℕ) : Bool :=
  if b0 = 0xF0 then 0x90 ≤ b1 && b1 ≤ 0xBF
  else if b0 = 0xF4 then 0x80 ≤ b1 && b1 ≤ 0x8F
  else isContinuation b1

/-- The character the bytes begin with, and how many bytes after the first it takes. -/
def front (b0 : ℕ) (rest : List ℕ) : Char × ℕ :=
  if b0 < 0x80 then (Char.ofNat b0, 0)
  else if 0xC2 ≤ b0 ∧ b0 ≤ 0xDF then
    match rest with
    | b1 :: _ =>
        if isContinuation b1 then (Char.ofNat ((b0 - 0xC0) * 64 + (b1 - 0x80)), 1)
        else (replacement, 0)
    | [] => (replacement, 0)
  else if 0xE0 ≤ b0 ∧ b0 ≤ 0xEF then
    match rest with
    | b1 :: b2 :: _ =>
        if !secondOfThree b0 b1 then (replacement, 0)
        else if isContinuation b2 then
          (Char.ofNat ((b0 - 0xE0) * 4096 + (b1 - 0x80) * 64 + (b2 - 0x80)), 2)
        else (replacement, 1)
    | [b1] => if secondOfThree b0 b1 then (replacement, 1) else (replacement, 0)
    | [] => (replacement, 0)
  else if 0xF0 ≤ b0 ∧ b0 ≤ 0xF4 then
    match rest with
    | b1 :: b2 :: b3 :: _ =>
        if !secondOfFour b0 b1 then (replacement, 0)
        else if !isContinuation b2 then (replacement, 1)
        else if isContinuation b3 then
          (Char.ofNat ((b0 - 0xF0) * 262144 + (b1 - 0x80) * 4096 + (b2 - 0x80) * 64 + (b3 - 0x80)),
            3)
        else (replacement, 2)
    | [b1, b2] =>
        if !secondOfFour b0 b1 then (replacement, 0)
        else if isContinuation b2 then (replacement, 2) else (replacement, 1)
    | [b1] => if secondOfFour b0 b1 then (replacement, 1) else (replacement, 0)
    | [] => (replacement, 0)
  else (replacement, 0)

/-- **The text of the bytes.** -/
def decode : List ℕ → List Char
  | [] => []
  | b :: bs => (front b bs).1 :: decode (bs.drop (front b bs).2)
  termination_by bs => bs.length
  decreasing_by
    rw [List.length_drop, List.length_cons]
    omega

end Utf8Lossy
