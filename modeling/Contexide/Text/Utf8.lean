import Mathlib.Data.Nat.Notation

/-! Decoding UTF-8 with replacement. A byte that no character starts with becomes the
replacement character, and so does the longest start of a character that the bytes do not
continue. -/

namespace Contexide.Text

/-- Whether the byte continues a character. -/
def isTail (b : UInt8) : Bool := 0x80 ≤ b && b ≤ 0xBF

/-- Whether the bytes start a character of three bytes. -/
def startsThree (a b : UInt8) : Bool :=
  a == 0xE0 && 0xA0 ≤ b && b ≤ 0xBF || 0xE1 ≤ a && a ≤ 0xEC && isTail b ||
    a == 0xED && 0x80 ≤ b && b ≤ 0x9F || 0xEE ≤ a && a ≤ 0xEF && isTail b

/-- Whether the bytes start a character of four bytes. -/
def startsFour (a b : UInt8) : Bool :=
  a == 0xF0 && 0x90 ≤ b && b ≤ 0xBF || 0xF1 ≤ a && a ≤ 0xF3 && isTail b ||
    a == 0xF4 && 0x80 ≤ b && b ≤ 0x8F

/-- The code point so far with the six bits of the next byte. -/
def shiftIn (n : ℕ) (b : UInt8) : ℕ := n * 64 + b.toNat % 64

def replacement : Char := '\uFFFD'

/-- The first character and how many bytes it takes after the first one. -/
def firstChar (a : UInt8) (s : List UInt8) : Char × ℕ :=
  if a < 0x80 then (Char.ofNat a.toNat, 0)
  else
    match s with
    | [] => (replacement, 0)
    | b :: s =>
      if 0xC2 ≤ a && a ≤ 0xDF && isTail b then (Char.ofNat (shiftIn (a.toNat % 32) b), 1)
      else if startsThree a b then
        match s with
        | [] => (replacement, 1)
        | c :: _ =>
          if isTail c then (Char.ofNat (shiftIn (shiftIn (a.toNat % 16) b) c), 2)
          else (replacement, 1)
      else if startsFour a b then
        match s with
        | [] => (replacement, 1)
        | c :: s =>
          if isTail c then
            match s with
            | [] => (replacement, 2)
            | d :: _ =>
              if isTail d then
                (Char.ofNat (shiftIn (shiftIn (shiftIn (a.toNat % 8) b) c) d), 3)
              else (replacement, 2)
          else (replacement, 1)
      else (replacement, 0)

/-- Decode after the given number of bytes, which belong to the character before. -/
def decodeAfter : ℕ → List UInt8 → List Char
  | _, [] => []
  | 0, a :: s => (firstChar a s).1 :: decodeAfter (firstChar a s).2 s
  | n + 1, _ :: s => decodeAfter n s

def fromUtf8Lossy (data : List UInt8) : List Char := decodeAfter 0 data

/-- The start of a character of three bytes, cut short by a letter. -/
example : fromUtf8Lossy [0xE2, 0x82, 0x61, 0xC3, 0xA9, 0xFF] =
    ['\uFFFD', 'a', 'é', '\uFFFD'] := by decide

end Contexide.Text
