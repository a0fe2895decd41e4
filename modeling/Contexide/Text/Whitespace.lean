import Mathlib.Data.List.DropRight

/-! Characters with the Unicode property White_Space, trimming by that property
and splitting a text into lines, on lists of characters. -/

namespace Contexide.Text

/-- The characters with the property White_Space. -/
def isWhitespace (c : Char) : Bool :=
  decide (0x09 ≤ c.toNat ∧ c.toNat ≤ 0x0D) || c == ' ' || c.toNat == 0x85 || c.toNat == 0xA0 ||
    c.toNat == 0x1680 || decide (0x2000 ≤ c.toNat ∧ c.toNat ≤ 0x200A) || c.toNat == 0x2028 ||
    c.toNat == 0x2029 || c.toNat == 0x202F || c.toNat == 0x205F || c.toNat == 0x3000

/-- Drop the whitespace at both ends. -/
def trim (s : List Char) : List Char :=
  (s.dropWhile isWhitespace).rdropWhile isWhitespace

/-- The maximal runs of other characters. -/
def splitWhitespace (s : List Char) : List (List Char) :=
  (s.splitOnP isWhitespace).filter fun w => !w.isEmpty

/-- Lines end at a line feed, with a carriage return just before it belonging to
the line break; `current` is the part of the line read so far. -/
def linesFrom (current : List Char) : List Char → List (List Char)
  | [] => if current = [] then [] else [current]
  | c :: s =>
    if c = '\n' then
      (if current.getLast? = some '\r' then current.dropLast else current) :: linesFrom [] s
    else linesFrom (current ++ [c]) s

def lines (s : List Char) : List (List Char) := linesFrom [] s

theorem toNat_of_isWhitespace {c : Char} (h : isWhitespace c = true) :
    c.toNat ≤ 32 ∨ 127 ≤ c.toNat ∧ c.toNat ≠ 931 := by
  by_cases hspace : c = ' '
  · rw [hspace]
    decide
  · simp only [isWhitespace, Bool.or_eq_true, decide_eq_true_eq, beq_iff_eq, hspace,
      or_false] at h
    omega

theorem rdropWhile_append_cons {p : Char → Bool} {c : Char} (hc : ¬ p c = true)
    (x y : List Char) : (x ++ c :: y).rdropWhile p = x ++ c :: y.rdropWhile p := by
  induction y using List.reverseRecOn with
  | nil => exact List.rdropWhile_concat_neg _ _ _ hc
  | append_singleton y d ih =>
    rw [← List.cons_append, ← List.append_assoc, List.rdropWhile_concat, List.rdropWhile_concat]
    split
    · exact ih
    · simp

/-- Trimming goes no further than a character that is not whitespace. -/
theorem trim_append_cons (x y : List Char) {c : Char} (hc : ¬ isWhitespace c = true) :
    trim (x ++ c :: y) = x.dropWhile isWhitespace ++ c :: y.rdropWhile isWhitespace := by
  rw [trim, List.dropWhile_append, List.dropWhile_cons_of_neg hc]
  split
  · next hempty =>
    rw [List.isEmpty_iff.mp hempty, ← List.nil_append (c :: y), rdropWhile_append_cons hc]
  · exact rdropWhile_append_cons hc _ _

/-- What is left of the whitespace when only the front is trimmed. -/
theorem exists_dropWhile_eq_trim_append (s : List Char) :
    ∃ g, (∀ c ∈ g, isWhitespace c = true) ∧ s.dropWhile isWhitespace = trim s ++ g :=
  ⟨(s.dropWhile isWhitespace).rtakeWhile isWhitespace,
    fun _ hc => List.mem_rtakeWhile_imp hc, List.rdropWhile_append_rtakeWhile.symm⟩

end Contexide.Text
