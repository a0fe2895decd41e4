import Mathlib.Data.Nat.Digits.Defs

/-! Hexadecimal text in lower case. A numeral has at least a given number of
digits, lowest first, and determines its number. -/

namespace Contexide.Text

def hexValue (c : Char) : ℕ := if c ≤ '9' then c.toNat - '0'.toNat else c.toNat - 'a'.toNat + 10

theorem hexValue_digitChar : ∀ n < 16, hexValue (Nat.digitChar n) = n := by
  decide

theorem digitChar_inj {m n : ℕ} (hm : m < 16) (hn : n < 16)
    (h : Nat.digitChar m = Nat.digitChar n) : m = n := by
  rw [← hexValue_digitChar m hm, h, hexValue_digitChar n hn]

theorem digitChar_letter : ∀ n < 16, '0' ≤ Nat.digitChar n ∧ Nat.digitChar n ≤ '9' ∨
    'a' ≤ Nat.digitChar n ∧ Nat.digitChar n ≤ 'f' := by
  decide

/-- The digits of a number, lowest first, at least `width` of them. -/
def hexDigits (width n : ℕ) : List ℕ :=
  Nat.digits 16 n ++ List.replicate (width - (Nat.digits 16 n).length) 0

theorem lt_of_mem_hexDigits {width n d : ℕ} (h : d ∈ hexDigits width n) : d < 16 := by
  rcases List.mem_append.mp h with h | h
  · exact Nat.digits_lt_base (by decide) h
  · rw [List.eq_of_mem_replicate h]
    decide

theorem ofDigits_hexDigits (width n : ℕ) : Nat.ofDigits 16 (hexDigits width n) = n := by
  rw [hexDigits, Nat.ofDigits_append_replicate_zero, Nat.ofDigits_digits]

def hexText (width n : ℕ) : List Char := (hexDigits width n).map Nat.digitChar

theorem hexText_letters {width n : ℕ} {c : Char} (h : c ∈ hexText width n) :
    '0' ≤ c ∧ c ≤ '9' ∨ 'a' ≤ c ∧ c ≤ 'f' := by
  obtain ⟨d, hd, rfl⟩ := List.mem_map.mp h
  exact digitChar_letter d (lt_of_mem_hexDigits hd)

/-- The number that digits write, lowest first. -/
def hexNumber (digits : List Char) : ℕ := Nat.ofDigits 16 (digits.map hexValue)

theorem hexNumber_hexText (width n : ℕ) : hexNumber (hexText width n) = n := by
  have hvalues : (hexText width n).map hexValue = hexDigits width n := by
    rw [hexText, List.map_map]
    exact (List.map_congr_left fun d hd => hexValue_digitChar d (lt_of_mem_hexDigits hd)).trans
      (List.map_id _)
  rw [hexNumber, hvalues, ofDigits_hexDigits]

end Contexide.Text
