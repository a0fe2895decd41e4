import Mathlib.Algebra.Order.Group.Nat
import Mathlib.Data.List.Range
import Mathlib.Tactic.Ring

/-! Windows of width `w` laid over `n` positions at distance `s`: which one reaches
the end first, how neighbours overlap, and what is left when the last one is
dropped. -/

namespace Contexide.Windows

variable (w s n : ℕ)

/-- End of the window with index `i`, which starts at `i * s`. -/
def stop (i : ℕ) : ℕ := min (i * s + w) n

/-- The index of the first window that reaches the end. -/
def lastIndex : ℕ := (n - w + (s - 1)) / s

variable {w s n}

theorem le_stop_lastIndex (hs : 0 < s) : n ≤ lastIndex w s n * s + w := by
  have h := Nat.div_add_mod (n - w + (s - 1)) s
  have hmod := Nat.mod_lt (n - w + (s - 1)) hs
  rw [Nat.mul_comm] at h
  unfold lastIndex
  omega

theorem stop_lastIndex (hs : 0 < s) : stop w s n (lastIndex w s n) = n :=
  Nat.min_eq_right (le_stop_lastIndex hs)

/-- Before the last window none reaches the end. -/
theorem lt_of_lt_lastIndex {i : ℕ} (hs : 0 < s) (hi : i < lastIndex w s n) : i * s + w < n := by
  have h : (i + 1) * s ≤ n - w + (s - 1) := (Nat.le_div_iff_mul_le hs).mp hi
  rw [Nat.add_mul, Nat.one_mul] at h
  omega

theorem stop_of_lt_lastIndex {i : ℕ} (hs : 0 < s) (hi : i < lastIndex w s n) :
    stop w s n i = i * s + w :=
  Nat.min_eq_left (lt_of_lt_lastIndex hs hi).le

/-- Every window up to the last one starts before the end. -/
theorem start_lt {i : ℕ} (hs : 0 < s) (hsw : s ≤ w) (hn : 0 < n) (hi : i ≤ lastIndex w s n) :
    i * s < n := by
  cases i with
  | zero => simpa using hn
  | succ i =>
    have h := lt_of_lt_lastIndex hs hi
    rw [Nat.add_mul, Nat.one_mul]
    omega

/-- The last window is not longer than the width. -/
theorem last_len_le (hs : 0 < s) : n - lastIndex w s n * s ≤ w := by
  have h := le_stop_lastIndex (w := w) (n := n) hs
  omega

/-- The end of the last but one window, when there is one, is at the start of the
last window plus the overlap. -/
theorem prev_stop {k : ℕ} (hs : 0 < s) (hsw : s ≤ w) (hk : lastIndex w s n = k + 1) :
    stop w s n k = lastIndex w s n * s + (w - s) := by
  rw [stop_of_lt_lastIndex hs (by omega), hk, Nat.add_mul, Nat.one_mul]
  omega

/-- Laid at a distance of at most the width, the first windows cover everything up to
the end of the last of them. -/
theorem covered_iff {k t : ℕ} (hs : 0 < s) (hsw : s ≤ w) (hk : 0 < k) :
    (∃ i < k, i * s ≤ t ∧ t < stop w s n i) ↔ t < stop w s n (k - 1) := by
  constructor
  · rintro ⟨i, hi, -, ht⟩
    have hmono : i * s ≤ (k - 1) * s := Nat.mul_le_mul_right s (by omega)
    unfold stop at ht ⊢
    omega
  · intro ht
    have hdiv := Nat.div_mul_le_self t s
    have hlt : t < t / s * s + s := by
      have h := Nat.lt_div_mul_add (a := t) hs
      omega
    rcases Nat.lt_or_ge (t / s) k with h | h
    · refine ⟨t / s, h, hdiv, ?_⟩
      unfold stop at ht ⊢
      omega
    · have hle : (k - 1) * s ≤ t / s * s := Nat.mul_le_mul_right s (by omega)
      exact ⟨k - 1, by omega, by omega, ht⟩

end Contexide.Windows
