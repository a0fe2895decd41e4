import Mathlib.Algebra.Group.Nat.Defs
import Mathlib.Data.Nat.Notation

/-! Checked arithmetic of `usize` on a 64-bit target, and slices. What would wrap or read
out of bounds is a panic. -/

namespace Contexide.Usize

/-- `usize::MAX`. -/
def maxValue : ℕ := 2 ^ 64 - 1

/-- `isize::MAX`, which bounds the size of a vector in bytes. -/
def isizeMax : ℕ := 2 ^ 63 - 1

/-- What ends a computation without a result. A loop that is not over after the rounds it
was given counts as one that does not end. -/
inductive Panic where
  | arithmetic
  | slice
  | expect (message : String)
  | unfinished
  deriving DecidableEq, Repr

def add (a b : ℕ) : Except Panic ℕ :=
  if a + b ≤ maxValue then .ok (a + b) else .error .arithmetic

def sub (a b : ℕ) : Except Panic ℕ := if b ≤ a then .ok (a - b) else .error .arithmetic

/-- The elements at `start..stop`. -/
def slice {α : Type} (xs : List α) (start stop : ℕ) : Except Panic (List α) :=
  if start ≤ stop ∧ stop ≤ xs.length then .ok (xs.extract start stop) else .error .slice

theorem add_of_le {a b : ℕ} (h : a + b ≤ maxValue) : add a b = .ok (a + b) := if_pos h

theorem sub_of_le {a b : ℕ} (h : b ≤ a) : sub a b = .ok (a - b) := if_pos h

theorem slice_of_le {α : Type} {xs : List α} {start stop : ℕ} (h : start ≤ stop)
    (h' : stop ≤ xs.length) : slice xs start stop = .ok (xs.extract start stop) :=
  if_pos ⟨h, h'⟩

end Contexide.Usize
