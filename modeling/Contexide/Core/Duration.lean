import Mathlib.Algebra.Group.Nat.Defs

/-! `std::time::Duration`, as far as the configuration and the retry policies
compute with it. -/

namespace Contexide

/-- Whole seconds in a `u64` and less than a second of nanoseconds, kept as the
number of nanoseconds. -/
structure Duration where
  nanos : ℕ
  lt : nanos < 2 ^ 64 * 10 ^ 9
  deriving DecidableEq

namespace Duration

def fromSecs (secs : UInt64) : Duration where
  nanos := secs.toNat * 10 ^ 9
  lt := by
    have := secs.toNat_lt
    omega

def fromMillis (ms : UInt64) : Duration where
  nanos := ms.toNat * 10 ^ 6
  lt := by
    have := ms.toNat_lt
    omega

/-- `Duration::MAX` when the product does not fit. -/
def saturatingMul (d : Duration) (k : UInt32) : Duration where
  nanos := min (d.nanos * k.toNat) (2 ^ 64 * 10 ^ 9 - 1)
  lt := by omega

end Duration

end Contexide
