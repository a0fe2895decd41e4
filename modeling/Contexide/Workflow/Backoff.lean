import Contexide.Workflow.Retry
import Mathlib.Tactic.Common

/-! The delays of the exponential policies. Saturation and clamping together compute
the exact product, clamped once: the power of two fits its machine word, and a
product that does not fit a duration is beyond every bound. The exponent stops at
16, so a delay that has not met its bound by the 17th attempt stays where it is, while the
formula that the policies document goes on doubling. -/

namespace Contexide.Workflow

theorem toNat_min (a b : UInt32) : (min a b).toNat = min a.toNat b.toNat := by
  change (if a ≤ b then a else b).toNat = _
  split
  · next h =>
    rw [UInt32.le_iff_toNat_le] at h
    rw [min_eq_left h]
  · next h =>
    rw [UInt32.le_iff_toNat_le] at h
    rw [min_eq_right (by omega)]

theorem toNat_saturatingPred (n : UInt32) : (if n = 0 then 0 else n - 1).toNat = n.toNat - 1 := by
  split
  · next h => rw [h]; rfl
  · next h =>
    have hpos : n.toNat ≠ 0 := fun h0 => h (UInt32.toNat_inj.mp h0)
    rw [UInt32.toNat_sub_of_le]
    · rfl
    · rw [UInt32.le_iff_toNat_le, UInt32.toNat_one]
      omega

/-- The power of two is exact up to the 31st. -/
theorem toNat_saturatingPow_two {e : UInt32} (he : e.toNat ≤ 31) :
    (saturatingPow 2 e).toNat = 2 ^ e.toNat := by
  have hlt : 2 ^ e.toNat < 2 ^ 32 := Nat.pow_lt_pow_right (by decide) (by omega)
  rw [saturatingPow, UInt32.toNat_ofNat', show (2 : UInt32).toNat = 2 from rfl,
    Nat.min_eq_left (by omega), Nat.mod_eq_of_lt hlt]

/-- A backoff is the exact product, clamped. -/
theorem backoff_nanos (n : UInt32) (base max : Duration) :
    (backoff n base max).nanos = min max.nanos (base.nanos * 2 ^ min (n.toNat - 1) 16) := by
  have hpow : (saturatingPow 2 (min (if n = 0 then 0 else n - 1) 16)).toNat =
      2 ^ min (n.toNat - 1) 16 := by
    have hexp : (min (if n = 0 then 0 else n - 1) 16 : UInt32).toNat = min (n.toNat - 1) 16 := by
      rw [toNat_min, toNat_saturatingPred]
      rfl
    rw [toNat_saturatingPow_two (by omega), hexp]
  have hmax := max.lt
  simp only [backoff, Duration.saturatingMul, hpow]
  split
  · omega
  · dsimp only
    omega

/-- The base and the bound of the delays of an exponential policy. -/
def RetryPolicyKind.delays : RetryPolicyKind → Option (Duration × Duration)
  | .exponential _ baseDelay maxDelay => some (baseDelay, maxDelay)
  | .infiniteExponential baseDelay maxDelay => some (baseDelay, maxDelay)
  | .never => none
  | .fixed _ _ => none

variable {policy : RetryPolicyKind} {base max d : Duration} {ctx : RetryContext}

/-- Whoever is retried waits for the backoff of its attempt. -/
theorem eq_backoff (hp : policy.delays = some (base, max))
    (hd : policy.decide ctx = .retryAfter d) : d = backoff ctx.attemptNo base max := by
  unfold RetryPolicyKind.decide at hd
  split at hd
  · cases hd
  · cases policy with
    | never => cases hp
    | fixed maxAttempts delay => cases hp
    | exponential maxAttempts baseDelay maxDelay =>
      cases hp
      dsimp only at hd
      split at hd
      · cases hd
      · exact (RetryDecision.retryAfter.inj hd).symm
    | infiniteExponential baseDelay maxDelay =>
      cases hp
      exact (RetryDecision.retryAfter.inj hd).symm

theorem clamp_double (base max : ℕ) {n : ℕ} (hn : 1 ≤ n) :
    min max (base * 2 ^ min n 16) = if n ≤ 16 ∨ max ≤ base * 2 ^ 16
      then min max (2 * min max (base * 2 ^ min (n - 1) 16))
      else min max (base * 2 ^ min (n - 1) 16) := by
  rcases Nat.lt_or_ge 16 n with hlate | hearly
  · -- the exponent has stopped: only a clamped delay is its own double, clamped
    have hexp : min n 16 = 16 := by omega
    have hexp' : min (n - 1) 16 = 16 := by omega
    rw [hexp, hexp']
    split <;> omega
  · have hexp : min n 16 = n := by omega
    have hexp' : min (n - 1) 16 = n - 1 := by omega
    have hdouble : base * 2 ^ n = 2 * (base * 2 ^ (n - 1)) := by
      rw [Nat.mul_left_comm, ← Nat.pow_succ', Nat.succ_eq_add_one, Nat.sub_add_cancel hn]
    rw [hexp, hexp', if_pos (.inl hearly), hdouble]
    omega

/-- The delay of an attempt is exactly the base doubled for each earlier attempt, at
most 16 times, and clamped; it is doubled from one attempt to the next until it meets
the bound or has been doubled 16 times. -/
theorem exponential_delays (hp : policy.delays = some (base, max)) (hn : 1 ≤ ctx.attemptNo.toNat)
    (hd : policy.decide ctx = .retryAfter d) :
    d.nanos = min max.nanos (base.nanos * 2 ^ min (ctx.attemptNo.toNat - 1) 16) ∧
    d.nanos ≤ max.nanos ∧
    (ctx.attemptNo.toNat = 1 → d.nanos = min base.nanos max.nanos) ∧
    ∀ (ctx' : RetryContext) (d' : Duration), ctx'.attemptNo.toNat = ctx.attemptNo.toNat + 1 →
      policy.decide ctx' = .retryAfter d' →
      d'.nanos = if ctx.attemptNo.toNat ≤ 16 ∨ max.nanos ≤ base.nanos * 2 ^ 16
        then min max.nanos (2 * d.nanos) else d.nanos := by
  have hdelay : d.nanos = min max.nanos (base.nanos * 2 ^ min (ctx.attemptNo.toNat - 1) 16) := by
    rw [eq_backoff hp hd, backoff_nanos]
  refine ⟨hdelay, hdelay ▸ Nat.min_le_left _ _, fun hone => ?_, fun ctx' d' hnext hd' => ?_⟩
  · rw [hdelay, hone, Nat.min_comm]
    simp
  · rw [eq_backoff hp hd', backoff_nanos, hnext, hdelay, Nat.add_sub_cancel]
    exact clamp_double _ _ hn

/-- The law of a backoff at one attempt: its delay is within the bound, the first delay is
the base, and the next attempt waits twice as long, up to the bound. -/
def RetryPolicyKind.Doubling (policy : RetryPolicyKind) (base max : Duration)
    (ctx : RetryContext) (d : Duration) : Prop :=
  d.nanos ≤ max.nanos ∧ (ctx.attemptNo.toNat = 1 → d.nanos = min base.nanos max.nanos) ∧
  ∀ (ctx' : RetryContext) (d' : Duration), ctx'.attemptNo.toNat = ctx.attemptNo.toNat + 1 →
    policy.decide ctx' = .retryAfter d' → d'.nanos = min max.nanos (2 * d.nanos)

/-- The delay is an exact product, clamped, whatever the base and the bound. The law holds
up to the 16th attempt, and later when 16 doublings reach the bound or no further attempt is
retried. -/
theorem exponential_law_iff (hp : policy.delays = some (base, max)) (hbase : 0 < base.nanos)
    (hn : 1 ≤ ctx.attemptNo.toNat) (hd : policy.decide ctx = .retryAfter d) :
    d.nanos = min max.nanos (base.nanos * 2 ^ min (ctx.attemptNo.toNat - 1) 16) ∧
    (policy.Doubling base max ctx d ↔
      ctx.attemptNo.toNat ≤ 16 ∨ max.nanos ≤ base.nanos * 2 ^ 16 ∨
        policy.limit ≤ ((ctx.attemptNo.toNat + 1 : ℕ) : ℕ∞) ∨
        ctx.attemptNo.toNat + 1 = 2 ^ 32) := by
  obtain ⟨hdelay, hle, hfirst, hnext⟩ := exponential_delays hp hn hd
  have hword := ctx.attemptNo.toNat_lt
  refine ⟨hdelay, ?_, ?_⟩
  · rintro ⟨-, -, hdouble⟩
    by_contra hnot
    obtain ⟨hlate, hmax, hlimit, hlast⟩ : 16 < ctx.attemptNo.toNat ∧
        base.nanos * 2 ^ 16 < max.nanos ∧
        ((ctx.attemptNo.toNat + 1 : ℕ) : ℕ∞) < policy.limit ∧
        ctx.attemptNo.toNat + 1 ≠ 2 ^ 32 := by
      simpa only [not_or, not_le] using hnot
    -- the next attempt is retried too, and its delay is the same
    have hsucc : (UInt32.ofNat (ctx.attemptNo.toNat + 1)).toNat = ctx.attemptNo.toNat + 1 :=
      UInt32.toNat_ofNat_of_lt' (by rw [UInt32.size]; omega)
    obtain ⟨d', hd'⟩ := (policy.exists_decide_iff
      ⟨.ofNat (ctx.attemptNo.toNat + 1), 0, true⟩).mpr ⟨rfl, by rw [hsucc]; exact hlimit⟩
    have hsame := hnext _ d' hsucc hd'
    rw [if_neg (by omega)] at hsame
    have hdoubled := hdouble _ d' hsucc hd'
    rw [show min (ctx.attemptNo.toNat - 1) 16 = 16 by omega] at hdelay
    omega
  · intro hwhen
    refine ⟨hle, hfirst, fun ctx' d' hctx hd' => ?_⟩
    rcases hwhen with hearly | hmax | hlimit | hlast
    · rw [hnext ctx' d' hctx hd', if_pos (.inl hearly)]
    · rw [hnext ctx' d' hctx hd', if_pos (.inr hmax)]
    · have hretried := ((policy.exists_decide_iff ctx').mp ⟨d', hd'⟩).2
      rw [hctx] at hretried
      exact absurd hlimit (not_le.mpr hretried)
    · have hword' := ctx'.attemptNo.toNat_lt
      omega

/-- A bound of 600 seconds is met at the 20th attempt, one of 100000 seconds is not met at
the 17th. -/
theorem exponential_law_iff_capped :
    (RetryPolicyKind.infiniteExponential (.fromSecs 1) (.fromSecs 600)).Doubling
      (.fromSecs 1) (.fromSecs 600) ⟨20, 20, true⟩ (.fromSecs 600) ∧
    ¬ (RetryPolicyKind.infiniteExponential (.fromSecs 1) (.fromSecs 100000)).Doubling
      (.fromSecs 1) (.fromSecs 100000) ⟨17, 17, true⟩ (.fromSecs 65536) := by
  constructor
  · exact (exponential_law_iff rfl (by decide) (by decide) (by decide)).2.mpr
      (.inr (.inl (by decide)))
  · rw [(exponential_law_iff rfl (by decide) (by decide) (by decide)).2]
    rintro (h | h | h | h)
    · exact absurd h (by decide)
    · exact absurd h (by decide)
    · exact absurd h (by simp [RetryPolicyKind.limit])
    · exact absurd h (by decide)

/-- Between the 17th and the 18th attempt a delay of 65536 seconds is not doubled. -/
theorem delay_stops_doubling : ¬ ∀ (policy : RetryPolicyKind) (base max : Duration),
    policy.delays = some (base, max) → 0 < base.nanos →
    ∀ (ctx : RetryContext) (d : Duration), 1 ≤ ctx.attemptNo.toNat →
    policy.decide ctx = .retryAfter d → policy.Doubling base max ctx d := by
  intro h
  have hlaw := (h (.infiniteExponential (.fromSecs 1) (.fromSecs 100000)) _ _ rfl (by decide)
    ⟨17, 17, true⟩ (.fromSecs 65536) (by decide) (by decide)).2.2
  exact absurd (hlaw ⟨18, 18, true⟩ (.fromSecs 65536) (by decide) (by decide)) (by decide)

end Contexide.Workflow
