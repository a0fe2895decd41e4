import Contexide.Core.Duration
import Contexide.Workflow.Entities
import Mathlib.Data.ENat.Basic

/-! Retry policies of single tasks: the policy that a task's columns name, and the
decision it takes about a failed attempt. -/

namespace Contexide.Workflow

/-- Describes when a task is allowed to retry. -/
inductive RetryPolicyKind where
  | never
  | fixed (maxAttempts : UInt32) (delay : Duration)
  | exponential (maxAttempts : UInt32) (baseDelay maxDelay : Duration)
  | infiniteExponential (baseDelay maxDelay : Duration)
  deriving DecidableEq

structure RetryContext where
  attemptNo : UInt32
  totalAttempts : UInt32
  transientError : Bool

inductive RetryDecision where
  | fail
  | retryAfter (delay : Duration)
  deriving DecidableEq

/-- `u32::saturating_pow`. -/
def saturatingPow (base exponent : UInt32) : UInt32 :=
  UInt32.ofNat (min (base.toNat ^ exponent.toNat) (2 ^ 32 - 1))

/-- `base_delay` doubled for each attempt after the first, at most 16 times, and
clamped by `max_delay`. -/
def backoff (attemptNo : UInt32) (baseDelay maxDelay : Duration) : Duration :=
  -- `attempt_no.saturating_sub(1)`
  let pow := min (if attemptNo = 0 then 0 else attemptNo - 1) 16
  let delay := baseDelay.saturatingMul (saturatingPow 2 pow)
  if maxDelay.nanos < delay.nanos then maxDelay else delay

def RetryPolicyKind.decide (policy : RetryPolicyKind) (ctx : RetryContext) : RetryDecision :=
  if ctx.transientError = false then .fail
  else match policy with
  | .never => .fail
  | .fixed maxAttempts delay =>
    if maxAttempts ≤ ctx.attemptNo then .fail else .retryAfter delay
  | .exponential maxAttempts baseDelay maxDelay =>
    if maxAttempts ≤ ctx.attemptNo then .fail
    else .retryAfter (backoff ctx.attemptNo baseDelay maxDelay)
  | .infiniteExponential baseDelay maxDelay =>
    .retryAfter (backoff ctx.attemptNo baseDelay maxDelay)

/-- Domain-level defaults for retry policy per task kind / domain. -/
structure DomainRetryDefaults where
  policy : RetryPolicyKind
  maxAttempts : UInt32

/-- A parameter in milliseconds, or its default. -/
def Task.millisParam (task : Task) (key : String) (default : UInt64) : Duration :=
  .fromMillis (((task.retryParams.get key).bind Json.asU64).getD default)

/-- `max_attempts` as `u32`, or the default of the domain. -/
def Task.attemptsParam (task : Task) (defaults : DomainRetryDefaults) : UInt32 :=
  (task.maxAttempts.map Int32.toUInt32).getD defaults.maxAttempts

def parsePolicy (task : Task) (defaults : DomainRetryDefaults) : RetryPolicyKind :=
  match task.retryPolicy with
  | "never" => .never
  | "fixed" => .fixed (task.attemptsParam defaults) (task.millisParam "delay_ms" 30000)
  | "exponential" =>
    .exponential (task.attemptsParam defaults) (task.millisParam "base_delay_ms" 1000)
      (task.millisParam "max_delay_ms" 600000)
  | "infinite_exponential" =>
    .infiniteExponential (task.millisParam "base_delay_ms" 1000)
      (task.millisParam "max_delay_ms" 600000)
  | _ => defaults.policy

/-- Resolve the effective retry policy for a task. -/
def resolvePolicy (task : Task) (defaults : DomainRetryDefaults) : RetryPolicyKind :=
  parsePolicy task defaults

/-- Decide whether to schedule another run for a failed task. -/
def decideRetryForTask (task : Task) (lastRun : TaskRun) (domainDefaults : DomainRetryDefaults)
    (totalAttemptsForTask : UInt32) : RetryDecision :=
  (resolvePolicy task domainDefaults).decide
    { attemptNo := lastRun.attemptNo.toUInt32
      totalAttempts := totalAttemptsForTask
      transientError := lastRun.transientError.getD false }

/-! ### Who is retried -/

/-- How many attempts a policy allows. -/
def RetryPolicyKind.limit : RetryPolicyKind → ℕ∞
  | .never => 0
  | .fixed maxAttempts _ => maxAttempts.toNat
  | .exponential maxAttempts _ _ => maxAttempts.toNat
  | .infiniteExponential _ _ => ⊤

/-- A policy retries the transient failures of the attempts before its limit. -/
theorem RetryPolicyKind.exists_decide_iff (policy : RetryPolicyKind) (ctx : RetryContext) :
    (∃ delay, policy.decide ctx = .retryAfter delay) ↔
      ctx.transientError = true ∧ ctx.attemptNo.toNat < policy.limit := by
  have hlimit : ∀ (n : UInt32) (d : Duration),
      (∃ delay, (if n ≤ ctx.attemptNo then RetryDecision.fail else .retryAfter d) =
        .retryAfter delay) ↔ (ctx.attemptNo.toNat : ℕ∞) < n.toNat := by
    intro n d
    rw [Nat.cast_lt, ← UInt32.lt_iff_toNat_lt]
    split
    · next h => simp [UInt32.not_lt.mpr h]
    · next h => simp [UInt32.not_le.mp h]
  unfold decide
  cases ctx.transientError with
  | false => simp
  | true =>
    rw [if_neg (by simp)]
    cases policy with
    | never => simp [limit]
    | fixed maxAttempts delay =>
      simp only [limit, true_and]
      apply hlimit
    | exponential maxAttempts baseDelay maxDelay =>
      simp only [limit, true_and]
      apply hlimit
    | infiniteExponential baseDelay maxDelay => simp [limit]

end Contexide.Workflow
