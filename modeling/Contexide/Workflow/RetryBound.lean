import Contexide.Workflow.RetryDecisions

/-! How many attempts a task gets when its own policy decides. The scheduler numbers
attempts from zero, the policies count them from one, so a limit of `n` allows
`n + 1` attempts; and the limit is a signed number read as an unsigned one, so a
negative limit is a huge one. -/

namespace Contexide.Workflow

open Scheduler

/-- The attempt after its worker reported a transient failure. -/
structure TransientFailure (r r' : TaskRun) : Prop where
  ofTask : r'.taskId = r.taskId
  number : r'.attemptNo = r.attemptNo
  transient : r'.transientError = some true

/-- The attempt with nothing but the report changed. -/
def TaskRun.failedTransiently (r : TaskRun) : TaskRun := { r with transientError := some true }

theorem TransientFailure.failedTransiently (r : TaskRun) :
    TransientFailure r r.failedTransiently :=
  ⟨rfl, rfl, rfl⟩

/-- The attempts of a task, oldest first: the first one, and a new one whenever a
transient failure of the last is answered with a retry. -/
inductive Attempts (task : Task) (defaults : DomainRetryDefaults) : List TaskRun → Prop
  | first (id : TaskRunId) : Attempts task defaults [openedRun task id []]
  | again {rs : List TaskRun} {r r' : TaskRun} {total : UInt32} {delay : Duration} (id : TaskRunId)
      (h : Attempts task defaults (rs ++ [r])) (hf : TransientFailure r r')
      (hd : decideRetryForTask task r' defaults total = .retryAfter delay) :
      Attempts task defaults (rs ++ [r'] ++ [openedRun task id (rs ++ [r'])])

/-- The number of an attempt, read as the policies read it. -/
theorem toUInt32_ofNat_toNat (n : ℕ) : (Int32.ofNat n).toUInt32.toNat = n % 2 ^ 32 := by
  have hword : (Int32.ofNat n).toUInt32 = UInt32.ofNat n := rfl
  rw [hword, UInt32.toNat_ofNat']

/-- Retries are for transient failures of attempts whose number is below the limit. -/
theorem exists_decideRetryForTask_iff (task : Task) (r : TaskRun) (defaults : DomainRetryDefaults)
    (total : UInt32) :
    (∃ delay, decideRetryForTask task r defaults total = .retryAfter delay) ↔
      r.transientError = some true ∧ r.attemptNo.toUInt32.toNat < task.attemptLimit defaults := by
  rw [decideRetryForTask, RetryPolicyKind.exists_decide_iff, resolvePolicy, Task.limit_parsePolicy]
  cases r.transientError with
  | none => simp
  | some b => simp

namespace Attempts

variable {task : Task} {defaults : DomainRetryDefaults} {rs : List TaskRun} {r : TaskRun}

/-- The last attempt carries the number of the attempts before it. -/
theorem last_number (h : Attempts task defaults (rs ++ [r])) :
    r.attemptNo = Int32.ofNat rs.length := by
  obtain ⟨init, last, hsplit, hno⟩ : ∃ init last, rs ++ [r] = init ++ [last] ∧
      last.attemptNo = Int32.ofNat init.length := by
    generalize rs ++ [r] = l at h
    cases h with
    | first id => exact ⟨[], _, rfl, rfl⟩
    | again id h hf hd => exact ⟨_, _, rfl, rfl⟩
  obtain ⟨rfl, hr⟩ := List.append_inj' hsplit rfl
  rw [List.singleton_inj.mp hr, hno]

/-- One more attempt than the limit, at most. -/
theorem length_le (h : Attempts task defaults rs) {limit : UInt32}
    (hlimit : task.attemptLimit defaults = limit.toNat) : rs.length ≤ limit.toNat + 1 := by
  induction h with
  | first id => simp
  | @again rs r r' total delay id h hf hd ih =>
    have hlast := ((exists_decideRetryForTask_iff task r' defaults total).mp ⟨delay, hd⟩).2
    rw [hf.number, h.last_number, hlimit, Nat.cast_lt, toUInt32_ofNat_toNat] at hlast
    have hword := limit.toNat_lt
    simp only [List.length_append, List.length_singleton] at ih ⊢
    rw [Nat.mod_eq_of_lt (by omega)] at hlast
    omega

/-- Transient failures use up the limit and one more attempt. -/
theorem exists_length {limit : UInt32} (hlimit : task.attemptLimit defaults = limit.toNat) {k : ℕ}
    (hk : k ≤ limit.toNat) : ∃ rs r, Attempts task defaults (rs ++ [r]) ∧ rs.length = k := by
  induction k with
  | zero => exact ⟨[], _, .first ⟨0⟩, rfl⟩
  | succ k ih =>
    obtain ⟨rs, r, h, rfl⟩ := ih (by omega)
    have hretry : ∃ delay, decideRetryForTask task r.failedTransiently defaults 0 =
        .retryAfter delay := by
      rw [exists_decideRetryForTask_iff, TaskRun.failedTransiently, h.last_number, hlimit,
        Nat.cast_lt, toUInt32_ofNat_toNat]
      have hword := limit.toNat_lt
      exact ⟨rfl, by rw [Nat.mod_eq_of_lt (by omega)]; omega⟩
    obtain ⟨delay, hd⟩ := hretry
    exact ⟨_, _, h.again ⟨0⟩ (.failedTransiently r) hd, by simp⟩

end Attempts

/-- The limit that the task or the domain states. -/
def Task.statedLimit (task : Task) (defaults : DomainRetryDefaults) : ℤ :=
  match task.maxAttempts with
  | some m => m.toInt
  | none => defaults.maxAttempts.toNat

/-- The cast keeps a limit that is not negative, and makes a negative one exceed every
signed number. -/
theorem attemptsParam_eq (task : Task) (defaults : DomainRetryDefaults) :
    ((task.attemptsParam defaults).toNat : ℤ) =
      if task.statedLimit defaults < 0 then task.statedLimit defaults + 2 ^ 32
      else task.statedLimit defaults := by
  unfold Task.attemptsParam Task.statedLimit
  cases task.maxAttempts with
  | none =>
    rw [if_neg (by simp)]
    rfl
  | some m =>
    have hsigned : m.toInt = m.toBitVec.toInt := rfl
    have hword : ((some m).map Int32.toUInt32).getD defaults.maxAttempts = m.toUInt32 := rfl
    have hbits : m.toUInt32.toNat = m.toBitVec.toNat := rfl
    have hlt := m.toBitVec.isLt
    rw [hword, hbits]
    simp only [hsigned, BitVec.toInt_eq_toNat_cond]
    split <;> split <;> omega

theorem le_statedLimit (task : Task) (defaults : DomainRetryDefaults) :
    -2 ^ 31 ≤ task.statedLimit defaults := by
  unfold Task.statedLimit
  cases task.maxAttempts with
  | none => exact (by decide : (-2 ^ 31 : ℤ) ≤ 0).trans (Int.natCast_nonneg _)
  | some m => exact m.le_toInt

/-- The stated limit bounds the attempts exactly when it is zero. -/
theorem attempts_le_statedLimit_iff (task : Task) (defaults : DomainRetryDefaults)
    (hp : task.retryPolicy = "fixed" ∨ task.retryPolicy = "exponential") :
    (∀ rs, Attempts task defaults rs → (rs.length : ℤ) ≤ max 1 (task.statedLimit defaults)) ↔
      task.statedLimit defaults = 0 := by
  have hlimit : task.attemptLimit defaults = (task.attemptsParam defaults).toNat := by
    rcases hp with hp | hp <;> simp [Task.attemptLimit, hp]
  have hstated := attemptsParam_eq task defaults
  constructor
  · intro h
    obtain ⟨rs, r, hrs, hlen⟩ := Attempts.exists_length hlimit (le_refl _)
    have hle := h _ hrs
    rw [List.length_append, hlen, List.length_singleton] at hle
    rcases lt_or_ge (task.statedLimit defaults) 0 with hneg | hpos
    · have hlow := le_statedLimit task defaults
      rw [if_pos hneg] at hstated
      omega
    · rw [if_neg (by omega)] at hstated
      omega
  · intro h rs hrs
    have hle := hrs.length_le hlimit
    rw [if_neg (by omega)] at hstated
    omega

/-- A task with the policy "fixed" and the columns. -/
def fixedTask (maxAttempts : Option Int32) : Task where
  id := ⟨0⟩
  dagRunId := ⟨1⟩
  tenantId := ⟨2⟩
  kind := "extractor"
  status := .running
  payload := .null
  result := none
  maxAttempts := maxAttempts
  retryPolicy := "fixed"
  retryParams := .object []
  priority := 0
  executionPolicyOverride := none

/-- Without retries allowed, one attempt. -/
theorem attempts_le_statedLimit_iff_zero :
    (∀ rs, Attempts (fixedTask (some 0)) ⟨.never, 0⟩ rs →
      (rs.length : ℤ) ≤ max 1 ((fixedTask (some 0)).statedLimit ⟨.never, 0⟩)) ↔
      (fixedTask (some 0)).statedLimit ⟨.never, 0⟩ = 0 :=
  attempts_le_statedLimit_iff (fixedTask (some 0)) ⟨.never, 0⟩ (.inl rfl)

/-- A limit of one attempt allows two. -/
theorem two_attempts_of_limit_one : ¬ ∀ (task : Task) (defaults : DomainRetryDefaults),
    task.retryPolicy = "fixed" ∨ task.retryPolicy = "exponential" →
    ∀ rs, Attempts task defaults rs → (rs.length : ℤ) ≤ max 1 (task.statedLimit defaults) := by
  intro h
  have hfirst : Attempts (fixedTask (some 1)) ⟨.never, 0⟩ ([] ++ [_]) := .first ⟨0⟩
  have hretry : decideRetryForTask (fixedTask (some 1))
      (openedRun (fixedTask (some 1)) ⟨0⟩ []).failedTransiently ⟨.never, 0⟩ 1 =
        .retryAfter (.fromMillis 30000) := by decide
  have htwo := hfirst.again ⟨1⟩ (.failedTransiently _) hretry
  exact absurd (h _ _ (.inl rfl) _ htwo) (by decide)

end Contexide.Workflow
