import Contexide.Workflow.Entities
import Mathlib.Tactic.Common

/-! Pure domain helpers of the executor: the values passed between scheduler
and messaging, the retry decision, and the aggregate status of a run. -/

namespace Contexide.Workflow

/-- A task that the scheduler decided is ready to be dispatched to a worker. -/
structure ReadyTask where
  tenantId : TenantId
  dagRunId : DagRunId
  taskId : TaskId
  taskRunId : TaskRunId
  kind : String
  payload : Json

/-- Status message coming back from a worker. -/
inductive WorkerStatus where
  | success (tenantId : TenantId) (dagRunId : DagRunId) (taskId : TaskId) (taskRunId : TaskRunId)
      (output : Option Json)
  | failed (tenantId : TenantId) (dagRunId : DagRunId) (taskId : TaskId) (taskRunId : TaskRunId)
      (error : String) (errorKind : Option String)

namespace WorkerStatus

def tenantId : WorkerStatus → TenantId
  | .success t _ _ _ _ | .failed t _ _ _ _ _ => t

def dagRunId : WorkerStatus → DagRunId
  | .success _ d _ _ _ | .failed _ d _ _ _ _ => d

def taskId : WorkerStatus → TaskId
  | .success _ _ t _ _ | .failed _ _ t _ _ _ => t

def taskRunId : WorkerStatus → TaskRunId
  | .success _ _ _ r _ | .failed _ _ _ r _ _ => r

end WorkerStatus

/-- Simple global retry policy. -/
structure RetryPolicy where
  maxAttempts : UInt32

def RetryPolicy.shouldRetry (p : RetryPolicy) (attempts : UInt32) : Bool :=
  attempts < p.maxAttempts

/-- The status of a run from the statuses of its tasks. -/
def dagStatusFromTasks (statuses : List TaskStatus) : DagRunStatus :=
  if statuses.any (· == .failed) then .failed
  else if statuses.all TaskStatus.isDone then .success
  else .running

/-- No other status is an aggregate. -/
theorem dagStatusFromTasks_ne (ss : List TaskStatus) {s : DagRunStatus} (hf : s ≠ .failed)
    (hd : s ≠ .success) (hr : s ≠ .running) : dagStatusFromTasks ss ≠ s := by
  unfold dagStatusFromTasks
  split_ifs
  · exact hf.symm
  · exact hd.symm
  · exact hr.symm

theorem dagStatusFromTasks_ne_created (ss : List TaskStatus) :
    dagStatusFromTasks ss ≠ .created := by
  apply dagStatusFromTasks_ne <;> simp

theorem dagStatusFromTasks_eq_failed (ss : List TaskStatus) :
    dagStatusFromTasks ss = .failed ↔ .failed ∈ ss := by
  unfold dagStatusFromTasks
  split_ifs with hf hd <;> simp_all

theorem dagStatusFromTasks_eq_success (ss : List TaskStatus) :
    dagStatusFromTasks ss = .success ↔ ∀ s ∈ ss, s.isDone = true := by
  unfold dagStatusFromTasks
  split_ifs with hf hd
  · simp only [List.any_eq_true, beq_iff_eq] at hf
    obtain ⟨s, hs, rfl⟩ := hf
    simp only [false_iff, not_forall]
    exact ⟨.failed, hs, by simp [TaskStatus.isDone]⟩
  · simpa using hd
  · simpa using hd

theorem dagStatusFromTasks_eq_running {ss : List TaskStatus} (hf : dagStatusFromTasks ss ≠ .failed)
    (hs : dagStatusFromTasks ss ≠ .success) : dagStatusFromTasks ss = .running := by
  unfold dagStatusFromTasks at *
  split_ifs at * <;> simp_all

theorem dagStatusFromTasks_eq_running_iff (ss : List TaskStatus) :
    dagStatusFromTasks ss = .running ↔ .failed ∉ ss ∧ ∃ s ∈ ss, s.isDone = false := by
  have hopen : (∃ s ∈ ss, s.isDone = false) ↔ dagStatusFromTasks ss ≠ .success := by
    rw [Ne, dagStatusFromTasks_eq_success]
    simp
  rw [hopen, ← dagStatusFromTasks_eq_failed]
  exact ⟨fun h => by simp [h], fun h => dagStatusFromTasks_eq_running h.1 h.2⟩

theorem dagStatusFromTasks_ext {ss ts : List TaskStatus}
    (hf : dagStatusFromTasks ss = .failed ↔ dagStatusFromTasks ts = .failed)
    (hs : dagStatusFromTasks ss = .success ↔ dagStatusFromTasks ts = .success) :
    dagStatusFromTasks ss = dagStatusFromTasks ts := by
  unfold dagStatusFromTasks at *
  split_ifs at * <;> simp_all

/-- The aggregate only sees which statuses occur, not their order. -/
theorem dagStatusFromTasks_congr {ss ts : List TaskStatus} (h : ∀ s, s ∈ ss ↔ s ∈ ts) :
    dagStatusFromTasks ss = dagStatusFromTasks ts := by
  refine dagStatusFromTasks_ext ?_ ?_
  · rw [dagStatusFromTasks_eq_failed, dagStatusFromTasks_eq_failed, h]
  · simp only [dagStatusFromTasks_eq_success, h]

end Contexide.Workflow
