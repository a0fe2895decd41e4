import Contexide.Workflow.Listening
import Contexide.Workflow.Redelivery
import Contexide.Workflow.Retry

/-! Two retry mechanisms side by side. The scheduler counts the attempts of a
task against one global bound; the policy of the task itself is resolved by
`decideRetryForTask`, which the scheduler does not call. The message that reports
a failure says whether it is transient, and its translation drops that. -/

namespace Contexide.Workflow

open Effects Storage Scheduler Messaging

/-- The failure that a message reports is transient. -/
def MsgWorkerStatus.transient (done : MsgWorkerStatus) : Bool :=
  match done.resultMeta with
  | some res => res.outcome == .transientFailure
  | none => false

/-- The attempt with what the message says about it. -/
def TaskRun.reported (a : TaskRun) (done : MsgWorkerStatus) : TaskRun :=
  { a with transientError := some done.transient }

/-- Forward the message and let the scheduler handle it. -/
def listenToOne (C : Config) (decode : List UInt8 → Except Error MsgWorkerStatus)
    (msg : IncomingMessage) : Prog (Except Error Unit) :=
  listenWorkerStatuses decode
    (fun status => do
      handleWorkerStatus C status
      pure (.ok ()))
    fun _ => pure (.ok [.ok msg])

/-- The number of attempts of a task, `as u32`. -/
def Store.attemptCount (s : Store) (t : TaskId) : UInt32 := UInt32.ofNat (s.listByTask t).length

namespace Task

/-- How many attempts the columns of the task allow. -/
def attemptLimit (task : Task) (defaults : DomainRetryDefaults) : ℕ∞ :=
  match task.retryPolicy with
  | "never" => 0
  | "fixed" | "exponential" => (task.attemptsParam defaults).toNat
  | "infinite_exponential" => ⊤
  | _ => defaults.policy.limit

theorem limit_parsePolicy (task : Task) (defaults : DomainRetryDefaults) :
    (parsePolicy task defaults).limit = task.attemptLimit defaults := by
  unfold parsePolicy attemptLimit
  split <;> simp [*, RetryPolicyKind.limit]

theorem exists_decide_iff (task : Task) (a : TaskRun) (done : MsgWorkerStatus)
    (defaults : DomainRetryDefaults) (n : UInt32) :
    (∃ delay, decideRetryForTask task (a.reported done) defaults n = .retryAfter delay) ↔
      done.transient = true ∧ a.attemptNo.toUInt32.toNat < task.attemptLimit defaults := by
  rw [decideRetryForTask, RetryPolicyKind.exists_decide_iff, resolvePolicy, limit_parsePolicy]
  rfl

end Task

variable (C : Config) {decode : List UInt8 → Except Error MsgWorkerStatus} {w : World}
  {msg : IncomingMessage} {done : MsgWorkerStatus} {a : TaskRun} {t : Task}

theorem run_listenToOne (hdone : decode msg.data = .ok done) :
    ((listenToOne C decode msg).run (exec C .status) w).2 =
      w.handled C .status (statusOf done) := by
  simp only [listenToOne, listenWorkerStatuses, listenLoop, hdone, Program.run_bind,
    Program.run_pure, run_handleWorkerStatus]

theorem statusOf_of_failure (hfail : done.success = false) :
    statusOf done = .failed done.tenantId ⟨done.dagRunId⟩ ⟨done.taskId⟩ ⟨done.taskRunId⟩
      (done.error.getD "unknown error") done.errorKind := by
  rw [statusOf, if_neg (by simp [hfail])]

/-- A failure settles its task by the global bound alone. -/
theorem tasks_handled_of_failure (hfail : done.success = false) (ha : a ∈ w.taskRuns)
    (haid : a.id = ⟨done.taskRunId⟩) (hactive : a.status.isTerminal = false) (ht : t ∈ w.tasks)
    (htid : t.id = ⟨done.taskId⟩) : ∃ u : Task, u.id = t.id ∧
      u.status = (if C.retryPolicy.shouldRetry (w.attemptCount t.id) then .pending else .failed) ∧
      (w.handled C .status (statusOf done)).tasks = w.tasks.save u := by
  rw [statusOf_of_failure hfail]
  set m : WorkerStatus := .failed done.tenantId ⟨done.dagRunId⟩ ⟨done.taskId⟩ ⟨done.taskRunId⟩
    (done.error.getD "unknown error") done.errorKind
  have hrun : m.taskRunId = a.id := haid.symm
  have htask : m.taskId = t.id := htid.symm
  have hsets : m.chunkSets C = [] := rfl
  refine ⟨m.settledTask C t (w.listByTask t.id).length, ?_, ?_, ?_⟩
  · exact (m.settledTask_same C t _).id.symm
  · rw [WorkerStatus.settledTask, failedTask_status]
    rfl
  · simp only [World.handled, hrun, Table.get_of_mem ha, hactive, htask, Table.get_of_mem ht,
      World.settledTask, hsets, embedTasks, World.length_listByTask_putTaskRun ha]
    simp

/-- The task comes back to the queue between the two worlds. -/
def Requeued (w w' : World) (id : TaskId) : Prop :=
  (∀ t ∈ w.tasks, t.id = id → t.status ≠ .pending) ∧
    ∃ u ∈ w'.tasks, u.id = id ∧ u.status = .pending

/-- A failure re-queues its task while the global bound allows it, unless the task is
in the queue or the attempt is settled. -/
theorem requeued_iff (hdone : decode msg.data = .ok done) (hfail : done.success = false)
    (ha : a ∈ w.taskRuns) (haid : a.id = ⟨done.taskRunId⟩)
    (ht : t ∈ w.tasks) (htid : t.id = ⟨done.taskId⟩) :
    Requeued w ((listenToOne C decode msg).run (exec C .status) w).2 t.id ↔
      t.status ≠ .pending ∧ a.status.isTerminal = false ∧
        C.retryPolicy.shouldRetry (w.attemptCount t.id) = true := by
  have hbefore : (∀ v ∈ w.tasks, v.id = t.id → v.status ≠ .pending) ↔ t.status ≠ .pending := by
    constructor
    · intro h
      exact h t ht rfl
    · intro h v hv hid
      rwa [Table.eq_of_key hv ht hid]
  rw [Requeued, hbefore, run_listenToOne C hdone]
  apply and_congr_right
  intro hqueue
  cases hactive : a.status.isTerminal with
  | true =>
    have hsettled : ∀ r ∈ w.taskRuns, r.id = (statusOf done).taskRunId →
        r.status.isTerminal = true := by
      intro r hr hid
      rw [statusOf_of_failure hfail, WorkerStatus.taskRunId, ← haid] at hid
      rwa [Table.eq_of_key hr ha hid]
    rw [World.handled_of_terminal hsettled]
    apply iff_of_false
    · rintro ⟨u, hu, hid, hpending⟩
      rw [Table.eq_of_key hu ht hid] at hpending
      exact hqueue hpending
    · simp
  | false =>
    obtain ⟨u, hid, hstatus, htasks⟩ :=
      tasks_handled_of_failure C hfail ha haid hactive ht htid
    rw [htasks]
    constructor
    · rintro ⟨v, hv, hvid, hpending⟩
      rw [Table.eq_of_mem_save hv (hvid.trans hid.symm), hstatus] at hpending
      refine ⟨rfl, ?_⟩
      by_contra hno
      rw [if_neg hno] at hpending
      exact absurd hpending (by decide)
    · rintro ⟨_, hretry⟩
      refine ⟨u, Table.mem_save_self _ _, hid, ?_⟩
      rw [hstatus, if_pos hretry]

/-- Re-queueing agrees with the policy of the task exactly when the task is in the
queue or the attempt is settled, the global bound is reached, or the failure is
transient and the policy allows another attempt. -/
theorem requeued_retries_iff (hdone : decode msg.data = .ok done) (hfail : done.success = false)
    (ha : a ∈ w.taskRuns) (haid : a.id = ⟨done.taskRunId⟩)
    (ht : t ∈ w.tasks) (htid : t.id = ⟨done.taskId⟩) (defaults : DomainRetryDefaults) :
    (Requeued w ((listenToOne C decode msg).run (exec C .status) w).2 t.id →
        ∃ delay, decideRetryForTask t (a.reported done) defaults (w.attemptCount t.id) =
          .retryAfter delay) ↔
      (t.status = .pending ∨ a.status.isTerminal = true) ∨
        C.retryPolicy.maxAttempts ≤ w.attemptCount t.id ∨
        done.transient = true ∧ a.attemptNo.toUInt32.toNat < t.attemptLimit defaults := by
  rw [requeued_iff C hdone hfail ha haid ht htid, Task.exists_decide_iff,
    RetryPolicy.shouldRetry, decide_eq_true_iff, imp_iff_not_or, ← UInt32.not_lt]
  simp only [not_and_or, not_not, Bool.not_eq_false, or_assoc]

/-- The extractor says that its document cannot be read. -/
def extractorFailed : MsgWorkerStatus where
  tenantId := ⟨0⟩
  dagRunId := 6
  taskId := 7
  taskRunId := 0
  kind := "extractor"
  success := false
  output := none
  error := some "unreadable"
  errorKind := none
  resultMeta := some ⟨.permanentFailure, none, none⟩

def extractorFailedText : List UInt8 :=
  ('\x7b' ::
    ("\"tenant_id\":\"00000000-0000-0000-0000-000000000000\"," ++
      "\"dag_run_id\":\"00000000-0000-0000-0000-000000000006\"," ++
      "\"task_id\":\"00000000-0000-0000-0000-000000000007\"," ++
      "\"task_run_id\":\"00000000-0000-0000-0000-000000000000\"," ++
      "\"kind\":\"extractor\",\"success\":false,\"error\":\"unreadable\"," ++
      "\"result_meta\":\x7b\"outcome\":\"permanent_failure\"\x7d\x7d").toList).map
    fun c => c.toNat.toUInt8

theorem dispatchedOnce_task : ∃ t ∈ dispatchedOnce.tasks, t.retryPolicy = "never" ∧
    t.id = ⟨extractorFailed.taskId⟩ ∧ t.status = .running := by
  change ∃ t ∈ dispatchedOnce.tasks.rows, _
  decide

theorem dispatchedOnce_attempt : ∃ a ∈ dispatchedOnce.taskRuns,
    a.id = ⟨extractorFailed.taskRunId⟩ ∧ a.status.isTerminal = false := by
  change ∃ a ∈ dispatchedOnce.taskRuns.rows, _
  decide

/-- The permanent failure of the extractor. -/
theorem requeued_retries_iff_extractor : ∃ (t : Task) (a : TaskRun),
    t.retryPolicy = "never" ∧ ∀ defaults,
    (Requeued dispatchedOnce ((listenToOne (.paired 3)
        (decodeText extractorFailedText extractorFailed)
        ⟨"contexide.workflow.extractor.done", extractorFailedText⟩).run
          (exec (.paired 3) .status) dispatchedOnce).2 t.id →
      ∃ delay, decideRetryForTask t (a.reported extractorFailed) defaults
        (dispatchedOnce.attemptCount t.id) = .retryAfter delay) ↔
    (t.status = .pending ∨ a.status.isTerminal = true) ∨
      (Config.paired 3).retryPolicy.maxAttempts ≤ dispatchedOnce.attemptCount t.id ∨
      extractorFailed.transient = true ∧
        a.attemptNo.toUInt32.toNat < t.attemptLimit defaults := by
  obtain ⟨t, ht, hnever, htid, _⟩ := dispatchedOnce_task
  obtain ⟨a, ha, haid, _⟩ := dispatchedOnce_attempt
  refine ⟨t, a, hnever, fun defaults => ?_⟩
  apply requeued_retries_iff (.paired 3) _ rfl ha haid ht htid defaults
  exact decodeText_self extractorFailedText extractorFailed

/-- A permanent failure of a task with the policy "never" re-queues the task. -/
theorem never_task_requeued : dispatchedOnce.Reachable (.paired 3) ∧
    ∃ t ∈ dispatchedOnce.tasks, ∃ a ∈ dispatchedOnce.taskRuns,
      t.retryPolicy = "never" ∧ t.id = ⟨extractorFailed.taskId⟩ ∧
      a.id = ⟨extractorFailed.taskRunId⟩ ∧ a.status.isTerminal = false ∧
      Requeued dispatchedOnce ((listenToOne (.paired 3)
        (decodeText extractorFailedText extractorFailed)
        ⟨"contexide.workflow.extractor.done", extractorFailedText⟩).run
          (exec (.paired 3) .status) dispatchedOnce).2 t.id ∧
      ∀ defaults delay, decideRetryForTask t (a.reported extractorFailed) defaults
        (dispatchedOnce.attemptCount t.id) ≠ .retryAfter delay := by
  obtain ⟨t, ht, hnever, htid, hrunning⟩ := dispatchedOnce_task
  obtain ⟨a, ha, haid, hactive⟩ := dispatchedOnce_attempt
  have hcount : (Config.paired 3).retryPolicy.shouldRetry (dispatchedOnce.attemptCount ⟨7⟩) =
      true := by
    decide
  refine ⟨dispatchedOnce_reachable, t, ht, a, ha, hnever, htid, haid, hactive, ?_, ?_⟩
  · apply (requeued_iff (.paired 3) _ rfl ha haid ht htid).mpr
    · refine ⟨by simp [hrunning], hactive, ?_⟩
      rw [htid]
      exact hcount
    · exact decodeText_self extractorFailedText extractorFailed
  · intro defaults delay h
    have hsome := (t.exists_decide_iff a extractorFailed defaults _).mp ⟨delay, h⟩
    exact absurd hsome.1 (by decide)

end Contexide.Workflow
