import Contexide.Workflow.Outcome.Status

/-! What the status handler leaves behind when one of its calls fails. Nothing is
written before the save of the attempt; after it come the save of the task, one
save for each fanned-out task, and the recomputation of the run, whose only write
is its last call. -/

namespace Contexide.Workflow

open Effects Storage Scheduler

/-- The index of the call that saves the task. -/
def WorkerStatus.taskCall : WorkerStatus → ℕ
  | .success .. => 3
  | .failed .. => 4

/-- The world after the attempt is saved, when the call with index `n` fails. -/
def World.stopped (C : Config) (i : Proc) (m : WorkerStatus) (n : ℕ) (w : World) : World :=
  match w.tasks.get m.taskId with
  | none => w
  | some u =>
    if n ≤ m.taskCall then w
    else ((w.putTask (m.settledTask C u (w.listByTask m.taskId).length)).drawMany i
      (m.chunkSets C).length).putTasks
        ((embedTasks C i m.dagRunId u.tenantId (w.drawn i) (m.chunkSets C)).take
          (n - (m.taskCall + 1)))

theorem length_embedTasks (C : Config) (i : Proc) (d : DagRunId) (tenant : TenantId) (k : ℕ)
    (sets : List Uuid) : (embedTasks C i d tenant k sets).length = sets.length := by
  induction sets generalizing k with
  | nil => rfl
  | cons chunkSet rest ih => rw [embedTasks, List.length_cons, ih, List.length_cons]

namespace World
variable {C : Config} {i : Proc} {m : WorkerStatus} {n : ℕ} {w : World} {u : Task}

theorem stopped_none (hu : w.tasks.get m.taskId = none) : w.stopped C i m n = w := by
  rw [stopped, hu]

theorem stopped_le (hn : n ≤ m.taskCall) : w.stopped C i m n = w := by
  rw [stopped]
  split
  · rfl
  · rw [if_pos hn]

theorem stopped_add (hu : w.tasks.get m.taskId = some u) : w.stopped C i m (n + (m.taskCall + 1)) =
    ((w.putTask (m.settledTask C u (w.listByTask m.taskId).length)).drawMany i
      (m.chunkSets C).length).putTasks
        ((embedTasks C i m.dagRunId u.tenantId (w.drawn i) (m.chunkSets C)).take n) := by
  rw [stopped, hu]
  dsimp only
  rw [if_neg (by omega), Nat.add_sub_cancel]

theorem stopped_of_lt (hu : w.tasks.get m.taskId = some u)
    (hn : m.taskCall + (m.chunkSets C).length < n) : w.stopped C i m n =
      ((w.putTask (m.settledTask C u (w.listByTask m.taskId).length)).drawMany i
        (m.chunkSets C).length).putTasks
          (embedTasks C i m.dagRunId u.tenantId (w.drawn i) (m.chunkSets C)) := by
  obtain ⟨k, rfl⟩ : ∃ k, n = k + (m.taskCall + 1) := ⟨n - (m.taskCall + 1), by omega⟩
  rw [stopped_add hu, List.take_of_length_le]
  rw [length_embedTasks]
  omega

@[simp] theorem stopped_dagRuns : (w.stopped C i m n).dagRuns = w.dagRuns := by
  unfold stopped
  split
  · rfl
  · split <;> simp

@[simp] theorem stopped_taskRuns : (w.stopped C i m n).taskRuns = w.taskRuns := by
  unfold stopped
  split
  · rfl
  · split <;> simp

/-- The tasks after a failure behind the save of the named task. -/
theorem rows_stopped (hu : w.tasks.get m.taskId = some u)
    (hfresh : ∀ k, w.drawn i ≤ k → ¬ w.tasks.Has ⟨C.ids.uuid i k⟩) (n : ℕ) :
    (w.stopped C i m (n + (m.taskCall + 1))).tasks.rows =
      (w.tasks.save (m.settledTask C u (w.listByTask m.taskId).length)).rows ++
        (embedTasks C i m.dagRunId u.tenantId (w.drawn i) (m.chunkSets C)).take n := by
  obtain ⟨hmem, hid⟩ := Table.get_eq_some.mp hu
  rw [stopped_add hu]
  refine rows_putTasks ?_ fun t ht => ?_
  · rw [List.map_take]
    exact (nodup_embedTasks ..).sublist (List.take_sublist _ _)
  · obtain ⟨_, _, _, _, k, hk, _, htid⟩ := mem_embedTasks (List.mem_of_mem_take ht)
    have hold : ¬ w.tasks.Has t.id := TaskId.ext htid ▸ hfresh k hk
    change ¬ (w.tasks.save _).Has t.id
    rw [Table.has_save]
    rintro (he | hh)
    · exact hold ⟨u, hmem, (m.settledTask_same C u _).id.trans he.symm⟩
    · exact hold hh

end World

variable (C : Config) (i : Proc) (w : World)

theorem Planner.calls_saveTasks (ts : List Task) :
    (saveTasks ts).calls (exec C i) Op.fallible w = ts.length := by
  induction ts generalizing w with
  | nil => rfl
  | cons t ts ih =>
    rw [saveTasks, Program.calls_bind, ih, List.length_cons, Nat.add_comm]
    rfl

theorem Planner.stopAt_saveTasks (ts : List Task) (n : ℕ) (hn : n < ts.length) :
    (Program.stopAt (exec C i) Op.fallible n (saveTasks ts) w).2 = w.putTasks (ts.take n) := by
  induction ts generalizing n w with
  | nil => exact absurd hn (Nat.not_lt_zero _)
  | cons t ts ih =>
    cases n with
    | zero => rfl
    | succ n =>
      rw [saveTasks, Program.stopAt_bind_succ _ _ _ _ _ _ rfl]
      exact ih _ _ (Nat.lt_of_succ_lt_succ hn)

theorem Planner.stopAt_saveTasks_bind {β : Type} (ts : List Task) (f : Unit → Prog β) (n : ℕ) :
    Program.stopAt (exec C i) Op.fallible n (saveTasks ts >>= f) w =
      if n < ts.length then (none, w.putTasks (ts.take n))
      else Program.stopAt (exec C i) Op.fallible (n - ts.length) (f ()) (w.putTasks ts) := by
  have hcalls := calls_saveTasks C i w ts
  split
  · next hn => rw [Program.stopAt_bind_of_lt _ _ _ _ _ _ (by omega), stopAt_saveTasks C i w ts n hn]
  · next hn => rw [Program.stopAt_bind_of_le _ _ _ _ _ _ (by omega), run_saveTasks, hcalls]

namespace Scheduler

/-- A stop in the recomputation of a run leaves everything as it was. -/
theorem stopAt_updateDagStatus (d : DagRunId) (n : ℕ)
    (hn : (Program.stopAt (exec C i) Op.fallible n (updateDagStatus d) w).1 = none) :
    (Program.stopAt (exec C i) Op.fallible n (updateDagStatus d) w).2 = w := by
  have hunwritten : Program.Unwritten (exec C i) Op.fallible (updateDagStatus d) w := by
    rw [updateDagStatus]
    refine Program.Unwritten.bind_read rfl rfl rfl ?_
    rw [DagRuns.run_get]
    cases w.dagRuns.get d with
    | none => exact Program.unwritten_of_calls_le (Nat.zero_le _) rfl
    | some x =>
      refine Program.Unwritten.bind_read rfl rfl rfl ?_
      dsimp only
      split
      · exact Program.unwritten_of_calls_le (Nat.le_refl _) rfl
      · exact Program.unwritten_of_calls_le (Nat.zero_le _) rfl
  exact hunwritten n hn

theorem calls_buildEmbedTasks (d : DagRunId) (tenant : TenantId) (sets : List Uuid) :
    (buildEmbedTasks C d tenant sets).calls (exec C i) Op.fallible w = 0 := by
  induction sets generalizing w with
  | nil => rfl
  | cons chunkSet rest ih =>
    rw [buildEmbedTasks, Program.calls_bind, Program.calls_bind, ih]
    rfl

theorem calls_extractEmbedTasks (output : Json) (d : DagRunId) (tenant : TenantId) :
    (extractEmbedTasks C output d tenant).calls (exec C i) Op.fallible w = 0 := by
  unfold extractEmbedTasks
  split
  · simp [calls_buildEmbedTasks]
  · rfl

/-- A stop after the save of a task that succeeded. -/
theorem stopAt_completeTask {t : TaskId} {u : Task} (hu : w.tasks.get t = some u) (d : DagRunId)
    (output : Option Json) (n : ℕ) :
    Program.stopAt (exec C i) Op.fallible (n + 2) (completeTask C d t output) w =
      let w' := (w.putTask { u with status := .success, result := output }).drawMany i
        (chunkSetsOf C output).length
      let new := embedTasks C i d u.tenantId (w.drawn i) (chunkSetsOf C output)
      if n < new.length then (none, w'.putTasks (new.take n))
      else Program.stopAt (exec C i) Op.fallible (n - new.length) (updateDagStatus d)
        (w'.putTasks new) := by
  rw [completeTask, Program.stopAt_bind_succ _ _ _ _ _ _ rfl, Tasks.run_get, hu]
  dsimp only
  rw [Program.stopAt_bind_succ _ _ _ _ _ _ rfl, Tasks.run_save]
  cases output with
  | none => simp [chunkSetsOf, embedTasks]
  | some out =>
    have he := run_extractEmbedTasks C i
      (w.putTask { u with status := .success, result := some out }) out d u.tenantId
    simp only [Prod.mk.injEq, World.putTask_drawn] at he
    dsimp only
    rw [Program.stopAt_bind_zero _ _ _ _ _ _ (calls_extractEmbedTasks C i _ out d u.tenantId),
      ← he.1, ← he.2]
    cases ((extractEmbedTasks C out d u.tenantId).run (exec C i)
      (w.putTask { u with status := .success, result := some out })).1 with
    | none => simp
    | some ts => exact Planner.stopAt_saveTasks_bind C i _ ts _ n

/-- A stop after the save of a task that failed. -/
theorem stopAt_failTask {t : TaskId} {u : Task} (hu : w.tasks.get t = some u) (d : DagRunId)
    (error : String) (errorKind : Option String) (n : ℕ) :
    Program.stopAt (exec C i) Op.fallible (n + 3) (failTask C d t error errorKind) w =
      Program.stopAt (exec C i) Op.fallible n (updateDagStatus d)
        (w.putTask (failedTask C u (UInt32.ofNat (w.listByTask t).length) error errorKind)) := by
  rw [failTask, Program.stopAt_bind_succ _ _ _ _ _ _ rfl, Tasks.run_get, hu]
  dsimp only
  rw [Program.stopAt_bind_succ _ _ _ _ _ _ rfl, TaskRuns.run_listByTask,
    Program.stopAt_bind_succ _ _ _ _ _ _ rfl, Tasks.run_save]

/-- What follows the save of the attempt. -/
def afterAttempt (C : Config) : WorkerStatus → Prog Unit
  | .success _ d t _ output => completeTask C d t output
  | .failed _ d t _ error errorKind => failTask C d t error errorKind

variable {m : WorkerStatus} {a : TaskRun}

/-- A stop in the first two calls leaves everything as it was. -/
theorem stopAt_handleWorkerStatus_le (ha : w.taskRuns.get m.taskRunId = some a)
    (hrun : a.status.isTerminal = false) {n : ℕ} (hn : n ≤ 1) :
    (Program.stopAt (exec C i) Op.fallible n (handleWorkerStatus C m) w).2 = w := by
  obtain rfl | rfl : n = 0 ∨ n = 1 := by omega
  · cases m <;> rfl
  · cases m <;> simp only [WorkerStatus.taskRunId] at ha <;>
      rw [handleWorkerStatus, Program.stopAt_bind_succ _ _ _ _ _ _ rfl, TaskRuns.run_get, ha] <;>
      dsimp only <;> rw [if_neg (by simp [hrun])] <;> rfl

/-- A stop after the attempt is saved. -/
theorem stopAt_handleWorkerStatus (ha : w.taskRuns.get m.taskRunId = some a)
    (hrun : a.status.isTerminal = false) (n : ℕ) :
    Program.stopAt (exec C i) Op.fallible (n + 2) (handleWorkerStatus C m) w =
      Program.stopAt (exec C i) Op.fallible n (afterAttempt C m)
        (w.putTaskRun (m.settledRun a)) := by
  cases m <;> simp only [WorkerStatus.taskRunId] at ha <;>
    rw [handleWorkerStatus, Program.stopAt_bind_succ _ _ _ _ _ _ rfl, TaskRuns.run_get, ha] <;>
    dsimp only <;>
    rw [if_neg (by simp [hrun]), Program.stopAt_bind_succ _ _ _ _ _ _ rfl] <;> rfl

section

variable {tenant : TenantId} {d : DagRunId} {t : TaskId} {r : TaskRunId}

/-- A stop in the completion of a task. -/
theorem stopped_completeTask {output : Option Json} (n : ℕ)
    (hstop : (Program.stopAt (exec C i) Op.fallible n (completeTask C d t output) w).1 = none) :
    (Program.stopAt (exec C i) Op.fallible n (completeTask C d t output) w).2 =
      w.stopped C i (.success tenant d t r output) (n + 2) := by
  revert hstop
  rcases n with _ | n
  · rw [World.stopped_le (by simp [WorkerStatus.taskCall])]
    exact fun _ => rfl
  cases hu : w.tasks.get t with
  | none =>
    rw [World.stopped_none hu, completeTask, Program.stopAt_bind_succ _ _ _ _ _ _ rfl,
      Tasks.run_get, hu]
    simp
  | some u =>
    rcases n with _ | n
    · rw [World.stopped_le (by simp [WorkerStatus.taskCall]), completeTask,
        Program.stopAt_bind_succ _ _ _ _ _ _ rfl, Tasks.run_get, hu]
      exact fun _ => rfl
    · rw [stopAt_completeTask C i w hu]
      refine fun hstop => Eq.trans ?_ (World.stopped_add (n := n) hu).symm
      dsimp only at hstop ⊢
      split at hstop
      · next hn =>
        rw [if_pos hn]
        rfl
      · next hn =>
        rw [if_neg hn, stopAt_updateDagStatus C i _ d _ hstop]
        exact congrArg _ (List.take_of_length_le (Nat.le_of_not_lt hn)).symm

/-- A stop in the failure of a task. -/
theorem stopped_failTask {error : String} {errorKind : Option String} (n : ℕ)
    (hstop : (Program.stopAt (exec C i) Op.fallible n
      (failTask C d t error errorKind) w).1 = none) :
    (Program.stopAt (exec C i) Op.fallible n (failTask C d t error errorKind) w).2 =
      w.stopped C i (.failed tenant d t r error errorKind) (n + 2) := by
  revert hstop
  rcases n with _ | n
  · rw [World.stopped_le (by simp [WorkerStatus.taskCall])]
    exact fun _ => rfl
  cases hu : w.tasks.get t with
  | none =>
    rw [World.stopped_none hu, failTask, Program.stopAt_bind_succ _ _ _ _ _ _ rfl,
      Tasks.run_get, hu]
    exact stopAt_updateDagStatus C i w d n
  | some u =>
    rcases n with _ | _ | n
    · rw [World.stopped_le (by simp [WorkerStatus.taskCall]), failTask,
        Program.stopAt_bind_succ _ _ _ _ _ _ rfl, Tasks.run_get, hu]
      exact fun _ => rfl
    · rw [World.stopped_le (by simp [WorkerStatus.taskCall]), failTask,
        Program.stopAt_bind_succ _ _ _ _ _ _ rfl, Tasks.run_get, hu]
      exact fun _ => rfl
    · rw [stopAt_failTask C i w hu]
      refine fun hstop => Eq.trans ?_ (World.stopped_add (n := n) hu).symm
      rw [stopAt_updateDagStatus C i _ d _ hstop]
      simp [WorkerStatus.chunkSets, embedTasks, WorkerStatus.settledTask, WorkerStatus.taskId]

end

theorem stopAt_afterAttempt (n : ℕ)
    (hstop : (Program.stopAt (exec C i) Op.fallible n (afterAttempt C m) w).1 = none) :
    (Program.stopAt (exec C i) Op.fallible n (afterAttempt C m) w).2 =
      w.stopped C i m (n + 2) := by
  cases m with
  | success tenant d t r output => exact stopped_completeTask C i w n hstop
  | failed tenant d t r error errorKind => exact stopped_failTask C i w n hstop

end Scheduler

end Contexide.Workflow
