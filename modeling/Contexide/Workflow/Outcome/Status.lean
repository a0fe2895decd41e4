import Contexide.Workflow.Outcome.Calls
import Contexide.Workflow.Scheduler

/-! What the status handler does to any world when it runs alone: the attempt of
the message is settled, then its task, then the fanned-out tasks are saved, and
last the aggregate of the run is computed again. -/

namespace Contexide.Workflow

open Effects Storage Scheduler

/-- The aggregate status of a run from its stored tasks. -/
def Store.aggregate (s : Store) (d : DagRunId) : DagRunStatus :=
  dagStatusFromTasks ((s.listByDagRun d).map Task.status)

/-- The world with the status of a run, if it is stored, computed again. -/
def World.recomputed (w : World) (d : DagRunId) : World :=
  match w.dagRuns.get d with
  | some x => w.putDagRun { x with status := w.aggregate d }
  | none => w

namespace World
variable (w : World) (d : DagRunId)

@[simp] theorem recomputed_tasks : (w.recomputed d).tasks = w.tasks := by
  unfold recomputed
  split <;> rfl

@[simp] theorem recomputed_taskRuns : (w.recomputed d).taskRuns = w.taskRuns := by
  unfold recomputed
  split <;> rfl

@[simp] theorem recomputed_published : (w.recomputed d).published = w.published := by
  unfold recomputed
  split <;> rfl

@[simp] theorem recomputed_drawn : (w.recomputed d).drawn = w.drawn := by
  unfold recomputed
  split <;> rfl

@[simp] theorem recomputed_aggregate (d' : DagRunId) :
    (w.recomputed d).aggregate d' = w.aggregate d' := by
  simp [Store.aggregate, Store.listByDagRun]

theorem recomputed_dagRuns {w : World} {x : DagRun} (hx : x ∈ w.dagRuns) :
    (w.recomputed x.id).dagRuns = w.dagRuns.save { x with status := w.aggregate x.id } := by
  simp only [recomputed, Table.get_of_mem hx]
  rfl

theorem recomputed_of_aggregate {w : World} {d : DagRunId}
    (h : ∀ x ∈ w.dagRuns, x.id = d → w.aggregate d = x.status) : w.recomputed d = w := by
  unfold recomputed
  cases hx : w.dagRuns.get d with
  | none => rfl
  | some x =>
    obtain ⟨hmem, hid⟩ := Table.get_eq_some.mp hx
    simp only [h x hmem hid, putDagRun, Table.save_of_mem hmem]

end World

/-- The chunk sets that an output asks to embed. -/
def chunkSetsOf (C : Config) : Option Json → List Uuid
  | some out =>
    match (out.get "chunk_set_ids").bind Json.asArray with
    | some list => parseChunkSets C list
    | none => []
  | none => []

/-- The embedder tasks for chunk sets, with the identifiers component `i` draws
from its `k`-th on. -/
def embedTasks (C : Config) (i : Proc) (d : DagRunId) (tenant : TenantId) :
    ℕ → List Uuid → List Task
  | _, [] => []
  | k, chunkSet :: rest =>
    embedTask C ⟨C.ids.uuid i k⟩ d tenant chunkSet :: embedTasks C i d tenant (k + 1) rest

theorem failedTask_same (C : Config) (u : Task) (n : UInt32) (error : String)
    (errorKind : Option String) :
    SameTask u (failedTask C u n error errorKind) ∧
      (failedTask C u n error errorKind).status ≠ .running := by
  unfold failedTask
  split <;> exact ⟨⟨rfl, rfl, rfl, rfl, rfl⟩, by simp⟩

theorem failedTask_status (C : Config) (u : Task) (n : UInt32) (error : String)
    (errorKind : Option String) : (failedTask C u n error errorKind).status =
      if C.retryPolicy.shouldRetry n then .pending else .failed := by
  unfold failedTask
  split <;> rfl

theorem mem_embedTasks {C : Config} {i : Proc} {d : DagRunId} {tenant : TenantId} {k : ℕ}
    {sets : List Uuid} {t : Task} (h : t ∈ embedTasks C i d tenant k sets) :
    t.dagRunId = d ∧ t.tenantId = tenant ∧ t.kind = "embedder" ∧ t.status = .pending ∧
      ∃ n, k ≤ n ∧ n < k + sets.length ∧ t.id.uuid = C.ids.uuid i n := by
  induction sets generalizing k with
  | nil => exact absurd h List.not_mem_nil
  | cons chunkSet rest ih =>
    rw [List.length_cons]
    rcases List.mem_cons.mp h with rfl | h
    · exact ⟨rfl, rfl, rfl, rfl, k, le_rfl, by omega, rfl⟩
    · obtain ⟨hd, ht, hk, hs, n, hn, hlt, hid⟩ := ih h
      exact ⟨hd, ht, hk, hs, n, by omega, by omega, hid⟩

theorem nodup_embedTasks (C : Config) (i : Proc) (d : DagRunId) (tenant : TenantId) (k : ℕ)
    (sets : List Uuid) : ((embedTasks C i d tenant k sets).map Task.id).Nodup := by
  induction sets generalizing k with
  | nil => exact List.nodup_nil
  | cons chunkSet rest ih =>
    rw [embedTasks, List.map_cons, List.nodup_cons]
    refine ⟨fun h => ?_, ih _⟩
    obtain ⟨t, ht, he⟩ := List.mem_map.mp h
    obtain ⟨_, _, _, _, n, hn, _, hid⟩ := mem_embedTasks ht
    rw [he] at hid
    have := (C.ids.inj hid).2
    omega

namespace WorkerStatus

/-- The attempt after the message. -/
def settledRun (m : WorkerStatus) (a : TaskRun) : TaskRun :=
  match m with
  | .success .. => { a with status := .success, error := none }
  | .failed _ _ _ _ error _ => { a with status := .failed, error := some error }

/-- The task after the message, when it has `n` attempts. -/
def settledTask (C : Config) (m : WorkerStatus) (u : Task) (n : ℕ) : Task :=
  match m with
  | .success _ _ _ _ output => { u with status := .success, result := output }
  | .failed _ _ _ _ error errorKind => failedTask C u (UInt32.ofNat n) error errorKind

/-- The chunk sets the message asks to embed. -/
def chunkSets (C : Config) : WorkerStatus → List Uuid
  | .success _ _ _ _ output => chunkSetsOf C output
  | .failed .. => []

variable (C : Config) (m : WorkerStatus) (a : TaskRun) (u : Task) (n : ℕ)

@[simp] theorem settledRun_id : (m.settledRun a).id = a.id := by cases m <;> rfl

@[simp] theorem settledRun_taskId : (m.settledRun a).taskId = a.taskId := by cases m <;> rfl

theorem settledRun_terminal : (m.settledRun a).status.isTerminal = true := by cases m <;> rfl

theorem settledTask_same : SameTask u (m.settledTask C u n) := by
  cases m with
  | success => exact ⟨rfl, rfl, rfl, rfl, rfl⟩
  | failed => exact (failedTask_same C u _ _ _).1

theorem settledTask_status_ne : (m.settledTask C u n).status ≠ .running := by
  cases m with
  | success => simp [settledTask]
  | failed => exact (failedTask_same C u _ _ _).2

end WorkerStatus

namespace World

/-- What follows the attempt's save, once the task is read. -/
def settledTask (C : Config) (i : Proc) (m : WorkerStatus) (u : Task) (w : World) : World :=
  (((w.putTask (m.settledTask C u (w.listByTask m.taskId).length)).drawMany i
    (m.chunkSets C).length).putTasks
      (embedTasks C i m.dagRunId u.tenantId (w.drawn i) (m.chunkSets C))).recomputed m.dagRunId

/-- The world after the status handler. -/
def handled (C : Config) (i : Proc) (m : WorkerStatus) (w : World) : World :=
  match w.taskRuns.get m.taskRunId with
  | none => w
  | some a =>
    if a.status.isTerminal then w
    else match w.tasks.get m.taskId with
      | some u => (w.putTaskRun (m.settledRun a)).settledTask C i m u
      | none =>
        match m with
        | .success .. => w.putTaskRun (m.settledRun a)
        | .failed .. => (w.putTaskRun (m.settledRun a)).recomputed m.dagRunId

/-- No message changes anything when its attempt is not stored or is settled. -/
theorem handled_of_terminal {C : Config} {i : Proc} {m : WorkerStatus} {w : World}
    (h : ∀ r ∈ w.taskRuns, r.id = m.taskRunId → r.status.isTerminal = true) :
    w.handled C i m = w := by
  unfold handled
  cases hr : w.taskRuns.get m.taskRunId with
  | none => rfl
  | some a =>
    obtain ⟨ha, hid⟩ := Table.get_eq_some.mp hr
    exact if_pos (h a ha hid)

end World

namespace Scheduler

variable (C : Config) (i : Proc) (w : World)

theorem run_updateDagStatus (d : DagRunId) :
    (updateDagStatus d).run (exec C i) w = ((), w.recomputed d) := by
  simp only [updateDagStatus, Program.run_bind, DagRuns.run_get, World.recomputed]
  cases hx : w.dagRuns.get d with
  | none => rfl
  | some x =>
    change Program.run _ (if w.aggregate d ≠ x.status then _ else _) _ = _
    rw [Program.run_ite]
    split
    · rfl
    · next hs =>
      have hs : w.aggregate d = x.status := Classical.not_not.mp hs
      have hmem := (Table.get_eq_some.mp hx).1
      simp only [hs, World.putDagRun, Table.save_of_mem hmem, Program.run_pure]
      rfl

theorem run_buildEmbedTasks (d : DagRunId) (tenant : TenantId) (sets : List Uuid) :
    (buildEmbedTasks C d tenant sets).run (exec C i) w =
      (embedTasks C i d tenant (w.drawn i) sets, w.drawMany i sets.length) := by
  induction sets generalizing w with
  | nil => simp [buildEmbedTasks, embedTasks]
  | cons chunkSet rest ih =>
    simp only [buildEmbedTasks, Program.run_bind, run_newTaskId, ih, Program.run_pure, embedTasks,
      World.draw_drawn_self, World.draw_drawMany, List.length_cons]

theorem run_extractEmbedTasks (output : Json) (d : DagRunId) (tenant : TenantId) :
    (((extractEmbedTasks C output d tenant).run (exec C i) w).1.getD [],
      ((extractEmbedTasks C output d tenant).run (exec C i) w).2) =
      (embedTasks C i d tenant (w.drawn i) (chunkSetsOf C (some output)),
        w.drawMany i (chunkSetsOf C (some output)).length) := by
  unfold extractEmbedTasks
  cases h : (output.get "chunk_set_ids").bind Json.asArray with
  | none => simp [chunkSetsOf, h, embedTasks]
  | some list =>
    simp only [Program.run_bind, run_buildEmbedTasks, Program.run_pure, Option.getD_some,
      chunkSetsOf, h]

theorem run_completeTask (d : DagRunId) (t : TaskId) (output : Option Json) :
    (completeTask C d t output).run (exec C i) w =
      ((), match w.tasks.get t with
        | none => w
        | some u =>
          (((w.putTask { u with status := .success, result := output }).drawMany i
            (chunkSetsOf C output).length).putTasks
              (embedTasks C i d u.tenantId (w.drawn i) (chunkSetsOf C output))).recomputed d) := by
  simp only [completeTask, Program.run_bind, Tasks.run_get]
  cases w.tasks.get t with
  | none => rfl
  | some u =>
    simp only [Program.run_bind, Tasks.run_save]
    cases output with
    | none => simp [run_updateDagStatus, chunkSetsOf, embedTasks]
    | some out =>
      have he := run_extractEmbedTasks C i
        (w.putTask { u with status := .success, result := some out }) out d u.tenantId
      simp only [Prod.mk.injEq] at he
      rw [← World.putTask_drawn w { u with status := .success, result := some out }, ← he.1, ← he.2]
      simp only [Program.run_bind]
      cases ((extractEmbedTasks C out d u.tenantId).run (exec C i)
        (w.putTask { u with status := .success, result := some out })).1 with
      | none => simp [run_updateDagStatus]
      | some ts => simp [Planner.run_saveTasks, run_updateDagStatus]

theorem run_failTask (d : DagRunId) (t : TaskId) (error : String) (errorKind : Option String) :
    (failTask C d t error errorKind).run (exec C i) w =
      ((), match w.tasks.get t with
        | none => w.recomputed d
        | some u => (w.putTask (failedTask C u (UInt32.ofNat (w.listByTask t).length) error
            errorKind)).recomputed d) := by
  simp only [failTask, Program.run_bind, Tasks.run_get]
  cases w.tasks.get t with
  | none => exact run_updateDagStatus C i w d
  | some u => simp [run_updateDagStatus]

/-- The status handler on any world and any message. -/
theorem run_handleWorkerStatus (m : WorkerStatus) :
    (handleWorkerStatus C m).run (exec C i) w = ((), w.handled C i m) := by
  cases m with
  | success tenant d t r output =>
    simp only [handleWorkerStatus, Program.run_bind, TaskRuns.run_get, World.handled,
      WorkerStatus.taskRunId, WorkerStatus.taskId]
    cases w.taskRuns.get r with
    | none => rfl
    | some a =>
      simp only [Program.run_ite, Program.run_bind, TaskRuns.run_save, run_completeTask,
        World.putTaskRun_tasks, Program.run_pure]
      split
      · rfl
      · cases w.tasks.get t <;> rfl
  | failed tenant d t r error errorKind =>
    simp only [handleWorkerStatus, Program.run_bind, TaskRuns.run_get, World.handled,
      WorkerStatus.taskRunId, WorkerStatus.taskId]
    cases w.taskRuns.get r with
    | none => rfl
    | some a =>
      simp only [Program.run_ite, Program.run_bind, TaskRuns.run_save, run_failTask,
        World.putTaskRun_tasks, Program.run_pure]
      split
      · rfl
      · cases w.tasks.get t with
        | none => rfl
        | some u => simp [World.settledTask, WorkerStatus.chunkSets, embedTasks,
            WorkerStatus.settledTask, WorkerStatus.settledRun, WorkerStatus.taskId,
            WorkerStatus.dagRunId]

end Scheduler

end Contexide.Workflow
