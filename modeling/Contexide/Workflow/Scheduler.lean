import Contexide.Workflow.Planner
import Mathlib.Algebra.Group.Nat.Defs

/-! The scheduler: decides what to run next and handles worker results. Every
repository call ends in `?` in the source, so the program below is the sequence
of calls and a failed call ends it there. A limit that the listing of pending tasks
refuses is an error that the program meets whenever it runs. -/

namespace Contexide.Workflow.Scheduler

open Planner (saveTasks)

/-- `usize::MAX` on a 64-bit target. -/
def usizeMax : ℕ := 2 ^ 64 - 1

def orderingForKind (kind : String) : ℕ :=
  match kind with
  | "extractor" => 0
  | "normalizer" => 1
  | "chunker" => 2
  | "embedder" => 3
  | "indexer" => 4
  | _ => usizeMax

def isReady (task : Task) (siblings : List Task) : Bool :=
  if task.status = .pending ∨ task.status = .ready then
    let idx := orderingForKind task.kind
    if idx = 0 ∨ idx = usizeMax then true
    else siblings.all fun sib => !(orderingForKind sib.kind < idx && !sib.status.isDone)
  else false

def markDagRunning (dagRunId : DagRunId) : Prog Unit := do
  match ← DagRuns.get dagRunId with
  | some run =>
    if run.status = .created then
      let _ ← DagRuns.save { run with status := .running }
      pure ()
    else pure ()
  | none => pure ()

/-- The attempt that is opened for a task after `attempts`. -/
def openedRun (task : Task) (id : TaskRunId) (attempts : List TaskRun) : TaskRun :=
  { id
    taskId := task.id
    tenantId := task.tenantId
    status := .running
    attemptNo := Int32.ofNat attempts.length
    error := none
    workerLabel := none
    errorCode := none
    errorMessage := none
    transientError := none }

def readyTask (task : Task) (id : TaskRunId) : ReadyTask :=
  { tenantId := task.tenantId
    dagRunId := task.dagRunId
    taskId := task.id
    taskRunId := id
    kind := task.kind
    payload := task.payload }

/-- The part of the scheduling loop that runs for a ready task: a new attempt,
the task marked running, the run marked running. -/
def dispatch (task : Task) : Prog ReadyTask := do
  let attempts ← TaskRuns.listByTask task.id
  let id ← newTaskRunId
  let _ ← TaskRuns.save (openedRun task id attempts)
  let _ ← Tasks.save { task with status := .running }
  markDagRunning task.dagRunId
  pure (readyTask task id)

/-- The loop over the pending tasks; `tasksByRun` caches the tasks of each run
at the time its first pending task was met. -/
def scheduleLoop : List Task → (DagRunId → List Task) → List ReadyTask → Prog (List ReadyTask)
  | [], _, ready => pure ready
  | task :: pending, tasksByRun, ready => do
    let siblings ←
      if (tasksByRun task.dagRunId).isEmpty then Tasks.listByDagRun task.dagRunId
      else pure (tasksByRun task.dagRunId)
    let tasksByRun := Function.update tasksByRun task.dagRunId siblings
    if isReady task siblings then
      let r ← dispatch task
      scheduleLoop pending tasksByRun (ready ++ [r])
    else scheduleLoop pending tasksByRun ready

/-- The rest of a round of the loop, once the tasks of the run are at hand. -/
def afterListing (task : Task) (pending : List Task) (tasksByRun : DagRunId → List Task)
    (ready : List ReadyTask) (siblings : List Task) : Prog (List ReadyTask) :=
  if isReady task siblings then
    dispatch task >>= fun r =>
      scheduleLoop pending (Function.update tasksByRun task.dagRunId siblings) (ready ++ [r])
  else scheduleLoop pending (Function.update tasksByRun task.dagRunId siblings) ready

section Round

variable {task : Task} {pending : List Task} {tasksByRun : DagRunId → List Task}
  {ready : List ReadyTask}

theorem scheduleLoop_of_new (h : tasksByRun task.dagRunId = []) :
    scheduleLoop (task :: pending) tasksByRun ready =
      Tasks.listByDagRun task.dagRunId >>= afterListing task pending tasksByRun ready := by
  rw [scheduleLoop, if_pos (List.isEmpty_iff.mpr h)]
  rfl

theorem scheduleLoop_of_cached (h : tasksByRun task.dagRunId ≠ []) :
    scheduleLoop (task :: pending) tasksByRun ready =
      afterListing task pending tasksByRun ready (tasksByRun task.dagRunId) := by
  rw [scheduleLoop, if_neg (mt List.isEmpty_iff.mp h)]
  rfl

end Round

def scheduleReadyTasks (maxBatch : Option ℕ) : Prog (Except Sql.QueryError (List ReadyTask)) := do
  match ← Tasks.listPending maxBatch with
  | .ok pending =>
    let ready ← scheduleLoop pending (fun _ => []) []
    pure (.ok ready)
  | .error e => pure (.error e)

/-- The embedder task that fan-out creates for a chunk set. -/
def embedTask (C : Config) (id : TaskId) (dagRunId : DagRunId) (tenantId : TenantId)
    (chunkSet : Uuid) : Task :=
  { id, dagRunId, tenantId
    kind := "embedder"
    status := .pending
    payload := .object [("chunk_set_id", .string (C.uuidText chunkSet))]
    result := none
    maxAttempts := none
    retryPolicy := "never"
    retryParams := .object []
    priority := 0
    executionPolicyOverride := none }

/-- The elements of `chunk_set_ids`: strings that parse as UUIDs, the others are
skipped. -/
def parseChunkSets (C : Config) (list : List Json) : List Uuid :=
  list.filterMap fun cs => cs.asStr.bind C.parseUuid

def buildEmbedTasks (C : Config) (dagRunId : DagRunId) (tenantId : TenantId) :
    List Uuid → Prog (List Task)
  | [] => pure []
  | chunkSet :: rest => do
    let id ← newTaskId
    let tasks ← buildEmbedTasks C dagRunId tenantId rest
    pure (embedTask C id dagRunId tenantId chunkSet :: tasks)

def extractEmbedTasks (C : Config) (output : Json) (dagRunId : DagRunId) (tenantId : TenantId) :
    Prog (Option (List Task)) :=
  match (output.get "chunk_set_ids").bind Json.asArray with
  | some list => do
    let tasks ← buildEmbedTasks C dagRunId tenantId (parseChunkSets C list)
    pure (some tasks)
  | none => pure none

/-- The aggregate update at the end of both branches of the status handler. -/
def updateDagStatus (dagRunId : DagRunId) : Prog Unit := do
  match ← DagRuns.get dagRunId with
  | some dagRun =>
    let tasks ← Tasks.listByDagRun dagRunId
    let finalStatus := dagStatusFromTasks (tasks.map Task.status)
    if finalStatus ≠ dagRun.status then
      let _ ← DagRuns.save { dagRun with status := finalStatus }
      pure ()
    else pure ()
  | none => pure ()

/-- What follows the attempt's save on success. -/
def completeTask (C : Config) (dagRunId : DagRunId) (taskId : TaskId) (output : Option Json) :
    Prog Unit := do
  match ← Tasks.get taskId with
  | none => pure ()
  | some task =>
    let _ ← Tasks.save { task with status := .success, result := output }
    match output with
    | some out =>
      match ← extractEmbedTasks C out dagRunId task.tenantId with
      | some newTasks => saveTasks newTasks
      | none => pure ()
    | none => pure ()
    updateDagStatus dagRunId

/-- The task after its `attemptCount`-th attempt failed: re-queued or given up. -/
def failedTask (C : Config) (task : Task) (attemptCount : UInt32) (error : String)
    (errorKind : Option String) : Task :=
  if C.retryPolicy.shouldRetry attemptCount then { task with status := .pending }
  else
    { task with
      status := .failed
      result := some (.object [("error", .string error), ("error_kind", .ofOptionStr errorKind)]) }

/-- What follows the attempt's save on failure. -/
def failTask (C : Config) (dagRunId : DagRunId) (taskId : TaskId) (error : String)
    (errorKind : Option String) : Prog Unit := do
  match ← Tasks.get taskId with
  | some task =>
    let attempts ← TaskRuns.listByTask taskId
    let _ ← Tasks.save (failedTask C task (UInt32.ofNat attempts.length) error errorKind)
    pure ()
  | none => pure ()
  updateDagStatus dagRunId

def handleWorkerStatus (C : Config) (status : WorkerStatus) : Prog Unit :=
  match status with
  | .success _ dagRunId taskId taskRunId output => do
    match ← TaskRuns.get taskRunId with
    | some taskRun =>
      if taskRun.status.isTerminal then pure ()
      else
        let _ ← TaskRuns.save { taskRun with status := .success, error := none }
        completeTask C dagRunId taskId output
    | none => pure ()
  | .failed _ dagRunId taskId taskRunId error errorKind => do
    match ← TaskRuns.get taskRunId with
    | some taskRun =>
      if taskRun.status.isTerminal then pure ()
      else
        let _ ← TaskRuns.save { taskRun with status := .failed, error := some error }
        failTask C dagRunId taskId error errorKind
    | none => pure ()

end Contexide.Workflow.Scheduler
