import Contexide.Workflow.Scheduler

/-! Messaging glue: one pump asks the scheduler for ready tasks and then
publishes a request for each of them. -/

namespace Contexide.Workflow.Messaging

/-- `str::trim_end_matches` for a single character. -/
def trimEndMatches (s : String) (c : Char) : String :=
  String.ofList (s.toList.reverse.dropWhile (· == c)).reverse

/-- Subject helper: request channel for a worker kind. -/
def workerRequestSubject (pre kind : String) : String :=
  trimEndMatches pre '.' ++ "." ++ kind ++ ".request"

def requestOf (task : ReadyTask) : WorkerRequest :=
  { tenantId := task.tenantId
    dagRunId := task.dagRunId.uuid
    taskId := task.taskId.uuid
    taskRunId := task.taskRunId.uuid
    kind := task.kind
    payload := task.payload }

/-- Encoding a request never fails: every field is plain data with string keys. -/
def publishAll : List ReadyTask → Prog Unit
  | [] => pure ()
  | task :: ready => do
    publish (workerRequestSubject "contexide.workflow" task.kind) (requestOf task)
    publishAll ready

/-- Pull ready tasks from the scheduler and publish request messages for workers. -/
def pumpRequests (maxBatch : Option ℕ) : Prog (Except Sql.QueryError Unit) := do
  match ← Scheduler.scheduleReadyTasks maxBatch with
  | .ok ready =>
    publishAll ready
    pure (.ok ())
  | .error e => pure (.error e)

end Contexide.Workflow.Messaging
