import Contexide.Workflow.Repositories

/-! The planner: one run and its five tasks, saved one after the other. -/

namespace Contexide.Workflow.Planner

/-- The single static profile of the MVP. -/
def profileSequence : List String := ["extractor", "normalizer", "chunker", "embedder", "indexer"]

def plannedTask (id : TaskId) (dagRunId : DagRunId) (tenantId : TenantId) (kind : String)
    (payload : Json) : Task :=
  { id, dagRunId, tenantId, kind
    status := .pending
    payload
    result := none
    maxAttempts := none
    retryPolicy := "never"
    retryParams := .object []
    priority := 0
    executionPolicyOverride := none }

/-- The planned tasks of a run: the first kind gets the input as payload. -/
def buildTasks (dagRunId : DagRunId) (tenantId : TenantId) (input : Json) :
    ℕ → List String → Prog (List Task)
  | _, [] => pure []
  | idx, kind :: kinds => do
    let payload := if idx = 0 then input else .null
    let id ← newTaskId
    let tasks ← buildTasks dagRunId tenantId input (idx + 1) kinds
    pure (plannedTask id dagRunId tenantId kind payload :: tasks)

def saveTasks : List Task → Prog Unit
  | [] => pure ()
  | task :: tasks => do
    let _ ← Tasks.save task
    saveTasks tasks

def plannedRun (id : DagRunId) (tenantId : TenantId) (profile : String) (input : Json) : DagRun :=
  { id, tenantId
    workflowKey := profile
    status := .created
    params := input
    error := none
    executionPolicy := none
    executionPolicyVersion := 1 }

def createDagRun (tenantId : TenantId) (profile : String) (input : Json) : Prog DagRunId := do
  let id ← newDagRunId
  let _ ← DagRuns.save (plannedRun id tenantId profile input)
  let tasks ← buildTasks id tenantId input 0 profileSequence
  saveTasks tasks
  pure id

end Contexide.Workflow.Planner
