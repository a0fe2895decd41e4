import Contexide.Core.Ids
import Contexide.Core.Json
import Contexide.Workflow.State

/-! The stored entities: DAG runs, their tasks, and the attempts of a task. -/

namespace Contexide.Workflow

namespace Policy

inductive RetryStrategyKind where
  | none | fixed | exponential
  deriving DecidableEq, Repr

structure RetryPolicy where
  maxAttempts : UInt16
  kind : RetryStrategyKind
  baseDelayMs : UInt32
  jitterMs : UInt32
  maxDelayMs : Option UInt32
  deriving DecidableEq, Repr

structure QuotaBucketRef where
  scope : String
  key : String
  deriving DecidableEq, Repr

structure QuotaConfig where
  maxConcurrent : UInt32
  ratePerMinute : UInt32
  deriving DecidableEq, Repr

/-- Effective retry and quota settings of a run or a task. -/
structure ExecutionPolicy where
  retry : RetryPolicy
  quotaBucket : Option QuotaBucketRef
  quotaConfig : Option QuotaConfig
  deriving DecidableEq, Repr

end Policy

/-- A single workflow execution. -/
structure DagRun where
  id : DagRunId
  tenantId : TenantId
  workflowKey : String
  status : DagRunStatus
  params : Json
  error : Option String
  executionPolicy : Option Policy.ExecutionPolicy
  executionPolicyVersion : Int16

/-- A logical task within a DAG run. -/
structure Task where
  id : TaskId
  dagRunId : DagRunId
  tenantId : TenantId
  kind : String
  status : TaskStatus
  payload : Json
  result : Option Json
  maxAttempts : Option Int32
  retryPolicy : String
  retryParams : Json
  priority : Int16
  executionPolicyOverride : Option Policy.ExecutionPolicy

/-- Two versions of a task that agree in what identifies and describes it; a
dispatch, a retry, a result, or the columns of a listing may differ. -/
structure SameTask (t t' : Task) : Prop where
  id : t.id = t'.id
  run : t.dagRunId = t'.dagRunId
  tenant : t.tenantId = t'.tenantId
  kind : t.kind = t'.kind
  payload : t.payload = t'.payload

theorem SameTask.refl (t : Task) : SameTask t t := ⟨rfl, rfl, rfl, rfl, rfl⟩

theorem SameTask.trans {t t' t'' : Task} (h : SameTask t t') (h' : SameTask t' t'') :
    SameTask t t'' :=
  ⟨h.id.trans h'.id, h.run.trans h'.run, h.tenant.trans h'.tenant, h.kind.trans h'.kind,
    h.payload.trans h'.payload⟩

/-- A version with another status. -/
theorem SameTask.of_status {t t' : Task} (h : SameTask t t') (s : TaskStatus) :
    SameTask t { t' with status := s } :=
  ⟨h.id, h.run, h.tenant, h.kind, h.payload⟩

/-- A concrete attempt to execute a task. -/
structure TaskRun where
  id : TaskRunId
  taskId : TaskId
  tenantId : TenantId
  status : TaskRunStatus
  attemptNo : Int32
  error : Option String
  workerLabel : Option String
  errorCode : Option String
  errorMessage : Option String
  transientError : Option Bool

end Contexide.Workflow
