import Contexide.Effects.Simulation
import Contexide.Sql.RowCodec
import Contexide.Workflow.PgTasks

/-! The workflow repositories over Postgres: the tables of runs, tasks and attempts, row by
row, and every call of the executor as the statement it makes. The tables are not in the
migrations, so nothing is assumed of their constraints: what they refuse is a parameter, and
besides, any statement may fail. -/

namespace Contexide.Workflow

open Effects Sql Storage

namespace DagRunStatus

def asStr : DagRunStatus → String
  | .created => "created"
  | .running => "running"
  | .success => "success"
  | .failed => "failed"
  | .cancelled => "cancelled"
  | .partialFailed => "partial_failed"

/-- An unknown text is read as created. -/
def ofStr (s : String) : DagRunStatus :=
  if s = "created" then .created
  else if s = "running" then .running
  else if s = "success" then .success
  else if s = "failed" then .failed
  else if s = "cancelled" then .cancelled
  else if s = "partial_failed" then .partialFailed
  else .created

@[simp] theorem ofStr_asStr (s : DagRunStatus) : ofStr s.asStr = s := by
  cases s <;> decide

end DagRunStatus

namespace TaskRunStatus

def asStr : TaskRunStatus → String
  | .created => "created"
  | .running => "running"
  | .success => "success"
  | .failed => "failed"
  | .aborted => "aborted"

/-- An unknown text is read as created. -/
def ofStr (s : String) : TaskRunStatus :=
  if s = "created" then .created
  else if s = "running" then .running
  else if s = "success" then .success
  else if s = "failed" then .failed
  else if s = "aborted" then .aborted
  else .created

@[simp] theorem ofStr_asStr (s : TaskRunStatus) : ofStr s.asStr = s := by
  cases s <;> decide

end TaskRunStatus

/-! ### Runs -/

namespace DagRun

/-- `map_dag_run_row`: only the version of the policy falls back. -/
def fromRow (row : ResultRow TaskJson) : Except SqlError DagRun := do
  let id ← row.tryGet "id" Value.asUuid
  let tenantId ← row.tryGet "tenant_id" Value.asUuid
  let workflowKey ← row.tryGet "workflow_key" Value.asText
  let statusRaw ← row.tryGet "status" Value.asText
  let params ← row.tryGet "params" TaskJson.asValue
  let error ← row.tryGet "error" (Value.nullable Value.asText)
  let executionPolicy ← row.tryGet "execution_policy" (Value.nullable TaskJson.asPolicy)
  let executionPolicyVersion :=
    (row.tryGet "execution_policy_version" Value.asInt16).toOption.getD 1
  .ok ⟨⟨id⟩, ⟨tenantId⟩, workflowKey, .ofStr statusRaw, params, error, executionPolicy,
    executionPolicyVersion⟩

/-- The row that keeps a run. -/
def row (d : DagRun) : Row TaskJson := fun c =>
  if c = "id" then .uuid d.id.uuid
  else if c = "tenant_id" then .uuid d.tenantId.uuid
  else if c = "workflow_key" then .text d.workflowKey
  else if c = "status" then .text d.status.asStr
  else if c = "params" then .json (.value d.params)
  else if c = "error" then .ofOption .text d.error
  else if c = "execution_policy" then .ofOption (fun p => .json (.policy p)) d.executionPolicy
  else if c = "execution_policy_version" then .int d.executionPolicyVersion.toInt
  else .null

end DagRun

theorem nullable_text (t : Option String) :
    Value.nullable Value.asText (.ofOption .text t : Value TaskJson) = some t := by
  cases t <;> rfl

namespace PgDagRunRepo

/-- The columns of every statement of the repository. -/
def columns : List String :=
  ["id", "tenant_id", "workflow_key", "status", "params", "error", "execution_policy",
    "execution_policy_version"]

/-- The columns that the upsert sets on a conflict. -/
def upsertColumns : List String :=
  ["tenant_id", "workflow_key", "status", "params", "error", "execution_policy",
    "execution_policy_version"]

theorem fromRow_columns (d : DagRun) : DagRun.fromRow (d.row.project columns) = .ok d := by
  have herror : (d.row.project columns).tryGet "error" (Value.nullable Value.asText) =
      .ok d.error := ResultRow.tryGet_project (by decide) (nullable_text d.error)
  have hpolicy : (d.row.project columns).tryGet "execution_policy"
      (Value.nullable TaskJson.asPolicy) = .ok d.executionPolicy :=
    ResultRow.tryGet_project (by decide) (nullable_policy d.executionPolicy)
  have hversion : (d.row.project columns).tryGet "execution_policy_version" Value.asInt16 =
      .ok d.executionPolicyVersion :=
    ResultRow.tryGet_project (by decide) (congrArg some d.executionPolicyVersion.ofInt_toInt)
  have hstatus : (d.row.project columns).tryGet "status" Value.asText = .ok d.status.asStr :=
    ResultRow.tryGet_project (by decide) rfl
  rw [DagRun.fromRow, herror, hpolicy, hversion, hstatus]
  show Except.ok (⟨_, _, _, DagRunStatus.ofStr d.status.asStr, _, _, _, _⟩ : DagRun) = _
  rw [DagRunStatus.ofStr_asStr]
  rfl

theorem overwrite_row {old d : DagRun} (hid : old.id.uuid = d.id.uuid) :
    old.row.overwrite d.row upsertColumns = d.row := by
  funext c
  unfold Row.overwrite
  split
  · rfl
  · next hc =>
    simp only [upsertColumns, List.mem_cons, List.not_mem_nil, or_false, not_or] at hc
    simp only [DagRun.row, hc, hid, if_false]

def codec : RowCodec TaskJson DagRun where
  columns := columns
  assigned := upsertColumns
  id d := d.id.uuid
  row := DagRun.row
  fromRow := DagRun.fromRow
  row_id _ := rfl
  fromRow_row := fromRow_columns
  overwrite_row := overwrite_row

variable (rows : List (Row TaskJson))

def get (id : DagRunId) : Except SqlError (Option DagRun) := codec.get rows id.uuid

def save (entity : DagRun) : Except SqlError (DagRun × List (Row TaskJson)) :=
  codec.save rows entity

end PgDagRunRepo

/-! ### Tasks -/

namespace PgTaskRepo

def codec : RowCodec TaskJson Task where
  columns := columns
  assigned := upsertColumns
  id t := t.id.uuid
  row := Task.row
  fromRow := Task.fromRow
  row_id _ := rfl
  fromRow_row := Task.fromRow_columns
  overwrite_row hid := overwrite_row (TaskId.ext hid)

variable (rows : List (Row TaskJson))

def get (id : TaskId) : Except SqlError (Option Task) := codec.get rows id.uuid

/-- The save with the stored task that it answers. -/
def saveReturning (entity : Task) : Except SqlError (Task × List (Row TaskJson)) :=
  codec.save rows entity

end PgTaskRepo

/-! ### Attempts -/

namespace TaskRun

/-- `map_task_run_row`: the columns of the structured error fall back. -/
def fromRow (row : ResultRow TaskJson) : Except SqlError TaskRun := do
  let id ← row.tryGet "id" Value.asUuid
  let taskId ← row.tryGet "task_id" Value.asUuid
  let tenantId ← row.tryGet "tenant_id" Value.asUuid
  let statusRaw ← row.tryGet "status" Value.asText
  let attemptNo ← row.tryGet "attempt_no" Value.asInt32
  let error ← row.tryGet "error" (Value.nullable Value.asText)
  let workerLabel ← row.tryGet "worker_label" (Value.nullable Value.asText)
  let errorCode := (row.tryGet "error_code" (Value.nullable Value.asText)).toOption.getD none
  let errorMessage := (row.tryGet "error_message" (Value.nullable Value.asText)).toOption.getD none
  let transientError :=
    (row.tryGet "transient_error" (Value.nullable Value.asBool)).toOption.getD none
  .ok ⟨⟨id⟩, ⟨taskId⟩, ⟨tenantId⟩, .ofStr statusRaw, attemptNo, error, workerLabel, errorCode,
    errorMessage, transientError⟩

/-- The row that keeps an attempt. -/
def row (r : TaskRun) : Row TaskJson := fun c =>
  if c = "id" then .uuid r.id.uuid
  else if c = "task_id" then .uuid r.taskId.uuid
  else if c = "tenant_id" then .uuid r.tenantId.uuid
  else if c = "status" then .text r.status.asStr
  else if c = "attempt_no" then .int r.attemptNo.toInt
  else if c = "error" then .ofOption .text r.error
  else if c = "worker_label" then .ofOption .text r.workerLabel
  else if c = "error_code" then .ofOption .text r.errorCode
  else if c = "error_message" then .ofOption .text r.errorMessage
  else if c = "transient_error" then .ofOption .bool r.transientError
  else .null

end TaskRun

theorem nullable_bool (b : Option Bool) :
    Value.nullable Value.asBool (.ofOption .bool b : Value TaskJson) = some b := by
  cases b <;> rfl

namespace PgTaskRunRepo

/-- The columns of every statement of the repository. -/
def columns : List String :=
  ["id", "task_id", "tenant_id", "status", "attempt_no", "error", "worker_label", "error_code",
    "error_message", "transient_error"]

/-- The columns that the upsert sets on a conflict. -/
def upsertColumns : List String :=
  ["task_id", "tenant_id", "status", "attempt_no", "error", "worker_label", "error_code",
    "error_message", "transient_error"]

theorem fromRow_columns (r : TaskRun) : TaskRun.fromRow (r.row.project columns) = .ok r := by
  have htext : ∀ {c : String} {t : Option String}, c ∈ columns → r.row c = .ofOption .text t →
      (r.row.project columns).tryGet c (Value.nullable Value.asText) = .ok t := fun hc ht =>
    ResultRow.tryGet_project hc (ht ▸ nullable_text _)
  have hnumber : (r.row.project columns).tryGet "attempt_no" Value.asInt32 = .ok r.attemptNo :=
    ResultRow.tryGet_project (by decide) (congrArg some r.attemptNo.ofInt_toInt)
  have htransient : (r.row.project columns).tryGet "transient_error"
      (Value.nullable Value.asBool) = .ok r.transientError :=
    ResultRow.tryGet_project (by decide) (nullable_bool r.transientError)
  have hstatus : (r.row.project columns).tryGet "status" Value.asText = .ok r.status.asStr :=
    ResultRow.tryGet_project (by decide) rfl
  rw [TaskRun.fromRow, htext (c := "error") (by decide) rfl,
    htext (c := "worker_label") (by decide) rfl, htext (c := "error_code") (by decide) rfl,
    htext (c := "error_message") (by decide) rfl, hnumber, htransient, hstatus]
  show Except.ok (⟨_, _, _, TaskRunStatus.ofStr r.status.asStr, _, _, _, _, _, _⟩ : TaskRun) = _
  rw [TaskRunStatus.ofStr_asStr]
  rfl

theorem overwrite_row {old r : TaskRun} (hid : old.id.uuid = r.id.uuid) :
    old.row.overwrite r.row upsertColumns = r.row := by
  funext c
  unfold Row.overwrite
  split
  · rfl
  · next hc =>
    simp only [upsertColumns, List.mem_cons, List.not_mem_nil, or_false, not_or] at hc
    simp only [TaskRun.row, hc, hid, if_false]

def codec : RowCodec TaskJson TaskRun where
  columns := columns
  assigned := upsertColumns
  id r := r.id.uuid
  row := TaskRun.row
  fromRow := TaskRun.fromRow
  row_id _ := rfl
  fromRow_row := fromRow_columns
  overwrite_row := overwrite_row

variable (rows : List (Row TaskJson))

def get (id : TaskRunId) : Except SqlError (Option TaskRun) := codec.get rows id.uuid

def save (entity : TaskRun) : Except SqlError (TaskRun × List (Row TaskJson)) :=
  codec.save rows entity

/-- All attempts of a task, by number and then by identifier. -/
def listByTask (taskId : TaskId) : Except SqlError (List TaskRun) :=
  codec.list rows "task_id" (.uuid taskId.uuid) ["attempt_no", "id"]

/-- The listing has the attempts of the task, in an order of its own. -/
theorem listByTask_rows (s : Store) (t : TaskId) :
    ∃ rs, listByTask (s.taskRuns.rows.map TaskRun.row) t = .ok rs ∧ rs.Perm (s.listByTask t) := by
  have hwhere : ∀ r : TaskRun, (r.row "task_id").sqlEq (.uuid t.uuid) = decide (r.taskId = t) := by
    intro r
    show (Value.uuid r.taskId.uuid).sqlEq (.uuid t.uuid) = _
    rw [Value.sqlEq_uuid, decide_eq_decide, TaskId.ext_iff]
  have hfilter : ((s.taskRuns.rows.map TaskRun.row).filter fun r =>
        (r "task_id").sqlEq (.uuid t.uuid)) =
      (s.taskRuns.rows.filter fun r => r.taskId = t).map TaskRun.row := by
    rw [List.filter_map]
    congr 1
    exact List.filter_congr fun r _ => hwhere r
  have hsorted := List.map_insertionSort
    (fun r r' : TaskRun => Row.precedes ["attempt_no", "id"] r.row r'.row)
    (fun r r' : Row TaskJson => Row.precedes ["attempt_no", "id"] r r') TaskRun.row
    (s.taskRuns.rows.filter fun r => r.taskId = t) fun _ _ _ _ => Iff.rfl
  refine ⟨_, ?_, (List.perm_insertionSort
    (fun r r' : TaskRun => Row.precedes ["attempt_no", "id"] r.row r'.row) _).trans
      (List.perm_insertionSort _ _).symm⟩
  rw [listByTask, RowCodec.list, hfilter, ← hsorted, List.map_map]
  exact RowCodec.fromRows_row _

end PgTaskRunRepo

/-! ### The calls of the executor -/

/-- The rows of the three tables, what is published, and how many identifiers each
component has drawn. -/
@[ext] structure PgWorld where
  dagRuns : List (Row TaskJson)
  tasks : List (Row TaskJson)
  taskRuns : List (Row TaskJson)
  published : List (String × WorkerRequest)
  drawn : Proc → ℕ

/-- The rows that keep a world. -/
def World.rows (w : World) : PgWorld where
  dagRuns := w.dagRuns.rows.map DagRun.row
  tasks := w.tasks.rows.map Task.row
  taskRuns := w.taskRuns.rows.map TaskRun.row
  published := w.published
  drawn := w.drawn

/-- What a call does when its statement is executed. A listing of pending tasks with a
limit that is refused is answered with the error. -/
def pgCall (C : Config) (i : Proc) : Attempt sig PgWorld SqlError := fun op v =>
  match op with
  | .dagRunGet id => do
    let r ← PgDagRunRepo.get v.dagRuns id
    .ok (r, v)
  | .dagRunSave e => do
    let (r, rows) ← PgDagRunRepo.save v.dagRuns e
    .ok (r, { v with dagRuns := rows })
  | .taskGet id => do
    let t ← PgTaskRepo.get v.tasks id
    .ok (t, v)
  | .taskSave e => do
    let (t, rows) ← PgTaskRepo.saveReturning v.tasks e
    .ok (t, { v with tasks := rows })
  | .taskListByDagRun id => do
    let ts ← PgTaskRepo.listByDagRun v.tasks id
    .ok (ts, v)
  | .taskListPending limit => .ok (PgTaskRepo.listPending v.tasks limit, v)
  | .taskRunGet id => do
    let r ← PgTaskRunRepo.get v.taskRuns id
    .ok (r, v)
  | .taskRunSave e => do
    let (r, rows) ← PgTaskRunRepo.save v.taskRuns e
    .ok (r, { v with taskRuns := rows })
  | .taskRunListByTask id => do
    let rs ← PgTaskRunRepo.listByTask v.taskRuns id
    .ok (rs, v)
  | .publish subject request =>
    .ok ((), { v with published := v.published ++ [(subject, request)] })
  | .newDagRunId =>
    .ok (⟨C.ids.uuid i (v.drawn i)⟩, { v with drawn := Function.update v.drawn i (v.drawn i + 1) })
  | .newTaskId =>
    .ok (⟨C.ids.uuid i (v.drawn i)⟩, { v with drawn := Function.update v.drawn i (v.drawn i + 1) })
  | .newTaskRunId =>
    .ok (⟨C.ids.uuid i (v.drawn i)⟩, { v with drawn := Function.update v.drawn i (v.drawn i + 1) })

/-- The calls that are answered with an error because of what they ask for and of the rows
there are: a constraint is violated, or a text has a character that cannot be stored. -/
abbrev Refusals := Op → PgWorld → Option SqlError

/-- A call, if it is not refused. -/
def pgAttempt (C : Config) (refuses : Refusals) (i : Proc) : Attempt sig PgWorld SqlError :=
  fun op v =>
    match (if op.fallible then refuses op v else none) with
    | some e => .error e
    | none => pgCall C i op v

def Refusals.Accepts (refuses : Refusals) (op : Op) (w : World) : Prop := refuses op w.rows = none

/-- Attempts are listed in another order than in memory, the other answers are the same. -/
def AnswersAlike : Answers sig := fun op =>
  match op with
  | .taskRunListByTask _ => List.Perm
  | _ => Eq

/-- Over rows a call does what it does to the world that they keep. -/
theorem pgCall_rows (C : Config) (hC : C.backend = .pg) (i : Proc) (op : Op) (w : World) :
    ∃ r, pgCall C i op w.rows = .ok (r, (exec C i op w).2.rows) ∧
      AnswersAlike op (exec C i op w).1 r := by
  cases op with
  | dagRunGet id =>
    have h : PgDagRunRepo.get w.rows.dagRuns id = .ok (w.dagRuns.get id) :=
      RowCodec.get_rows (C := PgDagRunRepo.codec) w.dagRuns fun _ => DagRunId.ext_iff.symm
    exact ⟨_, by rw [pgCall, h]; rfl, rfl⟩
  | dagRunSave e =>
    have h : PgDagRunRepo.save w.rows.dagRuns e = .ok (e, (w.dagRuns.save e).rows.map DagRun.row) :=
      RowCodec.save_rows (C := PgDagRunRepo.codec) (fun _ _ => DagRunId.ext_iff.symm) w.dagRuns e
    exact ⟨_, by rw [pgCall, h]; rfl, rfl⟩
  | taskGet id =>
    have h : PgTaskRepo.get w.rows.tasks id = .ok (w.tasks.get id) :=
      RowCodec.get_rows (C := PgTaskRepo.codec) w.tasks fun _ => TaskId.ext_iff.symm
    exact ⟨_, by rw [pgCall, h]; rfl, rfl⟩
  | taskSave e =>
    have h : PgTaskRepo.saveReturning w.rows.tasks e =
        .ok (e, (w.tasks.save e).rows.map Task.row) :=
      RowCodec.save_rows (C := PgTaskRepo.codec) (fun _ _ => TaskId.ext_iff.symm) w.tasks e
    exact ⟨_, by rw [pgCall, h]; rfl, rfl⟩
  | taskListByDagRun id =>
    have h : PgTaskRepo.listByDagRun w.rows.tasks id = .ok (w.listByDagRun id) :=
      PgTaskRepo.listByDagRun_rows w.toStore id
    exact ⟨_, by rw [pgCall, h]; rfl, rfl⟩
  | taskListPending limit =>
    have h : PgTaskRepo.listPending w.rows.tasks limit = w.listPending C.backend limit :=
      hC ▸ PgTaskRepo.listPending_rows w.toStore limit
    exact ⟨_, rfl, h.symm⟩
  | taskRunGet id =>
    have h : PgTaskRunRepo.get w.rows.taskRuns id = .ok (w.taskRuns.get id) :=
      RowCodec.get_rows (C := PgTaskRunRepo.codec) w.taskRuns fun _ => TaskRunId.ext_iff.symm
    exact ⟨_, by rw [pgCall, h]; rfl, rfl⟩
  | taskRunSave e =>
    have h : PgTaskRunRepo.save w.rows.taskRuns e =
        .ok (e, (w.taskRuns.save e).rows.map TaskRun.row) :=
      RowCodec.save_rows (C := PgTaskRunRepo.codec) (fun _ _ => TaskRunId.ext_iff.symm)
        w.taskRuns e
    exact ⟨_, by rw [pgCall, h]; rfl, rfl⟩
  | taskRunListByTask id =>
    obtain ⟨rs, h, hperm⟩ := PgTaskRunRepo.listByTask_rows w.toStore id
    have h' : PgTaskRunRepo.listByTask w.rows.taskRuns id = .ok rs := h
    exact ⟨rs, by rw [pgCall, h']; rfl, hperm.symm⟩
  | publish subject request => exact ⟨_, rfl, rfl⟩
  | newDagRunId => exact ⟨_, rfl, rfl⟩
  | newTaskId => exact ⟨_, rfl, rfl⟩
  | newTaskRunId => exact ⟨_, rfl, rfl⟩

/-- The statements simulate the calls on the worlds that the rows keep. -/
theorem pgAttempt_simulates (C : Config) (hC : C.backend = .pg) (refuses : Refusals) (i : Proc) :
    Simulates (exec C i) (pgAttempt C refuses i) Op.fallible AnswersAlike (fun w v => v = w.rows)
      refuses.Accepts where
  made := by
    rintro op w v rfl haccepted
    obtain ⟨r, hcall, halike⟩ := pgCall_rows C hC i op w
    have hnone : (if op.fallible then refuses op w.rows else none) = none := by
      rcases haccepted with hf | hop
      · rw [hf, if_neg Bool.false_ne_true]
      · rw [hop, ite_self]
    exact ⟨r, _, by rw [pgAttempt, hnone]; exact hcall, halike, rfl⟩
  refused := by
    rintro op w v rfl hf hop
    obtain ⟨e, he⟩ := Option.ne_none_iff_exists'.mp hop
    exact ⟨e, by rw [pgAttempt, if_pos hf, he]⟩

end Contexide.Workflow
