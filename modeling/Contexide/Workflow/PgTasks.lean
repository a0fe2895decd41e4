import Contexide.Sql.Statements
import Contexide.Workflow.Repositories

/-! The table of tasks in Postgres, row by row. The statements agree in their columns
except for the listing of pending tasks, which selects seven of the twelve, and the
decoder reads a column that was not selected as its fallback. -/

namespace Contexide.Workflow

open Sql Storage

namespace TaskStatus

def asStr : TaskStatus → String
  | .pending => "pending"
  | .ready => "ready"
  | .running => "running"
  | .success => "success"
  | .failed => "failed"
  | .skipped => "skipped"

/-- An unknown text is read as pending. -/
def ofStr (s : String) : TaskStatus :=
  if s = "pending" then .pending
  else if s = "ready" then .ready
  else if s = "running" then .running
  else if s = "success" then .success
  else if s = "failed" then .failed
  else if s = "skipped" then .skipped
  else .pending

@[simp] theorem ofStr_asStr (s : TaskStatus) : ofStr s.asStr = s := by
  cases s <;> decide

end TaskStatus

/-- The documents in the `jsonb` columns of a task: JSON, or a serialised policy. -/
inductive TaskJson where
  | value (j : Json)
  | policy (p : Policy.ExecutionPolicy)

namespace TaskJson

def asValue (v : Value TaskJson) : Option Json :=
  match v.asJson with
  | some (.value j) => some j
  | _ => none

def asPolicy (v : Value TaskJson) : Option Policy.ExecutionPolicy :=
  match v.asJson with
  | some (.policy p) => some p
  | _ => none

end TaskJson

namespace Task

/-- Decode an answer row. The columns of the retry and quota settings fall back when they
cannot be read. -/
def fromRow (row : ResultRow TaskJson) : Except SqlError Task := do
  let id ← row.tryGet "id" Value.asUuid
  let dagRunId ← row.tryGet "dag_run_id" Value.asUuid
  let tenantId ← row.tryGet "tenant_id" Value.asUuid
  let kind ← row.tryGet "kind" Value.asText
  let statusRaw ← row.tryGet "status" Value.asText
  let payload ← row.tryGet "payload" TaskJson.asValue
  let result ← row.tryGet "result" (Value.nullable TaskJson.asValue)
  let maxAttempts := (row.tryGet "max_attempts" (Value.nullable Value.asInt32)).toOption.getD none
  let retryPolicy := (row.tryGet "retry_policy" Value.asText).toOption.getD "never"
  let retryParams := (row.tryGet "retry_params" TaskJson.asValue).toOption.getD (.object [])
  let priority := (row.tryGet "priority" Value.asInt16).toOption.getD 0
  let executionPolicyOverride :=
    (row.tryGet "execution_policy_override" (Value.nullable TaskJson.asPolicy)).toOption.getD none
  .ok ⟨⟨id⟩, ⟨dagRunId⟩, ⟨tenantId⟩, kind, .ofStr statusRaw, payload, result, maxAttempts,
    retryPolicy, retryParams, priority, executionPolicyOverride⟩

/-- Decode all answer rows, or fail with the first that cannot be decoded. -/
def fromRows : List (ResultRow TaskJson) → Except SqlError (List Task)
  | [] => .ok []
  | row :: rows => do
    let t ← fromRow row
    let ts ← fromRows rows
    .ok (t :: ts)

/-- The row that keeps a task. -/
def row (t : Task) : Row TaskJson := fun c =>
  if c = "id" then .uuid t.id.uuid
  else if c = "dag_run_id" then .uuid t.dagRunId.uuid
  else if c = "tenant_id" then .uuid t.tenantId.uuid
  else if c = "kind" then .text t.kind
  else if c = "status" then .text t.status.asStr
  else if c = "payload" then .json (.value t.payload)
  else if c = "result" then .ofOption (fun j => .json (.value j)) t.result
  else if c = "max_attempts" then .ofOption (fun n => .int n.toInt) t.maxAttempts
  else if c = "retry_policy" then .text t.retryPolicy
  else if c = "retry_params" then .json (.value t.retryParams)
  else if c = "priority" then .int t.priority.toInt
  else if c = "execution_policy_override" then
    .ofOption (fun p => .json (.policy p)) t.executionPolicyOverride
  else .null

end Task

namespace PgTaskRepo

/-- The columns of `get`, of `list_by_dag_run`, and of the upsert of `save`. -/
def columns : List String :=
  ["id", "dag_run_id", "tenant_id", "kind", "status", "payload", "result", "max_attempts",
    "retry_policy", "retry_params", "priority", "execution_policy_override"]

/-- The columns of `list_pending`. -/
def pendingColumns : List String :=
  ["id", "dag_run_id", "tenant_id", "kind", "status", "payload", "result"]

/-- The columns that the upsert sets on a conflict. -/
def upsertColumns : List String :=
  ["dag_run_id", "tenant_id", "kind", "status", "payload", "result", "max_attempts",
    "retry_policy", "retry_params", "priority", "execution_policy_override"]

variable (rows : List (Row TaskJson))

/-- `select .. from tasks where dag_run_id = $1`, in the order of creation. -/
def listByDagRun (dagRunId : DagRunId) : Except SqlError (List Task) :=
  Task.fromRows ((rows.filter fun r => (r "dag_run_id").sqlEq (.uuid dagRunId.uuid)).map fun r =>
    r.project columns)

/-- The answer rows of `list_pending`. -/
def pendingRows : List (ResultRow TaskJson) :=
  (rows.filter fun r => (r "status").sqlEq (.text "pending")).map fun r => r.project pendingColumns

/-- `select .. from tasks where status = 'pending' .. limit $1`, in the order of creation.
The limit is bound as an `i64`. -/
def listPending (limit : Option ℕ) : Except QueryError (List Task) := do
  let listed ← match limit with
    | some lim => limitRows (pendingRows rows) (.int (asI64 lim))
    | none => .ok (pendingRows rows)
  (Task.fromRows listed).mapError .sql

/-- The rows after `insert .. on conflict (id) do update set ..`. -/
def save (entity : Task) : List (Row TaskJson) :=
  if rows.any fun r => (r "id").sqlEq (.uuid entity.id.uuid) then
    rows.map fun r =>
      if (r "id").sqlEq (.uuid entity.id.uuid) then r.overwrite entity.row upsertColumns else r
  else rows ++ [entity.row]

end PgTaskRepo

/-! ### What is read back -/

theorem nullable_value (j : Option Json) :
    Value.nullable TaskJson.asValue (.ofOption (fun j => .json (.value j)) j) = some j := by
  cases j <;> rfl

theorem nullable_int32 (n : Option Int32) :
    Value.nullable Value.asInt32 (.ofOption (fun n => .int n.toInt) n : Value TaskJson) =
      some n := by
  cases n with
  | none => rfl
  | some n => exact congrArg (fun n => some (some n)) n.ofInt_toInt

theorem nullable_policy (p : Option Policy.ExecutionPolicy) :
    Value.nullable TaskJson.asPolicy (.ofOption (fun p => .json (.policy p)) p) = some p := by
  cases p <;> rfl

namespace Task

variable (t : Task)

/-- All columns are read back. -/
theorem fromRow_columns : fromRow (t.row.project PgTaskRepo.columns) = .ok t := by
  have hresult : (t.row.project PgTaskRepo.columns).tryGet "result"
      (Value.nullable TaskJson.asValue) = .ok t.result :=
    ResultRow.tryGet_project (by decide) (nullable_value t.result)
  have hattempts : (t.row.project PgTaskRepo.columns).tryGet "max_attempts"
      (Value.nullable Value.asInt32) = .ok t.maxAttempts :=
    ResultRow.tryGet_project (by decide) (nullable_int32 t.maxAttempts)
  have hpriority : (t.row.project PgTaskRepo.columns).tryGet "priority" Value.asInt16 =
      .ok t.priority :=
    ResultRow.tryGet_project (by decide) (congrArg some t.priority.ofInt_toInt)
  have hpolicy : (t.row.project PgTaskRepo.columns).tryGet "execution_policy_override"
      (Value.nullable TaskJson.asPolicy) = .ok t.executionPolicyOverride :=
    ResultRow.tryGet_project (by decide) (nullable_policy t.executionPolicyOverride)
  have hstatus : (t.row.project PgTaskRepo.columns).tryGet "status" Value.asText =
      .ok t.status.asStr := ResultRow.tryGet_project (by decide) rfl
  rw [fromRow, hresult, hattempts, hpriority, hpolicy, hstatus]
  show Except.ok (⟨_, _, _, _, TaskStatus.ofStr t.status.asStr, _, _, _, _, _, _, _⟩ : Task) = _
  rw [TaskStatus.ofStr_asStr]
  rfl

/-- Of the columns of a listing of pending tasks, the others are read as their
fallbacks. -/
theorem fromRow_pendingColumns :
    fromRow (t.row.project PgTaskRepo.pendingColumns) = .ok (Store.pendingRow t) := by
  have hresult : (t.row.project PgTaskRepo.pendingColumns).tryGet "result"
      (Value.nullable TaskJson.asValue) = .ok t.result :=
    ResultRow.tryGet_project (by decide) (nullable_value t.result)
  have hstatus : (t.row.project PgTaskRepo.pendingColumns).tryGet "status" Value.asText =
      .ok t.status.asStr := ResultRow.tryGet_project (by decide) rfl
  have hmissing : ∀ (c : String) {α : Type} {read : Value TaskJson → Option α},
      c ∉ PgTaskRepo.pendingColumns →
      (t.row.project PgTaskRepo.pendingColumns).tryGet c read = .error (.columnNotFound c) :=
    fun _ _ _ hc => ResultRow.tryGet_project_of_notMem hc
  rw [fromRow, hresult, hstatus, hmissing "max_attempts" (by decide),
    hmissing "retry_policy" (by decide), hmissing "retry_params" (by decide),
    hmissing "priority" (by decide), hmissing "execution_policy_override" (by decide)]
  show Except.ok (⟨_, _, _, _, TaskStatus.ofStr t.status.asStr, _, _, _, _, _, _, _⟩ : Task) = _
  rw [TaskStatus.ofStr_asStr]
  rfl

end Task

/-! ### The statements on the rows of stored tasks -/

namespace PgTaskRepo

theorem fromRows_map (ts : List Task) {columns : List String} {view : Task → Task}
    (h : ∀ t : Task, Task.fromRow (t.row.project columns) = .ok (view t)) :
    Task.fromRows (ts.map fun t => t.row.project columns) = .ok (ts.map view) := by
  induction ts with
  | nil => rfl
  | cons t ts ih =>
    rw [List.map_cons, Task.fromRows, h, ih]
    rfl

/-- Tasks that are listed by their run are read back whole. -/
theorem listByDagRun_rows (s : Store) (d : DagRunId) :
    listByDagRun (s.tasks.rows.map Task.row) d = .ok (s.listByDagRun d) := by
  have hwhere : ∀ t : Task, (t.row "dag_run_id").sqlEq (.uuid d.uuid) =
      decide (t.dagRunId = d) := by
    intro t
    show (Value.uuid t.dagRunId.uuid).sqlEq (.uuid d.uuid) = _
    rw [Value.sqlEq_uuid, decide_eq_decide, DagRunId.ext_iff]
  rw [listByDagRun, List.filter_map, List.map_map]
  refine (fromRows_map _ Task.fromRow_columns).trans ?_
  rw [List.map_id', Store.listByDagRun]
  congr 1
  exact List.filter_congr fun t _ => hwhere t

theorem pendingRows_rows (s : Store) :
    pendingRows (s.tasks.rows.map Task.row) =
      (s.tasks.rows.filter fun t => t.status = .pending).map fun t =>
        t.row.project pendingColumns := by
  have hwhere : ∀ t : Task, (t.row "status").sqlEq (.text "pending") =
      decide (t.status = .pending) := by
    intro t
    show (Value.text t.status.asStr).sqlEq (.text "pending") = _
    cases t.status <;> decide
  rw [pendingRows, List.filter_map, List.map_map]
  congr 1
  exact List.filter_congr fun t _ => hwhere t

/-- Pending tasks are read back with the fallbacks in the columns that are not selected, and
a limit that is refused is the error of the listing. -/
theorem listPending_rows (s : Store) (limit : Option ℕ) :
    listPending (s.tasks.rows.map Task.row) limit = s.listPending .pg limit := by
  have hread := fun ts => fromRows_map ts Task.fromRow_pendingColumns
  unfold listPending
  rw [pendingRows_rows]
  cases limit with
  | none => exact congrArg (Except.mapError QueryError.sql) (hread _)
  | some lim =>
    by_cases hneg : asI64 lim < 0
    · simp only [limitRows, Store.listPending, Backend.bindLimit, hneg, if_true]
      rfl
    · simp only [limitRows, Store.listPending, Backend.bindLimit, hneg, if_false]
      rw [← List.map_take]
      refine (congrArg (Except.mapError QueryError.sql) (hread _)).trans ?_
      rw [List.map_take]
      rfl

/-- On a conflict the upsert replaces the whole row. -/
theorem overwrite_row {old t : Task} (hid : old.id = t.id) :
    old.row.overwrite t.row upsertColumns = t.row := by
  funext c
  unfold Row.overwrite
  split
  · rfl
  · next hc =>
    simp only [upsertColumns, List.mem_cons, List.not_mem_nil, or_false, not_or] at hc
    simp only [Task.row, hc, hid, if_false]

/-- A save of a task is a save of its row. -/
theorem save_rows (ts : Table Task.id) (t : Task) :
    save (ts.rows.map Task.row) t = (ts.save t).rows.map Task.row := by
  have hwhere : ∀ u : Task, (u.row "id").sqlEq (.uuid t.id.uuid) = decide (u.id = t.id) := by
    intro u
    show (Value.uuid u.id.uuid).sqlEq (.uuid t.id.uuid) = _
    rw [Value.sqlEq_uuid, decide_eq_decide, TaskId.ext_iff]
  have hany : ((ts.rows.map Task.row).any fun r => (r "id").sqlEq (.uuid t.id.uuid)) =
      ts.rows.any fun u => u.id = t.id := by
    rw [List.any_map]
    congr 1
    funext u
    exact hwhere u
  rw [save, hany]
  by_cases hhas : ts.Has t.id
  · obtain ⟨u, hu, hid⟩ := hhas
    have hrows : (ts.save t).rows = ts.rows.map fun x => if x.id = t.id then t else x :=
      upsert_eq_map Task.id t ts.rows ts.nodup ⟨u, hu, hid⟩
    rw [if_pos (List.any_eq_true.mpr ⟨u, hu, decide_eq_true hid⟩), hrows, List.map_map,
      List.map_map]
    refine List.map_congr_left fun x _ => ?_
    by_cases hx : x.id = t.id
    · simp only [Function.comp, hwhere, hx, decide_true, if_true, overwrite_row hx]
    · simp only [Function.comp, hwhere, hx, decide_false, Bool.false_eq_true, if_false]
  · rw [Table.rows_save_of_not_has hhas, List.map_append, if_neg]
    · rfl
    · rw [List.any_eq_true]
      rintro ⟨u, hu, hid⟩
      exact hhas ⟨u, hu, of_decide_eq_true hid⟩

end PgTaskRepo

end Contexide.Workflow
