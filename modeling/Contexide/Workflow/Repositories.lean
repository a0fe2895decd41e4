import Contexide.Core.Idempo
import Contexide.Effects.Program
import Contexide.Sql.Query
import Contexide.Storage.Table
import Contexide.Workflow.Domain
import Mathlib.Data.List.Sort
import Mathlib.Data.Nat.Pairing

/-! The calls the executor makes: the three workflow repositories, the
messaging client, and fresh identifiers, with what each does to the stores. -/

namespace Contexide.Workflow

open Effects Sql Storage

/-- The components that make calls: invocations of the planner, the scheduling
loop, and the status loop. -/
inductive Proc where
  | planner (n : ℕ)
  | pump
  | status
  deriving DecidableEq

/-- `Uuid::now_v7`: the `n`-th identifier a component draws. No identifier is
drawn twice; nothing is assumed about their order. -/
structure IdSource where
  uuid : Proc → ℕ → Uuid
  inj : ∀ {i j : Proc} {m n : ℕ}, uuid i m = uuid j n → i = j ∧ m = n

/-- A source that pairs the component with a counter. -/
def IdSource.paired : IdSource where
  uuid
    | .pump, n => Nat.pair 0 n
    | .status, n => Nat.pair 1 n
    | .planner k, n => Nat.pair (k + 2) n
  inj {i j m n} h := by
    cases i <;> cases j <;> simp_all [Nat.pair_eq_pair]

/-- Which implementation of the repositories is behind the traits. -/
inductive Backend where
  | mem | pg
  deriving DecidableEq

/-- The limit of a listing as it takes effect. Over Postgres it is bound as an `i64`, and the
statement fails when that is negative. -/
def Backend.bindLimit : Backend → ℕ → Except QueryError ℕ
  | .mem, lim => .ok lim
  | .pg, lim => if asI64 lim < 0 then .error .negativeLimit else .ok (asI64 lim).toNat

/-- Of the limits that a `usize` can be, Postgres refuses those from `2 ^ 63` on; every
other takes effect as it is. -/
theorem Backend.bindLimit_usize (b : Backend) {lim : ℕ} (h : lim < 2 ^ 64) :
    b.bindLimit lim =
      if b = .mem ∨ lim < 2 ^ 63 then .ok lim else .error .negativeLimit := by
  cases b with
  | mem => rfl
  | pg =>
    simp only [bindLimit]
    by_cases hlow : lim < 2 ^ 63
    · rw [asI64_of_lt hlow, if_neg (by omega), if_pos (.inr hlow), Int.toNat_natCast]
    · rw [if_pos (asI64_neg (by omega) h), if_neg (by simp; omega)]

/-- The elements that a call returns, none when it fails. -/
def returned {ε α : Type} : Except ε (List α) → List α
  | .ok xs => xs
  | .error _ => []

/-- The parameters of an executor. Parsing and printing of UUIDs belong to the
`uuid` crate. -/
structure Config where
  ids : IdSource
  backend : Backend
  retryPolicy : RetryPolicy
  parseUuid : String → Option Uuid
  uuidText : Uuid → String

/-- In-memory repositories and paired identifiers; UUIDs are not parsed. -/
def Config.paired (maxAttempts : UInt32) : Config where
  ids := .paired
  backend := .mem
  retryPolicy := ⟨maxAttempts⟩
  parseUuid _ := none
  uuidText _ := ""

/-- In-memory repositories and UUIDs in their canonical form. -/
def Config.canonical (maxAttempts : UInt32) : Config :=
  { Config.paired maxAttempts with
    parseUuid := Idempo.parseCanonical
    uuidText := Idempo.canonicalUuid }

theorem Config.parseUuid_uuidText (maxAttempts : UInt32) (u : Uuid) :
    (canonical maxAttempts).parseUuid ((canonical maxAttempts).uuidText u) = some u := by
  simp only [canonical]
  exact Idempo.parseCanonical_canonicalUuid u

/-- Request sent from executor to a worker. -/
structure WorkerRequest where
  tenantId : TenantId
  dagRunId : Uuid
  taskId : Uuid
  taskRunId : Uuid
  kind : String
  payload : Json

structure Store where
  dagRuns : Table DagRun.id
  tasks : Table Task.id
  taskRuns : Table TaskRun.id

/-- The stores, the requests published so far with their subjects, and how many
identifiers each component has drawn. -/
structure World extends Store where
  published : List (String × WorkerRequest)
  drawn : Proc → ℕ

namespace World

def empty : World := ⟨⟨.empty, .empty, .empty⟩, [], fun _ => 0⟩

def draw (w : World) (i : Proc) : World :=
  { w with drawn := Function.update w.drawn i (w.drawn i + 1) }

@[simp] theorem draw_toStore (w : World) (i : Proc) : (w.draw i).toStore = w.toStore := rfl

@[simp] theorem draw_published (w : World) (i : Proc) : (w.draw i).published = w.published := rfl

@[simp] theorem draw_drawn_self (w : World) (i : Proc) : (w.draw i).drawn i = w.drawn i + 1 := by
  simp [draw]

theorem draw_drawn_ne (w : World) {i j : Proc} (h : j ≠ i) : (w.draw i).drawn j = w.drawn j := by
  simp [draw, h]

end World

namespace Store

def listByDagRun (s : Store) (d : DagRunId) : List Task :=
  s.tasks.rows.filter fun t => t.dagRunId = d

/-- All attempts of a task, sorted by `attempt_no`. -/
def listByTask (s : Store) (t : TaskId) : List TaskRun :=
  (s.taskRuns.rows.filter fun r => r.taskId = t).insertionSort
    fun r r' => r.attemptNo ≤ r'.attemptNo

/-- What `Task::from_row` makes of the columns that the Postgres `list_pending`
selects: the other columns take their fallbacks. -/
def pendingRow (t : Task) : Task :=
  { t with
    maxAttempts := none
    retryPolicy := "never"
    retryParams := .object []
    priority := 0
    executionPolicyOverride := none }

/-- The pending tasks in the order of their ids (in memory) or of their creation
(Postgres). -/
def pending (b : Backend) (s : Store) : List Task :=
  let pending := s.tasks.rows.filter fun t => t.status = .pending
  match b with
  | .mem => pending.insertionSort fun t u => t.id.uuid ≤ u.id.uuid
  | .pg => pending.map pendingRow

/-- The pending tasks cut to the limit, or the error of a limit that is refused. -/
def listPending (b : Backend) (s : Store) : Option ℕ → Except QueryError (List Task)
  | some lim => (b.bindLimit lim).map (s.pending b).take
  | none => .ok (s.pending b)

/-- The tasks that a listing answers with. -/
def listed (b : Backend) (s : Store) (limit : Option ℕ) : List Task :=
  returned (s.listPending b limit)

variable {b : Backend} {s : Store} {limit : Option ℕ}

/-- What a listing of pending tasks hands out for a stored task. -/
def pendingView (b : Backend) (t : Task) : Task :=
  match b with
  | .mem => t
  | .pg => pendingRow t

theorem pendingView_same (b : Backend) (t : Task) : SameTask t (pendingView b t) := by
  cases b <;> exact ⟨rfl, rfl, rfl, rfl, rfl⟩

theorem pendingView_status (b : Backend) (t : Task) : (pendingView b t).status = t.status := by
  cases b <;> rfl

theorem pending_perm (b : Backend) (s : Store) : (s.pending b).Perm
    ((s.tasks.rows.filter fun t => t.status = .pending).map (pendingView b)) := by
  cases b with
  | mem =>
    refine (List.perm_insertionSort _ _).trans ?_
    rw [show pendingView .mem = id from rfl, List.map_id]
  | pg => exact .refl _

theorem listed_some (b : Backend) (s : Store) (lim : ℕ) :
    s.listed b (some lim) = match b.bindLimit lim with
      | .ok n => (s.pending b).take n
      | .error _ => [] := by
  rw [listed, listPending]
  cases b.bindLimit lim <;> rfl

theorem listed_sublist (b : Backend) (s : Store) (limit : Option ℕ) :
    (s.listed b limit).Sublist (s.pending b) := by
  cases limit with
  | none => exact .refl _
  | some lim =>
    rw [listed_some]
    split
    · exact List.take_sublist _ _
    · exact List.nil_sublist _

/-- Every listed task is a stored pending task. -/
theorem of_mem_listed {t : Task} (h : t ∈ s.listed b limit) :
    ∃ u ∈ s.tasks, t = pendingView b u ∧ u.status = .pending := by
  have hm := (pending_perm b s).subset ((listed_sublist b s limit).subset h)
  obtain ⟨u, hu, rfl⟩ := List.mem_map.mp hm
  rw [List.mem_filter] at hu
  exact ⟨u, hu.1, rfl, by simpa using hu.2⟩

theorem mem_pending {u : Task} (hu : u ∈ s.tasks) (hs : u.status = .pending) :
    pendingView b u ∈ s.pending b :=
  (pending_perm b s).mem_iff.mpr
    (List.mem_map_of_mem (List.mem_filter.mpr ⟨hu, by simpa using hs⟩))

theorem nodup_pending (b : Backend) (s : Store) : ((s.pending b).map Task.id).Nodup := by
  rw [((pending_perm b s).map Task.id).nodup_iff, List.map_map,
    show Task.id ∘ pendingView b = Task.id from funext fun t => (pendingView_same b t).id.symm]
  exact s.tasks.nodup.sublist (List.filter_sublist.map _)

theorem nodup_listed (b : Backend) (s : Store) (limit : Option ℕ) :
    ((s.listed b limit).map Task.id).Nodup :=
  (nodup_pending b s).sublist ((listed_sublist b s limit).map Task.id)

end Store

inductive Op where
  | dagRunGet (id : DagRunId)
  | dagRunSave (entity : DagRun)
  | taskGet (id : TaskId)
  | taskSave (entity : Task)
  | taskListByDagRun (id : DagRunId)
  | taskListPending (limit : Option ℕ)
  | taskRunGet (id : TaskRunId)
  | taskRunSave (entity : TaskRun)
  | taskRunListByTask (id : TaskId)
  | publish (subject : String) (request : WorkerRequest)
  | newDagRunId
  | newTaskId
  | newTaskRunId

/-- A listing of pending tasks answers with an error when its limit is refused. -/
abbrev Op.Ans : Op → Type
  | .dagRunGet _ => Option DagRun
  | .dagRunSave _ => DagRun
  | .taskGet _ => Option Task
  | .taskSave _ => Task
  | .taskListByDagRun _ => List Task
  | .taskListPending _ => Except QueryError (List Task)
  | .taskRunGet _ => Option TaskRun
  | .taskRunSave _ => TaskRun
  | .taskRunListByTask _ => List TaskRun
  | .publish _ _ => Unit
  | .newDagRunId => DagRunId
  | .newTaskId => TaskId
  | .newTaskRunId => TaskRunId

/-- Repository and publish calls return a `Result`; drawing an id cannot fail. -/
def Op.fallible : Op → Bool
  | .newDagRunId | .newTaskId | .newTaskRunId => false
  | _ => true

abbrev sig : Signature := ⟨Op, Op.Ans⟩

abbrev Prog := Program sig

/-- What a call by component `i` answers and does. -/
def exec (C : Config) (i : Proc) : Handler sig World := fun op w =>
  match op with
  | .dagRunGet id => (w.dagRuns.get id, w)
  | .dagRunSave e => (e, { w with dagRuns := w.dagRuns.save e })
  | .taskGet id => (w.tasks.get id, w)
  | .taskSave e => (e, { w with tasks := w.tasks.save e })
  | .taskListByDagRun id => (w.listByDagRun id, w)
  | .taskListPending limit => (w.listPending C.backend limit, w)
  | .taskRunGet id => (w.taskRuns.get id, w)
  | .taskRunSave e => (e, { w with taskRuns := w.taskRuns.save e })
  | .taskRunListByTask id => (w.listByTask id, w)
  | .publish subject request => ((), { w with published := w.published ++ [(subject, request)] })
  | .newDagRunId => (⟨C.ids.uuid i (w.drawn i)⟩, w.draw i)
  | .newTaskId => (⟨C.ids.uuid i (w.drawn i)⟩, w.draw i)
  | .newTaskRunId => (⟨C.ids.uuid i (w.drawn i)⟩, w.draw i)

/-! The calls as programs. -/

namespace DagRuns
def get (id : DagRunId) : Prog (Option DagRun) := .perform (S := sig) (.dagRunGet id)
def save (e : DagRun) : Prog DagRun := .perform (S := sig) (.dagRunSave e)
end DagRuns

namespace Tasks
def get (id : TaskId) : Prog (Option Task) := .perform (S := sig) (.taskGet id)
def save (e : Task) : Prog Task := .perform (S := sig) (.taskSave e)
def listByDagRun (id : DagRunId) : Prog (List Task) := .perform (S := sig) (.taskListByDagRun id)
def listPending (limit : Option ℕ) : Prog (Except QueryError (List Task)) :=
  .perform (S := sig) (.taskListPending limit)
end Tasks

namespace TaskRuns
def get (id : TaskRunId) : Prog (Option TaskRun) := .perform (S := sig) (.taskRunGet id)
def save (e : TaskRun) : Prog TaskRun := .perform (S := sig) (.taskRunSave e)
def listByTask (id : TaskId) : Prog (List TaskRun) := .perform (S := sig) (.taskRunListByTask id)
end TaskRuns

def publish (subject : String) (request : WorkerRequest) : Prog Unit :=
  .perform (S := sig) (.publish subject request)

def newDagRunId : Prog DagRunId := .perform (S := sig) .newDagRunId

def newTaskId : Prog TaskId := .perform (S := sig) .newTaskId

def newTaskRunId : Prog TaskRunId := .perform (S := sig) .newTaskRunId

end Contexide.Workflow
