import Contexide.Workflow.Protocol
import Contexide.Workflow.Planner

/-! What single calls do to the world when a component runs alone: saves and
draws as functions on worlds, with the parts of the world each leaves alone. -/

namespace Contexide.Workflow

open Effects Storage

namespace World

def putDagRun (w : World) (d : DagRun) : World := { w with dagRuns := w.dagRuns.save d }

def putTask (w : World) (t : Task) : World := { w with tasks := w.tasks.save t }

def putTaskRun (w : World) (r : TaskRun) : World := { w with taskRuns := w.taskRuns.save r }

/-- `n` identifiers drawn by component `i`. -/
def drawMany (w : World) (i : Proc) (n : ℕ) : World :=
  { w with drawn := Function.update w.drawn i (w.drawn i + n) }

def putTasks (w : World) (ts : List Task) : World := ts.foldl putTask w

section Projections
variable (w : World) (d : DagRun) (t : Task) (r : TaskRun) (i : Proc) (n : ℕ) (ts : List Task)

@[simp] theorem putDagRun_dagRuns : (w.putDagRun d).dagRuns = w.dagRuns.save d := rfl
@[simp] theorem putDagRun_tasks : (w.putDagRun d).tasks = w.tasks := rfl
@[simp] theorem putDagRun_taskRuns : (w.putDagRun d).taskRuns = w.taskRuns := rfl
@[simp] theorem putDagRun_published : (w.putDagRun d).published = w.published := rfl
@[simp] theorem putDagRun_drawn : (w.putDagRun d).drawn = w.drawn := rfl
@[simp] theorem putTask_dagRuns : (w.putTask t).dagRuns = w.dagRuns := rfl
@[simp] theorem putTask_tasks : (w.putTask t).tasks = w.tasks.save t := rfl
@[simp] theorem putTask_taskRuns : (w.putTask t).taskRuns = w.taskRuns := rfl
@[simp] theorem putTask_published : (w.putTask t).published = w.published := rfl
@[simp] theorem putTask_drawn : (w.putTask t).drawn = w.drawn := rfl
@[simp] theorem putTaskRun_dagRuns : (w.putTaskRun r).dagRuns = w.dagRuns := rfl
@[simp] theorem putTaskRun_tasks : (w.putTaskRun r).tasks = w.tasks := rfl
@[simp] theorem putTaskRun_taskRuns : (w.putTaskRun r).taskRuns = w.taskRuns.save r := rfl
@[simp] theorem putTaskRun_published : (w.putTaskRun r).published = w.published := rfl
@[simp] theorem putTaskRun_drawn : (w.putTaskRun r).drawn = w.drawn := rfl
@[simp] theorem drawMany_toStore : (w.drawMany i n).toStore = w.toStore := rfl
@[simp] theorem drawMany_published : (w.drawMany i n).published = w.published := rfl
@[simp] theorem drawMany_zero : w.drawMany i 0 = w := by simp [drawMany]

theorem draw_drawMany : (w.draw i).drawMany i n = w.drawMany i (n + 1) := by
  simp [draw, drawMany, Nat.add_assoc, Nat.add_comm 1 n]

@[simp] theorem putTasks_nil : w.putTasks [] = w := rfl
@[simp] theorem putTasks_cons : w.putTasks (t :: ts) = (w.putTask t).putTasks ts := rfl

@[simp] theorem putTasks_dagRuns : (w.putTasks ts).dagRuns = w.dagRuns := by
  induction ts generalizing w with
  | nil => rfl
  | cons t ts ih => exact ih (w.putTask t)

@[simp] theorem putTasks_taskRuns : (w.putTasks ts).taskRuns = w.taskRuns := by
  induction ts generalizing w with
  | nil => rfl
  | cons t ts ih => exact ih (w.putTask t)

@[simp] theorem putTasks_published : (w.putTasks ts).published = w.published := by
  induction ts generalizing w with
  | nil => rfl
  | cons t ts ih => exact ih (w.putTask t)

@[simp] theorem putTasks_drawn : (w.putTasks ts).drawn = w.drawn := by
  induction ts generalizing w with
  | nil => rfl
  | cons t ts ih => exact ih (w.putTask t)

end Projections

/-- New tasks come after the stored ones. -/
theorem rows_putTasks {w : World} {ts : List Task} (hn : (ts.map Task.id).Nodup)
    (hf : ∀ t ∈ ts, ¬ w.tasks.Has t.id) :
    (w.putTasks ts).tasks.rows = w.tasks.rows ++ ts := by
  induction ts generalizing w with
  | nil => simp
  | cons t ts ih =>
    have hn' := List.nodup_cons.mp hn
    rw [putTasks_cons, ih hn'.2, putTask_tasks,
      Table.rows_save_of_not_has (hf t List.mem_cons_self), List.append_assoc,
      List.singleton_append]
    intro u hu
    rw [putTask_tasks, Table.has_save]
    rintro (he | hh)
    · exact hn'.1 (he ▸ List.mem_map_of_mem hu)
    · exact hf u (List.mem_cons_of_mem _ hu) hh

end World

/-! ### Runs of the calls -/

section Run
variable (C : Config) (i : Proc) (w : World)

@[simp] theorem DagRuns.run_get (id : DagRunId) :
    (DagRuns.get id).run (exec C i) w = (w.dagRuns.get id, w) := rfl

@[simp] theorem DagRuns.run_save (d : DagRun) :
    (DagRuns.save d).run (exec C i) w = (d, w.putDagRun d) := rfl

@[simp] theorem Tasks.run_get (id : TaskId) :
    (Tasks.get id).run (exec C i) w = (w.tasks.get id, w) := rfl

@[simp] theorem Tasks.run_save (t : Task) :
    (Tasks.save t).run (exec C i) w = (t, w.putTask t) := rfl

@[simp] theorem Tasks.run_listByDagRun (id : DagRunId) :
    (Tasks.listByDagRun id).run (exec C i) w = (w.listByDagRun id, w) := rfl

@[simp] theorem Tasks.run_listPending (limit : Option ℕ) :
    (Tasks.listPending limit).run (exec C i) w = (w.listPending C.backend limit, w) := rfl

@[simp] theorem TaskRuns.run_get (id : TaskRunId) :
    (TaskRuns.get id).run (exec C i) w = (w.taskRuns.get id, w) := rfl

@[simp] theorem TaskRuns.run_save (r : TaskRun) :
    (TaskRuns.save r).run (exec C i) w = (r, w.putTaskRun r) := rfl

@[simp] theorem TaskRuns.run_listByTask (id : TaskId) :
    (TaskRuns.listByTask id).run (exec C i) w = (w.listByTask id, w) := rfl

@[simp] theorem run_publish (subject : String) (q : WorkerRequest) :
    (publish subject q).run (exec C i) w =
      ((), { w with published := w.published ++ [(subject, q)] }) := rfl

@[simp] theorem run_newDagRunId :
    newDagRunId.run (exec C i) w = (⟨C.ids.uuid i (w.drawn i)⟩, w.draw i) := rfl

@[simp] theorem run_newTaskId :
    newTaskId.run (exec C i) w = (⟨C.ids.uuid i (w.drawn i)⟩, w.draw i) := rfl

@[simp] theorem run_newTaskRunId :
    newTaskRunId.run (exec C i) w = (⟨C.ids.uuid i (w.drawn i)⟩, w.draw i) := rfl

theorem Planner.run_saveTasks (ts : List Task) :
    (Planner.saveTasks ts).run (exec C i) w = ((), w.putTasks ts) := by
  induction ts generalizing w with
  | nil => rfl
  | cons t ts ih => exact ih (w.putTask t)

end Run

/-! ### What the saves leave alone -/

namespace World
variable (w : World) (d : DagRun) (t : Task) (r : TaskRun)

@[simp] theorem listByDagRun_putTaskRun (id : DagRunId) :
    (w.putTaskRun r).listByDagRun id = w.listByDagRun id := rfl

end World

theorem Store.mem_listByDagRun {s : Store} {d : DagRunId} {t : Task} :
    t ∈ s.listByDagRun d ↔ t ∈ s.tasks ∧ t.dagRunId = d := by
  simp [listByDagRun, Table.mem_def]

end Contexide.Workflow
