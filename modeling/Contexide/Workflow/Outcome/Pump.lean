import Contexide.Workflow.Messaging
import Contexide.Workflow.Outcome.Calls

/-! What the scheduling loop does to any world when it runs alone: it dispatches
exactly the listed tasks that are ready when it starts. The cached siblings are
as good as fresh ones, because dispatching a task changes no kind and makes no
task done. -/

namespace Contexide.Workflow

open Effects Storage Scheduler Messaging

namespace World

/-- A created run becomes running. -/
def markedRunning (w : World) (d : DagRunId) : World :=
  match w.dagRuns.get d with
  | some x => if x.status = .created then w.putDagRun { x with status := .running } else w
  | none => w

/-- The world after a task is dispatched. -/
def dispatched (C : Config) (w : World) (t : Task) : World :=
  (((w.draw .pump).putTaskRun
    (openedRun t ⟨C.ids.uuid .pump (w.drawn .pump)⟩ (w.listByTask t.id))).putTask
      { t with status := .running }).markedRunning t.dagRunId

def dispatchedAll (C : Config) (w : World) (ts : List Task) : World := ts.foldl (dispatched C) w

/-- The listed tasks that are ready. -/
def batch (C : Config) (limit : Option ℕ) (w : World) : List Task :=
  (w.listed C.backend limit).filter fun t => isReady t (w.listByDagRun t.dagRunId)

/-- The world once workers have been told about the returned ready tasks. -/
def announced (w : World) (ready : List ReadyTask) : World :=
  { w with published := w.published ++ ready.map fun r =>
      (workerRequestSubject "contexide.workflow" r.kind, requestOf r) }

end World

/-- The ready tasks of a batch whose attempts take the identifiers of the pump
from the `k`-th on. -/
def readyTasks (C : Config) : ℕ → List Task → List ReadyTask
  | _, [] => []
  | k, t :: ts => readyTask t ⟨C.ids.uuid .pump k⟩ :: readyTasks C (k + 1) ts

theorem mem_readyTasks {C : Config} {k : ℕ} {ts : List Task} {r : ReadyTask}
    (hr : r ∈ readyTasks C k ts) :
    ∃ t ∈ ts, ∃ n, k ≤ n ∧ n < k + ts.length ∧ r = readyTask t ⟨C.ids.uuid .pump n⟩ := by
  induction ts generalizing k with
  | nil => exact absurd hr List.not_mem_nil
  | cons t ts ih =>
    rw [List.length_cons]
    rcases List.mem_cons.mp hr with rfl | hr
    · exact ⟨t, List.mem_cons_self, k, le_rfl, by omega, rfl⟩
    · obtain ⟨v, hv, n, hn, hlt, rfl⟩ := ih hr
      exact ⟨v, List.mem_cons_of_mem _ hv, n, by omega, by omega, rfl⟩

namespace World
variable (w : World) (d : DagRunId)

@[simp] theorem markedRunning_tasks : (w.markedRunning d).tasks = w.tasks := by
  unfold markedRunning
  split
  · split <;> rfl
  · rfl

@[simp] theorem markedRunning_taskRuns : (w.markedRunning d).taskRuns = w.taskRuns := by
  unfold markedRunning
  split
  · split <;> rfl
  · rfl

@[simp] theorem markedRunning_published : (w.markedRunning d).published = w.published := by
  unfold markedRunning
  split
  · split <;> rfl
  · rfl

@[simp] theorem markedRunning_drawn : (w.markedRunning d).drawn = w.drawn := by
  unfold markedRunning
  split
  · split <;> rfl
  · rfl

variable (C : Config) (t : Task)

@[simp] theorem dispatched_tasks :
    (w.dispatched C t).tasks = w.tasks.save { t with status := .running } := by
  simp [dispatched]

@[simp] theorem dispatched_published : (w.dispatched C t).published = w.published := by
  simp [dispatched]

@[simp] theorem dispatched_drawn_pump : (w.dispatched C t).drawn .pump = w.drawn .pump + 1 := by
  simp [dispatched]

end World

/-! ### Readiness during a pump -/

/-- What readiness depends on: the kinds of the siblings and whether they are done. -/
def stages (ts : List Task) : List (String × Bool) := ts.map fun t => (t.kind, t.status.isDone)

theorem isReady_congr {t : Task} {ss ss' : List Task} (h : stages ss = stages ss') :
    isReady t ss = isReady t ss' := by
  have hall : ∀ n ss, (ss.all fun sib => !(orderingForKind sib.kind < n && !sib.status.isDone)) =
      (stages ss).all fun p => !(orderingForKind p.1 < n && !p.2) := by
    intro n ss
    simp [stages, List.all_map, Function.comp_def]
  unfold isReady
  simp only [hall, h]

/-- Saving a task with the kind, run and doneness of the stored one. -/
theorem stages_putTask {w : World} {u t : Task} (hu : u ∈ w.tasks) (hsame : SameTask u t)
    (hdone : u.status.isDone = t.status.isDone) (d : DagRunId) :
    stages ((w.putTask t).listByDagRun d) = stages (w.listByDagRun d) :=
  Table.map_filter_rows_save hu hsame.id (by simp [hsame.run]) (by rw [hsame.kind, hdone])

/-- A task of the batch: as listed, it is stored and pending. -/
def World.Listed (w : World) (t : Task) : Prop :=
  ∃ u ∈ w.tasks, SameTask u t ∧ u.status = .pending

theorem World.stages_dispatched {w : World} {C : Config} {t : Task} (ht : w.Listed t)
    (d : DagRunId) : stages ((w.dispatched C t).listByDagRun d) = stages (w.listByDagRun d) := by
  obtain ⟨u, hu, hsame, hs⟩ := ht
  have h := stages_putTask (t := { t with status := .running }) hu
    (hsame.of_status .running) (by rw [hs]; rfl) d
  rw [← h]
  simp only [Store.listByDagRun, World.dispatched_tasks, World.putTask_tasks]

/-- The tasks of a run that are cached show the stages of the run. -/
def World.Cached (w : World) (tasksByRun : DagRunId → List Task) : Prop :=
  ∀ d, tasksByRun d = [] ∨ stages (tasksByRun d) = stages (w.listByDagRun d)

namespace World.Cached

variable {w : World} {tasksByRun : DagRunId → List Task}

theorem empty : w.Cached fun _ => [] := fun _ => .inl rfl

theorem update (h : w.Cached tasksByRun) {d : DagRunId} {siblings : List Task}
    (hstages : stages siblings = stages (w.listByDagRun d)) :
    w.Cached (Function.update tasksByRun d siblings) := by
  apply (Function.forall_update_iff tasksByRun fun d ts =>
    ts = [] ∨ stages ts = stages (w.listByDagRun d)).mpr
  exact ⟨.inr hstages, fun d _ => h d⟩

/-- A dispatch changes no stage. -/
theorem dispatched (h : w.Cached tasksByRun) {C : Config} {t : Task} (ht : w.Listed t) :
    (w.dispatched C t).Cached tasksByRun := by
  intro d
  rw [stages_dispatched ht d]
  exact h d

end World.Cached

theorem World.Listed.dispatched {w : World} {C : Config} {t v : Task} (hv : w.Listed v)
    (hne : v.id ≠ t.id) : (w.dispatched C t).Listed v := by
  obtain ⟨u, hu, hsame, hs⟩ := hv
  refine ⟨u, ?_, hsame, hs⟩
  rw [World.dispatched_tasks]
  exact Table.mem_save_of_ne hu (hsame.id ▸ hne)

namespace Scheduler
variable (C : Config) (w : World)

theorem run_markDagRunning (d : DagRunId) :
    (markDagRunning d).run (exec C .pump) w = ((), w.markedRunning d) := by
  simp only [markDagRunning, Program.run_bind, DagRuns.run_get, World.markedRunning]
  cases w.dagRuns.get d with
  | none => rfl
  | some x =>
    simp only [Program.run_ite, Program.run_bind, DagRuns.run_save, Program.run_pure]
    split <;> rfl

theorem run_dispatch (t : Task) :
    (dispatch t).run (exec C .pump) w =
      (readyTask t ⟨C.ids.uuid .pump (w.drawn .pump)⟩, w.dispatched C t) := by
  simp [dispatch, run_markDagRunning, World.dispatched]

theorem run_scheduleLoop (pending : List Task) (tasksByRun : DagRunId → List Task)
    (ready : List ReadyTask) (hlisted : ∀ t ∈ pending, w.Listed t)
    (hn : (pending.map Task.id).Nodup)
    (hcache : w.Cached tasksByRun) :
    (scheduleLoop pending tasksByRun ready).run (exec C .pump) w =
      let batch := pending.filter fun t => isReady t (w.listByDagRun t.dagRunId)
      (ready ++ readyTasks C (w.drawn .pump) batch, w.dispatchedAll C batch) := by
  induction pending generalizing w tasksByRun ready with
  | nil => simp [scheduleLoop, readyTasks, World.dispatchedAll]
  | cons t pending ih =>
    have hn' := List.nodup_cons.mp hn
    have hrest : ∀ v ∈ pending, w.Listed v := fun v hv => hlisted v (List.mem_cons_of_mem _ hv)
    -- fresh or cached, the siblings show the stages of the run
    obtain ⟨siblings, hrun, hstages⟩ : ∃ siblings,
        (scheduleLoop (t :: pending) tasksByRun ready).run (exec C .pump) w =
          (afterListing t pending tasksByRun ready siblings).run (exec C .pump) w ∧
        stages siblings = stages (w.listByDagRun t.dagRunId) := by
      by_cases he : tasksByRun t.dagRunId = []
      · refine ⟨w.listByDagRun t.dagRunId, ?_, rfl⟩
        rw [scheduleLoop_of_new he]
        rfl
      · refine ⟨tasksByRun t.dagRunId, ?_, (hcache t.dagRunId).resolve_left he⟩
        rw [scheduleLoop_of_cached he]
    have hcache' := hcache.update hstages
    rw [hrun, afterListing]
    simp only [Program.run_ite, Program.run_bind, run_dispatch, List.filter_cons,
      isReady_congr hstages]
    split
    · have hmoved : ∀ v ∈ pending, (w.dispatched C t).Listed v := fun v hv =>
        (hrest v hv).dispatched fun he => hn'.1 (he ▸ List.mem_map_of_mem hv)
      have hready : ∀ v : Task, isReady v ((w.dispatched C t).listByDagRun v.dagRunId) =
          isReady v (w.listByDagRun v.dagRunId) :=
        fun v => isReady_congr (World.stages_dispatched (hlisted t List.mem_cons_self) _)
      have hcached := hcache'.dispatched (C := C) (hlisted t List.mem_cons_self)
      rw [ih (w.dispatched C t) _ _ hmoved hn'.2 hcached]
      simp only [hready, World.dispatched_drawn_pump, readyTasks, World.dispatchedAll,
        List.foldl_cons, List.append_assoc, List.singleton_append]
    · exact ih w _ _ hrest hn'.2 hcache'

theorem listed_of_mem_listed {b : Backend} {limit : Option ℕ} {t : Task}
    (h : t ∈ w.listed b limit) : w.Listed t := by
  obtain ⟨u, hu, rfl, hs⟩ := Store.of_mem_listed h
  exact ⟨u, hu, Store.pendingView_same b u, hs⟩

/-- One pump dispatches the listed tasks that are ready when it starts. When the listing
is refused it ends with its error. -/
theorem run_scheduleReadyTasks (limit : Option ℕ) :
    (scheduleReadyTasks limit).run (exec C .pump) w =
      ((w.listPending C.backend limit).map fun _ =>
          readyTasks C (w.drawn .pump) (w.batch C limit),
        w.dispatchedAll C (w.batch C limit)) := by
  have hloop := run_scheduleLoop C w (w.listed C.backend limit) (fun _ => []) []
    (fun t ht => listed_of_mem_listed w ht) (Store.nodup_listed _ _ _) World.Cached.empty
  rw [scheduleReadyTasks, Program.run_bind, Tasks.run_listPending]
  rw [World.batch]
  cases hlisting : w.listPending C.backend limit with
  | error e => rw [Store.listed, hlisting]; rfl
  | ok pending =>
    rw [Store.listed, hlisting, returned] at hloop ⊢
    rw [Program.run_bind, hloop]
    rfl

/-- The ready tasks that a pump returns. -/
theorem returned_scheduleReadyTasks (limit : Option ℕ) :
    returned ((scheduleReadyTasks limit).run (exec C .pump) w).1 =
      readyTasks C (w.drawn .pump) (w.batch C limit) := by
  rw [run_scheduleReadyTasks, World.batch, Store.listed]
  cases w.listPending C.backend limit <;> rfl

end Scheduler

@[simp] theorem World.announced_nil (w : World) : w.announced [] = w := by simp [announced]

theorem run_publishAll (C : Config) (ready : List ReadyTask) (w : World) :
    (publishAll ready).run (exec C .pump) w = ((), w.announced ready) := by
  induction ready generalizing w with
  | nil => simp [publishAll]
  | cons r ready ih =>
    rw [publishAll, Program.run_bind, ih]
    simp [World.announced]

end Contexide.Workflow
