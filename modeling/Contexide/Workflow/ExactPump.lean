import Contexide.Workflow.BatchLimit
import Contexide.Workflow.LostDispatch

/-! An unlimited pump from any stores: the attempts it opens, the tasks it starts and
the ready tasks it returns, one of each for every task of its batch. The batch is what
the store lists as pending, while readiness also accepts tasks that are `Ready`; the
two pick the same tasks exactly when no such task is stored. -/

namespace Contexide.Workflow

open Effects Storage Scheduler

/-- The attempts that a pump opens for its batch, with its identifiers from the `k`-th on. -/
def openedRuns (C : Config) (w : World) : ℕ → List Task → List TaskRun
  | _, [] => []
  | k, t :: ts => openedRun t ⟨C.ids.uuid .pump k⟩ (w.listByTask t.id) :: openedRuns C w (k + 1) ts

/-- A task after the dispatch of a batch. -/
def startedTask (batch : List Task) (u : Task) : Task :=
  match batch.find? fun t => t.id = u.id with
  | some t => { t with status := .running }
  | none => u

namespace World

variable {C : Config} {w : World} {batch : List Task}

/-- The pump has not used the identifiers that it has still to draw. -/
def FreshAttempts (C : Config) (w : World) : Prop :=
  ∀ k, w.drawn .pump ≤ k → ¬ w.taskRuns.Has ⟨C.ids.uuid .pump k⟩

theorem dispatched_taskRuns_rows (h : w.FreshAttempts C) (t : Task) :
    (w.dispatched C t).taskRuns.rows = w.taskRuns.rows ++ [w.nextTaskRun C t] := by
  have hsaved : (w.dispatched C t).taskRuns = w.taskRuns.save (w.nextTaskRun C t) := by
    simp [dispatched, nextTaskRun]
  rw [hsaved]
  exact Table.rows_save_of_not_has (h _ le_rfl)

theorem FreshAttempts.dispatched (h : w.FreshAttempts C) (t : Task) :
    (w.dispatched C t).FreshAttempts C := by
  intro k hk
  rw [dispatched_drawn_pump] at hk
  rintro ⟨a, ha, hid⟩
  rw [Table.mem_def, dispatched_taskRuns_rows h, List.mem_append, List.mem_singleton] at ha
  rcases ha with ha | rfl
  · exact h k (by omega) ⟨a, ha, hid⟩
  · have := (C.ids.inj (congrArg TaskRunId.uuid hid)).2
    omega

theorem listByTask_dispatched_ne (h : w.FreshAttempts C) {t : Task} {id : TaskId}
    (hne : id ≠ t.id) : (w.dispatched C t).listByTask id = w.listByTask id := by
  have hnew : (w.nextTaskRun C t).taskId ≠ id := Ne.symm hne
  simp only [Store.listByTask, dispatched_taskRuns_rows h, List.filter_append]
  rw [List.filter_cons_of_neg (by simpa using hnew), List.filter_nil, List.append_nil]

theorem openedRuns_congr {w' : World} {k : ℕ}
    (h : ∀ t ∈ batch, w'.listByTask t.id = w.listByTask t.id) :
    openedRuns C w' k batch = openedRuns C w k batch := by
  induction batch generalizing k with
  | nil => rfl
  | cons t batch ih =>
    rw [openedRuns, openedRuns, h t List.mem_cons_self,
      ih fun v hv => h v (List.mem_cons_of_mem _ hv)]

/-- A pump adds the opened attempts and leaves the others alone. -/
theorem rows_dispatchedAll_taskRuns (h : w.FreshAttempts C) (hn : (batch.map Task.id).Nodup) :
    (w.dispatchedAll C batch).taskRuns.rows =
      w.taskRuns.rows ++ openedRuns C w (w.drawn .pump) batch := by
  induction batch generalizing w with
  | nil => simp [dispatchedAll, openedRuns]
  | cons t batch ih =>
    rw [List.map_cons, List.nodup_cons] at hn
    have hrest : ∀ v ∈ batch, (w.dispatched C t).listByTask v.id = w.listByTask v.id :=
      fun v hv => listByTask_dispatched_ne h fun he => hn.1 (he ▸ List.mem_map_of_mem hv)
    have hfold : w.dispatchedAll C (t :: batch) = (w.dispatched C t).dispatchedAll C batch := rfl
    rw [hfold, ih (h.dispatched t) hn.2, dispatched_taskRuns_rows h, openedRuns_congr hrest,
      dispatched_drawn_pump, List.append_assoc]
    rfl

theorem Listed.has {t : Task} (h : w.Listed t) : ∃ u ∈ w.tasks, u.id = t.id := by
  obtain ⟨u, hu, hsame, _⟩ := h
  exact ⟨u, hu, hsame.id⟩

/-- A pump starts the tasks of its batch and leaves the others alone. -/
theorem rows_dispatchedAll_tasks (hl : ∀ t ∈ batch, w.Listed t) (hn : (batch.map Task.id).Nodup) :
    (w.dispatchedAll C batch).tasks.rows = w.tasks.rows.map (startedTask batch) := by
  induction batch generalizing w with
  | nil => exact (List.map_id _).symm
  | cons t batch ih =>
    rw [List.map_cons, List.nodup_cons] at hn
    obtain ⟨u, hu, hid⟩ := (hl t List.mem_cons_self).has
    have hl' : ∀ v ∈ batch, (w.dispatched C t).Listed v := fun v hv =>
      (hl v (List.mem_cons_of_mem _ hv)).dispatched fun he => hn.1 (he ▸ List.mem_map_of_mem hv)
    have hfold : w.dispatchedAll C (t :: batch) = (w.dispatched C t).dispatchedAll C batch := rfl
    have hkey : u.id = ({ t with status := .running } : Task).id := hid
    rw [hfold, ih hl' hn.2, dispatched_tasks, Table.rows_save_of_mem hu hkey, List.map_map]
    apply List.map_congr_left
    intro v _
    simp only [Function.comp_apply, startedTask, List.find?_cons]
    by_cases he : v.id = t.id
    · -- the started task is not in the rest of the batch
      have hrest : (batch.find? fun x => x.id = t.id) = none := by
        rw [List.find?_eq_none]
        intro x hx hxt
        exact hn.1 (of_decide_eq_true hxt ▸ List.mem_map_of_mem hx)
      simp [he, hrest]
    · have he' : ¬ t.id = v.id := Ne.symm he
      simp [he, he']

/-- The stored tasks that are ready. -/
def readyNow (w : World) : List Task :=
  w.tasks.rows.filter fun t => isReady t (w.listByDagRun t.dagRunId)

theorem mem_readyNow {t : Task} :
    t ∈ w.readyNow ↔ t ∈ w.tasks ∧ isReady t (w.listByDagRun t.dagRunId) = true :=
  List.mem_filter

/-- The batch of an unlimited pump: the tasks that are ready and pending. -/
theorem batch_none_perm (C : Config) (w : World) : (w.batch C none).Perm
    ((w.readyNow.filter fun t => t.status = .pending).map (Store.pendingView C.backend)) := by
  have hlisting := Store.pending_perm C.backend w.toStore
  refine (hlisting.filter fun t => isReady t (w.listByDagRun t.dagRunId)).trans (.of_eq ?_)
  rw [List.filter_map, readyNow, List.filter_filter, List.filter_filter]
  congr 1
  apply List.filter_congr
  intro t _
  simp only [Function.comp_apply, isReady_pendingView, Bool.and_comm,
    ← (Store.pendingView_same C.backend t).run]

theorem batch_none_ids (C : Config) (w : World) : ((w.batch C none).map Task.id).Perm
    ((w.readyNow.filter fun t => t.status = .pending).map Task.id) := by
  have hview : Task.id ∘ Store.pendingView C.backend = Task.id :=
    funext fun t => (Store.pendingView_same C.backend t).id.symm
  have hids := (batch_none_perm C w).map Task.id
  rwa [List.map_map, hview] at hids

end World

/-- What a pump returned and wrote, when it dispatched exactly the ready tasks. -/
structure DispatchedExactly (C : Config) (w : World) (ready : List ReadyTask) (w' : World) :
    Prop where
  returned : (ready.map ReadyTask.taskId).Perm (w.readyNow.map Task.id)
  describes : ∀ r ∈ ready, ∃ t ∈ w.readyNow, r = readyTask t r.taskRunId
  opened : ∃ opened : List TaskRun, w'.taskRuns.rows = w.taskRuns.rows ++ opened ∧
    opened.map (fun a => (a.taskId, a.id)) = ready.map (fun r => (r.taskId, r.taskRunId)) ∧
    ∀ a ∈ opened, a.status = .running ∧ a.attemptNo.toInt = (w.attemptsOf a.taskId).length
  started : w'.tasks.rows = w.tasks.rows.map fun t =>
    if isReady t (w.listByDagRun t.dagRunId) then
      { Store.pendingView C.backend t with status := .running }
    else t

variable {C : Config} {w : World}

theorem readyTasks_taskId (k : ℕ) (batch : List Task) :
    (readyTasks C k batch).map ReadyTask.taskId = batch.map Task.id := by
  induction batch generalizing k with
  | nil => rfl
  | cons t batch ih => rw [readyTasks, List.map_cons, List.map_cons, ih, readyTask]

/-- Ready tasks and opened attempts name each other. -/
theorem openedRuns_ids (k : ℕ) (batch : List Task) :
    (openedRuns C w k batch).map (fun a => (a.taskId, a.id)) =
      (readyTasks C k batch).map fun r => (r.taskId, r.taskRunId) := by
  induction batch generalizing k with
  | nil => rfl
  | cons t batch ih => rw [openedRuns, readyTasks, List.map_cons, List.map_cons, ih]; rfl

theorem mem_openedRuns {k : ℕ} {batch : List Task} {a : TaskRun} (ha : a ∈ openedRuns C w k batch) :
    ∃ t ∈ batch, ∃ id, a = openedRun t id (w.listByTask t.id) := by
  induction batch generalizing k with
  | nil => exact absurd ha List.not_mem_nil
  | cons t batch ih =>
    rcases List.mem_cons.mp ha with rfl | ha
    · exact ⟨t, List.mem_cons_self, _, rfl⟩
    · obtain ⟨v, hv, he⟩ := ih ha
      exact ⟨v, List.mem_cons_of_mem _ hv, he⟩

theorem mem_batch_none {v : Task} (hv : v ∈ w.batch C none) :
    ∃ t ∈ w.readyNow, v = Store.pendingView C.backend t := by
  obtain ⟨t, ht, rfl⟩ := List.mem_map.mp ((World.batch_none_perm C w).subset hv)
  exact ⟨t, List.mem_of_mem_filter ht, rfl⟩

/-- When the ready tasks are all pending, the batch has each of them as it is listed. -/
theorem startedTask_batch (hp : ∀ t ∈ w.readyNow, t.status = .pending) {t : Task}
    (ht : t ∈ w.tasks) : startedTask (w.batch C none) t =
      if isReady t (w.listByDagRun t.dagRunId) then
        { Store.pendingView C.backend t with status := .running }
      else t := by
  have hown : ∀ v ∈ w.batch C none, v.id = t.id →
      t ∈ w.readyNow ∧ v = Store.pendingView C.backend t := by
    intro v hv hid
    obtain ⟨u, hu, rfl⟩ := mem_batch_none hv
    obtain rfl : u = t := Table.eq_of_key (World.mem_readyNow.mp hu).1 ht
      ((Store.pendingView_same _ u).id.trans hid)
    exact ⟨hu, rfl⟩
  unfold startedTask
  cases hfind : (w.batch C none).find? fun v => v.id = t.id with
  | some v =>
    have hid : v.id = t.id := by simpa using List.find?_some hfind
    obtain ⟨hready, rfl⟩ := hown v (List.mem_of_find?_eq_some hfind) hid
    rw [if_pos (World.mem_readyNow.mp hready).2]
  | none =>
    rw [if_neg]
    intro hready
    have hmem : t ∈ w.readyNow.filter fun t => t.status = .pending := by
      have hnow := World.mem_readyNow.mpr ⟨ht, hready⟩
      exact List.mem_filter.mpr ⟨hnow, by simpa using hp t hnow⟩
    have hbatch := (World.batch_none_perm C w).symm.subset (List.mem_map_of_mem hmem)
    exact List.find?_eq_none.mp hfind _ hbatch (by simp [← (Store.pendingView_same C.backend t).id])

namespace DispatchedExactly

variable {k : ℕ} {w' : World} {t : Task}

/-- The listing of pending tasks has as many tasks as are ready, so all of them. -/
theorem pending (h : DispatchedExactly C w (readyTasks C k (w.batch C none)) w')
    (ht : t ∈ w.readyNow) : t.status = .pending := by
  have hreturned := h.returned
  rw [readyTasks_taskId] at hreturned
  have hall := ((World.batch_none_ids C w).symm.trans hreturned).length_eq
  rw [List.length_map, List.length_map, List.length_filter_eq_length_iff] at hall
  simpa using hall t ht

/-- The number of the attempt that was opened fits an `i32`. -/
theorem attempts_lt {ready : List ReadyTask} (h : DispatchedExactly C w ready w')
    (ht : t ∈ w.readyNow) : (w.attemptsOf t.id).length < 2 ^ 31 := by
  obtain ⟨opened, -, hpairs, hnumbers⟩ := h.opened
  have htasks := congrArg (List.map Prod.fst) hpairs
  rw [List.map_map, List.map_map] at htasks
  have hmem : t.id ∈ opened.map TaskRun.taskId := by
    rw [show opened.map TaskRun.taskId = _ from htasks]
    exact h.returned.symm.subset (List.mem_map_of_mem ht)
  obtain ⟨a, ha, hat⟩ := List.mem_map.mp hmem
  have hnumber := (hnumbers a ha).2
  have hlt := a.attemptNo.toInt_lt
  rw [hat] at hnumber
  omega

/-- A pump that lists every ready task dispatches them. -/
theorem of_pending (hfresh : w.FreshAttempts C) (hp : ∀ t ∈ w.readyNow, t.status = .pending)
    (hshort : ∀ t ∈ w.readyNow, (w.attemptsOf t.id).length < 2 ^ 31) :
    DispatchedExactly C w (readyTasks C (w.drawn .pump) (w.batch C none))
      (w.dispatchedAll C (w.batch C none)) := by
  have hlisted : ∀ t ∈ w.batch C none, w.Listed t := fun t ht =>
    listed_of_mem_listed w (List.mem_filter.mp ht).1
  have hnodup : ((w.batch C none).map Task.id).Nodup :=
    (Store.nodup_listed _ _ _).sublist (List.filter_sublist.map _)
  exact {
    returned := by
      have hids := World.batch_none_ids C w
      rw [List.filter_eq_self.mpr fun t ht => by simpa using hp t ht] at hids
      rwa [readyTasks_taskId]
    describes := by
      intro r hr
      obtain ⟨v, hv, n, -, -, rfl⟩ := mem_readyTasks hr
      obtain ⟨t, ht, rfl⟩ := mem_batch_none hv
      exact ⟨t, ht, by cases C.backend <;> rfl⟩
    opened := by
      refine ⟨_, World.rows_dispatchedAll_taskRuns hfresh hnodup, openedRuns_ids _ _, ?_⟩
      intro a ha
      obtain ⟨v, hv, id, rfl⟩ := mem_openedRuns ha
      obtain ⟨t, ht, rfl⟩ := mem_batch_none hv
      have hlt := hshort t ht
      rw [(Store.pendingView_same C.backend t).id] at hlt
      refine ⟨rfl, ?_⟩
      rw [openedRun, Store.listByTask_length, Int32.toInt_ofNat_of_lt hlt]
    started := by
      rw [World.rows_dispatchedAll_tasks hlisted hnodup]
      exact List.map_congr_left fun t ht => startedTask_batch hp ht }

end DispatchedExactly

/-- An unlimited pump dispatches exactly the ready tasks if and only if each of them is
pending, not `Ready`, and its attempts can be counted in an `i32`. -/
theorem dispatchedExactly_iff (C : Config) (w : World) (hfresh : w.FreshAttempts C) :
    DispatchedExactly C w (returned ((scheduleReadyTasks none).run (exec C .pump) w).1)
        ((scheduleReadyTasks none).run (exec C .pump) w).2 ↔
      ∀ t ∈ w.tasks, isReady t (w.listByDagRun t.dagRunId) = true →
        t.status = .pending ∧ (w.attemptsOf t.id).length < 2 ^ 31 := by
  rw [returned_scheduleReadyTasks, run_scheduleReadyTasks]
  constructor
  · intro h t ht hready
    have hnow := World.mem_readyNow.mpr ⟨ht, hready⟩
    exact ⟨h.pending hnow, h.attempts_lt hnow⟩
  · intro h
    have hnow : ∀ t ∈ w.readyNow, t.status = .pending ∧ (w.attemptsOf t.id).length < 2 ^ 31 := by
      intro t ht
      obtain ⟨hmem, hready⟩ := World.mem_readyNow.mp ht
      exact h t hmem hready
    exact .of_pending hfresh (fun t ht => (hnow t ht).1) fun t ht => (hnow t ht).2

/-- In a run of the system the next identifiers are fresh. -/
theorem World.Inv.freshAttempts (h : w.Inv C) : w.FreshAttempts C := by
  rintro k hk ⟨a, ha, hid⟩
  obtain ⟨i, k', hk', hdrawn⟩ := h.attemptDrawn a ha
  obtain ⟨rfl, rfl⟩ := C.ids.inj (hdrawn.symm.trans (congrArg TaskRunId.uuid hid))
  omega

theorem dispatchedExactly_iff_created :
    DispatchedExactly (.paired 3) createdOnce
        (returned ((scheduleReadyTasks none).run (exec (.paired 3) .pump) createdOnce).1)
        ((scheduleReadyTasks none).run (exec (.paired 3) .pump) createdOnce).2 ↔
      ∀ t ∈ createdOnce.tasks, isReady t (createdOnce.listByDagRun t.dagRunId) = true →
        t.status = .pending ∧ (createdOnce.attemptsOf t.id).length < 2 ^ 31 :=
  dispatchedExactly_iff _ _ createdOnce_reachable.sound.inv.freshAttempts

/-- An extractor with the status `Ready`. -/
def readyExtractor : Task where
  id := ⟨7⟩
  dagRunId := ⟨6⟩
  tenantId := ⟨0⟩
  kind := "extractor"
  status := .ready
  payload := .null
  result := none
  maxAttempts := none
  retryPolicy := "never"
  retryParams := .object []
  priority := 0
  executionPolicyOverride := none

def readyStored : World := { World.empty with tasks := Table.empty.save readyExtractor }

/-- The extractor is ready and is not listed. -/
theorem ready_task_not_dispatched : ¬ ∀ (C : Config) (w : World), w.FreshAttempts C →
    DispatchedExactly C w (returned ((scheduleReadyTasks none).run (exec C .pump) w).1)
      ((scheduleReadyTasks none).run (exec C .pump) w).2 := by
  intro h
  have hfresh : readyStored.FreshAttempts (.paired 3) := fun k _ => Table.not_has_empty _
  exact absurd (h (.paired 3) readyStored hfresh).returned.length_eq (by decide)

end Contexide.Workflow
