import Contexide.Workflow.Agreement
import Contexide.Workflow.Outcome.StatusStopped

/-! A status that is delivered again after its handling failed half-way. The
attempt is saved first, and once it is terminal the handler does nothing more:
whatever the failed delivery did not save is never saved. The second delivery
completes the first one only when nothing had been saved, or when nothing was
left to save. -/

namespace Contexide.Workflow

open Effects Storage Scheduler World

def Task.renamed (σ : TaskId → TaskId) (t : Task) : Task := { t with id := σ t.id }

/-- The stores of two worlds that both follow `w` agree, up to the identifiers
of the tasks that are not in `w`. -/
def SameUpToFresh (w w₁ w₂ : World) : Prop :=
  w₁.dagRuns.rows.Perm w₂.dagRuns.rows ∧ w₁.taskRuns.rows.Perm w₂.taskRuns.rows ∧
    ∃ σ : TaskId → TaskId, Function.Injective σ ∧ (∀ t ∈ w.tasks, σ t.id = t.id) ∧
      (w₁.tasks.rows.map (Task.renamed σ)).Perm w₂.tasks.rows

/-- The handler gets to the aggregate: a success for a task that is not stored
returns before. -/
def ReachesAggregate (w : World) : WorkerStatus → Prop
  | .success _ _ t _ _ => w.tasks.Has t
  | .failed .. => True

/-- The statuses of the tasks of the run when the named task is settled and the
fanned-out ones are pending. -/
def WorkerStatus.statusesAfter (C : Config) (m : WorkerStatus) (w : World) : List TaskStatus :=
  ((w.listByDagRun m.dagRunId).map fun t =>
    if t.id = m.taskId then (m.settledTask C t (w.listByTask m.taskId).length).status
    else t.status) ++
  if (w.tasks.get m.taskId).isSome then List.replicate (m.chunkSets C).length .pending else []

/-- From the call with index `n` on no task is saved, or the only one is saved as
it is stored. -/
def TasksKept (C : Config) (m : WorkerStatus) (n : ℕ) (w : World) : Prop :=
  ∀ u ∈ w.tasks, u.id = m.taskId → m.taskCall + (m.chunkSets C).length < n ∨
    m.chunkSets C = [] ∧ m.settledTask C u (w.listByTask m.taskId).length = u

/-- The run has the status of its tasks after the message already. -/
def RunKept (C : Config) (m : WorkerStatus) (w : World) : Prop :=
  ∀ x ∈ w.dagRuns, x.id = m.dagRunId → ReachesAggregate w m →
    dagStatusFromTasks (m.statusesAfter C w) = x.status

variable {C : Config} {m : WorkerStatus} {w w' w₁ w₂ : World} {a : TaskRun} {u : Task} {n N : ℕ}

namespace SameUpToFresh

theorem of_stores (h : w₁.toStore = w₂.toStore) : SameUpToFresh w w₁ w₂ := by
  refine ⟨by rw [h], by rw [h], id, Function.injective_id, fun _ _ => rfl, ?_⟩
  rw [h]
  exact .of_eq (List.map_id _)

theorem length (h : SameUpToFresh w w₁ w₂) :
    w₁.tasks.rows.length = w₂.tasks.rows.length := by
  obtain ⟨_, _, σ, _, _, hp⟩ := h
  rw [← hp.length_eq, List.length_map]

/-- A task from before is the same in both. -/
theorem mem (h : SameUpToFresh w w₁ w₂) {t : Task} (ht : t ∈ w.tasks) (h₁ : t ∈ w₁.tasks) :
    t ∈ w₂.tasks := by
  obtain ⟨_, _, σ, _, hσ, hp⟩ := h
  have hmem := hp.subset (List.mem_map_of_mem h₁)
  rwa [show t.renamed σ = t by rw [Task.renamed, hσ t ht]] at hmem

end SameUpToFresh

/-! ### The stores after a failure -/

namespace World

/-- When no task is left to save, a failure leaves the stores with all tasks saved. -/
theorem stopped_eq_of_kept {i : Proc} (hkept : TasksKept C m n w)
    (hN : m.taskCall + (m.chunkSets C).length < N) :
    (w.stopped C i m n).toStore = (w.stopped C i m N).toStore := by
  cases hu : w.tasks.get m.taskId with
  | none => rw [stopped_none hu, stopped_none hu]
  | some u =>
    obtain ⟨hmem, hid⟩ := Table.get_eq_some.mp hu
    rcases hkept u hmem hid with hn | ⟨hsets, hsame⟩
    · rw [stopped_of_lt hu hn, stopped_of_lt hu hN]
    · have hall : ∀ k, m.taskCall < k → (w.stopped C i m k).toStore = w.toStore := fun k hk => by
        rw [stopped_of_lt hu (by simpa [hsets] using hk), hsame, hsets]
        simp [embedTasks, putTask, Table.save_of_mem hmem]
      rw [hall N (by omega)]
      by_cases hn : n ≤ m.taskCall
      · rw [stopped_le hn]
      · exact hall n (by omega)

theorem statuses_save {v : Task} (hu : u ∈ w.tasks) (hsame : SameTask u v) (d : DagRunId) :
    ((w.tasks.save v).rows.filter fun t => t.dagRunId = d).map Task.status =
      (w.listByDagRun d).map fun t => if t.id = u.id then v.status else t.status := by
  rw [Table.rows_save_of_mem hu hsame.id, List.filter_map, List.map_map, Store.listByDagRun,
    List.filter_congr fun t ht => ?_]
  · refine List.map_congr_left fun t _ => ?_
    rw [Function.comp_apply, ← hsame.id]
    split <;> rfl
  · rw [Function.comp_apply]
    split
    · next he => rw [Table.eq_of_key ht hu (he.trans hsame.id.symm), hsame.run]
    · rfl

/-- The aggregate with all tasks saved, from the stores before. -/
theorem aggregate_stopped {i : Proc} (hN : m.taskCall + (m.chunkSets C).length < N)
    (hfresh : ∀ k, w.drawn i ≤ k → ¬ w.tasks.Has ⟨C.ids.uuid i k⟩) :
    (w.stopped C i m N).aggregate m.dagRunId = dagStatusFromTasks (m.statusesAfter C w) := by
  rw [Store.aggregate, WorkerStatus.statusesAfter]
  congr 1
  cases hu : w.tasks.get m.taskId with
  | none =>
    rw [stopped_none hu, Option.isSome_none, if_neg Bool.false_ne_true, List.append_nil]
    refine List.map_congr_left fun t ht => (if_neg fun he => ?_).symm
    exact Table.get_eq_none.mp hu ⟨t, (List.mem_filter.mp ht).1, he⟩
  | some u =>
    obtain ⟨hmem, hid⟩ := Table.get_eq_some.mp hu
    obtain ⟨k, rfl⟩ : ∃ k, N = k + (m.taskCall + 1) := ⟨N - (m.taskCall + 1), by omega⟩
    have hlen := length_embedTasks C i m.dagRunId u.tenantId (w.drawn i) (m.chunkSets C)
    rw [Store.listByDagRun, rows_stopped hu hfresh, List.take_of_length_le (by omega),
      List.filter_append, List.map_append, statuses_save hmem (m.settledTask_same C u _), hid]
    congr 1
    · refine List.map_congr_left fun t ht => ?_
      split
      · next he => rw [Table.eq_of_key (List.mem_filter.mp ht).1 hmem (he.trans hid.symm)]
      · rfl
    · rw [Option.isSome_some, if_pos rfl, List.filter_eq_self.mpr fun t ht => by
        simp [(mem_embedTasks ht).1], List.eq_replicate_iff, List.length_map, hlen]
      refine ⟨rfl, fun s hs => ?_⟩
      obtain ⟨t, ht, rfl⟩ := List.mem_map.mp hs
      exact (mem_embedTasks ht).2.2.2.1

/-! ### The saved attempt -/

theorem length_listByTask_putTaskRun (ha : a ∈ w.taskRuns) (t : TaskId) :
    ((w.putTaskRun (m.settledRun a)).listByTask t).length = (w.listByTask t).length := by
  rw [Store.listByTask_length, Store.listByTask_length]
  have h := Table.map_filter_rows_save (v := m.settledRun a) (p := fun r => r.taskId = t)
    (g := TaskRun.taskId) ha (m.settledRun_id a).symm (by simp) (by simp)
  have hlen := congrArg List.length h
  rwa [List.length_map, List.length_map] at hlen

theorem tasksKept_putTaskRun (ha : a ∈ w.taskRuns) :
    TasksKept C m n (w.putTaskRun (m.settledRun a)) ↔ TasksKept C m n w := by
  simp only [TasksKept, length_listByTask_putTaskRun ha, putTaskRun_tasks]

theorem statusesAfter_putTaskRun (ha : a ∈ w.taskRuns) :
    m.statusesAfter C (w.putTaskRun (m.settledRun a)) = m.statusesAfter C w := by
  simp only [WorkerStatus.statusesAfter, length_listByTask_putTaskRun ha, putTaskRun_tasks,
    listByDagRun_putTaskRun]
  rfl

theorem runKept_putTaskRun (ha : a ∈ w.taskRuns) :
    RunKept C m (w.putTaskRun (m.settledRun a)) ↔ RunKept C m w := by
  simp only [RunKept, statusesAfter_putTaskRun ha, putTaskRun_dagRuns]
  cases m <;> rfl

/-- The handler settles a running attempt, saves the tasks, and computes the run
again unless it returned before. -/
theorem handled_of_running (i : Proc) (ha : w.taskRuns.get m.taskRunId = some a)
    (hrun : a.status.isTerminal = false) (hN : m.taskCall + (m.chunkSets C).length < N) :
    ¬ ReachesAggregate w m ∧ w.handled C i m = (w.putTaskRun (m.settledRun a)).stopped C i m N ∨
    ReachesAggregate w m ∧ w.handled C i m =
      ((w.putTaskRun (m.settledRun a)).stopped C i m N).recomputed m.dagRunId := by
  simp only [handled, ha, hrun, Bool.false_eq_true, ↓reduceIte]
  cases hu : w.tasks.get m.taskId with
  | none =>
    rw [stopped_none (w := w.putTaskRun _) hu]
    cases m with
    | success => exact .inl ⟨Table.get_eq_none.mp hu, rfl⟩
    | failed => exact .inr ⟨trivial, rfl⟩
  | some u =>
    have hhas : w.tasks.Has m.taskId := ⟨u, Table.get_eq_some.mp hu⟩
    rw [stopped_of_lt (w := w.putTaskRun _) hu hN]
    refine .inr ⟨?_, rfl⟩
    cases m with
    | success => exact hhas
    | failed => trivial

end World

/-! ### What the stores show -/

theorem tasksKept_of_same (hfresh : ∀ k, w.drawn .status ≤ k → ¬ w.tasks.Has ⟨C.ids.uuid .status k⟩)
    (hN : m.taskCall + (m.chunkSets C).length < N)
    (hlen : (w.stopped C .status m n).tasks.rows.length =
      (w.stopped C .status m N).tasks.rows.length)
    (hmem : ∀ t ∈ w.tasks, t ∈ (w.stopped C .status m n).tasks →
      t ∈ (w.stopped C .status m N).tasks) : TasksKept C m n w := by
  intro u hu hid
  by_contra hnot
  have hget : w.tasks.get m.taskId = some u := hid ▸ Table.get_of_mem hu
  have hsave : ∀ v, v.id = u.id → (w.tasks.save v).rows.length = w.tasks.rows.length := by
    intro v hv
    rw [Table.rows_save_of_mem hu hv.symm, List.length_map]
  have hsame := m.settledTask_same C u (w.listByTask m.taskId).length
  have hnew := length_embedTasks C .status m.dagRunId u.tenantId (w.drawn .status) (m.chunkSets C)
  obtain ⟨k, rfl⟩ : ∃ k, N = k + (m.taskCall + 1) := ⟨N - (m.taskCall + 1), by omega⟩
  have hrows := rows_stopped hget hfresh k
  rw [List.take_of_length_le (by omega)] at hrows
  rw [hrows, List.length_append, hsave _ hsame.id.symm, hnew] at hlen
  by_cases hn : n ≤ m.taskCall
  · rw [stopped_le hn] at hlen hmem
    have hsets : m.chunkSets C = [] := List.eq_nil_of_length_eq_zero (by omega)
    have hu' := hmem u hu hu
    rw [Table.mem_def, hrows, hsets, embedTasks, List.append_nil] at hu'
    exact hnot (.inr ⟨hsets, (Table.eq_of_mem_save hu' hsame.id).symm⟩)
  · obtain ⟨j, rfl⟩ : ∃ j, n = j + (m.taskCall + 1) := ⟨n - (m.taskCall + 1), by omega⟩
    rw [rows_stopped hget hfresh, List.length_append, hsave _ hsame.id.symm, List.length_take,
      hnew] at hlen
    exact hnot (.inl (by omega))

theorem runKept_of_same (hfresh : ∀ k, w.drawn .status ≤ k → ¬ w.tasks.Has ⟨C.ids.uuid .status k⟩)
    (hN : m.taskCall + (m.chunkSets C).length < N)
    (hmem : ∀ x ∈ w.dagRuns,
      x ∈ ((w.stopped C .status m N).recomputed m.dagRunId).dagRuns) :
    ∀ x ∈ w.dagRuns, x.id = m.dagRunId →
      dagStatusFromTasks (m.statusesAfter C w) = x.status := by
  intro x hx hid
  have hx' := hmem x hx
  rw [← hid, recomputed_dagRuns (by rwa [stopped_dagRuns]), stopped_dagRuns] at hx'
  have heq := congrArg DagRun.status (Table.eq_of_mem_save hx' rfl)
  rw [← aggregate_stopped hN hfresh, ← hid]
  exact heq.symm

/-- The stores that a failure after the attempt's save leaves are the final ones
exactly when nothing was left to save. -/
theorem same_stopped_iff
    (hfresh : ∀ k, w.drawn .status ≤ k → ¬ w.tasks.Has ⟨C.ids.uuid .status k⟩)
    (hN : m.taskCall + (m.chunkSets C).length < N)
    (hw' : ¬ ReachesAggregate w m ∧ w' = w.stopped C .status m N ∨
      ReachesAggregate w m ∧ w' = (w.stopped C .status m N).recomputed m.dagRunId) :
    SameUpToFresh w (w.stopped C .status m n) w' ↔ TasksKept C m n w ∧ RunKept C m w := by
  have htasks : w'.tasks = (w.stopped C .status m N).tasks := by
    rcases hw' with ⟨_, rfl⟩ | ⟨_, rfl⟩ <;> simp
  constructor
  · intro h
    refine ⟨tasksKept_of_same hfresh hN (htasks ▸ h.length) fun t ht ht' => ?_, ?_⟩
    · exact htasks ▸ h.mem ht ht'
    intro x hx hid hreach
    rcases hw' with ⟨hno, _⟩ | ⟨_, rfl⟩
    · exact absurd hreach hno
    · exact runKept_of_same hfresh hN (fun x hx => h.1.subset (by rwa [stopped_dagRuns])) x hx hid
  · rintro ⟨htk, hrk⟩
    refine .of_stores ((stopped_eq_of_kept htk hN).trans ?_)
    rcases hw' with ⟨_, rfl⟩ | ⟨hreach, rfl⟩
    · rfl
    · rw [recomputed_of_aggregate fun x hx hid => ?_]
      rw [stopped_dagRuns] at hx
      rw [aggregate_stopped hN hfresh]
      exact hrk x hx hid hreach

/-! ### Statuses that echo their ids -/

/-- Whether the run stays open after the message: the failure is retried, or the
success fans out or leaves another task open. -/
def StaysOpen (C : Config) (w : World) : WorkerStatus → Prop
  | .success _ d t _ output => chunkSetsOf C output ≠ [] ∨
      ∃ v ∈ w.tasks, v.dagRunId = d ∧ v.id ≠ t ∧ v.status.isDone = false
  | .failed _ _ t _ _ _ => C.retryPolicy.shouldRetry (UInt32.ofNat (w.listByTask t).length) = true

/-- A status after the message is that of the named task, of another task, or of a new one. -/
theorem mem_statusesAfter_iff {s : TaskStatus} :
    s ∈ m.statusesAfter C w ↔
      (∃ u ∈ w.tasks, u.dagRunId = m.dagRunId ∧ u.id = m.taskId ∧
        (m.settledTask C u (w.listByTask m.taskId).length).status = s) ∨
        (∃ v ∈ w.tasks, v.dagRunId = m.dagRunId ∧ v.id ≠ m.taskId ∧ v.status = s) ∨
        s = .pending ∧ m.chunkSets C ≠ [] ∧ w.tasks.Has m.taskId := by
  have hnew : s ∈ (if (w.tasks.get m.taskId).isSome then
      List.replicate (m.chunkSets C).length TaskStatus.pending else []) ↔
      s = .pending ∧ m.chunkSets C ≠ [] ∧ w.tasks.Has m.taskId := by
    by_cases hhas : w.tasks.Has m.taskId
    · rw [if_pos (Table.isSome_get.mpr hhas), List.mem_replicate, Ne, List.length_eq_zero_iff]
      tauto
    · rw [if_neg (mt Table.isSome_get.mp hhas)]
      simp [hhas]
  rw [WorkerStatus.statusesAfter, List.mem_append, hnew, List.mem_map, ← or_assoc]
  refine or_congr_left ⟨?_, ?_⟩
  · rintro ⟨v, hv, rfl⟩
    obtain ⟨hv, hvd⟩ := Store.mem_listByDagRun.mp hv
    split
    · next he => exact .inl ⟨v, hv, hvd, he, rfl⟩
    · next he => exact .inr ⟨v, hv, hvd, he, rfl⟩
  · rintro (⟨u, hu, hud, he, rfl⟩ | ⟨v, hv, hvd, he, rfl⟩)
    · exact ⟨u, Store.mem_listByDagRun.mpr ⟨hu, hud⟩, if_pos he⟩
    · exact ⟨v, Store.mem_listByDagRun.mpr ⟨hv, hvd⟩, if_neg he⟩

theorem mem_statusesAfter {x : DagRun} (hd : Delivery m w a u x) {s : TaskStatus} :
    s ∈ m.statusesAfter C w ↔
      s = (m.settledTask C u (w.listByTask m.taskId).length).status ∨
        (∃ v ∈ w.tasks, v.dagRunId = m.dagRunId ∧ v.id ≠ m.taskId ∧ v.status = s) ∨
        s = .pending ∧ m.chunkSets C ≠ [] := by
  have hhas : w.tasks.Has m.taskId := ⟨u, hd.task, hd.taskId⟩
  have hnamed : (∃ v ∈ w.tasks, v.dagRunId = m.dagRunId ∧ v.id = m.taskId ∧
      (m.settledTask C v (w.listByTask m.taskId).length).status = s) ↔
      s = (m.settledTask C u (w.listByTask m.taskId).length).status := by
    constructor
    · rintro ⟨v, hv, _, he, rfl⟩
      rw [Table.eq_of_key hv hd.task (he.trans hd.taskId.symm)]
    · rintro rfl
      exact ⟨u, hd.task, hd.ofRun.trans hd.dagRunId, hd.taskId, rfl⟩
  rw [mem_statusesAfter_iff, hnamed, and_iff_left hhas]

/-- In a run without failed tasks the settled task decides. -/
theorem running_after_iff {x : DagRun} (hd : Delivery m w a u x)
    (hnofail : ∀ v ∈ w.tasks, v.dagRunId = m.dagRunId → v.status ≠ .failed) :
    dagStatusFromTasks (m.statusesAfter C w) = .running ↔ StaysOpen C w m := by
  rw [dagStatusFromTasks_eq_running_iff]
  simp only [mem_statusesAfter hd]
  cases m with
  | success tenant d t r output =>
    constructor
    · rintro ⟨_, s, rfl | ⟨v, hv, hvd, hne, rfl⟩ | ⟨_, hsets⟩, hs⟩
      · exact absurd hs (by simp [WorkerStatus.settledTask, TaskStatus.isDone])
      · exact .inr ⟨v, hv, hvd, hne, hs⟩
      · exact .inl hsets
    · intro h
      refine ⟨?_, ?_⟩
      · rintro (hs | ⟨v, hv, hvd, _, hs⟩ | ⟨hs, _⟩)
        · exact absurd hs (by simp [WorkerStatus.settledTask])
        · exact hnofail v hv hvd hs
        · exact absurd hs (by simp)
      · rcases h with hsets | ⟨v, hv, hvd, hne, hs⟩
        · exact ⟨.pending, .inr (.inr ⟨rfl, hsets⟩), rfl⟩
        · exact ⟨v.status, .inr (.inl ⟨v, hv, hvd, hne, rfl⟩), hs⟩
  | failed tenant d t r error errorKind =>
    simp only [WorkerStatus.settledTask, failedTask_status, WorkerStatus.taskId]
    constructor
    · rintro ⟨hf, _⟩
      by_contra hretry
      exact hf (.inl (if_neg hretry).symm)
    · intro hretry
      rw [if_pos (show C.retryPolicy.shouldRetry _ = true from hretry)]
      refine ⟨?_, .pending, .inl rfl, rfl⟩
      rintro (hs | ⟨v, hv, hvd, _, hs⟩ | ⟨hs, _⟩)
      · exact absurd hs (by simp)
      · exact hnofail v hv hvd hs
      · exact absurd hs (by simp)

/-- For a status that echoes a ready task, nothing is left to save exactly when
its tasks are saved and the run has failed before or stays open. -/
theorem Delivery.kept_iff {x : DagRun} (hd : Delivery m w a u x) (hw : w.Reachable C) (n : ℕ) :
    TasksKept C m n w ∧ RunKept C m w ↔
      m.taskCall + (m.chunkSets C).length < n ∧ (x.status = .failed ∨ StaysOpen C w m) := by
  have hreach : ReachesAggregate w m := by
    cases m with
    | success => exact ⟨u, hd.task, hd.taskId⟩
    | failed => trivial
  have htasks : TasksKept C m n w ↔ m.taskCall + (m.chunkSets C).length < n := by
    refine ⟨fun h => (h u hd.task hd.taskId).resolve_right fun hk => ?_, fun h _ _ _ => .inl h⟩
    exact m.settledTask_status_ne C u _ (hk.2.symm ▸ hd.running)
  have hrun : RunKept C m w ↔ dagStatusFromTasks (m.statusesAfter C w) = x.status :=
    ⟨fun h => h x hd.dagRun hd.dagRunId hreach, fun h y hy hid _ => by
      rw [Table.eq_of_key hy hd.dagRun (hid.trans hd.dagRunId.symm), h]⟩
  rw [htasks, hrun]
  refine and_congr_right fun _ => ?_
  have hold : x.status = w.aggregate x.id := (agreement hw x hd.dagRun).aggregate hd.started
  have hne : x.status ≠ .success := fun hs => by
    have := Store.aggregate_eq_success.mp (hold.symm.trans hs) u hd.task hd.ofRun
    rw [hd.running] at this
    exact absurd this (by simp [TaskStatus.isDone])
  by_cases hf : x.status = .failed
  · -- another task has failed, and stays so
    refine iff_of_true ?_ (.inl hf)
    obtain ⟨v, hv, hvd, hvs⟩ := Store.aggregate_eq_failed.mp (hold.symm.trans hf)
    rw [hf, dagStatusFromTasks_eq_failed, mem_statusesAfter hd]
    refine .inr (.inl ⟨v, hv, hvd.trans hd.dagRunId, fun he => ?_, hvs⟩)
    rw [Table.eq_of_key hv hd.task (he.trans hd.taskId.symm), hd.running] at hvs
    exact absurd hvs (by simp)
  · have hnofail : ∀ v ∈ w.tasks, v.dagRunId = m.dagRunId → v.status ≠ .failed := by
      intro v hv hvd hvs
      exact hf (hold.trans (Store.aggregate_eq_failed.mpr ⟨v, hv, hvd.trans hd.dagRunId.symm, hvs⟩))
    have hrunning : x.status = .running := by
      rw [hold] at hf hne ⊢
      exact Store.aggregate_eq_running hf hne
    rw [or_iff_right hf, hrunning]
    exact running_after_iff hd hnofail

/-! ### The second delivery -/

/-- A status that was handled up to its call with index `n` and is delivered
again ends as one delivery does, up to fresh task identifiers, exactly when no
call had saved anything, or nothing was left to save: no task, and no new status
of the run. -/
theorem redelivery_iff (C : Config) (w : World) (hw : w.Reachable C) (m : WorkerStatus)
    (a : TaskRun) (ha : a ∈ w.taskRuns) (hid : a.id = m.taskRunId)
    (hrun : a.status.isTerminal = false) (n : ℕ) (w' : World)
    (hstop : Program.stopAt (exec C .status) Op.fallible n (handleWorkerStatus C m) w =
      (none, w')) :
    SameUpToFresh w ((handleWorkerStatus C m).run (exec C .status) w').2
        ((handleWorkerStatus C m).run (exec C .status) w).2 ↔
      n ≤ 1 ∨ TasksKept C m n w ∧ RunKept C m w := by
  have hget : w.taskRuns.get m.taskRunId = some a := hid ▸ Table.get_of_mem ha
  simp only [run_handleWorkerStatus]
  by_cases hn : n ≤ 1
  · have hw' := stopAt_handleWorkerStatus_le C .status w hget hrun hn
    rw [hstop] at hw'
    exact iff_of_true (.of_stores (by rw [show w' = w from hw'])) (.inl hn)
  obtain ⟨k, rfl⟩ : ∃ k, n = k + 2 := ⟨n - 2, by omega⟩
  rw [stopAt_handleWorkerStatus C .status w hget hrun k] at hstop
  have hw' := stopAt_afterAttempt C .status _ k (by rw [hstop])
  rw [hstop] at hw'
  obtain rfl : w' = _ := hw'
  -- the attempt is terminal, so the second delivery does nothing
  rw [handled_of_terminal (m := m)
    (w := (w.putTaskRun (m.settledRun a)).stopped C .status m (k + 2)) fun r hr hrid => by
      rw [stopped_taskRuns] at hr
      rw [Table.eq_of_mem_save hr (hrid.trans (by rw [m.settledRun_id, hid]))]
      exact m.settledRun_terminal a]
  rw [← tasksKept_putTaskRun (C := C) (n := k + 2) ha, ← runKept_putTaskRun (C := C) (m := m) ha]
  have hfresh : ∀ k, w.drawn .status ≤ k → ¬ w.tasks.Has ⟨C.ids.uuid .status k⟩ := fun k hk =>
    hw.sound.inv.not_has_of_le .status hk rfl
  have hN := Nat.lt_succ_self (m.taskCall + (m.chunkSets C).length)
  have hreach : ReachesAggregate (w.putTaskRun (m.settledRun a)) m ↔ ReachesAggregate w m := by
    cases m <;> rfl
  refine (same_stopped_iff (w := w.putTaskRun (m.settledRun a)) hfresh hN ?_).trans
    ⟨.inr, fun h => h.resolve_left hn⟩
  rw [hreach]
  exact handled_of_running .status hget hrun hN

/-- The extractor of the run is dispatched: task 7, attempt 0. -/
def dispatchedOnce : World :=
  Action.runAll (.paired 3) [.create 0 ⟨0⟩ "default" .null, .schedule none] World.empty

/-- The success of the extractor. -/
def extractorDone : WorkerStatus := .success ⟨0⟩ ⟨6⟩ ⟨7⟩ ⟨0⟩ none

theorem dispatchedOnce_reachable : dispatchedOnce.Reachable (.paired 3) :=
  World.Reachable.runAll _ (by decide)

/-- The save of the attempt fails; the second delivery is as good as one. -/
theorem redelivery_iff_attempt : ∃ w m n w',
    Program.stopAt (exec (.paired 3) .status) Op.fallible n (handleWorkerStatus (.paired 3) m) w =
      (none, w') ∧
    (SameUpToFresh w ((handleWorkerStatus (.paired 3) m).run (exec (.paired 3) .status) w').2
        ((handleWorkerStatus (.paired 3) m).run (exec (.paired 3) .status) w).2 ↔
      n ≤ 1 ∨ TasksKept (.paired 3) m n w ∧ RunKept (.paired 3) m w) := by
  have ha : ∃ a ∈ dispatchedOnce.taskRuns.rows, a.id = ⟨0⟩ ∧ a.status.isTerminal = false := by
    decide
  obtain ⟨a, ha, hid, hrun⟩ := ha
  have hstop : (Program.stopAt (exec (.paired 3) .status) Op.fallible 1
      (handleWorkerStatus (.paired 3) extractorDone) dispatchedOnce).1 = none := by
    decide
  exact ⟨dispatchedOnce, extractorDone, 1, _, Prod.ext hstop rfl,
    redelivery_iff _ _ dispatchedOnce_reachable extractorDone a ha hid hrun _ _
      (Prod.ext hstop rfl)⟩

/-- The read of the task fails after the attempt is saved: the task stays running
however often its success is delivered again. -/
theorem redelivery_loses_task : ¬ ∀ (w : World) (m : WorkerStatus) (n : ℕ),
    w.Reachable (.paired 3) →
    (∃ a ∈ w.taskRuns, a.id = m.taskRunId ∧ a.status.isTerminal = false) →
    SameUpToFresh w ((handleWorkerStatus (.paired 3) m).run (exec (.paired 3) .status)
        (Program.stopAt (exec (.paired 3) .status) Op.fallible n
          (handleWorkerStatus (.paired 3) m) w).2).2
      ((handleWorkerStatus (.paired 3) m).run (exec (.paired 3) .status) w).2 := by
  intro h
  have ha : ∃ a ∈ dispatchedOnce.taskRuns.rows, a.id = ⟨0⟩ ∧ a.status.isTerminal = false := by
    decide
  obtain ⟨_, _, σ, _, hσ, hp⟩ := h dispatchedOnce extractorDone 2
    dispatchedOnce_reachable ha
  have hstored : ∃ t ∈ dispatchedOnce.tasks.rows, t.id = ⟨7⟩ := by decide
  have hleft : ∃ t ∈ ((handleWorkerStatus (.paired 3) extractorDone).run
      (exec (.paired 3) .status) (Program.stopAt (exec (.paired 3) .status) Op.fallible 2
        (handleWorkerStatus (.paired 3) extractorDone) dispatchedOnce).2).2.tasks.rows,
      t.id = ⟨7⟩ ∧ t.status = .running := by decide
  have hdone : ∀ t ∈ ((handleWorkerStatus (.paired 3) extractorDone).run
      (exec (.paired 3) .status) dispatchedOnce).2.tasks.rows,
      t.id = ⟨7⟩ → t.status = .success := by decide
  obtain ⟨u, hu, huid⟩ := hstored
  obtain ⟨t, ht, htid, hts⟩ := hleft
  have hσt : σ t.id = ⟨7⟩ := by rw [htid, ← huid, hσ u hu]
  have hfinal := hdone _ (hp.subset (List.mem_map_of_mem ht)) hσt
  exact absurd (hts.symm.trans hfinal) (by decide)

end Contexide.Workflow
