import Contexide.Workflow.Agreement

/-! Progress: a run that is not finished has a running attempt or a task that the
next uncapped pump dispatches. The aggregate says that some task is not done, the
ledger that such a task is pending or has a running attempt, and among the tasks
that are not done one of the earliest stage is blocked by nobody. -/

namespace Contexide.Workflow

open Effects Storage Scheduler World

variable {C : Config} {w : World}

/-- Every run has a task. -/
def Peopled (w : World) : Prop := ∀ x ∈ w.dagRuns, ∃ t ∈ w.tasks, t.dagRunId = x.id

theorem peopled_preserved (C : Config) : Preserved C (fun _ _ => True) Peopled where
  created w n tenant profile input hw h := by
    intro x hx
    rw [Table.mem_def, rows_created_dagRuns hw.inv, List.mem_append] at hx
    simp only [Table.mem_def, rows_created_tasks hw.inv, List.mem_append]
    rcases hx with hx | hx
    · obtain ⟨t, ht, hd⟩ := h x hx
      exact ⟨t, .inl ht, hd⟩
    · rw [List.mem_singleton.mp hx]
      exact ⟨_, .inr List.mem_cons_self, rfl⟩
  dispatched w t hw ht _ h := by
    obtain ⟨x, hx, hxid⟩ := hw.inv.run_of_listed ht
    obtain ⟨u, hu, hsame, _⟩ := ht
    intro y hy
    rw [dispatched_dagRuns hx hxid] at hy
    obtain ⟨y', hy', hid⟩ : ∃ y' ∈ w.dagRuns, y'.id = y.id := by
      rcases Table.mem_save.mp hy with rfl | ⟨hy, _⟩
      · exact ⟨x, hx, (startedRun_id x).symm⟩
      · exact ⟨y, hy, rfl⟩
    obtain ⟨v, hv, hvd⟩ := h y' hy'
    by_cases he : v.id = t.id
    · refine ⟨{ t with status := .running }, ?_, ?_⟩
      · rw [dispatched_tasks]
        exact Table.mem_save_self _ _
      · have : v = u := Table.eq_of_key hv hu (he.trans hsame.id.symm)
        exact hsame.run.symm.trans (this ▸ hvd.trans hid)
    · exact ⟨v, (mem_dispatched_of_ne he).mpr hv, hvd.trans hid⟩
  announced _ _ h := h
  delivered w m a u x hw hd _ h := by
    intro y hy
    obtain ⟨y', hy', hid⟩ : ∃ y' ∈ w.dagRuns, y'.id = y.id := by
      rw [hd.dagRuns hw.inv] at hy
      rcases Table.mem_save.mp hy with rfl | ⟨hy, _⟩
      · exact ⟨x, hd.dagRun, rfl⟩
      · exact ⟨y, hy, rfl⟩
    obtain ⟨v, hv, hvd⟩ := h y' hy'
    by_cases he : v.id = u.id
    · have : v = u := Table.eq_of_key hv hd.task he
      exact ⟨_, (hd.mem_tasks hw.inv).mpr (.inl rfl),
        (Delivery.settledTask_same C m w u).run.symm.trans (this ▸ hvd.trans hid)⟩
    · exact ⟨v, (hd.mem_tasks hw.inv).mpr (.inr (.inl ⟨hv, he⟩)), hvd.trans hid⟩

/-- Among the tasks of a run that are not done one has no earlier one. -/
theorem exists_earliest {d : DagRunId}
    (h : ∃ t ∈ w.tasks, t.dagRunId = d ∧ t.status.isDone = false) :
    ∃ t ∈ w.tasks, t.dagRunId = d ∧ t.status.isDone = false ∧
      ∀ s ∈ w.listByDagRun d, orderingForKind s.kind < orderingForKind t.kind →
        s.status.isDone = true := by
  obtain ⟨t, ⟨ht, hd, hn⟩, hmin⟩ := (measure fun t : Task => orderingForKind t.kind).wf.has_min
    {t | t ∈ w.tasks ∧ t.dagRunId = d ∧ t.status.isDone = false} h
  refine ⟨t, ht, hd, hn, fun s hs hlt => ?_⟩
  obtain ⟨hs, hsd⟩ := Store.mem_listByDagRun.mp hs
  by_contra hdone
  exact hmin s ⟨hs, hsd, by simpa using hdone⟩ hlt

/-- A pending task whose earlier stages are done is dispatched by an uncapped pump. -/
theorem mem_batch {t : Task} (ht : t ∈ w.tasks) (hs : t.status = .pending)
    (hdone : ∀ s ∈ w.listByDagRun t.dagRunId, orderingForKind s.kind < orderingForKind t.kind →
      s.status.isDone = true) : Store.pendingView C.backend t ∈ w.batch C none := by
  have hsame := Store.pendingView_same C.backend t
  refine List.mem_filter.mpr ⟨Store.mem_pending ht hs, ?_⟩
  rw [isReady, ← hsame.kind, ← hsame.run,
    if_pos (.inl ((Store.pendingView_status C.backend t).trans hs))]
  dsimp only
  split
  · rfl
  · rw [List.all_eq_true]
    intro s hs
    by_cases hlt : orderingForKind s.kind < orderingForKind t.kind
    · simp [hdone s hs hlt]
    · simp [hlt]

/-- A task at rest that is neither done nor failed is pending or has a running attempt. -/
theorem Rest.pending_or_unsettled {cap : ℕ} {s : TaskStatus} {rs : List TaskRun}
    (h : Rest cap s rs) (hd : s.isDone = false) (hf : s ≠ .failed) :
    s = .pending ∨ ∃ r ∈ rs, r.status.isTerminal = false := by
  cases h with
  | waiting => exact .inl rfl
  | active _ hr _ =>
    exact .inr ⟨_, List.mem_append_right _ (List.mem_singleton_self _), by rw [hr]; rfl⟩
  | done => exact absurd hd (by simp [TaskStatus.isDone])
  | exhausted => exact absurd rfl hf

/-- In every reachable world a run that is created or running has a task with a
running attempt, or the next uncapped pump returns a ready task of it. -/
theorem no_stuck_run (C : Config) (w : World) (hw : w.Reachable C) :
    ∀ x ∈ w.dagRuns, x.status = .created ∨ x.status = .running →
      (∃ t ∈ w.tasks, t.dagRunId = x.id ∧
        ∃ r ∈ w.taskRuns, r.taskId = t.id ∧ r.status.isTerminal = false) ∨
      ∃ r ∈ returned ((scheduleReadyTasks none).run (exec C .pump) w).1, r.dagRunId = x.id := by
  intro x hx hs
  have hagree := agreement hw x hx
  -- the aggregate: some task is not done, and none failed
  have hopen : ∃ t ∈ w.tasks, t.dagRunId = x.id ∧ t.status.isDone = false := by
    rcases hs with hs | hs
    · obtain ⟨t, ht, hd⟩ := (peopled_preserved C).reachable
        (fun x hx => absurd hx (Table.notMem_empty x)) hw x hx
      exact ⟨t, ht, hd, by rw [hagree.pending hw.sound.inv hs ht hd]; rfl⟩
    · have hne : w.aggregate x.id ≠ .success := by
        rw [← hagree.aggregate (by simp [hs]), hs]
        simp
      rw [Ne, Store.aggregate_eq_success] at hne
      push Not at hne
      obtain ⟨t, ht, hd, hn⟩ := hne
      exact ⟨t, ht, hd, by simpa using hn⟩
  have hnofail : ∀ t ∈ w.tasks, t.dagRunId = x.id → t.status ≠ .failed := by
    intro t ht hd hf
    rcases hs with hs | hs
    · rw [hagree.pending hw.sound.inv hs ht hd] at hf
      exact absurd hf (by simp)
    · have := Store.aggregate_eq_failed.mpr ⟨t, ht, hd, hf⟩
      rw [← hagree.aggregate (by simp [hs]), hs] at this
      exact absurd this (by simp)
  -- the ledger and the barrier at an earliest open task
  obtain ⟨t, ht, hd, hn, hfirst⟩ := exists_earliest hopen
  rcases (hw.sound.rest ht).pending_or_unsettled hn (hnofail t ht hd) with hp | ⟨r, hr, hrun⟩
  · right
    obtain ⟨k, _, hready, _⟩ := (hw.sound.scheduling none).opened
      (mem_batch (C := C) ht hp (hd ▸ hfirst))
    rw [returned_scheduleReadyTasks]
    exact ⟨_, hready, (Store.pendingView_same C.backend t).run.symm.trans hd⟩
  · obtain ⟨hmem, htask⟩ := Store.mem_attemptsOf.mp hr
    exact .inl ⟨t, ht, hd, r, hmem, htask, hrun⟩

/-- After the extractor succeeded the run waits for the normalizer. -/
theorem no_stuck_run_extractor : ∃ w : World, w.Reachable (.paired 3) ∧
    (∃ x ∈ w.dagRuns.rows, x.status = .running) ∧
    ∀ x ∈ w.dagRuns, x.status = .created ∨ x.status = .running →
      (∃ t ∈ w.tasks, t.dagRunId = x.id ∧
        ∃ r ∈ w.taskRuns, r.taskId = t.id ∧ r.status.isTerminal = false) ∨
      ∃ r ∈ returned ((scheduleReadyTasks none).run (exec (.paired 3) .pump) w).1,
        r.dagRunId = x.id := by
  have hw := World.Reachable.runAll (C := .paired 3) (Action.stagesDone [none]) (by decide)
  exact ⟨_, hw, by decide, no_stuck_run _ _ hw⟩

end Contexide.Workflow
