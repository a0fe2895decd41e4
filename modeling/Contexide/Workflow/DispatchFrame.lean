import Contexide.Workflow.Outcome.Pump
import Contexide.Workflow.PgTasks

/-! What a dispatch leaves of the row of a task. A task is written back as it was listed,
so it keeps the columns that the listing reads and loses the others. -/

namespace Contexide.Workflow

open Effects Scheduler Sql Storage

variable {C : Config} {w : World}

namespace World

theorem dispatchedAll_get_of_notMem {batch : List Task} {id : TaskId}
    (h : id ∉ batch.map Task.id) :
    (w.dispatchedAll C batch).tasks.get id = w.tasks.get id := by
  induction batch generalizing w with
  | nil => rfl
  | cons t batch ih =>
    rw [List.map_cons, List.mem_cons, not_or] at h
    show ((w.dispatched C t).dispatchedAll C batch).tasks.get id = _
    rw [ih h.2, dispatched_tasks, Table.get_save, if_neg (Ne.symm h.1)]

/-- Each task of a batch is saved once, running. -/
theorem dispatchedAll_get {batch : List Task} (hn : (batch.map Task.id).Nodup) {t : Task}
    (ht : t ∈ batch) :
    (w.dispatchedAll C batch).tasks.get t.id = some { t with status := .running } := by
  induction batch generalizing w with
  | nil => exact absurd ht List.not_mem_nil
  | cons u batch ih =>
    rw [List.map_cons, List.nodup_cons] at hn
    show ((w.dispatched C u).dispatchedAll C batch).tasks.get t.id = _
    rcases List.mem_cons.mp ht with rfl | ht
    · rw [dispatchedAll_get_of_notMem hn.1, dispatched_tasks, Table.get_save, if_pos rfl]
    · exact ih hn.2 ht

end World

/-- The row of the second task differs from that of the first in the status only, which is
running. -/
def Task.MarkedRunning (t t' : Task) : Prop :=
  t'.status = .running ∧ ∀ c, c ≠ "status" → t'.row c = t.row c

/-- Rows determine tasks. -/
theorem Task.row_injective : Function.Injective Task.row := by
  intro t t' h
  have hread := Task.fromRow_columns t
  rw [h, Task.fromRow_columns] at hread
  exact (Except.ok.inj hread).symm

theorem Task.markedRunning_iff {t t' : Task} :
    t.MarkedRunning t' ↔ t' = { t with status := .running } := by
  have hother : ∀ c, c ≠ "status" → ({ t with status := .running } : Task).row c = t.row c := by
    intro c hc
    simp only [Task.row, hc, if_false]
  constructor
  · rintro ⟨hstatus, hrest⟩
    apply Task.row_injective
    funext c
    by_cases hc : c = "status"
    · subst hc
      exact congrArg (fun s : TaskStatus => Value.text s.asStr) hstatus
    · rw [hrest c hc, hother c hc]
  · rintro rfl
    exact ⟨rfl, hother⟩

/-- The columns that the listing of pending tasks does not select hold what the decoder
falls back to. -/
structure Task.HasFallbacks (t : Task) : Prop where
  maxAttempts : t.maxAttempts = none
  retryPolicy : t.retryPolicy = "never"
  retryParams : t.retryParams = .object []
  priority : t.priority = 0
  executionPolicyOverride : t.executionPolicyOverride = none

theorem pendingView_running_iff (b : Backend) (t : Task) :
    ({ Store.pendingView b t with status := .running } : Task) = { t with status := .running } ↔
      b = .mem ∨ t.HasFallbacks := by
  cases b with
  | mem => exact iff_of_true rfl (.inl rfl)
  | pg =>
    constructor
    · intro h
      exact .inr ⟨(congrArg Task.maxAttempts h).symm, (congrArg Task.retryPolicy h).symm,
        (congrArg Task.retryParams h).symm, (congrArg Task.priority h).symm,
        (congrArg Task.executionPolicyOverride h).symm⟩
    · rintro (h | ⟨hattempts, hpolicy, hparams, hpriority, hoverride⟩)
      · exact absurd h (by decide)
      · show (⟨_, _, _, _, _, _, _, none, "never", .object [], 0, none⟩ : Task) = _
        rw [← hattempts, ← hpolicy, ← hparams, ← hpriority, ← hoverride]
        rfl

/-- The task that is stored under the identifier of a dispatched one is the one that was
listed, running. -/
theorem get_dispatched (limit : Option ℕ) {t : Task} (ht : t ∈ w.tasks)
    (hdispatched : ∃ r ∈ returned ((scheduleReadyTasks limit).run (exec C .pump) w).1,
      r.taskId = t.id) :
    ((scheduleReadyTasks limit).run (exec C .pump) w).2.tasks.get t.id =
      some { Store.pendingView C.backend t with status := .running } := by
  rw [returned_scheduleReadyTasks] at hdispatched
  rw [run_scheduleReadyTasks]
  obtain ⟨r, hr, hid⟩ := hdispatched
  obtain ⟨v, hv, n, -, -, rfl⟩ := mem_readyTasks hr
  obtain ⟨u, hu, rfl, -⟩ := Store.of_mem_listed (List.mem_filter.mp hv).1
  have hview := (Store.pendingView_same C.backend u).id
  obtain rfl := Table.eq_of_key hu ht (hview.trans hid)
  have hn : ((w.batch C limit).map Task.id).Nodup :=
    (List.filter_sublist.map Task.id).nodup (Store.nodup_listed C.backend w.toStore limit)
  exact (congrArg (w.dispatchedAll C (w.batch C limit)).tasks.get hview).trans
    (World.dispatchedAll_get hn hv)

/-- A dispatch changes the status of a task only, in memory always, and in Postgres exactly
when the columns that the listing of pending tasks leaves out hold their fallbacks. -/
theorem dispatch_changes_only_status_iff (C : Config) (w : World) (limit : Option ℕ) {t : Task}
    (ht : t ∈ w.tasks)
    (hdispatched : ∃ r ∈ returned ((scheduleReadyTasks limit).run (exec C .pump) w).1,
      r.taskId = t.id) :
    (∃ t', ((scheduleReadyTasks limit).run (exec C .pump) w).2.tasks.get t.id = some t' ∧
      t.MarkedRunning t') ↔ C.backend = .mem ∨ t.HasFallbacks := by
  rw [get_dispatched limit ht hdispatched, ← pendingView_running_iff C.backend t]
  constructor
  · rintro ⟨t', hget, hmarked⟩
    rw [Option.some.inj hget]
    exact Task.markedRunning_iff.mp hmarked
  · intro h
    exact ⟨_, rfl, Task.markedRunning_iff.mpr h⟩

/-- Repositories in Postgres. -/
def Config.postgres : Config := { Config.paired 3 with backend := .pg }

/-- A pending extractor with retry settings. -/
def extractor (maxAttempts : Option Int32) (retryPolicy : String) (priority : Int16) : Task where
  id := ⟨1⟩
  dagRunId := ⟨2⟩
  tenantId := ⟨3⟩
  kind := "extractor"
  status := .pending
  payload := .object []
  result := none
  maxAttempts := maxAttempts
  retryPolicy := retryPolicy
  retryParams := .object []
  priority := priority
  executionPolicyOverride := none

/-- A world where one task is stored. -/
def World.withTask (t : Task) : World := World.empty.putTask t

theorem dispatch_changes_only_status_iff_fallbacks :
    ∃ t', ((scheduleReadyTasks none).run (exec .postgres .pump)
        (World.withTask (extractor none "never" 0))).2.tasks.get ⟨1⟩ = some t' ∧
      (extractor none "never" 0).MarkedRunning t' :=
  (dispatch_changes_only_status_iff .postgres (World.withTask (extractor none "never" 0)) none
    List.mem_cons_self ⟨_, List.mem_cons_self, rfl⟩).mpr (.inr ⟨rfl, rfl, rfl, rfl, rfl⟩)

/-- The retry settings and the priority of a dispatched task are lost. -/
theorem dispatch_loses_settings :
    ∃ t ∈ (World.withTask (extractor (some 5) "exponential" 7)).tasks,
      (∃ r ∈ returned ((scheduleReadyTasks none).run (exec .postgres .pump)
        (World.withTask (extractor (some 5) "exponential" 7))).1, r.taskId = t.id) ∧
      ¬ ∃ t', ((scheduleReadyTasks none).run (exec .postgres .pump)
        (World.withTask (extractor (some 5) "exponential" 7))).2.tasks.get t.id = some t' ∧
          t.MarkedRunning t' := by
  refine ⟨extractor (some 5) "exponential" 7, List.mem_cons_self, ⟨_, List.mem_cons_self, rfl⟩, ?_⟩
  rintro ⟨t', hget, hmarked⟩
  rw [get_dispatched none List.mem_cons_self ⟨_, List.mem_cons_self, rfl⟩] at hget
  rw [Task.markedRunning_iff, ← Option.some.inj hget, pendingView_running_iff] at hmarked
  rcases hmarked with h | h
  · exact absurd h (by decide)
  · exact absurd h.priority (by decide)

end Contexide.Workflow
