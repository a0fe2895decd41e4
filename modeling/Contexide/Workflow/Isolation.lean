import Contexide.Workflow.Runs

/-! What a status message can touch, in any world and with any combination of
identifiers. The handler looks up the attempt, the task and the run by the three
identifiers of the message and compares none of them with the others; the tenant
of the message is not read. -/

namespace Contexide.Workflow

open Effects Storage Scheduler

/-- The message in the name of another tenant. -/
def WorkerStatus.withTenant (tenant : TenantId) : WorkerStatus → WorkerStatus
  | .success _ d t r output => .success tenant d t r output
  | .failed _ d t r error errorKind => .failed tenant d t r error errorKind

/-- An identifier that the status loop drew between two worlds. -/
def DrawnBetween (C : Config) (w w' : World) (id : TaskId) : Prop :=
  ∃ k, w.drawn .status ≤ k ∧ k < w'.drawn .status ∧ id.uuid = C.ids.uuid .status k

/-- The worlds differ in the attempt, the task and the run that the message names
and in new tasks for that run and for the tenant of that task. -/
structure Framed (C : Config) (m : WorkerStatus) (w w' : World) : Prop where
  taskRuns : ∀ r, r.id ≠ m.taskRunId → (r ∈ w'.taskRuns ↔ r ∈ w.taskRuns)
  dagRuns : ∀ d, d.id ≠ m.dagRunId → (d ∈ w'.dagRuns ↔ d ∈ w.dagRuns)
  kept : ∀ t ∈ w.tasks, t.id ≠ m.taskId → ¬ DrawnBetween C w w' t.id → t ∈ w'.tasks
  added : ∀ t ∈ w'.tasks, t.id ≠ m.taskId → t ∈ w.tasks ∨
    DrawnBetween C w w' t.id ∧ t.dagRunId = m.dagRunId ∧
      ∃ u ∈ w.tasks, u.id = m.taskId ∧ t.tenantId = u.tenantId
  published : w'.published = w.published

variable {C : Config} {m : WorkerStatus} {w : World}

theorem Framed.refl : Framed C m w w where
  taskRuns _ _ := .rfl
  dagRuns _ _ := .rfl
  kept _ ht _ _ := ht
  added _ ht _ := .inl ht
  published := rfl

namespace World

theorem mem_dagRuns_recomputed {d : DagRunId} {x : DagRun} (hx : x.id ≠ d) :
    x ∈ (w.recomputed d).dagRuns ↔ x ∈ w.dagRuns := by
  unfold recomputed
  split
  · next y hy =>
    obtain ⟨_, rfl⟩ := Table.get_eq_some.mp hy
    exact Table.mem_save_iff_of_ne hx
  · rfl

theorem mem_putTasks {ts : List Task} {t : Task} (h : t ∈ (w.putTasks ts).tasks) :
    t ∈ ts ∨ t ∈ w.tasks := by
  induction ts generalizing w with
  | nil => exact .inr h
  | cons u ts ih =>
    rcases ih h with h | h
    · exact .inl (List.mem_cons_of_mem _ h)
    · rcases Table.mem_save.mp h with rfl | h
      · exact .inl List.mem_cons_self
      · exact .inr h.1

theorem mem_putTasks_of_notMem {ts : List Task} {t : Task} (ht : t ∈ w.tasks)
    (h : ∀ u ∈ ts, t.id ≠ u.id) : t ∈ (w.putTasks ts).tasks := by
  induction ts generalizing w with
  | nil => exact ht
  | cons u ts ih =>
    exact ih (Table.mem_save_of_ne ht (h u List.mem_cons_self))
      fun v hv => h v (List.mem_cons_of_mem _ hv)

end World

namespace Framed

/-- The attempt that the message names may have been saved before. -/
theorem of_putTaskRun {w' : World} {a : TaskRun} (ha : a.id = m.taskRunId)
    (h : Framed C m (w.putTaskRun a) w') : Framed C m w w' where
  taskRuns r hr := (h.taskRuns r hr).trans (Table.mem_save_iff_of_ne (ha ▸ hr))
  dagRuns := h.dagRuns
  kept := h.kept
  added := h.added
  published := h.published

/-- The run that the message names may be computed again afterwards. -/
theorem recomputed {w' : World} (h : Framed C m w w') :
    Framed C m w (w'.recomputed m.dagRunId) where
  taskRuns r hr := by rw [World.recomputed_taskRuns, h.taskRuns r hr]
  dagRuns d hd := (World.mem_dagRuns_recomputed hd).trans (h.dagRuns d hd)
  kept t ht hn hd := by
    rw [World.recomputed_tasks]
    exact h.kept t ht hn (by simpa [DrawnBetween] using hd)
  added t ht hn := by
    rw [World.recomputed_tasks] at ht
    simpa [DrawnBetween] using h.added t ht hn
  published := by rw [World.recomputed_published, h.published]

/-- Saving the task that the message names and its fanned-out tasks. -/
theorem settledTask {u : Task} (hu : u ∈ w.tasks) (hid : u.id = m.taskId) :
    Framed C m w (w.settledTask C .status m u) := by
  have hsame := m.settledTask_same C u (w.listByTask m.taskId).length
  have hdrawn : ∀ n ts (x : Task), (((w.putTask x).drawMany .status n).putTasks ts).drawn .status =
      w.drawn .status + n := fun n ts x => by simp [World.drawMany]
  refine recomputed ⟨fun r _ => by simp, fun d _ => by simp, fun t ht hn hd => ?_,
    fun t ht hn => ?_, by simp⟩
  · refine World.mem_putTasks_of_notMem (Table.mem_save_of_ne ht ?_) fun v hv hvt => hd ?_
    · rwa [← hsame.id, hid]
    · obtain ⟨_, _, _, _, k, hk, hlt, hvid⟩ := mem_embedTasks hv
      exact ⟨k, hk, by rwa [hdrawn], by rw [hvt, hvid]⟩
  · rcases World.mem_putTasks ht with hv | ht
    · obtain ⟨hrun, htenant, _, _, k, hk, hlt, hvid⟩ := mem_embedTasks hv
      exact .inr ⟨⟨k, hk, by rwa [hdrawn], hvid⟩, hrun, u, hu, hid, htenant⟩
    · exact .inl (Table.mem_of_mem_save ht (by rwa [← hsame.id, hid]))

/-- The handler stays in its frame. -/
theorem handled (C : Config) (m : WorkerStatus) (w : World) :
    Framed C m w (w.handled C .status m) := by
  unfold World.handled
  cases hr : w.taskRuns.get m.taskRunId with
  | none => exact refl
  | some a =>
    have ha : (m.settledRun a).id = m.taskRunId := by
      rw [m.settledRun_id, (Table.get_eq_some.mp hr).2]
    dsimp only
    split
    · exact refl
    · cases ht : w.tasks.get m.taskId with
      | some u =>
        obtain ⟨hu, hid⟩ := Table.get_eq_some.mp ht
        exact of_putTaskRun ha (settledTask hu hid)
      | none =>
        cases m with
        | success => exact of_putTaskRun ha refl
        | failed => exact of_putTaskRun ha refl.recomputed

end Framed

theorem handled_withTenant (C : Config) (m : WorkerStatus) (w : World) (tenant : TenantId) :
    w.handled C .status (m.withTenant tenant) = w.handled C .status m := by
  cases m <;> rfl

/-- In any world a status message changes at most the attempt, the task and the
run it names and adds tasks for that run in the tenant of that task; it changes
nothing when the attempt is not stored or settled, and its tenant has no effect. -/
theorem handleWorkerStatus_framed (C : Config) (w : World) (m : WorkerStatus) :
    Framed C m w ((handleWorkerStatus C m).run (exec C .status) w).2 ∧
    ((∀ r ∈ w.taskRuns, r.id = m.taskRunId → r.status.isTerminal = true) →
      ((handleWorkerStatus C m).run (exec C .status) w).2 = w) ∧
    ∀ tenant, ((handleWorkerStatus C (m.withTenant tenant)).run (exec C .status) w).2 =
      ((handleWorkerStatus C m).run (exec C .status) w).2 := by
  simp only [run_handleWorkerStatus]
  exact ⟨.handled C m w, World.handled_of_terminal, handled_withTenant C m w⟩

/-- Two runs of different tenants with their extractors dispatched: tasks 7 and
13, attempts 0 and 1. -/
def twoTenants : World :=
  Action.runAll (.paired 3) [.create 0 ⟨0⟩ "default" .null, .create 1 ⟨1⟩ "default" .null,
    .schedule none] World.empty

/-- An attempt of one tenant completes the task of another, and a message in the
name of another tenant settles an attempt. -/
theorem status_crosses_tenants :
    (¬ ∀ (w : World) (m : WorkerStatus), ∀ r ∈ w.taskRuns, r.id = m.taskRunId →
      ∀ t ∈ w.tasks, t.id ≠ r.taskId →
        t ∈ ((handleWorkerStatus (.paired 3) m).run (exec (.paired 3) .status) w).2.tasks) ∧
    ¬ ∀ (w : World) (m : WorkerStatus), ∀ r ∈ w.taskRuns, r.id = m.taskRunId →
      r.tenantId ≠ m.tenantId →
        ((handleWorkerStatus (.paired 3) m).run (exec (.paired 3) .status) w).2 = w := by
  have hattempt : ∃ r ∈ twoTenants.taskRuns.rows, r.id = ⟨0⟩ ∧ r.taskId = ⟨7⟩ ∧
      r.tenantId = ⟨0⟩ ∧ r.status = .running := by decide
  obtain ⟨r, hr, hid, htask, htenant, hrun⟩ := hattempt
  constructor
  · intro h
    have htarget : ∃ t ∈ twoTenants.tasks.rows, t.id = ⟨13⟩ ∧ t.status = .running := by decide
    obtain ⟨t, ht, htid, hts⟩ := htarget
    have hafter := h twoTenants (.success ⟨0⟩ ⟨12⟩ ⟨13⟩ ⟨0⟩ none) r hr hid t ht
      (by simp [htid, htask])
    have hall : ∀ u ∈ ((handleWorkerStatus (.paired 3) (.success ⟨0⟩ ⟨12⟩ ⟨13⟩ ⟨0⟩ none)).run
        (exec (.paired 3) .status) twoTenants).2.tasks.rows, u.id = ⟨13⟩ → u.status = .success := by
      decide
    exact absurd (hts.symm.trans (hall t hafter htid)) (by decide)
  · intro h
    have hafter := h twoTenants (.success ⟨1⟩ ⟨6⟩ ⟨7⟩ ⟨0⟩ none) r hr hid
      (by rw [htenant]; decide)
    have hall : ∀ r ∈ ((handleWorkerStatus (.paired 3) (.success ⟨1⟩ ⟨6⟩ ⟨7⟩ ⟨0⟩ none)).run
        (exec (.paired 3) .status) twoTenants).2.taskRuns.rows,
        r.id = ⟨0⟩ → r.status = .success := by decide
    rw [hafter] at hall
    exact absurd (hrun.symm.trans (hall r hr hid)) (by decide)

end Contexide.Workflow
