import Contexide.Workflow.Outcome.Calls

/-! What the planner does to any world when it runs alone. -/

namespace Contexide.Workflow

open Effects Storage

namespace Planner

/-- The planned tasks with the identifiers component `i` draws from its `k`-th on. -/
def plannedTasks (C : Config) (i : Proc) (d : DagRunId) (tenant : TenantId) (input : Json) :
    ℕ → ℕ → List String → List Task
  | _, _, [] => []
  | k, idx, kind :: kinds =>
    plannedTask ⟨C.ids.uuid i k⟩ d tenant kind (if idx = 0 then input else .null) ::
      plannedTasks C i d tenant input (k + 1) (idx + 1) kinds

variable (C : Config) (i : Proc) (w : World)

theorem run_buildTasks (d : DagRunId) (tenant : TenantId) (input : Json) (idx : ℕ)
    (kinds : List String) :
    (buildTasks d tenant input idx kinds).run (exec C i) w =
      (plannedTasks C i d tenant input (w.drawn i) idx kinds, w.drawMany i kinds.length) := by
  induction kinds generalizing w idx with
  | nil => simp [buildTasks, plannedTasks]
  | cons kind kinds ih =>
    simp only [buildTasks, Program.run_bind, run_newTaskId, ih, Program.run_pure, plannedTasks,
      World.draw_drawn_self, World.draw_drawMany, List.length_cons]

/-- The identifier of the run that the planner saves next. -/
def nextRun : DagRunId := ⟨C.ids.uuid i (w.drawn i)⟩

/-- The tasks of the run that the planner saves next. -/
def nextTasks (tenant : TenantId) (input : Json) : List Task :=
  plannedTasks C i (nextRun C i w) tenant input (w.drawn i + 1) 0 profileSequence

theorem run_createDagRun (tenant : TenantId) (profile : String) (input : Json) :
    (createDagRun tenant profile input).run (exec C i) w =
      (nextRun C i w,
        (((w.draw i).putDagRun (plannedRun (nextRun C i w) tenant profile input)).drawMany i
          5).putTasks (nextTasks C i w tenant input)) := by
  simp only [createDagRun, Program.run_bind, run_newDagRunId, DagRuns.run_save, run_buildTasks,
    run_saveTasks, Program.run_pure, World.putDagRun_drawn, World.draw_drawn_self]
  rfl

variable {C i w}

theorem mem_plannedTasks {d : DagRunId} {tenant : TenantId} {input : Json} {kinds : List String}
    {k idx : ℕ} {t : Task} (h : t ∈ plannedTasks C i d tenant input k idx kinds) :
    t.dagRunId = d ∧ t.tenantId = tenant ∧ t.status = .pending ∧ t.kind ∈ kinds ∧
      ∃ n, k ≤ n ∧ t.id.uuid = C.ids.uuid i n := by
  induction kinds generalizing k idx with
  | nil => exact absurd h List.not_mem_nil
  | cons kind kinds ih =>
    rcases List.mem_cons.mp h with rfl | h
    · exact ⟨rfl, rfl, rfl, List.mem_cons_self, k, le_rfl, rfl⟩
    · obtain ⟨hd, ht, hs, hk, n, hn, hid⟩ := ih h
      exact ⟨hd, ht, hs, List.mem_cons_of_mem _ hk, n, by omega, hid⟩

theorem nodup_plannedTasks (d : DagRunId) (tenant : TenantId) (input : Json)
    (kinds : List String) (k idx : ℕ) :
    ((plannedTasks C i d tenant input k idx kinds).map Task.id).Nodup := by
  induction kinds generalizing k idx with
  | nil => exact List.nodup_nil
  | cons kind kinds ih =>
    rw [plannedTasks, List.map_cons, List.nodup_cons]
    refine ⟨fun h => ?_, ih _ _⟩
    obtain ⟨t, ht, he⟩ := List.mem_map.mp h
    obtain ⟨_, _, _, _, n, hn, hid⟩ := mem_plannedTasks ht
    rw [he] at hid
    have := (C.ids.inj hid).2
    omega

end Planner

end Contexide.Workflow
