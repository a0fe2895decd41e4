import Contexide.Workflow.Steps

/-! The stage barrier: a task of a planned kind that has started finds every task
of an earlier stage of its run done. A dispatch is allowed by the readiness check;
everything later relies on done tasks staying done and on fan-out adding tasks
only behind the chunker, whose own completion every later stage waits for. -/

namespace Contexide.Workflow

open Effects Storage Scheduler World

variable {C : Config} {w : World}

/-- The status is a success whose output has an array of chunk sets. -/
def WorkerStatus.HasChunkSets : WorkerStatus → Prop
  | .success _ _ _ _ output =>
    ∃ out ∈ output, ((out.get "chunk_set_ids").bind Json.asArray).isSome
  | .failed .. => False

/-- Only outputs of chunker tasks have an array of chunk sets. -/
def ChunkerOutput (w : World) (m : WorkerStatus) : Prop :=
  m.HasChunkSets → ∀ t ∈ w.tasks, t.id = m.taskId → t.kind = "chunker"

instance : (m : WorkerStatus) → Decidable m.HasChunkSets
  | .success _ _ _ _ (some out) =>
    decidable_of_iff (((out.get "chunk_set_ids").bind Json.asArray).isSome = true)
      (by simp [WorkerStatus.HasChunkSets])
  | .success _ _ _ _ none => .isFalse (by simp [WorkerStatus.HasChunkSets])
  | .failed .. => .isFalse id

instance (w : World) (m : WorkerStatus) : Decidable (ChunkerOutput w m) :=
  inferInstanceAs (Decidable (m.HasChunkSets → ∀ t ∈ w.tasks.rows, _))

/-- The task is running, succeeded or failed, or has an attempt. -/
def Begun (w : World) (t : Task) : Prop :=
  t.status = .running ∨ t.status = .success ∨ t.status = .failed ∨ w.attemptsOf t.id ≠ []

def Barrier (w : World) : Prop :=
  ∀ t ∈ w.tasks, t.kind ∈ Planner.profileSequence → Begun w t →
    ∀ s ∈ w.tasks, s.dagRunId = t.dagRunId →
      orderingForKind s.kind < orderingForKind t.kind → s.status.isDone = true

theorem orderingForKind_lt {kind : String} (h : kind ∈ Planner.profileSequence) :
    orderingForKind kind < usizeMax := by
  simp only [Planner.profileSequence, List.mem_cons, List.not_mem_nil, or_false] at h
  rcases h with rfl | rfl | rfl | rfl | rfl <;> decide

theorem chunkSets_eq_nil {m : WorkerStatus} (h : ¬ m.HasChunkSets) : m.chunkSets C = [] := by
  cases m with
  | failed => rfl
  | success _ _ _ _ output =>
    cases output with
    | none => rfl
    | some out =>
      cases he : (out.get "chunk_set_ids").bind Json.asArray with
      | none => simp [WorkerStatus.chunkSets, chunkSetsOf, he]
      | some list => exact absurd ⟨out, rfl, by simp [he]⟩ h

/-- A ready task of a planned kind finds the earlier stages done. -/
theorem done_of_isReady {t s : Task} {siblings : List Task} (h : isReady t siblings = true)
    (hk : t.kind ∈ Planner.profileSequence) (hs : s ∈ siblings)
    (hlt : orderingForKind s.kind < orderingForKind t.kind) : s.status.isDone = true := by
  have := orderingForKind_lt hk
  unfold isReady at h
  split at h
  · rw [if_neg (by omega), List.all_eq_true] at h
    simpa [hlt] using h s hs
  · exact absurd h (by simp)

theorem Barrier.created {n : ℕ} {tenant : TenantId} {profile : String} {input : Json}
    (h : Barrier w) (hw : w.Inv C) : Barrier (w.created C n tenant profile input) := by
  have hattempts : ∀ id, (w.created C n tenant profile input).attemptsOf id = w.attemptsOf id := by
    intro id
    simp only [Store.attemptsOf, created_taskRuns]
  have hmem : ∀ {t}, t ∈ (w.created C n tenant profile input).tasks →
      t ∈ w.tasks ∨ t ∈ Planner.nextTasks C (.planner n) w tenant input := by
    intro t ht
    rw [Table.mem_def, rows_created_tasks hw] at ht
    exact List.mem_append.mp ht
  intro t ht hk hb s hs hd hlt
  rw [Begun, hattempts] at hb
  rcases hmem ht with ht | ht
  · rcases hmem hs with hs | hs
    · exact h t ht hk hb s hs hd hlt
    · obtain ⟨hsd, _⟩ := Planner.mem_plannedTasks hs
      exact absurd (hsd ▸ hd ▸ hw.runOf t ht) (hw.not_has_nextRun _)
  · -- a planned task has not begun
    obtain ⟨_, _, hpending, _⟩ := Planner.mem_plannedTasks ht
    rw [hw.attemptsOf_eq_nil (hw.not_has_nextTasks _ ht), hpending] at hb
    simp at hb

theorem Barrier.dispatched {t : Task} (h : Barrier w) (hw : w.Inv C) (ht : w.Listed t)
    (hready : isReady t (w.listByDagRun t.dagRunId) = true) : Barrier (w.dispatched C t) := by
  obtain ⟨u, hu, hsame, hpending⟩ := ht
  have hmem : ∀ {v}, v ∈ (w.dispatched C t).tasks →
      v = { t with status := .running } ∨ v ∈ w.tasks ∧ v.id ≠ t.id := by
    intro v hv
    rw [dispatched_tasks] at hv
    exact Table.mem_save.mp hv
  intro v hv hk hb s hs hd hlt
  rcases hmem hv with rfl | ⟨hv, hvid⟩
  · rcases hmem hs with rfl | ⟨hs, _⟩
    · exact absurd hlt (lt_irrefl _)
    · exact done_of_isReady hready hk (Store.mem_listByDagRun.mpr ⟨hs, hd⟩) hlt
  · rw [Begun, attemptsOf_dispatched_ne hw t hvid] at hb
    rcases hmem hs with rfl | ⟨hs, _⟩
    · -- the dispatched task was pending, so no later stage has begun
      have := h v hv hk hb u hu (hsame.run.trans hd) (hsame.kind ▸ hlt)
      rw [hpending] at this
      exact absurd this (by simp [TaskStatus.isDone])
    · exact h v hv hk hb s hs hd hlt

theorem Barrier.delivered {m : WorkerStatus} {a : TaskRun} {u : Task} {x : DagRun}
    (h : Barrier w) (hw : w.Inv C) (hd : Delivery m w a u x) (hm : ChunkerOutput w m) :
    Barrier ((Action.deliver m).run C w) := by
  have hsame := Delivery.settledTask_same C m w u
  have hblocked : ∀ v ∈ w.tasks, v.kind ∈ Planner.profileSequence → Begun w v →
      v.dagRunId = u.dagRunId → ¬ orderingForKind u.kind < orderingForKind v.kind := by
    intro v hv hk hb hvd hlt
    have := h v hv hk hb u hd.task hvd.symm hlt
    rw [hd.running] at this
    exact absurd this (by simp [TaskStatus.isDone])
  have hnew : ∀ {s}, s ∈ Delivery.newTasks C m w u → s.dagRunId = u.dagRunId ∧
      orderingForKind s.kind = 3 ∧ orderingForKind u.kind = 2 := by
    intro s hs
    have hsets : m.HasChunkSets := by
      by_contra hn
      rw [Delivery.newTasks, chunkSets_eq_nil hn] at hs
      exact absurd hs List.not_mem_nil
    obtain ⟨hsd, _, hsk, _⟩ := mem_embedTasks hs
    rw [hsk, hm hsets u hd.task hd.taskId]
    exact ⟨hsd, rfl, rfl⟩
  intro t ht hk hb s hs hsd hlt
  rcases (hd.mem_tasks hw).mp ht with rfl | ⟨ht, htid⟩ | ht
  · -- the settled task had begun before
    rw [← hsame.kind] at hk hlt
    rw [← hsame.run] at hsd
    rcases (hd.mem_tasks hw).mp hs with rfl | ⟨hs, _⟩ | hs
    · exact absurd hlt (by rw [← hsame.kind]; exact lt_irrefl _)
    · exact h u hd.task hk (.inl hd.running) s hs hsd hlt
    · obtain ⟨_, h₃, h₂⟩ := hnew hs
      omega
  · rw [Begun, hd.attemptsOf_ne hw htid] at hb
    rcases (hd.mem_tasks hw).mp hs with rfl | ⟨hs, _⟩ | hs
    · exact absurd (hsame.kind ▸ hlt) (hblocked t ht hk hb (hsame.run.trans hsd).symm)
    · exact h t ht hk hb s hs hsd hlt
    · obtain ⟨hsu, h₃, h₂⟩ := hnew hs
      exact absurd (by omega) (hblocked t ht hk hb (hsd.symm.trans hsu))
  · -- a fanned-out task has not begun
    obtain ⟨_, _, _, hpending, k, hk', _, hid⟩ := mem_embedTasks ht
    have hfresh := hw.not_has_of_le .status hk' hid
    have hne : t.id ≠ u.id := fun he => hfresh ⟨u, hd.task, he.symm⟩
    rw [Begun, hd.attemptsOf_ne hw hne, hw.attemptsOf_eq_nil hfresh, hpending] at hb
    simp at hb

theorem barrier_preserved (C : Config) : Preserved C ChunkerOutput Barrier where
  created _ _ _ _ _ hw h := h.created hw.inv
  dispatched _ _ hw ht hr h := h.dispatched hw.inv ht hr
  announced _ _ h := h
  delivered _ _ _ _ _ hw hd hm h := h.delivered hw.inv hd hm

/-- In every execution whose outputs with chunk sets come from chunkers, a task
of a planned kind begins only when the earlier stages of its run are done, and
they stay so. -/
theorem stage_barrier (C : Config) (steps : List (World × Action)) (w : World)
    (hx : Execution C steps w) (hm : ∀ s ∈ steps, s.2.Allowed ChunkerOutput s.1) :
    ∀ t ∈ w.tasks, t.kind ∈ Planner.profileSequence →
      (t.status = .running ∨ t.status = .success ∨ t.status = .failed ∨
        ∃ r ∈ w.taskRuns, r.taskId = t.id) →
      ∀ s ∈ w.tasks, s.dagRunId = t.dagRunId →
        orderingForKind s.kind < orderingForKind t.kind →
        s.status = .success ∨ s.status = .skipped := by
  have hb : Barrier w := (barrier_preserved C).execution
    (fun t ht => absurd ht (Table.notMem_empty t)) hx hm
  intro t ht hk hbegun s hs hd hlt
  have hbegun : Begun w t := by
    rcases hbegun with h | h | h | ⟨r, hr, hrt⟩
    · exact .inl h
    · exact .inr (.inl h)
    · exact .inr (.inr (.inl h))
    · exact .inr (.inr (.inr (List.ne_nil_of_mem (Store.mem_attemptsOf.mpr ⟨hr, hrt⟩))))
  have := hb t ht hk hbegun s hs hd hlt
  cases hst : s.status <;> simp_all [TaskStatus.isDone]

/-- The chunker's output has chunk sets, and the embedder of the plan is dispatched. -/
theorem stage_barrier_embedder : ∃ w : World, w.Reachable (.paired 3) ∧
    (∃ t ∈ w.tasks.rows, t.kind = "embedder" ∧ t.status = .running) ∧
    ∀ t ∈ w.tasks, t.kind ∈ Planner.profileSequence →
      (t.status = .running ∨ t.status = .success ∨ t.status = .failed ∨
        ∃ r ∈ w.taskRuns, r.taskId = t.id) →
      ∀ s ∈ w.tasks, s.dagRunId = t.dagRunId →
        orderingForKind s.kind < orderingForKind t.kind →
        s.status = .success ∨ s.status = .skipped := by
  have hx := Execution.nil.runAll (C := .paired 3)
    (Action.stagesDone [none, none, some (chunkSetsOutput "")] ++ [.schedule none]) (by decide)
  exact ⟨_, ⟨_, hx⟩, by decide, stage_barrier _ _ _ hx (by decide)⟩

end Contexide.Workflow
