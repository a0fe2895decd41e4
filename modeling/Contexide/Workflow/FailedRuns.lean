import Contexide.Workflow.Agreement
import Contexide.Workflow.Barrier
import Contexide.Workflow.FanOut

/-! Dispatches for failed runs. Readiness asks about the earlier stages of a task
and never about its run, so a failed run gets work as long as a pending task
stands at its earliest unfinished stage: next to a failed embedder, its pending
siblings from the fan-out. -/

namespace Contexide.Workflow

open Effects Storage Scheduler World

variable {C : Config} {w : World}

/-! ### Kinds -/

def KnownKinds (w : World) : Prop := ∀ t ∈ w.tasks, t.kind ∈ Planner.profileSequence

/-- Tasks come from the plan or from the fan-out to embedders. -/
theorem knownKinds_preserved (C : Config) : Preserved C (fun _ _ => True) KnownKinds where
  created w n tenant profile input hw h t ht := by
    rw [Table.mem_def, rows_created_tasks hw.inv, List.mem_append] at ht
    rcases ht with ht | ht
    · exact h t ht
    · obtain ⟨_, _, _, hk, _⟩ := Planner.mem_plannedTasks ht
      exact hk
  dispatched w t _ ht _ h v hv := by
    rw [dispatched_tasks] at hv
    rcases Table.mem_save.mp hv with rfl | ⟨hv, _⟩
    · obtain ⟨u, hu, hsame, _⟩ := ht
      exact hsame.kind ▸ h u hu
    · exact h v hv
  announced _ _ h := h
  delivered w m a u x hw hd _ h t ht := by
    rcases (hd.mem_tasks hw.inv).mp ht with rfl | ⟨ht, _⟩ | ht
    · exact (Delivery.settledTask_same C m w u).kind ▸ h u hd.task
    · exact h t ht
    · rw [(mem_embedTasks ht).2.2.1]
      decide

theorem knownKinds (hw : w.Reachable C) : KnownKinds w :=
  (knownKinds_preserved C).reachable (fun t ht => absurd ht (Table.notMem_empty t)) hw

/-! ### Blocked tasks -/

/-- A task of an earlier stage of its run is not done. -/
def Blocked (w : World) (t : Task) : Prop :=
  ∃ s ∈ w.tasks, s.dagRunId = t.dagRunId ∧ orderingForKind s.kind < orderingForKind t.kind ∧
    s.status ≠ .success ∧ s.status ≠ .skipped

theorem TaskStatus.isDone_eq_false {s : TaskStatus} :
    s.isDone = false ↔ s ≠ .success ∧ s ≠ .skipped := by
  cases s <;> simp [TaskStatus.isDone]

theorem isReady_iff_not_blocked {t : Task} (hs : t.status = .pending)
    (hk : t.kind ∈ Planner.profileSequence) :
    isReady t (w.listByDagRun t.dagRunId) = true ↔ ¬ Blocked w t := by
  have hall : isReady t (w.listByDagRun t.dagRunId) = true ↔
      ∀ s ∈ w.listByDagRun t.dagRunId,
        orderingForKind s.kind < orderingForKind t.kind → s.status.isDone = true := by
    have hlt := orderingForKind_lt hk
    rw [isReady, if_pos (.inl hs)]
    dsimp only
    split
    · next h0 => exact iff_of_true rfl fun s _ hlt' => by omega
    · simp only [List.all_eq_true, Bool.not_eq_true', Bool.and_eq_false_imp, decide_eq_true_eq,
        Bool.not_eq_false']
  rw [hall]
  constructor
  · rintro h ⟨s, hs, hd, hlt, hopen⟩
    have := h s (Store.mem_listByDagRun.mpr ⟨hs, hd⟩) hlt
    rw [TaskStatus.isDone_eq_false.mpr hopen] at this
    exact Bool.false_ne_true this
  · intro h s hs hlt
    obtain ⟨hs, hd⟩ := Store.mem_listByDagRun.mp hs
    by_contra hopen
    exact h ⟨s, hs, hd, hlt, TaskStatus.isDone_eq_false.mp (by simpa using hopen)⟩

/-! ### The attempts of a pump -/

/-- A new attempt belongs to a dispatched task. -/
theorem World.mem_taskRuns_dispatchedAll {ts : List Task} {r : TaskRun}
    (hr : r ∈ (w.dispatchedAll C ts).taskRuns) : r ∈ w.taskRuns ∨ ∃ t ∈ ts, r.taskId = t.id := by
  induction ts generalizing w with
  | nil => exact .inl hr
  | cons t ts ih =>
    rcases ih (w := w.dispatched C t) hr with hr | ⟨v, hv, hrv⟩
    · rw [dispatched, markedRunning_taskRuns, putTask_taskRuns] at hr
      rcases Table.mem_save.mp hr with rfl | ⟨hr, _⟩
      · exact .inr ⟨t, List.mem_cons_self, rfl⟩
      · exact .inl hr
    · exact .inr ⟨v, List.mem_cons_of_mem _ hv, hrv⟩

theorem exists_readyTask {ts : List Task} {k : ℕ} {t : Task} (h : t ∈ ts) :
    ∃ r ∈ readyTasks C k ts, r.dagRunId = t.dagRunId := by
  induction ts generalizing k with
  | nil => exact absurd h List.not_mem_nil
  | cons v ts ih =>
    rcases List.mem_cons.mp h with rfl | h
    · exact ⟨_, List.mem_cons_self, rfl⟩
    · obtain ⟨r, hr, hrd⟩ := ih (k := k + 1) h
      exact ⟨r, List.mem_cons_of_mem _ hr, hrd⟩

/-- A pump returns no ready task of the run and opens no attempt for its tasks. -/
structure Idle (C : Config) (limit : Option ℕ) (d : DagRunId) (w : World) : Prop where
  ready : ∀ r ∈ returned ((scheduleReadyTasks limit).run (exec C .pump) w).1, r.dagRunId ≠ d
  attempts : ∀ r ∈ ((scheduleReadyTasks limit).run (exec C .pump) w).2.taskRuns, r ∉ w.taskRuns →
    ∀ t ∈ w.tasks, t.id = r.taskId → t.dagRunId ≠ d

theorem idle_iff_batch {limit : Option ℕ} {d : DagRunId} :
    Idle C limit d w ↔ ∀ t ∈ w.batch C limit, t.dagRunId ≠ d := by
  constructor
  · intro h t ht
    obtain ⟨r, hr, hrd⟩ := exists_readyTask (C := C) (k := w.drawn .pump) ht
    exact hrd ▸ h.ready r (by rwa [returned_scheduleReadyTasks])
  · intro h
    refine ⟨fun r hr => ?_, fun r hr hnew t ht hid hd => ?_⟩
    · rw [returned_scheduleReadyTasks] at hr
      obtain ⟨t, ht, n, -, -, rfl⟩ := mem_readyTasks hr
      exact h t ht
    · rw [run_scheduleReadyTasks] at hr
      rcases mem_taskRuns_dispatchedAll hr with hold | ⟨v, hv, hrv⟩
      · exact hnew hold
      · obtain ⟨u, hu, hsame, _⟩ := listed_of_mem_listed w (List.mem_filter.mp hv).1
        have hut : u = t := Table.eq_of_key hu ht (hsame.id.trans (hrv.symm.trans hid.symm))
        exact h v hv (hsame.run ▸ hut ▸ hd)

/-- In every reachable world a pump leaves a run alone, failed or not, exactly when
each of its pending tasks that are listed waits for an unfinished earlier stage. A
listing that is refused lists none. -/
theorem run_idle_iff (C : Config) (w : World) (hw : w.Reachable C) (d : DagRunId)
    (limit : Option ℕ) :
    Idle C limit d w ↔ ∀ t ∈ w.listed C.backend limit, t.dagRunId = d → Blocked w t := by
  have hready : ∀ t ∈ w.listed C.backend limit,
      (isReady t (w.listByDagRun t.dagRunId) = true ↔ ¬ Blocked w t) := by
    intro t ht
    obtain ⟨u, hu, rfl, hpending⟩ := Store.of_mem_listed ht
    exact isReady_iff_not_blocked ((Store.pendingView_status _ u).trans hpending)
      ((Store.pendingView_same _ u).kind ▸ knownKinds hw u hu)
  rw [idle_iff_batch]
  constructor
  · intro h t ht hd
    by_contra hnot
    exact h t (List.mem_filter.mpr ⟨ht, (hready t ht).mpr hnot⟩) hd
  · intro h t ht hd
    obtain ⟨ht, hr⟩ := List.mem_filter.mp ht
    exact (hready t ht).mp hr (h t ht hd)

/-- The chunker's output has a chunk set, one of the two embedders is dispatched,
and its only attempt fails. -/
def embedderFails : List Action :=
  Action.stagesDone [none, none, some (chunkSetsOutput nilText)] ++
    [.schedule (some 1), .deliver (.failed ⟨0⟩ ⟨6⟩ ⟨2⟩ ⟨9⟩ "" none)]

theorem run_idle_iff_embedders : ∃ w : World, w.Reachable (.canonical 1) ∧
    (∃ x ∈ w.dagRuns.rows, x.id = ⟨6⟩ ∧ x.status = .failed) ∧
    (Idle (.canonical 1) none ⟨6⟩ w ↔
      ∀ t ∈ w.listed .mem none, t.dagRunId = ⟨6⟩ → Blocked w t) := by
  have hw := World.Reachable.runAll (C := .canonical 1) embedderFails (by decide)
  exact ⟨_, hw, by decide, run_idle_iff _ _ hw _ _⟩

/-- The run has failed, and the other embedder is dispatched. -/
theorem failed_run_dispatches : ¬ ∀ (C : Config) (w : World), w.Reachable C →
    ∀ x ∈ w.dagRuns, x.status = .failed → ∀ limit, Idle C limit x.id w := by
  intro h
  have hw := World.Reachable.runAll (C := .canonical 1) embedderFails (by decide)
  have hfailed : ∃ x ∈ (Action.runAll (.canonical 1) embedderFails World.empty).dagRuns.rows,
      x.status = .failed ∧ ∃ r ∈ returned ((scheduleReadyTasks none).run (exec (.canonical 1) .pump)
        (Action.runAll (.canonical 1) embedderFails World.empty)).1,
        r.dagRunId = x.id := by decide
  obtain ⟨x, hx, hs, r, hr, hd⟩ := hfailed
  exact (h _ _ hw x hx hs none).ready r hr hd

/-! ### Fan-out behind chunkers -/

theorem kind_eq_of_ordering {k k' : String} (hk : k ∈ Planner.profileSequence)
    (hk' : k' ∈ Planner.profileSequence) (h : orderingForKind k = orderingForKind k') : k = k' := by
  have hinj : ∀ k ∈ Planner.profileSequence, ∀ k' ∈ Planner.profileSequence,
      orderingForKind k = orderingForKind k' → k = k' := by decide
  exact hinj k hk k' hk' h

/-- When only chunkers fan out, a failed run gets work exactly when a listed pending
task has the kind of a failed one. -/
theorem failed_run_idle_iff {steps : List (World × Action)} (hx : Execution C steps w)
    (hm : ∀ s ∈ steps, s.2.Allowed ChunkerOutput s.1) {x : DagRun} (hmem : x ∈ w.dagRuns)
    (hs : x.status = .failed) (limit : Option ℕ) :
    Idle C limit x.id w ↔ ∀ t ∈ w.listed C.backend limit, t.dagRunId = x.id →
      ∀ f ∈ w.tasks, f.dagRunId = x.id → f.status = .failed → t.kind ≠ f.kind := by
  have hw : w.Reachable C := ⟨_, hx⟩
  have hb : Barrier w := (barrier_preserved C).execution
    (fun t ht => absurd ht (Table.notMem_empty t)) hx hm
  have hagg := (agreement hw x hmem).aggregate (by rw [hs]; simp)
  obtain ⟨f₀, hf₀, hf₀d, hf₀s⟩ := Store.aggregate_eq_failed.mp (hagg.symm.trans hs)
  rw [run_idle_iff C w hw]
  refine forall₂_congr fun t ht => forall_congr' fun hd => ?_
  obtain ⟨u, hu, rfl, hpending⟩ := Store.of_mem_listed ht
  have hsame := Store.pendingView_same C.backend u
  constructor
  · -- a failed task of the same kind has found the earlier stages done
    rintro ⟨s, hs, hsd, hlt, hopen⟩ f hf hfd hfs hkind
    have := hb f hf (knownKinds hw f hf) (.inr (.inr (.inl hfs))) s hs
      (hsd.trans (hd.trans hfd.symm)) (hkind ▸ hlt)
    rw [TaskStatus.isDone_eq_false.mpr hopen] at this
    exact Bool.false_ne_true this
  · intro h
    rcases Nat.lt_trichotomy (orderingForKind f₀.kind) (orderingForKind u.kind) with hlt | heq | hlt
    · exact ⟨f₀, hf₀, hf₀d.trans hd.symm, hsame.kind ▸ hlt, by simp [hf₀s], by simp [hf₀s]⟩
    · exact absurd (hsame.kind.symm.trans
        (kind_eq_of_ordering (knownKinds hw u hu) (knownKinds hw f₀ hf₀) heq.symm))
        (h f₀ hf₀ hf₀d hf₀s)
    · have := hb f₀ hf₀ (knownKinds hw f₀ hf₀) (.inr (.inr (.inl hf₀s))) u hu
        (hsame.run.trans (hd.trans hf₀d.symm)) hlt
      rw [hpending] at this
      exact absurd this (by simp [TaskStatus.isDone])

end Contexide.Workflow
