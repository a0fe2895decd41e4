import Contexide.Workflow.Agreement
import Mathlib.GroupTheory.Perm.ViaEmbedding

/-! Statuses for different tasks in either order. The attempts and the runs come out
the same; the tasks come out the same up to the identifiers of the fanned-out ones,
which are drawn in the order of handling. Only the aggregate of a shared run is written
twice, and the later write sees both tasks. -/

namespace Contexide.Workflow

open Effects Storage Scheduler World

/-! ### Renaming drawn identifiers -/

def Task.permuted (σ : Equiv.Perm Uuid) (t : Task) : Task := { t with id := ⟨σ t.id.uuid⟩ }

/-- The `m` numbers from `k` on change places with the `n` numbers after them. -/
def swapBlocks (k m n i : ℕ) : ℕ :=
  if i < k then i else if i < k + m then i + n else if i < k + m + n then i - m else i

theorem swapBlocks_swapBlocks (k m n i : ℕ) : swapBlocks k n m (swapBlocks k m n i) = i := by
  unfold swapBlocks
  split_ifs <;> omega

def blockSwap (k m n : ℕ) : Equiv.Perm ℕ where
  toFun := swapBlocks k m n
  invFun := swapBlocks k n m
  left_inv := swapBlocks_swapBlocks k m n
  right_inv := swapBlocks_swapBlocks k n m

/-- Two blocks of identifiers of a component change places. -/
theorem exists_swap (C : Config) (i : Proc) (k m n : ℕ) : ∃ σ : Equiv.Perm Uuid,
    (∀ u, σ u ≠ u → ∃ j, k ≤ j ∧ u = C.ids.uuid i j) ∧
    (∀ j < m, σ (C.ids.uuid i (k + j)) = C.ids.uuid i (k + n + j)) ∧
    ∀ j < n, σ (C.ids.uuid i (k + m + j)) = C.ids.uuid i (k + j) := by
  let ids : ℕ ↪ Uuid := ⟨C.ids.uuid i, fun _ _ h => (C.ids.inj h).2⟩
  have happly : ∀ j, Equiv.Perm.viaEmbedding (blockSwap k m n) ids (C.ids.uuid i j) =
      C.ids.uuid i (swapBlocks k m n j) := Equiv.Perm.viaEmbedding_apply _ ids
  refine ⟨Equiv.Perm.viaEmbedding (blockSwap k m n) ids, fun u hu => ?_, fun j hj => ?_,
    fun j hj => ?_⟩
  · by_cases hids : u ∈ Set.range ids
    · obtain ⟨j, rfl⟩ := hids
      refine ⟨j, ?_, rfl⟩
      by_contra hlt
      refine hu ((happly j).trans ?_)
      rw [swapBlocks, if_pos (by omega)]
      rfl
    · exact absurd (Equiv.Perm.viaEmbedding_apply_of_notMem _ _ _ hids) hu
  · rw [happly, swapBlocks, if_neg (by omega), if_pos (by omega), Nat.add_right_comm]
  · rw [happly, swapBlocks, if_neg (by omega), if_neg (by omega), if_pos (by omega)]
    congr 1
    omega

variable {C : Config} {i : Proc} {σ : Equiv.Perm Uuid}

theorem map_permuted_embedTasks {d : DagRunId} {tenant : TenantId} {sets : List Uuid} {k k' : ℕ}
    (h : ∀ j < sets.length, σ (C.ids.uuid i (k + j)) = C.ids.uuid i (k' + j)) :
    (embedTasks C i d tenant k sets).map (Task.permuted σ) = embedTasks C i d tenant k' sets := by
  induction sets generalizing k k' with
  | nil => rfl
  | cons chunkSet rest ih =>
    have hrest : ∀ j < rest.length, σ (C.ids.uuid i (k + 1 + j)) = C.ids.uuid i (k' + 1 + j) := by
      intro j hj
      rw [show k + 1 + j = k + (j + 1) by omega, show k' + 1 + j = k' + (j + 1) by omega]
      exact h (j + 1) (by rw [List.length_cons]; omega)
    have hfirst : σ (C.ids.uuid i k) = C.ids.uuid i k' := h 0 (by simp)
    rw [embedTasks, embedTasks, List.map_cons, ih hrest, Task.permuted, embedTask, embedTask,
      hfirst]

/-- The identifiers of stored tasks have been drawn. -/
theorem permuted_of_has {w : World} (hw : w.Inv C)
    (hσ : ∀ u, σ u ≠ u → ∃ k, w.drawn i ≤ k ∧ u = C.ids.uuid i k) {t : Task}
    (ht : w.tasks.Has t.id) : t.permuted σ = t := by
  have hfixed : σ t.id.uuid = t.id.uuid := by
    by_contra hm
    obtain ⟨k, hk, hid⟩ := hσ _ hm
    exact hw.not_has_of_le i hk hid ht
  rw [Task.permuted, hfixed]

/-- Aggregates do not see identifiers. -/
theorem aggregate_of_permuted {s s' : Store}
    (h : (s.tasks.rows.map (Task.permuted σ)).Perm s'.tasks.rows) (d : DagRunId) :
    s.aggregate d = s'.aggregate d := by
  refine dagStatusFromTasks_congr fun st => ?_
  rw [Store.mem_statuses, Store.mem_statuses]
  constructor
  · rintro ⟨t, ht, hd, hs⟩
    exact ⟨t.permuted σ, h.subset (List.mem_map_of_mem ht), hd, hs⟩
  · rintro ⟨t', ht', hd, hs⟩
    obtain ⟨t, ht, rfl⟩ := List.mem_map.mp (h.symm.subset ht')
    exact ⟨t, ht, hd, hs⟩

/-! ### One status after another -/

namespace World.Delivery

variable {w : World} {m m₁ m₂ : WorkerStatus} {a a₁ a₂ : TaskRun} {u u₁ u₂ : Task}
  {x x₁ x₂ : DagRun}

theorem drawn_status (h : Delivery m w a u x) (hw : w.Inv C) :
    ((Action.deliver m).run C w).drawn .status = w.drawn .status + (m.chunkSets C).length := by
  rw [h.run_eq hw]
  simp [drawMany]

/-- Another task's status finds its records as they were, the run apart from its status. -/
theorem other (h₁ : Delivery m₁ w a₁ u₁ x₁) (h₂ : Delivery m₂ w a₂ u₂ x₂) (hw : w.Inv C)
    (hne : u₁.id ≠ u₂.id) :
    ∃ x, Delivery m₂ ((Action.deliver m₁).run C w) a₂ u₂ x ∧
      ∀ s : DagRunStatus, { x with status := s } = { x₂ with status := s } := by
  have hrun : a₂ ∈ ((Action.deliver m₁).run C w).taskRuns := by
    rw [h₁.taskRuns hw]
    refine Table.mem_save_of_ne h₂.run fun he => hne ?_
    rw [WorkerStatus.settledRun_id] at he
    rw [← h₁.ofTask, ← h₂.ofTask, Table.eq_of_key h₂.run h₁.run he]
  have htask : u₂ ∈ ((Action.deliver m₁).run C w).tasks :=
    (h₁.mem_tasks hw).mpr (.inr (.inl ⟨h₂.task, hne.symm⟩))
  by_cases hsame : x₂.id = x₁.id
  · -- the first status rewrote the run
    obtain rfl : x₂ = x₁ := Table.eq_of_key h₂.dagRun h₁.dagRun hsame
    refine ⟨{ x₂ with status := ((Action.deliver m₁).run C w).aggregate x₂.id },
      ⟨hrun, h₂.runId, h₂.active, htask, h₂.taskId, h₂.ofTask, h₂.running, ?_, h₂.dagRunId,
        h₂.ofRun, dagStatusFromTasks_ne_created _⟩, fun s => rfl⟩
    rw [h₁.dagRuns hw]
    exact Table.mem_save_self _ _
  · refine ⟨x₂, ⟨hrun, h₂.runId, h₂.active, htask, h₂.taskId, h₂.ofTask, h₂.running, ?_,
      h₂.dagRunId, h₂.ofRun, h₂.started⟩, fun s => rfl⟩
    rw [h₁.dagRuns hw]
    exact Table.mem_save_of_ne h₂.dagRun hsame

theorem settledTask_other (h₁ : Delivery m₁ w a₁ u₁ x₁) (hw : w.Inv C) (hne : u₁.id ≠ u₂.id) :
    settledTask C m₂ ((Action.deliver m₁).run C w) u₂ = settledTask C m₂ w u₂ := by
  rw [settledTask, settledTask, h₁.attemptsOf_ne hw hne.symm]

/-- A status changes no aggregate but that of its run. -/
theorem aggregate_other (h : Delivery m w a u x) (hw : w.Inv C) {d : DagRunId} (hd : d ≠ x.id) :
    ((Action.deliver m).run C w).aggregate d = w.aggregate d := by
  apply Store.aggregate_congr
  intro t ht
  rw [h.mem_tasks hw]
  have hsettled : (settledTask C m w u).dagRunId = x.id :=
    (settledTask_same C m w u).run.symm.trans h.ofRun
  constructor
  · rintro (rfl | ⟨hmem, _⟩ | hnew)
    · exact absurd (ht.symm.trans hsettled) hd
    · exact hmem
    · exact absurd (ht.symm.trans ((mem_embedTasks hnew).1.trans h.ofRun)) hd
  · intro hmem
    refine .inr (.inl ⟨hmem, fun he => hd ?_⟩)
    rw [← ht, Table.eq_of_key hmem h.task he, h.ofRun]

variable (h₁ : Delivery m₁ w a₁ u₁ x₁) (h₂ : Delivery m₂ w a₂ u₂ x₂) (hw : w.Sound C)
  (hw₁ : ((Action.deliver m₁).run C w).Sound C) (hne : u₁.id ≠ u₂.id)
include h₁ h₂ hw hw₁ hne

theorem taskRuns_both :
    ((Action.deliver m₂).run C ((Action.deliver m₁).run C w)).taskRuns =
      (w.taskRuns.save (m₁.settledRun a₁)).save (m₂.settledRun a₂) := by
  obtain ⟨x, h, _⟩ := h₁.other h₂ hw.inv hne
  rw [h.taskRuns hw₁.inv, h₁.taskRuns hw.inv]

/-- The settled tasks in place, then the new tasks in the order of the statuses. -/
theorem rows_tasks_both :
    ((Action.deliver m₂).run C ((Action.deliver m₁).run C w)).tasks.rows =
      ((w.tasks.save (settledTask C m₁ w u₁)).save (settledTask C m₂ w u₂)).rows ++
        (embedTasks C .status u₁.dagRunId u₁.tenantId (w.drawn .status) (m₁.chunkSets C) ++
          embedTasks C .status u₂.dagRunId u₂.tenantId
            (w.drawn .status + (m₁.chunkSets C).length) (m₂.chunkSets C)) := by
  obtain ⟨x, h, _⟩ := h₁.other h₂ hw.inv hne
  have hkey : (settledTask C m₂ w u₂).id = u₂.id := (settledTask_same C m₂ w u₂).id.symm
  have hstored : ∃ t ∈ (w.tasks.save (settledTask C m₁ w u₁)).rows,
      t.id = (settledTask C m₂ w u₂).id := by
    refine ⟨u₂, Table.mem_save_of_ne h₂.task ?_, hkey.symm⟩
    rw [← (settledTask_same C m₁ w u₁).id]
    exact hne.symm
  rw [h.rows_tasks hw₁.inv, h₁.settledTask_other hw.inv hne, ← List.append_assoc, newTasks,
    h₁.drawn_status hw.inv]
  congr 1
  have hrows := congrArg (upsert Task.id (settledTask C m₂ w u₂)) (h₁.rows_tasks hw.inv)
  exact hrows.trans (upsert_append_of_mem _ _ _ _ hstored)

/-- The runs, each with its aggregate in the last world. -/
theorem dagRuns_both :
    ((Action.deliver m₂).run C ((Action.deliver m₁).run C w)).dagRuns =
      (w.dagRuns.save { x₁ with status :=
        ((Action.deliver m₂).run C ((Action.deliver m₁).run C w)).aggregate x₁.id }).save
        { x₂ with status :=
          ((Action.deliver m₂).run C ((Action.deliver m₁).run C w)).aggregate x₂.id } := by
  obtain ⟨x, h, hx⟩ := h₁.other h₂ hw.inv hne
  have hid : x.id = x₂.id := h.dagRunId.trans h₂.dagRunId.symm
  rw [h.dagRuns hw₁.inv, h₁.dagRuns hw.inv, hx, hid]
  by_cases hsame : x₁.id = x₂.id
  · have hlater : ∀ s s' : DagRunStatus,
        (w.dagRuns.save { x₁ with status := s }).save { x₂ with status := s' } =
          w.dagRuns.save { x₂ with status := s' } := fun s s' => Table.save_save _ hsame
    rw [hlater, hlater]
  · have hother : x₁.id ≠ x.id := fun he => hsame (he.trans hid)
    rw [h.aggregate_other hw₁.inv hother]

end World.Delivery

/-- Two worlds agree up to identifiers that the status loop had not drawn in `w`. -/
structure AgreeUpToFresh (C : Config) (w v v' : World) : Prop where
  taskRuns : v.taskRuns = v'.taskRuns
  dagRuns : v.dagRuns = v'.dagRuns
  tasks : ∃ σ : Equiv.Perm Uuid,
    (∀ u, σ u ≠ u → ∃ k, w.drawn .status ≤ k ∧ u = C.ids.uuid .status k) ∧
    (v.tasks.rows.map (Task.permuted σ)).Perm v'.tasks.rows

namespace World.Delivery

variable {w : World} {m₁ m₂ : WorkerStatus} {a₁ a₂ : TaskRun} {u₁ u₂ : Task} {x₁ x₂ : DagRun}

theorem agreeUpToFresh (h₁ : Delivery m₁ w a₁ u₁ x₁) (h₂ : Delivery m₂ w a₂ u₂ x₂)
    (hw : w.Sound C) (hw₁ : ((Action.deliver m₁).run C w).Sound C)
    (hw₂ : ((Action.deliver m₂).run C w).Sound C) (hne : u₁.id ≠ u₂.id) :
    AgreeUpToFresh C w ((Action.deliver m₂).run C ((Action.deliver m₁).run C w))
      ((Action.deliver m₁).run C ((Action.deliver m₂).run C w)) := by
  have hrun : a₁.id ≠ a₂.id := fun he => hne <| by
    rw [← h₁.ofTask, ← h₂.ofTask, Table.eq_of_key h₁.run h₂.run he]
  have hkey₁ := (settledTask_same C m₁ w u₁).id
  have hkey₂ := (settledTask_same C m₂ w u₂).id
  obtain ⟨σ, hmoved, hleft, hright⟩ := exists_swap C .status (w.drawn .status)
    (m₁.chunkSets C).length (m₂.chunkSets C).length
  have htasks : (((Action.deliver m₂).run C ((Action.deliver m₁).run C w)).tasks.rows.map
      (Task.permuted σ)).Perm
        ((Action.deliver m₁).run C ((Action.deliver m₂).run C w)).tasks.rows := by
    have hstored : ∀ t ∈ ((w.tasks.save (settledTask C m₁ w u₁)).save (settledTask C m₂ w u₂)).rows,
        t.permuted σ = t := by
      intro t ht
      apply permuted_of_has hw.inv hmoved
      rcases Table.has_save.mp ⟨t, ht, rfl⟩ with he | hhas
      · exact ⟨u₂, h₂.task, hkey₂.trans he.symm⟩
      · rcases Table.has_save.mp hhas with he | hhas
        · exact ⟨u₁, h₁.task, hkey₁.trans he.symm⟩
        · exact hhas
    rw [h₁.rows_tasks_both h₂ hw hw₁ hne, h₂.rows_tasks_both h₁ hw hw₂ hne.symm,
      Table.save_comm ⟨u₂, h₂.task, hkey₂⟩ (by rw [← hkey₁, ← hkey₂]; exact hne.symm),
      List.map_append, List.map_append, List.map_congr_left hstored, List.map_id',
      map_permuted_embedTasks hleft, map_permuted_embedTasks hright]
    exact List.perm_append_comm.append_left _
  have haggregate : ∀ d, _ = _ := aggregate_of_permuted htasks
  refine ⟨?_, ?_, σ, hmoved, htasks⟩
  · rw [h₁.taskRuns_both h₂ hw hw₁ hne, h₂.taskRuns_both h₁ hw hw₂ hne.symm]
    exact Table.save_comm ⟨a₁, h₁.run, by simp⟩ (by simpa using hrun)
  · rw [h₁.dagRuns_both h₂ hw hw₁ hne, h₂.dagRuns_both h₁ hw hw₂ hne.symm, haggregate, haggregate]
    by_cases hsame : x₁.id = x₂.id
    · obtain rfl := Table.eq_of_key h₁.dagRun h₂.dagRun hsame
      rfl
    · exact Table.save_comm ⟨x₁, h₁.dagRun, rfl⟩ hsame

end World.Delivery

/-- Statuses that settle attempts of different tasks can be handled in either order. -/
theorem handled_either_order (C : Config) (w : World) (hw : w.Reachable C)
    (m₁ m₂ : WorkerStatus) (he₁ : Echoed m₁ w) (he₂ : Echoed m₂ w)
    (hactive₁ : ∃ a ∈ w.taskRuns, a.id = m₁.taskRunId ∧ a.status.isTerminal = false)
    (hactive₂ : ∃ a ∈ w.taskRuns, a.id = m₂.taskRunId ∧ a.status.isTerminal = false)
    (hne : m₁.taskId ≠ m₂.taskId) :
    AgreeUpToFresh C w (Action.runAll C [.deliver m₁, .deliver m₂] w)
      (Action.runAll C [.deliver m₂, .deliver m₁] w) := by
  obtain ⟨a₁, ha₁, hid₁, hact₁⟩ := hactive₁
  obtain ⟨a₂, ha₂, hid₂, hact₂⟩ := hactive₂
  obtain ⟨u₁, x₁, h₁⟩ := hw.sound.inv.delivery he₁ ha₁ hid₁ hact₁
  obtain ⟨u₂, x₂, h₂⟩ := hw.sound.inv.delivery he₂ ha₂ hid₂ hact₂
  have htask : u₁.id ≠ u₂.id := by rwa [h₁.taskId, h₂.taskId]
  exact h₁.agreeUpToFresh h₂ hw.sound (hw.run (.deliver m₁) he₁).sound
    (hw.run (.deliver m₂) he₂).sound htask

/-- Two runs whose extractors, tasks 7 and 13, were dispatched. -/
def extractorsDispatched : World :=
  Action.runAll (.canonical 3) [.create 0 ⟨0⟩ "default" .null, .create 1 ⟨0⟩ "default" .null,
    .schedule none] World.empty

/-- One extractor succeeds and fans out, the other fails. -/
theorem handled_either_order_extractors :
    let m₁ : WorkerStatus :=
      .success ⟨0⟩ ⟨6⟩ ⟨7⟩ ⟨0⟩ (some (chunkSetsOutput (Idempo.canonicalUuid 5)))
    let m₂ : WorkerStatus := .failed ⟨0⟩ ⟨12⟩ ⟨13⟩ ⟨1⟩ "unreadable" none
    AgreeUpToFresh (.canonical 3) extractorsDispatched
      (Action.runAll (.canonical 3) [.deliver m₁, .deliver m₂] extractorsDispatched)
      (Action.runAll (.canonical 3) [.deliver m₂, .deliver m₁] extractorsDispatched) := by
  intro m₁ m₂
  have hactive₁ : ∃ a ∈ extractorsDispatched.taskRuns.rows,
      a.id = m₁.taskRunId ∧ a.status.isTerminal = false := by decide
  have hactive₂ : ∃ a ∈ extractorsDispatched.taskRuns.rows,
      a.id = m₂.taskRunId ∧ a.status.isTerminal = false := by decide
  exact handled_either_order _ _ (World.Reachable.runAll _ (by decide)) m₁ m₂ (by decide)
    (by decide) hactive₁ hactive₂ (by decide)

end Contexide.Workflow
