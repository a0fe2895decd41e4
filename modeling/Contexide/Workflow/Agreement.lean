import Contexide.Workflow.Steps

/-! The stored status of a run is a cached aggregate. It is maintained when a
task is dispatched and when a status is handled; this module shows that no other
change of a task can make it wrong. -/

namespace Contexide.Workflow

open Effects Storage Scheduler World

namespace Store
variable {s s' : Store} {d : DagRunId}

theorem mem_statuses {st : TaskStatus} :
    st ∈ (s.listByDagRun d).map Task.status ↔ ∃ t ∈ s.tasks, t.dagRunId = d ∧ t.status = st := by
  simp only [List.mem_map, mem_listByDagRun, and_assoc]

theorem aggregate_eq_failed :
    s.aggregate d = .failed ↔ ∃ t ∈ s.tasks, t.dagRunId = d ∧ t.status = .failed := by
  rw [aggregate, dagStatusFromTasks_eq_failed, mem_statuses]

theorem aggregate_eq_success :
    s.aggregate d = .success ↔ ∀ t ∈ s.tasks, t.dagRunId = d → t.status.isDone = true := by
  rw [aggregate, dagStatusFromTasks_eq_success]
  constructor
  · exact fun h t ht hd => h _ (mem_statuses.mpr ⟨t, ht, hd, rfl⟩)
  · rintro h st hst
    obtain ⟨t, ht, hd, rfl⟩ := mem_statuses.mp hst
    exact h t ht hd

theorem aggregate_ne_created : s.aggregate d ≠ .created := dagStatusFromTasks_ne_created _

theorem aggregate_eq_running (hf : s.aggregate d ≠ .failed) (hs : s.aggregate d ≠ .success) :
    s.aggregate d = .running :=
  dagStatusFromTasks_eq_running hf hs

theorem aggregate_ext (hf : s.aggregate d = .failed ↔ s'.aggregate d = .failed)
    (hs : s.aggregate d = .success ↔ s'.aggregate d = .success) :
    s.aggregate d = s'.aggregate d :=
  dagStatusFromTasks_ext hf hs

/-- The aggregate of a run depends on its own tasks only. -/
theorem aggregate_congr (h : ∀ t, t.dagRunId = d → (t ∈ s.tasks ↔ t ∈ s'.tasks)) :
    s.aggregate d = s'.aggregate d := by
  refine dagStatusFromTasks_congr fun st => ?_
  rw [mem_statuses, mem_statuses]
  exact ⟨fun ⟨t, ht, hd, hs⟩ => ⟨t, (h t hd).mp ht, hd, hs⟩,
    fun ⟨t, ht, hd, hs⟩ => ⟨t, (h t hd).mpr ht, hd, hs⟩⟩

end Store

variable {C : Config} {w w' : World}

/-- The status of a run fits its tasks: `Created` as long as none has an attempt,
then the aggregate. -/
structure Agrees (w : World) (x : DagRun) : Prop where
  created : x.status = .created ↔ ∀ t ∈ w.tasks, t.dagRunId = x.id → w.attemptsOf t.id = []
  aggregate : x.status ≠ .created → x.status = w.aggregate x.id

def Agreement (w : World) : Prop := ∀ x ∈ w.dagRuns, Agrees w x

/-- A run keeps agreeing while its tasks and their attempts stay the same. -/
theorem Agrees.congr {x : DagRun} (h : Agrees w x)
    (ht : ∀ t, t.dagRunId = x.id → (t ∈ w.tasks ↔ t ∈ w'.tasks))
    (ha : ∀ t ∈ w.tasks, t.dagRunId = x.id → w'.attemptsOf t.id = w.attemptsOf t.id) :
    Agrees w' x where
  created := by
    rw [h.created]
    constructor
    · intro hn t hm hd
      have hm := (ht t hd).mpr hm
      rw [ha t hm hd, hn t hm hd]
    · intro hn t hm hd
      rw [← ha t hm hd]
      exact hn t ((ht t hd).mp hm) hd
  aggregate hs := (h.aggregate hs).trans (Store.aggregate_congr ht)

/-- The tasks of a run that has not started are pending. -/
theorem Agrees.pending {x : DagRun} (h : Agrees w x) (hw : w.Inv C) (hs : x.status = .created)
    {t : Task} (ht : t ∈ w.tasks) (hd : t.dagRunId = x.id) : t.status = .pending := by
  have hp := hw.phase t ht
  rw [h.created.mp hs t ht hd] at hp
  generalize t.status = st, he : ([] : List TaskRun) = rs at hp
  cases hp with
  | waiting => rfl
  | exhausted _ hl =>
    subst he
    have := C.cap_pos
    simp at hl
    omega
  | _ => simp at he

theorem Agreement.created {n : ℕ} {tenant : TenantId} {profile : String} {input : Json}
    (h : Agreement w) (hw : w.Inv C) : Agreement (w.created C n tenant profile input) := by
  intro x hx
  have hattempts : ∀ id, (w.created C n tenant profile input).attemptsOf id = w.attemptsOf id := by
    intro id
    simp only [Store.attemptsOf, World.created_taskRuns]
  rw [Table.mem_def, World.rows_created_dagRuns hw, List.mem_append] at hx
  rcases hx with hx | hx
  · -- an old run gets no tasks
    refine (h x hx).congr (fun t hd => ?_) fun t _ _ => hattempts t.id
    rw [Table.mem_def, Table.mem_def, World.rows_created_tasks hw, List.mem_append]
    refine ⟨.inl, fun ht => ht.resolve_right fun hn => ?_⟩
    obtain ⟨hd', _⟩ := Planner.mem_plannedTasks hn
    exact hw.not_has_nextRun _ ⟨x, hx, hd.symm.trans hd'⟩
  · -- the tasks of the new run have no attempts
    obtain rfl := List.mem_singleton.mp hx
    refine ⟨⟨fun _ t ht hd => ?_, fun _ => rfl⟩, fun hs => absurd rfl hs⟩
    rw [hattempts]
    rw [Table.mem_def, World.rows_created_tasks hw, List.mem_append] at ht
    rcases ht with ht | ht
    · exact absurd (hd ▸ hw.runOf t ht) (hw.not_has_nextRun _)
    · exact hw.attemptsOf_eq_nil (hw.not_has_nextTasks _ ht)

/-- The run of a listed task is stored. -/
theorem World.Inv.run_of_listed {t : Task} (hw : w.Inv C) (ht : w.Listed t) :
    ∃ x ∈ w.dagRuns, x.id = t.dagRunId := by
  obtain ⟨u, hu, hsame, _⟩ := ht
  exact hsame.run ▸ hw.runOf u hu

theorem Agreement.dispatched {t : Task} (h : Agreement w) (hw : w.Inv C) (ht : w.Listed t) :
    Agreement (w.dispatched C t) := by
  obtain ⟨x, hx, hxid⟩ := hw.run_of_listed ht
  obtain ⟨u, hu, hsame, hpending⟩ := ht
  have hrunning : { t with status := .running } ∈ (w.dispatched C t).tasks := by
    rw [World.dispatched_tasks]
    exact Table.mem_save_self _ _
  -- tasks of other runs are other tasks
  have hother : ∀ v ∈ w.tasks, v.dagRunId ≠ t.dagRunId → v.id ≠ t.id := fun v hv hd he =>
    hd (Table.eq_of_key hv hu (he.trans hsame.id.symm) ▸ hsame.run)
  intro y hy
  rw [World.dispatched_dagRuns hx hxid] at hy
  rcases Table.mem_save.mp hy with rfl | ⟨hy, hne⟩
  · have hnew : (startedRun x).status = (w.dispatched C t).aggregate x.id := by
      have hdone : (w.dispatched C t).aggregate x.id ≠ .success := fun hs => by
        have := Store.aggregate_eq_success.mp hs _ hrunning hxid.symm
        exact Bool.false_ne_true this
      have hfailed : (w.dispatched C t).aggregate x.id = .failed ↔ w.aggregate x.id = .failed := by
        rw [Store.aggregate_eq_failed, Store.aggregate_eq_failed]
        constructor
        · rintro ⟨v, hv, hd, hs⟩
          rcases eq_or_ne v.id t.id with he | he
          · rw [World.dispatched_tasks] at hv
            rw [Table.eq_of_mem_save hv he] at hs
            exact absurd hs (by simp)
          · exact ⟨v, (mem_dispatched_of_ne he).mp hv, hd, hs⟩
        · rintro ⟨v, hv, hd, hs⟩
          refine ⟨v, (mem_dispatched_of_ne fun he => ?_).mpr hv, hd, hs⟩
          rw [Table.eq_of_key hv hu (he.trans hsame.id.symm), hpending] at hs
          exact absurd hs (by simp)
      unfold startedRun
      split
      · next hc =>
        have hnf : (w.dispatched C t).aggregate x.id ≠ .failed := by
          rw [Ne, hfailed, Store.aggregate_eq_failed]
          rintro ⟨v, hv, hd, hs⟩
          rw [(h x hx).pending hw hc hv hd] at hs
          exact absurd hs (by simp)
        exact (Store.aggregate_eq_running hnf hdone).symm
      · next hc =>
        rw [(h x hx).aggregate hc]
        refine Store.aggregate_ext hfailed.symm ⟨fun hs => ?_, fun hs => absurd hs hdone⟩
        have := Store.aggregate_eq_success.mp hs u hu (hsame.run.trans hxid.symm)
        rw [hpending] at this
        exact absurd this (by simp [TaskStatus.isDone])
    refine ⟨⟨fun hc => absurd hc (startedRun_status_ne x), fun hn => ?_⟩, fun _ => ?_⟩
    · have hnil := hn _ hrunning (by simpa using hxid.symm)
      rw [World.attemptsOf_dispatched_self hw] at hnil
      simp at hnil
    · rw [startedRun_id]
      exact hnew
  · rw [startedRun_id, hxid] at hne
    refine (h y hy).congr (fun v hd => ?_) fun v hv hd =>
      World.attemptsOf_dispatched_ne hw t (hother v hv (hd ▸ hne))
    by_cases he : v.id = t.id
    · refine ⟨fun hv => absurd he (hother v hv (hd ▸ hne)), fun hv => ?_⟩
      rw [World.dispatched_tasks] at hv
      rw [Table.eq_of_mem_save hv he] at hd
      exact absurd hd.symm hne
    · exact (mem_dispatched_of_ne he).symm

theorem Agreement.delivered {m : WorkerStatus} {a : TaskRun} {u : Task} {x : DagRun}
    (h : Agreement w) (hw : w.Inv C) (hd : Delivery m w a u x) :
    Agreement ((Action.deliver m).run C w) := by
  have hsame := Delivery.settledTask_same C m w u
  intro y hy
  rw [hd.dagRuns hw] at hy
  rcases Table.mem_save.mp hy with rfl | ⟨hy, hne⟩
  · refine ⟨⟨fun hc => absurd hc Store.aggregate_ne_created, fun hn => ?_⟩, fun _ => rfl⟩
    obtain ⟨init, _, _, _, hinit⟩ := hd.attemptsOf_self hw
    have hnil := hn _ ((hd.mem_tasks hw).mpr (.inl rfl)) (hsame.run.symm.trans hd.ofRun)
    rw [← hsame.id, hinit] at hnil
    simp at hnil
  · have hother : ∀ v ∈ w.tasks, v.dagRunId = y.id → v.id ≠ u.id := fun v hv hd' he =>
      hne (hd'.symm.trans (Table.eq_of_key hv hd.task he ▸ hd.ofRun))
    refine (h y hy).congr (fun v hvd => ?_) fun v hv hvd =>
      hd.attemptsOf_ne hw (hother v hv hvd)
    rw [hd.mem_tasks hw]
    constructor
    · exact fun hv => .inr (.inl ⟨hv, hother v hv hvd⟩)
    · rintro (rfl | hv | hv)
      · exact absurd (hvd.symm.trans (hsame.run.symm.trans hd.ofRun)) hne
      · exact hv.1
      · obtain ⟨hvd', _⟩ := mem_embedTasks hv
        exact absurd (hvd.symm.trans (hvd'.trans hd.ofRun)) hne

theorem agreement_preserved (C : Config) : Preserved C (fun _ _ => True) Agreement where
  created _ _ _ _ _ hw h := h.created hw.inv
  dispatched _ _ hw ht _ h := h.dispatched hw.inv ht
  announced _ _ h x hx := ⟨(h x hx).created, (h x hx).aggregate⟩
  delivered _ _ _ _ _ hw hd _ h := h.delivered hw.inv hd

theorem agreement (hw : w.Reachable C) : Agreement w :=
  (agreement_preserved C).reachable (fun x hx => absurd hx (Table.notMem_empty x)) hw

/-- A run with the status `s`. -/
def HasStatus (d : DagRunId) (s : DagRunStatus) (w : World) : Prop :=
  ∃ x ∈ w.dagRuns, x.id = d ∧ x.status = s

theorem HasStatus.dispatched {d : DagRunId} {s : DagRunStatus} {t : Task} (h : HasStatus d s w)
    (hw : w.Inv C) (ht : w.Listed t) (hs : s ≠ .created) : HasStatus d s (w.dispatched C t) := by
  obtain ⟨x, hx, rfl, hxs⟩ := h
  obtain ⟨y, hy, hyid⟩ := hw.run_of_listed ht
  refine ⟨x, ?_, rfl, hxs⟩
  rw [dispatched_dagRuns hy hyid, Table.mem_save]
  by_cases he : x.id = y.id
  · obtain rfl := Table.eq_of_key hx hy he
    exact .inl (by rw [startedRun, if_neg (hxs ▸ hs)])
  · exact .inr ⟨hx, by rwa [startedRun_id]⟩

/-- A status does not change a run that succeeded or failed. -/
theorem HasStatus.delivered {d : DagRunId} {s : DagRunStatus} {m : WorkerStatus} {a : TaskRun}
    {u : Task} {x : DagRun} (h : HasStatus d s w) (hw : w.Inv C) (hag : Agreement w)
    (hd : Delivery m w a u x) (hs : s = .success ∨ s = .failed) :
    HasStatus d s ((Action.deliver m).run C w) := by
  obtain ⟨y, hy, rfl, hys⟩ := h
  by_cases he : y.id = x.id
  · obtain rfl := Table.eq_of_key hy hd.dagRun he
    have hold : y.status = w.aggregate y.id := (hag y hy).aggregate hd.started
    refine ⟨{ y with status := ((Action.deliver m).run C w).aggregate y.id }, ?_, rfl, ?_⟩
    · rw [hd.dagRuns hw]
      exact Table.mem_save_self _ _
    · rcases hs with rfl | rfl
      · have := Store.aggregate_eq_success.mp (hold.symm.trans hys) u hd.task hd.ofRun
        rw [hd.running] at this
        exact absurd this (by simp [TaskStatus.isDone])
      · obtain ⟨t, ht, htd, hts⟩ := Store.aggregate_eq_failed.mp (hold.symm.trans hys)
        refine Store.aggregate_eq_failed.mpr
          ⟨t, (hd.mem_tasks hw).mpr (.inr (.inl ⟨ht, ?_⟩)), htd, hts⟩
        intro hid
        rw [Table.eq_of_key ht hd.task hid, hd.running] at hts
        exact absurd hts (by simp)
  · refine ⟨y, ?_, rfl, hys⟩
    rw [hd.dagRuns hw]
    exact Table.mem_save_of_ne hy he

theorem hasStatus_preserved (C : Config) (d : DagRunId) {s : DagRunStatus}
    (hs : s = .success ∨ s = .failed) :
    Preserved C (fun _ _ => True) fun w => Agreement w ∧ HasStatus d s w where
  created w n tenant profile input hw h := by
    refine ⟨(agreement_preserved C).created w n tenant profile input hw h.1, ?_⟩
    obtain ⟨x, hx, hid, hxs⟩ := h.2
    refine ⟨x, ?_, hid, hxs⟩
    rw [Table.mem_def, rows_created_dagRuns hw.inv]
    exact List.mem_append_left _ hx
  dispatched w t hw ht hr h := ⟨(agreement_preserved C).dispatched w t hw ht hr h.1,
    h.2.dispatched hw.inv ht (by rcases hs with rfl | rfl <;> simp)⟩
  announced w ready h := ⟨(agreement_preserved C).announced w ready h.1, h.2⟩
  delivered w m a u x hw hd ha h := ⟨(agreement_preserved C).delivered w m a u x hw hd ha h.1,
    h.2.delivered hw.inv h.1 hd hs⟩

/-- In every reachable world the stored status of a run is `Created` when none
of its tasks has an attempt and else the aggregate of its tasks; a run that
succeeded or failed keeps that status. -/
theorem status_agrees (C : Config) (w : World) (hw : w.Reachable C) :
    (∀ x ∈ w.dagRuns,
      (x.status = .created ↔ ∀ t ∈ w.tasks, t.dagRunId = x.id → w.attemptsOf t.id = []) ∧
      (x.status ≠ .created →
        x.status = dagStatusFromTasks ((w.listByDagRun x.id).map Task.status))) ∧
    ∀ x ∈ w.dagRuns, x.status = .success ∨ x.status = .failed →
      ∀ w', w.Later C w' → ∃ x' ∈ w'.dagRuns, x'.id = x.id ∧ x'.status = x.status := by
  refine ⟨fun x hx => ⟨(agreement hw x hx).created, (agreement hw x hx).aggregate⟩, ?_⟩
  intro x hx hs w' hl
  exact ((hasStatus_preserved C x.id hs).later hl hw ⟨agreement hw, x, hx, rfl, rfl⟩).2

/-- A run whose extractor succeeded. -/
theorem status_agrees_extractor : ∃ w : World, w.Reachable (.paired 3) ∧
    (∃ x ∈ w.dagRuns.rows, x.status = .running) ∧
    (∀ x ∈ w.dagRuns,
      (x.status = .created ↔ ∀ t ∈ w.tasks, t.dagRunId = x.id → w.attemptsOf t.id = []) ∧
      (x.status ≠ .created →
        x.status = dagStatusFromTasks ((w.listByDagRun x.id).map Task.status))) ∧
    ∀ x ∈ w.dagRuns, x.status = .success ∨ x.status = .failed →
      ∀ w', w.Later (.paired 3) w' → ∃ x' ∈ w'.dagRuns, x'.id = x.id ∧ x'.status = x.status := by
  have hw := World.Reachable.runAll (C := .paired 3) (Action.stagesDone [none]) (by decide)
  exact ⟨_, hw, by decide, status_agrees _ _ hw⟩

end Contexide.Workflow
