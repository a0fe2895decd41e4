import Contexide.Workflow.Isolation
import Contexide.Workflow.Redelivery

/-! Terminal statuses of runs. Marking a run as running looks at its status
first; the status handler does not. It writes the aggregate of the run's tasks
over any stored status, so a terminal one lasts exactly as long as every status
that gets to the aggregate finds it equal. -/

namespace Contexide.Workflow

open Effects Storage Scheduler World

variable {C : Config} {m : WorkerStatus} {w w' : World} {d : DagRunId} {s : DagRunStatus}

/-- The stored attempt that the message names has not ended, and the handler
gets to the aggregate. -/
def WorkerStatus.Lands (m : WorkerStatus) (w : World) : Prop :=
  (∃ a ∈ w.taskRuns, a.id = m.taskRunId ∧ a.status.isTerminal = false) ∧ ReachesAggregate w m

/-- The message leaves no task of its run open: a success without chunk sets, or a
failure of a task that is not in the run. -/
def WorkerStatus.Closes (C : Config) (w : World) : WorkerStatus → Prop
  | .success _ _ _ _ output => chunkSetsOf C output = []
  | .failed _ d t _ _ _ => ∀ u ∈ w.tasks, u.id = t → u.dagRunId ≠ d

/-- The message fails a task of its run that has no retry left. -/
def WorkerStatus.Exhausts (C : Config) (w : World) : WorkerStatus → Prop
  | .success .. => False
  | .failed _ d t _ _ _ => (∃ u ∈ w.tasks, u.id = t ∧ u.dagRunId = d) ∧
      C.retryPolicy.shouldRetry (UInt32.ofNat (w.listByTask t).length) = false

/-- The message fits a terminal status of its run: the other tasks are done and it
closes the run, or another task has failed or it exhausts its own. No message fits
the statuses that are not computed from tasks. -/
def WorkerStatus.Fits (C : Config) (w : World) (m : WorkerStatus) : DagRunStatus → Prop
  | .success => (∀ t ∈ w.tasks, t.dagRunId = m.dagRunId → t.id ≠ m.taskId →
      t.status.isDone = true) ∧ m.Closes C w
  | .failed => (∃ t ∈ w.tasks, t.dagRunId = m.dagRunId ∧ t.id ≠ m.taskId ∧
      t.status = .failed) ∨ m.Exhausts C w
  | _ => False

/-- A status for the run `d` that gets to the aggregate fits the status `s`. -/
def Action.Respects (C : Config) (d : DagRunId) (s : DagRunStatus) (w : World) : Action → Prop
  | .deliver m => m.dagRunId = d → m.Lands w → m.Fits C w s
  | _ => True

/-- The calls of a scheduler: everything but the creation of a run. -/
def Action.IsCall : Action → Prop
  | .create .. => False
  | _ => True

/-- Finite sequences of scheduler calls from a world: the calls, latest first,
with the world each was made in, and the world they lead to. The statuses that
are handled are arbitrary. -/
inductive Calls (C : Config) (w : World) : List (World × Action) → World → Prop
  | nil : Calls C w [] w
  | cons {steps : List (World × Action)} {w' : World} (a : Action) (h : Calls C w steps w')
      (ha : a.IsCall) : Calls C w ((w', a) :: steps) (a.run C w')

/-- The identifiers that the status loop has not drawn yet name no stored task. -/
def World.FreshIds (C : Config) (w : World) : Prop :=
  ∀ k, w.drawn .status ≤ k → ¬ w.tasks.Has ⟨C.ids.uuid .status k⟩

/-! ### One call -/

theorem all_isDone_statusesAfter (hreach : ReachesAggregate w m) :
    (∀ st ∈ m.statusesAfter C w, st.isDone = true) ↔
      (∀ t ∈ w.tasks, t.dagRunId = m.dagRunId → t.id ≠ m.taskId → t.status.isDone = true) ∧
        m.Closes C w := by
  simp only [mem_statusesAfter_iff]
  constructor
  · intro h
    refine ⟨fun t ht hd hne => h _ (.inr (.inl ⟨t, ht, hd, hne, rfl⟩)), ?_⟩
    cases m with
    | success tenant d t r output =>
      by_contra hsets
      exact Bool.false_ne_true (h .pending (.inr (.inr ⟨rfl, hsets, hreach⟩)))
    | failed tenant d t r error errorKind =>
      intro u hu hid hd
      have hdone := h _ (.inl ⟨u, hu, hd, hid, rfl⟩)
      simp only [WorkerStatus.settledTask, failedTask_status] at hdone
      split at hdone <;> exact Bool.false_ne_true hdone
  · rintro ⟨hothers, hcloses⟩ st (⟨u, hu, hd, hid, rfl⟩ | ⟨v, hv, hd, hne, rfl⟩ | ⟨_, hsets, _⟩)
    · cases m with
      | success => rfl
      | failed => exact absurd hd (hcloses u hu hid)
    · exact hothers v hv hd hne
    · cases m with
      | success => exact absurd hcloses hsets
      | failed => exact absurd rfl hsets

theorem failed_mem_statusesAfter :
    .failed ∈ m.statusesAfter C w ↔
      (∃ t ∈ w.tasks, t.dagRunId = m.dagRunId ∧ t.id ≠ m.taskId ∧ t.status = .failed) ∨
        m.Exhausts C w := by
  have hnamed : (∃ u ∈ w.tasks, u.dagRunId = m.dagRunId ∧ u.id = m.taskId ∧
      (m.settledTask C u (w.listByTask m.taskId).length).status = .failed) ↔ m.Exhausts C w := by
    cases m with
    | success => simp [WorkerStatus.settledTask, WorkerStatus.Exhausts]
    | failed tenant d t r error errorKind =>
      simp only [WorkerStatus.settledTask, failedTask_status, WorkerStatus.Exhausts,
        WorkerStatus.taskId, WorkerStatus.dagRunId]
      constructor
      · rintro ⟨u, hu, hd, hid, hf⟩
        exact ⟨⟨u, hu, hid, hd⟩, by simpa using hf⟩
      · rintro ⟨⟨u, hu, hid, hd⟩, hretry⟩
        exact ⟨u, hu, hd, hid, by simpa using hretry⟩
  rw [mem_statusesAfter_iff, hnamed, or_comm, or_assoc]
  exact or_congr_right (or_iff_right fun h => absurd h.1 (by simp))

/-- A terminal status is the aggregate after a message exactly when the message fits it. -/
theorem aggregate_after_iff (hreach : ReachesAggregate w m) (hs : s.isTerminal = true) :
    dagStatusFromTasks (m.statusesAfter C w) = s ↔ m.Fits C w s := by
  cases s with
  | created => exact absurd hs (by decide)
  | running => exact absurd hs (by decide)
  | success => exact (dagStatusFromTasks_eq_success _).trans (all_isDone_statusesAfter hreach)
  | failed => exact (dagStatusFromTasks_eq_failed _).trans failed_mem_statusesAfter
  | cancelled | partialFailed =>
    apply iff_of_false
    · apply dagStatusFromTasks_ne <;> simp
    · exact id

namespace HasStatus

theorem recomputed_iff {x : DagRun} (hx : x ∈ w.dagRuns) :
    HasStatus x.id s (w.recomputed x.id) ↔ w.aggregate x.id = s := by
  rw [HasStatus, recomputed_dagRuns hx]
  constructor
  · rintro ⟨y, hy, hid, rfl⟩
    rw [Table.eq_of_mem_save hy hid]
  · rintro rfl
    exact ⟨_, Table.mem_save_self _ _, rfl, rfl⟩

/-- Only a created run is marked running. -/
theorem markedRunning {e : DagRunId} (h : HasStatus d s w) (hs : s ≠ .created) :
    HasStatus d s (w.markedRunning e) := by
  obtain ⟨x, hx, rfl, rfl⟩ := h
  unfold World.markedRunning
  split
  · next y hy =>
    split
    · next hc =>
      refine ⟨x, Table.mem_save_of_ne hx fun he => hs ?_, rfl, rfl⟩
      rw [Table.eq_of_key hx (Table.get_eq_some.mp hy).1 he, hc]
    · exact ⟨x, hx, rfl, rfl⟩
  · exact ⟨x, hx, rfl, rfl⟩

theorem dispatchedAll {ts : List Task} (h : HasStatus d s w) (hs : s ≠ .created) :
    HasStatus d s (w.dispatchedAll C ts) := by
  induction ts generalizing w with
  | nil => exact h
  | cons t ts ih => exact ih (w := w.dispatched C t) (markedRunning h hs)

theorem schedule {limit : Option ℕ} (h : HasStatus d s w) (hs : s ≠ .created) :
    HasStatus d s ((Action.schedule limit).run C w) := by
  rw [run_schedule_eq]
  exact dispatchedAll h hs

end HasStatus

/-- A message that does not land leaves the runs alone. -/
theorem WorkerStatus.handled_dagRuns (h : ¬ m.Lands w) :
    (w.handled C .status m).dagRuns = w.dagRuns := by
  by_cases ha : ∃ a ∈ w.taskRuns, a.id = m.taskRunId ∧ a.status.isTerminal = false
  · obtain ⟨a, ha, hid, hrun⟩ := ha
    have hN := Nat.lt_succ_self (m.taskCall + (m.chunkSets C).length)
    rcases handled_of_running (C := C) .status (hid ▸ Table.get_of_mem ha) hrun hN with
      ⟨_, he⟩ | ⟨hreach, _⟩
    · rw [he, stopped_dagRuns]
      rfl
    · exact absurd ⟨⟨a, ha, hid, hrun⟩, hreach⟩ h
  · rw [handled_of_terminal]
    intro r hr hid
    by_contra hrun
    exact ha ⟨r, hr, hid, by simpa using hrun⟩

/-- A message that lands ends with the aggregate of the settled tasks. -/
theorem WorkerStatus.Lands.handled (h : m.Lands w) (hfresh : w.FreshIds C) :
    ∃ w₁ : World, w₁.dagRuns = w.dagRuns ∧
      w₁.aggregate m.dagRunId = dagStatusFromTasks (m.statusesAfter C w) ∧
      w.handled C .status m = w₁.recomputed m.dagRunId := by
  obtain ⟨⟨a, ha, hid, hrun⟩, hreach⟩ := h
  have hN := Nat.lt_succ_self (m.taskCall + (m.chunkSets C).length)
  rcases handled_of_running (C := C) .status (hid ▸ Table.get_of_mem ha) hrun hN with
    ⟨hno, _⟩ | ⟨_, he⟩
  · exact absurd hreach hno
  have hfresh' : ∀ k, (w.putTaskRun (m.settledRun a)).drawn .status ≤ k →
      ¬ (w.putTaskRun (m.settledRun a)).tasks.Has ⟨C.ids.uuid .status k⟩ := hfresh
  have hagg := aggregate_stopped (m := m) hN hfresh'
  rw [statusesAfter_putTaskRun ha] at hagg
  refine ⟨_, ?_, hagg, he⟩
  rw [stopped_dagRuns]
  rfl

/-- A status keeps the stored status of a run exactly when it respects it. -/
theorem hasStatus_deliver (hfresh : w.FreshIds C) (h : HasStatus d s w)
    (hs : s.isTerminal = true) :
    HasStatus d s ((Action.deliver m).run C w) ↔ (Action.deliver m).Respects C d s w := by
  rw [Action.run, run_handleWorkerStatus]
  obtain ⟨x, hx, rfl, hxs⟩ := h
  by_cases hland : m.Lands w
  · obtain ⟨w₁, hruns, hagg, he⟩ := hland.handled hfresh
    have hx₁ : x ∈ w₁.dagRuns := by rwa [hruns]
    rw [he]
    by_cases hd : m.dagRunId = x.id
    · rw [hd, HasStatus.recomputed_iff hx₁, ← hd, hagg, aggregate_after_iff hland.2 hs]
      exact ⟨fun h _ _ => h, fun h => h rfl hland⟩
    · apply iff_of_true
      · exact ⟨x, (mem_dagRuns_recomputed (Ne.symm hd)).mpr hx₁, rfl, hxs⟩
      · intro hd'
        exact absurd hd' hd
  · apply iff_of_true
    · refine ⟨x, ?_, rfl, hxs⟩
      rwa [WorkerStatus.handled_dagRuns hland]
    · intro _ hl
      exact absurd hl hland

/-- A run with a terminal status keeps it in a call exactly when the call
respects the status. -/
theorem hasStatus_run {a : Action} (ha : a.IsCall) (hfresh : w.FreshIds C) (h : HasStatus d s w)
    (hs : s.isTerminal = true) : HasStatus d s (a.run C w) ↔ a.Respects C d s w := by
  cases a with
  | create => exact ha.elim
  | schedule =>
    have hne : s ≠ .created := by
      rintro rfl
      exact Bool.false_ne_true hs
    exact iff_of_true (h.schedule hne) trivial
  | deliver => exact hasStatus_deliver hfresh h hs

/-! ### Fresh identifiers stay fresh -/

namespace World

theorem has_dispatchedAll {ts : List Task} (hts : ∀ t ∈ ts, w.tasks.Has t.id) {id : TaskId} :
    (w.dispatchedAll C ts).tasks.Has id ↔ w.tasks.Has id := by
  induction ts generalizing w with
  | nil => rfl
  | cons t ts ih =>
    have hsame : ∀ {id}, (w.dispatched C t).tasks.Has id ↔ w.tasks.Has id := by
      intro id
      rw [dispatched_tasks, Table.has_save]
      exact or_iff_right_of_imp fun he => he ▸ hts t List.mem_cons_self
    exact (ih fun v hv => hsame.mpr (hts v (List.mem_cons_of_mem _ hv))).trans hsame

theorem drawn_dispatchedAll (ts : List Task) :
    (w.dispatchedAll C ts).drawn .status = w.drawn .status := by
  induction ts generalizing w with
  | nil => rfl
  | cons t ts ih =>
    refine (ih (w := w.dispatched C t)).trans ?_
    simp [dispatched, draw_drawn_ne]

theorem handled_tasks_of_not_has (h : ¬ w.tasks.Has m.taskId) :
    (w.handled C .status m).tasks = w.tasks := by
  unfold handled
  split
  · rfl
  · split
    · rfl
    · rw [Table.get_eq_none.mpr h]
      cases m <;> simp

/-- A task that a status adds has an identifier that was drawn for it. -/
theorem has_handled {id : TaskId} (h : (w.handled C .status m).tasks.Has id) :
    w.tasks.Has id ∨ DrawnBetween C w (w.handled C .status m) id := by
  by_cases hm : w.tasks.Has m.taskId
  · obtain ⟨t, ht, rfl⟩ := h
    by_cases hid : t.id = m.taskId
    · exact .inl (hid ▸ hm)
    · rcases (Framed.handled C m w).added t ht hid with h | h
      · exact .inl ⟨t, h, rfl⟩
      · exact .inr h.1
  · rw [handled_tasks_of_not_has hm] at h
    exact .inl h

end World

theorem World.drawn_le_handled :
    w.drawn .status ≤ (w.handled C .status m).drawn .status := by
  unfold World.handled
  split
  · rfl
  · split
    · rfl
    · split
      · simp [World.settledTask, World.drawMany]
      · split <;> simp

theorem World.FreshIds.run (h : w.FreshIds C) {a : Action} (ha : a.IsCall) :
    (a.run C w).FreshIds C := by
  intro k hk hhas
  cases a with
  | create => exact ha
  | schedule limit =>
    rw [run_schedule_eq] at hk hhas
    change (w.dispatchedAll C (w.batch C limit)).drawn .status ≤ k at hk
    change (w.dispatchedAll C (w.batch C limit)).tasks.Has _ at hhas
    rw [drawn_dispatchedAll] at hk
    rw [has_dispatchedAll fun t ht => ?_] at hhas
    · exact h k hk hhas
    · obtain ⟨u, hu, hsame, _⟩ := listed_of_mem_listed w (List.mem_filter.mp ht).1
      exact ⟨u, hu, hsame.id⟩
  | deliver m =>
    rw [Action.run, run_handleWorkerStatus] at hk hhas
    change (w.handled C .status m).drawn .status ≤ k at hk
    rcases has_handled hhas with hold | ⟨j, _, hlt, hj⟩
    · exact h k (drawn_le_handled.trans hk) hold
    · have := (C.ids.inj hj).2
      omega

theorem Calls.freshIds {steps : List (World × Action)} (hc : Calls C w steps w')
    (h : w.FreshIds C) : w'.FreshIds C := by
  induction hc with
  | nil => exact h
  | cons a _ ha ih => exact ih.run ha

/-! ### Sequences of calls -/

/-- A run with a terminal status keeps it after every call of a sequence exactly
when every status that is handled for it, and gets to the aggregate, fits that
status. -/
theorem terminal_status_iff (C : Config) (w : World) (hfresh : w.FreshIds C) (d : DagRunId)
    (s : DagRunStatus) (h : HasStatus d s w) (hs : s.isTerminal = true)
    (steps : List (World × Action)) (w' : World) (hc : Calls C w steps w') :
    (∀ p ∈ steps, HasStatus d s (p.2.run C p.1)) ↔ ∀ p ∈ steps, p.2.Respects C d s p.1 := by
  suffices hmain : ((∀ p ∈ steps, HasStatus d s (p.2.run C p.1)) ↔
      ∀ p ∈ steps, p.2.Respects C d s p.1) ∧
      ((∀ p ∈ steps, HasStatus d s (p.2.run C p.1)) → HasStatus d s w') from hmain.1
  induction hc with
  | nil => exact ⟨by simp, fun _ => h⟩
  | cons a hc ha ih =>
    simp only [List.forall_mem_cons]
    refine ⟨?_, fun hall => hall.1⟩
    constructor
    · rintro ⟨hlast, hbefore⟩
      exact ⟨(hasStatus_run ha (hc.freshIds hfresh) (ih.2 hbefore) hs).mp hlast,
        ih.1.mp hbefore⟩
    · rintro ⟨hlast, hbefore⟩
      have hbefore := ih.1.mpr hbefore
      exact ⟨(hasStatus_run ha (hc.freshIds hfresh) (ih.2 hbefore) hs).mpr hlast, hbefore⟩

/-- A run that was cancelled while its extractor is with a worker. -/
def cancelledOnce : World :=
  match dispatchedOnce.dagRuns.get ⟨6⟩ with
  | some x => dispatchedOnce.putDagRun { x with status := .cancelled }
  | none => dispatchedOnce

theorem cancelledOnce_freshIds : cancelledOnce.FreshIds (.paired 3) := by
  intro k hk
  have hdrawn : cancelledOnce.drawn = dispatchedOnce.drawn := by
    unfold cancelledOnce
    split <;> simp
  have htasks : cancelledOnce.tasks = dispatchedOnce.tasks := by
    unfold cancelledOnce
    split <;> simp
  rw [htasks]
  rw [hdrawn] at hk
  exact dispatchedOnce_reachable.sound.inv.not_has_of_le .status hk rfl

theorem cancelledOnce_hasStatus : HasStatus ⟨6⟩ .cancelled cancelledOnce := by
  have h : ∃ x ∈ cancelledOnce.dagRuns.rows, x.id = ⟨6⟩ ∧ x.status = .cancelled := by decide
  exact h

/-- Scheduling respects the cancellation; the late success of the extractor does not. -/
theorem terminal_status_iff_cancelled :
    ∃ steps w', Calls (.paired 3) cancelledOnce steps w' ∧
      steps.map Prod.snd = [.deliver extractorDone, .schedule none] ∧
      ((∀ p ∈ steps, HasStatus ⟨6⟩ .cancelled (p.2.run (.paired 3) p.1)) ↔
        ∀ p ∈ steps, p.2.Respects (.paired 3) ⟨6⟩ .cancelled p.1) := by
  have hc : Calls (.paired 3) cancelledOnce _ _ :=
    (Calls.nil.cons (.schedule none) trivial).cons (.deliver extractorDone) trivial
  exact ⟨_, _, hc, rfl, terminal_status_iff _ _ cancelledOnce_freshIds _ _
    cancelledOnce_hasStatus rfl _ _ hc⟩

/-- A cancelled run is running again once the success of its extractor arrives. -/
theorem cancelled_run_resumes : ¬ ∀ (w : World) (d : DagRunId) (s : DagRunStatus),
    w.FreshIds (.paired 3) → HasStatus d s w → s.isTerminal = true →
      ∀ steps w', Calls (.paired 3) w steps w' → HasStatus d s w' := by
  intro h
  have hkept := h cancelledOnce ⟨6⟩ .cancelled cancelledOnce_freshIds cancelledOnce_hasStatus rfl
    _ _ (Calls.nil.cons (.deliver extractorDone) trivial)
  have hrunning : ∀ x ∈ ((Action.deliver extractorDone).run (.paired 3) cancelledOnce).dagRuns.rows,
      x.status = .running := by decide
  obtain ⟨x, hx, _, hxs⟩ := hkept
  exact absurd ((hrunning x hx).symm.trans hxs) (by decide)

end Contexide.Workflow
