import Contexide.Workflow.Messaging
import Contexide.Workflow.Safety.Planner

/-! The pump is safe. Its batch of pending tasks and its list of ready tasks are
snapshots taken many calls earlier; they stay true because only the pump moves a
pending task, and a started attempt that no worker has been told about is
settled by nobody. -/

namespace Contexide.Workflow

open Effects Storage

variable {C : Config} {i : Proc} {op : Op} {T : Traced}

/-- The task whose row or attempts a call saves. -/
def Op.Touches (id : TaskId) : Op → Prop
  | .taskSave e => e.id = id
  | .taskRunSave r => r.taskId = id
  | _ => False

theorem Op.touches_of_writes {id : TaskId} (h : .task id ∈ op.writes) : op.Touches id := by
  cases op with
  | taskSave e =>
    have : id = e.id := by simpa [Op.writes] using h
    exact this.symm
  | _ => simp [Op.writes] at h

/-- A listed task in the pump's hands: it is stored and pending. -/
structure Pending (C : Config) (t : Task) (T : Traced) : Prop where
  stored : ∃ u ∈ T.world.tasks, SameTask u t ∧ u.status = .pending
  current : stale C.backend .pump (.task t.id) T.log = false

/-- A task of the batch that the pump has not come to has no running attempt. -/
structure Waiting (C : Config) (t : Task) (T : Traced) : Prop extends Pending C t T where
  settled : Settled (T.world.attemptsOf t.id)

/-- A started attempt that no worker has been told about. -/
structure Opened (id : TaskRunId) (t : TaskId) (T : Traced) : Prop where
  attempt : ∃ a ∈ T.world.taskRuns, a.id = id ∧ a.taskId = t ∧ a.status = .running
  silent : ∀ p ∈ T.world.published, p.2.taskRunId ≠ id.uuid

/-- A started attempt of a running task that no worker has been told about. -/
structure Active (r : ReadyTask) (T : Traced) : Prop extends Opened r.taskRunId r.taskId T where
  task : ∃ t ∈ T.world.tasks, t.id = r.taskId ∧ t.dagRunId = r.dagRunId ∧ t.status = .running

/-- A ready task: such an attempt in a started run. -/
structure Launched (r : ReadyTask) (T : Traced) : Prop extends Active r T where
  run : ∃ d ∈ T.world.dagRuns, d.id = r.dagRunId ∧ d.status ≠ .created

theorem attemptsOf_kept (hinv : T.Inv C) (hp : permit C i op T) {t : Task}
    (ht : t ∈ T.world.tasks) (hs : t.status = .pending) (hi : i = .pump → ¬ op.Touches t.id) :
    (exec C i op T.world).2.attemptsOf t.id = T.world.attemptsOf t.id := by
  rcases attempts_written hinv.stores hp ht with h | ⟨rfl, _, _, r, rfl, hr⟩ | ⟨_, hr, _⟩
  · exact h
  · exact absurd hr (hi rfl)
  · rw [hs] at hr
    exact absurd hr (by simp)

theorem Pending.kept {t : Task} (h : Pending C t T) (hp : permit C i op T)
    (hi : i = .pump → ¬ op.Touches t.id) : Pending C t (trace C i op T).2 := by
  obtain ⟨⟨u, hu, hsame, hpending⟩, hcurrent⟩ := h
  have hw : .task t.id ∉ op.writes := by
    intro hw
    rcases task_written hp hu (hsame.id ▸ hw) with ⟨rfl, _⟩ | ⟨_, hr, _⟩
    · exact hi rfl (Op.touches_of_writes hw)
    · rw [hpending] at hr
      exact absurd hr (by simp)
  exact ⟨⟨u, task_kept hu (hsame.id ▸ hw), hsame, hpending⟩, stale_cons_of_notMem hcurrent hw⟩

theorem Pending.attemptsOf_kept {t : Task} (h : Pending C t T) (hinv : T.Inv C)
    (hp : permit C i op T) (hi : i = .pump → ¬ op.Touches t.id) :
    (exec C i op T.world).2.attemptsOf t.id = T.world.attemptsOf t.id := by
  obtain ⟨⟨u, hu, hsame, hpending⟩, _⟩ := h
  have ha := Workflow.attemptsOf_kept hinv hp hu hpending (hsame.id ▸ hi)
  rwa [hsame.id] at ha

theorem Waiting.kept {t : Task} (h : Waiting C t T) (hinv : T.Inv C) (hp : permit C i op T)
    (hi : i = .pump → ¬ op.Touches t.id) : Waiting C t (trace C i op T).2 :=
  ⟨h.toPending.kept hp hi, (h.attemptsOf_kept hinv hp hi).symm ▸ h.settled⟩

theorem Opened.kept {id : TaskRunId} {t : TaskId} (h : Opened id t T) (hp : permit C i op T)
    (hpub : ∀ s q, op = .publish s q → q.taskRunId ≠ id.uuid) :
    Opened id t (trace C i op T).2 := by
  obtain ⟨⟨a, ha, rfl, htask, hrun⟩, hsilent⟩ := h
  refine ⟨⟨a, taskRun_kept ha fun hw => ?_, rfl, htask, hrun⟩, fun p hm => ?_⟩
  · obtain ⟨_, _, q, hq, hqa⟩ := taskRun_written hp ha hw
    exact hsilent q hq hqa
  · cases op with
    | publish s q =>
      rcases List.mem_append.mp hm with hm | hm
      · exact hsilent p hm
      · rw [List.mem_singleton.mp hm]
        exact hpub s q rfl
    | _ => exact hsilent p hm

theorem Opened.not_settled {id : TaskRunId} {t : TaskId} (h : Opened id t T) :
    ¬ Settled (T.world.attemptsOf t) := by
  obtain ⟨⟨a, ha, _, htask, hrun⟩, _⟩ := h
  intro hs
  have := hs a (Store.mem_attemptsOf.mpr ⟨ha, htask⟩)
  rw [hrun] at this
  exact Bool.false_ne_true this

/-- A running task with an opened attempt is saved by nobody. -/
theorem Opened.task_kept {id : TaskRunId} {t : Task} (h : Opened id t.id T)
    (hp : permit C i op T) (ht : t ∈ T.world.tasks) (hs : t.status = .running) :
    t ∈ (exec C i op T.world).2.tasks := by
  refine Workflow.task_kept ht fun hw => ?_
  rcases task_written hp ht hw with ⟨_, hs'⟩ | ⟨_, _, hset⟩
  · rw [hs] at hs'
    exact absurd hs' (by simp)
  · exact h.not_settled hset

theorem Active.kept {r : ReadyTask} (h : Active r T) (hp : permit C i op T)
    (hpub : ∀ s q, op = .publish s q → q.taskRunId ≠ r.taskRunId.uuid) :
    Active r (trace C i op T).2 := by
  obtain ⟨ho, t, ht, hid, hd, hs⟩ := h
  exact ⟨ho.kept hp hpub, t, Opened.task_kept (hid ▸ ho) hp ht hs, hid, hd, hs⟩

theorem Launched.kept {r : ReadyTask} (h : Launched r T) (hp : permit C i op T)
    (hpub : ∀ s q, op = .publish s q → q.taskRunId ≠ r.taskRunId.uuid) :
    Launched r (trace C i op T).2 :=
  ⟨h.toActive.kept hp hpub, started_kept hp h.run⟩

/-- What the pump knows in its loop: the rest of the batch, the ready tasks, and
possibly a task in between. -/
structure Pumping (C : Config) (pending : List Task) (ready : List ReadyTask)
    (cur : Option TaskId) (T : Traced) : Prop where
  rest : ∀ t ∈ T.world.tasks, t.status = .pending → cur ≠ some t.id →
    Settled (T.world.attemptsOf t.id)
  waiting : ∀ t ∈ pending, Waiting C t T
  nodup : (pending.map Task.id).Nodup
  notCur : ∀ t ∈ pending, cur ≠ some t.id
  launched : ∀ r ∈ ready, Launched r T
  distinct : (ready.map ReadyTask.taskRunId).Nodup

variable {pending : List Task} {ready : List ReadyTask} {cur : Option TaskId}

theorem Pumping.kept (h : Pumping C pending ready cur T) (hinv : T.Inv C) (hp : permit C i op T)
    (hi : i = .pump → ∀ id, op.Touches id → cur = some id)
    (hpub : ∀ s q, op = .publish s q → ∀ r ∈ ready, q.taskRunId ≠ r.taskRunId.uuid) :
    Pumping C pending ready cur (trace C i op T).2 where
  rest t ht hs hcur := by
    have htouch : i = .pump → ¬ op.Touches t.id := fun hi' ht' => hcur (hi hi' _ ht')
    rcases task_saved hinv.stores hp ht with ⟨hold, _⟩ | ⟨rfl, hnew⟩
    · exact (attemptsOf_kept hinv hp hold hs htouch).symm ▸ h.rest t hold hs hcur
    · change Settled (T.world.attemptsOf t.id)
      rcases hnew with ⟨_, _, hnil⟩ | ⟨_, hs', _⟩ | ⟨_, _, hset⟩
      · rw [hnil]
        exact allFailed_nil.settled
      · rw [hs] at hs'
        exact absurd hs' (by simp)
      · exact hset
  waiting t ht := (h.waiting t ht).kept hinv hp fun hi' ht' => h.notCur t ht (hi hi' _ ht')
  nodup := h.nodup
  notCur := h.notCur
  launched r hr := (h.launched r hr).kept hp fun s q he => hpub s q he r hr
  distinct := h.distinct

/-- The first task of the batch becomes the task in hand. -/
theorem Pumping.take {t : Task} (h : Pumping C (t :: pending) ready none T) :
    Pumping C pending ready (some t.id) T ∧ Waiting C t T := by
  have hn := List.nodup_cons.mp h.nodup
  refine ⟨{ h with
    rest := fun u hu hs _ => h.rest u hu hs (by simp)
    waiting := fun u hu => h.waiting u (List.mem_cons_of_mem _ hu)
    nodup := hn.2
    notCur := fun u hu he => ?_ }, h.waiting t List.mem_cons_self⟩
  exact hn.1 (Option.some.inj he ▸ List.mem_map_of_mem hu)

theorem Pumping.sublist {pending' : List Task} (h : Pumping C pending ready cur T)
    (hs : pending'.Sublist pending) : Pumping C pending' ready cur T :=
  { h with
    waiting := fun u hu => h.waiting u (hs.subset hu)
    nodup := h.nodup.sublist (hs.map _)
    notCur := fun u hu => h.notCur u (hs.subset hu) }

/-- What the pump knows once it has listed its batch. -/
theorem Pumping.listed (h : between .pump T) (limit : Option ℕ) :
    Pumping C (T.world.listed C.backend limit) [] none
      (trace C .pump (.taskListPending limit) T).2 where
  rest t ht hs _ := h t ht hs
  waiting t ht := by
    obtain ⟨u, hu, rfl, hs⟩ := Store.of_mem_listed ht
    have hsame := Store.pendingView_same C.backend u
    exact ⟨⟨⟨u, hu, hsame, hs⟩, stale_cons_read (List.mem_map_of_mem ht)⟩, hsame.id ▸ h u hu hs⟩
  nodup := Store.nodup_listed _ _ _
  notCur := by simp
  launched := by simp
  distinct := by simp

/-- Nobody but the pump publishes. -/
theorem not_publish_of_ne (hp : permit C i op T) (hi : i ≠ .pump) (s : String)
    (q : WorkerRequest) : op ≠ .publish s q := by
  rintro rfl
  exact hi hp.2.1

theorem Pumping.stable : (discipline C).Stable .pump (Pumping C pending ready cur) :=
  fun _ _ _ hj hinv h hp => h.kept hinv hp (fun he => absurd he hj) fun s q he =>
    absurd he (not_publish_of_ne hp hj s q)

theorem between_pump_stable : (discipline C).Stable .pump (between .pump) := by
  intro j op T hj hinv h hp
  have hk : Pumping C [] [] none T :=
    ⟨fun t ht hs _ => h t ht hs, by simp, by simp, by simp, by simp, by simp⟩
  exact fun t ht hs => (Pumping.stable j op T hj hinv hk hp).rest t ht hs (by simp)

/-- A call of the pump that saves no task and no attempt and publishes nothing. -/
structure Op.Quiet (op : Op) : Prop where
  untouched : ∀ id, ¬ op.Touches id
  unpublished : ∀ s q, op ≠ .publish s q

/-- The assertions that the other components and quiet calls of the pump leave alone. -/
structure Steady (C : Config) (F : Traced → Prop) : Prop where
  stable : (discipline C).Stable .pump F
  quiet : ∀ op T, T.Inv C → F T → permit C .pump op T → op.Quiet → F (trace C .pump op T).2

theorem Steady.and {F G : Traced → Prop} (hF : Steady C F) (hG : Steady C G) :
    Steady C fun T => F T ∧ G T where
  stable := hF.stable.and hG.stable
  quiet op T hinv h hp hq := ⟨hF.quiet op T hinv h.1 hp hq, hG.quiet op T hinv h.2 hp hq⟩

theorem Pumping.steady : Steady C (Pumping C pending ready cur) where
  stable := Pumping.stable
  quiet _ _ hinv h hp hq := h.kept hinv hp (fun _ id ht => absurd ht (hq.untouched id))
    fun s q he => absurd he (hq.unpublished s q)

theorem Pending.steady (t : Task) : Steady C (Pending C t) where
  stable _ _ _ hj _ h hp := h.kept hp fun he => absurd he hj
  quiet _ _ _ h hp hq := h.kept hp fun _ => hq.untouched _

theorem Waiting.steady (t : Task) : Steady C (Waiting C t) where
  stable _ _ _ hj hinv h hp := h.kept hinv hp fun he => absurd he hj
  quiet _ _ hinv h hp hq := h.kept hinv hp fun _ => hq.untouched _

theorem Opened.steady (id : TaskRunId) (t : TaskId) : Steady C (Opened id t) where
  stable _ _ _ hj _ h hp := h.kept hp fun s q he => absurd he (not_publish_of_ne hp hj s q)
  quiet _ _ _ h hp hq := h.kept hp fun s q he => absurd he (hq.unpublished s q)

theorem Active.steady (r : ReadyTask) : Steady C (Active r) where
  stable _ _ _ hj _ h hp := h.kept hp fun s q he => absurd he (not_publish_of_ne hp hj s q)
  quiet _ _ _ h hp hq := h.kept hp fun s q he => absurd he (hq.unpublished s q)

namespace Scheduler

theorem markDagRunning_safe {F : Traced → Prop} (hF : Steady C F) (d : DagRunId) :
    (discipline C).Triple .pump (fun T => F T ∧ T.world.dagRuns.Has d) (markDagRunning d)
      fun _ T => F T ∧ ∃ x ∈ T.world.dagRuns, x.id = d ∧ x.status ≠ .created := by
  have hget : Op.Quiet (.dagRunGet d) := ⟨fun _ h => h, fun _ _ => by simp⟩
  have hstarted : (discipline C).Stable .pump fun T =>
      F T ∧ ∃ x ∈ T.world.dagRuns, x.id = d ∧ x.status ≠ .created :=
    hF.stable.and fun _ _ _ _ _ h hp => started_kept hp h
  refine perform_safe (.dagRunGet d) (hF.stable.and (has_dagRun_stable d))
    (R := fun run T => ∃ x, (run = some x ∧ x.id = d) ∧ F T ∧
      (x.status = .created → x ∈ T.world.dagRuns ∧
        stale C.backend .pump (.dagRun x.id) T.log = false) ∧
      (x.status ≠ .created → ∃ x ∈ T.world.dagRuns, x.id = d ∧ x.status ≠ .created))
    (fun T hinv h => ?_) fun run => Discipline.Triple.of_exists fun x =>
      Discipline.Triple.of_and fun ⟨hrun, hid⟩ => ?_
  · have hp : permit C .pump (.dagRunGet d) T := ⟨by simp [Op.writes], trivial⟩
    obtain ⟨hf, x, hx, rfl⟩ := h
    exact ⟨hp, x, ⟨Table.get_of_mem hx, rfl⟩, hF.quiet _ T hinv hf hp hget,
      fun _ => ⟨hx, stale_cons_read (by simp [Event.reads])⟩, fun hs => ⟨x, hx, rfl, hs⟩⟩
  subst hrun hid
  by_cases hs : x.status = .created
  · change (discipline C).Triple _ _ (if x.status = .created then _ else _) _
    rw [if_pos hs]
    refine perform_safe (.dagRunSave { x with status := .running })
      (R := fun _ T => F T ∧ ∃ y ∈ T.world.dagRuns, y.id = x.id ∧ y.status ≠ .created) ?_ ?_
      fun _ => Discipline.Triple.pure hstarted fun _ _ h => h
    · rintro j op T hj hinv ⟨hf, hcreated, _⟩ hp
      obtain ⟨hmem, hstale⟩ := hcreated hs
      have hw : .dagRun x.id ∉ op.writes := by
        intro hw
        rcases dagRun_written hp hmem hw with ⟨he, _⟩ | ⟨_, hne⟩
        · exact hj he
        · exact hne hs
      exact ⟨hF.stable j op T hj hinv hf hp, fun _ => ⟨dagRun_kept hmem hw,
        stale_cons_of_notMem hstale hw⟩, fun hne => absurd hs hne⟩
    · rintro T hinv ⟨hf, hcreated, _⟩
      obtain ⟨hmem, hstale⟩ := hcreated hs
      have hp : permit C .pump (.dagRunSave { x with status := .running }) T := by
        refine ⟨fun k hk => ?_, x, hmem, rfl, hs, rfl⟩
        obtain rfl : k = .dagRun x.id := by simpa [Op.writes] using hk
        exact hstale
      exact ⟨hp, hF.quiet _ T hinv hf hp ⟨fun _ h => h, fun _ _ => by simp⟩, _,
        Table.mem_save_self _ _, rfl, by simp⟩
  · change (discipline C).Triple _ _ (if x.status = .created then _ else _) _
    rw [if_neg hs]
    exact (Discipline.Triple.pure hstarted fun _ _ h => h).weaken
      (fun _ _ h => ⟨h.1, h.2.2 hs⟩) fun _ _ h => h

/-- The attempts that `dispatch` counted are still those of the task. -/
theorem counted_steady (t : Task) (n : ℕ) :
    Steady C fun T => Waiting C t T ∧ (T.world.attemptsOf t.id).length = n where
  stable _ _ _ hj hinv h hp := ⟨h.1.kept hinv hp fun he => absurd he hj,
    (congrArg List.length (h.1.attemptsOf_kept hinv hp fun he => absurd he hj)).trans h.2⟩
  quiet _ _ hinv h hp hq := ⟨h.1.kept hinv hp fun _ => hq.untouched _,
    (congrArg List.length (h.1.attemptsOf_kept hinv hp fun _ => hq.untouched _)).trans h.2⟩

/-- An identifier that the pump drew and has not used for an attempt. -/
def Unused (C : Config) (id : TaskRunId) (T : Traced) : Prop :=
  T.world.Drawn C .pump id.uuid ∧ ¬ T.world.taskRuns.Has id

theorem Unused.stable (id : TaskRunId) : (discipline C).Stable .pump (Unused C id) :=
  fun _ _ _ hj _ h hp => ⟨Drawn.kept h.1, not_stored_exec (x := .taskRun id) h.2
    (notMem_writes_of_drawn hp hj h.1 h.2)⟩

/-- Opening the attempt of the task in hand. -/
theorem open_attempt {T : Traced} {t : Task} {id : TaskRunId} {attempts : List TaskRun}
    (hinv : T.Inv C) (h : Pumping C pending ready (some t.id) T) (hw : Waiting C t T)
    (hn : (T.world.attemptsOf t.id).length = attempts.length) (hu : Unused C id T) :
    permit C .pump (.taskRunSave (openedRun t id attempts)) T ∧
      Pumping C pending ready (some t.id)
        (trace C .pump (.taskRunSave (openedRun t id attempts)) T).2 ∧
      Pending C t (trace C .pump (.taskRunSave (openedRun t id attempts)) T).2 ∧
      Opened id t.id (trace C .pump (.taskRunSave (openedRun t id attempts)) T).2 ∧
      ∀ r ∈ ready, r.taskRunId ≠ id := by
  obtain ⟨u, hmem, hsame, hpending⟩ := hw.stored
  have hp : permit C .pump (.taskRunSave (openedRun t id attempts)) T := by
    refine ⟨fun x hx => ?_, u, ?_⟩
    · obtain rfl : x = .taskRun id := by simpa [Op.writes, openedRun] using hx
      exact hinv.stale_of_not_stored .pump hu.2
    · exact
        { fresh := hu.2
          drawn := hu.1
          running := rfl
          number := congrArg Int32.ofNat hn.symm
          task := hmem
          ofTask := hsame.id.symm
          pending := hpending
          settled := hsame.id ▸ hw.settled }
  refine ⟨hp, h.kept hinv hp (fun _ _ ht => congrArg some ht) (fun _ _ he => by simp at he),
    ⟨⟨u, hmem, hsame, hpending⟩, stale_cons_self hw.current⟩, ⟨?_, ?_⟩, fun r hr he => ?_⟩
  · exact ⟨_, Table.mem_save_self _ _, rfl, rfl, rfl⟩
  · intro q hq he
    obtain ⟨a, _, _, ha⟩ := hinv.stores.announced q hq
    exact hu.2 ⟨a, ha.attempt, TaskRunId.ext (ha.attemptId.trans he)⟩
  · obtain ⟨a, ha, hid, _⟩ := (h.launched r hr).attempt
    exact hu.2 ⟨a, ha, hid.trans he⟩

/-- Starting the task in hand. -/
theorem start_task {T : Traced} {t : Task} {id : TaskRunId} (hinv : T.Inv C)
    (h : Pumping C pending ready (some t.id) T) (hpend : Pending C t T) (ho : Opened id t.id T) :
    permit C .pump (.taskSave { t with status := .running }) T ∧
      Pumping C pending ready none (trace C .pump (.taskSave { t with status := .running }) T).2 ∧
      Active (readyTask t id) (trace C .pump (.taskSave { t with status := .running }) T).2 ∧
      (trace C .pump (.taskSave { t with status := .running }) T).2.world.dagRuns.Has
        t.dagRunId := by
  obtain ⟨⟨u, hmem, hsame, hpending⟩, hcurrent⟩ := hpend
  have hp : permit C .pump (.taskSave { t with status := .running }) T := by
    refine ⟨fun x hx => ?_, u, ?_⟩
    · obtain rfl : x = .task t.id := by simpa [Op.writes] using hx
      exact hcurrent
    · exact
        { toSameTask := hsame.of_status .running
          mem := hmem
          pending := hpending
          opened := hsame.id ▸ ho.not_settled
          running := rfl }
  have hk := h.kept hinv hp (fun _ _ ht => congrArg some ht) (fun _ _ he => by simp at he)
  refine ⟨hp, { hk with rest := fun v hv hs _ => hk.rest v hv hs ?_, notCur := by simp },
    ⟨ho.kept hp fun _ _ he => by simp at he, _, Table.mem_save_self _ _, rfl, rfl, rfl⟩, ?_⟩
  · intro he
    have : v.status = .running := by
      rw [Table.eq_of_mem_save hv (Option.some.inj he).symm]
    rw [hs] at this
    exact absurd this (by simp)
  · exact hsame.run ▸ hinv.stores.runOf u hmem

theorem dispatch_safe (t : Task) :
    (discipline C).Triple .pump
      (fun T => Pumping C pending ready (some t.id) T ∧ Waiting C t T) (dispatch t)
      fun r => Pumping C pending (ready ++ [r]) none := by
  have hpumping : Steady C (Pumping C pending ready (some t.id)) := Pumping.steady
  have hquiet : ∀ {op : Op}, op = .taskRunListByTask t.id ∨ op = .newTaskRunId → op.Quiet := by
    rintro op (rfl | rfl) <;> exact ⟨fun _ h => h, fun _ _ => by simp⟩
  -- counting the attempts
  refine perform_safe (.taskRunListByTask t.id) (hpumping.and (Waiting.steady t)).stable
    (R := fun attempts T => Pumping C pending ready (some t.id) T ∧
      Waiting C t T ∧ (T.world.attemptsOf t.id).length = attempts.length)
    (fun T hinv h => ?_) fun attempts => ?_
  · have hp : permit C .pump (.taskRunListByTask t.id) T := ⟨by simp [Op.writes], trivial⟩
    have hk := (hpumping.and (Waiting.steady t)).quiet _ T hinv h hp (hquiet (.inl rfl))
    exact ⟨hp, hk.1, hk.2, (Store.listByTask_length _ _).symm⟩
  have hcounted := hpumping.and (counted_steady (C := C) t attempts.length)
  -- drawing the identifier of the attempt
  refine perform_safe .newTaskRunId hcounted.stable
    (R := fun id T => (Pumping C pending ready (some t.id) T ∧
      Waiting C t T ∧ (T.world.attemptsOf t.id).length = attempts.length) ∧ Unused C id T)
    (fun T hinv h => ?_) fun id => ?_
  · have hp : permit C .pump .newTaskRunId T := ⟨by simp [Op.writes], trivial⟩
    refine ⟨hp, hcounted.quiet _ T hinv h hp (hquiet (.inr rfl)), World.drawn_draw_self _, ?_⟩
    rintro ⟨a, ha, he⟩
    obtain ⟨j, hj⟩ := hinv.stores.attemptDrawn a ha
    rw [he] at hj
    exact World.not_drawn_next _ j hj
  -- opening it
  refine perform_safe (.taskRunSave (openedRun t id attempts))
    (R := fun _ T => (∀ r ∈ ready, r.taskRunId ≠ id) ∧
      Pumping C pending ready (some t.id) T ∧ Pending C t T ∧ Opened id t.id T)
    (hcounted.stable.and (Unused.stable id)) (fun T hinv h => ?_)
    fun _ => Discipline.Triple.of_and fun hne => ?_
  · obtain ⟨⟨hpump, hwait, hn⟩, hu⟩ := h
    obtain ⟨hp, h₁, h₂, h₃, h₄⟩ := open_attempt hinv hpump hwait hn hu
    exact ⟨hp, h₄, h₁, h₂, h₃⟩
  -- starting the task
  have hactive : Steady C fun T => Pumping C pending ready none T ∧ Active (readyTask t id) T :=
    Pumping.steady.and (Active.steady (readyTask t id))
  refine perform_safe (.taskSave { t with status := .running })
    (R := fun _ T => (Pumping C pending ready none T ∧ Active (readyTask t id) T) ∧
      T.world.dagRuns.Has t.dagRunId)
    (hpumping.and ((Pending.steady t).and (Opened.steady id t.id))).stable (fun T hinv h => ?_)
    fun _ => ?_
  · obtain ⟨hpump, hpend, ho⟩ := h
    obtain ⟨hp, h₁, h₂, h₃⟩ := start_task hinv hpump hpend ho
    exact ⟨hp, ⟨h₁, h₂⟩, h₃⟩
  -- marking the run
  refine Discipline.Triple.bind (markDagRunning_safe hactive t.dagRunId) fun _ => ?_
  have hlaunched : (discipline C).Stable .pump fun T =>
      (Pumping C pending ready none T ∧ Active (readyTask t id) T) ∧
        ∃ x ∈ T.world.dagRuns, x.id = t.dagRunId ∧ x.status ≠ .created :=
    hactive.stable.and fun _ _ _ _ _ h hp => started_kept hp h
  refine Discipline.Triple.pure hlaunched fun T _ h => ?_
  obtain ⟨⟨hpump, hact⟩, hrun⟩ := h
  refine { hpump with launched := fun r hr => ?_, distinct := ?_ }
  · rcases List.mem_append.mp hr with hr | hr
    · exact hpump.launched r hr
    · rw [List.mem_singleton.mp hr]
      exact ⟨hact, hrun⟩
  · rw [List.map_append, List.nodup_append]
    refine ⟨hpump.distinct, by simp, fun a ha b hb => ?_⟩
    obtain ⟨r, hr, rfl⟩ := List.mem_map.mp ha
    obtain rfl : b = id := List.mem_singleton.mp hb
    exact hne r hr

theorem scheduleLoop_safe (pending : List Task) (tasksByRun : DagRunId → List Task)
    (ready : List ReadyTask) :
    (discipline C).Triple .pump (Pumping C pending ready none)
      (scheduleLoop pending tasksByRun ready) fun ready => Pumping C [] ready none := by
  induction pending generalizing tasksByRun ready with
  | nil => exact Discipline.Triple.pure Pumping.stable fun _ _ h => h
  | cons t pending ih =>
    -- the readiness of the task does not matter for safety
    have hrest : ∀ siblings, (discipline C).Triple .pump (Pumping C (t :: pending) ready none)
        (afterListing t pending tasksByRun ready siblings)
        fun ready => Pumping C [] ready none := by
      intro siblings
      rw [afterListing]
      split
      · exact Discipline.Triple.bind ((dispatch_safe t).weaken (fun _ _ h => Pumping.take h)
          fun _ _ h => h) fun r => ih _ _
      · exact (ih _ _).weaken (fun _ _ h => h.sublist (List.sublist_cons_self _ _))
          fun _ _ h => h
    by_cases hcached : tasksByRun t.dagRunId = []
    · rw [scheduleLoop_of_new hcached]
      refine perform_safe (.taskListByDagRun t.dagRunId) Pumping.stable
        (R := fun _ => Pumping C (t :: pending) ready none) (fun T hinv h => ?_) hrest
      have hp : permit C .pump (.taskListByDagRun t.dagRunId) T := ⟨by simp [Op.writes], trivial⟩
      exact ⟨hp, Pumping.steady.quiet _ T hinv h hp ⟨fun _ h => h, fun _ _ => by simp⟩⟩
    · rw [scheduleLoop_of_cached hcached]
      exact hrest (tasksByRun t.dagRunId)

theorem scheduleReadyTasks_safe (maxBatch : Option ℕ) :
    (discipline C).Triple .pump (between .pump) (scheduleReadyTasks maxBatch)
      fun ready => Pumping C [] (returned ready) none := by
  refine perform_safe (.taskListPending maxBatch) between_pump_stable
    (R := fun pending => Pumping C (returned pending) [] none)
    (fun T _ h => ⟨⟨by simp [Op.writes], trivial⟩, Pumping.listed h maxBatch⟩)
    fun pending => ?_
  cases pending with
  | ok pending =>
    exact Discipline.Triple.bind (scheduleLoop_safe pending _ _) fun ready =>
      Discipline.Triple.pure Pumping.stable fun _ _ h => h
  | error e => exact Discipline.Triple.pure Pumping.stable fun _ _ h => h

end Scheduler

namespace Messaging

open Scheduler

theorem publishAll_safe (ready : List ReadyTask) :
    (discipline C).Triple .pump (Pumping C [] ready none) (publishAll ready)
      fun _ => Pumping C [] [] none := by
  induction ready with
  | nil => exact Discipline.Triple.pure Pumping.stable fun _ _ h => h
  | cons r ready ih =>
    refine perform_safe (.publish _ (requestOf r)) Pumping.stable
      (R := fun _ => Pumping C [] ready none) (fun T hinv h => ?_) fun _ => ih
    have hn := List.nodup_cons.mp h.distinct
    have hr := h.launched r List.mem_cons_self
    have hp : permit C .pump (.publish (workerRequestSubject "contexide.workflow" r.kind)
        (requestOf r)) T := by
      refine ⟨by simp [Op.writes], rfl, ?_, hr.silent⟩
      obtain ⟨a, ha, hid, htask, _⟩ := hr.attempt
      obtain ⟨t, ht, htid, hd, hs⟩ := hr.task
      obtain ⟨d, hd', hdid, hds⟩ := hr.run
      exact ⟨a, t, d,
        { attempt := ha
          task := ht
          run := hd'
          attemptId := congrArg TaskRunId.uuid hid
          taskId := congrArg TaskId.uuid htid
          runId := congrArg DagRunId.uuid hdid
          ofTask := htask.trans htid.symm
          ofRun := hd.trans hdid.symm
          started := hds
          active := fun _ => hs }⟩
    have hrest : Pumping C [] ready none T :=
      { h with
        launched := fun x hx => h.launched x (List.mem_cons_of_mem _ hx)
        distinct := hn.2 }
    refine ⟨hp, hrest.kept hinv hp (fun _ _ ht => ht.elim) ?_⟩
    rintro s q he x hx heq
    obtain ⟨_, rfl⟩ : _ ∧ requestOf r = q := by simpa using he
    have hid : r.taskRunId = x.taskRunId := TaskRunId.ext heq
    exact hn.1 (hid ▸ List.mem_map_of_mem hx)

theorem pumpRequests_safe (maxBatch : Option ℕ) :
    (discipline C).Triple .pump (between .pump) (pumpRequests maxBatch)
      fun _ => between .pump := by
  have hrest : ∀ T, Pumping C [] [] none T → between .pump T :=
    fun _ h t ht hs => h.rest t ht hs (by simp)
  refine Discipline.Triple.bind (scheduleReadyTasks_safe maxBatch) fun ready => ?_
  cases ready with
  | ok ready =>
    exact Discipline.Triple.bind (publishAll_safe ready) fun _ =>
      Discipline.Triple.pure Pumping.stable fun T _ h => hrest T h
  | error e => exact Discipline.Triple.pure Pumping.stable fun T _ h => hrest T h

end Messaging

end Contexide.Workflow
