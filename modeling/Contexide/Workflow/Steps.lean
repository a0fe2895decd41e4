import Contexide.Workflow.Runs

/-! What one step of an execution does to the stores, table by table: the run
and the tasks that are created, the attempts that are opened task by task while
a pump runs, and the attempt, task, tasks and run that a status changes. -/

namespace Contexide.Workflow

open Effects Storage Scheduler

variable {C : Config} {w : World}

namespace World

/-! ### Creating a run -/

/-- The world after a run is created. -/
def created (C : Config) (n : ℕ) (tenant : TenantId) (profile : String) (input : Json) (w : World) :
    World :=
  (Action.create n tenant profile input).run C w

section Created
variable {n : ℕ} {tenant : TenantId} {profile : String} {input : Json}

theorem Inv.not_has_nextRun (h : w.Inv C) (i : Proc) :
    ¬ w.dagRuns.Has (Planner.nextRun C i w) := by
  rintro ⟨x, hx, he⟩
  obtain ⟨j, hj⟩ := h.runDrawn x hx
  rw [he] at hj
  exact not_drawn_next i j hj

theorem Inv.not_has_of_le (h : w.Inv C) (i : Proc) {k : ℕ} (hk : w.drawn i ≤ k) {id : TaskId}
    (hid : id.uuid = C.ids.uuid i k) : ¬ w.tasks.Has id := by
  rintro ⟨t, ht, rfl⟩
  obtain ⟨j, k', hk', he⟩ := h.taskDrawn t ht
  obtain ⟨rfl, rfl⟩ := C.ids.inj (he.symm.trans hid)
  omega

theorem Inv.not_has_nextTasks (h : w.Inv C) (i : Proc) {t : Task}
    (ht : t ∈ Planner.nextTasks C i w tenant input) : ¬ w.tasks.Has t.id := by
  obtain ⟨_, _, _, _, k, hk, hid⟩ := Planner.mem_plannedTasks ht
  exact h.not_has_of_le i (by omega) hid

theorem created_eq : w.created C n tenant profile input =
    (((w.draw (.planner n)).putDagRun
      (Planner.plannedRun (Planner.nextRun C (.planner n) w) tenant profile input)).drawMany
        (.planner n) 5).putTasks (Planner.nextTasks C (.planner n) w tenant input) := by
  simp only [created, Action.run, Planner.run_createDagRun]

theorem rows_created_tasks (h : w.Inv C) : (w.created C n tenant profile input).tasks.rows =
    w.tasks.rows ++ Planner.nextTasks C (.planner n) w tenant input := by
  rw [created_eq]
  exact rows_putTasks (Planner.nodup_plannedTasks ..) fun t ht => h.not_has_nextTasks _ ht

theorem rows_created_dagRuns (h : w.Inv C) : (w.created C n tenant profile input).dagRuns.rows =
    w.dagRuns.rows ++
      [Planner.plannedRun (Planner.nextRun C (.planner n) w) tenant profile input] := by
  rw [created_eq, putTasks_dagRuns]
  exact Table.rows_save_of_not_has (h.not_has_nextRun _)

theorem created_taskRuns : (w.created C n tenant profile input).taskRuns = w.taskRuns := by
  rw [created_eq, putTasks_taskRuns]
  rfl

end Created

/-! ### Dispatching a task -/

theorem Inv.not_has_nextTaskRun (h : w.Inv C) :
    ¬ w.taskRuns.Has ⟨C.ids.uuid .pump (w.drawn .pump)⟩ := by
  rintro ⟨r, hr, he⟩
  obtain ⟨j, hj⟩ := h.attemptDrawn r hr
  rw [he] at hj
  exact not_drawn_next .pump j hj

/-- The attempt that is opened when a task is dispatched. -/
def nextTaskRun (C : Config) (w : World) (t : Task) : TaskRun :=
  openedRun t ⟨C.ids.uuid .pump (w.drawn .pump)⟩ (w.listByTask t.id)

theorem attemptsOf_dispatched_self (h : w.Inv C) (t : Task) :
    (w.dispatched C t).attemptsOf t.id = w.attemptsOf t.id ++ [w.nextTaskRun C t] := by
  have he : (w.dispatched C t).attemptsOf t.id =
      { w.toStore with taskRuns := w.taskRuns.save (w.nextTaskRun C t) }.attemptsOf t.id := by
    simp [Store.attemptsOf, dispatched, nextTaskRun]
  rw [he]
  exact Store.attemptsOf_save_new (s := w.toStore) (r := w.nextTaskRun C t) h.not_has_nextTaskRun

theorem attemptsOf_dispatched_ne (h : w.Inv C) (t : Task) {id : TaskId} (hid : id ≠ t.id) :
    (w.dispatched C t).attemptsOf id = w.attemptsOf id := by
  have he : (w.dispatched C t).attemptsOf id =
      { w.toStore with taskRuns := w.taskRuns.save (w.nextTaskRun C t) }.attemptsOf id := by
    simp [Store.attemptsOf, dispatched, nextTaskRun]
  rw [he]
  exact Store.attemptsOf_save_of_ne (s := w.toStore) (r := w.nextTaskRun C t) (Ne.symm hid)
    fun x hx hx' => absurd ⟨x, hx, hx'⟩ h.not_has_nextTaskRun

/-- A created run that is marked running, any other run as it is. -/
def startedRun (x : DagRun) : DagRun :=
  if x.status = .created then { x with status := .running } else x

@[simp] theorem startedRun_id (x : DagRun) : (startedRun x).id = x.id := by
  unfold startedRun
  split <;> rfl

theorem startedRun_status_ne (x : DagRun) : (startedRun x).status ≠ .created := by
  unfold startedRun
  split
  · simp
  · next h => exact h

theorem dispatched_dagRuns {t : Task} {x : DagRun} (hx : x ∈ w.dagRuns) (hid : x.id = t.dagRunId) :
    (w.dispatched C t).dagRuns = w.dagRuns.save (startedRun x) := by
  have hget : (((w.draw .pump).putTaskRun (w.nextTaskRun C t)).putTask
      { t with status := .running }).dagRuns.get t.dagRunId = some x :=
    hid ▸ Table.get_of_mem hx
  unfold nextTaskRun at hget
  simp only [dispatched, markedRunning, hget, startedRun]
  split
  · rfl
  · exact (Table.save_of_mem hx).symm

/-! ### A pump, task by task -/

/-- The world of a pump that still has `pending` to go through. -/
def Scheduling (C : Config) (pending : List Task) (w : World) : Prop :=
  ∃ (T : Traced) (ready : List ReadyTask), T.world = w ∧ T.Inv C ∧
    Pumping C pending ready none T ∧ between .status T

theorem Scheduling.sound {pending : List Task} (h : Scheduling C pending w) : w.Sound C := by
  obtain ⟨T, _, hT, hinv, hp, hs⟩ := h
  refine ⟨T, hT, hinv, fun i => ?_⟩
  cases i with
  | planner n => trivial
  | pump => exact fun t ht hs => hp.rest t ht hs (by simp)
  | status => exact hs

/-- Dispatching the next task of the batch. -/
theorem Scheduling.dispatched {t : Task} {pending : List Task}
    (h : Scheduling C (t :: pending) w) : Scheduling C pending (w.dispatched C t) := by
  obtain ⟨T, ready, hT, hinv, hp, hs⟩ := h
  have hsafe := dispatch_safe t T hinv hp.take
  obtain ⟨hinv', hp'⟩ := hsafe.run hinv
  refine ⟨((dispatch t).run (trace C .pump) T).2, _, ?_, hinv', hp', ?_⟩
  · exact (run_trace C .pump (dispatch t) T).2.trans (by rw [run_dispatch, hT])
  · exact between_status_stable.of_rely hinv hs (hsafe.run_rely (by simp))

theorem Sound.scheduling (h : w.Sound C) (limit : Option ℕ) :
    Scheduling C (w.batch C limit) w := by
  obtain ⟨T, rfl, hinv, hb⟩ := h
  have hp : permit C .pump (.taskListPending limit) T := ⟨by simp [Op.writes], trivial⟩
  exact ⟨(trace C .pump (.taskListPending limit) T).2, [], rfl, traced_step hinv hp,
    (Pumping.listed (hb .pump) limit).sublist List.filter_sublist,
    between_status_stable .pump _ T (by simp) hinv (hb .status) hp⟩

/-- The rule for a pump: what every dispatch of a ready task keeps holds after it. -/
theorem Sound.scheduled {P : World → Prop} (h : w.Sound C) (limit : Option ℕ) (hw : P w)
    (hstep : ∀ v t, v.Sound C → v.Listed t → isReady t (v.listByDagRun t.dagRunId) = true →
      P v → P (v.dispatched C t)) : P (w.dispatchedAll C (w.batch C limit)) := by
  have hready : ∀ t ∈ w.batch C limit, isReady t (w.listByDagRun t.dagRunId) = true :=
    fun t ht => (List.mem_filter.mp ht).2
  have hs := h.scheduling limit
  generalize w.batch C limit = batch at hready hs
  clear h
  induction batch generalizing w with
  | nil => exact hw
  | cons t batch ih =>
    have ht : w.Listed t := by
      obtain ⟨T, _, rfl, _, hp, _⟩ := hs
      exact (hp.waiting t List.mem_cons_self).stored
    refine ih (hstep w t hs.sound ht (hready t List.mem_cons_self) hw) (fun v hv => ?_)
      hs.dispatched
    rw [isReady_congr (stages_dispatched ht _)]
    exact hready v (List.mem_cons_of_mem _ hv)

/-- A stored task other than the dispatched one is untouched. -/
theorem mem_dispatched_of_ne {t v : Task} (hne : v.id ≠ t.id) :
    v ∈ (w.dispatched C t).tasks ↔ v ∈ w.tasks := by
  rw [dispatched_tasks]
  exact ⟨fun hv => Table.mem_of_mem_save hv hne, fun hv => Table.mem_save_of_ne hv hne⟩

/-- What a pump leaves of a task outside its batch. -/
theorem Scheduling.frame {batch : List Task} (h : Scheduling C batch w) {id : TaskId}
    (hid : id ∉ batch.map Task.id) :
    (w.dispatchedAll C batch).attemptsOf id = w.attemptsOf id ∧
      ∀ v : Task, v.id = id → (v ∈ (w.dispatchedAll C batch).tasks ↔ v ∈ w.tasks) := by
  induction batch generalizing w with
  | nil => exact ⟨rfl, fun _ _ => Iff.rfl⟩
  | cons t batch ih =>
    rw [List.map_cons, List.mem_cons, not_or] at hid
    obtain ⟨ha, hm⟩ := ih h.dispatched hid.2
    exact ⟨ha.trans (attemptsOf_dispatched_ne h.sound.inv t hid.1), fun v hv =>
      (hm v hv).trans (mem_dispatched_of_ne (hv ▸ hid.1))⟩

/-- What a pump does to a task of its batch: it runs, a new attempt is opened,
and a ready task names both. -/
theorem Scheduling.opened {batch : List Task} (h : Scheduling C batch w) {t : Task}
    (ht : t ∈ batch) :
    ∃ k a, readyTask t ⟨C.ids.uuid .pump k⟩ ∈ readyTasks C (w.drawn .pump) batch ∧
      a.id = ⟨C.ids.uuid .pump k⟩ ∧ a.status = .running ∧
      (w.dispatchedAll C batch).attemptsOf t.id = w.attemptsOf t.id ++ [a] ∧
      { t with status := .running } ∈ (w.dispatchedAll C batch).tasks := by
  induction batch generalizing w with
  | nil => exact absurd ht List.not_mem_nil
  | cons v batch ih =>
    have hn : ((v :: batch).map Task.id).Nodup := by
      obtain ⟨_, _, _, _, hp, _⟩ := h
      exact hp.nodup
    rw [List.map_cons, List.nodup_cons] at hn
    rcases List.mem_cons.mp ht with rfl | ht
    · obtain ⟨ha, hm⟩ := h.dispatched.frame hn.1
      refine ⟨_, _, List.mem_cons_self, rfl, rfl,
        ha.trans (attemptsOf_dispatched_self h.sound.inv t), ?_⟩
      refine (hm { t with status := .running } rfl).mpr ?_
      rw [dispatched_tasks]
      exact Table.mem_save_self _ _
    · have hne : t.id ≠ v.id := fun he => hn.1 (he ▸ List.mem_map_of_mem ht)
      obtain ⟨k, a, hr, hid, hrun, ha, hm⟩ := ih h.dispatched ht
      refine ⟨k, a, ?_, hid, hrun, ?_, hm⟩
      · rw [dispatched_drawn_pump] at hr
        exact List.mem_cons_of_mem _ hr
      · rw [← attemptsOf_dispatched_ne h.sound.inv v hne]
        exact ha

theorem run_schedule_eq (limit : Option ℕ) : (Action.schedule limit).run C w =
    (w.dispatchedAll C (w.batch C limit)).announced
      (readyTasks C (w.drawn .pump) (w.batch C limit)) := by
  rw [Action.run, returned_scheduleReadyTasks, run_scheduleReadyTasks]

/-- The ready tasks of a pump are announced. -/
theorem published_schedule {limit : Option ℕ} {r : ReadyTask}
    (hr : r ∈ readyTasks C (w.drawn .pump) (w.batch C limit)) :
    ∃ q ∈ ((Action.schedule limit).run C w).published, q.2 = Messaging.requestOf r := by
  rw [run_schedule_eq]
  exact ⟨_, List.mem_append_right _ (List.mem_map_of_mem hr), rfl⟩

/-! ### Handling a status -/

/-- A status that settles an attempt: the records it names. -/
structure Delivery (m : WorkerStatus) (w : World) (a : TaskRun) (u : Task) (x : DagRun) : Prop where
  run : a ∈ w.taskRuns
  runId : a.id = m.taskRunId
  active : a.status.isTerminal = false
  task : u ∈ w.tasks
  taskId : u.id = m.taskId
  ofTask : a.taskId = u.id
  running : u.status = .running
  dagRun : x ∈ w.dagRuns
  dagRunId : x.id = m.dagRunId
  ofRun : u.dagRunId = x.id
  started : x.status ≠ .created

variable {m : WorkerStatus} {a : TaskRun} {u : Task} {x : DagRun}

/-- A status that echoes a ready task with a running attempt settles it. -/
theorem Inv.delivery (h : w.Inv C) (he : Echoed m w) (ha : a ∈ w.taskRuns)
    (haid : a.id = m.taskRunId) (hact : a.status.isTerminal = false) :
    ∃ u x, Delivery m w a u x := by
  obtain ⟨b, u, x, hb, hu, hx, hbid, huid, hxid, hbt, hux, hs, hrun⟩ := he.announced h
  obtain rfl : b = a := Table.eq_of_key hb ha (hbid.trans haid.symm)
  exact ⟨u, x, ha, haid, hact, hu, huid, hbt.trans huid.symm, hrun hact, hx, hxid,
    hux.trans hxid.symm, hs⟩

theorem deliver_terminal (ha : a ∈ w.taskRuns) (haid : a.id = m.taskRunId)
    (hterm : a.status.isTerminal = true) : (Action.deliver m).run C w = w := by
  have hget : w.taskRuns.get m.taskRunId = some a := haid ▸ Table.get_of_mem ha
  simp only [Action.run, run_handleWorkerStatus, handled, hget, hterm, ↓reduceIte]

/-- A status that echoes a ready task settles its attempt, or finds it settled
and changes nothing. -/
theorem Inv.delivery_or (h : w.Inv C) (he : Echoed m w) :
    (Action.deliver m).run C w = w ∨ ∃ a u x, Delivery m w a u x := by
  obtain ⟨a, _, _, ha, _, _, haid, _⟩ := he.announced h
  cases hterm : a.status.isTerminal with
  | true => exact .inl (deliver_terminal ha haid hterm)
  | false => exact .inr ⟨a, h.delivery he ha haid hterm⟩

namespace Delivery

/-- The task after the status. -/
def settledTask (C : Config) (m : WorkerStatus) (w : World) (u : Task) : Task :=
  m.settledTask C u (w.attemptsOf u.id).length

theorem settledTask_same (C : Config) (m : WorkerStatus) (w : World) (u : Task) :
    SameTask u (settledTask C m w u) :=
  WorkerStatus.settledTask_same C m u _

/-- The tasks that the status adds. -/
def newTasks (C : Config) (m : WorkerStatus) (w : World) (u : Task) : List Task :=
  embedTasks C .status u.dagRunId u.tenantId (w.drawn .status) (m.chunkSets C)

/-- The attempts of the task, the settled one last. -/
theorem attempts (h : Delivery m w a u x) (hw : w.Inv C) :
    ∃ init, w.attemptsOf u.id = init ++ [a] ∧ AllFailed init ∧ init.length < C.cap ∧
      (w.putTaskRun (m.settledRun a)).attemptsOf u.id = init ++ [m.settledRun a] := by
  have hmem : a ∈ w.attemptsOf u.id := Store.mem_attemptsOf.mpr ⟨h.run, h.ofTask⟩
  obtain ⟨init, hinit, hf, _, hl, _⟩ := (hw.phase u h.task).of_running hmem h.active
  refine ⟨init, hinit, hf, hl, ?_⟩
  have hold : w.attemptsOf (m.settledRun a).taskId = init ++ [a] := by
    rw [WorkerStatus.settledRun_taskId, h.ofTask, hinit]
  have hlast := Store.attemptsOf_save_last hold (by simp) (by simp)
  rwa [WorkerStatus.settledRun_taskId, h.ofTask] at hlast

theorem run_eq (h : Delivery m w a u x) (hw : w.Inv C) : (Action.deliver m).run C w =
    ((((w.putTaskRun (m.settledRun a)).putTask (settledTask C m w u)).drawMany .status
      (m.chunkSets C).length).putTasks (newTasks C m w u)).recomputed x.id := by
  have hget : w.taskRuns.get m.taskRunId = some a := h.runId ▸ Table.get_of_mem h.run
  have hget' : w.tasks.get m.taskId = some u := h.taskId ▸ Table.get_of_mem h.task
  obtain ⟨init, hinit, _, _, hinit'⟩ := h.attempts hw
  have hlen : ((w.putTaskRun (m.settledRun a)).listByTask m.taskId).length =
      (w.attemptsOf u.id).length := by
    rw [Store.listByTask_length, ← h.taskId, hinit, hinit']
    simp
  simp only [Action.run, run_handleWorkerStatus, handled, hget, h.active, Bool.false_eq_true,
    ↓reduceIte, hget', World.settledTask, hlen, ← h.dagRunId, putTaskRun_drawn, settledTask,
    newTasks, h.ofRun]

theorem taskRuns (h : Delivery m w a u x) (hw : w.Inv C) :
    ((Action.deliver m).run C w).taskRuns = w.taskRuns.save (m.settledRun a) := by
  rw [h.run_eq hw]
  simp

theorem not_has_newTasks (h : Delivery m w a u x) (hw : w.Inv C) {t : Task}
    (ht : t ∈ newTasks C m w u) : ¬ (w.tasks.save (settledTask C m w u)).Has t.id := by
  obtain ⟨_, _, _, _, k, hk, _, hid⟩ := mem_embedTasks ht
  have hold := hw.not_has_of_le .status hk hid
  rw [Table.has_save]
  rintro (he | hh)
  · exact hold ⟨u, h.task, (settledTask_same C m w u).id.trans he.symm⟩
  · exact hold hh

theorem rows_tasks (h : Delivery m w a u x) (hw : w.Inv C) :
    ((Action.deliver m).run C w).tasks.rows =
      (w.tasks.save (settledTask C m w u)).rows ++ newTasks C m w u := by
  rw [h.run_eq hw, recomputed_tasks]
  exact rows_putTasks (nodup_embedTasks ..) fun t ht => h.not_has_newTasks hw ht

theorem dagRuns (h : Delivery m w a u x) (hw : w.Inv C) :
    ((Action.deliver m).run C w).dagRuns =
      w.dagRuns.save { x with status := ((Action.deliver m).run C w).aggregate x.id } := by
  rw [h.run_eq hw, recomputed_aggregate, recomputed_dagRuns (x := x) (by simpa using h.dagRun)]
  simp

/-- Which tasks are stored after the status. -/
theorem mem_tasks (h : Delivery m w a u x) (hw : w.Inv C) {t : Task} :
    t ∈ ((Action.deliver m).run C w).tasks ↔
      t = settledTask C m w u ∨ (t ∈ w.tasks ∧ t.id ≠ u.id) ∨ t ∈ newTasks C m w u := by
  rw [Table.mem_def, h.rows_tasks hw, List.mem_append, ← Table.mem_def, Table.mem_save,
    ← (settledTask_same C m w u).id, or_assoc]

theorem attemptsOf_self (h : Delivery m w a u x) (hw : w.Inv C) :
    ∃ init, w.attemptsOf u.id = init ++ [a] ∧ AllFailed init ∧ init.length < C.cap ∧
      ((Action.deliver m).run C w).attemptsOf u.id = init ++ [m.settledRun a] := by
  obtain ⟨init, hinit, hf, hl, hinit'⟩ := h.attempts hw
  refine ⟨init, hinit, hf, hl, ?_⟩
  rw [← hinit']
  simp only [Store.attemptsOf, h.taskRuns hw, putTaskRun_taskRuns]

theorem attemptsOf_ne (h : Delivery m w a u x) (hw : w.Inv C) {id : TaskId} (hid : id ≠ u.id) :
    ((Action.deliver m).run C w).attemptsOf id = w.attemptsOf id := by
  have he := Store.attemptsOf_save_of_ne (s := w.toStore) (r := m.settledRun a) (t := id)
    (by rw [WorkerStatus.settledRun_taskId, h.ofTask]; exact Ne.symm hid) fun y hy hyid => by
      rw [Table.eq_of_key hy h.run (hyid.trans (by simp))]
      simp
  rw [← he]
  simp only [Store.attemptsOf, h.taskRuns hw]

end Delivery

end World

/-! ### The rule for executions -/

/-- Each kind of change keeps `P`, where the statuses that settle an attempt
satisfy `allow`. -/
structure Preserved (C : Config) (allow : World → WorkerStatus → Prop) (P : World → Prop) :
    Prop where
  created : ∀ w n tenant profile input, w.Sound C → P w → P (w.created C n tenant profile input)
  dispatched : ∀ w t, w.Sound C → w.Listed t →
    isReady t (w.listByDagRun t.dagRunId) = true → P w → P (w.dispatched C t)
  announced : ∀ w ready, P w → P (w.announced ready)
  delivered : ∀ w m a u x, w.Sound C → World.Delivery m w a u x → allow w m → P w →
    P ((Action.deliver m).run C w)

/-- Whether a step satisfies a condition on the statuses that settle an attempt. -/
def Action.Allowed (allow : World → WorkerStatus → Prop) (w : World) : Action → Prop
  | .deliver m => ∀ a ∈ w.taskRuns, a.id = m.taskRunId → a.status.isTerminal = false → allow w m
  | _ => True

instance Action.decidableAllowed (allow : World → WorkerStatus → Prop)
    [∀ w m, Decidable (allow w m)] (w : World) : (a : Action) → Decidable (a.Allowed allow w)
  | .deliver m => inferInstanceAs (Decidable (∀ a ∈ w.taskRuns.rows, _ → _ → allow w m))
  | .create .. => .isTrue trivial
  | .schedule _ => .isTrue trivial

theorem Action.allowed_true (w : World) (a : Action) : a.Allowed (fun _ _ => True) w := by
  cases a with
  | deliver m => exact fun _ _ _ _ => trivial
  | _ => trivial

namespace Preserved

variable {allow : World → WorkerStatus → Prop} {P : World → Prop}

theorem run (h : Preserved C allow P) (hw : w.Sound C) {a : Action} (he : a.Enabled w)
    (ha : a.Allowed allow w) (hP : P w) : P (a.run C w) := by
  cases a with
  | create n tenant profile input => exact h.created w n tenant profile input hw hP
  | schedule limit =>
    rw [World.run_schedule_eq]
    exact h.announced _ _ (hw.scheduled limit hP h.dispatched)
  | deliver m =>
    rcases hw.inv.delivery_or he with hs | ⟨a, u, x, hd⟩
    · rwa [hs]
    · exact h.delivered w m a u x hw hd (ha a hd.run hd.runId hd.active) hP

theorem execution (h : Preserved C allow P) (hempty : P World.empty)
    {steps : List (World × Action)} (hx : Execution C steps w)
    (ha : ∀ s ∈ steps, s.2.Allowed allow s.1) : P w := by
  induction hx with
  | nil => exact hempty
  | cons a hx he ih =>
    exact h.run (World.Reachable.sound ⟨_, hx⟩) he (ha _ List.mem_cons_self)
      (ih fun s hs => ha s (List.mem_cons_of_mem _ hs))

theorem reachable (h : Preserved C (fun _ _ => True) P) (hempty : P World.empty)
    (hw : w.Reachable C) : P w := by
  obtain ⟨steps, hx⟩ := hw
  exact h.execution hempty hx fun s _ => s.2.allowed_true s.1

theorem later (h : Preserved C (fun _ _ => True) P) {w' : World} (hl : w.Later C w')
    (hw : w.Reachable C) (hP : P w) : P w' := by
  induction hl with
  | refl => exact hP
  | step a hl he ih => exact h.run (hl.reachable hw).sound he (a.allowed_true _) ih

end Preserved

end Contexide.Workflow
