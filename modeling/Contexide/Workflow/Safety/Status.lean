import Contexide.Workflow.Outcome.Status
import Contexide.Workflow.Safety.Planner

/-! The status handler is safe for messages that echo a published request. Its
snapshots stay true because only the status handler writes an announced attempt,
its running task, and its started run. -/

namespace Contexide.Workflow

open Effects Storage

/-- The identifiers are those of a published request. -/
def World.Echoes (w : World) (d : DagRunId) (t : TaskId) (r : TaskRunId) : Prop :=
  ∃ q ∈ w.published, q.2.dagRunId = d.uuid ∧ q.2.taskId = t.uuid ∧ q.2.taskRunId = r.uuid

/-- The identifiers of the message are those of a published request. -/
def Echoed (m : WorkerStatus) (w : World) : Prop := w.Echoes m.dagRunId m.taskId m.taskRunId

/-- A worker's answers to a request. -/
def WorkerRequest.succeeded (q : WorkerRequest) (output : Option Json) : WorkerStatus :=
  .success q.tenantId ⟨q.dagRunId⟩ ⟨q.taskId⟩ ⟨q.taskRunId⟩ output

def WorkerRequest.failed (q : WorkerRequest) (error : String) : WorkerStatus :=
  .failed q.tenantId ⟨q.dagRunId⟩ ⟨q.taskId⟩ ⟨q.taskRunId⟩ error none

theorem echoed_succeeded {w : World} {q : String × WorkerRequest} (hq : q ∈ w.published)
    (output : Option Json) : Echoed (q.2.succeeded output) w := ⟨q, hq, rfl, rfl, rfl⟩

theorem echoed_failed {w : World} {q : String × WorkerRequest} (hq : q ∈ w.published)
    (error : String) : Echoed (q.2.failed error) w := ⟨q, hq, rfl, rfl, rfl⟩

variable {C : Config} {i : Proc} {op : Op} {T : Traced} {d : DagRunId} {t : TaskId}
  {r : TaskRunId} {cur : Option TaskId}

theorem World.Echoes.kept {w : World} (h : w.Echoes d t r) : (exec C i op w).2.Echoes d t r := by
  obtain ⟨q, hq, hids⟩ := h
  exact ⟨q, published_kept hq, hids⟩

/-- An echoed attempt is stored with its task and its started run. -/
theorem World.Echoes.announced {w : World} (h : w.Echoes d t r) (hinv : w.Inv C) :
    ∃ a u x, a ∈ w.taskRuns ∧ u ∈ w.tasks ∧ x ∈ w.dagRuns ∧ a.id = r ∧ u.id = t ∧ x.id = d ∧
      a.taskId = t ∧ u.dagRunId = d ∧ x.status ≠ .created ∧
      (a.status.isTerminal = false → u.status = .running) := by
  obtain ⟨q, hq, hd, ht, hr⟩ := h
  obtain ⟨a, u, x, ha⟩ := hinv.announced q hq
  obtain rfl : a.id = r := TaskRunId.ext (ha.attemptId.trans hr)
  obtain rfl : u.id = t := TaskId.ext (ha.taskId.trans ht)
  obtain rfl : x.id = d := DagRunId.ext (ha.runId.trans hd)
  exact ⟨a, u, x, ha.attempt, ha.task, ha.run, rfl, rfl, rfl, ha.ofTask, ha.ofRun, ha.started,
    ha.active⟩

/-- What the status handler knows throughout a message: its identifiers are
echoed, and no task but possibly the one in hand is between its attempt and its
own status. -/
structure Handling (d : DagRunId) (t : TaskId) (r : TaskRunId) (cur : Option TaskId)
    (T : Traced) : Prop where
  echo : T.world.Echoes d t r
  rest : ∀ u ∈ T.world.tasks, u.status = .running → cur ≠ some u.id →
    ¬ Settled (T.world.attemptsOf u.id)

/-- Apart from the task in hand, running tasks keep their running attempts. -/
theorem unsettled_kept
    (h : ∀ u ∈ T.world.tasks, u.status = .running → cur ≠ some u.id →
      ¬ Settled (T.world.attemptsOf u.id))
    (hinv : T.Inv C) (hp : permit C i op T)
    (hi : i = .status → ∀ a, op = .taskRunSave a → cur = some a.taskId) :
    ∀ u ∈ (exec C i op T.world).2.tasks, u.status = .running → cur ≠ some u.id →
      ¬ Settled ((exec C i op T.world).2.attemptsOf u.id) := by
  intro u hu hs hcur
  rcases task_saved hinv.stores hp hu with ⟨hold, _⟩ | ⟨rfl, hnew⟩
  · have ha := h u hold hs hcur
    rcases attempts_written hinv.stores hp hold with he | ⟨_, hs', _⟩ | ⟨rfl, _, _, a, rfl, he⟩
    · exact he.symm ▸ ha
    · rw [hs] at hs'
      exact absurd hs' (by simp)
    · exact absurd ((hi rfl a rfl).trans (congrArg some he)) hcur
  · change ¬ Settled (T.world.attemptsOf u.id)
    rcases hnew with ⟨_, hs', _⟩ | ⟨_, _, hset⟩ | ⟨_, hs', _⟩
    · rw [hs] at hs'
      exact absurd hs' (by simp)
    · exact hset
    · exact absurd hs hs'

theorem between_status_stable : (discipline C).Stable .status (between .status) :=
  fun _ _ _ hj hinv h hp u hu hs =>
    unsettled_kept (fun u hu hs (_ : none ≠ some u.id) => h u hu hs) hinv hp
      (fun he => absurd he hj) u hu hs (by simp)

theorem Handling.kept (h : Handling d t r cur T) (hinv : T.Inv C) (hp : permit C i op T)
    (hi : i = .status → ∀ a, op = .taskRunSave a → cur = some a.taskId) :
    Handling d t r cur (trace C i op T).2 :=
  ⟨h.echo.kept, unsettled_kept h.rest hinv hp hi⟩

theorem Handling.stable : (discipline C).Stable .status (Handling d t r cur) :=
  fun _ _ _ hj hinv h hp => h.kept hinv hp fun he => absurd he hj

theorem Handling.frame : Frame C .status (Handling d t r none) where
  stable := Handling.stable
  draw _ h := ⟨h.echo.kept, h.rest⟩
  insert T u hinv h hn := by
    have hp : permit C .status (.taskSave u) T := by
      refine ⟨fun x hx => ?_, .inl hn⟩
      obtain rfl : x = .task u.id := by simpa [Op.writes] using hx
      exact hinv.stale_of_not_stored .status hn.fresh
    exact h.kept hinv hp fun _ a he => by simp at he

/-- The attempt of the message was settled and its task was not: a running task
whose last attempt has the status `s`. -/
structure Settling (C : Config) (t : TaskId) (s : TaskRunStatus) (T : Traced) : Prop where
  task : ∃ u ∈ T.world.tasks, u.id = t ∧ u.status = .running
  attempts : ∃ init a, T.world.attemptsOf t = init ++ [a] ∧ AllFailed init ∧ a.status = s ∧
    init.length < C.cap

theorem running_kept (hp : permit C i op T) (hi : i ≠ .status) {u : Task} (hu : u ∈ T.world.tasks)
    (hs : u.status = .running) : .task u.id ∉ op.writes := by
  intro hw
  rcases task_written hp hu hw with ⟨_, hs'⟩ | ⟨he, _⟩
  · rw [hs] at hs'
    exact absurd hs' (by simp)
  · exact hi he

theorem running_attemptsOf_kept (hinv : T.Inv C) (hp : permit C i op T) (hi : i ≠ .status)
    {u : Task} (hu : u ∈ T.world.tasks) (hs : u.status = .running) :
    (exec C i op T.world).2.attemptsOf u.id = T.world.attemptsOf u.id := by
  rcases attempts_written hinv.stores hp hu with h | ⟨_, hs', _⟩ | ⟨he, _⟩
  · exact h
  · rw [hs] at hs'
    exact absurd hs' (by simp)
  · exact absurd he hi

theorem Settling.stable (s : TaskRunStatus) : (discipline C).Stable .status (Settling C t s) := by
  rintro j op T hj hinv ⟨⟨u, hu, rfl, hs⟩, hatt⟩ hp
  refine ⟨⟨u, task_kept hu (running_kept hp hj hu hs), rfl, hs⟩, ?_⟩
  have he := running_attemptsOf_kept hinv hp hj hu hs
  exact he.symm ▸ hatt

/-! ### Records in the status handler's hands -/

def HoldsRun (C : Config) (a : TaskRun) (T : Traced) : Prop :=
  a ∈ T.world.taskRuns ∧ stale C.backend .status (.taskRun a.id) T.log = false

def HoldsTask (C : Config) (u : Task) (T : Traced) : Prop :=
  u ∈ T.world.tasks ∧ u.status = .running ∧ stale C.backend .status (.task u.id) T.log = false

def HoldsDagRun (C : Config) (x : DagRun) (T : Traced) : Prop :=
  x ∈ T.world.dagRuns ∧ x.status ≠ .created ∧
    stale C.backend .status (.dagRun x.id) T.log = false

theorem HoldsRun.stable (a : TaskRun) : (discipline C).Stable .status (HoldsRun C a) := by
  rintro j op T hj _ ⟨ha, hs⟩ hp
  have hw : .taskRun a.id ∉ op.writes := fun hw => hj (taskRun_written hp ha hw).1
  exact ⟨taskRun_kept ha hw, stale_cons_of_notMem hs hw⟩

theorem HoldsTask.stable (u : Task) : (discipline C).Stable .status (HoldsTask C u) := by
  rintro j op T hj _ ⟨hu, hr, hs⟩ hp
  have hw := running_kept hp hj hu hr
  exact ⟨task_kept hu hw, hr, stale_cons_of_notMem hs hw⟩

theorem HoldsDagRun.stable (x : DagRun) : (discipline C).Stable .status (HoldsDagRun C x) := by
  rintro j op T hj _ ⟨hx, hn, hs⟩ hp
  have hw : .dagRun x.id ∉ op.writes := by
    intro hw
    rcases dagRun_written hp hx hw with ⟨_, hc⟩ | ⟨he, _⟩
    · exact hn hc
    · exact hj he
  exact ⟨dagRun_kept hx hw, hn, stale_cons_of_notMem hs hw⟩

/-- Settling the attempt in hand. -/
theorem settle_attempt {a a' : TaskRun} {s : TaskRunStatus} (hinv : T.Inv C)
    (h : Handling d t r none T) (ha : HoldsRun C a T) (hr : a.id = r)
    (hrun : a.status.isTerminal = false) (hid : a.id = a'.id) (htask : a.taskId = a'.taskId)
    (hno : a.attemptNo = a'.attemptNo) (hs : a'.status = s) (hs' : s = .success ∨ s = .failed) :
    permit C .status (.taskRunSave a') T ∧
      Handling d t r (some t) (trace C .status (.taskRunSave a') T).2 ∧
      Settling C t s (trace C .status (.taskRunSave a') T).2 := by
  obtain ⟨b, u, x, hb, hu, _, hbid, rfl, _, hbt, _, _, hact⟩ := h.echo.announced hinv.stores
  obtain rfl : b = a := Table.eq_of_key hb ha.1 (hbid.trans hr.symm)
  obtain ⟨q, hq, _, _, hqr⟩ := h.echo
  have hp : permit C .status (.taskRunSave a') T := by
    refine ⟨fun k hk => ?_, b, ?_⟩
    · obtain rfl : k = .taskRun a'.id := by simpa [Op.writes] using hk
      exact hid ▸ ha.2
    · exact
        { mem := hb
          id := hid
          ofTask := htask
          number := hno
          running := hrun
          settled := hs ▸ hs'
          announced := ⟨q, hq, hqr.trans (congrArg TaskRunId.uuid hbid).symm⟩ }
  have hcur : Handling d u.id r (some u.id) T := ⟨h.echo, fun v hv hs _ => h.rest v hv hs (by simp)⟩
  refine ⟨hp, hcur.kept hinv hp fun _ c hc => ?_, ⟨u, hu, rfl, hact hrun⟩, ?_⟩
  · obtain rfl : a' = c := by simpa using hc
    exact congrArg some (hbt.symm.trans htask)
  · obtain ⟨init, hinit, hf, _, hl, _⟩ := (hinv.stores.phase u hu).of_running
      (Store.mem_attemptsOf.mpr ⟨hb, hbt⟩) hrun
    have ht' : a'.taskId = u.id := htask.symm.trans hbt
    have hlast := Store.attemptsOf_save_last (s := T.world.toStore) (r := a')
      (by rw [ht']; exact hinit) hid htask
    rw [ht'] at hlast
    exact ⟨init, a', hlast, hf, hs, hl⟩

/-- Settling the task in hand. -/
theorem settle_task {u u' : Task} {s : TaskRunStatus} (hinv : T.Inv C)
    (h : Handling d t r (some t) T) (hset : Settling C t s T) (hu : HoldsTask C u T)
    (hid : u.id = t) (hs : s = .success ∨ s = .failed) (hsame : SameTask u u')
    (hleft : u'.status ≠ .running)
    (hfits : ∀ init a, T.world.attemptsOf t = init ++ [a] → AllFailed init → a.status = s →
      init.length < C.cap → Phase C.cap u'.status (init ++ [a])) :
    permit C .status (.taskSave u') T ∧
      Handling d t r none (trace C .status (.taskSave u') T).2 := by
  obtain ⟨hmem, hrun, hstale⟩ := hu
  obtain ⟨_, init, a, hatt, hf, ha, hl⟩ := hset
  have hp : permit C .status (.taskSave u') T := by
    refine ⟨fun k hk => ?_, .inr ⟨u, ?_⟩⟩
    · obtain rfl : k = .task u'.id := by simpa [Op.writes] using hk
      exact hsame.id ▸ hstale
    · refine ⟨hsame, hmem, hrun, ?_, hleft, ?_⟩
      · rw [hid, hatt]
        exact hf.settled.append (by rw [ha]; rcases hs with rfl | rfl <;> rfl)
      · rw [hid, hatt]
        exact hfits init a hatt hf ha hl
  have hk := h.kept hinv hp fun _ a he => by simp at he
  refine ⟨hp, hk.echo, fun v hv hv' _ => hk.rest v hv hv' fun he => hleft ?_⟩
  rw [← hv', Table.eq_of_mem_save hv ((Option.some.inj he).symm.trans (hid.symm.trans hsame.id))]

namespace Scheduler

theorem updateDagStatus_safe :
    (discipline C).Triple .status (Handling d t r none) (updateDagStatus d)
      fun _ => Handling d t r none := by
  have hsave : ∀ {op : Op} {T : Traced}, T.Inv C → permit C .status op T →
      (∀ a, op ≠ .taskRunSave a) → Handling d t r none T →
      Handling d t r none (trace C .status op T).2 :=
    fun hinv hp hne h => h.kept hinv hp fun _ a he => absurd he (hne a)
  refine perform_safe (.dagRunGet d) Handling.stable
    (R := fun run T => ∃ x, (run = some x ∧ x.id = d) ∧ Handling d t r none T ∧ HoldsDagRun C x T)
    (fun T hinv h => ?_) fun run => Discipline.Triple.of_exists fun x =>
      Discipline.Triple.of_and fun ⟨hrun, hid⟩ => ?_
  · have hp : permit C .status (.dagRunGet d) T := ⟨by simp [Op.writes], trivial⟩
    obtain ⟨_, _, x, _, _, hx, _, _, rfl, _, _, hs, _⟩ := h.echo.announced hinv.stores
    exact ⟨hp, x, ⟨Table.get_of_mem hx, rfl⟩, hsave hinv hp (by simp) h, hx, hs,
      stale_cons_read (by simp [Event.reads])⟩
  subst hrun
  have hheld : (discipline C).Stable .status fun T =>
      Handling d t r none T ∧ HoldsDagRun C x T := Handling.stable.and (HoldsDagRun.stable x)
  refine perform_safe (.taskListByDagRun d) hheld
    (R := fun tasks T => (Handling d t r none T ∧ HoldsDagRun C x T) ∧
      (dagStatusFromTasks (tasks.map Task.status) = .success → T.Complete C d))
    (fun T hinv h => ?_) fun tasks => ?_
  · have hp : permit C .status (.taskListByDagRun d) T := ⟨by simp [Op.writes], trivial⟩
    obtain ⟨h, hx, hs, hstale⟩ := h
    refine ⟨hp, ⟨hsave hinv hp (by simp) h, hx, hs, stale_cons_self hstale⟩, fun hsuccess => ?_⟩
    rw [dagStatusFromTasks_eq_success] at hsuccess
    have hdone : ∀ u ∈ T.world.listByDagRun d, u.status.isDone = true :=
      fun u hu => hsuccess _ (List.mem_map_of_mem hu)
    -- either the whole plan was there to be listed, or this listing was premature
    by_cases hplan : PlanStored C T.world d
    · refine .inl fun kind hkind => ?_
      obtain ⟨u, hu, hud, hk, hpl⟩ := hplan kind hkind
      exact ⟨u, hu, hud, hk, hpl, hdone u (List.mem_filter.mpr ⟨hu, by simpa using hud⟩)⟩
    · exact .inr ⟨_, List.mem_cons_self, rfl, rfl, hdone, hplan⟩
  have hcomplete : (discipline C).Stable .status fun T =>
      dagStatusFromTasks (tasks.map Task.status) = .success → T.Complete C d :=
    fun _ _ _ _ _ h hp hs => (h hs).kept hp
  change (discipline C).Triple _ _ (if _ then _ else _) _
  split
  · refine perform_safe (.dagRunSave { x with status := _ })
      (R := fun _ => Handling d t r none) (hheld.and hcomplete) (fun T hinv h => ?_)
      fun _ => Discipline.Triple.pure Handling.stable fun _ _ h => h
    obtain ⟨⟨h, hx, hs, hstale⟩, hc⟩ := h
    have hp : permit C .status (.dagRunSave
        { x with status := dagStatusFromTasks (tasks.map Task.status) }) T := by
      refine ⟨fun k hk => ?_, ⟨x, hx, rfl, hs, dagStatusFromTasks_ne_created _⟩,
        fun he => hid ▸ hc he⟩
      obtain rfl : k = .dagRun x.id := by simpa [Op.writes] using hk
      exact hstale
    exact ⟨hp, hsave hinv hp (by simp) h⟩
  · exact Discipline.Triple.pure (hheld.and hcomplete) fun _ _ h => h.1.1

/-- The task after its last attempt failed fits its attempts. -/
theorem failedTask_fits (u : Task) {rs : List TaskRun} (hf : AllFailed rs) (hpos : 0 < rs.length)
    (hle : rs.length ≤ C.cap) (error : String) (errorKind : Option String) :
    Phase C.cap (failedTask C u (UInt32.ofNat rs.length) error errorKind).status rs := by
  have hcap : C.cap < 2 ^ 32 := by
    have := C.retryPolicy.maxAttempts.toNat_lt
    unfold Config.cap
    omega
  have hlt : C.retryPolicy.shouldRetry (UInt32.ofNat rs.length) = true ↔
      rs.length < C.retryPolicy.maxAttempts.toNat := by
    rw [RetryPolicy.shouldRetry, decide_eq_true_iff, UInt32.lt_iff_toNat_lt,
      UInt32.toNat_ofNat_of_lt' (by simpa [UInt32.size] using lt_of_le_of_lt hle hcap)]
  unfold failedTask
  split
  · next h =>
    have := hlt.mp h
    exact .waiting hf (by unfold Config.cap; omega)
  · next h =>
    have : ¬ rs.length < C.retryPolicy.maxAttempts.toNat := fun hl => h (hlt.mpr hl)
    exact .exhausted hf (by unfold Config.cap at hle ⊢; omega)

theorem buildEmbedTasks_safe {F : Traced → Prop} (hF : Frame C i F) (d : DagRunId)
    (tenant : TenantId) (chunkSets : List Uuid) (acc : List Task) :
    (discipline C).Triple i (fun T => (Unsaved C i acc T ∧ T.world.dagRuns.Has d) ∧ F T)
      (buildEmbedTasks C d tenant chunkSets) fun ts T => Unsaved C i (acc ++ ts) T ∧ F T := by
  induction chunkSets generalizing acc with
  | nil => exact no_task_safe hF d acc
  | cons chunkSet rest ih =>
    rw [buildEmbedTasks]
    apply next_task_safe hF
    · exact fun _ => rfl
    · exact fun _ => rfl
    · exact fun _ => rfl
    · exact fun id => ih _

/-- The task of the message, read back by the handler. -/
theorem getTask_safe {α : Type} {Q : α → Traced → Prop} {s : TaskRunStatus}
    {f : Option Task → Prog α}
    (hf : ∀ u : Task, u.id = t → (discipline C).Triple .status
      (fun T => Handling d t r (some t) T ∧ Settling C t s T ∧ HoldsTask C u T) (f (some u)) Q) :
    (discipline C).Triple .status (fun T => Handling d t r (some t) T ∧ Settling C t s T)
      (Tasks.get t >>= f) Q := by
  refine perform_safe (.taskGet t) (Handling.stable.and (Settling.stable s))
    (R := fun task T => ∃ u, (task = some u ∧ u.id = t) ∧
      Handling d t r (some t) T ∧ Settling C t s T ∧ HoldsTask C u T)
    (fun T hinv h => ?_) fun task => Discipline.Triple.of_exists fun u =>
      Discipline.Triple.of_and fun ⟨hu, hid⟩ => hu ▸ hf u hid
  have hp : permit C .status (.taskGet t) T := ⟨by simp [Op.writes], trivial⟩
  obtain ⟨h, ⟨u, hu, rfl, hs⟩, hatt⟩ := h
  exact ⟨hp, u, ⟨Table.get_of_mem hu, rfl⟩, h.kept hinv hp (fun _ a he => by simp at he),
    ⟨⟨u, hu, rfl, hs⟩, hatt⟩, hu, hs, stale_cons_read (by simp [Event.reads])⟩

theorem completeTask_safe (output : Option Json) :
    (discipline C).Triple .status (fun T => Handling d t r (some t) T ∧ Settling C t .success T)
      (completeTask C d t output) fun _ => Handling d t r none := by
  refine getTask_safe fun u hid => ?_
  refine perform_safe (.taskSave { u with status := .success, result := output })
    (R := fun _ => Handling d t r none)
    (Handling.stable.and ((Settling.stable .success).and (HoldsTask.stable u)))
    (fun T hinv h => settle_task hinv h.1 h.2.1 h.2.2 hid (.inl rfl)
      ⟨rfl, rfl, rfl, rfl, rfl⟩ (by simp)
      fun _ _ _ hf ha hl => .done hf ha hl) fun _ => ?_
  cases output with
  | none => exact updateDagStatus_safe
  | some out =>
    change (discipline C).Triple _ _ (extractEmbedTasks C out d u.tenantId >>= _) _
    unfold extractEmbedTasks
    split
    · refine Discipline.Triple.bind (R := fun new T => ∃ ts, new = some ts ∧
        Unsaved C .status ts T ∧ Handling d t r none T) (Discipline.Triple.bind
          ((buildEmbedTasks_safe Handling.frame d u.tenantId _ []).weaken (fun T hinv h => ?_)
            fun _ _ h => h)
          fun ts => Discipline.Triple.pure ((Unsaved.stable C _ _).and Handling.stable)
            fun _ _ h => ⟨ts, rfl, h⟩)
        fun new => Discipline.Triple.of_exists fun ts => Discipline.Triple.of_and fun hts => ?_
      · obtain ⟨_, _, x, _, _, hx, _, _, hxd, _⟩ := h.echo.announced hinv.stores
        exact ⟨⟨Unsaved.nil, x, hx, hxd⟩, h⟩
      · subst hts
        exact Discipline.Triple.bind (saveTasks_safe (by simp) Handling.frame ts)
          fun _ => updateDagStatus_safe
    · exact updateDagStatus_safe

theorem failTask_safe (error : String) (errorKind : Option String) :
    (discipline C).Triple .status (fun T => Handling d t r (some t) T ∧ Settling C t .failed T)
      (failTask C d t error errorKind) fun _ => Handling d t r none := by
  refine getTask_safe fun u hid => ?_
  have hheld : (discipline C).Stable .status fun T =>
      Handling d t r (some t) T ∧ Settling C t .failed T ∧ HoldsTask C u T :=
    Handling.stable.and ((Settling.stable .failed).and (HoldsTask.stable u))
  have hcounted : ∀ n, (discipline C).Stable .status fun T =>
      (Handling d t r (some t) T ∧ Settling C t .failed T ∧ HoldsTask C u T) ∧
        (T.world.attemptsOf t).length = n := by
    rintro n j op T hj hinv ⟨h, hn⟩ hp
    refine ⟨hheld j op T hj hinv h hp, ?_⟩
    have he := running_attemptsOf_kept hinv hp hj h.2.2.1 h.2.2.2.1
    rw [hid] at he
    exact (congrArg List.length he).trans hn
  refine perform_safe (.taskRunListByTask t) hheld
    (R := fun attempts T => (Handling d t r (some t) T ∧ Settling C t .failed T ∧
      HoldsTask C u T) ∧ (T.world.attemptsOf t).length = attempts.length)
    (fun T hinv h => ?_) fun attempts => ?_
  · have hp : permit C .status (.taskRunListByTask t) T := ⟨by simp [Op.writes], trivial⟩
    obtain ⟨h, hset, hu, hr, hstale⟩ := h
    exact ⟨hp, ⟨h.kept hinv hp fun _ a he => by simp at he, ⟨hset.task, hset.attempts⟩, hu, hr,
      stale_cons_self hstale⟩, (Store.listByTask_length _ _).symm⟩
  · obtain ⟨hsame, hleft⟩ := failedTask_same C u (UInt32.ofNat attempts.length) error errorKind
    refine perform_safe (.taskSave (failedTask C u (UInt32.ofNat attempts.length) error errorKind))
      (R := fun _ => Handling d t r none) (hcounted attempts.length) (fun T hinv h => ?_)
      fun _ => updateDagStatus_safe
    obtain ⟨⟨h, hset, hu⟩, hn⟩ := h
    refine settle_task hinv h hset hu hid (.inr rfl) hsame hleft fun init a hatt hf ha hl => ?_
    have hlen : attempts.length = (init ++ [a]).length := by rw [← hatt, hn]
    rw [hlen]
    exact failedTask_fits u (hf.append ha) (by simp) (by simpa using Nat.succ_le_of_lt hl) error
      errorKind

/-- The attempt of the message, read by the handler and saved with its new status. -/
theorem settleRun_safe {s : TaskRunStatus} {g : TaskRun → TaskRun} {p : Prog Unit}
    (hs : s = .success ∨ s = .failed)
    (hg : ∀ a : TaskRun, (g a).id = a.id ∧ (g a).taskId = a.taskId ∧
      (g a).attemptNo = a.attemptNo ∧ (g a).status = s)
    (hp : (discipline C).Triple .status
      (fun T => Handling d t r (some t) T ∧ Settling C t s T) p fun _ => Handling d t r none) :
    (discipline C).Triple .status (Handling d t r none)
      (TaskRuns.get r >>= fun taskRun => match taskRun with
        | some taskRun =>
          if taskRun.status.isTerminal then pure ()
          else TaskRuns.save (g taskRun) >>= fun _ => p
        | none => pure ()) fun _ => Handling d t r none := by
  refine perform_safe (.taskRunGet r) Handling.stable
    (R := fun taskRun T => ∃ a, (taskRun = some a ∧ a.id = r) ∧
      Handling d t r none T ∧ HoldsRun C a T)
    (fun T hinv h => ?_) fun taskRun => Discipline.Triple.of_exists fun a =>
      Discipline.Triple.of_and fun ⟨ha, hid⟩ => ?_
  · have hp : permit C .status (.taskRunGet r) T := ⟨by simp [Op.writes], trivial⟩
    obtain ⟨a, _, _, ha, _, _, rfl, _⟩ := h.echo.announced hinv.stores
    exact ⟨hp, a, ⟨Table.get_of_mem ha, rfl⟩, h.kept hinv hp (fun _ a he => by simp at he), ha,
      stale_cons_read (by simp [Event.reads])⟩
  subst ha
  by_cases hterm : a.status.isTerminal = true
  · simp only [hterm, ↓reduceIte]
    exact (Discipline.Triple.pure Handling.stable fun _ _ h => h).weaken
      (fun _ _ h => h.1) fun _ _ h => h
  · simp only [hterm, Bool.false_eq_true, ↓reduceIte]
    obtain ⟨hgid, hgtask, hgno, hgs⟩ := hg a
    exact perform_safe (.taskRunSave (g a)) (Handling.stable.and (HoldsRun.stable a))
      (fun T hinv h => settle_attempt hinv h.1 h.2 hid (by simpa using hterm) hgid.symm
        hgtask.symm hgno.symm hgs hs) fun _ => hp

theorem handleWorkerStatus_safe (m : WorkerStatus) :
    (discipline C).Triple .status (fun T => between .status T ∧ Echoed m T.world)
      (handleWorkerStatus C m) fun _ => between .status := by
  have hpost : ∀ T, Handling m.dagRunId m.taskId m.taskRunId none T → between .status T :=
    fun T h u hu hs => h.rest u hu hs (by simp)
  refine Discipline.Triple.weaken (P := Handling m.dagRunId m.taskId m.taskRunId none)
    (Q := fun _ => Handling m.dagRunId m.taskId m.taskRunId none) ?_
    (fun T _ h => ⟨h.2, fun u hu hs _ => h.1 u hu hs⟩) fun _ T h => hpost T h
  cases m with
  | success tenant d t r output =>
    exact settleRun_safe (g := fun a => { a with status := .success, error := none }) (.inl rfl)
      (fun _ => ⟨rfl, rfl, rfl, rfl⟩) (completeTask_safe output)
  | failed tenant d t r error errorKind =>
    exact settleRun_safe (g := fun a => { a with status := .failed, error := some error })
      (.inr rfl) (fun _ => ⟨rfl, rfl, rfl, rfl⟩) (failTask_safe error errorKind)

end Scheduler

end Contexide.Workflow
