import Contexide.Effects.RelyGuarantee
import Contexide.Workflow.Planner
import Contexide.Workflow.Protocol

/-! The executor's components as processes over a traced world: the stores
together with every call made so far. The trace defines lost updates (a save of
a record that another component saved after it was read) and premature
aggregates (a run read as complete before its plan was stored). The discipline
allows each component the writes of `Protocol`, and no lost update. -/

namespace Contexide.Workflow

open Effects Storage

/-- What a record is stored under. -/
inductive Key where
  | dagRun (id : DagRunId)
  | task (id : TaskId)
  | taskRun (id : TaskRunId)
  deriving DecidableEq

def Op.writes : Op → List Key
  | .dagRunSave e => [.dagRun e.id]
  | .taskSave e => [.task e.id]
  | .taskRunSave e => [.taskRun e.id]
  | _ => []

/-- The run whose tasks a call lists. -/
def Op.listed : Op → Option DagRunId
  | .taskListByDagRun id => some id
  | _ => none

/-- One call: who made it, which call, and the stores it was made on. -/
structure Event where
  proc : Proc
  op : Op
  before : World

/-- The records whose value a call hands out to be changed and written back.
The listings by run and by task are only inspected. -/
def Event.reads (b : Backend) (e : Event) : List Key :=
  match e.op with
  | .dagRunGet id => [.dagRun id]
  | .taskGet id => [.task id]
  | .taskRunGet id => [.taskRun id]
  | .taskListPending limit => (e.before.listed b limit).map fun t => .task t.id
  | _ => []

/-- Whether another process saved `x` after the last time `i` read it; the
latest call comes first. -/
def stale (b : Backend) (i : Proc) (x : Key) : List Event → Bool
  | [] => false
  | e :: log =>
    if e.proc = i ∧ x ∈ e.reads b then false
    else if e.proc ≠ i ∧ x ∈ e.op.writes then true
    else stale b i x log

/-- No call of the trace saved a record that was stale for its process. -/
def NoLostUpdate (b : Backend) : List Event → Prop
  | [] => True
  | e :: log => (∀ x ∈ e.op.writes, stale b e.proc x log = false) ∧ NoLostUpdate b log

structure Traced where
  world : World
  log : List Event

def Traced.empty : Traced := ⟨World.empty, []⟩

/-- The calls of component `i`, recorded. -/
def trace (C : Config) (i : Proc) : Handler sig Traced := fun op T =>
  ((exec C i op T.world).1, ⟨(exec C i op T.world).2, ⟨i, op, T.world⟩ :: T.log⟩)

/-- Tracing does not change what a program does. -/
theorem run_trace {α : Type} (C : Config) (i : Proc) (p : Prog α) (T : Traced) :
    (p.run (trace C i) T).1 = (p.run (exec C i) T.world).1 ∧
      (p.run (trace C i) T).2.world = (p.run (exec C i) T.world).2 := by
  induction p generalizing T with
  | ret a => exact ⟨rfl, rfl⟩
  | call op next ih => exact ih _ _

/-- A task that the planner created. -/
def Planned (C : Config) (id : TaskId) : Prop := ∃ n k, id.uuid = C.ids.uuid (.planner n) k

/-- All planned tasks of a run are stored. -/
def PlanStored (C : Config) (w : World) (d : DagRunId) : Prop :=
  ∀ kind ∈ Planner.profileSequence, ∃ t ∈ w.tasks, t.dagRunId = d ∧ t.kind = kind ∧ Planned C t.id

/-- All planned tasks of a run are stored and succeeded or were skipped. -/
def PlanDone (C : Config) (w : World) (d : DagRunId) : Prop :=
  ∀ kind ∈ Planner.profileSequence, ∃ t ∈ w.tasks, t.dagRunId = d ∧ t.kind = kind ∧
    Planned C t.id ∧ t.status.isDone = true

/-- The status handler lists the tasks of a run, finds all of them done, and a
planned task is not yet stored. -/
def Event.Premature (C : Config) (e : Event) (d : DagRunId) : Prop :=
  e.proc = .status ∧ e.op.listed = some d ∧
    (∀ t ∈ e.before.listByDagRun d, t.status.isDone = true) ∧ ¬ PlanStored C e.before d

/-- What justifies the status `Success` of a run. -/
def Traced.Complete (C : Config) (T : Traced) (d : DagRunId) : Prop :=
  PlanDone C T.world d ∨ ∃ e ∈ T.log, e.Premature C d

/-- The calls component `i` may make: any read, the writes of `Protocol`, and
no save of a stale record. -/
def permit (C : Config) (i : Proc) (op : Op) (T : Traced) : Prop :=
  (∀ x ∈ op.writes, stale C.backend i x T.log = false) ∧
  match op with
  | .dagRunSave d =>
    match i with
    | .planner _ => T.world.NewDagRun C i d
    | .pump => ∃ d₀, T.world.MarkRunning d₀ d
    | .status => (∃ d₀, T.world.Aggregate d₀ d) ∧ (d.status = .success → T.Complete C d.id)
  | .taskSave t =>
    match i with
    | .planner _ => T.world.NewTask C i t
    | .pump => ∃ t₀, T.world.StartTask t₀ t
    | .status => T.world.NewTask C i t ∨ ∃ t₀, T.world.SettleTask C t₀ t
  | .taskRunSave r =>
    match i with
    | .planner _ => False
    | .pump => ∃ t, T.world.OpenAttempt C r t
    | .status => ∃ r₀, T.world.SettleAttempt r₀ r
  | .publish _ q =>
    i = .pump ∧ (∃ r t d, T.world.Announced q r t d) ∧
      ∀ p ∈ T.world.published, p.2.taskRunId ≠ q.taskRunId
  | _ => True

/-! ### What a call leaves alone -/

section Exec
variable {C : Config} {i : Proc} {op : Op} {w : World}

theorem task_kept {t : Task} (ht : t ∈ w.tasks) (hk : Key.task t.id ∉ op.writes) :
    t ∈ (exec C i op w).2.tasks := by
  cases op with
  | taskSave e => exact Table.mem_save_of_ne ht fun he => hk (by simp [Op.writes, he])
  | _ => exact ht

theorem dagRun_kept {d : DagRun} (hd : d ∈ w.dagRuns) (hk : Key.dagRun d.id ∉ op.writes) :
    d ∈ (exec C i op w).2.dagRuns := by
  cases op with
  | dagRunSave e => exact Table.mem_save_of_ne hd fun he => hk (by simp [Op.writes, he])
  | _ => exact hd

theorem taskRun_kept {r : TaskRun} (hr : r ∈ w.taskRuns) (hk : Key.taskRun r.id ∉ op.writes) :
    r ∈ (exec C i op w).2.taskRuns := by
  cases op with
  | taskRunSave e => exact Table.mem_save_of_ne hr fun he => hk (by simp [Op.writes, he])
  | _ => exact hr

theorem dagRun_has_kept {id : DagRunId} (h : w.dagRuns.Has id) :
    (exec C i op w).2.dagRuns.Has id := by
  cases op with
  | dagRunSave e => exact Table.has_save.mpr (.inr h)
  | _ => exact h

theorem drawn_le (j : Proc) : w.drawn j ≤ (exec C i op w).2.drawn j := by
  have hd : w.drawn j ≤ (w.draw i).drawn j := by
    by_cases hj : j = i
    · subst hj; simp
    · rw [World.draw_drawn_ne _ hj]
  cases op with
  | newDagRunId | newTaskId | newTaskRunId => exact hd
  | _ => exact le_rfl

theorem Drawn.kept {j : Proc} {u : Uuid} (h : w.Drawn C j u) : (exec C i op w).2.Drawn C j u :=
  h.mono (drawn_le j)

/-- A save without interference: another process's call that does not write
`x` keeps `x` fresh. -/
theorem stale_cons_of_notMem {b : Backend} {j : Proc} {x : Key} {log : List Event}
    (h : stale b j x log = false) (hx : x ∉ op.writes) :
    stale b j x (⟨i, op, w⟩ :: log) = false := by
  simp [stale, hx, h]

/-- A process's own call never makes a record stale for it. -/
theorem stale_cons_self {b : Backend} {x : Key} {log : List Event}
    (h : stale b i x log = false) : stale b i x (⟨i, op, w⟩ :: log) = false := by
  simp [stale, h]

/-- Reading a record makes it fresh. -/
theorem stale_cons_read {b : Backend} {x : Key} {log : List Event}
    (h : x ∈ Event.reads b ⟨i, op, w⟩) : stale b i x (⟨i, op, w⟩ :: log) = false := by
  simp [stale, h]

end Exec

/-- A record is stored under the key. -/
def World.Stored (w : World) : Key → Prop
  | .dagRun id => w.dagRuns.Has id
  | .task id => w.tasks.Has id
  | .taskRun id => w.taskRuns.Has id

theorem stored_exec {C : Config} {i : Proc} {op : Op} {w : World} {x : Key}
    (h : w.Stored x ∨ x ∈ op.writes) : (exec C i op w).2.Stored x := by
  cases op with
  | dagRunSave e =>
    cases x <;> simp_all [World.Stored, Op.writes, exec, Table.has_save, or_comm]
  | taskSave e =>
    cases x <;> simp_all [World.Stored, Op.writes, exec, Table.has_save, or_comm]
  | taskRunSave e =>
    cases x <;> simp_all [World.Stored, Op.writes, exec, Table.has_save, or_comm]
  | _ => exact h.resolve_right (by simp [Op.writes])

/-- A call that opens an attempt does so when the earlier ones of its task are settled. -/
def Event.OpensSettled (e : Event) : Prop :=
  ∀ r, e.op = .taskRunSave r → ¬ e.before.taskRuns.Has r.id → Settled (e.before.attemptsOf r.taskId)

/-- The invariant of the traced world. -/
structure Traced.Inv (C : Config) (T : Traced) : Prop where
  stores : T.world.Inv C
  noLostUpdate : NoLostUpdate C.backend T.log
  written : ∀ e ∈ T.log, ∀ x ∈ e.op.writes, T.world.Stored x
  opened : ∀ e ∈ T.log, e.OpensSettled
  complete : ∀ d ∈ T.world.dagRuns, d.status = .success → T.Complete C d.id

/-- A record that is not stored has never been saved, so nobody's copy is stale. -/
theorem Traced.Inv.stale_of_not_stored {C : Config} {T : Traced} (h : T.Inv C) (i : Proc) {x : Key}
    (hx : ¬ T.world.Stored x) : stale C.backend i x T.log = false := by
  have hw := h.written
  generalize T.log = log at hw
  induction log with
  | nil => rfl
  | cons e log ih =>
    have he : x ∉ e.op.writes := fun hm => hx (hw e List.mem_cons_self x hm)
    have hl := ih fun f hf => hw f (List.mem_cons_of_mem _ hf)
    simp [stale, he, hl]

section Permit
variable {C : Config} {i : Proc} {op : Op} {T : Traced}

/-- The stores' invariant after a permitted call. -/
theorem stores_step (h : T.world.Inv C) (hp : permit C i op T) :
    (exec C i op T.world).2.Inv C := by
  cases op with
  | dagRunSave d =>
    cases i with
    | planner n => exact h.newDagRun hp.2
    | pump => obtain ⟨d₀, hd⟩ := hp.2; exact h.markRunning hd
    | status => obtain ⟨⟨d₀, hd⟩, _⟩ := hp.2; exact h.aggregate hd
  | taskSave t =>
    cases i with
    | planner n => exact h.newTask hp.2
    | pump => obtain ⟨t₀, ht⟩ := hp.2; exact h.startTask ht
    | status =>
      rcases hp.2 with ht | ⟨t₀, ht⟩
      · exact h.newTask ht
      · exact h.settleTask ht
  | taskRunSave r =>
    cases i with
    | planner n => exact hp.2.elim
    | pump => obtain ⟨t, ho⟩ := hp.2; exact h.openAttempt ho
    | status => obtain ⟨r₀, hs⟩ := hp.2; exact h.settleAttempt hs
  | publish subject q =>
    obtain ⟨_, ⟨r, t, d, ha⟩, hnew⟩ := hp.2
    exact h.announce subject ha hnew
  | newDagRunId | newTaskId | newTaskRunId => exact h.draw i
  | _ => exact h

/-- A save of a task replaces one that is pending or running, or inserts one. -/
theorem task_written (hp : permit C i op T) {t : Task} (ht : t ∈ T.world.tasks)
    (hk : Key.task t.id ∈ op.writes) :
    (i = .pump ∧ t.status = .pending) ∨
      (i = .status ∧ t.status = .running ∧ Settled (T.world.attemptsOf t.id)) := by
  cases op with
  | taskSave t' =>
    have hid : t.id = t'.id := by simpa [Op.writes] using hk
    cases i with
    | planner n => exact absurd ⟨t, ht, hid⟩ hp.2.fresh
    | pump =>
      obtain ⟨t₀, h₀⟩ := hp.2
      obtain rfl := Table.eq_of_key ht h₀.mem (hid.trans h₀.id.symm)
      exact .inl ⟨rfl, h₀.pending⟩
    | status =>
      rcases hp.2 with hn | ⟨t₀, h₀⟩
      · exact absurd ⟨t, ht, hid⟩ hn.fresh
      · obtain rfl := Table.eq_of_key ht h₀.mem (hid.trans h₀.id.symm)
        exact .inr ⟨rfl, h₀.running, h₀.settled⟩
  | _ => simp [Op.writes] at hk

/-- A save of a run replaces a created one (by the pump) or a started one (by
the status handler), or inserts one. -/
theorem dagRun_written (hp : permit C i op T) {d : DagRun} (hd : d ∈ T.world.dagRuns)
    (hk : Key.dagRun d.id ∈ op.writes) :
    (i = .pump ∧ d.status = .created) ∨ (i = .status ∧ d.status ≠ .created) := by
  cases op with
  | dagRunSave d' =>
    have hid : d.id = d'.id := by simpa [Op.writes] using hk
    cases i with
    | planner n => exact absurd ⟨d, hd, hid⟩ hp.2.fresh
    | pump =>
      obtain ⟨d₀, h₀⟩ := hp.2
      obtain rfl := Table.eq_of_key hd h₀.mem (hid.trans h₀.id.symm)
      exact .inl ⟨rfl, h₀.created⟩
    | status =>
      obtain ⟨⟨d₀, h₀⟩, _⟩ := hp.2
      obtain rfl := Table.eq_of_key hd h₀.mem (hid.trans h₀.id.symm)
      exact .inr ⟨rfl, h₀.started⟩
  | _ => simp [Op.writes] at hk

/-- A save of an attempt replaces a running, announced one, or inserts one. -/
theorem taskRun_written (hp : permit C i op T) {r : TaskRun} (hr : r ∈ T.world.taskRuns)
    (hk : Key.taskRun r.id ∈ op.writes) :
    i = .status ∧ r.status.isTerminal = false ∧
      ∃ q ∈ T.world.published, q.2.taskRunId = r.id.uuid := by
  cases op with
  | taskRunSave r' =>
    have hid : r.id = r'.id := by simpa [Op.writes] using hk
    cases i with
    | planner n => exact hp.2.elim
    | pump =>
      obtain ⟨t, ho⟩ := hp.2
      exact absurd ⟨r, hr, hid⟩ ho.fresh
    | status =>
      obtain ⟨r₀, hs⟩ := hp.2
      obtain rfl := Table.eq_of_key hr hs.mem (hid.trans hs.id.symm)
      exact ⟨rfl, hs.running, hs.announced⟩
  | _ => simp [Op.writes] at hk

/-- A task that is done is never written again. -/
theorem done_kept (hp : permit C i op T) {t : Task} (ht : t ∈ T.world.tasks)
    (hd : t.status.isDone = true) : t ∈ (exec C i op T.world).2.tasks := by
  refine task_kept ht fun hk => ?_
  rcases task_written hp ht hk with ⟨_, hs⟩ | ⟨_, hs, _⟩ <;> rw [hs] at hd <;>
    exact Bool.false_ne_true hd

theorem PlanDone.kept (hp : permit C i op T) {d : DagRunId} (h : PlanDone C T.world d) :
    PlanDone C (exec C i op T.world).2 d := by
  intro kind hkind
  obtain ⟨t, ht, hd, hk, hplan, hdone⟩ := h kind hkind
  exact ⟨t, done_kept hp ht hdone, hd, hk, hplan, hdone⟩

theorem Traced.Complete.kept (hp : permit C i op T) {d : DagRunId} (h : T.Complete C d) :
    (trace C i op T).2.Complete C d :=
  h.imp (PlanDone.kept hp) fun ⟨e, he, hpre⟩ => ⟨e, List.mem_cons_of_mem _ he, hpre⟩

/-- Which runs a call leaves with the status `Success`. -/
theorem success_of_exec (hp : permit C i op T) {d : DagRun}
    (hd : d ∈ (exec C i op T.world).2.dagRuns) (hs : d.status = .success) :
    d ∈ T.world.dagRuns ∨ T.Complete C d.id := by
  cases op with
  | dagRunSave e =>
    rcases Table.mem_save.mp hd with rfl | hd
    · cases i with
      | planner n => rw [hp.2.created] at hs; exact absurd hs (by simp)
      | pump =>
        obtain ⟨d₀, h₀⟩ := hp.2
        rw [h₀.running] at hs
        exact absurd hs (by simp)
      | status => exact .inr (hp.2.2 hs)
    · exact .inl hd.1
  | _ => exact .inl hd

theorem opensSettled_of_permit (hp : permit C i op T) : Event.OpensSettled ⟨i, op, T.world⟩ := by
  rintro r hr hnew
  obtain rfl : op = .taskRunSave r := hr
  cases i with
  | planner n => exact hp.2.elim
  | pump =>
    obtain ⟨t, ho⟩ := hp.2
    exact ho.ofTask ▸ ho.settled
  | status =>
    obtain ⟨r₀, hs⟩ := hp.2
    exact absurd ⟨r₀, hs.mem, hs.id⟩ hnew

theorem traced_step (h : T.Inv C) (hp : permit C i op T) : (trace C i op T).2.Inv C where
  stores := stores_step h.stores hp
  noLostUpdate := ⟨hp.1, h.noLostUpdate⟩
  written e he x hx := by
    rcases List.mem_cons.mp he with rfl | he
    · exact stored_exec (.inr hx)
    · exact stored_exec (.inl (h.written e he x hx))
  opened e he := by
    rcases List.mem_cons.mp he with rfl | he
    · exact opensSettled_of_permit hp
    · exact h.opened e he
  complete d hd hs := by
    rcases success_of_exec hp hd hs with hd | hc
    · exact (h.complete d hd hs).kept hp
    · exact hc.kept hp

end Permit

/-- The discipline of the executor's components. -/
def discipline (C : Config) : Discipline sig Traced Proc where
  handler := trace C
  permit := permit C
  inv := Traced.Inv C
  inv_step := traced_step

/-- What holds while a component is between two of its programs: the pump has
opened no attempt that it has not started, and the status handler has settled
no attempt without its task. -/
def between : Proc → Traced → Prop
  | .planner _, _ => True
  | .pump, T => ∀ t ∈ T.world.tasks, t.status = .pending → Settled (T.world.attemptsOf t.id)
  | .status, T => ∀ t ∈ T.world.tasks, t.status = .running → ¬ Settled (T.world.attemptsOf t.id)

end Contexide.Workflow
