import Contexide.Workflow.DispatchFrame
import Contexide.Workflow.PgRepositories
import Contexide.Workflow.Runs

/-! The executor over Postgres. Its programs depend on the attempts of a task through
their number only, so the order in which a listing has them does not matter, and every
step of the executor on the rows of the three tables is the step on the world that the
rows keep: whole when all its statements are executed, and otherwise stopped at the call
that failed first. A pump whose limit the listing refuses is executed whole and ends with
the error of the listing. -/

namespace Contexide.Workflow

open Effects Sql Storage Scheduler Messaging Program

/-- The program does not depend on the order in which attempts are listed. -/
def CountsAttempts {α : Type} (p : Prog α) : Prop := p.Matches AnswersAlike p

namespace CountsAttempts

variable {α β : Type}

theorem pure (a : α) : CountsAttempts (Pure.pure a) := .ret a

theorem bind {p : Prog α} {f : α → Prog β} (hp : CountsAttempts p)
    (hf : ∀ a, CountsAttempts (f a)) : CountsAttempts (p >>= f) := Matches.bind hp hf

/-- A listing of attempts that is only counted. -/
theorem listByTask_bind {id : TaskId} {f : List TaskRun → Prog β} (hf : ∀ rs, CountsAttempts (f rs))
    (hcount : ∀ rs rs', rs.length = rs'.length → f rs = f rs') :
    CountsAttempts (TaskRuns.listByTask id >>= f) := by
  apply Matches.perform_bind
  intro rs rs' h
  exact hcount rs rs' (List.Perm.length_eq h) ▸ hf rs

theorem dagRunsGet (id : DagRunId) : CountsAttempts (DagRuns.get id) :=
  Matches.perform fun _ _ h => h

theorem dagRunsSave (e : DagRun) : CountsAttempts (DagRuns.save e) :=
  Matches.perform fun _ _ h => h

theorem tasksGet (id : TaskId) : CountsAttempts (Tasks.get id) := Matches.perform fun _ _ h => h

theorem tasksSave (e : Task) : CountsAttempts (Tasks.save e) := Matches.perform fun _ _ h => h

theorem tasksListByDagRun (id : DagRunId) : CountsAttempts (Tasks.listByDagRun id) :=
  Matches.perform fun _ _ h => h

theorem tasksListPending (limit : Option ℕ) : CountsAttempts (Tasks.listPending limit) :=
  Matches.perform fun _ _ h => h

theorem taskRunsGet (id : TaskRunId) : CountsAttempts (TaskRuns.get id) :=
  Matches.perform fun _ _ h => h

theorem taskRunsSave (e : TaskRun) : CountsAttempts (TaskRuns.save e) :=
  Matches.perform fun _ _ h => h

theorem publish (subject : String) (request : WorkerRequest) :
    CountsAttempts (publish subject request) :=
  Matches.perform fun _ _ h => h

theorem newDagRunId : CountsAttempts newDagRunId := Matches.perform fun _ _ h => h

theorem newTaskId : CountsAttempts newTaskId := Matches.perform fun _ _ h => h

theorem newTaskRunId : CountsAttempts newTaskRunId := Matches.perform fun _ _ h => h

/-! ### The programs of the executor -/

theorem markDagRunning (d : DagRunId) : CountsAttempts (markDagRunning d) := by
  refine (dagRunsGet d).bind fun run => ?_
  cases run with
  | none => exact .pure ()
  | some run =>
    dsimp only
    split
    · exact (dagRunsSave _).bind fun _ => .pure ()
    · exact .pure ()

theorem dispatch (t : Task) : CountsAttempts (dispatch t) := by
  refine listByTask_bind (fun rs => ?_) fun rs rs' hlen => ?_
  · exact newTaskRunId.bind fun id => (taskRunsSave _).bind fun _ => (tasksSave _).bind fun _ =>
      (markDagRunning _).bind fun _ => .pure _
  · simp only [openedRun, hlen]

theorem scheduleLoop (pending : List Task) (tasksByRun : DagRunId → List Task)
    (ready : List ReadyTask) : CountsAttempts (scheduleLoop pending tasksByRun ready) := by
  induction pending generalizing tasksByRun ready with
  | nil => exact .pure ready
  | cons t pending ih =>
    have hafter : ∀ siblings,
        CountsAttempts (afterListing t pending tasksByRun ready siblings) := by
      intro siblings
      unfold afterListing
      split
      · exact (dispatch t).bind fun _ => ih _ _
      · exact ih _ _
    by_cases hcached : tasksByRun t.dagRunId = []
    · rw [scheduleLoop_of_new hcached]
      exact (tasksListByDagRun _).bind hafter
    · rw [scheduleLoop_of_cached hcached]
      exact hafter _

theorem publishAll (ready : List ReadyTask) : CountsAttempts (publishAll ready) := by
  induction ready with
  | nil => exact .pure ()
  | cons t ready ih => exact (publish _ _).bind fun _ => ih

theorem scheduleReadyTasks (limit : Option ℕ) : CountsAttempts (scheduleReadyTasks limit) := by
  refine (tasksListPending limit).bind fun listed => ?_
  cases listed with
  | ok pending => exact (scheduleLoop _ _ _).bind fun _ => .pure _
  | error e => exact .pure _

theorem pumpRequests (limit : Option ℕ) : CountsAttempts (pumpRequests limit) := by
  refine (scheduleReadyTasks limit).bind fun scheduled => ?_
  cases scheduled with
  | ok ready => exact (publishAll ready).bind fun _ => .pure _
  | error e => exact .pure _

theorem saveTasks (tasks : List Task) : CountsAttempts (Planner.saveTasks tasks) := by
  induction tasks with
  | nil => exact .pure ()
  | cons t tasks ih => exact (tasksSave t).bind fun _ => ih

theorem buildTasks (d : DagRunId) (tenantId : TenantId) (input : Json) (idx : ℕ)
    (kinds : List String) : CountsAttempts (Planner.buildTasks d tenantId input idx kinds) := by
  induction kinds generalizing idx with
  | nil => exact .pure []
  | cons kind kinds ih => exact newTaskId.bind fun _ => (ih _).bind fun _ => .pure _

theorem createDagRun (tenantId : TenantId) (profile : String) (input : Json) :
    CountsAttempts (Planner.createDagRun tenantId profile input) :=
  newDagRunId.bind fun _ => (dagRunsSave _).bind fun _ => (buildTasks _ _ _ _ _).bind fun _ =>
    (saveTasks _).bind fun _ => .pure _

theorem updateDagStatus (d : DagRunId) : CountsAttempts (updateDagStatus d) := by
  refine (dagRunsGet d).bind fun run => ?_
  cases run with
  | none => exact .pure ()
  | some run =>
    refine (tasksListByDagRun d).bind fun tasks => ?_
    dsimp only
    split
    · exact (dagRunsSave _).bind fun _ => .pure ()
    · exact .pure ()

theorem extractEmbedTasks (C : Config) (output : Json) (d : DagRunId) (tenantId : TenantId) :
    CountsAttempts (extractEmbedTasks C output d tenantId) := by
  have hbuild : ∀ sets, CountsAttempts (buildEmbedTasks C d tenantId sets) := by
    intro sets
    induction sets with
    | nil => exact .pure []
    | cons set sets ih => exact newTaskId.bind fun _ => ih.bind fun _ => .pure _
  unfold Scheduler.extractEmbedTasks
  split
  · exact (hbuild _).bind fun _ => .pure _
  · exact .pure none

theorem completeTask (C : Config) (d : DagRunId) (taskId : TaskId) (output : Option Json) :
    CountsAttempts (completeTask C d taskId output) := by
  refine (tasksGet taskId).bind fun task => ?_
  cases task with
  | none => exact .pure ()
  | some task =>
    refine (tasksSave _).bind fun _ => ?_
    cases output with
    | none => exact updateDagStatus d
    | some out =>
      refine (extractEmbedTasks C out d task.tenantId).bind fun new => ?_
      cases new with
      | none => exact updateDagStatus d
      | some new => exact (saveTasks new).bind fun _ => updateDagStatus d

theorem failTask (C : Config) (d : DagRunId) (taskId : TaskId) (error : String)
    (errorKind : Option String) : CountsAttempts (failTask C d taskId error errorKind) := by
  refine (tasksGet taskId).bind fun task => ?_
  cases task with
  | none => exact updateDagStatus d
  | some task =>
    refine listByTask_bind (fun rs => ?_) fun rs rs' hlen => ?_
    · exact (tasksSave _).bind fun _ => updateDagStatus d
    · simp only [hlen]

theorem handleWorkerStatus (C : Config) (m : WorkerStatus) :
    CountsAttempts (handleWorkerStatus C m) := by
  cases m with
  | success tenantId d taskId taskRunId output =>
    refine (taskRunsGet taskRunId).bind fun run => ?_
    cases run with
    | none => exact .pure ()
    | some run =>
      dsimp only
      split
      · exact .pure ()
      · exact (taskRunsSave _).bind fun _ => completeTask C d taskId output
  | failed tenantId d taskId taskRunId error errorKind =>
    refine (taskRunsGet taskRunId).bind fun run => ?_
    cases run with
    | none => exact .pure ()
    | some run =>
      dsimp only
      split
      · exact .pure ()
      · exact (taskRunsSave _).bind fun _ => failTask C d taskId error errorKind

end CountsAttempts

/-! ### Steps -/

namespace Action

def proc : Action → Proc
  | .create n _ _ _ => .planner n
  | .schedule _ => .pump
  | .deliver _ => .status

def program (C : Config) : Action → Prog (Except QueryError Unit)
  | .create _ tenantId profile input =>
    Planner.createDagRun tenantId profile input >>= fun _ => pure (.ok ())
  | .schedule maxBatch => pumpRequests maxBatch
  | .deliver m => handleWorkerStatus C m >>= fun _ => pure (.ok ())

/-- What a step that is executed whole answers: the error of a limit that is refused, or
nothing. -/
def answer (C : Config) : Action → Except QueryError Unit
  | .schedule (some lim) => (C.backend.bindLimit lim).map fun _ => ()
  | _ => .ok ()

variable (C : Config) (a : Action) (w : World)

theorem run_program :
    (a.program C).run (exec C a.proc) w = (a.answer C, a.run C w) := by
  cases a with
  | create n tenantId profile input =>
    rw [program, Program.run_bind]
    rfl
  | schedule maxBatch =>
    refine (run_pumpRequests C maxBatch w).trans (Prod.ext ?_ rfl)
    cases maxBatch with
    | none => rfl
    | some lim =>
      show ((C.backend.bindLimit lim).map _).map _ = (C.backend.bindLimit lim).map _
      cases C.backend.bindLimit lim <;> rfl
  | deliver m =>
    rw [program, Program.run_bind]
    rfl

theorem countsAttempts : CountsAttempts (a.program C) := by
  cases a with
  | create n tenantId profile input =>
    exact (CountsAttempts.createDagRun tenantId profile input).bind fun _ => .pure _
  | schedule maxBatch => exact .pumpRequests maxBatch
  | deliver m => exact (CountsAttempts.handleWorkerStatus C m).bind fun _ => .pure _

/-- The step stops at its fallible call with index `n`. -/
def StopsAt (n : ℕ) : Prop :=
  ((a.program C).stopAt (exec C a.proc) Op.fallible n w).1 = none

/-- The world that the stopped step leaves. -/
def stopped (n : ℕ) : World := ((a.program C).stopAt (exec C a.proc) Op.fallible n w).2

variable (refuses : Refusals)

/-- The calls of the step before its fallible call with index `n` are not refused. -/
def AcceptedTo (n : ℕ) : Prop :=
  (a.program C).AcceptedTo (exec C a.proc) Op.fallible refuses.Accepts n w

/-- A step over Postgres: whether it failed, and the rows after it. -/
def overPostgres (faults : Faults SqlError) (v : PgWorld) : Except QueryError Unit × PgWorld :=
  match (a.program C).attempt (pgAttempt C refuses a.proc) Op.fallible faults v with
  | (.ok answer, v') => (answer, v')
  | (.error e, v') => (.error (.sql e), v')

variable {C} (hC : C.backend = .pg)

include hC

theorem overPostgres_rows (faults : Faults SqlError) :
    ((∀ n, a.AcceptedTo C w refuses n) ∧
      a.overPostgres C refuses faults w.rows = (a.answer C, (a.run C w).rows)) ∨
    ∃ n e, a.StopsAt C w n ∧ a.AcceptedTo C w refuses n ∧
      a.overPostgres C refuses faults w.rows = (.error (.sql e), (a.stopped C w n).rows) := by
  rcases (pgAttempt_simulates C hC refuses a.proc).attempt (a.countsAttempts C) faults rfl with
    ⟨hall, v', hrun, rfl⟩ | ⟨n, e, v', hrun, hstop, hbefore, rfl⟩
  · exact .inl ⟨hall, by rw [overPostgres, hrun, run_program]⟩
  · exact .inr ⟨n, e, hstop, hbefore, by rw [overPostgres, hrun]; rfl⟩

theorem overPostgres_none (hall : ∀ n, a.AcceptedTo C w refuses n) :
    a.overPostgres C refuses (fun _ => none) w.rows = (a.answer C, (a.run C w).rows) := by
  obtain ⟨v', hrun, rfl⟩ := (pgAttempt_simulates C hC refuses a.proc).attempt_none
    (a.countsAttempts C) hall rfl
  rw [overPostgres, hrun, run_program]

theorem overPostgres_at {n : ℕ} (e : SqlError) (hbefore : a.AcceptedTo C w refuses n)
    (hstop : a.StopsAt C w n) :
    a.overPostgres C refuses (.at n e) w.rows = (.error (.sql e), (a.stopped C w n).rows) := by
  obtain ⟨v', hrun, rfl⟩ := (pgAttempt_simulates C hC refuses a.proc).attempt_at
    (a.countsAttempts C) e hbefore hstop rfl
  rw [overPostgres, hrun]
  rfl

end Action

/-! ### Executions -/

/-- The error of a step. -/
def failure {α : Type} : Except QueryError α → Option QueryError
  | .ok _ => none
  | .error e => some e

/-- Steps of the executor, each with the error that ended it, if one did: a step is
executed whole, or one of its calls failed and it was stopped there. No call that is made
is refused. -/
inductive Attempted (C : Config) (refuses : Refusals) :
    World → List (Action × Option QueryError) → World → Prop
  | nil (w : World) : Attempted C refuses w [] w
  | done {w w' : World} {a : Action} {rest : List (Action × Option QueryError)}
    (hall : ∀ n, a.AcceptedTo C w refuses n) (h : Attempted C refuses (a.run C w) rest w') :
    Attempted C refuses w ((a, failure (a.answer C)) :: rest) w'
  | failed {w w' : World} {a : Action} {e : SqlError} {rest : List (Action × Option QueryError)}
    (n : ℕ) (hn : a.StopsAt C w n) (hbefore : a.AcceptedTo C w refuses n)
    (h : Attempted C refuses (a.stopped C w n) rest w') :
    Attempted C refuses w ((a, some (.sql e)) :: rest) w'

/-- Steps over Postgres, each with the faults it meets: how each ended, and the rows
after the last. -/
def PgWorld.play (C : Config) (refuses : Refusals) :
    List (Action × Faults SqlError) → PgWorld → List (Action × Option QueryError) × PgWorld
  | [], v => ([], v)
  | (a, faults) :: steps, v =>
    let step := a.overPostgres C refuses faults v
    let rest := play C refuses steps step.2
    ((a, failure step.1) :: rest.1, rest.2)

variable {C : Config} (hC : C.backend = .pg) {refuses : Refusals}

include hC

theorem attempted_play (steps : List (Action × Faults SqlError)) (w : World) :
    ∃ w', Attempted C refuses w (PgWorld.play C refuses steps w.rows).1 w' ∧
      (PgWorld.play C refuses steps w.rows).2 = w'.rows := by
  induction steps generalizing w with
  | nil => exact ⟨w, .nil w, rfl⟩
  | cons step steps ih =>
    obtain ⟨a, faults⟩ := step
    rw [PgWorld.play]
    rcases a.overPostgres_rows w refuses hC faults with
      ⟨hall, hstep⟩ | ⟨n, e, hn, hbefore, hstep⟩
    · obtain ⟨w', h, hrows⟩ := ih (a.run C w)
      exact ⟨w', by rw [hstep]; exact .done hall h, by rw [hstep]; exact hrows⟩
    · obtain ⟨w', h, hrows⟩ := ih (a.stopped C w n)
      exact ⟨w', by rw [hstep]; exact .failed n hn hbefore h, by rw [hstep]; exact hrows⟩

theorem Attempted.exists_play {w w' : World} {outcomes : List (Action × Option QueryError)}
    (h : Attempted C refuses w outcomes w') :
    ∃ steps, PgWorld.play C refuses steps w.rows = (outcomes, w'.rows) := by
  induction h with
  | nil w => exact ⟨[], rfl⟩
  | @done w w' a rest hall _ ih =>
    obtain ⟨steps, hplay⟩ := ih
    refine ⟨(a, fun _ => none) :: steps, ?_⟩
    rw [PgWorld.play, a.overPostgres_none w refuses hC hall, hplay]
  | @failed w w' a e rest n hn hbefore _ ih =>
    obtain ⟨steps, hplay⟩ := ih
    refine ⟨(a, .at n e) :: steps, ?_⟩
    rw [PgWorld.play, a.overPostgres_at w refuses hC e hbefore hn, hplay]
    rfl

omit hC in
/-- Without failures the steps are those of an execution. -/
theorem Attempted.reachable {w w' : World} {outcomes : List (Action × Option QueryError)}
    (h : Attempted C refuses w outcomes w') (hw : w.Reachable C) (hok : ∀ s ∈ outcomes, s.2 = none)
    (he : Action.EnabledAll C (outcomes.map Prod.fst) w) : w'.Reachable C := by
  induction h with
  | nil w => exact hw
  | done _ _ ih =>
    exact ih (hw.run _ he.1) (fun s hs => hok s (List.mem_cons_of_mem _ hs)) he.2
  | failed => cases hok _ List.mem_cons_self

/-- A pump that ends without an error has a limit that is no negative `i64`. -/
theorem Attempted.limit_lt {w w' : World} {outcomes : List (Action × Option QueryError)}
    (h : Attempted C refuses w outcomes w') {lim : ℕ} (hlim : lim < 2 ^ 64)
    (hm : (Action.schedule (some lim), none) ∈ outcomes) : lim < 2 ^ 63 := by
  induction h with
  | nil w => cases hm
  | @done w w' a rest _ _ ih =>
    rcases List.mem_cons.mp hm with heq | hm
    · obtain ⟨rfl, hnone⟩ := Prod.mk.inj heq
      by_contra hge
      have hbind : C.backend.bindLimit lim = .error .negativeLimit := by
        rw [hC, Backend.bindLimit_usize _ hlim, if_neg (by simpa using hge)]
      rw [Action.answer, hbind] at hnone
      cases hnone
    · exact ih hm
  | failed n _ _ _ ih =>
    rcases List.mem_cons.mp hm with heq | hm
    · cases (Prod.mk.inj heq).2
    · exact ih hm

/-- The executor over Postgres refines the executor on worlds: the ways in which steps
from empty tables can end, with any statements and publications failing, and the rows
they can leave are exactly those of the steps on worlds, each whole or stopped at a
call, whatever the tables refuse. Of the limits that a `usize` can be, a pump ends without
an error only with those below `2 ^ 63`. Without failures, and with statuses that echo
requests, the rows are those of a reachable world. -/
theorem executor_over_postgres (refuses : Refusals) (outcomes : List (Action × Option QueryError))
    (v : PgWorld) :
    ((∃ steps, PgWorld.play C refuses steps World.empty.rows = (outcomes, v)) ↔
      ∃ w, Attempted C refuses World.empty outcomes w ∧ v = w.rows) ∧
    ((∃ steps, PgWorld.play C refuses steps World.empty.rows = (outcomes, v)) →
      ∀ lim < 2 ^ 64, (Action.schedule (some lim), none) ∈ outcomes → lim < 2 ^ 63) ∧
    ((∃ steps, PgWorld.play C refuses steps World.empty.rows = (outcomes, v)) →
      (∀ s ∈ outcomes, s.2 = none) →
      Action.EnabledAll C (outcomes.map Prod.fst) World.empty →
      ∃ w : World, w.Reachable C ∧ v = w.rows) := by
  have hiff : (∃ steps, PgWorld.play C refuses steps World.empty.rows = (outcomes, v)) ↔
      ∃ w, Attempted C refuses World.empty outcomes w ∧ v = w.rows := by
    constructor
    · rintro ⟨steps, hplay⟩
      obtain ⟨w, h, hrows⟩ := attempted_play hC steps World.empty
      rw [hplay] at h hrows
      exact ⟨w, h, hrows⟩
    · rintro ⟨w, h, rfl⟩
      exact h.exists_play hC
  refine ⟨hiff, fun hplay lim hlim hm => ?_, fun hplay hok he => ?_⟩
  · obtain ⟨w, h, -⟩ := hiff.mp hplay
    exact h.limit_lt hC hlim hm
  · obtain ⟨w, h, rfl⟩ := hiff.mp hplay
    exact ⟨w, h.reachable (.empty C) hok he, rfl⟩

/-- A text with the character U+0000 is refused. -/
def nulRefused : Refusals
  | .dagRunSave e, _ => if '\x00' ∈ e.workflowKey.toList then some .invalidText else none
  | _, _ => none

omit hC in
/-- The first run is refused, and of the second one no task is stored. The pump after them
has a limit that is negative as an `i64`. -/
theorem executor_over_postgres_stopped :
    ∃ steps w, PgWorld.play .postgres nulRefused steps World.empty.rows =
      ([(.create 0 ⟨0⟩ "\x00" .null, some (.sql .invalidText)),
          (.create 0 ⟨0⟩ "default" .null, some (.sql .invalidText)),
          (.schedule (some (2 ^ 63)), some .negativeLimit)], World.rows w) ∧
      w.dagRuns.rows.map DagRun.workflowKey = ["default"] ∧ w.tasks.rows.length = 0 := by
  have hlisted : ∀ w n, (Action.schedule (some (2 ^ 63))).AcceptedTo .postgres w nulRefused n := by
    rintro w (_ | _ | n)
    · trivial
    · exact ⟨rfl, trivial⟩
    · exact ⟨rfl, trivial⟩
  have hrun : Attempted .postgres nulRefused World.empty
      [(.create 0 ⟨0⟩ "\x00" .null, some (.sql .invalidText)),
        (.create 0 ⟨0⟩ "default" .null, some (.sql .invalidText)),
        (.schedule (some (2 ^ 63)), some .negativeLimit)] _ :=
    .failed 0 rfl trivial (.failed 1 rfl ⟨rfl, trivial⟩
      (.done (hlisted _) (.nil _)))
  obtain ⟨steps, hplay⟩ := (executor_over_postgres rfl nulRefused _ _).1.mpr ⟨_, hrun, rfl⟩
  exact ⟨steps, _, hplay, by decide, by decide⟩

end Contexide.Workflow
