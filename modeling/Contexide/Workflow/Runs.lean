import Contexide.Workflow.Executor
import Contexide.Workflow.Outcome.Planner
import Contexide.Workflow.Outcome.Pump
import Contexide.Workflow.Outcome.Status

/-! Executions whose steps are whole operations: a run is created, the ready
tasks are scheduled, or a worker's status is handled, one after the other and
without failures. A status carries the identifiers of a ready task returned
earlier and is otherwise arbitrary: it may be late, repeated, or contradict an
earlier one. -/

namespace Contexide.Workflow

open Effects Storage Scheduler Messaging

inductive Action where
  | create (n : ℕ) (tenantId : TenantId) (profile : String) (input : Json)
  | schedule (maxBatch : Option ℕ)
  | deliver (m : WorkerStatus)

namespace Action

def run (C : Config) (a : Action) (w : World) : World :=
  match a with
  | .create n tenantId profile input =>
    ((Planner.createDagRun tenantId profile input).run (exec C (.planner n)) w).2
  | .schedule maxBatch =>
    let scheduled := (scheduleReadyTasks maxBatch).run (exec C .pump) w
    scheduled.2.announced (returned scheduled.1)
  | .deliver m => ((handleWorkerStatus C m).run (exec C .status) w).2

/-- A status echoes a ready task returned earlier. -/
def Enabled (w : World) : Action → Prop
  | .deliver m => Echoed m w
  | _ => True

end Action

/-- The finite executions from empty stores: the steps, latest first, with the
world each was taken in, and the world they lead to. -/
inductive Execution (C : Config) : List (World × Action) → World → Prop
  | nil : Execution C [] World.empty
  | cons {steps : List (World × Action)} {w : World} (a : Action) (h : Execution C steps w)
      (he : a.Enabled w) : Execution C ((w, a) :: steps) (a.run C w)

def World.Reachable (C : Config) (w : World) : Prop := ∃ steps, Execution C steps w

/-- What can follow a world in an execution. -/
inductive World.Later (C : Config) (w : World) : World → Prop
  | refl : Later C w w
  | step {w' : World} (a : Action) (h : Later C w w') (he : a.Enabled w') : Later C w (a.run C w')

theorem World.Reachable.empty (C : Config) : World.empty.Reachable C := ⟨[], .nil⟩

theorem World.Reachable.run {C : Config} {w : World} (h : w.Reachable C) (a : Action)
    (he : a.Enabled w) : (a.run C w).Reachable C := by
  obtain ⟨steps, h⟩ := h
  exact ⟨_, h.cons a he⟩

theorem World.Later.reachable {C : Config} {w w' : World} (h : w.Later C w')
    (hw : w.Reachable C) : w'.Reachable C := by
  induction h with
  | refl => exact hw
  | step a _ he ih => exact ih.run a he

/-! ### Steps as programs of the components -/

/-- Scheduling and announcing is what one pump does. It fails when the listing is
refused. -/
theorem run_pumpRequests (C : Config) (maxBatch : Option ℕ) (w : World) :
    (pumpRequests maxBatch).run (exec C .pump) w =
      ((w.listPending C.backend maxBatch).map fun _ => (), (Action.schedule maxBatch).run C w) := by
  rw [pumpRequests, Program.run_bind]
  simp only [Action.run, run_scheduleReadyTasks]
  cases w.listPending C.backend maxBatch with
  | ok pending =>
    simp only [Except.map, returned]
    rw [Program.run_bind, run_publishAll]
    rfl
  | error e =>
    simp only [Except.map, returned]
    rw [World.announced_nil]
    rfl

theorem run_schedule (C : Config) (maxBatch : Option ℕ) (w : World) :
    (Action.schedule maxBatch).run C w = ((pumpRequests maxBatch).run (exec C .pump) w).2 := by
  rw [run_pumpRequests]

/-- The component that takes a step and the program it runs. -/
theorem Action.run_eq (C : Config) (a : Action) (w : World) :
    ∃ (i : Proc) (p : Prog Unit), a.run C w = (p.run (exec C i) w).2 ∧
      ∀ T : Traced, T.world = w → a.Enabled w → Executor.Starts C i T p := by
  cases a with
  | create n tenantId profile input =>
    refine ⟨.planner n, Planner.createDagRun tenantId profile input >>= fun _ => pure (), ?_,
      fun T _ _ => .createDagRun n tenantId profile input T⟩
    rw [Program.run_bind]
    rfl
  | schedule maxBatch =>
    refine ⟨.pump, pumpRequests maxBatch >>= fun _ => pure (), ?_,
      fun T _ _ => .pumpRequests maxBatch T⟩
    rw [run_schedule, Program.run_bind]
    rfl
  | deliver m =>
    exact ⟨.status, handleWorkerStatus C m, rfl, fun T hT he => .handleWorkerStatus m T (hT ▸ he)⟩

/-! ### The invariant between steps -/

/-- The world of an execution between two steps: the invariant of single calls
holds, no task is between its attempt and its own status. -/
def World.Sound (C : Config) (w : World) : Prop :=
  ∃ T : Traced, T.world = w ∧ T.Inv C ∧ ∀ i, between i T

theorem World.Sound.empty (C : Config) : World.empty.Sound C :=
  ⟨Traced.empty, rfl, Executor.inv_empty C, Executor.between_empty⟩

theorem World.Sound.run {C : Config} {w : World} (h : w.Sound C) {a : Action} (he : a.Enabled w) :
    (a.run C w).Sound C := by
  obtain ⟨T, hT, hinv, hb⟩ := h
  obtain ⟨i, p, hrun, hstart⟩ := a.run_eq C w
  have hsafe := Executor.starts_safe (hstart T hT he) hinv (hb i)
  obtain ⟨hinv', hi⟩ := hsafe.run hinv
  refine ⟨(p.run (trace C i) T).2, ?_, hinv', fun j => ?_⟩
  · rw [hrun, ← hT]
    exact (run_trace C i p T).2
  · by_cases hj : i = j
    · exact hj ▸ hi
    · exact (Executor.between_stable C j).of_rely hinv (hb j) (hsafe.run_rely hj)

theorem World.Reachable.sound {C : Config} {w : World} (h : w.Reachable C) : w.Sound C := by
  obtain ⟨steps, h⟩ := h
  induction h with
  | nil => exact .empty C
  | cons a _ he ih => exact ih.run he

theorem World.Sound.inv {C : Config} {w : World} (h : w.Sound C) : w.Inv C := by
  obtain ⟨T, rfl, hinv, _⟩ := h
  exact hinv.stores

/-- Between steps the attempts of a pending task are settled. -/
theorem World.Sound.settled {C : Config} {w : World} (h : w.Sound C) {t : Task} (ht : t ∈ w.tasks)
    (hs : t.status = .pending) : Settled (w.attemptsOf t.id) := by
  obtain ⟨T, rfl, _, hb⟩ := h
  exact hb .pump t ht hs

/-- Between steps a running task has a running attempt. -/
theorem World.Sound.unsettled {C : Config} {w : World} (h : w.Sound C) {t : Task} (ht : t ∈ w.tasks)
    (hs : t.status = .running) : ¬ Settled (w.attemptsOf t.id) := by
  obtain ⟨T, rfl, _, hb⟩ := h
  exact hb .status t ht hs

/-- Between steps a task is at rest. -/
theorem World.Sound.rest {C : Config} {w : World} (h : w.Sound C) {t : Task} (ht : t ∈ w.tasks) :
    Rest C.cap t.status (w.attemptsOf t.id) :=
  (h.inv.phase t ht).rest (h.settled ht) (h.unsettled ht)

/-- What every permitted call keeps, every step keeps. -/
theorem World.Sound.keeps {C : Config} {w : World} (h : w.Sound C) {P : World → Prop}
    (hP : ∀ i op T, Traced.Inv C T → P T.world → permit C i op T → P (exec C i op T.world).2)
    {a : Action} (he : a.Enabled w) (hw : P w) : P (a.run C w) := by
  obtain ⟨T, hT, hinv, hb⟩ := h
  obtain ⟨i, p, hrun, hstart⟩ := a.run_eq C w
  have hsafe := Executor.starts_safe (hstart T hT he) hinv (hb i)
  have hk := hsafe.run_keeps (P := fun T : Traced => P T.world) hinv (hT ▸ hw) (hP i)
  rw [hrun, ← hT]
  exact (run_trace C i p T).2 ▸ hk

theorem World.Later.keeps {C : Config} {w w' : World} (h : w.Later C w') (hr : w.Reachable C)
    {P : World → Prop}
    (hP : ∀ i op T, Traced.Inv C T → P T.world → permit C i op T → P (exec C i op T.world).2)
    (hw : P w) : P w' := by
  induction h with
  | refl => exact hw
  | step a hl he ih => exact (hl.reachable hr).sound.keeps hP he ih

/-! ### Playing a list of steps -/

instance (m : WorkerStatus) (w : World) : Decidable (Echoed m w) :=
  inferInstanceAs (Decidable (∃ q ∈ w.published, _))

instance (w : World) (a : Action) : Decidable (a.Enabled w) :=
  match a with
  | .deliver m => inferInstanceAs (Decidable (Echoed m w))
  | .create .. => .isTrue trivial
  | .schedule _ => .isTrue trivial

/-- The world after the steps, first to last. -/
def Action.runAll (C : Config) (as : List Action) (w : World) : World :=
  as.foldl (fun w a => a.run C w) w

def Action.EnabledAll (C : Config) : List Action → World → Prop
  | [], _ => True
  | a :: as, w => a.Enabled w ∧ EnabledAll C as (a.run C w)

instance Action.decidableEnabledAll (C : Config) :
    (as : List Action) → (w : World) → Decidable (EnabledAll C as w)
  | [], _ => .isTrue trivial
  | a :: as, w =>
    have := decidableEnabledAll C as (a.run C w)
    inferInstanceAs (Decidable (a.Enabled w ∧ EnabledAll C as (a.run C w)))

/-- The steps of playing a list, latest first, after the steps so far. -/
def Action.history (C : Config) :
    List Action → World → List (World × Action) → List (World × Action)
  | [], _, steps => steps
  | a :: as, w, steps => history C as (a.run C w) ((w, a) :: steps)

theorem Execution.runAll {C : Config} {steps : List (World × Action)} {w : World}
    (h : Execution C steps w) (as : List Action) (he : Action.EnabledAll C as w) :
    Execution C (Action.history C as w steps) (Action.runAll C as w) := by
  induction as generalizing w steps with
  | nil => exact h
  | cons a as ih => exact ih (h.cons a he.1) he.2

theorem World.Reachable.runAll {C : Config} (as : List Action)
    (he : Action.EnabledAll C as World.empty) : (Action.runAll C as World.empty).Reachable C :=
  ⟨_, Execution.nil.runAll as he⟩

/-- A run whose first stages succeed one after the other with the outputs. With
paired identifiers the run is 6, its tasks are 7, 8, 11, 18 and 27, and the
attempts are the squares. -/
def Action.stagesDone (outputs : List (Option Json)) : List Action :=
  .create 0 ⟨0⟩ "default" .null ::
    (outputs.zip [(7, 0), (8, 1), (11, 4)]).flatMap fun (output, task, attempt) =>
      [.schedule none, .deliver (.success ⟨0⟩ ⟨6⟩ ⟨task⟩ ⟨attempt⟩ output)]

/-- An output with a well-formed chunk set and two entries that are skipped. -/
def chunkSetsOutput (text : String) : Json :=
  .object [("chunk_set_ids", .array [.string text, .null, .string "none"])]

end Contexide.Workflow
