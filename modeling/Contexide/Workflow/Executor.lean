import Contexide.Workflow.Safety.Pump
import Contexide.Workflow.Safety.Status

/-! The executor at the granularity of single repository and publish calls.
Invocations of the planner, the scheduling loop and the status loop interleave
at will; workers answer published requests in any order and any number of times;
a call of the planner may fail. -/

namespace Contexide.Workflow.Executor

open Effects Storage

/-- What a component may start: the planner a run, the scheduling loop a pump,
the status loop the next message that echoes a published request. -/
inductive Starts (C : Config) : Proc → Traced → Prog Unit → Prop
  | createDagRun (n : ℕ) (tenantId : TenantId) (profile : String) (input : Json) (T : Traced) :
      Starts C (.planner n) T (Planner.createDagRun tenantId profile input >>= fun _ => pure ())
  | pumpRequests (maxBatch : Option ℕ) (T : Traced) :
      Starts C .pump T (Messaging.pumpRequests maxBatch >>= fun _ => pure ())
  | handleWorkerStatus (m : WorkerStatus) (T : Traced) (h : Echoed m T.world) :
      Starts C .status T (Scheduler.handleWorkerStatus C m)

def executor (C : Config) : Schedule sig Traced Proc where
  handler := trace C
  starts := Starts C
  mayFail i := ∃ n, i = .planner n

/-- The pools that an executor with empty stores can reach. -/
def Reachable (C : Config) : Pool sig Traced Proc → Prop :=
  (executor C).Reachable (· = Traced.empty)

theorem inv_empty (C : Config) : Traced.Inv C Traced.empty where
  stores := World.inv_empty C
  noLostUpdate := trivial
  written _ he := absurd he List.not_mem_nil
  opened _ he := absurd he List.not_mem_nil
  complete d hd := absurd hd (Table.notMem_empty d)

theorem between_empty (i : Proc) : between i Traced.empty := by
  cases i with
  | planner n => trivial
  | pump => exact fun t ht => absurd ht (Table.notMem_empty t)
  | status => exact fun t ht => absurd ht (Table.notMem_empty t)

theorem between_stable (C : Config) (i : Proc) : (discipline C).Stable i (between i) := by
  cases i with
  | planner n => exact Discipline.Stable.true
  | pump => exact between_pump_stable
  | status => exact between_status_stable

/-- Every program a component starts is safe. -/
theorem starts_safe {C : Config} {i : Proc} {T : Traced} {p : Prog Unit} (h : Starts C i T p)
    (hinv : T.Inv C) (hb : between i T) : (discipline C).Safe i p (fun _ => between i) T := by
  cases h with
  | createDagRun n tenantId profile input =>
    exact Discipline.Triple.bind (Planner.createDagRun_safe n tenantId profile input)
      (fun _ => Discipline.Triple.pure Discipline.Stable.true fun _ _ h => h) T hinv hb
  | pumpRequests maxBatch =>
    exact Discipline.Triple.bind (Messaging.pumpRequests_safe maxBatch)
      (fun _ => Discipline.Triple.pure (a := ()) between_pump_stable fun _ _ h => h) T hinv hb
  | handleWorkerStatus m _ he => exact Scheduler.handleWorkerStatus_safe m T hinv ⟨hb, he⟩

/-- The invariant holds in every reachable pool, between any two calls. -/
theorem Reachable.inv {C : Config} {c : Pool sig Traced Proc} (hc : Reachable C c) :
    c.world.Inv C := by
  refine (Schedule.Reachable.safe (D := discipline C) rfl ?_
    (between_stable C) (fun i T p hs hinv hb => starts_safe hs hinv hb) ?_ hc).1
  · rintro T rfl
    exact ⟨inv_empty C, between_empty⟩
  · rintro i ⟨n, rfl⟩ T
    trivial

/-! ### Executions of one component at a time -/

/-- The planner saves a run, alone. -/
def planned (C : Config) : Traced :=
  ((Planner.createDagRun ⟨0⟩ "default" .null >>= fun _ => pure ()).run (trace C (.planner 0))
    Traced.empty).2

/-- The planner saves a run, and the call with index `n` fails. -/
def plannedUntil (C : Config) (n : ℕ) : Traced :=
  (Program.stopAt (trace C (.planner 0)) Op.fallible n
    (Planner.createDagRun ⟨0⟩ "default" .null >>= fun _ => pure ()) Traced.empty).2

def pumped (C : Config) (T : Traced) : Traced :=
  ((Messaging.pumpRequests none >>= fun _ => pure ()).run (trace C .pump) T).2

/-- One pump, then a success for the request published last. -/
def round (C : Config) (T : Traced) : Traced :=
  match (pumped C T).world.published.getLast? with
  | some q =>
    ((Scheduler.handleWorkerStatus C (q.2.succeeded none)).run (trace C .status) (pumped C T)).2
  | none => pumped C T

theorem reachable_empty (C : Config) : Reachable C (Pool.idle Traced.empty) :=
  Schedule.Reachable.init rfl

theorem reachable_planned (C : Config) : Reachable C (Pool.idle (planned C)) :=
  Schedule.Reachable.play (reachable_empty C) (Starts.createDagRun 0 _ _ _ _)

theorem reachable_plannedUntil (C : Config) (n : ℕ) :
    Reachable C (Pool.idle (plannedUntil C n)) :=
  Schedule.Reachable.playUntil (reachable_empty C) (Starts.createDagRun 0 _ _ _ _) ⟨0, rfl⟩
    Op.fallible n

theorem reachable_round {C : Config} {T : Traced} (h : Reachable C (Pool.idle T)) :
    Reachable C (Pool.idle (round C T)) := by
  have hpump : Reachable C (Pool.idle (pumped C T)) :=
    Schedule.Reachable.play h (Starts.pumpRequests none T)
  unfold round
  split
  · next q hq =>
    exact Schedule.Reachable.play hpump (Starts.handleWorkerStatus _ _
      (echoed_succeeded (List.mem_of_getLast? hq) none))
  · exact hpump

theorem reachable_rounds {C : Config} {T : Traced} (h : Reachable C (Pool.idle T)) (n : ℕ) :
    Reachable C (Pool.idle ((round C)^[n] T)) := by
  induction n generalizing T with
  | zero => exact h
  | succ n ih => exact ih (reachable_round h)

/-! ### Double dispatch -/

/-- Under the executor's own concurrency a task has at most one running attempt,
no attempt is announced twice, an attempt is opened only after the earlier ones
are settled, and no save overwrites what another component wrote since the read. -/
theorem no_double_dispatch (C : Config) (c : Pool sig Traced Proc) (hc : Reachable C c) :
    (∀ t ∈ c.world.world.tasks,
        (c.world.world.attemptsOf t.id).countP (fun r => !r.status.isTerminal) ≤ 1) ∧
      (c.world.world.published.map fun q => q.2.taskRunId).Nodup ∧
      (∀ e ∈ c.world.log, e.OpensSettled) ∧ NoLostUpdate C.backend c.world.log :=
  ⟨fun t ht => (hc.inv.stores.phase t ht).countP_le_one, hc.inv.stores.announcedOnce,
    hc.inv.opened, hc.inv.noLostUpdate⟩

theorem no_double_dispatch_rounds :
    ∃ c, Reachable (.paired 3) c ∧ c.world.world.published.length = 2 ∧
      (∀ t ∈ c.world.world.tasks,
        (c.world.world.attemptsOf t.id).countP (fun r => !r.status.isTerminal) ≤ 1) ∧
      (c.world.world.published.map fun q => q.2.taskRunId).Nodup ∧
      (∀ e ∈ c.world.log, e.OpensSettled) ∧ NoLostUpdate .mem c.world.log := by
  have hc := reachable_rounds (reachable_planned (.paired 3)) 2
  exact ⟨_, hc, by decide, no_double_dispatch _ _ hc⟩

/-! ### Premature success -/

/-- A run is `Success` only when its whole plan is done, as long as no aggregate
was computed from tasks that are all done while a planned task was missing. -/
theorem success_planDone (C : Config) (c : Pool sig Traced Proc) (hc : Reachable C c)
    (hpre : ∀ e ∈ c.world.log, ∀ d, ¬ e.Premature C d) :
    ∀ d ∈ c.world.world.dagRuns, d.status = .success → PlanDone C c.world.world d.id := by
  intro d hd hs
  rcases hc.inv.complete d hd hs with h | ⟨e, he, hp⟩
  · exact h
  · exact absurd hp (hpre e he d.id)

theorem success_planDone_rounds :
    ∃ c, Reachable (.paired 3) c ∧ (∃ d ∈ c.world.world.dagRuns.rows, d.status = .success) ∧
      ∀ d ∈ c.world.world.dagRuns, d.status = .success →
        PlanDone (.paired 3) c.world.world d.id := by
  have hc := reachable_rounds (reachable_planned (.paired 3)) 5
  refine ⟨_, hc, by decide, success_planDone _ _ hc fun e he d hpre => ?_⟩
  -- every listing finds a task that is not done, or the whole plan
  have hcheck : ∀ e ∈ ((round (.paired 3))^[5] (planned (.paired 3))).log,
      ∀ d ∈ e.op.listed, (∃ t ∈ e.before.listByDagRun d, t.status.isDone = false) ∨
        ∀ kind ∈ Planner.profileSequence, ∃ t ∈ e.before.tasks.rows, t.dagRunId = d ∧
          t.kind = kind ∧ ∃ k ∈ List.range 6, t.id.uuid = Nat.pair 2 k := by decide
  obtain ⟨_, hop, hdone, hplan⟩ := hpre
  rcases hcheck e he d hop with ⟨t, ht, hn⟩ | hstored
  · rw [hdone t ht] at hn
    exact absurd hn (by simp)
  · refine hplan fun kind hkind => ?_
    obtain ⟨t, ht, htd, hk, k, _, hid⟩ := hstored kind hkind
    exact ⟨t, ht, htd, hk, 0, k, hid⟩

/-- The planner fails after it saved the extractor task; the extractor succeeds,
and the run is `Success` without its other tasks. -/
theorem success_without_plan :
    ¬ ∀ c, Reachable (.paired 3) c → ∀ d ∈ c.world.world.dagRuns, d.status = .success →
      PlanDone (.paired 3) c.world.world d.id := by
  intro h
  have hc := reachable_round (reachable_plannedUntil (.paired 3) 2)
  have hsuccess : ∃ d ∈ (round (.paired 3) (plannedUntil (.paired 3) 2)).world.dagRuns.rows,
      d.status = .success := by decide
  have hkind : ∀ t ∈ (round (.paired 3) (plannedUntil (.paired 3) 2)).world.tasks.rows,
      t.kind ≠ "indexer" := by decide
  obtain ⟨d, hd, hs⟩ := hsuccess
  obtain ⟨t, ht, _, hk, _⟩ := h _ hc d hd hs "indexer" (by simp [Planner.profileSequence])
  exact hkind t ht hk

end Contexide.Workflow.Executor
