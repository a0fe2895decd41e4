import Contexide.Workflow.LostDispatch
import Contexide.Workflow.Progress
import Contexide.Workflow.Rank

/-! Liveness of the executor: the scheduling loop keeps pumping, every outstanding
request is answered at some time, and then every run comes to rest. Its rank stops
falling, and from then on a running attempt would still be answered, a ready task
still be dispatched, so no task runs and none waits except behind a failed one.
Between the steps of a run any number of other runs are created and served. -/

namespace Contexide.Workflow

open Effects Storage Scheduler World

variable {C : Config} {w w' : World} {d : DagRunId}

/-! ### What the requests tell -/

theorem published_created {n : ℕ} {tenant : TenantId} {profile : String} {input : Json} :
    (w.created C n tenant profile input).published = w.published := by
  rw [created_eq, putTasks_published]
  rfl

theorem published_delivered {m : WorkerStatus} {a : TaskRun} {u : Task} {x : DagRun}
    (hw : w.Sound C) (hd : Delivery m w a u x) :
    ((Action.deliver m).run C w).published = w.published := by
  rw [hd.run_eq hw.inv]
  simp

/-- Requests stay published, in their order. -/
theorem prefix_published (hw : w.Sound C) {a : Action} (he : a.Enabled w) :
    w.published <+: (a.run C w).published := by
  cases a with
  | create n tenant profile input =>
    exact (published_created (C := C) (w := w)).symm ▸ List.prefix_refl _
  | schedule limit =>
    rw [run_schedule_eq, World.announced, dispatchedAll_published]
    exact List.prefix_append _ _
  | deliver m =>
    rcases hw.inv.delivery_or he with hsame | ⟨a, u, x, hd⟩
    · rw [hsame]
    · rw [published_delivered hw hd]

/-- Every stored attempt was announced to the workers. -/
def AttemptsPublished (w : World) : Prop :=
  ∀ r ∈ w.taskRuns, ∃ q ∈ w.published, q.2.taskRunId = r.id.uuid

/-- An attempt after a pump was stored before, or a ready task names it. -/
theorem mem_taskRuns_dispatchedAll {batch : List Task} {r : TaskRun}
    (hr : r ∈ (w.dispatchedAll C batch).taskRuns) :
    r ∈ w.taskRuns ∨ ∃ q ∈ readyTasks C (w.drawn .pump) batch, q.taskRunId = r.id := by
  induction batch generalizing w with
  | nil => exact .inl hr
  | cons t batch ih =>
    rcases ih (w := w.dispatched C t) hr with hr | ⟨q, hq, hid⟩
    · have hsave : (w.dispatched C t).taskRuns = w.taskRuns.save (w.nextTaskRun C t) := by
        simp [dispatched, nextTaskRun]
      rw [hsave] at hr
      rcases Table.mem_save.mp hr with rfl | ⟨hr, _⟩
      · exact .inr ⟨_, List.mem_cons_self, rfl⟩
      · exact .inl hr
    · rw [dispatched_drawn_pump] at hq
      exact .inr ⟨q, List.mem_cons_of_mem _ hq, hid⟩

theorem AttemptsPublished.run (h : AttemptsPublished w) (hw : w.Sound C) {a : Action}
    (he : a.Enabled w) : AttemptsPublished (a.run C w) := by
  have hkept : ∀ r ∈ w.taskRuns, ∃ q ∈ (a.run C w).published, q.2.taskRunId = r.id.uuid :=
    fun r hr => (h r hr).imp fun q hq => ⟨(prefix_published hw he).subset hq.1, hq.2⟩
  intro r hr
  cases a with
  | create n tenant profile input =>
    refine hkept r ?_
    exact (created_taskRuns (C := C) (w := w)) ▸ hr
  | schedule limit =>
    have hrun := run_schedule_eq (C := C) (w := w) limit
    rw [hrun] at hr
    rcases mem_taskRuns_dispatchedAll hr with hr | ⟨q, hq, hid⟩
    · exact hkept r hr
    · obtain ⟨p, hp, hpq⟩ := published_schedule hq
      exact ⟨p, hp, by rw [hpq, ← hid]; rfl⟩
  | deliver m =>
    rcases hw.inv.delivery_or he with hsame | ⟨a, u, x, hd⟩
    · exact hkept r (hsame ▸ hr)
    · rw [hd.taskRuns hw.inv] at hr
      rcases Table.mem_save.mp hr with rfl | ⟨hr, _⟩
      · exact WorkerStatus.settledRun_id m a ▸ hkept a hd.run
      · exact hkept r hr

theorem World.Reachable.attemptsPublished (h : w.Reachable C) : AttemptsPublished w := by
  obtain ⟨steps, hx⟩ := h
  induction hx with
  | nil => exact fun r hr => absurd hr (Table.notMem_empty r)
  | cons a hx he ih => exact ih.run (Reachable.sound ⟨_, hx⟩) he

/-- A stored task stays stored, with another status or result at most. -/
theorem sameTask_preserved (C : Config) (t : Task) :
    Preserved C (fun _ _ => True) fun w => ∃ t' ∈ w.tasks, SameTask t t' where
  created w n tenant profile input hw h := by
    obtain ⟨t', ht', hsame⟩ := h
    refine ⟨t', ?_, hsame⟩
    rw [Table.mem_def, rows_created_tasks hw.inv]
    exact List.mem_append_left _ ht'
  dispatched w v hw hv _ h := by
    obtain ⟨t', ht', hsame⟩ := h
    obtain ⟨u, hu, hsame', _⟩ := hv
    by_cases he : t'.id = v.id
    · obtain rfl : t' = u := Table.eq_of_key ht' hu (he.trans hsame'.id.symm)
      refine ⟨{ v with status := .running }, ?_, (hsame.trans hsame').of_status .running⟩
      rw [dispatched_tasks]
      exact Table.mem_save_self _ _
    · exact ⟨t', (mem_dispatched_of_ne he).mpr ht', hsame⟩
  announced _ _ h := h
  delivered w m a u x hw hd _ h := by
    obtain ⟨t', ht', hsame⟩ := h
    by_cases he : t'.id = u.id
    · obtain rfl : t' = u := Table.eq_of_key ht' hd.task he
      exact ⟨_, (hd.mem_tasks hw.inv).mpr (.inl rfl),
        hsame.trans (Delivery.settledTask_same C m w t')⟩
    · exact ⟨t', (hd.mem_tasks hw.inv).mpr (.inr (.inl ⟨ht', he⟩)), hsame⟩

/-- Every request names a stored task and tells its kind. -/
def RequestsOfTasks (w : World) : Prop :=
  ∀ q ∈ w.published, ∃ t ∈ w.tasks, t.id.uuid = q.2.taskId ∧ t.kind = q.2.kind

theorem RequestsOfTasks.run (h : RequestsOfTasks w) (hw : w.Sound C) {a : Action}
    (he : a.Enabled w) : RequestsOfTasks (a.run C w) := by
  have hkept : ∀ q ∈ w.published, ∃ t ∈ (a.run C w).tasks,
      t.id.uuid = q.2.taskId ∧ t.kind = q.2.kind := by
    intro q hq
    obtain ⟨t, ht, hid, hkind⟩ := h q hq
    obtain ⟨t', ht', hsame⟩ := (sameTask_preserved C t).run hw he (a.allowed_true w)
      ⟨t, ht, .refl t⟩
    exact ⟨t', ht', hsame.id ▸ hid, hsame.kind ▸ hkind⟩
  intro q hq
  cases a with
  | create n tenant profile input =>
    refine hkept q ?_
    exact (published_created (C := C) (w := w)) ▸ hq
  | schedule limit =>
    rw [run_schedule_eq, World.announced, dispatchedAll_published] at hq
    rcases List.mem_append.mp hq with hq | hq
    · exact hkept q hq
    · obtain ⟨r, hr, rfl⟩ := List.mem_map.mp hq
      obtain ⟨t, ht, k, _, _, rfl⟩ := mem_readyTasks hr
      obtain ⟨_, _, _, _, _, _, hmem⟩ := (hw.scheduling limit).opened ht
      rw [run_schedule_eq]
      exact ⟨_, hmem, rfl, rfl⟩
  | deliver m =>
    refine hkept q ?_
    rcases hw.inv.delivery_or he with hsame | ⟨a, u, x, hd⟩
    · exact hsame ▸ hq
    · exact published_delivered hw hd ▸ hq

theorem World.Reachable.requestsOfTasks (h : w.Reachable C) : RequestsOfTasks w := by
  obtain ⟨steps, hx⟩ := h
  induction hx with
  | nil => exact fun q hq => absurd hq List.not_mem_nil
  | cons a hx he ih => exact ih.run (Reachable.sound ⟨_, hx⟩) he

/-! ### Fair runs -/

namespace SameRun

theorem between {w'' : World} (h : SameRun d w w') (h' : SameRun d w w'') : SameRun d w' w'' :=
  ⟨h'.tasks.trans h.tasks.symm, fun t ht =>
    (h'.attempts t (h.tasks ▸ ht)).trans (h.attempts t (h.tasks ▸ ht)).symm⟩

theorem mem_tasks (h : SameRun d w w') {t : Task} (hd : t.dagRunId = d) :
    t ∈ w'.tasks ↔ t ∈ w.tasks := by
  have hiff : t ∈ w'.listByDagRun d ↔ t ∈ w.listByDagRun d := by rw [h.tasks]
  simpa only [Store.mem_listByDagRun, hd, and_true] using hiff

end SameRun

/-- The status carries the identifiers of the request. -/
structure WorkerStatus.Answers (m : WorkerStatus) (q : WorkerRequest) : Prop where
  dagRunId : q.dagRunId = m.dagRunId.uuid
  taskId : q.taskId = m.taskId.uuid
  taskRunId : q.taskRunId = m.taskRunId.uuid

/-- An infinite execution in which the loop pumps without end and without a limit,
and in which the request of a running attempt is answered sooner or later. -/
structure FairRun (C : Config) (run : ℕ → World) (act : ℕ → Action) : Prop where
  start : (run 0).Reachable C
  step : ∀ n, run (n + 1) = (act n).run C (run n)
  enabled : ∀ n, (act n).Enabled (run n)
  pumped : ∀ n, ∃ k ≥ n, act k = .schedule none
  answered : ∀ n, ∀ q ∈ (run n).published,
    (∃ r ∈ (run n).taskRuns, r.id.uuid = q.2.taskRunId ∧ r.status.isTerminal = false) →
    ∃ k ≥ n, ∃ m : WorkerStatus, act k = .deliver m ∧ m.Answers q.2

namespace FairRun

variable {run : ℕ → World} {act : ℕ → Action}

theorem reachable (h : FairRun C run act) (n : ℕ) : (run n).Reachable C := by
  induction n with
  | zero => exact h.start
  | succ n ih => exact h.step n ▸ ih.run (act n) (h.enabled n)

theorem sound (h : FairRun C run act) (n : ℕ) : (run n).Sound C := (h.reachable n).sound

end FairRun

/-- A run that is stored stays stored. -/
theorem stored_preserved (C : Config) (d : DagRunId) :
    Preserved C (fun _ _ => True) fun w => w.dagRuns.Has d where
  created w n tenant profile input hw h := by
    obtain ⟨x, hx, hid⟩ := h
    refine ⟨x, ?_, hid⟩
    rw [Table.mem_def, rows_created_dagRuns hw.inv]
    exact List.mem_append_left _ hx
  dispatched w t hw ht _ h := by
    obtain ⟨x, hx, hid⟩ := hw.inv.run_of_listed ht
    rw [dispatched_dagRuns hx hid]
    exact Table.has_save.mpr (.inr h)
  announced _ _ h := h
  delivered w m a u x hw hd _ h := by
    rw [hd.dagRuns hw.inv]
    exact Table.has_save.mpr (.inr h)

namespace FairRun

variable {run : ℕ → World} {act : ℕ → Action}

theorem stored (h : FairRun C run act) {n₀ : ℕ} (hd : (run n₀).dagRuns.Has d) :
    ∀ n ≥ n₀, (run n).dagRuns.Has d := by
  intro n hn
  induction n, hn using Nat.le_induction with
  | base => exact hd
  | succ n _ ih =>
    rw [h.step n]
    exact (stored_preserved C d).run (h.sound n) (h.enabled n) ((act n).allowed_true _) ih

/-- From some time on nothing of the run changes any more. -/
theorem exists_sameRun (h : FairRun C run act)
    (hc : ∀ n, (act n).Allowed (ChunkSetsOfChunker C) (run n)) {n₀ : ℕ}
    (hd : (run n₀).dagRuns.Has d) :
    ∃ N ≥ n₀, ∀ n ≥ N, SameRun d (run N) (run n) := by
  obtain ⟨N, hN⟩ := settles (World.rank C d) (SameRun.refl d) SameRun.trans rank_sameRun
    (fun n => run (n₀ + n)) fun n => by
      rw [← Nat.add_assoc, h.step]
      exact sameRun_or_rank_lt (h.sound _) (h.stored hd _ (by omega)) (h.enabled _) (hc _)
  refine ⟨n₀ + N, by omega, fun n hn => ?_⟩
  obtain ⟨k, rfl⟩ := Nat.exists_eq_add_of_le (show n₀ ≤ n by omega)
  exact hN k (by omega)

/-! ### A run at rest -/

variable {N n : ℕ} {t : Task}

/-- A running attempt is answered, so a run at rest has none. -/
theorem status_ne_running (h : FairRun C run act) (hrest : ∀ n ≥ N, SameRun d (run N) (run n))
    (hn : n ≥ N) (ht : t ∈ (run n).tasks) (hd : t.dagRunId = d) : t.status ≠ .running := by
  intro hs
  obtain ⟨r, hr, hactive⟩ : ∃ r ∈ (run n).attemptsOf t.id, r.status.isTerminal = false := by
    simpa [Settled] using (h.sound n).unsettled ht hs
  obtain ⟨hrn, hrt⟩ := Store.mem_attemptsOf.mp hr
  obtain ⟨q, hq, hqr⟩ := (h.reachable n).attemptsPublished r hrn
  obtain ⟨k, hk, m, hact, hans⟩ := h.answered n q hq ⟨r, hrn, hqr.symm, hactive⟩
  have hsame : SameRun d (run n) (run k) := (hrest n hn).between (hrest k (by omega))
  have hstep : SameRun d (run k) (run (k + 1)) :=
    (hrest k (by omega)).between (hrest (k + 1) (by omega))
  have htk : t ∈ (run k).tasks := (hsame.mem_tasks hd).mpr ht
  rw [← hsame.attempts t (Store.mem_listByDagRun.mpr ⟨ht, hd⟩)] at hr
  -- the answer settles the attempt
  have hecho : Echoed m (run k) := by
    have := h.enabled k
    rwa [hact] at this
  obtain ⟨u, x, hdel⟩ := (h.sound k).inv.delivery hecho (Store.mem_attemptsOf.mp hr).1
    (TaskRunId.ext (hqr.symm.trans hans.taskRunId)) hactive
  obtain rfl : u = t := Table.eq_of_key hdel.task htk (hdel.ofTask.symm.trans hrt)
  obtain ⟨init, hold, _, _, hnew⟩ := hdel.attemptsOf_self (h.sound k).inv
  have hattempts := hstep.attempts u (Store.mem_listByDagRun.mpr ⟨htk, hd⟩)
  rw [h.step k, hact, hnew, hold] at hattempts
  have hr' := List.singleton_injective (List.append_cancel_left hattempts)
  rw [← hr', WorkerStatus.settledRun_terminal] at hactive
  exact absurd hactive (by simp)

/-- A ready task is dispatched, so a run at rest has none. -/
theorem not_ready (h : FairRun C run act) (hrest : ∀ n ≥ N, SameRun d (run N) (run n))
    (hn : n ≥ N) (ht : t ∈ (run n).tasks) (hd : t.dagRunId = d) (hs : t.status = .pending) :
    ∃ s ∈ (run n).tasks, s.dagRunId = d ∧ orderingForKind s.kind < orderingForKind t.kind ∧
      s.status.isDone = false := by
  by_contra hnone
  push Not at hnone
  obtain ⟨k, hk, hact⟩ := h.pumped n
  have hsame : SameRun d (run n) (run k) := (hrest n hn).between (hrest k (by omega))
  have hstep : SameRun d (run k) (run (k + 1)) :=
    (hrest k (by omega)).between (hrest (k + 1) (by omega))
  have htk : t ∈ (run k).tasks := (hsame.mem_tasks hd).mpr ht
  have hbatch : Store.pendingView C.backend t ∈ (run k).batch C none := by
    refine mem_batch htk hs fun s hs hlt => ?_
    rw [hd, hsame.tasks] at hs
    obtain ⟨hs, hsd⟩ := Store.mem_listByDagRun.mp hs
    simpa using hnone s hs hsd hlt
  obtain ⟨_, a, _, _, _, hopened, _⟩ := ((h.sound k).scheduling none).opened hbatch
  have hattempts := hstep.attempts t (Store.mem_listByDagRun.mpr ⟨htk, hd⟩)
  rw [h.step k, hact, run_schedule_eq] at hattempts
  rw [← (Store.pendingView_same C.backend t).id] at hopened
  have hlen := congrArg List.length (hopened.symm.trans hattempts)
  simp at hlen

/-- In a run at rest a task that neither succeeded nor failed waits behind a failed one. -/
theorem waits_behind_failed (h : FairRun C run act)
    (hrest : ∀ n ≥ N, SameRun d (run N) (run n)) (hn : n ≥ N) (ht : t ∈ (run n).tasks)
    (hd : t.dagRunId = d) (hs : t.status ≠ .success) (hf : t.status ≠ .failed) :
    t.status = .pending ∧ ∃ s ∈ (run n).tasks, s.dagRunId = d ∧
      orderingForKind s.kind < orderingForKind t.kind ∧ s.status = .failed := by
  induction hk : orderingForKind t.kind using Nat.strong_induction_on generalizing t with
  | _ k ih =>
    have hpending : t.status = .pending := by
      have hrunning := h.status_ne_running hrest hn ht hd
      have hphase := (h.sound n).rest ht
      generalize t.status = s, (run n).attemptsOf t.id = rs at hphase hrunning hs hf ⊢
      cases hphase with
      | waiting => rfl
      | active => exact absurd rfl hrunning
      | done => exact absurd rfl hs
      | exhausted => exact absurd rfl hf
    obtain ⟨v, hv, hvd, hlt, hopen⟩ := h.not_ready hrest hn ht hd hpending
    refine ⟨hpending, ?_⟩
    by_cases hvf : v.status = .failed
    · exact ⟨v, hv, hvd, hk ▸ hlt, hvf⟩
    · have hvs : v.status ≠ .success := fun he => by simp [he, TaskStatus.isDone] at hopen
      obtain ⟨_, s, hs, hsd, hslt, hsf⟩ := ih _ (hk ▸ hlt) hv hvd hvs hvf rfl
      exact ⟨s, hs, hsd, by omega, hsf⟩

end FairRun

/-- A run that came to an end: every task succeeded, or one failed. -/
def Finished (w : World) (x : DagRun) : Prop :=
  (x.status = .success ∧ ∀ t ∈ w.tasks, t.dagRunId = x.id → t.status = .success) ∨
    x.status = .failed ∧ ∃ t ∈ w.tasks, t.dagRunId = x.id ∧ t.status = .failed

theorem FairRun.finished {run : ℕ → World} {act : ℕ → Action} {N n : ℕ} (h : FairRun C run act)
    {x : DagRun} (hrest : ∀ n ≥ N, SameRun x.id (run N) (run n)) (hn : n ≥ N)
    (hx : x ∈ (run n).dagRuns) : Finished (run n) x := by
  have hagree := agreement (h.reachable n) x hx
  obtain ⟨v, hv, hvd⟩ := (peopled_preserved C).reachable
    (fun x hx => absurd hx (Table.notMem_empty x)) (h.reachable n) x hx
  have hstarted : x.status ≠ .created := by
    intro hc
    have hpending : ∀ t ∈ (run n).tasks, t.dagRunId = x.id → t.status = .pending :=
      fun t ht hd => hagree.pending (h.sound n).inv hc ht hd
    have hvs := hpending v hv hvd
    obtain ⟨_, s, hs, hsd, _, hsf⟩ := h.waits_behind_failed hrest hn hv hvd
      (by simp [hvs]) (by simp [hvs])
    rw [hpending s hs hsd] at hsf
    exact absurd hsf (by simp)
  have hstatus := hagree.aggregate hstarted
  by_cases hf : ∃ t ∈ (run n).tasks, t.dagRunId = x.id ∧ t.status = .failed
  · exact .inr ⟨hstatus.trans (Store.aggregate_eq_failed.mpr hf), hf⟩
  · have hall : ∀ t ∈ (run n).tasks, t.dagRunId = x.id → t.status = .success := by
      intro t ht hd
      by_contra hs
      have htf : t.status ≠ .failed := fun he => hf ⟨t, ht, hd, he⟩
      obtain ⟨_, s, hs, hsd, _, hsf⟩ := h.waits_behind_failed hrest hn ht hd hs htf
      exact hf ⟨s, hs, hsd, hsf⟩
    refine .inl ⟨hstatus.trans (Store.aggregate_eq_success.mpr fun t ht hd => ?_), hall⟩
    rw [hall t ht hd]
    rfl

/-- In every fair execution in which chunk sets come from chunkers only, whatever
else the workers answer, and how often, each stored run comes to rest: from some
time on its tasks and attempts stay as they are, it is `Success` with all tasks
succeeded or `Failed` with a failed task, and a task of it that did neither waits
behind a failed one of an earlier stage. -/
theorem every_run_finishes (C : Config) (run : ℕ → World) (act : ℕ → Action)
    (h : FairRun C run act) (hc : ∀ n, (act n).Allowed (ChunkSetsOfChunker C) (run n))
    (n₀ : ℕ) (x : DagRun) (hx : x ∈ (run n₀).dagRuns) :
    ∃ N ≥ n₀, ∀ n ≥ N, SameRun x.id (run N) (run n) ∧
      (∃ y ∈ (run n).dagRuns, y.id = x.id ∧ Finished (run n) y) ∧
      ∀ t ∈ (run n).tasks, t.dagRunId = x.id → t.status ≠ .success → t.status ≠ .failed →
        t.status = .pending ∧ ∃ s ∈ (run n).tasks, s.dagRunId = x.id ∧
          orderingForKind s.kind < orderingForKind t.kind ∧ s.status = .failed := by
  obtain ⟨N, hN, hrest⟩ := h.exists_sameRun hc ⟨x, hx, rfl⟩
  refine ⟨N, hN, fun n hn => ⟨hrest n hn, ?_, fun t ht hd hs hf =>
    h.waits_behind_failed hrest hn ht hd hs hf⟩⟩
  obtain ⟨y, hy, hid⟩ := h.stored ⟨x, hx, rfl⟩ n (by omega)
  exact ⟨y, hy, hid, h.finished (hid ▸ hrest) hn hy⟩

/-! ### A fair run -/

/-- A sequence behind a first element. -/
def prepend {α : Type} (a : α) (s : ℕ → α) : ℕ → α
  | 0 => a
  | n + 1 => s n

/-- A first step from the empty stores, where nothing is outstanding. -/
theorem FairRun.fromEmpty {run : ℕ → World} {act : ℕ → Action} {a : Action} (h : FairRun C run act)
    (he : a.Enabled World.empty) (h₀ : run 0 = a.run C World.empty) :
    FairRun C (prepend World.empty run) (prepend a act) where
  start := .empty C
  step n := by
    cases n with
    | zero => exact h₀
    | succ n => exact h.step n
  enabled n := by
    cases n with
    | zero => exact he
    | succ n => exact h.enabled n
  pumped n := by
    obtain ⟨k, hk, hact⟩ := h.pumped n
    exact ⟨k + 1, by omega, hact⟩
  answered n q hq hr := by
    cases n with
    | zero => exact absurd hq List.not_mem_nil
    | succ n =>
      obtain ⟨k, hk, m, hact, hm⟩ := h.answered n q hq hr
      exact ⟨k + 1, by omega, m, hact, hm⟩

section RoundRobin

variable (answer : WorkerRequest → WorkerStatus)

/-- The loop pumps and the workers answer the requests one after the other, each
again and again. -/
def turn (n : ℕ) (w : World) : Action :=
  match n.unpair.1 with
  | 0 => .schedule none
  | k + 1 =>
    match w.published[k]? with
    | some q => .deliver (answer q.2)
    | none => .schedule none

def roundRobin (C : Config) (w : World) : ℕ → World
  | 0 => w
  | n + 1 => (turn answer n (roundRobin C w n)).run C (roundRobin C w n)

variable {answer}

theorem turn_enabled (ha : ∀ q, (answer q).Answers q) (n : ℕ) (w : World) :
    (turn answer n w).Enabled w := by
  unfold turn
  split
  · trivial
  · split
    · next q hq =>
      exact ⟨q, List.mem_of_getElem? hq, (ha q.2).dagRunId, (ha q.2).taskId, (ha q.2).taskRunId⟩
    · trivial

theorem turn_allowed {allow : World → WorkerStatus → Prop} {n : ℕ} {w : World}
    (h : ∀ q ∈ w.published, allow w (answer q.2)) : (turn answer n w).Allowed allow w := by
  unfold turn
  split
  · trivial
  · split
    · next q hq => exact fun _ _ _ _ => h q (List.mem_of_getElem? hq)
    · trivial

/-- Every reachable world has a fair future. -/
theorem fairRun_roundRobin (answer : WorkerRequest → WorkerStatus)
    (ha : ∀ q, (answer q).Answers q) (hw : w.Reachable C) :
    FairRun C (roundRobin answer C w) fun n => turn answer n (roundRobin answer C w n) := by
  have hreach : ∀ n, (roundRobin answer C w n).Reachable C := by
    intro n
    induction n with
    | zero => exact hw
    | succ n ih => exact ih.run _ (turn_enabled ha n _)
  have hprefix : ∀ n, ∀ k ≥ n,
      (roundRobin answer C w n).published <+: (roundRobin answer C w k).published := by
    intro n k hk
    induction k, hk using Nat.le_induction with
    | base => exact List.prefix_refl _
    | succ k _ ih => exact ih.trans (prefix_published (hreach k).sound (turn_enabled ha k _))
  refine ⟨hw, fun _ => rfl, fun n => turn_enabled ha n _, fun n => ?_, fun n q hq _ => ?_⟩
  · exact ⟨Nat.pair 0 n, Nat.right_le_pair 0 n, by simp [turn]⟩
  · obtain ⟨k, hk, hkq⟩ := List.getElem_of_mem hq
    refine ⟨Nat.pair (k + 1) n, Nat.right_le_pair _ n, answer q.2, ?_, ha q.2⟩
    have hlater : (roundRobin answer C w (Nat.pair (k + 1) n)).published[k]? = some q := by
      obtain ⟨more, hmore⟩ := hprefix n _ (Nat.right_le_pair (k + 1) n)
      rw [← hmore, List.getElem?_append_left hk, List.getElem?_eq_getElem hk, hkq]
    simp only [turn, Nat.unpair_pair, hlater]

end RoundRobin

theorem every_run_finishes_roundRobin :
    ∃ (run : ℕ → World) (act : ℕ → Action) (x : DagRun), FairRun (.paired 3) run act ∧
      x ∈ (run 0).dagRuns ∧ x.status = .created ∧
      ∃ N ≥ 0, ∀ n ≥ N, SameRun x.id (run N) (run n) ∧
        (∃ y ∈ (run n).dagRuns, y.id = x.id ∧ Finished (run n) y) ∧
        ∀ t ∈ (run n).tasks, t.dagRunId = x.id → t.status ≠ .success → t.status ≠ .failed →
          t.status = .pending ∧ ∃ s ∈ (run n).tasks, s.dagRunId = x.id ∧
            orderingForKind s.kind < orderingForKind t.kind ∧ s.status = .failed := by
  have hw := (Reachable.empty (.paired 3)).run (.create 0 ⟨0⟩ "default" .null) trivial
  have hfair := fairRun_roundRobin (·.succeeded none) (fun _ => ⟨rfl, rfl, rfl⟩) hw
  obtain ⟨x, hx, hs⟩ : ∃ x ∈ (Action.run (.paired 3) (.create 0 ⟨0⟩ "default" .null)
      World.empty).dagRuns.rows, x.status = .created := by decide
  exact ⟨_, _, x, hfair, hx, hs, every_run_finishes _ _ _ hfair
    (fun n => turn_allowed fun _ _ hsets => absurd rfl hsets) 0 x hx⟩

end Contexide.Workflow
