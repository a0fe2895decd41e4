import Contexide.Worker.Handlers
import Contexide.Workflow.Liveness

/-! The whole system with the workers of the repository: the executor, and for
every request a status of the worker of its kind, in any order and any number of
times. No attempt fails, each run gets one embedder task beside its plan, and in a
fair execution each run ends as `Success` after one attempt for each of six tasks. -/

namespace Contexide.Worker

open Effects Storage Workflow Workflow.Messaging Workflow.World

variable {C : Config} {w : World}

/-- The status is what the worker of a request's kind answers. -/
def FromWorker (C : Config) (w : World) (m : WorkerStatus) : Prop :=
  ∃ q ∈ w.published, ∃ fresh status,
    (handlerFor q.2.kind).handle C fresh q.2 = .ok status ∧ m = statusOf status

/-- A success with a chunk set exactly from a chunker. -/
def AsWorkers (C : Config) (w : World) (m : WorkerStatus) : Prop :=
  (∃ tenant d t r output, m = .success tenant d t r output) ∧
    ∀ t ∈ w.tasks, t.id = m.taskId → (m.chunkSets C).length = if t.kind = "chunker" then 1 else 0

theorem AsWorkers.chunkSetsOfChunker {m : WorkerStatus} (h : AsWorkers C w m) :
    ChunkSetsOfChunker C w m := by
  intro hsets t ht hid
  have hlen := h.2 t ht hid
  by_contra hk
  rw [if_neg hk] at hlen
  exact hsets (List.length_eq_zero_iff.mp hlen)

/-- One for a chunker that has fanned out. -/
def fannedOut (t : Task) : ℕ := if t.kind = "chunker" ∧ t.status = .success then 1 else 0

/-- No attempt has failed, and a run has the planned tasks and one embedder for
each of its chunkers that succeeded. -/
structure Healthy (w : World) : Prop where
  noFailure : ∀ r ∈ w.taskRuns, r.status ≠ .failed
  kinds : ∀ d, w.dagRuns.Has d → (w.listByDagRun d).map Task.kind =
    Planner.profileSequence ++ List.replicate ((w.listByDagRun d).map fannedOut).sum "embedder"

theorem map_kind_plannedTasks (i : Proc) (d : DagRunId) (tenant : TenantId) (input : Json)
    (kinds : List String) (k idx : ℕ) :
    (Planner.plannedTasks C i d tenant input k idx kinds).map Task.kind = kinds := by
  induction kinds generalizing k idx with
  | nil => rfl
  | cons kind kinds ih => rw [Planner.plannedTasks, List.map_cons, ih]; rfl

theorem map_kind_embedTasks (i : Proc) (d : DagRunId) (tenant : TenantId) (k : ℕ)
    (sets : List Uuid) : (embedTasks C i d tenant k sets).map Task.kind =
      List.replicate sets.length "embedder" := by
  induction sets generalizing k with
  | nil => rfl
  | cons chunkSet rest ih => rw [embedTasks, List.map_cons, ih]; rfl

namespace Healthy

theorem created {n : ℕ} {tenant : TenantId} {profile : String} {input : Json} (h : Healthy w)
    (hw : w.Sound C) : Healthy (w.created C n tenant profile input) where
  noFailure r hr := h.noFailure r (created_taskRuns (C := C) (w := w) ▸ hr)
  kinds d hd := by
    obtain ⟨x, hx, rfl⟩ := hd
    rw [Table.mem_def, rows_created_dagRuns hw.inv, List.mem_append] at hx
    rcases hx with hx | hx
    · rw [(sameRun_created hw ⟨x, hx, rfl⟩).tasks]
      exact h.kinds x.id ⟨x, hx, rfl⟩
    · -- the new run has not fanned out
      obtain rfl := List.mem_singleton.mp hx
      have hnone : ((Planner.nextTasks C (.planner n) w tenant input).map fannedOut).sum = 0 := by
        refine List.sum_eq_zero fun k hk => ?_
        obtain ⟨t, ht, rfl⟩ := List.mem_map.mp hk
        obtain ⟨_, _, hpending, _⟩ := Planner.mem_plannedTasks ht
        simp [fannedOut, hpending]
      have hlist := listByDagRun_created n tenant profile input hw
      simp only [Planner.plannedRun, hlist, hnone, List.replicate_zero, List.append_nil]
      exact map_kind_plannedTasks ..

theorem dispatched {t : Task} (h : Healthy w) (hw : w.Sound C) (ht : w.Listed t) :
    Healthy (w.dispatched C t) := by
  obtain ⟨x, hx, hxid⟩ := hw.inv.run_of_listed ht
  obtain ⟨u, hu, hsame, hpending⟩ := ht
  refine ⟨fun r hr => ?_, fun d hd => ?_⟩
  · have hsave : (w.dispatched C t).taskRuns = w.taskRuns.save (w.nextTaskRun C t) := by
      simp [World.dispatched, nextTaskRun]
    rw [hsave] at hr
    rcases Table.mem_save.mp hr with rfl | ⟨hr, _⟩
    · simp [nextTaskRun, Scheduler.openedRun]
    · exact h.noFailure r hr
  · rw [dispatched_dagRuns hx hxid, Table.has_save] at hd
    have hstored : w.dagRuns.Has d := hd.elim (fun he => ⟨x, hx, by simpa using he.symm⟩) id
    have hkinds := Table.map_filter_rows_save (v := { t with status := .running })
      (p := fun v => v.dagRunId = d) (g := Task.kind) hu hsame.id (by simp [hsame.run]) hsame.kind
    have hfanned := Table.map_filter_rows_save (v := { t with status := .running })
      (p := fun v => v.dagRunId = d) (g := fannedOut) hu hsame.id (by simp [hsame.run])
      (by simp [fannedOut, hpending])
    simp only [Store.listByDagRun, dispatched_tasks, hkinds, hfanned]
    exact h.kinds d hstored

theorem delivered {m : WorkerStatus} {a : TaskRun} {u : Task} {x : DagRun} (h : Healthy w)
    (hw : w.Sound C) (hd : Delivery m w a u x) (hm : AsWorkers C w m) :
    Healthy ((Action.deliver m).run C w) := by
  obtain ⟨⟨tenant, d', t', r', output, rfl⟩, hsets⟩ := hm
  refine ⟨fun r hr => ?_, fun d hrun => ?_⟩
  · rw [hd.taskRuns hw.inv] at hr
    rcases Table.mem_save.mp hr with rfl | ⟨hr, _⟩
    · simp [WorkerStatus.settledRun]
    · exact h.noFailure r hr
  · have hstored : w.dagRuns.Has d := by
      rw [hd.dagRuns hw.inv, Table.has_save] at hrun
      exact hrun.elim (fun he => ⟨x, hd.dagRun, he.symm⟩) id
    by_cases hud : u.dagRunId = d
    · subst hud
      have hsame := Delivery.settledTask_same C (.success tenant d' t' r' output) w u
      have hkinds := Table.map_filter_rows_save
        (v := Delivery.settledTask C (.success tenant d' t' r' output) w u)
        (p := fun v => v.dagRunId = u.dagRunId) (g := Task.kind) hd.task hsame.id
        (by simp [hsame.run]) hsame.kind
      have hlen := hsets u hd.task hd.taskId
      have hsum := sum_listByDagRun_delivered hw hd (f := fannedOut) (g := fannedOut)
        fun _ _ _ => rfl
      have hnone : ((Delivery.newTasks C (.success tenant d' t' r' output) w u).map
          fannedOut).sum = 0 := by
        refine List.sum_eq_zero fun k hk => ?_
        obtain ⟨t, ht, rfl⟩ := List.mem_map.mp hk
        obtain ⟨_, _, hkind, _⟩ := mem_embedTasks ht
        simp [fannedOut, hkind]
      have hone : fannedOut (Delivery.settledTask C (.success tenant d' t' r' output) w u) =
          fannedOut u + (WorkerStatus.chunkSets C (.success tenant d' t' r' output)).length := by
        rw [hlen]
        simp [fannedOut, hd.running, Delivery.settledTask, WorkerStatus.settledTask]
      have htotal : ((((Action.deliver (.success tenant d' t' r' output)).run C w).listByDagRun
          u.dagRunId).map fannedOut).sum = ((w.listByDagRun u.dagRunId).map fannedOut).sum +
            (WorkerStatus.chunkSets C (.success tenant d' t' r' output)).length := by
        omega
      rw [htotal, List.replicate_add, ← List.append_assoc, ← h.kinds _ hstored,
        listByDagRun_delivered hw hd, List.map_append, Delivery.newTasks, map_kind_embedTasks]
      exact congrArg (· ++ _) hkinds
    · rw [(sameRun_delivered hw hd hud).tasks]
      exact h.kinds d hstored

theorem preserved (C : Config) : Preserved C (AsWorkers C) Healthy where
  created _ _ _ _ _ hw h := h.created hw
  dispatched _ _ hw ht _ h := h.dispatched hw ht
  announced _ _ h := ⟨h.noFailure, h.kinds⟩
  delivered _ _ _ _ _ hw hd hm h := h.delivered hw hd hm

/-- The planned kinds are the only ones. -/
theorem kind_mem (h : Healthy w) (hw : w.Inv C) {t : Task} (ht : t ∈ w.tasks) :
    t.kind ∈ Planner.profileSequence := by
  have hmem : t.kind ∈ (w.listByDagRun t.dagRunId).map Task.kind :=
    List.mem_map_of_mem (Store.mem_listByDagRun.mpr ⟨ht, rfl⟩)
  rw [h.kinds _ (hw.runOf t ht), List.mem_append] at hmem
  rcases hmem with hmem | hmem
  · exact hmem
  · rw [List.eq_of_mem_replicate hmem]
    simp [Planner.profileSequence]

end Healthy

/-- In a healthy world the workers' answers are successes. -/
theorem FromWorker.asWorkers (hC : ∀ u, (C.parseUuid (C.uuidText u)).isSome = true)
    (hw : w.Reachable C) (h : Healthy w) {m : WorkerStatus} (hm : FromWorker C w m) :
    AsWorkers C w m := by
  obtain ⟨q, hq, fresh, status, hstatus, rfl⟩ := hm
  obtain ⟨t, ht, hid, hkind⟩ := hw.requestsOfTasks q hq
  obtain ⟨output, hhandle, hlen⟩ := handle_succeeds fresh q.2 hC
    (hkind ▸ h.kind_mem hw.sound.inv ht)
  obtain rfl := Except.ok.inj (hhandle.symm.trans hstatus)
  refine ⟨⟨_, _, _, _, output, rfl⟩, fun t' ht' hid' => ?_⟩
  have hsame : t' = t := Table.eq_of_key ht' ht (TaskId.ext (by rw [hid, hid']; rfl))
  rw [hsame, hkind]
  exact hlen

theorem Healthy.empty : Healthy World.empty where
  noFailure r hr := absurd hr (Table.notMem_empty r)
  kinds d hd := absurd hd (Table.not_has_empty d)

/-- A task without failed attempts that is not pending or running has one attempt. -/
theorem Healthy.attempts (h : Healthy w) (hw : w.Sound C) {t : Task} (ht : t ∈ w.tasks)
    (hs : t.status = .success) :
    ∃ r, w.attemptsOf t.id = [r] ∧ r.status = .success := by
  have hrest := hw.rest ht
  have hall : ∀ r ∈ w.attemptsOf t.id, r.status ≠ .failed := fun r hr =>
    h.noFailure r (Store.mem_attemptsOf.mp hr).1
  rw [hs] at hrest
  generalize w.attemptsOf t.id = rs at hrest hall ⊢
  cases hrest with
  | @done init r hf hr _ =>
    have hnil : init = [] := List.eq_nil_iff_forall_not_mem.mpr fun a ha =>
      hall a (List.mem_append_left _ ha) (hf a ha)
    subst hnil
    exact ⟨r, rfl, hr⟩

theorem Healthy.status_ne_failed (h : Healthy w) (hw : w.Sound C) {t : Task}
    (ht : t ∈ w.tasks) : t.status ≠ .failed := by
  intro hs
  have hrest := hw.rest ht
  have hall : ∀ r ∈ w.attemptsOf t.id, r.status ≠ .failed := fun r hr =>
    h.noFailure r (Store.mem_attemptsOf.mp hr).1
  rw [hs] at hrest
  generalize w.attemptsOf t.id = rs at hrest hall
  cases hrest with
  | exhausted hf hl =>
    obtain ⟨r, hr⟩ := List.exists_mem_of_length_pos (hl ▸ C.cap_pos)
    exact hall r hr (hf r hr)

/-- The kinds of a run whose tasks all succeeded. -/
theorem Healthy.kinds_of_success (h : Healthy w) {d : DagRunId} (hd : w.dagRuns.Has d)
    (hall : ∀ t ∈ w.listByDagRun d, t.status = .success) :
    (w.listByDagRun d).map Task.kind = Planner.profileSequence ++ ["embedder"] := by
  have hcount : ((w.listByDagRun d).map fannedOut).sum =
      ((w.listByDagRun d).map Task.kind).count "chunker" := by
    generalize w.listByDagRun d = ts at hall
    induction ts with
    | nil => rfl
    | cons t ts ih =>
      have ht := hall t List.mem_cons_self
      have ih := ih fun v hv => hall v (List.mem_cons_of_mem _ hv)
      rw [List.map_cons, List.sum_cons, ih, List.map_cons, List.count_cons, fannedOut]
      simp only [ht, and_true, beq_iff_eq]
      omega
  have hkinds := h.kinds d hd
  generalize ((w.listByDagRun d).map fannedOut).sum = n at hcount hkinds
  -- the plan has one chunker, fan-out adds none
  have hnone : (List.replicate n "embedder").count "chunker" = 0 :=
    List.count_eq_zero.mpr fun hmem => absurd (List.eq_of_mem_replicate hmem) (by decide)
  rw [hkinds, List.count_append, hnone] at hcount
  rw [hkinds, hcount]
  rfl

section Fair

variable {run : ℕ → World} {act : ℕ → Action}

theorem healthy_run (hC : ∀ u, (C.parseUuid (C.uuidText u)).isSome = true)
    (h : FairRun C run act) (h₀ : run 0 = World.empty)
    (hm : ∀ n, (act n).Allowed (FromWorker C) (run n)) (n : ℕ) :
    Healthy (run n) ∧ (act n).Allowed (AsWorkers C) (run n) := by
  have hallowed : ∀ n, Healthy (run n) → (act n).Allowed (AsWorkers C) (run n) := by
    intro n hn
    have hmn := hm n
    cases he : act n with
    | deliver m =>
      rw [he] at hmn
      exact fun a ha hid hactive => (hmn a ha hid hactive).asWorkers hC (h.reachable n) hn
    | _ => trivial
  induction n with
  | zero => exact ⟨h₀ ▸ .empty, hallowed 0 (h₀ ▸ .empty)⟩
  | succ n ih =>
    have hn : Healthy (run (n + 1)) := by
      rw [h.step n]
      exact (Healthy.preserved C).run (h.sound n) (h.enabled n) ih.2 ih.1
    exact ⟨hn, hallowed _ hn⟩

end Fair

/-- In every fair execution from empty stores in which the workers answer, each run
is `Success` from some time on, with one successful attempt for each of its planned
tasks and for the one embedder its chunker asked for. -/
theorem every_run_succeeds (C : Config)
    (hC : ∀ u, (C.parseUuid (C.uuidText u)).isSome = true) (run : ℕ → World) (act : ℕ → Action)
    (h : FairRun C run act) (h₀ : run 0 = World.empty)
    (hm : ∀ n, (act n).Allowed (FromWorker C) (run n)) (n₀ : ℕ) (x : DagRun)
    (hx : x ∈ (run n₀).dagRuns) :
    ∃ N ≥ n₀, ∀ n ≥ N,
      (∃ y ∈ (run n).dagRuns, y.id = x.id ∧ y.status = .success) ∧
      ((run n).listByDagRun x.id).map Task.kind =
        ["extractor", "normalizer", "chunker", "embedder", "indexer", "embedder"] ∧
      ∀ t ∈ (run n).listByDagRun x.id, t.status = .success ∧
        ∃ r, (run n).attemptsOf t.id = [r] ∧ r.status = .success := by
  have hhealthy := healthy_run hC h h₀ hm
  have hc : ∀ n, (act n).Allowed (ChunkSetsOfChunker C) (run n) := by
    intro n
    have hn := (hhealthy n).2
    cases he : act n with
    | deliver m =>
      rw [he] at hn
      exact fun a ha hid hactive => (hn a ha hid hactive).chunkSetsOfChunker
    | _ => trivial
  obtain ⟨N, hN, hrest⟩ := h.exists_sameRun hc ⟨x, hx, rfl⟩
  refine ⟨N, hN, fun n hn => ?_⟩
  obtain ⟨y, hy, hid⟩ := h.stored ⟨x, hx, rfl⟩ n (by omega)
  have hsound := h.sound n
  rcases h.finished (hid ▸ hrest) hn hy with ⟨hs, hall⟩ | ⟨_, t, ht, _, hf⟩
  · have hsuccess : ∀ t ∈ (run n).listByDagRun x.id, t.status = .success := fun t ht => by
      obtain ⟨ht, hd⟩ := Store.mem_listByDagRun.mp ht
      exact hall t ht (hd.trans hid.symm)
    refine ⟨⟨y, hy, hid, hs⟩, (hhealthy n).1.kinds_of_success ⟨y, hy, hid⟩ hsuccess,
      fun t ht => ⟨hsuccess t ht, ?_⟩⟩
    exact (hhealthy n).1.attempts hsound (Store.mem_listByDagRun.mp ht).1 (hsuccess t ht)
  · exact absurd hf ((hhealthy n).1.status_ne_failed hsound ht)

/-- The worker of the request's kind answers; its chunk set is the nil one when the
payload has none. -/
def answered (C : Config) (q : WorkerRequest) : WorkerStatus :=
  match (handlerFor q.kind).handle C ⟨0⟩ q with
  | .ok status => statusOf status
  | .error _ => q.failed ""

theorem answered_answers (C : Config) (q : WorkerRequest) : (answered C q).Answers q := by
  unfold answered GenericHandler.handle handlerFor
  dsimp only
  split <;> exact ⟨rfl, rfl, rfl⟩

theorem fromWorker_answered {q : String × WorkerRequest} (hq : q ∈ w.published) :
    FromWorker C w (answered C q.2) := ⟨q, hq, ⟨0⟩, _, rfl, rfl⟩

theorem every_run_succeeds_default :
    ∃ (run : ℕ → World) (act : ℕ → Action) (x : DagRun),
      FairRun (.canonical 3) run act ∧ run 0 = World.empty ∧ x ∈ (run 1).dagRuns ∧
      ∃ N ≥ 1, ∀ n ≥ N,
        (∃ y ∈ (run n).dagRuns, y.id = x.id ∧ y.status = .success) ∧
        ((run n).listByDagRun x.id).map Task.kind =
          ["extractor", "normalizer", "chunker", "embedder", "indexer", "embedder"] ∧
        ∀ t ∈ (run n).listByDagRun x.id, t.status = .success ∧
          ∃ r, (run n).attemptsOf t.id = [r] ∧ r.status = .success := by
  have hw := (Reachable.empty (.canonical 3)).run (.create 0 ⟨0⟩ "default" .null) trivial
  have hfair := (fairRun_roundRobin _ (answered_answers (.canonical 3)) hw).fromEmpty
    (a := .create 0 ⟨0⟩ "default" .null) trivial rfl
  obtain ⟨x, hx⟩ : ∃ x, x ∈ (Action.run (.canonical 3) (.create 0 ⟨0⟩ "default" .null)
      World.empty).dagRuns := ⟨_, List.mem_cons_self⟩
  have hparse : ∀ u, ((Config.canonical 3).parseUuid ((Config.canonical 3).uuidText u)).isSome =
      true := by
    intro u
    rw [Config.parseUuid_uuidText, Option.isSome_some]
  refine ⟨_, _, x, hfair, rfl, hx, every_run_succeeds _ hparse _ _ hfair rfl ?_ 1 x hx⟩
  rintro (_ | n)
  · trivial
  · exact turn_allowed fun q hq => fromWorker_answered hq

end Contexide.Worker
