import Contexide.Effects.Ranking
import Contexide.Workflow.FanOut
import Mathlib

/-! How much work a run still has. Every step of the executor leaves the tasks and
attempts of a run alone or lowers its rank: first the number of chunkers that can
still fan out, then the number of steps its tasks can still take. Fan-out adds
tasks without a bound, but each chunker fans out once. -/

namespace Contexide.Storage

/-- With pairwise different keys, a sum over the rows changes by what is summed for
the row that is replaced. -/
theorem sum_map_upsert {K V : Type} [DecidableEq K] (key : V → K) {f g : V → ℕ} {u v : V}
    {xs : List V} (hn : (xs.map key).Nodup) (hu : u ∈ xs) (hk : key u = key v)
    (hother : ∀ x ∈ xs, key x ≠ key v → g x = f x) :
    ((upsert key v xs).map g).sum + f u = (xs.map f).sum + g v := by
  induction xs with
  | nil => exact absurd hu List.not_mem_nil
  | cons x xs ih =>
    rw [List.map_cons, List.nodup_cons] at hn
    rcases List.mem_cons.mp hu with rfl | hu
    · have hrest : xs.map g = xs.map f := List.map_congr_left fun y hy =>
        hother y (List.mem_cons_of_mem _ hy) fun he =>
          hn.1 (hk.trans he.symm ▸ List.mem_map_of_mem hy)
      rw [upsert, if_pos hk, List.map_cons, List.map_cons, List.sum_cons, List.sum_cons, hrest]
      omega
    · have hx : key x ≠ key v := fun he => hn.1 (he.trans hk.symm ▸ List.mem_map_of_mem hu)
      have ih := ih hn.2 hu fun y hy => hother y (List.mem_cons_of_mem _ hy)
      rw [upsert, if_neg hx, List.map_cons, List.map_cons, List.sum_cons, List.sum_cons,
        hother x List.mem_cons_self hx]
      omega

end Contexide.Storage

namespace Contexide.Workflow

open Effects Storage Scheduler World

variable {C : Config} {w w' : World} {d : DagRunId}

/-- The worlds have the same tasks of the run, with the same attempts. -/
structure SameRun (d : DagRunId) (w w' : World) : Prop where
  tasks : w'.listByDagRun d = w.listByDagRun d
  attempts : ∀ t ∈ w.listByDagRun d, w'.attemptsOf t.id = w.attemptsOf t.id

namespace SameRun

theorem refl (d : DagRunId) (w : World) : SameRun d w w := ⟨rfl, fun _ _ => rfl⟩

theorem trans {w'' : World} (h : SameRun d w w') (h' : SameRun d w' w'') : SameRun d w w'' :=
  ⟨h'.tasks.trans h.tasks, fun t ht => (h'.attempts t (h.tasks ▸ ht)).trans (h.attempts t ht)⟩

end SameRun

/-- One for a chunker that can still fan out. -/
def fanOutsLeft (t : Task) : ℕ := if t.kind = "chunker" ∧ t.status ≠ .success then 1 else 0

/-- Two steps for each attempt a task has left, one for the attempt that runs. -/
def stepsLeft (C : Config) (w : World) (t : Task) : ℕ :=
  2 * (C.cap - (w.attemptsOf t.id).length) + if t.status = .running then 1 else 0

namespace World

def rank (C : Config) (d : DagRunId) (w : World) : ℕ ×ₗ ℕ :=
  toLex (((w.listByDagRun d).map fanOutsLeft).sum, ((w.listByDagRun d).map (stepsLeft C w)).sum)

theorem rank_sameRun (h : SameRun d w w') : w'.rank C d = w.rank C d := by
  have hsteps : (w.listByDagRun d).map (stepsLeft C w') =
      (w.listByDagRun d).map (stepsLeft C w) :=
    List.map_congr_left fun t ht => by rw [stepsLeft, stepsLeft, h.attempts t ht]
  rw [rank, rank, h.tasks, hsteps]

/-- What is summed over the tasks of a run changes with the task that is saved. -/
theorem sum_listByDagRun_save (w' : World) {u t : Task} {f g : Task → ℕ} (hu : u ∈ w.tasks)
    (hsame : SameTask u t) (hrows : w'.tasks = w.tasks.save t) (hd : t.dagRunId = d)
    (hother : ∀ v ∈ w.tasks, v.id ≠ t.id → g v = f v) :
    ((w'.listByDagRun d).map g).sum + f u = ((w.listByDagRun d).map f).sum + g t := by
  have hlist : w'.listByDagRun d = upsert Task.id t (w.listByDagRun d) := by
    rw [Store.listByDagRun, hrows]
    refine Table.filter_rows_save_of_true (by simpa using hd) fun v hv hid => ?_
    rw [Table.eq_of_key hv hu (hid.trans hsame.id.symm), hsame.run]
    simpa using hd
  rw [hlist]
  exact sum_map_upsert Task.id (w.tasks.nodup.sublist (List.filter_sublist.map _))
    (Store.mem_listByDagRun.mpr ⟨hu, hsame.run.trans hd⟩) hsame.id
    fun v hv => hother v (Store.mem_listByDagRun.mp hv).1

/-! ### Dispatching a task -/

/-- A dispatch uses up a step of its task. -/
theorem rank_dispatched {t : Task} (hw : w.Sound C) (ht : w.Listed t) :
    (w.dispatched C t).rank C t.dagRunId < w.rank C t.dagRunId := by
  obtain ⟨u, hu, hsame, hpending⟩ := ht
  have hrunning := hsame.of_status .running
  have hlen : ((w.dispatched C t).attemptsOf t.id).length = (w.attemptsOf u.id).length + 1 := by
    rw [attemptsOf_dispatched_self hw.inv, hsame.id, List.length_append, List.length_singleton]
  have hcap : (w.attemptsOf u.id).length < C.cap := by
    have hrest := hw.inv.phase u hu
    rw [hpending] at hrest
    exact (hrest.waiting_of_settled (hw.settled hu hpending)).2
  have hfan := sum_listByDagRun_save (w.dispatched C t) (d := t.dagRunId)
    (f := fanOutsLeft) (g := fanOutsLeft) hu hrunning (dispatched_tasks w C t) rfl fun _ _ _ => rfl
  have hsteps := sum_listByDagRun_save (w.dispatched C t) (d := t.dagRunId)
    (f := stepsLeft C w) (g := stepsLeft C (w.dispatched C t)) hu hrunning
    (dispatched_tasks w C t) rfl fun v _ hne => by
      rw [stepsLeft, stepsLeft, attemptsOf_dispatched_ne hw.inv t hne]
  have hsame_fan : fanOutsLeft { t with status := .running } = fanOutsLeft u := by
    simp [fanOutsLeft, hsame.kind, hpending]
  have hsame_steps : stepsLeft C (w.dispatched C t) { t with status := .running } + 1 =
      stepsLeft C w u := by
    simp only [stepsLeft, hlen, hpending, ↓reduceIte, reduceCtorEq]
    omega
  refine Prod.Lex.toLex_lt_toLex.mpr (.inr ⟨?_, ?_⟩)
  · dsimp only
    omega
  · dsimp only
    omega

/-- A dispatch leaves the other runs alone. -/
theorem sameRun_dispatched {t : Task} (hw : w.Sound C) (ht : w.Listed t) (hd : t.dagRunId ≠ d) :
    SameRun d w (w.dispatched C t) := by
  obtain ⟨u, hu, hsame, _⟩ := ht
  have hrun : ∀ v ∈ w.tasks, v.id = t.id → v.dagRunId ≠ d := fun v hv hid he =>
    hd (hsame.run.symm.trans (Table.eq_of_key hu hv (hsame.id.trans hid.symm) ▸ he))
  refine ⟨?_, fun v hv => ?_⟩
  · rw [Store.listByDagRun, dispatched_tasks]
    exact Table.filter_rows_save_of_false (by simpa using hd) fun v hv hid => by
      simpa using hrun v hv hid
  · obtain ⟨hv, hvd⟩ := Store.mem_listByDagRun.mp hv
    exact attemptsOf_dispatched_ne hw.inv t fun hid => hrun v hv hid hvd

/-! ### Handling a status -/

section Delivery
variable {m : WorkerStatus} {a : TaskRun} {u : Task} {x : DagRun}

/-- The tasks of the run after a status. -/
theorem listByDagRun_delivered (hw : w.Sound C) (hd : Delivery m w a u x) :
    ((Action.deliver m).run C w).listByDagRun u.dagRunId =
      (w.putTask (Delivery.settledTask C m w u)).listByDagRun u.dagRunId ++
        Delivery.newTasks C m w u := by
  rw [Store.listByDagRun, hd.rows_tasks hw.inv, List.filter_append]
  refine congrArg _ (List.filter_eq_self.mpr fun t ht => ?_)
  obtain ⟨hrun, _⟩ := mem_embedTasks ht
  simpa using hrun

/-- A sum over the tasks of the run after a status: the settled task and the new
tasks are counted. -/
theorem sum_listByDagRun_delivered (hw : w.Sound C) (hd : Delivery m w a u x) {f g : Task → ℕ}
    (hother : ∀ v ∈ w.tasks, v.id ≠ u.id → g v = f v) :
    ((((Action.deliver m).run C w).listByDagRun u.dagRunId).map g).sum + f u =
      ((w.listByDagRun u.dagRunId).map f).sum + g (Delivery.settledTask C m w u) +
        ((Delivery.newTasks C m w u).map g).sum := by
  have hsame := Delivery.settledTask_same C m w u
  have hsave := sum_listByDagRun_save (w.putTask (Delivery.settledTask C m w u))
    hd.task hsame rfl hsame.run.symm (f := f) (g := g) fun v hv hne =>
      hother v hv (hsame.id ▸ hne)
  rw [listByDagRun_delivered hw hd, List.map_append, List.sum_append]
  omega

theorem fanOutsLeft_newTasks :
    ((Delivery.newTasks C m w u).map fanOutsLeft).sum = 0 := by
  refine List.sum_eq_zero fun n hn => ?_
  obtain ⟨t, ht, rfl⟩ := List.mem_map.mp hn
  obtain ⟨_, _, hkind, _⟩ := mem_embedTasks ht
  simp [fanOutsLeft, hkind]

/-- A status uses up a step of its task or the fan-out of its chunker. -/
theorem rank_delivered (hw : w.Sound C) (hd : Delivery m w a u x)
    (hm : ChunkSetsOfChunker C w m) :
    ((Action.deliver m).run C w).rank C u.dagRunId < w.rank C u.dagRunId := by
  have hsame := Delivery.settledTask_same C m w u
  have hfan := sum_listByDagRun_delivered hw hd (f := fanOutsLeft) (g := fanOutsLeft)
    fun _ _ _ => rfl
  rw [fanOutsLeft_newTasks] at hfan
  refine Prod.Lex.toLex_lt_toLex'.mpr ?_
  by_cases hsets : m.chunkSets C = []
  · -- no task is added
    have hfan_le : fanOutsLeft (Delivery.settledTask C m w u) ≤ fanOutsLeft u := by
      unfold fanOutsLeft
      rw [← hsame.kind, hd.running]
      split_ifs <;> simp_all
    obtain ⟨init, hold, _, hcap, hnew⟩ := hd.attemptsOf_self hw.inv
    have hsteps := sum_listByDagRun_delivered hw hd (f := stepsLeft C w)
      (g := stepsLeft C ((Action.deliver m).run C w)) fun v _ hne => by
        rw [stepsLeft, stepsLeft, hd.attemptsOf_ne hw.inv hne]
    have hone : stepsLeft C ((Action.deliver m).run C w) (Delivery.settledTask C m w u) + 1 =
        stepsLeft C w u := by
      have hleft : (Delivery.settledTask C m w u).status ≠ .running :=
        WorkerStatus.settledTask_status_ne C m u _
      simp only [stepsLeft, ← hsame.id, hold, hnew, List.length_append, List.length_singleton,
        hd.running, hleft, ↓reduceIte]
    rw [Delivery.newTasks, hsets, embedTasks, List.map_nil, List.sum_nil] at hsteps
    refine ⟨?_, fun _ => ?_⟩
    · dsimp only
      omega
    · dsimp only
      omega
  · -- the chunker succeeds
    have hkind := hm hsets u hd.task hd.taskId
    have hone : fanOutsLeft (Delivery.settledTask C m w u) + 1 = fanOutsLeft u := by
      cases m with
      | failed => exact absurd rfl hsets
      | success =>
        simp [fanOutsLeft, hkind, hd.running, Delivery.settledTask, WorkerStatus.settledTask]
    refine ⟨?_, fun he => absurd he ?_⟩
    · dsimp only
      omega
    · dsimp only
      omega

/-- A status leaves the other runs alone. -/
theorem sameRun_delivered (hw : w.Sound C) (hd : Delivery m w a u x) (hne : u.dagRunId ≠ d) :
    SameRun d w ((Action.deliver m).run C w) := by
  have hsame := Delivery.settledTask_same C m w u
  have hrun : ∀ v ∈ w.tasks, v.id = u.id → v.dagRunId ≠ d := fun v hv hid =>
    Table.eq_of_key hd.task hv hid.symm ▸ hne
  refine ⟨?_, fun v hv => ?_⟩
  · have hnew : (Delivery.newTasks C m w u).filter (fun t => t.dagRunId = d) = [] :=
      List.filter_eq_nil_iff.mpr fun t ht => by
        obtain ⟨htd, _⟩ := mem_embedTasks ht
        simpa [htd] using hne
    rw [Store.listByDagRun, hd.rows_tasks hw.inv, List.filter_append, hnew, List.append_nil]
    refine Table.filter_rows_save_of_false ?_ fun v hv hid => ?_
    · simpa [← hsame.run] using hne
    · simpa using hrun v hv (hid.trans hsame.id.symm)
  · obtain ⟨hv, hvd⟩ := Store.mem_listByDagRun.mp hv
    exact hd.attemptsOf_ne hw.inv fun hid => hrun v hv hid hvd

end Delivery

/-! ### Any step -/

/-- Creating a run leaves the stored runs alone. -/
theorem sameRun_created {n : ℕ} {tenant : TenantId} {profile : String} {input : Json}
    (hw : w.Sound C) (hd : w.dagRuns.Has d) :
    SameRun d w (w.created C n tenant profile input) := by
  refine ⟨?_, fun t _ => by rw [Store.attemptsOf, created_taskRuns]; rfl⟩
  have hnew : (Planner.nextTasks C (.planner n) w tenant input).filter
      (fun t => t.dagRunId = d) = [] :=
    List.filter_eq_nil_iff.mpr fun t ht => by
      obtain ⟨htd, _⟩ := Planner.mem_plannedTasks ht
      have hne : Planner.nextRun C (.planner n) w ≠ d := fun he =>
        hw.inv.not_has_nextRun (.planner n) (he ▸ hd)
      simpa [htd] using hne
  rw [Store.listByDagRun, rows_created_tasks hw.inv, List.filter_append, hnew, List.append_nil]
  rfl

/-- The tasks of a new run. -/
theorem listByDagRun_created (n : ℕ) (tenant : TenantId) (profile : String) (input : Json)
    (hw : w.Sound C) : (w.created C n tenant profile input).listByDagRun
      (Planner.nextRun C (.planner n) w) = Planner.nextTasks C (.planner n) w tenant input := by
  have hold : w.tasks.rows.filter
      (fun t => t.dagRunId = Planner.nextRun C (.planner n) w) = [] :=
    List.filter_eq_nil_iff.mpr fun t ht he =>
      hw.inv.not_has_nextRun (.planner n) (of_decide_eq_true he ▸ hw.inv.runOf t ht)
  rw [Store.listByDagRun, rows_created_tasks hw.inv, List.filter_append, hold, List.nil_append]
  refine List.filter_eq_self.mpr fun t ht => ?_
  simpa using (Planner.mem_plannedTasks ht).1

/-- A step leaves a stored run alone or lowers its rank. -/
theorem sameRun_or_rank_lt (hw : w.Sound C) (hd : w.dagRuns.Has d) {a : Action}
    (he : a.Enabled w) (ha : a.Allowed (ChunkSetsOfChunker C) w) :
    SameRun d w (a.run C w) ∨ (a.run C w).rank C d < w.rank C d := by
  cases a with
  | create n tenant profile input => exact .inl (sameRun_created hw hd)
  | schedule limit =>
    rw [run_schedule_eq]
    refine (hw.scheduled (P := fun v => SameRun d w v ∨ v.rank C d < w.rank C d) limit
      (.inl (.refl d w)) fun v t hv ht _ h => ?_).imp (fun h => ⟨h.tasks, h.attempts⟩) id
    by_cases hrun : t.dagRunId = d
    · subst hrun
      refine .inr ((rank_dispatched hv ht).trans_le ?_)
      exact h.elim (fun h => (rank_sameRun h).le) le_of_lt
    · have hstep := sameRun_dispatched hv ht hrun
      exact h.imp (fun h => h.trans hstep) fun h => (rank_sameRun hstep).trans_lt h
  | deliver m =>
    rcases hw.inv.delivery_or he with hsame | ⟨a, u, x, hdel⟩
    · exact .inl (hsame.symm ▸ .refl d w)
    · by_cases hrun : u.dagRunId = d
      · subst hrun
        exact .inr (rank_delivered hw hdel (ha a hdel.run hdel.runId hdel.active))
      · exact .inl (sameRun_delivered hw hdel hrun)

end World

end Contexide.Workflow
