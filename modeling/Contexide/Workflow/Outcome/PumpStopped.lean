import Contexide.Workflow.Outcome.Pump

/-! What a pump leaves behind when one of its calls fails: the tasks dispatched
before are dispatched in full, and at most one task is dispatched in part. -/

namespace Contexide.Workflow

open Effects Storage Scheduler Messaging

/-- The world when the dispatch of a task stops at its call with index `n`: the
identifier is drawn before the save of the attempt, the next call is the save of
the task. -/
def World.dispatchedUntil (C : Config) (w : World) (t : Task) : ℕ → World
  | 0 => w
  | 1 => w.draw .pump
  | 2 => (w.draw .pump).putTaskRun
      (openedRun t ⟨C.ids.uuid .pump (w.drawn .pump)⟩ (w.listByTask t.id))
  | _ => ((w.draw .pump).putTaskRun
      (openedRun t ⟨C.ids.uuid .pump (w.drawn .pump)⟩ (w.listByTask t.id))).putTask
        { t with status := .running }

/-- How often the loop lists the tasks of a run before its first dispatch: once
for each run it meets up to the first ready task. -/
def World.listings (w : World) : List Task → List DagRunId → ℕ
  | [], _ => 0
  | t :: pending, seen =>
    (if t.dagRunId ∈ seen then 0 else 1) +
      if isReady t (w.listByDagRun t.dagRunId) then 0 else w.listings pending (t.dagRunId :: seen)

/-- The cache holds the tasks of the runs that were met and of no others. -/
structure World.Met (w : World) (seen : List DagRunId) (tasksByRun : DagRunId → List Task) :
    Prop where
  listed : ∀ d ∈ seen, tasksByRun d = w.listByDagRun d ∧ tasksByRun d ≠ []
  new : ∀ d, d ∉ seen → tasksByRun d = []

theorem World.Met.cons {w : World} {seen : List DagRunId} {tasksByRun : DagRunId → List Task}
    (h : w.Met seen tasksByRun) {d : DagRunId} (hne : w.listByDagRun d ≠ []) :
    w.Met (d :: seen) (Function.update tasksByRun d (w.listByDagRun d)) := by
  constructor
  · intro e he
    by_cases hed : e = d
    · subst hed
      rw [Function.update_self]
      exact ⟨rfl, hne⟩
    · rw [Function.update_of_ne hed]
      exact h.listed e ((List.mem_cons.mp he).resolve_left hed)
  · intro e he
    rw [List.mem_cons, not_or] at he
    rw [Function.update_of_ne he.1]
    exact h.new e he.2

/-- A pump that stops after the tasks `done`, or in the dispatch of the next one. -/
def World.PartlyDispatched (C : Config) (w : World) (batch : List Task) (w' : World) : Prop :=
  ∃ done rest, batch = done ++ rest ∧ (w' = w.dispatchedAll C done ∨
    ∃ t ts n, rest = t :: ts ∧ w' = (w.dispatchedAll C done).dispatchedUntil C t n)

namespace World.PartlyDispatched

variable {C : Config} {w w' : World} {t : Task} {batch : List Task}

theorem refl : w.PartlyDispatched C batch w := ⟨[], batch, rfl, .inl rfl⟩

theorem current (n : ℕ) : w.PartlyDispatched C (t :: batch) (w.dispatchedUntil C t n) :=
  ⟨[], t :: batch, rfl, .inr ⟨t, batch, n, rfl, rfl⟩⟩

theorem cons (h : (w.dispatched C t).PartlyDispatched C batch w') :
    w.PartlyDispatched C (t :: batch) w' := by
  obtain ⟨done, rest, rfl, hw'⟩ := h
  exact ⟨t :: done, rest, rfl, hw'⟩

end World.PartlyDispatched

namespace Scheduler

variable (C : Config) (w : World)

theorem stopAt_markDagRunning (d : DagRunId) (n : ℕ)
    (hn : (Program.stopAt (exec C .pump) Op.fallible n (markDagRunning d) w).1 = none) :
    (Program.stopAt (exec C .pump) Op.fallible n (markDagRunning d) w).2 = w := by
  have hunwritten : Program.Unwritten (exec C .pump) Op.fallible (markDagRunning d) w := by
    rw [markDagRunning]
    refine Program.Unwritten.bind_read rfl rfl rfl ?_
    rw [DagRuns.run_get]
    cases w.dagRuns.get d with
    | none => exact Program.unwritten_of_calls_le (Nat.zero_le _) rfl
    | some x =>
      dsimp only
      split
      · exact Program.unwritten_of_calls_le (Nat.le_refl _) rfl
      · exact Program.unwritten_of_calls_le (Nat.zero_le _) rfl
  exact hunwritten n hn

theorem stopAt_dispatch (t : Task) (n : ℕ)
    (hn : (Program.stopAt (exec C .pump) Op.fallible n (dispatch t) w).1 = none) :
    (Program.stopAt (exec C .pump) Op.fallible n (dispatch t) w).2 =
      w.dispatchedUntil C t n := by
  revert hn
  rw [dispatch]
  rcases n with _ | n
  · exact fun _ => rfl
  rw [Program.stopAt_bind_succ _ _ _ _ _ _ rfl, Program.stopAt_bind_zero _ _ _ _ _ _ rfl]
  rcases n with _ | n
  · exact fun _ => rfl
  rw [Program.stopAt_bind_succ _ _ _ _ _ _ rfl]
  rcases n with _ | n
  · exact fun _ => rfl
  rw [Program.stopAt_bind_succ _ _ _ _ _ _ rfl]
  simp only [TaskRuns.run_listByTask, run_newTaskRunId, TaskRuns.run_save, Tasks.run_save]
  by_cases hm : (Program.stopAt (exec C .pump) Op.fallible n (markDagRunning t.dagRunId)
      (w.dispatchedUntil C t (n + 3))).1 = none
  · rw [show World.putTask _ _ = w.dispatchedUntil C t (n + 3) from rfl,
      Program.stopAt_bind_none _ _ _ _ _ _ hm]
    exact fun _ => stopAt_markDagRunning C _ _ n hm
  · rw [show World.putTask _ _ = w.dispatchedUntil C t (n + 3) from rfl,
      Program.stopAt_bind_some _ _ _ _ _ _ hm, Program.stopAt_pure]
    simp

theorem stopAt_scheduleLoop (pending : List Task) (tasksByRun : DagRunId → List Task)
    (ready : List ReadyTask) (n : ℕ) (hlisted : ∀ t ∈ pending, w.Listed t)
    (hn : (pending.map Task.id).Nodup)
    (hcache : w.Cached tasksByRun)
    (hstop : (Program.stopAt (exec C .pump) Op.fallible n
      (scheduleLoop pending tasksByRun ready) w).1 = none) :
    w.PartlyDispatched C (pending.filter fun t => isReady t (w.listByDagRun t.dagRunId))
      (Program.stopAt (exec C .pump) Op.fallible n
        (scheduleLoop pending tasksByRun ready) w).2 := by
  induction pending generalizing w tasksByRun ready n with
  | nil => exact absurd hstop (by simp [scheduleLoop])
  | cons t pending ih =>
    have hn' := List.nodup_cons.mp hn
    have hrest : ∀ v ∈ pending, w.Listed v := fun v hv => hlisted v (List.mem_cons_of_mem _ hv)
    -- the stop is at the listing, or behind it with siblings that show the stages of the run
    obtain hlisting | ⟨siblings, k, heq, hstages⟩ :
        (Program.stopAt (exec C .pump) Op.fallible n
          (scheduleLoop (t :: pending) tasksByRun ready) w).2 = w ∨ ∃ siblings k,
        Program.stopAt (exec C .pump) Op.fallible n
          (scheduleLoop (t :: pending) tasksByRun ready) w =
          Program.stopAt (exec C .pump) Op.fallible k
            (afterListing t pending tasksByRun ready siblings) w ∧
        stages siblings = stages (w.listByDagRun t.dagRunId) := by
      by_cases he : tasksByRun t.dagRunId = []
      · rw [scheduleLoop_of_new he]
        rcases n with _ | n
        · exact .inl rfl
        · exact .inr ⟨w.listByDagRun t.dagRunId, n, rfl, rfl⟩
      · rw [scheduleLoop_of_cached he]
        exact .inr ⟨tasksByRun t.dagRunId, n, rfl, (hcache t.dagRunId).resolve_left he⟩
    · rw [hlisting]
      exact .refl
    have hcache' := hcache.update hstages
    rw [heq, afterListing] at hstop ⊢
    rw [List.filter_cons, ← isReady_congr hstages]
    cases hready : isReady t siblings with
    | false =>
      simp only [hready, Bool.false_eq_true, ↓reduceIte] at hstop ⊢
      exact ih w _ _ k hrest hn'.2 hcache' hstop
    | true =>
      simp only [hready, ↓reduceIte] at hstop ⊢
      by_cases hd : (Program.stopAt (exec C .pump) Op.fallible k (dispatch t) w).1 = none
      · rw [Program.stopAt_bind_none _ _ _ _ _ _ hd, stopAt_dispatch C w t k hd]
        exact .current k
      · rw [Program.stopAt_bind_some _ _ _ _ _ _ hd, run_dispatch] at hstop ⊢
        have hmoved : ∀ v ∈ pending, (w.dispatched C t).Listed v := fun v hv =>
          (hrest v hv).dispatched fun he => hn'.1 (he ▸ List.mem_map_of_mem hv)
        have hstages' := World.stages_dispatched (C := C) (hlisted t List.mem_cons_self)
        have hcached := hcache'.dispatched (C := C) (hlisted t List.mem_cons_self)
        have hp := ih (w.dispatched C t) _ _ _ hmoved hn'.2 hcached hstop
        rw [List.filter_congr fun v _ => isReady_congr (hstages' v.dagRunId)] at hp
        exact hp.cons

/-- Behind the listing of the pending tasks comes the loop, unless the listing is refused. -/
theorem stopAt_scheduleReadyTasks_succ (limit : Option ℕ) (n : ℕ) :
    (∃ e, w.listPending C.backend limit = .error e ∧
      Program.stopAt (exec C .pump) Op.fallible (n + 1) (scheduleReadyTasks limit) w =
        (some (.error e), w)) ∨
    Program.stopAt (exec C .pump) Op.fallible (n + 1) (scheduleReadyTasks limit) w =
      Program.stopAt (exec C .pump) Op.fallible n
        (scheduleLoop (w.listed C.backend limit) (fun _ => []) [] >>= fun ready =>
          pure (.ok ready)) w := by
  rw [scheduleReadyTasks, Program.stopAt_bind_succ _ _ _ _ _ _ rfl, Tasks.run_listPending]
  cases hlisting : w.listPending C.backend limit with
  | error e => exact .inl ⟨e, rfl, Program.stopAt_pure _ _ _ _ _⟩
  | ok pending => exact .inr (by rw [Store.listed, hlisting]; rfl)

theorem stopAt_scheduleReadyTasks (limit : Option ℕ) (n : ℕ)
    (hstop : (Program.stopAt (exec C .pump) Op.fallible n (scheduleReadyTasks limit) w).1 = none) :
    w.PartlyDispatched C (w.batch C limit)
      (Program.stopAt (exec C .pump) Op.fallible n (scheduleReadyTasks limit) w).2 := by
  rcases n with _ | n
  · exact .refl
  rcases stopAt_scheduleReadyTasks_succ C w limit n with ⟨e, -, hrefused⟩ | hloop
  · rw [hrefused] at hstop
    cases hstop
  · rw [hloop, Program.stopAt_bind_pure] at hstop ⊢
    exact stopAt_scheduleLoop C w _ _ _ n (fun t ht => listed_of_mem_listed w ht)
      (Store.nodup_listed _ _ _) .empty (Option.map_eq_none_iff.mp hstop)

/-- Up to the first dispatch the loop only lists the runs it meets. -/
theorem stopAt_scheduleLoop_first (pending : List Task) (tasksByRun : DagRunId → List Task)
    (ready : List ReadyTask) (seen : List DagRunId) (hlisted : ∀ t ∈ pending, w.Listed t)
    (hmet : w.Met seen tasksByRun)
    (hready : ∃ t ∈ pending, isReady t (w.listByDagRun t.dagRunId) = true) :
    ∃ t f, ∀ n,
      (n < w.listings pending seen → Program.stopAt (exec C .pump) Op.fallible n
        (scheduleLoop pending tasksByRun ready) w = (none, w)) ∧
      Program.stopAt (exec C .pump) Op.fallible (n + w.listings pending seen)
        (scheduleLoop pending tasksByRun ready) w =
        Program.stopAt (exec C .pump) Op.fallible n (dispatch t >>= f) w := by
  induction pending generalizing tasksByRun seen with
  | nil => simp at hready
  | cons t pending ih =>
    have ht := hlisted t List.mem_cons_self
    have hne : w.listByDagRun t.dagRunId ≠ [] := by
      obtain ⟨u, hu, hsame, _⟩ := ht
      exact List.ne_nil_of_mem (Store.mem_listByDagRun.mpr ⟨hu, hsame.run⟩)
    -- the listing of the siblings, unless they are cached
    obtain ⟨c, hc, hbefore, hafter⟩ : ∃ c,
        (c = if t.dagRunId ∈ seen then 0 else 1) ∧
        (∀ n < c, Program.stopAt (exec C .pump) Op.fallible n
          (scheduleLoop (t :: pending) tasksByRun ready) w = (none, w)) ∧
        ∀ n, Program.stopAt (exec C .pump) Op.fallible (n + c)
          (scheduleLoop (t :: pending) tasksByRun ready) w =
          Program.stopAt (exec C .pump) Op.fallible n
            (afterListing t pending tasksByRun ready (w.listByDagRun t.dagRunId)) w := by
      by_cases hs : t.dagRunId ∈ seen
      · obtain ⟨he, hn⟩ := hmet.listed _ hs
        rw [scheduleLoop_of_cached hn, he]
        exact ⟨0, (if_pos hs).symm, fun n hn => absurd hn (Nat.not_lt_zero n), fun n => rfl⟩
      · rw [scheduleLoop_of_new (hmet.new _ hs)]
        refine ⟨1, (if_neg hs).symm, fun n hn => ?_, fun n => rfl⟩
        obtain rfl : n = 0 := by omega
        rfl
    rw [afterListing] at hafter
    rw [World.listings, ← hc]
    cases hr : isReady t (w.listByDagRun t.dagRunId) with
    | true =>
      simp only [hr, ↓reduceIte] at hafter ⊢
      exact ⟨t, _, fun n => ⟨hbefore n, hafter n⟩⟩
    | false =>
      simp only [hr, Bool.false_eq_true, ↓reduceIte] at hafter ⊢
      obtain ⟨v, hv, hvr⟩ := hready
      have hv : v ∈ pending := (List.mem_cons.mp hv).resolve_left fun he => by
        rw [he, hr] at hvr
        exact absurd hvr (by simp)
      obtain ⟨u, f, hrest⟩ := ih (Function.update tasksByRun t.dagRunId (w.listByDagRun t.dagRunId))
        (t.dagRunId :: seen) (fun x hx => hlisted x (List.mem_cons_of_mem _ hx)) (hmet.cons hne)
        ⟨v, hv, hvr⟩
      refine ⟨u, f, fun n => ⟨fun hn => ?_, ?_⟩⟩
      · by_cases hn' : n < c
        · exact hbefore n hn'
        · obtain ⟨m, rfl⟩ : ∃ m, n = m + c := ⟨n - c, by omega⟩
          rw [hafter]
          exact (hrest m).1 (by omega)
      · rw [show n + (c + w.listings pending (t.dagRunId :: seen)) =
          n + w.listings pending (t.dagRunId :: seen) + c by omega, hafter]
        exact (hrest n).2

/-- The index of the first call of the first dispatch. -/
def firstDispatch (limit : Option ℕ) : ℕ := w.listings (w.listed C.backend limit) [] + 1

/-- Behind the listing of the pending tasks and of their runs comes a dispatch. -/
theorem stopAt_scheduleReadyTasks_first {limit : Option ℕ} (hbatch : w.batch C limit ≠ []) :
    ∃ t f, ∀ n, (n < firstDispatch C w limit → Program.stopAt (exec C .pump) Op.fallible n
        (scheduleReadyTasks limit) w = (none, w)) ∧
      Program.stopAt (exec C .pump) Op.fallible (n + firstDispatch C w limit)
        (scheduleReadyTasks limit) w =
        Program.stopAt (exec C .pump) Op.fallible n (dispatch t >>= f) w := by
  obtain ⟨t, ht⟩ := List.exists_mem_of_ne_nil _ hbatch
  obtain ⟨u, f, hfirst⟩ := stopAt_scheduleLoop_first C w (w.listed C.backend limit)
    (fun _ => []) [] [] (fun t ht => listed_of_mem_listed w ht) ⟨by simp, fun _ _ => rfl⟩
    ⟨t, (List.mem_filter.mp ht).1, (List.mem_filter.mp ht).2⟩
  -- a refused listing lists no task
  have hloop : ∀ n, Program.stopAt (exec C .pump) Op.fallible (n + 1) (scheduleReadyTasks limit) w =
      Program.stopAt (exec C .pump) Op.fallible n
        (scheduleLoop (w.listed C.backend limit) (fun _ => []) [] >>= fun ready =>
          pure (.ok ready)) w := by
    intro n
    rcases stopAt_scheduleReadyTasks_succ C w limit n with ⟨e, hrefused, -⟩ | hloop
    · rw [World.batch, Store.listed, hrefused] at hbatch
      exact absurd rfl hbatch
    · exact hloop
  refine ⟨u, fun r => f r >>= fun ready => pure (.ok ready), fun n => ⟨fun hn => ?_, ?_⟩⟩
  · rcases n with _ | n
    · rfl
    · have hstop := (hfirst n).1 (by unfold firstDispatch at hn; omega)
      rw [hloop, Program.stopAt_bind_pure, hstop]
      rfl
  · rw [firstDispatch, ← Nat.add_assoc, hloop, ← Program.bind_assoc, Program.stopAt_bind_pure,
      Program.stopAt_bind_pure, (hfirst n).2]

/-- Up to the save of the first attempt nothing is written. -/
theorem stopAt_scheduleReadyTasks_le {limit : Option ℕ} (hbatch : w.batch C limit ≠ []) {n : ℕ}
    (hn : n ≤ firstDispatch C w limit + 1) :
    ∃ v, Program.stopAt (exec C .pump) Op.fallible n (scheduleReadyTasks limit) w = (none, v) ∧
      v.toStore = w.toStore ∧ v.published = w.published := by
  obtain ⟨t, f, hfirst⟩ := stopAt_scheduleReadyTasks_first C w hbatch
  by_cases hlt : n < firstDispatch C w limit
  · exact ⟨w, (hfirst n).1 hlt, rfl, rfl⟩
  · obtain ⟨k, rfl⟩ : ∃ k, n = k + firstDispatch C w limit :=
      ⟨n - firstDispatch C w limit, by omega⟩
    rw [(hfirst k).2]
    obtain rfl | rfl : k = 0 ∨ k = 1 := by omega
    · exact ⟨w, rfl, rfl, rfl⟩
    · exact ⟨w.draw .pump, rfl, rfl, rfl⟩

/-- Behind it an attempt is stored. -/
theorem stopAt_scheduleReadyTasks_gt {limit : Option ℕ} (hbatch : w.batch C limit ≠ []) {n : ℕ}
    (hfresh : ¬ w.taskRuns.Has ⟨C.ids.uuid .pump (w.drawn .pump)⟩)
    (hn : firstDispatch C w limit + 1 < n) :
    w.taskRuns.rows.length < (Program.stopAt (exec C .pump) Op.fallible n
      (scheduleReadyTasks limit) w).2.taskRuns.rows.length := by
  obtain ⟨t, f, hfirst⟩ := stopAt_scheduleReadyTasks_first C w hbatch
  obtain ⟨k, rfl⟩ : ∃ k, n = k + 2 + firstDispatch C w limit :=
    ⟨n - 2 - firstDispatch C w limit, by omega⟩
  rw [(hfirst (k + 2)).2]
  -- the attempt is the second call of the dispatch; no later call removes rows
  refine Program.stopAt_keeps (P := fun v => w.taskRuns.rows.length < v.taskRuns.rows.length)
    (exec C .pump) Op.fallible (fun op v hv => ?_) (Program.bind _ _) k
    ((w.draw .pump).putTaskRun
      (openedRun t ⟨C.ids.uuid .pump (w.drawn .pump)⟩ (w.listByTask t.id))) ?_
  · cases op with
    | taskRunSave r => exact hv.trans_le (length_le_upsert _ _ _)
    | _ => exact hv
  · change w.taskRuns.rows.length < (w.taskRuns.save _).rows.length
    rw [Table.rows_save_of_not_has hfresh, List.length_append]
    simp

end Scheduler

theorem length_readyTasks (C : Config) (k : ℕ) (ts : List Task) :
    (readyTasks C k ts).length = ts.length := by
  induction ts generalizing k with
  | nil => rfl
  | cons t ts ih => rw [readyTasks, List.length_cons, ih, List.length_cons]

namespace Messaging

variable (C : Config) (w : World)

theorem stopAt_publishAll (ready : List ReadyTask) (n : ℕ)
    (hstop : (Program.stopAt (exec C .pump) Op.fallible n (publishAll ready) w).1 = none) :
    n < ready.length ∧ (Program.stopAt (exec C .pump) Op.fallible n (publishAll ready) w).2 =
      w.announced (ready.take n) := by
  induction ready generalizing n w with
  | nil => exact absurd hstop (by simp [publishAll])
  | cons r ready ih =>
    rw [publishAll] at hstop ⊢
    rcases n with _ | n
    · exact ⟨by simp, by simp [World.announced]; rfl⟩
    · rw [Program.stopAt_bind_succ _ _ _ _ _ _ rfl] at hstop ⊢
      obtain ⟨hn, hw⟩ := ih _ n hstop
      exact ⟨by simpa using hn, by rw [hw]; simp [World.announced]⟩

/-- A pump stops while it schedules, or behind that while it publishes. -/
theorem stopAt_pumpRequests (limit : Option ℕ) (n : ℕ) (w' : World)
    (hstop : Program.stopAt (exec C .pump) Op.fallible n (pumpRequests limit) w = (none, w')) :
    Program.stopAt (exec C .pump) Op.fallible n (scheduleReadyTasks limit) w = (none, w') ∨
      ∃ j < (w.batch C limit).length, w' = (w.dispatchedAll C (w.batch C limit)).announced
        ((readyTasks C (w.drawn .pump) (w.batch C limit)).take j) := by
  rw [pumpRequests] at hstop
  by_cases hs : (Program.stopAt (exec C .pump) Op.fallible n (scheduleReadyTasks limit) w).1 = none
  · rw [Program.stopAt_bind_none _ _ _ _ _ _ hs] at hstop
    exact .inl (Prod.ext hs (Prod.mk.inj hstop).2)
  · rw [Program.stopAt_bind_some _ _ _ _ _ _ hs, run_scheduleReadyTasks] at hstop
    cases hlisting : w.listPending C.backend limit with
    | error e =>
      rw [hlisting] at hstop
      exact absurd (congrArg Prod.fst hstop) (by simp [Except.map])
    | ok pending =>
      simp only [hlisting, Except.map, Program.stopAt_bind_pure] at hstop
      obtain ⟨hn, hw⟩ := stopAt_publishAll C _ _ _
        (Option.map_eq_none_iff.mp (congrArg Prod.fst hstop))
      rw [congrArg Prod.snd hstop] at hw
      rw [length_readyTasks] at hn
      exact .inr ⟨_, hn, hw⟩

end Messaging

end Contexide.Workflow
