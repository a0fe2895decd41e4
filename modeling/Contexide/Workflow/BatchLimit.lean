import Contexide.Workflow.Steps

/-! A limited pump looks at the first pending tasks only, ready or not, so blocked
tasks that are listed first can hide every ready one. How many pending tasks are
listed before a task decides whether a limited pump sees it. -/

namespace Contexide.Workflow

open Effects Storage Scheduler

/-- In a strictly increasing list, what is smaller than an element comes before it. -/
theorem filter_lt_of_increasing {α : Type} {f : α → ℕ} {before after : List α} {x : α}
    (h : (before ++ x :: after).Pairwise fun a b => f a < f b) :
    (before ++ x :: after).filter (fun a => f a < f x) = before := by
  obtain ⟨_, hafter, hbefore⟩ := List.pairwise_append.mp h
  rw [List.filter_append, List.filter_eq_self.mpr, List.filter_eq_nil_iff.mpr, List.append_nil]
  · intro a ha
    rcases List.mem_cons.mp ha with rfl | ha
    · simp
    · have := (List.pairwise_cons.mp hafter).1 a ha
      simp only [decide_eq_true_eq]
      omega
  · intro a ha
    simpa using hbefore a ha x List.mem_cons_self

/-- With different elements, an element is among the first ones exactly when few
elements come before it. -/
theorem mem_take_append_cons {α : Type} {before after : List α} {x : α} (hx : x ∉ before) (n : ℕ) :
    x ∈ (before ++ x :: after).take n ↔ before.length < n := by
  rw [List.take_append, List.mem_append]
  constructor
  · rintro (h | h)
    · exact absurd (List.mem_of_mem_take h) hx
    · by_contra hle
      rw [Nat.sub_eq_zero_of_le (by omega), List.take_zero] at h
      exact absurd h List.not_mem_nil
  · intro h
    obtain ⟨k, hk⟩ := Nat.exists_eq_add_of_lt h
    refine .inr ?_
    rw [show n - before.length = k + 1 by omega, List.take_succ_cons]
    exact List.mem_cons_self

namespace Store

/-- The pending tasks that are listed before a task: those with smaller identifiers in
memory, those created earlier in Postgres. -/
def ahead (b : Backend) (s : Store) (t : Task) : List Task :=
  match b with
  | .mem => s.tasks.rows.filter fun u => u.status = .pending ∧ u.id.uuid < t.id.uuid
  | .pg => (s.tasks.rows.takeWhile fun u => u.id ≠ t.id).filter fun u => u.status = .pending

variable {b : Backend} {s : Store} {t : Task}

/-- In memory the listing is strictly increasing. -/
theorem pending_mem_increasing (s : Store) :
    (s.pending .mem).Pairwise fun t u => t.id.uuid < u.id.uuid := by
  have hsorted : (s.pending .mem).Pairwise fun t u => t.id.uuid ≤ u.id.uuid :=
    List.pairwise_insertionSort _ _
  have hdistinct := List.pairwise_map.mp (nodup_pending .mem s)
  exact (hsorted.and hdistinct).imp fun h => lt_of_le_of_ne h.1 fun he => h.2 (TaskId.ext he)

/-- The listing up to a task. -/
theorem pending_split (b : Backend) (ht : t ∈ s.tasks) (hs : t.status = .pending) :
    ∃ before after, s.pending b = before ++ pendingView b t :: after ∧
      before.length = (s.ahead b t).length := by
  cases b with
  | mem =>
    obtain ⟨before, after, hsplit⟩ := List.append_of_mem (mem_pending (b := .mem) ht hs)
    refine ⟨before, after, hsplit, ?_⟩
    have hsorted := pending_mem_increasing s
    rw [hsplit] at hsorted
    have hbefore := filter_lt_of_increasing hsorted
    have hperm := (pending_perm .mem s).filter fun u => u.id.uuid < t.id.uuid
    rw [hsplit, show pendingView .mem = id from rfl, List.map_id, List.filter_filter] at hperm
    rw [← hbefore]
    refine hperm.length_eq.trans ?_
    simp only [ahead, Bool.decide_and, Bool.and_comm]
  | pg =>
    obtain ⟨before, after, hsplit⟩ := List.append_of_mem ht
    have hnew : ∀ u ∈ before, u.id ≠ t.id := by
      have hnodup := s.tasks.nodup
      rw [hsplit, List.map_append, List.map_cons] at hnodup
      exact fun u hu he => (List.nodup_append.mp hnodup).2.2 _ (List.mem_map_of_mem hu) _
        List.mem_cons_self he
    refine ⟨(before.filter fun u => u.status = .pending).map pendingRow,
      (after.filter fun u => u.status = .pending).map pendingRow, ?_, ?_⟩
    · simp [pending, hsplit, hs, pendingView]
    · have hahead : s.tasks.rows.takeWhile (fun u => u.id ≠ t.id) = before := by
        rw [hsplit, List.takeWhile_append_of_pos fun u hu => by simpa using hnew u hu,
          List.takeWhile_cons_of_neg (by simp), List.append_nil]
      rw [List.length_map, ahead, hahead]

/-- A limited listing shows the tasks with few tasks listed before them, unless its limit is
refused. -/
theorem mem_listed_some (b : Backend) (ht : t ∈ s.tasks) (hs : t.status = .pending) (n : ℕ) :
    pendingView b t ∈ s.listed b (some n) ↔
      ∃ lim, b.bindLimit n = .ok lim ∧ (s.ahead b t).length < lim := by
  obtain ⟨before, after, hsplit, hlen⟩ := pending_split b ht hs
  have hnew : pendingView b t ∉ before := by
    have hnodup := (nodup_pending b s).of_map
    rw [hsplit] at hnodup
    exact fun hmem => (List.nodup_append.mp hnodup).2.2 _ hmem _ List.mem_cons_self rfl
  rw [listed_some]
  cases b.bindLimit n with
  | error e => simp
  | ok lim =>
    simp only [Except.ok.injEq, exists_eq_left']
    rw [hsplit, mem_take_append_cons hnew, hlen]

end Store

variable {C : Config} {w : World}

theorem isReady_pendingView (b : Backend) (t : Task) (siblings : List Task) :
    isReady (Store.pendingView b t) siblings = isReady t siblings := by
  cases b <;> rfl

namespace World

/-- A pump that looks at `n` tasks returns a task whenever some pending one is ready. -/
def Unstarved (C : Config) (n : ℕ) (w : World) : Prop :=
  (∃ t ∈ w.tasks, t.status = .pending ∧ isReady t (w.listByDagRun t.dagRunId) = true) →
    returned ((scheduleReadyTasks (some n)).run (exec C .pump) w).1 ≠ []

/-- When a pending task is ready, the limit is not refused, and a pending task is ready that
has fewer pending tasks listed before it than the limit. -/
def ReadyInReach (C : Config) (n : ℕ) (w : World) : Prop :=
  (∃ t ∈ w.tasks, t.status = .pending ∧ isReady t (w.listByDagRun t.dagRunId) = true) →
    ∃ lim, C.backend.bindLimit n = .ok lim ∧
      ∃ t ∈ w.tasks, t.status = .pending ∧ isReady t (w.listByDagRun t.dagRunId) = true ∧
        (w.ahead C.backend t).length < lim

/-- For the limits that a `usize` can be: in memory, or below `2 ^ 63`, and a ready task is
among the first `n` pending ones. -/
theorem readyInReach_usize {n : ℕ} (hn : n < 2 ^ 64) :
    w.ReadyInReach C n ↔
      ((∃ t ∈ w.tasks, t.status = .pending ∧ isReady t (w.listByDagRun t.dagRunId) = true) →
        (C.backend = .mem ∨ n < 2 ^ 63) ∧
          ∃ t ∈ w.tasks, t.status = .pending ∧ isReady t (w.listByDagRun t.dagRunId) = true ∧
            (w.ahead C.backend t).length < n) := by
  rw [ReadyInReach, Backend.bindLimit_usize _ hn]
  by_cases hbound : C.backend = .mem ∨ n < 2 ^ 63
  · simp only [hbound, if_true, Except.ok.injEq, exists_eq_left', true_and]
  · simp only [hbound, if_false, reduceCtorEq, false_and, exists_false]

/-- The tasks of a limited batch. -/
theorem exists_mem_batch_some (C : Config) (n : ℕ) (w : World) :
    w.batch C (some n) ≠ [] ↔ ∃ lim, C.backend.bindLimit n = .ok lim ∧
      ∃ t ∈ w.tasks, t.status = .pending ∧ isReady t (w.listByDagRun t.dagRunId) = true ∧
        (w.ahead C.backend t).length < lim := by
  constructor
  · intro h
    obtain ⟨v, hv⟩ := List.exists_mem_of_ne_nil _ h
    obtain ⟨hlisted, hready⟩ := List.mem_filter.mp hv
    obtain ⟨t, ht, rfl, hs⟩ := Store.of_mem_listed hlisted
    rw [isReady_pendingView, ← (Store.pendingView_same _ t).run] at hready
    obtain ⟨lim, hlim, hahead⟩ := (Store.mem_listed_some _ ht hs n).mp hlisted
    exact ⟨lim, hlim, t, ht, hs, hready, hahead⟩
  · rintro ⟨lim, hlim, t, ht, hs, hready, hahead⟩
    apply List.ne_nil_of_mem (a := Store.pendingView C.backend t)
    refine List.mem_filter.mpr ⟨?_, ?_⟩
    · exact (Store.mem_listed_some _ ht hs n).mpr ⟨lim, hlim, hahead⟩
    · rwa [isReady_pendingView, ← (Store.pendingView_same _ t).run]

theorem unstarved_iff_readyInReach (C : Config) (n : ℕ) (w : World) :
    w.Unstarved C n ↔ w.ReadyInReach C n := by
  have hreturned : returned ((scheduleReadyTasks (some n)).run (exec C .pump) w).1 ≠ [] ↔
      w.batch C (some n) ≠ [] := by
    rw [returned_scheduleReadyTasks]
    cases w.batch C (some n) <;> simp [readyTasks]
  rw [Unstarved, ReadyInReach, hreturned, exists_mem_batch_some]

end World

/-- In a run, pumps that look at `n` tasks never miss that some task is ready, exactly
when in every world of the run that has one the limit is not refused and a ready task is
among the first pending ones. -/
theorem unstarved_run_iff (C : Config) (n : ℕ) (steps : List (World × Action)) (w : World) :
    Execution C steps w →
    ((∀ v ∈ w :: steps.map Prod.fst, v.Unstarved C n) ↔
      ∀ v ∈ w :: steps.map Prod.fst, v.ReadyInReach C n) := by
  intro _
  simp only [World.unstarved_iff_readyInReach]

/-- A pump looks at `n` tasks; other steps do not care. -/
def Action.Limited (n : ℕ) : Action → Prop
  | .schedule limit => limit = some n
  | _ => True

instance (n : ℕ) : DecidablePred (Action.Limited n)
  | .schedule limit => inferInstanceAs (Decidable (limit = some n))
  | .create .. => .isTrue trivial
  | .deliver _ => .isTrue trivial

/-- The first run fails for good, then a second one is created. -/
def failedThenCreated : List Action :=
  [.create 0 ⟨0⟩ "default" .null, .schedule (some 1),
    .deliver (.failed ⟨0⟩ ⟨6⟩ ⟨7⟩ ⟨0⟩ "unreadable" none), .create 1 ⟨0⟩ "default" .null]

theorem failedThenCreated_execution :
    Execution (.paired 1) (Action.history (.paired 1) failedThenCreated World.empty [])
      (Action.runAll (.paired 1) failedThenCreated World.empty) :=
  Execution.nil.runAll _ (by decide)

theorem unstarved_run_iff_failed :
    let steps := Action.history (.paired 1) failedThenCreated World.empty []
    let w := Action.runAll (.paired 1) failedThenCreated World.empty
    (∀ v ∈ w :: steps.map Prod.fst, v.Unstarved (.paired 1) 5) ↔
      ∀ v ∈ w :: steps.map Prod.fst, v.ReadyInReach (.paired 1) 5 :=
  unstarved_run_iff _ 5 _ _ failedThenCreated_execution

/-- The blocked normalizer of a failed run hides the ready extractor of the next run. -/
theorem blocked_task_starves : ¬ ∀ (C : Config) (n : ℕ) (steps : List (World × Action)) (w : World),
    1 ≤ n → Execution C steps w → (∀ s ∈ steps, s.2.Limited n) → w.Unstarved C n := by
  intro h
  have hstarved := h (.paired 1) 1 _ _ (by decide) failedThenCreated_execution (by decide)
  refine hstarved ?_ (List.eq_nil_of_length_eq_zero (by decide))
  change ∃ t ∈ (Action.runAll (.paired 1) failedThenCreated World.empty).tasks.rows, _
  decide

end Contexide.Workflow
