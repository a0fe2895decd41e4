import Contexide.Workflow.Steps

/-! The attempt ledger: how the status of a task and its attempts determine each
other between operations, and for which retry policies the attempts are numbered
from zero upwards. Attempt numbers are signed 32-bit integers while the policy
counts attempts in an unsigned one, so a policy with more than `2 ^ 31` attempts
lets the numbers wrap around. -/

namespace Contexide.Workflow

open Effects Storage Scheduler World

/-- What the ledger says of a task that may be tried `M` times and its attempts
in the order of their creation. -/
structure LedgerEntry (M : ℕ) (s : TaskStatus) (rs : List TaskRun) : Prop where
  numbers : rs.map (fun r => r.attemptNo.toInt) = (List.range rs.length).map Int.ofNat
  bounded : rs.length ≤ max 1 M
  running : s = .running ↔ rs.countP (fun r => !r.status.isTerminal) = 1
  success : s = .success ↔ ∃ init r, rs = init ++ [r] ∧ r.status = .success ∧ AllFailed init
  failed : s = .failed ↔ rs.length = max 1 M ∧ AllFailed rs
  pending : s = .pending ↔ AllFailed rs ∧ (rs.length = 0 ∨ rs.length < M)

theorem AllFailed.countP_eq_zero {rs : List TaskRun} (h : AllFailed rs) :
    rs.countP (fun r => !r.status.isTerminal) = 0 := by
  rw [List.countP_eq_zero]
  intro r hr
  simp [h r hr, TaskRunStatus.isTerminal]

theorem AllFailed.ne_of_append {rs : List TaskRun} {r : TaskRun} (h : AllFailed (rs ++ [r])) :
    r.status = .failed := h r (List.mem_append_right _ (List.mem_singleton_self _))

theorem AllFailed.not_success {rs : List TaskRun} (h : AllFailed rs) :
    ¬ ∃ init r, rs = init ++ [r] ∧ r.status = .success ∧ AllFailed init := by
  rintro ⟨init, r, rfl, hr, -⟩
  rw [h.ne_of_append] at hr
  cases hr

/-- Only the last attempt after failed ones can be unfinished. -/
theorem AllFailed.countP_append {init : List TaskRun} (hf : AllFailed init) (r : TaskRun) :
    (init ++ [r]).countP (fun r => !r.status.isTerminal) =
      if r.status.isTerminal then 0 else 1 := by
  rw [List.countP_append, hf.countP_eq_zero, List.countP_singleton, Nat.zero_add]
  cases r.status.isTerminal <;> rfl

theorem not_allFailed_append {init : List TaskRun} {r : TaskRun} (hr : r.status ≠ .failed) :
    ¬ AllFailed (init ++ [r]) := fun h => hr h.ne_of_append

/-- A task at rest obeys the ledger, its attempts being numbered. -/
theorem Rest.ledgerEntry {M : ℕ} {s : TaskStatus} {rs : List TaskRun} (h : Rest (max 1 M) s rs)
    (hn : rs.map (fun r => r.attemptNo.toInt) = (List.range rs.length).map Int.ofNat) :
    LedgerEntry M s rs := by
  cases h with
  | waiting hf hl =>
    exact {
      numbers := hn
      bounded := by omega
      running := by simp [hf.countP_eq_zero]
      success := iff_of_false (by simp) hf.not_success
      failed := iff_of_false (by simp) fun h => by omega
      pending := iff_of_true rfl ⟨hf, by omega⟩ }
  | @active init r hf hr hl =>
    have hnf : ¬ AllFailed (init ++ [r]) := not_allFailed_append (by rw [hr]; decide)
    exact {
      numbers := hn
      bounded := by simpa using Nat.succ_le_of_lt hl
      running := iff_of_true rfl (by rw [hf.countP_append, hr]; rfl)
      success := by
        refine iff_of_false (by simp) ?_
        rintro ⟨init', r', he, hr', -⟩
        rw [← List.singleton_injective (List.append_inj_right' he rfl), hr] at hr'
        cases hr'
      failed := iff_of_false (by simp) fun h => hnf h.2
      pending := iff_of_false (by simp) fun h => hnf h.1 }
  | @done init r hf hr hl =>
    have hnf : ¬ AllFailed (init ++ [r]) := not_allFailed_append (by rw [hr]; decide)
    exact {
      numbers := hn
      bounded := by simpa using Nat.succ_le_of_lt hl
      running := iff_of_false (by simp) (by rw [hf.countP_append, hr]; decide)
      success := iff_of_true rfl ⟨init, r, rfl, hr, hf⟩
      failed := iff_of_false (by simp) fun h => hnf h.2
      pending := iff_of_false (by simp) fun h => hnf h.1 }
  | exhausted hf hl =>
    exact {
      numbers := hn
      bounded := by omega
      running := by simp [hf.countP_eq_zero]
      success := iff_of_false (by simp) hf.not_success
      failed := iff_of_true rfl ⟨hl, hf⟩
      pending := iff_of_false (by simp) fun h => by omega }

variable {C : Config} {w : World}

/-- Attempt numbers that fit are the positions of the attempts. -/
theorem numbers_of_length_le (hw : w.Inv C) (id : TaskId) (hl : (w.attemptsOf id).length ≤ 2 ^ 31) :
    (w.attemptsOf id).map (fun r => r.attemptNo.toInt) =
      (List.range (w.attemptsOf id).length).map Int.ofNat := by
  have hn := congrArg (List.map Int32.toInt) (hw.numbered id)
  rw [List.map_map, List.map_map] at hn
  refine hn.trans (List.map_congr_left fun k hk => ?_)
  have := List.mem_range.mp hk
  exact Int32.toInt_ofNat_of_lt (by omega)

theorem World.Sound.ledgerEntry (hw : w.Sound C) (hM : C.retryPolicy.maxAttempts.toNat ≤ 2 ^ 31)
    {t : Task} (ht : t ∈ w.tasks) :
    LedgerEntry C.retryPolicy.maxAttempts.toNat t.status (w.attemptsOf t.id) := by
  refine Rest.ledgerEntry (hw.rest ht) (numbers_of_length_le hw.inv t.id ?_)
  have := (hw.inv.phase t ht).length_le
  unfold Config.cap at this
  omega

/-- A settled attempt and a task that succeeded or failed are never saved again. -/
theorem World.Later.settled {w' : World} (hl : w.Later C w') (hw : w.Reachable C) :
    (∀ r ∈ w.taskRuns, r.status.isTerminal = true → r ∈ w'.taskRuns) ∧
      ∀ t ∈ w.tasks, t.status = .success ∨ t.status = .failed → t ∈ w'.tasks := by
  refine ⟨fun r hr hs => ?_, fun t ht hs => ?_⟩
  · refine hl.keeps hw (P := fun w => r ∈ w.taskRuns) (fun i op T _ hr hp => ?_) hr
    refine taskRun_kept hr fun hk => ?_
    obtain ⟨_, hrun, _⟩ := taskRun_written hp hr hk
    rw [hs] at hrun
    exact absurd hrun (by simp)
  · refine hl.keeps hw (P := fun w => t ∈ w.tasks) (fun i op T _ ht hp => ?_) ht
    refine task_kept ht fun hk => ?_
    rcases task_written hp ht hk with ⟨_, he⟩ | ⟨_, he, _⟩ <;> rw [he] at hs <;> simp at hs

/-! ### Tasks that failed often -/

/-- A pump opens an attempt of a pending task of the first stage. -/
theorem schedule_pending (hw : w.Sound C) {t : Task} (ht : t ∈ w.tasks)
    (hk : orderingForKind t.kind = 0) (hs : t.status = .pending) :
    ∃ q ∈ ((Action.schedule none).run C w).published,
      ∃ a : TaskRun, ∃ v ∈ ((Action.schedule none).run C w).tasks,
        a.id.uuid = q.2.taskRunId ∧ a.status = .running ∧ v.id = t.id ∧ v.kind = t.kind ∧
        ((Action.schedule none).run C w).attemptsOf t.id = w.attemptsOf t.id ++ [a] := by
  have hsame := Store.pendingView_same C.backend t
  have hbatch : Store.pendingView C.backend t ∈ w.batch C none := by
    refine List.mem_filter.mpr ⟨Store.mem_pending ht hs, ?_⟩
    simp [isReady, ← hsame.kind, Store.pendingView_status, hs, hk]
  obtain ⟨k, a, hready, haid, harun, hatt, hmem⟩ := (hw.scheduling none).opened hbatch
  obtain ⟨q, hq, hqr⟩ := published_schedule hready
  rw [← hsame.id] at hatt
  refine ⟨q, hq, a, { Store.pendingView C.backend t with status := .running }, ?_,
    by rw [haid, hqr]; rfl, harun, hsame.id.symm, hsame.kind.symm, ?_⟩
  · rw [run_schedule_eq]
    exact hmem
  · rw [run_schedule_eq]
    exact hatt

/-- The worker that got the request answers with a failure: the task is pending
again when the policy allows another attempt. -/
theorem fail_attempt (hw : w.Sound C) {q : String × WorkerRequest} (hq : q ∈ w.published)
    {a : TaskRun} {v : Task} {init : List TaskRun} (hv : v ∈ w.tasks)
    (haid : a.id.uuid = q.2.taskRunId) (harun : a.status = .running)
    (hatt : w.attemptsOf v.id = init ++ [a]) (hcap : init.length + 1 < C.cap) :
    ∃ v' ∈ ((Action.deliver (q.2.failed "")).run C w).tasks, v'.kind = v.kind ∧
      v'.status = .pending ∧
      (((Action.deliver (q.2.failed "")).run C w).attemptsOf v'.id).length = init.length + 1 := by
  have hecho := echoed_failed hq ""
  obtain ⟨ha, hat⟩ := Store.mem_attemptsOf.mp (show a ∈ w.attemptsOf v.id by rw [hatt]; simp)
  obtain ⟨u, x, hd⟩ := hw.inv.delivery hecho ha (TaskRunId.ext haid) (by rw [harun]; rfl)
  obtain rfl : u = v := Table.eq_of_key hd.task hv (hd.ofTask.symm.trans hat)
  obtain ⟨init', hinit, hf, _, hinit'⟩ := hd.attemptsOf_self hw.inv
  obtain ⟨rfl, _⟩ := List.append_inj' (hinit.symm.trans hatt) rfl
  have hsame := Delivery.settledTask_same C (q.2.failed "") w u
  have hmem := (hd.mem_tasks hw.inv).mpr (.inl rfl)
  rw [hsame.id] at hinit'
  have hrest := (hw.run (a := .deliver (q.2.failed "")) hecho).rest hmem
  rw [hinit'] at hrest
  refine ⟨_, hmem, hsame.kind.symm, ?_, ?_⟩
  · exact hrest.pending_of_allFailed (hf.append rfl) (by simpa using hcap)
  · rw [hinit']
    simp

/-- As long as the policy allows, a task can be pending after `n` failed attempts. -/
theorem exists_pending_after (C : Config) (n : ℕ) (hn : n < C.cap) :
    ∃ w : World, w.Reachable C ∧ ∃ t ∈ w.tasks, orderingForKind t.kind = 0 ∧ t.status = .pending ∧
      (w.attemptsOf t.id).length = n := by
  induction n with
  | zero =>
    have hw := (Reachable.empty C).run (.create 0 ⟨0⟩ "" .null) trivial
    refine ⟨_, hw, Planner.plannedTask ⟨C.ids.uuid (.planner 0) 1⟩
      (Planner.nextRun C (.planner 0) World.empty) ⟨0⟩ "extractor" .null, ?_, rfl, rfl, rfl⟩
    change _ ∈ (World.empty.created C 0 ⟨0⟩ "" .null).tasks
    rw [Table.mem_def, rows_created_tasks (inv_empty C)]
    exact List.mem_append_right _ List.mem_cons_self
  | succ n ih =>
    obtain ⟨w, hw, t, ht, hk, hs, hlen⟩ := ih (by omega)
    obtain ⟨q, hq, a, v, hv, haid, harun, hvid, hvk, hatt⟩ := schedule_pending hw.sound ht hk hs
    have hw' := hw.run (.schedule none) trivial
    obtain ⟨v', hv', hvk', hvs', hvl⟩ := fail_attempt hw'.sound hq hv haid harun
      (by rw [hvid]; exact hatt) (by omega)
    exact ⟨_, hw'.run (.deliver _) (echoed_failed hq ""), v', hv', by rw [hvk', hvk, hk], hvs',
      by rw [hvl, hlen]⟩

/-- With more than `2 ^ 31` attempts the attempt numbers wrap around. -/
theorem exists_not_ledgerEntry (hM : 2 ^ 31 < C.retryPolicy.maxAttempts.toNat) :
    ∃ w : World, w.Reachable C ∧ ∃ t ∈ w.tasks,
      ¬ LedgerEntry C.retryPolicy.maxAttempts.toNat t.status (w.attemptsOf t.id) := by
  obtain ⟨w, hw, t, ht, hk, hs, hlen⟩ :=
    exists_pending_after C (2 ^ 31) (by unfold Config.cap; omega)
  obtain ⟨q, _, a, v, hv, _, _, hvid, _, hatt⟩ := schedule_pending hw.sound ht hk hs
  have hw' := hw.run (.schedule none) trivial
  refine ⟨_, hw', v, hv, fun hl => ?_⟩
  have hnum := hl.numbers
  have hold := congrArg (List.map Int32.toInt) (hw'.sound.inv.numbered v.id)
  rw [List.map_map, List.map_map] at hold
  rw [show (fun r : TaskRun => r.attemptNo.toInt) = Int32.toInt ∘ TaskRun.attemptNo from rfl,
    hold, List.map_inj_left] at hnum
  have hmem : 2 ^ 31 ∈ List.range (((Action.schedule none).run C w).attemptsOf v.id).length := by
    rw [hvid, hatt, List.mem_range, List.length_append, hlen]
    simp
  exact absurd (hnum _ hmem) (by decide)

/-- The ledger holds in every execution exactly when the policy allows at most
`2 ^ 31` attempts. -/
theorem ledger_iff (C : Config) :
    (∀ w : World, w.Reachable C →
      (∀ t ∈ w.tasks,
        LedgerEntry C.retryPolicy.maxAttempts.toNat t.status (w.attemptsOf t.id)) ∧
      ∀ w', w.Later C w' →
        (∀ r ∈ w.taskRuns, r.status.isTerminal = true → r ∈ w'.taskRuns) ∧
        ∀ t ∈ w.tasks, t.status = .success ∨ t.status = .failed → t ∈ w'.tasks) ↔
      C.retryPolicy.maxAttempts.toNat ≤ 2 ^ 31 := by
  constructor
  · intro h
    by_contra hM
    obtain ⟨w, hw, t, ht, hl⟩ := exists_not_ledgerEntry (C := C) (by omega)
    exact hl ((h w hw).1 t ht)
  · exact fun hM w hw => ⟨fun t ht => hw.sound.ledgerEntry hM ht, fun w' hl => hl.settled hw⟩

/-- A policy of `2 ^ 31 + 1` attempts breaks the ledger. -/
theorem ledger_wraps : ¬ ∀ w : World, w.Reachable (.paired 2147483649) →
    ∀ t ∈ w.tasks, LedgerEntry 2147483649 t.status (w.attemptsOf t.id) := by
  intro h
  obtain ⟨w, hw, t, ht, hl⟩ := exists_not_ledgerEntry (C := .paired 2147483649) (by decide)
  exact hl (h w hw t ht)

end Contexide.Workflow
