import Contexide.Workflow.Repositories

/-! The attempts of a task and the life of a task. A task waits, its attempt is
opened and then started, the attempt is settled and then the task: these are
the only combinations of a task status with the statuses of its attempts that
occur between two repository calls. The two intermediate phases `opened` and
`settling` exist only inside the pump and inside the status handler. -/

namespace Contexide.Workflow

open Storage

/-- The attempts of a task in the order of their creation. -/
def Store.attemptsOf (s : Store) (t : TaskId) : List TaskRun :=
  s.taskRuns.rows.filter fun r => r.taskId = t

theorem Store.mem_attemptsOf {s : Store} {t : TaskId} {r : TaskRun} :
    r ∈ s.attemptsOf t ↔ r ∈ s.taskRuns ∧ r.taskId = t := by
  simp [attemptsOf, Table.mem_def]

theorem Store.listByTask_perm (s : Store) (t : TaskId) : (s.listByTask t).Perm (s.attemptsOf t) :=
  List.perm_insertionSort _ _

theorem Store.listByTask_length (s : Store) (t : TaskId) :
    (s.listByTask t).length = (s.attemptsOf t).length := (s.listByTask_perm t).length_eq

/-- Every attempt of the list has failed. -/
def AllFailed (rs : List TaskRun) : Prop := ∀ r ∈ rs, r.status = .failed

theorem AllFailed.append {rs : List TaskRun} {r : TaskRun} (h : AllFailed rs)
    (hr : r.status = .failed) : AllFailed (rs ++ [r]) := by
  intro x hx
  rcases List.mem_append.mp hx with hx | hx
  · exact h x hx
  · rw [List.mem_singleton.mp hx, hr]

theorem allFailed_nil : AllFailed [] := by simp [AllFailed]

/-- The phases of a task that may be tried `cap` times: its status with its
attempts, oldest first. -/
inductive Phase (cap : ℕ) : TaskStatus → List TaskRun → Prop
  | waiting {rs : List TaskRun} (hf : AllFailed rs) (hl : rs.length < cap) : Phase cap .pending rs
  | opened {rs : List TaskRun} {r : TaskRun} (hf : AllFailed rs) (hr : r.status = .running)
      (hl : rs.length < cap) : Phase cap .pending (rs ++ [r])
  | active {rs : List TaskRun} {r : TaskRun} (hf : AllFailed rs) (hr : r.status = .running)
      (hl : rs.length < cap) : Phase cap .running (rs ++ [r])
  | settling {rs : List TaskRun} {r : TaskRun} (hf : AllFailed rs)
      (hr : r.status = .success ∨ r.status = .failed) (hl : rs.length < cap) :
      Phase cap .running (rs ++ [r])
  | done {rs : List TaskRun} {r : TaskRun} (hf : AllFailed rs) (hr : r.status = .success)
      (hl : rs.length < cap) : Phase cap .success (rs ++ [r])
  | exhausted {rs : List TaskRun} (hf : AllFailed rs) (hl : rs.length = cap) :
      Phase cap .failed rs

/-- No attempt of the list is still running. -/
def Settled (rs : List TaskRun) : Prop := ∀ r ∈ rs, r.status.isTerminal = true

theorem AllFailed.settled {rs : List TaskRun} (h : AllFailed rs) : Settled rs := by
  intro r hr
  rw [h r hr]
  rfl

theorem Settled.append {rs : List TaskRun} {r : TaskRun} (h : Settled rs)
    (hr : r.status.isTerminal = true) : Settled (rs ++ [r]) := by
  intro x hx
  rcases List.mem_append.mp hx with hx | hx
  · exact h x hx
  · rwa [List.mem_singleton.mp hx]

namespace Phase

variable {cap : ℕ} {s : TaskStatus} {rs : List TaskRun}

/-- An attempt that still runs is the last one, after failed ones, of a task
that is pending or running. -/
theorem of_running (h : Phase cap s rs) {r : TaskRun} (hr : r ∈ rs)
    (ht : r.status.isTerminal = false) :
    ∃ init, rs = init ++ [r] ∧ AllFailed init ∧ r.status = .running ∧ init.length < cap ∧
      (s = .pending ∨ s = .running) := by
  have hfailed : r.status ≠ .failed := by rintro he; simp [he, TaskRunStatus.isTerminal] at ht
  have hsuccess : r.status ≠ .success := by rintro he; simp [he, TaskRunStatus.isTerminal] at ht
  have last : ∀ {init : List TaskRun} {x : TaskRun}, AllFailed init → r ∈ init ++ [x] → r = x := by
    intro init x hf hm
    rcases List.mem_append.mp hm with hm | hm
    · exact absurd (hf r hm) hfailed
    · exact List.mem_singleton.mp hm
  cases h with
  | waiting hf hl => exact absurd (hf r hr) hfailed
  | opened hf hr' hl => obtain rfl := last hf hr; exact ⟨_, rfl, hf, hr', hl, .inl rfl⟩
  | active hf hr' hl => obtain rfl := last hf hr; exact ⟨_, rfl, hf, hr', hl, .inr rfl⟩
  | settling hf hr' hl =>
    obtain rfl := last hf hr
    exact hr'.elim (absurd · hsuccess) (absurd · hfailed)
  | done hf hr' hl => obtain rfl := last hf hr; exact absurd hr' hsuccess
  | exhausted hf hl => exact absurd (hf r hr) hfailed

theorem not_settled_append {init : List TaskRun} {r : TaskRun} (hr : r.status = .running) :
    ¬ Settled (init ++ [r]) := by
  intro hs
  have := hs r (List.mem_append_right _ (List.mem_singleton_self _))
  rw [hr] at this
  exact Bool.false_ne_true this

/-- A pending task without a running attempt has only failed attempts. -/
theorem waiting_of_settled (h : Phase cap .pending rs) (hs : Settled rs) :
    AllFailed rs ∧ rs.length < cap := by
  cases h with
  | waiting hf hl => exact ⟨hf, hl⟩
  | opened _ hr _ => exact absurd hs (not_settled_append hr)

theorem length_le (h : Phase cap s rs) : rs.length ≤ cap := by
  cases h <;> (try rw [List.length_append, List.length_singleton]) <;> omega

/-- A task has at most one running attempt. -/
theorem countP_le_one (h : Phase cap s rs) :
    rs.countP (fun r => !r.status.isTerminal) ≤ 1 := by
  have hzero : ∀ {l : List TaskRun}, AllFailed l →
      l.countP (fun r => !r.status.isTerminal) = 0 := by
    intro l hl
    rw [List.countP_eq_zero]
    intro r hr
    simp [hl r hr, TaskRunStatus.isTerminal]
  have hone : ∀ {l : List TaskRun} {r : TaskRun}, AllFailed l →
      (l ++ [r]).countP (fun r => !r.status.isTerminal) ≤ 1 := by
    intro l r hl
    rw [List.countP_append, hzero hl, Nat.zero_add]
    exact (List.countP_le_length).trans (by simp)
  cases h with
  | waiting hf _ => rw [hzero hf]; omega
  | exhausted hf _ => rw [hzero hf]; omega
  | opened hf _ _ => exact hone hf
  | active hf _ _ => exact hone hf
  | settling hf _ _ => exact hone hf
  | done hf _ _ => exact hone hf

end Phase

/-- The phases of a task between two operations. -/
inductive Rest (cap : ℕ) : TaskStatus → List TaskRun → Prop
  | waiting {rs : List TaskRun} (hf : AllFailed rs) (hl : rs.length < cap) : Rest cap .pending rs
  | active {rs : List TaskRun} {r : TaskRun} (hf : AllFailed rs) (hr : r.status = .running)
      (hl : rs.length < cap) : Rest cap .running (rs ++ [r])
  | done {rs : List TaskRun} {r : TaskRun} (hf : AllFailed rs) (hr : r.status = .success)
      (hl : rs.length < cap) : Rest cap .success (rs ++ [r])
  | exhausted {rs : List TaskRun} (hf : AllFailed rs) (hl : rs.length = cap) : Rest cap .failed rs

theorem Phase.rest {cap : ℕ} {s : TaskStatus} {rs : List TaskRun} (h : Phase cap s rs)
    (hp : s = .pending → Settled rs) (hr : s = .running → ¬ Settled rs) : Rest cap s rs := by
  cases h with
  | waiting hf hl => exact .waiting hf hl
  | opened _ hr' _ => exact absurd (hp rfl) (not_settled_append hr')
  | active hf hr' hl => exact .active hf hr' hl
  | settling hf hr' _ =>
    refine absurd (hf.settled.append ?_) (hr rfl)
    rcases hr' with he | he <;> rw [he] <;> rfl
  | done hf hr' hl => exact .done hf hr' hl
  | exhausted hf hl => exact .exhausted hf hl

/-- A task with failed attempts only, and not all of them used, is pending. -/
theorem Rest.pending_of_allFailed {cap : ℕ} {s : TaskStatus} {rs : List TaskRun}
    (h : Rest cap s rs) (hf : AllFailed rs) (hl : rs.length < cap) : s = .pending := by
  have last : ∀ {init : List TaskRun} {r : TaskRun}, AllFailed (init ++ [r]) → r.status = .failed :=
    fun hf => hf _ (List.mem_append_right _ (List.mem_singleton_self _))
  cases h with
  | waiting => rfl
  | active _ hr _ => exact absurd (hr.symm.trans (last hf)) (by simp)
  | done _ hr _ => exact absurd (hr.symm.trans (last hf)) (by simp)
  | exhausted _ hl' => omega

/-! ### How saves change the attempts of a task -/

namespace Store

variable {s : Store} {r : TaskRun} {t : TaskId}

/-- A save of an attempt of another task. -/
theorem attemptsOf_save_of_ne (ht : r.taskId ≠ t)
    (hr : ∀ x ∈ s.taskRuns, x.id = r.id → x.taskId = r.taskId) :
    { s with taskRuns := s.taskRuns.save r }.attemptsOf t = s.attemptsOf t :=
  Table.filter_rows_save_of_false (by simpa using ht) fun x hx hk => by
    simpa [hr x hx hk] using ht

/-- A new attempt comes last. -/
theorem attemptsOf_save_new (hr : ¬ s.taskRuns.Has r.id) :
    { s with taskRuns := s.taskRuns.save r }.attemptsOf r.taskId =
      s.attemptsOf r.taskId ++ [r] := by
  simp only [attemptsOf, Table.rows_save_of_not_has hr, List.filter_append]
  simp

/-- A save of the last attempt replaces it. -/
theorem attemptsOf_save_last {init : List TaskRun} {x : TaskRun}
    (h : s.attemptsOf r.taskId = init ++ [x]) (hid : x.id = r.id) (htask : x.taskId = r.taskId) :
    { s with taskRuns := s.taskRuns.save r }.attemptsOf r.taskId = init ++ [r] := by
  have hx : x ∈ s.attemptsOf r.taskId := h ▸ List.mem_append_right _ (List.mem_singleton_self _)
  have hkeys : ∀ y ∈ init, y.id ≠ r.id := by
    have hn : ((s.attemptsOf r.taskId).map TaskRun.id).Nodup :=
      s.taskRuns.nodup.sublist (List.filter_sublist.map _)
    rw [h, List.map_append, List.nodup_append] at hn
    exact fun y hy hk => hn.2.2 y.id (List.mem_map_of_mem hy) x.id (by simp) (hk.trans hid.symm)
  have hsave := Table.filter_rows_save_of_true (t := s.taskRuns) (v := r)
    (p := fun y => y.taskId = r.taskId) (by simp) fun y hy hk => by
      have : y = x := Table.eq_of_key hy (mem_attemptsOf.mp hx).1 (hk.trans hid.symm)
      simp [this, htask]
  change (s.taskRuns.save r).rows.filter _ = _
  rw [hsave]
  change upsert TaskRun.id r (s.attemptsOf r.taskId) = _
  rw [h, upsert_append_of_notMem TaskRun.id r init [x] hkeys, upsert, if_pos hid]

end Store

end Contexide.Workflow
