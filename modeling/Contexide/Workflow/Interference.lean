import Contexide.Workflow.Discipline

/-! What a permitted call can do to the records another component holds. Rows
change only along the protocol: the pump starts pending tasks, the status
handler settles running ones, and nobody saves a record under an identifier
that somebody else drew and has not saved yet. -/

namespace Contexide.Workflow

open Effects Storage

/-- The identifier of a record. -/
def Key.uuid : Key → Uuid
  | .dagRun id => id.uuid
  | .task id => id.uuid
  | .taskRun id => id.uuid

section Exec
variable {C : Config} {i : Proc} {op : Op} {w : World}

theorem not_stored_exec {x : Key} (h : ¬ w.Stored x) (hx : x ∉ op.writes) :
    ¬ (exec C i op w).2.Stored x := by
  cases op with
  | dagRunSave e | taskSave e | taskRunSave e =>
    cases x <;> simp_all [World.Stored, Op.writes, exec, Table.has_save]
  | _ => exact h

theorem published_kept {q : String × WorkerRequest} (hq : q ∈ w.published) :
    q ∈ (exec C i op w).2.published := by
  cases op with
  | publish s r => exact List.mem_append_left _ hq
  | _ => exact hq

/-- Attempts of a task that no save touches. -/
theorem attemptsOf_exec {t : TaskId}
    (h : ∀ r, op = .taskRunSave r → r.taskId ≠ t ∧
      ∀ x ∈ w.taskRuns, x.id = r.id → x.taskId = r.taskId) :
    (exec C i op w).2.attemptsOf t = w.attemptsOf t := by
  cases op with
  | taskRunSave r =>
    obtain ⟨hne, hold⟩ := h r rfl
    exact Store.attemptsOf_save_of_ne (s := w.toStore) hne hold
  | _ => rfl

end Exec

section Permit
variable {C : Config} {i j : Proc} {op : Op} {T : Traced}

/-- A record under an identifier that `i` drew and has not saved is not saved by
another component. -/
theorem notMem_writes_of_drawn (hp : permit C j op T) (hj : j ≠ i) {x : Key}
    (hd : T.world.Drawn C i x.uuid) (hn : ¬ T.world.Stored x) : x ∉ op.writes := by
  intro hx
  cases op with
  | dagRunSave d =>
    obtain rfl : x = .dagRun d.id := by simpa [Op.writes] using hx
    cases j with
    | planner n => exact hj (hp.2.drawn.proc_eq hd)
    | pump =>
      obtain ⟨d₀, h₀⟩ := hp.2
      exact hn ⟨d₀, h₀.mem, h₀.id⟩
    | status =>
      obtain ⟨⟨d₀, h₀⟩, _⟩ := hp.2
      exact hn ⟨d₀, h₀.mem, h₀.id⟩
  | taskSave t =>
    obtain rfl : x = .task t.id := by simpa [Op.writes] using hx
    cases j with
    | planner n => exact hj (hp.2.drawn.proc_eq hd)
    | pump =>
      obtain ⟨t₀, h₀⟩ := hp.2
      exact hn ⟨t₀, h₀.mem, h₀.id⟩
    | status =>
      rcases hp.2 with h₀ | ⟨t₀, h₀⟩
      · exact hj (h₀.drawn.proc_eq hd)
      · exact hn ⟨t₀, h₀.mem, h₀.id⟩
  | taskRunSave r =>
    obtain rfl : x = .taskRun r.id := by simpa [Op.writes] using hx
    cases j with
    | planner n => exact hp.2
    | pump =>
      obtain ⟨t, h₀⟩ := hp.2
      exact hj (h₀.drawn.proc_eq hd)
    | status =>
      obtain ⟨r₀, h₀⟩ := hp.2
      exact hn ⟨r₀, h₀.mem, h₀.id⟩
  | _ => simp [Op.writes] at hx

/-- The attempts of a task change when the pump opens one of a pending task, or
the status handler settles the running one of a running task. -/
theorem attempts_written (hi : T.world.Inv C) (hp : permit C i op T) {t : Task}
    (ht : t ∈ T.world.tasks) :
    (exec C i op T.world).2.attemptsOf t.id = T.world.attemptsOf t.id ∨
      (i = .pump ∧ t.status = .pending ∧ Settled (T.world.attemptsOf t.id) ∧
        ∃ r, op = .taskRunSave r ∧ r.taskId = t.id) ∨
      (i = .status ∧ t.status = .running ∧ ¬ Settled (T.world.attemptsOf t.id) ∧
        ∃ r, op = .taskRunSave r ∧ r.taskId = t.id) := by
  by_cases hs : ∃ r, op = .taskRunSave r ∧ r.taskId = t.id
  · obtain ⟨r, rfl, hr⟩ := hs
    cases i with
    | planner n => exact hp.2.elim
    | pump =>
      obtain ⟨u, ho⟩ := hp.2
      obtain rfl := Table.eq_of_key ho.task ht (ho.ofTask.symm.trans hr)
      exact .inr (.inl ⟨rfl, ho.pending, ho.settled, r, rfl, hr⟩)
    | status =>
      obtain ⟨r₀, h₀⟩ := hp.2
      have htask : t.id = r₀.taskId := hr.symm.trans h₀.ofTask.symm
      refine .inr (.inr ⟨rfl, ?_, fun hset => ?_, r, rfl, hr⟩)
      · exact hi.running_of_announced h₀.mem ht htask h₀.running h₀.announced
      · have := hset r₀ (Store.mem_attemptsOf.mpr ⟨h₀.mem, htask.symm⟩)
        rw [h₀.running] at this
        exact Bool.false_ne_true this
  · refine .inl (attemptsOf_exec fun r hr => ⟨fun he => hs ⟨r, hr, he⟩, ?_⟩)
    subst hr
    intro x hx hid
    cases i with
    | planner n => exact hp.2.elim
    | pump =>
      obtain ⟨u, ho⟩ := hp.2
      exact absurd ⟨x, hx, hid⟩ ho.fresh
    | status =>
      obtain ⟨r₀, h₀⟩ := hp.2
      rw [Table.eq_of_key hx h₀.mem (hid.trans h₀.id.symm)]
      exact h₀.ofTask

/-- A task after a call is an old one, a new pending one, or one that the pump
started or the status handler settled. -/
theorem task_saved (hi : T.world.Inv C) (hp : permit C i op T) {t : Task}
    (ht : t ∈ (exec C i op T.world).2.tasks) :
    (t ∈ T.world.tasks ∧ .task t.id ∉ op.writes) ∨
      (op = .taskSave t ∧
        ((i ≠ .pump ∧ t.status = .pending ∧ T.world.attemptsOf t.id = []) ∨
          (i = .pump ∧ t.status = .running ∧ ¬ Settled (T.world.attemptsOf t.id)) ∨
          (i = .status ∧ t.status ≠ .running ∧ Settled (T.world.attemptsOf t.id)))) := by
  cases op with
  | taskSave e =>
    rcases Table.mem_save.mp ht with rfl | ht
    · refine .inr ⟨rfl, ?_⟩
      cases i with
      | planner n => exact .inl ⟨by simp, hp.2.pending, hi.attemptsOf_eq_nil hp.2.fresh⟩
      | pump =>
        obtain ⟨t₀, h₀⟩ := hp.2
        exact .inr (.inl ⟨rfl, h₀.running, h₀.id ▸ h₀.opened⟩)
      | status =>
        rcases hp.2 with h₀ | ⟨t₀, h₀⟩
        · exact .inl ⟨by simp, h₀.pending, hi.attemptsOf_eq_nil h₀.fresh⟩
        · exact .inr (.inr ⟨rfl, h₀.left, h₀.id ▸ h₀.settled⟩)
    · exact .inl ⟨ht.1, by simpa [Op.writes] using ht.2⟩
  | _ => exact .inl ⟨ht, by simp [Op.writes]⟩

/-- A stored run keeps being stored, and started once it is. -/
theorem started_kept (hp : permit C i op T) {d : DagRunId}
    (h : ∃ x ∈ T.world.dagRuns, x.id = d ∧ x.status ≠ .created) :
    ∃ x ∈ (exec C i op T.world).2.dagRuns, x.id = d ∧ x.status ≠ .created := by
  obtain ⟨x, hx, rfl, hs⟩ := h
  by_cases hk : Key.dagRun x.id ∈ op.writes
  · cases op with
    | dagRunSave e =>
      have hid : x.id = e.id := by simpa [Op.writes] using hk
      refine ⟨e, Table.mem_save_self _ e, hid.symm, ?_⟩
      cases i with
      | planner n => exact absurd ⟨x, hx, hid⟩ hp.2.fresh
      | pump => obtain ⟨d₀, h₀⟩ := hp.2; rw [h₀.running]; simp
      | status => obtain ⟨⟨d₀, h₀⟩, _⟩ := hp.2; exact h₀.started'
    | _ => simp [Op.writes] at hk
  · exact ⟨x, dagRun_kept hx hk, rfl, hs⟩

end Permit

/-! ### Records in hand -/

/-- Rows built under identifiers drawn by `i` that are not saved yet: pending
tasks of stored runs. -/
structure Unsaved (C : Config) (i : Proc) (ts : List Task) (T : Traced) : Prop where
  nodup : (ts.map Task.id).Nodup
  drawn : ∀ t ∈ ts, T.world.Drawn C i t.id.uuid
  fresh : ∀ t ∈ ts, ¬ T.world.tasks.Has t.id
  pending : ∀ t ∈ ts, t.status = .pending
  run : ∀ t ∈ ts, T.world.dagRuns.Has t.dagRunId

theorem Unsaved.kept {C : Config} {i j : Proc} {op : Op} {ts : List Task} {T : Traced}
    (h : Unsaved C i ts T) (hw : ∀ t ∈ ts, .task t.id ∉ op.writes) :
    Unsaved C i ts (trace C j op T).2 where
  nodup := h.nodup
  drawn t ht := Drawn.kept (h.drawn t ht)
  fresh t ht := not_stored_exec (x := .task t.id) (h.fresh t ht) (hw t ht)
  pending := h.pending
  run t ht := dagRun_has_kept (h.run t ht)

theorem Unsaved.stable (C : Config) (i : Proc) (ts : List Task) :
    (discipline C).Stable i (Unsaved C i ts) := fun _ _ _ hj _ h hp =>
  h.kept fun t ht => notMem_writes_of_drawn hp hj (h.drawn t ht) (h.fresh t ht)

theorem Unsaved.nil {C : Config} {i : Proc} {T : Traced} : Unsaved C i [] T where
  nodup := List.nodup_nil
  drawn _ ht := absurd ht List.not_mem_nil
  fresh _ ht := absurd ht List.not_mem_nil
  pending _ ht := absurd ht List.not_mem_nil
  run _ ht := absurd ht List.not_mem_nil

/-- The rule for one repository call. -/
theorem perform_safe {C : Config} {i : Proc} {α : Type} {P : Traced → Prop}
    {Q : α → Traced → Prop} (op : Op) {f : op.Ans → Prog α} {R : op.Ans → Traced → Prop}
    (hP : (discipline C).Stable i P)
    (hs : ∀ T, T.Inv C → P T →
      permit C i op T ∧ R (exec C i op T.world).1 (trace C i op T).2)
    (hf : ∀ r, (discipline C).Triple i (R r) (f r) Q) :
    (discipline C).Triple i P (Program.perform (S := sig) op >>= f) Q :=
  Discipline.Triple.perform_bind hP hs hf

/-- The process-local assertions that saving a new task and drawing an
identifier leave alone. -/
structure Frame (C : Config) (i : Proc) (F : Traced → Prop) : Prop where
  stable : (discipline C).Stable i F
  draw : ∀ T, F T → F (trace C i .newTaskId T).2
  insert : ∀ T t, T.Inv C → F T → T.world.NewTask C i t → F (trace C i (.taskSave t) T).2

theorem Frame.true (C : Config) (i : Proc) : Frame C i fun _ => True where
  stable := Discipline.Stable.true
  draw _ _ := trivial
  insert _ _ _ _ _ := trivial

/-- Saving new tasks one after the other. -/
theorem saveTasks_safe {C : Config} {i : Proc} (hi : i ≠ .pump) {F : Traced → Prop}
    (hF : Frame C i F) (ts : List Task) :
    (discipline C).Triple i (fun T => Unsaved C i ts T ∧ F T) (Planner.saveTasks ts)
      fun _ => F := by
  induction ts with
  | nil => exact Discipline.Triple.pure ((Unsaved.stable C i []).and hF.stable) fun _ _ h => h.2
  | cons t ts ih =>
    refine perform_safe (.taskSave t) ((Unsaved.stable C i (t :: ts)).and hF.stable)
      (fun T hinv h => ?_) fun _ => ih
    obtain ⟨hu, hf⟩ := h
    have hnew : T.world.NewTask C i t :=
      { fresh := hu.fresh t List.mem_cons_self
        drawn := hu.drawn t List.mem_cons_self
        pending := hu.pending t List.mem_cons_self
        run := hu.run t List.mem_cons_self }
    have hnodup := List.nodup_cons.mp hu.nodup
    refine ⟨⟨?_, ?_⟩, Unsaved.kept ?_ ?_, hF.insert T t hinv hf hnew⟩
    · intro x hx
      obtain rfl : x = .task t.id := by simpa [Op.writes] using hx
      exact hinv.stale_of_not_stored i hnew.fresh
    · cases i with
      | planner n => exact hnew
      | pump => exact absurd rfl hi
      | status => exact .inl hnew
    · exact
        { nodup := hnodup.2
          drawn := fun u hu' => hu.drawn u (List.mem_cons_of_mem _ hu')
          fresh := fun u hu' => hu.fresh u (List.mem_cons_of_mem _ hu')
          pending := fun u hu' => hu.pending u (List.mem_cons_of_mem _ hu')
          run := fun u hu' => hu.run u (List.mem_cons_of_mem _ hu') }
    · intro u hu' he
      have : u.id = t.id := by simpa [Op.writes] using he
      exact hnodup.1 (this ▸ List.mem_map_of_mem hu')

end Contexide.Workflow
