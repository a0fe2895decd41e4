import Contexide.Workflow.Attempts

/-! What each component may write, and the invariant of the stores that these
writes keep. The planner inserts runs and pending tasks, the pump opens and
starts attempts and announces them to workers, the status handler settles
announced attempts and their tasks. Every clause speaks of one save and the
stores just before it, so the invariant holds between any two calls, whoever
makes them. -/

namespace Contexide.Workflow

open Storage

/-- How often a task may be tried under the global policy. -/
def Config.cap (C : Config) : ℕ := max 1 C.retryPolicy.maxAttempts.toNat

theorem Config.cap_pos (C : Config) : 0 < C.cap := by
  unfold cap
  omega

namespace World

variable (C : Config) (w : World)

/-- Component `i` has drawn this identifier. -/
def Drawn (i : Proc) (u : Uuid) : Prop := ∃ k < w.drawn i, u = C.ids.uuid i k

/-- A request names a stored attempt with its task and a run that has left
`Created`; while the attempt runs, its task runs. -/
structure Announced (q : WorkerRequest) (r : TaskRun) (t : Task) (d : DagRun) : Prop where
  attempt : r ∈ w.taskRuns
  task : t ∈ w.tasks
  run : d ∈ w.dagRuns
  attemptId : r.id.uuid = q.taskRunId
  taskId : t.id.uuid = q.taskId
  runId : d.id.uuid = q.dagRunId
  ofTask : r.taskId = t.id
  ofRun : t.dagRunId = d.id
  started : d.status ≠ .created
  active : r.status.isTerminal = false → t.status = .running

structure Inv : Prop where
  runOf : ∀ t ∈ w.tasks, w.dagRuns.Has t.dagRunId
  taskOf : ∀ r ∈ w.taskRuns, w.tasks.Has r.taskId
  phase : ∀ t ∈ w.tasks, Phase C.cap t.status (w.attemptsOf t.id)
  numbered : ∀ id : TaskId, (w.attemptsOf id).map TaskRun.attemptNo =
    (List.range (w.attemptsOf id).length).map Int32.ofNat
  runDrawn : ∀ d ∈ w.dagRuns, ∃ i, w.Drawn C i d.id.uuid
  taskDrawn : ∀ t ∈ w.tasks, ∃ i, w.Drawn C i t.id.uuid
  attemptDrawn : ∀ r ∈ w.taskRuns, ∃ i, w.Drawn C i r.id.uuid
  announced : ∀ q ∈ w.published, ∃ r t d, w.Announced q.2 r t d
  announcedOnce : (w.published.map fun q => q.2.taskRunId).Nodup

/-! ### The permitted writes -/

structure NewDagRun (i : Proc) (d : DagRun) : Prop where
  fresh : ¬ w.dagRuns.Has d.id
  drawn : w.Drawn C i d.id.uuid
  created : d.status = .created

structure NewTask (i : Proc) (t : Task) : Prop where
  fresh : ¬ w.tasks.Has t.id
  drawn : w.Drawn C i t.id.uuid
  pending : t.status = .pending
  run : w.dagRuns.Has t.dagRunId

/-- A new attempt of a pending task whose earlier attempts are settled. -/
structure OpenAttempt (r : TaskRun) (t : Task) : Prop where
  fresh : ¬ w.taskRuns.Has r.id
  drawn : w.Drawn C .pump r.id.uuid
  running : r.status = .running
  number : r.attemptNo = Int32.ofNat (w.attemptsOf r.taskId).length
  task : t ∈ w.tasks
  ofTask : r.taskId = t.id
  pending : t.status = .pending
  settled : Settled (w.attemptsOf t.id)

/-- A pending task with an open attempt becomes running. -/
structure StartTask (t t' : Task) : Prop extends SameTask t t' where
  mem : t ∈ w.tasks
  pending : t.status = .pending
  opened : ¬ Settled (w.attemptsOf t.id)
  running : t'.status = .running

structure MarkRunning (d d' : DagRun) : Prop where
  mem : d ∈ w.dagRuns
  id : d.id = d'.id
  created : d.status = .created
  running : d'.status = .running

/-- An announced attempt that still runs is settled. -/
structure SettleAttempt (r r' : TaskRun) : Prop where
  mem : r ∈ w.taskRuns
  id : r.id = r'.id
  ofTask : r.taskId = r'.taskId
  number : r.attemptNo = r'.attemptNo
  running : r.status.isTerminal = false
  settled : r'.status = .success ∨ r'.status = .failed
  announced : ∃ q ∈ w.published, q.2.taskRunId = r.id.uuid

/-- A running task whose attempts are settled leaves `Running` for the status
that fits them. -/
structure SettleTask (t t' : Task) : Prop extends SameTask t t' where
  mem : t ∈ w.tasks
  running : t.status = .running
  settled : Settled (w.attemptsOf t.id)
  left : t'.status ≠ .running
  fits : Phase C.cap t'.status (w.attemptsOf t.id)

structure Aggregate (d d' : DagRun) : Prop where
  mem : d ∈ w.dagRuns
  id : d.id = d'.id
  started : d.status ≠ .created
  started' : d'.status ≠ .created

variable {C w}

theorem Drawn.mono {w' : World} {i : Proc} {u : Uuid} (h : w.Drawn C i u)
    (hd : w.drawn i ≤ w'.drawn i) : w'.Drawn C i u := by
  obtain ⟨k, hk, rfl⟩ := h
  exact ⟨k, by omega, rfl⟩

/-- Two components never draw the same identifier. -/
theorem Drawn.proc_eq {i j : Proc} {u : Uuid} (h : w.Drawn C i u) (h' : w.Drawn C j u) :
    i = j := by
  obtain ⟨k, _, rfl⟩ := h
  obtain ⟨k', _, he⟩ := h'
  exact (C.ids.inj he).1

/-- The next identifier has not been drawn. -/
theorem not_drawn_next (i j : Proc) : ¬ w.Drawn C j (C.ids.uuid i (w.drawn i)) := by
  rintro ⟨k, hk, he⟩
  obtain ⟨rfl, rfl⟩ := C.ids.inj he
  exact lt_irrefl _ hk

theorem drawn_draw_self (i : Proc) : (w.draw i).Drawn C i (C.ids.uuid i (w.drawn i)) :=
  ⟨w.drawn i, by simp, rfl⟩

theorem Drawn.draw {i j : Proc} {u : Uuid} (h : w.Drawn C j u) : (w.draw i).Drawn C j u := by
  refine h.mono ?_
  by_cases hj : j = i
  · subst hj; simp
  · rw [draw_drawn_ne _ hj]

namespace Inv

/-- The attempts of a task that is not stored. -/
theorem attemptsOf_eq_nil (h : w.Inv C) {id : TaskId} (hid : ¬ w.tasks.Has id) :
    w.attemptsOf id = [] := by
  rw [List.eq_nil_iff_forall_not_mem]
  intro r hr
  obtain ⟨hmem, rfl⟩ := Store.mem_attemptsOf.mp hr
  exact hid (h.taskOf r hmem)

theorem draw (h : w.Inv C) (i : Proc) : (w.draw i).Inv C where
  runOf := h.runOf
  taskOf := h.taskOf
  phase := h.phase
  numbered := h.numbered
  runDrawn d hd := (h.runDrawn d hd).imp fun _ => Drawn.draw
  taskDrawn t ht := (h.taskDrawn t ht).imp fun _ => Drawn.draw
  attemptDrawn r hr := (h.attemptDrawn r hr).imp fun _ => Drawn.draw
  announced q hq := by
    obtain ⟨r, t, d, ha⟩ := h.announced q hq
    exact ⟨r, t, d, { ha with }⟩
  announcedOnce := h.announcedOnce

/-- Saving a run, new or with a status that does not return to `Created`. -/
theorem saveDagRun (h : w.Inv C) (d : DagRun) (hdrawn : ∃ i, w.Drawn C i d.id.uuid)
    (hd : w.dagRuns.Has d.id → d.status ≠ .created) :
    World.Inv C { w with dagRuns := w.dagRuns.save d } where
  runOf t ht := Table.has_save.mpr (.inr (h.runOf t ht))
  taskOf := h.taskOf
  phase := h.phase
  numbered := h.numbered
  runDrawn d' hd' := by
    rcases Table.mem_save.mp hd' with rfl | hd'
    · exact hdrawn
    · exact h.runDrawn d' hd'.1
  taskDrawn := h.taskDrawn
  attemptDrawn := h.attemptDrawn
  announced q hq := by
    obtain ⟨r, t, d', ha⟩ := h.announced q hq
    by_cases hid : d'.id = d.id
    · exact ⟨r, t, d, { ha with
        run := Table.mem_save_self _ d
        runId := hid ▸ ha.runId
        ofRun := ha.ofRun.trans hid
        started := hd ⟨d', ha.run, hid⟩ }⟩
    · exact ⟨r, t, d', { ha with run := Table.mem_save_of_ne ha.run hid }⟩
  announcedOnce := h.announcedOnce

theorem newDagRun (h : w.Inv C) {i : Proc} {d : DagRun} (hd : w.NewDagRun C i d) :
    World.Inv C { w with dagRuns := w.dagRuns.save d } :=
  h.saveDagRun d ⟨i, hd.drawn⟩ fun hh => absurd hh hd.fresh

theorem markRunning (h : w.Inv C) {d d' : DagRun} (hd : w.MarkRunning d d') :
    World.Inv C { w with dagRuns := w.dagRuns.save d' } :=
  h.saveDagRun d' (hd.id ▸ h.runDrawn d hd.mem) fun _ => by simp [hd.running]

theorem aggregate (h : w.Inv C) {d d' : DagRun} (hd : w.Aggregate d d') :
    World.Inv C { w with dagRuns := w.dagRuns.save d' } :=
  h.saveDagRun d' (hd.id ▸ h.runDrawn d hd.mem) fun _ => hd.started'

/-- Saving a task whose status fits its attempts. -/
theorem saveTask (h : w.Inv C) (t' : Task) (hdrawn : ∃ i, w.Drawn C i t'.id.uuid)
    (hrun : w.dagRuns.Has t'.dagRunId) (hfits : Phase C.cap t'.status (w.attemptsOf t'.id))
    (hold : ∀ t ∈ w.tasks, t.id = t'.id → t.dagRunId = t'.dagRunId)
    (hactive : ∀ q ∈ w.published, ∀ r ∈ w.attemptsOf t'.id, r.id.uuid = q.2.taskRunId →
      r.status.isTerminal = false → t'.status = .running) :
    World.Inv C { w with tasks := w.tasks.save t' } where
  runOf t ht := by
    rcases Table.mem_save.mp ht with rfl | ht
    · exact hrun
    · exact h.runOf t ht.1
  taskOf r hr := Table.has_save.mpr (.inr (h.taskOf r hr))
  phase t ht := by
    rcases Table.mem_save.mp ht with rfl | ht
    · exact hfits
    · exact h.phase t ht.1
  numbered := h.numbered
  runDrawn := h.runDrawn
  taskDrawn t ht := by
    rcases Table.mem_save.mp ht with rfl | ht
    · exact hdrawn
    · exact h.taskDrawn t ht.1
  attemptDrawn := h.attemptDrawn
  announced q hq := by
    obtain ⟨r, t, d, ha⟩ := h.announced q hq
    by_cases hid : t.id = t'.id
    · exact ⟨r, t', d, { ha with
        task := Table.mem_save_self _ t'
        taskId := hid ▸ ha.taskId
        ofTask := ha.ofTask.trans hid
        ofRun := (hold t ha.task hid).symm.trans ha.ofRun
        active := hactive q hq r (Store.mem_attemptsOf.mpr ⟨ha.attempt, ha.ofTask.trans hid⟩)
          ha.attemptId }⟩
    · exact ⟨r, t, d, { ha with task := Table.mem_save_of_ne ha.task hid }⟩
  announcedOnce := h.announcedOnce

theorem newTask (h : w.Inv C) {i : Proc} {t : Task} (ht : w.NewTask C i t) :
    World.Inv C { w with tasks := w.tasks.save t } := by
  have hnil := h.attemptsOf_eq_nil ht.fresh
  refine h.saveTask t ⟨i, ht.drawn⟩ ht.run ?_ (fun t' ht' hid => absurd ⟨t', ht', hid⟩ ht.fresh) ?_
  · rw [hnil, ht.pending]
    exact .waiting allFailed_nil C.cap_pos
  · intro q _ r hr
    rw [hnil] at hr
    exact absurd hr List.not_mem_nil

/-- A stored task is the one with its id. -/
theorem run_of_same {t t' u : Task} (ht : t ∈ w.tasks) (hs : SameTask t t') (hu : u ∈ w.tasks)
    (hid : u.id = t'.id) : u.dagRunId = t'.dagRunId := by
  rw [Table.eq_of_key hu ht (hid.trans hs.id.symm)]
  exact hs.run

theorem startTask (h : w.Inv C) {t t' : Task} (ht : w.StartTask t t') :
    World.Inv C { w with tasks := w.tasks.save t' } := by
  refine h.saveTask t' (ht.id ▸ h.taskDrawn t ht.mem) (ht.run ▸ h.runOf t ht.mem) ?_
    (fun u hu => run_of_same ht.mem ht.toSameTask hu) fun _ _ _ _ _ _ => ht.running
  have hp := h.phase t ht.mem
  rw [ht.pending] at hp
  rw [← ht.id, ht.running]
  have hopen := ht.opened
  generalize w.attemptsOf t.id = rs at hp hopen
  cases hp with
  | waiting hf _ => exact absurd hf.settled hopen
  | opened hf hr hl => exact .active hf hr hl

theorem settleTask (h : w.Inv C) {t t' : Task} (ht : w.SettleTask C t t') :
    World.Inv C { w with tasks := w.tasks.save t' } := by
  refine h.saveTask t' (ht.id ▸ h.taskDrawn t ht.mem) (ht.run ▸ h.runOf t ht.mem) (ht.id ▸ ht.fits)
    (fun u hu => run_of_same ht.mem ht.toSameTask hu) ?_
  intro q _ r hr _ hactive
  rw [← ht.id] at hr
  rw [ht.settled r hr] at hactive
  exact absurd hactive (by simp)

/-- Saving an attempt of a stored task, given what it does to the attempts of
that task. -/
theorem saveTaskRun (h : w.Inv C) (r : TaskRun) {t : Task} (ht : t ∈ w.tasks)
    (htask : r.taskId = t.id) (hdrawn : ∃ i, w.Drawn C i r.id.uuid)
    (hold : ∀ x ∈ w.taskRuns, x.id = r.id → x.taskId = r.taskId) {rs : List TaskRun}
    (hrs : { w.toStore with taskRuns := w.taskRuns.save r }.attemptsOf r.taskId = rs)
    (hphase : Phase C.cap t.status rs)
    (hnumbered : rs.map TaskRun.attemptNo = (List.range rs.length).map Int32.ofNat)
    (hactive : (∃ q ∈ w.published, q.2.taskRunId = r.id.uuid) → r.status.isTerminal = true) :
    World.Inv C { w with taskRuns := w.taskRuns.save r } where
  runOf := h.runOf
  taskOf x hx := by
    rcases Table.mem_save.mp hx with rfl | hx
    · exact ⟨t, ht, htask.symm⟩
    · exact h.taskOf x hx.1
  phase u hu := by
    by_cases hid : u.id = t.id
    · obtain rfl := Table.eq_of_key hu ht hid
      rw [← htask]
      exact hrs ▸ hphase
    · have hne : r.taskId ≠ u.id := fun he => hid (he.symm.trans htask)
      rw [Store.attemptsOf_save_of_ne (s := w.toStore) hne hold]
      exact h.phase u hu
  numbered id := by
    by_cases hid : r.taskId = id
    · subst hid
      exact hrs ▸ hnumbered
    · rw [Store.attemptsOf_save_of_ne (s := w.toStore) hid hold]
      exact h.numbered id
  runDrawn := h.runDrawn
  taskDrawn := h.taskDrawn
  attemptDrawn x hx := by
    rcases Table.mem_save.mp hx with rfl | hx
    · exact hdrawn
    · exact h.attemptDrawn x hx.1
  announced q hq := by
    obtain ⟨x, u, d, ha⟩ := h.announced q hq
    by_cases hid : x.id = r.id
    · refine ⟨r, u, d, { ha with
        attempt := Table.mem_save_self _ r
        attemptId := hid ▸ ha.attemptId
        ofTask := (hold x ha.attempt hid).symm.trans ha.ofTask
        active := fun hr => ?_ }⟩
      rw [hactive ⟨q, hq, by rw [← hid, ha.attemptId]⟩] at hr
      exact absurd hr (by simp)
    · exact ⟨x, u, d, { ha with attempt := Table.mem_save_of_ne ha.attempt hid }⟩
  announcedOnce := h.announcedOnce

theorem openAttempt (h : w.Inv C) {r : TaskRun} {t : Task} (ho : w.OpenAttempt C r t) :
    World.Inv C { w with taskRuns := w.taskRuns.save r } := by
  have hp := h.phase t ho.task
  rw [ho.pending] at hp
  obtain ⟨hf, hl⟩ := hp.waiting_of_settled ho.settled
  refine h.saveTaskRun r ho.task ho.ofTask ⟨_, ho.drawn⟩
    (fun x hx hid => absurd ⟨x, hx, hid⟩ ho.fresh) (Store.attemptsOf_save_new ho.fresh) ?_ ?_ ?_
  · rw [ho.pending, ho.ofTask]
    exact .opened hf ho.running hl
  · rw [List.map_append, h.numbered, List.length_append, List.length_singleton,
      List.range_succ, List.map_append, List.map_singleton, List.map_singleton, ho.number]
  · rintro ⟨q, hq, hqr⟩
    obtain ⟨x, u, d, ha⟩ := h.announced q hq
    exact absurd ⟨x, ha.attempt, TaskRunId.ext (ha.attemptId.trans hqr)⟩ ho.fresh

/-- While an announced attempt runs, its task runs. -/
theorem running_of_announced (h : w.Inv C) {r : TaskRun} {t : Task} (hr : r ∈ w.taskRuns)
    (ht : t ∈ w.tasks) (htask : t.id = r.taskId) (hrunning : r.status.isTerminal = false)
    (ha : ∃ q ∈ w.published, q.2.taskRunId = r.id.uuid) : t.status = .running := by
  obtain ⟨q, hq, hqr⟩ := ha
  obtain ⟨x, u, d, ha⟩ := h.announced q hq
  obtain rfl : x = r := Table.eq_of_key ha.attempt hr (TaskRunId.ext (ha.attemptId.trans hqr))
  rw [Table.eq_of_key ht ha.task (htask.trans ha.ofTask)]
  exact ha.active hrunning

theorem settleAttempt (h : w.Inv C) {r r' : TaskRun} (hs : w.SettleAttempt r r') :
    World.Inv C { w with taskRuns := w.taskRuns.save r' } := by
  obtain ⟨t, ht, htask⟩ := h.taskOf r hs.mem
  have hmem : r ∈ w.attemptsOf t.id := Store.mem_attemptsOf.mpr ⟨hs.mem, htask.symm⟩
  obtain ⟨init, hinit, hf, _, hl, hstatus⟩ := (h.phase t ht).of_running hmem hs.running
  have ht' : r'.taskId = t.id := hs.ofTask.symm.trans htask.symm
  have hlast : w.attemptsOf r'.taskId = init ++ [r] := by rw [ht']; exact hinit
  have hrunning := h.running_of_announced hs.mem ht htask hs.running hs.announced
  refine h.saveTaskRun r' ht ht' (hs.id ▸ h.attemptDrawn r hs.mem) ?_
    (Store.attemptsOf_save_last hlast hs.id hs.ofTask) ?_ ?_ ?_
  · intro x hx hid
    rw [Table.eq_of_key hx hs.mem (hid.trans hs.id.symm)]
    exact hs.ofTask
  · rw [hrunning]
    exact .settling hf hs.settled hl
  · have hn := h.numbered r'.taskId
    rw [hlast] at hn
    simpa [hs.number] using hn
  · intro _
    rcases hs.settled with he | he <;> rw [he] <;> rfl

/-- Publishing a request for an attempt not announced before. -/
theorem announce (h : w.Inv C) (subject : String) {q : WorkerRequest} {r : TaskRun} {t : Task}
    {d : DagRun} (ha : w.Announced q r t d)
    (hnew : ∀ p ∈ w.published, p.2.taskRunId ≠ q.taskRunId) :
    World.Inv C { w with published := w.published ++ [(subject, q)] } where
  runOf := h.runOf
  taskOf := h.taskOf
  phase := h.phase
  numbered := h.numbered
  runDrawn := h.runDrawn
  taskDrawn := h.taskDrawn
  attemptDrawn := h.attemptDrawn
  announced p hp := by
    rcases List.mem_append.mp hp with hp | hp
    · obtain ⟨r', t', d', ha'⟩ := h.announced p hp
      exact ⟨r', t', d', { ha' with }⟩
    · rw [List.mem_singleton.mp hp]
      exact ⟨r, t, d, { ha with }⟩
  announcedOnce := by
    rw [List.map_append, List.nodup_append]
    refine ⟨h.announcedOnce, by simp, fun a ha b hb => ?_⟩
    obtain ⟨p, hp, rfl⟩ := List.mem_map.mp ha
    rw [List.mem_singleton.mp hb]
    exact hnew p hp

end Inv

theorem inv_empty (C : Config) : World.Inv C World.empty where
  runOf t ht := absurd ht (Table.notMem_empty t)
  taskOf r hr := absurd hr (Table.notMem_empty r)
  phase t ht := absurd ht (Table.notMem_empty t)
  numbered _ := rfl
  runDrawn d hd := absurd hd (Table.notMem_empty d)
  taskDrawn t ht := absurd ht (Table.notMem_empty t)
  attemptDrawn r hr := absurd hr (Table.notMem_empty r)
  announced _ hq := absurd hq List.not_mem_nil
  announcedOnce := List.nodup_nil

end World

end Contexide.Workflow
