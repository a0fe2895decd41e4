import Contexide.Workflow.Outcome.PumpStopped
import Contexide.Workflow.Steps

/-! Pumps that fail half-way. All requests are published after the whole batch is
written, and a failed call ends the pump, so a failure between the save of the
first attempt and the last publication leaves a task behind that waits for a
worker nobody told: it is running without a request, or pending with an open
attempt. -/

namespace Contexide.Workflow

open Effects Storage Scheduler Messaging World

/-- Between the two worlds no task was moved to running without a request that
names it and its attempt, and no pending task has a running attempt. -/
structure NoLostDispatch (w w' : World) : Prop where
  announced : ∀ t ∈ w.tasks, t.status = .pending →
    ∀ t' ∈ w'.tasks, t'.id = t.id → t'.status = .running →
      ∃ r ∈ w'.taskRuns, r.taskId = t.id ∧ r.status.isTerminal = false ∧
        ∃ q ∈ w'.published, q.2.taskId = t.id.uuid ∧ q.2.taskRunId = r.id.uuid
  settled : ∀ t ∈ w'.tasks, t.status = .pending →
    ∀ r ∈ w'.taskRuns, r.taskId = t.id → r.status.isTerminal = true

variable {C : Config} {w w' : World}

theorem World.Sound.noLostDispatch (h : w.Sound C) (hstore : w'.toStore = w.toStore) :
    NoLostDispatch w w' := by
  have htasks : w'.tasks = w.tasks := congrArg Store.tasks hstore
  have hruns : w'.taskRuns = w.taskRuns := congrArg Store.taskRuns hstore
  refine ⟨fun t ht hs t' ht' hid hs' => ?_, fun t ht hs r hr hrt => ?_⟩
  · rw [Table.eq_of_key (htasks ▸ ht') ht hid, hs] at hs'
    exact absurd hs' (by simp)
  · exact h.settled (htasks ▸ ht) hs r (Store.mem_attemptsOf.mpr ⟨hruns ▸ hr, hrt⟩)

/-- An open attempt that no request names is a lost dispatch. -/
theorem not_noLostDispatch {t t' : Task} {a : TaskRun} (ht : t ∈ w.tasks) (hs : t.status = .pending)
    (hset : Settled (w.attemptsOf t.id)) (ht' : t' ∈ w'.tasks) (hid : t'.id = t.id)
    (hs' : t'.status = .pending ∨ t'.status = .running)
    (hatt : w'.attemptsOf t.id = w.attemptsOf t.id ++ [a]) (ha : a.status = .running)
    (hpub : ∀ q ∈ w'.published, q.2.taskRunId ≠ a.id.uuid) : ¬ NoLostDispatch w w' := by
  intro h
  obtain ⟨hmem, htask⟩ : a ∈ w'.taskRuns ∧ a.taskId = t.id := by
    rw [← Store.mem_attemptsOf, hatt]
    exact List.mem_append_right _ (List.mem_singleton_self _)
  rcases hs' with hs' | hs'
  · have := h.settled t' ht' hs' a hmem (htask.trans hid.symm)
    rw [ha] at this
    exact absurd this (by decide)
  · obtain ⟨r, hr, hrt, hrun, q, hq, _, hqr⟩ := h.announced t ht hs t' ht' hid hs'
    have hr : r ∈ w.attemptsOf t.id ++ [a] := hatt ▸ Store.mem_attemptsOf.mpr ⟨hr, hrt⟩
    rcases List.mem_append.mp hr with hr | hr
    · rw [hset r hr] at hrun
      exact absurd hrun (by simp)
    · exact hpub q hq (List.mem_singleton.mp hr ▸ hqr)

/-! ### Batches cut in two -/

namespace World

theorem dispatchedAll_append (done rest : List Task) :
    w.dispatchedAll C (done ++ rest) = (w.dispatchedAll C done).dispatchedAll C rest :=
  List.foldl_append

theorem dispatchedAll_published (batch : List Task) :
    (w.dispatchedAll C batch).published = w.published := by
  induction batch generalizing w with
  | nil => rfl
  | cons t batch ih => exact (ih (w := w.dispatched C t)).trans (dispatched_published w C t)

theorem dispatchedAll_drawn (batch : List Task) :
    (w.dispatchedAll C batch).drawn .pump = w.drawn .pump + batch.length := by
  induction batch generalizing w with
  | nil => rfl
  | cons t batch ih =>
    rw [List.length_cons, dispatchedAll, List.foldl_cons]
    rw [show (batch.foldl (dispatched C) (w.dispatched C t)).drawn .pump = _ from ih,
      dispatched_drawn_pump]
    omega

/-- No request names an attempt whose identifier is not drawn yet. -/
theorem Inv.not_published_of_le (h : w.Inv C) {k : ℕ} (hk : w.drawn .pump ≤ k) :
    ∀ q ∈ w.published, q.2.taskRunId ≠ C.ids.uuid .pump k := by
  intro q hq he
  obtain ⟨r, t, d, ha⟩ := h.announced q hq
  obtain ⟨i, k', hk', hid⟩ := h.attemptDrawn r ha.attempt
  obtain ⟨rfl, rfl⟩ := C.ids.inj ((ha.attemptId.symm.trans hid).symm.trans he)
  omega

theorem Scheduling.sublist {batch batch' : List Task} (h : Scheduling C batch w)
    (hs : batch'.Sublist batch) : Scheduling C batch' w := by
  obtain ⟨T, ready, hT, hinv, hp, hb⟩ := h
  exact ⟨T, ready, hT, hinv, hp.sublist hs, hb⟩

theorem Scheduling.dispatchedAll {done rest : List Task} (h : Scheduling C (done ++ rest) w) :
    Scheduling C rest (w.dispatchedAll C done) := by
  induction done generalizing w with
  | nil => exact h
  | cons t done ih => exact ih (w := w.dispatched C t) h.dispatched

theorem Scheduling.nodup {batch : List Task} (h : Scheduling C batch w) :
    (batch.map Task.id).Nodup := by
  obtain ⟨_, _, _, _, hp, _⟩ := h
  exact hp.nodup

theorem Scheduling.listed {batch : List Task} (h : Scheduling C batch w) {t : Task}
    (ht : t ∈ batch) : w.Listed t := by
  obtain ⟨T, _, rfl, _, hp, _⟩ := h
  exact (hp.waiting t ht).stored

/-- The next task of a batch that is cut in two: nothing of it has changed yet. -/
theorem Scheduling.next {done rest : List Task} {t : Task}
    (h : Scheduling C (done ++ t :: rest) w) :
    (w.dispatchedAll C done).attemptsOf t.id = w.attemptsOf t.id ∧
      ∃ u ∈ w.tasks, u ∈ (w.dispatchedAll C done).tasks ∧ SameTask u t ∧ u.status = .pending := by
  have hid : t.id ∉ done.map Task.id := by
    have hn := h.nodup
    rw [List.map_append, List.map_cons] at hn
    exact fun hm => (List.nodup_append.mp hn).2.2 _ hm _ List.mem_cons_self rfl
  obtain ⟨ha, hm⟩ := (h.sublist (List.sublist_append_left _ _)).frame hid
  obtain ⟨u, hu, hsame, hs⟩ := h.listed (List.mem_append_right _ List.mem_cons_self)
  exact ⟨ha, u, hu, (hm u hsame.id).mpr hu, hsame, hs⟩

end World

theorem take_readyTasks {k : ℕ} (done rest : List Task) :
    (readyTasks C k (done ++ rest)).take done.length = readyTasks C k done := by
  induction done generalizing k with
  | nil => rfl
  | cons t done ih =>
    rw [List.cons_append, readyTasks, List.length_cons, List.take_succ_cons, ih]
    rfl

/-! ### Losses -/

/-- A task of the batch that is dispatched and not announced is lost. -/
theorem lost_dispatched {done rest : List Task} {t : Task} (h : Scheduling C (done ++ t :: rest) w)
    (hw' : w'.toStore = (w.dispatchedAll C (done ++ t :: rest)).toStore)
    (hpub : w'.published = (w.announced (readyTasks C (w.drawn .pump) done)).published) :
    ¬ NoLostDispatch w w' := by
  obtain ⟨hatt, u, hu, _, hsame, hs⟩ := h.next
  obtain ⟨k, a, hk, haid, harun, hatt', hmem⟩ := h.dispatchedAll.opened List.mem_cons_self
  rw [← dispatchedAll_append] at hatt' hmem
  obtain ⟨_, _, n, hn, _, hkn⟩ := mem_readyTasks hk
  rw [dispatchedAll_drawn] at hn
  have hstore : w'.attemptsOf = (w.dispatchedAll C (done ++ t :: rest)).attemptsOf := by rw [hw']
  have hmem' : { t with status := .running } ∈ w'.tasks := by
    rw [show w'.tasks = _ from congrArg Store.tasks hw']
    exact hmem
  refine not_noLostDispatch hu hs (h.sound.settled hu hs) hmem' hsame.id.symm (.inr rfl)
    (by rw [hstore, hsame.id, hatt', hatt]) harun fun q hq he => ?_
  have hid : a.id.uuid = C.ids.uuid .pump n := by
    rw [haid]
    exact congrArg (fun r => r.taskRunId.uuid) hkn
  rw [hid] at he
  rw [hpub, World.announced, List.mem_append] at hq
  rcases hq with hq | hq
  · exact h.sound.inv.not_published_of_le (by omega) q hq he
  · obtain ⟨r, hr, rfl⟩ := List.mem_map.mp hq
    obtain ⟨_, _, n', _, hlt, rfl⟩ := mem_readyTasks hr
    have := (C.ids.inj he).2
    omega

/-- A task whose dispatch stopped behind the save of its attempt is lost. -/
theorem lost_dispatching {done rest : List Task} {t : Task} (n : ℕ)
    (h : Scheduling C (done ++ t :: rest) w) :
    ¬ NoLostDispatch w ((w.dispatchedAll C done).dispatchedUntil C t (n + 2)) := by
  obtain ⟨hatt, u, hu, hu', hsame, hs⟩ := h.next
  have hinv := h.dispatchedAll.sound.inv
  have hopen : ((w.dispatchedAll C done).dispatchedUntil C t (n + 2)).attemptsOf u.id =
      w.attemptsOf u.id ++ [(w.dispatchedAll C done).nextTaskRun C t] := by
    rw [hsame.id, ← hatt]
    rcases n with _ | n <;> exact Store.attemptsOf_save_new
      (s := (w.dispatchedAll C done).toStore) (r := (w.dispatchedAll C done).nextTaskRun C t)
      hinv.not_has_nextTaskRun
  have hpub : ((w.dispatchedAll C done).dispatchedUntil C t (n + 2)).published =
      (w.dispatchedAll C done).published := by
    rcases n with _ | n <;> rfl
  have hannounced := hinv.not_published_of_le (le_refl _)
  rw [← hpub] at hannounced
  have hset := h.sound.settled hu hs
  rcases n with _ | n
  · exact not_noLostDispatch hu hs hset hu' rfl (.inl hs) hopen rfl hannounced
  · have hmem : { t with status := .running } ∈
        ((w.dispatchedAll C done).dispatchedUntil C t (n + 1 + 2)).tasks := Table.mem_save_self _ _
    exact not_noLostDispatch hu hs hset hmem hsame.id.symm (.inr rfl) hopen rfl hannounced

/-- A pump that ends without a failure loses no dispatch. -/
theorem World.Sound.noLostDispatch_run (h : w.Sound C) (limit : Option ℕ) :
    NoLostDispatch w ((pumpRequests limit).run (exec C .pump) w).2 := by
  rw [← run_schedule]
  refine ⟨fun t ht hs t' ht' hid hs' => ?_, fun t ht hs r hr hrt => ?_⟩
  · have hbatch : t.id ∈ (w.batch C limit).map Task.id := by
      by_contra hn
      rw [run_schedule_eq] at ht'
      have := ((h.scheduling limit).frame hn).2 t' hid |>.mp ht'
      rw [Table.eq_of_key this ht hid, hs] at hs'
      exact absurd hs' (by simp)
    obtain ⟨v, hv, hvid⟩ := List.mem_map.mp hbatch
    obtain ⟨k, a, hready, haid, harun, hatt, _⟩ := (h.scheduling limit).opened hv
    obtain ⟨q, hq, hqr⟩ := published_schedule hready
    have hmem : a ∈ ((Action.schedule limit).run C w).attemptsOf t.id := by
      rw [run_schedule_eq, ← hvid]
      exact hatt ▸ List.mem_append_right _ (List.mem_singleton_self _)
    obtain ⟨ha, hat⟩ := Store.mem_attemptsOf.mp hmem
    refine ⟨a, ha, hat, by rw [harun]; rfl, q, hq, ?_, ?_⟩
    · rw [hqr, ← hvid]
      rfl
    · rw [hqr, haid]
      rfl
  · exact (h.run (a := .schedule limit) trivial).settled ht hs r
      (Store.mem_attemptsOf.mpr ⟨hr, hrt⟩)

/-- A pump that stopped after a dispatch, or in the next one before its attempt was
saved, has lost the first task. -/
theorem lost_first {batch : List Task} (h : Scheduling C batch w) {done rest : List Task}
    (hb : batch = done ++ rest) (hw' : w'.toStore = (w.dispatchedAll C done).toStore)
    (hpub : w'.published = w.published)
    (hgrown : w.taskRuns.rows.length < w'.taskRuns.rows.length) : ¬ NoLostDispatch w w' := by
  cases done with
  | nil =>
    rw [show w'.taskRuns = w.taskRuns from congrArg Store.taskRuns hw'] at hgrown
    exact absurd hgrown (lt_irrefl _)
  | cons t done =>
    have hs : Scheduling C ([] ++ t :: done) w := h.sublist (hb ▸ List.sublist_append_left _ _)
    refine lost_dispatched hs hw' ?_
    rw [hpub, World.announced, readyTasks, List.map_nil, List.append_nil]

/-- A stop in the scheduling of a batch, behind the save of an attempt. -/
theorem lost_partly {batch : List Task} (h : Scheduling C batch w)
    (hp : w.PartlyDispatched C batch w')
    (hgrown : w.taskRuns.rows.length < w'.taskRuns.rows.length) : ¬ NoLostDispatch w w' := by
  obtain ⟨done, rest, rfl, rfl | ⟨t, ts, k, rfl, rfl⟩⟩ := hp
  · exact lost_first h rfl rfl (dispatchedAll_published done) hgrown
  · rcases k with _ | _ | k
    · exact lost_first h rfl rfl (dispatchedAll_published done) hgrown
    · exact lost_first h rfl rfl (dispatchedAll_published done) hgrown
    · exact lost_dispatching k h

/-- A stop before a publication. -/
theorem lost_publishing {batch : List Task} (h : Scheduling C batch w) {j : ℕ}
    (hj : j < batch.length) : ¬ NoLostDispatch w ((w.dispatchedAll C batch).announced
      ((readyTasks C (w.drawn .pump) batch).take j)) := by
  obtain ⟨done, t, rest, rfl, rfl⟩ : ∃ done t rest, batch = done ++ t :: rest ∧ done.length = j :=
    ⟨batch.take j, batch[j], batch.drop (j + 1), by simp, by simp; omega⟩
  refine lost_dispatched h rfl ?_
  rw [take_readyTasks, World.announced, dispatchedAll_published]
  rfl

/-- A pump loses no dispatch when it ends well; a failed call loses one exactly
when a task is ready and the call comes after the save of the first attempt. -/
theorem lostDispatch_iff (C : Config) (w : World) (hw : w.Reachable C) (limit : Option ℕ) :
    NoLostDispatch w ((pumpRequests limit).run (exec C .pump) w).2 ∧
    ∀ n w', Program.stopAt (exec C .pump) Op.fallible n (pumpRequests limit) w = (none, w') →
      (NoLostDispatch w w' ↔ w.batch C limit = [] ∨ n ≤ firstDispatch C w limit + 1) := by
  refine ⟨hw.sound.noLostDispatch_run limit, fun n w' hstop => ?_⟩
  constructor
  · intro h
    by_contra hnot
    rw [not_or, Nat.not_le] at hnot
    have hs := hw.sound.scheduling limit
    rcases stopAt_pumpRequests C w limit n w' hstop with hsched | ⟨j, hj, rfl⟩
    · have hp := stopAt_scheduleReadyTasks C w limit n (by rw [hsched])
      have hgrown := stopAt_scheduleReadyTasks_gt C w hnot.1 hw.sound.inv.not_has_nextTaskRun hnot.2
      rw [hsched] at hp hgrown
      exact lost_partly hs hp hgrown h
    · exact lost_publishing hs hj h
  · intro h
    by_cases hbatch : w.batch C limit = []
    · rcases stopAt_pumpRequests C w limit n w' hstop with hsched | ⟨j, hj, _⟩
      · have hp := stopAt_scheduleReadyTasks C w limit n (by rw [hsched])
        rw [hsched, hbatch] at hp
        obtain ⟨done, rest, hnil, hw'⟩ := hp
        obtain ⟨rfl, rfl⟩ := List.append_eq_nil_iff.mp hnil.symm
        obtain rfl | ⟨_, _, _, hcons, _⟩ := hw'
        · exact hw.sound.noLostDispatch rfl
        · exact absurd hcons (by simp)
      · rw [hbatch] at hj
        exact absurd hj (Nat.not_lt_zero j)
    · obtain ⟨v, hv, hstore, _⟩ := stopAt_scheduleReadyTasks_le C w hbatch (h.resolve_left hbatch)
      rw [pumpRequests, Program.stopAt_bind_none _ _ _ _ _ _ (by rw [hv]), hv] at hstop
      exact hw.sound.noLostDispatch ((Prod.mk.inj hstop).2 ▸ hstore)

/-- A created run whose extractor, task 7, is ready. -/
def createdOnce : World :=
  Action.runAll (.paired 3) [.create 0 ⟨0⟩ "default" .null] World.empty

theorem createdOnce_reachable : createdOnce.Reachable (.paired 3) :=
  World.Reachable.runAll _ (by decide)

theorem lostDispatch_iff_created : ∃ w limit,
    (w.batch (.paired 3) limit).length = 1 ∧
    NoLostDispatch w ((pumpRequests limit).run (exec (.paired 3) .pump) w).2 ∧
    ∀ n w', Program.stopAt (exec (.paired 3) .pump) Op.fallible n (pumpRequests limit) w =
        (none, w') →
      (NoLostDispatch w w' ↔
        w.batch (.paired 3) limit = [] ∨ n ≤ firstDispatch (.paired 3) w limit + 1) :=
  ⟨createdOnce, none, by decide, lostDispatch_iff _ _ createdOnce_reachable none⟩

/-- The publication of the only request fails, and the extractor is left running. -/
theorem pump_loses_dispatch : ¬ ∀ (w : World) (limit : Option ℕ) (n : ℕ),
    w.Reachable (.paired 3) → NoLostDispatch w
      (Program.stopAt (exec (.paired 3) .pump) Op.fallible n (pumpRequests limit) w).2 := by
  intro h
  have hlost := h createdOnce none 7 createdOnce_reachable
  have hpending : ∃ t ∈ createdOnce.tasks.rows, t.id = ⟨7⟩ ∧ t.status = .pending := by decide
  have hrunning : ∃ t ∈ (Program.stopAt (exec (.paired 3) .pump) Op.fallible 7 (pumpRequests none)
      createdOnce).2.tasks.rows, t.id = ⟨7⟩ ∧ t.status = .running := by decide
  have hsilent : (Program.stopAt (exec (.paired 3) .pump) Op.fallible 7 (pumpRequests none)
      createdOnce).2.published.length = 0 := by decide
  obtain ⟨t, ht, htid, hts⟩ := hpending
  obtain ⟨t', ht', htid', hts'⟩ := hrunning
  obtain ⟨_, _, _, _, q, hq, _⟩ := hlost.announced t ht hts t' ht' (htid'.trans htid.symm) hts'
  rw [List.eq_nil_of_length_eq_zero hsilent] at hq
  exact absurd hq List.not_mem_nil

end Contexide.Workflow
