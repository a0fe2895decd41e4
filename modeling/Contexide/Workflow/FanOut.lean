import Contexide.Workflow.Steps

/-! Fan-out: which tasks a run holds beyond its plan. Every success that settles
an attempt adds one embedder task for each well-formed chunk set of its output.
The code does not look at the kind of the task that produced the output, so these
are the chunk sets of the run's chunkers only as long as no other task returns any. -/

namespace Contexide.Workflow

open Effects Storage Scheduler World

variable {C : Config} {w : World}

open Classical in
/-- The tasks of a run beyond those the planner created. -/
noncomputable def extraTasks (C : Config) (w : World) (d : DagRunId) : List Task :=
  (w.listByDagRun d).filter fun t => ¬ Planned C t.id

/-- The payload of the embedder task for a chunk set. -/
def embedPayload (C : Config) (chunkSet : Uuid) : Json :=
  .object [("chunk_set_id", .string (C.uuidText chunkSet))]

/-- The chunk sets of a first-processed success of a chunker of the run. -/
def fanOut (C : Config) (d : DagRunId) : World × Action → List Uuid
  | (w, .deliver m) =>
    if m.dagRunId = d ∧
        (∃ a ∈ w.taskRuns.rows, a.id = m.taskRunId ∧ a.status.isTerminal = false) ∧
        (∃ t ∈ w.tasks.rows, t.id = m.taskId ∧ t.kind = "chunker") then m.chunkSets C
    else []
  | _ => []

/-- A success with well-formed chunk sets comes from a chunker. -/
def ChunkSetsOfChunker (C : Config) (w : World) (m : WorkerStatus) : Prop :=
  m.chunkSets C ≠ [] → ∀ t ∈ w.tasks, t.id = m.taskId → t.kind = "chunker"

instance (C : Config) (w : World) (m : WorkerStatus) : Decidable (ChunkSetsOfChunker C w m) :=
  inferInstanceAs (Decidable (m.chunkSets C ≠ [] → ∀ t ∈ w.tasks.rows, _))

theorem map_payload_embedTasks (i : Proc) (d : DagRunId) (tenant : TenantId) (k : ℕ)
    (sets : List Uuid) :
    (embedTasks C i d tenant k sets).map Task.payload = sets.map (embedPayload C) := by
  induction sets generalizing k with
  | nil => rfl
  | cons chunkSet rest ih => rw [embedTasks, List.map_cons, ih]; rfl

theorem not_planned_of_status {id : TaskId} {k : ℕ} (h : id.uuid = C.ids.uuid .status k) :
    ¬ Planned C id := by
  rintro ⟨n, k', h'⟩
  exact absurd (C.ids.inj (h.symm.trans h')).1 (by simp)

/-- A save of another version of a task keeps the payloads of the extra tasks. -/
theorem payload_extraTasks_save {w' : World} {u t : Task} (hu : u ∈ w.tasks) (hsame : SameTask u t)
    (hw' : w'.tasks = w.tasks.save t) (d : DagRunId) :
    (extraTasks C w' d).map Task.payload = (extraTasks C w d).map Task.payload := by
  simp only [extraTasks, Store.listByDagRun, List.filter_filter, hw']
  exact Table.map_filter_rows_save hu hsame.id (by rw [hsame.id, hsame.run]) hsame.payload

theorem extraTasks_created {n : ℕ} {tenant : TenantId} {profile : String} {input : Json}
    (hw : w.Inv C) (d : DagRunId) :
    extraTasks C (w.created C n tenant profile input) d = extraTasks C w d := by
  have hnew : ∀ t ∈ Planner.nextTasks C (.planner n) w tenant input, Planned C t.id := by
    intro t ht
    obtain ⟨_, _, _, _, k, _, hid⟩ := Planner.mem_plannedTasks ht
    exact ⟨n, k, hid⟩
  simp only [extraTasks, Store.listByDagRun, rows_created_tasks hw, List.filter_append,
    List.filter_filter]
  refine (congrArg _ (List.filter_eq_nil_iff.mpr fun t ht => ?_)).trans (List.append_nil _)
  simp [hnew t ht]

theorem payload_extraTasks_delivered {m : WorkerStatus} {a : TaskRun} {u : Task} {x : DagRun}
    (hw : w.Inv C) (hd : Delivery m w a u x) (d : DagRunId) :
    (extraTasks C ((Action.deliver m).run C w) d).map Task.payload =
      (extraTasks C w d).map Task.payload ++
        if m.dagRunId = d then (m.chunkSets C).map (embedPayload C) else [] := by
  have hsave : (extraTasks C (w.putTask (Delivery.settledTask C m w u)) d).map Task.payload =
      (extraTasks C w d).map Task.payload :=
    payload_extraTasks_save hd.task (Delivery.settledTask_same C m w u) rfl d
  rw [← hsave]
  simp only [extraTasks, Store.listByDagRun, hd.rows_tasks hw, List.filter_append, List.map_append,
    putTask_tasks]
  congr 1
  have hnew : ∀ t ∈ Delivery.newTasks C m w u, t.dagRunId = m.dagRunId ∧ ¬ Planned C t.id :=
    fun t ht => by
      obtain ⟨hrun, _, _, _, k, _, _, hid⟩ := mem_embedTasks ht
      exact ⟨hrun.trans (hd.ofRun.trans hd.dagRunId), not_planned_of_status hid⟩
  rw [List.filter_filter]
  split
  · next he =>
    rw [List.filter_eq_self.mpr fun t ht => by simp [hnew t ht, he]]
    exact map_payload_embedTasks _ _ _ _ _
  · next he =>
    rw [List.filter_eq_nil_iff.mpr fun t ht => by simp [hnew t ht, he]]
    rfl

/-- One step adds exactly its fan-out. -/
theorem payload_extraTasks_run (hw : w.Sound C) {a : Action} (he : a.Enabled w)
    (ha : a.Allowed (ChunkSetsOfChunker C) w) (d : DagRunId) :
    (extraTasks C (a.run C w) d).map Task.payload =
      (extraTasks C w d).map Task.payload ++ (fanOut C d (w, a)).map (embedPayload C) := by
  cases a with
  | create n tenant profile input =>
    simp only [fanOut, List.map_nil, List.append_nil]
    exact congrArg _ (extraTasks_created hw.inv d)
  | schedule limit =>
    simp only [fanOut, List.map_nil, List.append_nil, run_schedule_eq]
    refine hw.scheduled (P := fun v => (extraTasks C v d).map Task.payload =
      (extraTasks C w d).map Task.payload) limit rfl fun v t _ ht _ h => ?_
    obtain ⟨u, hu, hsame, _⟩ := ht
    exact (payload_extraTasks_save hu (hsame.of_status .running) (dispatched_tasks v C t) d).trans h
  | deliver m =>
    obtain ⟨b, u, x, hb, hu, _, hbid, huid, _⟩ := he.announced hw.inv
    cases hterm : b.status.isTerminal with
    | true =>
      rw [deliver_terminal hb hbid hterm, fanOut, if_neg, List.map_nil, List.append_nil]
      rintro ⟨_, ⟨b', hb', hbid', hn⟩, _⟩
      obtain rfl : b' = b := Table.eq_of_key hb' hb (hbid'.trans hbid.symm)
      rw [hterm] at hn
      exact absurd hn (by simp)
    | false =>
      obtain ⟨u', x', hd⟩ := hw.inv.delivery he hb hbid hterm
      rw [payload_extraTasks_delivered hw.inv hd d, fanOut]
      congr 1
      by_cases hrun : m.dagRunId = d
      · by_cases hsets : m.chunkSets C = []
        · simp [hsets]
        · have hkind := ha b hb hbid hterm hsets u hu huid
          rw [if_pos hrun, if_pos ⟨hrun, ⟨b, hb, hbid, hterm⟩, u, hu, huid, hkind⟩]
      · rw [if_neg hrun, if_neg fun h => hrun h.1]
        rfl

/-- A status without fan-out adds no task. -/
theorem ids_deliver (hw : w.Inv C) {m : WorkerStatus} (he : Echoed m w)
    (ha : (Action.deliver m).Allowed (ChunkSetsOfChunker C) w)
    (hf : fanOut C m.dagRunId (w, .deliver m) = []) :
    ((Action.deliver m).run C w).tasks.rows.map Task.id = w.tasks.rows.map Task.id := by
  obtain ⟨b, u, x, hb, hu, _, hbid, huid, _⟩ := he.announced hw
  cases hterm : b.status.isTerminal with
  | true => rw [deliver_terminal hb hbid hterm]
  | false =>
    obtain ⟨u', x', hd⟩ := hw.delivery he hb hbid hterm
    have hsets : m.chunkSets C = [] := by
      by_contra hn
      rw [fanOut, if_pos ⟨rfl, ⟨b, hb, hbid, hterm⟩, u, hu, huid, ha b hb hbid hterm hn u hu huid⟩]
        at hf
      exact hn hf
    rw [hd.rows_tasks hw, Delivery.newTasks, hsets]
    simp only [embedTasks, List.append_nil]
    exact map_upsert_of_mem Task.id _ _ ⟨u', hd.task, (Delivery.settledTask_same C m w u').id⟩

/-- In every execution in which well-formed chunk sets come from chunkers only,
the tasks of a run beyond its plan are those of the first-processed successes of
its chunkers, and no other status adds a task. -/
theorem fanOut_exactly_once (C : Config) (steps : List (World × Action)) (w : World)
    (hx : Execution C steps w)
    (hc : ∀ s ∈ steps, s.2.Allowed (ChunkSetsOfChunker C) s.1) :
    (∀ d, ((extraTasks C w d).map Task.payload).Perm
      ((steps.flatMap (fanOut C d)).map (embedPayload C))) ∧
    ∀ v m, (v, Action.deliver m) ∈ steps → fanOut C m.dagRunId (v, .deliver m) = [] →
      ((Action.deliver m).run C v).tasks.rows.map Task.id = v.tasks.rows.map Task.id := by
  induction hx with
  | nil => exact ⟨fun d => .refl _, fun v m hm => absurd hm List.not_mem_nil⟩
  | @cons steps w a hx he ih =>
    obtain ⟨hperm, hids⟩ := ih fun s hs => hc s (List.mem_cons_of_mem _ hs)
    have hw : w.Sound C := Reachable.sound ⟨_, hx⟩
    have ha := hc _ List.mem_cons_self
    refine ⟨fun d => ?_, fun v m hm hf => ?_⟩
    · rw [payload_extraTasks_run hw he ha d, List.flatMap_cons, List.map_append]
      exact ((hperm d).append_right _).trans List.perm_append_comm
    · rcases List.mem_cons.mp hm with heq | hm
      · obtain ⟨rfl, rfl⟩ := Prod.mk.inj heq
        exact ids_deliver hw.inv he ha hf
      · exact hids v m hm hf

def nilText : String := "00000000-0000-0000-0000-000000000000"

/-- The chunker's output has a chunk set and is delivered twice. -/
def chunkerTwice : List Action :=
  Action.stagesDone [none, none, some (chunkSetsOutput nilText)] ++
    [.deliver (.success ⟨0⟩ ⟨6⟩ ⟨11⟩ ⟨4⟩ (some (chunkSetsOutput nilText)))]

theorem fanOut_exactly_once_chunker : ∃ (C : Config) (steps : List (World × Action)) (w : World),
    steps.flatMap (fanOut C ⟨6⟩) = [0] ∧
    (∀ d, ((extraTasks C w d).map Task.payload).Perm
      ((steps.flatMap (fanOut C d)).map (embedPayload C))) ∧
    ∀ v m, (v, Action.deliver m) ∈ steps → fanOut C m.dagRunId (v, .deliver m) = [] →
      ((Action.deliver m).run C v).tasks.rows.map Task.id = v.tasks.rows.map Task.id := by
  refine ⟨.canonical 3, Action.history _ chunkerTwice World.empty [], _, by decide,
    fanOut_exactly_once _ _ _ (Execution.nil.runAll _ (by decide)) (by decide)⟩

/-- The extractor's output has a chunk set: its run gets an embedder task, though
no chunker has succeeded. -/
theorem fanOut_of_extractor :
    ¬ ∀ (C : Config) (steps : List (World × Action)) (w : World), Execution C steps w →
      ∀ d, ((extraTasks C w d).map Task.payload).Perm
        ((steps.flatMap (fanOut C d)).map (embedPayload C)) := by
  intro h
  have hx := Execution.nil.runAll (C := .canonical 3)
    (Action.stagesDone [some (chunkSetsOutput nilText)]) (by decide)
  have hnone : (Action.history (.canonical 3)
      (Action.stagesDone [some (chunkSetsOutput nilText)]) World.empty []).flatMap
        (fanOut (.canonical 3) ⟨6⟩) = [] := by decide
  have hextra : ∃ t ∈ (Action.runAll (.canonical 3)
      (Action.stagesDone [some (chunkSetsOutput nilText)]) World.empty).tasks.rows,
      t.dagRunId = ⟨6⟩ ∧ t.id.uuid = IdSource.paired.uuid .status 0 := by decide
  obtain ⟨t, ht, hd, hid⟩ := hextra
  have hperm := h _ _ _ hx ⟨6⟩
  rw [hnone, List.map_nil, List.perm_nil, List.map_eq_nil_iff] at hperm
  have hmem : t ∈ extraTasks (.canonical 3) _ ⟨6⟩ :=
    List.mem_filter.mpr ⟨List.mem_filter.mpr ⟨ht, by simpa using hd⟩,
      by simpa using not_planned_of_status hid⟩
  rw [hperm] at hmem
  exact absurd hmem List.not_mem_nil

end Contexide.Workflow
