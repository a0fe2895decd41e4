import Contexide.Workflow.Interference

/-! The planner is safe: whatever the other components do between its calls, it
inserts one created run and then pending tasks of that run, all under
identifiers of its own. -/

namespace Contexide.Workflow

open Effects Storage

variable {C : Config} {i : Proc}

/-- One more task under the identifier that is drawn now. -/
theorem Unsaved.draw {T : Traced} {ts : List Task} {t : Task} (h : Unsaved C i ts T)
    (hinv : T.Inv C) (hid : t.id = ⟨C.ids.uuid i (T.world.drawn i)⟩) (hp : t.status = .pending)
    (hrun : T.world.dagRuns.Has t.dagRunId) :
    Unsaved C i (ts ++ [t]) (trace C i .newTaskId T).2 := by
  have hk : Unsaved C i ts (trace C i .newTaskId T).2 := h.kept fun _ _ => by simp [Op.writes]
  have hmem : ∀ {u}, u ∈ ts ++ [t] → u ∈ ts ∨ u = t := fun hu => by simpa using hu
  refine ⟨?_, fun u hu => ?_, fun u hu => ?_, fun u hu => ?_, fun u hu => ?_⟩
  · rw [List.map_append, List.nodup_append]
    refine ⟨h.nodup, by simp, fun a ha b hb => ?_⟩
    obtain ⟨u, hu, rfl⟩ := List.mem_map.mp ha
    obtain rfl : b = t.id := by simpa using hb
    intro he
    have hd := h.drawn u hu
    rw [he, hid] at hd
    exact World.not_drawn_next i i hd
  · rcases hmem hu with hu | rfl
    · exact hk.drawn u hu
    · rw [hid]
      exact World.drawn_draw_self i
  · rcases hmem hu with hu | rfl
    · exact hk.fresh u hu
    · rintro ⟨v, hv, he⟩
      obtain ⟨j, hj⟩ := hinv.stores.taskDrawn v hv
      rw [he, hid] at hj
      exact World.not_drawn_next i j hj
  · rcases hmem hu with hu | rfl
    · exact hk.pending u hu
    · exact hp
  · rcases hmem hu with hu | rfl
    · exact hk.run u hu
    · exact hrun

theorem has_dagRun_stable (d : DagRunId) :
    (discipline C).Stable i fun T => T.world.dagRuns.Has d :=
  fun _ _ _ _ _ h _ => dagRun_has_kept h

/-- No task is built. -/
theorem no_task_safe {F : Traced → Prop} (hF : Frame C i F) (d : DagRunId) (acc : List Task) :
    (discipline C).Triple i (fun T => (Unsaved C i acc T ∧ T.world.dagRuns.Has d) ∧ F T)
      (pure []) fun ts T => Unsaved C i (acc ++ ts) T ∧ F T := by
  have hstable := ((Unsaved.stable C i acc).and (has_dagRun_stable d)).and hF.stable
  refine Discipline.Triple.pure hstable fun T _ h => ?_
  rw [List.append_nil]
  exact ⟨h.1.1, h.2⟩

/-- A task is built under a new identifier, and then the others. -/
theorem next_task_safe {F : Traced → Prop} (hF : Frame C i F) {d : DagRunId} {acc : List Task}
    {task : TaskId → Task} (hid : ∀ id, (task id).id = id) (hp : ∀ id, (task id).status = .pending)
    (hd : ∀ id, (task id).dagRunId = d) {rest : Prog (List Task)}
    (hrest : ∀ id, (discipline C).Triple i
      (fun T => (Unsaved C i (acc ++ [task id]) T ∧ T.world.dagRuns.Has d) ∧ F T) rest
      fun ts T => Unsaved C i (acc ++ [task id] ++ ts) T ∧ F T) :
    (discipline C).Triple i (fun T => (Unsaved C i acc T ∧ T.world.dagRuns.Has d) ∧ F T)
      (newTaskId >>= fun id => rest >>= fun ts => pure (task id :: ts))
      fun ts T => Unsaved C i (acc ++ ts) T ∧ F T := by
  have hstable := ((Unsaved.stable C i acc).and (has_dagRun_stable d)).and hF.stable
  refine perform_safe .newTaskId hstable
    (R := fun id T => (Unsaved C i (acc ++ [task id]) T ∧ T.world.dagRuns.Has d) ∧ F T)
    (fun T hinv h => ⟨⟨by simp [Op.writes], trivial⟩, ⟨?_, dagRun_has_kept h.1.2⟩,
      hF.draw T h.2⟩) fun id => ?_
  · exact h.1.1.draw hinv (hid _) (hp _) (by rw [hd]; exact h.1.2)
  · refine Discipline.Triple.bind (hrest id) fun ts => ?_
    refine Discipline.Triple.pure ((Unsaved.stable C i _).and hF.stable) fun T _ h => ?_
    rwa [List.append_assoc] at h

namespace Planner

theorem buildTasks_safe {F : Traced → Prop} (hF : Frame C i F) (d : DagRunId) (tenant : TenantId)
    (input : Json) (kinds : List String) (idx : ℕ) (acc : List Task) :
    (discipline C).Triple i (fun T => (Unsaved C i acc T ∧ T.world.dagRuns.Has d) ∧ F T)
      (buildTasks d tenant input idx kinds) fun ts T => Unsaved C i (acc ++ ts) T ∧ F T := by
  induction kinds generalizing idx acc with
  | nil => exact no_task_safe hF d acc
  | cons kind kinds ih =>
    rw [buildTasks]
    apply next_task_safe hF
    · exact fun _ => rfl
    · exact fun _ => rfl
    · exact fun _ => rfl
    · exact fun id => ih (idx + 1) _

theorem createDagRun_safe (n : ℕ) (tenant : TenantId) (profile : String) (input : Json) :
    (discipline C).Triple (.planner n) (fun _ => True) (createDagRun tenant profile input)
      fun _ _ => True := by
  have hnext : ∀ T : Traced, T.Inv C →
      ¬ T.world.dagRuns.Has ⟨C.ids.uuid (.planner n) (T.world.drawn (.planner n))⟩ := by
    rintro T hinv ⟨d, hd, he⟩
    obtain ⟨j, hj⟩ := hinv.stores.runDrawn d hd
    rw [he] at hj
    exact World.not_drawn_next _ j hj
  refine perform_safe .newDagRunId Discipline.Stable.true
    (R := fun id T => T.world.Drawn C (.planner n) id.uuid ∧ ¬ T.world.dagRuns.Has id)
    (fun T hinv _ => ⟨⟨by simp [Op.writes], trivial⟩, World.drawn_draw_self _, hnext T hinv⟩)
    fun id => ?_
  refine perform_safe (.dagRunSave _) (R := fun _ T => T.world.dagRuns.Has id) ?_ ?_ fun _ => ?_
  · intro j op T hj _ h hp
    exact ⟨Drawn.kept h.1, not_stored_exec (x := .dagRun id) h.2
      (notMem_writes_of_drawn hp hj h.1 h.2)⟩
  · intro T hinv h
    refine ⟨⟨fun x hx => ?_, ⟨h.2, h.1, rfl⟩⟩, Table.has_save.mpr (.inl rfl)⟩
    obtain rfl : x = .dagRun id := List.mem_singleton.mp hx
    exact hinv.stale_of_not_stored _ h.2
  · refine Discipline.Triple.bind ((buildTasks_safe (Frame.true C _) id tenant input
      profileSequence 0 []).weaken (fun T _ h => ⟨⟨Unsaved.nil, h⟩, trivial⟩)
      fun _ _ h => h) fun ts => ?_
    exact Discipline.Triple.bind (saveTasks_safe (by simp) (Frame.true C _) ts) fun _ =>
      Discipline.Triple.pure Discipline.Stable.true fun _ _ _ => trivial

end Planner

end Contexide.Workflow
