import Contexide.Storage.Overlap

/-! When no two calls that overlap are about the same row, and no deletion by parent meets
a call that changes the bucket of its parent, the calls might as well have run one after
another, in the order in which they began: they return the same answers, and once all have
returned, every row and every listing is the same. -/

namespace Contexide.Storage.ChildTable

variable {K P V : Type} [DecidableEq K] [DecidableEq P] {key : V → K} {parent : V → P}

namespace Section

/-- The keys that a section is about. -/
def keys : Section P K → List K
  | .indexAdd _ k => [k]
  | .indexRemove _ k => [k]
  | .removeRows _ ks => ks

/-- Whether the section changes the bucket of a parent. -/
def Changes (p : P) : Section P K → Prop
  | .indexAdd q _ => q = p
  | .indexRemove q _ => q = p
  | .removeRows _ _ => False

instance (p : P) : DecidablePred (Changes p : Section P K → Prop)
  | .indexAdd q _ => inferInstanceAs (Decidable (q = p))
  | .indexRemove q _ => inferInstanceAs (Decidable (q = p))
  | .removeRows _ _ => .isFalse id

/-- The rows that the section is to remove, with the parent they were taken from. -/
def drops : Section P K → List (P × K)
  | .removeRows p ks => ks.map (Prod.mk p)
  | _ => []

end Section

/-- Nothing under way is about the row that the call is about; a deletion by parent finds
no change of its bucket under way. -/
def Change.Apart (pending : List (Section P K)) : Change key parent → Prop
  | .save entity => ∀ sec ∈ pending, key entity ∉ sec.keys
  | .delete k => ∀ sec ∈ pending, k ∉ sec.keys
  | .deleteByParent p => ∀ sec ∈ pending, ¬ sec.Changes p
  | .modify k _ _ _ => ∀ sec ∈ pending, k ∉ sec.keys

instance (pending : List (Section P K)) :
    DecidablePred (Change.Apart pending : Change key parent → Prop)
  | .save entity => inferInstanceAs (Decidable (∀ sec ∈ pending, key entity ∉ sec.keys))
  | .delete k => inferInstanceAs (Decidable (∀ sec ∈ pending, k ∉ sec.keys))
  | .deleteByParent p => inferInstanceAs (Decidable (∀ sec ∈ pending, ¬ sec.Changes p))
  | .modify k _ _ _ => inferInstanceAs (Decidable (∀ sec ∈ pending, k ∉ sec.keys))

/-- The rows whose buckets are taken and that are still there. -/
def Shared.dropping (s : Shared key P) : List (P × K) := s.pending.flatMap Section.drops

/-- Every call of a run begins apart from those under way. -/
def Shared.Guarded (s : Shared key P) : List (Act key parent) → Prop
  | [] => True
  | .start ch :: acts => ch.Apart s.pending ∧ (s.start ch).Guarded acts
  | .next i :: acts => (s.step (.next i : Act key parent)).Guarded acts

instance Shared.decidableGuarded (s : Shared key P) :
    (acts : List (Act key parent)) → Decidable (s.Guarded acts)
  | [] => .isTrue trivial
  | .start ch :: acts =>
    have := decidableGuarded (s.start ch) acts
    inferInstanceAs (Decidable (ch.Apart s.pending ∧ (s.start ch).Guarded acts))
  | .next i :: acts => decidableGuarded (s.step (.next i : Act key parent)) acts

/-- The calls of a run in the order in which they began. -/
def Act.calls : List (Act key parent) → List (Change key parent)
  | [] => []
  | .start ch :: acts => ch :: calls acts
  | .next _ :: acts => calls acts

/-- The calls one after another. -/
def runAll (c : ChildTable key P) : List (Change key parent) → List Answer × ChildTable key P
  | [] => ([], c)
  | ch :: chs => ((ch.alone c).1 :: (runAll (ch.alone c).2 chs).1, (runAll (ch.alone c).2 chs).2)

/-! ### What a call has before it -/

/-- The sections that a call can have before it, and what they say of its rows. -/
inductive Plan (parent : V → P) (t : Table key) : List (Section P K) → Prop
  | done : Plan parent t []
  | add {p : P} {k : K} (h : filed parent t p k = 1) : Plan parent t [.indexAdd p k]
  | remove {p : P} {k : K} (h : t.get k = none) : Plan parent t [.indexRemove p k]
  | move {p q : P} {k : K} (hne : p ≠ q) (h : filed parent t q k = 1) :
      Plan parent t [.indexRemove p k, .indexAdd q k]
  | drop {p : P} {ks : List K} (hn : ks.Nodup) (h : ∀ k ∈ ks, filed parent t p k = 1) :
      Plan parent t [.removeRows p ks]

namespace Task

def keys (t : Task P K) : List K := t.rest.flatMap Section.keys

/-- What the call will return. -/
def result (t : Task P K) : Answer :=
  match t.rest with
  | .removeRows _ ks :: _ => .removed ks.length
  | _ => t.answer

/-- Two calls are about different rows. -/
def Disjoint (t u : Task P K) : Prop := ∀ k ∈ t.keys, k ∉ u.keys

omit [DecidableEq K] [DecidableEq P] in
theorem Disjoint.symm {t u : Task P K} (h : Disjoint t u) : Disjoint u t :=
  fun k hk hk' => h k hk' hk

end Task

theorem filed_le_one (parent : V → P) (t : Table key) (p : P) (k : K) : filed parent t p k ≤ 1 := by
  unfold filed
  cases t.get k with
  | none => exact Nat.zero_le _
  | some v =>
    show (if _ then 1 else 0) ≤ 1
    split
    · exact Nat.le_refl _
    · exact Nat.zero_le _

theorem filed_eq_one {t : Table key} {p : P} {k : K} :
    filed parent t p k = 1 ↔ ∃ v ∈ t, key v = k ∧ parent v = p := by
  constructor
  · intro h
    cases hget : t.get k with
    | none =>
      rw [filed_of_get_none hget] at h
      cases h
    | some v =>
      obtain ⟨hv, hk⟩ := Table.get_eq_some.mp hget
      rw [filed_of_get hget] at h
      exact ⟨v, hv, hk, by simpa using h⟩
  · rintro ⟨v, hv, rfl, rfl⟩
    rw [filed_of_mem hv, if_pos rfl]

/-- A row has one parent. -/
theorem filed_eq_ite {t : Table key} {p : P} {k : K} (h : filed parent t p k = 1) (q : P) :
    filed parent t q k = if p = q then 1 else 0 := by
  obtain ⟨v, hv, rfl, rfl⟩ := filed_eq_one.mp h
  exact filed_of_mem hv

theorem filed_congr {t t' : Table key} {p : P} {k : K} (h : t'.get k = t.get k) :
    filed parent t' p k = filed parent t p k := by
  rw [filed, filed, h]

/-- A plan stands as long as the rows it is about do. -/
theorem Plan.congr {t t' : Table key} {rest : List (Section P K)} (h : Plan parent t rest)
    (hget : ∀ k ∈ rest.flatMap Section.keys, t'.get k = t.get k) : Plan parent t' rest := by
  cases h with
  | done => exact .done
  | add h => exact .add ((filed_congr (hget _ (by simp [Section.keys]))).trans h)
  | remove h => exact .remove ((hget _ (by simp [Section.keys])).trans h)
  | move hne h => exact .move hne ((filed_congr (hget _ (by simp [Section.keys]))).trans h)
  | drop hn h =>
    exact .drop hn fun k hk => (filed_congr (hget k (by simpa [Section.keys]))).trans (h k hk)

/-! ### Calls about one row -/

namespace Section

/-- Whether the section is one of the index. -/
def OfIndex : Section P K → Prop
  | .removeRows _ _ => False
  | _ => True

omit [DecidableEq K] [DecidableEq P] in
theorem ofIndex_of_keys {sec : Section P K} {k : K} (h : sec.keys = [k] ∧ sec.drops = []) :
    sec.OfIndex := by
  cases sec with
  | indexAdd => trivial
  | indexRemove => trivial
  | removeRows p ks =>
    obtain ⟨hkeys, hdrops⟩ := h
    rw [show ks = [k] from hkeys] at hdrops
    cases hdrops

theorem run_ofIndex {sec : Section P K} (h : sec.OfIndex) (c : ChildTable key P)
    (answer : Answer) :
    (sec.run c answer).1 = answer ∧ (sec.run c answer).2.byKey = c.byKey := by
  cases sec with
  | indexAdd => exact ⟨rfl, rfl⟩
  | indexRemove => exact ⟨rfl, rfl⟩
  | removeRows => exact absurd h id

end Section

namespace Change

variable {k : K} {ch : Change key parent}

/-- The row that a call is about. -/
def key? : Change key parent → Option K
  | .save entity => some (key entity)
  | .delete k => some k
  | .deleteByParent _ => none
  | .modify k _ _ _ => some k

/-- What the call makes of the row. -/
def effect : Change key parent → Option V → Option V
  | .save entity, _ => some entity
  | .delete _, _ => none
  | .deleteByParent _, row => row
  | .modify _ f _ _, row => row.map f

omit [DecidableEq P] in
theorem get_modify (c : ChildTable key P) (k : K) {f : V → V} (hkey : ∀ v, key (f v) = key v)
    (k' : K) : (c.modify k f).2.byKey.get k' =
      if k' = k then (c.byKey.get k).map f else c.byKey.get k' := by
  unfold ChildTable.modify
  cases hold : c.byKey.get k with
  | none =>
    dsimp only
    split
    · next hk => rw [hk, hold, Option.map_none]
    · rfl
  | some old =>
    obtain ⟨-, rfl⟩ := Table.get_eq_some.mp hold
    rw [Table.get_save, hkey, Option.map_some]
    simp only [eq_comm]

/-- The first section changes the one row, -/
theorem get_first (c : ChildTable key P) (hk : ch.key? = some k) (k' : K) :
    (ch.first c).2.byKey.get k' =
      if k' = k then ch.effect (c.byKey.get k) else c.byKey.get k' := by
  cases ch with
  | save entity =>
    obtain rfl := Option.some.inj hk
    have hfirst : (saveFirst parent c entity).2.byKey = c.byKey.save entity := by
      unfold saveFirst
      cases c.byKey.get (key entity) <;> rfl
    rw [first, hfirst, Table.get_save]
    simp only [effect, eq_comm]
  | delete k'' =>
    obtain rfl := Option.some.inj hk
    simp only [first, deleteFirst, effect]
    cases hold : c.byKey.get k'' with
    | none =>
      dsimp only
      split
      · next hk => rw [hk, hold]
      · rfl
    | some old => exact Table.get_remove _ _ _
  | deleteByParent p => cases hk
  | modify k'' f hkey hparent =>
    obtain rfl := Option.some.inj hk
    exact get_modify c k'' hkey k'

/-- and no bucket, -/
theorem byParent_first (c : ChildTable key P) (hk : ch.key? = some k) :
    (ch.first c).2.byParent = c.byParent := by
  cases ch with
  | save entity =>
    simp only [first, saveFirst]
    cases c.byKey.get (key entity) <;> rfl
  | delete k' =>
    simp only [first, deleteFirst]
    cases c.byKey.get k' <;> rfl
  | deleteByParent p => cases hk
  | modify k' f => exact byParent_modify c k' f

/-- and leaves sections about the row, -/
theorem keys_rest_first (c : ChildTable key P) (hk : ch.key? = some k) :
    ∀ sec ∈ (ch.first c).1.rest, sec.keys = [k] ∧ sec.drops = [] := by
  cases ch with
  | save entity =>
    obtain rfl := Option.some.inj hk
    simp only [first, saveFirst]
    cases c.byKey.get (key entity) with
    | none => simp [Section.keys, Section.drops]
    | some old =>
      dsimp only
      split <;> simp [Section.keys, Section.drops]
  | delete k' =>
    obtain rfl := Option.some.inj hk
    simp only [first, deleteFirst]
    cases c.byKey.get k' <;> simp [Section.keys, Section.drops]
  | deleteByParent p => cases hk
  | modify k' f => simp [first]

/-- as a plan. -/
theorem plan_first (c : ChildTable key P) (hk : ch.key? = some k) :
    Plan parent (ch.first c).2.byKey (ch.first c).1.rest := by
  cases ch with
  | save entity =>
    have hfiled : filed parent (c.byKey.save entity) (parent entity) (key entity) = 1 := by
      rw [filed_save, if_pos rfl, if_pos rfl]
    simp only [first, saveFirst]
    cases hold : c.byKey.get (key entity) with
    | none => exact .add hfiled
    | some old =>
      dsimp only
      split
      · next hne => exact .move hne hfiled
      · exact .done
  | delete k' =>
    simp only [first, deleteFirst]
    cases hold : c.byKey.get k' with
    | none => exact .done
    | some old => exact .remove (by rw [Table.get_remove, if_pos rfl])
  | deleteByParent p => cases hk
  | modify k' f => exact .done

/-- The answer depends on the row only. -/
theorem answer_first {c c' : ChildTable key P} (hk : ch.key? = some k)
    (hget : c.byKey.get k = c'.byKey.get k) :
    (ch.first c).1.answer = (ch.alone c').1 := by
  cases ch with
  | save entity =>
    simp only [first, saveFirst, alone]
    cases c.byKey.get (key entity) <;> rfl
  | delete k' =>
    obtain rfl := Option.some.inj hk
    simp only [first, deleteFirst, alone, ChildTable.delete]
    rw [hget]
    cases c'.byKey.get k' <;> rfl
  | deleteByParent p => cases hk
  | modify k' f =>
    obtain rfl := Option.some.inj hk
    simp only [first, alone, ChildTable.modify]
    rw [hget]
    cases c'.byKey.get k' <;> rfl

/-- No row goes in a later section, so the answer is known at once. -/
theorem result_first (c : ChildTable key P) (hk : ch.key? = some k) :
    (ch.first c).1.result = (ch.first c).1.answer := by
  have hkeys := keys_rest_first c hk
  unfold Task.result
  split
  · next p ks rest hrest =>
    rw [hrest] at hkeys
    exact absurd (Section.ofIndex_of_keys (hkeys _ List.mem_cons_self)) id
  · rfl

/-- What the first section makes of the rows depends on the rows only. -/
theorem byKey_first_congr {c c' : ChildTable key P} (h : c.byKey = c'.byKey)
    (hk : ch.key? = some k) : (ch.first c).2.byKey = (ch.first c').2.byKey := by
  cases ch with
  | save entity =>
    simp only [first, saveFirst]
    rw [h]
    cases c'.byKey.get (key entity) <;> rfl
  | delete k' =>
    simp only [first, deleteFirst]
    rw [h]
    cases c'.byKey.get k' with
    | none => exact h
    | some old => rfl
  | deleteByParent p => cases hk
  | modify k' f =>
    simp only [first, ChildTable.modify]
    rw [h]
    cases c'.byKey.get k' with
    | none => exact h
    | some old => rfl

/-- Alone, the call leaves the rows that its first section leaves. -/
theorem byKey_alone (c : ChildTable key P) (hk : ch.key? = some k) :
    (ch.alone c).2.byKey = (ch.first c).2.byKey := by
  cases ch with
  | save entity =>
    simp only [first, saveFirst, alone, byKey_save]
    cases c.byKey.get (key entity) <;> rfl
  | delete k' =>
    simp only [first, deleteFirst, alone, ChildTable.delete]
    cases c.byKey.get k' <;> rfl
  | deleteByParent p => cases hk
  | modify k' f => rfl

end Change

/-! ### Runs without deletions by parent

The rows are only changed in first sections, so that they are at any time what the calls
make of them one after another, whatever overlaps. Only the index can go wrong. -/

/-- The rows and the answers are those of `c` and of the calls one after another, and no
row goes with its bucket. -/
structure Rowwise (parent : V → P) (s : Shared key P) (c : ChildTable key P)
    (answers : List Answer) : Prop where
  conserved : s.Conserved parent
  rows : s.table.byKey = c.byKey
  answers : s.tasks.map Task.answer = answers
  index : ∀ sec ∈ s.pending, sec.OfIndex
  taken : ∀ p k, s.taken p k = 0
  dropped : ∀ p k, s.dropped p k = 0

namespace Rowwise

variable {s : Shared key P} {c : ChildTable key P} {answers : List Answer}

theorem empty : Rowwise parent (.empty : Shared key P) .empty [] where
  conserved := .empty
  rows := rfl
  answers := rfl
  index sec h := by cases h
  taken _ _ := rfl
  dropped _ _ := rfl

theorem start (h : Rowwise parent s c answers) {ch : Change key parent} {k : K}
    (hk : ch.key? = some k) :
    Rowwise parent (s.start ch) (ch.alone c).2 (answers ++ [(ch.alone c).1]) where
  conserved := h.conserved.start ch
  rows := by
    show (ch.first s.table).2.byKey = _
    rw [Change.byKey_alone c hk]
    exact Change.byKey_first_congr h.rows hk
  answers := by
    show List.map Task.answer (s.tasks ++ [(ch.first s.table).1]) = _
    rw [List.map_append, h.answers, List.map_singleton,
      Change.answer_first hk (congrArg (Table.get · k) h.rows)]
  index := by
    rw [Shared.pending_start, List.forall_mem_append]
    exact ⟨h.index, fun sec hsec => Section.ofIndex_of_keys (Change.keys_rest_first _ hk sec hsec)⟩
  taken p k' := by
    show s.taken p k' + (_ - entries (ch.first s.table).2 p k') = 0
    rw [h.taken, entries, entries, Change.byParent_first s.table hk, Nat.sub_self]
  dropped := h.dropped

theorem next (h : Rowwise parent s c answers) (i : ℕ) :
    Rowwise parent (s.step (.next i : Act key parent)) c answers := by
  unfold Shared.step
  dsimp only
  split
  · next answer sec rest htask =>
    have hpending := Shared.pending_pass parent htask
    have hindex := fun sec' hsec => h.index sec' (hpending.mem_iff.mpr hsec)
    obtain ⟨hanswer, hrows⟩ :=
      Section.run_ofIndex (hindex sec List.mem_cons_self) s.table answer
    refine ⟨h.conserved.pass htask, hrows.trans h.rows, ?_,
      fun sec' hsec => hindex sec' (List.mem_cons_of_mem _ hsec), h.taken, fun p k => ?_⟩
    · obtain ⟨hlt, hsame⟩ := List.getElem?_eq_some_iff.mp htask
      show (s.tasks.set i _).map Task.answer = answers
      rw [List.map_set, hanswer, ← h.answers]
      have hget : (s.tasks.map Task.answer)[i]? = some answer := by
        rw [List.getElem?_map, htask]
        rfl
      obtain ⟨hlt, hsame⟩ := List.getElem?_eq_some_iff.mp hget
      rw [← hsame, List.set_getElem_self]
    · show s.dropped p k + (_ - filed parent (sec.run s.table answer).2.byKey p k) = 0
      rw [h.dropped, hrows, Nat.sub_self]
  · exact h

theorem run (h : Rowwise parent s c answers) {acts : List (Act key parent)}
    (hkeys : ∀ ch ∈ Act.calls acts, ∃ k, ch.key? = some k) :
    Rowwise parent (s.run acts) (runAll c (Act.calls acts)).2
      (answers ++ (runAll c (Act.calls acts)).1) := by
  induction acts generalizing s c answers with
  | nil =>
    rw [Act.calls, runAll, List.append_nil]
    exact h
  | cons act acts ih =>
    cases act with
    | start ch =>
      obtain ⟨⟨k, hk⟩, hrest⟩ := List.forall_mem_cons.mp hkeys
      have hrun := ih (h.start hk) hrest
      rw [List.append_assoc] at hrun
      exact hrun
    | next i => exact ih (h.next i) hkeys

/-- With no call under way, a row is listed under its parent, and once more under every
parent for each removal there that found no entry of it. -/
theorem count_listed (h : Rowwise parent s c answers) (hidle : s.Idle) {v : V}
    (hv : v ∈ s.table.byKey) (p : P) :
    (((bucket s.table.byParent p).filterMap s.table.byKey.get).map key).count (key v) =
      (if parent v = p then 1 else 0) + s.missed p (key v) := by
  have hcount := h.conserved.count_listed hidle hv p
  rw [h.taken, h.dropped] at hcount
  exact hcount

end Rowwise

end Contexide.Storage.ChildTable
