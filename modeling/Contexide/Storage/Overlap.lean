import Contexide.Storage.Sections

/-! Runs of overlapping calls on a child table, and what becomes of the entries of its
index: an entry stands for a row of its parent, is about to be added or removed, was
missed by a removal that found none, or was left behind when its row went; or it was taken
out with its bucket. With no call under way this says how often each row
is listed. -/

namespace Contexide.Storage.ChildTable

variable {K P V : Type} [DecidableEq K] [DecidableEq P] {key : V → K} {parent : V → P}

/-- A child table and the calls on it. The last three fields are a record that the code
does not keep: removals of an entry that found none, entries taken out with their bucket,
and rows removed after their bucket was taken. -/
structure Shared (key : V → K) (P : Type) where
  table : ChildTable key P
  tasks : List (Task P K)
  missed : P → K → ℕ
  taken : P → K → ℕ
  dropped : P → K → ℕ

/-- A call begins, or the call at a position goes through its next section. -/
inductive Act (key : V → K) (parent : V → P) where
  | start (change : Change key parent)
  | next (i : ℕ)

namespace Shared

def empty : Shared key P :=
  { table := .empty, tasks := [], missed := fun _ _ => 0, taken := fun _ _ => 0
    dropped := fun _ _ => 0 }

def start (s : Shared key P) (change : Change key parent) : Shared key P :=
  { s with
    table := (change.first s.table).2
    tasks := s.tasks ++ [(change.first s.table).1]
    taken := fun p k => s.taken p k + (entries s.table p k - entries (change.first s.table).2 p k) }

/-- The call at `i` goes through `sec`, and has `rest` left. -/
def pass (parent : V → P) (s : Shared key P) (i : ℕ) (answer : Answer) (sec : Section P K)
    (rest : List (Section P K)) : Shared key P :=
  { table := (sec.run s.table answer).2
    tasks := s.tasks.set i ⟨(sec.run s.table answer).1, rest⟩
    missed := fun p k => s.missed p k +
      if sec = .indexRemove p k ∧ entries s.table p k = 0 then 1 else 0
    taken := s.taken
    dropped := fun p k => s.dropped p k + (filed parent s.table.byKey p k -
      filed parent (sec.run s.table answer).2.byKey p k) }

def step (s : Shared key P) : Act key parent → Shared key P
  | .start change => s.start change
  | .next i =>
    match s.tasks[i]? with
    | some ⟨answer, sec :: rest⟩ => s.pass parent i answer sec rest
    | _ => s

def run (s : Shared key P) (acts : List (Act key parent)) : Shared key P := acts.foldl step s

/-- The sections that the calls under way have before them. -/
def pending (s : Shared key P) : List (Section P K) := s.tasks.flatMap Task.rest

/-- Every call has returned. -/
def Idle (s : Shared key P) : Prop := ∀ task ∈ s.tasks, task.rest = []

instance (s : Shared key P) : Decidable s.Idle :=
  inferInstanceAs (Decidable (∀ task ∈ s.tasks, task.rest = []))

/-- The rows that are or were filed under a parent are the entries that are, are to come
or were taken. -/
def Conserved (parent : V → P) (s : Shared key P) : Prop := ∀ p k,
  entries s.table p k + s.pending.count (.indexAdd p k) + s.taken p k =
    filed parent s.table.byKey p k + s.pending.count (.indexRemove p k) + s.missed p k +
      s.dropped p k

end Shared

/-! ### One section -/

/-- A first section files a row exactly when an addition is to come, and takes one off its
parent exactly when a removal is. -/
theorem Change.filed_first (ch : Change key parent) (c : ChildTable key P) (p : P) (k : K) :
    filed parent c.byKey p k + (ch.first c).1.rest.count (.indexAdd p k) =
      filed parent (ch.first c).2.byKey p k + (ch.first c).1.rest.count (.indexRemove p k) := by
  cases ch with
  | save entity =>
    simp only [first, saveFirst]
    cases hold : c.byKey.get (key entity) with
    | none =>
      simp only [filed_save, List.count_singleton, beq_iff_eq, Section.indexAdd.injEq,
        reduceCtorEq, if_false]
      by_cases hk : key entity = k
      · subst hk
        simp [filed_of_get_none hold]
      · simp [hk]
    | some old =>
      obtain ⟨hmem, hkey⟩ := Table.get_eq_some.mp hold
      by_cases hk : key entity = k
      · subst hk
        rw [filed_save, if_pos rfl, filed_of_get hold]
        by_cases hp : parent old = parent entity
        · simp [hp]
        · simp [hp, List.count_cons]
          omega
      · rw [filed_save, if_neg hk]
        by_cases hp : parent old = parent entity
        · simp [hp]
        · simp [hp, hk]
  | delete k' =>
    simp only [first, deleteFirst]
    cases hold : c.byKey.get k' with
    | none => simp
    | some old =>
      simp only [filed_remove, List.count_singleton, beq_iff_eq, Section.indexRemove.injEq,
        reduceCtorEq, if_false]
      by_cases hk : k = k'
      · subst hk
        simp [filed_of_get hold]
      · simp [hk, Ne.symm hk]
  | deleteByParent p' =>
    simp only [first, deleteByParentFirst]
    split <;> simp
  | modify k' f hkey hparent => simp [first, filed_modify hkey hparent]

/-- Entries go in a first section only, and only by being taken. -/
theorem Change.entries_first_le (ch : Change key parent) (c : ChildTable key P) (p : P) (k : K) :
    entries (ch.first c).2 p k ≤ entries c p k := by
  cases ch with
  | save entity =>
    simp only [first, saveFirst]
    cases c.byKey.get (key entity) <;> exact Nat.le_refl _
  | delete k' =>
    simp only [first, deleteFirst]
    cases c.byKey.get k' <;> exact Nat.le_refl _
  | deleteByParent p' =>
    simp only [first, deleteByParentFirst, entries, bucket, Assoc.find_remove]
    split
    · exact Nat.zero_le _
    · exact Nat.le_refl _
  | modify k' f =>
    simp only [first, entries, byParent_modify]
    exact Nat.le_refl _

/-- A later section adds the entry it is to add, removes the one it is to remove or misses
it, and otherwise takes rows off their parents. -/
theorem Section.run_balance (parent : V → P) (sec : Section P K) (c : ChildTable key P)
    (answer : Answer) (p : P) (k : K) :
    entries (sec.run c answer).2 p k + filed parent c.byKey p k +
        (if sec = .indexRemove p k then 1 else 0) =
      entries c p k + filed parent (sec.run c answer).2.byKey p k +
        (if sec = .indexAdd p k then 1 else 0) +
        (if sec = .indexRemove p k ∧ entries c p k = 0 then 1 else 0) +
        (filed parent c.byKey p k - filed parent (sec.run c answer).2.byKey p k) := by
  cases sec with
  | indexAdd q j =>
    simp only [run, entries, count_bucket_indexAdd, Section.indexAdd.injEq, reduceCtorEq,
      @eq_comm _ q, @eq_comm _ j, if_false, false_and]
    omega
  | indexRemove q j =>
    simp only [run, entries, count_bucket_indexRemove, Section.indexRemove.injEq, reduceCtorEq]
    by_cases h : q = p ∧ j = k
    · obtain ⟨rfl, rfl⟩ := h
      simp
      split <;> omega
    · have h' : ¬ (p = q ∧ k = j) := fun he => h ⟨he.1.symm, he.2.symm⟩
      simp [h, h']
  | removeRows q ks =>
    have hle : filed parent (removeAll ks c.byKey 0).2 p k ≤ filed parent c.byKey p k := by
      rw [filed_removeAll]
      split
      · exact Nat.zero_le _
      · exact Nat.le_refl _
    simp only [run, entries, reduceCtorEq, if_false, false_and]
    omega

/-! ### Every run -/

namespace Shared

variable {s : Shared key P}

theorem pending_start (s : Shared key P) (ch : Change key parent) :
    (s.start ch).pending = s.pending ++ (ch.first s.table).1.rest := by
  simp [pending, start]

theorem pending_pass (parent : V → P) {i : ℕ} {answer : Answer} {sec : Section P K}
    {rest : List (Section P K)} (h : s.tasks[i]? = some ⟨answer, sec :: rest⟩) :
    s.pending.Perm (sec :: (s.pass parent i answer sec rest).pending) := by
  obtain ⟨others, hperm, hset⟩ := exists_perm_cons_set h
  have hpass := (hset ⟨(sec.run s.table answer).1, rest⟩).flatMap_right Task.rest
  exact (hperm.flatMap_right Task.rest).trans (hpass.symm.cons sec)

theorem Conserved.start (h : Conserved parent s) (ch : Change key parent) :
    Conserved parent (s.start ch) := by
  intro p k
  have hfirst := ch.filed_first s.table p k
  have hle := ch.entries_first_le s.table p k
  have hs := h p k
  simp only [pending_start, List.count_append]
  simp only [Shared.start]
  omega

theorem Conserved.pass (h : Conserved parent s) {i : ℕ} {answer : Answer} {sec : Section P K}
    {rest : List (Section P K)} (htask : s.tasks[i]? = some ⟨answer, sec :: rest⟩) :
    Conserved parent (s.pass parent i answer sec rest) := by
  intro p k
  have hrun := sec.run_balance parent s.table answer p k
  have hs := h p k
  have hpending := pending_pass parent htask
  rw [hpending.count_eq, hpending.count_eq, List.count_cons, List.count_cons] at hs
  simp only [beq_iff_eq] at hs
  show entries (sec.run s.table answer).2 p k + _ + s.taken p k =
    filed parent (sec.run s.table answer).2.byKey p k + _ + (s.missed p k + _) +
      (s.dropped p k + _)
  omega

theorem Conserved.step (h : Conserved parent s) (act : Act key parent) :
    Conserved parent (s.step act) := by
  cases act with
  | start ch => exact h.start ch
  | next i =>
    unfold Shared.step
    dsimp only
    split
    · next htask => exact h.pass htask
    · exact h

theorem Conserved.empty : Conserved parent (.empty : Shared key P) := by
  intro p k
  rfl

/-- No run loses sight of an entry. -/
theorem Conserved.run (h : Conserved parent s) (acts : List (Act key parent)) :
    Conserved parent (s.run acts) := by
  induction acts generalizing s with
  | nil => exact h
  | cons act acts ih => exact ih (h.step act)

omit [DecidableEq K] [DecidableEq P] in
theorem Idle.pending_eq (h : Idle s) : s.pending = [] :=
  List.flatMap_eq_nil_iff.mpr h

end Shared

/-! ### Listings -/

/-- The rows of the keys of a bucket are listed as often as the bucket has the keys. -/
theorem count_filterMap_get {t : Table key} {v : V} (hv : v ∈ t) (ks : List K) :
    ((ks.filterMap t.get).map key).count (key v) = ks.count (key v) := by
  induction ks with
  | nil => rfl
  | cons k ks ih =>
    cases hget : t.get k with
    | none =>
      have hne : k ≠ key v := by
        rintro rfl
        rw [Table.get_of_mem hv] at hget
        cases hget
      rw [List.filterMap_cons_none hget, ih, List.count_cons_of_ne hne]
    | some u =>
      obtain ⟨-, rfl⟩ := Table.get_eq_some.mp hget
      rw [List.filterMap_cons_some hget, List.map_cons, List.count_cons, List.count_cons, ih]

/-- With no call under way, how often a stored row is listed under a parent. -/
theorem Shared.Conserved.count_listed {s : Shared key P} (h : Conserved parent s) (hidle : Idle s)
    {v : V} (hv : v ∈ s.table.byKey) (p : P) :
    (((bucket s.table.byParent p).filterMap s.table.byKey.get).map key).count (key v) +
        s.taken p (key v) =
      (if parent v = p then 1 else 0) + s.missed p (key v) + s.dropped p (key v) := by
  have hs := h p (key v)
  rw [hidle.pending_eq, filed_of_mem hv] at hs
  rw [count_filterMap_get hv]
  exact hs

end Contexide.Storage.ChildTable
