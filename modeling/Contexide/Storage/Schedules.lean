import Contexide.Storage.SerialRuns

/-! Repositories kept in a child table, each with calls of its own, under schedules: a
schedule says when a call begins and which of the calls under way goes on. -/

namespace Contexide.Storage.ChildTable

variable {K P V C : Type} [DecidableEq K] [DecidableEq P] {key : V → K} {parent : V → P}

/-- A step of a schedule: a call begins, or the call at a position goes on. -/
def Act.of (change : C → Change key parent) : C ⊕ ℕ → Act key parent
  | .inl call => .start (change call)
  | .inr i => .next i

/-- The repository and its calls after a schedule. -/
def Shared.after (change : C → Change key parent) (schedule : List (C ⊕ ℕ)) : Shared key P :=
  Shared.empty.run (schedule.map (Act.of change))

/-- The calls that a schedule begins. -/
def begun : List (C ⊕ ℕ) → List C
  | [] => []
  | .inl call :: schedule => call :: begun schedule
  | .inr _ :: schedule => begun schedule

/-- The calls one after another, and their answers. -/
def oneByOne (perform : ChildTable key P → C → Answer × ChildTable key P)
    (c : ChildTable key P) : List C → List Answer × ChildTable key P
  | [] => ([], c)
  | call :: calls =>
    ((perform c call).1 :: (oneByOne perform (perform c call).2 calls).1,
      (oneByOne perform (perform c call).2 calls).2)

section

variable (change : C → Change key parent)
  (perform : ChildTable key P → C → Answer × ChildTable key P)
  (list : ChildTable key P → P → List V)

/-- When calls begin apart and all have returned, their answers, the rows and the listings
are those of the same calls one after another, in the order in which they began. -/
def Serializable (Same : List V → List V → Prop) : Prop := ∀ schedule : List (C ⊕ ℕ),
  (Shared.empty : Shared key P).Guarded (schedule.map (Act.of change)) →
    (Shared.after change schedule).Idle →
      (Shared.after change schedule).tasks.map Task.answer =
        (oneByOne perform .empty (begun schedule)).1 ∧
      (Shared.after change schedule).table.byKey.get =
        (oneByOne perform .empty (begun schedule)).2.byKey.get ∧
      ∀ p, Same (list (Shared.after change schedule).table p)
        (list (oneByOne perform .empty (begun schedule)).2 p)

/-- Whatever overlaps, every entry of the index is accounted for; and with no call under
way, so is every row in every listing. -/
def Accounted : Prop := ∀ schedule : List (C ⊕ ℕ),
  (Shared.after change schedule).Conserved parent ∧
    ((Shared.after change schedule).Idle → ∀ p,
      (∀ v ∈ list (Shared.after change schedule).table p,
        v ∈ (Shared.after change schedule).table.byKey) ∧
      ∀ v ∈ (Shared.after change schedule).table.byKey,
        ((list (Shared.after change schedule).table p).map key).count (key v) +
            (Shared.after change schedule).taken p (key v) =
          (if parent v = p then 1 else 0) + (Shared.after change schedule).missed p (key v) +
            (Shared.after change schedule).dropped p (key v))

/-- Whatever overlaps, the rows and the answers are those of the same calls one after
another, in the order in which they began; and with no call under way, a listing has every
row of the parent, and a row once more for each entry that a removal missed. -/
def RowsSerializable : Prop := ∀ schedule : List (C ⊕ ℕ),
  (Shared.after change schedule).table.byKey =
      (oneByOne perform .empty (begun schedule)).2.byKey ∧
    (Shared.after change schedule).tasks.map Task.answer =
      (oneByOne perform .empty (begun schedule)).1 ∧
    ((Shared.after change schedule).Idle → ∀ p,
      (∀ v ∈ list (Shared.after change schedule).table p,
        v ∈ (Shared.after change schedule).table.byKey) ∧
      ∀ v ∈ (Shared.after change schedule).table.byKey,
        ((list (Shared.after change schedule).table p).map key).count (key v) =
          (if parent v = p then 1 else 0) + (Shared.after change schedule).missed p (key v))

end

variable {change : C → Change key parent}
  {perform : ChildTable key P → C → Answer × ChildTable key P}
  {list : ChildTable key P → P → List V}

omit [DecidableEq K] [DecidableEq P] in
theorem calls_of (schedule : List (C ⊕ ℕ)) :
    Act.calls (schedule.map (Act.of change)) = (begun schedule).map change := by
  induction schedule with
  | nil => rfl
  | cons step schedule ih =>
    cases step with
    | inl call => exact congrArg (change call :: ·) ih
    | inr i => exact ih

/-- Calls that do alone what their changes do. -/
theorem runAll_map (h : ∀ c call, perform c call = (change call).alone c) (calls : List C)
    (c : ChildTable key P) : runAll c (calls.map change) = oneByOne perform c calls := by
  induction calls generalizing c with
  | nil => rfl
  | cons call calls ih =>
    rw [List.map_cons, runAll, oneByOne, ih, h]

theorem serializable (h : ∀ c call, perform c call = (change call).alone c)
    {Same : List V → List V → Prop}
    (hlist : ∀ {s : Shared key P} {c answers}, Serial parent s c answers → s.Idle →
      ∀ p, Same (list s.table p) (list c p)) :
    Serializable change perform list Same := by
  intro schedule hguarded hidle
  have hserial := Serial.empty.run hguarded
  rw [calls_of, runAll_map h, List.nil_append] at hserial
  exact ⟨hserial.answers_eq hidle, hserial.get_eq hidle, hlist hserial hidle⟩

/-- What a listing that reads the rows of a bucket has. -/
theorem listed_of_perm {s : Shared key P} {p : P} {vs : List V}
    (hperm : vs.Perm ((bucket s.table.byParent p).filterMap s.table.byKey.get)) :
    (∀ v ∈ vs, v ∈ s.table.byKey) ∧ ∀ k, (vs.map key).count k =
      (((bucket s.table.byParent p).filterMap s.table.byKey.get).map key).count k := by
  refine ⟨fun v hv => ?_, fun k => (hperm.map key).count_eq k⟩
  obtain ⟨k, -, hget⟩ := List.mem_filterMap.mp (hperm.mem_iff.mp hv)
  exact (Table.get_eq_some.mp hget).1

theorem accounted (hlist : ∀ (c : ChildTable key P) p,
    (list c p).Perm ((bucket c.byParent p).filterMap c.byKey.get)) :
    Accounted change list := by
  intro schedule
  have hconserved : (Shared.after change schedule).Conserved parent :=
    Shared.Conserved.empty.run _
  refine ⟨hconserved, fun hidle p => ?_⟩
  obtain ⟨hstored, hcount⟩ := listed_of_perm (hlist (Shared.after change schedule).table p)
  refine ⟨hstored, fun v hv => ?_⟩
  rw [hcount]
  exact hconserved.count_listed hidle hv p

theorem rowsSerializable (h : ∀ c call, perform c call = (change call).alone c)
    (hkeys : ∀ call, ∃ k, (change call).key? = some k)
    (hlist : ∀ (c : ChildTable key P) p,
      (list c p).Perm ((bucket c.byParent p).filterMap c.byKey.get)) :
    RowsSerializable change perform list := by
  intro schedule
  have hall : ∀ ch ∈ Act.calls (schedule.map (Act.of change)), ∃ k, ch.key? = some k := by
    intro ch hch
    rw [calls_of] at hch
    obtain ⟨call, -, rfl⟩ := List.mem_map.mp hch
    exact hkeys call
  have hrows := Rowwise.empty.run hall
  rw [calls_of, runAll_map h, List.nil_append] at hrows
  refine ⟨hrows.rows, hrows.answers, fun hidle p => ?_⟩
  obtain ⟨hstored, hcount⟩ := listed_of_perm (hlist (Shared.after change schedule).table p)
  refine ⟨hstored, fun v hv => ?_⟩
  rw [hcount]
  exact hrows.count_listed hidle hv p

end Contexide.Storage.ChildTable
