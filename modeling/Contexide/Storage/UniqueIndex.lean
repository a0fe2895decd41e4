import Contexide.Storage.Table

/-! A unique secondary index: a map from the values of a column to the key of the
row that has it. The index is kept beside the table and has to be exact. -/

namespace Contexide.Storage

variable {I F V : Type} [DecidableEq I] [DecidableEq F] {key : V → I} {f : V → F}

/-- The index leads from each value of the column to its row, and nowhere else. -/
def IndexExact (idx : Assoc F I) (t : Table key) (f : V → F) : Prop :=
  ∀ x i, idx.find x = some i ↔ ∃ v ∈ t, f v = x ∧ key v = i

namespace IndexExact

variable {idx : Assoc F I} {t : Table key}

omit [DecidableEq I] in
theorem empty : IndexExact .empty (.empty : Table key) f := by
  intro x i
  simp

omit [DecidableEq I] in
/-- Rows that agree in the column are the same row. -/
theorem inj (h : IndexExact idx t f) {u v : V} (hu : u ∈ t) (hv : v ∈ t) (hf : f u = f v) :
    u = v := by
  have hu' := (h (f v) (key u)).mpr ⟨u, hu, hf, rfl⟩
  have hv' := (h (f v) (key v)).mpr ⟨v, hv, rfl, rfl⟩
  rw [hu', Option.some.injEq] at hv'
  exact Table.eq_of_key hu hv hv'

/-- A lookup through the index finds the row with the value. -/
theorem get_find (h : IndexExact idx t f) {x : F} {v : V} :
    (idx.find x).bind t.get = some v ↔ v ∈ t ∧ f v = x := by
  rw [Option.bind_eq_some_iff]
  constructor
  · rintro ⟨i, hi, hv⟩
    obtain ⟨u, hu, hf, rfl⟩ := (h x i).mp hi
    obtain rfl : u = v := Option.some.inj ((Table.get_of_mem hu).symm.trans hv)
    exact ⟨hu, hf⟩
  · rintro ⟨hv, rfl⟩
    exact ⟨key v, (h _ _).mpr ⟨v, hv, rfl, rfl⟩, Table.get_of_mem hv⟩

omit [DecidableEq I] in
theorem find_eq_none (h : IndexExact idx t f) {x : F} :
    idx.find x = none ↔ ∀ v ∈ t, f v ≠ x := by
  rw [Option.eq_none_iff_forall_ne_some]
  constructor
  · intro hno v hv hf
    exact hno (key v) ((h _ _).mpr ⟨v, hv, hf, rfl⟩)
  · intro hno i hi
    obtain ⟨v, hv, hf, _⟩ := (h _ _).mp hi
    exact hno v hv hf

/-- A save that gives the row no value of another row, and keeps its own. -/
theorem save (h : IndexExact idx t f) {v : V} (hother : ∀ u ∈ t, key u ≠ key v → f u ≠ f v)
    (hsame : ∀ u ∈ t, key u = key v → f u = f v) :
    IndexExact (idx.insert (f v) (key v)) (t.save v) f := by
  intro x i
  rw [Assoc.find_insert]
  split
  · next hx =>
    subst hx
    rw [Option.some.injEq]
    constructor
    · rintro rfl
      exact ⟨v, Table.mem_save_self t v, rfl, rfl⟩
    · rintro ⟨u, hu, hf, rfl⟩
      rcases Table.mem_save.mp hu with rfl | ⟨hu, hk⟩
      · rfl
      · exact absurd hf (hother u hu hk)
  · next hx =>
    rw [h]
    constructor
    · rintro ⟨u, hu, rfl, rfl⟩
      have hk : key u ≠ key v := fun hk => hx (hsame u hu hk).symm
      exact ⟨u, Table.mem_save_of_ne hu hk, rfl, rfl⟩
    · rintro ⟨u, hu, rfl, rfl⟩
      rcases Table.mem_save.mp hu with rfl | ⟨hu, _⟩
      · exact absurd rfl hx
      · exact ⟨u, hu, rfl, rfl⟩

/-- A removed row takes its entry with it. -/
theorem remove (h : IndexExact idx t f) {u : V} (hu : u ∈ t) :
    IndexExact (Table.remove idx (f u)) (t.remove (key u)) f := by
  intro x i
  rw [Assoc.find_remove]
  split
  · next hx =>
    simp only [reduceCtorEq, false_iff, not_exists, not_and]
    rintro v hv hf _
    obtain ⟨hv, hk⟩ := Table.mem_remove.mp hv
    exact hk (congrArg key (h.inj hv hu (hf.trans hx)))
  · next hx =>
    rw [h]
    constructor
    · rintro ⟨v, hv, rfl, rfl⟩
      have hk : key v ≠ key u := fun hk => hx (congrArg f (Table.eq_of_key hv hu hk))
      exact ⟨v, Table.mem_remove.mpr ⟨hv, hk⟩, rfl, rfl⟩
    · rintro ⟨v, hv, hf, hi⟩
      exact ⟨v, (Table.mem_remove.mp hv).1, hf, hi⟩

end IndexExact

end Contexide.Storage
