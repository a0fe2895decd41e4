import Contexide.Vector.Filters

/-! Array conditions. The flags of the loop are cleared by elements of other types only,
so an array of strings and integers counts as all strings, and its integers are dropped. -/

namespace Contexide.Vector

/-- An array becomes the list it is, of strings or of integers, and nothing else. -/
structure Classified (arr : List Json) (result : Option MatchValue) : Prop where
  strings : ∀ strings, result = some (.keywords strings) ↔ arr = strings.map .string
  integers : ∀ ints : List Int64, result = some (.integers ints) ↔
    arr = ints.map fun i => .number (.ofI64 i)
  neither : result = none ↔ (¬ ∃ strings : List String, arr = strings.map .string) ∧
    ¬ ∃ ints : List Int64, arr = ints.map fun i => .number (.ofI64 i)

theorem filterMap_map_string (strings : List String) :
    (strings.map Json.string).filterMap Json.asStr = strings := by
  rw [List.filterMap_map]
  exact List.filterMap_some

theorem exists_map_string {arr : List Json} (h : ∀ x ∈ arr, x.asStr.isSome = true) :
    ∃ strings : List String, arr = strings.map .string := by
  induction arr with
  | nil => exact ⟨[], rfl⟩
  | cons x arr ih =>
    rw [List.forall_mem_cons] at h
    obtain ⟨strings, rfl⟩ := ih h.2
    cases x with
    | string s => exact ⟨s :: strings, rfl⟩
    | null | bool | number | array | object => exact absurd h.1 (by simp [Json.asStr])

theorem isMatchable_of_strings {strings : List String} {x : Json}
    (hx : x ∈ strings.map Json.string) : isMatchable x = true := by
  obtain ⟨s, _, rfl⟩ := List.mem_map.mp hx
  rfl

theorem isMatchable_of_integers {ints : List Int64} {x : Json}
    (hx : x ∈ ints.map fun i => Json.number (.ofI64 i)) : isMatchable x = true := by
  obtain ⟨i, _, rfl⟩ := List.mem_map.mp hx
  simp [isMatchable]

/-- An array of strings is classified. -/
theorem classified_strings {strings : List String} (hne : strings ≠ []) :
    Classified (strings.map .string) (some (.keywords strings)) where
  strings strings' := by
    constructor
    · intro h
      rw [MatchValue.keywords.inj (Option.some.inj h)]
    · intro h
      rw [List.map_injective_iff.mpr (fun _ _ hs => Json.string.inj hs) h]
  integers ints := by
    refine ⟨fun h => (by cases h), fun h => ?_⟩
    cases strings with
    | nil => exact absurd rfl hne
    | cons s strings => cases ints <;> simp at h
  neither := ⟨fun h => (by cases h), fun h => absurd ⟨strings, rfl⟩ h.1⟩

/-- An array with an element of another type is classified as none. -/
theorem classified_none {arr : List Json} {x : Json} (hx : x ∈ arr) (hm : isMatchable x = false) :
    Classified arr none := by
  have hstrings : ∀ strings : List String, arr ≠ strings.map .string := by
    rintro strings rfl
    rw [isMatchable_of_strings hx] at hm
    cases hm
  have hintegers : ∀ ints : List Int64, arr ≠ ints.map fun i => .number (.ofI64 i) := by
    rintro ints rfl
    rw [isMatchable_of_integers hx] at hm
    cases hm
  exact {
    strings := fun strings => iff_of_false (by simp) (hstrings strings)
    integers := fun ints => iff_of_false (by simp) (hintegers ints)
    neither := iff_of_true rfl ⟨fun ⟨s, hs⟩ => hstrings s hs, fun ⟨i, hi⟩ => hintegers i hi⟩ }

/-- A condition on an array is classified exactly when the elements are all strings, or
one is neither a string nor an integer. -/
theorem toMatchValue_classified_iff {arr : List Json} (hne : arr ≠ []) :
    Classified arr (toMatchValue (.array arr)) ↔
      (∀ x ∈ arr, x.asStr.isSome = true) ∨ ∃ x ∈ arr, isMatchable x = false := by
  rw [toMatchValue_array]
  constructor
  · intro h
    cases hm : arr.all isMatchable with
    | true =>
      rw [hm, if_pos rfl] at h
      obtain ⟨strings, rfl⟩ : ∃ strings : List String, arr = strings.map .string :=
        ⟨_, (h.strings _).mp rfl⟩
      refine .inl fun x hx => ?_
      obtain ⟨s, _, rfl⟩ := List.mem_map.mp hx
      rfl
    | false =>
      obtain ⟨x, hx, hno⟩ := List.all_eq_false.mp hm
      exact .inr ⟨x, hx, by simpa using hno⟩
  · rintro (hall | ⟨x, hx, hm⟩)
    · obtain ⟨strings, rfl⟩ := exists_map_string hall
      rw [if_pos (List.all_eq_true.mpr fun _ hx => isMatchable_of_strings hx),
        filterMap_map_string]
      exact classified_strings fun h => hne (by rw [h]; rfl)
    · rw [if_neg fun hall => by simp [List.all_eq_true.mp hall x hx] at hm]
      exact classified_none hx hm

/-- A null among strings and integers drops the condition, an integer among strings is
dropped itself. -/
theorem toMatchValue_classified_iff_mixed :
    Classified [.string "a", .number (.ofI64 1), .null]
      (toMatchValue (.array [.string "a", .number (.ofI64 1), .null])) ∧
    ¬ Classified [.string "a", .number (.ofI64 1)]
      (toMatchValue (.array [.string "a", .number (.ofI64 1)])) := by
  constructor
  · exact (toMatchValue_classified_iff (by simp)).mpr (.inr ⟨.null, by simp, rfl⟩)
  · rw [toMatchValue_classified_iff (by simp)]
    rintro (h | ⟨x, hx, hm⟩)
    · exact absurd (h (.number (.ofI64 1)) (by simp)) (by simp [Json.asStr])
    · rcases List.mem_pair.mp hx with rfl | rfl
      · cases hm
      · simp [isMatchable] at hm

/-- An array of one integer becomes the empty list of strings. -/
theorem integers_dropped : ¬ ∀ arr : List Json, arr ≠ [] →
    Classified arr (toMatchValue (.array arr)) := by
  intro h
  have hone := (h [.number (.ofI64 1)] (by simp)).integers [1]
  exact absurd (hone.mpr rfl) (by simp [toMatchValue, scanItems])

end Contexide.Vector
