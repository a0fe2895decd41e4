import Mathlib.Data.List.Basic

/-! Patterns in a list that an element divides into two parts. -/

namespace Contexide.Text

variable {α : Type} {pat b t : List α} {d q : α}

/-- A pattern without the dividing element is at the end of the second part. -/
theorem suffix_append_cons_iff (hd : d ∉ pat) : pat <:+ b ++ d :: t ↔ pat <:+ t := by
  have ht : d :: t <:+ b ++ d :: t := List.suffix_append _ _
  constructor
  · intro h
    rcases List.suffix_or_suffix_of_suffix h ht with hpat | hpat
    · rcases List.suffix_cons_iff.mp hpat with heq | hpat
      · exact absurd (heq ▸ List.mem_cons_self) hd
      · exact hpat
    · exact absurd (hpat.subset List.mem_cons_self) hd
  · intro h
    exact (h.trans (List.suffix_cons d t)).trans ht

/-- A pattern and the end mark `q`, which is not in the first part, are there when they
end at the dividing element or lie in the second part. -/
theorem infix_append_cons_iff (hd : d ∉ pat) (hq : q ∉ b) :
    pat ++ [q] <:+: b ++ d :: t ↔ d = q ∧ pat <:+ b ∨ pat ++ [q] <:+: t := by
  constructor
  · rintro ⟨u, v, h⟩
    have hsplit : (u ++ pat) ++ q :: v = b ++ d :: t := by rw [← h]; simp
    rcases List.append_eq_append_iff.mp hsplit with ⟨a, hb, htail⟩ | ⟨a, hpat, htail⟩
    · cases a with
      | nil => exact .inl ⟨by cases htail; rfl, u, by simpa using hb.symm⟩
      | cons e a =>
        cases htail
        exact absurd (by rw [hb]; simp) hq
    · cases a with
      | nil => exact .inl ⟨by cases htail; rfl, u, by simpa using hpat⟩
      | cons e a =>
        cases htail
        obtain ⟨w, rfl⟩ := (suffix_append_cons_iff hd).mp ⟨u, hpat⟩
        exact .inr ⟨w, v, by simp⟩
  · rintro (⟨rfl, u, rfl⟩ | h)
    · exact ⟨u, t, by simp⟩
    · exact h.trans ((List.suffix_cons d t).trans (List.suffix_append _ _)).isInfix

/-- A pattern without the dividing element lies on one side of it. -/
theorem infix_or_infix_of_append_cons (hd : d ∉ pat) (h : pat <:+: b ++ d :: t) :
    pat <:+: b ∨ pat <:+: t := by
  obtain ⟨u, v, huv⟩ := h
  rw [List.append_assoc] at huv
  rcases List.append_eq_append_iff.mp huv with ⟨a, hb, htail⟩ | ⟨a, -, htail⟩
  · rcases List.append_eq_append_iff.mp htail with ⟨e, ha, -⟩ | ⟨e, hpat, hcons⟩
    · exact .inl ⟨u, e, by rw [hb, ha, List.append_assoc]⟩
    · cases e with
      | nil =>
        rw [List.append_nil] at hpat
        exact .inl ⟨u, [], by rw [hb, hpat, List.append_nil]⟩
      | cons x e =>
        cases hcons
        exact absurd (by rw [hpat]; simp) hd
  · cases a with
    | nil =>
      cases pat with
      | nil => exact .inl List.nil_infix
      | cons x pat =>
        cases htail
        exact absurd List.mem_cons_self hd
    | cons x a =>
      cases htail
      exact .inr ⟨a, v, List.append_assoc a pat v⟩

end Contexide.Text
