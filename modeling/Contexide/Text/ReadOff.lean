import Mathlib.Data.List.Basic
import Mathlib.Logic.Function.Basic

/-! Writers whose output can be read off the front of a text: nothing written is
the beginning of something else written, before any rest that is allowed to
follow. Such writers are put in sequence without separators. -/

namespace Contexide.Text

variable {α γ : Type}

/-- A text that starts with what was written determines what that was, when the
rest is `ok`. -/
def ReadsOff (ok : List γ → Prop) (write : α → List γ) : Prop :=
  ∀ a b x y, ok x → ok y → write a ++ x = write b ++ y → a = b ∧ x = y

namespace ReadsOff

variable {ok : List γ → Prop} {write : α → List γ}

theorem injective (h : ReadsOff ok write) (hnil : ok []) : Function.Injective write := by
  intro a b hab
  exact (h a b [] [] hnil hnil (congrArg (· ++ []) hab)).1

/-- Words over some letters are read off up to the first other letter. -/
theorem of_letters {p : γ → Bool} (hinj : Function.Injective write)
    (hp : ∀ a, ∀ c ∈ write a, p c = true) :
    ReadsOff (fun x => ∀ c ∈ x.head?, p c = false) write := by
  intro a b x y hx hy h
  have hstop : ∀ {x : List γ}, (∀ c ∈ x.head?, p c = false) → x.takeWhile p = [] := by
    intro x hx
    cases x with
    | nil => rfl
    | cons c x => rw [List.takeWhile_cons_of_neg (by simp [hx c rfl])]
  have hwords := congrArg (List.takeWhile p) h
  rw [List.takeWhile_append_of_pos (hp a), List.takeWhile_append_of_pos (hp b), hstop hx, hstop hy,
    List.append_nil, List.append_nil] at hwords
  obtain rfl := hinj hwords
  exact ⟨rfl, List.append_cancel_left h⟩

/-- A sequence is read off up to a letter that no word starts with. -/
theorem flatMap_concat {stop : γ} (h : ReadsOff (fun _ => True) write)
    (hstop : ∀ a, ∃ c l, write a = c :: l ∧ c ≠ stop) :
    ReadsOff (fun _ => True) fun as : List α => as.flatMap write ++ [stop] := by
  intro as bs x y _ _ hxy
  simp only [List.append_assoc, List.singleton_append] at hxy
  induction as generalizing bs with
  | nil =>
    cases bs with
    | nil => exact ⟨rfl, List.tail_eq_of_cons_eq hxy⟩
    | cons b bs =>
      obtain ⟨c, l, hc, hne⟩ := hstop b
      rw [List.flatMap_cons, hc] at hxy
      exact absurd (List.head_eq_of_cons_eq hxy).symm hne
  | cons a as ih =>
    cases bs with
    | nil =>
      obtain ⟨c, l, hc, hne⟩ := hstop a
      rw [List.flatMap_cons, hc] at hxy
      exact absurd (List.head_eq_of_cons_eq hxy) hne
    | cons b bs =>
      rw [List.flatMap_cons, List.flatMap_cons, List.append_assoc, List.append_assoc] at hxy
      obtain ⟨rfl, hrest⟩ := h a b _ _ trivial trivial hxy
      obtain ⟨rfl, rfl⟩ := ih bs hrest
      exact ⟨rfl, rfl⟩

end ReadsOff

end Contexide.Text
