import Contexide.Text.Words

/-! Lines. A text is its lines with line feeds between them, and is taken apart at the
first line, at the last line, or line by line. -/

namespace Contexide.Text

/-- The text after the last line feed. -/
def lastLine (s : List Char) : List Char := s.rtakeWhile fun c => c != '\n'

/-- The text before the first line feed. -/
def firstLine (s : List Char) : List Char := s.takeWhile fun c => c != '\n'

/-- Line by line from the front. -/
theorem line_induction {P : List Char → Prop} (last : ∀ l, '\n' ∉ l → P l)
    (line : ∀ l t, '\n' ∉ l → P t → P (l ++ '\n' :: t)) (t : List Char) : P t := by
  induction t using segment_induction (p := fun c => c == '\n') with
  | last l hl => exact last l fun hn => absurd (hl _ hn) (by decide)
  | segment l c t hl hc ih =>
    rw [beq_iff_eq.mp hc]
    exact line l t (fun hn => absurd (hl _ hn) (by decide)) ih

theorem bne_newline {l : List Char} (hl : '\n' ∉ l) : ∀ c ∈ l, (c != '\n') = true :=
  fun c hc => bne_iff_ne.mpr fun heq : c = '\n' => hl (heq ▸ hc)

theorem lastLine_append_of_notMem {y : List Char} (hy : '\n' ∉ y) (x : List Char) :
    lastLine (x ++ y) = lastLine x ++ y :=
  rtakeWhile_append_of_pos (bne_newline hy)

theorem lastLine_of_notMem {y : List Char} (hy : '\n' ∉ y) : lastLine y = y := by
  rw [lastLine, List.rtakeWhile_eq_self_iff]
  exact bne_newline hy

/-- What stands before a line feed is not in the last line. -/
theorem lastLine_append_newline (x y : List Char) : lastLine (x ++ '\n' :: y) = lastLine y := by
  induction y using List.reverseRecOn with
  | nil => exact List.rtakeWhile_concat_neg _ _ _ (by simp)
  | append_singleton y c ih =>
    have hassoc : x ++ '\n' :: (y ++ [c]) = (x ++ '\n' :: y) ++ [c] := by simp
    have hconcat : ∀ z, lastLine (z ++ [c]) =
        if (c != '\n') = true then lastLine z ++ [c] else [] :=
      fun z => List.rtakeWhile_concat _ _ _
    rw [hassoc, hconcat, hconcat, ih]

theorem lastLine_append {y : List Char} (hy : '\n' ∉ y) (x : List Char) :
    lastLine (x ++ '\n' :: y) = y := by
  rw [lastLine_append_newline, lastLine_of_notMem hy]

theorem firstLine_append_of_notMem {x : List Char} (hx : '\n' ∉ x) (y : List Char) :
    firstLine (x ++ y) = x ++ firstLine y :=
  List.takeWhile_append_of_pos (bne_newline hx)

theorem firstLine_append {x : List Char} (hx : '\n' ∉ x) (y : List Char) :
    firstLine (x ++ '\n' :: y) = x := by
  rw [firstLine_append_of_notMem hx, firstLine, List.takeWhile_cons_of_neg (by simp),
    List.append_nil]

theorem firstLine_of_notMem {x : List Char} (hx : '\n' ∉ x) : firstLine x = x := by
  rw [firstLine, List.takeWhile_eq_self_iff]
  exact bne_newline hx

/-- Whether or not there is a line feed, the last line is at the end. -/
theorem eq_lastLine_or (s : List Char) :
    '\n' ∉ s ∧ lastLine s = s ∨ ∃ x, s = x ++ '\n' :: lastLine s ∧ '\n' ∉ lastLine s := by
  induction s using line_induction with
  | last l hl => exact .inl ⟨hl, lastLine_of_notMem hl⟩
  | line l t hl ih =>
    right
    rw [lastLine_append_newline]
    rcases ih with ⟨ht, hlast⟩ | ⟨x, hx, hlast⟩
    · rw [hlast]
      exact ⟨l, rfl, ht⟩
    · refine ⟨l ++ '\n' :: x, ?_, hlast⟩
      conv_lhs => rw [hx]
      simp

theorem eq_firstLine_or (s : List Char) :
    '\n' ∉ s ∧ firstLine s = s ∨ ∃ y, s = firstLine s ++ '\n' :: y ∧ '\n' ∉ firstLine s := by
  induction s using line_induction with
  | last l hl => exact .inl ⟨hl, firstLine_of_notMem hl⟩
  | line l t hl _ => exact .inr ⟨t, by rw [firstLine_append hl], by rwa [firstLine_append hl]⟩

/-! ### Other line breaks -/

/-- The text with other line breaks. -/
def breakWith (ending : List Char) (s : List Char) : List Char :=
  s.flatMap fun c => if c = '\n' then ending else [c]

theorem breakWith_append (e x y : List Char) :
    breakWith e (x ++ y) = breakWith e x ++ breakWith e y := List.flatMap_append

theorem breakWith_of_notMem (e : List Char) {l : List Char} (hl : '\n' ∉ l) :
    breakWith e l = l := by
  induction l with
  | nil => rfl
  | cons c l ih =>
    rw [List.mem_cons, not_or] at hl
    rw [breakWith, List.flatMap_cons, if_neg (Ne.symm hl.1)]
    exact congrArg (c :: ·) (ih hl.2)

theorem breakWith_line (e : List Char) {l : List Char} (hl : '\n' ∉ l) (t : List Char) :
    breakWith e (l ++ '\n' :: t) = l ++ e ++ breakWith e t := by
  rw [breakWith_append, breakWith_of_notMem e hl, List.append_assoc]
  rfl

end Contexide.Text
