import Contexide.Text.Whitespace
import Contexide.Text.Gaps

/-! Words. A text splits at each whitespace character, so its words depend neither on how
much whitespace stands between them nor on which. -/

namespace Contexide.Text

/-- Segment by segment from the front. -/
theorem segment_induction {α : Type} {p : α → Bool} {P : List α → Prop}
    (last : ∀ l, (∀ c ∈ l, p c = false) → P l)
    (segment : ∀ l c t, (∀ d ∈ l, p d = false) → p c = true → P t → P (l ++ c :: t))
    (t : List α) : P t := by
  have hprefix : ∀ t l : List α, (∀ c ∈ l, p c = false) → P (l ++ t) := by
    intro t
    induction t with
    | nil =>
      intro l hl
      rw [List.append_nil]
      exact last l hl
    | cons c t ih =>
      intro l hl
      by_cases hc : p c = true
      · exact segment l c t hl hc (ih [] (by simp))
      · rw [List.append_cons]
        refine ih (l ++ [c]) fun d hd => ?_
        rcases List.mem_append.mp hd with hd | hd
        · exact hl d hd
        · exact List.mem_singleton.mp hd ▸ Bool.eq_false_iff.mpr hc
  exact hprefix t [] (by simp)

section Words

variable {c : Char} {g l : List Char}

@[simp] theorem splitWhitespace_nil : splitWhitespace [] = [] := rfl

theorem splitWhitespace_append_cons (x : List Char) (hc : isWhitespace c = true) (y : List Char) :
    splitWhitespace (x ++ c :: y) = splitWhitespace x ++ splitWhitespace y := by
  rw [splitWhitespace, List.splitOnP_append_cons x y hc, List.filter_append]
  rfl

theorem splitWhitespace_cons (hc : isWhitespace c = true) (y : List Char) :
    splitWhitespace (c :: y) = splitWhitespace y :=
  splitWhitespace_append_cons [] hc y

/-- A text without whitespace is a word, unless it is empty. -/
theorem splitWhitespace_of_forall (hl : ∀ c ∈ l, isWhitespace c = false) :
    splitWhitespace l = if l = [] then [] else [l] := by
  rw [splitWhitespace, List.splitOnP_eq_singleton hl]
  cases l <;> rfl

theorem splitWhitespace_whitespace_append (hg : ∀ c ∈ g, isWhitespace c = true) (y : List Char) :
    splitWhitespace (g ++ y) = splitWhitespace y := by
  induction g with
  | nil => rfl
  | cons c g ih =>
    rw [List.cons_append, splitWhitespace_cons (hg c List.mem_cons_self),
      ih fun d hd => hg d (List.mem_cons_of_mem _ hd)]

/-- Whitespace separates words. -/
theorem splitWhitespace_gap (x : List Char) (hne : g ≠ []) (hg : ∀ c ∈ g, isWhitespace c = true)
    (y : List Char) : splitWhitespace (x ++ (g ++ y)) = splitWhitespace x ++ splitWhitespace y := by
  obtain ⟨c, g, rfl⟩ := List.exists_cons_of_ne_nil hne
  rw [List.cons_append, splitWhitespace_append_cons x (hg c List.mem_cons_self),
    splitWhitespace_whitespace_append fun d hd => hg d (List.mem_cons_of_mem _ hd)]

theorem splitWhitespace_append_whitespace (x : List Char) (hg : ∀ c ∈ g, isWhitespace c = true) :
    splitWhitespace (x ++ g) = splitWhitespace x := by
  by_cases hne : g = []
  · rw [hne, List.append_nil]
  · have hgap := splitWhitespace_gap x hne hg []
    rwa [List.append_nil, splitWhitespace_nil, List.append_nil] at hgap

/-- Words are parts of the text. -/
theorem infix_of_mem_splitWhitespace {w s : List Char} (hw : w ∈ splitWhitespace s) : w <:+: s := by
  induction s using segment_induction (p := isWhitespace) with
  | last l hl =>
    rw [splitWhitespace_of_forall hl] at hw
    split at hw
    · exact absurd hw List.not_mem_nil
    · exact List.mem_singleton.mp hw ▸ List.infix_rfl
  | segment l c t hl hc ih =>
    rw [splitWhitespace_append_cons l hc, List.mem_append] at hw
    rcases hw with hw | hw
    · rw [splitWhitespace_of_forall hl] at hw
      split at hw
      · exact absurd hw List.not_mem_nil
      · exact List.mem_singleton.mp hw ▸ (List.prefix_append _ _).isInfix
    · exact (ih hw).trans ((List.suffix_cons c t).trans (List.suffix_append l _)).isInfix

/-- Trimming keeps the words. -/
theorem splitWhitespace_trim (s : List Char) : splitWhitespace (trim s) = splitWhitespace s := by
  have hleft : splitWhitespace (s.dropWhile isWhitespace) = splitWhitespace s := by
    conv_rhs => rw [← @List.takeWhile_append_dropWhile _ isWhitespace s]
    rw [splitWhitespace_whitespace_append fun c hc => List.mem_takeWhile_imp hc]
  have hright : ∀ t, splitWhitespace (t.rdropWhile isWhitespace) = splitWhitespace t := by
    intro t
    conv_rhs => rw [← @List.rdropWhile_append_rtakeWhile _ isWhitespace t]
    rw [splitWhitespace_append_whitespace _ fun c hc => List.mem_rtakeWhile_imp hc]
  rw [trim, hright, hleft]

/-- Replacing whitespace by whitespace keeps the words. -/
theorem splitWhitespace_map {f : Char → Char} (s : List Char)
    (hspace : ∀ c, isWhitespace c = true → isWhitespace (f c) = true)
    (hother : ∀ c, isWhitespace c = false → f c = c) :
    splitWhitespace (s.map f) = splitWhitespace s := by
  have hsame : ∀ l : List Char, (∀ c ∈ l, isWhitespace c = false) → l.map f = l := by
    intro l hl
    rw [List.map_congr_left fun c hc => hother c (hl c hc), List.map_id']
  induction s using segment_induction (p := isWhitespace) with
  | last l hl => rw [hsame l hl]
  | segment l c t hl hc ih =>
    rw [List.map_append, List.map_cons, hsame l hl, splitWhitespace_append_cons l (hspace c hc),
      splitWhitespace_append_cons l hc, ih]

/-- Rewriting gaps of whitespace keeps the words, as long as empty gaps stay empty and the
others do not become empty. -/
theorem splitWhitespace_mapGaps {f h : List Char → List Char} (items : List (Char × List Char))
    (x : List Char) (hgaps : ∀ i ∈ items, ∀ c ∈ i.2, isWhitespace c = true)
    (hf : ∀ i ∈ items, (f i.2 = [] ↔ i.2 = []) ∧ ∀ c ∈ f i.2, isWhitespace c = true)
    (hh : ∀ i ∈ items, ∀ c ∈ h i.2, isWhitespace c = true) :
    splitWhitespace (x ++ spell (mapGaps f h items)) = splitWhitespace (x ++ spell items) := by
  induction items generalizing x with
  | nil => rfl
  | cons i items ih =>
    obtain ⟨hempty, hspace⟩ := hf i List.mem_cons_self
    have hgap := hgaps i List.mem_cons_self
    have hrest := fun x => ih x (fun j hj => hgaps j (List.mem_cons_of_mem _ hj))
      (fun j hj => hf j (List.mem_cons_of_mem _ hj)) fun j hj => hh j (List.mem_cons_of_mem _ hj)
    cases items with
    | nil =>
      have hspell : ∀ g : List Char, x ++ spell [(i.1, g)] = (x ++ [i.1]) ++ g := by simp
      rw [mapGaps_singleton, hspell, splitWhitespace_append_whitespace _ (hh i List.mem_cons_self)]
      exact (splitWhitespace_append_whitespace _ hgap).symm.trans (by rw [← hspell])
    | cons j items =>
      have hspell : ∀ (g : List Char) (rest : List (Char × List Char)),
          x ++ spell ((i.1, g) :: rest) = (x ++ [i.1]) ++ (g ++ spell rest) := by simp
      have hgoal : splitWhitespace ((x ++ [i.1]) ++ (f i.2 ++ spell (mapGaps f h (j :: items)))) =
          splitWhitespace ((x ++ [i.1]) ++ (i.2 ++ spell (j :: items))) := by
        by_cases hne : i.2 = []
        · rw [hempty.mpr hne, hne, List.nil_append, List.nil_append, hrest]
        · rw [splitWhitespace_gap _ (fun hnil => hne (hempty.mp hnil)) hspace,
            splitWhitespace_gap _ hne hgap]
          exact congrArg (splitWhitespace (x ++ [i.1]) ++ ·) (hrest [])
      rwa [← hspell, ← hspell] at hgoal

end Words

end Contexide.Text
