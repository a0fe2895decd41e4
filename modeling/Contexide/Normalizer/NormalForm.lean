import Contexide.Normalizer.Idempotent
import Mathlib.Data.List.Infix

/-! The form of normalized texts: visible at both ends, with single spaces in lines and at
most one blank line between them, and counted right. -/

namespace Contexide.Normalizer

open Text

/-- No text keeps these. -/
def dropped : List Char :=
  ['\r', '\t', '\u00A0', '\u200B', '\u200C', '\u200D', '\u2060', '\uFEFF']

/-- A text in normal form, with its counts. -/
structure InNormalForm (t : NormalizedText) : Prop where
  dropped : ∀ c ∈ dropped, c ∉ t.text.toList
  spaces : ¬ [' ', ' '] <:+: t.text.toList
  space_newline : ¬ [' ', '\n'] <:+: t.text.toList
  newline_space : ¬ ['\n', ' '] <:+: t.text.toList
  newlines : ¬ ['\n', '\n', '\n'] <:+: t.text.toList
  first : ∀ c, t.text.toList.head? = some c → isWhitespace c = false
  last : ∀ c, t.text.toList.getLast? = some c → isWhitespace c = false
  lines : t.lines = (Text.lines t.text.toList).length
  words : t.words = (splitWhitespace t.text.toList).length
  bytesOut : t.bytesOut = t.text.utf8ByteSize

/-! ### Gaps -/

/-- Spaces, tabs and newlines stand together as they do in a collapsed gap. -/
theorem infix_normalForm {s w : List Char} (hw : ∀ c ∈ w, isKept c = false)
    (h : w <:+: normalForm s) : w = [] ∨ ∃ g, w <:+: between g := by
  have hvalid := valid_mapGaps (isKept_visibleItems s) fun i _ => @isKept_between i.2
  have hspell : w <:+: [] ++ spell (mapGaps between (fun _ => []) (visibleItems s)) := h
  rcases infix_spell hw (fun i hi => (hvalid.items i hi).1) hspell with hnil | ⟨j, hj, hgap⟩
  · exact .inl (List.infix_nil.mp hnil)
  · obtain ⟨i, -, -, hbetween | hempty⟩ :=
      @mem_mapGaps _ between (fun _ => []) (visibleItems s) j hj
    · exact .inr ⟨i.2, hbetween ▸ hgap⟩
    · rw [hempty] at hgap
      exact .inl (List.infix_nil.mp hgap)

/-- A run of spaces and newlines that no collapsed gap has. -/
theorem not_infix_normalForm {w : List Char} (s : List Char) (hne : w ≠ [])
    (hw : (w.all fun c => !isKept c) = true) (hone : ¬ w <:+: [' '])
    (htwo : ¬ w <:+: ['\n', '\n']) : ¬ w <:+: normalForm s := by
  intro h
  have hw : ∀ c ∈ w, isKept c = false := by simpa using hw
  rcases infix_normalForm hw h with hnil | ⟨g, hg⟩
  · exact hne hnil
  · rcases between_cases g with ⟨-, hb⟩ | ⟨-, -, hb⟩ | ⟨-, hb⟩ | ⟨-, hb⟩ <;> rw [hb] at hg
    · exact hne (List.infix_nil.mp hg)
    · exact hone hg
    · exact htwo (hg.trans (List.suffix_cons _ _).isInfix)
    · exact htwo hg

/-! ### Ends -/

theorem head?_spell {α : Type} (items : List (α × List α)) :
    (spell items).head? = items.head?.map Prod.fst := by
  cases items <;> rfl

theorem normalForm_first {s : List Char} {c : Char} (h : (normalForm s).head? = some c) :
    isWhitespace c = false := by
  obtain ⟨-, -, -, hhead, -⟩ := exists_strip isWhitespace (Gapped.split isKept s).items
  rw [normalForm, head?_spell, ← List.head?_map, mapGaps_keys, List.head?_map,
    Option.map_eq_some_iff] at h
  obtain ⟨i, hi, rfl⟩ := h
  exact hhead i hi

theorem normalForm_last {s : List Char} {c : Char} (h : (normalForm s).getLast? = some c) :
    isWhitespace c = false := by
  obtain ⟨-, -, -, -, hlast⟩ := exists_strip isWhitespace (Gapped.split isKept s).items
  rw [normalForm] at h
  rcases (visibleItems s).eq_nil_or_concat' with hnil | ⟨items, i, hitems⟩
  · rw [hnil] at h
    cases h
  · have hend : spell (mapGaps between (fun _ => []) (visibleItems s)) =
        spell (items.map fun i => (i.1, between i.2)) ++ [i.1] := by
      rw [hitems, mapGaps_concat, spell_append]
      rfl
    rw [hend, List.getLast?_concat, Option.some_inj] at h
    rw [visibleItems] at hitems
    exact h ▸ hlast i (by rw [hitems, List.getLast?_concat])

/-! ### Lines -/

theorem length_linesFrom {current s : List Char} (hne : current ≠ [] ∨ s ≠ [])
    (hlast : s.getLast? ≠ some '\n') : (linesFrom current s).length = s.count '\n' + 1 := by
  induction s generalizing current with
  | nil =>
    rcases hne with hne | hne
    · rw [linesFrom, if_neg hne]
      rfl
    · exact absurd rfl hne
  | cons c s ih =>
    rw [linesFrom]
    split
    · next hc =>
      have hs : s ≠ [] := by
        rintro rfl
        exact hlast (by rw [hc]; rfl)
      have hlast' : s.getLast? ≠ some '\n' := by rwa [List.getLast?_cons_of_ne_nil hs] at hlast
      rw [List.length_cons, ih (.inr hs) hlast', hc, List.count_cons_self]
    · next hc =>
      rw [List.count_cons_of_ne hc]
      by_cases hs : s = []
      · rw [hs, linesFrom, if_neg (by simp)]
        rfl
      · refine ih (.inl (by simp)) ?_
        rwa [List.getLast?_cons_of_ne_nil hs] at hlast

/-- Every normalized text is in normal form. -/
theorem normalize_inNormalForm (nfkc : List Char → List Char) (input : String) :
    InNormalForm (normalize nfkc input) := by
  have htext : (normalize nfkc input).text.toList = normalForm (mapChars (nfkc input.toList)) := by
    rw [normalize_text, String.toList_ofList, normalizeChars_eq]
  constructor
  · intro c hc hmem
    rw [htext] at hmem
    have hmapped := isMapped_normalForm _ c hmem
    have htab : c ≠ '\t' := by
      rintro rfl
      have htab : ¬ ['\t'] <:+: normalForm (mapChars (nfkc input.toList)) :=
        not_infix_normalForm _ (by simp) (by decide) (by decide) (by decide)
      exact htab ((List.singleton_infix_iff _ _).mpr hmem)
    simp only [dropped, List.mem_cons, htab, List.not_mem_nil, false_or, or_false] at hc
    rcases hc with rfl | rfl | rfl | rfl | rfl | rfl | rfl <;> exact absurd hmapped (by decide)
  · rw [htext]
    exact not_infix_normalForm _ (by simp) (by decide) (by decide) (by decide)
  · rw [htext]
    exact not_infix_normalForm _ (by simp) (by decide) (by decide) (by decide)
  · rw [htext]
    exact not_infix_normalForm _ (by simp) (by decide) (by decide) (by decide)
  · rw [htext]
    exact not_infix_normalForm _ (by simp) (by decide) (by decide) (by decide)
  · rw [htext]
    exact fun c => normalForm_first
  · rw [htext]
    exact fun c => normalForm_last
  · cases hempty : (normalize nfkc input).text.isEmpty with
    | true =>
      have hlines : (normalize nfkc input).lines = 0 := by
        rw [normalize_text] at hempty
        simp only [normalize, hempty, if_pos]
      rw [hlines, String.isEmpty_iff.mp hempty]
      rfl
    | false =>
      have hlines : (normalize nfkc input).lines =
          (normalize nfkc input).text.toList.count '\n' + 1 := by
        rw [normalize_text] at hempty
        simp only [normalize, hempty, Bool.false_eq_true, if_false]
      have hne : (normalize nfkc input).text.toList ≠ [] := by
        intro hnil
        rw [String.toList_eq_nil_iff] at hnil
        rw [hnil] at hempty
        cases hempty
      have hlast : (normalize nfkc input).text.toList.getLast? ≠ some '\n' := by
        rw [htext]
        exact fun hnewline => absurd (normalForm_last hnewline) (by decide)
      rw [hlines, Text.lines, length_linesFrom (.inr hne) hlast]
  · simp only [normalize]
  · simp only [normalize]

end Contexide.Normalizer
