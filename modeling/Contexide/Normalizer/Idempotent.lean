import Contexide.Normalizer.Text
import Contexide.Text.Words

/-! Normalizing twice. The second pass changes a text exactly when dropping zero-width
characters after NFKC brought characters together that NFKC does not leave as they are. -/

namespace Contexide.Normalizer

open Text

/-- Drop zero-width characters. -/
def dropZeroWidth (s : List Char) : List Char := s.filter fun c => !isZeroWidth c

/-- What normalization forms promise: normal forms depend on a text only up to equivalence,
parts of normalized texts are normalized, and whitespace and zero-width characters that
stay do not combine with what is around them. -/
structure NormalizationForm (nfkc : List Char → List Char) : Prop where
  nil : nfkc [] = []
  concat : ∀ x y, nfkc (nfkc x ++ nfkc y) = nfkc (x ++ y)
  closed_infix : ∀ x y z, nfkc (x ++ y ++ z) = x ++ y ++ z → nfkc y = y
  stays : ∀ c, isZeroWidth c = true ∨ c = ' ' ∨ c = '\n' → nfkc [c] = [c]
  inert : ∀ c, isZeroWidth c = true ∨ isWhitespace c = true → nfkc [c] = [c] →
    ∀ x y, nfkc (x ++ c :: y) = nfkc x ++ c :: nfkc y
  makes_none : ∀ x, (∀ c ∈ x, isZeroWidth c = false) → ∀ c ∈ nfkc x, isZeroWidth c = false

namespace NormalizationForm

variable {nfkc : List Char → List Char}

theorem idempotent (h : NormalizationForm nfkc) (x : List Char) : nfkc (nfkc x) = nfkc x := by
  have hconcat := h.concat x []
  rwa [h.nil, List.append_nil, List.append_nil] at hconcat

theorem concat_left (h : NormalizationForm nfkc) (x y : List Char) :
    nfkc (nfkc x ++ y) = nfkc (x ++ y) := by
  rw [← h.concat (nfkc x) y, h.idempotent, h.concat]

theorem of_infix (h : NormalizationForm nfkc) {x y : List Char} (hx : nfkc x = x)
    (hy : y <:+: x) : nfkc y = y := by
  obtain ⟨s, t, rfl⟩ := hy
  exact h.closed_infix s y t hx

theorem of_mem (h : NormalizationForm nfkc) {x : List Char} {c : Char} (hx : nfkc x = x)
    (hc : c ∈ x) : nfkc [c] = [c] := by
  apply h.of_infix hx
  obtain ⟨s, t, rfl⟩ := List.append_of_mem hc
  exact ⟨s, t, by simp⟩

/-- A text is normalized when its words are, provided that its whitespace stays. -/
theorem fixed_iff (h : NormalizationForm nfkc) {u : List Char}
    (hu : ∀ c ∈ u, isWhitespace c = true → nfkc [c] = [c]) :
    nfkc u = u ↔ ∀ w ∈ splitWhitespace u, nfkc w = w := by
  refine ⟨fun hfixed w hw => h.of_infix hfixed (infix_of_mem_splitWhitespace hw), fun hwords => ?_⟩
  have hword : ∀ l : List Char, (∀ c ∈ l, isWhitespace c = false) →
      (∀ w ∈ splitWhitespace l, nfkc w = w) → nfkc l = l := by
    intro l hl hfixed
    rw [splitWhitespace_of_forall hl] at hfixed
    by_cases hne : l = []
    · rw [hne, h.nil]
    · exact hfixed l (by simp [hne])
  induction u using segment_induction (p := isWhitespace) with
  | last l hl => exact hword l hl hwords
  | segment l c t hl hc ih =>
    rw [splitWhitespace_append_cons l hc, List.forall_mem_append] at hwords
    have hstays : nfkc [c] = [c] := hu c (List.mem_append_right _ List.mem_cons_self) hc
    have hrest : nfkc t = t := by
      refine ih (fun d hd => hu d ?_) hwords.2
      exact List.mem_append_right _ (List.mem_cons_of_mem _ hd)
    rw [h.inert c (.inr hc) hstays, hword l hl hwords.1, hrest]

theorem dropZeroWidth_of_forall {x : List Char} (hx : ∀ c ∈ x, isZeroWidth c = false) :
    dropZeroWidth x = x :=
  List.filter_eq_self.mpr fun c hc => by simp [hx c hc]

theorem dropZeroWidth_append_cons (x y : List Char) {c : Char} (hc : isZeroWidth c = true) :
    dropZeroWidth (x ++ c :: y) = dropZeroWidth x ++ dropZeroWidth y := by
  simp [dropZeroWidth, hc]

/-- NFKC sees the same text, whether zero-width characters are dropped before or after a
first NFKC. -/
theorem dropZeroWidth_nfkc (h : NormalizationForm nfkc) (x : List Char) :
    nfkc (dropZeroWidth (nfkc x)) = nfkc (dropZeroWidth x) := by
  induction x using segment_induction (p := isZeroWidth) with
  | last l hl =>
    rw [dropZeroWidth_of_forall hl, dropZeroWidth_of_forall (h.makes_none l hl), h.idempotent]
  | segment l c t hl hc ih =>
    rw [h.inert c (.inl hc) (h.stays c (.inl hc)), dropZeroWidth_append_cons _ _ hc,
      dropZeroWidth_append_cons _ _ hc, dropZeroWidth_of_forall hl,
      dropZeroWidth_of_forall (h.makes_none l hl), h.concat_left, ← h.concat, ih, h.concat]

end NormalizationForm

/-! ### Words of the normal form -/

theorem splitWhitespace_mapChars (s : List Char) :
    splitWhitespace (mapChars s) = splitWhitespace (dropZeroWidth s) := by
  refine splitWhitespace_map (dropZeroWidth s) (fun c hc => ?_) fun c hc => ?_
  · rwa [isWhitespace_mapChar]
  · have hr : c ≠ '\r' := by
      rintro rfl
      exact absurd hc (by decide)
    have hn : c ≠ '\u00A0' := by
      rintro rfl
      exact absurd hc (by decide)
    rw [mapChar, if_neg hr, if_neg hn]

theorem newlines_whitespace (g : List Char) : ∀ c ∈ newlines g, isWhitespace c = true := by
  intro c hc
  rw [mem_newlines hc]
  decide

theorem between_whitespace (g : List Char) : ∀ c ∈ between g, isWhitespace c = true := by
  intro c hc
  rcases mem_between hc with rfl | rfl <;> decide

theorem between_eq_nil_iff (g : List Char) : between g = [] ↔ g = [] := by
  rcases between_cases g with ⟨hg, hb⟩ | ⟨hg, -, hb⟩ | ⟨hone, hb⟩ | ⟨htwo, hb⟩ <;> rw [hb]
  · exact iff_of_true rfl hg
  · exact iff_of_false (List.cons_ne_nil _ _) hg
  · refine iff_of_false (List.cons_ne_nil _ _) ?_
    rintro rfl
    exact absurd hone (by decide)
  · refine iff_of_false (List.cons_ne_nil _ _) ?_
    rintro rfl
    exact absurd htwo (by decide)

theorem splitWhitespace_collapseWhitespace (s : List Char) :
    splitWhitespace (collapseWhitespace s) = splitWhitespace s := by
  have hvalid := @Gapped.valid_split _ isKept s
  conv_rhs => rw [← @Gapped.toList_split _ isKept s, Gapped.toList]
  rw [collapseWhitespace_eq, splitWhitespace_whitespace_append (newlines_whitespace _),
    splitWhitespace_whitespace_append fun c hc => isWhitespace_of_not_kept (hvalid.lead c hc)]
  refine splitWhitespace_mapGaps _ [] (fun i hi c hc => ?_)
    (fun i _ => ⟨between_eq_nil_iff i.2, between_whitespace i.2⟩) fun i _ => newlines_whitespace i.2
  exact isWhitespace_of_not_kept ((hvalid.items i hi).2 c hc)

/-- Normal forms keep the words. -/
theorem splitWhitespace_normalForm (s : List Char) :
    splitWhitespace (normalForm s) = splitWhitespace s := by
  rw [← trim_collapseWhitespace, splitWhitespace_trim, splitWhitespace_collapseWhitespace]

/-! ### Characters of the normal form -/

theorem fst_mem_of_mem_items {s : List Char} {i : Char × List Char}
    (hi : i ∈ (Gapped.split isKept s).items) : i.1 ∈ s := by
  rw [← @Gapped.toList_split _ isKept s, Gapped.toList]
  exact List.mem_append_right _ (List.mem_flatMap.mpr ⟨i, hi, List.mem_cons_self⟩)

theorem mem_normalForm {s : List Char} {c : Char} (hc : c ∈ normalForm s) :
    c ∈ s ∨ c = '\n' ∨ c = ' ' := by
  obtain ⟨j, hj, hcj⟩ := List.mem_flatMap.mp hc
  obtain ⟨i, hi, hkey, hgap⟩ := mem_mapGaps hj
  rcases List.mem_cons.mp hcj with rfl | hcj
  · exact .inl (hkey ▸ fst_mem_of_mem_items (strip_subset hi))
  · rcases hgap with hgap | hgap
    · exact .inr (mem_between (hgap ▸ hcj))
    · rw [hgap] at hcj
      exact absurd hcj List.not_mem_nil

/-- The characters that mapping leaves alone. -/
def isMapped (c : Char) : Bool := !isZeroWidth c && c != '\r' && c != '\u00A0'

theorem mapChars_eq_self {s : List Char} (hs : ∀ c ∈ s, isMapped c = true) : mapChars s = s := by
  simp only [isMapped, Bool.and_eq_true, Bool.not_eq_true', bne_iff_ne] at hs
  have hfilter : (s.filter fun c => !isZeroWidth c) = s :=
    List.filter_eq_self.mpr fun c hc => by simp [(hs c hc).1.1]
  rw [mapChars, hfilter]
  refine (List.map_congr_left fun c hc => ?_).trans (List.map_id s)
  rw [mapChar, if_neg (hs c hc).1.2, if_neg (hs c hc).2, id]

theorem isMapped_mapChars (s : List Char) : ∀ c ∈ mapChars s, isMapped c = true := by
  rw [forall_mapChars]
  intro c _
  by_cases hz : isZeroWidth c = true
  · exact .inl hz
  · right
    rw [mapChar]
    split
    · decide
    · split
      · decide
      · next hr hn => simp [isMapped, hz, hr, hn]

theorem isMapped_normalForm (s : List Char) :
    ∀ c ∈ normalForm (mapChars s), isMapped c = true := by
  intro c hc
  rcases mem_normalForm hc with hc | rfl | rfl
  · exact isMapped_mapChars s c hc
  · decide
  · decide

theorem between_between (g : List Char) : between (between g) = between g := by
  rcases between_cases g with ⟨-, hb⟩ | ⟨-, -, hb⟩ | ⟨-, hb⟩ | ⟨-, hb⟩ <;> rw [hb] <;> decide

/-- Normal forms are their own normal form. -/
theorem normalForm_normalForm (s : List Char) : normalForm (normalForm s) = normalForm s := by
  have hvalid := valid_mapGaps (isKept_visibleItems s) fun i _ => @isKept_between i.2
  have hsplit : Gapped.split isKept (normalForm s) =
      ⟨[], mapGaps between (fun _ => []) (visibleItems s)⟩ := Gapped.split_toList hvalid
  have hvisible : visibleItems (normalForm s) =
      mapGaps between (fun _ => []) (visibleItems s) := by
    rw [visibleItems, hsplit]
    exact @strip_mapGaps_strip _ isWhitespace (Gapped.split isKept s).items between fun _ => []
  have hbetween : between ∘ between = between := by
    funext g
    exact between_between g
  rw [normalForm, hvisible, mapGaps_mapGaps, hbetween]
  rfl

/-! ### The second pass -/

section SecondPass

variable {nfkc : List Char → List Char} {d : List Char}

theorem normalForm_whitespace_stays (h : NormalizationForm nfkc) (hd : nfkc d = d) :
    ∀ c ∈ normalForm (mapChars d), isWhitespace c = true → nfkc [c] = [c] := by
  have hmapped : ∀ c ∈ mapChars d, nfkc [c] = [c] := by
    rw [forall_mapChars]
    intro c hc
    right
    rw [mapChar]
    split
    · exact h.stays '\n' (by decide)
    · split
      · exact h.stays ' ' (by decide)
      · exact h.of_mem hd hc
  intro c hc _
  rcases mem_normalForm hc with hc | rfl | rfl
  · exact hmapped c hc
  · exact h.stays '\n' (by decide)
  · exact h.stays ' ' (by decide)

/-- The normal form of a normalized text is normalized when that text without zero-width
characters is. -/
theorem nfkc_normalForm_iff (h : NormalizationForm nfkc) (hd : nfkc d = d) :
    nfkc (normalForm (mapChars d)) = normalForm (mapChars d) ↔
      nfkc (dropZeroWidth d) = dropZeroWidth d := by
  rw [h.fixed_iff (normalForm_whitespace_stays h hd), splitWhitespace_normalForm,
    splitWhitespace_mapChars, ← h.fixed_iff]
  intro c hc _
  exact h.of_mem hd (List.mem_of_mem_filter hc)

/-- The second pass keeps a normal form exactly when NFKC does. -/
theorem normalizeChars_normalForm_iff (h : NormalizationForm nfkc) (hd : nfkc d = d) :
    normalizeChars nfkc (normalForm (mapChars d)) = normalForm (mapChars d) ↔
      nfkc (normalForm (mapChars d)) = normalForm (mapChars d) := by
  have hmapped := isMapped_normalForm d
  rw [normalizeChars_eq]
  constructor
  · intro hsecond
    -- what NFKC makes of the normal form has the same words, and they are normalized
    have hnone : ∀ c ∈ nfkc (normalForm (mapChars d)), isZeroWidth c = false := by
      apply h.makes_none
      intro c hc
      have hc := hmapped c hc
      simp only [isMapped, Bool.and_eq_true, Bool.not_eq_true'] at hc
      exact hc.1.1
    have hwords : splitWhitespace (normalForm (mapChars d)) =
        splitWhitespace (nfkc (normalForm (mapChars d))) := by
      conv_lhs => rw [← hsecond]
      rw [splitWhitespace_normalForm, splitWhitespace_mapChars,
        NormalizationForm.dropZeroWidth_of_forall hnone]
    rw [h.fixed_iff (normalForm_whitespace_stays h hd), hwords]
    intro w hw
    exact h.of_infix (h.idempotent _) (infix_of_mem_splitWhitespace hw)
  · intro hfixed
    rw [hfixed, mapChars_eq_self hmapped, normalForm_normalForm]

end SecondPass

theorem normalize_changed_iff (nfkc : List Char → List Char) (input : String) :
    (normalize nfkc input).changed = false ↔ (normalize nfkc input).text = input := by
  have hchanged : (normalize nfkc input).changed =
      (input.utf8ByteSize != (normalize nfkc input).text.utf8ByteSize ||
        input != (normalize nfkc input).text) := rfl
  rw [hchanged, Bool.or_eq_false_iff, bne_eq_false_iff_eq, bne_eq_false_iff_eq,
    @eq_comm _ input]
  constructor
  · rintro ⟨-, h⟩
    exact h
  · intro h
    exact ⟨by rw [h], h⟩

/-- The second pass changes nothing exactly when dropping the zero-width characters of the
input commutes with NFKC. -/
theorem normalize_idempotent_iff (nfkc : List Char → List Char) (h : NormalizationForm nfkc)
    (x : String) :
    ((normalize nfkc (normalize nfkc x).text).text = (normalize nfkc x).text ∧
        (normalize nfkc (normalize nfkc x).text).changed = false) ↔
      nfkc (dropZeroWidth x.toList) = dropZeroWidth (nfkc x.toList) := by
  rw [normalize_changed_iff, and_self, normalize_text, normalize_text, String.toList_ofList,
    String.ofList_inj, normalizeChars_eq nfkc x.toList]
  rw [normalizeChars_normalForm_iff h (h.idempotent _), nfkc_normalForm_iff h (h.idempotent _),
    h.dropZeroWidth_nfkc]

/-! ### A base letter and a combining mark -/

namespace Compose

/-- A letter a and the acute accent after it become one character. -/
def push (c : Char) (s : List Char) : List Char :=
  if c = 'a' ∧ s.head? = some '\u0301' then '\u00E1' :: s.tail else c :: s

def compose (s : List Char) : List Char := s.foldr push []

theorem compose_append (x y : List Char) : compose (x ++ y) = x.foldr push (compose y) :=
  List.foldr_append

theorem push_of_ne {c : Char} {s : List Char} (h : ¬ (c = 'a' ∧ s.head? = some '\u0301')) :
    push c s = c :: s := if_neg h

/-- Composing before or after more text is put behind makes no difference. -/
theorem foldr_push (c : Char) (s t : List Char) :
    (push c s).foldr push t = push c (s.foldr push t) := by
  by_cases h : c = 'a' ∧ s.head? = some '\u0301'
  · obtain ⟨rfl, hs⟩ := h
    obtain ⟨s, rfl⟩ := List.head?_eq_some_iff.mp hs
    have hpush : push 'a' ('\u0301' :: s) = '\u00E1' :: s := rfl
    have haccent : ∀ u, push '\u0301' u = '\u0301' :: u := fun u => push_of_ne (by simp)
    have hletter : ∀ u, push '\u00E1' u = '\u00E1' :: u := fun u => push_of_ne (by simp)
    rw [hpush, List.foldr_cons, List.foldr_cons, hletter, haccent]
    rfl
  · rw [push_of_ne h, List.foldr_cons]

theorem foldr_compose (x t : List Char) : (compose x).foldr push t = x.foldr push t := by
  induction x with
  | nil => rfl
  | cons c x ih =>
    have hcons : compose (c :: x) = push c (compose x) := rfl
    rw [hcons, foldr_push, ih, List.foldr_cons]

theorem compose_compose (x : List Char) : compose (compose x) = compose x := foldr_compose x []

/-- Composing stops at a character other than the accent. -/
theorem foldr_push_cons {c : Char} (hc : c ≠ '\u0301') (x t : List Char) :
    x.foldr push (c :: t) = compose x ++ c :: t := by
  induction x with
  | nil => rfl
  | cons d x ih =>
    have hcons : compose (d :: x) = push d (compose x) := rfl
    rw [List.foldr_cons, ih, hcons]
    cases hx : compose x with
    | nil =>
      have hne : ¬ (d = 'a' ∧ (c :: t).head? = some '\u0301') := by simp [hc]
      have hnil : ¬ (d = 'a' ∧ ([] : List Char).head? = some '\u0301') := by simp
      rw [List.nil_append, push_of_ne hne, push_of_ne hnil]
      rfl
    | cons e u =>
      by_cases h : d = 'a' ∧ e = '\u0301'
      · obtain ⟨rfl, rfl⟩ := h
        rfl
      · rw [push_of_ne (by simpa using h), push_of_ne (by simpa using h)]
        rfl

theorem compose_cons_fixed {c : Char} {x : List Char} (h : compose (c :: x) = c :: x) :
    compose x = x ∧ ¬ (c = 'a' ∧ x.head? = some '\u0301') := by
  have hcons : push c (compose x) = c :: x := h
  by_cases hpush : c = 'a' ∧ (compose x).head? = some '\u0301'
  · rw [push, if_pos hpush, hpush.1] at hcons
    exact absurd (List.cons.inj hcons).1 (by decide)
  · rw [push_of_ne hpush] at hcons
    have hx : compose x = x := (List.cons.inj hcons).2
    exact ⟨hx, by rwa [hx] at hpush⟩

theorem suffix_fixed {x y : List Char} (h : compose (x ++ y) = x ++ y) : compose y = y := by
  induction x with
  | nil => exact h
  | cons c x ih => exact ih (compose_cons_fixed h).1

theorem prefix_fixed {x y : List Char} (h : compose (x ++ y) = x ++ y) : compose x = x := by
  induction x with
  | nil => rfl
  | cons c x ih =>
    obtain ⟨hrest, hne⟩ := compose_cons_fixed h
    have hcons : compose (c :: x) = push c (compose x) := rfl
    rw [hcons, ih hrest]
    apply push_of_ne
    rintro ⟨hc, hx⟩
    obtain ⟨x, rfl⟩ := List.head?_eq_some_iff.mp hx
    exact hne ⟨hc, rfl⟩

theorem mem_compose {x : List Char} {c : Char} (hc : c ∈ compose x) : c ∈ x ∨ c = '\u00E1' := by
  induction x with
  | nil => exact .inl hc
  | cons d x ih =>
    have hcons : compose (d :: x) = push d (compose x) := rfl
    rw [hcons, push] at hc
    split at hc
    · rcases List.mem_cons.mp hc with rfl | hc
      · exact .inr rfl
      · exact (ih (List.mem_of_mem_tail hc)).imp_left (List.mem_cons_of_mem d)
    · rcases List.mem_cons.mp hc with rfl | hc
      · exact .inl List.mem_cons_self
      · exact (ih hc).imp_left (List.mem_cons_of_mem d)

/-- Composition of this one pair keeps what normalization forms promise. -/
theorem normalizationForm : NormalizationForm compose := by
  have hseparator : ∀ c, isZeroWidth c = true ∨ isWhitespace c = true → c ≠ 'a' ∧ c ≠ '\u0301' := by
    rintro c hc
    refine ⟨?_, ?_⟩ <;> (rintro rfl; exact absurd hc (by decide))
  refine ⟨rfl, ?_, ?_, ?_, ?_, ?_⟩
  · intro x y
    rw [compose_append, compose_compose, foldr_compose, ← compose_append]
  · intro x y z h
    exact suffix_fixed (prefix_fixed h)
  · intro c _
    exact push_of_ne (by simp)
  · intro c hc _ x y
    obtain ⟨hletter, haccent⟩ := hseparator c hc
    have hcons : compose (c :: y) = push c (compose y) := rfl
    rw [compose_append, hcons, push_of_ne (fun h => hletter h.1), foldr_push_cons haccent]
  · intro x hx c hc
    rcases mem_compose hc with hc | rfl
    · exact hx c hc
    · decide

end Compose

open Compose (compose)

/-- Zero-width characters between letters do not matter. -/
theorem normalize_idempotent_letters :
    (normalize compose (normalize compose "a\u200Bb").text).text =
        (normalize compose "a\u200Bb").text ∧
      (normalize compose (normalize compose "a\u200Bb").text).changed = false :=
  (normalize_idempotent_iff compose Compose.normalizationForm "a\u200Bb").mpr (by decide)

/-- A zero-width character keeps a letter and an accent apart in the first pass only. -/
theorem normalize_not_idempotent :
    NormalizationForm compose ∧ (normalize compose "a\u200B\u0301").text = "a\u0301" ∧
      (normalize compose "a\u0301").text = "\u00E1" ∧
      (normalize compose (normalize compose "a\u200B\u0301").text).text ≠
        (normalize compose "a\u200B\u0301").text := by
  have hfirst : (normalize compose "a\u200B\u0301").text = "a\u0301" := rfl
  have hsecond : (normalize compose "a\u0301").text = "\u00E1" := rfl
  refine ⟨Compose.normalizationForm, hfirst, hsecond, ?_⟩
  rw [hfirst, hsecond]
  decide

end Contexide.Normalizer
