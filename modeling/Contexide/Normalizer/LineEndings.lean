import Contexide.Normalizer.Text
import Contexide.Text.Lines

/-! Normalization under different line endings. Carriage returns alone make no difference.
A carriage return and a line feed make two line feeds, which a blank line absorbs, so that
the difference shows at the line breaks without one. -/

namespace Contexide.Normalizer

open Text

/-! ### Other line endings -/

/-- Carriage returns and line feeds. -/
def crlf (t : String) : String := String.ofList (breakWith ['\r', '\n'] t.toList)

/-- Carriage returns alone. -/
def cr (t : String) : String := String.ofList (breakWith ['\r'] t.toList)

/-- NFKC leaves carriage returns and line feeds alone and makes none from other text. -/
structure LineBreaksInert (nfkc : List Char → List Char) : Prop where
  nil : nfkc [] = []
  append : ∀ c, c = '\r' ∨ c = '\n' → ∀ x y, nfkc (x ++ c :: y) = nfkc x ++ c :: nfkc y
  makes_none : ∀ x, '\r' ∉ x → '\n' ∉ x → '\r' ∉ nfkc x ∧ '\n' ∉ nfkc x

section Mapped

variable {nfkc : List Char → List Char}

theorem mapChars_append (x y : List Char) : mapChars (x ++ y) = mapChars x ++ mapChars y := by
  rw [mapChars, List.filter_append, List.map_append]
  rfl

theorem mapChars_break {c : Char} (hc : c = '\r' ∨ c = '\n') (y : List Char) :
    mapChars (c :: y) = '\n' :: mapChars y := by
  rcases hc with rfl | rfl <;> rfl

theorem newline_notMem_mapChars {x : List Char} (hr : '\r' ∉ x) (hn : '\n' ∉ x) :
    '\n' ∉ mapChars x := by
  intro hm
  obtain ⟨c, hc, heq⟩ := List.mem_map.mp hm
  have hcx : c ∈ x := (List.mem_filter.mp hc).1
  unfold mapChar at heq
  split at heq
  · next h => exact hr (h ▸ hcx)
  · split at heq
    · exact absurd heq (by decide)
    · exact hn (heq ▸ hcx)

namespace LineBreaksInert

theorem mapped_append (h : LineBreaksInert nfkc) {c : Char} (hc : c = '\r' ∨ c = '\n')
    (x y : List Char) :
    mapChars (nfkc (x ++ c :: y)) = mapChars (nfkc x) ++ '\n' :: mapChars (nfkc y) := by
  rw [h.append c hc, mapChars_append, mapChars_break hc]

theorem newline_notMem (h : LineBreaksInert nfkc) {l : List Char} (hr : '\r' ∉ l)
    (hn : '\n' ∉ l) : '\n' ∉ mapChars (nfkc l) := by
  obtain ⟨hr', hn'⟩ := h.makes_none l hr hn
  exact newline_notMem_mapChars hr' hn'

/-- A carriage return is mapped like the line feed it stands for. -/
theorem mapped_cr (h : LineBreaksInert nfkc) (t : List Char) :
    mapChars (nfkc (breakWith ['\r'] t)) = mapChars (nfkc t) := by
  induction t using line_induction with
  | last l hl => rw [breakWith_of_notMem _ hl]
  | line l t hl ih =>
    rw [breakWith_line _ hl, List.append_assoc, List.singleton_append,
      h.mapped_append (.inl rfl), h.mapped_append (.inr rfl), ih]

/-- A carriage return and a line feed are mapped to two line feeds. -/
theorem mapped_crlf (h : LineBreaksInert nfkc) {t : List Char} (hcr : '\r' ∉ t) :
    mapChars (nfkc (breakWith ['\r', '\n'] t)) =
      breakWith ['\n', '\n'] (mapChars (nfkc t)) := by
  induction t using line_induction with
  | last l hl => rw [breakWith_of_notMem _ hl, breakWith_of_notMem _ (h.newline_notMem hcr hl)]
  | line l t hl ih =>
    rw [List.mem_append, List.mem_cons, not_or, not_or] at hcr
    have hlf : ∀ y, mapChars (nfkc ('\n' :: y)) = '\n' :: mapChars (nfkc y) := by
      intro y
      have hnil := h.mapped_append (.inr rfl) [] y
      rw [h.nil] at hnil
      exact hnil
    rw [breakWith_line _ hl, h.mapped_append (.inr rfl),
      breakWith_line _ (h.newline_notMem hcr.1 hl), ← ih hcr.2.2, List.append_assoc]
    show mapChars (nfkc (l ++ '\r' :: '\n' :: breakWith ['\r', '\n'] t)) = _
    rw [h.mapped_append (.inl rfl), hlf, List.append_assoc]
    rfl

end LineBreaksInert

end Mapped

/-! ### Doubled line feeds -/

/-- Every line feed twice. -/
def doubled (s : List Char) : List Char := breakWith ['\n', '\n'] s

theorem mem_doubled {s : List Char} {c : Char} : c ∈ doubled s ↔ c ∈ s := by
  simp only [doubled, breakWith, List.mem_flatMap]
  constructor
  · rintro ⟨d, hd, hc⟩
    split at hc
    · next h =>
      rw [h] at hd
      simpa [show c = '\n' by simpa using hc] using hd
    · rwa [List.mem_singleton.mp hc]
  · intro hc
    refine ⟨c, hc, ?_⟩
    split
    · next h => simp [h]
    · exact List.mem_singleton_self c

theorem count_doubled (s : List Char) : (doubled s).count '\n' = 2 * s.count '\n' := by
  induction s with
  | nil => rfl
  | cons c s ih =>
    have hcons : doubled (c :: s) = (if c = '\n' then ['\n', '\n'] else [c]) ++ doubled s := rfl
    rw [hcons, List.count_append, ih]
    by_cases hc : c = '\n'
    · rw [if_pos hc, hc, List.count_cons_self]
      simp
      omega
    · rw [if_neg hc, List.count_cons_of_ne hc, List.count_cons_of_ne hc, List.count_nil,
        Nat.zero_add]

theorem doubled_spell {items : List (Char × List Char)}
    (hkept : ∀ i ∈ items, isKept i.1 = true) :
    doubled (spell items) = spell (items.map fun i => (i.1, doubled i.2)) := by
  induction items with
  | nil => rfl
  | cons i items ih =>
    have hne := (Collapse.isKept_ne (hkept i List.mem_cons_self)).1
    have hkey : doubled (i.1 :: i.2) = i.1 :: doubled i.2 := by
      rw [doubled, breakWith, List.flatMap_cons, if_neg hne]
      rfl
    rw [spell_cons, doubled, breakWith_append]
    show doubled (i.1 :: i.2) ++ doubled (spell items) = _
    rw [hkey, ih fun j hj => hkept j (List.mem_cons_of_mem _ hj)]
    rfl

/-- Doubling line feeds doubles them in each gap. -/
theorem split_doubled (s : List Char) :
    Gapped.split isKept (doubled s) =
      ⟨doubled (Gapped.split isKept s).lead,
        (Gapped.split isKept s).items.map fun i => (i.1, doubled i.2)⟩ := by
  have hv := @Gapped.valid_split _ isKept s
  have hvalid : Gapped.Valid isKept ⟨doubled (Gapped.split isKept s).lead,
      (Gapped.split isKept s).items.map fun i => (i.1, doubled i.2)⟩ := by
    refine ⟨fun c hc => hv.lead c (mem_doubled.mp hc), fun j hj => ?_⟩
    obtain ⟨i, hi, rfl⟩ := List.mem_map.mp hj
    exact ⟨(hv.items i hi).1, fun c hc => (hv.items i hi).2 c (mem_doubled.mp hc)⟩
  rw [← Gapped.split_toList hvalid]
  congr 1
  conv_lhs => rw [← @Gapped.toList_split _ isKept s]
  rw [Gapped.toList, Gapped.toList, ← doubled_spell fun i hi => (hv.items i hi).1]
  exact breakWith_append _ _ _

/-- Two line feeds or more stay two, and one becomes two. -/
theorem between_doubled (g : List Char) : between (doubled g) = between g ↔ g.count '\n' ≠ 1 := by
  by_cases hn : '\n' ∈ g
  · have hne : g ≠ [] := List.ne_nil_of_mem hn
    have hn' : '\n' ∈ doubled g := mem_doubled.mpr hn
    have hne' : doubled g ≠ [] := List.ne_nil_of_mem hn'
    have hpos : 0 < g.count '\n' := List.count_pos_iff.mpr hn
    rw [between, if_neg hne', if_pos hn', between, if_neg hne, if_pos hn, newlines, newlines,
      List.replicate_left_inj, count_doubled]
    omega
  · have hzero : g.count '\n' = 0 := List.count_eq_zero.mpr hn
    have hsame : doubled g = g := breakWith_of_notMem _ hn
    rw [hsame, hzero]
    exact iff_of_true rfl (by decide)

/-- The gaps of a normal form are written out in one way only. -/
theorem spell_mapGaps_inj (f f' : List Char → List Char) {items : List (Char × List Char)}
    (hkept : ∀ i ∈ items, isKept i.1 = true) (hf : ∀ i ∈ items, ∀ c ∈ f i.2, isKept c = false)
    (hf' : ∀ i ∈ items, ∀ c ∈ f' i.2, isKept c = false) :
    spell (mapGaps f (fun _ => []) items) = spell (mapGaps f' (fun _ => []) items) ↔
      ∀ i ∈ items.dropLast, f i.2 = f' i.2 := by
  rw [← mapGaps_eq_iff]
  refine Iff.trans ((valid_mapGaps hkept hf).toList_inj (valid_mapGaps hkept hf')) ?_
  rw [Gapped.mk.injEq, and_iff_right rfl]

/-- Doubled line feeds change the normal form exactly when a visible gap has a single
one. -/
theorem normalForm_doubled_iff (s : List Char) :
    normalForm (doubled s) = normalForm s ↔
      ∀ i ∈ (visibleItems s).dropLast, i.2.count '\n' ≠ 1 := by
  have hdoubled : normalForm (doubled s) =
      spell (mapGaps (between ∘ doubled) (fun _ => []) (visibleItems s)) := by
    rw [normalForm, visibleItems, split_doubled, strip_map, mapGaps_map]
    rfl
  rw [hdoubled, normalForm]
  refine (spell_mapGaps_inj (between ∘ doubled) between (isKept_visibleItems s)
    (fun _ _ => isKept_between) fun _ _ => isKept_between).trans ?_
  exact forall₂_congr fun i _ => between_doubled i.2

/-! ### Single line feeds -/

/-- A visible character is a kept one. -/
theorem exists_item_of_visible {s : List Char} {c : Char} (hc : c ∈ s)
    (hv : isWhitespace c = false) : ∃ i ∈ (Gapped.split isKept s).items, i.1 = c := by
  have hvalid := @Gapped.valid_split _ isKept s
  have hgap : ∀ d, isKept d = false → d ≠ c := by
    rintro d hd rfl
    exact absurd (isWhitespace_of_not_kept hd) (by simp [hv])
  rw [← @Gapped.toList_split _ isKept s, Gapped.toList, List.mem_append] at hc
  rcases hc with hc | hc
  · exact absurd rfl (hgap c (hvalid.lead c hc))
  · obtain ⟨i, hi, hci⟩ := List.mem_flatMap.mp hc
    rcases List.mem_cons.mp hci with rfl | hci
    · exact ⟨i, hi, rfl⟩
    · exact absurd rfl (hgap c ((hvalid.items i hi).2 c hci))

/-- A gap with one line feed. -/
theorem exists_of_count_eq_one {g : List Char} (h : g.count '\n' = 1) :
    ∃ u v, g = u ++ '\n' :: v ∧ '\n' ∉ u ∧ '\n' ∉ v := by
  obtain ⟨u, v, rfl⟩ := List.append_of_mem (List.count_pos_iff.mp (h ▸ Nat.one_pos))
  rw [List.count_append, List.count_cons_self] at h
  refine ⟨u, v, rfl, List.count_eq_zero.mp ?_, List.count_eq_zero.mp ?_⟩ <;> omega

/-- A line feed between two lines with kept characters. -/
structure Lone (a b : List Char) : Prop where
  last : ∃ c ∈ lastLine a, isKept c = true
  first : ∃ c ∈ firstLine b, isKept c = true
  before : ∃ c ∈ a, isWhitespace c = false
  after : ∃ c ∈ b, isWhitespace c = false

/-- A gap after the last line of `a` that has a line feed is not in a line with kept
characters. -/
theorem newline_notMem_lastGap {a : List Char} {items : List (Char × List Char)} {k : Char}
    {u : List Char} (ha : (Gapped.split isKept a).items = items ++ [(k, u)])
    (hlast : ∃ c ∈ lastLine a, isKept c = true) : '\n' ∉ u := by
  intro hu
  have hvalid := @Gapped.valid_split _ isKept a
  have hgap := (hvalid.items (k, u) (by simp [ha])).2
  rcases eq_lastLine_or u with ⟨hn, -⟩ | ⟨x, hx, hn⟩
  · exact hn hu
  · have heq : a =
        ((Gapped.split isKept a).lead ++ spell items ++ k :: x) ++ '\n' :: lastLine u := by
      conv_lhs => rw [← @Gapped.toList_split _ isKept a, Gapped.toList, ha, spell_append]
      simp only [spell_cons, spell_nil, List.append_nil]
      conv_lhs => rw [hx]
      simp
    obtain ⟨c, hc, hkept⟩ := hlast
    rw [heq, lastLine_append hn] at hc
    have hcu : c ∈ u := hx ▸ List.mem_append_right _ (List.mem_cons_of_mem _ hc)
    exact absurd hkept (by simp [hgap c hcu])

theorem newline_notMem_lead {b : List Char} (hfirst : ∃ c ∈ firstLine b, isKept c = true) :
    '\n' ∉ (Gapped.split isKept b).lead := by
  intro hl
  have hvalid := @Gapped.valid_split _ isKept b
  rcases eq_firstLine_or (Gapped.split isKept b).lead with ⟨hn, -⟩ | ⟨y, hy, hn⟩
  · exact hn hl
  · have heq : b = firstLine (Gapped.split isKept b).lead ++
        '\n' :: (y ++ spell (Gapped.split isKept b).items) := by
      conv_lhs => rw [← @Gapped.toList_split _ isKept b, Gapped.toList]
      conv_lhs => enter [1]; rw [hy]
      simp
    obtain ⟨c, hc, hkept⟩ := hfirst
    rw [heq, firstLine_append hn] at hc
    have hcl : c ∈ (Gapped.split isKept b).lead := hy ▸ List.mem_append_left _ hc
    exact absurd hkept (by simp [hvalid.lead c hcl])

/-- The line feed of a visible gap with a single one is alone. -/
theorem exists_lone {s : List Char} {i : Char × List Char} (hi : i ∈ (visibleItems s).dropLast)
    (hcount : i.2.count '\n' = 1) : ∃ a b, s = a ++ '\n' :: b ∧ Lone a b := by
  obtain ⟨before, after, hitems, ⟨x, hx, hvx⟩, y, hy, hvy⟩ := mem_dropLast_strip.mp hi
  obtain ⟨u, v, hgap, hu, hv⟩ := exists_of_count_eq_one hcount
  have hvalid := @Gapped.valid_split _ isKept s
  have hkept : ∀ j ∈ before ++ i :: after, isKept j.1 = true := fun j hj =>
    (hvalid.items j (hitems ▸ hj)).1
  have hki := hkept i (by simp)
  obtain ⟨j, rest, rfl⟩ := List.exists_cons_of_ne_nil (List.ne_nil_of_mem hy)
  have hkj := hkept j (by simp)
  refine ⟨(Gapped.split isKept s).lead ++ spell before ++ i.1 :: u, v ++ spell (j :: rest),
    ?_, ⟨i.1, ?_, hki⟩, ⟨j.1, ?_, hkj⟩, ⟨x.1, ?_, hvx⟩, y.1, ?_, hvy⟩
  · conv_lhs => rw [← @Gapped.toList_split _ isKept s, Gapped.toList, hitems]
    simp [hgap]
  · have hline : '\n' ∉ i.1 :: u := by
      rw [List.mem_cons, not_or]
      exact ⟨Ne.symm (Collapse.isKept_ne hki).1, hu⟩
    rw [lastLine_append_of_notMem hline]
    exact List.mem_append_right _ List.mem_cons_self
  · have hne := (Collapse.isKept_ne hkj).1
    rw [firstLine_append_of_notMem hv, spell_cons, List.cons_append, firstLine,
      List.takeWhile_cons_of_pos (by simpa using hne)]
    exact List.mem_append_right _ List.mem_cons_self
  · rcases List.mem_append.mp hx with hx | hx
    · refine List.mem_append_left _ (List.mem_append_right _ ?_)
      exact List.mem_flatMap.mpr ⟨x, hx, List.mem_cons_self⟩
    · rw [List.mem_singleton.mp hx]
      exact List.mem_append_right _ List.mem_cons_self
  · exact List.mem_append_right _ (List.mem_flatMap.mpr ⟨y, hy, List.mem_cons_self⟩)

/-- A line feed that is alone joins two gaps without line feeds. -/
theorem Lone.exists_single {a b : List Char} (h : Lone a b) :
    ∃ i ∈ (visibleItems (a ++ '\n' :: b)).dropLast, i.2.count '\n' = 1 := by
  have hnewline : isKept '\n' = false := by decide
  obtain ⟨hlast, hfirst, ⟨x, hx, hvx⟩, y, hy, hvy⟩ := h
  obtain ⟨i, hi, rfl⟩ := exists_item_of_visible hx hvx
  obtain ⟨j, hj, rfl⟩ := exists_item_of_visible hy hvy
  rcases (Gapped.split isKept a).items.eq_nil_or_concat' with hnil | ⟨items, ⟨k, u⟩, ha⟩
  · rw [hnil] at hi
    exact absurd hi List.not_mem_nil
  refine ⟨(k, u ++ '\n' :: (Gapped.split isKept b).lead), mem_dropLast_strip.mpr
    ⟨items, (Gapped.split isKept b).items, ?_, ?_, j, hj, hvy⟩, ?_⟩
  · rw [Gapped.split_append_cons ha hnewline]
  · rw [ha] at hi
    rcases List.mem_append.mp hi with hi | hi
    · exact ⟨i, List.mem_append_left _ hi, hvx⟩
    · rw [List.mem_singleton] at hi
      rw [hi] at hvx
      exact ⟨_, List.mem_append_right _ List.mem_cons_self, hvx⟩
  · rw [List.count_append, List.count_cons_self,
      List.count_eq_zero.mpr (newline_notMem_lastGap ha hlast),
      List.count_eq_zero.mpr (newline_notMem_lead hfirst)]

/-- A visible gap has a single line feed exactly when a line feed is alone between two
lines of the visible text. -/
theorem exists_single_iff (s : List Char) :
    (∃ i ∈ (visibleItems s).dropLast, i.2.count '\n' = 1) ↔
      ∃ a b, s = a ++ '\n' :: b ∧ Lone a b := by
  constructor
  · rintro ⟨i, hi, hcount⟩
    exact exists_lone hi hcount
  · rintro ⟨a, b, rfl, h⟩
    exact h.exists_single

/-! ### Lines of the text -/

namespace LineBreaksInert

variable {nfkc : List Char → List Char}

/-- The last line of the mapped text is mapped from the last line. -/
theorem lastLine_mapped (h : LineBreaksInert nfkc) {a : List Char} (hcr : '\r' ∉ a) :
    lastLine (mapChars (nfkc a)) = mapChars (nfkc (lastLine a)) := by
  induction a using line_induction with
  | last l hl => rw [lastLine_of_notMem hl, lastLine_of_notMem (h.newline_notMem hcr hl)]
  | line l t hl ih =>
    rw [List.mem_append, List.mem_cons, not_or, not_or] at hcr
    rw [h.mapped_append (.inr rfl), lastLine_append_newline, lastLine_append_newline, ih hcr.2.2]

theorem firstLine_mapped (h : LineBreaksInert nfkc) {b : List Char} (hcr : '\r' ∉ b) :
    firstLine (mapChars (nfkc b)) = mapChars (nfkc (firstLine b)) := by
  induction b using line_induction with
  | last l hl => rw [firstLine_of_notMem hl, firstLine_of_notMem (h.newline_notMem hcr hl)]
  | line l t hl _ =>
    rw [List.mem_append, not_or] at hcr
    rw [h.mapped_append (.inr rfl), firstLine_append hl,
      firstLine_append (h.newline_notMem hcr.1 hl)]

/-- The line feeds of the mapped text are those of the text. -/
theorem exists_of_mapped_eq (h : LineBreaksInert nfkc) {t : List Char} (hcr : '\r' ∉ t)
    {x y : List Char} (ht : mapChars (nfkc t) = x ++ '\n' :: y) :
    ∃ a b, t = a ++ '\n' :: b ∧ x = mapChars (nfkc a) ∧ y = mapChars (nfkc b) := by
  induction t using line_induction generalizing x with
  | last l hl =>
    refine absurd ?_ (h.newline_notMem hcr hl)
    rw [ht]
    exact List.mem_append_right _ List.mem_cons_self
  | line l t hl ih =>
    rw [List.mem_append, List.mem_cons, not_or, not_or] at hcr
    rw [h.mapped_append (.inr rfl)] at ht
    have hmapped := h.newline_notMem hcr.1 hl
    rcases List.append_eq_append_iff.mp ht with ⟨u, hx, hu⟩ | ⟨u, hl', hu⟩
    · rcases List.cons_eq_append_iff.mp hu with ⟨rfl, hy⟩ | ⟨u, rfl, hy⟩
      · rw [List.append_nil] at hx
        exact ⟨l, t, rfl, hx, (List.cons.inj hy).2⟩
      · obtain ⟨a, b, rfl, rfl, rfl⟩ := ih hcr.2.2 hy
        refine ⟨l ++ '\n' :: a, b, ?_, ?_, rfl⟩
        · simp
        · rw [hx, h.mapped_append (.inr rfl)]
    · rcases List.cons_eq_append_iff.mp hu with ⟨rfl, hy⟩ | ⟨u, rfl, -⟩
      · rw [List.append_nil] at hl'
        exact ⟨l, t, rfl, hl'.symm, (List.cons.inj hy).2.symm⟩
      · refine absurd ?_ hmapped
        rw [hl']
        exact List.mem_append_right _ List.mem_cons_self

end LineBreaksInert

/-! ### Texts whose normal form is independent of the line endings -/

/-- NFKC leaves nothing of a line but spaces, tabs and characters that are dropped. -/
def Blank (nfkc : List Char → List Char) (line : List Char) : Prop :=
  ∀ c ∈ nfkc line, isZeroWidth c = true ∨ c = ' ' ∨ c = '\t' ∨ c = '\u00A0'

/-- NFKC leaves nothing but whitespace and characters that are dropped. -/
def Invisible (nfkc : List Char → List Char) (s : List Char) : Prop :=
  ∀ c ∈ nfkc s, isZeroWidth c = true ∨ isWhitespace c = true

/-- A line break with a blank line before or after it, or nothing visible on one of its
sides. -/
def Absorbed (nfkc : List Char → List Char) (a b : List Char) : Prop :=
  Blank nfkc (lastLine a) ∨ Blank nfkc (firstLine b) ∨ Invisible nfkc a ∨ Invisible nfkc b

theorem isKept_mapChar {c : Char} (hr : c ≠ '\r') (hn : c ≠ '\n') :
    isKept (mapChar c) = false ↔ c = ' ' ∨ c = '\t' ∨ c = '\u00A0' := by
  rw [mapChar, if_neg hr]
  split
  · next h =>
    rw [h]
    decide
  · next h => simp [isKept, hn, h, or_iff_not_imp_left]

theorem invisible_iff (nfkc : List Char → List Char) (s : List Char) :
    Invisible nfkc s ↔ ∀ c ∈ mapChars (nfkc s), isWhitespace c = true := by
  rw [forall_mapChars]
  simp only [isWhitespace_mapChar]
  rfl

section Absorbed

variable {nfkc : List Char → List Char}

theorem blank_iff (h : LineBreaksInert nfkc) {l : List Char} (hr : '\r' ∉ l) (hn : '\n' ∉ l) :
    Blank nfkc l ↔ ∀ c ∈ mapChars (nfkc l), isKept c = false := by
  obtain ⟨hr', hn'⟩ := h.makes_none l hr hn
  rw [forall_mapChars]
  refine forall₂_congr fun c hc => ?_
  have hcr : c ≠ '\r' := fun heq => hr' (heq ▸ hc)
  have hlf : c ≠ '\n' := fun heq => hn' (heq ▸ hc)
  rw [isKept_mapChar hcr hlf]

theorem exists_iff_not_forall {p : Char → Bool} {b : Bool} {s : List Char} :
    (∃ c ∈ s, p c = !b) ↔ ¬ ∀ c ∈ s, p c = b := by
  cases b <;> simp

/-- A line feed of the mapped text is alone exactly when the one it comes from is not
absorbed. -/
theorem lone_mapped_iff (h : LineBreaksInert nfkc) {a b : List Char} (ha : '\r' ∉ a)
    (hb : '\r' ∉ b) :
    Lone (mapChars (nfkc a)) (mapChars (nfkc b)) ↔ ¬ Absorbed nfkc a b := by
  have hlast : '\r' ∉ lastLine a := fun hc => ha ((List.rtakeWhile_suffix _ a).subset hc)
  have hfirst : '\r' ∉ firstLine b := fun hc => hb ((List.takeWhile_prefix _).subset hc)
  have hlastn : '\n' ∉ lastLine a := fun hc => absurd (List.mem_rtakeWhile_imp hc) (by simp)
  have hfirstn : '\n' ∉ firstLine b := fun hc => absurd (List.mem_takeWhile_imp hc) (by simp)
  rw [Absorbed, not_or, not_or, not_or, invisible_iff, invisible_iff, blank_iff h hlast hlastn,
    blank_iff h hfirst hfirstn, ← h.lastLine_mapped ha, ← h.firstLine_mapped hb,
    ← exists_iff_not_forall, ← exists_iff_not_forall, ← exists_iff_not_forall,
    ← exists_iff_not_forall]
  exact ⟨fun hl => ⟨hl.last, hl.first, hl.before, hl.after⟩,
    fun ⟨hl, hf, hbefore, hafter⟩ => ⟨hl, hf, hbefore, hafter⟩⟩

end Absorbed

/-- Line breaks of all three kinds normalize alike exactly when each is absorbed. -/
theorem normalize_lineEndings_iff (nfkc : List Char → List Char) (h : LineBreaksInert nfkc)
    (t : String) (hcr : '\r' ∉ t.toList) :
    ((normalize nfkc (crlf t)).text = (normalize nfkc t).text ∧
        (normalize nfkc (cr t)).text = (normalize nfkc t).text) ↔
      ∀ a b, t.toList = a ++ '\n' :: b → Absorbed nfkc a b := by
  have hcrText : (normalize nfkc (cr t)).text = (normalize nfkc t).text := by
    rw [normalize_text, normalize_text, normalizeChars_eq, normalizeChars_eq, cr,
      String.toList_ofList, h.mapped_cr]
  have hcrlfText : (normalize nfkc (crlf t)).text = (normalize nfkc t).text ↔
      normalForm (doubled (mapChars (nfkc t.toList))) = normalForm (mapChars (nfkc t.toList)) := by
    rw [normalize_text, normalize_text, normalizeChars_eq, normalizeChars_eq, crlf,
      String.toList_ofList, h.mapped_crlf hcr, String.ofList_inj]
    rfl
  rw [and_iff_left hcrText, hcrlfText, normalForm_doubled_iff]
  have hsingle := exists_single_iff (mapChars (nfkc t.toList))
  constructor
  · intro hall a b ht
    rw [ht, List.mem_append, List.mem_cons, not_or, not_or] at hcr
    by_contra habs
    have hlone := (lone_mapped_iff h hcr.1 hcr.2.2).mpr habs
    obtain ⟨i, hi, hcount⟩ := hsingle.mpr ⟨_, _, by rw [ht, h.mapped_append (.inr rfl)], hlone⟩
    exact hall i hi hcount
  · intro habs i hi hcount
    obtain ⟨x, y, hxy, hlone⟩ := hsingle.mp ⟨i, hi, hcount⟩
    obtain ⟨a, b, ht, rfl, rfl⟩ := h.exists_of_mapped_eq hcr hxy
    have hab := habs a b ht
    rw [ht, List.mem_append, List.mem_cons, not_or, not_or] at hcr
    exact (lone_mapped_iff h hcr.1 hcr.2.2).mp hlone hab

theorem lineBreaksInert_id : LineBreaksInert id := by
  refine ⟨rfl, ?_, ?_⟩
  · intro c _ x y
    rfl
  · intro x hr hn
    exact ⟨hr, hn⟩

/-- A blank line absorbs its line breaks. -/
theorem normalize_lineEndings_blank_line :
    (normalize id (crlf "a\n\nb")).text = (normalize id "a\n\nb").text ∧
      (normalize id (cr "a\n\nb")).text = (normalize id "a\n\nb").text := by
  refine (normalize_lineEndings_iff id lineBreaksInert_id "a\n\nb" (by decide)).mpr ?_
  intro a b hab
  change ['a', '\n', '\n', 'b'] = a ++ '\n' :: b at hab
  rcases a with _ | ⟨c, _ | ⟨d, _ | ⟨e, a⟩⟩⟩
  · simp at hab
  · obtain ⟨rfl, rfl⟩ : 'a' = c ∧ ['\n', 'b'] = b := by simpa using hab
    exact .inr (.inl fun c hc => absurd hc List.not_mem_nil)
  · obtain ⟨rfl, rfl, rfl⟩ : 'a' = c ∧ '\n' = d ∧ ['b'] = b := by simpa using hab
    exact .inl fun c hc => absurd hc List.not_mem_nil
  · obtain ⟨-, -, -, h⟩ : 'a' = c ∧ '\n' = d ∧ '\n' = e ∧ ['b'] = a ++ '\n' :: b := by
      simpa using hab
    rcases List.append_eq_singleton_iff.mp h.symm with ⟨-, h⟩ | ⟨-, h⟩
    · exact absurd (List.cons.inj h).1 (by decide)
    · exact absurd h (by simp)

/-- A single carriage return and line feed normalizes to a blank line, a line feed does
not. -/
theorem crlf_makes_blank_line :
    LineBreaksInert id ∧ '\r' ∉ "a\nb".toList ∧
      (normalize id (crlf "a\nb")).text ≠ (normalize id "a\nb").text := by
  have hcrlf : (normalize id (crlf "a\nb")).text = "a\n\nb" := rfl
  have hlf : (normalize id "a\nb").text = "a\nb" := rfl
  refine ⟨lineBreaksInert_id, by decide, ?_⟩
  rw [hcrlf, hlf]
  decide

end Contexide.Normalizer
