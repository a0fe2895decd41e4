import Contexide.Text.Gaps
import Contexide.Text.Whitespace

/-! Text normalization: NFKC, mapping of single characters, collapsing of whitespace and
trimming. NFKC belongs to another crate and is a parameter. -/

namespace Contexide.Normalizer

open Text

structure NormalizedText where
  text : String
  changed : Bool
  bytesIn : ℕ
  bytesOut : ℕ
  lines : ℕ
  words : ℕ
  deriving DecidableEq, Repr

/-! ### Mapping single characters -/

/-- Zero-width characters, the byte order mark and the word joiner. -/
def isZeroWidth (c : Char) : Bool :=
  c == '\u200B' || c == '\u200C' || c == '\u200D' || c == '\uFEFF' || c == '\u2060'

/-- Carriage returns become line feeds and non-breaking spaces become spaces. -/
def mapChar (c : Char) : Char :=
  if c = '\r' then '\n' else if c = '\u00A0' then ' ' else c

/-- Zero-width characters are dropped, the others mapped. -/
def mapChars (s : List Char) : List Char := (s.filter fun c => !isZeroWidth c).map mapChar

theorem forall_mapChars {P : Char → Prop} {s : List Char} :
    (∀ c ∈ mapChars s, P c) ↔ ∀ c ∈ s, isZeroWidth c = true ∨ P (mapChar c) := by
  simp only [mapChars, List.forall_mem_map, List.mem_filter]
  refine forall_congr' fun c => ?_
  cases isZeroWidth c <;> simp

theorem isWhitespace_mapChar (c : Char) : isWhitespace (mapChar c) = isWhitespace c := by
  unfold mapChar
  split
  · next h =>
    rw [h]
    decide
  · split
    · next h =>
      rw [h]
      decide
    · rfl

/-! ### Collapsing whitespace -/

/-- The state of the loop: the finished lines, whether the last character was a space, the
newlines that are pending, and the current line. -/
structure Collapse where
  out : List Char
  prevWasSpace : Bool
  newlineRun : ℕ
  lineBuf : List Char

namespace Collapse

def new : Collapse := ⟨[], false, 0, []⟩

/-- Write a line without its trailing spaces, then newlines. -/
def flushLine (out line : List Char) (newlineCount : ℕ) : List Char :=
  out ++ line.rdropWhile (· == ' ') ++ List.replicate newlineCount '\n'

/-- Runs of newlines are capped to a single blank line. -/
def capped (newlineRun : ℕ) : ℕ := if newlineRun ≥ 3 then 2 else newlineRun

def step (st : Collapse) (ch : Char) : Collapse :=
  if ch = '\n' then
    { out := flushLine st.out st.lineBuf 0
      prevWasSpace := false
      newlineRun := st.newlineRun + 1
      lineBuf := [] }
  else if ch = ' ' ∨ ch = '\t' then
    -- no space at the start of a line or after a space
    if !st.prevWasSpace && !st.lineBuf.isEmpty then
      { st with lineBuf := st.lineBuf ++ [' '], prevWasSpace := true }
    else st
  else
    { out :=
        if st.newlineRun > 0 then st.out ++ List.replicate (capped st.newlineRun) '\n' else st.out
      prevWasSpace := false
      newlineRun := 0
      lineBuf := st.lineBuf ++ [ch] }

/-- Flush the tail. -/
def finish (st : Collapse) : List Char :=
  if st.newlineRun > 0 then flushLine st.out st.lineBuf (capped st.newlineRun)
  else flushLine st.out st.lineBuf 0

end Collapse

def collapseWhitespace (s : List Char) : List Char := (s.foldl Collapse.step .new).finish

/-! What collapsing is for: the kept characters stay, and what stands between them depends
on whether there was anything, and on the number of newlines up to two. -/

/-- All characters but spaces, tabs and newlines. -/
def isKept (c : Char) : Bool := !(c == ' ' || c == '\t' || c == '\n')

/-- The newlines of a gap, at most two. -/
def newlines (g : List Char) : List Char := List.replicate (min 2 (g.count '\n')) '\n'

/-- What is written between two kept characters. -/
def between (g : List Char) : List Char :=
  if g = [] then [] else if '\n' ∈ g then newlines g else [' ']

/-- What is written for a gap, by the four kinds of gaps. -/
theorem between_cases (g : List Char) :
    g = [] ∧ between g = [] ∨ g ≠ [] ∧ '\n' ∉ g ∧ between g = [' '] ∨
      g.count '\n' = 1 ∧ between g = ['\n'] ∨ 2 ≤ g.count '\n' ∧ between g = ['\n', '\n'] := by
  by_cases hg : g = []
  · exact .inl ⟨hg, by rw [hg]; rfl⟩
  · by_cases hn : '\n' ∈ g
    · have hpos : 0 < g.count '\n' := List.count_pos_iff.mpr hn
      have hbetween : between g = newlines g := by rw [between, if_neg hg, if_pos hn]
      rw [hbetween, newlines]
      right
      right
      by_cases hone : g.count '\n' = 1
      · exact .inl ⟨hone, by rw [hone]; rfl⟩
      · have htwo : min 2 (g.count '\n') = 2 := by omega
        exact .inr ⟨by omega, by rw [htwo]; rfl⟩
    · exact .inr (.inl ⟨hg, hn, by rw [between, if_neg hg, if_neg hn]⟩)

namespace Collapse

theorem capped_eq (n : ℕ) : capped n = min 2 n := by
  unfold capped
  split <;> omega

/-- The states after a kept character, by what is pending since: nothing, a space, or
newlines. -/
inductive After (written : List Char) (k : Char) : List Char → Collapse → Prop where
  | nothing {out line : List Char} : out ++ line = written →
      After written k [] ⟨out, false, 0, line ++ [k]⟩
  | space {g out line : List Char} : g ≠ [] → '\n' ∉ g → out ++ line = written →
      After written k g ⟨out, true, 0, line ++ [k] ++ [' ']⟩
  | newline {g : List Char} : '\n' ∈ g →
      After written k g ⟨written ++ [k], false, g.count '\n', []⟩

variable {written g : List Char} {k c : Char} {st : Collapse}

theorem isKept_ne (hc : isKept c = true) : c ≠ '\n' ∧ c ≠ ' ' ∧ c ≠ '\t' := by
  simp only [isKept, Bool.not_eq_true', Bool.or_eq_false_iff, beq_eq_false_iff_ne] at hc
  exact ⟨hc.2, hc.1.1, hc.1.2⟩

theorem space_or_tab (hc : ¬ isKept c = true) (hn : c ≠ '\n') : c = ' ' ∨ c = '\t' := by
  rw [or_iff_not_imp_left]
  simpa [isKept, hn] using hc

theorem flushLine_kept (hk : isKept k = true) (out line : List Char) :
    flushLine out (line ++ [k]) 0 = out ++ line ++ [k] := by
  rw [flushLine, List.rdropWhile_concat, if_neg (by simpa using (isKept_ne hk).2.1)]
  simp

theorem flushLine_space (hk : isKept k = true) (out line : List Char) :
    flushLine out (line ++ [k] ++ [' ']) 0 = out ++ line ++ [k] := by
  rw [flushLine, List.rdropWhile_concat, if_pos (by simp), List.rdropWhile_concat,
    if_neg (by simpa using (isKept_ne hk).2.1)]
  simp

/-- A newline ends the line. -/
theorem After.step_newline (h : After written k g st) (hk : isKept k = true) :
    After written k (g ++ ['\n']) (st.step '\n') := by
  have hcount : (g ++ ['\n']).count '\n' = g.count '\n' + 1 := by simp
  have hmem : '\n' ∈ g ++ ['\n'] := by simp
  have hnext : After written k (g ++ ['\n']) ⟨written ++ [k], false, g.count '\n' + 1, []⟩ :=
    hcount ▸ .newline hmem
  cases h with
  | nothing hw =>
    rw [step, if_pos rfl, flushLine_kept hk, hw]
    exact hnext
  | space _ hn hw =>
    rw [step, if_pos rfl, flushLine_space hk, hw]
    rwa [List.count_eq_zero.mpr hn] at hnext
  | newline _ =>
    rw [step, if_pos rfl, flushLine]
    simpa using hnext

/-- Horizontal whitespace adds one space to a line, unless it has one or has not begun. -/
theorem After.step_space (h : After written k g st) (hc : c = ' ' ∨ c = '\t') :
    After written k (g ++ [c]) (st.step c) := by
  have hne : c ≠ '\n' := by rcases hc with rfl | rfl <;> decide
  have hgap : g ++ [c] ≠ [] := by simp
  rw [step, if_neg hne, if_pos hc]
  cases h with
  | nothing hw =>
    rw [if_pos (by simp)]
    exact .space hgap (by simpa using hne.symm) hw
  | space _ hn hw =>
    rw [if_neg (by simp)]
    exact .space hgap (by simpa using ⟨hn, hne.symm⟩) hw
  | newline hm =>
    have hcount : (g ++ [c]).count '\n' = g.count '\n' := by simp [hne]
    have hnext : After written k (g ++ [c]) ⟨written ++ [k], false, (g ++ [c]).count '\n', []⟩ :=
      .newline (List.mem_append_left _ hm)
    rw [if_neg (by simp)]
    rwa [hcount] at hnext

/-- A kept character writes out what is pending. -/
theorem After.step_kept (h : After written k g st) (hc : isKept c = true) :
    After (written ++ k :: between g) c [] (st.step c) := by
  obtain ⟨hn, hs, ht⟩ := isKept_ne hc
  rw [step, if_neg hn, if_neg (by simp [hs, ht])]
  cases h with
  | nothing hw =>
    refine .nothing ?_
    simp [between, ← hw]
  | space hg hm hw =>
    refine .nothing ?_
    simp [between, hg, hm, ← hw]
  | newline hm =>
    have hpos : g.count '\n' > 0 := List.count_pos_iff.mpr hm
    have hg : g ≠ [] := List.ne_nil_of_mem hm
    refine @After.nothing _ _ _ [] ?_
    simp [between, newlines, capped_eq, hg, hm, hpos]

theorem After.finish (h : After written k g st) (hk : isKept k = true) :
    st.finish = written ++ k :: newlines g := by
  cases h with
  | nothing hw =>
    rw [Collapse.finish, if_neg (by simp), flushLine_kept hk, hw]
    simp [newlines]
  | space _ hn hw =>
    rw [Collapse.finish, if_neg (by simp), flushLine_space hk, hw]
    simp [newlines, List.count_eq_zero.mpr hn]
  | newline hm =>
    rw [Collapse.finish, if_pos (List.count_pos_iff.mpr hm), flushLine, capped_eq]
    simp [newlines]

/-- The loop from a state after a kept character. -/
theorem After.run (s : List Char) (h : After written k g st) (hk : isKept k = true) :
    (s.foldl step st).finish = written ++ spell (mapGaps between newlines
      ((k, g ++ (Gapped.split isKept s).lead) :: (Gapped.split isKept s).items)) := by
  induction s generalizing written k g st with
  | nil =>
    rw [List.foldl_nil, h.finish hk]
    simp [Gapped.split]
  | cons c s ih =>
    rw [List.foldl_cons, Gapped.split]
    split
    · next hc =>
      rw [ih (h.step_kept hc) hc]
      simp
    · next hc =>
      have hstep : After written k (g ++ [c]) (st.step c) := by
        by_cases hn : c = '\n'
        · subst hn
          exact h.step_newline hk
        · exact h.step_space (space_or_tab hc hn)
      rw [ih hstep hk]
      simp

/-- The loop before the first kept character. -/
theorem run_lead (g s : List Char) :
    (s.foldl step ⟨[], false, g.count '\n', []⟩).finish =
      newlines (g ++ (Gapped.split isKept s).lead) ++
        spell (mapGaps between newlines (Gapped.split isKept s).items) := by
  induction s generalizing g with
  | nil =>
    rw [List.foldl_nil, finish]
    split
    · simp [flushLine, capped_eq, newlines, Gapped.split]
    · next h =>
      have hzero : g.count '\n' = 0 := Nat.eq_zero_of_not_pos h
      simp [flushLine, newlines, Gapped.split, hzero]
  | cons c s ih =>
    rw [List.foldl_cons, Gapped.split]
    split
    · next hc =>
      obtain ⟨hn, hs, ht⟩ := isKept_ne hc
      have hafter : After (newlines g) c [] (step ⟨[], false, g.count '\n', []⟩ c) := by
        rw [step, if_neg hn, if_neg (by simp [hs, ht])]
        refine @After.nothing _ _ _ [] ?_
        split
        · simp [newlines, capped_eq]
        · next h =>
          have hzero : g.count '\n' = 0 := Nat.eq_zero_of_not_pos h
          simp [newlines, hzero]
      rw [hafter.run s hc]
      simp
    · next hc =>
      have hstep : step ⟨[], false, g.count '\n', []⟩ c =
          ⟨[], false, (g ++ [c]).count '\n', []⟩ := by
        by_cases hn : c = '\n'
        · subst hn
          simp [step, flushLine]
        · rw [step, if_neg hn, if_pos (space_or_tab hc hn), if_neg (by simp)]
          simp [hn]
      rw [hstep, ih]
      simp

end Collapse

/-- Collapsing rewrites the gaps between kept characters. -/
theorem collapseWhitespace_eq (s : List Char) :
    collapseWhitespace s = newlines (Gapped.split isKept s).lead ++
      spell (mapGaps between newlines (Gapped.split isKept s).items) :=
  Collapse.run_lead [] s

/-! Collapsing and trimming: the kept characters from the first to the last that is not
whitespace, with their gaps collapsed. -/

theorem isWhitespace_of_not_kept {c : Char} (hc : isKept c = false) : isWhitespace c = true := by
  simp only [isKept, Bool.not_eq_false', Bool.or_eq_true, beq_iff_eq] at hc
  rcases hc with (rfl | rfl) | rfl <;> decide

theorem mem_newlines {g : List Char} {c : Char} (hc : c ∈ newlines g) : c = '\n' :=
  List.eq_of_mem_replicate hc

theorem mem_between {g : List Char} {c : Char} (hc : c ∈ between g) : c = '\n' ∨ c = ' ' := by
  unfold between at hc
  split at hc
  · exact absurd hc List.not_mem_nil
  · split at hc
    · exact .inl (mem_newlines hc)
    · exact .inr (List.mem_singleton.mp hc)

/-- The text from its first to its last visible character. -/
def visibleItems (s : List Char) : List (Char × List Char) :=
  strip isWhitespace (Gapped.split isKept s).items

def normalForm (s : List Char) : List Char :=
  spell (mapGaps between (fun _ => []) (visibleItems s))

theorem trim_collapseWhitespace (s : List Char) : trim (collapseWhitespace s) = normalForm s := by
  have hnewline : isWhitespace '\n' = true := by decide
  rw [trim, collapseWhitespace_eq]
  apply trim_mapGaps
  · intro c hc
    rw [mem_newlines hc]
    exact hnewline
  · intro i _ c hc
    rcases mem_between hc with rfl | rfl <;> decide
  · intro i _ c hc
    rw [mem_newlines hc]
    exact hnewline

theorem isKept_between {g : List Char} : ∀ c ∈ between g, isKept c = false := by
  intro c hc
  rcases mem_between hc with rfl | rfl <;> decide

theorem isKept_visibleItems (s : List Char) : ∀ i ∈ visibleItems s, isKept i.1 = true :=
  fun i hi => ((Gapped.valid_split s).items i (strip_subset hi)).1

/-- Kept characters with gaps that have none. -/
theorem valid_mapGaps {f : List Char → List Char} {items : List (Char × List Char)}
    (hkept : ∀ i ∈ items, isKept i.1 = true) (hf : ∀ i ∈ items, ∀ c ∈ f i.2, isKept c = false) :
    Gapped.Valid isKept ⟨[], mapGaps f (fun _ => []) items⟩ := by
  refine ⟨by simp, fun j hj => ?_⟩
  obtain ⟨i, hi, hkey, hgap⟩ := @mem_mapGaps _ f (fun _ => []) items j hj
  refine ⟨hkey ▸ hkept i hi, fun c hc => ?_⟩
  rcases hgap with hgap | hgap
  · exact hf i hi c (hgap ▸ hc)
  · rw [hgap] at hc
    exact absurd hc List.not_mem_nil

/-! ### The normal form -/

/-- The characters of the normalized text. -/
def normalizeChars (nfkc : List Char → List Char) (input : List Char) : List Char :=
  trim (collapseWhitespace (mapChars (nfkc input)))

theorem normalizeChars_eq (nfkc : List Char → List Char) (input : List Char) :
    normalizeChars nfkc input = normalForm (mapChars (nfkc input)) :=
  trim_collapseWhitespace _

/-- Normalize a text, with its statistics. -/
def normalize (nfkc : List Char → List Char) (input : String) : NormalizedText :=
  let bytesIn := input.utf8ByteSize
  let trimmed := String.ofList (normalizeChars nfkc input.toList)
  let bytesOut := trimmed.utf8ByteSize
  let lines := if trimmed.isEmpty then 0 else trimmed.toList.count '\n' + 1
  let words := (splitWhitespace trimmed.toList).length
  { text := trimmed
    changed := bytesIn != bytesOut || input != trimmed
    bytesIn
    bytesOut
    lines
    words }

theorem normalize_text (nfkc : List Char → List Char) (input : String) :
    (normalize nfkc input).text = String.ofList (normalizeChars nfkc input.toList) := rfl

end Contexide.Normalizer
