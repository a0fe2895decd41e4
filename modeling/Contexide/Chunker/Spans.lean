import Contexide.Chunker.SlidingWindow

/-! The spans a block is cut into and the tokens that no piece covers. A short last
window is dropped unless it is the only one; the windows before it overlap it, so
that only a suffix shorter than the minimum less the overlap is lost. -/

namespace Contexide.SlidingWindow

variable (tok : Tokenizer) (spec : ValidChunkSpec)

/-- A token index lies in the span of one of the pieces. -/
def Covered (pieces : List ChunkPiece) (t : ℕ) : Prop :=
  ∃ p ∈ pieces, p.startToken ≤ t ∧ t < p.endToken

/-- Window `i` of a block, written out with the numbers of the specification. -/
def window (inp : ChunkInput) (i : ℕ) : ChunkPiece :=
  let ids := tok.encode inp.text
  let start := i * (spec.1.windowTokens - spec.1.overlapTokens)
  let stop := min (start + spec.1.windowTokens) ids.length
  { blockId := inp.blockId
    text := tok.decode (ids.extract start stop)
    startToken := start
    endToken := stop
    tokenCount := stop - start }

/-- What is expected of the pieces of one block. -/
structure BlockSpans (inp : ChunkInput) (pieces : List ChunkPiece) : Prop where
  /-- The pieces are the windows up to the first one that ends at the end of the block,
  without that one when it is short and not the first. -/
  windows : ∃ last, (window tok spec inp last).endToken = (tok.encode inp.text).length ∧
    (∀ i < last, (window tok spec inp i).endToken ≠ (tok.encode inp.text).length) ∧
    pieces = ((List.range (last + 1)).filter fun i =>
      decide (¬ (i = last ∧ i ≠ 0 ∧
        (window tok spec inp i).tokenCount < spec.1.minChunkTokens))).map (window tok spec inp)
  overlap : pieces.IsChain fun p q => p.endToken = q.startToken + spec.1.overlapTokens
  sizes : ∀ p ∈ pieces,
    min spec.1.minChunkTokens (tok.encode inp.text).length ≤ p.tokenCount ∧
      p.tokenCount ≤ spec.1.windowTokens
  /-- The uncovered tokens are a short suffix. -/
  uncovered : ∃ c ≤ (tok.encode inp.text).length,
    (tok.encode inp.text).length - c <
      max 1 (spec.1.minChunkTokens - spec.1.overlapTokens) ∧
    ∀ t < (tok.encode inp.text).length, ¬ Covered pieces t ↔ c ≤ t
  complete : spec.1.minChunkTokens - 1 ≤ spec.1.overlapTokens →
    ∀ t < (tok.encode inp.text).length, Covered pieces t

/-- How many windows are kept. -/
def keptCount (n : ℕ) : ℕ :=
  if lastWindow spec n = 0 ∨ spec.1.minChunkTokens ≤ n - lastWindow spec n * spec.step then
    lastWindow spec n + 1
  else lastWindow spec n

theorem keptPieces_eq_range (inp : ChunkInput) :
    keptPieces tok spec id inp.blockId (tok.encode inp.text) =
      (List.range (keptCount spec (tok.encode inp.text).length)).map (window tok spec inp) := by
  have hw : windowPiece tok spec id inp.blockId (tok.encode inp.text) = window tok spec inp := rfl
  unfold keptPieces keptCount
  simp only [hw]
  split
  · rw [List.range_succ, List.map_append, List.map_singleton]
  · rw [List.append_nil]

theorem keptCount_pos (n : ℕ) : 0 < keptCount spec n := by
  unfold keptCount
  split <;> omega

theorem keptCount_le (n : ℕ) : keptCount spec n ≤ lastWindow spec n + 1 := by
  unfold keptCount
  split <;> omega

section Block

variable {tok spec} {inp : ChunkInput} {i : ℕ}

theorem window_endToken_of_lt (hi : i < lastWindow spec (tok.encode inp.text).length) :
    (window tok spec inp i).endToken = i * spec.step + spec.1.windowTokens :=
  Windows.stop_of_lt_lastIndex spec.step_pos hi

theorem window_endToken_last :
    (window tok spec inp (lastWindow spec (tok.encode inp.text).length)).endToken =
      (tok.encode inp.text).length :=
  Windows.stop_lastIndex spec.step_pos

theorem window_tokenCount_last :
    (window tok spec inp (lastWindow spec (tok.encode inp.text).length)).tokenCount =
      (tok.encode inp.text).length - lastWindow spec (tok.encode inp.text).length * spec.step := by
  show (window tok spec inp _).endToken - _ = _
  rw [window_endToken_last]
  rfl

/-- Dropping a short last window is filtering it out. -/
theorem range_keptCount_eq_filter :
    List.range (keptCount spec (tok.encode inp.text).length) =
      (List.range (lastWindow spec (tok.encode inp.text).length + 1)).filter fun i =>
        decide (¬ (i = lastWindow spec (tok.encode inp.text).length ∧ i ≠ 0 ∧
          (window tok spec inp i).tokenCount < spec.1.minChunkTokens)) := by
  have hbefore : (List.range (lastWindow spec (tok.encode inp.text).length)).filter (fun i =>
      decide (¬ (i = lastWindow spec (tok.encode inp.text).length ∧ i ≠ 0 ∧
        (window tok spec inp i).tokenCount < spec.1.minChunkTokens))) =
      List.range (lastWindow spec (tok.encode inp.text).length) := by
    apply List.filter_eq_self.mpr
    intro i hi
    have hlt := List.mem_range.mp hi
    rw [decide_eq_true_eq]
    rintro ⟨rfl, -⟩
    exact absurd hlt (Nat.lt_irrefl _)
  rw [List.range_succ, List.filter_append, hbefore, List.filter_singleton,
    window_tokenCount_last, keptCount]
  by_cases h0 : lastWindow spec (tok.encode inp.text).length = 0
  · simp [h0]
  · by_cases hm : spec.1.minChunkTokens ≤ (tok.encode inp.text).length -
        lastWindow spec (tok.encode inp.text).length * spec.step
    · simp [h0, hm, Nat.not_lt.mpr hm, List.range_succ]
    · simp [h0, hm, Nat.not_le.mp hm]

/-- Every kept window holds at least the minimum, or the whole block. -/
theorem window_tokenCount_bounds
    (hi : i < keptCount spec (tok.encode inp.text).length) :
    min spec.1.minChunkTokens (tok.encode inp.text).length ≤ (window tok spec inp i).tokenCount ∧
      (window tok spec inp i).tokenCount ≤ spec.1.windowTokens := by
  have hmin := spec.min_le
  rcases Nat.lt_or_ge i (lastWindow spec (tok.encode inp.text).length) with hlt | hge
  · have hcount : (window tok spec inp i).tokenCount = spec.1.windowTokens := by
      show (window tok spec inp i).endToken - i * spec.step = _
      rw [window_endToken_of_lt hlt, Nat.add_sub_cancel_left]
    omega
  · have heq : i = lastWindow spec (tok.encode inp.text).length := by
      have h := keptCount_le spec (tok.encode inp.text).length
      omega
    have hle := Windows.last_len_le (w := spec.1.windowTokens) (n := (tok.encode inp.text).length)
      spec.step_pos
    rw [heq, window_tokenCount_last]
    refine ⟨?_, hle⟩
    rw [heq, keptCount] at hi
    split at hi
    · next h =>
      rcases h with h0 | hm
      · rw [h0]
        omega
      · omega
    · exact absurd hi (Nat.lt_irrefl _)

/-- The kept pieces cover exactly the tokens before the end of the last of them. -/
theorem covered_kept_iff (t : ℕ) :
    Covered ((List.range (keptCount spec (tok.encode inp.text).length)).map
        (window tok spec inp)) t ↔
      t < (window tok spec inp (keptCount spec (tok.encode inp.text).length - 1)).endToken := by
  have h := Windows.covered_iff (n := (tok.encode inp.text).length) (t := t) spec.step_pos
    spec.step_le (keptCount_pos spec (tok.encode inp.text).length)
  refine Iff.trans ?_ h
  simp only [Covered, List.mem_map, List.mem_range]
  constructor
  · rintro ⟨p, ⟨i, hi, rfl⟩, hp⟩
    exact ⟨i, hi, hp⟩
  · rintro ⟨i, hi, hp⟩
    exact ⟨_, ⟨i, hi, rfl⟩, hp⟩

/-- What a dropped last window loses beyond its overlap with the window before it. -/
theorem lost_lt :
    (tok.encode inp.text).length -
        (window tok spec inp (keptCount spec (tok.encode inp.text).length - 1)).endToken <
      max 1 (spec.1.minChunkTokens - spec.1.overlapTokens) := by
  have hadd := spec.step_add_overlap
  unfold keptCount
  split
  · rw [Nat.add_sub_cancel, window_endToken_last]
    omega
  · next h =>
    rw [not_or, Nat.not_le] at h
    obtain ⟨k, hk⟩ := Nat.exists_eq_succ_of_ne_zero h.1
    have hprev : (window tok spec inp k).endToken =
        lastWindow spec (tok.encode inp.text).length * spec.step +
          (spec.1.windowTokens - spec.step) :=
      Windows.prev_stop spec.step_pos spec.step_le hk
    have hkk : lastWindow spec (tok.encode inp.text).length - 1 = k := by omega
    rw [hkk, hprev]
    omega

theorem chain_windows {k : ℕ} (hk : k ≤ lastWindow spec (tok.encode inp.text).length + 1) :
    ((List.range k).map (window tok spec inp)).IsChain fun p q =>
      p.endToken = q.startToken + spec.1.overlapTokens := by
  rw [List.isChain_map, List.isChain_range]
  intro i hi
  have hadd := spec.step_add_overlap
  have hstart : (window tok spec inp (i + 1)).startToken = i * spec.step + spec.step := by
    show (i + 1) * spec.step = _
    rw [Nat.add_mul, Nat.one_mul]
  have hstop : (window tok spec inp i).endToken = i * spec.step + spec.1.windowTokens :=
    window_endToken_of_lt (by omega)
  show (window tok spec inp i).endToken = (window tok spec inp (i + 1)).startToken + _
  rw [hstart, hstop]
  omega

end Block

theorem blockSpans_chunkBlock (inp : ChunkInput) (hn : 0 < (tok.encode inp.text).length) :
    BlockSpans tok spec inp (chunkBlock tok spec inp) := by
  rw [chunkBlock_eq tok spec inp hn, keptPieces_eq_range]
  constructor
  · refine ⟨lastWindow spec (tok.encode inp.text).length, window_endToken_last, ?_, ?_⟩
    · intro i hi
      rw [window_endToken_of_lt hi]
      exact (Windows.lt_of_lt_lastIndex spec.step_pos hi).ne
    · rw [range_keptCount_eq_filter]
  · exact chain_windows (keptCount_le spec _)
  · intro p hp
    obtain ⟨i, hi, rfl⟩ := List.mem_map.mp hp
    exact window_tokenCount_bounds (List.mem_range.mp hi)
  · refine ⟨_, ?_, lost_lt, fun t _ => by rw [covered_kept_iff, Nat.not_lt]⟩
    exact Nat.min_le_right _ _
  · intro hmin t ht
    have hlost := @lost_lt tok spec inp
    rw [covered_kept_iff]
    omega

/-- The pieces of a block with tokens are its windows, of the sizes and overlaps that the
specification asks for, and lose a bounded suffix; a block without tokens has no piece. -/
theorem chunk_spans (inputs : List ChunkInput) :
    chunk tok inputs spec.1 = .ok (inputs.flatMap (chunkBlock tok spec)) ∧
      ∀ inp, (tok.encode inp.text = [] → chunkBlock tok spec inp = []) ∧
        (tok.encode inp.text ≠ [] → BlockSpans tok spec inp (chunkBlock tok spec inp)) := by
  refine ⟨chunk_of_valid tok spec inputs, fun inp => ⟨?_, ?_⟩⟩
  · intro h
    rw [chunkBlock, h, List.length_nil, if_pos rfl]
  · intro h
    exact blockSpans_chunkBlock tok spec inp (List.length_pos_iff.mpr h)

theorem chunk_spans_five_tokens :
    BlockSpans charTokenizer ⟨⟨3, 1, 2⟩, rfl⟩ ⟨none, "abcde"⟩
      (chunkBlock charTokenizer ⟨⟨3, 1, 2⟩, rfl⟩ ⟨none, "abcde"⟩) :=
  ((chunk_spans charTokenizer ⟨⟨3, 1, 2⟩, rfl⟩ []).2 ⟨none, "abcde"⟩).2 (by decide)

/-- The empty window at the start of an empty block is not emitted. -/
theorem not_blockSpans_empty_block :
    ¬ BlockSpans charTokenizer ⟨⟨3, 1, 2⟩, rfl⟩ ⟨none, ""⟩
      (chunkBlock charTokenizer ⟨⟨3, 1, 2⟩, rfl⟩ ⟨none, ""⟩) := by
  intro h
  obtain ⟨last, -, hbefore, hpieces⟩ := h.windows
  have hnil : chunkBlock charTokenizer ⟨⟨3, 1, 2⟩, rfl⟩ ⟨none, ""⟩ = [] := by
    rw [chunkBlock, if_pos (by rfl)]
  have hlast : last = 0 := by
    apply Nat.eq_zero_of_not_pos
    intro hpos
    exact hbefore 0 hpos (by decide)
  rw [hnil, hlast] at hpieces
  exact absurd hpieces (by simp)

end Contexide.SlidingWindow
