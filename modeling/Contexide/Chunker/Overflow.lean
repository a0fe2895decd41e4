import Contexide.Chunker.Spans
import Contexide.Chunker.Text
import Contexide.Core.Errors
import Contexide.Core.Usize

/-! Both chunkers once more, with the arithmetic and the slices of the code checked, and
their loops cut off after as many rounds as there are tokens. The window is bounded by
nothing but its type; its sums are safe because a second round is reached only when the
window is shorter than the tokens. So the checked loops return what the others do. -/

namespace Contexide

/-- At the head of the loop: the first round, or a window that did not cover all. -/
def Reached (w n start : ℕ) : Prop := start = 0 ∨ w < n

section Round

variable {w s n start : ℕ}

theorem two_mul_le (hn : n ≤ Usize.isizeMax / 8) : 2 * n ≤ Usize.maxValue := by
  unfold Usize.isizeMax at hn
  unfold Usize.maxValue
  omega

/-- The end of the window is computed without overflow, and lies between its start and
the end of the tokens. -/
theorem window_end (hw : w ≤ Usize.maxValue) (hn : n ≤ Usize.isizeMax / 8)
    (h : Reached w n start) (hlt : start < n) :
    Usize.add start w = .ok (start + w) ∧ start ≤ min (start + w) n := by
  have hsum := two_mul_le hn
  refine ⟨Usize.add_of_le ?_, by omega⟩
  rcases h with rfl | h
  · omega
  · omega

/-- A further round is reached without overflow. -/
theorem next_start (hsw : s ≤ w) (hn : n ≤ Usize.isizeMax / 8)
    (hne : min (start + w) n ≠ n) :
    Usize.add start s = .ok (start + s) ∧ Reached w n (start + s) := by
  have hsum := two_mul_le hn
  have hlt : start + w < n := by omega
  exact ⟨Usize.add_of_le (by omega), .inr (by omega)⟩

end Round

namespace SlidingWindow

variable (tok : Tokenizer)

/-- Push the piece of a window that is kept, and count it. -/
def emitChecked (keep : Bool) (blockId : Option BlockId) (ids : List ℕ)
    (start stop emitted : ℕ) : Except Usize.Panic (List ChunkPiece × ℕ) :=
  if keep then do
    let part ← Usize.slice ids start stop
    let emitted' ← Usize.add emitted 1
    .ok ([pieceAt blockId (tok.decode part) start stop], emitted')
  else .ok ([], emitted)

/-- The loop over one block. -/
def chunkFromChecked (spec : ChunkSpec) (step : ℕ) (blockId : Option BlockId) (ids : List ℕ) :
    ℕ → ℕ → ℕ → Except Usize.Panic (List ChunkPiece)
  | 0, start, _ => if start < ids.length then .error .unfinished else .ok []
  | rounds + 1, start, emitted =>
    if start < ids.length then do
      let sum ← Usize.add start spec.windowTokens
      let stop := min sum ids.length
      let len ← Usize.sub stop start
      let keep := if emitted = 0 ∧ stop = ids.length then true
        else decide (len ≥ spec.minChunkTokens)
      let kept ← emitChecked tok keep blockId ids start stop emitted
      if stop = ids.length then .ok kept.1 else do
        let next ← Usize.add start step
        let rest ← chunkFromChecked spec step blockId ids rounds next kept.2
        .ok (kept.1 ++ rest)
    else .ok []

def chunkBlockChecked (spec : ChunkSpec) (step : ℕ) (inp : ChunkInput) :
    Except Usize.Panic (List ChunkPiece) :=
  let ids := tok.encode inp.text
  if ids.length = 0 then .ok []
  else chunkFromChecked tok spec step inp.blockId ids ids.length 0 0

def chunkChecked (inputs : List ChunkInput) (spec : ChunkSpec) :
    Except Usize.Panic (List ChunkPiece) :=
  match spec.validate with
  | .error e => .error (.expect s!"invalid ChunkSpec: \"{e}\"")
  | .ok _ => do
    let step ← Usize.sub spec.windowTokens spec.overlapTokens
    List.flatten <$> inputs.mapM (chunkBlockChecked tok spec step)

theorem emitChecked_eq {keep : Bool} {blockId : Option BlockId} {ids : List ℕ}
    {start stop emitted : ℕ} (hs : start ≤ stop) (hstop : stop ≤ ids.length)
    (he : emitted + 1 ≤ Usize.maxValue) :
    emitChecked tok keep blockId ids start stop emitted =
      .ok (if keep then [pieceAt blockId (tok.decode (ids.extract start stop)) start stop] else [],
        if keep then emitted + 1 else emitted) := by
  cases keep with
  | false => rfl
  | true =>
    rw [emitChecked, Usize.slice_of_le hs hstop, Usize.add_of_le he]
    rfl

/-- From every head that is reached, the rounds that are left suffice and nothing
panics. -/
theorem chunkFromChecked_eq {spec : ValidChunkSpec} {ids : List ℕ}
    (hw : spec.1.windowTokens ≤ Usize.maxValue) (hn : ids.length ≤ Usize.isizeMax / 8)
    (blockId : Option BlockId) (rounds start emitted : ℕ) (hrounds : ids.length ≤ start + rounds)
    (h : Reached spec.1.windowTokens ids.length start) (he : emitted ≤ start) :
    chunkFromChecked tok spec.1 spec.step blockId ids rounds start emitted =
      .ok (chunkFrom tok spec blockId ids start emitted) := by
  induction rounds generalizing start emitted with
  | zero => rw [chunkFromChecked, chunkFrom, if_neg (by omega), if_neg (by omega)]
  | succ rounds ih =>
    rw [chunkFromChecked, chunkFrom]
    by_cases hlt : start < ids.length
    · obtain ⟨hsum, hle⟩ := window_end hw hn h hlt
      have hmax := two_mul_le hn
      have hpos := spec.step_pos
      rw [if_pos hlt, if_pos hlt, hsum]
      simp only [bind, Except.bind, Usize.sub_of_le hle]
      generalize (if emitted = 0 ∧ min (start + spec.1.windowTokens) ids.length = ids.length
        then true else decide (min (start + spec.1.windowTokens) ids.length - start ≥
          spec.1.minChunkTokens)) = keep
      rw [emitChecked_eq tok hle (Nat.min_le_right _ _) (by omega)]
      by_cases hstop : min (start + spec.1.windowTokens) ids.length = ids.length
      · simp only [if_pos hstop]
      · obtain ⟨hnext, hreached⟩ := next_start spec.step_le hn hstop
        have hcount : (if keep then emitted + 1 else emitted) ≤ start + spec.step := by
          cases keep <;> simp <;> omega
        simp only [if_neg hstop, hnext, ih _ _ (by omega) hreached hcount]
        cases keep <;> rfl
    · rw [if_neg hlt, if_neg hlt]

theorem chunkBlockChecked_eq {spec : ValidChunkSpec} {inp : ChunkInput}
    (hw : spec.1.windowTokens ≤ Usize.maxValue)
    (hn : (tok.encode inp.text).length ≤ Usize.isizeMax / 8) :
    chunkBlockChecked tok spec.1 spec.step inp = .ok (chunkBlock tok spec inp) := by
  rw [chunkBlockChecked, chunkBlock]
  by_cases h0 : (tok.encode inp.text).length = 0
  · rw [if_pos h0, if_pos h0]
  · rw [if_neg h0, if_neg h0]
    exact chunkFromChecked_eq tok hw hn inp.blockId _ 0 0 (by omega) (.inl rfl) le_rfl

end SlidingWindow

namespace TextChunker

open SlidingWindow

variable (self : SlidingWindowChunker) (tok : Tokenizer)

/-- The loop over one block. -/
def chunkFromChecked (spec : ChunkSpec) (step : ℕ) (blockId : Option BlockId) (ids : List ℕ) :
    ℕ → ℕ → Except Usize.Panic (List ChunkPiece)
  | 0, start => if start < ids.length then .error .unfinished else .ok []
  | rounds + 1, start =>
    if start < ids.length then do
      let sum ← Usize.add start spec.windowTokens
      let stop := min sum ids.length
      let tokenLen ← Usize.sub stop start
      let kept ←
        if tokenLen ≥ spec.minChunkTokens ∨ start = 0 ∧ stop = ids.length then do
          let part ← Usize.slice ids start stop
          .ok [pieceAt blockId (maybeTrim self (tok.decode part)) start stop]
        else .ok []
      if stop = ids.length then .ok kept else do
        let next ← Usize.add start step
        let rest ← chunkFromChecked spec step blockId ids rounds next
        .ok (kept ++ rest)
    else .ok []

def chunkBlockChecked (spec : ChunkSpec) (step : ℕ) (inp : ChunkInput) :
    Except Usize.Panic (List ChunkPiece) :=
  let ids := tok.encode inp.text
  if ids.length = 0 then .ok []
  else chunkFromChecked self tok spec step inp.blockId ids ids.length 0

def chunkChecked (inputs : List ChunkInput) (spec : ChunkSpec) :
    Except Usize.Panic (List ChunkPiece) :=
  match spec.validate with
  | .error e => .error (.expect s!"invalid ChunkSpec: \"{e}\"")
  | .ok _ => do
    let step ← Usize.sub spec.windowTokens spec.overlapTokens
    List.flatten <$> inputs.mapM (chunkBlockChecked self tok spec step)

theorem chunkFromChecked_eq {spec : ValidChunkSpec} {ids : List ℕ}
    (hw : spec.1.windowTokens ≤ Usize.maxValue) (hn : ids.length ≤ Usize.isizeMax / 8)
    (blockId : Option BlockId) (rounds start : ℕ) (hrounds : ids.length ≤ start + rounds)
    (h : Reached spec.1.windowTokens ids.length start) :
    chunkFromChecked self tok spec.1 spec.step blockId ids rounds start =
      .ok (chunkFrom self tok spec blockId ids start) := by
  induction rounds generalizing start with
  | zero => rw [chunkFromChecked, chunkFrom, if_neg (by omega), if_neg (by omega)]
  | succ rounds ih =>
    rw [chunkFromChecked, chunkFrom]
    by_cases hlt : start < ids.length
    · obtain ⟨hsum, hle⟩ := window_end hw hn h hlt
      have hpos := spec.step_pos
      rw [if_pos hlt, if_pos hlt, hsum]
      simp only [bind, Except.bind, Usize.sub_of_le hle,
        Usize.slice_of_le hle (Nat.min_le_right _ _)]
      by_cases hstop : min (start + spec.1.windowTokens) ids.length = ids.length
      · simp only [if_pos hstop]
        split <;> rfl
      · obtain ⟨hnext, hreached⟩ := next_start spec.step_le hn hstop
        simp only [if_neg hstop, hnext, ih _ (by omega) hreached]
        split <;> rfl
    · rw [if_neg hlt, if_neg hlt]

theorem chunkBlockChecked_eq {spec : ValidChunkSpec} {inp : ChunkInput}
    (hw : spec.1.windowTokens ≤ Usize.maxValue)
    (hn : (tok.encode inp.text).length ≤ Usize.isizeMax / 8) :
    chunkBlockChecked self tok spec.1 spec.step inp = .ok (chunkBlock self tok spec inp) := by
  rw [chunkBlockChecked, chunkBlock]
  by_cases h0 : (tok.encode inp.text).length = 0
  · rw [if_pos h0, if_pos h0]
  · rw [if_neg h0, if_neg h0]
    exact chunkFromChecked_eq self tok hw hn inp.blockId _ 0 (by omega) (.inl rfl)

end TextChunker

/-- On every accepted specification of `usize` values and all inputs with token vectors
that fit in memory, neither chunker overflows, slices out of bounds or loops on, and both
return what they compute without bounds. -/
theorem chunk_no_overflow (self : TextChunker.SlidingWindowChunker) (tok : Tokenizer)
    (inputs : List ChunkInput) (spec : ChunkSpec) (hspec : spec.validate = .ok ())
    (hw : spec.windowTokens ≤ Usize.maxValue)
    (hids : ∀ inp ∈ inputs, (tok.encode inp.text).length ≤ Usize.isizeMax / 8) :
    (∃ pieces, SlidingWindow.chunkChecked tok inputs spec = .ok pieces ∧
      SlidingWindow.chunk tok inputs spec = .ok pieces) ∧
    ∃ pieces, TextChunker.chunkChecked self tok inputs spec = .ok pieces ∧
      TextChunker.chunk self tok inputs spec = .ok pieces := by
  let valid : ValidChunkSpec := ⟨spec, hspec⟩
  have hstep : Usize.sub spec.windowTokens spec.overlapTokens = .ok valid.step :=
    Usize.sub_of_le ((ChunkSpec.validate_eq_ok spec).mp hspec).1.le
  constructor
  · refine ⟨_, ?_, SlidingWindow.chunk_of_valid tok valid inputs⟩
    have hmap := mapM_of_forall fun inp hinp =>
      @SlidingWindow.chunkBlockChecked_eq tok valid inp hw (hids inp hinp)
    unfold SlidingWindow.chunkChecked
    rw [hspec, hstep]
    show List.flatten <$> inputs.mapM (SlidingWindow.chunkBlockChecked tok spec valid.step) = _
    rw [hmap, List.flatMap]
    rfl
  · refine ⟨_, ?_, TextChunker.chunk_of_valid self tok valid inputs⟩
    have hmap := mapM_of_forall fun inp hinp =>
      @TextChunker.chunkBlockChecked_eq self tok valid inp hw (hids inp hinp)
    unfold TextChunker.chunkChecked
    rw [hspec, hstep]
    show List.flatten <$> inputs.mapM
      (TextChunker.chunkBlockChecked self tok spec valid.step) = _
    rw [hmap, List.flatMap]
    rfl

/-- The widest window there is, moved by one token. -/
theorem chunk_no_overflow_widest :
    (∃ pieces, SlidingWindow.chunkChecked SlidingWindow.charTokenizer [⟨none, "abc"⟩]
        ⟨Usize.maxValue, Usize.maxValue - 1, 1⟩ = .ok pieces ∧
      SlidingWindow.chunk SlidingWindow.charTokenizer [⟨none, "abc"⟩]
        ⟨Usize.maxValue, Usize.maxValue - 1, 1⟩ = .ok pieces) ∧
    ∃ pieces, TextChunker.chunkChecked ⟨true⟩ SlidingWindow.charTokenizer [⟨none, "abc"⟩]
        ⟨Usize.maxValue, Usize.maxValue - 1, 1⟩ = .ok pieces ∧
      TextChunker.chunk ⟨true⟩ SlidingWindow.charTokenizer [⟨none, "abc"⟩]
        ⟨Usize.maxValue, Usize.maxValue - 1, 1⟩ = .ok pieces :=
  chunk_no_overflow ⟨true⟩ SlidingWindow.charTokenizer [⟨none, "abc"⟩]
    ⟨Usize.maxValue, Usize.maxValue - 1, 1⟩ (by decide) (by decide) (by decide)

end Contexide
