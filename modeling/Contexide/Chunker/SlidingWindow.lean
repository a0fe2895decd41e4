import Contexide.Core.Chunker
import Contexide.Chunker.Windows

/-! Sliding window chunker over a generic tokenizer. The loop over one block keeps
the start of the window and the number of pieces emitted so far; a panic of
`expect` is an error with the panic message. -/

namespace Contexide.SlidingWindow

variable (tok : Tokenizer) (spec : ValidChunkSpec)

/-- The piece cut out of a block at the window `[start, stop)`. -/
def pieceAt (blockId : Option BlockId) (text : String) (start stop : ℕ) : ChunkPiece :=
  { blockId := blockId
    text := text
    startToken := start
    endToken := stop
    tokenCount := stop - start }

/-- The windows of one block from `start` on, `emitted` pieces having been kept. -/
def chunkFrom (blockId : Option BlockId) (ids : List ℕ) (start emitted : ℕ) : List ChunkPiece :=
  if start < ids.length then
    let stop := min (start + spec.1.windowTokens) ids.length
    let len := stop - start
    -- a single chunk that holds the whole block may be shorter than the minimum
    let keep := if emitted = 0 ∧ stop = ids.length then true
      else decide (len ≥ spec.1.minChunkTokens)
    let rest := if stop = ids.length then []
      else chunkFrom blockId ids (start + spec.step) (if keep then emitted + 1 else emitted)
    if keep then pieceAt blockId (tok.decode (ids.extract start stop)) start stop :: rest else rest
  else []
termination_by ids.length - start
decreasing_by
  have h := spec.step_pos
  omega

/-- The pieces of one block. -/
def chunkBlock (inp : ChunkInput) : List ChunkPiece :=
  let ids := tok.encode inp.text
  if ids.length = 0 then [] else chunkFrom tok spec inp.blockId ids 0 0

def chunk (inputs : List ChunkInput) (spec : ChunkSpec) : Except String (List ChunkPiece) :=
  match h : spec.validate with
  | .error e => .error s!"invalid ChunkSpec: \"{e}\""
  | .ok _ => .ok (inputs.flatMap (chunkBlock tok ⟨spec, h⟩))

theorem chunk_of_valid (inputs : List ChunkInput) :
    chunk tok inputs spec.1 = .ok (inputs.flatMap (chunkBlock tok spec)) := by
  unfold chunk
  split
  · next h => exact absurd (h.symm.trans spec.2) (by simp)
  · rfl

/-- The index of the last window over `n` tokens. -/
def lastWindow (n : ℕ) : ℕ := Windows.lastIndex spec.1.windowTokens spec.step n

/-- The window with index `i` of a block with tokens `ids`, its text passed through
`f` after decoding. -/
def windowPiece (f : String → String) (blockId : Option BlockId) (ids : List ℕ) (i : ℕ) :
    ChunkPiece :=
  let start := i * spec.step
  let stop := Windows.stop spec.1.windowTokens spec.step ids.length i
  pieceAt blockId (f (tok.decode (ids.extract start stop))) start stop

/-- The windows of a block in closed form: all before the last one, and the last one
when it is the only one or long enough. -/
def keptPieces (f : String → String) (blockId : Option BlockId) (ids : List ℕ) :
    List ChunkPiece :=
  let last := lastWindow spec ids.length
  (List.range last).map (windowPiece tok spec f blockId ids) ++
    if last = 0 ∨ spec.1.minChunkTokens ≤ ids.length - last * spec.step then
      [windowPiece tok spec f blockId ids last]
    else []

section Loop

variable {spec} {ids : List ℕ} {i : ℕ}

/-- One round of either loop before the last window: it does not reach the end and is
as long as the window. -/
theorem round_before_last (hi : i < lastWindow spec ids.length) :
    min (i * spec.step + spec.1.windowTokens) ids.length = i * spec.step + spec.1.windowTokens ∧
      i * spec.step + spec.1.windowTokens ≠ ids.length ∧
      spec.1.minChunkTokens ≤ i * spec.step + spec.1.windowTokens - i * spec.step := by
  have hlt := Windows.lt_of_lt_lastIndex spec.step_pos hi
  have hmin := spec.min_le
  refine ⟨Nat.min_eq_left hlt.le, by omega, by omega⟩

/-- The round at the last window reaches the end. -/
theorem round_last (hn : 0 < ids.length) :
    lastWindow spec ids.length * spec.step < ids.length ∧
      min (lastWindow spec ids.length * spec.step + spec.1.windowTokens) ids.length =
        ids.length :=
  ⟨Windows.start_lt spec.step_pos spec.step_le hn le_rfl, Windows.stop_lastIndex spec.step_pos⟩

theorem windowPiece_of_lt (f : String → String) (blockId : Option BlockId)
    (hi : i < lastWindow spec ids.length) :
    windowPiece tok spec f blockId ids i =
      pieceAt blockId
        (f (tok.decode (ids.extract (i * spec.step) (i * spec.step + spec.1.windowTokens))))
        (i * spec.step) (i * spec.step + spec.1.windowTokens) := by
  rw [windowPiece, Windows.stop_of_lt_lastIndex spec.step_pos hi]

theorem windowPiece_last (f : String → String) (blockId : Option BlockId) :
    windowPiece tok spec f blockId ids (lastWindow spec ids.length) =
      pieceAt blockId
        (f (tok.decode (ids.extract (lastWindow spec ids.length * spec.step) ids.length)))
        (lastWindow spec ids.length * spec.step) ids.length := by
  rw [windowPiece, lastWindow, Windows.stop_lastIndex spec.step_pos]

end Loop

/-- The loop from window `i` on. The counter of emitted pieces is zero exactly at the
first window, which is the invariant that carries the induction. -/
theorem chunkFrom_eq (blockId : Option BlockId) (ids : List ℕ) (hn : 0 < ids.length)
    (k i emitted : ℕ) (hk : lastWindow spec ids.length = i + k) (he : emitted = 0 ↔ i = 0) :
    chunkFrom tok spec blockId ids (i * spec.step) emitted =
      (List.range' i k).map (windowPiece tok spec id blockId ids) ++
        if lastWindow spec ids.length = 0 ∨ spec.1.minChunkTokens ≤
            ids.length - lastWindow spec ids.length * spec.step then
          [windowPiece tok spec id blockId ids (lastWindow spec ids.length)]
        else [] := by
  induction k generalizing i emitted with
  | zero =>
    obtain ⟨hstart, hstop⟩ := @round_last spec ids hn
    rw [Nat.add_zero] at hk
    subst hk
    rw [chunkFrom, if_pos hstart]
    simp only [hstop, and_true, if_true, he, List.range'_zero, List.map_nil, List.nil_append]
    by_cases h0 : lastWindow spec ids.length = 0
    · rw [if_pos h0, if_pos rfl, if_pos (Or.inl h0), windowPiece_last]
      rfl
    · simp only [h0, if_false, false_or, windowPiece_last, id, ge_iff_le, decide_eq_true_eq]
  | succ k ih =>
    have hi : i < lastWindow spec ids.length := by omega
    obtain ⟨hstop, hne, hlen⟩ := round_before_last hi
    have hstart := Windows.start_lt spec.step_pos spec.step_le hn hi.le
    have hrest := ih (i + 1) (emitted + 1) (by omega) (by omega)
    rw [Nat.add_mul, Nat.one_mul] at hrest
    rw [chunkFrom, if_pos hstart]
    simp only [hstop, hne, and_false, if_false, ge_iff_le, hlen, decide_true, if_true, hrest]
    rw [List.range'_succ, List.map_cons, List.cons_append, windowPiece_of_lt tok id blockId hi]
    rfl

theorem chunkBlock_eq (inp : ChunkInput) (hn : 0 < (tok.encode inp.text).length) :
    chunkBlock tok spec inp = keptPieces tok spec id inp.blockId (tok.encode inp.text) := by
  have h := chunkFrom_eq tok spec inp.blockId (tok.encode inp.text) hn _ 0 0
    (Nat.zero_add _).symm Iff.rfl
  rw [Nat.zero_mul, ← List.range_eq_range'] at h
  rw [chunkBlock, if_neg hn.ne', h, keptPieces]

/-- A tokenizer with one token for each character. -/
def charTokenizer : Tokenizer where
  encode s := s.toList.map Char.toNat
  decode ids := String.ofList (ids.map Char.ofNat)

end Contexide.SlidingWindow
