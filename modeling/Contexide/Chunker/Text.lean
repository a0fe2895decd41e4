import Contexide.Chunker.SlidingWindow
import Contexide.Text.Whitespace

/-! Token-based sliding-window chunker for normalized text. It cuts the same windows
as the plain sliding-window chunker, whose loop decides by a counter where this one
looks at the window's position; only the text of a piece may be trimmed. -/

namespace Contexide.TextChunker

open SlidingWindow

/-- Trim the trailing spaces and tabs of each line, then the whole text. -/
def trimMultiline (input : String) : String :=
  let trimmed := (Text.lines input.toList).map fun line =>
    line.rdropWhile fun c => c == ' ' || c == '\t'
  String.ofList (Text.trim (List.intercalate ['\n'] trimmed))

/-- Sliding-window chunker with a formatting knob. -/
structure SlidingWindowChunker where
  trimWhitespace : Bool
  deriving DecidableEq, Repr

instance : Inhabited SlidingWindowChunker := ⟨⟨true⟩⟩

variable (self : SlidingWindowChunker) (tok : Tokenizer) (spec : ValidChunkSpec)

def maybeTrim (s : String) : String :=
  if !self.trimWhitespace then s else trimMultiline s

/-- The windows of one block from `start` on. -/
def chunkFrom (blockId : Option BlockId) (ids : List ℕ) (start : ℕ) : List ChunkPiece :=
  if start < ids.length then
    let stop := min (start + spec.1.windowTokens) ids.length
    let tokenLen := stop - start
    let rest := if stop = ids.length then [] else chunkFrom blockId ids (start + spec.step)
    -- large enough, or the entire text in a single window
    if tokenLen ≥ spec.1.minChunkTokens ∨ start = 0 ∧ stop = ids.length then
      pieceAt blockId (maybeTrim self (tok.decode (ids.extract start stop))) start stop :: rest
    else rest
  else []
termination_by ids.length - start
decreasing_by
  have h := spec.step_pos
  omega

/-- The pieces of one block. -/
def chunkBlock (inp : ChunkInput) : List ChunkPiece :=
  let ids := tok.encode inp.text
  if ids.length = 0 then [] else chunkFrom self tok spec inp.blockId ids 0

def chunk (inputs : List ChunkInput) (spec : ChunkSpec) : Except String (List ChunkPiece) :=
  match h : spec.validate with
  | .error e => .error s!"invalid ChunkSpec: \"{e}\""
  | .ok _ => .ok (inputs.flatMap (chunkBlock self tok ⟨spec, h⟩))

theorem chunk_of_valid (inputs : List ChunkInput) :
    chunk self tok inputs spec.1 = .ok (inputs.flatMap (chunkBlock self tok spec)) := by
  unfold chunk
  split
  · next h => exact absurd (h.symm.trans spec.2) (by simp)
  · rfl

/-- The loop from window `i` on: the window starts at zero exactly when it is the first. -/
theorem chunkFrom_eq (blockId : Option BlockId) (ids : List ℕ) (hn : 0 < ids.length) (k i : ℕ)
    (hk : lastWindow spec ids.length = i + k) :
    chunkFrom self tok spec blockId ids (i * spec.step) =
      (List.range' i k).map (windowPiece tok spec (maybeTrim self) blockId ids) ++
        if lastWindow spec ids.length = 0 ∨ spec.1.minChunkTokens ≤
            ids.length - lastWindow spec ids.length * spec.step then
          [windowPiece tok spec (maybeTrim self) blockId ids (lastWindow spec ids.length)]
        else [] := by
  induction k generalizing i with
  | zero =>
    obtain ⟨hstart, hstop⟩ := @round_last spec ids hn
    rw [Nat.add_zero] at hk
    subst hk
    have hzero : lastWindow spec ids.length * spec.step = 0 ↔ lastWindow spec ids.length = 0 := by
      rw [Nat.mul_eq_zero, or_iff_left spec.step_pos.ne']
    rw [chunkFrom, if_pos hstart, windowPiece_last]
    simp only [hstop, and_true, if_true, hzero, List.range'_zero, List.map_nil, List.nil_append,
      ge_iff_le, or_comm]
  | succ k ih =>
    have hi : i < lastWindow spec ids.length := by omega
    obtain ⟨hstop, hne, hlen⟩ := round_before_last hi
    have hstart := Windows.start_lt spec.step_pos spec.step_le hn hi.le
    have hrest := ih (i + 1) (by omega)
    rw [Nat.add_mul, Nat.one_mul] at hrest
    rw [chunkFrom, if_pos hstart]
    simp only [hstop, hne, and_false, or_false, if_false, ge_iff_le, hlen, if_true, hrest]
    rw [List.range'_succ, List.map_cons, List.cons_append, windowPiece_of_lt tok _ blockId hi]

theorem chunkBlock_eq (inp : ChunkInput) (hn : 0 < (tok.encode inp.text).length) :
    chunkBlock self tok spec inp =
      keptPieces tok spec (maybeTrim self) inp.blockId (tok.encode inp.text) := by
  have h := chunkFrom_eq self tok spec inp.blockId (tok.encode inp.text) hn _ 0
    (Nat.zero_add _).symm
  rw [Nat.zero_mul, ← List.range_eq_range'] at h
  rw [chunkBlock, if_neg hn.ne', h, keptPieces]

theorem keptPieces_map_text (f : String → String) (blockId : Option BlockId) (ids : List ℕ) :
    keptPieces tok spec f blockId ids =
      (keptPieces tok spec id blockId ids).map fun p => { p with text := f p.text } := by
  simp only [keptPieces, List.map_append, List.map_map]
  congr 1
  split <;> rfl

/-- On one block the two chunkers differ by the treatment of the text alone. -/
theorem chunkBlock_eq_map (inp : ChunkInput) :
    chunkBlock self tok spec inp =
      (SlidingWindow.chunkBlock tok spec inp).map fun p =>
        { p with text := maybeTrim self p.text } := by
  rcases Nat.eq_zero_or_pos (tok.encode inp.text).length with h0 | hn
  · rw [chunkBlock, SlidingWindow.chunkBlock, if_pos h0, if_pos h0]
    rfl
  · rw [chunkBlock_eq self tok spec inp hn, SlidingWindow.chunkBlock_eq tok spec inp hn]
    exact keptPieces_map_text tok spec (maybeTrim self) inp.blockId _

/-- On every specification that validation accepts, both chunkers return, and they
return the same pieces, with the texts trimmed when the knob asks for it. -/
theorem chunk_agree (inputs : List ChunkInput) :
    ∃ pieces, SlidingWindow.chunk tok inputs spec.1 = .ok pieces ∧
      chunk ⟨false⟩ tok inputs spec.1 = .ok pieces ∧
      chunk ⟨true⟩ tok inputs spec.1 =
        .ok (pieces.map fun p => { p with text := trimMultiline p.text }) := by
  refine ⟨_, SlidingWindow.chunk_of_valid tok spec inputs, ?_, ?_⟩
  · rw [chunk_of_valid]
    congr 2
    funext inp
    rw [chunkBlock_eq_map]
    exact List.map_id _
  · rw [chunk_of_valid, List.map_flatMap]
    congr 2
    funext inp
    exact chunkBlock_eq_map ⟨true⟩ tok spec inp

/-- A block of three windows, two of which are trimmed, and a short block. -/
theorem chunk_agree_three_windows :
    let inputs : List ChunkInput := [⟨none, "ab cde"⟩, ⟨some ⟨1⟩, "x"⟩]
    ∃ pieces, pieces.map ChunkPiece.text = ["ab ", " cd", "de", "x"] ∧
      SlidingWindow.chunk charTokenizer inputs ⟨3, 1, 2⟩ = .ok pieces ∧
      chunk ⟨false⟩ charTokenizer inputs ⟨3, 1, 2⟩ = .ok pieces ∧
      chunk ⟨true⟩ charTokenizer inputs ⟨3, 1, 2⟩ =
        .ok (pieces.map fun p => { p with text := trimMultiline p.text }) := by
  intro inputs
  let spec : ValidChunkSpec := ⟨⟨3, 1, 2⟩, rfl⟩
  obtain ⟨pieces, hplain, hkept, htrimmed⟩ := chunk_agree charTokenizer spec inputs
  refine ⟨pieces, ?_, hplain, hkept, htrimmed⟩
  have hpieces : pieces = inputs.flatMap (SlidingWindow.chunkBlock charTokenizer spec) :=
    Except.ok.inj (hplain.symm.trans (SlidingWindow.chunk_of_valid charTokenizer spec inputs))
  rw [hpieces]
  simp only [inputs, List.flatMap_cons, List.flatMap_nil]
  rw [SlidingWindow.chunkBlock_eq _ _ _ (by decide), SlidingWindow.chunkBlock_eq _ _ _ (by decide)]
  decide

end Contexide.TextChunker
