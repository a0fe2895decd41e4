import Contexide.Core.Ids
import Mathlib.Tactic.SplitIfs

/-! Chunking and tokenization contracts: the sliding-window specification with
its validation, the input and output units, and the tokenizer interface. -/

namespace Contexide

/-- Chunking specification (token-based sliding window). -/
structure ChunkSpec where
  windowTokens : ℕ
  overlapTokens : ℕ
  minChunkTokens : ℕ
  deriving DecidableEq, Repr

def ChunkSpec.validate (spec : ChunkSpec) : Except String Unit :=
  if spec.windowTokens = 0 then .error "window_tokens must be > 0"
  else if spec.overlapTokens ≥ spec.windowTokens then
    .error "overlap_tokens must be < window_tokens"
  else if spec.minChunkTokens = 0 ∨ spec.minChunkTokens > spec.windowTokens then
    .error "min_chunk_tokens must be in 1..=window_tokens"
  else .ok ()

/-- What validation accepts: a positive window, an overlap below the window, and a
minimum between one token and the window. -/
theorem ChunkSpec.validate_eq_ok (spec : ChunkSpec) :
    spec.validate = .ok () ↔ spec.overlapTokens < spec.windowTokens ∧
      1 ≤ spec.minChunkTokens ∧ spec.minChunkTokens ≤ spec.windowTokens := by
  unfold ChunkSpec.validate
  split_ifs <;> simp <;> omega

/-- A specification that passed validation. -/
abbrev ValidChunkSpec := { spec : ChunkSpec // spec.validate = .ok () }

namespace ValidChunkSpec

variable (spec : ValidChunkSpec)

/-- The distance between the starts of two windows. -/
def step : ℕ := spec.1.windowTokens - spec.1.overlapTokens

theorem step_pos : 0 < spec.step := by
  have h := (ChunkSpec.validate_eq_ok spec.1).mp spec.2
  unfold step
  omega

theorem step_le : spec.step ≤ spec.1.windowTokens := Nat.sub_le _ _

theorem step_add_overlap : spec.step + spec.1.overlapTokens = spec.1.windowTokens := by
  have h := (ChunkSpec.validate_eq_ok spec.1).mp spec.2
  unfold step
  omega

theorem min_le : spec.1.minChunkTokens ≤ spec.1.windowTokens :=
  ((ChunkSpec.validate_eq_ok spec.1).mp spec.2).2.2

end ValidChunkSpec

/-- Input unit for chunking (typically one normalized block). -/
structure ChunkInput where
  blockId : Option BlockId
  text : String
  deriving DecidableEq, Repr

/-- Output unit of chunking with token offsets. -/
@[ext] structure ChunkPiece where
  blockId : Option BlockId
  text : String
  startToken : ℕ
  endToken : ℕ
  tokenCount : ℕ
  deriving DecidableEq, Repr

/-- Minimal tokenizer interface. -/
structure Tokenizer where
  encode : String → List ℕ
  decode : List ℕ → String

end Contexide
