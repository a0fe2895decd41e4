import Contexide.Core.Errors
import Mathlib.Data.List.Basic

/-! Embeddings contracts: the metadata of a model, single embeddings, and the check
that a batch of them fits its inputs and the model. -/

namespace Contexide

/-- Static model metadata used by providers. -/
structure ModelInfo where
  id : String
  dims : ℕ
  maxBatch : ℕ
  deriving DecidableEq, Repr

/-- Single embedding result; an `f32` is its bits. -/
structure Embedding where
  vector : List UInt32
  tokenCount : Option ℕ
  deriving DecidableEq, Repr

def Embedding.validateShape (e : Embedding) (info : ModelInfo) : Except Error Unit :=
  if e.vector.length ≠ info.dims then
    .error (.other s!"embedding dims mismatch: got {e.vector.length}, expected {info.dims}")
  else .ok ()

/-- `slice::chunks`: `n` elements at a time, the last time what is left. -/
def chunks {α : Type} (n : ℕ) : List α → List (List α)
  | [] => []
  | x :: xs => (x :: xs.take (n - 1)) :: chunks n (xs.drop (n - 1))
termination_by xs => xs.length
decreasing_by
  rw [List.length_drop, List.length_cons]
  omega

/-- `none` is the assertion that a batch is not empty. -/
def batchInputs (inputs : List String) (maxBatch : ℕ) : Option (List (List String)) :=
  if maxBatch = 0 then none else some (chunks maxBatch inputs)

theorem flatten_chunks {α : Type} (n : ℕ) (xs : List α) : (chunks n xs).flatten = xs := by
  fun_induction chunks with
  | case1 => rfl
  | case2 x xs ih =>
    rw [List.flatten_cons, ih, List.cons_append, List.take_append_drop]

theorem length_of_mem_chunks {α : Type} {n : ℕ} (hn : n ≠ 0) {xs ys : List α}
    (h : ys ∈ chunks n xs) : ys.length ≤ n := by
  fun_induction chunks with
  | case1 => exact absurd h List.not_mem_nil
  | case2 x xs ih =>
    rcases List.mem_cons.mp h with rfl | h
    · rw [List.length_cons, List.length_take]
      omega
    · exact ih h

/-- The loop of `validate_batch_shape` from the index on. -/
def validateShapes (info : ModelInfo) (idx : ℕ) : List Embedding → Except Error Unit
  | [] => .ok ()
  | e :: results =>
    match e.validateShape info with
    | .error err => .error (.other s!"invalid embedding at index {idx}: {err.display}")
    | .ok () => validateShapes info (idx + 1) results

def validateBatchShape (info : ModelInfo) (inputsLen : ℕ) (results : List Embedding) :
    Except Error Unit :=
  if results.length ≠ inputsLen then
    .error (.other s!"result length mismatch: got {results.length}, expected {inputsLen}")
  else validateShapes info 0 results

theorem Embedding.validateShape_eq_ok {e : Embedding} {info : ModelInfo} :
    e.validateShape info = .ok () ↔ e.vector.length = info.dims := by
  unfold validateShape
  split <;> simp_all

theorem validateShapes_eq_ok {info : ModelInfo} {idx : ℕ} {results : List Embedding} :
    validateShapes info idx results = .ok () ↔ ∀ e ∈ results, e.vector.length = info.dims := by
  induction results generalizing idx with
  | nil => simp [validateShapes]
  | cons e results ih =>
    rw [validateShapes, List.forall_mem_cons, ← @ih (idx + 1), ← e.validateShape_eq_ok]
    cases e.validateShape info <;> simp

/-- What the check accepts: one embedding an input, each of the dimension of the model. -/
theorem validateBatchShape_eq_ok {info : ModelInfo} {n : ℕ} {results : List Embedding} :
    validateBatchShape info n results = .ok () ↔
      results.length = n ∧ ∀ e ∈ results, e.vector.length = info.dims := by
  unfold validateBatchShape
  split
  · next h => simp [h]
  · next h => rw [validateShapes_eq_ok, and_iff_right (Decidable.not_not.mp h)]

end Contexide
