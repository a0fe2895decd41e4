import Contexide.Indexer.Index
import Mathlib.Tactic.Common

/-! The batch limit of a model. The indexer embeds all texts of a request in one call,
so the limit is kept by small requests only; the helper that would cut the texts into
batches keeps it for every request. -/

namespace Contexide.Indexer

open Effects

/-- The inputs of the embedding calls, first to last. -/
def embedCalls (log : List Op) : List (List String) :=
  log.filterMap fun
    | .embed inputs => some inputs
    | _ => none

/-- The calls pass the texts on, in order and at most `m` at a time. -/
structure Batched (m : ℕ) (texts : List String) (calls : List (List String)) : Prop where
  bounded : ∀ inputs ∈ calls, inputs.length ≤ m
  complete : calls.flatten = texts

theorem batched_singleton {m : ℕ} {texts : List String} :
    Batched m texts [texts] ↔ texts.length ≤ m :=
  ⟨fun h => h.bounded texts (List.mem_singleton_self _),
    fun h => ⟨fun _ hi => (List.mem_singleton.mp hi) ▸ h, List.flatten_singleton⟩⟩

theorem batched_nil {m : ℕ} {texts : List String} : Batched m texts [] ↔ texts = [] :=
  ⟨fun h => h.complete.symm, fun h => ⟨fun _ hi => absurd hi List.not_mem_nil, h.symm⟩⟩

variable (uuidText : Uuid → String) (info : ModelInfo) (answers : Answers) (req : IndexRequest)

/-- The embedding calls of a run: none when it ends before them, else one with all texts. -/
theorem embedCalls_runIndex : embedCalls (runIndex uuidText info answers req).2 =
    if req.inputs ≠ [] ∧ info.dims ≠ 0 ∧
      answers [] (.ensureCollection req.collection info.dims) = .ok ()
    then [textsOf req] else [] := by
  have hout := outcome uuidText info answers req
  generalize (runIndex uuidText info answers req).1 = result at hout
  generalize (runIndex uuidText info answers req).2 = log at hout
  cases hout with
  | empty h => simp [h, embedCalls]
  | unknownDims h hd => simp [hd, embedCalls]
  | noCollection h hd ha => simp [ha, embedCalls, ensured]
  | notEmbedded h hd hc ha => exact (if_pos ⟨h, hd, hc⟩).symm
  | misshapen h hd hc ha hs => exact (if_pos ⟨h, hd, hc⟩).symm
  | notUpserted h hd hc ha hl hv hu => exact (if_pos ⟨h, hd, hc⟩).symm
  | indexed h hd hc ha hl hv hu => exact (if_pos ⟨h, hd, hc⟩).symm

/-- The limit is kept, and all texts are embedded, exactly when the request is empty, or
embedding is reached and the request fits one batch. -/
theorem embedCalls_batched_iff :
    Batched info.maxBatch (textsOf req) (embedCalls (runIndex uuidText info answers req).2) ↔
      req.inputs = [] ∨ info.dims ≠ 0 ∧
        answers [] (.ensureCollection req.collection info.dims) = .ok () ∧
        req.inputs.length ≤ info.maxBatch := by
  rw [embedCalls_runIndex]
  by_cases hempty : req.inputs = []
  · simp [hempty, batched_nil, textsOf]
  · split
    · next h =>
      rw [batched_singleton, textsOf, List.length_map]
      simp [hempty, h.2]
    · next h =>
      rw [batched_nil, textsOf, List.map_eq_nil_iff]
      simp only [hempty, false_or, false_iff]
      exact fun hreached => h ⟨hempty, hreached.1, hreached.2.1⟩

/-- The batching helper keeps the limit for every request. -/
theorem batchInputs_batched {m : ℕ} (hm : m ≠ 0) (texts : List String) :
    ∃ calls, batchInputs texts m = some calls ∧ Batched m texts calls :=
  ⟨_, if_neg hm, fun _ h => length_of_mem_chunks hm h, flatten_chunks m texts⟩

/-- Two chunks of a document without payloads. -/
def twoChunks : IndexRequest :=
  ⟨⟨0⟩, ⟨1⟩, "chunks", [⟨⟨2⟩, "first", none⟩, ⟨⟨3⟩, "second", none⟩]⟩

/-- The collection exists and the other calls fail. -/
def collectionOnly : Answers
  | _, .ensureCollection _ _ => .ok ()
  | _, .embed _ => .error (.other "tei request failed")
  | _, .upsert _ _ => .error (.other "unavailable")

/-- Two texts for a model that takes one at a time. -/
theorem embeds_beyond_limit : ¬ ∀ (uuidText : Uuid → String) (info : ModelInfo)
    (answers : Answers) (req : IndexRequest), 0 < info.maxBatch →
    Batched info.maxBatch (textsOf req) (embedCalls (runIndex uuidText info answers req).2) := by
  intro h
  have hbatched := h (fun _ => "") ⟨"bge-m3", 1, 1⟩ collectionOnly twoChunks (by decide)
  exact absurd (hbatched.bounded ["first", "second"] List.mem_cons_self) (by decide)

end Contexide.Indexer
