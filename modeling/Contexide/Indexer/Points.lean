import Contexide.Indexer.Index
import Mathlib.Data.List.Forall2

/-! What the indexer writes. A payload has the canonical ids whatever the caller sent,
and the caller's values under all other keys; the points of a request are written in
one call or not at all. -/

namespace Contexide.Indexer

open Effects Storage

theorem find_addEntry_of_ne {p : JsonMap} {entry : String × Json} {k : String}
    (hk : isCanonical entry.1 = false → entry.1 ≠ k) : (addEntry p entry).find k = p.find k := by
  unfold addEntry
  split
  · rfl
  · next hc => rw [Assoc.find_insert, if_neg (hk (by simpa using hc))]

/-- The caller's entries are added one by one, the canonical keys apart. -/
theorem find_foldl_addEntry (entries : List (String × Json)) (hn : (entries.map Prod.fst).Nodup)
    (p : JsonMap) (k : String) : (entries.foldl addEntry p).find k =
      if isCanonical k then p.find k
      else ((entries.find? fun entry => entry.1 = k).map Prod.snd).or (p.find k) := by
  induction entries generalizing p with
  | nil => simp
  | cons entry entries ih =>
    rw [List.map_cons, List.nodup_cons] at hn
    rw [List.foldl_cons, ih hn.2, List.find?_cons]
    by_cases hk : entry.1 = k
    · subst hk
      cases hc : isCanonical entry.1 with
      | true =>
        rw [if_pos rfl, if_pos rfl, find_addEntry_of_ne (by simp [hc])]
      | false =>
        -- the entry is added, and no later one has its key
        have hrest : (entries.find? fun e => e.1 = entry.1) = none := by
          rw [List.find?_eq_none]
          intro e he hek
          exact hn.1 (of_decide_eq_true hek ▸ List.mem_map_of_mem he)
        simp [hrest, addEntry, hc, Assoc.find_insert]
    · rw [find_addEntry_of_ne fun _ => hk]
      simp [hk]

section

variable {uuidText : Uuid → String} {tenantId : TenantId} {documentId : DocumentId}
  {chunkId : ChunkId} {base : Option JsonMap}

theorem find_canonicalIds (k : String) :
    (canonicalIds uuidText tenantId documentId chunkId).find k =
      if k = "tenant_id" then some (.string (uuidText tenantId.uuid))
      else if k = "document_id" then some (.string (uuidText documentId.uuid))
      else if k = "chunk_id" then some (.string (uuidText chunkId.uuid))
      else none := by
  simp only [canonicalIds, Assoc.find_insert, Assoc.find_empty, @eq_comm _ _ k]
  by_cases ht : k = "tenant_id"
  · simp [ht]
  · by_cases hd : k = "document_id"
    · simp [hd]
    · simp [ht, hd]

/-- A payload, key by key. -/
theorem find_buildPayload (k : String) :
    (buildPayload uuidText base tenantId documentId chunkId).find k =
      if k = "tenant_id" then some (.string (uuidText tenantId.uuid))
      else if k = "document_id" then some (.string (uuidText documentId.uuid))
      else if k = "chunk_id" then some (.string (uuidText chunkId.uuid))
      else base.bind fun extra => extra.find k := by
  cases base with
  | none => exact find_canonicalIds k
  | some extra =>
    rw [buildPayload, find_foldl_addEntry _ extra.nodup, find_canonicalIds]
    by_cases hc : isCanonical k = true
    · rw [if_pos hc]
      have hk : k = "tenant_id" ∨ k = "document_id" ∨ k = "chunk_id" := of_decide_eq_true hc
      rcases hk with rfl | rfl | rfl <;> rfl
    · have hk : ¬ (k = "tenant_id" ∨ k = "document_id" ∨ k = "chunk_id") := fun h =>
        hc (decide_eq_true h)
      push Not at hk
      rw [if_neg hc, if_neg hk.1, if_neg hk.2.1, if_neg hk.2.2, Option.or_none, if_neg hk.1,
        if_neg hk.2.1, if_neg hk.2.2]
      rfl

end

/-- The point that belongs to an input of the request. -/
structure PointOf (uuidText : Uuid → String) (dims : ℕ) (req : IndexRequest) (c : ChunkForIndex)
    (p : VectorPoint) : Prop where
  id : p.id = c.chunkId.uuid
  dims : p.vector.length = dims
  tenant : p.payload.find "tenant_id" = some (.string (uuidText req.tenantId.uuid))
  document : p.payload.find "document_id" = some (.string (uuidText req.documentId.uuid))
  chunk : p.payload.find "chunk_id" = some (.string (uuidText c.chunkId.uuid))
  others : ∀ k, k ≠ "tenant_id" → k ≠ "document_id" → k ≠ "chunk_id" →
    p.payload.find k = c.payload.bind fun extra => extra.find k

variable {uuidText : Uuid → String} {info : ModelInfo} {answers : Answers} {req : IndexRequest}

theorem pointsOf_forall₂ {vectors : List Embedding} (hl : vectors.length = req.inputs.length)
    (hv : ∀ v ∈ vectors, v.vector.length = info.dims) :
    List.Forall₂ (PointOf uuidText info.dims req) req.inputs (pointsOf uuidText req vectors) := by
  unfold pointsOf
  generalize req.inputs = inputs at hl
  induction inputs generalizing vectors with
  | nil => exact .nil
  | cons c inputs ih =>
    cases vectors with
    | nil => exact absurd hl (by simp)
    | cons v vectors =>
      rw [List.forall_mem_cons] at hv
      refine .cons ⟨rfl, hv.1, ?_, ?_, ?_, fun k ht hd hc => ?_⟩
        (ih hv.2 (Nat.succ.inj hl))
      · exact find_buildPayload "tenant_id"
      · exact find_buildPayload "document_id"
      · exact find_buildPayload "chunk_id"
      · rw [find_buildPayload, if_neg ht, if_neg hd, if_neg hc]

/-- The upserts among the calls. -/
def upserts (log : List Op) : List (String × List VectorPoint) :=
  log.filterMap fun
    | .upsert collection points => some (collection, points)
    | _ => none

/-- All points are written in one call or none is, and the operation succeeds on inputs
only after the write did. -/
theorem index_all_or_nothing (uuidText : Uuid → String) (info : ModelInfo) (answers : Answers)
    (req : IndexRequest) :
    (upserts (runIndex uuidText info answers req).2 = [] ∨
      ∃ points, upserts (runIndex uuidText info answers req).2 = [(req.collection, points)] ∧
        List.Forall₂ (PointOf uuidText info.dims req) req.inputs points) ∧
    ∀ stats, (runIndex uuidText info answers req).1 = .ok stats → req.inputs ≠ [] →
      ∃ before points,
        (runIndex uuidText info answers req).2 = before ++ [.upsert req.collection points] ∧
        answers before (.upsert req.collection points) = .ok stats.upserted := by
  have hout := outcome uuidText info answers req
  generalize (runIndex uuidText info answers req).1 = result at hout
  generalize (runIndex uuidText info answers req).2 = log at hout
  cases hout with
  | empty h => exact ⟨.inl rfl, fun _ _ hne => absurd h hne⟩
  | unknownDims => exact ⟨.inl rfl, fun _ h => by cases h⟩
  | noCollection => exact ⟨.inl rfl, fun _ h => by cases h⟩
  | notEmbedded => exact ⟨.inl rfl, fun _ h => by cases h⟩
  | misshapen => exact ⟨.inl rfl, fun _ h => by cases h⟩
  | notUpserted h hd hc ha hl hv hu =>
    exact ⟨.inr ⟨_, rfl, pointsOf_forall₂ hl hv⟩, fun _ h => by cases h⟩
  | indexed h hd hc ha hl hv hu =>
    refine ⟨.inr ⟨_, rfl, pointsOf_forall₂ hl hv⟩, fun stats hok _ => ⟨_, _, rfl, ?_⟩⟩
    obtain rfl := Except.ok.inj hok
    exact hu

end Contexide.Indexer
