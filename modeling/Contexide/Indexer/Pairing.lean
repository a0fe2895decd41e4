import Contexide.Embeddings.OpenAi
import Contexide.Indexer.Batches
import Contexide.Indexer.Points
import Mathlib.Data.List.Sort

/-! Which text a vector belongs to. A response of the OpenAI format numbers its items;
the provider drops the numbers and keeps the order of the items, and the indexer pairs
by position. So vectors meet their texts when the items come in the order of their
numbers, and otherwise only by equal embeddings. -/

namespace Contexide.Indexer

open Effects Storage Embeddings

/-- The items in the order of their numbers. -/
def byIndex (data : List OaiVec) : List OaiVec :=
  data.insertionSort fun a b => a.index.getD 0 ≤ b.index.getD 0

/-- Each item's embedding stands where its number says. -/
def PairedByIndex (data : List OaiVec) (vectors : List (List UInt32)) : Prop :=
  ∀ v ∈ data, ∀ i, v.index = some i → vectors[i]? = some v.embedding

section

variable {data : List OaiVec}
  (hperm : (data.map OaiVec.index).Perm ((List.range data.length).map some))

include hperm

theorem index_byIndex : (byIndex data).map OaiVec.index = (List.range data.length).map some := by
  have hsort : (byIndex data).Perm data := List.perm_insertionSort _ _
  have hnumbers : (byIndex data).map (fun v => v.index.getD 0) = List.range data.length := by
    have hsorted : ((byIndex data).map fun v => v.index.getD 0).Pairwise (· ≤ ·) := by
      rw [List.pairwise_map]
      exact List.pairwise_insertionSort _ _
    have hrange : (List.range data.length).Pairwise (· ≤ ·) :=
      List.pairwise_lt_range.imp Nat.le_of_lt
    have hvalues := hperm.map fun i => i.getD 0
    rw [List.map_map, List.map_map] at hvalues
    refine List.Perm.eq_of_pairwise (fun _ _ _ _ => Nat.le_antisymm) hsorted hrange ?_
    exact (hsort.map _).trans (hvalues.trans (.of_eq (by simp [Function.comp_def])))
  rw [← hnumbers, List.map_map]
  apply List.map_congr_left
  intro v hv
  have hsome := hperm.subset (List.mem_map_of_mem (hsort.subset hv))
  obtain ⟨i, _, hi⟩ := List.mem_map.mp hsome
  simp [← hi]

/-- The vectors that are paired are the embeddings in the order of the numbers. -/
theorem pairedByIndex_iff {vectors : List (List UInt32)} (hl : vectors.length = data.length) :
    PairedByIndex data vectors ↔ (byIndex data).map OaiVec.embedding = vectors := by
  have hsort : (byIndex data).Perm data := List.perm_insertionSort _ _
  have hindex : ∀ (i : ℕ) (v : OaiVec), (byIndex data)[i]? = some v → v.index = some i := by
    intro i v hv
    have hi : i < data.length := by
      rw [← hsort.length_eq]
      exact (List.getElem?_eq_some_iff.mp hv).1
    have hnumber := congrArg (fun l => l[i]?) (index_byIndex hperm)
    simpa [hv, hi] using hnumber
  constructor
  · intro h
    apply List.ext_getElem?
    intro i
    rw [List.getElem?_map]
    cases hv : (byIndex data)[i]? with
    | none =>
      have hi := List.getElem?_eq_none_iff.mp hv
      rw [hsort.length_eq, ← hl] at hi
      exact (List.getElem?_eq_none_iff.mpr hi).symm
    | some v => exact (h v (hsort.subset (List.mem_of_getElem? hv)) i (hindex i v hv)).symm
  · rintro rfl v hv i hi
    obtain ⟨j, hj⟩ := List.mem_iff_getElem?.mp (hsort.symm.subset hv)
    obtain rfl : j = i := Option.some.inj ((hindex j v hj).symm.trans hi)
    rw [List.getElem?_map, hj]
    rfl

end

variable {provider : OpenAiEmbeddings} {client : HttpClient} {uuidText : Uuid → String}
  {answers : Answers} {req : IndexRequest} {parsed : OaiResp}

/-- The point of each chunk has the embedding with the number of the chunk. -/
def PointsPaired (data : List OaiVec) (inputs : List ChunkForIndex) (points : List VectorPoint) :
    Prop :=
  ∀ v ∈ data, ∀ i, v.index = some i → ∀ c, inputs[i]? = some c →
    ∃ p, points[i]? = some p ∧ p.id = c.chunkId.uuid ∧ p.vector = v.embedding

/-- What the provider returns and what the indexer writes is paired by number. -/
structure VectorsPaired (provider : OpenAiEmbeddings) (client : HttpClient)
    (uuidText : Uuid → String) (answers : Answers) (req : IndexRequest) (parsed : OaiResp) :
    Prop where
  returned : ∀ out, provider.embed client (textsOf req) = .ok out →
    PairedByIndex parsed.data (out.map Embedding.vector)
  written : ∀ u ∈ upserts (runIndex uuidText provider.info answers req).2,
    PointsPaired parsed.data req.inputs u.2

theorem pointsPaired_pointsOf {data : List OaiVec} {vectors : List Embedding}
    (h : PairedByIndex data (vectors.map Embedding.vector)) :
    PointsPaired data req.inputs (pointsOf uuidText req vectors) := by
  intro v hv i hi c hc
  have hvector := h v hv i hi
  rw [List.getElem?_map, Option.map_eq_some_iff] at hvector
  obtain ⟨e, he, hve⟩ := hvector
  have hpoint : (pointsOf uuidText req vectors)[i]? = some
      { id := c.chunkId.uuid
        vector := e.vector
        payload := buildPayload uuidText c.payload req.tenantId req.documentId c.chunkId } := by
    rw [pointsOf, List.getElem?_zipWith, hc, he]
  exact ⟨_, hpoint, rfl, hve⟩

/-- The points that are written are those of the vectors that the provider returned. -/
theorem written_points {u : String × List VectorPoint}
    (hu : u ∈ upserts (runIndex uuidText provider.info answers req).2) :
    ∃ log out, answers log (.embed (textsOf req)) = .ok out ∧
      u.2 = pointsOf uuidText req out := by
  have hout := outcome uuidText provider.info answers req
  generalize (runIndex uuidText provider.info answers req).1 = result at hout
  generalize (runIndex uuidText provider.info answers req).2 = log at hout hu
  cases hout with
  | empty | unknownDims | noCollection | notEmbedded | misshapen =>
    exact absurd hu List.not_mem_nil
  | notUpserted h hd hc ha hl hv hw =>
    obtain rfl := List.mem_singleton.mp hu
    exact ⟨_, _, ha, rfl⟩
  | indexed h hd hc ha hl hv hw =>
    obtain rfl := List.mem_singleton.mp hu
    exact ⟨_, _, ha, rfl⟩

/-- Vectors and texts are paired exactly when the response is refused for its shape, or
putting its items in the order of their numbers leaves the embeddings where they are. -/
theorem vectorsPaired_iff (hanswered : provider.Answered client (textsOf req) parsed)
    (hperm : (parsed.data.map OaiVec.index).Perm ((List.range parsed.data.length).map some))
    (hembed : ∀ log, answers log (.embed (textsOf req)) = provider.embed client (textsOf req)) :
    VectorsPaired provider client uuidText answers req parsed ↔
      (parsed.data.length = req.inputs.length ∧
        (∀ v ∈ parsed.data, v.embedding.length = provider.info.dims) →
        (byIndex parsed.data).map OaiVec.embedding = parsed.data.map OaiVec.embedding) := by
  have houtputs : (OpenAiEmbeddings.outputs parsed).map Embedding.vector =
      parsed.data.map OaiVec.embedding := by
    rw [OpenAiEmbeddings.outputs, List.map_map]
    rfl
  have htexts : (textsOf req).length = req.inputs.length := List.length_map _
  have hreturned : ∀ out, provider.embed client (textsOf req) = .ok out ↔
      out = OpenAiEmbeddings.outputs parsed ∧ parsed.data.length = req.inputs.length ∧
        ∀ v ∈ parsed.data, v.embedding.length = provider.info.dims := by
    intro out
    rw [← htexts]
    exact OpenAiEmbeddings.embed_eq_ok hanswered out
  have hpaired := pairedByIndex_iff hperm (List.length_map OaiVec.embedding)
  constructor
  · intro h hshape
    have := h.returned _ ((hreturned _).mpr ⟨rfl, hshape⟩)
    rwa [houtputs, hpaired] at this
  · intro h
    have hall : ∀ out, provider.embed client (textsOf req) = .ok out →
        PairedByIndex parsed.data (out.map Embedding.vector) := by
      intro out hout
      obtain ⟨rfl, hshape⟩ := (hreturned out).mp hout
      rw [houtputs, hpaired]
      exact h hshape
    refine ⟨hall, fun u hu => ?_⟩
    obtain ⟨log, out, hout, hpoints⟩ := written_points hu
    rw [hpoints]
    exact pointsPaired_pointsOf (hall out (hembed log ▸ hout))

/-- A client whose requests are all answered with one response. -/
def respondsWith (parsed : OaiResp) : HttpClient where
  headerValue v := .ok v
  post _ _ _ := .ok ⟨200, "200 OK", .ok parsed⟩

/-- A model of one dimension. -/
def flatProvider : OpenAiEmbeddings := ⟨"http://localhost/embeddings", ⟨"flat", 1, 8⟩, none, none⟩

/-- The provider embeds and the sink accepts everything. -/
def embeddedBy (provider : OpenAiEmbeddings) (client : HttpClient) : Answers
  | _, .ensureCollection _ _ => .ok ()
  | _, .embed inputs => provider.embed client inputs
  | _, .upsert _ points => .ok points.length

def numbered (i j : ℕ) : OaiResp := ⟨[⟨[10], some i⟩, ⟨[20], some j⟩], none⟩

/-- Two items in the order of their numbers. -/
theorem vectorsPaired_numbered :
    VectorsPaired flatProvider (respondsWith (numbered 0 1)) (fun _ => "")
      (embeddedBy flatProvider (respondsWith (numbered 0 1))) twoChunks (numbered 0 1) :=
  (vectorsPaired_iff ⟨_, rfl, _, rfl, rfl, rfl⟩ (.refl _) fun _ => rfl).mpr fun _ => by decide

/-- Two items in the other order. -/
theorem vectors_swapped : ¬ ∀ (provider : OpenAiEmbeddings) (client : HttpClient)
    (uuidText : Uuid → String) (answers : Answers) (req : IndexRequest) (parsed : OaiResp),
    provider.Answered client (textsOf req) parsed →
    (parsed.data.map OaiVec.index).Perm ((List.range parsed.data.length).map some) →
    (∀ log, answers log (.embed (textsOf req)) = provider.embed client (textsOf req)) →
    VectorsPaired provider client uuidText answers req parsed := by
  intro h
  have hpaired := h flatProvider (respondsWith (numbered 1 0)) (fun _ => "")
    (embeddedBy flatProvider (respondsWith (numbered 1 0))) twoChunks (numbered 1 0)
    ⟨_, rfl, _, rfl, rfl, rfl⟩ (.swap _ _ _) fun _ => rfl
  have hfirst := hpaired.returned _ rfl ⟨[20], some 0⟩ (by decide) 0 rfl
  exact absurd hfirst (by decide)

end Contexide.Indexer
