import Contexide.Core.Embeddings
import Contexide.Core.Ids
import Contexide.Core.Json
import Contexide.Effects.Program
import Contexide.Storage.Table

/-! The indexer: chunks -> embeddings -> vector storage. It asks the provider and the
sink through four calls at most, each of which may fail and ends the operation then. A
run is read with any answers, which may depend on the calls before, and keeps the list
of its calls. -/

namespace Contexide.Indexer

open Effects Storage

/-- A JSON object: entries with pairwise different keys. -/
abbrev JsonMap := Assoc String Json

/-- Minimal information required to index one chunk. -/
structure ChunkForIndex where
  chunkId : ChunkId
  text : String
  payload : Option JsonMap

/-- Batch request to index chunks for a document/tenant. -/
structure IndexRequest where
  tenantId : TenantId
  documentId : DocumentId
  collection : String
  inputs : List ChunkForIndex

/-- Outcome summary for an indexing operation. -/
structure IndexStats where
  requested : ℕ
  embedded : ℕ
  upserted : ℕ
  dim : ℕ
  deriving DecidableEq

instance : Inhabited IndexStats := ⟨⟨0, 0, 0, 0⟩⟩

/-- One vector point with a stable id and a payload. -/
structure VectorPoint where
  id : Uuid
  vector : List UInt32
  payload : JsonMap

inductive Op where
  | ensureCollection (collection : String) (dim : ℕ)
  | embed (inputs : List String)
  | upsert (collection : String) (points : List VectorPoint)

abbrev Op.Ans : Op → Type
  | .ensureCollection _ _ => Except Error Unit
  | .embed _ => Except Error (List Embedding)
  | .upsert _ _ => Except Error ℕ

abbrev sig : Signature := ⟨Op, Op.Ans⟩

abbrev Prog := ExceptT Error (Program sig)

def ensureCollection (collection : String) (dim : ℕ) : Prog Unit :=
  Program.perform (S := sig) (.ensureCollection collection dim)

def embed (inputs : List String) : Prog (List Embedding) :=
  Program.perform (S := sig) (.embed inputs)

def upsert (collection : String) (points : List VectorPoint) : Prog ℕ :=
  Program.perform (S := sig) (.upsert collection points)

section

variable (uuidText : Uuid → String)

/-- The keys that callers cannot set. -/
def isCanonical (k : String) : Bool := k = "tenant_id" ∨ k = "document_id" ∨ k = "chunk_id"

def canonicalIds (tenantId : TenantId) (documentId : DocumentId) (chunkId : ChunkId) : JsonMap :=
  let p : JsonMap := Table.empty
  let p := p.insert "tenant_id" (.string (uuidText tenantId.uuid))
  let p := p.insert "document_id" (.string (uuidText documentId.uuid))
  p.insert "chunk_id" (.string (uuidText chunkId.uuid))

/-- One entry of the caller; the canonical ids are not overwritten. -/
def addEntry (p : JsonMap) (entry : String × Json) : JsonMap :=
  if isCanonical entry.1 then p else p.insert entry.1 entry.2

def buildPayload (base : Option JsonMap) (tenantId : TenantId) (documentId : DocumentId)
    (chunkId : ChunkId) : JsonMap :=
  let p := canonicalIds uuidText tenantId documentId chunkId
  match base with
  | some extra => extra.rows.foldl addEntry p
  | none => p

/-- Validate dimensions early, from index `i` on. -/
def checkDims (dims i : ℕ) : List Embedding → Except Error Unit
  | [] => .ok ()
  | v :: vectors =>
    if v.vector.length ≠ dims then
      .error (.other s!"vector {i} has dim {v.vector.length}, expected {dims}")
    else checkDims dims (i + 1) vectors

def pointsOf (req : IndexRequest) (vectors : List Embedding) : List VectorPoint :=
  List.zipWith (fun c v =>
    { id := c.chunkId.uuid
      vector := v.vector
      payload := buildPayload uuidText c.payload req.tenantId req.documentId c.chunkId })
    req.inputs vectors

def textsOf (req : IndexRequest) : List String := req.inputs.map ChunkForIndex.text

/-- The operation of the indexer whose provider has the model. -/
def index (info : ModelInfo) (req : IndexRequest) : Prog IndexStats :=
  let requested := req.inputs.length
  if requested = 0 then pure default
  else if info.dims = 0 then throw (.other "provider dimension is unknown (dim=0)")
  else do
    ensureCollection req.collection info.dims
    let vectors ← embed (textsOf req)
    if vectors.length ≠ requested then
      throw (.other s!"embed_batch returned {vectors.length} vectors for {requested} inputs")
    else
      match checkDims info.dims 0 vectors with
      | .error e => throw e
      | .ok () =>
        let upserted ← upsert req.collection (pointsOf uuidText req vectors)
        pure { requested, embedded := requested, upserted, dim := info.dims }

end

/-! ### Runs -/

/-- What the provider and the sink answer to a call after the calls so far. -/
abbrev Answers := List Op → (op : Op) → op.Ans

def logged (answers : Answers) : Handler sig (List Op) := fun op log =>
  (answers log op, log ++ [op])

/-- The result of the operation and its calls, first to last. -/
def runIndex (uuidText : Uuid → String) (info : ModelInfo) (answers : Answers)
    (req : IndexRequest) : Except Error IndexStats × List Op :=
  (index uuidText info req).run.run (logged answers) []

theorem checkDims_eq_ok {dims i : ℕ} {vectors : List Embedding} :
    checkDims dims i vectors = .ok () ↔ ∀ v ∈ vectors, v.vector.length = dims := by
  induction vectors generalizing i with
  | nil => simp [checkDims]
  | cons v vectors ih =>
    rw [checkDims, List.forall_mem_cons, ← @ih (i + 1)]
    split <;> simp_all

section

variable (uuidText : Uuid → String) (info : ModelInfo) (answers : Answers) (req : IndexRequest)

/-- The calls up to the collection, the embedding and the upsert. -/
def ensured : List Op := [.ensureCollection req.collection info.dims]

def embedded : List Op := ensured info req ++ [.embed (textsOf req)]

def upserted (vectors : List Embedding) : List Op :=
  embedded info req ++ [.upsert req.collection (pointsOf uuidText req vectors)]

/-- The ways in which the operation ends, with its calls. -/
inductive Outcome : Except Error IndexStats → List Op → Prop
  | empty (h : req.inputs = []) : Outcome (.ok default) []
  | unknownDims {e : Error} (h : req.inputs ≠ []) (hd : info.dims = 0) : Outcome (.error e) []
  | noCollection {e : Error} (h : req.inputs ≠ []) (hd : info.dims ≠ 0)
      (ha : answers [] (.ensureCollection req.collection info.dims) = .error e) :
      Outcome (.error e) (ensured info req)
  | notEmbedded {e : Error} (h : req.inputs ≠ []) (hd : info.dims ≠ 0)
      (hc : answers [] (.ensureCollection req.collection info.dims) = .ok ())
      (ha : answers (ensured info req) (.embed (textsOf req)) = .error e) :
      Outcome (.error e) (embedded info req)
  | misshapen {e : Error} {vectors : List Embedding} (h : req.inputs ≠ []) (hd : info.dims ≠ 0)
      (hc : answers [] (.ensureCollection req.collection info.dims) = .ok ())
      (ha : answers (ensured info req) (.embed (textsOf req)) = .ok vectors)
      (hs : ¬ (vectors.length = req.inputs.length ∧ ∀ v ∈ vectors, v.vector.length = info.dims)) :
      Outcome (.error e) (embedded info req)
  | notUpserted {e : Error} {vectors : List Embedding} (h : req.inputs ≠ []) (hd : info.dims ≠ 0)
      (hc : answers [] (.ensureCollection req.collection info.dims) = .ok ())
      (ha : answers (ensured info req) (.embed (textsOf req)) = .ok vectors)
      (hl : vectors.length = req.inputs.length) (hv : ∀ v ∈ vectors, v.vector.length = info.dims)
      (hu : answers (embedded info req)
        (.upsert req.collection (pointsOf uuidText req vectors)) = .error e) :
      Outcome (.error e) (upserted uuidText info req vectors)
  | indexed {vectors : List Embedding} {n : ℕ} (h : req.inputs ≠ []) (hd : info.dims ≠ 0)
      (hc : answers [] (.ensureCollection req.collection info.dims) = .ok ())
      (ha : answers (ensured info req) (.embed (textsOf req)) = .ok vectors)
      (hl : vectors.length = req.inputs.length) (hv : ∀ v ∈ vectors, v.vector.length = info.dims)
      (hu : answers (embedded info req)
        (.upsert req.collection (pointsOf uuidText req vectors)) = .ok n) :
      Outcome (.ok ⟨req.inputs.length, req.inputs.length, n, info.dims⟩)
        (upserted uuidText info req vectors)

theorem outcome : Outcome uuidText info answers req (runIndex uuidText info answers req).1
    (runIndex uuidText info answers req).2 := by
  rcases hrequested : req.inputs with _ | ⟨c, cs⟩
  · have hrun : runIndex uuidText info answers req = (.ok default, []) := by
      rw [runIndex, index, hrequested]
      rfl
    rw [hrun]
    exact .empty hrequested
  · have hne : req.inputs ≠ [] := by simp [hrequested]
    have hpos : req.inputs.length ≠ 0 := by simp [hrequested]
    by_cases hd : info.dims = 0
    · have hrun : runIndex uuidText info answers req =
          (.error (.other "provider dimension is unknown (dim=0)"), []) := by
        rw [runIndex, index, if_neg hpos, if_pos hd]
        rfl
      rw [hrun]
      exact .unknownDims hne hd
    · rw [runIndex, index, if_neg hpos, if_neg hd]
      have hensure : (ensureCollection req.collection info.dims).run.run (logged answers) [] =
          (answers [] (.ensureCollection req.collection info.dims), ensured info req) := rfl
      cases hc : answers [] (.ensureCollection req.collection info.dims) with
      | error e =>
        rw [hc] at hensure
        rw [Program.run_bind_error _ hensure]
        exact .noCollection hne hd hc
      | ok u =>
        rw [hc] at hensure
        rw [Program.run_bind_ok _ hensure]
        have hembed : (embed (textsOf req)).run.run (logged answers) (ensured info req) =
            (answers (ensured info req) (.embed (textsOf req)), embedded info req) := rfl
        cases ha : answers (ensured info req) (.embed (textsOf req)) with
        | error e =>
          rw [ha] at hembed
          rw [Program.run_bind_error _ hembed]
          exact .notEmbedded hne hd hc ha
        | ok vectors =>
          rw [ha] at hembed
          rw [Program.run_bind_ok _ hembed]
          by_cases hl : vectors.length = req.inputs.length
          · rw [if_neg (not_not.mpr hl)]
            cases hdims : checkDims info.dims 0 vectors with
            | error e =>
              refine .misshapen hne hd hc ha fun hs => ?_
              rw [checkDims_eq_ok.mpr hs.2] at hdims
              cases hdims
            | ok _ =>
              have hv := checkDims_eq_ok.mp hdims
              have hupsert : (upsert req.collection (pointsOf uuidText req vectors)).run.run
                  (logged answers) (embedded info req) =
                (answers (embedded info req)
                    (.upsert req.collection (pointsOf uuidText req vectors)),
                  upserted uuidText info req vectors) := rfl
              cases hu : answers (embedded info req)
                  (.upsert req.collection (pointsOf uuidText req vectors)) with
              | error e =>
                rw [hu] at hupsert
                rw [Program.run_bind_error _ hupsert]
                exact .notUpserted hne hd hc ha hl hv hu
              | ok n =>
                rw [hu] at hupsert
                rw [Program.run_bind_ok _ hupsert]
                exact .indexed hne hd hc ha hl hv hu
          · rw [if_pos hl]
            exact .misshapen hne hd hc ha fun hs => hl hs.1

end

end Contexide.Indexer
