import Contexide.Workflow.Listening
import Contexide.Workflow.Outcome.Status

/-! The handlers of the worker binaries. They do no work on the data yet: each
acknowledges its request with a status, and the chunker names one chunk set, the
one of the payload or a fresh one. -/

namespace Contexide.Worker

open Workflow Workflow.Messaging Workflow.Scheduler

def baseStatus (req : WorkerRequest) : MsgWorkerStatus :=
  { tenantId := req.tenantId
    dagRunId := req.dagRunId
    taskId := req.taskId
    taskRunId := req.taskRunId
    kind := req.kind
    success := true
    output := none
    error := none
    errorKind := none
    resultMeta := none }

def failureStatus (req : WorkerRequest) (errorKind message : String) : MsgWorkerStatus :=
  { baseStatus req with
    success := false
    error := some message
    errorKind := some errorKind
    resultMeta := some
      { outcome := .permanentFailure
        errorCode := some errorKind
        errorMessage := none } }

/-- A status that acknowledges the request with one flag. -/
def flagStatus (req : WorkerRequest) (flag : String) : MsgWorkerStatus :=
  { baseStatus req with output := some (.object [(flag, .bool true)]) }

def handleExtract (req : WorkerRequest) : MsgWorkerStatus :=
  { baseStatus req with output := some (.object [("block_ids", .array [])]) }

def handleNormalize (req : WorkerRequest) : MsgWorkerStatus := flagStatus req "normalized"

def handleEmbed (req : WorkerRequest) : MsgWorkerStatus := flagStatus req "embedded"

def handleIndex (req : WorkerRequest) : MsgWorkerStatus := flagStatus req "indexed"

section Uuids

variable (C : Config) (fresh : ChunkSetId)

def extractChunkSet (req : WorkerRequest) : Option ChunkSetId :=
  (((req.payload.get "chunk_set_id").bind Json.asStr).bind C.parseUuid).map ChunkSetId.mk

/-- `fresh` is what `ChunkSetId::default` draws. -/
def handleChunk (req : WorkerRequest) : MsgWorkerStatus :=
  let chunkSetId := (extractChunkSet C req).getD fresh
  { baseStatus req with
    output := some (.object
      [("chunk_ids", .array []),
        ("chunk_set_ids", .array [.string (C.uuidText chunkSetId.uuid)])]) }

structure GenericHandler where
  kind : String

def handlerFor (kind : String) : GenericHandler := ⟨kind⟩

/-- Route by kind. -/
def GenericHandler.handle (h : GenericHandler) (req : WorkerRequest) :
    Except Error MsgWorkerStatus :=
  .ok (match h.kind with
    | "extractor" => handleExtract req
    | "normalizer" => handleNormalize req
    | "chunker" => handleChunk C fresh req
    | "embedder" => handleEmbed req
    | "indexer" => handleIndex req
    | _ => failureStatus req "unsupported_worker_kind" "Unsupported worker kind")

end Uuids

variable {C : Config}

/-- A worker of a planned kind succeeds, and only the chunker names a chunk set. -/
theorem handle_succeeds (fresh : ChunkSetId) (req : WorkerRequest)
    (hC : ∀ u, (C.parseUuid (C.uuidText u)).isSome = true) {kind : String}
    (hk : kind ∈ Planner.profileSequence) :
    ∃ output, (handlerFor kind).handle C fresh req =
        .ok { baseStatus req with output := output } ∧
      (chunkSetsOf C output).length = if kind = "chunker" then 1 else 0 := by
  simp only [Planner.profileSequence, List.mem_cons, List.not_mem_nil, or_false] at hk
  rcases hk with rfl | rfl | rfl | rfl | rfl
  · exact ⟨_, rfl, rfl⟩
  · exact ⟨_, rfl, rfl⟩
  · refine ⟨_, rfl, ?_⟩
    obtain ⟨u, hu⟩ := Option.isSome_iff_exists.mp (hC ((extractChunkSet C req).getD fresh).uuid)
    change (parseChunkSets C [.string _]).length = 1
    simp [parseChunkSets, Json.asStr, hu]
  · exact ⟨_, rfl, rfl⟩
  · exact ⟨_, rfl, rfl⟩

end Contexide.Worker
