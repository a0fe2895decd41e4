import Contexide.StoragePg.Persistence
import Contexide.Storage.Sections

/-! The in-memory repositories of assets, chunk sets and embedding sets: entities that
belong to a document, a document and a chunk set. Their shape is that of the repositories
of blocks and chunks, with a change of one field in place and without a deletion by
parent. Assets are listed in the order of the index. -/

namespace Contexide.StoragePg

open Storage

structure ChunkSet where
  id : ChunkSetId
  tenantId : TenantId
  documentId : DocumentId
  profileHash : String
  finalized : Bool
  deriving DecidableEq

structure EmbeddingSet where
  id : EmbeddingSetId
  tenantId : TenantId
  chunkSetId : ChunkSetId
  modelKind : String
  modelVersion : String
  dim : Int32
  metric : String
  ready : Bool
  deriving DecidableEq

/-- Chunk sets are listed by `id`. -/
def ChunkSet.rank (cs : ChunkSet) : ℕ := cs.id.uuid

/-- Embedding sets are listed by `id`. -/
def EmbeddingSet.rank (es : EmbeddingSet) : ℕ := es.id.uuid

/-- In-memory assets repository. -/
abbrev MemAssetsRepo := ChildTable Asset.id DocumentId

namespace MemAssetsRepo

def new : MemAssetsRepo := .empty

variable (r : MemAssetsRepo)

def get (id : AssetId) : Option Asset := r.byKey.get id

def save (entity : Asset) : MemAssetsRepo := ChildTable.save Asset.documentId r entity

def delete (id : AssetId) : Bool × MemAssetsRepo := ChildTable.delete Asset.documentId r id

/-- The assets of a document in the order of the index. -/
def listByDocument (documentId : DocumentId) : List Asset :=
  (bucket r.byParent documentId).filterMap r.byKey.get

/-- Update the blob storage key of an asset. -/
def setStorageKey (id : AssetId) (storageKey : String) : Bool × MemAssetsRepo :=
  ChildTable.modify r id fun a => { a with storageKey := some storageKey }

end MemAssetsRepo

/-- In-memory chunk-sets repository. -/
abbrev MemChunkSetsRepo := ChildTable ChunkSet.id DocumentId

namespace MemChunkSetsRepo

def new : MemChunkSetsRepo := .empty

variable (r : MemChunkSetsRepo)

def get (id : ChunkSetId) : Option ChunkSet := r.byKey.get id

def save (entity : ChunkSet) : MemChunkSetsRepo := ChildTable.save ChunkSet.documentId r entity

def delete (id : ChunkSetId) : Bool × MemChunkSetsRepo :=
  ChildTable.delete ChunkSet.documentId r id

/-- The id is the one that is drawn. -/
def create (id : ChunkSetId) (tenantId : TenantId) (documentId : DocumentId)
    (profileHash : String) : ChunkSetId × MemChunkSetsRepo :=
  (id, save r { id, tenantId, documentId, profileHash, finalized := false })

def markFinalized (id : ChunkSetId) : Bool × MemChunkSetsRepo :=
  ChildTable.modify r id fun cs => { cs with finalized := true }

def listByDocument (documentId : DocumentId) : List ChunkSet :=
  ChildTable.list r ChunkSet.rank documentId

end MemChunkSetsRepo

/-- In-memory embedding-sets repository. -/
abbrev MemEmbeddingSetsRepo := ChildTable EmbeddingSet.id ChunkSetId

namespace MemEmbeddingSetsRepo

def new : MemEmbeddingSetsRepo := .empty

variable (r : MemEmbeddingSetsRepo)

def get (id : EmbeddingSetId) : Option EmbeddingSet := r.byKey.get id

def save (entity : EmbeddingSet) : MemEmbeddingSetsRepo :=
  ChildTable.save EmbeddingSet.chunkSetId r entity

def delete (id : EmbeddingSetId) : Bool × MemEmbeddingSetsRepo :=
  ChildTable.delete EmbeddingSet.chunkSetId r id

/-- The id is the one that is drawn. -/
def create (id : EmbeddingSetId) (tenantId : TenantId) (chunkSetId : ChunkSetId)
    (modelKind modelVersion : String) (dim : Int32) (metric : String) :
    EmbeddingSetId × MemEmbeddingSetsRepo :=
  (id, save r { id, tenantId, chunkSetId, modelKind, modelVersion, dim, metric, ready := false })

def markReady (id : EmbeddingSetId) : Bool × MemEmbeddingSetsRepo :=
  ChildTable.modify r id fun es => { es with ready := true }

def listByChunkSet (chunkSetId : ChunkSetId) : List EmbeddingSet :=
  ChildTable.list r EmbeddingSet.rank chunkSetId

end MemEmbeddingSetsRepo

end Contexide.StoragePg
