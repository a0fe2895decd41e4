import Contexide.Storage.Schedules
import Contexide.StoragePg.Sets

/-! The in-memory repositories behind their locks. Each keeps its table and its index under
a mutex of its own and never holds both, so that calls made at the same time can leave the
index behind. What is true of every order of their sections, and which calls come out as if
made one after another. -/

namespace Contexide.StoragePg

open Storage ChildTable

/-! ### Blocks, chunks and embedding references -/

/-- The change that a call makes, in a repository of rows with a parent. -/
def childChange {K P V : Type} {key : V → K} (parent : V → P) :
    ChildTable.Call V K P → Change key parent
  | .save entity => .save entity
  | .delete id => .delete id
  | .deleteByParent p => .deleteByParent p

namespace MemBlocksRepo

def change : ChildTable.Call Block BlockId AssetId → Change Block.id Block.assetId :=
  childChange Block.assetId

/-- A call and its answer. -/
def perform (r : MemBlocksRepo) :
    ChildTable.Call Block BlockId AssetId → Answer × MemBlocksRepo
  | .save entity => (.saved, save r entity)
  | .delete id => (.found (delete r id).1, (delete r id).2)
  | .deleteByParent assetId => (.removed (deleteByAsset r assetId).1, (deleteByAsset r assetId).2)

theorem perform_eq (r : MemBlocksRepo) (call : ChildTable.Call Block BlockId AssetId) :
    perform r call = (change call).alone r := by
  cases call <;> rfl

end MemBlocksRepo

namespace MemChunksRepo

def change : ChildTable.Call Chunk ChunkId ChunkSetId → Change Chunk.id Chunk.chunkSetId :=
  childChange Chunk.chunkSetId

/-- A call and its answer. -/
def perform (r : MemChunksRepo) :
    ChildTable.Call Chunk ChunkId ChunkSetId → Answer × MemChunksRepo
  | .save entity => (.saved, save r entity)
  | .delete id => (.found (delete r id).1, (delete r id).2)
  | .deleteByParent setId => (.removed (deleteBySet r setId).1, (deleteBySet r setId).2)

theorem perform_eq (r : MemChunksRepo) (call : ChildTable.Call Chunk ChunkId ChunkSetId) :
    perform r call = (change call).alone r := by
  cases call <;> rfl

end MemChunksRepo

namespace MemEmbeddingsRepo

/-- The first section of the own save: the index needs nothing for a row that is there. -/
def saveFirst (r : MemEmbeddingsRepo) (entity : EmbeddingRef) :
    Task EmbeddingSetId (ChunkId × EmbeddingSetId) × MemEmbeddingsRepo :=
  match r.byKey.get entity.key with
  | none =>
    (⟨.saved, [.indexAdd entity.embeddingSetId entity.key]⟩,
      { r with byKey := r.byKey.save entity })
  | some _ => (⟨.saved, []⟩, { r with byKey := r.byKey.save entity })

/-- It is the first section of the save of the other two. -/
theorem saveFirst_eq (r : MemEmbeddingsRepo) (entity : EmbeddingRef) :
    saveFirst r entity = ChildTable.saveFirst EmbeddingRef.embeddingSetId r entity := by
  unfold saveFirst ChildTable.saveFirst
  cases hold : r.byKey.get entity.key with
  | none => rfl
  | some old =>
    have hset : old.embeddingSetId = entity.embeddingSetId :=
      congrArg Prod.snd (Table.get_eq_some.mp hold).2
    simp [hset]

def change : ChildTable.Call EmbeddingRef (ChunkId × EmbeddingSetId) EmbeddingSetId →
    Change EmbeddingRef.key EmbeddingRef.embeddingSetId :=
  childChange EmbeddingRef.embeddingSetId

/-- A call and its answer. -/
def perform (r : MemEmbeddingsRepo) :
    ChildTable.Call EmbeddingRef (ChunkId × EmbeddingSetId) EmbeddingSetId →
      Answer × MemEmbeddingsRepo
  | .save entity => (.saved, save r entity)
  | .delete id => (.found (delete r id).1, (delete r id).2)
  | .deleteByParent setId => (.removed (deleteBySet r setId).1, (deleteBySet r setId).2)

theorem perform_eq (r : MemEmbeddingsRepo)
    (call : ChildTable.Call EmbeddingRef (ChunkId × EmbeddingSetId) EmbeddingSetId) :
    perform r call = (change call).alone r := by
  cases call with
  | save entity => exact congrArg (Prod.mk Answer.saved) (save_eq r entity)
  | delete id => rfl
  | deleteByParent setId => rfl

end MemEmbeddingsRepo

/-! ### Assets, chunk sets and embedding sets -/

namespace MemAssetsRepo

inductive Call where
  | save (entity : Asset)
  | delete (id : AssetId)
  | setStorageKey (id : AssetId) (storageKey : String)

def change : Call → Change Asset.id Asset.documentId
  | .save entity => .save entity
  | .delete id => .delete id
  | .setStorageKey id storageKey =>
    .modify id (fun a => { a with storageKey := some storageKey }) (fun _ => rfl) fun _ => rfl

/-- A call and its answer. -/
def perform (r : MemAssetsRepo) : Call → Answer × MemAssetsRepo
  | .save entity => (.saved, save r entity)
  | .delete id => (.found (delete r id).1, (delete r id).2)
  | .setStorageKey id storageKey =>
    (.found (setStorageKey r id storageKey).1, (setStorageKey r id storageKey).2)

theorem perform_eq (r : MemAssetsRepo) (call : Call) :
    perform r call = (change call).alone r := by
  cases call <;> rfl

theorem key?_change (call : Call) : ∃ k, (change call).key? = some k := by
  cases call <;> exact ⟨_, rfl⟩

end MemAssetsRepo

namespace MemChunkSetsRepo

inductive Call where
  | create (id : ChunkSetId) (tenantId : TenantId) (documentId : DocumentId)
    (profileHash : String)
  | save (entity : ChunkSet)
  | delete (id : ChunkSetId)
  | markFinalized (id : ChunkSetId)

def change : Call → Change ChunkSet.id ChunkSet.documentId
  | .create id tenantId documentId profileHash =>
    .save { id, tenantId, documentId, profileHash, finalized := false }
  | .save entity => .save entity
  | .delete id => .delete id
  | .markFinalized id =>
    .modify id (fun cs => { cs with finalized := true }) (fun _ => rfl) fun _ => rfl

/-- A call and its answer; the id that a creation returns is the one that is drawn. -/
def perform (r : MemChunkSetsRepo) : Call → Answer × MemChunkSetsRepo
  | .create id tenantId documentId profileHash =>
    (.saved, (create r id tenantId documentId profileHash).2)
  | .save entity => (.saved, save r entity)
  | .delete id => (.found (delete r id).1, (delete r id).2)
  | .markFinalized id => (.found (markFinalized r id).1, (markFinalized r id).2)

theorem perform_eq (r : MemChunkSetsRepo) (call : Call) :
    perform r call = (change call).alone r := by
  cases call <;> rfl

theorem key?_change (call : Call) : ∃ k, (change call).key? = some k := by
  cases call <;> exact ⟨_, rfl⟩

end MemChunkSetsRepo

namespace MemEmbeddingSetsRepo

inductive Call where
  | create (id : EmbeddingSetId) (tenantId : TenantId) (chunkSetId : ChunkSetId)
    (modelKind modelVersion : String) (dim : Int32) (metric : String)
  | save (entity : EmbeddingSet)
  | delete (id : EmbeddingSetId)
  | markReady (id : EmbeddingSetId)

def change : Call → Change EmbeddingSet.id EmbeddingSet.chunkSetId
  | .create id tenantId chunkSetId modelKind modelVersion dim metric =>
    .save { id, tenantId, chunkSetId, modelKind, modelVersion, dim, metric, ready := false }
  | .save entity => .save entity
  | .delete id => .delete id
  | .markReady id => .modify id (fun es => { es with ready := true }) (fun _ => rfl) fun _ => rfl

/-- A call and its answer; the id that a creation returns is the one that is drawn. -/
def perform (r : MemEmbeddingSetsRepo) : Call → Answer × MemEmbeddingSetsRepo
  | .create id tenantId chunkSetId modelKind modelVersion dim metric =>
    (.saved, (create r id tenantId chunkSetId modelKind modelVersion dim metric).2)
  | .save entity => (.saved, save r entity)
  | .delete id => (.found (delete r id).1, (delete r id).2)
  | .markReady id => (.found (markReady r id).1, (markReady r id).2)

theorem perform_eq (r : MemEmbeddingSetsRepo) (call : Call) :
    perform r call = (change call).alone r := by
  cases call <;> rfl

theorem key?_change (call : Call) : ∃ k, (change call).key? = some k := by
  cases call <;> exact ⟨_, rfl⟩

end MemEmbeddingSetsRepo

/-! Different rows have different ranks. -/

theorem ChunkSet.id_of_rank (a b : ChunkSet) (h : a.rank = b.rank) : a.id = b.id :=
  ChunkSetId.ext h

theorem EmbeddingSet.id_of_rank (a b : EmbeddingSet) (h : a.rank = b.rank) : a.id = b.id :=
  EmbeddingSetId.ext h

/-! ### Under every schedule -/

/-- Where rows go with their parent, every entry of the index is accounted for under every
schedule: listings have a row as often as the removals that found no entry, the rows that
went after their bucket and the entries that went with it add up to. -/
theorem entries_accounted :
    Accounted MemBlocksRepo.change MemBlocksRepo.listByAsset ∧
    Accounted MemChunksRepo.change MemChunksRepo.listBySet ∧
    Accounted MemEmbeddingsRepo.change MemEmbeddingsRepo.listBySet :=
  ⟨accounted fun _ _ => List.perm_insertionSort _ _,
    accounted fun _ _ => List.perm_insertionSort _ _,
    accounted fun _ _ => List.perm_insertionSort _ _⟩

/-- Where they do not, rows and answers are those of the calls one after another under
every schedule. Once all calls have returned, a listing has every row of its parent, and a
row once more for each removal that found no entry of it. -/
theorem rows_serializable :
    RowsSerializable MemAssetsRepo.change MemAssetsRepo.perform MemAssetsRepo.listByDocument ∧
    RowsSerializable MemChunkSetsRepo.change MemChunkSetsRepo.perform
      MemChunkSetsRepo.listByDocument ∧
    RowsSerializable MemEmbeddingSetsRepo.change MemEmbeddingSetsRepo.perform
      MemEmbeddingSetsRepo.listByChunkSet :=
  ⟨rowsSerializable MemAssetsRepo.perform_eq MemAssetsRepo.key?_change fun _ _ => .refl _,
    rowsSerializable MemChunkSetsRepo.perform_eq MemChunkSetsRepo.key?_change
      fun _ _ => List.perm_insertionSort _ _,
    rowsSerializable MemEmbeddingSetsRepo.perform_eq MemEmbeddingSetsRepo.key?_change
      fun _ _ => List.perm_insertionSort _ _⟩

/-- A deletion whose removal comes before the addition of the save it overlaps: when the
row is created again, it is listed twice. -/
example : MemChunkSetsRepo.listByDocument (Shared.after MemChunkSetsRepo.change
    [.inl (.save ⟨⟨1⟩, ⟨2⟩, ⟨3⟩, "p", true⟩), .inl (.delete ⟨1⟩), .inr 1, .inr 0,
      .inl (.create ⟨1⟩ ⟨2⟩ ⟨3⟩ "q"), .inr 2]).table ⟨3⟩ =
    [⟨⟨1⟩, ⟨2⟩, ⟨3⟩, "q", false⟩, ⟨⟨1⟩, ⟨2⟩, ⟨3⟩, "q", false⟩] := by decide

/-- When calls that overlap are about different rows, and a deletion by parent meets no
change of its bucket, all six repositories behave as if the calls had been made one after
another: the same answers, the same rows and the same listings, those of assets up to
their order. -/
theorem apart_calls_serializable :
    Serializable MemBlocksRepo.change MemBlocksRepo.perform MemBlocksRepo.listByAsset Eq ∧
    Serializable MemChunksRepo.change MemChunksRepo.perform MemChunksRepo.listBySet Eq ∧
    Serializable MemEmbeddingsRepo.change MemEmbeddingsRepo.perform
      MemEmbeddingsRepo.listBySet Eq ∧
    Serializable MemAssetsRepo.change MemAssetsRepo.perform MemAssetsRepo.listByDocument
      List.Perm ∧
    Serializable MemChunkSetsRepo.change MemChunkSetsRepo.perform
      MemChunkSetsRepo.listByDocument Eq ∧
    Serializable MemEmbeddingSetsRepo.change MemEmbeddingSetsRepo.perform
      MemEmbeddingSetsRepo.listByChunkSet Eq :=
  ⟨serializable MemBlocksRepo.perform_eq fun h hidle => h.list_eq hidle Block.id_of_rank,
    serializable MemChunksRepo.perform_eq fun h hidle => h.list_eq hidle Chunk.id_of_rank,
    serializable MemEmbeddingsRepo.perform_eq fun h hidle =>
      h.list_eq hidle EmbeddingRef.key_of_rank,
    serializable MemAssetsRepo.perform_eq fun h hidle => h.listed_perm hidle,
    serializable MemChunkSetsRepo.perform_eq fun h hidle => h.list_eq hidle ChunkSet.id_of_rank,
    serializable MemEmbeddingSetsRepo.perform_eq fun h hidle =>
      h.list_eq hidle EmbeddingSet.id_of_rank⟩

/-- A block moves to another asset while a second one is saved to the first asset and a
third one is deleted. -/
def overlapping : List (ChildTable.Call Block BlockId AssetId ⊕ ℕ) :=
  [.inl (.save ⟨⟨1⟩, ⟨0⟩, ⟨7⟩, .text, 0, none, none⟩), .inr 0,
    .inl (.save ⟨⟨3⟩, ⟨0⟩, ⟨7⟩, .text, 2, none, none⟩), .inr 1,
    .inl (.save ⟨⟨1⟩, ⟨0⟩, ⟨8⟩, .text, 0, none, none⟩),
    .inl (.save ⟨⟨2⟩, ⟨0⟩, ⟨7⟩, .text, 1, none, none⟩), .inl (.delete ⟨3⟩),
    .inr 4, .inr 3, .inr 2, .inr 2]

theorem apart_calls_serializable_overlapping :
    (Shared.after MemBlocksRepo.change overlapping).tasks.map Task.answer =
      (oneByOne MemBlocksRepo.perform .empty (begun overlapping)).1 ∧
    (Shared.after MemBlocksRepo.change overlapping).table.byKey.get =
      (oneByOne MemBlocksRepo.perform .empty (begun overlapping)).2.byKey.get ∧
    ∀ assetId, MemBlocksRepo.listByAsset (Shared.after MemBlocksRepo.change overlapping).table
        assetId =
      MemBlocksRepo.listByAsset (oneByOne MemBlocksRepo.perform .empty (begun overlapping)).2
        assetId :=
  apart_calls_serializable.1 overlapping (by decide) (by decide)

end Contexide.StoragePg
