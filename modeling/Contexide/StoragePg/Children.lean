import Contexide.Core.Ids
import Contexide.Storage.ChildTable
import Mathlib.Data.Prod.Lex

/-! The in-memory repositories of blocks, chunks and embedding references: entities
that belong to an asset, a chunk set and an embedding set. Each operation runs
alone. The three repositories differ in their keys and orders, and the one of
embedding references has a save of its own. -/

namespace Contexide.StoragePg

open Storage

inductive BlockModality where
  | text | image | audio | video | table | binary
  deriving DecidableEq, Repr

structure Block where
  id : BlockId
  tenantId : TenantId
  assetId : AssetId
  modality : BlockModality
  orderNo : Int32
  text : Option String
  metaJson : Option String

structure Chunk where
  id : ChunkId
  chunkSetId : ChunkSetId
  tenantId : TenantId
  orderNo : Int32
  byteStart : Int32
  byteEnd : Int32
  text : String
  metaJson : Option String

structure EmbeddingRef where
  chunkId : ChunkId
  embeddingSetId : EmbeddingSetId
  tenantId : TenantId
  vectorId : String

/-- Blocks are listed by `order_no`, then `id`. -/
def Block.rank (b : Block) : ℤ ×ₗ ℕ := toLex (b.orderNo.toInt, b.id.uuid)

/-- Chunks are listed by `order_no`, then `id`. -/
def Chunk.rank (c : Chunk) : ℤ ×ₗ ℕ := toLex (c.orderNo.toInt, c.id.uuid)

/-- The composite key. -/
def EmbeddingRef.key (e : EmbeddingRef) : ChunkId × EmbeddingSetId :=
  (e.chunkId, e.embeddingSetId)

/-- Embedding references are listed by their keys. -/
def EmbeddingRef.rank (e : EmbeddingRef) : ℕ ×ₗ ℕ := toLex (e.chunkId.uuid, e.embeddingSetId.uuid)

/-- In-memory blocks repository. -/
abbrev MemBlocksRepo := ChildTable Block.id AssetId

namespace MemBlocksRepo

def new : MemBlocksRepo := .empty

variable (r : MemBlocksRepo)

def save (entity : Block) : MemBlocksRepo := ChildTable.save Block.assetId r entity

def delete (id : BlockId) : Bool × MemBlocksRepo := ChildTable.delete Block.assetId r id

def listByAsset (assetId : AssetId) : List Block := ChildTable.list r Block.rank assetId

def deleteByAsset (assetId : AssetId) : ℕ × MemBlocksRepo := ChildTable.deleteByParent r assetId

def run : ChildTable.Call Block BlockId AssetId → MemBlocksRepo
  | .save entity => save r entity
  | .delete id => (delete r id).2
  | .deleteByParent assetId => (deleteByAsset r assetId).2

end MemBlocksRepo

/-- In-memory chunks repository. -/
abbrev MemChunksRepo := ChildTable Chunk.id ChunkSetId

namespace MemChunksRepo

def new : MemChunksRepo := .empty

variable (r : MemChunksRepo)

def save (entity : Chunk) : MemChunksRepo := ChildTable.save Chunk.chunkSetId r entity

def delete (id : ChunkId) : Bool × MemChunksRepo := ChildTable.delete Chunk.chunkSetId r id

def listBySet (setId : ChunkSetId) : List Chunk := ChildTable.list r Chunk.rank setId

def deleteBySet (setId : ChunkSetId) : ℕ × MemChunksRepo := ChildTable.deleteByParent r setId

def run : ChildTable.Call Chunk ChunkId ChunkSetId → MemChunksRepo
  | .save entity => save r entity
  | .delete id => (delete r id).2
  | .deleteByParent setId => (deleteBySet r setId).2

end MemChunksRepo

/-- In-memory embeddings repository. -/
abbrev MemEmbeddingsRepo := ChildTable EmbeddingRef.key EmbeddingSetId

namespace MemEmbeddingsRepo

def new : MemEmbeddingsRepo := .empty

variable (r : MemEmbeddingsRepo)

/-- Upsert; the set is part of the key, so an update never moves in the index. -/
def save (entity : EmbeddingRef) : MemEmbeddingsRepo :=
  match r.byKey.get entity.key with
  | none =>
    { byKey := r.byKey.save entity
      byParent := indexAdd r.byParent entity.embeddingSetId entity.key }
  | some _ => { r with byKey := r.byKey.save entity }

def delete (id : ChunkId × EmbeddingSetId) : Bool × MemEmbeddingsRepo :=
  ChildTable.delete EmbeddingRef.embeddingSetId r id

def listBySet (setId : EmbeddingSetId) : List EmbeddingRef :=
  ChildTable.list r EmbeddingRef.rank setId

def deleteBySet (setId : EmbeddingSetId) : ℕ × MemEmbeddingsRepo :=
  ChildTable.deleteByParent r setId

def run : ChildTable.Call EmbeddingRef (ChunkId × EmbeddingSetId) EmbeddingSetId →
    MemEmbeddingsRepo
  | .save entity => save r entity
  | .delete id => (delete r id).2
  | .deleteByParent setId => (deleteBySet r setId).2

/-- The own save does what the save of the other two does. -/
theorem save_eq (entity : EmbeddingRef) :
    save r entity = ChildTable.save EmbeddingRef.embeddingSetId r entity := by
  unfold save ChildTable.save
  cases hold : r.byKey.get entity.key with
  | none => rfl
  | some old =>
    have hset : old.embeddingSetId = entity.embeddingSetId :=
      congrArg Prod.snd (Table.get_eq_some.mp hold).2
    simp [hset]

theorem run_eq : run = ChildTable.Call.run EmbeddingRef.embeddingSetId := by
  funext r call
  cases call with
  | save entity => exact save_eq r entity
  | delete id => rfl
  | deleteByParent setId => rfl

end MemEmbeddingsRepo

/-! ### Exact indices -/

/-- What a repository is for: a save stores the entity and a deletion takes it out, and both
leave the others alone; a listing has exactly the stored entities of the parent, each once
and in order; no bucket is empty or has a key twice; a deletion by parent reports the number
of its entities and removes exactly those. -/
structure IndexCorrect {K P V α : Type} [DecidableEq K] [DecidableEq P] [LinearOrder α]
    {key : V → K} (parent : V → P) (rank : V → α) (r : ChildTable key P)
    (save : V → ChildTable key P) (delete : K → Bool × ChildTable key P) (list : P → List V)
    (deleteBy : P → ℕ × ChildTable key P) : Prop where
  saved : ∀ v u, u ∈ (save v).byKey ↔ u = v ∨ u ∈ r.byKey ∧ key u ≠ key v
  removed : ∀ k, (delete k).1 = (r.byKey.get k).isSome ∧
    ∀ v, v ∈ (delete k).2.byKey ↔ v ∈ r.byKey ∧ key v ≠ k
  listed : ∀ p, (list p).Perm (r.byKey.rows.filter fun v => parent v = p)
  sorted : ∀ p, (list p).Pairwise fun a b => rank a < rank b
  buckets : ∀ p ks, r.byParent.find p = some ks → ks.Nodup ∧ ks ≠ []
  deleted : ∀ p, (deleteBy p).1 = (r.byKey.rows.filter fun v => parent v = p).length ∧
    ∀ v, v ∈ (deleteBy p).2.byKey ↔ v ∈ r.byKey ∧ parent v ≠ p

theorem indexCorrect {K P V α : Type} [DecidableEq K] [DecidableEq P] [LinearOrder α]
    {key : V → K} {parent : V → P} {rank : V → α}
    (hrank : ∀ a b, rank a = rank b → key a = key b) {r : ChildTable key P}
    (h : r.Exact parent) :
    IndexCorrect parent rank r (r.save parent) (r.delete parent) (r.list rank)
      r.deleteByParent where
  saved v u := by
    rw [ChildTable.byKey_save]
    exact Table.mem_save
  removed := ChildTable.delete_eq parent r
  listed := h.list_perm rank
  sorted := h.list_sorted hrank
  buckets := h.valid
  deleted := h.deleteByParent_spec

theorem MemBlocksRepo.run_eq : MemBlocksRepo.run = ChildTable.Call.run Block.assetId := by
  funext r call
  cases call <;> rfl

theorem MemChunksRepo.run_eq : MemChunksRepo.run = ChildTable.Call.run Chunk.chunkSetId := by
  funext r call
  cases call <;> rfl

/-! Different rows have different ranks. -/

theorem Block.id_of_rank (a b : Block) (h : a.rank = b.rank) : a.id = b.id :=
  BlockId.ext (Prod.mk.inj (toLex.injective h)).2

theorem Chunk.id_of_rank (a b : Chunk) (h : a.rank = b.rank) : a.id = b.id :=
  ChunkId.ext (Prod.mk.inj (toLex.injective h)).2

theorem EmbeddingRef.key_of_rank (a b : EmbeddingRef) (h : a.rank = b.rank) : a.key = b.key := by
  obtain ⟨hchunk, hset⟩ := Prod.mk.inj (toLex.injective h)
  exact Prod.ext (ChunkId.ext hchunk) (EmbeddingSetId.ext hset)

/-- The indices of the three repositories are exact after any sequence of calls. -/
theorem child_indices_exact :
    (∀ calls, ∀ r ∈ List.scanl MemBlocksRepo.run MemBlocksRepo.new calls,
      IndexCorrect Block.assetId Block.rank r (MemBlocksRepo.save r) (MemBlocksRepo.delete r)
        (MemBlocksRepo.listByAsset r) (MemBlocksRepo.deleteByAsset r)) ∧
    (∀ calls, ∀ r ∈ List.scanl MemChunksRepo.run MemChunksRepo.new calls,
      IndexCorrect Chunk.chunkSetId Chunk.rank r (MemChunksRepo.save r) (MemChunksRepo.delete r)
        (MemChunksRepo.listBySet r) (MemChunksRepo.deleteBySet r)) ∧
    ∀ calls, ∀ r ∈ List.scanl MemEmbeddingsRepo.run MemEmbeddingsRepo.new calls,
      IndexCorrect EmbeddingRef.embeddingSetId EmbeddingRef.rank r (MemEmbeddingsRepo.save r)
        (MemEmbeddingsRepo.delete r) (MemEmbeddingsRepo.listBySet r)
        (MemEmbeddingsRepo.deleteBySet r) := by
  rw [MemBlocksRepo.run_eq, MemChunksRepo.run_eq, MemEmbeddingsRepo.run_eq]
  refine ⟨?_, ?_, ?_⟩
  · intro calls r hr
    exact indexCorrect Block.id_of_rank (ChildTable.Exact.empty.scanl calls r hr)
  · intro calls r hr
    exact indexCorrect Chunk.id_of_rank (ChildTable.Exact.empty.scanl calls r hr)
  · intro calls r hr
    rw [show MemEmbeddingsRepo.save r = ChildTable.save EmbeddingRef.embeddingSetId r from
      funext (MemEmbeddingsRepo.save_eq r)]
    exact indexCorrect EmbeddingRef.key_of_rank (ChildTable.Exact.empty.scanl calls r hr)

/-- Two blocks of one asset, the first of which moves to another. -/
def movedBlock : List (ChildTable.Call Block BlockId AssetId) :=
  [.save ⟨⟨1⟩, ⟨0⟩, ⟨7⟩, .text, 0, none, none⟩, .save ⟨⟨2⟩, ⟨0⟩, ⟨7⟩, .text, 1, none, none⟩,
    .save ⟨⟨1⟩, ⟨0⟩, ⟨8⟩, .text, 0, none, none⟩]

theorem child_indices_exact_moved :
    ∃ r ∈ List.scanl MemBlocksRepo.run MemBlocksRepo.new movedBlock,
      (MemBlocksRepo.listByAsset r ⟨7⟩).map Block.id = [⟨2⟩] ∧
      (MemBlocksRepo.listByAsset r ⟨8⟩).map Block.id = [⟨1⟩] ∧
      IndexCorrect Block.assetId Block.rank r (MemBlocksRepo.save r) (MemBlocksRepo.delete r)
        (MemBlocksRepo.listByAsset r) (MemBlocksRepo.deleteByAsset r) := by
  have hlast : movedBlock.foldl MemBlocksRepo.run MemBlocksRepo.new ∈
      movedBlock.scanl MemBlocksRepo.run MemBlocksRepo.new := by simp [movedBlock]
  exact ⟨_, hlast, by decide, by decide, child_indices_exact.1 movedBlock _ hlast⟩

end Contexide.StoragePg
