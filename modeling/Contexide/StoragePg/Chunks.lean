import Contexide.Sql.Keyed
import Contexide.StoragePg.Children
import Contexide.StoragePg.Migrations

/-! The repository of chunks over Postgres. A save is one insert, which on a conflict of
identifiers overwrites the columns listed in it; the tenant is not among them. -/

namespace Contexide.StoragePg

open Storage Sql

namespace Chunk

/-- Decode an answer row. -/
def fromRow (row : ResultRow Json) : Except SqlError Chunk := do
  let id ← row.tryGet "id" Value.asUuid
  let chunkSetId ← row.tryGet "chunk_set_id" Value.asUuid
  let tenantId ← row.tryGet "tenant_id" Value.asUuid
  let orderNo ← row.tryGet "order_no" Value.asInt32
  let byteStart ← row.tryGet "byte_start" Value.asInt32
  let byteEnd ← row.tryGet "byte_end" Value.asInt32
  let text ← row.tryGet "text" Value.asText
  let metaJson ← row.tryGet "meta_json" (Value.nullable Value.asText)
  .ok ⟨⟨id⟩, ⟨chunkSetId⟩, ⟨tenantId⟩, orderNo, byteStart, byteEnd, text, metaJson⟩

/-- Decode all answer rows, or fail with the first that cannot be decoded. -/
def fromRows : List (ResultRow Json) → Except SqlError (List Chunk)
  | [] => .ok []
  | row :: rows => do
    let c ← fromRow row
    let cs ← fromRows rows
    .ok (c :: cs)

end Chunk

/-- A call of a repository of chunks. -/
inductive ChunkCall where
  | get (id : ChunkId)
  | save (entity : Chunk)
  | delete (id : ChunkId)
  | listBySet (chunkSetId : ChunkSetId)
  | deleteBySet (chunkSetId : ChunkSetId)

/-- What a call returns. -/
inductive ChunkAnswer where
  | found (c : Option Chunk)
  | saved (c : Chunk)
  | done (b : Bool)
  | listed (cs : List Chunk)
  | removed (n : ℕ)

namespace MemChunksRepo

variable (r : MemChunksRepo)

def get (id : ChunkId) : Option Chunk := r.byKey.get id

/-- The answer of a call and the repository after it. -/
def answer : ChunkCall → ChunkAnswer × MemChunksRepo
  | .get id => (.found (get r id), r)
  | .save entity => (.saved entity, save r entity)
  | .delete id => (.done (delete r id).1, (delete r id).2)
  | .listBySet setId => (.listed (listBySet r setId), r)
  | .deleteBySet setId => (.removed (deleteBySet r setId).1, (deleteBySet r setId).2)

end MemChunksRepo

namespace PgChunksRepo

variable (db : Db Json)

def get (id : ChunkId) : Except SqlError (Option Chunk) := do
  let rows ← db.select
    { table := "chunks",
      columns := ["id", "tenant_id", "chunk_set_id", "order_no", "byte_start", "byte_end", "text",
        "meta_json"],
      whereColumn := "id", orderBy := [] }
    [.uuid id.uuid]
  match rows with
  | [] => .ok none
  | row :: _ => do
    let c ← Chunk.fromRow row
    .ok (some c)

/-- Upsert by id; the answer is the stored row. -/
def save (entity : Chunk) : Except SqlError Chunk × Db Json :=
  match db.insert
    { table := "chunks",
      columns := ["id", "tenant_id", "chunk_set_id", "order_no", "byte_start", "byte_end", "text",
        "meta_json"],
      onConflict := some ("id",
        ["chunk_set_id", "order_no", "byte_start", "byte_end", "text", "meta_json"]),
      returning := ["id", "tenant_id", "chunk_set_id", "order_no", "byte_start", "byte_end",
        "text", "meta_json"] }
    [.uuid entity.id.uuid, .uuid entity.tenantId.uuid, .uuid entity.chunkSetId.uuid,
      .int entity.orderNo.toInt, .int entity.byteStart.toInt, .int entity.byteEnd.toInt,
      .text entity.text, .ofOption .text entity.metaJson] with
  | .ok (db', row) => (Chunk.fromRow row, db')
  | .error e => (.error e, db)

def delete (id : ChunkId) : Except SqlError Bool × Db Json :=
  match db.delete { table := "chunks", whereColumn := "id" } [.uuid id.uuid] with
  | .ok (db', affected) => (.ok (affected == 1), db')
  | .error e => (.error e, db)

def listBySet (chunkSetId : ChunkSetId) : Except SqlError (List Chunk) := do
  let rows ← db.select
    { table := "chunks",
      columns := ["id", "tenant_id", "chunk_set_id", "order_no", "byte_start", "byte_end", "text",
        "meta_json"],
      whereColumn := "chunk_set_id", orderBy := ["order_no", "id"] }
    [.uuid chunkSetId.uuid]
  Chunk.fromRows rows

def deleteBySet (chunkSetId : ChunkSetId) : Except SqlError ℕ × Db Json :=
  match db.delete { table := "chunks", whereColumn := "chunk_set_id" } [.uuid chunkSetId.uuid] with
  | .ok (db', affected) => (.ok affected, db')
  | .error e => (.error e, db)

/-- The answer of a call and the database after it. -/
def answer : ChunkCall → Except SqlError ChunkAnswer × Db Json
  | .get id => ((get db id).map .found, db)
  | .save entity => ((save db entity).1.map .saved, (save db entity).2)
  | .delete id => ((delete db id).1.map .done, (delete db id).2)
  | .listBySet setId => ((listBySet db setId).map .listed, db)
  | .deleteBySet setId => ((deleteBySet db setId).1.map .removed, (deleteBySet db setId).2)

end PgChunksRepo

/-! ### The table of chunks -/

/-- How a chunk is kept in a row. -/
def chunkCodec : Codec Json Chunk where
  table := "chunks"
  tableDef := Migrations.chunks
  columns := ["id", "tenant_id", "chunk_set_id", "order_no", "byte_start", "byte_end", "text",
    "meta_json"]
  key c := c.id.uuid
  encode c col :=
    if col = "id" then .uuid c.id.uuid
    else if col = "tenant_id" then .uuid c.tenantId.uuid
    else if col = "chunk_set_id" then .uuid c.chunkSetId.uuid
    else if col = "order_no" then .int c.orderNo.toInt
    else if col = "byte_start" then .int c.byteStart.toInt
    else if col = "byte_end" then .int c.byteEnd.toInt
    else if col = "text" then .text c.text
    else if col = "meta_json" then .ofOption .text c.metaJson
    else .null
  id_mem := List.mem_cons_self
  encode_id _ := rfl
  unique_eq := rfl
  defined := rfl
  rest := by
    have hrest : ∀ c ∈ Migrations.chunks.columns, c.name ∉ ["id", "tenant_id", "chunk_set_id",
        "order_no", "byte_start", "byte_end", "text", "meta_json"] → c = Migrations.createdAt := by
      intro c hc hm
      simp only [Migrations.chunks, List.mem_cons, List.not_mem_nil, or_false] at hc
      rcases hc with rfl | rfl | rfl | rfl | rfl | rfl | rfl | rfl | rfl <;>
        first | rfl | exact absurd (by decide) hm
    intro c hc hm
    rw [hrest c hc hm]
    exact ⟨rfl, fun _ => rfl⟩
  not_self := by
    intro c hc
    simp only [Migrations.chunks, List.mem_cons, List.not_mem_nil, or_false] at hc
    rcases hc with rfl | rfl | rfl | rfl | rfl | rfl | rfl | rfl | rfl <;> decide

theorem nullable_ofOption (t : Option String) :
    Value.nullable Value.asText (.ofOption .text t : Value Json) = some t := by
  cases t <;> rfl

theorem Chunk.fromRow_answer (c : Chunk) : Chunk.fromRow (chunkCodec.answer c) = .ok c := by
  have hint : ∀ n : Int32, Value.asInt32 (.int n.toInt : Value Json) = some n :=
    fun n => congrArg some n.ofInt_toInt
  have horder : (chunkCodec.answer c).tryGet "order_no" Value.asInt32 = .ok c.orderNo :=
    ResultRow.tryGet_project (by decide) (hint c.orderNo)
  have hstart : (chunkCodec.answer c).tryGet "byte_start" Value.asInt32 = .ok c.byteStart :=
    ResultRow.tryGet_project (by decide) (hint c.byteStart)
  have hend : (chunkCodec.answer c).tryGet "byte_end" Value.asInt32 = .ok c.byteEnd :=
    ResultRow.tryGet_project (by decide) (hint c.byteEnd)
  have hmeta : (chunkCodec.answer c).tryGet "meta_json" (Value.nullable Value.asText) =
      .ok c.metaJson := ResultRow.tryGet_project (by decide) (nullable_ofOption c.metaJson)
  rw [Chunk.fromRow, horder, hstart, hend, hmeta]
  rfl

theorem Chunk.fromRows_answer (cs : List Chunk) :
    Chunk.fromRows (cs.map chunkCodec.answer) = .ok cs := by
  induction cs with
  | nil => rfl
  | cons c cs ih =>
    rw [List.map_cons, Chunk.fromRows, Chunk.fromRow_answer, ih]
    rfl

/-- The order of a listing is the order of the ranks. -/
theorem precedes_iff (a b : Chunk) :
    Row.precedes ["order_no", "id"] (chunkCodec.encode a) (chunkCodec.encode b) = true ↔
      a.rank ≤ b.rank := by
  have hprec : Row.precedes ["order_no", "id"] (chunkCodec.encode a) (chunkCodec.encode b) =
      (decide (a.orderNo.toInt < b.orderNo.toInt) || (!decide (b.orderNo.toInt < a.orderNo.toInt) &&
        (decide (a.id.uuid < b.id.uuid) || (!decide (b.id.uuid < a.id.uuid) && true)))) := rfl
  rw [hprec, Chunk.rank, Chunk.rank, Prod.Lex.toLex_le_toLex]
  have hlex : ∀ (m n : ℤ) (j k : ℕ),
      m < n ∨ ¬ n < m ∧ (j < k ∨ ¬ k < j) ↔ m < n ∨ m = n ∧ j ≤ k := by omega
  simp only [Bool.and_true, Bool.or_eq_true, Bool.and_eq_true, Bool.not_eq_true',
    decide_eq_true_eq, decide_eq_false_iff_not]
  exact hlex _ _ _ _

/-- The owners of a chunk are stored. -/
structure Chunk.Owned (db : Db Json) (c : Chunk) : Prop where
  tenant : HasTenant db c.tenantId
  chunkSet : HasChunkSet db c.chunkSetId

theorem hasType_int (n : Int32) : (Value.int n.toInt : Value Json).hasType .int = true :=
  decide_eq_true ⟨n.le_toInt, n.toInt_lt⟩

theorem chunkCodec_valid {db : Db Json} {c : Chunk} (h : c.Owned db) : chunkCodec.Valid db c := by
  have hint : ∀ (name : String) (n : Int32),
      Db.cellViolations (Migrations.required name .int) (.int n.toInt : Value Json) = [] := by
    intro name n
    rw [Db.cellViolations, Migrations.required, hasType_int]
    rfl
  intro col hc hm
  simp only [chunkCodec, Migrations.chunks, List.mem_cons, List.not_mem_nil, or_false] at hc
  rcases hc with rfl | rfl | rfl | rfl | rfl | rfl | rfl | rfl | rfl
  · exact ⟨rfl, rfl⟩
  · exact ⟨rfl, Db.referenceViolations_eq_nil rfl h.tenant⟩
  · exact ⟨rfl, Db.referenceViolations_eq_nil rfl h.chunkSet⟩
  · exact ⟨hint _ c.orderNo, rfl⟩
  · exact ⟨hint _ c.byteStart, rfl⟩
  · exact ⟨hint _ c.byteEnd, rfl⟩
  · exact ⟨rfl, rfl⟩
  · refine ⟨?_, rfl⟩
    show Db.cellViolations _ (.ofOption .text c.metaJson) = []
    cases c.metaJson <;> rfl
  · exact absurd hm (by decide)

end Contexide.StoragePg
