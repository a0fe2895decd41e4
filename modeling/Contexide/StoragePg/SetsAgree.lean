import Contexide.Sql.CodecStore
import Contexide.Storage.ChildStore
import Contexide.StoragePg.Chunks
import Contexide.StoragePg.PgTenants
import Contexide.StoragePg.Sets

/-! The repositories of chunk sets and embedding sets over Postgres, each against the one in
memory. A save overwrites every column here, so that the two agree as long as the texts can
be sent to the database and created identifiers are new. -/

namespace Contexide.StoragePg

open Storage Sql

theorem violations_int (name : String) (n : Int32) :
    Db.cellViolations (Migrations.required name .int) (.int n.toInt : Value Json) = [] := by
  rw [Db.cellViolations, Migrations.required, hasType_int]
  rfl

/-! ### Chunk sets -/

/-- Decode an answer row. -/
def ChunkSet.fromRow (row : ResultRow Json) : Except SqlError ChunkSet := do
  let id ← row.tryGet "id" Value.asUuid
  let tenantId ← row.tryGet "tenant_id" Value.asUuid
  let documentId ← row.tryGet "document_id" Value.asUuid
  let profileHash ← row.tryGet "profile_hash" Value.asText
  let finalized ← row.tryGet "finalized" Value.asBool
  .ok ⟨⟨id⟩, ⟨tenantId⟩, ⟨documentId⟩, profileHash, finalized⟩

/-- A call of a repository of chunk sets. A creation comes with the identifier that is
drawn. -/
inductive ChunkSetCall where
  | get (id : ChunkSetId)
  | save (entity : ChunkSet)
  | delete (id : ChunkSetId)
  | create (id : ChunkSetId) (tenantId : TenantId) (documentId : DocumentId) (profileHash : String)
  | markFinalized (id : ChunkSetId)
  | listByDocument (documentId : DocumentId)

abbrev ChunkSetAnswer := StoreAnswer ChunkSetId ChunkSet

/-- The answer of a call and the repository after it. -/
def MemChunkSetsRepo.answer (r : MemChunkSetsRepo) :
    ChunkSetCall → ChunkSetAnswer × MemChunkSetsRepo
  | .get id => (.found (get r id), r)
  | .save entity => (.saved entity, save r entity)
  | .delete id => (.done (delete r id).1, (delete r id).2)
  | .create id tenantId documentId profileHash =>
    (.created (create r id tenantId documentId profileHash).1,
      (create r id tenantId documentId profileHash).2)
  | .markFinalized id => (.done (markFinalized r id).1, (markFinalized r id).2)
  | .listByDocument documentId => (.listed (listByDocument r documentId), r)

namespace PgChunkSetsRepo

variable (db : Db Json)

def get (id : ChunkSetId) : Except SqlError (Option ChunkSet) := do
  let rows ← db.select
    { table := "chunk_sets",
      columns := ["id", "tenant_id", "document_id", "profile_hash", "finalized"],
      whereColumn := "id", orderBy := [] }
    [.uuid id.uuid]
  fetchOptional ChunkSet.fromRow rows

/-- Upsert by id; the answer is the stored row. -/
def save (entity : ChunkSet) : Except SqlError ChunkSet × Db Json :=
  db.settle ChunkSet.fromRow (db.insert
    { table := "chunk_sets",
      columns := ["id", "tenant_id", "document_id", "profile_hash", "finalized"],
      onConflict := some ("id", ["tenant_id", "document_id", "profile_hash", "finalized"]),
      returning := ["id", "tenant_id", "document_id", "profile_hash", "finalized"] }
    [.uuid entity.id.uuid, .uuid entity.tenantId.uuid, .uuid entity.documentId.uuid,
      .text entity.profileHash, .bool entity.finalized])

def delete (id : ChunkSetId) : Except SqlError Bool × Db Json :=
  db.settle (fun affected => .ok (affected == 1))
    (db.delete { table := "chunk_sets", whereColumn := "id" } [.uuid id.uuid])

/-- The last value is the literal `false` of the statement. -/
def create (id : ChunkSetId) (tenantId : TenantId) (documentId : DocumentId)
    (profileHash : String) : Except SqlError ChunkSetId × Db Json :=
  db.settle (fun row => (row.tryGet "id" Value.asUuid).map ChunkSetId.mk) (db.insert
    { table := "chunk_sets",
      columns := ["id", "tenant_id", "document_id", "profile_hash", "finalized"],
      onConflict := none, returning := ["id"] }
    [.uuid id.uuid, .uuid tenantId.uuid, .uuid documentId.uuid, .text profileHash, .bool false])

/-- The second value is the literal `true` of the statement. -/
def markFinalized (id : ChunkSetId) : Except SqlError Bool × Db Json :=
  db.settle (fun affected => .ok (affected == 1))
    (db.update { table := "chunk_sets", set := [("finalized", 2)], whereColumn := "id" }
      [.uuid id.uuid, .bool true])

def listByDocument (documentId : DocumentId) : Except QueryError (List ChunkSet) := do
  let rows ← db.query
    { table := "chunk_sets",
      columns := ["id", "tenant_id", "document_id", "profile_hash", "finalized"],
      whereColumns := ["document_id"], orderBy := ["id"], limited := false }
    [.uuid documentId.uuid]
  (fetchAll ChunkSet.fromRow rows).mapError .sql

/-- The answer of a call and the database after it. -/
def answer : ChunkSetCall → Except QueryError ChunkSetAnswer × Db Json
  | .get id => (((get db id).map .found).mapError .sql, db)
  | .save entity => (((save db entity).1.map .saved).mapError .sql, (save db entity).2)
  | .delete id => (((delete db id).1.map .done).mapError .sql, (delete db id).2)
  | .create id tenantId documentId profileHash =>
    (((create db id tenantId documentId profileHash).1.map .created).mapError .sql,
      (create db id tenantId documentId profileHash).2)
  | .markFinalized id =>
    (((markFinalized db id).1.map .done).mapError .sql, (markFinalized db id).2)
  | .listByDocument documentId => ((listByDocument db documentId).map .listed, db)

end PgChunkSetsRepo

/-- How a chunk set is kept in a row. -/
def chunkSetCodec : Codec Json ChunkSet where
  table := "chunk_sets"
  tableDef := Migrations.chunkSets
  columns := ["id", "tenant_id", "document_id", "profile_hash", "finalized"]
  key cs := cs.id.uuid
  encode cs col :=
    if col = "id" then .uuid cs.id.uuid
    else if col = "tenant_id" then .uuid cs.tenantId.uuid
    else if col = "document_id" then .uuid cs.documentId.uuid
    else if col = "profile_hash" then .text cs.profileHash
    else if col = "finalized" then .bool cs.finalized
    else .null
  id_mem := List.mem_cons_self
  encode_id _ := rfl
  unique_eq := rfl
  defined := rfl
  rest := by
    have hrest : ∀ c ∈ Migrations.chunkSets.columns, c.name ∉ ["id", "tenant_id", "document_id",
        "profile_hash", "finalized"] → c = Migrations.createdAt := by
      intro c hc hm
      simp only [Migrations.chunkSets, List.mem_cons, List.not_mem_nil, or_false] at hc
      rcases hc with rfl | rfl | rfl | rfl | rfl | rfl <;>
        first | rfl | exact absurd (by decide) hm
    intro c hc hm
    rw [hrest c hc hm]
    exact ⟨rfl, fun _ => rfl⟩
  not_self := by
    intro c hc
    simp only [Migrations.chunkSets, List.mem_cons, List.not_mem_nil, or_false] at hc
    rcases hc with rfl | rfl | rfl | rfl | rfl | rfl <;> decide

/-- The owners of a chunk set are stored. -/
structure ChunkSet.Owned (db : Db Json) (cs : ChunkSet) : Prop where
  tenant : HasTenant db cs.tenantId
  document : HasDocument db cs.documentId

theorem chunkSetCodec_valid {db : Db Json} {cs : ChunkSet} (h : cs.Owned db) :
    chunkSetCodec.Valid db cs := by
  intro col hc hm
  simp only [chunkSetCodec, Migrations.chunkSets, List.mem_cons, List.not_mem_nil, or_false] at hc
  rcases hc with rfl | rfl | rfl | rfl | rfl | rfl
  · exact ⟨rfl, rfl⟩
  · exact ⟨rfl, Db.referenceViolations_eq_nil rfl h.tenant⟩
  · exact ⟨rfl, Db.referenceViolations_eq_nil rfl h.document⟩
  · exact ⟨rfl, rfl⟩
  · exact ⟨rfl, rfl⟩
  · exact absurd hm (by decide)

/-- Chunk sets are finalized, and listed by document. -/
def chunkSetRows : RowStore ChunkSet.id Unit DocumentId where
  number id := id.uuid
  number_inj _ _ := ChunkSetId.ext
  alter _ cs := { cs with finalized := true }
  key_alter _ _ := rfl
  selects documentId cs := decide (cs.documentId = documentId)
  limit _ := none

def chunkSetStore : CodecStore Json ChunkSet.id Unit DocumentId where
  store := chunkSetRows
  codec := chunkSetCodec
  codec_key _ := rfl
  decode := ChunkSet.fromRow
  decode_answer _ := rfl
  ofNumber := ChunkSetId.mk
  ofNumber_number _ := rfl
  overwritten := ["tenant_id", "document_id", "profile_hash", "finalized"]
  overwritten_subset := by decide
  eq_id_of_not_overwritten := by decide
  assigned _ := ("finalized", .bool true)
  assigned_mem _ := by decide
  assigned_encodable _ := rfl
  encode_alter := by
    intro _ cs c hc
    simp only [chunkSetCodec, List.mem_cons, List.not_mem_nil, or_false] at hc
    rcases hc with rfl | rfl | rfl | rfl | rfl <;> rfl
  assigned_valid := by
    intro db _ c hc hname
    simp only [chunkSetCodec, Migrations.chunkSets, List.mem_cons, List.not_mem_nil, or_false]
      at hc
    rcases hc with rfl | rfl | rfl | rfl | rfl | rfl <;>
      first | exact ⟨rfl, rfl⟩ | exact absurd hname (by decide)
  conditions documentId := [("document_id", .uuid documentId.uuid)]
  conditions_mem := by
    intro _ c hc
    rw [List.mem_singleton.mp hc]
    show "document_id" ∈ ["id", "tenant_id", "document_id", "profile_hash", "finalized"]
    decide
  conditions_encodable _ := rfl
  selects_eq := by
    intro documentId cs
    show _ = ((Value.uuid cs.documentId.uuid).sqlEq (.uuid documentId.uuid) && true)
    rw [Value.sqlEq_uuid, Bool.and_true]
    exact decide_eq_decide.mpr DocumentId.ext_iff

namespace ChunkSetCall

/-- What the call does with the table. -/
def toStore : ChunkSetCall → StoreCall ChunkSetId ChunkSet Unit DocumentId
  | .get id => .get id
  | .save entity => .save entity
  | .delete id => .delete id
  | .create id tenantId documentId profileHash =>
    .create { id, tenantId, documentId, profileHash, finalized := false }
  | .markFinalized id => .alter id ()
  | .listByDocument documentId => .list documentId

/-- The owners of a chunk set that is stored are stored. -/
def Assumed (db : Db Json) : ChunkSetCall → MemChunkSetsRepo → Prop
  | .save entity, _ => entity.Owned db
  | .create _ tenantId documentId _, _ => HasTenant db tenantId ∧ HasDocument db documentId
  | _, _ => True

/-- The text of a chunk set can be sent, and a created identifier is new. -/
def Good : ChunkSetCall → MemChunkSetsRepo → Prop
  | .save entity, _ => Sendable entity.profileHash
  | .create id _ _ profileHash, m => Sendable profileHash ∧ MemChunkSetsRepo.get m id = none
  | _, _ => True

end ChunkSetCall

/-- The statements are those of a repository of rows. -/
theorem PgChunkSetsRepo.answer_eq (db : Db Json) (call : ChunkSetCall) :
    answer db call = chunkSetStore.answer db call.toStore := by
  cases call <;> rfl

theorem MemChunkSetsRepo.refines :
    chunkSetRows.Refines ChunkSetCall.toStore MemChunkSetsRepo.answer ChildTable.byKey
      (ChildTable.Exact ChunkSet.documentId) := by
  refine (ChildTable.refines (fun _ _ => rfl) (fun _ _ => rfl) fun _ => rfl).of_eq fun m c => ?_
  cases c <;> rfl

theorem ChunkSet.encodable_params (cs : ChunkSet) :
    (chunkSetStore.codec.params cs).all Value.encodable = true ↔ Sendable cs.profileHash := by
  rw [← encodable_text]
  show ([.uuid cs.id.uuid, .uuid cs.tenantId.uuid, .uuid cs.documentId.uuid, .text cs.profileHash,
    .bool cs.finalized] : List (Value Json)).all Value.encodable = true ↔ _
  simp [Value.encodable]

theorem ChunkSetCall.good_iff (call : ChunkSetCall) (m : MemChunkSetsRepo) :
    call.Good m ↔ chunkSetStore.Good m.byKey call.toStore := by
  cases call with
  | save entity => exact entity.encodable_params.symm
  | create id tenantId documentId profileHash =>
    exact and_congr (ChunkSet.encodable_params ⟨id, tenantId, documentId, profileHash, false⟩).symm
      Table.get_eq_none
  | listByDocument documentId =>
    exact iff_of_true trivial fun _ hn => absurd hn (by simp [chunkSetStore, chunkSetRows])
  | get id => exact Iff.rfl
  | delete id => exact Iff.rfl
  | markFinalized id => exact Iff.rfl

theorem ChunkSetCall.store_assumed {db : Db Json} {call : ChunkSetCall} {m : MemChunkSetsRepo}
    (h : call.Assumed db m) : chunkSetStore.Assumed db call.toStore := by
  cases call with
  | save entity => exact chunkSetCodec_valid h
  | create id tenantId documentId profileHash => exact chunkSetCodec_valid ⟨h.1, h.2⟩
  | listByDocument documentId =>
    exact fun _ hn => absurd hn (by simp [chunkSetStore, chunkSetRows])
  | get id => trivial
  | delete id => trivial
  | markFinalized id => trivial

/-! ### Embedding sets -/

/-- Decode an answer row. -/
def EmbeddingSet.fromRow (row : ResultRow Json) : Except SqlError EmbeddingSet := do
  let id ← row.tryGet "id" Value.asUuid
  let tenantId ← row.tryGet "tenant_id" Value.asUuid
  let chunkSetId ← row.tryGet "chunk_set_id" Value.asUuid
  let modelKind ← row.tryGet "model_kind" Value.asText
  let modelVersion ← row.tryGet "model_version" Value.asText
  let dim ← row.tryGet "dim" Value.asInt32
  let metric ← row.tryGet "metric" Value.asText
  let ready ← row.tryGet "ready" Value.asBool
  .ok ⟨⟨id⟩, ⟨tenantId⟩, ⟨chunkSetId⟩, modelKind, modelVersion, dim, metric, ready⟩

/-- A call of a repository of embedding sets. A creation comes with the identifier that is
drawn. -/
inductive EmbeddingSetCall where
  | get (id : EmbeddingSetId)
  | save (entity : EmbeddingSet)
  | delete (id : EmbeddingSetId)
  | create (id : EmbeddingSetId) (tenantId : TenantId) (chunkSetId : ChunkSetId)
    (modelKind modelVersion : String) (dim : Int32) (metric : String)
  | markReady (id : EmbeddingSetId)
  | listByChunkSet (chunkSetId : ChunkSetId)

abbrev EmbeddingSetAnswer := StoreAnswer EmbeddingSetId EmbeddingSet

/-- The answer of a call and the repository after it. -/
def MemEmbeddingSetsRepo.answer (r : MemEmbeddingSetsRepo) :
    EmbeddingSetCall → EmbeddingSetAnswer × MemEmbeddingSetsRepo
  | .get id => (.found (get r id), r)
  | .save entity => (.saved entity, save r entity)
  | .delete id => (.done (delete r id).1, (delete r id).2)
  | .create id tenantId chunkSetId modelKind modelVersion dim metric =>
    (.created (create r id tenantId chunkSetId modelKind modelVersion dim metric).1,
      (create r id tenantId chunkSetId modelKind modelVersion dim metric).2)
  | .markReady id => (.done (markReady r id).1, (markReady r id).2)
  | .listByChunkSet chunkSetId => (.listed (listByChunkSet r chunkSetId), r)

namespace PgEmbeddingSetsRepo

variable (db : Db Json)

def get (id : EmbeddingSetId) : Except SqlError (Option EmbeddingSet) := do
  let rows ← db.select
    { table := "embedding_sets",
      columns := ["id", "tenant_id", "chunk_set_id", "model_kind", "model_version", "dim",
        "metric", "ready"],
      whereColumn := "id", orderBy := [] }
    [.uuid id.uuid]
  fetchOptional EmbeddingSet.fromRow rows

/-- Upsert by id; the answer is the stored row. -/
def save (entity : EmbeddingSet) : Except SqlError EmbeddingSet × Db Json :=
  db.settle EmbeddingSet.fromRow (db.insert
    { table := "embedding_sets",
      columns := ["id", "tenant_id", "chunk_set_id", "model_kind", "model_version", "dim",
        "metric", "ready"],
      onConflict := some ("id",
        ["tenant_id", "chunk_set_id", "model_kind", "model_version", "dim", "metric", "ready"]),
      returning := ["id", "tenant_id", "chunk_set_id", "model_kind", "model_version", "dim",
        "metric", "ready"] }
    [.uuid entity.id.uuid, .uuid entity.tenantId.uuid, .uuid entity.chunkSetId.uuid,
      .text entity.modelKind, .text entity.modelVersion, .int entity.dim.toInt,
      .text entity.metric, .bool entity.ready])

def delete (id : EmbeddingSetId) : Except SqlError Bool × Db Json :=
  db.settle (fun affected => .ok (affected == 1))
    (db.delete { table := "embedding_sets", whereColumn := "id" } [.uuid id.uuid])

/-- The last value is the literal `false` of the statement. -/
def create (id : EmbeddingSetId) (tenantId : TenantId) (chunkSetId : ChunkSetId)
    (modelKind modelVersion : String) (dim : Int32) (metric : String) :
    Except SqlError EmbeddingSetId × Db Json :=
  db.settle (fun row => (row.tryGet "id" Value.asUuid).map EmbeddingSetId.mk) (db.insert
    { table := "embedding_sets",
      columns := ["id", "tenant_id", "chunk_set_id", "model_kind", "model_version", "dim",
        "metric", "ready"],
      onConflict := none, returning := ["id"] }
    [.uuid id.uuid, .uuid tenantId.uuid, .uuid chunkSetId.uuid, .text modelKind,
      .text modelVersion, .int dim.toInt, .text metric, .bool false])

/-- The second value is the literal `true` of the statement. -/
def markReady (id : EmbeddingSetId) : Except SqlError Bool × Db Json :=
  db.settle (fun affected => .ok (affected == 1))
    (db.update { table := "embedding_sets", set := [("ready", 2)], whereColumn := "id" }
      [.uuid id.uuid, .bool true])

def listByChunkSet (chunkSetId : ChunkSetId) : Except QueryError (List EmbeddingSet) := do
  let rows ← db.query
    { table := "embedding_sets",
      columns := ["id", "tenant_id", "chunk_set_id", "model_kind", "model_version", "dim",
        "metric", "ready"],
      whereColumns := ["chunk_set_id"], orderBy := ["id"], limited := false }
    [.uuid chunkSetId.uuid]
  (fetchAll EmbeddingSet.fromRow rows).mapError .sql

/-- The answer of a call and the database after it. -/
def answer : EmbeddingSetCall → Except QueryError EmbeddingSetAnswer × Db Json
  | .get id => (((get db id).map .found).mapError .sql, db)
  | .save entity => (((save db entity).1.map .saved).mapError .sql, (save db entity).2)
  | .delete id => (((delete db id).1.map .done).mapError .sql, (delete db id).2)
  | .create id tenantId chunkSetId modelKind modelVersion dim metric =>
    (((create db id tenantId chunkSetId modelKind modelVersion dim metric).1.map
        .created).mapError .sql,
      (create db id tenantId chunkSetId modelKind modelVersion dim metric).2)
  | .markReady id => (((markReady db id).1.map .done).mapError .sql, (markReady db id).2)
  | .listByChunkSet chunkSetId => ((listByChunkSet db chunkSetId).map .listed, db)

end PgEmbeddingSetsRepo

/-- How an embedding set is kept in a row. -/
def embeddingSetCodec : Codec Json EmbeddingSet where
  table := "embedding_sets"
  tableDef := Migrations.embeddingSets
  columns := ["id", "tenant_id", "chunk_set_id", "model_kind", "model_version", "dim", "metric",
    "ready"]
  key es := es.id.uuid
  encode es col :=
    if col = "id" then .uuid es.id.uuid
    else if col = "tenant_id" then .uuid es.tenantId.uuid
    else if col = "chunk_set_id" then .uuid es.chunkSetId.uuid
    else if col = "model_kind" then .text es.modelKind
    else if col = "model_version" then .text es.modelVersion
    else if col = "dim" then .int es.dim.toInt
    else if col = "metric" then .text es.metric
    else if col = "ready" then .bool es.ready
    else .null
  id_mem := List.mem_cons_self
  encode_id _ := rfl
  unique_eq := rfl
  defined := rfl
  rest := by
    have hrest : ∀ c ∈ Migrations.embeddingSets.columns, c.name ∉ ["id", "tenant_id",
        "chunk_set_id", "model_kind", "model_version", "dim", "metric", "ready"] →
        c = Migrations.createdAt := by
      intro c hc hm
      simp only [Migrations.embeddingSets, List.mem_cons, List.not_mem_nil, or_false] at hc
      rcases hc with rfl | rfl | rfl | rfl | rfl | rfl | rfl | rfl | rfl <;>
        first | rfl | exact absurd (by decide) hm
    intro c hc hm
    rw [hrest c hc hm]
    exact ⟨rfl, fun _ => rfl⟩
  not_self := by
    intro c hc
    simp only [Migrations.embeddingSets, List.mem_cons, List.not_mem_nil, or_false] at hc
    rcases hc with rfl | rfl | rfl | rfl | rfl | rfl | rfl | rfl | rfl <;> decide

/-- The owners of an embedding set are stored. -/
structure EmbeddingSet.Owned (db : Db Json) (es : EmbeddingSet) : Prop where
  tenant : HasTenant db es.tenantId
  chunkSet : HasChunkSet db es.chunkSetId

theorem embeddingSetCodec_valid {db : Db Json} {es : EmbeddingSet} (h : es.Owned db) :
    embeddingSetCodec.Valid db es := by
  intro col hc hm
  simp only [embeddingSetCodec, Migrations.embeddingSets, List.mem_cons, List.not_mem_nil,
    or_false] at hc
  rcases hc with rfl | rfl | rfl | rfl | rfl | rfl | rfl | rfl | rfl
  · exact ⟨rfl, rfl⟩
  · exact ⟨rfl, Db.referenceViolations_eq_nil rfl h.tenant⟩
  · exact ⟨rfl, Db.referenceViolations_eq_nil rfl h.chunkSet⟩
  · exact ⟨rfl, rfl⟩
  · exact ⟨rfl, rfl⟩
  · exact ⟨violations_int _ es.dim, rfl⟩
  · exact ⟨rfl, rfl⟩
  · exact ⟨rfl, rfl⟩
  · exact absurd hm (by decide)

theorem EmbeddingSet.fromRow_answer (es : EmbeddingSet) :
    EmbeddingSet.fromRow (embeddingSetCodec.answer es) = .ok es := by
  have hdim : (embeddingSetCodec.answer es).tryGet "dim" Value.asInt32 = .ok es.dim :=
    ResultRow.tryGet_project (by decide) (congrArg some es.dim.ofInt_toInt)
  rw [EmbeddingSet.fromRow, hdim]
  rfl

/-- Embedding sets become ready, and are listed by chunk set. -/
def embeddingSetRows : RowStore EmbeddingSet.id Unit ChunkSetId where
  number id := id.uuid
  number_inj _ _ := EmbeddingSetId.ext
  alter _ es := { es with ready := true }
  key_alter _ _ := rfl
  selects chunkSetId es := decide (es.chunkSetId = chunkSetId)
  limit _ := none

def embeddingSetStore : CodecStore Json EmbeddingSet.id Unit ChunkSetId where
  store := embeddingSetRows
  codec := embeddingSetCodec
  codec_key _ := rfl
  decode := EmbeddingSet.fromRow
  decode_answer := EmbeddingSet.fromRow_answer
  ofNumber := EmbeddingSetId.mk
  ofNumber_number _ := rfl
  overwritten :=
    ["tenant_id", "chunk_set_id", "model_kind", "model_version", "dim", "metric", "ready"]
  overwritten_subset := by decide
  eq_id_of_not_overwritten := by decide
  assigned _ := ("ready", .bool true)
  assigned_mem _ := by decide
  assigned_encodable _ := rfl
  encode_alter := by
    intro _ es c hc
    simp only [embeddingSetCodec, List.mem_cons, List.not_mem_nil, or_false] at hc
    rcases hc with rfl | rfl | rfl | rfl | rfl | rfl | rfl | rfl <;> rfl
  assigned_valid := by
    intro db _ c hc hname
    simp only [embeddingSetCodec, Migrations.embeddingSets, List.mem_cons, List.not_mem_nil,
      or_false] at hc
    rcases hc with rfl | rfl | rfl | rfl | rfl | rfl | rfl | rfl | rfl <;>
      first | exact ⟨rfl, rfl⟩ | exact absurd hname (by decide)
  conditions chunkSetId := [("chunk_set_id", .uuid chunkSetId.uuid)]
  conditions_mem := by
    intro _ c hc
    rw [List.mem_singleton.mp hc]
    exact List.mem_cons_of_mem _ (List.mem_cons_of_mem _ List.mem_cons_self)
  conditions_encodable _ := rfl
  selects_eq := by
    intro chunkSetId es
    show _ = ((Value.uuid es.chunkSetId.uuid).sqlEq (.uuid chunkSetId.uuid) && true)
    rw [Value.sqlEq_uuid, Bool.and_true]
    exact decide_eq_decide.mpr ChunkSetId.ext_iff

/-- The texts of an embedding set can be sent to the database. -/
def EmbeddingSet.TextsSendable (es : EmbeddingSet) : Prop :=
  Sendable es.modelKind ∧ Sendable es.modelVersion ∧ Sendable es.metric

namespace EmbeddingSetCall

/-- What the call does with the table. -/
def toStore : EmbeddingSetCall → StoreCall EmbeddingSetId EmbeddingSet Unit ChunkSetId
  | .get id => .get id
  | .save entity => .save entity
  | .delete id => .delete id
  | .create id tenantId chunkSetId modelKind modelVersion dim metric =>
    .create { id, tenantId, chunkSetId, modelKind, modelVersion, dim, metric, ready := false }
  | .markReady id => .alter id ()
  | .listByChunkSet chunkSetId => .list chunkSetId

/-- The owners of an embedding set that is stored are stored. -/
def Assumed (db : Db Json) : EmbeddingSetCall → MemEmbeddingSetsRepo → Prop
  | .save entity, _ => entity.Owned db
  | .create _ tenantId chunkSetId _ _ _ _, _ => HasTenant db tenantId ∧ HasChunkSet db chunkSetId
  | _, _ => True

/-- The texts of an embedding set can be sent, and a created identifier is new. -/
def Good : EmbeddingSetCall → MemEmbeddingSetsRepo → Prop
  | .save entity, _ => entity.TextsSendable
  | .create id _ _ modelKind modelVersion _ metric, m =>
    (Sendable modelKind ∧ Sendable modelVersion ∧ Sendable metric) ∧
      MemEmbeddingSetsRepo.get m id = none
  | _, _ => True

end EmbeddingSetCall

/-- The statements are those of a repository of rows. -/
theorem PgEmbeddingSetsRepo.answer_eq (db : Db Json) (call : EmbeddingSetCall) :
    answer db call = embeddingSetStore.answer db call.toStore := by
  cases call <;> rfl

theorem MemEmbeddingSetsRepo.refines :
    embeddingSetRows.Refines EmbeddingSetCall.toStore MemEmbeddingSetsRepo.answer
      ChildTable.byKey (ChildTable.Exact EmbeddingSet.chunkSetId) := by
  refine (ChildTable.refines (fun _ _ => rfl) (fun _ _ => rfl) fun _ => rfl).of_eq fun m c => ?_
  cases c <;> rfl

theorem EmbeddingSet.encodable_params (es : EmbeddingSet) :
    (embeddingSetStore.codec.params es).all Value.encodable = true ↔ es.TextsSendable := by
  rw [TextsSendable, ← encodable_text, ← encodable_text, ← encodable_text]
  show ([.uuid es.id.uuid, .uuid es.tenantId.uuid, .uuid es.chunkSetId.uuid, .text es.modelKind,
    .text es.modelVersion, .int es.dim.toInt, .text es.metric, .bool es.ready] :
      List (Value Json)).all Value.encodable = true ↔ _
  simp [Value.encodable]

theorem EmbeddingSetCall.good_iff (call : EmbeddingSetCall) (m : MemEmbeddingSetsRepo) :
    call.Good m ↔ embeddingSetStore.Good m.byKey call.toStore := by
  cases call with
  | save entity => exact entity.encodable_params.symm
  | create id tenantId chunkSetId modelKind modelVersion dim metric =>
    exact and_congr (EmbeddingSet.encodable_params
      ⟨id, tenantId, chunkSetId, modelKind, modelVersion, dim, metric, false⟩).symm
      Table.get_eq_none
  | listByChunkSet chunkSetId =>
    exact iff_of_true trivial fun _ hn => absurd hn (by simp [embeddingSetStore, embeddingSetRows])
  | get id => exact Iff.rfl
  | delete id => exact Iff.rfl
  | markReady id => exact Iff.rfl

theorem EmbeddingSetCall.store_assumed {db : Db Json} {call : EmbeddingSetCall}
    {m : MemEmbeddingSetsRepo} (h : call.Assumed db m) :
    embeddingSetStore.Assumed db call.toStore := by
  cases call with
  | save entity => exact embeddingSetCodec_valid h
  | create id tenantId chunkSetId modelKind modelVersion dim metric =>
    exact embeddingSetCodec_valid ⟨h.1, h.2⟩
  | listByChunkSet chunkSetId =>
    exact fun _ hn => absurd hn (by simp [embeddingSetStore, embeddingSetRows])
  | get id => trivial
  | delete id => trivial
  | markReady id => trivial

/-! ### Every sequence of calls -/

section

variable {db : Db Json}

theorem chunkSets_answerAlike_iff (hschema : db.schema = migrated)
    (hempty : db.rows "chunk_sets" = []) (calls : List ChunkSetCall)
    (hassumed : Along (fun m c => (MemChunkSetsRepo.answer m c).2) (ChunkSetCall.Assumed db) calls
      MemChunkSetsRepo.new) :
    CodecStore.AnswerAlike MemChunkSetsRepo.answer PgChunkSetsRepo.answer calls
        MemChunkSetsRepo.new db ↔
      Along (fun m c => (MemChunkSetsRepo.answer m c).2) ChunkSetCall.Good calls
        MemChunkSetsRepo.new :=
  chunkSetStore.answerAlike_iff MemChunkSetsRepo.refines PgChunkSetsRepo.answer_eq
    (fun _ _ => ChunkSetCall.store_assumed) ChunkSetCall.good_iff .empty
    (.initial (hschema ▸ rfl) hempty fun _ => List.not_mem_nil) calls hassumed

theorem embeddingSets_answerAlike_iff (hschema : db.schema = migrated)
    (hempty : db.rows "embedding_sets" = []) (calls : List EmbeddingSetCall)
    (hassumed : Along (fun m c => (MemEmbeddingSetsRepo.answer m c).2)
      (EmbeddingSetCall.Assumed db) calls MemEmbeddingSetsRepo.new) :
    CodecStore.AnswerAlike MemEmbeddingSetsRepo.answer PgEmbeddingSetsRepo.answer calls
        MemEmbeddingSetsRepo.new db ↔
      Along (fun m c => (MemEmbeddingSetsRepo.answer m c).2) EmbeddingSetCall.Good calls
        MemEmbeddingSetsRepo.new :=
  embeddingSetStore.answerAlike_iff MemEmbeddingSetsRepo.refines PgEmbeddingSetsRepo.answer_eq
    (fun _ _ => EmbeddingSetCall.store_assumed) EmbeddingSetCall.good_iff .empty
    (.initial (hschema ▸ rfl) hempty fun _ => List.not_mem_nil) calls hassumed

end

/-- On a migrated database, the repositories of chunk sets answer alike exactly as long as
every text can be sent and every created identifier is new, and so do those of embedding
sets. -/
theorem sets_answerAlike_iff (db : Db Json) (hschema : db.schema = migrated) :
    (db.rows "chunk_sets" = [] → ∀ calls,
      Along (fun m c => (MemChunkSetsRepo.answer m c).2) (ChunkSetCall.Assumed db) calls
        MemChunkSetsRepo.new →
      (CodecStore.AnswerAlike MemChunkSetsRepo.answer PgChunkSetsRepo.answer calls
          MemChunkSetsRepo.new db ↔
        Along (fun m c => (MemChunkSetsRepo.answer m c).2) ChunkSetCall.Good calls
          MemChunkSetsRepo.new)) ∧
    (db.rows "embedding_sets" = [] → ∀ calls,
      Along (fun m c => (MemEmbeddingSetsRepo.answer m c).2) (EmbeddingSetCall.Assumed db) calls
        MemEmbeddingSetsRepo.new →
      (CodecStore.AnswerAlike MemEmbeddingSetsRepo.answer PgEmbeddingSetsRepo.answer calls
          MemEmbeddingSetsRepo.new db ↔
        Along (fun m c => (MemEmbeddingSetsRepo.answer m c).2) EmbeddingSetCall.Good calls
          MemEmbeddingSetsRepo.new)) :=
  ⟨chunkSets_answerAlike_iff hschema, embeddingSets_answerAlike_iff hschema⟩

/-- A migrated database with one tenant, one document and the chunk sets that are given. -/
def oneDocument (chunkSets : List (Row Json)) : Db Json where
  schema := migrated
  rows name :=
    if name = "tenants" ∨ name = "documents" then [fun c => if c = "id" then .uuid 1 else .null]
    else if name = "chunk_sets" then chunkSets
    else []
  clock := 0

theorem hasTenant_oneDocument (chunkSets : List (Row Json)) :
    HasTenant (oneDocument chunkSets) ⟨1⟩ := ⟨_, List.mem_cons_self, rfl⟩

theorem hasDocument_oneDocument (chunkSets : List (Row Json)) :
    HasDocument (oneDocument chunkSets) ⟨1⟩ := ⟨_, List.mem_cons_self, rfl⟩

/-- A chunk set is created, finalized, listed, and created again under its identifier. -/
def recreated : List ChunkSetCall :=
  [.create ⟨5⟩ ⟨1⟩ ⟨1⟩ "profile", .markFinalized ⟨5⟩, .listByDocument ⟨1⟩,
    .create ⟨5⟩ ⟨1⟩ ⟨1⟩ "profile"]

/-- An embedding set is created and saved, and deleted twice. -/
def redeleted : List EmbeddingSetCall :=
  [.create ⟨7⟩ ⟨1⟩ ⟨5⟩ "kind" "1" 384 "cosine", .markReady ⟨7⟩,
    .save ⟨⟨7⟩, ⟨1⟩, ⟨5⟩, "kind", "2", 768, "dot", false⟩, .listByChunkSet ⟨5⟩, .delete ⟨7⟩,
    .delete ⟨7⟩]

/-- The second creation fails over Postgres; the embedding sets agree. -/
theorem sets_answerAlike_iff_oneDocument :
    ¬ CodecStore.AnswerAlike MemChunkSetsRepo.answer PgChunkSetsRepo.answer recreated
        MemChunkSetsRepo.new (oneDocument []) ∧
      CodecStore.AnswerAlike MemEmbeddingSetsRepo.answer PgEmbeddingSetsRepo.answer redeleted
        MemEmbeddingSetsRepo.new
        (oneDocument [fun c => if c = "id" then .uuid 5 else .null]) := by
  have hset : ∀ c, HasTenant (oneDocument c) ⟨1⟩ ∧ HasDocument (oneDocument c) ⟨1⟩ := fun c =>
    ⟨hasTenant_oneDocument c, hasDocument_oneDocument c⟩
  have hembedding : HasTenant (oneDocument [fun c => if c = "id" then .uuid 5 else .null]) ⟨1⟩ ∧
      HasChunkSet (oneDocument [fun c => if c = "id" then .uuid 5 else .null]) ⟨5⟩ :=
    ⟨hasTenant_oneDocument _, _, List.mem_cons_self, rfl⟩
  constructor
  · rw [(sets_answerAlike_iff (oneDocument []) rfl).1 rfl recreated
      ⟨hset [], trivial, trivial, hset [], trivial⟩]
    rintro ⟨-, -, -, ⟨-, hnew⟩, -⟩
    exact absurd hnew (by decide)
  · exact ((sets_answerAlike_iff (oneDocument _) rfl).2 rfl redeleted
      ⟨hembedding, trivial, ⟨hembedding.1, hembedding.2⟩, trivial, trivial, trivial, trivial⟩).mpr
      ⟨⟨by decide, by decide⟩, trivial, ⟨by decide, by decide, by decide⟩, trivial, trivial,
        trivial, trivial⟩

end Contexide.StoragePg
