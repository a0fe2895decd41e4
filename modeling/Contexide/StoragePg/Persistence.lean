import Contexide.StoragePg.Children
import Contexide.StoragePg.Migrations

/-! The repositories of assets and blocks over Postgres, on the schema that the migrations
build. Their statements name columns that the migrated tables do not have, so that no
asset and no block is ever stored or read. -/

namespace Contexide.StoragePg

open Sql

/-! ### Assets -/

inductive AssetSource where
  | upload | url | s3
  deriving DecidableEq, Repr

namespace AssetSource

def asStr : AssetSource → String
  | .upload => "upload"
  | .url => "url"
  | .s3 => "s3"

def fromStr (s : String) : Option AssetSource :=
  if s = "upload" then some .upload
  else if s = "url" then some .url
  else if s = "s3" then some .s3
  else none

end AssetSource

structure Asset where
  id : AssetId
  tenantId : TenantId
  documentId : DocumentId
  source : AssetSource
  originalUri : Option String
  contentType : String
  sizeBytes : UInt64
  contentHash : String
  storageKey : Option String

namespace Asset

/-- Decode an answer row; an unknown source is an error. -/
def fromRow (row : ResultRow Json) : Except SqlError Asset := do
  let sourceRaw ← row.tryGet "source" Value.asText
  let source ←
    match AssetSource.fromStr sourceRaw with
    | some source => .ok source
    | none => .error (.columnDecode "source")
  let id ← row.tryGet "id" Value.asUuid
  let tenantId ← row.tryGet "tenant_id" Value.asUuid
  let documentId ← row.tryGet "document_id" Value.asUuid
  let originalUri ← row.tryGet "original_uri" (Value.nullable Value.asText)
  let contentType ← row.tryGet "content_type" Value.asText
  let sizeBytes ← row.tryGet "size_bytes" Value.asInt64
  let contentHash ← row.tryGet "content_hash" Value.asText
  let storageKey ← row.tryGet "storage_key" (Value.nullable Value.asText)
  .ok ⟨⟨id⟩, ⟨tenantId⟩, ⟨documentId⟩, source, originalUri, contentType, sizeBytes.toUInt64,
    contentHash, storageKey⟩

end Asset

namespace PgAssetsRepo

variable (db : Db Json)

def columns : List String :=
  ["id", "tenant_id", "document_id", "source", "original_uri", "content_type", "size_bytes",
    "content_hash", "storage_key"]

def get (id : AssetId) : Except SqlError (Option Asset) := do
  let rows ← db.select { table := "assets", columns, whereColumn := "id", orderBy := [] }
    [.uuid id.uuid]
  match rows with
  | [] => .ok none
  | row :: _ => do
    let a ← Asset.fromRow row
    .ok (some a)

/-- Upsert by id; the answer is the stored row. -/
def save (entity : Asset) : Except SqlError Asset × Db Json :=
  match db.insert
    { table := "assets", columns,
      onConflict := some ("id",
        ["tenant_id", "document_id", "source", "original_uri", "content_type", "size_bytes",
          "content_hash", "storage_key"]),
      returning := columns }
    [.uuid entity.id.uuid, .uuid entity.tenantId.uuid, .uuid entity.documentId.uuid,
      .text entity.source.asStr, .ofOption .text entity.originalUri, .text entity.contentType,
      .int entity.sizeBytes.toInt64.toInt, .text entity.contentHash,
      .ofOption .text entity.storageKey] with
  | .ok (db', row) => (Asset.fromRow row, db')
  | .error e => (.error e, db)

/-- A save succeeds, and the asset is read back. -/
def Persists (entity : Asset) : Prop :=
  ∃ saved db', save db entity = (.ok saved, db') ∧ get db' entity.id = .ok (some entity)

end PgAssetsRepo

/-! ### Blocks -/

namespace BlockModality

/-- Lowercase stable string for each variant. -/
def asStr : BlockModality → String
  | .text => "text"
  | .image => "image"
  | .audio => "audio"
  | .video => "video"
  | .table => "table"
  | .binary => "binary"

def fromStr (s : String) : Option BlockModality :=
  if s = "text" then some .text
  else if s = "image" then some .image
  else if s = "audio" then some .audio
  else if s = "video" then some .video
  else if s = "table" then some .table
  else if s = "binary" then some .binary
  else none

end BlockModality

namespace Block

/-- Decode an answer row; an unknown modality is read as text. -/
def fromRow (row : ResultRow Json) : Except SqlError Block := do
  let modalityRaw ← row.tryGet "modality" Value.asText
  let modality := (BlockModality.fromStr modalityRaw).getD .text
  let id ← row.tryGet "id" Value.asUuid
  let tenantId ← row.tryGet "tenant_id" Value.asUuid
  let assetId ← row.tryGet "asset_id" Value.asUuid
  let orderNo ← row.tryGet "order_no" Value.asInt32
  let text ← row.tryGet "text" (Value.nullable Value.asText)
  let metaJson ← row.tryGet "meta_json" (Value.nullable Value.asText)
  .ok ⟨⟨id⟩, ⟨tenantId⟩, ⟨assetId⟩, modality, orderNo, text, metaJson⟩

end Block

namespace PgBlocksRepo

variable (db : Db Json)

def columns : List String :=
  ["id", "tenant_id", "asset_id", "modality", "order_no", "text", "meta_json"]

def get (id : BlockId) : Except SqlError (Option Block) := do
  let rows ← db.select { table := "blocks", columns, whereColumn := "id", orderBy := [] }
    [.uuid id.uuid]
  match rows with
  | [] => .ok none
  | row :: _ => do
    let b ← Block.fromRow row
    .ok (some b)

/-- Upsert by id; the answer is the stored row. -/
def save (entity : Block) : Except SqlError Block × Db Json :=
  match db.insert
    { table := "blocks", columns,
      onConflict := some ("id",
        ["tenant_id", "asset_id", "modality", "order_no", "text", "meta_json"]),
      returning := columns }
    [.uuid entity.id.uuid, .uuid entity.tenantId.uuid, .uuid entity.assetId.uuid,
      .text entity.modality.asStr, .int entity.orderNo.toInt, .ofOption .text entity.text,
      .ofOption .text entity.metaJson] with
  | .ok (db', row) => (Block.fromRow row, db')
  | .error e => (.error e, db)

/-- A save succeeds, and the block is read back. -/
def Persists (entity : Block) : Prop :=
  ∃ saved db', save db entity = (.ok saved, db') ∧ get db' entity.id = .ok (some entity)

end PgBlocksRepo

/-! ### On the migrated schema -/

section Migrated

variable {db : Db Json}

theorem PgAssetsRepo.save_migrated (h : db.schema = migrated) (a : Asset) :
    PgAssetsRepo.save db a = (.error (.undefinedColumn "source"), db) := by
  have htable : db.schema.table "assets" = .ok Migrations.assets := by
    rw [h]
    exact migrated_assets
  rw [save, Db.insert_undefined htable (e := .undefinedColumn "source") rfl]

theorem PgAssetsRepo.get_migrated (h : db.schema = migrated) (id : AssetId) :
    PgAssetsRepo.get db id = .error (.undefinedColumn "source") := by
  have htable : db.schema.table "assets" = .ok Migrations.assets := by
    rw [h]
    exact migrated_assets
  rw [get, Db.select_undefined htable (e := .undefinedColumn "source") rfl]
  rfl

theorem PgBlocksRepo.save_migrated (h : db.schema = migrated) (b : Block) :
    PgBlocksRepo.save db b = (.error (.undefinedColumn "asset_id"), db) := by
  obtain ⟨t, ht, hcols⟩ := migrated_blocks_columns
  have htable : db.schema.table "blocks" = .ok t := by
    rw [h]
    exact ht
  rw [save, Db.insert_undefined htable (e := .undefinedColumn "asset_id")]
  rw [TableDef.requireColumns_congr hcols]
  rfl

theorem PgBlocksRepo.get_migrated (h : db.schema = migrated) (id : BlockId) :
    PgBlocksRepo.get db id = .error (.undefinedColumn "asset_id") := by
  obtain ⟨t, ht, hcols⟩ := migrated_blocks_columns
  have htable : db.schema.table "blocks" = .ok t := by
    rw [h]
    exact ht
  rw [get, Db.select_undefined htable (e := .undefinedColumn "asset_id")]
  · rfl
  · rw [TableDef.requireColumns_congr hcols]
    rfl

theorem PgAssetsRepo.not_persists (h : db.schema = migrated) (a : Asset) :
    ¬ PgAssetsRepo.Persists db a := by
  rintro ⟨a', db', hsave, -⟩
  rw [PgAssetsRepo.save_migrated h] at hsave
  exact absurd (congrArg Prod.fst hsave) (by simp)

theorem PgBlocksRepo.not_persists (h : db.schema = migrated) (b : Block) :
    ¬ PgBlocksRepo.Persists db b := by
  rintro ⟨b', db', hsave, -⟩
  rw [PgBlocksRepo.save_migrated h] at hsave
  exact absurd (congrArg Prod.fst hsave) (by simp)

/-- Whatever a migrated database contains, no asset and no block is stored in it, nor
found in it under any identifier. -/
theorem never_persists (db : Db Json) (h : db.schema = migrated) (a : Asset) (b : Block) :
    ¬ PgAssetsRepo.Persists db a ∧ ¬ PgBlocksRepo.Persists db b ∧
      (∀ id found, PgAssetsRepo.get db id ≠ .ok found) ∧
      ∀ id found, PgBlocksRepo.get db id ≠ .ok found := by
  refine ⟨PgAssetsRepo.not_persists h a, PgBlocksRepo.not_persists h b, ?_, ?_⟩
  · intro id found
    rw [PgAssetsRepo.get_migrated h]
    exact fun heq => nomatch heq
  · intro id found
    rw [PgBlocksRepo.get_migrated h]
    exact fun heq => nomatch heq

end Migrated

/-- A migrated database where every table has one row, under the identifier 1. -/
def oneOfEach : Db Json where
  schema := migrated
  rows _ := [fun c => if c = "id" then .uuid 1 else .null]
  clock := 0

def upload : Asset :=
  ⟨⟨2⟩, ⟨1⟩, ⟨1⟩, .upload, none, "application/pdf", 1024, "9f86d081", some "uploads/2"⟩

def paragraph : Block := ⟨⟨3⟩, ⟨1⟩, ⟨1⟩, .text, 0, some "A paragraph.", none⟩

theorem never_persists_upload :
    ¬ PgAssetsRepo.Persists oneOfEach upload ∧ ¬ PgBlocksRepo.Persists oneOfEach paragraph ∧
      (∀ id found, PgAssetsRepo.get oneOfEach id ≠ .ok found) ∧
      ∀ id found, PgBlocksRepo.get oneOfEach id ≠ .ok found :=
  never_persists oneOfEach rfl upload paragraph

/-- Everything that the asset and the block refer to is stored, and still neither is. -/
theorem not_persists_upload :
    oneOfEach.schema = migrated ∧ HasTenant oneOfEach upload.tenantId ∧
      HasDocument oneOfEach upload.documentId ∧ HasAsset oneOfEach paragraph.assetId ∧
      ¬ PgAssetsRepo.Persists oneOfEach upload ∧ ¬ PgBlocksRepo.Persists oneOfEach paragraph :=
  ⟨rfl, ⟨_, List.mem_cons_self, rfl⟩, ⟨_, List.mem_cons_self, rfl⟩, ⟨_, List.mem_cons_self, rfl⟩,
    PgAssetsRepo.not_persists rfl upload, PgBlocksRepo.not_persists rfl paragraph⟩

end Contexide.StoragePg
