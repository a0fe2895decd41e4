import Contexide.Core.Ids
import Contexide.Core.Json
import Contexide.Sql.Statements

/-! The up-migrations in the order of their timestamps, and the schema that they build
from an empty database. The workflow tables are not created by any migration, so the
first migration that alters them fails and the run ends there. -/

namespace Contexide.StoragePg

open Sql

namespace Migrations

def primaryKey : Column Json :=
  { name := "id", type := .uuid, notNull := true }

def createdAt : Column Json :=
  { name := "created_at", type := .timestamptz, notNull := true, default := some .now }

/-- `uuid not null references table(id) on delete cascade`. -/
def owner (name references : String) : Column Json :=
  { name, type := .uuid, notNull := true, references := some references }

def required (name : String) (type : SqlType) : Column Json :=
  { name, type, notNull := true }

def optional (name : String) (type : SqlType) : Column Json :=
  { name, type }

/-- `text not null check (name in (..))`. -/
def oneOf (name : String) (texts : List String) : Column Json :=
  { name, type := .text, notNull := true, check := some (.oneOf texts) }

/-- `type not null default value`. -/
def defaulted (name : String) (type : SqlType) (value : Value Json) : Column Json :=
  { name, type, notNull := true, default := some (.const value) }

def tenants : TableDef Json where
  columns := [primaryKey, required "name" .text, required "email" .text, createdAt]
  unique := [["id"], ["name"], ["email"]]

def documents : TableDef Json where
  columns := [primaryKey, owner "tenant_id" "tenants", required "title" .text,
    oneOf "status" ["draft", "processing", "ready", "failed", "archived"], createdAt]
  unique := [["id"]]

def assets : TableDef Json where
  columns := [primaryKey, owner "tenant_id" "tenants", owner "document_id" "documents",
    required "filename" .text, required "mime" .text,
    { name := "size_bytes", type := .bigint, notNull := true, check := some .nonneg },
    optional "storage_key" .text, createdAt]
  unique := [["id"]]

def blocks : TableDef Json where
  columns := [primaryKey, owner "tenant_id" "tenants", owner "document_id" "documents",
    required "order_no" .int, oneOf "modality" ["text", "image", "table"], optional "text" .text,
    optional "media_asset_id" .uuid, createdAt]
  unique := [["id"]]

def chunkSets : TableDef Json where
  columns := [primaryKey, owner "tenant_id" "tenants", owner "document_id" "documents",
    required "profile_hash" .text, defaulted "finalized" .boolean (.bool false), createdAt]
  unique := [["id"]]

def chunks : TableDef Json where
  columns := [primaryKey, owner "tenant_id" "tenants", owner "chunk_set_id" "chunk_sets",
    required "order_no" .int, required "byte_start" .int, required "byte_end" .int,
    required "text" .text, optional "meta_json" .text, createdAt]
  unique := [["id"]]

def embeddingSets : TableDef Json where
  columns := [primaryKey, owner "tenant_id" "tenants", owner "chunk_set_id" "chunk_sets",
    required "model_kind" .text, required "model_version" .text, required "dim" .int,
    required "metric" .text, defaulted "ready" .boolean (.bool false), createdAt]
  unique := [["id"]]

def embeddingRefs : TableDef Json where
  columns := [owner "chunk_id" "chunks", owner "embedding_set_id" "embedding_sets",
    owner "tenant_id" "tenants", required "vector_id" .text, createdAt]
  unique := [["chunk_id", "embedding_set_id"]]

def jobs : TableDef Json where
  columns := [primaryKey, owner "tenant_id" "tenants",
    oneOf "kind" ["ingest", "extract", "normalize", "chunk", "embed", "index"],
    oneOf "status" ["pending", "running", "done", "failed"], optional "payload_json" .text,
    createdAt]
  unique := [["id"]]

def workflowTenantLimits : TableDef Json where
  columns := [{ name := "tenant_id", type := .uuid, notNull := true },
    defaulted "max_running_dag_runs" .int (.int 5), defaulted "max_running_tasks" .int (.int 50),
    defaulted "max_running_tasks_per_domain" .int (.int 20), createdAt,
    { name := "updated_at", type := .timestamptz, notNull := true, default := some .now }]
  unique := [["tenant_id"]]

/-- One list of statements for each file. -/
def all : List (List (Ddl Json)) :=
  [[.createTable "tenants" false tenants,
      .createIndex "tenants" ["name"] true,
      .createIndex "tenants" ["email"] true],
    [.createTable "documents" false documents,
      .createIndex "documents" ["tenant_id"] false,
      .createIndex "documents" ["status"] false],
    [.createTable "assets" false assets,
      .createIndex "assets" ["tenant_id"] false,
      .createIndex "assets" ["document_id"] false],
    [.createTable "blocks" false blocks,
      .addForeignKey "blocks" "media_asset_id" "assets",
      .createIndex "blocks" ["document_id", "order_no"] false,
      .createIndex "blocks" ["tenant_id"] false,
      .createIndex "blocks" ["media_asset_id"] false],
    [.createTable "chunk_sets" false chunkSets,
      .createIndex "chunk_sets" ["document_id"] false,
      .createIndex "chunk_sets" ["document_id", "finalized"] false,
      .createIndex "chunk_sets" ["tenant_id"] false],
    [.createTable "chunks" false chunks,
      .createIndex "chunks" ["chunk_set_id"] false,
      .createIndex "chunks" ["chunk_set_id", "order_no"] false,
      .createIndex "chunks" ["tenant_id"] false],
    [.createTable "embedding_sets" false embeddingSets,
      .createIndex "embedding_sets" ["chunk_set_id"] false,
      .createIndex "embedding_sets" ["ready"] false,
      .createIndex "embedding_sets" ["tenant_id"] false],
    [.createTable "embedding_refs" false embeddingRefs,
      .createIndex "embedding_refs" ["embedding_set_id"] false,
      .createIndex "embedding_refs" ["tenant_id"] false],
    [.createTable "jobs" false jobs,
      .createIndex "jobs" ["kind"] false,
      .createIndex "jobs" ["kind", "status"] false,
      .createIndex "jobs" ["tenant_id"] false],
    [.addColumnsIfNotExist "tasks" [optional "max_attempts" .int,
        defaulted "retry_policy" .text (.text "never"),
        defaulted "retry_params" .jsonb (.json (.object [])),
        defaulted "priority" .smallint (.int 0)],
      .addColumnsIfNotExist "task_runs" [optional "error_code" .text,
        optional "error_message" .text, optional "transient_error" .boolean],
      .createTable "workflow_tenant_limits" true workflowTenantLimits,
      .createIndex "workflow_tenant_limits" ["updated_at"] false],
    [.addColumnsIfNotExist "dag_runs" [optional "execution_policy" .jsonb,
        defaulted "execution_policy_version" .smallint (.int 1)],
      .addColumnsIfNotExist "tasks" [optional "execution_policy_override" .jsonb]]]

end Migrations

/-- The schema reached by the migrations. -/
def migrated : Schema Json := (Schema.migrate [] Migrations.all).1

theorem migrated_documents : migrated.table "documents" = .ok Migrations.documents := rfl

theorem migrated_chunks : migrated.table "chunks" = .ok Migrations.chunks := rfl

theorem migrated_assets : migrated.table "assets" = .ok Migrations.assets := rfl

/-- The foreign key of `media_asset_id` is added after the table. -/
theorem migrated_blocks_columns :
    ∃ t, migrated.table "blocks" = .ok t ∧
      t.columns.map Column.name = Migrations.blocks.columns.map Column.name := ⟨_, rfl, rfl⟩

/-- The run stops at the table that no migration creates. -/
example : (Schema.migrate [] Migrations.all).2 = some (.undefinedTable "tasks") := rfl

/-! ### Rows that others refer to -/

def HasTenant (db : Db Json) (t : TenantId) : Prop :=
  ∃ r ∈ db.rows "tenants", r "id" = .uuid t.uuid

def HasDocument (db : Db Json) (d : DocumentId) : Prop :=
  ∃ r ∈ db.rows "documents", r "id" = .uuid d.uuid

def HasAsset (db : Db Json) (a : AssetId) : Prop :=
  ∃ r ∈ db.rows "assets", r "id" = .uuid a.uuid

def HasChunkSet (db : Db Json) (s : ChunkSetId) : Prop :=
  ∃ r ∈ db.rows "chunk_sets", r "id" = .uuid s.uuid

end Contexide.StoragePg
