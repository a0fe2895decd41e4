import Contexide.Core.Ids
import Contexide.Sql.Keyed
import Contexide.StoragePg.Migrations
import Mathlib.Algebra.Group.End

/-! The repositories of documents, in memory and over Postgres, each operation running
alone. A fresh identifier is an argument of the call that may draw it. -/

namespace Contexide.StoragePg

open Storage Sql

/-- Lifecycle state of a document in the pipeline. -/
inductive DocumentStatus where
  | draft | processing | ready | failed | archived
  deriving DecidableEq, Repr

namespace DocumentStatus

/-- Lowercase stable string for each variant. -/
def asStr : DocumentStatus → String
  | .draft => "draft"
  | .processing => "processing"
  | .ready => "ready"
  | .failed => "failed"
  | .archived => "archived"

def fromStr (s : String) : Option DocumentStatus :=
  if s = "draft" then some .draft
  else if s = "processing" then some .processing
  else if s = "ready" then some .ready
  else if s = "failed" then some .failed
  else if s = "archived" then some .archived
  else none

@[simp] theorem fromStr_asStr (s : DocumentStatus) : fromStr s.asStr = some s := by
  cases s <;> decide

end DocumentStatus

@[ext] structure Document where
  id : DocumentId
  tenantId : TenantId
  title : String
  status : DocumentStatus
  deriving DecidableEq, Repr

namespace Document

/-- Decode an answer row; an unknown status is read as a draft. -/
def fromRow (row : ResultRow Json) : Except SqlError Document := do
  let statusRaw ← row.tryGet "status" Value.asText
  let status := (DocumentStatus.fromStr statusRaw).getD .draft
  let id ← row.tryGet "id" Value.asUuid
  let tenantId ← row.tryGet "tenant_id" Value.asUuid
  let title ← row.tryGet "title" Value.asText
  .ok ⟨⟨id⟩, ⟨tenantId⟩, title, status⟩

end Document

/-- A call of a repository; a save carries the identifier that `Uuid::now_v7` returns in
it, should it be asked. -/
inductive DocumentCall where
  | get (id : DocumentId)
  | save (drawn : DocumentId) (entity : Document)
  | setStatus (id : DocumentId) (status : DocumentStatus)
  | delete (id : DocumentId)

/-- What a call returns. -/
inductive DocumentAnswer where
  | found (d : Option Document)
  | saved (d : Document)
  | done (b : Bool)

/-! ### In memory -/

abbrev MemDocumentsRepo := Table Document.id

namespace MemDocumentsRepo

def new : MemDocumentsRepo := .empty

variable (r : MemDocumentsRepo)

def setStatus (id : DocumentId) (status : DocumentStatus) : Bool × MemDocumentsRepo :=
  match r.get id with
  | some d => (true, r.save { d with status := status })
  | none => (false, r)

def save (drawn : DocumentId) (entity : Document) : Document × MemDocumentsRepo :=
  let entity := if entity.id.uuid.isNil then { entity with id := drawn } else entity
  (entity, Table.save r entity)

def delete (id : DocumentId) : Bool × MemDocumentsRepo := ((r.get id).isSome, r.remove id)

def run : DocumentCall → DocumentAnswer × MemDocumentsRepo
  | .get id => (.found (r.get id), r)
  | .save drawn entity => (.saved (save r drawn entity).1, (save r drawn entity).2)
  | .setStatus id status => (.done (setStatus r id status).1, (setStatus r id status).2)
  | .delete id => (.done (delete r id).1, (delete r id).2)

end MemDocumentsRepo

/-! ### Over Postgres -/

namespace PgDocumentsRepo

variable (db : Db Json)

def setStatus (id : DocumentId) (status : DocumentStatus) : Except SqlError (Bool × Db Json) := do
  let (db', affected) ← db.update
    { table := "documents", set := [("status", 2)], whereColumn := "id" }
    [.uuid id.uuid, .text status.asStr]
  .ok (affected == 1, db')

def get (id : DocumentId) : Except SqlError (Option Document) := do
  let rows ← db.select
    { table := "documents", columns := ["id", "tenant_id", "title", "status"], whereColumn := "id",
      orderBy := [] }
    [.uuid id.uuid]
  match rows with
  | [] => .ok none
  | row :: _ => do
    let d ← Document.fromRow row
    .ok (some d)

/-- A nil identifier is replaced and the document inserted; any other is updated. -/
def save (drawn : DocumentId) (entity : Document) : Except SqlError (Document × Db Json) :=
  if entity.id.uuid.isNil then do
    let entity := { entity with id := drawn }
    let (db', _) ← db.insert
      { table := "documents", columns := ["id", "tenant_id", "title", "status"],
        onConflict := none, returning := [] }
      [.uuid entity.id.uuid, .uuid entity.tenantId.uuid, .text entity.title,
        .text entity.status.asStr]
    .ok (entity, db')
  else do
    let (db', _) ← db.update
      { table := "documents", set := [("tenant_id", 2), ("title", 3), ("status", 4)],
        whereColumn := "id" }
      [.uuid entity.id.uuid, .uuid entity.tenantId.uuid, .text entity.title,
        .text entity.status.asStr]
    .ok (entity, db')

def delete (id : DocumentId) : Except SqlError (Bool × Db Json) := do
  let (db', affected) ← db.delete { table := "documents", whereColumn := "id" } [.uuid id.uuid]
  .ok (affected == 1, db')

/-- The answer of a call and the database after it; a failed call leaves it as it was. -/
def run (call : DocumentCall) : Except SqlError DocumentAnswer × Db Json :=
  let outcome : Except SqlError (DocumentAnswer × Db Json) :=
    match call with
    | .get id => do
      let d ← get db id
      .ok (.found d, db)
    | .save drawn entity => do
      let (d, db') ← save db drawn entity
      .ok (.saved d, db')
    | .setStatus id status => do
      let (b, db') ← setStatus db id status
      .ok (.done b, db')
    | .delete id => do
      let (b, db') ← delete db id
      .ok (.done b, db')
  match outcome with
  | .ok (answer, db') => (.ok answer, db')
  | .error e => (.error e, db)

end PgDocumentsRepo

/-! ### The table of documents -/

variable {db : Db Json} {m : MemDocumentsRepo}

/-- How a document is kept in a row. -/
def documentCodec : Codec Json Document where
  table := "documents"
  tableDef := Migrations.documents
  columns := ["id", "tenant_id", "title", "status"]
  key d := d.id.uuid
  encode d c :=
    if c = "id" then .uuid d.id.uuid
    else if c = "tenant_id" then .uuid d.tenantId.uuid
    else if c = "title" then .text d.title
    else if c = "status" then .text d.status.asStr
    else .null
  id_mem := List.mem_cons_self
  encode_id _ := rfl
  unique_eq := rfl
  defined := rfl
  rest := by
    intro c hc hm
    simp only [Migrations.documents, List.mem_cons, List.not_mem_nil, or_false] at hc
    rcases hc with rfl | rfl | rfl | rfl | rfl
    · exact absurd (by decide) hm
    · exact absurd (by decide) hm
    · exact absurd (by decide) hm
    · exact absurd (by decide) hm
    · exact ⟨rfl, fun _ => rfl⟩
  not_self := by
    intro c hc
    simp only [Migrations.documents, List.mem_cons, List.not_mem_nil, or_false] at hc
    rcases hc with rfl | rfl | rfl | rfl | rfl <;> decide

theorem fromRow_answer (d : Document) : Document.fromRow (documentCodec.answer d) = .ok d := by
  have hstatus : (documentCodec.answer d).tryGet "status" Value.asText = .ok d.status.asStr :=
    ResultRow.tryGet_project (by decide) rfl
  have hread : (DocumentStatus.fromStr d.status.asStr).getD .draft = d.status := by
    rw [DocumentStatus.fromStr_asStr, Option.getD_some]
  rw [Document.fromRow, hstatus]
  show Except.ok (⟨⟨d.id.uuid⟩, ⟨d.tenantId.uuid⟩, d.title, _⟩ : Document) = _
  rw [hread]

theorem documentCodec_valid {d : Document} (h : HasTenant db d.tenantId) :
    documentCodec.Valid db d := by
  intro c hc hm
  simp only [documentCodec, Migrations.documents, List.mem_cons, List.not_mem_nil, or_false] at hc
  rcases hc with rfl | rfl | rfl | rfl | rfl
  · exact ⟨rfl, rfl⟩
  · exact ⟨rfl, Db.referenceViolations_eq_nil rfl h⟩
  · exact ⟨rfl, rfl⟩
  · refine ⟨?_, rfl⟩
    show Db.cellViolations _ (.text d.status.asStr) = []
    cases d.status <;> rfl
  · exact absurd hm (by decide)

end Contexide.StoragePg
