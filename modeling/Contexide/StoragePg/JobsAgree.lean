import Contexide.StoragePg.Jobs
import Contexide.StoragePg.SetsAgree

/-! The repository of jobs over Postgres against the one in memory. A scan over Postgres
takes its limit as a signed number, so that a limit of `2 ^ 63` or more, which keeps
everything in memory, is refused there. -/

namespace Contexide.StoragePg

open Storage Sql

/-! ### The texts of the enumerations -/

def JobKind.str : JobKind → String
  | .ingest => "ingest"
  | .extract => "extract"
  | .normalize => "normalize"
  | .chunk => "chunk"
  | .embed => "embed"
  | .index => "index"

def JobKind.tryFrom (s : String) : Option JobKind :=
  if s = "ingest" then some .ingest
  else if s = "extract" then some .extract
  else if s = "normalize" then some .normalize
  else if s = "chunk" then some .chunk
  else if s = "embed" then some .embed
  else if s = "index" then some .index
  else none

def JobStatus.str : JobStatus → String
  | .pending => "pending"
  | .running => "running"
  | .done => "done"
  | .failed => "failed"

def JobStatus.tryFrom (s : String) : Option JobStatus :=
  if s = "pending" then some .pending
  else if s = "running" then some .running
  else if s = "done" then some .done
  else if s = "failed" then some .failed
  else none

theorem JobKind.tryFrom_str (k : JobKind) : tryFrom k.str = some k := by cases k <;> rfl

theorem JobStatus.tryFrom_str (s : JobStatus) : tryFrom s.str = some s := by cases s <;> rfl

theorem JobKind.str_inj {k k' : JobKind} : k.str = k'.str ↔ k = k' := by
  refine ⟨fun h => Option.some.inj ?_, congrArg str⟩
  rw [← tryFrom_str, ← tryFrom_str, h]

theorem JobStatus.str_inj {s s' : JobStatus} : s.str = s'.str ↔ s = s' := by
  refine ⟨fun h => Option.some.inj ?_, congrArg str⟩
  rw [← tryFrom_str, ← tryFrom_str, h]

theorem JobKind.encodable_str (k : JobKind) :
    (Value.text k.str : Value Json).encodable = true :=
  encodable_text.mpr (by cases k <;> decide)

theorem JobStatus.encodable_str (s : JobStatus) :
    (Value.text s.str : Value Json).encodable = true :=
  encodable_text.mpr (by cases s <;> decide)

/-- Decode an answer row; a text that is no kind or status reads as the first of them. -/
def Job.fromRow (row : ResultRow Json) : Except SqlError Job := do
  let kindRaw ← row.tryGet "kind" Value.asText
  let kind := (JobKind.tryFrom kindRaw).getD .ingest
  let statusRaw ← row.tryGet "status" Value.asText
  let status := (JobStatus.tryFrom statusRaw).getD .pending
  let id ← row.tryGet "id" Value.asUuid
  let tenantId ← row.tryGet "tenant_id" Value.asUuid
  let payloadJson ← row.tryGet "payload_json" (Value.nullable Value.asText)
  .ok ⟨⟨id⟩, ⟨tenantId⟩, kind, status, payloadJson⟩

/-! ### The repositories -/

/-- A call of a repository of jobs. A creation comes with the identifier that is drawn. -/
inductive JobCall where
  | get (id : JobId)
  | save (entity : Job)
  | delete (id : JobId)
  | create (id : JobId) (tenantId : TenantId) (kind : JobKind) (status : JobStatus)
    (payloadJson : Option String)
  | setStatus (id : JobId) (status : JobStatus)
  | listByKindStatus (kind : JobKind) (status : JobStatus) (limit : Option ℕ)

abbrev JobAnswer := StoreAnswer JobId Job

/-- The answer of a call and the repository after it. -/
def MemJobsRepo.answer (r : MemJobsRepo) : JobCall → JobAnswer × MemJobsRepo
  | .get id => (.found (r.get id), r)
  | .save entity => (.saved (r.save entity).1, (r.save entity).2)
  | .delete id => (.done (r.delete id).1, (r.delete id).2)
  | .create id tenantId kind status payloadJson =>
    (.created (r.create id tenantId kind status payloadJson).1,
      (r.create id tenantId kind status payloadJson).2)
  | .setStatus id status => (.done (r.setStatus id status).1, (r.setStatus id status).2)
  | .listByKindStatus kind status limit => (.listed (r.listByKindStatus kind status limit), r)

namespace PgJobsRepo

variable (db : Db Json)

def get (id : JobId) : Except SqlError (Option Job) := do
  let rows ← db.select
    { table := "jobs", columns := ["id", "tenant_id", "kind", "status", "payload_json"],
      whereColumn := "id", orderBy := [] }
    [.uuid id.uuid]
  fetchOptional Job.fromRow rows

/-- Upsert by id; the answer is the stored row. -/
def save (entity : Job) : Except SqlError Job × Db Json :=
  db.settle Job.fromRow (db.insert
    { table := "jobs", columns := ["id", "tenant_id", "kind", "status", "payload_json"],
      onConflict := some ("id", ["tenant_id", "kind", "status", "payload_json"]),
      returning := ["id", "tenant_id", "kind", "status", "payload_json"] }
    [.uuid entity.id.uuid, .uuid entity.tenantId.uuid, .text entity.kind.str,
      .text entity.status.str, .ofOption .text entity.payloadJson])

def delete (id : JobId) : Except SqlError Bool × Db Json :=
  db.settle (fun affected => .ok (affected == 1))
    (db.delete { table := "jobs", whereColumn := "id" } [.uuid id.uuid])

def create (id : JobId) (tenantId : TenantId) (kind : JobKind) (status : JobStatus)
    (payloadJson : Option String) : Except SqlError JobId × Db Json :=
  db.settle (fun row => (row.tryGet "id" Value.asUuid).map JobId.mk) (db.insert
    { table := "jobs", columns := ["id", "tenant_id", "kind", "status", "payload_json"],
      onConflict := none, returning := ["id"] }
    [.uuid id.uuid, .uuid tenantId.uuid, .text kind.str, .text status.str,
      .ofOption .text payloadJson])

def setStatus (id : JobId) (status : JobStatus) : Except SqlError Bool × Db Json :=
  db.settle (fun affected => .ok (affected == 1))
    (db.update { table := "jobs", set := [("status", 2)], whereColumn := "id" }
      [.uuid id.uuid, .text status.str])

def listByKindStatus (kind : JobKind) (status : JobStatus) (limit : Option ℕ) :
    Except QueryError (List Job) :=
  match limit with
  | some n => do
    let rows ← db.query
      { table := "jobs", columns := ["id", "tenant_id", "kind", "status", "payload_json"],
        whereColumns := ["kind", "status"], orderBy := ["id"], limited := true }
      [.text kind.str, .text status.str, .int (asI64 n)]
    (fetchAll Job.fromRow rows).mapError .sql
  | none => do
    let rows ← db.query
      { table := "jobs", columns := ["id", "tenant_id", "kind", "status", "payload_json"],
        whereColumns := ["kind", "status"], orderBy := ["id"], limited := false }
      [.text kind.str, .text status.str]
    (fetchAll Job.fromRow rows).mapError .sql

/-- The answer of a call and the database after it. -/
def answer : JobCall → Except QueryError JobAnswer × Db Json
  | .get id => (((get db id).map .found).mapError .sql, db)
  | .save entity => (((save db entity).1.map .saved).mapError .sql, (save db entity).2)
  | .delete id => (((delete db id).1.map .done).mapError .sql, (delete db id).2)
  | .create id tenantId kind status payloadJson =>
    (((create db id tenantId kind status payloadJson).1.map .created).mapError .sql,
      (create db id tenantId kind status payloadJson).2)
  | .setStatus id status =>
    (((setStatus db id status).1.map .done).mapError .sql, (setStatus db id status).2)
  | .listByKindStatus kind status limit =>
    ((listByKindStatus db kind status limit).map .listed, db)

end PgJobsRepo

/-! ### The table of jobs -/

/-- How a job is kept in a row. -/
def jobCodec : Codec Json Job where
  table := "jobs"
  tableDef := Migrations.jobs
  columns := ["id", "tenant_id", "kind", "status", "payload_json"]
  key job := job.id.uuid
  encode job col :=
    if col = "id" then .uuid job.id.uuid
    else if col = "tenant_id" then .uuid job.tenantId.uuid
    else if col = "kind" then .text job.kind.str
    else if col = "status" then .text job.status.str
    else if col = "payload_json" then .ofOption .text job.payloadJson
    else .null
  id_mem := List.mem_cons_self
  encode_id _ := rfl
  unique_eq := rfl
  defined := rfl
  rest := by
    have hrest : ∀ c ∈ Migrations.jobs.columns, c.name ∉ ["id", "tenant_id", "kind", "status",
        "payload_json"] → c = Migrations.createdAt := by
      intro c hc hm
      simp only [Migrations.jobs, List.mem_cons, List.not_mem_nil, or_false] at hc
      rcases hc with rfl | rfl | rfl | rfl | rfl | rfl <;>
        first | rfl | exact absurd (by decide) hm
    intro c hc hm
    rw [hrest c hc hm]
    exact ⟨rfl, fun _ => rfl⟩
  not_self := by
    intro c hc
    simp only [Migrations.jobs, List.mem_cons, List.not_mem_nil, or_false] at hc
    rcases hc with rfl | rfl | rfl | rfl | rfl | rfl <;> decide

theorem violations_kind (k : JobKind) : Db.cellViolations
    (Migrations.oneOf "kind" ["ingest", "extract", "normalize", "chunk", "embed", "index"])
    (.text k.str : Value Json) = [] := by cases k <;> rfl

theorem violations_status (s : JobStatus) : Db.cellViolations
    (Migrations.oneOf "status" ["pending", "running", "done", "failed"])
    (.text s.str : Value Json) = [] := by cases s <;> rfl

theorem jobCodec_valid {db : Db Json} {job : Job} (h : HasTenant db job.tenantId) :
    jobCodec.Valid db job := by
  intro col hc hm
  simp only [jobCodec, Migrations.jobs, List.mem_cons, List.not_mem_nil, or_false] at hc
  rcases hc with rfl | rfl | rfl | rfl | rfl | rfl
  · exact ⟨rfl, rfl⟩
  · exact ⟨rfl, Db.referenceViolations_eq_nil rfl h⟩
  · exact ⟨violations_kind job.kind, rfl⟩
  · exact ⟨violations_status job.status, rfl⟩
  · refine ⟨?_, rfl⟩
    show Db.cellViolations _ (.ofOption .text job.payloadJson) = []
    cases job.payloadJson <;> rfl
  · exact absurd hm (by decide)

theorem Job.fromRow_answer (job : Job) : Job.fromRow (jobCodec.answer job) = .ok job := by
  have hkind : (jobCodec.answer job).tryGet "kind" Value.asText = .ok job.kind.str := rfl
  have hstatus : (jobCodec.answer job).tryGet "status" Value.asText = .ok job.status.str := rfl
  have hpayload : (jobCodec.answer job).tryGet "payload_json" (Value.nullable Value.asText) =
      .ok job.payloadJson :=
    ResultRow.tryGet_project (by decide) (nullable_ofOption job.payloadJson)
  rw [Job.fromRow, hkind, hstatus, hpayload]
  show Except.ok (Job.mk _ _ ((JobKind.tryFrom job.kind.str).getD _)
    ((JobStatus.tryFrom job.status.str).getD _) _) = _
  rw [JobKind.tryFrom_str, JobStatus.tryFrom_str]
  rfl

/-- What is listed: the jobs of a kind and status, up to a limit. -/
structure JobQuery where
  kind : JobKind
  status : JobStatus
  limit : Option ℕ

/-- Jobs change their status, and are listed by kind and status. -/
def jobRows : RowStore Job.id JobStatus JobQuery where
  number id := id.uuid
  number_inj _ _ := JobId.ext
  alter status job := { job with status }
  key_alter _ _ := rfl
  selects q job := decide (job.kindStatus = (q.kind, q.status))
  limit q := q.limit

def jobStore : CodecStore Json Job.id JobStatus JobQuery where
  store := jobRows
  codec := jobCodec
  codec_key _ := rfl
  decode := Job.fromRow
  decode_answer := Job.fromRow_answer
  ofNumber := JobId.mk
  ofNumber_number _ := rfl
  overwritten := ["tenant_id", "kind", "status", "payload_json"]
  overwritten_subset := by decide
  eq_id_of_not_overwritten := by decide
  assigned status := ("status", .text status.str)
  assigned_mem _ := List.mem_cons_of_mem _ <| List.mem_cons_of_mem _ <|
    List.mem_cons_of_mem _ List.mem_cons_self
  assigned_encodable := JobStatus.encodable_str
  encode_alter := by
    intro status job c hc
    simp only [jobCodec, List.mem_cons, List.not_mem_nil, or_false] at hc
    rcases hc with rfl | rfl | rfl | rfl | rfl <;> rfl
  assigned_valid := by
    intro db status c hc hname
    replace hname : c.name = "status" := hname
    simp only [jobCodec, Migrations.jobs, List.mem_cons, List.not_mem_nil, or_false] at hc
    rcases hc with rfl | rfl | rfl | rfl | rfl | rfl <;>
      first | exact ⟨violations_status status, rfl⟩ | exact absurd hname (by decide)
  conditions q := [("kind", .text q.kind.str), ("status", .text q.status.str)]
  conditions_mem := by
    intro q c hc
    rcases List.mem_pair.mp hc with rfl | rfl
    · exact List.mem_cons_of_mem _ (List.mem_cons_of_mem _ List.mem_cons_self)
    · exact List.mem_cons_of_mem _ <| List.mem_cons_of_mem _ <|
        List.mem_cons_of_mem _ List.mem_cons_self
  conditions_encodable q := by
    show ((Value.text q.kind.str).encodable && ((Value.text q.status.str).encodable && true)) = true
    rw [JobKind.encodable_str, JobStatus.encodable_str]
    rfl
  selects_eq := by
    intro q job
    show _ = (job.kind.str == q.kind.str && (job.status.str == q.status.str && true))
    rw [Bool.and_true, Bool.eq_iff_iff, Bool.and_eq_true, beq_iff_eq, beq_iff_eq,
      JobKind.str_inj, JobStatus.str_inj]
    show decide ((job.kind, job.status) = _) = true ↔ _
    rw [decide_eq_true_iff, Prod.mk.injEq]

/-! ### Call by call -/

namespace JobCall

/-- What the call does with the table. -/
def toStore : JobCall → StoreCall JobId Job JobStatus JobQuery
  | .get id => .get id
  | .save entity => .save entity
  | .delete id => .delete id
  | .create id tenantId kind status payloadJson =>
    .create { id, tenantId, kind, status, payloadJson }
  | .setStatus id status => .alter id status
  | .listByKindStatus kind status limit => .list { kind, status, limit }

/-- The tenant of a job that is stored is stored, and a limit is a machine word. -/
def Assumed (db : Db Json) : JobCall → MemJobsRepo → Prop
  | .save entity, _ => HasTenant db entity.tenantId
  | .create _ tenantId _ _ _, _ => HasTenant db tenantId
  | .listByKindStatus _ _ limit, _ => ∀ n ∈ limit, n < 2 ^ 64
  | _, _ => True

/-- The payload can be sent, a created identifier is new, and a limit is small enough to be
a signed number. -/
def Good : JobCall → MemJobsRepo → Prop
  | .save entity, _ => ∀ payload ∈ entity.payloadJson, Sendable payload
  | .create id _ _ _ payloadJson, m =>
    (∀ payload ∈ payloadJson, Sendable payload) ∧ m.get id = none
  | .listByKindStatus _ _ limit, _ => ∀ n ∈ limit, n < 2 ^ 63
  | _, _ => True

end JobCall

/-- The statements are those of a repository of rows. -/
theorem PgJobsRepo.answer_eq (db : Db Json) (call : JobCall) :
    answer db call = jobStore.answer db call.toStore := by
  cases call with
  | listByKindStatus kind status limit => cases limit <;> rfl
  | get id => rfl
  | save entity => rfl
  | delete id => rfl
  | create id tenantId kind status payloadJson => rfl
  | setStatus id status => rfl

namespace MemJobsRepo

variable {r : MemJobsRepo}

theorem save_eq (r : MemJobsRepo) (entity : Job) :
    (r.save entity).1 = entity ∧ (r.save entity).2.byId = r.byId.save entity := by
  unfold save
  cases r.byId.get entity.id with
  | none => exact ⟨rfl, rfl⟩
  | some old =>
    dsimp only
    split <;> exact ⟨rfl, rfl⟩

theorem delete_eq (r : MemJobsRepo) (id : JobId) :
    (r.delete id).1 = (r.byId.get id).isSome ∧
      ∀ job, job ∈ (r.delete id).2.byId ↔ job ∈ r.byId.remove id := by
  unfold delete
  cases hold : r.byId.get id with
  | none =>
    refine ⟨rfl, fun job => ⟨fun hjob => Table.mem_remove.mpr ⟨hjob, fun hid => ?_⟩, fun hjob =>
      (Table.mem_remove.mp hjob).1⟩⟩
    exact Table.get_eq_none.mp hold ⟨job, hjob, hid⟩
  | some old => exact ⟨rfl, fun job => Iff.rfl⟩

theorem Consistent.listing_eq (h : Consistent r) (kind : JobKind) (status : JobStatus)
    (limit : Option ℕ) : r.listByKindStatus kind status limit =
      jobRows.listing r.byId.rows { kind, status, limit } := by
  have hperm := Indexes.filterMap_get_perm h (kind, status)
  have hsorted := pairwise_lt_insertionSort (fun a b (he : a.id.uuid = b.id.uuid) => JobId.ext he)
    hperm
  rw [jobRows.listing_eq (q := { kind, status, limit })
    ((List.perm_insertionSort _ _).trans hperm) hsorted]
  cases limit <;> rfl

/-- The index does not show. -/
theorem refines : jobRows.Refines JobCall.toStore answer byId Consistent where
  inv r c h := by
    cases c with
    | save entity => exact h.save entity
    | delete id => exact h.delete id
    | create id tenantId kind status payloadJson => exact h.save _
    | setStatus id status => exact h.setStatus id status
    | get id => exact h
    | listByKindStatus kind status limit => exact h
  fst r c h := by
    cases c with
    | save entity => exact congrArg StoreAnswer.saved (r.save_eq entity).1
    | delete id => exact congrArg StoreAnswer.done (r.delete_eq id).1
    | setStatus id status =>
      simp only [answer, JobCall.toStore, RowStore.answer, setStatus]
      cases r.byId.get id <;> rfl
    | listByKindStatus kind status limit =>
      exact congrArg StoreAnswer.listed (h.listing_eq kind status limit)
    | get id => rfl
    | create id tenantId kind status payloadJson => rfl
  mem r c h job := by
    cases c with
    | save entity => exact (r.save_eq entity).2 ▸ Iff.rfl
    | delete id => exact (r.delete_eq id).2 job
    | create id tenantId kind status payloadJson =>
      exact (r.save_eq { id, tenantId, kind, status, payloadJson }).2 ▸ Iff.rfl
    | setStatus id status =>
      simp only [answer, JobCall.toStore, RowStore.answer, setStatus]
      cases r.byId.get id <;> exact Iff.rfl
    | get id => exact Iff.rfl
    | listByKindStatus kind status limit => exact Iff.rfl

end MemJobsRepo

theorem Job.encodable_params (job : Job) :
    (jobStore.codec.params job).all Value.encodable = true ↔
      ∀ payload ∈ job.payloadJson, Sendable payload := by
  show ((Value.uuid job.id.uuid).encodable && ((Value.uuid job.tenantId.uuid).encodable &&
    ((Value.text job.kind.str).encodable && ((Value.text job.status.str).encodable &&
      ((Value.ofOption .text job.payloadJson : Value Json).encodable && true))))) = true ↔ _
  rw [JobKind.encodable_str, JobStatus.encodable_str]
  cases hpayload : job.payloadJson with
  | none => simp [Value.encodable, Value.ofOption]
  | some t => simp [Value.ofOption, ← encodable_text, Value.encodable]

theorem JobCall.good_iff (call : JobCall) (m : MemJobsRepo) :
    call.Good m ↔ jobStore.Good m.byId call.toStore := by
  cases call with
  | save entity => exact entity.encodable_params.symm
  | create id tenantId kind status payloadJson =>
    exact and_congr (Job.encodable_params ⟨id, tenantId, kind, status, payloadJson⟩).symm
      Table.get_eq_none
  | get id => exact Iff.rfl
  | delete id => exact Iff.rfl
  | setStatus id status => exact Iff.rfl
  | listByKindStatus kind status limit => exact Iff.rfl

theorem JobCall.store_assumed {db : Db Json} {call : JobCall} {m : MemJobsRepo}
    (h : call.Assumed db m) : jobStore.Assumed db call.toStore := by
  cases call with
  | save entity => exact jobCodec_valid h
  | create id tenantId kind status payloadJson => exact jobCodec_valid h
  | listByKindStatus kind status limit => exact h
  | get id => trivial
  | delete id => trivial
  | setStatus id status => trivial

/-- From a migrated database without jobs, the repositories answer alike exactly as long as
every payload can be sent, every created identifier is new, and every limit fits a signed
number. -/
theorem jobs_answerAlike_iff (db : Db Json) (hschema : db.schema = migrated)
    (hempty : db.rows "jobs" = []) (calls : List JobCall)
    (hassumed : Along (fun m c => (MemJobsRepo.answer m c).2) (JobCall.Assumed db) calls
      MemJobsRepo.new) :
    CodecStore.AnswerAlike MemJobsRepo.answer PgJobsRepo.answer calls MemJobsRepo.new db ↔
      Along (fun m c => (MemJobsRepo.answer m c).2) JobCall.Good calls MemJobsRepo.new :=
  jobStore.answerAlike_iff MemJobsRepo.refines PgJobsRepo.answer_eq
    (fun _ _ => JobCall.store_assumed) JobCall.good_iff .new
    (.initial (hschema ▸ rfl) hempty fun _ => List.not_mem_nil) calls hassumed

/-- Two jobs are created, one is started and saved again as done, and what is pending is
listed with the greatest limit of a machine word. -/
def unlimited : List JobCall :=
  [.create ⟨5⟩ ⟨1⟩ .chunk .pending none, .create ⟨6⟩ ⟨1⟩ .chunk .pending (some "{}"),
    .setStatus ⟨5⟩ .running, .listByKindStatus .chunk .pending (some 1),
    .save ⟨⟨5⟩, ⟨1⟩, .chunk, .done, none⟩, .delete ⟨7⟩,
    .listByKindStatus .chunk .pending (some (2 ^ 64 - 1))]

/-- The last listing fails over Postgres. -/
theorem jobs_answerAlike_iff_unlimited :
    ¬ CodecStore.AnswerAlike MemJobsRepo.answer PgJobsRepo.answer unlimited MemJobsRepo.new
      (oneDocument []) := by
  have htenant := hasTenant_oneDocument []
  rw [jobs_answerAlike_iff (oneDocument []) rfl rfl unlimited
    ⟨htenant, htenant, trivial, by rintro n ⟨⟩; decide, htenant, trivial, by rintro n ⟨⟩; decide,
      trivial⟩]
  rintro ⟨-, -, -, -, -, -, hlimit, -⟩
  exact absurd (hlimit (2 ^ 64 - 1) rfl) (by decide)

end Contexide.StoragePg
