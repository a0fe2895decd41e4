import Contexide.Core.Ids
import Contexide.Storage.SetIndex

/-! The repository of jobs in memory: a table by id and, for quick scans, an index
by kind and status. Whatever calls are made, a scan through the index gives what
the table has. -/

namespace Contexide.StoragePg

open Storage

inductive JobKind where
  | ingest | extract | normalize | chunk | embed | index
  deriving DecidableEq, Repr

inductive JobStatus where
  | pending | running | done | failed
  deriving DecidableEq, Repr

@[ext] structure Job where
  id : JobId
  tenantId : TenantId
  kind : JobKind
  status : JobStatus
  payloadJson : Option String
  deriving DecidableEq, Repr

namespace Job

/-- What the index files a job under. -/
def kindStatus (job : Job) : JobKind × JobStatus := (job.kind, job.status)

end Job

structure MemJobsRepo where
  byId : Table Job.id
  byKindStatus : Assoc (JobKind × JobStatus) (KeySet JobId)

namespace MemJobsRepo

def new : MemJobsRepo := ⟨.empty, .empty⟩

section

variable (r : MemJobsRepo)

def idxAdd (kind : JobKind) (status : JobStatus) (id : JobId) : MemJobsRepo :=
  { r with byKindStatus := setAdd r.byKindStatus (kind, status) id }

def idxMove (id : JobId) (old new : JobKind × JobStatus) : MemJobsRepo :=
  { r with byKindStatus := setAdd (setRemove r.byKindStatus old id) new id }

def idxRemove (kind : JobKind) (status : JobStatus) (id : JobId) : MemJobsRepo :=
  { r with byKindStatus := setRemove r.byKindStatus (kind, status) id }

def get (id : JobId) : Option Job := r.byId.get id

/-- Insert or update; a job whose kind or status changed moves in the index. -/
def save (entity : Job) : Job × MemJobsRepo :=
  let stored := { r with byId := r.byId.save entity }
  match r.byId.get entity.id with
  | none => (entity, stored.idxAdd entity.kind entity.status entity.id)
  | some old =>
    if (old.kind, old.status) ≠ (entity.kind, entity.status) then
      (entity,
        stored.idxMove entity.id (old.kind, old.status) (entity.kind, entity.status))
    else (entity, stored)

/-- Delete by id; whether something was removed. -/
def delete (id : JobId) : Bool × MemJobsRepo :=
  match r.byId.get id with
  | some old => (true, { r with byId := r.byId.remove id }.idxRemove old.kind old.status id)
  | none => (false, r)

/-- The id is the one that is drawn. -/
def create (id : JobId) (tenantId : TenantId) (kind : JobKind) (status : JobStatus)
    (payloadJson : Option String) : JobId × MemJobsRepo :=
  (id, (r.save { id, tenantId, kind, status, payloadJson }).2)

def setStatus (id : JobId) (status : JobStatus) : Bool × MemJobsRepo :=
  match r.byId.get id with
  | some job =>
    -- the index moves the job even when the status is the one it has
    (true, { r with byId := r.byId.save { job with status } }.idxMove id (job.kind, job.status)
      (job.kind, status))
  | none => (false, r)

def listByKindStatus (kind : JobKind) (status : JobStatus) (limit : Option ℕ) : List Job :=
  let ids := (keysOf r.byKindStatus (kind, status)).rows
  let out := (ids.filterMap r.byId.get).insertionSort fun a b => a.id.uuid ≤ b.id.uuid
  match limit with
  | some n => out.take n
  | none => out

end

/-! ### Runs -/

/-- The calls that change the repository. -/
inductive Call where
  | create (id : JobId) (tenantId : TenantId) (kind : JobKind) (status : JobStatus)
    (payloadJson : Option String)
  | save (entity : Job)
  | setStatus (id : JobId) (status : JobStatus)
  | delete (id : JobId)

def Call.run (r : MemJobsRepo) : Call → MemJobsRepo
  | .create id tenantId kind status payloadJson =>
    (r.create id tenantId kind status payloadJson).2
  | .save entity => (r.save entity).2
  | .setStatus id status => (r.setStatus id status).2
  | .delete id => (r.delete id).2

/-- The repository after a sequence of calls. -/
def after (calls : List Call) : MemJobsRepo := calls.foldl Call.run new

/-- The index has every job under its kind and status, and nothing else. -/
def Consistent (r : MemJobsRepo) : Prop := Indexes Job.kindStatus r.byId r.byKindStatus

namespace Consistent

variable {r : MemJobsRepo}

theorem new : Consistent MemJobsRepo.new := .empty

theorem save (h : Consistent r) (entity : Job) : Consistent (r.save entity).2 := by
  unfold MemJobsRepo.save
  dsimp only
  cases hold : r.byId.get entity.id with
  | none => exact Indexes.save_new h (Table.get_eq_none.mp hold)
  | some old =>
    obtain ⟨hmem, hid⟩ := Table.get_eq_some.mp hold
    dsimp only
    split
    · exact Indexes.save_move h hmem hid
    · next hsame => exact Indexes.save_same h hmem hid (Classical.not_not.mp hsame)

theorem delete (h : Consistent r) (id : JobId) : Consistent (r.delete id).2 := by
  unfold MemJobsRepo.delete
  cases hold : r.byId.get id with
  | none => exact h
  | some old =>
    obtain ⟨hmem, rfl⟩ := Table.get_eq_some.mp hold
    exact Indexes.remove h hmem

theorem setStatus (h : Consistent r) (id : JobId) (status : JobStatus) :
    Consistent (r.setStatus id status).2 := by
  unfold MemJobsRepo.setStatus
  cases hold : r.byId.get id with
  | none => exact h
  | some job =>
    obtain ⟨hmem, rfl⟩ := Table.get_eq_some.mp hold
    exact Indexes.save_move (v := { job with status }) h hmem rfl

theorem run (h : Consistent r) (call : Call) : Consistent (call.run r) := by
  cases call with
  | create id tenantId kind status payloadJson => exact h.save _
  | save entity => exact h.save entity
  | setStatus id status => exact h.setStatus id status
  | delete id => exact h.delete id

theorem foldl_run (h : Consistent r) (calls : List Call) :
    Consistent (calls.foldl Call.run r) := by
  induction calls generalizing r with
  | nil => exact h
  | cons call calls ih => exact ih (h.run call)

theorem after (calls : List Call) : Consistent (MemJobsRepo.after calls) := new.foldl_run calls

/-- Every scan is a beginning of one list: the stored jobs of the kind and status, each
once, by id. -/
theorem listByKindStatus (h : Consistent r) (kind : JobKind) (status : JobStatus) :
    ∃ jobs : List Job,
      (∀ job, job ∈ jobs ↔ job ∈ r.byId ∧ job.kind = kind ∧ job.status = status) ∧
      (jobs.Pairwise fun a b => a.id.uuid < b.id.uuid) ∧
      ∀ limit, r.listByKindStatus kind status limit = limit.elim jobs jobs.take := by
  have hperm := Indexes.filterMap_get_perm h (kind, status)
  have hrank : ∀ a b : Job, a.id.uuid = b.id.uuid → a.id = b.id := fun _ _ => JobId.ext
  refine ⟨_, fun job => ?_, pairwise_lt_insertionSort hrank hperm, fun limit => ?_⟩
  · rw [((List.perm_insertionSort _ _).trans hperm).mem_iff, List.mem_filter, decide_eq_true_iff,
      Table.mem_def, Job.kindStatus, Prod.mk.injEq]
  · cases limit <;> rfl

end Consistent

/-- In every reachable state a scan by kind and status is exact, and the index has
neither an empty set nor the id of a job that is not there. -/
theorem index_consistent (calls : List Call) :
    (∀ kind status, ∃ jobs : List Job,
      (∀ job, job ∈ jobs ↔
        job ∈ (after calls).byId ∧ job.kind = kind ∧ job.status = status) ∧
      (jobs.Pairwise fun a b => a.id.uuid < b.id.uuid) ∧
      ∀ limit, (after calls).listByKindStatus kind status limit = limit.elim jobs jobs.take) ∧
    ∀ p set, (after calls).byKindStatus.find p = some set →
      (∃ id, id ∈ set) ∧ ∀ id ∈ set, ∃ job, (after calls).get id = some job := by
  have h := Consistent.after calls
  refine ⟨h.listByKindStatus, fun p set hset => ⟨h.noEmptySet p set hset, fun id hid => ?_⟩⟩
  obtain ⟨job, hjob, rfl⟩ := Indexes.has_of_find h hset hid
  exact ⟨job, Table.get_of_mem hjob⟩

end MemJobsRepo

end Contexide.StoragePg
