import Contexide.Core.Errors
import Contexide.Core.Ids
import Contexide.Storage.UniqueIndex

/-! The in-memory tenants repository: the tenants by id, with unique secondary
indices by name and by email. Each operation runs alone. -/

namespace Contexide.StoragePg

open Storage

structure Tenant where
  id : TenantId
  name : String
  email : String
  deriving DecidableEq, Repr

/-- In-memory tenants repository. -/
structure MemTenantsRepo where
  byId : Table Tenant.id
  byName : Assoc String TenantId
  byEmail : Assoc String TenantId

namespace MemTenantsRepo

def new : MemTenantsRepo := ⟨.empty, .empty, .empty⟩

variable (r : MemTenantsRepo)

/-- Save (create or update) and return the stored entity. -/
def save (entity : Tenant) : Tenant × MemTenantsRepo :=
  (entity,
    { byId := r.byId.save entity
      byName := r.byName.insert entity.name entity.id
      byEmail := r.byEmail.insert entity.email entity.id })

/-- An index without the entry of a value, if that points to the id. -/
def unmap (idx : Assoc String TenantId) (value : String) (id : TenantId) : Assoc String TenantId :=
  if idx.find value = some id then Table.remove idx value else idx

/-- Delete by id; returns whether a row was removed. -/
def delete (id : TenantId) : Bool × MemTenantsRepo :=
  match r.byId.get id with
  | some old =>
    (true,
      { byId := r.byId.remove id
        byName := unmap r.byName old.name id
        byEmail := unmap r.byEmail old.email id })
  | none => (false, r)

/-- Idempotent create by `(name, email)`, enforcing uniqueness of both fields; `id`
is the identifier that a new tenant takes. -/
def create (id : TenantId) (name email : String) : Except Error TenantId × MemTenantsRepo :=
  match r.byName.find name, r.byEmail.find email with
  | some idN, some idE =>
    if idN = idE then (.ok idN, r)
    else
      (.error (.other ("tenant conflict: name '" ++ name ++ "' and email '" ++ email ++
        "' map to different tenants")), r)
  | some idN, none =>
    if (r.byId.get idN).any fun t => t.email = email then (.ok idN, r)
    else
      (.error (.other ("tenant conflict: name '" ++ name ++
        "' already exists with different email")), r)
  | none, some idE =>
    if (r.byId.get idE).any fun t => t.name = name then (.ok idE, r)
    else
      (.error (.other ("tenant conflict: email '" ++ email ++
        "' already exists with different name")), r)
  | none, none => (.ok id, (r.save { id, name, email }).2)

def getByName (name : String) : Option Tenant := (r.byName.find name).bind r.byId.get

def getByEmail (email : String) : Option Tenant := (r.byEmail.find email).bind r.byId.get

end MemTenantsRepo

/-- The calls on a repository. -/
inductive TenantsCall where
  | create (id : TenantId) (name email : String)
  | save (entity : Tenant)
  | delete (id : TenantId)
  | getByName (name : String)
  | getByEmail (email : String)

open MemTenantsRepo

/-- The repository after a call. -/
def TenantsCall.run (r : MemTenantsRepo) : TenantsCall → MemTenantsRepo
  | .create id name email => (r.create id name email).2
  | .save entity => (r.save entity).2
  | .delete id => (r.delete id).2
  | .getByName _ => r
  | .getByEmail _ => r

/-- The repositories that a sequence of calls goes through. -/
def TenantsCall.states (r : MemTenantsRepo) : List TenantsCall → List MemTenantsRepo
  | [] => [r]
  | call :: calls => r :: states (call.run r) calls

/-- The condition holds of each call in the repository where it is made. -/
def TenantsCall.Each (P : MemTenantsRepo → TenantsCall → Prop) (r : MemTenantsRepo) :
    List TenantsCall → Prop
  | [] => True
  | call :: calls => P r call ∧ Each P (call.run r) calls

/-- A new identifier is one that no stored tenant has, and a saved tenant has the
name and the email of no other stored one. -/
def Allowed (r : MemTenantsRepo) : TenantsCall → Prop
  | .create id _ _ => ¬ r.byId.Has id
  | .save entity => ∀ t ∈ r.byId, t.id ≠ entity.id → t.name ≠ entity.name ∧ t.email ≠ entity.email
  | _ => True

/-- A saved tenant keeps its stored name and email. -/
def KeepsNames (r : MemTenantsRepo) : TenantsCall → Prop
  | .save entity => ∀ t ∈ r.byId, t.id = entity.id → t.name = entity.name ∧ t.email = entity.email
  | _ => True

/-- The lookups find the stored tenants by their names and emails, and a pair that
no stored tenant has a part of can be created. -/
structure Consistent (r : MemTenantsRepo) : Prop where
  name : ∀ name t, r.getByName name = some t ↔ t ∈ r.byId ∧ t.name = name
  email : ∀ email t, r.getByEmail email = some t ↔ t ∈ r.byId ∧ t.email = email
  create : ∀ id name email, (∀ t ∈ r.byId, t.name ≠ name ∧ t.email ≠ email) →
    ∃ id', (r.create id name email).1 = .ok id'

/-- Both indices are exact. -/
structure Indexed (r : MemTenantsRepo) : Prop where
  name : IndexExact r.byName r.byId Tenant.name
  email : IndexExact r.byEmail r.byId Tenant.email

namespace Indexed

theorem new : Indexed MemTenantsRepo.new := ⟨.empty, .empty⟩

variable {r : MemTenantsRepo}

theorem consistent (h : Indexed r) : Consistent r where
  name _ _ := h.name.get_find
  email _ _ := h.email.get_find
  create id name email hno := by
    have hn := h.name.find_eq_none.mpr fun t ht => (hno t ht).1
    have he := h.email.find_eq_none.mpr fun t ht => (hno t ht).2
    exact ⟨id, by rw [MemTenantsRepo.create, hn, he]⟩

theorem save (h : Indexed r) {t : Tenant} (ha : Allowed r (.save t))
    (hk : KeepsNames r (.save t)) : Indexed (r.save t).2 where
  name := h.name.save (fun u hu hne => (ha u hu hne).1) fun u hu he => (hk u hu he).1
  email := h.email.save (fun u hu hne => (ha u hu hne).2) fun u hu he => (hk u hu he).2

theorem delete (h : Indexed r) (id : TenantId) : Indexed (r.delete id).2 := by
  unfold MemTenantsRepo.delete
  cases hold : r.byId.get id with
  | none => exact h
  | some old =>
    obtain ⟨hmem, rfl⟩ := Table.get_eq_some.mp hold
    have hname := (h.name old.name old.id).mpr ⟨old, hmem, rfl, rfl⟩
    have hemail := (h.email old.email old.id).mpr ⟨old, hmem, rfl, rfl⟩
    constructor
    · simp only [unmap, hname, ↓reduceIte]
      exact h.name.remove hmem
    · simp only [unmap, hemail, ↓reduceIte]
      exact h.email.remove hmem

theorem create (h : Indexed r) {id : TenantId} {name email : String}
    (ha : Allowed r (.create id name email)) : Indexed (r.create id name email).2 := by
  unfold MemTenantsRepo.create
  cases hn : r.byName.find name with
  | some idN =>
    cases r.byEmail.find email with
    | some idE => dsimp only; split <;> exact h
    | none => dsimp only; split <;> exact h
  | none =>
    cases he : r.byEmail.find email with
    | some idE => dsimp only; split <;> exact h
    | none =>
      have hnew : ∀ t ∈ r.byId, t.id ≠ id := fun t ht hid => ha ⟨t, ht, hid⟩
      refine h.save (fun t ht _ => ?_) fun t ht hid => absurd hid (hnew t ht)
      exact ⟨h.name.find_eq_none.mp hn t ht, h.email.find_eq_none.mp he t ht⟩

/-- A call that renames no stored tenant keeps the indices exact. -/
theorem run (h : Indexed r) {call : TenantsCall} (ha : Allowed r call)
    (hk : KeepsNames r call) : Indexed (call.run r) := by
  cases call with
  | create id name email => exact h.create ha
  | save entity => exact h.save ha hk
  | delete id => exact h.delete id
  | getByName name => exact h
  | getByEmail email => exact h

end Indexed

/-- After a save that changes a stored value, the old value still leads to the row. -/
theorem stale_find {idx : Assoc String TenantId} {t : Table Tenant.id} {f : Tenant → String}
    (h : IndexExact idx t f) {old entity : Tenant} (ho : old ∈ t) (hid : old.id = entity.id)
    (hne : f old ≠ f entity) :
    ((idx.insert (f entity) entity.id).find (f old)).bind (t.save entity).get = some entity := by
  have hold := (h (f old) old.id).mpr ⟨old, ho, rfl, rfl⟩
  rw [Assoc.find_insert, if_neg (Ne.symm hne), hold, Option.bind_some, hid]
  exact Table.get_of_mem (Table.mem_save_self t entity)

/-- A call that leaves the repository consistent has renamed no tenant. -/
theorem keepsNames_of_consistent {r : MemTenantsRepo} (h : Indexed r) {call : TenantsCall}
    (hc : Consistent (call.run r)) : KeepsNames r call := by
  cases call with
  | save entity =>
    intro old ho hid
    constructor
    · by_contra hne
      exact hne ((hc.name old.name entity).mp (stale_find h.name ho hid hne)).2.symm
    · by_contra hne
      exact hne ((hc.email old.email entity).mp (stale_find h.email ho hid hne)).2.symm
  | _ => trivial

theorem mem_states (r : MemTenantsRepo) (calls : List TenantsCall) :
    r ∈ TenantsCall.states r calls := by
  cases calls with
  | nil => exact List.mem_singleton_self r
  | cons call calls => exact List.mem_cons_self

/-- The run of calls from a repository with exact indices. -/
theorem Indexed.consistent_states_iff (calls : List TenantsCall) {r : MemTenantsRepo}
    (h : Indexed r) (ha : TenantsCall.Each Allowed r calls) :
    (∀ s ∈ TenantsCall.states r calls, Consistent s) ↔ TenantsCall.Each KeepsNames r calls := by
  induction calls generalizing r with
  | nil =>
    simp only [TenantsCall.states, TenantsCall.Each, List.mem_singleton, iff_true]
    rintro s rfl
    exact h.consistent
  | cons call calls ih =>
    obtain ⟨hcall, hcalls⟩ := ha
    rw [TenantsCall.states, List.forall_mem_cons, TenantsCall.Each]
    constructor
    · rintro ⟨_, hrest⟩
      have hk := keepsNames_of_consistent h (hrest _ (mem_states _ calls))
      exact ⟨hk, (ih (h.run hcall hk) hcalls).mp hrest⟩
    · rintro ⟨hk, hrest⟩
      exact ⟨h.consistent, (ih (h.run hcall hk) hcalls).mpr hrest⟩

/-- Over any sequence of calls: the repository is consistent in every state exactly
when no call renames a stored tenant. -/
theorem consistent_iff (calls : List TenantsCall)
    (ha : TenantsCall.Each Allowed MemTenantsRepo.new calls) :
    (∀ r ∈ TenantsCall.states MemTenantsRepo.new calls, Consistent r) ↔
      TenantsCall.Each KeepsNames MemTenantsRepo.new calls :=
  Indexed.new.consistent_states_iff calls ha

/-- A tenant that is created and then renamed. -/
def renamingCalls : List TenantsCall :=
  [.create ⟨0⟩ "acme" "ops@acme.io", .save ⟨⟨0⟩, "acme-labs", "ops@acme.io"⟩]

theorem renamingCalls_allowed : TenantsCall.Each Allowed MemTenantsRepo.new renamingCalls := by
  refine ⟨Table.not_has_empty _, fun t ht hid => ?_, trivial⟩
  obtain rfl := List.mem_singleton.mp ht
  exact absurd rfl hid

theorem consistent_iff_renaming :
    (∀ r ∈ TenantsCall.states MemTenantsRepo.new renamingCalls, Consistent r) ↔
      TenantsCall.Each KeepsNames MemTenantsRepo.new renamingCalls :=
  consistent_iff renamingCalls renamingCalls_allowed

/-- The old name of a renamed tenant still finds it. -/
theorem renamed_tenant_found : ¬ ∀ calls, TenantsCall.Each Allowed MemTenantsRepo.new calls →
    ∀ r ∈ TenantsCall.states MemTenantsRepo.new calls, Consistent r := by
  intro h
  have hc := h renamingCalls renamingCalls_allowed _
    (List.mem_cons_of_mem _ (List.mem_cons_of_mem _ (List.mem_singleton_self _)))
  have hname := (hc.name "acme" ⟨⟨0⟩, "acme-labs", "ops@acme.io"⟩).mp (by decide)
  exact absurd hname.2 (by decide)

end Contexide.StoragePg
