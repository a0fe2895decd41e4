import Contexide.Sql.Keyed
import Contexide.StoragePg.Migrations
import Contexide.StoragePg.Tenants

/-! The creation of tenants over Postgres: two selections, and an insert when both found
nothing. There is no transaction around them and no conflict clause, so that each
statement sees the table as the statements of other calls have left it. -/

namespace Contexide.StoragePg

open Sql

/-- How a call can fail: a database error as it is, or a conflict with its text. -/
inductive PgError where
  | db (e : SqlError)
  | other (text : String)
  deriving DecidableEq, Repr

/-- Decode an answer row. -/
def Tenant.fromRow (row : ResultRow Json) : Except SqlError Tenant := do
  let id ← row.tryGet "id" Value.asUuid
  let name ← row.tryGet "name" Value.asText
  let email ← row.tryGet "email" Value.asText
  .ok ⟨⟨id⟩, name, email⟩

namespace PgTenantsRepo

variable (db : Db Json)

/-- `select id, name, email from tenants where column = $1`, at most one row of it. -/
def selectBy (column value : String) : Except SqlError (Option Tenant) := do
  let rows ← db.select
    { table := "tenants", columns := ["id", "name", "email"], whereColumn := column,
      orderBy := [] }
    [.text value]
  match rows with
  | [] => .ok none
  | row :: _ => do
    let t ← Tenant.fromRow row
    .ok (some t)

/-- `insert into tenants (id, name, email) values ($1, $2, $3) returning id`. -/
def insertStatement : Insert where
  table := "tenants"
  columns := ["id", "name", "email"]
  onConflict := none
  returning := ["id"]

def insertNew (t : Tenant) : Except SqlError (TenantId × Db Json) := do
  let (db', row) ← db.insert insertStatement [.uuid t.id.uuid, .text t.name, .text t.email]
  let id ← row.tryGet "id" Value.asUuid
  .ok (⟨id⟩, db')

/-- What a call returns on the two rows it has read, unless it goes on to the insert. -/
def resolve (name email : String) : Option Tenant → Option Tenant →
    Option (Except PgError TenantId)
  | some n, some e =>
    if n.id = e.id then some (.ok n.id)
    else some (.error (.other ("tenant conflict: name '" ++ name ++ "' and email '" ++ email ++
      "' map to different tenants")))
  | some n, none =>
    if n.email = email then some (.ok n.id)
    else some (.error (.other ("tenant conflict: name '" ++ name ++
      "' already exists with different email")))
  | none, some e =>
    if e.name = name then some (.ok e.id)
    else some (.error (.other ("tenant conflict: email '" ++ email ++
      "' already exists with different name")))
  | none, none => none

/-- Idempotent create by `(name, email)`, with no other call in between; `newId` is the
identifier that a new tenant takes. -/
def create (newId : TenantId) (name email : String) : Except PgError TenantId × Db Json :=
  match selectBy db "name" name with
  | .error e => (.error (.db e), db)
  | .ok byName =>
    match selectBy db "email" email with
    | .error e => (.error (.db e), db)
    | .ok byEmail =>
      match resolve name email byName byEmail with
      | some r => (r, db)
      | none =>
        match insertNew db ⟨newId, name, email⟩ with
        | .error e => (.error (.db e), db)
        | .ok (id, db') => (.ok id, db')

end PgTenantsRepo

/-! ### The table of tenants -/

/-- The table as the migrations leave it: the unique columns are indexed once more. -/
def tenantsTable : TableDef Json :=
  { Migrations.tenants with unique := [["id"], ["name"], ["email"], ["name"], ["email"]] }

theorem migrated_tenants : migrated.table "tenants" = .ok tenantsTable := rfl

/-- A text that can be sent as a parameter. -/
def Sendable (s : String) : Prop := '\x00' ∉ s.toList

instance (s : String) : Decidable (Sendable s) := inferInstanceAs (Decidable (¬ _))

theorem encodable_text {s : String} :
    (Value.text s : Value Json).encodable = true ↔ Sendable s := by
  simp [Value.encodable, Sendable]

/-- The row keeps the tenant. -/
structure KeepsTenant (row : Row Json) (t : Tenant) : Prop where
  id : row "id" = .uuid t.id.uuid
  name : row "name" = .text t.name
  email : row "email" = .text t.email

/-- The answer row that shows the tenant. -/
def Tenant.answer (t : Tenant) : ResultRow Json :=
  [("id", .uuid t.id.uuid), ("name", .text t.name), ("email", .text t.email)]

theorem KeepsTenant.project {row : Row Json} {t : Tenant} (h : KeepsTenant row t) :
    row.project ["id", "name", "email"] = t.answer := by
  simp only [Row.project, List.map_cons, List.map_nil, h.id, h.name, h.email, Tenant.answer]

theorem Tenant.fromRow_answer (t : Tenant) : Tenant.fromRow t.answer = .ok t := rfl

/-- The table holds exactly the tenants, with an identifier, a name and an email of its
own each. -/
structure HoldsTenants (db : Db Json) (ts : List Tenant) : Prop where
  schema : db.schema.table "tenants" = .ok tenantsTable
  rows : List.Forall₂ KeepsTenant (db.rows "tenants") ts
  ids : (ts.map Tenant.id).Nodup
  names : (ts.map Tenant.name).Nodup
  emails : (ts.map Tenant.email).Nodup

namespace HoldsTenants

variable {db : Db Json} {ts : List Tenant}

theorem eq_of_id (h : HoldsTenants db ts) {t u : Tenant} (ht : t ∈ ts) (hu : u ∈ ts)
    (hid : t.id = u.id) : t = u :=
  List.inj_on_of_nodup_map h.ids ht hu hid

theorem eq_of_name (h : HoldsTenants db ts) {t u : Tenant} (ht : t ∈ ts) (hu : u ∈ ts)
    (hname : t.name = u.name) : t = u :=
  List.inj_on_of_nodup_map h.names ht hu hname

theorem eq_of_email (h : HoldsTenants db ts) {t u : Tenant} (ht : t ∈ ts) (hu : u ∈ ts)
    (hemail : t.email = u.email) : t = u :=
  List.inj_on_of_nodup_map h.emails ht hu hemail

theorem requireColumns_eq {names : List String}
    (h : names.all (["id", "name", "email"].contains ·) = true) :
    tenantsTable.requireColumns names = .ok () := by
  have hnil : tenantsTable.undefined names = [] := by
    rw [TableDef.undefined, List.filter_eq_nil_iff]
    intro n hn
    have hmem := List.all_eq_true.mp h n hn
    simp only [List.contains_cons, List.contains_nil, Bool.or_false, Bool.or_eq_true,
      beq_iff_eq] at hmem
    rcases hmem with rfl | rfl | rfl <;> decide
  rw [TableDef.requireColumns, hnil]

/-- A selection by a column returns the tenant with the value, if there is one. -/
theorem selectBy_eq (h : HoldsTenants db ts) {column : String} {f : Tenant → String}
    (hcol : ["id", "name", "email"].contains column = true)
    (hf : ∀ row t, KeepsTenant row t → row column = .text (f t)) {value : String}
    (hv : Sendable value) :
    PgTenantsRepo.selectBy db column value = .ok (ts.find? fun t => f t = value) := by
  have hfilter : List.Forall₂ KeepsTenant
      ((db.rows "tenants").filter fun r => (r column).sqlEq (.text value))
      (ts.filter fun t => f t = value) := by
    refine List.rel_filter (fun r t hrt => ?_) h.rows
    show (r column).sqlEq (.text value) = true ↔ decide (f t = value) = true
    rw [hf r t hrt, decide_eq_true_eq]
    exact beq_iff_eq
  have hselect : db.select
      { table := "tenants", columns := ["id", "name", "email"], whereColumn := column,
        orderBy := [] } [.text value] =
      .ok (((db.rows "tenants").filter fun r => (r column).sqlEq (.text value)).map
        fun r => r.project ["id", "name", "email"]) := by
    rw [Db.select_eq h.schema (requireColumns_eq (by simpa using hcol))
      (by simpa using encodable_text.mpr hv)]
    show Except.ok (((_ : List (Row Json)).insertionSort _).map _) = _
    rw [Db.insertionSort_precedes_nil fun r => r]
    rfl
  rw [PgTenantsRepo.selectBy, hselect, ← List.head?_filter]
  generalize (db.rows "tenants").filter
    (fun r => (r column).sqlEq (.text value)) = rows at hfilter ⊢
  generalize ts.filter (fun t => decide (f t = value)) = us at hfilter ⊢
  cases hfilter with
  | nil => rfl
  | @cons row t rows us hrow _ =>
    show (Tenant.fromRow (row.project ["id", "name", "email"]) >>= _) = _
    rw [hrow.project, Tenant.fromRow_answer]
    rfl

/-- A text that cannot be sent fails the selection. -/
theorem selectBy_invalid (h : HoldsTenants db ts) {column : String}
    (hcol : ["id", "name", "email"].contains column = true) {value : String}
    (hv : ¬ Sendable value) :
    PgTenantsRepo.selectBy db column value = .error .invalidText := by
  have henc : [(Value.text value : Value Json)].all Value.encodable = false := by
    rw [← Bool.not_eq_true]
    simpa using encodable_text.not.mpr hv
  rw [PgTenantsRepo.selectBy,
    Db.select_invalid h.schema (requireColumns_eq (by simpa using hcol)) henc]
  rfl

/-- What is decided on two reads is decided on a stored tenant: it has the pair that was
asked for, or one part of it. -/
theorem resolve_cases (h : HoldsTenants db ts) {name email : String}
    {byName byEmail : Option Tenant} (hn : ∀ n, byName = some n → n ∈ ts ∧ n.name = name)
    (he : ∀ e, byEmail = some e → e ∈ ts ∧ e.email = email) {r : Except PgError TenantId}
    (hr : PgTenantsRepo.resolve name email byName byEmail = some r) :
    ∃ t ∈ ts, (t.name = name ∧ t.email = email ∧ r = .ok t.id) ∨
      (t.name = name ∧ t.email ≠ email ∨ t.name ≠ name ∧ t.email = email) ∧
        ∃ e, r = .error e := by
  cases byName with
  | none =>
    cases byEmail with
    | none => cases hr
    | some e =>
      obtain ⟨hemem, heemail⟩ := he e rfl
      refine ⟨e, hemem, ?_⟩
      rw [PgTenantsRepo.resolve] at hr
      split at hr
      · next hename => exact .inl ⟨hename, heemail, (Option.some.inj hr).symm⟩
      · next hename => exact .inr ⟨.inr ⟨hename, heemail⟩, _, (Option.some.inj hr).symm⟩
  | some n =>
    obtain ⟨hnmem, hnname⟩ := hn n rfl
    refine ⟨n, hnmem, ?_⟩
    cases byEmail with
    | none =>
      rw [PgTenantsRepo.resolve] at hr
      split at hr
      · next hnemail => exact .inl ⟨hnname, hnemail, (Option.some.inj hr).symm⟩
      · next hnemail => exact .inr ⟨.inl ⟨hnname, hnemail⟩, _, (Option.some.inj hr).symm⟩
    | some e =>
      obtain ⟨hemem, heemail⟩ := he e rfl
      rw [PgTenantsRepo.resolve] at hr
      split at hr
      · next hid =>
        obtain rfl := h.eq_of_id hnmem hemem hid
        exact .inl ⟨hnname, heemail, (Option.some.inj hr).symm⟩
      · next hid =>
        -- with the same email the two rows would be one
        have hnemail : n.email ≠ email := by
          intro hnemail
          rw [h.eq_of_email hnmem hemem (hnemail.trans heemail.symm)] at hid
          exact hid rfl
        exact .inr ⟨.inl ⟨hnname, hnemail⟩, _, (Option.some.inj hr).symm⟩

end HoldsTenants

/-! ### The insert -/

theorem map_column {rows : List (Row Json)} {ts : List Tenant}
    (h : List.Forall₂ KeepsTenant rows ts) {column : String} {g : Tenant → Value Json}
    (hg : ∀ row t, KeepsTenant row t → row column = g t) :
    rows.map (fun r => r column) = ts.map g := by
  induction h with
  | nil => rfl
  | cons hrow _ ih => rw [List.map_cons, List.map_cons, hg _ _ hrow, ih]

/-- A column is unique in the rows when its values in the tenants are pairwise different. -/
theorem pairwise_column {α : Type} {rows : List (Row Json)} {ts : List Tenant}
    (h : List.Forall₂ KeepsTenant rows ts) {column : String} {g : Tenant → Value Json}
    {f : Tenant → α} (hg : ∀ row t, KeepsTenant row t → row column = g t)
    (hf : ∀ t u, (g t).sqlEq (g u) = false ↔ f t ≠ f u) :
    (rows.Pairwise fun r r' => Db.collide [column] r r' = false) ↔ (ts.map f).Nodup := by
  have hvalues : (rows.Pairwise fun r r' => Db.collide [column] r r' = false) ↔
      (rows.map fun r => r column).Pairwise fun v w => v.sqlEq w = false := by
    rw [List.pairwise_map]
    exact List.Pairwise.iff fun r r' => by simp [Db.collide]
  rw [hvalues, map_column h hg, List.pairwise_map, List.nodup_iff_pairwise_ne, List.pairwise_map]
  exact List.Pairwise.iff hf

theorem sqlEq_text {s s' : String} :
    (Value.text s : Value Json).sqlEq (.text s') = false ↔ s ≠ s' := beq_eq_false_iff_ne

theorem uniqueViolations_eq_nil_iff {rows : List (Row Json)} {ts : List Tenant}
    (h : List.Forall₂ KeepsTenant rows ts) :
    Db.uniqueViolations tenantsTable rows = [] ↔ (ts.map Tenant.id).Nodup ∧
      (ts.map Tenant.name).Nodup ∧ (ts.map Tenant.email).Nodup := by
  have hid := pairwise_column (f := Tenant.id) h (fun _ _ hrow => hrow.id) fun t u => by
    rw [Value.sqlEq_uuid, decide_eq_false_iff_not, ne_eq, TenantId.ext_iff]
  have hname := pairwise_column (f := Tenant.name) h (fun _ _ hrow => hrow.name)
    fun _ _ => sqlEq_text
  have hemail := pairwise_column (f := Tenant.email) h (fun _ _ hrow => hrow.email)
    fun _ _ => sqlEq_text
  rw [← hid, ← hname, ← hemail, Db.uniqueViolations, List.filterMap_eq_nil_iff]
  simp only [tenantsTable, List.mem_cons, List.not_mem_nil, or_false, forall_eq_or_imp, forall_eq,
    ite_eq_left_iff, reduceCtorEq, imp_false, not_not]
  tauto

section Insert

variable {db : Db Json} {ts : List Tenant}

/-- The row that an insert proposes. -/
def newRow (db : Db Json) (t : Tenant) : Row Json :=
  Row.proposed tenantsTable ["id", "name", "email"]
    [.uuid t.id.uuid, .text t.name, .text t.email] db.clock

theorem keepsTenant_newRow (t : Tenant) : KeepsTenant (newRow db t) t := ⟨rfl, rfl, rfl⟩

/-- Storing a new row fails on nothing but the unique columns. -/
theorem store_newRow (t : Tenant) (rows : List (Row Json)) :
    db.store "tenants" tenantsTable [] [newRow db t] rows =
      match Db.uniqueViolations tenantsTable rows with
      | [] => .ok { db with
          rows := Function.update db.rows "tenants" rows, clock := db.clock + 1 }
      | e :: _ => .error e := rfl

theorem HoldsTenants.insert_eq (h : HoldsTenants db ts) {t : Tenant} (hname : Sendable t.name)
    (hemail : Sendable t.email) :
    PgTenantsRepo.insertNew db t =
      (db.store "tenants" tenantsTable [] [newRow db t] (db.rows "tenants" ++ [newRow db t])).map
        fun db' => (t.id, db') := by
  have henc : Db.requireEncodable [(.uuid t.id.uuid : Value Json), .text t.name, .text t.email] =
      .ok () := by
    apply Db.requireEncodable_of_all
    simp only [List.all_cons, List.all_nil, encodable_text.mpr hname, encodable_text.mpr hemail,
      Bool.and_true]
    rfl
  have hinsert : db.insert PgTenantsRepo.insertStatement
      [.uuid t.id.uuid, .text t.name, .text t.email] =
      (db.store "tenants" tenantsTable [] [newRow db t] (db.rows "tenants" ++ [newRow db t])).map
        fun db' => (db', (newRow db t).project ["id"]) :=
    Db.insert_plain_eq h.schema (requireColumns_eq (by decide)) henc rfl rfl
  rw [PgTenantsRepo.insertNew, hinsert]
  cases db.store "tenants" tenantsTable [] [newRow db t] (db.rows "tenants" ++ [newRow db t]) with
  | error e => rfl
  | ok db' => rfl

theorem nodup_snoc_iff {α : Type} {f : Tenant → α} {t : Tenant} (h : (ts.map f).Nodup) :
    ((ts ++ [t]).map f).Nodup ↔ ∀ u ∈ ts, f u ≠ f t := by
  rw [List.map_append, List.map_singleton, List.nodup_append,
    and_iff_right h, and_iff_right (List.nodup_singleton _)]
  simp

/-- A tenant is stored when no stored one has its identifier, its name or its email; the
insert fails when one has. -/
theorem HoldsTenants.insert_cases (h : HoldsTenants db ts) {t : Tenant}
    (hname : Sendable t.name) (hemail : Sendable t.email) :
    ((∀ u ∈ ts, u.id ≠ t.id ∧ u.name ≠ t.name ∧ u.email ≠ t.email) ∧
      ∃ db', PgTenantsRepo.insertNew db t = .ok (t.id, db') ∧ HoldsTenants db' (ts ++ [t])) ∨
    (∃ u ∈ ts, u.id = t.id ∨ u.name = t.name ∨ u.email = t.email) ∧
      ∃ e, PgTenantsRepo.insertNew db t = .error e := by
  have hrows : List.Forall₂ KeepsTenant (db.rows "tenants" ++ [newRow db t]) (ts ++ [t]) :=
    List.rel_append h.rows (.cons (keepsTenant_newRow t) .nil)
  have hunique := uniqueViolations_eq_nil_iff hrows
  rw [nodup_snoc_iff h.ids, nodup_snoc_iff h.names, nodup_snoc_iff h.emails] at hunique
  cases hv : Db.uniqueViolations tenantsTable (db.rows "tenants" ++ [newRow db t]) with
  | nil =>
    obtain ⟨hids, hnames, hemails⟩ := hunique.mp hv
    refine .inl ⟨fun u hu => ⟨hids u hu, hnames u hu, hemails u hu⟩, { db with
      rows := Function.update db.rows "tenants" (db.rows "tenants" ++ [newRow db t])
      clock := db.clock + 1 }, ?_, h.schema, ?_, (nodup_snoc_iff h.ids).mpr hids,
      (nodup_snoc_iff h.names).mpr hnames, (nodup_snoc_iff h.emails).mpr hemails⟩
    · rw [h.insert_eq hname hemail, store_newRow, hv]
      rfl
    · show List.Forall₂ KeepsTenant (Function.update db.rows "tenants" _ "tenants") _
      rwa [Function.update_self]
  | cons e es =>
    refine .inr ⟨?_, e, ?_⟩
    · by_contra hno
      have hnil := hunique.mpr ⟨fun u hu hid => hno ⟨u, hu, .inl hid⟩,
        fun u hu hn => hno ⟨u, hu, .inr (.inl hn)⟩, fun u hu he => hno ⟨u, hu, .inr (.inr he)⟩⟩
      rw [hv] at hnil
      cases hnil
    · rw [h.insert_eq hname hemail, store_newRow, hv]
      rfl

end Insert

end Contexide.StoragePg
