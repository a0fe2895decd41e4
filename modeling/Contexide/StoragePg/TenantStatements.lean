import Contexide.Sql.CodecStore
import Contexide.StoragePg.PgTenants

/-! The other statements on the table of tenants, and what each does to a table that holds
tenants. -/

namespace Contexide.StoragePg

open Storage Sql

namespace PgTenantsRepo

variable (db : Db Json)

def get (id : TenantId) : Except SqlError (Option Tenant) := do
  let rows ← db.select
    { table := "tenants", columns := ["id", "name", "email"], whereColumn := "id", orderBy := [] }
    [.uuid id.uuid]
  fetchOptional Tenant.fromRow rows

/-- `insert into tenants .. on conflict (id) do update set name = excluded.name,
email = excluded.email returning ..`. -/
def saveStatement : Insert where
  table := "tenants"
  columns := ["id", "name", "email"]
  onConflict := some ("id", ["name", "email"])
  returning := ["id", "name", "email"]

/-- Upsert by id; the answer is the stored row. -/
def save (entity : Tenant) : Except SqlError Tenant × Db Json :=
  db.settle Tenant.fromRow (db.insert saveStatement
    [.uuid entity.id.uuid, .text entity.name, .text entity.email])

def delete (id : TenantId) : Except SqlError Bool × Db Json :=
  db.settle (fun affected => .ok (affected == 1))
    (db.delete { table := "tenants", whereColumn := "id" } [.uuid id.uuid])

def getByName (name : String) : Except SqlError (Option Tenant) := selectBy db "name" name

def getByEmail (email : String) : Except SqlError (Option Tenant) := selectBy db "email" email

def list (limit : Option ℕ) : Except QueryError (List Tenant) :=
  match limit with
  | some n => do
    let rows ← db.query
      { table := "tenants", columns := ["id", "name", "email"], whereColumns := [],
        orderBy := ["id"], limited := true }
      [.int (asI64 n)]
    (fetchAll Tenant.fromRow rows).mapError .sql
  | none => do
    let rows ← db.query
      { table := "tenants", columns := ["id", "name", "email"], whereColumns := [],
        orderBy := ["id"], limited := false }
      []
    (fetchAll Tenant.fromRow rows).mapError .sql

end PgTenantsRepo

namespace HoldsTenants

variable {db : Db Json} {ts : List Tenant}

theorem map_project {rows : List (Row Json)} (h : List.Forall₂ KeepsTenant rows ts) :
    rows.map (fun r => r.project ["id", "name", "email"]) = ts.map Tenant.answer := by
  induction h with
  | nil => rfl
  | cons hrow _ ih => rw [List.map_cons, List.map_cons, hrow.project, ih]

theorem sqlEq_id {row : Row Json} {t : Tenant} (h : KeepsTenant row t) (id : TenantId) :
    (row "id").sqlEq (.uuid id.uuid) = decide (t.id = id) := by
  rw [h.id, Value.sqlEq_uuid, decide_eq_decide, TenantId.ext_iff]

theorem filter_id (h : HoldsTenants db ts) (id : TenantId) :
    List.Forall₂ KeepsTenant ((db.rows "tenants").filter fun r => (r "id").sqlEq (.uuid id.uuid))
      (ts.filter fun t => t.id = id) :=
  List.rel_filter (fun _ _ hrow => Bool.coe_iff_coe.mpr (sqlEq_id hrow id)) h.rows

theorem find?_eq_some {α : Type} [DecidableEq α] {f : Tenant → α} (h : (ts.map f).Nodup) {x : α}
    {t : Tenant} : (ts.find? fun u => f u = x) = some t ↔ t ∈ ts ∧ f t = x := by
  refine ⟨fun hf => ⟨List.mem_of_find?_eq_some hf, by simpa using List.find?_some hf⟩, ?_⟩
  rintro ⟨ht, rfl⟩
  cases hf : ts.find? fun u => f u = f t with
  | none =>
    have hne := List.find?_eq_none.mp hf t ht
    simp at hne
  | some u =>
    have hfu : f u = f t := by simpa using List.find?_some hf
    rw [List.inj_on_of_nodup_map h (List.mem_of_find?_eq_some hf) ht hfu]

theorem get_eq (h : HoldsTenants db ts) (id : TenantId) :
    PgTenantsRepo.get db id = .ok (ts.find? fun t => t.id = id) := by
  have hselect : db.select
      { table := "tenants", columns := ["id", "name", "email"], whereColumn := "id",
        orderBy := [] } [.uuid id.uuid] =
      .ok ((ts.filter fun t => t.id = id).map Tenant.answer) := by
    rw [Db.select_eq h.schema (requireColumns_eq (by decide)) rfl, ← map_project (h.filter_id id)]
    show Except.ok (((_ : List (Row Json)).insertionSort _).map _) = _
    rw [Db.insertionSort_precedes_nil fun r => r]
    rfl
  rw [PgTenantsRepo.get, hselect, ← List.head?_filter]
  cases ts.filter fun t => decide (t.id = id) with
  | nil => rfl
  | cons t us => rfl

theorem precedes_id {r r' : Row Json} {t t' : Tenant} (h : KeepsTenant r t)
    (h' : KeepsTenant r' t') :
    r.precedes ["id"] r' = true ↔ t.id.uuid ≤ t'.id.uuid := by
  rw [Row.precedes, Row.precedes, h.id, h'.id]
  simp only [Value.sqlLt, Bool.and_true, Bool.or_eq_true, Bool.not_eq_true', decide_eq_true_eq,
    decide_eq_false_iff_not, not_lt]
  exact ⟨fun hle => hle.elim le_of_lt id, .inr⟩

/-- The query for all tenants by identifier. -/
theorem query_eq (h : HoldsTenants db ts) (limited : Bool) {params : List (Value Json)}
    (henc : params.all Value.encodable = true) :
    db.query
        { table := "tenants", columns := ["id", "name", "email"], whereColumns := [],
          orderBy := ["id"], limited }
        params =
      let rows := (ts.insertionSort fun a b => a.id.uuid ≤ b.id.uuid).map Tenant.answer
      if limited then limitRows rows (params.getD 0 .null) else .ok rows := by
  have hcheck : db.checkQuery
      { table := "tenants", columns := ["id", "name", "email"], whereColumns := [],
        orderBy := ["id"], limited }
      params = .ok () := by
    have hcols : tenantsTable.requireColumns (["id", "name", "email"] ++ [] ++ ["id"]) = .ok () :=
      requireColumns_eq (by decide)
    rw [Db.checkQuery, h.schema]
    simp only [bind, Except.bind, hcols]
    exact Db.requireEncodable_of_all henc
  have hall : ((db.rows "tenants").filter fun r =>
      (([] : List String).zip params).all fun c => (r c.1).sqlEq c.2) = db.rows "tenants" :=
    List.filter_eq_self.mpr fun _ _ => by rw [List.zip_nil_left, List.all_nil]
  have hrows := map_project (rel_insertionSort (s := fun a b => a.id.uuid ≤ b.id.uuid)
    (fun _ _ _ _ hr hr' => precedes_id hr hr') h.rows)
  rw [Db.query, hcheck]
  simp only [hall, hrows]
  rfl

theorem list_eq (h : HoldsTenants db ts) {limit : Option ℕ} (hlimit : ∀ n ∈ limit, n < 2 ^ 63) :
    PgTenantsRepo.list db limit =
      let v := ts.insertionSort fun a b => a.id.uuid ≤ b.id.uuid
      .ok (limit.elim v v.take) := by
  have hall : ∀ us : List Tenant, fetchAll Tenant.fromRow (us.map Tenant.answer) = .ok us := by
    intro us
    induction us with
    | nil => rfl
    | cons u us ih =>
      rw [List.map_cons, fetchAll, Tenant.fromRow_answer, ih]
      rfl
  cases limit with
  | none =>
    rw [PgTenantsRepo.list, h.query_eq false rfl]
    exact congrArg (Except.mapError QueryError.sql) (hall _)
  | some n =>
    have hn : asI64 n = n := asI64_of_lt (hlimit n rfl)
    rw [PgTenantsRepo.list, h.query_eq true rfl]
    simp only [if_true, List.getD_cons_zero, limitRows, hn]
    rw [if_neg (by omega), Int.toNat_natCast, ← List.map_take]
    exact congrArg (Except.mapError QueryError.sql) (hall _)

theorem list_of_limit (h : HoldsTenants db ts) {n : ℕ} (hlow : 2 ^ 63 ≤ n) (hhigh : n < 2 ^ 64) :
    PgTenantsRepo.list db (some n) = .error .negativeLimit := by
  rw [PgTenantsRepo.list, h.query_eq true rfl]
  simp only [if_true, List.getD_cons_zero, limitRows, asI64_neg hlow hhigh]
  rfl

/-- The database with other rows in the table of tenants. -/
def withRows (db : Db Json) (rows : List (Row Json)) : Db Json :=
  { db with rows := Function.update db.rows "tenants" rows, clock := db.clock + 1 }

theorem rows_withRows (rows : List (Row Json)) : (withRows db rows).rows "tenants" = rows := by
  show Function.update db.rows "tenants" rows "tenants" = rows
  rw [Function.update_self]

theorem withRows_holds (h : HoldsTenants db ts) {rows : List (Row Json)} {us : List Tenant}
    (hrows : List.Forall₂ KeepsTenant rows us) (hids : (us.map Tenant.id).Nodup)
    (hnames : (us.map Tenant.name).Nodup) (hemails : (us.map Tenant.email).Nodup) :
    HoldsTenants (withRows db rows) us :=
  ⟨h.schema, by rwa [rows_withRows], hids, hnames, hemails⟩

theorem delete_eq (h : HoldsTenants db ts) (id : TenantId) :
    ∃ db', PgTenantsRepo.delete db id = (.ok (ts.find? fun t => t.id = id).isSome, db') ∧
      HoldsTenants db' (ts.filter fun t => !decide (t.id = id)) ∧
        ∀ r ∈ db'.rows "tenants", r ∈ db.rows "tenants" := by
  have hsub : (ts.filter fun t => !decide (t.id = id)).Sublist ts := List.filter_sublist
  have hcount : (ts.filter fun t => t.id = id).length =
      if (ts.find? fun t => t.id = id).isSome then 1 else 0 := by
    rw [← List.head?_filter]
    have hnodup := h.ids.sublist ((List.filter_sublist (l := ts)
      (p := fun t => decide (t.id = id))).map Tenant.id)
    have hmem : ∀ v ∈ ts.filter (fun t => decide (t.id = id)), v.id = id := fun v hv => by
      simpa using (List.mem_filter.mp hv).2
    generalize ts.filter (fun t => decide (t.id = id)) = us at hnodup hmem ⊢
    match us with
    | [] => rfl
    | [_] => rfl
    | t :: u :: us =>
      rw [List.map_cons, List.map_cons, hmem t (by simp), hmem u (by simp)] at hnodup
      exact absurd hnodup (by simp)
  have hdelete : db.delete { table := "tenants", whereColumn := "id" } [.uuid id.uuid] =
      .ok (withRows db ((db.rows "tenants").filter fun r => !(r "id").sqlEq (.uuid id.uuid)),
        (ts.filter fun t => t.id = id).length) := by
    have hcols : tenantsTable.requireColumns ["id"] = .ok () := requireColumns_eq (by decide)
    rw [← (h.filter_id id).length_eq, Db.delete]
    simp only [h.schema, hcols, bind, Except.bind]
    rfl
  refine ⟨_, ?_, h.withRows_holds (List.rel_filter (fun _ _ hrow => Bool.coe_iff_coe.mpr
    (congrArg not (sqlEq_id hrow id))) h.rows) (h.ids.sublist (hsub.map _))
    (h.names.sublist (hsub.map _)) (h.emails.sublist (hsub.map _)), fun r hr => ?_⟩
  · rw [PgTenantsRepo.delete, hdelete, hcount]
    cases (ts.find? fun t => decide (t.id = id)).isSome <;> rfl
  · rw [rows_withRows] at hr
    exact (List.mem_filter.mp hr).1

/-- The time of creation is one. -/
def Created (row : Row Json) : Prop :=
  Db.cellViolations Migrations.createdAt (row "created_at") = []

/-- Rows of tenants are stored unless two of them collide. -/
theorem store_eq {d : Db Json} {proposed changed : List (Row Json)}
    (h : ∀ r ∈ proposed ++ changed, Created r ∧ ∃ t, KeepsTenant r t) (rows : List (Row Json)) :
    d.store "tenants" tenantsTable proposed changed rows =
      match Db.uniqueViolations tenantsTable rows with
      | [] => .ok (withRows d rows)
      | e :: _ => .error e := by
  have hcells : ((proposed ++ changed).flatMap fun r => tenantsTable.columns.flatMap fun c =>
      Db.cellViolations c (r c.name)) = [] := by
    refine List.flatMap_eq_nil_iff.mpr fun r hr => ?_
    obtain ⟨hcreated, t, hrow⟩ := h r hr
    show Db.cellViolations Migrations.primaryKey (r "id") ++
      (Db.cellViolations (Migrations.required "name" .text) (r "name") ++
        (Db.cellViolations (Migrations.required "email" .text) (r "email") ++
          (Db.cellViolations Migrations.createdAt (r "created_at") ++ []))) = []
    rw [hrow.id, hrow.name, hrow.email, hcreated]
    rfl
  have hrefs : (changed.flatMap fun r => tenantsTable.columns.flatMap fun c =>
      d.referenceViolations c (r c.name)) = [] :=
    List.flatMap_eq_nil_iff.mpr fun r _ => rfl
  rw [Db.store, hcells, hrefs]
  rfl

theorem created_newRow (t : Tenant) : Created (newRow db t) := rfl

theorem find_row_eq_none (h : HoldsTenants db ts) {id : TenantId} (hno : ∀ t ∈ ts, t.id ≠ id) :
    ((db.rows "tenants").find? fun r => (r "id").sqlEq (.uuid id.uuid)) = none := by
  refine List.find?_eq_none.mpr fun r hr => ?_
  obtain ⟨t, ht, hrow⟩ := Codec.exists_of_mem_left h.rows hr
  simpa [sqlEq_id hrow id] using hno t ht

theorem find_row (h : HoldsTenants db ts) {t : Tenant} (ht : t ∈ ts) :
    ∃ old ∈ db.rows "tenants", KeepsTenant old t ∧
      ((db.rows "tenants").find? fun r => (r "id").sqlEq (.uuid t.id.uuid)) = some old := by
  cases hf : (db.rows "tenants").find? fun r => (r "id").sqlEq (.uuid t.id.uuid) with
  | none =>
    obtain ⟨r, hr, hrow⟩ : ∃ r ∈ db.rows "tenants", KeepsTenant r t :=
      Codec.exists_of_mem_left (R := flip KeepsTenant) h.rows.flip ht
    have hne := List.find?_eq_none.mp hf r hr
    simp [sqlEq_id hrow t.id] at hne
  | some old =>
    have hold := List.mem_of_find?_eq_some hf
    obtain ⟨u, hu, hrow⟩ := Codec.exists_of_mem_left h.rows hold
    have hid : u.id = t.id := by
      have := List.find?_some hf
      simpa [sqlEq_id hrow t.id] using this
    exact ⟨old, hold, h.eq_of_id hu ht hid ▸ hrow, rfl⟩

/-- Rewriting the row of a tenant with one that keeps it too. -/
theorem forall₂_rewrite {rows : List (Row Json)} (h : List.Forall₂ KeepsTenant rows ts)
    {t : Tenant} {new : Row Json} (hnew : KeepsTenant new t) (hid : ∀ u ∈ ts, u.id = t.id → u = t) :
    List.Forall₂ KeepsTenant
      (rows.map fun r => if (r "id").sqlEq (.uuid t.id.uuid) then new else r) ts := by
  induction h with
  | nil => exact .nil
  | @cons r u rs us hrow _ ih =>
    rw [List.forall_mem_cons] at hid
    refine .cons ?_ (ih hid.2)
    dsimp only
    rw [sqlEq_id hrow t.id]
    split
    · next hut => exact hid.1 (of_decide_eq_true hut) ▸ hnew
    · exact hrow

theorem encodable_params (t : Tenant) :
    ([.uuid t.id.uuid, .text t.name, .text t.email] : List (Value Json)).all Value.encodable =
      true ↔ Sendable t.name ∧ Sendable t.email := by
  rw [← encodable_text, ← encodable_text]
  simp [Value.encodable]

theorem requireColumns_save : tenantsTable.requireColumns (PgTenantsRepo.saveStatement.columns ++
    (PgTenantsRepo.saveStatement.onConflict.elim [] fun c => c.1 :: c.2) ++
      PgTenantsRepo.saveStatement.returning) = .ok () := requireColumns_eq (by decide)

theorem save_invalid (h : HoldsTenants db ts) {t : Tenant}
    (hno : ¬ (Sendable t.name ∧ Sendable t.email)) :
    PgTenantsRepo.save db t = (.error .invalidText, db) := by
  have henc := Db.requireEncodable_invalid (Bool.not_eq_true _ ▸ mt (encodable_params t).mp hno)
  have hinsert : db.insert PgTenantsRepo.saveStatement
      [.uuid t.id.uuid, .text t.name, .text t.email] = .error .invalidText :=
    Db.insert_unsendable h.schema requireColumns_save henc
  rw [PgTenantsRepo.save, hinsert]
  rfl

theorem forall₂_newRow (h : HoldsTenants db ts) (t : Tenant) :
    List.Forall₂ KeepsTenant (db.rows "tenants" ++ [newRow db t]) (ts ++ [t]) :=
  List.rel_append h.rows (.cons (keepsTenant_newRow t) .nil)

/-- One more row keeps the columns unique exactly when the tenant shares nothing with a stored
one. -/
theorem uniqueViolations_newRow (h : HoldsTenants db ts) (t : Tenant) :
    Db.uniqueViolations tenantsTable (db.rows "tenants" ++ [newRow db t]) = [] ↔
      ∀ u ∈ ts, u.id ≠ t.id ∧ u.name ≠ t.name ∧ u.email ≠ t.email := by
  rw [uniqueViolations_eq_nil_iff (h.forall₂_newRow t), nodup_snoc_iff h.ids,
    nodup_snoc_iff h.names, nodup_snoc_iff h.emails]
  exact ⟨fun hno u hu => ⟨hno.1 u hu, hno.2.1 u hu, hno.2.2 u hu⟩,
    fun hno => ⟨fun u hu => (hno u hu).1, fun u hu => (hno u hu).2.1, fun u hu => (hno u hu).2.2⟩⟩

theorem withRows_newRow (h : HoldsTenants db ts) {t : Tenant}
    (hfree : ∀ u ∈ ts, u.id ≠ t.id ∧ u.name ≠ t.name ∧ u.email ≠ t.email) :
    HoldsTenants (withRows db (db.rows "tenants" ++ [newRow db t])) (ts ++ [t]) := by
  obtain ⟨hids, hnames, hemails⟩ := (uniqueViolations_eq_nil_iff (h.forall₂_newRow t)).mp
    ((h.uniqueViolations_newRow t).mpr hfree)
  exact h.withRows_holds (h.forall₂_newRow t) hids hnames hemails

section Save

variable {t : Tenant} (h : HoldsTenants db ts) (hname : Sendable t.name) (hemail : Sendable t.email)

include h hname hemail

/-- A tenant with a new identifier is stored as its row keeps the columns unique. -/
theorem save_new_eq (hid : ∀ u ∈ ts, u.id ≠ t.id) :
    PgTenantsRepo.save db t =
      match Db.uniqueViolations tenantsTable (db.rows "tenants" ++ [newRow db t]) with
      | [] => (.ok t, withRows db (db.rows "tenants" ++ [newRow db t]))
      | e :: _ => (.error e, db) := by
  have henc := Db.requireEncodable_of_all ((encodable_params t).mpr ⟨hname, hemail⟩)
  have hrow : Row.proposed tenantsTable PgTenantsRepo.saveStatement.columns
      [.uuid t.id.uuid, .text t.name, .text t.email] db.clock = newRow db t := rfl
  have hinsert : db.insert PgTenantsRepo.saveStatement
      [.uuid t.id.uuid, .text t.name, .text t.email] =
      (db.store "tenants" tenantsTable [] [newRow db t] (db.rows "tenants" ++ [newRow db t])).map
        fun db' => (db', (newRow db t).project ["id", "name", "email"]) :=
    Db.insert_fresh_eq h.schema requireColumns_save henc rfl (by decide) hrow
      (h.find_row_eq_none hid)
  rw [PgTenantsRepo.save, hinsert, store_newRow, (keepsTenant_newRow t).project]
  cases Db.uniqueViolations tenantsTable (db.rows "tenants" ++ [newRow db t]) with
  | nil => rfl
  | cons e es => rfl

/-- The insert of a creation stores the tenant as its row keeps the columns unique. -/
theorem insertNew_eq :
    PgTenantsRepo.insertNew db t =
      match Db.uniqueViolations tenantsTable (db.rows "tenants" ++ [newRow db t]) with
      | [] => .ok (t.id, withRows db (db.rows "tenants" ++ [newRow db t]))
      | e :: _ => .error e := by
  rw [h.insert_eq hname hemail, store_newRow]
  cases Db.uniqueViolations tenantsTable (db.rows "tenants" ++ [newRow db t]) with
  | nil => rfl
  | cons e es => rfl

/-- A stored tenant is stored again. -/
theorem save_same (hcreated : ∀ r ∈ db.rows "tenants", Created r) (ht : t ∈ ts) : ∃ db',
    PgTenantsRepo.save db t = (.ok t, db') ∧ HoldsTenants db' ts ∧
      ∀ r ∈ db'.rows "tenants", Created r := by
  have henc := Db.requireEncodable_of_all ((encodable_params t).mpr ⟨hname, hemail⟩)
  obtain ⟨old, hold, hkeeps, hfind⟩ := h.find_row ht
  have hnew : KeepsTenant (old.overwrite (newRow db t) ["name", "email"]) t :=
    ⟨hkeeps.id, rfl, rfl⟩
  have hrows := forall₂_rewrite h.rows hnew fun u hu hid => h.eq_of_id hu ht hid
  have hcells : ∀ r ∈ [newRow db t] ++ [old.overwrite (newRow db t) ["name", "email"]],
      Created r ∧ ∃ t, KeepsTenant r t := by
    intro r hr
    rcases List.mem_pair.mp hr with rfl | rfl
    · exact ⟨created_newRow t, t, keepsTenant_newRow t⟩
    · exact ⟨hcreated old hold, t, hnew⟩
  have hstore := store_eq (d := db) hcells ((db.rows "tenants").map fun r =>
    if (r "id").sqlEq (.uuid t.id.uuid) then old.overwrite (newRow db t) ["name", "email"] else r)
  rw [(uniqueViolations_eq_nil_iff hrows).mpr ⟨h.ids, h.names, h.emails⟩] at hstore
  have hrow : Row.proposed tenantsTable PgTenantsRepo.saveStatement.columns
      [.uuid t.id.uuid, .text t.name, .text t.email] db.clock = newRow db t := rfl
  have hinsert := Db.insert_taken (s := PgTenantsRepo.saveStatement) h.schema requireColumns_save
    henc rfl (by decide) hrow hfind hstore
  refine ⟨_, ?_, h.withRows_holds hrows h.ids h.names h.emails, ?_⟩
  · rw [PgTenantsRepo.save, hinsert]
    show (Tenant.fromRow ((old.overwrite (newRow db t) ["name", "email"]).project
      ["id", "name", "email"]), _) = _
    rw [hnew.project]
    rfl
  · rw [rows_withRows]
    intro r hr
    obtain ⟨r', hr', rfl⟩ := List.mem_map.mp hr
    split
    · exact hcreated old hold
    · exact hcreated r' hr'

end Save

end HoldsTenants

end Contexide.StoragePg
