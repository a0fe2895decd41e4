import Contexide.StoragePg.TenantStatements

/-! The two repositories of tenants against each other. In memory a save trusts its caller
with names and emails and leaves the entries of the old ones, over Postgres it is checked
and leaves nothing behind; the repositories agree as long as no save changes the name or
the email of a stored tenant or takes those of another. -/

namespace Contexide.StoragePg

open Storage Sql

/-- A call of a repository of tenants. A creation comes with the identifier that a new
tenant takes. -/
inductive TenantsRepoCall where
  | get (id : TenantId)
  | save (entity : Tenant)
  | delete (id : TenantId)
  | create (id : TenantId) (name email : String)
  | getByName (name : String)
  | getByEmail (email : String)
  | list (limit : Option ℕ)

/-- What a call returns. -/
inductive TenantsRepoAnswer where
  | found (t : Option Tenant)
  | saved (t : Tenant)
  | done (b : Bool)
  | created (id : TenantId)
  | listed (ts : List Tenant)

namespace MemTenantsRepo

variable (r : MemTenantsRepo)

def get (id : TenantId) : Option Tenant := r.byId.get id

def list (limit : Option ℕ) : List Tenant :=
  let v := r.byId.rows.insertionSort fun a b => a.id.uuid ≤ b.id.uuid
  match limit with
  | some n => v.take n
  | none => v

/-- The answer of a call and the repository after it. -/
def answer : TenantsRepoCall → Except Error TenantsRepoAnswer × MemTenantsRepo
  | .get id => (.ok (.found (get r id)), r)
  | .save entity => (.ok (.saved (r.save entity).1), (r.save entity).2)
  | .delete id => (.ok (.done (r.delete id).1), (r.delete id).2)
  | .create id name email => ((r.create id name email).1.map .created, (r.create id name email).2)
  | .getByName name => (.ok (.found (r.getByName name)), r)
  | .getByEmail email => (.ok (.found (r.getByEmail email)), r)
  | .list limit => (.ok (.listed (list r limit)), r)

end MemTenantsRepo

namespace PgTenantsRepo

variable (db : Db Json)

/-- A database error apart from the errors that the repository makes itself. -/
def split {α : Type} : Except PgError α → Except QueryError (Except Error α)
  | .ok a => .ok (.ok a)
  | .error (.db e) => .error (.sql e)
  | .error (.other text) => .ok (.error (.other text))

/-- The answer of a call, or a database error, and the database after it. -/
def answer : TenantsRepoCall → Except QueryError (Except Error TenantsRepoAnswer) × Db Json
  | .get id => (((get db id).map fun t => .ok (.found t)).mapError .sql, db)
  | .save entity =>
    (((save db entity).1.map fun t => .ok (.saved t)).mapError .sql, (save db entity).2)
  | .delete id => (((delete db id).1.map fun b => .ok (.done b)).mapError .sql, (delete db id).2)
  | .create id name email =>
    ((split (create db id name email).1).map fun result => result.map .created,
      (create db id name email).2)
  | .getByName name => (((getByName db name).map fun t => .ok (.found t)).mapError .sql, db)
  | .getByEmail email => (((getByEmail db email).map fun t => .ok (.found t)).mapError .sql, db)
  | .list limit => ((list db limit).map fun ts => .ok (.listed ts), db)

end PgTenantsRepo


/-! ### The answers of the two -/

/-- A creation in memory decides on the rows of the two lookups as one over Postgres does. -/
theorem Indexed.create_cases {m : MemTenantsRepo} (h : Indexed m) (id : TenantId)
    (name email : String) :
    (∃ r answer, PgTenantsRepo.resolve name email (m.getByName name) (m.getByEmail email) =
        some r ∧ PgTenantsRepo.split r = .ok answer ∧ m.create id name email = (answer, m)) ∨
    PgTenantsRepo.resolve name email (m.getByName name) (m.getByEmail email) = none ∧
      (∀ t ∈ m.byId, t.name ≠ name ∧ t.email ≠ email) ∧
      m.create id name email = (.ok id, (m.save ⟨id, name, email⟩).2) := by
  have hfound : ∀ {idx : Assoc String TenantId} {f : Tenant → String}, IndexExact idx m.byId f →
      ∀ {x : String} {i : TenantId}, idx.find x = some i →
        ∃ t ∈ m.byId, t.id = i ∧ f t = x ∧ (idx.find x).bind m.byId.get = some t := by
    intro idx f hidx x i hi
    obtain ⟨t, ht, hx, hid⟩ := (hidx x i).mp hi
    exact ⟨t, ht, hid, hx, hidx.get_find.mpr ⟨ht, hx⟩⟩
  rw [MemTenantsRepo.create, MemTenantsRepo.getByName, MemTenantsRepo.getByEmail]
  cases hn : m.byName.find name with
  | some idN =>
    obtain ⟨n, hnmem, rfl, rfl, hnget⟩ := hfound h.name hn
    rw [← hn, hnget, hn]
    left
    cases he : m.byEmail.find email with
    | some idE =>
      obtain ⟨e, hemem, rfl, rfl, heget⟩ := hfound h.email he
      rw [← he, heget, he]
      by_cases hid : n.id = e.id
      · exact ⟨_, .ok n.id, if_pos hid, rfl, if_pos hid⟩
      · exact ⟨_, _, if_neg hid, rfl, if_neg hid⟩
    | none =>
      have hget : m.byId.get n.id = some n := Table.get_of_mem hnmem
      by_cases hemail : n.email = email
      · exact ⟨_, .ok n.id, if_pos hemail, rfl, by simp [hget, hemail]⟩
      · exact ⟨_, _, if_neg hemail, rfl, by simp [hget, hemail]⟩
  | none =>
    cases he : m.byEmail.find email with
    | some idE =>
      obtain ⟨e, hemem, rfl, rfl, heget⟩ := hfound h.email he
      have hget : m.byId.get e.id = some e := Table.get_of_mem hemem
      rw [← he, heget, he]
      left
      by_cases hname : e.name = name
      · exact ⟨_, .ok e.id, if_pos hname, rfl, by simp [hget, hname]⟩
      · exact ⟨_, _, if_neg hname, rfl, by simp [hget, hname]⟩
    | none =>
      exact .inr ⟨rfl,
        fun t ht => ⟨h.name.find_eq_none.mp hn t ht, h.email.find_eq_none.mp he t ht⟩, rfl⟩

/-- A row that is decoded keeps the tenant. -/
theorem KeepsTenant.of_fromRow {row : Row Json} {t : Tenant}
    (h : Tenant.fromRow (row.project ["id", "name", "email"]) = .ok t) : KeepsTenant row t := by
  have hproject : row.project ["id", "name", "email"] =
      [("id", row "id"), ("name", row "name"), ("email", row "email")] := rfl
  rw [hproject] at h
  cases hid : row "id" with
  | uuid id =>
    cases hname : row "name" with
    | text name =>
      cases hemail : row "email" with
      | text email =>
        rw [hid, hname, hemail] at h
        cases h
        exact ⟨hid, hname, hemail⟩
      | _ => rw [hid, hname, hemail] at h; cases h
    | _ => rw [hid, hname] at h; cases h
  | _ => rw [hid] at h; cases h

/-- What a lookup by a text column returns has the text, whatever the table holds. -/
theorem selectBy_column {db : Db Json} {column value : String} {f : Tenant → String}
    (hf : ∀ row t, KeepsTenant row t → row column = .text (f t)) {t : Tenant}
    (h : PgTenantsRepo.selectBy db column value = .ok (some t)) : f t = value := by
  rw [PgTenantsRepo.selectBy] at h
  cases hselect : db.select { table := "tenants", columns := ["id", "name", "email"],
                              whereColumn := column, orderBy := [] } [.text value] with
  | error e => rw [hselect] at h; cases h
  | ok rows =>
    cases rows with
    | nil => rw [hselect] at h; cases h
    | cons a rows =>
      obtain ⟨row, -, hvalue, rfl⟩ := Db.exists_of_mem_select hselect List.mem_cons_self
      rw [hselect] at h
      cases hdecode : Tenant.fromRow (row.project ["id", "name", "email"]) with
      | error e =>
        change (Tenant.fromRow (row.project ["id", "name", "email"]) >>= _) = _ at h
        rw [hdecode] at h
        cases h
      | ok u =>
        change (Tenant.fromRow (row.project ["id", "name", "email"]) >>= _) = _ at h
        rw [hdecode] at h
        cases h
        have hcolumn : (row column).sqlEq (.text value) = true := hvalue
        rw [hf row t (.of_fromRow hdecode)] at hcolumn
        exact eq_of_beq hcolumn

/-- The table holds the tenants of the repository in memory, whose indices are exact. -/
structure TenantsSimulate (m : MemTenantsRepo) (db : Db Json) : Prop where
  indexed : Indexed m
  holds : ∃ ts, HoldsTenants db ts ∧ ∀ t, t ∈ ts ↔ t ∈ m.byId
  created : ∀ r ∈ db.rows "tenants", HoldsTenants.Created r
  sendable : ∀ t ∈ m.byId, Sendable t.name ∧ Sendable t.email

/-- The call is answered alike, and after it the same tenants are found by name and by
email. -/
structure TenantsAgreeAt (call : TenantsRepoCall) (m : MemTenantsRepo) (db : Db Json) : Prop where
  answer : (PgTenantsRepo.answer db call).1 = .ok (MemTenantsRepo.answer m call).1
  name : ∀ v, Sendable v → PgTenantsRepo.getByName (PgTenantsRepo.answer db call).2 v =
    .ok ((MemTenantsRepo.answer m call).2.getByName v)
  email : ∀ v, Sendable v → PgTenantsRepo.getByEmail (PgTenantsRepo.answer db call).2 v =
    .ok ((MemTenantsRepo.answer m call).2.getByEmail v)

namespace TenantsRepoCall

/-- A limit is a machine word. -/
def Assumed : TenantsRepoCall → MemTenantsRepo → Prop
  | .list limit, _ => ∀ n ∈ limit, n < 2 ^ 64
  | _, _ => True

/-- The texts can be sent and a limit is not negative. A save neither renames a stored tenant
nor takes the name or the email of another, and the identifier of a creation is new where it
is used. -/
def Good : TenantsRepoCall → MemTenantsRepo → Prop
  | .save entity, m => (Sendable entity.name ∧ Sendable entity.email) ∧ Allowed m (.save entity) ∧
    KeepsNames m (.save entity)
  | .create id name email, m => (Sendable name ∧ Sendable email) ∧
    ((∀ t ∈ m.byId, t.name ≠ name ∧ t.email ≠ email) → MemTenantsRepo.get m id = none)
  | .getByName name, _ => Sendable name
  | .getByEmail email, _ => Sendable email
  | .list limit, _ => ∀ n ∈ limit, n < 2 ^ 63
  | _, _ => True

end TenantsRepoCall

namespace TenantsSimulate

variable {m : MemTenantsRepo} {db : Db Json}

theorem find (h : TenantsSimulate m db) {column : String} {f : Tenant → String}
    {idx : Assoc String TenantId} (hcol : ["id", "name", "email"].contains column = true)
    (hf : ∀ row t, KeepsTenant row t → row column = .text (f t)) (hidx : IndexExact idx m.byId f)
    (hnodup : ∀ ts, HoldsTenants db ts → (ts.map f).Nodup) {v : String} (hv : Sendable v) :
    PgTenantsRepo.selectBy db column v = .ok ((idx.find v).bind m.byId.get) := by
  obtain ⟨ts, hts, hmem⟩ := h.holds
  rw [hts.selectBy_eq hcol hf hv]
  congr 1
  apply Option.ext
  intro t
  rw [HoldsTenants.find?_eq_some (hnodup ts hts), hmem, hidx.get_find]

theorem find_name (h : TenantsSimulate m db) {v : String} (hv : Sendable v) :
    PgTenantsRepo.getByName db v = .ok (m.getByName v) :=
  h.find (by decide) (fun _ _ hrow => hrow.name) h.indexed.name (fun _ hts => hts.names) hv

theorem find_email (h : TenantsSimulate m db) {v : String} (hv : Sendable v) :
    PgTenantsRepo.getByEmail db v = .ok (m.getByEmail v) :=
  h.find (by decide) (fun _ _ hrow => hrow.email) h.indexed.email (fun _ hts => hts.emails) hv

theorem get (h : TenantsSimulate m db) (id : TenantId) :
    PgTenantsRepo.get db id = .ok (MemTenantsRepo.get m id) := by
  obtain ⟨ts, hts, hmem⟩ := h.holds
  rw [hts.get_eq]
  congr 1
  apply Option.ext
  intro t
  rw [HoldsTenants.find?_eq_some hts.ids, hmem, MemTenantsRepo.get, Table.get_eq_some]

theorem list (h : TenantsSimulate m db) {limit : Option ℕ} (hlimit : ∀ n ∈ limit, n < 2 ^ 63) :
    PgTenantsRepo.list db limit = .ok (MemTenantsRepo.list m limit) := by
  obtain ⟨ts, hts, hmem⟩ := h.holds
  have hperm : ts.Perm m.byId.rows :=
    (List.perm_ext_iff_of_nodup hts.ids.of_map m.byId.nodup.of_map).mpr hmem
  have hsorted : (ts.insertionSort fun a b => a.id.uuid ≤ b.id.uuid) =
      m.byId.rows.insertionSort fun a b => a.id.uuid ≤ b.id.uuid := by
    have hlt : ∀ us : List Tenant, us.Perm m.byId.rows →
        (us.insertionSort fun a b => a.id.uuid ≤ b.id.uuid).Pairwise
          fun a b => a.id.uuid < b.id.uuid := fun us hus =>
      insertionSort_pairwise_lt (fun t => t.id.uuid) (hus.nodup_iff.mpr m.byId.nodup.of_map)
        fun a ha b hb he => Table.eq_of_key (hus.subset ha) (hus.subset hb) (TenantId.ext he)
    exact List.Perm.eq_of_pairwise (fun a b _ _ hab hba => absurd hba (lt_asymm hab))
      (hlt ts hperm) (hlt _ (.refl _))
      ((List.perm_insertionSort _ _).trans (hperm.trans (List.perm_insertionSort _ _).symm))
  rw [hts.list_eq hlimit]
  simp only [MemTenantsRepo.list, hsorted]
  cases limit <;> rfl

theorem delete (h : TenantsSimulate m db) (id : TenantId) :
    ∃ db', PgTenantsRepo.delete db id = (.ok (m.delete id).1, db') ∧
      TenantsSimulate (m.delete id).2 db' := by
  obtain ⟨ts, hts, hmem⟩ := h.holds
  obtain ⟨db', hdelete, hts', hrows⟩ := hts.delete_eq id
  have hget : (ts.find? fun t => t.id = id) = m.byId.get id := by
    apply Option.ext
    intro t
    rw [HoldsTenants.find?_eq_some hts.ids, hmem, Table.get_eq_some]
  have hfst : (m.delete id).1 = (m.byId.get id).isSome := by
    rw [MemTenantsRepo.delete]
    cases m.byId.get id <;> rfl
  have hafter : ∀ t, t ∈ (m.delete id).2.byId ↔ t ∈ m.byId ∧ t.id ≠ id := by
    intro t
    rw [MemTenantsRepo.delete]
    cases hold : m.byId.get id with
    | some old => exact Table.mem_remove
    | none => exact (and_iff_left_of_imp fun ht hid => Table.get_eq_none.mp hold ⟨t, ht, hid⟩).symm
  refine ⟨db', by rw [hdelete, hget, hfst], h.indexed.delete id, ⟨_, hts', fun t => ?_⟩,
    fun r hr => h.created r (hrows r hr), fun t ht => h.sendable t ((hafter t).mp ht).1⟩
  rw [List.mem_filter, hmem, hafter, Bool.not_eq_true', decide_eq_false_iff_not]

/-- A tenant that shares nothing with a stored one is stored in both. -/
theorem stored (h : TenantsSimulate m db) {ts : List Tenant} (hts : HoldsTenants db ts)
    (hmem : ∀ t, t ∈ ts ↔ t ∈ m.byId) {t : Tenant} (hname : Sendable t.name)
    (hemail : Sendable t.email)
    (hfree : ∀ u ∈ ts, u.id ≠ t.id ∧ u.name ≠ t.name ∧ u.email ≠ t.email)
    (hindexed : Indexed (m.save t).2) :
    TenantsSimulate (m.save t).2
      (HoldsTenants.withRows db (db.rows "tenants" ++ [newRow db t])) where
  indexed := hindexed
  holds := by
    refine ⟨_, hts.withRows_newRow hfree, fun u => ?_⟩
    rw [List.mem_append, List.mem_singleton, hmem]
    refine Iff.trans ?_ (Table.mem_save (t := m.byId)).symm
    have hne : u ∈ m.byId → u.id ≠ t.id := fun hu => (hfree u ((hmem u).mpr hu)).1
    tauto
  created r hr := by
    rw [HoldsTenants.rows_withRows] at hr
    rcases List.mem_append.mp hr with hr | hr
    · exact h.created r hr
    · rw [List.mem_singleton.mp hr]
      exact HoldsTenants.created_newRow t
  sendable u hu := by
    rcases Table.mem_save.mp hu with rfl | ⟨hu, -⟩
    · exact ⟨hname, hemail⟩
    · exact h.sendable u hu

theorem save (h : TenantsSimulate m db) {t : Tenant}
    (hgood : TenantsRepoCall.Good (.save t) m) :
    ∃ db', PgTenantsRepo.save db t = (.ok t, db') ∧ TenantsSimulate (m.save t).2 db' := by
  obtain ⟨⟨hname, hemail⟩, ha, hk⟩ := hgood
  obtain ⟨ts, hts, hmem⟩ := h.holds
  by_cases hnew : ∀ u ∈ ts, u.id ≠ t.id
  · have hfree : ∀ u ∈ ts, u.id ≠ t.id ∧ u.name ≠ t.name ∧ u.email ≠ t.email := fun u hu =>
      ⟨hnew u hu, ha u ((hmem u).mp hu) (hnew u hu)⟩
    refine ⟨_, ?_, h.stored hts hmem hname hemail hfree (h.indexed.save ha hk)⟩
    rw [hts.save_new_eq hname hemail hnew, (hts.uniqueViolations_newRow t).mpr hfree]
  · push Not at hnew
    obtain ⟨old, hold, hid⟩ := hnew
    obtain ⟨hn, he⟩ := hk old ((hmem old).mp hold) hid
    obtain rfl : old = t := by
      show (⟨old.id, old.name, old.email⟩ : Tenant) = t
      rw [hid, hn, he]
    obtain ⟨db', hsave, hts', hcreated⟩ := hts.save_same hname hemail h.created hold
    have hsame : (m.save old).2.byId = m.byId := Table.save_of_mem ((hmem old).mp hold)
    exact ⟨db', hsave, h.indexed.save ha hk, ⟨ts, hts', fun u => by rw [hsame, hmem]⟩, hcreated,
      fun u hu => h.sendable u (hsame ▸ hu)⟩

/-- A save that is not good fails or can be told from one over Postgres. -/
theorem save_bad (h : TenantsSimulate m db) {t : Tenant}
    (hagree : TenantsAgreeAt (.save t) m db) : TenantsRepoCall.Good (.save t) m := by
  obtain ⟨ts, hts, hmem⟩ := h.holds
  have hok : ∀ e, (PgTenantsRepo.save db t).1 ≠ .error e := by
    intro e he
    have hanswer := hagree.answer
    simp only [PgTenantsRepo.answer, he] at hanswer
    cases hanswer
  have hsendable : Sendable t.name ∧ Sendable t.email := by
    by_contra hno
    exact hok _ (congrArg Prod.fst (hts.save_invalid hno))
  -- over Postgres nothing is found by a name or an email that it does not have
  have hkeeps : KeepsNames m (.save t) := by
    intro old hold hid
    have hsend := h.sendable old hold
    constructor
    · by_contra hne
      have hfind := hagree.name old.name hsend.1
      have hstale : (m.save t).2.getByName old.name = some t :=
        stale_find h.indexed.name hold hid hne
      exact hne (selectBy_column (fun _ _ hrow => hrow.name) (hfind.trans (congrArg _ hstale))).symm
    · by_contra hne
      have hfind := hagree.email old.email hsend.2
      have hstale : (m.save t).2.getByEmail old.email = some t :=
        stale_find h.indexed.email hold hid hne
      exact hne
        (selectBy_column (fun _ _ hrow => hrow.email) (hfind.trans (congrArg _ hstale))).symm
  refine ⟨hsendable, fun u hu hne => ?_, hkeeps⟩
  by_cases hnew : ∀ v ∈ ts, v.id ≠ t.id
  · have hsave := hts.save_new_eq hsendable.1 hsendable.2 hnew
    cases hv : Db.uniqueViolations tenantsTable (db.rows "tenants" ++ [newRow db t]) with
    | nil => exact ((hts.uniqueViolations_newRow t).mp hv u ((hmem u).mpr hu)).2
    | cons e es =>
      rw [hv] at hsave
      exact absurd (congrArg Prod.fst hsave) (hok e)
  · push Not at hnew
    obtain ⟨old, hold, hid⟩ := hnew
    obtain ⟨hn, he⟩ := hkeeps old ((hmem old).mp hold) hid
    have hother : u ≠ old := fun heq => hne (heq ▸ hid)
    exact ⟨fun heq => hother (hts.eq_of_name ((hmem u).mpr hu) hold (heq.trans hn.symm)),
      fun heq => hother (hts.eq_of_email ((hmem u).mpr hu) hold (heq.trans he.symm))⟩

/-- A creation with texts that can be sent is decided on a stored tenant, or inserts one with
an identifier that must be new. -/
theorem create (h : TenantsSimulate m db) (id : TenantId) {name email : String}
    (hname : Sendable name) (hemail : Sendable email) :
    (TenantsRepoCall.Good (.create id name email) m ∧
      PgTenantsRepo.split (PgTenantsRepo.create db id name email).1 =
        .ok (m.create id name email).1 ∧
      TenantsSimulate (m.create id name email).2 (PgTenantsRepo.create db id name email).2) ∨
    ¬ TenantsRepoCall.Good (.create id name email) m ∧
      ∃ e, PgTenantsRepo.split (PgTenantsRepo.create db id name email).1 = .error e := by
  have hbyName : PgTenantsRepo.selectBy db "name" name = .ok (m.getByName name) :=
    h.find_name hname
  have hbyEmail : PgTenantsRepo.selectBy db "email" email = .ok (m.getByEmail email) :=
    h.find_email hemail
  rcases h.indexed.create_cases id name email with
    ⟨r, answer, hresolve, hsplit, hcreate⟩ | ⟨hresolve, hno, hcreate⟩
  · have hpg : PgTenantsRepo.create db id name email = (r, db) := by
      rw [PgTenantsRepo.create, hbyName, hbyEmail]
      simp only [hresolve]
    refine .inl ⟨⟨⟨hname, hemail⟩, fun hno => ?_⟩, by rw [hpg, hcreate, hsplit], ?_⟩
    · have hn : m.getByName name = none := Option.eq_none_iff_forall_ne_some.mpr fun t ht =>
        (hno t ((h.indexed.consistent.name name t).mp ht).1).1
          ((h.indexed.consistent.name name t).mp ht).2
      have he : m.getByEmail email = none := Option.eq_none_iff_forall_ne_some.mpr fun t ht =>
        (hno t ((h.indexed.consistent.email email t).mp ht).1).2
          ((h.indexed.consistent.email email t).mp ht).2
      rw [hn, he] at hresolve
      cases hresolve
    · rw [hpg, hcreate]
      exact h
  · obtain ⟨ts, hts, hmem⟩ := h.holds
    have hinsert := hts.insertNew_eq (t := ⟨id, name, email⟩) hname hemail
    cases hv : Db.uniqueViolations tenantsTable
        (db.rows "tenants" ++ [newRow db ⟨id, name, email⟩]) with
    | nil =>
      have hfree := (hts.uniqueViolations_newRow _).mp hv
      have hnew : ¬ m.byId.Has id := fun ⟨u, hu, hid⟩ => (hfree u ((hmem u).mpr hu)).1 hid
      have hallowed : Allowed m (.create id name email) := hnew
      have hindexed := h.indexed.create hallowed
      have hpg : PgTenantsRepo.create db id name email = (.ok id,
          HoldsTenants.withRows db (db.rows "tenants" ++ [newRow db ⟨id, name, email⟩])) := by
        rw [hv] at hinsert
        rw [PgTenantsRepo.create, hbyName, hbyEmail]
        simp only [hresolve, hinsert]
      rw [hcreate] at hindexed
      rw [hpg, hcreate]
      exact .inl ⟨⟨⟨hname, hemail⟩, fun _ => Table.get_eq_none.mpr hnew⟩, rfl,
        h.stored hts hmem hname hemail hfree hindexed⟩
    | cons e es =>
      have hpg : PgTenantsRepo.create db id name email = (.error (.db e), db) := by
        rw [hv] at hinsert
        rw [PgTenantsRepo.create, hbyName, hbyEmail]
        simp only [hresolve, hinsert]
      rw [hpg]
      refine .inr ⟨fun hgood => ?_, _, rfl⟩
      have hnew : ¬ m.byId.Has id := Table.get_eq_none.mp (hgood.2 hno)
      rw [(hts.uniqueViolations_newRow _).mpr fun u hu =>
        ⟨fun hid => hnew ⟨u, (hmem u).mp hu, hid⟩, hno u ((hmem u).mp hu)⟩] at hv
      cases hv

/-! ### Call by call -/

/-- A good call is answered alike, and the two go on alike. -/
theorem answer_good (h : TenantsSimulate m db) {call : TenantsRepoCall} (hgood : call.Good m) :
    (PgTenantsRepo.answer db call).1 = .ok (MemTenantsRepo.answer m call).1 ∧
      TenantsSimulate (MemTenantsRepo.answer m call).2 (PgTenantsRepo.answer db call).2 := by
  cases call with
  | get id =>
    simp only [PgTenantsRepo.answer, MemTenantsRepo.answer, h.get]
    exact ⟨rfl, h⟩
  | save entity =>
    obtain ⟨db', hsave, hnext⟩ := h.save hgood
    simp only [PgTenantsRepo.answer, MemTenantsRepo.answer, hsave]
    exact ⟨rfl, hnext⟩
  | delete id =>
    obtain ⟨db', hdelete, hnext⟩ := h.delete id
    simp only [PgTenantsRepo.answer, MemTenantsRepo.answer, hdelete]
    exact ⟨rfl, hnext⟩
  | create id name email =>
    rcases h.create id hgood.1.1 hgood.1.2 with ⟨-, hsplit, hnext⟩ | ⟨hno, -⟩
    · simp only [PgTenantsRepo.answer, MemTenantsRepo.answer, hsplit]
      exact ⟨rfl, hnext⟩
    · exact absurd hgood hno
  | getByName name =>
    simp only [PgTenantsRepo.answer, MemTenantsRepo.answer, h.find_name hgood]
    exact ⟨rfl, h⟩
  | getByEmail email =>
    simp only [PgTenantsRepo.answer, MemTenantsRepo.answer, h.find_email hgood]
    exact ⟨rfl, h⟩
  | list limit =>
    simp only [PgTenantsRepo.answer, MemTenantsRepo.answer, h.list hgood]
    exact ⟨rfl, h⟩

/-- Any other call can be told apart. -/
theorem good_of_agree (h : TenantsSimulate m db) {call : TenantsRepoCall}
    (hassumed : call.Assumed m) (hagree : TenantsAgreeAt call m db) : call.Good m := by
  have hok : ∀ e, (PgTenantsRepo.answer db call).1 ≠ .error e := by
    intro e he
    have hanswer := hagree.answer
    rw [he] at hanswer
    cases hanswer
  obtain ⟨ts, hts, -⟩ := h.holds
  have hinvalidName : ∀ v, ¬ Sendable v →
      PgTenantsRepo.selectBy db "name" v = .error .invalidText :=
    fun v => hts.selectBy_invalid (by decide)
  have hinvalidEmail : ∀ v, ¬ Sendable v →
      PgTenantsRepo.selectBy db "email" v = .error .invalidText :=
    fun v => hts.selectBy_invalid (by decide)
  cases call with
  | get id => trivial
  | save entity => exact h.save_bad hagree
  | delete id => trivial
  | create id name email =>
    by_cases hname : Sendable name
    · by_cases hemail : Sendable email
      · rcases h.create id hname hemail with ⟨hgood, -⟩ | ⟨-, e, he⟩
        · exact hgood
        · exact absurd (by simp only [PgTenantsRepo.answer, he]; rfl) (hok e)
      · have hbyName : PgTenantsRepo.selectBy db "name" name = .ok (m.getByName name) :=
          h.find_name hname
        refine absurd ?_ (hok (.sql .invalidText))
        simp only [PgTenantsRepo.answer, PgTenantsRepo.create, hbyName,
          hinvalidEmail email hemail]
        rfl
    · refine absurd ?_ (hok (.sql .invalidText))
      simp only [PgTenantsRepo.answer, PgTenantsRepo.create, hinvalidName name hname]
      rfl
  | getByName name =>
    by_contra hno
    refine hok (.sql .invalidText) ?_
    simp only [PgTenantsRepo.answer, PgTenantsRepo.getByName, hinvalidName name hno]
    rfl
  | getByEmail email =>
    by_contra hno
    refine hok (.sql .invalidText) ?_
    simp only [PgTenantsRepo.answer, PgTenantsRepo.getByEmail, hinvalidEmail email hno]
    rfl
  | list limit =>
    rintro n ⟨⟩
    by_contra hlow
    refine hok .negativeLimit ?_
    simp only [PgTenantsRepo.answer, hts.list_of_limit (by omega) (hassumed n rfl)]
    rfl

theorem agreeAt (h : TenantsSimulate m db) {call : TenantsRepoCall} (hgood : call.Good m) :
    TenantsAgreeAt call m db := by
  obtain ⟨hanswer, hnext⟩ := h.answer_good hgood
  exact ⟨hanswer, fun _ => hnext.find_name, fun _ => hnext.find_email⟩

theorem initial (hschema : db.schema = migrated) (hempty : db.rows "tenants" = []) :
    TenantsSimulate MemTenantsRepo.new db where
  indexed := .new
  holds := by
    refine ⟨[], ⟨hschema ▸ migrated_tenants, ?_, .nil, .nil, .nil⟩, fun t => ?_⟩
    · rw [hempty]
      exact .nil
    · exact iff_of_false List.not_mem_nil (Table.notMem_empty t)
  created r hr := by
    rw [hempty] at hr
    cases hr
  sendable t ht := absurd ht (Table.notMem_empty t)

end TenantsSimulate

/-- On a migrated database without tenants, the two repositories answer every call alike and
find the same tenants after it, exactly as long as every call is good: the texts can be sent,
no save renames a stored tenant or takes the name or the email of another, the identifier of
a tenant that is created is new, and limits are not negative. -/
theorem tenants_agree_iff (db : Db Json) (hschema : db.schema = migrated)
    (hempty : db.rows "tenants" = []) (calls : List TenantsRepoCall)
    (hassumed : Along (fun m c => (MemTenantsRepo.answer m c).2) TenantsRepoCall.Assumed calls
      MemTenantsRepo.new) :
    AgreeFrom (fun m c => (MemTenantsRepo.answer m c).2)
        (fun db c => (PgTenantsRepo.answer db c).2) TenantsAgreeAt calls MemTenantsRepo.new db ↔
      Along (fun m c => (MemTenantsRepo.answer m c).2) TenantsRepoCall.Good calls
        MemTenantsRepo.new :=
  agreeFrom_iff (fun _ _ _ h _ hgood => ⟨h.agreeAt hgood, (h.answer_good hgood).2⟩)
    (fun _ _ _ h ha hbad hagree => hbad (h.good_of_agree ha hagree)) calls
    (TenantsSimulate.initial hschema hempty) hassumed

/-- A tenant is created twice, and renamed. -/
def createdAndRenamed : List TenantsRepoCall :=
  [.create ⟨0⟩ "acme" "ops@acme.io", .create ⟨1⟩ "acme" "ops@acme.io", .getByName "acme",
    .save ⟨⟨0⟩, "acme-labs", "ops@acme.io"⟩]

/-- The renaming can be told apart. -/
theorem tenants_agree_iff_createdAndRenamed :
    ¬ AgreeFrom (fun m c => (MemTenantsRepo.answer m c).2)
        (fun db c => (PgTenantsRepo.answer db c).2) TenantsAgreeAt createdAndRenamed
        MemTenantsRepo.new ⟨migrated, fun _ => [], 0⟩ := by
  rw [tenants_agree_iff _ rfl rfl createdAndRenamed ⟨trivial, trivial, trivial, trivial, trivial⟩]
  rintro ⟨-, -, -, ⟨-, -, hkeeps⟩, -⟩
  exact absurd (hkeeps ⟨⟨0⟩, "acme", "ops@acme.io"⟩ List.mem_cons_self rfl).1 (by decide)

end Contexide.StoragePg
