import Contexide.Storage.Agreement
import Contexide.StoragePg.Documents

/-! The two repositories of documents against each other. They encode insert-or-update by
different conditions, presence in the store and a nil identifier, and part at the first
save of a document that has an identifier and is not stored. Generated identifiers are
compared up to a permutation of all identifiers that keeps the nil one. -/

namespace Contexide.StoragePg

open Storage Sql

/-! ### Renaming of identifiers -/

section Rename

variable (σ : Equiv.Perm Uuid)

def DocumentId.rename (id : DocumentId) : DocumentId := ⟨σ id.uuid⟩

def Document.rename (d : Document) : Document := { d with id := DocumentId.rename σ d.id }

def DocumentCall.rename : DocumentCall → DocumentCall
  | .get id => .get (DocumentId.rename σ id)
  | .save drawn entity => .save (DocumentId.rename σ drawn) (entity.rename σ)
  | .setStatus id status => .setStatus (DocumentId.rename σ id) status
  | .delete id => .delete (DocumentId.rename σ id)

def DocumentAnswer.rename : DocumentAnswer → DocumentAnswer
  | .found d => .found (d.map (Document.rename σ))
  | .saved d => .saved (d.rename σ)
  | .done b => .done b

variable {σ}

theorem rename_isNil (hσ : σ 0 = 0) (u : Uuid) : (σ u).isNil = u.isNil := by
  have h : σ u = 0 ↔ u = 0 := by
    constructor
    · intro hu
      exact σ.injective (hu.trans hσ.symm)
    · rintro rfl
      exact hσ
  simp [Uuid.isNil, h]

theorem rename_id_eq {id id' : DocumentId} : σ id.uuid = σ id'.uuid ↔ id = id' := by
  rw [σ.injective.eq_iff, DocumentId.ext_iff]

/-- Searching renamed documents for a renamed identifier. -/
theorem find?_map_rename (rows : List Document) (id : DocumentId) :
    ((rows.map (Document.rename σ)).find? fun x => x.id.uuid = σ id.uuid) =
      (rows.find? fun d => d.id = id).map (Document.rename σ) := by
  rw [List.find?_map]
  congr 2
  funext d
  exact decide_eq_decide.mpr rename_id_eq

end Rename

/-! ### The rows of the in-memory repository after a call -/

namespace MemDocumentsRepo

variable {m : MemDocumentsRepo}

theorem rows_save_of_has {d : Document} (h : m.Has d.id) :
    (Table.save m d).rows = m.rows.map fun x => if x.id = d.id then d else x :=
  upsert_eq_map Document.id d m.rows m.nodup h

theorem rows_setStatus (id : DocumentId) (status : DocumentStatus) :
    (setStatus m id status).2.rows =
      m.rows.map fun x => if x.id = id then { x with status := status } else x := by
  unfold setStatus
  cases hget : m.get id with
  | none =>
    have hnot := Table.get_eq_none.mp hget
    refine (List.map_id m.rows).symm.trans (List.map_congr_left fun x hx => ?_)
    rw [if_neg fun hid => hnot ⟨x, hx, hid⟩, id_eq]
  | some d =>
    obtain ⟨hd, rfl⟩ := Table.get_eq_some.mp hget
    have hsave := rows_save_of_has (m := m) (d := { d with status := status }) ⟨d, hd, rfl⟩
    refine hsave.trans ?_
    refine List.map_congr_left fun x hx => ?_
    by_cases hid : x.id = d.id
    · rw [if_pos hid, if_pos hid, Table.eq_of_key hx hd hid]
    · rw [if_neg hid, if_neg hid]

theorem setStatus_fst (id : DocumentId) (status : DocumentStatus) :
    (setStatus m id status).1 = (m.get id).isSome := by
  unfold setStatus
  cases m.get id <;> rfl

end MemDocumentsRepo

/-! ### The statements on a table of documents -/

namespace PgDocumentsRepo

variable {db : Db Json} {es : List Document}

theorem get_eq (h : documentCodec.Holds db es) (id : DocumentId) :
    get db id = .ok (es.find? fun x => x.id.uuid = id.uuid) := by
  have hselect : db.select
      { table := "documents", columns := ["id", "tenant_id", "title", "status"],
        whereColumn := "id", orderBy := [] } [.uuid id.uuid] =
      .ok ((es.find? fun x => x.id.uuid = id.uuid).toList.map documentCodec.answer) :=
    h.select_id id.uuid
  rw [get, hselect]
  cases es.find? fun x => x.id.uuid = id.uuid with
  | none => rfl
  | some d =>
    show (do let d ← Document.fromRow (documentCodec.answer d); Except.ok (some d)) = _
    rw [fromRow_answer]
    rfl

/-- Reading changes nothing. -/
theorem run_get_snd (id : DocumentId) : (run db (.get id)).2 = db := by
  simp only [run]
  cases get db id <;> rfl

theorem delete_eq (h : documentCodec.Holds db es) (id : DocumentId) :
    ∃ db', delete db id = .ok ((es.find? fun x => x.id.uuid = id.uuid).isSome, db') ∧
      documentCodec.Holds db' (es.filter fun x => !decide (x.id.uuid = id.uuid)) ∧
      documentCodec.Frame db db' := by
  obtain ⟨db', hdelete, hholds, hframe⟩ :=
    h.delete documentCodec.id_mem (.uuid id.uuid) rfl
      (fun x => Codec.sqlEq_id (C := documentCodec) x id.uuid)
  refine ⟨db', ?_, hholds, hframe⟩
  have hdelete' : db.delete { table := "documents", whereColumn := "id" } [.uuid id.uuid] =
      .ok (db', (es.filter fun x => x.id.uuid = id.uuid).length) := hdelete
  rw [delete, hdelete']
  exact congrArg (fun b => Except.ok (b, db')) (h.affected id.uuid)

theorem notMem_asStr (s : DocumentStatus) : '\x00' ∉ s.asStr.toList := by
  cases s <;> decide

theorem setStatus_eq (h : documentCodec.Holds db es) (ht : ∀ x ∈ es, HasTenant db x.tenantId)
    (id : DocumentId) (status : DocumentStatus) :
    ∃ db', setStatus db id status =
        .ok ((es.find? fun x => x.id.uuid = id.uuid).isSome, db') ∧
      documentCodec.Holds db'
        (es.map fun x => if x.id.uuid = id.uuid then { x with status := status } else x) ∧
      documentCodec.Frame db db' := by
  obtain ⟨db', hupdate, hholds, hframe⟩ := h.update id.uuid [("status", 2)]
    (by simp [documentCodec]) [.text status.asStr]
    (by simp [Value.encodable, notMem_asStr]) (g := fun x => { x with status := status })
    fun x hx hk => by
      refine ⟨?_, hk, documentCodec_valid (ht x hx)⟩
      intro c hc
      simp only [documentCodec, List.mem_cons, List.not_mem_nil, or_false] at hc
      rcases hc with rfl | rfl | rfl | rfl <;> rfl
  refine ⟨db', ?_, hholds, hframe⟩
  have hupdate' : db.update { table := "documents", set := [("status", 2)], whereColumn := "id" }
      [.uuid id.uuid, .text status.asStr] =
      .ok (db', (es.filter fun x => x.id.uuid = id.uuid).length) := hupdate
  rw [setStatus, hupdate']
  exact congrArg (fun b => Except.ok (b, db')) (h.affected id.uuid)

/-- The title of a document can be sent to the database. -/
def TitleEncodable (d : Document) : Prop := '\x00' ∉ d.title.toList

instance (d : Document) : Decidable (TitleEncodable d) :=
  inferInstanceAs (Decidable ('\x00' ∉ d.title.toList))

theorem encodable_params {d : Document} :
    ([.uuid d.id.uuid, .uuid d.tenantId.uuid, .text d.title, .text d.status.asStr] :
        List (Value Json)).all Value.encodable = true ↔ TitleEncodable d := by
  simp [Value.encodable, TitleEncodable, notMem_asStr]

/-- Saving a document without an identifier inserts it under the one drawn. -/
theorem save_nil (h : documentCodec.Holds db es) (drawn : DocumentId) {d : Document}
    (hnil : d.id.uuid.isNil = true) (hnew : ∀ x ∈ es, x.id.uuid ≠ drawn.uuid)
    (ht : HasTenant db d.tenantId) (htitle : TitleEncodable d) :
    ∃ db', save db drawn d = .ok ({ d with id := drawn }, db') ∧
      documentCodec.Holds db' (es ++ [{ d with id := drawn }]) ∧ documentCodec.Frame db db' := by
  obtain ⟨db', hinsert, hholds, hframe⟩ := h.insert_new
    (e := ({ d with id := drawn } : Document)) (documentCodec_valid ht)
    (encodable_params.mpr htitle) hnew none (by simp) [] (by simp)
  refine ⟨db', ?_, hholds, hframe⟩
  have hinsert' : db.insert
      { table := "documents", columns := ["id", "tenant_id", "title", "status"],
        onConflict := none, returning := [] }
      [.uuid drawn.uuid, .uuid d.tenantId.uuid, .text d.title, .text d.status.asStr] =
      .ok (db', []) := hinsert
  simp only [save, hnil, if_true, hinsert']
  rfl

/-- Saving a document with an identifier updates the stored one, if there is one. -/
theorem save_of_not_nil (h : documentCodec.Holds db es) (drawn : DocumentId) {d : Document}
    (hnil : d.id.uuid.isNil = false) (ht : HasTenant db d.tenantId) (htitle : TitleEncodable d) :
    ∃ db', save db drawn d = .ok (d, db') ∧
      documentCodec.Holds db' (es.map fun x => if x.id.uuid = d.id.uuid then d else x) ∧
      documentCodec.Frame db db' := by
  obtain ⟨db', hupdate, hholds, hframe⟩ := h.update d.id.uuid
    [("tenant_id", 2), ("title", 3), ("status", 4)] (by simp [documentCodec])
    [.uuid d.tenantId.uuid, .text d.title, .text d.status.asStr]
    (encodable_params.mpr htitle) (g := fun _ => d) fun x hx hk => by
      refine ⟨?_, rfl, documentCodec_valid ht⟩
      intro c hc
      simp only [documentCodec, List.mem_cons, List.not_mem_nil, or_false] at hc
      rcases hc with rfl | rfl | rfl | rfl
      · exact congrArg Value.uuid hk.symm
      · rfl
      · rfl
      · rfl
  refine ⟨db', ?_, hholds, hframe⟩
  have hupdate' : db.update
      { table := "documents", set := [("tenant_id", 2), ("title", 3), ("status", 4)],
        whereColumn := "id" }
      [.uuid d.id.uuid, .uuid d.tenantId.uuid, .text d.title, .text d.status.asStr] =
      .ok (db', (es.filter fun x => x.id.uuid = d.id.uuid).length) := hupdate
  rw [save, if_neg (by simp [hnil]), hupdate']
  rfl

/-- A title that cannot be sent fails both kinds of save. -/
theorem save_of_title (h : documentCodec.Holds db es) (drawn : DocumentId) {d : Document}
    (htitle : ¬ TitleEncodable d) : save db drawn d = .error .invalidText := by
  have hfalse : ∀ {d' : Document}, d'.title = d.title →
      ([.uuid d'.id.uuid, .uuid d'.tenantId.uuid, .text d'.title, .text d'.status.asStr] :
        List (Value Json)).all Value.encodable = false := by
    intro d' heq
    rw [← Bool.not_eq_true, encodable_params, TitleEncodable, heq]
    exact htitle
  rw [save]
  split
  · have hinsert : db.insert
        { table := "documents", columns := ["id", "tenant_id", "title", "status"],
          onConflict := none, returning := [] }
        [.uuid drawn.uuid, .uuid d.tenantId.uuid, .text d.title, .text d.status.asStr] =
        .error .invalidText :=
      h.insert_invalid (e := ({ d with id := drawn } : Document)) (hfalse rfl) none (by simp) []
        (by simp)
    simp only [hinsert]
    rfl
  · have hupdate : db.update
        { table := "documents", set := [("tenant_id", 2), ("title", 3), ("status", 4)],
          whereColumn := "id" }
        [.uuid d.id.uuid, .uuid d.tenantId.uuid, .text d.title, .text d.status.asStr] =
        .error .invalidText :=
      h.update_invalid [("tenant_id", 2), ("title", 3), ("status", 4)] (by simp [documentCodec])
        (hfalse rfl)
    rw [hupdate]
    rfl

end PgDocumentsRepo

/-! ### Call by call -/

/-- What is required of a call: both repositories answer alike, up to the renaming, and a
saved document is found again in both. -/
def DocumentsAgreeAt (σ : Equiv.Perm Uuid) (call : DocumentCall) (m : MemDocumentsRepo)
    (db : Db Json) : Prop :=
  (PgDocumentsRepo.run db (call.rename σ)).1 = .ok ((MemDocumentsRepo.run m call).1.rename σ) ∧
    ∀ d, (MemDocumentsRepo.run m call).1 = .saved d →
      Table.get (MemDocumentsRepo.run m call).2 d.id = some d ∧
      PgDocumentsRepo.get (PgDocumentsRepo.run db (call.rename σ)).2 (d.rename σ).id =
        .ok (some (d.rename σ))

/-- What is assumed of a call: tenants exist, and an identifier that is drawn is new. -/
def DocumentCall.Assumed (db : Db Json) : DocumentCall → MemDocumentsRepo → Prop
  | .save drawn d, m => HasTenant db d.tenantId ∧ (d.id.uuid.isNil = true → ¬ m.Has drawn)
  | _, _ => True

/-- A save with an identifier finds a document stored under it, and a saved title can be
sent to the database. -/
def DocumentCall.Updates : DocumentCall → MemDocumentsRepo → Prop
  | .save _ d, m => PgDocumentsRepo.TitleEncodable d ∧ (d.id.uuid.isNil = false → m.Has d.id)
  | _, _ => True

/-- The table holds the renamed documents of the in-memory repository. -/
structure DocumentsSimulate (σ : Equiv.Perm Uuid) (start : Db Json) (m : MemDocumentsRepo)
    (db : Db Json) : Prop where
  holds : documentCodec.Holds db (m.rows.map (Document.rename σ))
  tenants : db.rows "tenants" = start.rows "tenants"
  owned : ∀ d ∈ m, HasTenant start d.tenantId

namespace DocumentsSimulate

variable {σ : Equiv.Perm Uuid} {start db : Db Json} {m : MemDocumentsRepo}

theorem hasTenant (h : DocumentsSimulate σ start m db) {t : TenantId} (ht : HasTenant start t) :
    HasTenant db t := by
  unfold HasTenant
  rwa [h.tenants]

/-- The relation after a statement on the table of documents. -/
theorem next (h : DocumentsSimulate σ start m db) {m' : MemDocumentsRepo} {db' : Db Json}
    (hholds : documentCodec.Holds db' (m'.rows.map (Document.rename σ)))
    (hframe : documentCodec.Frame db db') (howned : ∀ d ∈ m', HasTenant start d.tenantId) :
    DocumentsSimulate σ start m' db' :=
  ⟨hholds, (hframe.rows "tenants" (by decide)).trans h.tenants, howned⟩

theorem find? (_h : DocumentsSimulate σ start m db) (id : DocumentId) :
    ((m.rows.map (Document.rename σ)).find? fun x => x.id.uuid = (DocumentId.rename σ id).uuid) =
      (Table.get m id).map (Document.rename σ) :=
  find?_map_rename m.rows id

theorem isSome_find? (h : DocumentsSimulate σ start m db) (id : DocumentId) :
    ((m.rows.map (Document.rename σ)).find? fun x =>
      x.id.uuid = (DocumentId.rename σ id).uuid).isSome = (Table.get m id).isSome := by
  rw [h.find?, Option.isSome_map]

/-- Rewriting one renamed document. -/
theorem map_rename_ite (rows : List Document) (id : DocumentId) (g g' : Document → Document)
    (hg : ∀ x, g' (x.rename σ) = (g x).rename σ) :
    ((rows.map (Document.rename σ)).map fun x =>
        if x.id.uuid = (DocumentId.rename σ id).uuid then g' x else x) =
      (rows.map fun x => if x.id = id then g x else x).map (Document.rename σ) := by
  rw [List.map_map, List.map_map]
  refine List.map_congr_left fun x _ => ?_
  have hiff : (x.rename σ).id.uuid = (DocumentId.rename σ id).uuid ↔ x.id = id := rename_id_eq
  by_cases hid : x.id = id
  · simp only [Function.comp, if_pos (hiff.mpr hid), if_pos hid, hg]
  · simp only [Function.comp, if_neg (mt hiff.mp hid), if_neg hid]

theorem run_get (h : DocumentsSimulate σ start m db) (id : DocumentId) :
    DocumentsAgreeAt σ (.get id) m db := by
  have hget := PgDocumentsRepo.get_eq h.holds (DocumentId.rename σ id)
  rw [h.find?] at hget
  have hrun : PgDocumentsRepo.run db (.get (DocumentId.rename σ id)) =
      (.ok (.found ((Table.get m id).map (Document.rename σ))), db) := by
    simp only [PgDocumentsRepo.run, hget]
    rfl
  refine ⟨congrArg Prod.fst hrun, fun d hd => ?_⟩
  exact absurd hd (by simp [MemDocumentsRepo.run])

theorem run_setStatus (h : DocumentsSimulate σ start m db) (id : DocumentId)
    (status : DocumentStatus) :
    DocumentsAgreeAt σ (.setStatus id status) m db ∧
      DocumentsSimulate σ start (MemDocumentsRepo.setStatus m id status).2
        (PgDocumentsRepo.run db (.setStatus (DocumentId.rename σ id) status)).2 := by
  have hrows := MemDocumentsRepo.rows_setStatus (m := m) id status
  obtain ⟨db', hset, hholds, hframe⟩ := PgDocumentsRepo.setStatus_eq h.holds (fun x hx => by
    obtain ⟨d, hd, rfl⟩ := List.mem_map.mp hx
    exact h.hasTenant (h.owned d hd)) (DocumentId.rename σ id) status
  rw [h.isSome_find?] at hset
  rw [map_rename_ite m.rows id (fun x => { x with status := status })
    (fun x => { x with status := status }) fun _ => rfl, ← hrows] at hholds
  have hrun : PgDocumentsRepo.run db (.setStatus (DocumentId.rename σ id) status) =
      (.ok (.done (Table.get m id).isSome), db') := by
    simp only [PgDocumentsRepo.run, hset]
    rfl
  rw [DocumentsAgreeAt, DocumentCall.rename, hrun]
  refine ⟨⟨?_, fun d hd => absurd hd (by simp [MemDocumentsRepo.run])⟩, ?_⟩
  · rw [MemDocumentsRepo.run, MemDocumentsRepo.setStatus_fst]
    rfl
  · refine h.next hholds hframe fun d hd => ?_
    rw [Table.mem_def, hrows] at hd
    obtain ⟨x, hx, rfl⟩ := List.mem_map.mp hd
    have howned := h.owned x hx
    split
    · exact howned
    · exact howned

theorem run_delete (h : DocumentsSimulate σ start m db) (id : DocumentId) :
    DocumentsAgreeAt σ (.delete id) m db ∧
      DocumentsSimulate σ start (Table.remove m id)
        (PgDocumentsRepo.run db (.delete (DocumentId.rename σ id))).2 := by
  obtain ⟨db', hdelete, hholds, hframe⟩ :=
    PgDocumentsRepo.delete_eq h.holds (DocumentId.rename σ id)
  rw [h.isSome_find?] at hdelete
  have hrows : ((m.rows.map (Document.rename σ)).filter fun x =>
      !decide (x.id.uuid = (DocumentId.rename σ id).uuid)) =
      (Table.remove m id).rows.map (Document.rename σ) := by
    rw [List.filter_map]
    congr 1
    refine List.filter_congr fun x _ => ?_
    have hiff : (x.rename σ).id.uuid = (DocumentId.rename σ id).uuid ↔ x.id = id := rename_id_eq
    simp [hiff]
  rw [hrows] at hholds
  have hrun : PgDocumentsRepo.run db (.delete (DocumentId.rename σ id)) =
      (.ok (.done (Table.get m id).isSome), db') := by
    simp only [PgDocumentsRepo.run, hdelete]
    rfl
  rw [DocumentsAgreeAt, DocumentCall.rename, hrun]
  refine ⟨⟨rfl, fun d hd => absurd hd (by simp [MemDocumentsRepo.run])⟩, ?_⟩
  exact h.next hholds hframe fun d hd => h.owned d (Table.mem_remove.mp hd).1

theorem owned_save (h : DocumentsSimulate σ start m db) {d : Document}
    (ht : HasTenant start d.tenantId) : ∀ x ∈ Table.save m d, HasTenant start x.tenantId := by
  intro x hx
  rcases Table.mem_save.mp hx with rfl | ⟨hx, -⟩
  · exact ht
  · exact h.owned x hx

/-- A stored document is found in both repositories. -/
theorem readBack (h : DocumentsSimulate σ start m db) {d : Document} (hd : d ∈ m) :
    Table.get m d.id = some d ∧
      PgDocumentsRepo.get db (d.rename σ).id = .ok (some (d.rename σ)) := by
  have hget : Table.get m d.id = some d := Table.get_of_mem hd
  refine ⟨hget, ?_⟩
  have hpg := PgDocumentsRepo.get_eq h.holds (d.rename σ).id
  have hfind := h.find? d.id
  rw [hget] at hfind
  exact hpg.trans (congrArg Except.ok hfind)

theorem pg_run_save {drawn : DocumentId} {d x : Document} {db' : Db Json}
    (hsave : PgDocumentsRepo.save db drawn d = .ok (x, db')) :
    PgDocumentsRepo.run db (.save drawn d) = (.ok (.saved x), db') := by
  simp only [PgDocumentsRepo.run, hsave]
  rfl

theorem mem_run_save {d : Document} (hnil : d.id.uuid.isNil = false) (drawn : DocumentId) :
    MemDocumentsRepo.run m (.save drawn d) = (.saved d, Table.save m d) := by
  simp only [MemDocumentsRepo.run, MemDocumentsRepo.save, hnil, Bool.false_eq_true, if_false]

/-- A save that both repositories answer with the same document is read back in both. -/
theorem run_saved {drawn : DocumentId} {d x : Document} {db' : Db Json}
    (hmem : MemDocumentsRepo.run m (.save drawn d) = (.saved x, Table.save m x))
    (hsave : PgDocumentsRepo.save db (DocumentId.rename σ drawn) (d.rename σ) =
      .ok (x.rename σ, db'))
    (hnext : DocumentsSimulate σ start (Table.save m x) db') :
    DocumentsAgreeAt σ (.save drawn d) m db ∧
      DocumentsSimulate σ start (MemDocumentsRepo.run m (.save drawn d)).2
        (PgDocumentsRepo.run db (.save (DocumentId.rename σ drawn) (d.rename σ))).2 := by
  rw [DocumentsAgreeAt, DocumentCall.rename, pg_run_save hsave, hmem]
  refine ⟨⟨rfl, fun y hy => ?_⟩, hnext⟩
  rw [← DocumentAnswer.saved.inj hy]
  exact hnext.readBack (Table.mem_save_self m _)

/-- A document without an identifier is stored under the drawn one. -/
theorem run_save_nil (h : DocumentsSimulate σ start m db) (hσ : σ 0 = 0) {drawn : DocumentId}
    {d : Document} (hnil : d.id.uuid.isNil = true) (hnew : ¬ m.Has drawn)
    (ht : HasTenant start d.tenantId) (htitle : PgDocumentsRepo.TitleEncodable d) :
    DocumentsAgreeAt σ (.save drawn d) m db ∧
      DocumentsSimulate σ start (MemDocumentsRepo.run m (.save drawn d)).2
        (PgDocumentsRepo.run db (.save (DocumentId.rename σ drawn) (d.rename σ))).2 := by
  have hmem : MemDocumentsRepo.run m (.save drawn d) =
      (.saved { d with id := drawn }, Table.save m { d with id := drawn }) := by
    simp only [MemDocumentsRepo.run, MemDocumentsRepo.save, hnil, if_true]
  have hrows : (Table.save m { d with id := drawn }).rows = m.rows ++ [{ d with id := drawn }] :=
    Table.rows_save_of_not_has hnew
  have hfresh : ∀ x ∈ m.rows.map (Document.rename σ),
      x.id.uuid ≠ (DocumentId.rename σ drawn).uuid := by
    intro x hx heq
    obtain ⟨y, hy, rfl⟩ := List.mem_map.mp hx
    exact hnew ⟨y, hy, rename_id_eq.mp heq⟩
  have hnil' : (d.rename σ).id.uuid.isNil = true := (rename_isNil hσ d.id.uuid).trans hnil
  obtain ⟨db', hsave, hholds, hframe⟩ := PgDocumentsRepo.save_nil h.holds
    (DocumentId.rename σ drawn) hnil' hfresh (h.hasTenant ht) htitle
  refine run_saved hmem hsave (h.next ?_ hframe (owned_save h ht))
  rw [hrows, List.map_append]
  exact hholds

/-- A document with an identifier is stored over the one it finds. -/
theorem run_save_found (h : DocumentsSimulate σ start m db) (hσ : σ 0 = 0) {drawn : DocumentId}
    {d : Document} (hnil : d.id.uuid.isNil = false) (hhas : m.Has d.id)
    (ht : HasTenant start d.tenantId) (htitle : PgDocumentsRepo.TitleEncodable d) :
    DocumentsAgreeAt σ (.save drawn d) m db ∧
      DocumentsSimulate σ start (MemDocumentsRepo.run m (.save drawn d)).2
        (PgDocumentsRepo.run db (.save (DocumentId.rename σ drawn) (d.rename σ))).2 := by
  have hrows := MemDocumentsRepo.rows_save_of_has hhas
  have hnil' : (d.rename σ).id.uuid.isNil = false := (rename_isNil hσ d.id.uuid).trans hnil
  obtain ⟨db', hsave, hholds, hframe⟩ := PgDocumentsRepo.save_of_not_nil h.holds
    (DocumentId.rename σ drawn) hnil' (h.hasTenant ht) htitle
  refine run_saved (mem_run_save hnil drawn) hsave (h.next ?_ hframe (owned_save h ht))
  rw [hrows, ← map_rename_ite m.rows d.id (fun _ => d) (fun _ => d.rename σ) fun _ => rfl]
  exact hholds

/-- The update of a document that is not stored succeeds and affects no row, so that the
document is not found again. -/
theorem not_agreeAt_unstored (h : DocumentsSimulate σ start m db) (hσ : σ 0 = 0)
    {drawn : DocumentId} {d : Document} (ht : HasTenant start d.tenantId)
    (htitle : PgDocumentsRepo.TitleEncodable d) (hnil : d.id.uuid.isNil = false)
    (hhas : ¬ m.Has d.id) : ¬ DocumentsAgreeAt σ (.save drawn d) m db := by
  rintro ⟨-, hback⟩
  have hnil' : (d.rename σ).id.uuid.isNil = false := (rename_isNil hσ d.id.uuid).trans hnil
  obtain ⟨db', hsave, hholds, -⟩ := PgDocumentsRepo.save_of_not_nil h.holds
    (DocumentId.rename σ drawn) hnil' (h.hasTenant ht) htitle
  have hstored : documentCodec.Holds db'
      ((m.rows.map fun x => if x.id = d.id then d else x).map (Document.rename σ)) := by
    rw [← map_rename_ite m.rows d.id (fun _ => d) (fun _ => d.rename σ) fun _ => rfl]
    exact hholds
  have hget := (hback d (congrArg Prod.fst (mem_run_save hnil drawn))).2
  rw [DocumentCall.rename, pg_run_save hsave, PgDocumentsRepo.get_eq hstored] at hget
  have hnone : ((m.rows.map fun x => if x.id = d.id then d else x).find? fun x =>
      x.id = d.id) = none := by
    rw [List.find?_eq_none]
    intro x hx
    obtain ⟨y, hy, rfl⟩ := List.mem_map.mp hx
    have hne : y.id ≠ d.id := fun hid => hhas ⟨y, hy, hid⟩
    simp [hne]
  have hfind := find?_map_rename (σ := σ) (m.rows.map fun x => if x.id = d.id then d else x) d.id
  rw [hnone] at hfind
  exact absurd (hfind.symm.trans (Except.ok.inj hget)) (by simp)

/-- A title that cannot be sent fails in the database alone. -/
theorem not_agreeAt_title (h : DocumentsSimulate σ start m db) {drawn : DocumentId}
    {d : Document} (htitle : ¬ PgDocumentsRepo.TitleEncodable d) :
    ¬ DocumentsAgreeAt σ (.save drawn d) m db := by
  rintro ⟨hanswer, -⟩
  have hsave := PgDocumentsRepo.save_of_title h.holds (d := d.rename σ)
    (DocumentId.rename σ drawn) htitle
  have hrun : (PgDocumentsRepo.run db (.save (DocumentId.rename σ drawn) (d.rename σ))).1 =
      .error .invalidText := by
    simp only [PgDocumentsRepo.run, hsave]
    rfl
  exact absurd (hrun.symm.trans hanswer) (by simp)

/-- A save that does not find its document, or with a title that cannot be sent, is not
answered as required. -/
theorem not_agreeAt_save (h : DocumentsSimulate σ start m db) (hσ : σ 0 = 0) {drawn : DocumentId}
    {d : Document} (ht : HasTenant start d.tenantId)
    (hbad : ¬ DocumentCall.Updates (.save drawn d) m) :
    ¬ DocumentsAgreeAt σ (.save drawn d) m db := by
  by_cases htitle : PgDocumentsRepo.TitleEncodable d
  · have hcond : d.id.uuid.isNil = false ∧ ¬ m.Has d.id := by
      by_contra hnot
      exact hbad ⟨htitle, fun hnil => by_contra fun hhas => hnot ⟨hnil, hhas⟩⟩
    exact h.not_agreeAt_unstored hσ ht htitle hcond.1 hcond.2
  · exact h.not_agreeAt_title htitle

/-- Before the first call. -/
theorem initial (hs : start.schema = migrated) (he : start.rows "documents" = []) :
    DocumentsSimulate σ start MemDocumentsRepo.new start where
  holds := by
    refine ⟨?_, ?_, List.nodup_nil⟩
    · rw [hs]
      exact migrated_documents
    · show List.Forall₂ _ (start.rows "documents") []
      rw [he]
      exact .nil
  tenants := rfl
  owned := fun _ hd => absurd hd List.not_mem_nil

/-- A good call is answered as required and keeps the relation. -/
theorem run_good (h : DocumentsSimulate σ start m db) (hσ : σ 0 = 0) (call : DocumentCall)
    (hassumed : call.Assumed start m) (hgood : call.Updates m) :
    DocumentsAgreeAt σ call m db ∧
      DocumentsSimulate σ start (MemDocumentsRepo.run m call).2
        (PgDocumentsRepo.run db (call.rename σ)).2 := by
  cases call with
  | get id => exact ⟨h.run_get id, by rwa [DocumentCall.rename, PgDocumentsRepo.run_get_snd]⟩
  | save drawn d =>
    obtain ⟨ht, hnew⟩ := hassumed
    obtain ⟨htitle, hhas⟩ := hgood
    cases hnil : d.id.uuid.isNil with
    | true => exact h.run_save_nil hσ hnil (hnew hnil) ht htitle
    | false => exact h.run_save_found hσ hnil (hhas hnil) ht htitle
  | setStatus id status => exact h.run_setStatus id status
  | delete id => exact h.run_delete id

/-- A bad call is a save. -/
theorem run_bad (h : DocumentsSimulate σ start m db) (hσ : σ 0 = 0) (call : DocumentCall)
    (hassumed : call.Assumed start m) (hbad : ¬ call.Updates m) :
    ¬ DocumentsAgreeAt σ call m db := by
  cases call with
  | save drawn d => exact h.not_agreeAt_save hσ hassumed.1 hbad
  | get id => exact absurd trivial hbad
  | setStatus id status => exact absurd trivial hbad
  | delete id => exact absurd trivial hbad

end DocumentsSimulate

/-! ### Every sequence of calls -/

/-- The repositories over the same calls, the second with renamed identifiers: every call
is answered alike, and a saved document is found again. -/
def DocumentsAgree (σ : Equiv.Perm Uuid) (calls : List DocumentCall) (db : Db Json) : Prop :=
  AgreeFrom (fun m c => (MemDocumentsRepo.run m c).2)
    (fun db (c : DocumentCall) => (PgDocumentsRepo.run db (c.rename σ)).2)
    (DocumentsAgreeAt σ) calls MemDocumentsRepo.new db

/-- A condition on the calls, each with the in-memory repository before it. -/
def AlongDocuments (p : DocumentCall → MemDocumentsRepo → Prop) (calls : List DocumentCall) :
    Prop :=
  Along (fun m c => (MemDocumentsRepo.run m c).2) p calls MemDocumentsRepo.new

/-- From a migrated database without documents, the repositories agree exactly as long as
every save with an identifier finds its document stored already, and every title can be
sent to the database. -/
theorem documents_agree_iff (σ : Equiv.Perm Uuid) (hσ : σ 0 = 0) (db : Db Json)
    (hschema : db.schema = migrated) (hempty : db.rows "documents" = [])
    (calls : List DocumentCall)
    (hassumed : AlongDocuments (fun c m => c.Assumed db m) calls) :
    DocumentsAgree σ calls db ↔ AlongDocuments DocumentCall.Updates calls :=
  agreeFrom_iff (R := DocumentsSimulate σ db)
    (fun c _ _ h ha hg => h.run_good hσ c ha hg)
    (fun c _ _ h ha hb => h.run_bad hσ c ha hb)
    calls (DocumentsSimulate.initial hschema hempty) hassumed

/-- A migrated database with one tenant. -/
def oneTenant : Db Json where
  schema := migrated
  rows name := if name = "tenants" then [fun c => if c = "id" then .uuid 1 else .null] else []
  clock := 0

theorem hasTenant_oneTenant : HasTenant oneTenant ⟨1⟩ := ⟨_, List.mem_cons_self, rfl⟩

/-- Created under a fresh identifier, promoted, renamed and deleted. -/
def lifecycle : List DocumentCall :=
  [.save ⟨5⟩ ⟨⟨0⟩, ⟨1⟩, "Report", .draft⟩, .setStatus ⟨5⟩ .ready, .get ⟨5⟩,
    .save ⟨6⟩ ⟨⟨5⟩, ⟨1⟩, "Annual report", .ready⟩, .delete ⟨5⟩]

theorem documents_agree_iff_lifecycle : DocumentsAgree (Equiv.swap 5 7) lifecycle oneTenant :=
  (documents_agree_iff (Equiv.swap 5 7) (by decide) oneTenant rfl rfl lifecycle
    ⟨⟨hasTenant_oneTenant, fun _ => by decide⟩, trivial, trivial,
      ⟨hasTenant_oneTenant, fun h => absurd h (by decide)⟩, trivial, trivial⟩).mpr
    ⟨⟨by decide, fun h => absurd h (by decide)⟩, trivial, trivial,
      ⟨by decide, fun _ => by decide⟩, trivial, trivial⟩

/-- A document with an identifier that was never stored. -/
def unstored : DocumentCall := .save ⟨6⟩ ⟨⟨5⟩, ⟨1⟩, "Report", .draft⟩

/-- Postgres answers the save, which updates no row. -/
theorem not_documentsAgree_unstored :
    AlongDocuments (fun c m => c.Assumed oneTenant m) [unstored] ∧
      ¬ ∃ σ : Equiv.Perm Uuid, σ 0 = 0 ∧ DocumentsAgree σ [unstored] oneTenant := by
  have hassumed : unstored.Assumed oneTenant MemDocumentsRepo.new :=
    ⟨hasTenant_oneTenant, fun h => absurd h (by decide)⟩
  refine ⟨⟨hassumed, trivial⟩, ?_⟩
  rintro ⟨σ, hσ, hagree, -⟩
  have hbad : ¬ unstored.Updates MemDocumentsRepo.new := fun h => absurd (h.2 rfl) (by decide)
  exact (DocumentsSimulate.initial (σ := σ) rfl rfl).run_bad hσ unstored hassumed hbad hagree

end Contexide.StoragePg
