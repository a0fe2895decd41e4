import Contexide.Storage.Agreement
import Contexide.StoragePg.Chunks

/-! The two repositories of chunks against each other. Over Postgres a save on a stored
identifier keeps the tenant, in memory it replaces the chunk; the repositories agree as
long as no save changes the tenant of a stored chunk. -/

namespace Contexide.StoragePg

open Storage Sql

/-! ### The statements on a table of chunks -/

/-- The texts of a chunk can be sent to the database. -/
def Chunk.TextsEncodable (c : Chunk) : Prop :=
  '\x00' ∉ c.text.toList ∧ ∀ t ∈ c.metaJson, '\x00' ∉ t.toList

instance (c : Chunk) : Decidable c.TextsEncodable :=
  inferInstanceAs (Decidable ('\x00' ∉ c.text.toList ∧ ∀ t ∈ c.metaJson, '\x00' ∉ t.toList))

theorem Chunk.encodable_params (c : Chunk) :
    (chunkCodec.params c).all Value.encodable = true ↔ c.TextsEncodable := by
  show ([.uuid c.id.uuid, .uuid c.tenantId.uuid, .uuid c.chunkSetId.uuid, .int c.orderNo.toInt,
    .int c.byteStart.toInt, .int c.byteEnd.toInt, .text c.text, .ofOption .text c.metaJson] :
      List (Value Json)).all Value.encodable = true ↔ _
  cases hmeta : c.metaJson with
  | none => simp [Value.encodable, Value.ofOption, TextsEncodable, hmeta]
  | some t => simp [Value.encodable, Value.ofOption, TextsEncodable, hmeta]

namespace PgChunksRepo

variable {db : Db Json} {es : List Chunk}

theorem get_eq (h : chunkCodec.Holds db es) (id : ChunkId) :
    get db id = .ok (es.find? fun x => x.id.uuid = id.uuid) := by
  have hselect : db.select
      { table := "chunks",
        columns := ["id", "tenant_id", "chunk_set_id", "order_no", "byte_start", "byte_end",
          "text", "meta_json"],
        whereColumn := "id", orderBy := [] } [.uuid id.uuid] =
      .ok ((es.find? fun x => x.id.uuid = id.uuid).toList.map chunkCodec.answer) :=
    h.select_id id.uuid
  rw [get, hselect]
  cases es.find? fun x => x.id.uuid = id.uuid with
  | none => rfl
  | some c =>
    show (do let c ← Chunk.fromRow (chunkCodec.answer c); Except.ok (some c)) = _
    rw [Chunk.fromRow_answer]
    rfl

theorem delete_eq (h : chunkCodec.Holds db es) (id : ChunkId) :
    ∃ db', delete db id = (.ok (es.find? fun x => x.id.uuid = id.uuid).isSome, db') ∧
      chunkCodec.Holds db' (es.filter fun x => !decide (x.id.uuid = id.uuid)) ∧
      chunkCodec.Frame db db' := by
  obtain ⟨db', hdelete, hholds, hframe⟩ :=
    h.delete chunkCodec.id_mem (.uuid id.uuid) rfl
      (fun x => Codec.sqlEq_id (C := chunkCodec) x id.uuid)
  refine ⟨db', ?_, hholds, hframe⟩
  have hdelete' : db.delete { table := "chunks", whereColumn := "id" } [.uuid id.uuid] =
      .ok (db', (es.filter fun x => x.id.uuid = id.uuid).length) := hdelete
  rw [delete, hdelete']
  exact congrArg (fun b => (Except.ok b, db')) (h.affected id.uuid)

theorem chunkSetId_mem : "chunk_set_id" ∈ chunkCodec.columns := by decide

/-- The condition on the set. -/
theorem sqlEq_chunkSetId (setId : ChunkSetId) (x : Chunk) :
    (chunkCodec.encode x "chunk_set_id").sqlEq (.uuid setId.uuid) =
      decide (x.chunkSetId = setId) := by
  show (Value.uuid x.chunkSetId.uuid).sqlEq (.uuid setId.uuid) = _
  rw [Value.sqlEq_uuid, decide_eq_decide, ChunkSetId.ext_iff]

theorem deleteBySet_eq (h : chunkCodec.Holds db es) (setId : ChunkSetId) :
    ∃ db', deleteBySet db setId = (.ok (es.filter fun x => x.chunkSetId = setId).length, db') ∧
      chunkCodec.Holds db' (es.filter fun x => !decide (x.chunkSetId = setId)) ∧
      chunkCodec.Frame db db' := by
  obtain ⟨db', hdelete, hholds, hframe⟩ :=
    h.delete chunkSetId_mem (.uuid setId.uuid) rfl (sqlEq_chunkSetId setId)
  refine ⟨db', ?_, hholds, hframe⟩
  have hdelete' : db.delete { table := "chunks", whereColumn := "chunk_set_id" }
      [.uuid setId.uuid] = .ok (db', (es.filter fun x => x.chunkSetId = setId).length) := hdelete
  rw [deleteBySet, hdelete']

theorem listBySet_eq (h : chunkCodec.Holds db es) (setId : ChunkSetId) :
    listBySet db setId =
      .ok ((es.filter fun x => x.chunkSetId = setId).insertionSort fun x y => x.rank ≤ y.rank) := by
  have hselect := h.select chunkSetId_mem (.uuid setId.uuid) rfl
    (sqlEq_chunkSetId setId) ["order_no", "id"] (by decide)
  simp only [precedes_iff] at hselect
  have hselect' : db.select
      { table := "chunks",
        columns := ["id", "tenant_id", "chunk_set_id", "order_no", "byte_start", "byte_end",
          "text", "meta_json"],
        whereColumn := "chunk_set_id", orderBy := ["order_no", "id"] } [.uuid setId.uuid] =
      .ok (((es.filter fun x => x.chunkSetId = setId).insertionSort fun x y =>
        x.rank ≤ y.rank).map chunkCodec.answer) := by
    rw [← hselect]
    rfl
  rw [listBySet, hselect']
  exact Chunk.fromRows_answer _

/-- The columns that a conflict overwrites. -/
def overwritten : List String :=
  ["chunk_set_id", "order_no", "byte_start", "byte_end", "text", "meta_json"]

theorem save_def (c : Chunk) :
    save db c =
      match db.insert ⟨chunkCodec.table, chunkCodec.columns, some ("id", overwritten),
        chunkCodec.columns⟩ (chunkCodec.params c) with
      | .ok (db', row) => (Chunk.fromRow row, db')
      | .error e => (.error e, db) := rfl

/-- The answer of a save is the row that the insert returns. -/
theorem save_of_insert {c new : Chunk} {db' : Db Json}
    (hinsert : db.insert ⟨chunkCodec.table, chunkCodec.columns, some ("id", overwritten),
      chunkCodec.columns⟩ (chunkCodec.params c) = .ok (db', chunkCodec.answer new)) :
    save db c = (.ok new, db') := by
  rw [save_def, hinsert]
  show (Chunk.fromRow (chunkCodec.answer new), db') = _
  rw [Chunk.fromRow_answer]

theorem save_new (h : chunkCodec.Holds db es) {c : Chunk} (howned : c.Owned db)
    (htexts : c.TextsEncodable) (hnew : ∀ x ∈ es, x.id.uuid ≠ c.id.uuid) :
    ∃ db', save db c = (.ok c, db') ∧ chunkCodec.Holds db' (es ++ [c]) ∧
      chunkCodec.Frame db db' := by
  obtain ⟨db', hinsert, hholds, hframe⟩ := h.insert_new (chunkCodec_valid howned)
    (c.encodable_params.mpr htexts) hnew (some overwritten) (by decide) chunkCodec.columns
    fun _ hc => hc
  exact ⟨db', save_of_insert hinsert, hholds, hframe⟩

theorem overwritten_subset : ∀ col ∈ overwritten, col ∈ chunkCodec.columns := by decide

theorem encode_tenantId (c : Chunk) : chunkCodec.encode c "tenant_id" = .uuid c.tenantId.uuid := rfl

/-- Saving over a stored chunk keeps its tenant. -/
theorem save_stored (h : chunkCodec.Holds db es) {c old : Chunk} (howned : c.Owned db)
    (htexts : c.TextsEncodable) (hold : old ∈ es) (hid : old.id = c.id)
    (htenant : HasTenant db old.tenantId) :
    ∃ db', save db c = (.ok { c with tenantId := old.tenantId }, db') ∧
      chunkCodec.Holds db' (upsert chunkCodec.key { c with tenantId := old.tenantId } es) ∧
      chunkCodec.Frame db db' := by
  have hnew : ∀ col ∈ chunkCodec.columns,
      chunkCodec.encode { c with tenantId := old.tenantId } col =
        if col ∈ overwritten then chunkCodec.encode c col else chunkCodec.encode old col := by
    intro col hcol
    simp only [chunkCodec, List.mem_cons, List.not_mem_nil, or_false] at hcol
    rcases hcol with rfl | rfl | rfl | rfl | rfl | rfl | rfl | rfl
    · rw [if_neg (by decide), chunkCodec.encode_id, chunkCodec.encode_id]
      exact congrArg (fun id : ChunkId => Value.uuid id.uuid) hid.symm
    · rw [if_neg (by decide), encode_tenantId, encode_tenantId]
    all_goals
      rw [if_pos (by decide)]
      rfl
  obtain ⟨db', hinsert, hholds, hframe⟩ := h.insert_conflict (chunkCodec_valid howned)
    (c.encodable_params.mpr htexts) hold (congrArg ChunkId.uuid hid)
    overwritten_subset hnew (chunkCodec_valid ⟨htenant, howned.chunkSet⟩) rfl
  exact ⟨db', save_of_insert hinsert, hholds, hframe⟩

/-- Texts that cannot be sent fail a save. -/
theorem save_of_texts (h : chunkCodec.Holds db es) {c : Chunk} (htexts : ¬ c.TextsEncodable) :
    save db c = (.error .invalidText, db) := by
  have hinsert := h.insert_invalid (e := c)
    (Bool.not_eq_true _ ▸ mt c.encodable_params.mp htexts) (some overwritten) (by decide)
    chunkCodec.columns fun _ hc => hc
  have hinsert' : db.insert ⟨chunkCodec.table, chunkCodec.columns, some ("id", overwritten),
      chunkCodec.columns⟩ (chunkCodec.params c) = .error .invalidText := hinsert
  rw [save_def, hinsert']

end PgChunksRepo

/-! ### Call by call -/

/-- What is required of a call: both repositories answer alike, and a saved chunk is found
again in both. -/
def ChunksAgreeAt (call : ChunkCall) (m : MemChunksRepo) (db : Db Json) : Prop :=
  (PgChunksRepo.answer db call).1 = .ok (MemChunksRepo.answer m call).1 ∧
    ∀ c, call = .save c →
      MemChunksRepo.get (MemChunksRepo.answer m call).2 c.id = some c ∧
      PgChunksRepo.get (PgChunksRepo.answer db call).2 c.id = .ok (some c)

/-- What is assumed of a call: the owners of a chunk are stored. -/
def ChunkCall.Assumed (db : Db Json) : ChunkCall → MemChunksRepo → Prop
  | .save c, _ => c.Owned db
  | _, _ => True

/-- A save does not change the tenant of a stored chunk, and its texts can be sent to the
database. -/
def ChunkCall.KeepsTenant : ChunkCall → MemChunksRepo → Prop
  | .save c, m => c.TextsEncodable ∧ ∀ old ∈ MemChunksRepo.get m c.id, old.tenantId = c.tenantId
  | _, _ => True

/-- The table holds the chunks of the in-memory repository, whose index is exact. -/
structure ChunksSimulate (start : Db Json) (m : MemChunksRepo) (db : Db Json) : Prop where
  exact : m.Exact Chunk.chunkSetId
  holds : ∃ es, chunkCodec.Holds db es ∧ ∀ c, c ∈ es ↔ c ∈ m.byKey
  frame : chunkCodec.Frame start db
  owned : ∀ c ∈ m.byKey, c.Owned start

namespace ChunksSimulate

variable {start db : Db Json} {m : MemChunksRepo} {es : List Chunk}

theorem owned_db (h : ChunksSimulate start m db) {c : Chunk} (hc : c.Owned start) :
    c.Owned db where
  tenant := by
    rw [HasTenant, h.frame.rows "tenants" (by decide)]
    exact hc.tenant
  chunkSet := by
    rw [HasChunkSet, h.frame.rows "chunk_sets" (by decide)]
    exact hc.chunkSet

/-- The relation after a statement on the table of chunks. -/
theorem next (h : ChunksSimulate start m db) {m' : MemChunksRepo} {db' : Db Json}
    (hexact : m'.Exact Chunk.chunkSetId) (hholds : chunkCodec.Holds db' es)
    (hmem : ∀ c, c ∈ es ↔ c ∈ m'.byKey) (hframe : chunkCodec.Frame db db')
    (howned : ∀ c ∈ m'.byKey, c.Owned start) : ChunksSimulate start m' db' where
  exact := hexact
  holds := ⟨es, hholds, hmem⟩
  frame := ⟨hframe.schema.trans h.frame.schema,
    fun name hne => (hframe.rows name hne).trans (h.frame.rows name hne)⟩
  owned := howned

/-- The table and the in-memory repository find the same chunk. -/
theorem find?_eq_get (hholds : chunkCodec.Holds db es) (hmem : ∀ c, c ∈ es ↔ c ∈ m.byKey)
    (id : ChunkId) : (es.find? fun x => x.id.uuid = id.uuid) = m.byKey.get id := by
  apply Option.ext
  intro c
  rw [Table.get_eq_some, ← hmem, ChunkId.ext_iff]
  exact hholds.find?_eq_some

/-- They have the same chunks, up to their order. -/
theorem perm (hholds : chunkCodec.Holds db es) (hmem : ∀ c, c ∈ es ↔ c ∈ m.byKey) :
    es.Perm m.byKey.rows :=
  (List.perm_ext_iff_of_nodup hholds.nodup.of_map (m.byKey.nodup.of_map)).mpr hmem

theorem answer_get (h : ChunksSimulate start m db) (id : ChunkId) :
    ChunksAgreeAt (.get id) m db := by
  obtain ⟨es, hholds, hmem⟩ := h.holds
  refine ⟨?_, fun c hc => absurd hc (by simp)⟩
  show (PgChunksRepo.get db id).map ChunkAnswer.found = _
  rw [PgChunksRepo.get_eq hholds, find?_eq_get hholds hmem]
  rfl

/-- Two listings of the same chunks in the order of their ranks. -/
theorem answer_listBySet (h : ChunksSimulate start m db) (setId : ChunkSetId) :
    ChunksAgreeAt (.listBySet setId) m db := by
  obtain ⟨es, hholds, hmem⟩ := h.holds
  refine ⟨?_, fun c hc => absurd hc (by simp)⟩
  show (PgChunksRepo.listBySet db setId).map ChunkAnswer.listed = _
  rw [PgChunksRepo.listBySet_eq hholds]
  refine congrArg (fun cs => Except.ok (ChunkAnswer.listed cs)) ?_
  have hstored := List.perm_insertionSort (fun x y : Chunk => x.rank ≤ y.rank)
    (es.filter fun x => x.chunkSetId = setId)
  have hlisted := h.exact.list_perm Chunk.rank setId
  have hperm := hstored.trans (((perm hholds hmem).filter _).trans hlisted.symm)
  have hsorted : ((es.filter fun x => x.chunkSetId = setId).insertionSort fun x y =>
      x.rank ≤ y.rank).Pairwise fun x y => x.rank ≤ y.rank := List.pairwise_insertionSort _ _
  have hsorted' : (MemChunksRepo.listBySet m setId).Pairwise fun x y => x.rank ≤ y.rank :=
    (h.exact.list_sorted Chunk.id_of_rank setId).imp le_of_lt
  refine List.Perm.eq_of_pairwise (fun x y hx hy hxy hyx => ?_) hsorted hsorted' hperm
  -- chunks of one rank have one identifier
  have hx' : x ∈ m.byKey := (List.mem_filter.mp (hlisted.subset (hperm.subset hx))).1
  have hy' : y ∈ m.byKey := (List.mem_filter.mp (hlisted.subset hy)).1
  exact Table.eq_of_key hx' hy' (Chunk.id_of_rank x y (le_antisymm hxy hyx))

theorem answer_delete (h : ChunksSimulate start m db) (id : ChunkId) :
    ChunksAgreeAt (.delete id) m db ∧
      ChunksSimulate start (MemChunksRepo.delete m id).2 (PgChunksRepo.delete db id).2 := by
  obtain ⟨es, hholds, hmem⟩ := h.holds
  obtain ⟨db', hdelete, hholds', hframe⟩ := PgChunksRepo.delete_eq hholds id
  obtain ⟨hfst, hrest⟩ := ChildTable.delete_eq Chunk.chunkSetId m id
  rw [find?_eq_get hholds hmem] at hdelete
  refine ⟨⟨?_, fun c hc => absurd hc (by simp)⟩, ?_⟩
  · show (PgChunksRepo.delete db id).1.map ChunkAnswer.done = _
    rw [hdelete, ← hfst]
    rfl
  · rw [hdelete]
    refine h.next (h.exact.delete id) hholds' (fun c => ?_) hframe fun c hc =>
      h.owned c ((hrest c).mp hc).1
    rw [List.mem_filter, hmem]
    refine Iff.trans ?_ (hrest c).symm
    rw [Bool.not_eq_true', decide_eq_false_iff_not, Ne, ChunkId.ext_iff]

theorem answer_deleteBySet (h : ChunksSimulate start m db) (setId : ChunkSetId) :
    ChunksAgreeAt (.deleteBySet setId) m db ∧
      ChunksSimulate start (MemChunksRepo.deleteBySet m setId).2
        (PgChunksRepo.deleteBySet db setId).2 := by
  obtain ⟨es, hholds, hmem⟩ := h.holds
  obtain ⟨db', hdelete, hholds', hframe⟩ := PgChunksRepo.deleteBySet_eq hholds setId
  obtain ⟨hcount, hrest⟩ := h.exact.deleteByParent_spec setId
  rw [((perm hholds hmem).filter _).length_eq, ← hcount] at hdelete
  refine ⟨⟨?_, fun c hc => absurd hc (by simp)⟩, ?_⟩
  · show (PgChunksRepo.deleteBySet db setId).1.map ChunkAnswer.removed = _
    rw [hdelete]
    rfl
  · rw [hdelete]
    refine h.next (h.exact.deleteByParent setId) hholds' (fun c => ?_) hframe fun c hc =>
      h.owned c ((hrest c).mp hc).1
    rw [List.mem_filter, hmem]
    refine Iff.trans ?_ (hrest c).symm
    rw [Bool.not_eq_true', decide_eq_false_iff_not]

/-- What a save leaves in the table: the chunk, with the tenant of the one it replaces. -/
def written (m : MemChunksRepo) (c : Chunk) : Chunk :=
  (m.byKey.get c.id).elim c fun old => { c with tenantId := old.tenantId }

theorem save_eq (h : ChunksSimulate start m db) {c : Chunk} (howned : c.Owned start)
    (htexts : c.TextsEncodable) :
    ∃ db' es', PgChunksRepo.save db c = (.ok (written m c), db') ∧
      chunkCodec.Holds db' es' ∧ chunkCodec.Frame db db' ∧
      ∀ x, x ∈ es' ↔ x = written m c ∨ x ∈ m.byKey ∧ x.id ≠ c.id := by
  obtain ⟨es, hholds, hmem⟩ := h.holds
  unfold written
  cases hget : m.byKey.get c.id with
  | none =>
    have hnew : ∀ x ∈ es, x.id.uuid ≠ c.id.uuid := fun x hx hid =>
      Table.get_eq_none.mp hget ⟨x, (hmem x).mp hx, ChunkId.ext hid⟩
    obtain ⟨db', hsave, hholds', hframe⟩ :=
      PgChunksRepo.save_new hholds (h.owned_db howned) htexts hnew
    refine ⟨db', _, hsave, hholds', hframe, fun x => ?_⟩
    rw [List.mem_append, List.mem_singleton, hmem]
    constructor
    · rintro (hx | rfl)
      · exact .inr ⟨hx, fun hid => Table.get_eq_none.mp hget ⟨x, hx, hid⟩⟩
      · exact .inl rfl
    · rintro (rfl | ⟨hx, -⟩)
      · exact .inr rfl
      · exact .inl hx
  | some old =>
    obtain ⟨hold, hid⟩ := Table.get_eq_some.mp hget
    obtain ⟨db', hsave, hholds', hframe⟩ := PgChunksRepo.save_stored hholds (h.owned_db howned)
      htexts ((hmem old).mpr hold) hid (h.owned_db (h.owned old hold)).tenant
    refine ⟨db', _, hsave, hholds', hframe, fun x => ?_⟩
    rw [mem_upsert _ _ _ _ hholds.nodup, hmem]
    refine or_congr Iff.rfl (and_congr Iff.rfl (not_congr ?_))
    exact ChunkId.ext_iff.symm

theorem answer_save (h : ChunksSimulate start m db) {c : Chunk} (howned : c.Owned start)
    (hkeeps : ChunkCall.KeepsTenant (.save c) m) :
    ChunksAgreeAt (.save c) m db ∧
      ChunksSimulate start (MemChunksRepo.save m c) (PgChunksRepo.save db c).2 := by
  obtain ⟨db', es', hsave, hholds, hframe, hmem⟩ := h.save_eq howned hkeeps.1
  have hstored : written m c = c := by
    unfold written
    cases hget : m.byKey.get c.id with
    | none => rfl
    | some old =>
      have htenant : old.tenantId = c.tenantId := hkeeps.2 old hget
      simp only [Option.elim, htenant]
  rw [hstored] at hsave hmem
  have hbyKey : (MemChunksRepo.save m c).byKey = m.byKey.save c :=
    ChildTable.byKey_save Chunk.chunkSetId m c
  have hmem' : ∀ x, x ∈ es' ↔ x ∈ (MemChunksRepo.save m c).byKey := by
    intro x
    rw [hmem, hbyKey, Table.mem_save]
  have hnext : ChunksSimulate start (MemChunksRepo.save m c) (PgChunksRepo.save db c).2 := by
    rw [hsave]
    refine h.next (h.exact.save c) hholds hmem' hframe fun x hx => ?_
    rw [hbyKey, Table.mem_save] at hx
    rcases hx with rfl | ⟨hx, -⟩
    · exact howned
    · exact h.owned x hx
  have hget : (MemChunksRepo.save m c).byKey.get c.id = some c := by
    rw [hbyKey]
    exact Table.get_of_mem (Table.mem_save_self m.byKey c)
  refine ⟨⟨?_, ?_⟩, hnext⟩
  · show (PgChunksRepo.save db c).1.map ChunkAnswer.saved = _
    rw [hsave]
    rfl
  · rintro x ⟨⟩
    refine ⟨hget, ?_⟩
    show PgChunksRepo.get (PgChunksRepo.save db c).2 c.id = _
    rw [hsave, PgChunksRepo.get_eq hholds, find?_eq_get hholds hmem', hget]

/-- A save that changes the tenant of a stored chunk, or with a text that cannot be sent,
is not answered as required. -/
theorem not_agreeAt_save (h : ChunksSimulate start m db) {c : Chunk} (howned : c.Owned start)
    (hbad : ¬ ChunkCall.KeepsTenant (.save c) m) : ¬ ChunksAgreeAt (.save c) m db := by
  rintro ⟨hanswer, -⟩
  have hsaved : (PgChunksRepo.save db c).1.map ChunkAnswer.saved = .ok (.saved c) := hanswer
  by_cases htexts : c.TextsEncodable
  · obtain ⟨db', es', hsave, -⟩ := h.save_eq howned htexts
    rw [hsave] at hsaved
    have hstored := ChunkAnswer.saved.inj (Except.ok.inj hsaved)
    apply hbad
    refine ⟨htexts, fun old hold => ?_⟩
    have hget : m.byKey.get c.id = some old := hold
    rw [written, hget] at hstored
    have htenant := congrArg Chunk.tenantId hstored
    exact htenant
  · obtain ⟨es, hholds, -⟩ := h.holds
    rw [PgChunksRepo.save_of_texts hholds htexts] at hsaved
    exact absurd hsaved (by simp [Except.map])

/-- Before the first call. -/
theorem initial (hs : start.schema = migrated) (he : start.rows "chunks" = []) :
    ChunksSimulate start MemChunksRepo.new start where
  exact := .empty
  holds := by
    refine ⟨[], ⟨?_, ?_, List.nodup_nil⟩, fun c => Iff.rfl⟩
    · rw [hs]
      exact migrated_chunks
    · show List.Forall₂ _ (start.rows "chunks") []
      rw [he]
      exact .nil
  frame := ⟨rfl, fun _ _ => rfl⟩
  owned := fun _ hc => absurd hc List.not_mem_nil

/-- A good call is answered as required and keeps the relation. -/
theorem answer_good (h : ChunksSimulate start m db) (call : ChunkCall)
    (hassumed : call.Assumed start m) (hgood : call.KeepsTenant m) :
    ChunksAgreeAt call m db ∧
      ChunksSimulate start (MemChunksRepo.answer m call).2 (PgChunksRepo.answer db call).2 := by
  cases call with
  | get id => exact ⟨h.answer_get id, h⟩
  | save c => exact h.answer_save hassumed hgood
  | delete id => exact h.answer_delete id
  | listBySet setId => exact ⟨h.answer_listBySet setId, h⟩
  | deleteBySet setId => exact h.answer_deleteBySet setId

/-- A bad call is a save. -/
theorem answer_bad (h : ChunksSimulate start m db) (call : ChunkCall)
    (hassumed : call.Assumed start m) (hbad : ¬ call.KeepsTenant m) :
    ¬ ChunksAgreeAt call m db := by
  cases call with
  | save c => exact h.not_agreeAt_save hassumed hbad
  | get id => exact absurd trivial hbad
  | delete id => exact absurd trivial hbad
  | listBySet setId => exact absurd trivial hbad
  | deleteBySet setId => exact absurd trivial hbad

end ChunksSimulate

/-! ### Every sequence of calls -/

/-- The repositories over the same calls: every call is answered alike, and a saved chunk
is found again. -/
def ChunksAgree (calls : List ChunkCall) (db : Db Json) : Prop :=
  AgreeFrom (fun m c => (MemChunksRepo.answer m c).2) (fun db c => (PgChunksRepo.answer db c).2)
    ChunksAgreeAt calls MemChunksRepo.new db

/-- A condition on the calls, each with the in-memory repository before it. -/
def AlongChunks (p : ChunkCall → MemChunksRepo → Prop) (calls : List ChunkCall) : Prop :=
  Along (fun m c => (MemChunksRepo.answer m c).2) p calls MemChunksRepo.new

/-- From a migrated database without chunks, the repositories agree exactly as long as no
save changes the tenant of a stored chunk, and every text can be sent to the database. -/
theorem chunks_agree_iff (db : Db Json) (hschema : db.schema = migrated)
    (hempty : db.rows "chunks" = []) (calls : List ChunkCall)
    (hassumed : AlongChunks (fun c m => c.Assumed db m) calls) :
    ChunksAgree calls db ↔ AlongChunks ChunkCall.KeepsTenant calls :=
  agreeFrom_iff (R := ChunksSimulate db) (fun c _ _ h ha hg => h.answer_good c ha hg)
    (fun c _ _ h ha hb => h.answer_bad c ha hb) calls (ChunksSimulate.initial hschema hempty)
    hassumed

/-- A migrated database with two tenants and two chunk sets. -/
def twoTenants : Db Json where
  schema := migrated
  rows name :=
    if name = "tenants" ∨ name = "chunk_sets" then
      [fun c => if c = "id" then .uuid 1 else .null, fun c => if c = "id" then .uuid 2 else .null]
    else []
  clock := 0

/-- A chunk with an identifier, a tenant and a set, at a place in the set. -/
def chunkAt (id : ℕ) (tenant : ℕ) (set : ℕ) (orderNo : Int32) : Chunk :=
  ⟨⟨id⟩, ⟨set⟩, ⟨tenant⟩, orderNo, 0, 8, "a passage", none⟩

theorem owned_chunkAt (id : ℕ) (orderNo : Int32) {tenant set : ℕ} (ht : tenant = 1 ∨ tenant = 2)
    (hs : set = 1 ∨ set = 2) : (chunkAt id tenant set orderNo).Owned twoTenants where
  tenant := by
    rcases ht with rfl | rfl
    · exact ⟨_, List.mem_cons_self, rfl⟩
    · exact ⟨_, List.mem_cons_of_mem _ List.mem_cons_self, rfl⟩
  chunkSet := by
    rcases hs with rfl | rfl
    · exact ⟨_, List.mem_cons_self, rfl⟩
    · exact ⟨_, List.mem_cons_of_mem _ List.mem_cons_self, rfl⟩

/-- Two chunks are saved and listed, one moves to the other set, and both are deleted. -/
def moved : List ChunkCall :=
  [.save (chunkAt 5 1 1 2), .save (chunkAt 6 2 1 1), .listBySet ⟨1⟩, .save (chunkAt 5 1 2 0),
    .get ⟨5⟩, .deleteBySet ⟨1⟩, .delete ⟨5⟩]

theorem chunks_agree_iff_moved : ChunksAgree moved twoTenants :=
  (chunks_agree_iff twoTenants rfl rfl moved
    ⟨owned_chunkAt 5 2 (.inl rfl) (.inl rfl), owned_chunkAt 6 1 (.inr rfl) (.inl rfl), trivial,
      owned_chunkAt 5 0 (.inl rfl) (.inr rfl), trivial, trivial, trivial, trivial⟩).mpr
    ⟨⟨by decide, by decide⟩, ⟨by decide, by decide⟩, trivial, ⟨by decide, by decide⟩, trivial,
      trivial, trivial, trivial⟩

/-- A stored chunk that is saved with another tenant. -/
def retenanted : List ChunkCall := [.save (chunkAt 5 1 1 0), .save (chunkAt 5 2 1 0)]

/-- Postgres answers the second save with the first tenant. -/
theorem not_chunksAgree_retenanted :
    AlongChunks (fun c m => c.Assumed twoTenants m) retenanted ∧
      ¬ ChunksAgree retenanted twoTenants := by
  have hfirst := owned_chunkAt 5 0 (.inl rfl) (.inl rfl)
  have hsecond := owned_chunkAt 5 0 (.inr rfl) (.inl rfl)
  refine ⟨⟨hfirst, hsecond, trivial⟩, fun hagree => ?_⟩
  have hnext := ((ChunksSimulate.initial rfl rfl).answer_save hfirst
    ⟨by decide, by decide⟩).2
  exact hnext.not_agreeAt_save hsecond (fun hkeeps => absurd hkeeps.2 (by decide)) hagree.2.1

end Contexide.StoragePg
