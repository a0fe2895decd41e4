import Contexide.Sql.Query
import Contexide.Storage.Agreement
import Contexide.Storage.RowStore
import Mathlib.Algebra.Group.Nat.Defs

/-! Repositories of rows over a database: each call is one statement on a table that keeps
one entity in each row. While parameters can be sent, created identifiers are new and
limits are not negative, every statement does what the call is for; otherwise it fails. -/

namespace Contexide.Sql

open Storage

namespace Codec

variable {J E : Type} {C : Codec J E} {db : Db J} {es : List E} {e : E}

/-- `insert into ..` without a conflict clause, of an entity whose identifier is taken. -/
theorem Holds.insert_collides (h : C.Holds db es) (hv : C.Valid db e)
    (henc : (C.params e).all Value.encodable = true) {old : E} (hold : old ∈ es)
    (hk : C.key old = C.key e) :
    db.insert ⟨C.table, C.columns, none, ["id"]⟩ (C.params e) =
      .error (.uniqueViolation ["id"]) := by
  have hs : C.Stores (Row.proposed C.tableDef C.columns (C.params e) db.clock) e :=
    stores_proposed e db.clock
  obtain ⟨r, hr, hrold⟩ : ∃ r ∈ db.rows C.table, C.Stores r old :=
    exists_of_mem_left (R := flip C.Stores) h.rows.flip hold
  have hcols : C.tableDef.requireColumns (C.columns ++
      ((none : Option (String × List String)).elim [] fun c => c.1 :: c.2) ++ ["id"]) = .ok () := by
    apply requireColumns_eq
    simp only [Option.elim, List.append_nil, List.mem_append, List.mem_singleton]
    rintro n (hn | rfl)
    · exact hn
    · exact C.id_mem
  have hunique : Db.uniqueViolations C.tableDef (db.rows C.table ++
      [Row.proposed C.tableDef C.columns (C.params e) db.clock]) = [.uniqueViolation ["id"]] := by
    rw [Db.uniqueViolations, C.unique_eq, List.filterMap_cons, if_neg, List.filterMap_nil]
    intro hpair
    have hne := (List.pairwise_append.mp hpair).2.2 r hr _ (List.mem_singleton_self _)
    simp [Db.collide, hrold.id, hs.id, hk] at hne
  have hcells : (C.tableDef.columns.flatMap fun c => Db.cellViolations c
      (Row.proposed C.tableDef C.columns (C.params e) db.clock c.name)) = [] :=
    List.flatMap_eq_nil_iff.mpr fun c hc => (hs.violations hv c hc).1
  have hrefs : (C.tableDef.columns.flatMap fun c => db.referenceViolations c
      (Row.proposed C.tableDef C.columns (C.params e) db.clock c.name)) = [] :=
    List.flatMap_eq_nil_iff.mpr fun c hc => (hs.violations hv c hc).2
  rw [Db.insert_plain_eq h.schema hcols (Db.requireEncodable_of_all henc) rfl rfl, Db.store,
    hunique]
  simp only [List.nil_append, List.flatMap_singleton, hcells, hrefs]
  rfl

end Codec

/-- How a repository keeps its rows in a table. A save overwrites every column but the
identifier; an alteration assigns one column; a query is a list of conditions on columns,
and the answer is ordered by the identifier. -/
structure CodecStore (J : Type) {K V : Type} (key : V → K) (A Q : Type) where
  store : RowStore key A Q
  codec : Codec J V
  codec_key : ∀ v, codec.key v = store.number (key v)
  decode : ResultRow J → Except SqlError V
  decode_answer : ∀ v, decode (codec.answer v) = .ok v
  ofNumber : ℕ → K
  ofNumber_number : ∀ k, ofNumber (store.number k) = k
  overwritten : List String
  overwritten_subset : ∀ c ∈ overwritten, c ∈ codec.columns
  eq_id_of_not_overwritten : ∀ c ∈ codec.columns, c ∉ overwritten → c = "id"
  assigned : A → String × Value J
  assigned_mem : ∀ a, (assigned a).1 ∈ codec.columns
  assigned_encodable : ∀ a, (assigned a).2.encodable = true
  encode_alter : ∀ a v, ∀ c ∈ codec.columns, codec.encode (store.alter a v) c =
    if c = (assigned a).1 then (assigned a).2 else codec.encode v c
  assigned_valid : ∀ db a, ∀ c ∈ codec.tableDef.columns, c.name = (assigned a).1 →
    Db.cellViolations c (assigned a).2 = [] ∧ Db.referenceViolations db c (assigned a).2 = []
  conditions : Q → List (String × Value J)
  conditions_mem : ∀ q, ∀ c ∈ conditions q, c.1 ∈ codec.columns
  conditions_encodable : ∀ q, ((conditions q).map Prod.snd).all Value.encodable = true
  selects_eq : ∀ q v, store.selects q v =
    (conditions q).all fun c => (codec.encode v c.1).sqlEq c.2

namespace CodecStore

variable {J K V A Q : Type} {key : V → K} (S : CodecStore J key A Q) (db : Db J)

/-! ### The statements -/

def get (k : K) : Except SqlError (Option V) := do
  let rows ← db.select ⟨S.codec.table, S.codec.columns, "id", []⟩ [.uuid (S.store.number k)]
  fetchOptional S.decode rows

def save (v : V) : Except SqlError V × Db J :=
  db.settle S.decode (db.insert
    ⟨S.codec.table, S.codec.columns, some ("id", S.overwritten), S.codec.columns⟩
    (S.codec.params v))

def create (v : V) : Except SqlError K × Db J :=
  db.settle (fun row => (row.tryGet "id" Value.asUuid).map S.ofNumber)
    (db.insert ⟨S.codec.table, S.codec.columns, none, ["id"]⟩ (S.codec.params v))

def delete (k : K) : Except SqlError Bool × Db J :=
  db.settle (fun affected => .ok (affected == 1))
    (db.delete ⟨S.codec.table, "id"⟩ [.uuid (S.store.number k)])

def alter (k : K) (a : A) : Except SqlError Bool × Db J :=
  db.settle (fun affected => .ok (affected == 1))
    (db.update ⟨S.codec.table, [((S.assigned a).1, 2)], "id"⟩
      [.uuid (S.store.number k), (S.assigned a).2])

/-- The parameters of a query: those of the conditions, then the limit. -/
def queryParams (q : Q) : List (Value J) :=
  (S.conditions q).map Prod.snd ++ match S.store.limit q with
    | some n => [.int (asI64 n)]
    | none => []

def list (q : Q) : Except QueryError (List V) := do
  let rows ← db.query ⟨S.codec.table, S.codec.columns, (S.conditions q).map Prod.fst, ["id"],
    (S.store.limit q).isSome⟩ (S.queryParams q)
  (fetchAll S.decode rows).mapError .sql

/-- The answer of a call and the database after it. -/
def answer : StoreCall K V A Q → Except QueryError (StoreAnswer K V) × Db J
  | .get k => (((S.get db k).map .found).mapError .sql, db)
  | .save v => (((S.save db v).1.map .saved).mapError .sql, (S.save db v).2)
  | .create v => (((S.create db v).1.map .created).mapError .sql, (S.create db v).2)
  | .delete k => (((S.delete db k).1.map .done).mapError .sql, (S.delete db k).2)
  | .alter k a => (((S.alter db k a).1.map .done).mapError .sql, (S.alter db k a).2)
  | .list q => ((S.list db q).map .listed, db)

/-! ### The rows that a table keeps -/

variable {S db} {t : Table key}

/-- An alteration leaves a row valid. -/
theorem valid_alter (S : CodecStore J key A Q) (a : A) {v : V} (h : S.codec.Valid db v) :
    S.codec.Valid db (S.store.alter a v) := by
  intro c hc hm
  rw [S.encode_alter a v c.name hm]
  split
  · next hname => exact S.assigned_valid db a c hc hname
  · exact h c hc hm

/-- The table keeps the rows, which are valid in it. -/
structure Keeps (S : CodecStore J key A Q) (db : Db J) (t : Table key) : Prop where
  holds : ∃ es, S.codec.Holds db es ∧ ∀ v, v ∈ es ↔ v ∈ t
  valid : ∀ v ∈ t, S.codec.Valid db v

theorem key_eq_iff (S : CodecStore J key A Q) (v : V) (k : K) :
    S.codec.key v = S.store.number k ↔ key v = k := by
  rw [S.codec_key]
  exact S.store.number_inj.eq_iff

section

variable [DecidableEq K]

theorem find?_eq_get {es : List V} (hholds : S.codec.Holds db es) (hmem : ∀ v, v ∈ es ↔ v ∈ t)
    (k : K) : (es.find? fun x => S.codec.key x = S.store.number k) = t.get k := by
  apply Option.ext
  intro v
  rw [Table.get_eq_some, ← hmem, ← S.key_eq_iff]
  exact hholds.find?_eq_some

omit [DecidableEq K] in
theorem Keeps.next {db' : Db J} {es : List V} {t' : Table key} (h : Keeps S db t)
    (hframe : S.codec.Frame db db') (hholds : S.codec.Holds db' es)
    (hmem : ∀ v, v ∈ es ↔ v ∈ t') (hvalid : ∀ v ∈ t', v ∈ t ∨ S.codec.Valid db v) :
    Keeps S db' t' where
  holds := ⟨es, hholds, hmem⟩
  valid v hv := hframe.valid ((hvalid v hv).elim (h.valid v) id)

theorem get_eq (h : Keeps S db t) (k : K) : S.get db k = .ok (t.get k) := by
  obtain ⟨es, hholds, hmem⟩ := h.holds
  rw [get, hholds.select_id, find?_eq_get hholds hmem]
  exact S.codec.fetchOptional_answer S.decode_answer (t.get k)

/-- A save stores the row, whether its key is new or taken. -/
theorem save_eq (h : Keeps S db t) {v : V} (hv : S.codec.Valid db v)
    (henc : (S.codec.params v).all Value.encodable = true) :
    ∃ db', S.save db v = (.ok v, db') ∧ Keeps S db' (t.save v) ∧ S.codec.Frame db db' := by
  obtain ⟨es, hholds, hmem⟩ := h.holds
  have hvalid : ∀ u ∈ t.save v, u ∈ t ∨ S.codec.Valid db u := by
    intro u hu
    rcases Table.mem_save.mp hu with rfl | ⟨hu, -⟩
    · exact .inr hv
    · exact .inl hu
  by_cases hnew : ∀ x ∈ es, S.codec.key x ≠ S.codec.key v
  · obtain ⟨db', hinsert, hholds', hframe⟩ := hholds.insert_new hv henc hnew (some S.overwritten)
      S.overwritten_subset S.codec.columns fun _ hc => hc
    have hinsert' : db.insert ⟨S.codec.table, S.codec.columns, some ("id", S.overwritten),
        S.codec.columns⟩ (S.codec.params v) = .ok (db', S.codec.answer v) := hinsert
    refine ⟨db', ?_, h.next hframe hholds' (fun u => ?_) hvalid, hframe⟩
    · rw [save, hinsert']
      exact congrArg (·, db') (S.decode_answer v)
    · rw [List.mem_append, List.mem_singleton, Table.mem_save, hmem]
      have hne : u ∈ t → key u ≠ key v := fun hu hk =>
        hnew u ((hmem u).mpr hu) (by rw [S.codec_key, S.codec_key, hk])
      tauto
  · push Not at hnew
    obtain ⟨old, hold, hk⟩ := hnew
    have hcols : ∀ c ∈ S.codec.columns, S.codec.encode v c =
        if c ∈ S.overwritten then S.codec.encode v c else S.codec.encode old c := by
      intro c hc
      split
      · rfl
      · next hout =>
        rw [S.eq_id_of_not_overwritten c hc hout, S.codec.encode_id, S.codec.encode_id, hk]
    obtain ⟨db', hinsert, hholds', hframe⟩ := hholds.insert_conflict hv henc hold hk
      S.overwritten_subset hcols hv rfl
    refine ⟨db', ?_, h.next hframe hholds' (fun u => ?_) hvalid, hframe⟩
    · rw [save, hinsert]
      exact congrArg (·, db') (S.decode_answer v)
    · rw [mem_upsert _ _ _ _ hholds.nodup, Table.mem_save, hmem, Ne, S.codec_key v, S.key_eq_iff]

theorem create_eq (h : Keeps S db t) {v : V} (hv : S.codec.Valid db v)
    (henc : (S.codec.params v).all Value.encodable = true) (hnew : ¬ t.Has (key v)) :
    ∃ db', S.create db v = (.ok (key v), db') ∧ Keeps S db' (t.save v) ∧
      S.codec.Frame db db' := by
  obtain ⟨es, hholds, hmem⟩ := h.holds
  have hfresh : ∀ x ∈ es, S.codec.key x ≠ S.codec.key v := fun x hx hk =>
    hnew ⟨x, (hmem x).mp hx, (S.key_eq_iff x _).mp (hk.trans (S.codec_key v))⟩
  obtain ⟨db', hinsert, hholds', hframe⟩ := hholds.insert_new hv henc hfresh none (by simp) ["id"]
    fun _ hc => List.mem_singleton.mp hc ▸ S.codec.id_mem
  have hinsert' : db.insert ⟨S.codec.table, S.codec.columns, none, ["id"]⟩ (S.codec.params v) =
      .ok (db', [("id", S.codec.encode v "id")]) := hinsert
  refine ⟨db', ?_, h.next hframe hholds' (fun u => ?_) fun u hu => ?_, hframe⟩
  · rw [create, hinsert', S.codec.encode_id, S.codec_key]
    exact congrArg (fun k => (Except.ok k, db')) (S.ofNumber_number (key v))
  · rw [List.mem_append, List.mem_singleton, Table.mem_save, hmem]
    have hne : u ∈ t → key u ≠ key v := fun hu hk => hnew ⟨u, hu, hk⟩
    tauto
  · rcases Table.mem_save.mp hu with rfl | ⟨hu, -⟩
    · exact .inr hv
    · exact .inl hu

theorem delete_eq (h : Keeps S db t) (k : K) :
    ∃ db', S.delete db k = (.ok (t.get k).isSome, db') ∧ Keeps S db' (t.remove k) ∧
      S.codec.Frame db db' := by
  obtain ⟨es, hholds, hmem⟩ := h.holds
  obtain ⟨db', hdelete, hholds', hframe⟩ := hholds.delete S.codec.id_mem
    (.uuid (S.store.number k)) rfl fun x => Codec.sqlEq_id x (S.store.number k)
  refine ⟨db', ?_, h.next hframe hholds' (fun u => ?_) fun u hu => .inl (Table.mem_remove.mp hu).1,
    hframe⟩
  · rw [delete, hdelete, ← find?_eq_get hholds hmem]
    exact congrArg (fun b => (Except.ok b, db')) (hholds.affected (S.store.number k))
  · rw [List.mem_filter, Bool.not_eq_true', decide_eq_false_iff_not, S.key_eq_iff, hmem,
      Table.mem_remove]

/-- The row of a key altered, if there is one. -/
theorem alter_eq (h : Keeps S db t) (k : K) (a : A) :
    ∃ db', S.alter db k a = (.ok (t.get k).isSome, db') ∧
      Keeps S db' (S.store.answer t (.alter k a : StoreCall K V A Q)).2 ∧
      S.codec.Frame db db' := by
  obtain ⟨es, hholds, hmem⟩ := h.holds
  have halter : ∀ x ∈ es, S.codec.key x = S.store.number k →
      (∀ c ∈ S.codec.columns, S.codec.encode (S.store.alter a x) c =
        match [((S.assigned a).1, 2)].lookup c with
        | some n =>
          ([.uuid (S.store.number k), (S.assigned a).2] : List (Value J)).getD (n - 1) .null
        | none => S.codec.encode x c) ∧
      S.codec.key (S.store.alter a x) = S.store.number k ∧
        S.codec.Valid db (S.store.alter a x) := by
    intro x hx hk
    refine ⟨fun c hc => ?_, ?_, S.valid_alter a (h.valid x ((hmem x).mp hx))⟩
    · rw [S.encode_alter a x c hc, List.lookup_cons, List.lookup_nil]
      by_cases hcol : c = (S.assigned a).1
      · simp [hcol]
      · have hne : (c == (S.assigned a).1) = false := beq_false_of_ne hcol
        simp [hne, hcol]
    · rw [S.key_eq_iff, S.store.key_alter]
      exact (S.key_eq_iff x k).mp hk
  obtain ⟨db', hupdate, hholds', hframe⟩ := hholds.update (S.store.number k)
    [((S.assigned a).1, 2)] (by simpa using S.assigned_mem a) [(S.assigned a).2]
    (by simpa [Value.encodable] using S.assigned_encodable a) halter
  refine ⟨db', ?_, ?_, hframe⟩
  · rw [alter, hupdate, ← find?_eq_get hholds hmem]
    exact congrArg (fun b => (Except.ok b, db')) (hholds.affected (S.store.number k))
  · simp only [RowStore.answer]
    cases hget : t.get k with
    | none =>
      have hsame : (es.map fun x => if S.codec.key x = S.store.number k then S.store.alter a x
          else x) = es := by
        refine (List.map_congr_left fun x hx => if_neg fun hk => ?_).trans (List.map_id es)
        exact Table.get_eq_none.mp hget ⟨x, (hmem x).mp hx, (S.key_eq_iff x k).mp hk⟩
      rw [hsame] at hholds'
      exact h.next hframe hholds' hmem fun u hu => .inl hu
    | some v =>
      obtain ⟨hv, rfl⟩ := Table.get_eq_some.mp hget
      refine h.next hframe hholds' (fun u => ?_) fun u hu => ?_
      · simp only [List.mem_map, S.key_eq_iff]
        rw [Table.mem_save, S.store.key_alter]
        constructor
        · rintro ⟨x, hx, rfl⟩
          rw [hmem] at hx
          by_cases hk : key x = key v
          · rw [if_pos hk, Table.eq_of_key hx hv hk]
            exact .inl rfl
          · rw [if_neg hk]
            exact .inr ⟨hx, hk⟩
        · rintro (rfl | ⟨hu, hk⟩)
          · exact ⟨v, (hmem v).mpr hv, if_pos rfl⟩
          · exact ⟨u, (hmem u).mpr hu, if_neg hk⟩
      · rcases Table.mem_save.mp hu with rfl | ⟨hu, -⟩
        · exact .inr (S.valid_alter a (h.valid v hv))
        · exact .inl hu

omit [DecidableEq K] in
/-- Rows are ordered as the numbers of their keys are. -/
theorem precedes_id (S : CodecStore J key A Q) (u v : V) :
    Row.precedes ["id"] (S.codec.encode u) (S.codec.encode v) = true ↔
      S.store.number (key u) ≤ S.store.number (key v) := by
  rw [Row.precedes, Row.precedes, S.codec.encode_id, S.codec.encode_id, S.codec_key, S.codec_key]
  simp only [Value.sqlLt, Bool.and_true, Bool.or_eq_true, Bool.not_eq_true', decide_eq_true_eq,
    decide_eq_false_iff_not]
  omega

omit [DecidableEq K] in
theorem encodable_queryParams (S : CodecStore J key A Q) (q : Q) :
    (S.queryParams q).all Value.encodable = true := by
  rw [queryParams, List.all_append, S.conditions_encodable, Bool.true_and]
  cases S.store.limit q <;> rfl

omit [DecidableEq K] in
/-- The rows of a listing before the limit, as the query finds them. -/
theorem query_eq {es : List V} (hholds : S.codec.Holds db es) (hmem : ∀ v, v ∈ es ↔ v ∈ t)
    (q : Q) : ∃ vs : List V, vs.Perm (t.rows.filter (S.store.selects q)) ∧
      (vs.Pairwise fun a b => S.store.number (key a) < S.store.number (key b)) ∧
      db.query ⟨S.codec.table, S.codec.columns, (S.conditions q).map Prod.fst, ["id"],
          (S.store.limit q).isSome⟩ (S.queryParams q) =
        if (S.store.limit q).isSome then limitRows (vs.map S.codec.answer)
          ((S.store.limit q).elim .null fun n => .int (asI64 n))
        else .ok (vs.map S.codec.answer) := by
  have hperm : es.Perm t.rows :=
    (List.perm_ext_iff_of_nodup hholds.nodup.of_map t.nodup.of_map).mpr hmem
  have hfilter : (es.filter (S.store.selects q)).Perm (t.rows.filter (S.store.selects q)) :=
    hperm.filter _
  refine ⟨(es.filter (S.store.selects q)).insertionSort fun a b =>
    S.store.number (key a) ≤ S.store.number (key b), ?_, ?_, ?_⟩
  · exact (List.perm_insertionSort _ _).trans hfilter
  · exact pairwise_lt_insertionSort (fun _ _ h => S.store.number_of_key h) hfilter
  · have hquery := hholds.query (S.conditions_mem q) ["id"]
      (fun c hc => List.mem_singleton.mp hc ▸ S.codec.id_mem) (S.store.limit q).isSome
      _ (S.encodable_queryParams q)
    have hselects : (fun x => (S.conditions q).all fun c =>
        (S.codec.encode x c.1).sqlEq c.2) = S.store.selects q :=
      funext fun x => (S.selects_eq q x).symm
    simp only [S.precedes_id, hselects] at hquery
    rw [queryParams, hquery]
    cases S.store.limit q <;> rfl

omit [DecidableEq K] in
/-- With a limit that fits, a listing is that of the table. -/
theorem list_eq (h : Keeps S db t) {q : Q} (hlimit : ∀ n ∈ S.store.limit q, n < 2 ^ 63) :
    S.list db q = .ok (S.store.listing t.rows q) := by
  obtain ⟨es, hholds, hmem⟩ := h.holds
  obtain ⟨vs, hperm, hsorted, hquery⟩ := S.query_eq hholds hmem q
  rw [list, hquery, S.store.listing_eq hperm hsorted]
  cases hq : S.store.limit q with
  | none =>
    exact congrArg (Except.mapError QueryError.sql) (Codec.fetchAll_answer S.decode_answer vs)
  | some n =>
    have hn : asI64 n = n := asI64_of_lt (hlimit n hq)
    simp only [Option.isSome_some, if_true, Option.elim, hn, limitRows]
    rw [if_neg (by omega), Int.toNat_natCast, ← List.map_take]
    exact congrArg (Except.mapError QueryError.sql)
      (Codec.fetchAll_answer S.decode_answer (vs.take n))

omit [DecidableEq K] in
/-- A limit that wraps around to a negative number fails. -/
theorem list_of_limit (h : Keeps S db t) {q : Q} {n : ℕ} (hq : S.store.limit q = some n)
    (hlow : 2 ^ 63 ≤ n) (hhigh : n < 2 ^ 64) : S.list db q = .error .negativeLimit := by
  obtain ⟨es, hholds, hmem⟩ := h.holds
  obtain ⟨vs, -, -, hquery⟩ := S.query_eq hholds hmem q
  rw [list, hquery, hq]
  simp only [Option.isSome_some, if_true, Option.elim, limitRows, asI64_neg hlow hhigh]
  rfl

omit [DecidableEq K] in
/-- Parameters that cannot be sent fail a save and a creation. -/
theorem save_of_params (h : Keeps S db t) {v : V}
    (henc : ¬ (S.codec.params v).all Value.encodable = true) :
    S.save db v = (.error .invalidText, db) ∧ S.create db v = (.error .invalidText, db) := by
  obtain ⟨es, hholds, -⟩ := h.holds
  rw [Bool.not_eq_true] at henc
  have hsave : db.insert ⟨S.codec.table, S.codec.columns, some ("id", S.overwritten),
      S.codec.columns⟩ (S.codec.params v) = .error .invalidText :=
    hholds.insert_invalid henc (some S.overwritten) S.overwritten_subset S.codec.columns
      fun _ hc => hc
  have hcreate : db.insert ⟨S.codec.table, S.codec.columns, none, ["id"]⟩ (S.codec.params v) =
      .error .invalidText :=
    hholds.insert_invalid henc none (by simp) ["id"]
      fun _ hc => List.mem_singleton.mp hc ▸ S.codec.id_mem
  rw [save, create, hsave, hcreate]
  exact ⟨rfl, rfl⟩

omit [DecidableEq K] in
/-- A taken identifier fails a creation. -/
theorem create_of_has (h : Keeps S db t) {v : V} (hv : S.codec.Valid db v)
    (henc : (S.codec.params v).all Value.encodable = true) (htaken : t.Has (key v)) :
    S.create db v = (.error (.uniqueViolation ["id"]), db) := by
  obtain ⟨es, hholds, hmem⟩ := h.holds
  obtain ⟨old, hold, hk⟩ := htaken
  rw [create, hholds.insert_collides hv henc ((hmem old).mpr hold)
    (by rw [S.codec_key, S.codec_key, hk])]
  rfl

/-! ### Call by call -/

/-- The table keeps the rows, and nothing else has changed since the start. -/
structure Simulates (S : CodecStore J key A Q) (start : Db J) (t : Table key) (db : Db J) :
    Prop where
  keeps : Keeps S db t
  frame : S.codec.Frame start db

/-- What is assumed of a call: the owners of a row are stored, and a limit is a machine
word. -/
def Assumed (S : CodecStore J key A Q) (start : Db J) : StoreCall K V A Q → Prop
  | .save v => S.codec.Valid start v
  | .create v => S.codec.Valid start v
  | .list q => ∀ n ∈ S.store.limit q, n < 2 ^ 64
  | _ => True

/-- The texts of a row can be sent, a created identifier is new, and a limit fits. -/
def Good (S : CodecStore J key A Q) (t : Table key) : StoreCall K V A Q → Prop
  | .save v => (S.codec.params v).all Value.encodable = true
  | .create v => (S.codec.params v).all Value.encodable = true ∧ ¬ t.Has (key v)
  | .list q => ∀ n ∈ S.store.limit q, n < 2 ^ 63
  | _ => True

variable {start : Db J}

/-- A good call is answered as the table answers it. -/
theorem Simulates.answer_good (h : Simulates S start t db) {call : StoreCall K V A Q}
    (hassumed : S.Assumed start call) (hgood : S.Good t call) :
    (S.answer db call).1 = .ok (S.store.answer t call).1 ∧
      Simulates S start (S.store.answer t call).2 (S.answer db call).2 := by
  have hnext : ∀ {db' : Db J} {t' : Table key}, Keeps S db' t' → S.codec.Frame db db' →
      Simulates S start t' db' := fun hkeeps hframe =>
    ⟨hkeeps, hframe.schema.trans h.frame.schema,
      fun name hne => (hframe.rows name hne).trans (h.frame.rows name hne)⟩
  cases call with
  | get k =>
    refine ⟨?_, h⟩
    simp only [answer, get_eq h.keeps]
    rfl
  | save v =>
    obtain ⟨db', hsave, hkeeps, hframe⟩ := save_eq h.keeps (h.frame.valid hassumed) hgood
    simp only [answer, hsave]
    exact ⟨rfl, hnext hkeeps hframe⟩
  | create v =>
    obtain ⟨db', hcreate, hkeeps, hframe⟩ :=
      create_eq h.keeps (h.frame.valid hassumed) hgood.1 hgood.2
    simp only [answer, hcreate]
    exact ⟨rfl, hnext hkeeps hframe⟩
  | delete k =>
    obtain ⟨db', hdelete, hkeeps, hframe⟩ := delete_eq h.keeps k
    simp only [answer, hdelete]
    exact ⟨rfl, hnext hkeeps hframe⟩
  | alter k a =>
    obtain ⟨db', halter, hkeeps, hframe⟩ := alter_eq h.keeps k a
    have hfst : (S.store.answer t (.alter k a : StoreCall K V A Q)).1 =
        .done (t.get k).isSome := by
      simp only [RowStore.answer]
      cases t.get k <;> rfl
    simp only [answer, halter, hfst]
    exact ⟨rfl, hnext hkeeps hframe⟩
  | list q =>
    refine ⟨?_, h⟩
    simp only [answer, list_eq h.keeps hgood]
    rfl

/-- Any other call fails. -/
theorem Simulates.answer_bad (h : Simulates S start t db) {call : StoreCall K V A Q}
    (hassumed : S.Assumed start call) (hbad : ¬ S.Good t call) :
    ∃ e, (S.answer db call).1 = .error e := by
  cases call with
  | save v => exact ⟨_, by simp only [answer, (save_of_params h.keeps hbad).1]; rfl⟩
  | create v =>
    by_cases henc : (S.codec.params v).all Value.encodable = true
    · have htaken : t.Has (key v) := by
        by_contra hnew
        exact hbad ⟨henc, hnew⟩
      exact ⟨_, by
        simp only [answer, create_of_has h.keeps (h.frame.valid hassumed) henc htaken]; rfl⟩
    · exact ⟨_, by simp only [answer, (save_of_params h.keeps henc).2]; rfl⟩
  | list q =>
    simp only [Good, not_forall, Nat.not_lt] at hbad
    obtain ⟨n, hq, hlow⟩ := hbad
    exact ⟨_, by
      simp only [answer, list_of_limit h.keeps hq hlow (hassumed n hq)]; rfl⟩
  | get k => exact absurd trivial hbad
  | delete k => exact absurd trivial hbad
  | alter k a => exact absurd trivial hbad

omit [DecidableEq K] in
/-- Only which rows there are matters. -/
theorem Simulates.congr (h : Simulates S start t db) {t' : Table key}
    (hmem : ∀ v, v ∈ t' ↔ v ∈ t) : Simulates S start t' db where
  keeps := by
    obtain ⟨es, hholds, hes⟩ := h.keeps.holds
    exact ⟨⟨es, hholds, fun v => (hes v).trans (hmem v).symm⟩,
      fun v hv => h.keeps.valid v ((hmem v).mp hv)⟩
  frame := h.frame

omit [DecidableEq K] in
/-- An empty table keeps no rows. -/
theorem Simulates.initial (hschema : start.schema.table S.codec.table = .ok S.codec.tableDef)
    (hempty : start.rows S.codec.table = []) (hno : ∀ v, v ∉ t) : Simulates S start t start where
  keeps := by
    refine ⟨⟨[], ⟨hschema, ?_, List.nodup_nil⟩, fun v => ?_⟩, fun v hv => absurd hv (hno v)⟩
    · rw [hempty]
      exact .nil
    · exact iff_of_false List.not_mem_nil (hno v)
  frame := ⟨rfl, fun _ _ => rfl⟩

/-! ### Every sequence of calls -/

/-- A repository in memory and one over a database, over the same calls: every call is
answered alike. -/
def AnswerAlike {M C : Type} (mem : M → C → StoreAnswer K V × M)
    (pg : Db J → C → Except QueryError (StoreAnswer K V) × Db J) (calls : List C) (m : M)
    (db : Db J) : Prop :=
  AgreeFrom (fun m c => (mem m c).2) (fun db c => (pg db c).2)
    (fun c m db => (pg db c).1 = .ok (mem m c).1) calls m db

/-- The two answer alike exactly as long as every call is good. -/
theorem answerAlike_iff {M C : Type} {call : C → StoreCall K V A Q}
    {mem : M → C → StoreAnswer K V × M} {rows : M → Table key} {Inv : M → Prop}
    (href : S.store.Refines call mem rows Inv)
    {pg : Db J → C → Except QueryError (StoreAnswer K V) × Db J}
    (hpg : ∀ db c, pg db c = S.answer db (call c)) {assumed good : C → M → Prop}
    (hassumed : ∀ c m, assumed c m → S.Assumed start (call c))
    (hgood : ∀ c m, good c m ↔ S.Good (rows m) (call c)) {m : M} (hinv : Inv m)
    (h : Simulates S start (rows m) start) (calls : List C)
    (ha : Along (fun m c => (mem m c).2) assumed calls m) :
    AnswerAlike mem pg calls m start ↔ Along (fun m c => (mem m c).2) good calls m := by
  refine agreeFrom_iff (R := fun m db => Inv m ∧ Simulates S start (rows m) db) ?_ ?_ calls
    ⟨hinv, h⟩ ha
  · rintro c m db ⟨hinv, hsim⟩ hc hg
    obtain ⟨hfst, hnext⟩ := hsim.answer_good (hassumed c m hc) ((hgood c m).mp hg)
    rw [hpg, href.fst m c hinv]
    exact ⟨hfst, href.inv m c hinv, hnext.congr (href.mem m c hinv)⟩
  · rintro c m db ⟨-, hsim⟩ hc hb hagree
    obtain ⟨e, he⟩ := hsim.answer_bad (hassumed c m hc) (mt (hgood c m).mpr hb)
    rw [hpg, he] at hagree
    exact absurd hagree (by simp)

end

end CodecStore

end Contexide.Sql
