import Contexide.Sql.Statements
import Contexide.Storage.Table
import Mathlib.Data.List.Forall2

/-! Tables that keep one entity in each row, identified by the `id` column. The effect of
the statements on the rows is described by their effect on the list of entities. -/

namespace Contexide.Sql

variable {J E : Type}

/-- How entities are kept in the rows of a table. The columns that an entity does not
determine have defaults that satisfy their definitions. -/
structure Codec (J E : Type) where
  table : String
  tableDef : TableDef J
  columns : List String
  key : E → ℕ
  encode : E → String → Value J
  id_mem : "id" ∈ columns
  encode_id : ∀ e, encode e "id" = .uuid (key e)
  unique_eq : tableDef.unique = [["id"]]
  defined : tableDef.undefined columns = []
  rest : ∀ c ∈ tableDef.columns, c.name ∉ columns → c.references = none ∧
    ∀ now, Db.cellViolations c (tableDef.defaultValue c.name now) = []
  not_self : ∀ c ∈ tableDef.columns, c.references ≠ some table

namespace Codec

variable (C : Codec J E)

/-- The row keeps the entity. -/
structure Stores (row : Row J) (e : E) : Prop where
  columns : ∀ c ∈ C.columns, row c = C.encode e c
  rest : ∀ c ∈ C.tableDef.columns, c.name ∉ C.columns → Db.cellViolations c (row c.name) = []

/-- The entity can be stored: its columns satisfy their definitions, and what it refers
to exists. -/
def Valid (db : Db J) (e : E) : Prop :=
  ∀ c ∈ C.tableDef.columns, c.name ∈ C.columns →
    Db.cellViolations c (C.encode e c.name) = [] ∧
      db.referenceViolations c (C.encode e c.name) = []

/-- The parameters of an insert of the entity. -/
def params (e : E) : List (Value J) := C.columns.map (C.encode e)

/-- The answer row that shows the entity. -/
def answer (e : E) : ResultRow J := C.columns.map fun c => (c, C.encode e c)

/-- The table holds exactly the entities, each under an identifier of its own. -/
structure Holds (db : Db J) (es : List E) : Prop where
  schema : db.schema.table C.table = .ok C.tableDef
  rows : List.Forall₂ C.Stores (db.rows C.table) es
  nodup : (es.map C.key).Nodup

variable {C} {db : Db J} {es : List E} {row : Row J} {e : E}

theorem Stores.id (h : C.Stores row e) : row "id" = .uuid (C.key e) :=
  (h.columns "id" C.id_mem).trans (C.encode_id e)

theorem Stores.project (h : C.Stores row e) : row.project C.columns = C.answer e :=
  List.map_congr_left fun c hc => by rw [h.columns c hc]

theorem Stores.violations (h : C.Stores row e) (hv : C.Valid db e) :
    ∀ c ∈ C.tableDef.columns, Db.cellViolations c (row c.name) = [] ∧
      db.referenceViolations c (row c.name) = [] := by
  intro c hc
  by_cases hm : c.name ∈ C.columns
  · rw [h.columns c.name hm]
    exact hv c hc hm
  · refine ⟨h.rest c hc hm, ?_⟩
    rw [Db.referenceViolations, (C.rest c hc hm).1]

theorem exists_of_mem_left {α β : Type} {R : α → β → Prop} {xs : List α} {ys : List β}
    (h : List.Forall₂ R xs ys) {x : α} (hx : x ∈ xs) : ∃ y ∈ ys, R x y := by
  induction h with
  | nil => exact absurd hx List.not_mem_nil
  | cons hxy _ ih =>
    rcases List.mem_cons.mp hx with rfl | hx
    · exact ⟨_, List.mem_cons_self, hxy⟩
    · obtain ⟨y, hy, hr⟩ := ih hx
      exact ⟨y, List.mem_cons_of_mem _ hy, hr⟩

/-- Rows of entities with different identifiers do not collide. -/
theorem uniqueViolations_eq_nil {rows : List (Row J)} (h : List.Forall₂ C.Stores rows es)
    (hn : (es.map C.key).Nodup) : Db.uniqueViolations C.tableDef rows = [] := by
  have hpair : rows.Pairwise fun r r' => Db.collide ["id"] r r' = false := by
    induction h with
    | nil => exact List.Pairwise.nil
    | cons hxy hrest ih =>
      rw [List.map_cons, List.nodup_cons] at hn
      refine List.Pairwise.cons (fun r' hr' => ?_) (ih hn.2)
      obtain ⟨e', he', hs'⟩ := exists_of_mem_left hrest hr'
      have hne : ¬ C.key _ = C.key e' := fun hk => hn.1 (hk ▸ List.mem_map_of_mem he')
      simp [Db.collide, hxy.id, hs'.id, hne]
  rw [Db.uniqueViolations, C.unique_eq, List.filterMap_cons, if_pos hpair, List.filterMap_nil]

/-- Storing valid entities under different identifiers succeeds. -/
theorem store_eq {proposed changed rows : List (Row J)}
    (hp : ∀ r ∈ proposed, ∃ e, C.Stores r e ∧ C.Valid db e)
    (hc : ∀ r ∈ changed, ∃ e, C.Stores r e ∧ C.Valid db e)
    (hrows : List.Forall₂ C.Stores rows es) (hn : (es.map C.key).Nodup) :
    db.store C.table C.tableDef proposed changed rows =
      .ok { db with rows := Function.update db.rows C.table rows, clock := db.clock + 1 } := by
  have hcells : ((proposed ++ changed).flatMap fun r => C.tableDef.columns.flatMap fun c =>
      Db.cellViolations c (r c.name)) = [] := by
    simp only [List.flatMap_eq_nil_iff]
    intro r hr c hcol
    rcases List.mem_append.mp hr with hr | hr
    · obtain ⟨e, hs, hv⟩ := hp r hr
      exact (hs.violations hv c hcol).1
    · obtain ⟨e, hs, hv⟩ := hc r hr
      exact (hs.violations hv c hcol).1
  have hrefs : (changed.flatMap fun r => C.tableDef.columns.flatMap fun c =>
      db.referenceViolations c (r c.name)) = [] := by
    simp only [List.flatMap_eq_nil_iff]
    intro r hr c hcol
    obtain ⟨e, hs, hv⟩ := hc r hr
    exact (hs.violations hv c hcol).2
  rw [Db.store, hcells, hrefs, uniqueViolations_eq_nil hrows hn]
  rfl

/-- The row that an insert of an entity proposes keeps it. -/
theorem stores_proposed (e : E) (now : ℕ) :
    C.Stores (Row.proposed C.tableDef C.columns (C.params e) now) e := by
  have hlookup : ∀ c, (C.columns.zip (C.params e)).lookup c =
      if c ∈ C.columns then some (C.encode e c) else none := by
    intro c
    have hzip : C.columns.zip (C.params e) = Row.project (C.encode e) C.columns := by
      unfold params Row.project
      induction C.columns with
      | nil => rfl
      | cons d ds ih => rw [List.map_cons, List.zip_cons_cons, ih, List.map_cons]
    rw [hzip, ResultRow.lookup_project]
  constructor
  · intro c hc
    rw [Row.proposed, hlookup, if_pos hc]
  · intro c hc hm
    rw [Row.proposed, hlookup, if_neg hm]
    exact (C.rest c hc hm).2 now

/-! ### The statements -/

/-- Nothing changed but the rows of the table. -/
structure Frame (C : Codec J E) (db db' : Db J) : Prop where
  schema : db'.schema = db.schema
  rows : ∀ name, name ≠ C.table → db'.rows name = db.rows name

theorem Frame.valid {db' : Db J} (h : C.Frame db db') (hv : C.Valid db e) : C.Valid db' e := by
  intro c hc hm
  refine ⟨(hv c hc hm).1, ?_⟩
  have hrefs := (hv c hc hm).2
  unfold Db.referenceViolations at hrefs ⊢
  split
  · next target ht =>
    rw [ht] at hrefs
    have hne : target ≠ C.table := fun heq => C.not_self c hc (heq ▸ ht)
    rwa [h.rows target hne]
  · rfl

/-- The database with other rows in the table. -/
def withRows (C : Codec J E) (db : Db J) (rows : List (Row J)) : Db J :=
  { db with rows := Function.update db.rows C.table rows, clock := db.clock + 1 }

theorem frame_withRows (rows : List (Row J)) : C.Frame db (C.withRows db rows) :=
  ⟨rfl, fun _ hne => Function.update_of_ne hne ..⟩

theorem Holds.withRows (h : C.Holds db es) {rows : List (Row J)} {es' : List E}
    (hrows : List.Forall₂ C.Stores rows es') (hn : (es'.map C.key).Nodup) :
    C.Holds (C.withRows db rows) es' := by
  refine ⟨h.schema, ?_, hn⟩
  rw [show (C.withRows db rows).rows C.table = rows from Function.update_self ..]
  exact hrows

theorem requireColumns_eq {names : List String} (h : ∀ n ∈ names, n ∈ C.columns) :
    C.tableDef.requireColumns names = .ok () := by
  have hnil : C.tableDef.undefined names = [] := by
    rw [TableDef.undefined, List.filter_eq_nil_iff]
    intro n hn
    exact List.filter_eq_nil_iff.mp C.defined n (h n hn)
  rw [TableDef.requireColumns, hnil]

/-- A condition on a column finds the rows of the entities that satisfy it. -/
theorem forall₂_filter {rows : List (Row J)} (h : List.Forall₂ C.Stores rows es) {col : String}
    (hcol : col ∈ C.columns) {v : Value J} {p : E → Bool}
    (hp : ∀ x, (C.encode x col).sqlEq v = p x) :
    List.Forall₂ C.Stores (rows.filter fun r => (r col).sqlEq v) (es.filter p) :=
  List.rel_filter (fun r x hrx => Bool.coe_iff_coe.mpr (by rw [hrx.columns col hcol, hp])) h

theorem forall₂_filter_not {rows : List (Row J)} (h : List.Forall₂ C.Stores rows es)
    {col : String} (hcol : col ∈ C.columns) {v : Value J} {p : E → Bool}
    (hp : ∀ x, (C.encode x col).sqlEq v = p x) :
    List.Forall₂ C.Stores (rows.filter fun r => !(r col).sqlEq v) (es.filter fun x => !p x) :=
  List.rel_filter (fun r x hrx => Bool.coe_iff_coe.mpr (by rw [hrx.columns col hcol, hp])) h

theorem sqlEq_id (x : E) (k : ℕ) :
    (C.encode x "id").sqlEq (.uuid k) = decide (C.key x = k) := by
  rw [C.encode_id, Value.sqlEq_uuid]

/-- `delete from .. where column = $1`. -/
theorem Holds.delete (h : C.Holds db es) {col : String} (hcol : col ∈ C.columns) (v : Value J)
    (hv : v.encodable = true) {p : E → Bool} (hp : ∀ x, (C.encode x col).sqlEq v = p x) :
    ∃ db', db.delete ⟨C.table, col⟩ [v] = .ok (db', (es.filter p).length) ∧
      C.Holds db' (es.filter fun x => !p x) ∧ C.Frame db db' := by
  have hlen := (forall₂_filter h.rows hcol hp).length_eq
  refine ⟨_, ?_, h.withRows (forall₂_filter_not h.rows hcol hp) ?_, frame_withRows _⟩
  · rw [Db.delete, h.schema]
    show (C.tableDef.requireColumns [col] >>= _) = _
    rw [requireColumns_eq (by simpa using hcol)]
    show (Db.requireEncodable [v] >>= _) = _
    rw [Db.requireEncodable_of_all (by simpa using hv), ← hlen]
    rfl
  · exact h.nodup.sublist (List.filter_sublist.map _)

/-- Sorting rows by columns sorts their entities. -/
theorem forall₂_insertionSort {rows : List (Row J)} (h : List.Forall₂ C.Stores rows es)
    {order : List String} (ho : ∀ c ∈ order, c ∈ C.columns) :
    List.Forall₂ C.Stores (rows.insertionSort fun r r' => r.precedes order r')
      (es.insertionSort fun x y => Row.precedes order (C.encode x) (C.encode y)) := by
  have hprec : ∀ {r r' : Row J} {x y : E}, C.Stores r x → C.Stores r' y →
      r.precedes order r' = Row.precedes order (C.encode x) (C.encode y) := by
    intro r r' x y hr hr'
    induction order with
    | nil => rfl
    | cons c order ih =>
      rw [Row.precedes, Row.precedes, hr.columns c (ho c List.mem_cons_self),
        hr'.columns c (ho c List.mem_cons_self), ih fun d hd => ho d (List.mem_cons_of_mem _ hd)]
  have hinsert : ∀ {r : Row J} {x : E} {rs : List (Row J)} {xs : List E}, C.Stores r x →
      List.Forall₂ C.Stores rs xs →
      List.Forall₂ C.Stores (rs.orderedInsert (fun r r' => r.precedes order r') r)
        (xs.orderedInsert (fun x y => Row.precedes order (C.encode x) (C.encode y)) x) := by
    intro r x rs xs hr hrs
    induction hrs with
    | nil => exact .cons hr .nil
    | cons hxy hrest ih =>
      rw [List.orderedInsert_cons, List.orderedInsert_cons, hprec hr hxy]
      split
      · exact .cons hr (.cons hxy hrest)
      · exact .cons hxy ih
  induction h with
  | nil => exact .nil
  | cons hxy _ ih =>
    rw [List.insertionSort_cons, List.insertionSort_cons]
    exact hinsert hxy ih

/-- `select .. where column = $1 order by ..`. -/
theorem Holds.select (h : C.Holds db es) {col : String} (hcol : col ∈ C.columns) (v : Value J)
    (hv : v.encodable = true) {p : E → Bool} (hp : ∀ x, (C.encode x col).sqlEq v = p x)
    (order : List String) (ho : ∀ c ∈ order, c ∈ C.columns) :
    db.select ⟨C.table, C.columns, col, order⟩ [v] =
      .ok (((es.filter p).insertionSort fun x y =>
        Row.precedes order (C.encode x) (C.encode y)).map C.answer) := by
  have hsorted := forall₂_insertionSort (forall₂_filter h.rows hcol hp) ho
  have hanswer : ∀ {rs : List (Row J)} {xs : List E}, List.Forall₂ C.Stores rs xs →
      rs.map (fun r => r.project C.columns) = xs.map C.answer := by
    intro rs xs hrs
    induction hrs with
    | nil => rfl
    | cons hxy _ ih => rw [List.map_cons, List.map_cons, hxy.project, ih]
  have hcols : ∀ n ∈ C.columns ++ [col] ++ order, n ∈ C.columns := by
    intro n hn
    simp only [List.mem_append, List.mem_singleton] at hn
    rcases hn with (hn | rfl) | hn
    · exact hn
    · exact hcol
    · exact ho n hn
  rw [Db.select_eq h.schema (requireColumns_eq hcols) (by simpa using hv), ← hanswer hsorted]
  rfl

/-- The row of an entity that is stored, for the identifier of `e`. -/
theorem Holds.find? (h : C.Holds db es) (e : E) :
    (∃ old ∈ es, C.key old = C.key e ∧ (es.find? fun x => C.key x = C.key e) = some old ∧
      ∃ row, C.Stores row old ∧
        ((db.rows C.table).find? fun r => (r "id").sqlEq (.uuid (C.key e))) = some row) ∨
      ((∀ x ∈ es, C.key x ≠ C.key e) ∧ (es.find? fun x => C.key x = C.key e) = none ∧
        ((db.rows C.table).find? fun r => (r "id").sqlEq (.uuid (C.key e))) = none) := by
  have hrows := h.rows
  generalize db.rows C.table = rows at hrows ⊢
  clear h
  induction hrows with
  | nil => exact .inr ⟨by simp, rfl, rfl⟩
  | @cons r x rs xs hrx _ ih =>
    rw [List.find?_cons, List.find?_cons, hrx.id, Value.sqlEq_uuid]
    by_cases hk : C.key x = C.key e
    · simp only [hk, decide_true]
      exact .inl ⟨x, List.mem_cons_self, hk, rfl, r, hrx, rfl⟩
    · simp only [hk, decide_false]
      rcases ih with ⟨old, hmem, ho⟩ | ⟨hne, hf⟩
      · exact .inl ⟨old, List.mem_cons_of_mem _ hmem, ho⟩
      · right
        refine ⟨fun y hy => ?_, hf⟩
        rcases List.mem_cons.mp hy with rfl | hy
        · exact hk
        · exact hne y hy

theorem Holds.eq_of_key (h : C.Holds db es) {x y : E} (hx : x ∈ es) (hy : y ∈ es)
    (hk : C.key x = C.key y) : x = y :=
  List.inj_on_of_nodup_map h.nodup hx hy hk

theorem Holds.find?_eq_some (h : C.Holds db es) {k : ℕ} :
    (es.find? fun x => C.key x = k) = some e ↔ e ∈ es ∧ C.key e = k := by
  constructor
  · intro hfind
    exact ⟨List.mem_of_find?_eq_some hfind, by simpa using List.find?_some hfind⟩
  · rintro ⟨he, rfl⟩
    rcases h.find? e with ⟨old, hold, hk, hfind, -⟩ | ⟨hne, -⟩
    · rw [hfind, h.eq_of_key hold he hk]
    · exact absurd rfl (hne e he)

/-- An insert mentions columns of the entity only. -/
theorem insert_columns {onConflict : Option (List String)}
    (hset : ∀ c ∈ onConflict.getD [], c ∈ C.columns) {returning : List String}
    (hret : ∀ c ∈ returning, c ∈ C.columns) :
    ∀ n ∈ C.columns ++ ((onConflict.map fun set => ("id", set)).elim []
      fun c => c.1 :: c.2) ++ returning, n ∈ C.columns := by
  intro n hn
  rcases List.mem_append.mp hn with hn | hn
  · rcases List.mem_append.mp hn with hn | hn
    · exact hn
    · cases onConflict with
      | none => exact absurd hn List.not_mem_nil
      | some set =>
        rcases List.mem_cons.mp hn with rfl | hn
        · exact C.id_mem
        · exact hset n hn
  · exact hret n hn

theorem update_columns {set : List (String × ℕ)} (hset : ∀ c ∈ set.map Prod.fst, c ∈ C.columns) :
    ∀ n ∈ set.map Prod.fst ++ ["id"], n ∈ C.columns := by
  intro n hn
  rcases List.mem_append.mp hn with hn | hn
  · exact hset n hn
  · exact List.mem_singleton.mp hn ▸ C.id_mem

/-- `insert into ..` of an entity under a new identifier, with or without a conflict
clause. -/
theorem Holds.insert_new (h : C.Holds db es) (hv : C.Valid db e)
    (henc : (C.params e).all Value.encodable = true) (hk : ∀ x ∈ es, C.key x ≠ C.key e)
    (onConflict : Option (List String)) (hset : ∀ c ∈ onConflict.getD [], c ∈ C.columns)
    (returning : List String) (hret : ∀ c ∈ returning, c ∈ C.columns) :
    ∃ db', db.insert ⟨C.table, C.columns, onConflict.map fun set => ("id", set), returning⟩
        (C.params e) = .ok (db', returning.map fun c => (c, C.encode e c)) ∧
      C.Holds db' (es ++ [e]) ∧ C.Frame db db' := by
  have hs : C.Stores (Row.proposed C.tableDef C.columns (C.params e) db.clock) e :=
    stores_proposed e db.clock
  have hrows : List.Forall₂ C.Stores
      (db.rows C.table ++ [Row.proposed C.tableDef C.columns (C.params e) db.clock])
      (es ++ [e]) := List.rel_append h.rows (.cons hs .nil)
  have hn : ((es ++ [e]).map C.key).Nodup := by
    rw [List.map_append, List.nodup_append]
    refine ⟨h.nodup, List.nodup_singleton _, fun a ha b hb => ?_⟩
    obtain ⟨x, hx, rfl⟩ := List.mem_map.mp ha
    rw [List.map_singleton, List.mem_singleton] at hb
    exact hb ▸ hk x hx
  have hstore := @store_eq J E C db _ [] _ _ (by simp)
    (fun r hr => ⟨e, List.mem_singleton.mp hr ▸ hs, hv⟩) hrows hn
  have hproj : (Row.proposed C.tableDef C.columns (C.params e) db.clock).project returning =
      returning.map fun c => (c, C.encode e c) :=
    List.map_congr_left fun c hc => by rw [hs.columns c (hret c hc)]
  refine ⟨_, ?_, h.withRows hrows hn, frame_withRows _⟩
  have hcols := requireColumns_eq (insert_columns hset hret)
  rw [← hproj]
  cases onConflict with
  | none => exact Db.insert_plain h.schema hcols (Db.requireEncodable_of_all henc) rfl rfl hstore
  | some set =>
    have hunique : ["id"] ∈ C.tableDef.unique := C.unique_eq ▸ List.mem_singleton_self _
    rcases h.find? e with ⟨old, hold, hkey, -⟩ | ⟨-, -, hfind⟩
    · exact absurd hkey (hk old hold)
    · rw [← hs.id] at hfind
      exact Db.insert_fresh h.schema hcols (Db.requireEncodable_of_all henc) rfl hunique rfl
        hfind hstore

/-- Overwriting the listed columns from the row of another entity. -/
theorem Stores.overwrite {old new : E} {row' : Row J} (h : C.Stores row old)
    (h' : C.Stores row' e) {set : List String} (hset : ∀ c ∈ set, c ∈ C.columns)
    (hnew : ∀ c ∈ C.columns, C.encode new c = if c ∈ set then C.encode e c else C.encode old c) :
    C.Stores (row.overwrite row' set) new := by
  constructor
  · intro c hc
    rw [hnew c hc, Row.overwrite, h'.columns c hc, h.columns c hc]
  · intro c hc hm
    rw [Row.overwrite, if_neg fun hin => hm (hset _ hin)]
    exact h.rest c hc hm

/-- Assigning parameters to columns. -/
theorem Stores.assign {old new : E} (h : C.Stores row old) {set : List (String × ℕ)}
    (hset : ∀ c ∈ set.map Prod.fst, c ∈ C.columns) {params : List (Value J)}
    (hnew : ∀ c ∈ C.columns, C.encode new c =
      match set.lookup c with
      | some n => params.getD (n - 1) .null
      | none => C.encode old c) :
    C.Stores (row.assign set params) new := by
  constructor
  · intro c hc
    rw [hnew c hc, Row.assign]
    cases set.lookup c with
    | some n => rfl
    | none => exact h.columns c hc
  · intro c hc hm
    have hnone : set.lookup c.name = none := by
      rw [List.lookup_eq_none_iff]
      intro p hp
      have hne : c.name ≠ p.1 := fun heq => hm (hset _ (heq ▸ List.mem_map_of_mem hp))
      exact bne_iff_ne.mpr hne
    rw [Row.assign, hnone]
    exact h.rest c hc hm

/-- Rewriting the entity of one identifier keeps the identifiers. -/
theorem map_key_eq {k : ℕ} {g : E → E} (hg : ∀ x ∈ es, C.key x = k → C.key (g x) = k) :
    (es.map fun x => if C.key x = k then g x else x).map C.key = es.map C.key := by
  rw [List.map_map]
  apply List.map_congr_left
  intro x hx
  by_cases hk : C.key x = k
  · simp only [Function.comp, hk, if_true]
    exact hg x hx hk
  · simp only [Function.comp, hk, if_false]

/-- Rewriting the row of one identifier rewrites its entity. -/
theorem forall₂_map {rows : List (Row J)} (h : List.Forall₂ C.Stores rows es) (k : ℕ)
    {f : Row J → Row J} {g : E → E}
    (hfg : ∀ r x, x ∈ es → C.key x = k → C.Stores r x → C.Stores (f r) (g x)) :
    List.Forall₂ C.Stores (rows.map fun r => if (r "id").sqlEq (.uuid k) then f r else r)
      (es.map fun x => if C.key x = k then g x else x) := by
  induction h with
  | nil => exact .nil
  | @cons r x rs xs hxy _ ih =>
    have ih := ih fun r x hx => hfg r x (List.mem_cons_of_mem _ hx)
    rw [List.map_cons, List.map_cons, hxy.id, Value.sqlEq_uuid]
    by_cases hk : C.key x = k
    · rw [if_pos (by simpa using hk), if_pos hk]
      exact .cons (hfg _ _ List.mem_cons_self hk hxy) ih
    · rw [if_neg (by simpa using hk), if_neg hk]
      exact .cons hxy ih

/-- `insert into .. on conflict (id) do update` of an entity whose identifier is taken:
the listed columns come from the new entity, the others stay. -/
theorem Holds.insert_conflict (h : C.Holds db es) (hv : C.Valid db e)
    (henc : (C.params e).all Value.encodable = true) {old : E} (hold : old ∈ es)
    (hk : C.key old = C.key e) {set : List String} (hset : ∀ c ∈ set, c ∈ C.columns) {new : E}
    (hnew : ∀ c ∈ C.columns, C.encode new c = if c ∈ set then C.encode e c else C.encode old c)
    (hvn : C.Valid db new) (hkn : C.key new = C.key e) :
    ∃ db', db.insert ⟨C.table, C.columns, some ("id", set), C.columns⟩ (C.params e) =
        .ok (db', C.answer new) ∧
      C.Holds db' (Storage.upsert C.key new es) ∧ C.Frame db db' := by
  have hs : C.Stores (Row.proposed C.tableDef C.columns (C.params e) db.clock) e :=
    stores_proposed e db.clock
  obtain ⟨old', hold', hkey', -, row, hrow, hfind⟩ := (h.find? e).resolve_right
    fun hne => hne.1 old hold hk
  obtain rfl := h.eq_of_key hold hold' (hk.trans hkey'.symm)
  have hover := hrow.overwrite hs hset hnew
  have hrows := forall₂_map h.rows (C.key e) (f := fun _ => row.overwrite
    (Row.proposed C.tableDef C.columns (C.params e) db.clock) set) (g := fun _ => new)
    fun _ _ _ _ _ => hover
  have hupsert : (es.map fun x => if C.key x = C.key e then new else x) =
      Storage.upsert C.key new es := by
    rw [Storage.upsert_eq_map C.key new es h.nodup ⟨old, hold, hk.trans hkn.symm⟩, hkn]
  rw [hupsert, ← hs.id] at hrows
  rw [← hs.id] at hfind
  have hn := Storage.nodup_map_upsert C.key new es h.nodup
  have hstore := @store_eq J E C db _
    [Row.proposed C.tableDef C.columns (C.params e) db.clock] _ _
    (fun r hr => ⟨e, List.mem_singleton.mp hr ▸ hs, hv⟩)
    (fun r hr => ⟨new, List.mem_singleton.mp hr ▸ hover, hvn⟩) hrows hn
  refine ⟨_, ?_, h.withRows hrows hn, frame_withRows _⟩
  have hcols : ∀ n ∈ C.columns ++ "id" :: set ++ C.columns, n ∈ C.columns :=
    insert_columns (show ∀ c ∈ (some set).getD [], c ∈ C.columns from hset) fun _ hc => hc
  have hunique : ["id"] ∈ C.tableDef.unique := C.unique_eq ▸ List.mem_singleton_self _
  rw [← hover.project]
  exact Db.insert_taken h.schema (requireColumns_eq hcols) (Db.requireEncodable_of_all henc) rfl
    hunique rfl hfind hstore

/-- `update .. set .. where id = $1`. -/
theorem Holds.update (h : C.Holds db es) (k : ℕ) (set : List (String × ℕ))
    (hset : ∀ c ∈ set.map Prod.fst, c ∈ C.columns) (params : List (Value J))
    (henc : (.uuid k :: params).all Value.encodable = true) {g : E → E}
    (hg : ∀ x ∈ es, C.key x = k → (∀ c ∈ C.columns, C.encode (g x) c =
        match set.lookup c with
        | some n => (.uuid k :: params).getD (n - 1) .null
        | none => C.encode x c) ∧ C.key (g x) = k ∧ C.Valid db (g x)) :
    ∃ db', db.update ⟨C.table, set, "id"⟩ (.uuid k :: params) =
        .ok (db', (es.filter fun x => C.key x = k).length) ∧
      C.Holds db' (es.map fun x => if C.key x = k then g x else x) ∧ C.Frame db db' := by
  have hassign : ∀ r x, x ∈ es → C.key x = k → C.Stores r x →
      C.Stores (r.assign set (.uuid k :: params)) (g x) :=
    fun r x hx hk hr => hr.assign hset (hg x hx hk).1
  have hrows := forall₂_map h.rows k hassign
  have hn : ((es.map fun x => if C.key x = k then g x else x).map C.key).Nodup :=
    map_key_eq (fun x hx hk => (hg x hx hk).2.1) ▸ h.nodup
  have hfilter := forall₂_filter h.rows C.id_mem (fun x => sqlEq_id x k)
  have hlen : ((es.filter fun x => C.key x = k)).length =
      (((db.rows C.table).filter fun r => (r "id").sqlEq (.uuid k)).map fun r =>
        r.assign set (.uuid k :: params)).length := by
    rw [List.length_map]
    exact hfilter.length_eq.symm
  have hchanged : ∀ r ∈ ((db.rows C.table).filter fun r => (r "id").sqlEq (.uuid k)).map
      (fun r => r.assign set (.uuid k :: params)), ∃ e, C.Stores r e ∧ C.Valid db e := by
    intro r hr
    obtain ⟨r', hr', rfl⟩ := List.mem_map.mp hr
    obtain ⟨x, hx, hs⟩ := exists_of_mem_left hfilter hr'
    rw [List.mem_filter, decide_eq_true_eq] at hx
    exact ⟨g x, hassign r' x hx.1 hx.2 hs, (hg x hx.1 hx.2).2.2⟩
  have hstore := @store_eq J E C db _ [] _ _ (by simp) hchanged hrows hn
  refine ⟨_, ?_, h.withRows hrows hn, frame_withRows _⟩
  rw [Db.update, h.schema]
  show (C.tableDef.requireColumns (set.map Prod.fst ++ ["id"]) >>= _) = _
  rw [requireColumns_eq (update_columns hset)]
  show (Db.requireEncodable (.uuid k :: params) >>= _) = _
  rw [Db.requireEncodable_of_all henc, hlen]
  show (db.store C.table C.tableDef [] _ _ >>= _) = _
  rw [show (Value.uuid k :: params).getD 0 .null = .uuid k from rfl, hstore]
  rfl

/-- At most one entity has an identifier. -/
theorem Holds.length_filter (h : C.Holds db es) (k : ℕ) :
    (es.filter fun x => C.key x = k).length =
      if (es.find? fun x => C.key x = k).isSome then 1 else 0 := by
  have hn := h.nodup
  clear h
  induction es with
  | nil => rfl
  | cons x es ih =>
    rw [List.map_cons, List.nodup_cons] at hn
    rw [List.filter_cons, List.find?_cons]
    by_cases hk : C.key x = k
    · have hrest : (es.filter fun x => C.key x = k) = [] := by
        rw [List.filter_eq_nil_iff]
        intro y hy hyk
        exact hn.1 (hk.trans (of_decide_eq_true hyk).symm ▸ List.mem_map_of_mem hy)
      simp [hk, hrest]
    · simp only [hk, decide_false]
      exact ih hn.2

/-- An affected count of one says that the entity was there. -/
theorem Holds.affected (h : C.Holds db es) (k : ℕ) :
    ((es.filter fun x => C.key x = k).length == 1) =
      (es.find? fun x => C.key x = k).isSome := by
  rw [h.length_filter]
  cases (es.find? fun x => C.key x = k).isSome <;> rfl

/-- A selection by identifier shows the entity with it, if there is one. -/
theorem Holds.select_id (h : C.Holds db es) (k : ℕ) :
    db.select ⟨C.table, C.columns, "id", []⟩ [.uuid k] =
      .ok ((es.find? fun x => C.key x = k).toList.map C.answer) := by
  have hfilter : (es.filter fun x => decide (C.key x = k)) =
      (es.find? fun x => decide (C.key x = k)).toList := by
    have hlen := h.length_filter k
    rw [← List.head?_filter] at hlen ⊢
    match hl : es.filter fun x => decide (C.key x = k) with
    | [] => rfl
    | [x] => rfl
    | x :: y :: l =>
      rw [hl] at hlen
      simp at hlen
  rw [h.select C.id_mem (.uuid k) rfl (fun x => sqlEq_id x k) [] (by simp),
    Db.insertionSort_precedes_nil, hfilter]

/-- A text that cannot be sent fails a statement. -/
theorem Holds.insert_invalid (h : C.Holds db es)
    (henc : (C.params e).all Value.encodable = false) (onConflict : Option (List String))
    (hset : ∀ c ∈ onConflict.getD [], c ∈ C.columns) (returning : List String)
    (hret : ∀ c ∈ returning, c ∈ C.columns) :
    db.insert ⟨C.table, C.columns, onConflict.map fun set => ("id", set), returning⟩
      (C.params e) = .error .invalidText := by
  rw [Db.insert, h.schema]
  show (C.tableDef.requireColumns _ >>= _) = _
  rw [requireColumns_eq (insert_columns hset hret)]
  show (Db.requireEncodable (C.params e) >>= _) = _
  rw [Db.requireEncodable_invalid henc]
  rfl

theorem Holds.update_invalid (h : C.Holds db es) (set : List (String × ℕ))
    (hset : ∀ c ∈ set.map Prod.fst, c ∈ C.columns) {params : List (Value J)}
    (henc : params.all Value.encodable = false) :
    db.update ⟨C.table, set, "id"⟩ params = .error .invalidText := by
  rw [Db.update, h.schema]
  show (C.tableDef.requireColumns (set.map Prod.fst ++ ["id"]) >>= _) = _
  rw [requireColumns_eq (update_columns hset)]
  show (Db.requireEncodable params >>= _) = _
  rw [Db.requireEncodable_invalid henc]
  rfl

end Codec

end Contexide.Sql
