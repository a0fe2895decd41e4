import Contexide.Sql.Keyed
import Mathlib.Algebra.Group.Nat.Defs
import Mathlib.Data.List.GetD

/-! Selections with several conditions and a limit. A limit that is negative is an error of
its own. -/

namespace Contexide.Sql

/-- How a selection with a limit can fail. -/
inductive QueryError where
  | sql (e : SqlError)
  | negativeLimit
  deriving DecidableEq, Repr

/-- `select columns from table where column = $1 and .. order by .. limit $n`, where the
limit is the parameter after those of the conditions. -/
structure Query where
  table : String
  columns : List String
  whereColumns : List String
  orderBy : List String
  limited : Bool

/-- `n as i64`. -/
def asI64 (n : ℕ) : ℤ := (Int64.ofNat n).toInt

theorem asI64_of_lt {n : ℕ} (h : n < 2 ^ 63) : asI64 n = n := by
  rw [asI64, Int64.toInt_ofNat_of_lt h]

theorem asI64_neg {n : ℕ} (h : 2 ^ 63 ≤ n) (h' : n < 2 ^ 64) : asI64 n < 0 := by
  rw [asI64, Int64.toInt_ofNat', Int64.size, Int.bmod_def]
  omega

variable {J E : Type}

/-- What a statement that changes a table leaves, and what is read from its answer. A
statement that fails changes nothing. -/
def Db.settle {α β : Type} (db : Db J) (read : α → Except SqlError β) :
    Except SqlError (Db J × α) → Except SqlError β × Db J
  | .ok (db', a) => (read a, db')
  | .error e => (.error e, db)

/-- Decode the first answer row, if there is one. -/
def fetchOptional (decode : ResultRow J → Except SqlError E) :
    List (ResultRow J) → Except SqlError (Option E)
  | [] => .ok none
  | row :: _ => (decode row).map some

/-- Decode all answer rows, or fail with the first that cannot be decoded. -/
def fetchAll (decode : ResultRow J → Except SqlError E) :
    List (ResultRow J) → Except SqlError (List E)
  | [] => .ok []
  | row :: rows => do
    let e ← decode row
    let es ← fetchAll decode rows
    .ok (e :: es)

/-- The answer rows up to the limit; a null limit is none. -/
def limitRows (rows : List (ResultRow J)) : Value J → Except QueryError (List (ResultRow J))
  | .int n => if n < 0 then .error .negativeLimit else .ok (rows.take n.toNat)
  | _ => .ok rows

/-- The columns are there and the parameters can be sent. -/
def Db.checkQuery (db : Db J) (s : Query) (params : List (Value J)) : Except SqlError Unit := do
  let t ← db.schema.table s.table
  t.requireColumns (s.columns ++ s.whereColumns ++ s.orderBy)
  requireEncodable params

def Db.query (db : Db J) (s : Query) (params : List (Value J)) :
    Except QueryError (List (ResultRow J)) :=
  match db.checkQuery s params with
  | .error e => .error (.sql e)
  | .ok () =>
    let hit : Row J → Bool := fun r =>
      (s.whereColumns.zip params).all fun c => (r c.1).sqlEq c.2
    let rows := (((db.rows s.table).filter hit).insertionSort fun r r' =>
      r.precedes s.orderBy r').map fun r => r.project s.columns
    if s.limited then limitRows rows (params.getD s.whereColumns.length .null) else .ok rows

/-- Sorting related lists by orders that say the same of related elements. -/
theorem rel_insertionSort {α β : Type} {R : α → β → Prop} {r : α → α → Prop} {s : β → β → Prop}
    [DecidableRel r] [DecidableRel s]
    (hrs : ∀ a a' b b', R a b → R a' b' → (r a a' ↔ s b b')) {xs : List α} {ys : List β}
    (h : List.Forall₂ R xs ys) : List.Forall₂ R (xs.insertionSort r) (ys.insertionSort s) := by
  have hinsert : ∀ {a b xs ys}, R a b → List.Forall₂ R xs ys →
      List.Forall₂ R (xs.orderedInsert r a) (ys.orderedInsert s b) := by
    intro a b xs ys hab hrest
    induction hrest with
    | nil => exact .cons hab .nil
    | @cons a' b' xs ys hab' hrest ih =>
      rw [List.orderedInsert_cons, List.orderedInsert_cons]
      by_cases hle : r a a'
      · rw [if_pos hle, if_pos ((hrs a a' b b' hab hab').mp hle)]
        exact .cons hab (.cons hab' hrest)
      · rw [if_neg hle, if_neg (mt (hrs a a' b b' hab hab').mpr hle)]
        exact .cons hab' ih
  induction h with
  | nil => exact .nil
  | cons hab _ ih =>
    rw [List.insertionSort_cons, List.insertionSort_cons]
    exact hinsert hab ih

namespace Codec

variable {C : Codec J E} {db : Db J} {es : List E}

/-- Conditions on columns find the rows of the entities that satisfy them. -/
theorem forall₂_filter_all {rows : List (Row J)} (h : List.Forall₂ C.Stores rows es)
    {conditions : List (String × Value J)} (hcols : ∀ c ∈ conditions, c.1 ∈ C.columns) :
    List.Forall₂ C.Stores (rows.filter fun r => conditions.all fun c => (r c.1).sqlEq c.2)
      (es.filter fun x => conditions.all fun c => (C.encode x c.1).sqlEq c.2) := by
  refine List.rel_filter (fun r x hrx => Bool.coe_iff_coe.mpr ?_) h
  have hsame : ∀ c ∈ conditions, (r c.1).sqlEq c.2 = (C.encode x c.1).sqlEq c.2 :=
    fun c hc => by rw [hrx.columns c.1 (hcols c hc)]
  rw [List.all_eq, List.all_eq]
  simp only [decide_eq_decide]
  exact forall₂_congr fun c hc => by rw [hsame c hc]

theorem map_project {rows : List (Row J)} (h : List.Forall₂ C.Stores rows es) :
    rows.map (fun r => r.project C.columns) = es.map C.answer := by
  induction h with
  | nil => rfl
  | cons hxy _ ih => rw [List.map_cons, List.map_cons, hxy.project, ih]

theorem fetchOptional_answer {decode : ResultRow J → Except SqlError E}
    (hdecode : ∀ e, decode (C.answer e) = .ok e) (e : Option E) :
    fetchOptional decode (e.toList.map C.answer) = .ok e := by
  cases e with
  | none => rfl
  | some e => exact congrArg (Except.map some) (hdecode e)

theorem fetchAll_answer {decode : ResultRow J → Except SqlError E}
    (hdecode : ∀ e, decode (C.answer e) = .ok e) (es : List E) :
    fetchAll decode (es.map C.answer) = .ok es := by
  induction es with
  | nil => rfl
  | cons e es ih =>
    rw [List.map_cons, fetchAll, hdecode, ih]
    rfl

theorem zip_map_append (conditions : List (String × Value J)) (rest : List (Value J)) :
    (conditions.map Prod.fst).zip (conditions.map Prod.snd ++ rest) = conditions := by
  induction conditions with
  | nil => exact List.zip_nil_left
  | cons c cs ih => rw [List.map_cons, List.map_cons, List.cons_append, List.zip_cons_cons, ih]

/-- `select .. where .. order by .. limit ..` of entities. -/
theorem Holds.query (h : C.Holds db es) {conditions : List (String × Value J)}
    (hcols : ∀ c ∈ conditions, c.1 ∈ C.columns) (order : List String)
    (ho : ∀ c ∈ order, c ∈ C.columns) (limited : Bool) (rest : List (Value J))
    (henc : (conditions.map Prod.snd ++ rest).all Value.encodable = true) :
    db.query ⟨C.table, C.columns, conditions.map Prod.fst, order, limited⟩
        (conditions.map Prod.snd ++ rest) =
      let rows := ((es.filter fun x => conditions.all fun c =>
        (C.encode x c.1).sqlEq c.2).insertionSort fun x y =>
          Row.precedes order (C.encode x) (C.encode y)).map C.answer
      if limited then limitRows rows (rest.getD 0 .null) else .ok rows := by
  have hnames : ∀ n ∈ C.columns ++ conditions.map Prod.fst ++ order, n ∈ C.columns := by
    intro n hn
    rcases List.mem_append.mp hn with hn | hn
    · rcases List.mem_append.mp hn with hn | hn
      · exact hn
      · obtain ⟨c, hc, rfl⟩ := List.mem_map.mp hn
        exact hcols c hc
    · exact ho n hn
  have hlimit : (conditions.map Prod.snd ++ rest).getD (conditions.map Prod.fst).length .null =
      rest.getD 0 .null := by
    rw [List.length_map, List.getD_append_right _ _ _ _ (by rw [List.length_map]),
      List.length_map, Nat.sub_self]
  have hrows := map_project (forall₂_insertionSort (forall₂_filter_all h.rows hcols) ho)
  have hcheck : db.checkQuery ⟨C.table, C.columns, conditions.map Prod.fst, order, limited⟩
      (conditions.map Prod.snd ++ rest) = .ok () := by
    rw [Db.checkQuery, h.schema]
    show (C.tableDef.requireColumns _ >>= _) = _
    rw [requireColumns_eq hnames]
    exact Db.requireEncodable_of_all henc
  rw [Db.query, hcheck]
  simp only [zip_map_append, hlimit, hrows]

end Codec

end Contexide.Sql
