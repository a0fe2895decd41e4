import Contexide.Sql.Schema
import Mathlib.Data.List.Sort
import Mathlib.Logic.Function.Basic

/-! Statements over one table with positional parameters, as executed: columns and
parameters are checked first, then the constraints of the rows to be stored, and a
statement that fails changes nothing. A delete leaves the rows of other tables alone. -/

namespace Contexide.Sql

/-- A database: table definitions, the rows of each table, and the time. -/
structure Db (J : Type) where
  schema : Schema J
  rows : String → List (Row J)
  clock : ℕ

/-- `insert into table (columns) values ($1, ..)`, where a conflict on the target column
updates the listed columns of the stored row from the excluded one. -/
structure Insert where
  table : String
  columns : List String
  onConflict : Option (String × List String)
  returning : List String

/-- `update table set column = $n, .. where column = $1`. -/
structure Update where
  table : String
  set : List (String × ℕ)
  whereColumn : String

/-- `delete from table where column = $1`. -/
structure Delete where
  table : String
  whereColumn : String

/-- `select columns from table where column = $1 order by ..`. -/
structure Select where
  table : String
  columns : List String
  whereColumn : String
  orderBy : List String

variable {J : Type}

namespace Row

/-- The row that an insert proposes: the parameters, and defaults elsewhere. -/
def proposed (t : TableDef J) (columns : List String) (params : List (Value J)) (now : ℕ) : Row J :=
  fun c =>
    match (columns.zip params).lookup c with
    | some v => v
    | none => t.defaultValue c now

/-- The stored row with the listed columns taken from the excluded row. -/
def overwrite (old excluded : Row J) (columns : List String) : Row J :=
  fun c => if c ∈ columns then excluded c else old c

/-- The row with the listed columns set to parameters, counted from one. -/
def assign (row : Row J) (set : List (String × ℕ)) (params : List (Value J)) : Row J :=
  fun c =>
    match set.lookup c with
    | some n => params.getD (n - 1) .null
    | none => row c

/-- Lexicographic order of the listed columns. -/
def precedes : List String → Row J → Row J → Bool
  | [], _, _ => true
  | c :: cs, r, r' => (r c).sqlLt (r' c) || (!(r' c).sqlLt (r c) && precedes cs r r')

end Row

namespace Db

/-- What a value violates of its column's own definition. -/
def cellViolations (c : Column J) (v : Value J) : List SqlError :=
  (if v.hasType c.type then [] else [.typeMismatch c.name]) ++
    (if c.notNull && v.isNull then [.notNullViolation c.name] else []) ++
    match c.check with
    | some check => if check.admits v then [] else [.checkViolation c.name]
    | none => []

/-- The referenced row must exist. -/
def referenceViolations (db : Db J) (c : Column J) (v : Value J) : List SqlError :=
  match c.references with
  | some target =>
    if v.isNull || (db.rows target).any fun r => (r "id").sqlEq v then []
    else [.foreignKeyViolation c.name]
  | none => []

/-- A reference to a stored row. -/
theorem referenceViolations_eq_nil {db : Db J} {c : Column J} {target : String} {k : ℕ}
    (hc : c.references = some target) (h : ∃ r ∈ db.rows target, r "id" = .uuid k) :
    db.referenceViolations c (.uuid k) = [] := by
  obtain ⟨r, hr, hid⟩ := h
  have hany : (db.rows target).any (fun r => (r "id").sqlEq (.uuid k)) = true :=
    List.any_eq_true.mpr ⟨r, hr, by rw [hid, Value.sqlEq_uuid, decide_eq_true_eq]⟩
  unfold referenceViolations
  rw [hc]
  show (if _ || (db.rows target).any _ then _ else _) = _
  rw [hany, Bool.or_true, if_pos rfl]

/-- Two rows agree in all columns of a unique set. -/
def collide (columns : List String) (r r' : Row J) : Bool :=
  columns.all fun c => (r c).sqlEq (r' c)

def uniqueViolations (t : TableDef J) (rows : List (Row J)) : List SqlError :=
  t.unique.filterMap fun columns =>
    if rows.Pairwise fun r r' => collide columns r r' = false then none
    else some (.uniqueViolation columns)

/-- Store `rows` in a table, of which `changed` are new or updated. The rows in `proposed`
are checked by themselves but not stored. -/
def store (db : Db J) (name : String) (t : TableDef J) (proposed changed rows : List (Row J)) :
    Except SqlError (Db J) :=
  match ((proposed ++ changed).flatMap fun r => t.columns.flatMap fun c =>
        cellViolations c (r c.name)) ++
      (changed.flatMap fun r => t.columns.flatMap fun c =>
        db.referenceViolations c (r c.name)) ++
      uniqueViolations t rows with
  | [] => .ok { db with rows := Function.update db.rows name rows, clock := db.clock + 1 }
  | e :: _ => .error e

/-- The parameters can be sent. -/
def requireEncodable (params : List (Value J)) : Except SqlError Unit :=
  if params.all Value.encodable then .ok () else .error .invalidText

def insert (db : Db J) (s : Insert) (params : List (Value J)) :
    Except SqlError (Db J × ResultRow J) := do
  let t ← db.schema.table s.table
  t.requireColumns (s.columns ++ (s.onConflict.elim [] fun c => c.1 :: c.2) ++ s.returning)
  requireEncodable params
  let row := Row.proposed t s.columns params db.clock
  match s.onConflict with
  | none =>
    let db' ← db.store s.table t [] [row] (db.rows s.table ++ [row])
    .ok (db', row.project s.returning)
  | some (target, set) =>
    if ¬ [target] ∈ t.unique then .error (.noUniqueConstraint target)
    else
      match (db.rows s.table).find? fun r => (r target).sqlEq (row target) with
      | none =>
        let db' ← db.store s.table t [] [row] (db.rows s.table ++ [row])
        .ok (db', row.project s.returning)
      | some old =>
        let new := old.overwrite row set
        let rows := (db.rows s.table).map fun r =>
          if (r target).sqlEq (row target) then new else r
        let db' ← db.store s.table t [row] [new] rows
        .ok (db', new.project s.returning)

/-- The database after the update and the number of affected rows. -/
def update (db : Db J) (s : Update) (params : List (Value J)) : Except SqlError (Db J × ℕ) := do
  let t ← db.schema.table s.table
  t.requireColumns (s.set.map Prod.fst ++ [s.whereColumn])
  requireEncodable params
  let hit : Row J → Bool := fun r => (r s.whereColumn).sqlEq (params.getD 0 .null)
  let changed := ((db.rows s.table).filter hit).map fun r => r.assign s.set params
  let rows := (db.rows s.table).map fun r => if hit r then r.assign s.set params else r
  let db' ← db.store s.table t [] changed rows
  .ok (db', changed.length)

/-- The database after the delete and the number of affected rows. -/
def delete (db : Db J) (s : Delete) (params : List (Value J)) : Except SqlError (Db J × ℕ) := do
  let t ← db.schema.table s.table
  t.requireColumns [s.whereColumn]
  requireEncodable params
  let hit : Row J → Bool := fun r => (r s.whereColumn).sqlEq (params.getD 0 .null)
  .ok
    ({ db with
        rows := Function.update db.rows s.table ((db.rows s.table).filter fun r => !hit r)
        clock := db.clock + 1 },
      ((db.rows s.table).filter hit).length)

def select (db : Db J) (s : Select) (params : List (Value J)) :
    Except SqlError (List (ResultRow J)) := do
  let t ← db.schema.table s.table
  t.requireColumns (s.columns ++ [s.whereColumn] ++ s.orderBy)
  requireEncodable params
  let hit : Row J → Bool := fun r => (r s.whereColumn).sqlEq (params.getD 0 .null)
  let rows := ((db.rows s.table).filter hit).insertionSort fun r r' => r.precedes s.orderBy r'
  .ok (rows.map fun r => r.project s.columns)

theorem requireEncodable_of_all {params : List (Value J)}
    (h : params.all Value.encodable = true) : requireEncodable params = .ok () := if_pos h

theorem requireEncodable_invalid {params : List (Value J)}
    (h : params.all Value.encodable = false) : requireEncodable params = .error .invalidText := by
  rw [requireEncodable, h]
  rfl

/-! What an insert does once its columns and parameters are accepted, without a conflict
clause, with one and a new key, and with one and a key that is taken. -/

section Insert

variable {db db' : Db J} {s : Insert} {t : TableDef J} {params : List (Value J)} {row old : Row J}
  {target : String} {set : List String}

/-- Without a conflict clause the row is stored or the insert fails as storing does. -/
theorem insert_plain_eq (ht : db.schema.table s.table = .ok t)
    (hcols : t.requireColumns (s.columns ++ (s.onConflict.elim [] fun c => c.1 :: c.2) ++
      s.returning) = .ok ()) (henc : requireEncodable params = .ok ())
    (hconflict : s.onConflict = none) (hrow : Row.proposed t s.columns params db.clock = row) :
    db.insert s params = (db.store s.table t [] [row] (db.rows s.table ++ [row])).map
      fun db' => (db', row.project s.returning) := by
  rw [hconflict] at hcols
  simp only [insert, ht, hconflict, hcols, henc, hrow, bind, Except.bind]
  cases db.store s.table t [] [row] (db.rows s.table ++ [row]) with
  | error e => rfl
  | ok db' => rfl

theorem insert_plain (ht : db.schema.table s.table = .ok t)
    (hcols : t.requireColumns (s.columns ++ (s.onConflict.elim [] fun c => c.1 :: c.2) ++
      s.returning) = .ok ()) (henc : requireEncodable params = .ok ())
    (hconflict : s.onConflict = none) (hrow : Row.proposed t s.columns params db.clock = row)
    (hstore : db.store s.table t [] [row] (db.rows s.table ++ [row]) = .ok db') :
    db.insert s params = .ok (db', row.project s.returning) := by
  rw [insert_plain_eq ht hcols henc hconflict hrow, hstore]
  rfl

/-- Parameters that cannot be sent fail the insert before anything is stored. -/
theorem insert_unsendable (ht : db.schema.table s.table = .ok t)
    (hcols : t.requireColumns (s.columns ++ (s.onConflict.elim [] fun c => c.1 :: c.2) ++
      s.returning) = .ok ()) (henc : requireEncodable params = .error .invalidText) :
    db.insert s params = .error .invalidText := by
  simp only [insert, ht, hcols, henc, bind, Except.bind]

/-- With a conflict clause and a new key the row is stored or the insert fails as storing
does. -/
theorem insert_fresh_eq (ht : db.schema.table s.table = .ok t)
    (hcols : t.requireColumns (s.columns ++ (s.onConflict.elim [] fun c => c.1 :: c.2) ++
      s.returning) = .ok ()) (henc : requireEncodable params = .ok ())
    (hconflict : s.onConflict = some (target, set)) (hunique : [target] ∈ t.unique)
    (hrow : Row.proposed t s.columns params db.clock = row)
    (hfind : (db.rows s.table).find? (fun r => (r target).sqlEq (row target)) = none) :
    db.insert s params = (db.store s.table t [] [row] (db.rows s.table ++ [row])).map
      fun db' => (db', row.project s.returning) := by
  rw [hconflict] at hcols
  simp only [insert, ht, hconflict, hcols, henc, hrow, hunique, hfind, bind, Except.bind,
    not_true, if_false]
  cases db.store s.table t [] [row] (db.rows s.table ++ [row]) with
  | error e => rfl
  | ok db' => rfl

theorem insert_fresh (ht : db.schema.table s.table = .ok t)
    (hcols : t.requireColumns (s.columns ++ (s.onConflict.elim [] fun c => c.1 :: c.2) ++
      s.returning) = .ok ()) (henc : requireEncodable params = .ok ())
    (hconflict : s.onConflict = some (target, set)) (hunique : [target] ∈ t.unique)
    (hrow : Row.proposed t s.columns params db.clock = row)
    (hfind : (db.rows s.table).find? (fun r => (r target).sqlEq (row target)) = none)
    (hstore : db.store s.table t [] [row] (db.rows s.table ++ [row]) = .ok db') :
    db.insert s params = .ok (db', row.project s.returning) := by
  rw [hconflict] at hcols
  simp only [insert, ht, hconflict, hcols, henc, hrow, hunique, hfind, hstore, bind, Except.bind,
    not_true, if_false]

theorem insert_taken (ht : db.schema.table s.table = .ok t)
    (hcols : t.requireColumns (s.columns ++ (s.onConflict.elim [] fun c => c.1 :: c.2) ++
      s.returning) = .ok ()) (henc : requireEncodable params = .ok ())
    (hconflict : s.onConflict = some (target, set)) (hunique : [target] ∈ t.unique)
    (hrow : Row.proposed t s.columns params db.clock = row)
    (hfind : (db.rows s.table).find? (fun r => (r target).sqlEq (row target)) = some old)
    (hstore : db.store s.table t [row] [old.overwrite row set] ((db.rows s.table).map fun r =>
      if (r target).sqlEq (row target) then old.overwrite row set else r) = .ok db') :
    db.insert s params = .ok (db', (old.overwrite row set).project s.returning) := by
  rw [hconflict] at hcols
  simp only [insert, ht, hconflict, hcols, henc, hrow, hunique, hfind, hstore, bind, Except.bind,
    not_true, if_false]

end Insert

/-! What a selection does, and the form it has without an order. -/

section Select

variable {db : Db J} {s : Select} {t : TableDef J} {params : List (Value J)}

theorem select_eq (ht : db.schema.table s.table = .ok t)
    (hcols : t.requireColumns (s.columns ++ [s.whereColumn] ++ s.orderBy) = .ok ())
    (henc : params.all Value.encodable = true) :
    db.select s params =
      .ok ((((db.rows s.table).filter fun r =>
        (r s.whereColumn).sqlEq (params.getD 0 .null)).insertionSort fun r r' =>
          r.precedes s.orderBy r').map fun r => r.project s.columns) := by
  simp only [select, ht, hcols, requireEncodable_of_all henc, bind, Except.bind]

/-- Rows without an order come as they are stored. -/
theorem insertionSort_precedes_nil {α : Type} (f : α → Row J) (xs : List α) :
    (xs.insertionSort fun x y => (f x).precedes [] (f y) = true) = xs :=
  List.Pairwise.insertionSort_eq (List.pairwise_of_forall fun _ _ => rfl)

theorem select_invalid (ht : db.schema.table s.table = .ok t)
    (hcols : t.requireColumns (s.columns ++ [s.whereColumn] ++ s.orderBy) = .ok ())
    (henc : params.all Value.encodable = false) : db.select s params = .error .invalidText := by
  simp only [select, ht, hcols, requireEncodable_invalid henc, bind, Except.bind]

/-- Every answer row is that of a row that was asked for. -/
theorem exists_of_mem_select {answer : List (ResultRow J)} (h : db.select s params = .ok answer)
    {a : ResultRow J} (ha : a ∈ answer) : ∃ r ∈ db.rows s.table,
      (r s.whereColumn).sqlEq (params.getD 0 .null) = true ∧ a = r.project s.columns := by
  rw [select] at h
  cases ht : db.schema.table s.table with
  | error e =>
    rw [ht] at h
    cases h
  | ok t =>
    cases hcols : t.requireColumns (s.columns ++ [s.whereColumn] ++ s.orderBy) with
    | error e =>
      simp only [ht, hcols, bind, Except.bind] at h
      cases h
    | ok _ =>
      cases henc : requireEncodable params with
      | error e =>
        simp only [ht, hcols, henc, bind, Except.bind] at h
        cases h
      | ok _ =>
        simp only [ht, hcols, henc, bind, Except.bind, Except.ok.injEq] at h
        rw [← h] at ha
        obtain ⟨r, hr, rfl⟩ := List.mem_map.mp ha
        rw [List.mem_insertionSort, List.mem_filter] at hr
        exact ⟨r, hr.1, hr.2, rfl⟩

end Select

/-! A statement that names a column which its table lacks fails. -/

section Undefined

variable {db : Db J} {t : TableDef J} {e : SqlError}

theorem insert_undefined {s : Insert} (ht : db.schema.table s.table = .ok t)
    (he : t.requireColumns (s.columns ++ (s.onConflict.elim [] fun c => c.1 :: c.2) ++
      s.returning) = .error e) (params : List (Value J)) : db.insert s params = .error e := by
  rw [insert, ht]
  show (t.requireColumns _ >>= _) = _
  rw [he]
  rfl

theorem select_undefined {s : Select} (ht : db.schema.table s.table = .ok t)
    (he : t.requireColumns (s.columns ++ [s.whereColumn] ++ s.orderBy) = .error e)
    (params : List (Value J)) : db.select s params = .error e := by
  rw [select, ht]
  show (t.requireColumns _ >>= _) = _
  rw [he]
  rfl

end Undefined

end Db

end Contexide.Sql
