import Contexide.Sql.Values

/-! Table definitions with their constraints, the statements that change them, and
migrations: lists of such statements that are applied as a whole or not at all. -/

namespace Contexide.Sql

/-- The default of a column; `now` is the time of the statement. -/
inductive Default (J : Type) where
  | now
  | const (v : Value J)

/-- Check constraints on a single column. A null value passes every check. -/
inductive Check where
  | oneOf (texts : List String)
  | nonneg
  deriving DecidableEq, Repr

structure Column (J : Type) where
  name : String
  type : SqlType
  notNull : Bool := false
  default : Option (Default J) := none
  check : Option Check := none
  /-- The table whose `id` column the values refer to. -/
  references : Option String := none

/-- Columns and the sets of columns that are unique together, the primary key among them. -/
structure TableDef (J : Type) where
  columns : List (Column J)
  unique : List (List String)

/-- The table definitions by name. -/
abbrev Schema (J : Type) := List (String × TableDef J)

/-- Statements that define tables. -/
inductive Ddl (J : Type) where
  | createTable (name : String) (ifNotExists : Bool) (table : TableDef J)
  | addColumnsIfNotExist (table : String) (columns : List (Column J))
  | addForeignKey (table column references : String)
  | createIndex (table : String) (columns : List String) (unique : Bool)

variable {J : Type}

namespace Check

def admits : Check → Value J → Bool
  | .oneOf texts, .text s => texts.contains s
  | .nonneg, .int n => decide (0 ≤ n)
  | _, .null => true
  | _, _ => false

end Check

namespace TableDef

def column (t : TableDef J) (name : String) : Option (Column J) :=
  t.columns.find? fun c => c.name == name

/-- What a column takes when a statement at time `now` does not mention it. -/
def defaultValue (t : TableDef J) (name : String) (now : ℕ) : Value J :=
  match (t.column name).bind Column.default with
  | some .now => .timestamp now
  | some (.const v) => v
  | none => .null

/-- The names among `names` that are not columns of the table. -/
def undefined (t : TableDef J) (names : List String) : List String :=
  names.filter fun n => !(t.columns.any fun c => c.name == n)

/-- Every name is a column, or the first that is not is reported. -/
def requireColumns (t : TableDef J) (names : List String) : Except SqlError Unit :=
  match t.undefined names with
  | [] => .ok ()
  | n :: _ => .error (.undefinedColumn n)

/-- Which names are undefined depends on the names of the columns alone. -/
theorem requireColumns_congr {t t' : TableDef J}
    (h : t.columns.map Column.name = t'.columns.map Column.name) (names : List String) :
    t.requireColumns names = t'.requireColumns names := by
  have hany : ∀ n, (t.columns.any fun c => c.name == n) = t'.columns.any fun c => c.name == n := by
    intro n
    have hmap : ∀ cs : List (Column J),
        (cs.any fun c => c.name == n) = (cs.map Column.name).any fun m => m == n := by
      intro cs
      rw [List.any_map]
      rfl
    rw [hmap, hmap, h]
  simp only [requireColumns, undefined, hany]

end TableDef

namespace Schema

def table (s : Schema J) (name : String) : Except SqlError (TableDef J) :=
  match s.lookup name with
  | some t => .ok t
  | none => .error (.undefinedTable name)

/-- The schema with another definition of an existing table. -/
def redefine (s : Schema J) (name : String) (t : TableDef J) : Schema J :=
  s.map fun e => if e.1 = name then (name, t) else e

/-- Every referenced table exists. -/
def requireTables (s : Schema J) (names : List String) : Except SqlError Unit :=
  match names.filter fun n => (s.lookup n).isNone with
  | [] => .ok ()
  | n :: _ => .error (.undefinedTable n)

def apply (s : Schema J) : Ddl J → Except SqlError (Schema J)
  | .createTable name ifNotExists t =>
    if (s.lookup name).isSome then
      if ifNotExists then .ok s else .error (.duplicateTable name)
    else do
      s.requireTables (t.columns.filterMap Column.references)
      t.requireColumns t.unique.flatten
      .ok (s ++ [(name, t)])
  | .addColumnsIfNotExist name columns => do
    let t ← s.table name
    let fresh := columns.filter fun c => (t.column c.name).isNone
    s.requireTables (fresh.filterMap Column.references)
    .ok (s.redefine name { t with columns := t.columns ++ fresh })
  | .addForeignKey name column references => do
    let t ← s.table name
    t.requireColumns [column]
    s.requireTables [references]
    .ok (s.redefine name
      { t with
        columns := t.columns.map fun c =>
          if c.name = column then { c with references := some references } else c })
  | .createIndex name columns unique => do
    let t ← s.table name
    t.requireColumns columns
    .ok (if unique then s.redefine name { t with unique := t.unique ++ [columns] } else s)

/-- The statements of one migration. -/
def applyAll (s : Schema J) : List (Ddl J) → Except SqlError (Schema J)
  | [] => .ok s
  | d :: ds => do
    let s' ← s.apply d
    applyAll s' ds

/-- Apply migrations in order. A migration that fails changes nothing and ends the run;
the schema reached is returned with its error. -/
def migrate (s : Schema J) : List (List (Ddl J)) → Schema J × Option SqlError
  | [] => (s, none)
  | m :: ms =>
    match s.applyAll m with
    | .ok s' => migrate s' ms
    | .error e => (s, some e)

end Schema

end Contexide.Sql
