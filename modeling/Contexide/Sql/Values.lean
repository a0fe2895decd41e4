import Mathlib.Algebra.Group.Int.Defs
import Mathlib.Data.Nat.Notation

/-! Values of a relational database over an arbitrary type of JSON documents, the rows
of its tables, and the rows of its answers, which are read column by column. -/

namespace Contexide.Sql

/-- Column types. -/
inductive SqlType where
  | uuid | text | smallint | int | bigint | boolean | jsonb | timestamptz
  deriving DecidableEq, Repr

inductive Value (J : Type) where
  | null
  | uuid (id : ℕ)
  | text (s : String)
  | int (n : ℤ)
  | bool (b : Bool)
  | json (doc : J)
  | timestamp (t : ℕ)

/-- How a statement, or the reading of its answer, can fail. -/
inductive SqlError where
  | undefinedTable (table : String)
  | duplicateTable (table : String)
  | undefinedColumn (column : String)
  | noUniqueConstraint (column : String)
  | invalidText
  | typeMismatch (column : String)
  | notNullViolation (column : String)
  | checkViolation (column : String)
  | foreignKeyViolation (column : String)
  | uniqueViolation (columns : List String)
  | columnNotFound (column : String)
  | columnDecode (column : String)
  deriving DecidableEq, Repr

variable {J : Type}

namespace Value

/-- A text with the character U+0000 is not accepted as a parameter. -/
def encodable : Value J → Bool
  | .text s => !s.toList.contains '\x00'
  | _ => true

/-- Whether a column of the type can hold the value; the null value fits every type. -/
def hasType : Value J → SqlType → Bool
  | .null, _ => true
  | .uuid _, .uuid => true
  | .text _, .text => true
  | .int n, .smallint => decide (-2 ^ 15 ≤ n ∧ n < 2 ^ 15)
  | .int n, .int => decide (-2 ^ 31 ≤ n ∧ n < 2 ^ 31)
  | .int n, .bigint => decide (-2 ^ 63 ≤ n ∧ n < 2 ^ 63)
  | .bool _, .boolean => true
  | .json _, .jsonb => true
  | .timestamp _, .timestamptz => true
  | _, _ => false

def isNull : Value J → Bool
  | .null => true
  | _ => false

/-- The comparison `=` of a condition. It is never true of a null value; JSON documents
are not compared. -/
def sqlEq : Value J → Value J → Bool
  | .uuid a, .uuid b => a == b
  | .text a, .text b => a == b
  | .int a, .int b => a == b
  | .bool a, .bool b => a == b
  | .timestamp a, .timestamp b => a == b
  | _, _ => false

/-- The comparison of `order by`, on numbers, identifiers and timestamps. -/
def sqlLt : Value J → Value J → Bool
  | .uuid a, .uuid b => decide (a < b)
  | .int a, .int b => decide (a < b)
  | .timestamp a, .timestamp b => decide (a < b)
  | _, _ => false

@[simp] theorem sqlEq_uuid (a b : ℕ) :
    (Value.uuid a : Value J).sqlEq (.uuid b) = decide (a = b) := by
  by_cases h : a = b <;> simp [sqlEq, h]

def asUuid : Value J → Option ℕ
  | .uuid id => some id
  | _ => none

def asText : Value J → Option String
  | .text s => some s
  | _ => none

def asInt16 : Value J → Option Int16
  | .int n => some (Int16.ofInt n)
  | _ => none

def asInt32 : Value J → Option Int32
  | .int n => some (Int32.ofInt n)
  | _ => none

def asInt64 : Value J → Option Int64
  | .int n => some (Int64.ofInt n)
  | _ => none

def asJson : Value J → Option J
  | .json doc => some doc
  | _ => none

def asBool : Value J → Option Bool
  | .bool b => some b
  | _ => none

/-- A column whose null value reads as `none`. -/
def nullable {α : Type} (read : Value J → Option α) : Value J → Option (Option α)
  | .null => some none
  | v => (read v).map some

/-- The value of an optional parameter. -/
def ofOption {α : Type} (f : α → Value J) : Option α → Value J
  | some x => f x
  | none => .null

end Value

/-- A row of a table, by column name. -/
abbrev Row (J : Type) := String → Value J

/-- A row of an answer: the selected columns with their values. -/
abbrev ResultRow (J : Type) := List (String × Value J)

namespace Row

/-- The selected columns of a row. -/
def project (row : Row J) (columns : List String) : ResultRow J :=
  columns.map fun c => (c, row c)

end Row

namespace ResultRow

/-- Read a column, which must be in the answer and hold a value of the right kind. -/
def tryGet {α : Type} (row : ResultRow J) (column : String) (read : Value J → Option α) :
    Except SqlError α :=
  match row.lookup column with
  | none => .error (.columnNotFound column)
  | some v =>
    match read v with
    | none => .error (.columnDecode column)
    | some x => .ok x

theorem lookup_project (row : Row J) (columns : List String) (c : String) :
    (row.project columns).lookup c = if c ∈ columns then some (row c) else none := by
  induction columns with
  | nil => rfl
  | cons d columns ih =>
    rw [Row.project] at ih
    rw [Row.project, List.map_cons, List.lookup_cons]
    by_cases h : c = d
    · subst h
      simp
    · rw [beq_false_of_ne h]
      simp only [List.mem_cons, h, false_or]
      exact ih

theorem tryGet_project {α : Type} {row : Row J} {columns : List String} {c : String}
    {read : Value J → Option α} {x : α} (hc : c ∈ columns) (hx : read (row c) = some x) :
    tryGet (row.project columns) c read = .ok x := by
  rw [tryGet, lookup_project, if_pos hc]
  show (match read (row c) with | none => _ | some x => _) = _
  rw [hx]

/-- Reading a column that was not selected fails. -/
theorem tryGet_project_of_notMem {α : Type} {row : Row J} {columns : List String} {c : String}
    {read : Value J → Option α} (hc : c ∉ columns) :
    tryGet (row.project columns) c read = .error (.columnNotFound c) := by
  rw [tryGet, lookup_project, if_neg hc]

end ResultRow

end Contexide.Sql
