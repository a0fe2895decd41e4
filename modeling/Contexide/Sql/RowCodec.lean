import Contexide.Sql.Statements
import Contexide.Storage.Table

/-! Tables of entities with an identifier, statement by statement, when nothing is known
of their definitions: the rows in the order of creation, and for each entity the row that
keeps it. A statement fails only when an answer row cannot be decoded, and a row that keeps
an entity can. -/

namespace Contexide.Sql

open Storage

variable {J E : Type}

/-- The condition on the identifier. -/
def hasId (k : ℕ) (row : Row J) : Bool := (row "id").sqlEq (.uuid k)

/-- How an entity is kept in a row. -/
structure RowCodec (J E : Type) where
  /-- The columns that a select by identifier and an upsert answer. -/
  columns : List String
  /-- The columns that an upsert sets on a conflict. -/
  assigned : List String
  id : E → ℕ
  row : E → Row J
  fromRow : ResultRow J → Except SqlError E
  row_id : ∀ e, row e "id" = .uuid (id e)
  fromRow_row : ∀ e, fromRow ((row e).project columns) = .ok e
  overwrite_row : ∀ {old e}, id old = id e → (row old).overwrite (row e) assigned = row e

namespace RowCodec

variable (C : RowCodec J E) (rows : List (Row J))

/-- Decode all answer rows, or fail with the first that cannot be decoded. -/
def fromRows : List (ResultRow J) → Except SqlError (List E)
  | [] => .ok []
  | row :: rows => do
    let e ← C.fromRow row
    let es ← fromRows rows
    .ok (e :: es)

/-- `select .. where id = $1` -/
def get (k : ℕ) : Except SqlError (Option E) :=
  match rows.find? (hasId k) with
  | some row => do
    let e ← C.fromRow (row.project C.columns)
    .ok (some e)
  | none => .ok none

/-- `insert .. on conflict (id) do update set .. returning ..`: the stored entity, and the
rows. -/
def save (entity : E) : Except SqlError (E × List (Row J)) :=
  match rows.find? (hasId (C.id entity)) with
  | some old => do
    let e ← C.fromRow ((old.overwrite (C.row entity) C.assigned).project C.columns)
    .ok (e, rows.map fun r =>
      if hasId (C.id entity) r then r.overwrite (C.row entity) C.assigned else r)
  | none => do
    let e ← C.fromRow ((C.row entity).project C.columns)
    .ok (e, rows ++ [C.row entity])

/-- `select .. where column = $1 order by ..`, where the order ends with the identifier
and otherwise is that of creation. -/
def list (column : String) (v : Value J) (orderBy : List String) : Except SqlError (List E) :=
  C.fromRows (((rows.filter fun r => (r column).sqlEq v).insertionSort fun r r' =>
    Row.precedes orderBy r r').map fun r => r.project C.columns)

/-! ### On the rows of entities -/

variable {C}

theorem hasId_row (e : E) (k : ℕ) : hasId k (C.row e) = decide (C.id e = k) := by
  rw [hasId, C.row_id, Value.sqlEq_uuid]

theorem fromRows_row (es : List E) :
    C.fromRows (es.map fun e => (C.row e).project C.columns) = .ok es := by
  induction es with
  | nil => rfl
  | cons e es ih =>
    rw [List.map_cons, fromRows, C.fromRow_row, ih]
    rfl

theorem find?_rows (es : List E) (k : ℕ) :
    (es.map C.row).find? (hasId k) = (es.find? fun e => C.id e = k).map C.row := by
  rw [List.find?_map]
  congr 2
  funext e
  exact hasId_row e k

section

variable {K : Type} [DecidableEq K] {key : E → K} (hkey : ∀ e k, C.id e = C.id k ↔ key e = key k)

include hkey

/-- A save of an entity is a save of its row. -/
theorem save_rows (t : Table key) (e : E) :
    C.save (t.rows.map C.row) e = .ok (e, (t.save e).rows.map C.row) := by
  rw [save, find?_rows]
  cases hfind : t.rows.find? fun u => C.id u = C.id e with
  | none =>
    have hno : ¬ t.Has (key e) := by
      rintro ⟨u, hu, hk⟩
      have := List.find?_eq_none.mp hfind u hu
      simp [(hkey u e).mpr hk] at this
    rw [Table.rows_save_of_not_has hno, List.map_append]
    show (C.fromRow ((C.row e).project C.columns) >>= fun e => Except.ok (e, _)) = _
    rw [C.fromRow_row]
    rfl
  | some old =>
    have hid : C.id old = C.id e := by simpa using List.find?_some hfind
    have hmem : old ∈ t.rows := List.mem_of_find?_eq_some hfind
    have hrows : (t.save e).rows = t.rows.map fun u => if key u = key e then e else u :=
      upsert_eq_map key e t.rows t.nodup ⟨old, hmem, (hkey old e).mp hid⟩
    show (C.fromRow (((C.row old).overwrite (C.row e) C.assigned).project C.columns) >>=
      fun e => Except.ok (e, _)) = _
    rw [C.overwrite_row hid, C.fromRow_row, hrows]
    refine congrArg (fun rows => Except.ok (e, rows)) ?_
    rw [List.map_map, List.map_map]
    refine List.map_congr_left fun u _ => ?_
    by_cases hu : C.id u = C.id e
    · simp only [Function.comp, hasId_row, hu, decide_true, if_true, C.overwrite_row hu,
        (hkey u e).mp hu]
    · simp only [Function.comp, hasId_row, hu, decide_false, Bool.false_eq_true, if_false,
        mt (hkey u e).mpr hu]

end

/-- What is selected by identifier is decoded to the entity. -/
theorem get_rows {K : Type} [DecidableEq K] {key : E → K} (t : Table key) {i : ℕ} {k : K}
    (hkey : ∀ e, C.id e = i ↔ key e = k) : C.get (t.rows.map C.row) i = .ok (t.get k) := by
  have hfind : (t.rows.find? fun e => C.id e = i) = t.get k := by
    rw [Table.get]
    congr 1
    funext e
    exact decide_eq_decide.mpr (hkey e)
  rw [get, find?_rows, hfind]
  cases t.get k with
  | none => rfl
  | some e =>
    show (C.fromRow ((C.row e).project C.columns) >>= fun e => Except.ok (some e)) = _
    rw [C.fromRow_row]
    rfl

end RowCodec

end Contexide.Sql
