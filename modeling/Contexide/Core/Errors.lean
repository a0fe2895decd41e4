/-! The error type that the crates share, where a wrapped error is its text, decoders that
fail with it, and passes over lists that do not fail. -/

namespace Contexide

inductive Error where
  | io (text : String)
  | json (text : String)
  | notFound (what : String)
  | db (text : String)
  | other (text : String)
  deriving DecidableEq, Repr

/-- How an error is shown: a wrapped one as itself, the others behind their kind. -/
def Error.display : Error → String
  | .io text => "io error: " ++ text
  | .json text => "json error: " ++ text
  | .notFound what => "not found: " ++ what
  | .db text => "database error: " ++ text
  | .other text => text

/-- The decoder on one well-formed payload and on the empty one. -/
def decodeText {α : Type} (text : List UInt8) (value : α) (data : List UInt8) : Except Error α :=
  if data = text then .ok value else .error (.json "EOF while parsing a value at line 1 column 0")

theorem decodeText_self {α : Type} (text : List UInt8) (value : α) :
    decodeText text value text = .ok value := if_pos rfl

/-- A pass over a list that succeeds on each of its elements. -/
theorem mapM_of_forall {α β ε : Type} {f : α → Except ε β} {g : α → β} {xs : List α}
    (h : ∀ x ∈ xs, f x = .ok (g x)) : xs.mapM f = .ok (xs.map g) := by
  induction xs with
  | nil => rfl
  | cons x xs ih =>
    rw [List.mapM_cons, h x List.mem_cons_self, ih fun y hy => h y (List.mem_cons_of_mem _ hy)]
    rfl

end Contexide
