import Mathlib.Data.Nat.Notation

/-! JSON values as `serde_json` keeps them: numbers are unsigned, negative or
floating point, and an object is its entries in the order of the map, which is
the order of their keys unless the map keeps insertion order. -/

namespace Contexide

inductive JsonNumber where
  | posInt (n : UInt64)
  | negInt (n : Int64) (neg : n < 0)
  | float (bits : UInt64)
  deriving DecidableEq, Repr

namespace JsonNumber

/-- The number of an `i64`. -/
def ofI64 (i : Int64) : JsonNumber :=
  if h : i < 0 then .negInt i h else .posInt i.toUInt64

/-- `Number::as_i64`: the number when it is an integer that fits. -/
def asI64 : JsonNumber → Option Int64
  | .posInt n => if n ≤ 9223372036854775807 then some n.toInt64 else none
  | .negInt n _ => some n
  | .float _ => none

/-- `Number::as_f64`, as bits. -/
def asF64 : JsonNumber → Option UInt64
  | .posInt n => some n.toFloat.toBits
  | .negInt n _ => some n.toFloat.toBits
  | .float bits => some bits

theorem toInt64_neg_iff (n : UInt64) : n.toInt64 < 0 ↔ ¬ n ≤ 9223372036854775807 := by
  rw [Int64.lt_iff_toInt_lt, UInt64.le_iff_toNat_le]
  have hint : n.toInt64.toInt = n.toBitVec.toInt := rfl
  have hnat : n.toBitVec.toNat = n.toNat := rfl
  rw [hint, BitVec.toInt_eq_toNat_cond, hnat]
  have hlt := n.toNat_lt
  split
  · simp
    omega
  · simp
    omega

@[simp] theorem asI64_ofI64 (i : Int64) : (ofI64 i).asI64 = some i := by
  unfold ofI64
  split
  · rfl
  · next h =>
    have hle : i.toUInt64 ≤ 9223372036854775807 := by
      rw [← Int64.toInt64_toUInt64 i, toInt64_neg_iff] at h
      exact Decidable.not_not.mp h
    rw [asI64, if_pos hle, Int64.toInt64_toUInt64]

/-- A number that reads as an `i64` is the number of it. -/
theorem asI64_eq_some {n : JsonNumber} {i : Int64} : n.asI64 = some i ↔ n = ofI64 i := by
  constructor
  · intro h
    cases n with
    | posInt n =>
      obtain ⟨hle, rfl⟩ : n ≤ 9223372036854775807 ∧ n.toInt64 = i := by
        simpa [asI64] using h
      rw [ofI64, dif_neg fun hneg => (toInt64_neg_iff n).mp hneg hle, UInt64.toUInt64_toInt64]
    | negInt n neg =>
      obtain rfl : n = i := by simpa [asI64] using h
      rw [ofI64, dif_pos neg]
    | float bits => simp [asI64] at h
  · rintro rfl
    exact asI64_ofI64 i

theorem ofI64_inj {i j : Int64} (h : ofI64 i = ofI64 j) : i = j := by
  have hi := asI64_ofI64 i
  rw [h, asI64_ofI64, Option.some.injEq] at hi
  exact hi.symm

theorem float_ne_ofI64 (bits : UInt64) (i : Int64) : float bits ≠ ofI64 i := by
  unfold ofI64
  split <;> simp

end JsonNumber

inductive Json where
  | null
  | bool (b : Bool)
  | number (n : JsonNumber)
  | string (s : String)
  | array (items : List Json)
  | object (entries : List (String × Json))

namespace Json

/-- `Value::get` with a string index: the entry of an object. -/
def get : Json → String → Option Json
  | .object entries, key => entries.lookup key
  | _, _ => none

def asArray : Json → Option (List Json)
  | .array items => some items
  | _ => none

def asStr : Json → Option String
  | .string s => some s
  | _ => none

/-- `Value::as_u64`: the number when it is kept as an unsigned one. -/
def asU64 : Json → Option UInt64
  | .number (.posInt n) => some n
  | _ => none

/-- An optional string as `json!` writes it. -/
def ofOptionStr : Option String → Json
  | some s => .string s
  | none => .null

end Json

end Contexide
