import Contexide.Core.Json
import Mathlib.Data.List.Forall2

/-! Payload values as the vector store keeps them, and their translation from and
to JSON. The text of a JSON value belongs to `serde_json`, so it is a parameter. -/

namespace Contexide.Vector

/-- `qdrant::Value`; `unset` has no kind. The fields of a struct are those of a
map, listed by key. -/
inductive Value where
  | unset
  | nullValue
  | boolValue (b : Bool)
  | integerValue (i : Int64)
  | doubleValue (bits : UInt64)
  | stringValue (s : String)
  | listValue (values : List Value)
  | structValue (fields : List (String × Value))

section

variable (text : Json → String)

mutual

/-- serde_json::Value -> qdrant::Value. -/
def jsonToQdrantValue : Json → Value
  | .null => .nullValue
  | .bool b => .boolValue b
  | .number n =>
    match n.asI64 with
    | some i => .integerValue i
    | none =>
      match n.asF64 with
      | some f => .doubleValue f
      | none => .nullValue
  | .string s => .stringValue s
  -- an array is kept as an array of strings
  | .array arr => .listValue (arr.map fun x => .stringValue (text x))
  | .object obj => .structValue (fieldsToQdrant obj)

def fieldsToQdrant : List (String × Json) → List (String × Value)
  | [] => []
  | (k, v) :: obj => (k, jsonToQdrantValue v) :: fieldsToQdrant obj

end

end

mutual

/-- The client's `into_json`: each kind to the JSON constructor of its name. -/
def Value.intoJson : Value → Json
  | .unset => .null
  | .nullValue => .null
  | .boolValue b => .bool b
  | .integerValue i => .number (.ofI64 i)
  | .doubleValue bits => .number (.float bits)
  | .stringValue s => .string s
  | .listValue values => .array (valuesIntoJson values)
  | .structValue fields => .object (fieldsIntoJson fields)

def valuesIntoJson : List Value → List Json
  | [] => []
  | v :: values => v.intoJson :: valuesIntoJson values

def fieldsIntoJson : List (String × Value) → List (String × Json)
  | [] => []
  | (k, v) :: fields => (k, v.intoJson) :: fieldsIntoJson fields

end

namespace Value

theorem intoJson_eq_string {q : Value} {s : String} :
    q.intoJson = .string s ↔ q = .stringValue s := by
  cases q <;> simp [intoJson]

theorem intoJson_eq_bool {q : Value} {b : Bool} : q.intoJson = .bool b ↔ q = .boolValue b := by
  cases q <;> simp [intoJson]

theorem intoJson_eq_i64 {q : Value} {i : Int64} :
    q.intoJson = .number (.ofI64 i) ↔ q = .integerValue i := by
  cases q with
  | integerValue j =>
    simp only [intoJson, Json.number.injEq, integerValue.injEq]
    exact ⟨JsonNumber.ofI64_inj, fun h => h ▸ rfl⟩
  | doubleValue bits => simp [intoJson, JsonNumber.float_ne_ofI64]
  | _ => simp [intoJson]

end Value

theorem lookup_fieldsIntoJson (fields : List (String × Value)) (k : String) :
    (fieldsIntoJson fields).lookup k = (fields.lookup k).map Value.intoJson := by
  induction fields with
  | nil => rfl
  | cons e fields ih =>
    obtain ⟨k', v⟩ := e
    rw [fieldsIntoJson, List.lookup_cons, List.lookup_cons, ih]
    split <;> rfl

/-! ### What comes back -/

mutual

/-- Every number is an integer in the range of `i64`. -/
def IntegersFit : Json → Prop
  | .number n => ∃ i, n = .ofI64 i
  | .array arr => ItemsFit arr
  | .object obj => EntriesFit obj
  | .null | .bool _ | .string _ => True

def ItemsFit : List Json → Prop
  | [] => True
  | x :: arr => IntegersFit x ∧ ItemsFit arr

def EntriesFit : List (String × Json) → Prop
  | [] => True
  | (_, v) :: obj => IntegersFit v ∧ EntriesFit obj

end

section

variable (text : Json → String)

mutual

/-- What comes back for a value: the same, but an array as strings, which are the
texts of its elements; how a string element is written is left open. -/
def ReadsBack : Json → Json → Prop
  | .array arr, j => ∃ strings : List String, j = .array (strings.map .string) ∧
    List.Forall₂ (fun x s => x.asStr = none → s = text x) arr strings
  | .object obj, j => ∃ obj', j = .object obj' ∧ EntriesReadBack obj obj'
  | v, j => j = v

def EntriesReadBack : List (String × Json) → List (String × Json) → Prop
  | [], obj' => obj' = []
  | (k, v) :: obj, obj' => ∃ v' rest, obj' = (k, v') :: rest ∧ ReadsBack v v' ∧
    EntriesReadBack obj rest

end

theorem valuesIntoJson_strings (strings : List String) :
    valuesIntoJson (strings.map .stringValue) = strings.map .string := by
  induction strings with
  | nil => rfl
  | cons s strings ih => rw [List.map_cons, valuesIntoJson, ih, Value.intoJson, List.map_cons]

mutual

theorem readsBack_intoJson (v : Json) (h : IntegersFit v) :
    ReadsBack text v (jsonToQdrantValue text v).intoJson := by
  cases v with
  | null => rfl
  | bool b => rfl
  | string s => rfl
  | number n =>
    obtain ⟨i, rfl⟩ : ∃ i, n = .ofI64 i := by simpa only [IntegersFit] using h
    simp only [jsonToQdrantValue, JsonNumber.asI64_ofI64, Value.intoJson, ReadsBack]
  | array arr =>
    rw [ReadsBack, jsonToQdrantValue, Value.intoJson]
    refine ⟨arr.map text, ?_, ?_⟩
    · rw [← valuesIntoJson_strings, List.map_map]
      rfl
    · rw [List.forall₂_map_right_iff]
      exact List.forall₂_same.mpr fun x _ _ => rfl
  | object obj =>
    rw [ReadsBack, jsonToQdrantValue, Value.intoJson]
    exact ⟨_, rfl, entriesReadBack_fields obj (by simpa only [IntegersFit] using h)⟩

theorem entriesReadBack_fields (obj : List (String × Json)) (h : EntriesFit obj) :
    EntriesReadBack text obj (fieldsIntoJson (fieldsToQdrant text obj)) := by
  cases obj with
  | nil => rfl
  | cons e obj =>
    obtain ⟨k, v⟩ := e
    rw [EntriesFit] at h
    rw [EntriesReadBack, fieldsToQdrant, fieldsIntoJson]
    exact ⟨_, _, rfl, readsBack_intoJson v h.1, entriesReadBack_fields obj h.2⟩

end

end

end Contexide.Vector
