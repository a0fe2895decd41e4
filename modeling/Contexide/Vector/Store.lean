import Contexide.Core.Ids
import Contexide.Vector.Values

/-! The vector store: points are written with a JSON payload, searched by nearness
and counted, both under equality conditions on the payload. A collection is given
by its points, the nearest to the query first; a call of the client that fails
ends the operation with its error, and the other calls are modelled. -/

namespace Contexide.Vector

inductive PointId where
  | num (n : UInt64)
  | uuid (text : String)

structure PointStruct where
  id : PointId
  vector : List UInt32
  payload : List (String × Value)

structure ScoredPoint where
  id : Option PointId
  score : UInt32
  payload : List (String × Value)

/-- A result of a search. -/
structure SearchHit where
  id : Uuid
  score : UInt32
  payload : Option (List (String × Json))

inductive MatchValue where
  | keyword (s : String)
  | integer (i : Int64)
  | boolean (b : Bool)
  | keywords (strings : List String)
  | integers (ints : List Int64)

/-- Equality, any of the values for a list. -/
def MatchValue.holds : MatchValue → Value → Bool
  | .keyword s, .stringValue t => s == t
  | .integer i, .integerValue j => i == j
  | .boolean b, .boolValue c => b == c
  | .keywords strings, .stringValue t => strings.contains t
  | .integers ints, .integerValue j => ints.contains j
  | _, _ => false

namespace MatchValue

variable {q : Value}

theorem holds_keyword {s : String} : (keyword s).holds q = true ↔ q = .stringValue s := by
  cases q <;> simp [holds, @eq_comm _ s]

theorem holds_boolean {b : Bool} : (boolean b).holds q = true ↔ q = .boolValue b := by
  cases q <;> simp [holds, @eq_comm _ b]

theorem holds_integer {i : Int64} : (integer i).holds q = true ↔ q = .integerValue i := by
  cases q <;> simp [holds, @eq_comm _ i]

theorem holds_keywords {strings : List String} :
    (keywords strings).holds q = true ↔ ∃ s ∈ strings, q = .stringValue s := by
  cases q <;> simp [holds]

end MatchValue

/-- `Condition::matches`. -/
structure Condition where
  field : String
  value : MatchValue

def Condition.holds (c : Condition) (payload : List (String × Value)) : Bool :=
  (payload.lookup c.field).any c.value.holds

/-- `Filter::all`: the conjunction of the conditions. -/
structure Filter where
  all : List Condition

def Filter.holds (f : Filter) (payload : List (String × Value)) : Bool :=
  f.all.all fun c => c.holds payload

/-! ### Conditions -/

/-- The loop over the elements of an array, with the strings and the integers met
so far and the two flags. -/
def scanItems : List Json → List String → List Int64 → Bool → Bool →
    List String × List Int64 × Bool × Bool
  | [], strings, ints, allStr, allInt => (strings, ints, allStr, allInt)
  | .string s :: arr, strings, ints, allStr, allInt =>
    scanItems arr (strings ++ [s]) ints allStr allInt
  | .number n :: arr, strings, ints, allStr, allInt =>
    match n.asI64 with
    | some i => scanItems arr strings (ints ++ [i]) allStr allInt
    | none => scanItems arr strings ints false false
  | _ :: arr, strings, ints, _, _ => scanItems arr strings ints false false

def toMatchValue : Json → Option MatchValue
  | .string s => some (.keyword s)
  | .bool b => some (.boolean b)
  | .number n => n.asI64.map .integer
  | .array arr =>
    match scanItems arr [] [] true true with
    | (strings, ints, allStr, allInt) =>
      if allStr then some (.keywords strings)
      else if allInt then some (.integers ints)
      else none
  | _ => none

/-- The conditions of the pairs that have a match value. -/
def conditionsOf (pairs : List (String × Json)) : List Condition :=
  pairs.filterMap fun pair => (toMatchValue pair.2).map (Condition.mk pair.1)

/-- Pairs ("field", json) -> Filter::all([matches(...) ...]). -/
def toFilter (pairs : List (String × Json)) : Option Filter :=
  if (conditionsOf pairs).isEmpty then none else some ⟨conditionsOf pairs⟩

/-! ### Operations -/

/-- The payload of a point that is written. -/
def payloadToQdrant (text : Json → String) (payload : Option (List (String × Json))) :
    List (String × Value) :=
  match payload with
  | some obj => fieldsToQdrant text obj
  | none => []

/-- The payload of a point that is read. -/
def payloadIntoJson (payload : List (String × Value)) : Option (List (String × Json)) :=
  if payload.isEmpty then none else some (fieldsIntoJson payload)

/-- The points that `upsert_points` sends. -/
def pointStructs (text : Json → String) (uuidText : Uuid → String)
    (points : List (Uuid × List UInt32 × Option (List (String × Json)))) : List PointStruct :=
  points.map fun (id, vector, payload) =>
    { id := .uuid (uuidText id), vector, payload := payloadToQdrant text payload }

section

variable (parseUuid : String → Option Uuid)

/-- The id of a point, when it is a UUID. -/
def pointIdToUuid : Option PointId → Option Uuid
  | some (.uuid s) => parseUuid s
  | _ => none

/-- The points that pass the filter, all of them without one. -/
def selected (points : List ScoredPoint) (filter : Option Filter) : List ScoredPoint :=
  match filter with
  | some f => points.filter fun p => f.holds p.payload
  | none => points

/-- Nearest neighbours with an optional filter on the payload. -/
def search (points : List ScoredPoint) (limit : UInt64)
    (condEqual : Option (List (String × Json))) : List SearchHit :=
  ((selected points (condEqual.bind toFilter)).take limit.toNat).filterMap fun sp =>
    (pointIdToUuid parseUuid sp.id).map fun id =>
      { id, score := sp.score, payload := payloadIntoJson sp.payload }

/-- The number of the points under the filter. -/
def count (points : List ScoredPoint) (condEqual : Option (List (String × Json))) : ℕ :=
  (selected points (condEqual.bind toFilter)).length

end

/-- A search without conditions over written points finds them under their ids. -/
theorem search_pointStructs {text : Json → String} {uuidText : Uuid → String}
    {parseUuid : String → Option Uuid} (hparse : ∀ id, parseUuid (uuidText id) = some id)
    (score : PointStruct → UInt32) (limit : UInt64)
    (points : List (Uuid × List UInt32 × Option (List (String × Json)))) :
    search parseUuid ((pointStructs text uuidText points).map fun p =>
        ⟨some p.id, score p, p.payload⟩) limit none =
      (points.take limit.toNat).map fun (id, vector, payload) =>
        { id
          score := score ⟨.uuid (uuidText id), vector, payloadToQdrant text payload⟩
          payload := payloadIntoJson (payloadToQdrant text payload) } := by
  simp only [search, selected, Option.bind_none, pointStructs, List.map_map, ← List.map_take,
    List.filterMap_map]
  rw [← List.filterMap_eq_map]
  apply List.filterMap_congr
  rintro ⟨id, vector, payload⟩ _
  simp [pointIdToUuid, hparse]

/-! ### Payloads -/

/-- What `search` gives back of a payload that was written: every entry reads back
as `ReadsBack` says, and a payload without entries as none. -/
theorem payload_reads_back (text : Json → String) (obj : List (String × Json))
    (h : EntriesFit obj) :
    (obj = [] ∧ payloadIntoJson (payloadToQdrant text (some obj)) = none) ∨
      ∃ obj', payloadIntoJson (payloadToQdrant text (some obj)) = some obj' ∧
        EntriesReadBack text obj obj' := by
  cases obj with
  | nil => exact .inl ⟨rfl, rfl⟩
  | cons e obj => exact .inr ⟨_, rfl, entriesReadBack_fields text (e :: obj) h⟩

/-- A payload with an array of integers. -/
def pagesPayload : List (String × Json) := [("pages", .array [.number (.posInt 1)])]

theorem entriesFit_pages : EntriesFit pagesPayload := by
  simp only [pagesPayload, EntriesFit, IntegersFit, ItemsFit, and_true]
  exact ⟨1, by decide⟩

theorem payload_reads_back_pages :
    (pagesPayload = [] ∧
      payloadIntoJson (payloadToQdrant (fun _ => "1") (some pagesPayload)) = none) ∨
    ∃ obj', payloadIntoJson (payloadToQdrant (fun _ => "1") (some pagesPayload)) = some obj' ∧
      EntriesReadBack (fun _ => "1") pagesPayload obj' :=
  payload_reads_back (fun _ => "1") pagesPayload entriesFit_pages

/-- The array of integers comes back as an array of strings. -/
theorem pages_payload_altered : ¬ ∀ (text : Json → String) (obj : List (String × Json)),
    EntriesFit obj → payloadIntoJson (payloadToQdrant text (some obj)) = some obj := by
  intro h
  have hpages := h (fun _ => "1") pagesPayload entriesFit_pages
  simp [pagesPayload, payloadToQdrant, fieldsToQdrant, jsonToQdrantValue, payloadIntoJson,
    fieldsIntoJson, Value.intoJson, valuesIntoJson] at hpages

end Contexide.Vector
