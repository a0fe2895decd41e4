import Contexide.Vector.Store
import Mathlib.Data.List.Perm.Basic

/-! When a filter selects only points that satisfy the conditions it was built
from. A condition that has no match value is left out of the filter, so the points
it would exclude are selected unless the other conditions exclude them. -/

namespace Contexide.Vector

/-- The elements of an array that a match value can take up. -/
def isMatchable : Json → Bool
  | .string _ => true
  | .number n => n.asI64.isSome
  | _ => false

/-- The values that a condition admits once it is part of the filter; of an array
the strings. -/
def admitted : Json → Option (List Json)
  | .string s => some [.string s]
  | .bool b => some [.bool b]
  | .number n => if n.asI64.isSome then some [.number n] else none
  | .array items =>
    if items.all isMatchable then some ((items.filterMap Json.asStr).map .string) else none
  | _ => none

/-! ### Match values -/

theorem scanItems_eq (arr : List Json) (strings : List String) (ints : List Int64)
    (allStr allInt : Bool) : ∃ ints', scanItems arr strings ints allStr allInt =
      (strings ++ arr.filterMap Json.asStr, ints', allStr && arr.all isMatchable,
        allInt && arr.all isMatchable) := by
  induction arr generalizing strings ints allStr allInt with
  | nil => exact ⟨ints, by simp [scanItems]⟩
  | cons x arr ih =>
    cases x with
    | string s =>
      obtain ⟨ints', h⟩ := ih (strings ++ [s]) ints allStr allInt
      exact ⟨ints', by simp [scanItems, h, Json.asStr, isMatchable]⟩
    | number n =>
      cases hn : n.asI64 with
      | some i =>
        obtain ⟨ints', h⟩ := ih strings (ints ++ [i]) allStr allInt
        exact ⟨ints', by simp [scanItems, hn, h, Json.asStr, isMatchable, List.filterMap_cons]⟩
      | none =>
        obtain ⟨ints', h⟩ := ih strings ints false false
        exact ⟨ints', by simp [scanItems, hn, h, Json.asStr, isMatchable, List.filterMap_cons]⟩
    | _ =>
      obtain ⟨ints', h⟩ := ih strings ints false false
      exact ⟨ints', by simp [scanItems, h, Json.asStr, isMatchable, List.filterMap_cons]⟩

/-- Strings, booleans and integers are matched; an array is matched by its
strings, if it has no other elements than strings and integers. -/
theorem toMatchValue_array (arr : List Json) : toMatchValue (.array arr) =
    if arr.all isMatchable then some (.keywords (arr.filterMap Json.asStr)) else none := by
  obtain ⟨ints, h⟩ := scanItems_eq arr [] [] true true
  rw [toMatchValue, h]
  cases arr.all isMatchable <;> simp

/-- A kept condition holds of the values it admits. -/
theorem toMatchValue_spec (v : Json) : (toMatchValue v = none ∧ admitted v = none) ∨
    ∃ mv xs, toMatchValue v = some mv ∧ admitted v = some xs ∧
      ∀ q : Value, mv.holds q = true ↔ q.intoJson ∈ xs := by
  cases v with
  | null => exact .inl ⟨rfl, rfl⟩
  | object obj => exact .inl ⟨rfl, rfl⟩
  | string s =>
    refine .inr ⟨_, _, rfl, rfl, fun q => ?_⟩
    rw [MatchValue.holds_keyword, List.mem_singleton, Value.intoJson_eq_string]
  | bool b =>
    refine .inr ⟨_, _, rfl, rfl, fun q => ?_⟩
    rw [MatchValue.holds_boolean, List.mem_singleton, Value.intoJson_eq_bool]
  | number n =>
    cases hn : n.asI64 with
    | none => exact .inl ⟨by simp [toMatchValue, hn], by simp [admitted, hn]⟩
    | some i =>
      refine .inr ⟨.integer i, [.number n], by simp [toMatchValue, hn], by simp [admitted, hn],
        fun q => ?_⟩
      rw [MatchValue.holds_integer, List.mem_singleton, JsonNumber.asI64_eq_some.mp hn,
        Value.intoJson_eq_i64]
  | array arr =>
    rw [toMatchValue_array, admitted]
    cases arr.all isMatchable with
    | false => exact .inl ⟨rfl, rfl⟩
    | true =>
      refine .inr ⟨_, _, rfl, rfl, fun q => ?_⟩
      rw [MatchValue.holds_keywords, List.mem_map]
      apply exists_congr
      intro s
      rw [@eq_comm _ (Json.string s), Value.intoJson_eq_string]

/-- The value equals the one asked for, or is one of the elements of an array. -/
def Answers (x : Json) : Json → Prop
  | .array items => x ∈ items
  | v => x = v

/-- An admitted value answers, and is a string, a boolean or an integer. -/
theorem mem_admitted {v x : Json} {xs : List Json} (h : admitted v = some xs) (hx : x ∈ xs) :
    Answers x v ∧ ((∃ s, x = .string s) ∨ (∃ b, x = .bool b) ∨ ∃ i, x = .number (.ofI64 i)) := by
  cases v with
  | null => simp [admitted] at h
  | object obj => simp [admitted] at h
  | string s =>
    obtain rfl : [Json.string s] = xs := by simpa [admitted] using h
    obtain rfl := List.mem_singleton.mp hx
    exact ⟨rfl, .inl ⟨s, rfl⟩⟩
  | bool b =>
    obtain rfl : [Json.bool b] = xs := by simpa [admitted] using h
    obtain rfl := List.mem_singleton.mp hx
    exact ⟨rfl, .inr (.inl ⟨b, rfl⟩)⟩
  | number n =>
    simp only [admitted, Option.ite_none_right_eq_some, Option.some.injEq] at h
    obtain ⟨hn, rfl⟩ := h
    obtain ⟨i, hi⟩ := Option.isSome_iff_exists.mp hn
    obtain rfl := List.mem_singleton.mp hx
    exact ⟨rfl, .inr (.inr ⟨i, by rw [JsonNumber.asI64_eq_some.mp hi]⟩)⟩
  | array items =>
    simp only [admitted, Option.ite_none_right_eq_some, Option.some.injEq] at h
    obtain ⟨_, rfl⟩ := h
    obtain ⟨s, hs, rfl⟩ := List.mem_map.mp hx
    obtain ⟨y, hy, hys⟩ := List.mem_filterMap.mp hs
    obtain rfl : y = .string s := by
      cases y <;> simp_all [Json.asStr]
    exact ⟨hy, .inl ⟨s, rfl⟩⟩

/-- An admitted value is one that a condition can ask for, and a point can have. -/
theorem admitted_of_mem {v x : Json} {xs : List Json} (h : admitted v = some xs) (hx : x ∈ xs) :
    (admitted x).isSome = true ∧ ∃ q : Value, q.intoJson = x := by
  rcases (mem_admitted h hx).2 with ⟨s, rfl⟩ | ⟨b, rfl⟩ | ⟨i, rfl⟩
  · exact ⟨rfl, .stringValue s, rfl⟩
  · exact ⟨rfl, .boolValue b, rfl⟩
  · exact ⟨by simp [admitted], .integerValue i, rfl⟩

/-! ### Selected points -/

variable (conds : List (String × Json))

/-- The field has a value that answers the condition. -/
def Satisfies (payload : List (String × Json)) (k : String) (v : Json) : Prop :=
  ∃ x, payload.lookup k = some x ∧ Answers x v

/-- The field has a value that each kept condition on it admits. -/
def Passes (payload : List (String × Json)) : Prop :=
  ∀ k v xs, (k, v) ∈ conds → admitted v = some xs → ∃ x ∈ xs, payload.lookup k = some x

theorem holds_iff_passes {k : String} {mv : MatchValue} {xs : List Json}
    (h : ∀ q : Value, mv.holds q = true ↔ q.intoJson ∈ xs) (payload : List (String × Value)) :
    (Condition.mk k mv).holds payload = true ↔
      ∃ x ∈ xs, (fieldsIntoJson payload).lookup k = some x := by
  rw [lookup_fieldsIntoJson, Condition.holds]
  cases payload.lookup k with
  | none => simp
  | some q => simp [h]

/-- The filter selects the points that pass the kept conditions. -/
theorem mem_selected {points : List ScoredPoint} {p : ScoredPoint} :
    p ∈ selected points ((some conds).bind toFilter) ↔
      p ∈ points ∧ Passes conds (fieldsIntoJson p.payload) := by
  have hall : ((conditionsOf conds).all fun c => c.holds p.payload) = true ↔
      Passes conds (fieldsIntoJson p.payload) := by
    rw [List.all_eq_true]
    constructor
    · intro h k v xs hmem hxs
      rcases toMatchValue_spec v with ⟨_, hno⟩ | ⟨mv, xs', hmv, hxs', hq⟩
      · rw [hno] at hxs
        cases hxs
      · obtain rfl : xs' = xs := Option.some.inj (hxs'.symm.trans hxs)
        refine (holds_iff_passes hq p.payload).mp (h _ (List.mem_filterMap.mpr ⟨_, hmem, ?_⟩))
        simp [hmv]
    · intro h c hmem
      obtain ⟨⟨k, v⟩, hkv, hc⟩ := List.mem_filterMap.mp hmem
      rcases toMatchValue_spec v with ⟨hno, _⟩ | ⟨mv, xs, hmv, hxs, hq⟩
      · simp [hno] at hc
      · obtain rfl : Condition.mk k mv = c := by simpa [hmv] using hc
        exact (holds_iff_passes hq p.payload).mpr (h k v xs hkv hxs)
  rw [← hall, Option.bind_some, toFilter]
  cases conditionsOf conds with
  | nil => simp [selected]
  | cons c cs => simp [selected, Filter.holds]

/-- Every point that is returned or counted satisfies every condition. -/
def NeverWidens : Prop := ∀ points : List ScoredPoint,
  (∀ parseUuid limit, ∀ hit ∈ search parseUuid points limit (some conds),
    ∀ c ∈ conds, Satisfies (hit.payload.getD []) c.1 c.2) ∧
  ∀ p ∈ selected points ((some conds).bind toFilter),
    ∀ c ∈ conds, Satisfies (fieldsIntoJson p.payload) c.1 c.2

theorem neverWidens_iff_passes : NeverWidens conds ↔ ∀ payload : List (String × Value),
    Passes conds (fieldsIntoJson payload) →
      ∀ c ∈ conds, Satisfies (fieldsIntoJson payload) c.1 c.2 := by
  constructor
  · intro h payload hp
    have hmem : (⟨none, 0, payload⟩ : ScoredPoint) ∈
        selected [⟨none, 0, payload⟩] ((some conds).bind toFilter) :=
      (mem_selected conds).mpr ⟨List.mem_singleton_self _, hp⟩
    exact (h [⟨none, 0, payload⟩]).2 _ hmem
  · intro h points
    have hsel : ∀ p ∈ selected points ((some conds).bind toFilter),
        ∀ c ∈ conds, Satisfies (fieldsIntoJson p.payload) c.1 c.2 :=
      fun p hp => h p.payload ((mem_selected conds).mp hp).2
    refine ⟨fun parseUuid limit hit hhit => ?_, hsel⟩
    obtain ⟨p, hp, hid⟩ := List.mem_filterMap.mp hhit
    obtain ⟨id, _, rfl⟩ := Option.map_eq_some_iff.mp hid
    have hpayload : (payloadIntoJson p.payload).getD [] = fieldsIntoJson p.payload := by
      unfold payloadIntoJson
      cases p.payload <;> rfl
    rw [hpayload]
    exact hsel p (List.mem_of_mem_take hp)

/-! ### The exact condition -/

/-- Some kept condition is on the field. -/
def Constrains (k : String) : Prop := ∃ v xs, (k, v) ∈ conds ∧ admitted v = some xs

/-- Every kept condition on the field admits the value. -/
def Admits (k : String) (x : Json) : Prop :=
  ∀ v xs, (k, v) ∈ conds → admitted v = some xs → x ∈ xs

/-- A condition that is kept; or the kept conditions on some field contradict each
other, so that no point is selected; or it asks for one of several values, and the
kept conditions on its field admit no others. -/
def Covered (k : String) (v : Json) : Prop :=
  (admitted v).isSome = true ∨
    (∃ f, Constrains conds f ∧ ∀ x, ¬ Admits conds f x) ∨
    ∃ items, v = .array items ∧ Constrains conds k ∧ ∀ x, Admits conds k x → x ∈ items

/-- The values of a payload that passes, field by field. -/
theorem Passes.admits {conds : List (String × Json)} {payload : List (String × Json)}
    (h : Passes conds payload) {k : String} (hk : Constrains conds k) :
    ∃ x, payload.lookup k = some x ∧ Admits conds k x := by
  obtain ⟨v, xs, hmem, hxs⟩ := hk
  obtain ⟨x, _, hx⟩ := h k v xs hmem hxs
  refine ⟨x, hx, fun v' xs' hmem' hxs' => ?_⟩
  obtain ⟨x', hx', heq⟩ := h k v' xs' hmem' hxs'
  rw [hx, Option.some.injEq] at heq
  exact heq ▸ hx'

/-- A payload that passes can have any admitted values in the constrained fields. -/
theorem exists_passes {val : String → Json}
    (hval : ∀ f, Constrains conds f → Admits conds f (val f)) :
    ∃ payload : List (String × Value), Passes conds (fieldsIntoJson payload) ∧
      ∀ f x, (fieldsIntoJson payload).lookup f = some x → Constrains conds f ∧ x = val f := by
  classical
  have hex : ∀ f, ∃ q : Value, Constrains conds f → q.intoJson = val f := by
    intro f
    by_cases hf : Constrains conds f
    · obtain ⟨v, xs, hmem, hxs⟩ := id hf
      obtain ⟨q, hq⟩ := (admitted_of_mem hxs (hval f hf v xs hmem hxs)).2
      exact ⟨q, fun _ => hq⟩
    · exact ⟨.unset, fun h => absurd h hf⟩
  choose q hq using hex
  set fields := (conds.map Prod.fst).filter (Constrains conds ·)
  have hlookup : ∀ f, (fieldsIntoJson (fields.map fun f => (f, q f))).lookup f =
      if Constrains conds f then some (val f) else none := by
    intro f
    rw [lookup_fieldsIntoJson]
    split
    · next hf =>
      obtain ⟨v, xs, hmem, hxs⟩ := id hf
      have hfield : f ∈ fields :=
        List.mem_filter.mpr ⟨List.mem_map.mpr ⟨_, hmem, rfl⟩, by simpa using hf⟩
      rw [List.lookup_graph q hfield, Option.map_some, hq f hf]
    · next hf =>
      rw [Option.map_eq_none_iff, List.lookup_eq_none_iff]
      rintro e he
      obtain ⟨g, hg, rfl⟩ := List.mem_map.mp he
      have hgc : Constrains conds g := by simpa using (List.mem_filter.mp hg).2
      exact bne_iff_ne.mpr fun heq => hf (heq ▸ hgc)
  refine ⟨fields.map fun f => (f, q f), fun k v xs hmem hxs => ?_, fun f x hx => ?_⟩
  · have hk : Constrains conds k := ⟨v, xs, hmem, hxs⟩
    exact ⟨val k, hval k hk v xs hmem hxs, by rw [hlookup, if_pos hk]⟩
  · rw [hlookup] at hx
    split at hx
    · next hf => exact ⟨hf, (Option.some.inj hx).symm⟩
    · cases hx

/-- The values that an uncovered condition lets through: each admitted on its
field, and none that answers the condition. -/
theorem exists_unanswered {conds : List (String × Json)} {k : String} {v : Json}
    (hno : ¬ Covered conds k v) : ∃ val : String → Json,
      (∀ f, Constrains conds f → Admits conds f (val f)) ∧
        (Constrains conds k → ¬ Answers (val k) v) := by
  simp only [Covered, not_or, not_exists, not_and, not_forall, not_not] at hno
  obtain ⟨hdropped, hfree, hother⟩ := hno
  -- a kept condition admits no value that equals a dropped one
  have hne : ∀ x, Constrains conds k → Admits conds k x → x ≠ v := by
    rintro x ⟨v', xs, hmem, hxs⟩ hx rfl
    exact hdropped (admitted_of_mem hxs (hx v' xs hmem hxs)).1
  have hk : Constrains conds k → ∃ x, Admits conds k x ∧ ¬ Answers x v := by
    intro hc
    cases v with
    | array items =>
      obtain ⟨x, hx, hni⟩ := hother items rfl hc
      exact ⟨x, hx, hni⟩
    | _ =>
      obtain ⟨x, hx⟩ := hfree k hc
      exact ⟨x, hx, hne x hc hx⟩
  have hval : ∀ f, ∃ x, Constrains conds f → Admits conds f x ∧ (f = k → ¬ Answers x v) := by
    intro f
    by_cases hf : Constrains conds f
    · by_cases he : f = k
      · subst he
        obtain ⟨x, hx, hans⟩ := hk hf
        exact ⟨x, fun _ => ⟨hx, fun _ => hans⟩⟩
      · obtain ⟨x, hx⟩ := hfree f hf
        exact ⟨x, fun _ => ⟨hx, fun h => absurd h he⟩⟩
    · exact ⟨.null, fun h => absurd h hf⟩
  choose val hspec using hval
  exact ⟨val, fun f hf => (hspec f hf).1, fun hc => (hspec k hc).2 rfl⟩

/-- A payload that passes satisfies the covered conditions. -/
theorem Covered.satisfies {conds payload : List (String × Json)} {k : String} {v : Json}
    (h : Covered conds k v) (hp : Passes conds payload) (hkv : (k, v) ∈ conds) :
    Satisfies payload k v := by
  rcases h with hkept | ⟨f, hf, hno⟩ | ⟨items, rfl, hk, hall⟩
  · obtain ⟨xs, hxs⟩ := Option.isSome_iff_exists.mp hkept
    obtain ⟨x, hx, hl⟩ := hp k v xs hkv hxs
    exact ⟨x, hl, (mem_admitted hxs hx).1⟩
  · obtain ⟨x, _, hx⟩ := hp.admits hf
    exact absurd hx (hno x)
  · obtain ⟨x, hl, hx⟩ := hp.admits hk
    exact ⟨x, hl, hall x hx⟩

/-- The conditions are never widened exactly when each of them is covered. -/
theorem neverWidens_iff : NeverWidens conds ↔ ∀ c ∈ conds, Covered conds c.1 c.2 := by
  rw [neverWidens_iff_passes]
  constructor
  · rintro h ⟨k, v⟩ hkv
    by_contra hno
    obtain ⟨val, hadm, hans⟩ := exists_unanswered hno
    obtain ⟨payload, hpass, hlookup⟩ := exists_passes conds hadm
    obtain ⟨x, hx, hsat⟩ := h payload hpass _ hkv
    obtain ⟨hk, rfl⟩ := hlookup k x hx
    exact hans hk hsat
  · rintro h payload hp ⟨k, v⟩ hkv
    exact (h _ hkv).satisfies hp hkv

/-- A condition for no tenant selects the points of every tenant. -/
theorem null_condition_widens : ¬ NeverWidens [("tenant_id", .null)] := by
  intro h
  have hpass : Passes [("tenant_id", .null)]
      (fieldsIntoJson [("tenant_id", .stringValue "acme")]) := by
    intro k v xs hmem hxs
    obtain ⟨rfl, rfl⟩ : k = "tenant_id" ∧ v = .null := by simpa using hmem
    cases hxs
  obtain ⟨x, hx, hans⟩ := (neverWidens_iff_passes _).mp h _ hpass _ (List.mem_singleton_self _)
  obtain rfl : x = .null := hans
  simp [fieldsIntoJson, Value.intoJson] at hx

end Contexide.Vector
