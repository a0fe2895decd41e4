import Contexide.Core.JsonText
import Contexide.Storage.MapOrder
import Mathlib.Data.String.Basic
import Mathlib.Data.List.Forall2

/-! Canonical JSON: a value is written with the keys of its objects sorted at
every level. Two values have one canonical text exactly when they differ only in
the order of keys, whichever order the map of `serde_json` keeps. -/

namespace Contexide

open Storage (MapOrder)

/-- The number is not an infinity or a NaN. -/
def JsonNumber.IsFinite : JsonNumber → Prop
  | .float bits => bits &&& 0x7ff0000000000000 ≠ 0x7ff0000000000000
  | _ => True

namespace Json

/-- The values of `serde_json` over a map with the given order: floats are finite
and objects are maps. -/
inductive Held (order : MapOrder) : Json → Prop where
  | null : Held order .null
  | bool (b : Bool) : Held order (.bool b)
  | number {n : JsonNumber} (h : n.IsFinite) : Held order (.number n)
  | string (s : String) : Held order (.string s)
  | array {arr : List Json} (h : ∀ v ∈ arr, Held order v) : Held order (.array arr)
  | object {map : List (String × Json)} (hmap : order.Keeps map)
    (h : ∀ e ∈ map, Held order e.2) : Held order (.object map)

/-- The value of a key of the map. -/
def unwrapGet (map : List (String × Json)) (k : String) (hk : k ∈ map.map Prod.fst) : Json :=
  (map.lookup k).get <| by
    obtain ⟨e, he, rfl⟩ := List.mem_map.mp hk
    exact List.lookup_isSome_iff.mpr ⟨e, he, beq_self_eq_true _⟩

theorem mem_of_unwrapGet {map : List (String × Json)} {k : String} (hk : k ∈ map.map Prod.fst) :
    (k, unwrapGet map k hk) ∈ map := by
  have h : map.lookup k = some (unwrapGet map k hk) := (Option.some_get _).symm
  obtain ⟨l, r, heq, -⟩ := List.lookup_eq_some_iff.mp h
  have hmem : (k, unwrapGet map k hk) ∈ l ++ (k, unwrapGet map k hk) :: r :=
    List.mem_append_right l List.mem_cons_self
  rwa [← heq] at hmem

theorem unwrapGet_of_mem {map : List (String × Json)} (hn : (map.map Prod.fst).Nodup)
    {e : String × Json} (he : e ∈ map) (hk : e.1 ∈ map.map Prod.fst) :
    unwrapGet map e.1 hk = e.2 := by
  have h : map.lookup e.1 = some (unwrapGet map e.1 hk) := (Option.some_get _).symm
  rw [Storage.lookup_eq_of_mem hn he, Option.some.injEq] at h
  exact h.symm

theorem sizeOf_lt_object {map : List (String × Json)} {e : String × Json} (he : e ∈ map) :
    sizeOf e.2 < sizeOf (Json.object map) := by
  have hmem := List.sizeOf_lt_of_mem he
  have hsnd : sizeOf e.2 < sizeOf e := by
    cases e
    simp
  simp only [object.sizeOf_spec]
  omega

def sortValues (order : MapOrder) : Json → Json
  | .object map =>
    -- by code point, which is how the bytes of UTF-8 compare
    let keys := (map.map Prod.fst).insertionSort (· ≤ ·)
    .object <| keys.attach.foldl (fun newMap k =>
      have hk := (List.perm_insertionSort (· ≤ ·) _).subset k.2
      order.insert newMap k.1 (sortValues order (unwrapGet map k.1 hk))) []
  | .array arr => .array (arr.map (sortValues order))
  | v => v
termination_by v => sizeOf v
decreasing_by
  · exact sizeOf_lt_object (mem_of_unwrapGet hk)
  · have hmem := List.sizeOf_lt_of_mem ‹_ ∈ arr›
    simp only [array.sizeOf_spec]
    omega

/-- Reading a map key by key gives its entries, in the order of the keys. -/
theorem map_unwrapGet_perm {map : List (String × Json)} {keys : List String}
    (hn : (map.map Prod.fst).Nodup) (hkeys : keys.Perm (map.map Prod.fst)) :
    (keys.attach.map fun k => (k.1, unwrapGet map k.1 (hkeys.subset k.2))).Perm map := by
  have hfst : (keys.attach.map fun k =>
      (k.1, unwrapGet map k.1 (hkeys.subset k.2))).map Prod.fst = keys := by
    rw [List.map_map]
    exact List.attach_map_subtype_val keys
  refine (List.perm_ext_iff_of_nodup ?_ hn.of_map).mpr fun e => ?_
  · exact List.Nodup.of_map Prod.fst (hfst.symm ▸ hkeys.nodup_iff.mpr hn)
  · constructor
    · intro he
      obtain ⟨k, -, rfl⟩ := List.mem_map.mp he
      exact mem_of_unwrapGet (hkeys.subset k.2)
    · intro he
      have hk : e.1 ∈ keys := hkeys.symm.subset (List.mem_map_of_mem he)
      refine List.mem_map.mpr ⟨⟨e.1, hk⟩, List.mem_attach keys _, ?_⟩
      rw [unwrapGet_of_mem hn he]

/-- The sorted object: the entries with sorted values, by key. -/
theorem sortValues_object (order : MapOrder) {map : List (String × Json)}
    (hn : (map.map Prod.fst).Nodup) :
    ∃ sorted, sortValues order (.object map) = .object sorted ∧
      (sorted.map Prod.fst).Pairwise (· < ·) ∧
      sorted.Perm (map.map fun e => (e.1, sortValues order e.2)) := by
  have hperm := List.perm_insertionSort (· ≤ ·) (map.map Prod.fst)
  have hsorted : (((map.map Prod.fst).insertionSort (· ≤ ·)).attach.map Subtype.val).Pairwise
      (· < ·) := by
    rw [List.attach_map_subtype_val]
    exact Storage.sorted_keys_of_nodup hn
  have hfold := MapOrder.foldl_insert order Subtype.val
    (fun k => sortValues order (unwrapGet map k.1 (hperm.subset k.2))) _ hsorted
  rw [sortValues]
  refine ⟨_, congrArg object hfold, ?_, ?_⟩
  · rwa [List.map_map]
  · have h := (map_unwrapGet_perm hn hperm).map fun e => (e.1, sortValues order e.2)
    rwa [List.map_map] at h

@[simp] theorem sortValues_null (order : MapOrder) : sortValues order .null = .null := by
  simp [sortValues]

@[simp] theorem sortValues_bool (order : MapOrder) (b : Bool) :
    sortValues order (.bool b) = .bool b := by
  simp [sortValues]

@[simp] theorem sortValues_number (order : MapOrder) (n : JsonNumber) :
    sortValues order (.number n) = .number n := by
  simp [sortValues]

@[simp] theorem sortValues_string (order : MapOrder) (s : String) :
    sortValues order (.string s) = .string s := by
  simp [sortValues]

@[simp] theorem sortValues_array (order : MapOrder) (arr : List Json) :
    sortValues order (.array arr) = .array (arr.map (sortValues order)) := by
  rw [sortValues]

theorem Held.sortValues {order : MapOrder} {v : Json} (h : Held order v) :
    Held order (sortValues order v) := by
  induction h with
  | null => simpa using .null
  | bool b => simpa using .bool b
  | number h => simpa using .number h
  | string s => simpa using .string s
  | array _ ih =>
    rw [sortValues_array]
    refine .array fun w hw => ?_
    obtain ⟨v, hv, rfl⟩ := List.mem_map.mp hw
    exact ih v hv
  | object hmap _ ih =>
    obtain ⟨sorted, heq, hkeys, hperm⟩ := sortValues_object order hmap.nodup
    rw [heq]
    refine .object (order.keeps_of_sorted hkeys) fun e he => ?_
    obtain ⟨f, hf, rfl⟩ := List.mem_map.mp (hperm.subset he)
    exact ih f hf

/-- The values are equal up to the order of object keys, at every level. -/
inductive EqUpToKeyOrder : Json → Json → Prop where
  | null : EqUpToKeyOrder .null .null
  | bool (b : Bool) : EqUpToKeyOrder (.bool b) (.bool b)
  | number (n : JsonNumber) : EqUpToKeyOrder (.number n) (.number n)
  | string (s : String) : EqUpToKeyOrder (.string s) (.string s)
  | array {xs ys : List Json} (h : List.Forall₂ EqUpToKeyOrder xs ys) :
    EqUpToKeyOrder (.array xs) (.array ys)
  | object {map map' entries : List (String × Json)} (hperm : entries.Perm map')
    (hkeys : map.map Prod.fst = entries.map Prod.fst)
    (h : List.Forall₂ EqUpToKeyOrder (map.map Prod.snd) (entries.map Prod.snd)) :
    EqUpToKeyOrder (.object map) (.object map')

theorem map_sortValues_eq_iff (order : MapOrder) {m n : List (String × Json)} :
    (m.map fun e => (e.1, sortValues order e.2)) = (n.map fun e => (e.1, sortValues order e.2)) ↔
      m.map Prod.fst = n.map Prod.fst ∧
        (m.map Prod.snd).map (sortValues order) = (n.map Prod.snd).map (sortValues order) := by
  constructor
  · intro h
    have hfst := congrArg (List.map Prod.fst) h
    have hsnd := congrArg (List.map Prod.snd) h
    simp only [List.map_map] at hfst hsnd ⊢
    exact ⟨hfst, hsnd⟩
  · rintro ⟨hfst, hsnd⟩
    apply Storage.eq_of_map_fst_snd
    · rw [List.map_map, List.map_map]
      exact hfst
    · rw [List.map_map, List.map_map] at hsnd ⊢
      exact hsnd

/-- A value that is neither an array nor an object is sorted, and equal to itself only. -/
theorem eqUpToKeyOrder_scalar_iff {order : MapOrder} {s v : Json}
    (hs : sortValues order s = s) (harr : ∀ arr, s ≠ .array arr) (hobj : ∀ map, s ≠ .object map)
    (hself : EqUpToKeyOrder s s) (honly : EqUpToKeyOrder s v → v = s) :
    EqUpToKeyOrder s v ↔ sortValues order s = sortValues order v := by
  constructor
  · intro h
    rw [honly h]
  · intro h
    rw [hs] at h
    suffices heq : v = s from heq ▸ hself
    cases v with
    | array arr => exact absurd (h.trans (sortValues_array order arr)) (harr _)
    | object map =>
      rw [sortValues] at h
      exact absurd h (hobj _)
    | _ => simpa using h.symm

theorem eqUpToKeyOrder_array_iff {order : MapOrder} {arr : List Json} {b : Json}
    (hb : Held order b)
    (ih : ∀ v ∈ arr, ∀ {w : Json}, Held order w →
      (EqUpToKeyOrder v w ↔ sortValues order v = sortValues order w)) :
    EqUpToKeyOrder (.array arr) b ↔ sortValues order (.array arr) = sortValues order b := by
  cases hb with
  | array hys =>
    have hitems := Storage.forall₂_iff_map_eq (f := sortValues order) (g := sortValues order)
      fun x hx y hy => ih x hx (hys y hy)
    rw [sortValues_array, sortValues_array, array.injEq, ← hitems]
    constructor
    · intro h
      cases h with
      | array h => exact h
    · exact .array
  | object =>
    refine iff_of_false (fun h => nomatch h) fun h => ?_
    rw [sortValues, sortValues] at h
    cases h
  | _ => exact iff_of_false (fun h => nomatch h) (by simp)

theorem eqUpToKeyOrder_object_iff {order : MapOrder} {map : List (String × Json)} {b : Json}
    (hmap : order.Keeps map) (hb : Held order b)
    (ih : ∀ e ∈ map, ∀ {w : Json}, Held order w →
      (EqUpToKeyOrder e.2 w ↔ sortValues order e.2 = sortValues order w)) :
    EqUpToKeyOrder (.object map) b ↔ sortValues order (.object map) = sortValues order b := by
  obtain ⟨sorted, heq, hkeys, hperm⟩ := sortValues_object order hmap.nodup
  cases hb with
  | @object map' hmap' hheld =>
    obtain ⟨sorted', heq', hkeys', hperm'⟩ := sortValues_object order hmap'.nodup
    -- the values of a permutation of the other map are compared one by one
    have hvalues : ∀ entries : List (String × Json), entries.Perm map' →
        (List.Forall₂ EqUpToKeyOrder (map.map Prod.snd) (entries.map Prod.snd) ↔
          (map.map Prod.snd).map (sortValues order)
            = (entries.map Prod.snd).map (sortValues order)) := by
      intro entries hentries
      apply Storage.forall₂_iff_map_eq
      intro v hv w hw
      obtain ⟨e, he, rfl⟩ := List.mem_map.mp hv
      obtain ⟨f, hf, rfl⟩ := List.mem_map.mp hw
      exact ih e he (hheld f (hentries.subset hf))
    rw [heq, heq', object.injEq]
    constructor
    · intro h
      cases h with
      | object hentries hfst h =>
        apply Storage.eq_of_perm_of_sorted hkeys hkeys'
        refine hperm.trans (.trans ?_ hperm'.symm)
        rw [(map_sortValues_eq_iff order).mpr ⟨hfst, (hvalues _ hentries).mp h⟩]
        exact hentries.map _
    · rintro rfl
      have himages := hperm.symm.trans hperm'
      rw [← congrFun₂ (List.eq_map_comp_perm _) _ map'] at himages
      obtain ⟨entries, himage, hentries⟩ := himages
      obtain ⟨hfst, hsnd⟩ := (map_sortValues_eq_iff order).mp himage
      exact .object hentries hfst ((hvalues _ hentries).mpr hsnd)
  | array =>
    refine iff_of_false (fun h => nomatch h) fun h => ?_
    rw [heq, sortValues_array] at h
    cases h
  | _ =>
    refine iff_of_false (fun h => nomatch h) fun h => ?_
    rw [heq] at h
    simp at h

/-- Sorting is a normal form of equality up to the order of keys. -/
theorem eqUpToKeyOrder_iff {order : MapOrder} {a b : Json} (ha : Held order a)
    (hb : Held order b) : EqUpToKeyOrder a b ↔ sortValues order a = sortValues order b := by
  induction ha generalizing b with
  | array _ ih => exact eqUpToKeyOrder_array_iff hb ih
  | object hmap _ ih => exact eqUpToKeyOrder_object_iff hmap hb ih
  | null => exact eqUpToKeyOrder_scalar_iff (by simp) (by simp) (by simp) .null fun | .null => rfl
  | bool t =>
    exact eqUpToKeyOrder_scalar_iff (by simp) (by simp) (by simp) (.bool t) fun | .bool _ => rfl
  | @number n _ =>
    exact eqUpToKeyOrder_scalar_iff (by simp) (by simp) (by simp) (.number n)
      fun | .number _ => rfl
  | string s =>
    exact eqUpToKeyOrder_scalar_iff (by simp) (by simp) (by simp) (.string s)
      fun | .string _ => rfl

theorem sortValues_sortValues {order : MapOrder} {v : Json} (h : Held order v) :
    sortValues order (sortValues order v) = sortValues order v := by
  induction h with
  | array _ ih =>
    rw [sortValues_array, sortValues_array, array.injEq, List.map_map]
    exact List.map_congr_left ih
  | @object map hmap _ ih =>
    obtain ⟨sorted, heq, hkeys, hperm⟩ := sortValues_object order hmap.nodup
    have hsorted := (order.keeps_of_sorted hkeys).nodup
    obtain ⟨sorted', heq', hkeys', hperm'⟩ := sortValues_object order hsorted
    rw [heq, heq', object.injEq]
    apply Storage.eq_of_perm_of_sorted hkeys' hkeys
    refine hperm'.trans ?_
    have himage : (sorted.map fun e => (e.1, sortValues order e.2)) = sorted := by
      conv_rhs => rw [← List.map_id sorted]
      refine List.map_congr_left fun e he => ?_
      obtain ⟨f, hf, rfl⟩ := List.mem_map.mp (hperm.subset he)
      exact congrArg (Prod.mk f.1) (ih f hf)
    rw [himage]
  | _ => simp

end Json

/-- `serde_json::Value` over a map with the given order. -/
@[ext] structure JsonValue (order : MapOrder) where
  json : Json
  held : json.Held order

namespace JsonValue

variable {order : MapOrder}

def sortValues (v : JsonValue order) : JsonValue order :=
  ⟨v.json.sortValues order, v.held.sortValues⟩

theorem sortValues_sortValues (v : JsonValue order) : v.sortValues.sortValues = v.sortValues :=
  JsonValue.ext (Json.sortValues_sortValues v.held)

theorem sortValues_eq_iff (v w : JsonValue order) :
    v.sortValues = w.sortValues ↔ v.json.EqUpToKeyOrder w.json := by
  rw [Json.eqUpToKeyOrder_iff v.held w.held, JsonValue.ext_iff]
  rfl

end JsonValue

/-- The writer and the reader of `serde_json`. -/
structure SerdeJson (order : MapOrder) (ε : Type) where
  toString : JsonValue order → String
  fromStr : String → Except ε (JsonValue order)

/-- Different values are written differently, and what is written reads back. -/
structure SerdeJson.ReadsBack {order : MapOrder} {ε : Type} (serde : SerdeJson order ε) : Prop where
  injective : Function.Injective serde.toString
  fromStr_toString : ∀ v, serde.fromStr (serde.toString v) = .ok v

section

variable {order : MapOrder} {ε : Type} (serde : SerdeJson order ε)

def canonicalizeValue (v : JsonValue order) : String := serde.toString v.sortValues

def canonicalizeStr (v : String) : Except ε String := do
  let parsed ← serde.fromStr v
  pure (canonicalizeValue serde parsed)

/-- Canonical text is a canonical form: values have the same one exactly when they
are equal up to the order of keys, and canonicalizing it again changes nothing. -/
theorem canonical_form (h : serde.ReadsBack) :
    (∀ v w : JsonValue order, canonicalizeValue serde v = canonicalizeValue serde w ↔
      v.json.EqUpToKeyOrder w.json) ∧
    ∀ v : JsonValue order,
      canonicalizeStr serde (canonicalizeValue serde v) = .ok (canonicalizeValue serde v) := by
  constructor
  · intro v w
    exact h.injective.eq_iff.trans (JsonValue.sortValues_eq_iff v w)
  · intro v
    rw [canonicalizeStr, canonicalizeValue, h.fromStr_toString]
    change Except.ok (serde.toString v.sortValues.sortValues) = _
    rw [JsonValue.sortValues_sortValues]

/-- Compact text, and a reader of exactly the compact texts. -/
noncomputable def compactJson (order : MapOrder) : SerdeJson order Unit where
  toString v := String.ofList (JsonText.text JsonText.numberText v.json)
  fromStr s :=
    open Classical in
    if h : ∃ v : JsonValue order, String.ofList (JsonText.text JsonText.numberText v.json) = s then
      .ok h.choose
    else .error ()

theorem readsBack_compactJson (order : MapOrder) : (compactJson order).ReadsBack := by
  have hinj : Function.Injective (compactJson order).toString := by
    intro v w h
    apply JsonValue.ext
    exact JsonText.text_injective JsonText.writesNumbers_numberText (String.ofList_injective h)
  refine ⟨hinj, fun v => ?_⟩
  have hex : ∃ w : JsonValue order,
      (compactJson order).toString w = (compactJson order).toString v := ⟨v, rfl⟩
  exact (dif_pos hex).trans (congrArg _ (hinj hex.choose_spec))

/-- A profile of two integers. -/
def windowProfile (k l : String) (m n : UInt64) (h : k ≠ l) : JsonValue .insertion where
  json := .object [(k, .number (.posInt m)), (l, .number (.posInt n))]
  held := by
    refine .object (by simpa [MapOrder.Keeps] using h) fun e he => ?_
    rcases List.mem_pair.mp he with rfl | rfl
    · exact .number trivial
    · exact .number trivial

def windowFirst : JsonValue .insertion := windowProfile "window" "overlap" 800 120 (by decide)

def overlapFirst : JsonValue .insertion := windowProfile "overlap" "window" 120 800 (by decide)

def otherWindow : JsonValue .insertion := windowProfile "window" "overlap" 900 120 (by decide)

theorem windowFirst_eqUpToKeyOrder : windowFirst.json.EqUpToKeyOrder overlapFirst.json :=
  .object (.swap _ _ _) rfl (.cons (.number _) (.cons (.number _) .nil))

theorem windowFirst_not_eqUpToKeyOrder : ¬ windowFirst.json.EqUpToKeyOrder otherWindow.json := by
  intro h
  cases h with
  | @object _ _ entries hperm hkeys hvalues =>
    match entries with
    | [] => cases hkeys
    | (k, v) :: entries =>
      obtain rfl : "window" = k := List.head_eq_of_cons_eq hkeys
      cases hvalues with
      | cons hv =>
        cases hv
        have hmem := hperm.subset List.mem_cons_self
        rcases List.mem_pair.mp hmem with h | h <;> simp at h

theorem canonical_form_window :
    canonicalizeValue (compactJson .insertion) windowFirst
      = canonicalizeValue (compactJson .insertion) overlapFirst ∧
    canonicalizeValue (compactJson .insertion) windowFirst
      ≠ canonicalizeValue (compactJson .insertion) otherWindow ∧
    canonicalizeStr (compactJson .insertion)
      (canonicalizeValue (compactJson .insertion) windowFirst)
        = .ok (canonicalizeValue (compactJson .insertion) windowFirst) := by
  obtain ⟨hiff, hagain⟩ := canonical_form _ (readsBack_compactJson .insertion)
  exact ⟨(hiff _ _).mpr windowFirst_eqUpToKeyOrder,
    fun h => windowFirst_not_eqUpToKeyOrder ((hiff _ _).mp h), hagain _⟩

/-! ### Profiles -/

def profileCanonicalJson (v : JsonValue order) : String := canonicalizeValue serde v

variable (blake3HexStr : String → String)

def profileHash (v : JsonValue order) : String := blake3HexStr (profileCanonicalJson serde v)

def profileHashFromStr (s : String) : Except ε String := do
  let canon ← canonicalizeStr serde s
  pure (blake3HexStr canon)

/-- The hash of a profile is the hash of any text of it. -/
theorem profileHashFromStr_of_fromStr {s : String} {v : JsonValue order}
    (h : serde.fromStr s = .ok v) :
    profileHashFromStr serde blake3HexStr s = .ok (profileHash serde blake3HexStr v) := by
  rw [profileHashFromStr, canonicalizeStr, h]
  rfl

/-- Profiles that differ in the order of keys have one hash. -/
theorem profileHash_eq_of_eqUpToKeyOrder {v w : JsonValue order}
    (h : v.json.EqUpToKeyOrder w.json) :
    profileHash serde blake3HexStr v = profileHash serde blake3HexStr w := by
  rw [profileHash, profileHash, profileCanonicalJson, profileCanonicalJson, canonicalizeValue,
    canonicalizeValue, (JsonValue.sortValues_eq_iff v w).mpr h]

end

end Contexide
