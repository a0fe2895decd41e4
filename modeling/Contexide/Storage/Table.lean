import Mathlib.Data.List.Basic
import Mathlib.Data.List.Nodup

/-! Keyed tables: rows in the order of their first insertion, with pairwise
different keys. Saving a row replaces the row with its key in place, or appends
it; this is a hash map with `insert` and equally a relation with
`INSERT .. ON CONFLICT (key) DO UPDATE`. A table of pairs keyed by their first
components is a map. -/

namespace Contexide.Storage

variable {K V : Type} [DecidableEq K]

/-- Replace the row with the key of `v`, or append `v`. -/
def upsert (key : V → K) (v : V) : List V → List V
  | [] => [v]
  | x :: xs => if key x = key v then v :: xs else x :: upsert key v xs

theorem upsert_of_notMem (key : V → K) (v : V) (xs : List V) (h : ∀ x ∈ xs, key x ≠ key v) :
    upsert key v xs = xs ++ [v] := by
  induction xs with
  | nil => rfl
  | cons x xs ih =>
    rw [upsert, if_neg (h x List.mem_cons_self), ih fun y hy => h y (List.mem_cons_of_mem _ hy)]
    rfl

theorem map_upsert_of_mem (key : V → K) (v : V) (xs : List V) (h : ∃ x ∈ xs, key x = key v) :
    (upsert key v xs).map key = xs.map key := by
  induction xs with
  | nil => simp at h
  | cons x xs ih =>
    by_cases hx : key x = key v
    · simp [upsert, hx]
    · obtain ⟨y, hy, hk⟩ := h
      rcases List.mem_cons.mp hy with rfl | hy
      · exact absurd hk hx
      · rw [upsert, if_neg hx, List.map_cons, ih ⟨y, hy, hk⟩, List.map_cons]

theorem nodup_map_upsert (key : V → K) (v : V) (xs : List V) (h : (xs.map key).Nodup) :
    ((upsert key v xs).map key).Nodup := by
  by_cases hv : ∃ x ∈ xs, key x = key v
  · rwa [map_upsert_of_mem key v xs hv]
  · push Not at hv
    rw [upsert_of_notMem key v xs hv, List.map_append, List.nodup_append]
    refine ⟨h, by simp, fun k hk k' hk' => ?_⟩
    obtain ⟨x, hx, rfl⟩ := List.mem_map.mp hk
    rw [List.mem_singleton.mp hk']
    exact hv x hx

/-- With pairwise different keys, saving changes exactly the row with the key of `v`. -/
theorem mem_upsert (key : V → K) (v x : V) (xs : List V) (h : (xs.map key).Nodup) :
    x ∈ upsert key v xs ↔ x = v ∨ x ∈ xs ∧ key x ≠ key v := by
  induction xs with
  | nil => simp [upsert]
  | cons y ys ih =>
    rw [List.map_cons, List.nodup_cons] at h
    by_cases hy : key y = key v
    · rw [upsert, if_pos hy, List.mem_cons, List.mem_cons]
      constructor
      · rintro (rfl | hx)
        · exact .inl rfl
        · exact .inr ⟨.inr hx, fun hk => h.1 (hy ▸ hk ▸ List.mem_map_of_mem hx)⟩
      · rintro (rfl | ⟨rfl | hx, hk⟩)
        · exact .inl rfl
        · exact absurd hy hk
        · exact .inr hx
    · rw [upsert, if_neg hy, List.mem_cons, ih h.2, List.mem_cons]
      constructor
      · rintro (rfl | rfl | ⟨hx, hk⟩)
        · exact .inr ⟨.inl rfl, hy⟩
        · exact .inl rfl
        · exact .inr ⟨.inr hx, hk⟩
      · rintro (rfl | ⟨rfl | hx, hk⟩)
        · exact .inr (.inl rfl)
        · exact .inl rfl
        · exact .inr (.inr ⟨hx, hk⟩)

/-- Filtering after a save that keeps the row out of the filter, before and after. -/
theorem filter_upsert_of_false (key : V → K) (v : V) (p : V → Bool) (xs : List V)
    (hv : p v = false) (hx : ∀ x ∈ xs, key x = key v → p x = false) :
    (upsert key v xs).filter p = xs.filter p := by
  induction xs with
  | nil => simp [upsert, hv]
  | cons x xs ih =>
    by_cases hk : key x = key v
    · simp [upsert, hk, hv, hx x List.mem_cons_self hk]
    · rw [upsert, if_neg hk, List.filter_cons, List.filter_cons,
        ih fun y hy => hx y (List.mem_cons_of_mem _ hy)]

/-- Filtering commutes with a save whose row passes the filter with its old row. -/
theorem filter_upsert_of_true (key : V → K) (v : V) (p : V → Bool) (xs : List V)
    (hv : p v = true) (hx : ∀ x ∈ xs, key x = key v → p x = true) :
    (upsert key v xs).filter p = upsert key v (xs.filter p) := by
  induction xs with
  | nil => simp [upsert, hv]
  | cons x xs ih =>
    have ih := ih fun y hy => hx y (List.mem_cons_of_mem _ hy)
    by_cases hk : key x = key v
    · simp [upsert, hk, hv, hx x List.mem_cons_self hk]
    · rw [upsert, if_neg hk, List.filter_cons, List.filter_cons, ih]
      split
      · rw [upsert, if_neg hk]
      · rfl

theorem upsert_append_of_notMem (key : V → K) (v : V) (xs ys : List V)
    (h : ∀ x ∈ xs, key x ≠ key v) : upsert key v (xs ++ ys) = xs ++ upsert key v ys := by
  induction xs with
  | nil => rfl
  | cons x xs ih =>
    rw [List.cons_append, upsert, if_neg (h x List.mem_cons_self),
      ih fun y hy => h y (List.mem_cons_of_mem _ hy), List.cons_append]

theorem upsert_append_of_mem (key : V → K) (v : V) (xs ys : List V) (h : ∃ x ∈ xs, key x = key v) :
    upsert key v (xs ++ ys) = upsert key v xs ++ ys := by
  induction xs with
  | nil => simp at h
  | cons x xs ih =>
    by_cases hk : key x = key v
    · simp [upsert, hk]
    · obtain ⟨y, hy, hyk⟩ := h
      rcases List.mem_cons.mp hy with rfl | hy
      · exact absurd hyk hk
      · rw [List.cons_append, upsert, if_neg hk, ih ⟨y, hy, hyk⟩, upsert, if_neg hk,
          List.cons_append]

/-- The later of two saves over one key wins. -/
theorem upsert_upsert (key : V → K) {u v : V} (xs : List V) (h : key u = key v) :
    upsert key v (upsert key u xs) = upsert key v xs := by
  induction xs with
  | nil => simp [upsert, h]
  | cons x xs ih =>
    by_cases hk : key x = key u
    · simp [upsert, hk, h]
    · have hk' : key x ≠ key v := h ▸ hk
      rw [upsert, if_neg hk, upsert, if_neg hk', ih, upsert, if_neg hk']

/-- Saves over different keys commute when one of the rows is there. -/
theorem upsert_comm (key : V → K) {u v : V} (xs : List V) (hu : ∃ x ∈ xs, key x = key u)
    (hne : key u ≠ key v) :
    upsert key v (upsert key u xs) = upsert key u (upsert key v xs) := by
  induction xs with
  | nil => simp at hu
  | cons x xs ih =>
    by_cases hku : key x = key u
    · simp [upsert, hku, hne]
    · by_cases hkv : key x = key v
      · simp [upsert, hkv, hne.symm]
      · obtain ⟨y, hy, hyk⟩ := hu
        rcases List.mem_cons.mp hy with rfl | hy
        · exact absurd hyk hku
        · simp only [upsert, if_neg hku, if_neg hkv, ih ⟨y, hy, hyk⟩]

theorem map_upsert_of_eq {β : Type} (key : V → K) (g : V → β) (v : V) (xs : List V)
    (h : ∃ x ∈ xs, key x = key v) (hg : ∀ x ∈ xs, key x = key v → g x = g v) :
    (upsert key v xs).map g = xs.map g := by
  induction xs with
  | nil => simp at h
  | cons x xs ih =>
    by_cases hk : key x = key v
    · simp [upsert, hk, hg x List.mem_cons_self hk]
    · obtain ⟨y, hy, hyk⟩ := h
      rcases List.mem_cons.mp hy with rfl | hy
      · exact absurd hyk hk
      · rw [upsert, if_neg hk, List.map_cons, List.map_cons,
          ih ⟨y, hy, hyk⟩ fun z hz => hg z (List.mem_cons_of_mem _ hz)]

theorem length_le_upsert (key : V → K) (v : V) (xs : List V) :
    xs.length ≤ (upsert key v xs).length := by
  induction xs with
  | nil => exact Nat.zero_le _
  | cons x xs ih =>
    rw [upsert]
    split
    · exact Nat.le_refl _
    · exact Nat.succ_le_succ ih

/-- With pairwise different keys, saving over a row replaces it. -/
theorem upsert_eq_map (key : V → K) (v : V) (xs : List V) (hn : (xs.map key).Nodup)
    (h : ∃ x ∈ xs, key x = key v) :
    upsert key v xs = xs.map fun x => if key x = key v then v else x := by
  induction xs with
  | nil => simp at h
  | cons x xs ih =>
    rw [List.map_cons, List.nodup_cons] at hn
    by_cases hk : key x = key v
    · rw [upsert, if_pos hk, List.map_cons, if_pos hk]
      congr 1
      refine (List.map_id xs).symm.trans (List.map_congr_left fun y hy => ?_)
      have hne : key y ≠ key v := fun he => hn.1 (hk.trans he.symm ▸ List.mem_map_of_mem hy)
      rw [if_neg hne, id]
    · obtain ⟨y, hy, hyk⟩ := h
      rcases List.mem_cons.mp hy with rfl | hy
      · exact absurd hyk hk
      · rw [upsert, if_neg hk, List.map_cons, if_neg hk, ih hn.2 ⟨y, hy, hyk⟩]

/-- Saving a row that is there already changes nothing. -/
theorem upsert_of_mem (key : V → K) (v : V) (xs : List V) (h : (xs.map key).Nodup) (hv : v ∈ xs) :
    upsert key v xs = xs := by
  induction xs with
  | nil => exact absurd hv List.not_mem_nil
  | cons x xs ih =>
    rw [List.map_cons, List.nodup_cons] at h
    rcases List.mem_cons.mp hv with rfl | hv
    · rw [upsert, if_pos rfl]
    · have hx : key x ≠ key v := fun he => h.1 (he ▸ List.mem_map_of_mem hv)
      rw [upsert, if_neg hx, ih h.2 hv]

/-- A table of rows `V` keyed by `key`. -/
@[ext] structure Table (key : V → K) where
  rows : List V
  nodup : (rows.map key).Nodup

namespace Table

variable {key : V → K}

def empty : Table key := ⟨[], by simp⟩

def get (t : Table key) (k : K) : Option V := t.rows.find? fun v => key v = k

def save (t : Table key) (v : V) : Table key :=
  ⟨upsert key v t.rows, nodup_map_upsert key v t.rows t.nodup⟩

/-- The table without the row of a key. -/
def remove (t : Table key) (k : K) : Table key :=
  ⟨t.rows.filter fun v => key v ≠ k, (List.filter_sublist.map key).nodup t.nodup⟩

instance : Membership V (Table key) := ⟨fun t v => v ∈ t.rows⟩

omit [DecidableEq K] in
theorem mem_def {t : Table key} {v : V} : v ∈ t ↔ v ∈ t.rows := Iff.rfl

omit [DecidableEq K] in
@[simp] theorem notMem_empty (v : V) : v ∉ (empty : Table key) := List.not_mem_nil

/-- Whether a key has a row. -/
def Has (t : Table key) (k : K) : Prop := ∃ v ∈ t, key v = k

omit [DecidableEq K] in
@[simp] theorem not_has_empty (k : K) : ¬ (empty : Table key).Has k := by
  rintro ⟨v, hv, _⟩
  exact notMem_empty v hv

omit [DecidableEq K] in
theorem eq_of_key {t : Table key} {v v' : V} (hv : v ∈ t) (hv' : v' ∈ t) (h : key v = key v') :
    v = v' :=
  List.inj_on_of_nodup_map t.nodup hv hv' h

theorem get_eq_some {t : Table key} {k : K} {v : V} : t.get k = some v ↔ v ∈ t ∧ key v = k := by
  constructor
  · intro h
    exact ⟨List.mem_of_find?_eq_some h, by simpa using List.find?_some h⟩
  · rintro ⟨hv, rfl⟩
    have hs : (t.get (key v)).isSome := by
      rw [get, List.find?_isSome]
      exact ⟨v, hv, by simp⟩
    obtain ⟨x, hx⟩ := Option.isSome_iff_exists.mp hs
    rw [hx, eq_of_key (List.mem_of_find?_eq_some hx) hv (by simpa using List.find?_some hx)]

theorem get_of_mem {t : Table key} {v : V} (h : v ∈ t) : t.get (key v) = some v :=
  get_eq_some.mpr ⟨h, rfl⟩

theorem get_eq_none {t : Table key} {k : K} : t.get k = none ↔ ¬ t.Has k := by
  simp [get, Has, List.find?_eq_none, mem_def]

theorem isSome_get {t : Table key} {k : K} : (t.get k).isSome = true ↔ t.Has k := by
  rw [Option.isSome_iff_ne_none, Ne, get_eq_none, not_not]

instance {t : Table key} {k : K} : Decidable (t.Has k) := decidable_of_iff _ isSome_get

theorem mem_save {t : Table key} {v x : V} : x ∈ t.save v ↔ x = v ∨ x ∈ t ∧ key x ≠ key v :=
  mem_upsert key v x t.rows t.nodup

theorem mem_save_self (t : Table key) (v : V) : v ∈ t.save v := mem_save.mpr (.inl rfl)

theorem mem_save_of_ne {t : Table key} {v x : V} (hx : x ∈ t) (h : key x ≠ key v) :
    x ∈ t.save v := mem_save.mpr (.inr ⟨hx, h⟩)

/-- A save leaves the rows with other keys alone. -/
theorem mem_save_iff_of_ne {t : Table key} {v x : V} (h : key x ≠ key v) :
    x ∈ t.save v ↔ x ∈ t :=
  ⟨fun hx => (mem_save.mp hx).elim (fun he => absurd (congrArg key he) h) And.left,
    fun hx => mem_save_of_ne hx h⟩

theorem mem_of_mem_save {t : Table key} {v x : V} (hx : x ∈ t.save v) (h : key x ≠ key v) :
    x ∈ t :=
  (mem_save_iff_of_ne h).mp hx

theorem eq_of_mem_save {t : Table key} {v x : V} (hx : x ∈ t.save v) (h : key x = key v) :
    x = v := by
  rcases mem_save.mp hx with rfl | hx
  · rfl
  · exact absurd h hx.2

theorem has_save {t : Table key} {v : V} {k : K} : (t.save v).Has k ↔ k = key v ∨ t.Has k := by
  constructor
  · rintro ⟨x, hx, rfl⟩
    rcases mem_save.mp hx with rfl | hx
    · exact .inl rfl
    · exact .inr ⟨x, hx.1, rfl⟩
  · rintro (rfl | ⟨x, hx, rfl⟩)
    · exact ⟨v, mem_save_self t v, rfl⟩
    · by_cases h : key x = key v
      · exact ⟨v, mem_save_self t v, h.symm⟩
      · exact ⟨x, mem_save_of_ne hx h, rfl⟩

theorem save_of_mem {t : Table key} {v : V} (h : v ∈ t) : t.save v = t :=
  Table.ext (upsert_of_mem key v t.rows t.nodup h)

theorem save_save (t : Table key) {u v : V} (h : key u = key v) : (t.save u).save v = t.save v :=
  Table.ext (upsert_upsert key t.rows h)

theorem save_comm {t : Table key} {u v : V} (hu : t.Has (key u)) (hne : key u ≠ key v) :
    (t.save u).save v = (t.save v).save u :=
  Table.ext (upsert_comm key t.rows hu hne)

theorem rows_save_of_not_has {t : Table key} {v : V} (h : ¬ t.Has (key v)) :
    (t.save v).rows = t.rows ++ [v] :=
  upsert_of_notMem key v t.rows fun x hx hk => h ⟨x, hx, hk⟩

theorem rows_save_of_mem {t : Table key} {u v : V} (hu : u ∈ t) (hk : key u = key v) :
    (t.save v).rows = t.rows.map fun x => if key x = key v then v else x :=
  upsert_eq_map key v t.rows t.nodup ⟨u, hu, hk⟩

theorem filter_rows_save_of_false {t : Table key} {v : V} {p : V → Bool} (hv : p v = false)
    (hx : ∀ x ∈ t, key x = key v → p x = false) :
    (t.save v).rows.filter p = t.rows.filter p :=
  filter_upsert_of_false key v p t.rows hv hx

theorem filter_rows_save_of_true {t : Table key} {v : V} {p : V → Bool} (hv : p v = true)
    (hx : ∀ x ∈ t, key x = key v → p x = true) :
    (t.save v).rows.filter p = upsert key v (t.rows.filter p) :=
  filter_upsert_of_true key v p t.rows hv hx

theorem mem_remove {t : Table key} {k : K} {v : V} : v ∈ t.remove k ↔ v ∈ t ∧ key v ≠ k := by
  simp [remove, mem_def]

theorem get_save (t : Table key) (v : V) (k : K) :
    (t.save v).get k = if key v = k then some v else t.get k := by
  split
  · next h => rw [← h, get_of_mem (mem_save_self t v)]
  · next h =>
    apply Option.ext
    intro x
    rw [get_eq_some, get_eq_some]
    constructor
    · rintro ⟨hx, rfl⟩
      exact ⟨mem_of_mem_save hx (Ne.symm h), rfl⟩
    · rintro ⟨hx, rfl⟩
      exact ⟨mem_save_of_ne hx (Ne.symm h), rfl⟩

theorem get_remove (t : Table key) (k k' : K) :
    (t.remove k).get k' = if k' = k then none else t.get k' := by
  split
  · next h =>
    rw [get_eq_none]
    rintro ⟨v, hv, hk⟩
    exact (mem_remove.mp hv).2 (hk.trans h)
  · next h =>
    apply Option.ext
    intro x
    rw [get_eq_some, get_eq_some, mem_remove]
    constructor
    · rintro ⟨⟨hx, _⟩, rfl⟩
      exact ⟨hx, rfl⟩
    · rintro ⟨hx, rfl⟩
      exact ⟨⟨hx, h⟩, rfl⟩

/-- A save whose row agrees with the old one in a filter and a projection. -/
theorem map_filter_rows_save {β : Type} {t : Table key} {u v : V} {p : V → Bool} {g : V → β}
    (hu : u ∈ t) (hk : key u = key v) (hp : p u = p v) (hg : g u = g v) :
    ((t.save v).rows.filter p).map g = (t.rows.filter p).map g := by
  have heq : ∀ x ∈ t, key x = key v → x = u := fun x hx he => eq_of_key hx hu (he.trans hk.symm)
  cases hv : p v with
  | false =>
    rw [filter_rows_save_of_false hv fun x hx he => by rw [heq x hx he, hp, hv]]
  | true =>
    rw [filter_rows_save_of_true hv fun x hx he => by rw [heq x hx he, hp, hv]]
    refine map_upsert_of_eq key g v _ ⟨u, List.mem_filter.mpr ⟨hu, hp.trans hv⟩, hk⟩
      fun x hx he => ?_
    rw [heq x (List.mem_filter.mp hx).1 he, hg]

end Table

/-- A hash map from `K` to `V`. -/
abbrev Assoc (K V : Type) := Table (Prod.fst : K × V → K)

namespace Assoc

variable (m : Assoc K V) (k k' : K) (v : V)

def find : Option V := (Table.get m k).map Prod.snd

def insert : Assoc K V := Table.save m (k, v)

@[simp] theorem find_empty : find (Table.empty : Assoc K V) k = none := rfl

theorem find_insert : (m.insert k v).find k' = if k = k' then some v else m.find k' := by
  rw [find, insert, Table.get_save]
  split <;> rfl

theorem find_remove :
    find (Table.remove m k) k' = if k' = k then none else m.find k' := by
  rw [find, Table.get_remove]
  split <;> rfl

end Assoc

end Contexide.Storage
