import Contexide.Storage.Filing

/-! A secondary index with sets: under each value of an attribute the keys of the
rows that have it, and no entry for a value that no row has. The index is exact
when every key is filed under the attribute of its row and nowhere else. -/

namespace Contexide.Storage

/-- A hash set: keys, each once. -/
abbrev KeySet (K : Type) := Table (id : K → K)

variable {K P V : Type} [DecidableEq K] [DecidableEq P]

section Operations

variable (idx : Assoc P (KeySet K)) (p : P) (k : K)

/-- The keys under a value. -/
def keysOf : KeySet K := (idx.find p).getD .empty

def setAdd : Assoc P (KeySet K) := idx.insert p ((keysOf idx p).save k)

def setRemove : Assoc P (KeySet K) :=
  match idx.find p with
  | some set =>
    if (set.remove k).rows.isEmpty then Table.remove idx p else idx.insert p (set.remove k)
  | none => idx

end Operations

section

variable {idx : Assoc P (KeySet K)} {p p' : P} {k k' : K}

theorem keysOf_setAdd : keysOf (setAdd idx p k) p' =
    if p' = p then (keysOf idx p).save k else keysOf idx p' := by
  rw [keysOf, setAdd, Assoc.find_insert, keysOf, keysOf]
  by_cases hp : p' = p
  · rw [if_pos hp.symm, if_pos hp, Option.getD_some]
  · rw [if_neg (Ne.symm hp), if_neg hp]

theorem keysOf_setRemove : keysOf (setRemove idx p k) p' =
    if p' = p then (keysOf idx p).remove k else keysOf idx p' := by
  unfold setRemove keysOf
  cases hset : idx.find p with
  | none =>
    dsimp only
    split
    · next hp =>
      rw [hp, hset]
      rfl
    · rfl
  | some set =>
    dsimp only
    by_cases hp : p' = p
    · subst hp
      rw [if_pos rfl, Option.getD_some]
      split
      · next hempty =>
        rw [Assoc.find_remove, if_pos rfl]
        exact Table.ext (List.isEmpty_iff.mp hempty).symm
      · rw [Assoc.find_insert, if_pos rfl, Option.getD_some]
    · rw [if_neg hp]
      split
      · rw [Assoc.find_remove, if_neg hp]
      · rw [Assoc.find_insert, if_neg (Ne.symm hp)]

theorem mem_keysOf_setAdd :
    k' ∈ keysOf (setAdd idx p k) p' ↔ p' = p ∧ k' = k ∨ k' ∈ keysOf idx p' := by
  rw [keysOf_setAdd]
  by_cases hp : p' = p
  · subst hp
    rw [if_pos rfl, Table.mem_save]
    by_cases hk : k' = k <;> simp [hk]
  · simp [hp]

theorem mem_keysOf_setRemove :
    k' ∈ keysOf (setRemove idx p k) p' ↔ k' ∈ keysOf idx p' ∧ ¬ (p' = p ∧ k' = k) := by
  rw [keysOf_setRemove]
  by_cases hp : p' = p
  · subst hp
    rw [if_pos rfl, Table.mem_remove]
    simp
  · simp [hp]

/-- No value has an empty set. -/
def NoEmptySet (idx : Assoc P (KeySet K)) : Prop :=
  ∀ p set, idx.find p = some set → ∃ k, k ∈ set

theorem NoEmptySet.setAdd (h : NoEmptySet idx) (p : P) (k : K) : NoEmptySet (setAdd idx p k) := by
  intro p' set hset
  rw [Storage.setAdd, Assoc.find_insert] at hset
  split at hset
  · obtain rfl := Option.some.inj hset
    exact ⟨k, Table.mem_save_self _ k⟩
  · exact h p' set hset

theorem NoEmptySet.setRemove (h : NoEmptySet idx) (p : P) (k : K) :
    NoEmptySet (setRemove idx p k) := by
  unfold Storage.setRemove
  cases hold : idx.find p with
  | none => exact h
  | some old =>
    dsimp only
    intro p' set hset
    split at hset
    · rw [Assoc.find_remove] at hset
      split at hset
      · cases hset
      · exact h p' set hset
    · next hne =>
      rw [Assoc.find_insert] at hset
      split at hset
      · obtain rfl := Option.some.inj hset
        exact List.exists_mem_of_ne_nil _ fun hnil => hne (List.isEmpty_iff.mpr hnil)
      · exact h p' set hset

end

/-! ### Exactness -/

variable {key : V → K}

/-- The keys under each value are those of the rows with that attribute. -/
structure Indexes (attr : V → P) (t : Table key) (idx : Assoc P (KeySet K)) : Prop where
  noEmptySet : NoEmptySet idx
  files : Files attr t fun p k => k ∈ keysOf idx p

namespace Indexes

variable {attr : V → P} {t : Table key} {idx : Assoc P (KeySet K)} {u v : V}

omit [DecidableEq K] in
theorem empty : Indexes attr (.empty : Table key) (.empty : Assoc P (KeySet K)) where
  noEmptySet _ _ h := by cases h
  files p k := by simp [keysOf]

theorem save_new (h : Indexes attr t idx) (hv : ¬ t.Has (key v)) :
    Indexes attr (t.save v) (setAdd idx (attr v) (key v)) where
  noEmptySet := h.noEmptySet.setAdd _ _
  files p k := mem_keysOf_setAdd.trans (h.files.save_new hv p k)

theorem save_same (h : Indexes attr t idx) (hu : u ∈ t) (hk : key u = key v)
    (hattr : attr u = attr v) : Indexes attr (t.save v) idx :=
  ⟨h.noEmptySet, h.files.save_same hu hk hattr⟩

/-- Moving the key, also from a value to the same value. -/
theorem save_move (h : Indexes attr t idx) (hu : u ∈ t) (hk : key u = key v) :
    Indexes attr (t.save v) (setAdd (setRemove idx (attr u) (key v)) (attr v) (key v)) where
  noEmptySet := (h.noEmptySet.setRemove _ _).setAdd _ _
  files p k := by
    dsimp only
    rw [mem_keysOf_setAdd, mem_keysOf_setRemove]
    exact h.files.save_move hu hk p k

theorem remove (h : Indexes attr t idx) (hu : u ∈ t) :
    Indexes attr (t.remove (key u)) (setRemove idx (attr u) (key u)) where
  noEmptySet := h.noEmptySet.setRemove _ _
  files p k := mem_keysOf_setRemove.trans (h.files.remove hu p k)

/-- The rows read through the index are those with the attribute, each once. -/
theorem filterMap_get_perm (h : Indexes attr t idx) (p : P) :
    ((keysOf idx p).rows.filterMap t.get).Perm (t.rows.filter fun v => attr v = p) := by
  have hn : (keysOf idx p).rows.Nodup := by simpa using (keysOf idx p).nodup
  exact h.files.filterMap_get_perm hn fun _ => Iff.rfl

omit [DecidableEq K] in
/-- Every key in the index has a row. -/
theorem has_of_find (h : Indexes attr t idx) {p : P} {set : KeySet K} (hset : idx.find p = some set)
    {k : K} (hk : k ∈ set) : t.Has k := by
  have hmem : k ∈ keysOf idx p := by rwa [keysOf, hset, Option.getD_some]
  obtain ⟨v, hv, hkey, -⟩ := (h.files p k).mp hmem
  exact ⟨v, hv, hkey⟩

end Indexes

end Contexide.Storage
