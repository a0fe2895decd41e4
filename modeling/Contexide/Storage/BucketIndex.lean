import Contexide.Storage.Table
import Mathlib.Data.List.Perm.Basic
import Mathlib.Data.List.Sort

/-! A secondary index with buckets: for each parent the keys of its rows, in a
vector that is changed by appending and by `swap_remove`. A parent without rows
has no bucket. -/

namespace Contexide.Storage

/-- `Vec::swap_remove`: the last element takes the place of the removed one. -/
def swapRemove {α : Type} (vec : List α) (pos : ℕ) : List α :=
  match vec.getLast? with
  | some last => (vec.set pos last).dropLast
  | none => []

theorem swapRemove_perm {α : Type} {vec : List α} {pos : ℕ} (h : pos < vec.length) :
    (swapRemove vec pos).Perm (vec.eraseIdx pos) := by
  obtain ⟨l, last, rfl⟩ := List.eq_nil_or_concat' vec |>.resolve_left (List.ne_nil_of_length_pos
    (Nat.lt_of_le_of_lt (Nat.zero_le _) h))
  rw [swapRemove, List.getLast?_concat]
  dsimp only
  by_cases hpos : pos < l.length
  · rw [List.set_append_left _ _ hpos, List.dropLast_concat,
      List.eraseIdx_append_of_lt_length hpos]
    exact (List.set_perm_cons_eraseIdx hpos last).trans (List.perm_append_singleton _ _).symm
  · obtain rfl : pos = l.length := by
      rw [List.length_append, List.length_singleton] at h
      omega
    rw [List.eraseIdx_append_of_length_le (Nat.le_refl _)]
    simp

/-- The vector without the first occurrence of an element. -/
def removeElem {α : Type} [DecidableEq α] (vec : List α) (x : α) : List α :=
  match vec.idxOf? x with
  | some pos => swapRemove vec pos
  | none => vec

theorem removeElem_perm {α : Type} [DecidableEq α] (vec : List α) (x : α) :
    (removeElem vec x).Perm (vec.erase x) := by
  rw [removeElem, List.erase_eq_eraseIdx]
  cases h : vec.idxOf? x with
  | none => exact .refl _
  | some pos => exact swapRemove_perm (List.idxOf?_eq_some_iff.mp h).1

variable {K P V : Type} [DecidableEq K] [DecidableEq P] {key : V → K}

/-- The keys of a parent. -/
def bucket (idx : Assoc P (List K)) (p : P) : List K := (idx.find p).getD []

/-- Add a (parent, key) relation to the index. -/
def indexAdd (idx : Assoc P (List K)) (p : P) (k : K) : Assoc P (List K) :=
  idx.insert p (bucket idx p ++ [k])

/-- Remove a key from the bucket of a parent. -/
def indexRemove (idx : Assoc P (List K)) (p : P) (k : K) : Assoc P (List K) :=
  match idx.find p with
  | some vec =>
    if (removeElem vec k).isEmpty then Table.remove idx p else idx.insert p (removeElem vec k)
  | none => idx

/-- No bucket is empty or has a key twice. -/
def BucketsValid (idx : Assoc P (List K)) : Prop :=
  ∀ p ks, idx.find p = some ks → ks.Nodup ∧ ks ≠ []

namespace BucketsValid

variable {idx : Assoc P (List K)} {p : P} {k : K}

omit [DecidableEq K] in
theorem empty : BucketsValid (.empty : Assoc P (List K)) := by
  intro p ks h
  cases h

omit [DecidableEq K] in
theorem nodup (h : BucketsValid idx) (p : P) : (bucket idx p).Nodup := by
  unfold bucket
  cases hf : idx.find p with
  | none => exact List.nodup_nil
  | some ks => exact (h p ks hf).1

omit [DecidableEq K] in
theorem indexAdd (h : BucketsValid idx) (hk : k ∉ bucket idx p) :
    BucketsValid (indexAdd idx p k) := by
  intro p' ks hf
  rw [Storage.indexAdd, Assoc.find_insert] at hf
  split at hf
  · obtain rfl := Option.some.inj hf
    refine ⟨List.nodup_append.mpr ⟨h.nodup p, List.nodup_singleton k, ?_⟩, by simp⟩
    intro a ha b hb
    rw [List.mem_singleton.mp hb]
    exact fun hab => hk (hab ▸ ha)
  · exact h p' ks hf

omit [DecidableEq K] in
theorem remove (h : BucketsValid idx) (p : P) : BucketsValid (Table.remove idx p) := by
  intro p' ks hf
  rw [Assoc.find_remove] at hf
  split at hf
  · cases hf
  · exact h p' ks hf

theorem indexRemove (h : BucketsValid idx) (p : P) (k : K) :
    BucketsValid (indexRemove idx p k) := by
  unfold Storage.indexRemove
  cases hvec : idx.find p with
  | none => exact h
  | some vec =>
    dsimp only
    split
    · exact h.remove p
    · next hne =>
      intro p' ks hf
      rw [Assoc.find_insert] at hf
      split at hf
      · obtain rfl := Option.some.inj hf
        refine ⟨(removeElem_perm vec k).nodup_iff.mpr ((h p vec hvec).1.erase k), ?_⟩
        simpa using hne
      · exact h p' ks hf

end BucketsValid

/-! ### Members -/

section

variable {idx : Assoc P (List K)} {p p' : P} {k k' : K}

omit [DecidableEq K] in
theorem mem_bucket_indexAdd :
    k' ∈ bucket (indexAdd idx p k) p' ↔ p' = p ∧ k' = k ∨ k' ∈ bucket idx p' := by
  by_cases hp : p = p'
  · subst hp
    simp [bucket, indexAdd, Assoc.find_insert, or_comm]
  · simp [bucket, indexAdd, Assoc.find_insert, hp, Ne.symm hp]

omit [DecidableEq K] in
theorem mem_bucket_remove :
    k' ∈ bucket (Table.remove idx p) p' ↔ p' ≠ p ∧ k' ∈ bucket idx p' := by
  by_cases hp : p' = p
  · simp [bucket, Assoc.find_remove, hp]
  · simp [bucket, Assoc.find_remove, hp]

theorem mem_bucket_indexRemove (h : BucketsValid idx) :
    k' ∈ bucket (indexRemove idx p k) p' ↔ k' ∈ bucket idx p' ∧ ¬ (p' = p ∧ k' = k) := by
  unfold indexRemove
  cases hvec : idx.find p with
  | none =>
    dsimp only
    constructor
    · intro hk
      refine ⟨hk, ?_⟩
      rintro ⟨rfl, _⟩
      simp [bucket, hvec] at hk
    · exact And.left
  | some vec =>
    have hrest : ∀ x, x ∈ removeElem vec k ↔ x ≠ k ∧ x ∈ vec := by
      intro x
      rw [(removeElem_perm vec k).mem_iff, (h p vec hvec).1.mem_erase_iff]
    have hbucket : bucket idx p = vec := by rw [bucket, hvec, Option.getD_some]
    dsimp only
    split
    · next hempty =>
      rw [mem_bucket_remove]
      by_cases hp : p' = p
      · subst hp
        have hno : k' ∉ removeElem vec k := by rw [List.isEmpty_iff.mp hempty]; simp
        rw [hbucket]
        rw [hrest] at hno
        tauto
      · tauto
    · by_cases hp : p' = p
      · subst hp
        rw [bucket, Assoc.find_insert, if_pos rfl, Option.getD_some, hrest, hbucket]
        tauto
      · rw [bucket, Assoc.find_insert, if_neg (Ne.symm hp), ← bucket]
        tauto

/-- How often a bucket has a key, after a key was added somewhere. -/
theorem count_bucket_indexAdd : (bucket (indexAdd idx p k) p').count k' =
    (bucket idx p').count k' + if p' = p ∧ k' = k then 1 else 0 := by
  by_cases hp : p' = p
  · subst hp
    rw [bucket, indexAdd, Assoc.find_insert, if_pos rfl, Option.getD_some, List.count_append,
      List.count_singleton]
    simp only [true_and, beq_iff_eq, @eq_comm _ k]
  · rw [bucket, indexAdd, Assoc.find_insert, if_neg (Ne.symm hp), ← bucket]
    simp [hp]

/-- How often a bucket has a key, after one occurrence of a key was removed somewhere. -/
theorem count_bucket_indexRemove : (bucket (indexRemove idx p k) p').count k' =
    (bucket idx p').count k' - if p' = p ∧ k' = k then 1 else 0 := by
  unfold indexRemove
  by_cases hp : p' = p
  · subst hp
    cases hvec : idx.find p' with
    | none => simp [bucket, hvec]
    | some vec =>
      have hbucket : bucket idx p' = vec := by rw [bucket, hvec, Option.getD_some]
      have hcount : (removeElem vec k).count k' = vec.count k' - if k' = k then 1 else 0 := by
        rw [(removeElem_perm vec k).count_eq, List.count_erase]
        simp only [beq_iff_eq, @eq_comm _ k]
      simp only [true_and, hbucket]
      split
      · next hempty =>
        rw [bucket, Assoc.find_remove, if_pos rfl, ← hcount, List.isEmpty_iff.mp hempty]
        rfl
      · rw [bucket, Assoc.find_insert, if_pos rfl, Option.getD_some, hcount]
  · have hother : ∀ idx' : Assoc P (List K), idx'.find p' = idx.find p' →
        (bucket idx' p').count k' = (bucket idx p').count k' := by
      intro idx' h
      rw [bucket, h, ← bucket]
    rw [if_neg fun h => hp h.1, Nat.sub_zero]
    cases idx.find p with
    | none => rfl
    | some vec =>
      apply hother
      dsimp only
      split
      · rw [Assoc.find_remove, if_neg hp]
      · rw [Assoc.find_insert, if_neg (Ne.symm hp)]

end

end Contexide.Storage
