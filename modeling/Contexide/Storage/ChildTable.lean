import Contexide.Storage.BucketIndex
import Contexide.Storage.Filing

/-! Tables of rows that belong to a parent, with a bucket index by parent beside
the table. The index is exact: the bucket of a parent has the keys of its rows. -/

namespace Contexide.Storage

variable {K P V : Type} [DecidableEq K] [DecidableEq P]

structure ChildTable (key : V → K) (P : Type) where
  byKey : Table key
  byParent : Assoc P (List K)

namespace ChildTable

variable {key : V → K}

def empty : ChildTable key P := ⟨.empty, .empty⟩

section Operations

variable (parent : V → P) (c : ChildTable key P)

/-- Insert or update; a row that moves to another parent moves in the index. -/
def save (entity : V) : ChildTable key P :=
  match c.byKey.get (key entity) with
  | none =>
    { byKey := c.byKey.save entity
      byParent := indexAdd c.byParent (parent entity) (key entity) }
  | some old =>
    if parent old ≠ parent entity then
      { byKey := c.byKey.save entity
        byParent := indexAdd (indexRemove c.byParent (parent old) (key entity)) (parent entity)
          (key entity) }
    else { c with byKey := c.byKey.save entity }

/-- Delete by key; whether something was removed. -/
def delete (k : K) : Bool × ChildTable key P :=
  match c.byKey.get k with
  | some old =>
    (true, { byKey := c.byKey.remove k, byParent := indexRemove c.byParent (parent old) k })
  | none => (false, c)

/-- The rows of a parent, sorted by their ranks. -/
def list {α : Type} [LinearOrder α] (rank : V → α) (p : P) : List V :=
  ((bucket c.byParent p).filterMap c.byKey.get).insertionSort fun a b => rank a ≤ rank b

/-- Remove the rows of keys, counting those that were there. -/
def removeAll : List K → Table key → ℕ → ℕ × Table key
  | [], store, removed => (removed, store)
  | k :: ks, store, removed =>
    removeAll ks (store.remove k) (if (store.get k).isSome then removed + 1 else removed)

/-- Delete all rows of a parent and its bucket; how many were removed. -/
def deleteByParent (p : P) : ℕ × ChildTable key P :=
  if (bucket c.byParent p).isEmpty then (0, { c with byParent := Table.remove c.byParent p })
  else
    ((removeAll (bucket c.byParent p) c.byKey 0).1,
      { byKey := (removeAll (bucket c.byParent p) c.byKey 0).2
        byParent := Table.remove c.byParent p })

end Operations

/-! The table is saved to and removed from as it would be without the index. -/

theorem byKey_save (parent : V → P) (c : ChildTable key P) (entity : V) :
    (c.save parent entity).byKey = c.byKey.save entity := by
  unfold save
  cases c.byKey.get (key entity) with
  | none => rfl
  | some old =>
    show (if _ then _ else _ : ChildTable key P).byKey = _
    split <;> rfl

theorem delete_eq (parent : V → P) (c : ChildTable key P) (k : K) :
    (c.delete parent k).1 = (c.byKey.get k).isSome ∧
      ∀ v, v ∈ (c.delete parent k).2.byKey ↔ v ∈ c.byKey ∧ key v ≠ k := by
  unfold delete
  cases hold : c.byKey.get k with
  | none =>
    refine ⟨rfl, fun v => ⟨fun hv => ⟨hv, fun hk => ?_⟩, And.left⟩⟩
    exact Table.get_eq_none.mp hold ⟨v, hv, hk⟩
  | some old => exact ⟨rfl, fun v => Table.mem_remove⟩

/-- The buckets are valid and have exactly the keys of the rows of their parents. -/
structure Exact (parent : V → P) (c : ChildTable key P) : Prop where
  valid : BucketsValid c.byParent
  mem : ∀ p k, k ∈ bucket c.byParent p ↔ ∃ v ∈ c.byKey, key v = k ∧ parent v = p

namespace Exact

variable {parent : V → P} {c : ChildTable key P}

omit [DecidableEq K] in
theorem empty : Exact parent (.empty : ChildTable key P) where
  valid := .empty
  mem p k := by simp [bucket, ChildTable.empty]

omit [DecidableEq K] in
theorem files (h : Exact parent c) : Files parent c.byKey fun p k => k ∈ bucket c.byParent p :=
  h.mem

theorem save (h : Exact parent c) (v : V) : Exact parent (c.save parent v) := by
  unfold ChildTable.save
  cases hold : c.byKey.get (key v) with
  | none =>
    have hnew := Table.get_eq_none.mp hold
    have hno : key v ∉ bucket c.byParent (parent v) := by
      intro hk
      obtain ⟨u, hu, he, _⟩ := (h.mem _ _).mp hk
      exact hnew ⟨u, hu, he⟩
    exact ⟨h.valid.indexAdd hno, fun p k =>
      mem_bucket_indexAdd.trans (h.files.save_new hnew p k)⟩
  | some old =>
    obtain ⟨hmem, hkey⟩ := Table.get_eq_some.mp hold
    dsimp only
    split
    · next hne =>
      have hrem := h.valid.indexRemove (parent old) (key v)
      have hno : key v ∉ bucket (indexRemove c.byParent (parent old) (key v)) (parent v) := by
        rw [mem_bucket_indexRemove h.valid, ← hkey, h.files.attr_eq hmem]
        rintro ⟨heq, -⟩
        exact hne heq.symm
      refine ⟨hrem.indexAdd hno, fun p k => ?_⟩
      rw [mem_bucket_indexAdd, mem_bucket_indexRemove h.valid]
      exact h.files.save_move hmem hkey p k
    · next hsame =>
      exact ⟨h.valid, h.files.save_same hmem hkey (Classical.not_not.mp hsame)⟩

theorem delete (h : Exact parent c) (k : K) : Exact parent (c.delete parent k).2 := by
  unfold ChildTable.delete
  cases hold : c.byKey.get k with
  | none => exact h
  | some old =>
    obtain ⟨hmem, rfl⟩ := Table.get_eq_some.mp hold
    exact ⟨h.valid.indexRemove _ _, fun p k =>
      (mem_bucket_indexRemove h.valid).trans (h.files.remove hmem p k)⟩

omit [DecidableEq K] in
/-- The keys in a bucket are those of the rows of the parent. -/
theorem bucket_perm (h : Exact parent c) (p : P) :
    (bucket c.byParent p).Perm ((c.byKey.rows.filter fun v => parent v = p).map key) :=
  h.files.keys_perm (h.valid.nodup p) fun _ => Iff.rfl

/-- A listing has the rows of the parent, each once. -/
theorem list_perm {α : Type} [LinearOrder α] (h : Exact parent c) (rank : V → α) (p : P) :
    (c.list rank p).Perm (c.byKey.rows.filter fun v => parent v = p) :=
  (List.perm_insertionSort _ _).trans
    (h.files.filterMap_get_perm (h.valid.nodup p) fun _ => Iff.rfl)

/-- A listing is in the order of the ranks, when no two rows have the same. -/
theorem list_sorted {α : Type} [LinearOrder α] (h : Exact parent c) {rank : V → α}
    (hrank : ∀ a b, rank a = rank b → key a = key b) (p : P) :
    (c.list rank p).Pairwise fun a b => rank a < rank b :=
  pairwise_lt_insertionSort hrank
    (h.files.filterMap_get_perm (h.valid.nodup p) fun _ => Iff.rfl)

end Exact

/-- Removing different keys that all have rows. -/
theorem removeAll_spec {ks : List K} {store : Table key} (hn : ks.Nodup)
    (hks : ∀ k ∈ ks, store.Has k) (removed : ℕ) :
    (removeAll ks store removed).1 = removed + ks.length ∧
      ∀ v, v ∈ (removeAll ks store removed).2 ↔ v ∈ store ∧ key v ∉ ks := by
  induction ks generalizing store removed with
  | nil => simp [removeAll]
  | cons k ks ih =>
    obtain ⟨v, hv, rfl⟩ := hks _ List.mem_cons_self
    have hrest : ∀ k' ∈ ks, (store.remove (key v)).Has k' := by
      intro k' hk'
      obtain ⟨u, hu, rfl⟩ := hks k' (List.mem_cons_of_mem _ hk')
      exact ⟨u, Table.mem_remove.mpr ⟨hu, fun he => (List.nodup_cons.mp hn).1 (he ▸ hk')⟩, rfl⟩
    obtain ⟨hcount, hstore⟩ := ih (List.nodup_cons.mp hn).2 hrest (removed + 1)
    rw [removeAll, Table.get_of_mem hv, if_pos (Option.isSome_some)]
    constructor
    · rw [hcount, List.length_cons]
      omega
    · intro u
      rw [hstore, Table.mem_remove, List.mem_cons]
      tauto

namespace Exact

variable {parent : V → P} {c : ChildTable key P}

/-- Deleting by parent removes the rows of the parent and reports their number. -/
theorem deleteByParent_spec (h : Exact parent c) (p : P) :
    (c.deleteByParent p).1 = (c.byKey.rows.filter fun v => parent v = p).length ∧
      ∀ v, v ∈ (c.deleteByParent p).2.byKey ↔ v ∈ c.byKey ∧ parent v ≠ p := by
  have hlen := (h.bucket_perm p).length_eq
  rw [List.length_map] at hlen
  have hkeys : ∀ v ∈ c.byKey, key v ∈ bucket c.byParent p ↔ parent v = p := by
    intro v hv
    rw [h.files.attr_eq hv, eq_comm]
  unfold ChildTable.deleteByParent
  split
  · next hempty =>
    rw [List.isEmpty_iff.mp hempty] at hlen hkeys
    have hne : ∀ v ∈ c.byKey, parent v ≠ p := by
      intro v hv hp
      exact List.not_mem_nil ((hkeys v hv).mpr hp)
    exact ⟨hlen, fun v => ⟨fun hv => ⟨hv, hne v hv⟩, And.left⟩⟩
  · have hhas : ∀ k ∈ bucket c.byParent p, c.byKey.Has k := by
      intro k hk
      obtain ⟨v, hv, hkey, _⟩ := (h.mem p k).mp hk
      exact ⟨v, hv, hkey⟩
    obtain ⟨hcount, hstore⟩ := removeAll_spec (h.valid.nodup p) hhas 0
    constructor
    · rw [← hlen, hcount, Nat.zero_add]
    · intro v
      rw [hstore]
      apply and_congr_right
      intro hv
      rw [hkeys v hv]

theorem deleteByParent (h : Exact parent c) (p : P) :
    Exact parent (c.deleteByParent p).2 := by
  have hidx : (c.deleteByParent p).2.byParent = Table.remove c.byParent p := by
    unfold ChildTable.deleteByParent
    split <;> rfl
  constructor
  · rw [hidx]
    exact h.valid.remove p
  · intro p' k
    rw [hidx, mem_bucket_remove, h.mem]
    constructor
    · rintro ⟨hp, v, hv, rfl, rfl⟩
      exact ⟨v, ((h.deleteByParent_spec p).2 v).mpr ⟨hv, hp⟩, rfl, rfl⟩
    · rintro ⟨v, hv, rfl, rfl⟩
      obtain ⟨hv, hp⟩ := ((h.deleteByParent_spec p).2 v).mp hv
      exact ⟨hp, v, hv, rfl, rfl⟩

end Exact

/-! ### Runs -/

/-- The calls that change a child table. -/
inductive Call (V K P : Type) where
  | save (entity : V)
  | delete (k : K)
  | deleteByParent (p : P)

def Call.run (parent : V → P) (c : ChildTable key P) : Call V K P → ChildTable key P
  | .save entity => c.save parent entity
  | .delete k => (c.delete parent k).2
  | .deleteByParent p => (c.deleteByParent p).2

theorem Exact.run {parent : V → P} {c : ChildTable key P} (h : Exact parent c)
    (call : Call V K P) : Exact parent (call.run parent c) := by
  cases call with
  | save entity => exact h.save entity
  | delete k => exact h.delete k
  | deleteByParent p => exact h.deleteByParent p

/-- The index is exact in every state of a run. -/
theorem Exact.scanl {parent : V → P} {c : ChildTable key P} (h : Exact parent c)
    (calls : List (Call V K P)) : ∀ c' ∈ calls.scanl (Call.run parent) c, Exact parent c' := by
  induction calls generalizing c with
  | nil =>
    intro c' hc'
    rw [List.mem_singleton.mp hc']
    exact h
  | cons call calls ih =>
    rw [List.scanl_cons, List.forall_mem_cons]
    exact ⟨h, ih (h.run call)⟩

end ChildTable

end Contexide.Storage
