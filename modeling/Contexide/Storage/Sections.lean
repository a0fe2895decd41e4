import Contexide.Storage.ChildTable

/-! Calls on a child table that overlap. The table and its index have a lock each, and a
call holds one of the two at a time: it changes the table and then, in sections of their
own, the index, or the other way round. Between two sections any other call may take a
lock. Every entry of the index is accounted for under every order of the sections. -/

namespace Contexide.Storage

/-- The elements other than the one at a position, whatever stands there. -/
theorem exists_perm_cons_set {α : Type} {l : List α} {i : ℕ} {x : α} (h : l[i]? = some x) :
    ∃ others, l.Perm (x :: others) ∧ ∀ y, (l.set i y).Perm (y :: others) := by
  obtain ⟨hi, rfl⟩ := List.getElem?_eq_some_iff.mp h
  exact ⟨l.eraseIdx i, (List.getElem_cons_eraseIdx_perm hi).symm, List.set_perm_cons_eraseIdx hi⟩

namespace ChildTable

variable {K P V : Type} [DecidableEq K] [DecidableEq P] {key : V → K}

/-- What a call returns: nothing of interest, whether a row was there, or how many rows
were removed. -/
inductive Answer where
  | saved
  | found (present : Bool)
  | removed (count : ℕ)
  deriving DecidableEq

/-- What a call does under a lock that it takes after its first. -/
inductive Section (P K : Type) where
  | indexAdd (p : P) (k : K)
  | indexRemove (p : P) (k : K)
  | removeRows (p : P) (ks : List K)
  deriving DecidableEq

/-- A section of a call whose answer so far is `answer`. -/
def Section.run (c : ChildTable key P) (answer : Answer) :
    Section P K → Answer × ChildTable key P
  | .indexAdd p k => (answer, { c with byParent := Storage.indexAdd c.byParent p k })
  | .indexRemove p k => (answer, { c with byParent := Storage.indexRemove c.byParent p k })
  | .removeRows _ ks =>
    (.removed (removeAll ks c.byKey 0).1, { c with byKey := (removeAll ks c.byKey 0).2 })

/-- A call under way: its answer so far, and the sections it has before it. -/
structure Task (P K : Type) where
  answer : Answer
  rest : List (Section P K)

/-! ### First sections -/

section First

variable (parent : V → P) (c : ChildTable key P)

/-- The row is stored, and what the index needs is left for later. -/
def saveFirst (entity : V) : Task P K × ChildTable key P :=
  match c.byKey.get (key entity) with
  | none =>
    (⟨.saved, [.indexAdd (parent entity) (key entity)]⟩, { c with byKey := c.byKey.save entity })
  | some old =>
    (⟨.saved,
      if parent old ≠ parent entity then
        [.indexRemove (parent old) (key entity), .indexAdd (parent entity) (key entity)]
      else []⟩,
      { c with byKey := c.byKey.save entity })

def deleteFirst (k : K) : Task P K × ChildTable key P :=
  match c.byKey.get k with
  | some old => (⟨.found true, [.indexRemove (parent old) k]⟩, { c with byKey := c.byKey.remove k })
  | none => (⟨.found false, []⟩, c)

/-- The bucket is taken, and its rows are left for later. -/
def deleteByParentFirst (p : P) : Task P K × ChildTable key P :=
  (⟨.removed 0,
    if (bucket c.byParent p).isEmpty then [] else [.removeRows p (bucket c.byParent p)]⟩,
    { c with byParent := Table.remove c.byParent p })

/-- Change a row in place, under the one lock of the table. -/
def modify (k : K) (f : V → V) : Bool × ChildTable key P :=
  match c.byKey.get k with
  | some old => (true, { c with byKey := c.byKey.save (f old) })
  | none => (false, c)

end First

/-- The calls that change a child table. A change in place keeps the key and the parent. -/
inductive Change (key : V → K) (parent : V → P) where
  | save (entity : V)
  | delete (k : K)
  | deleteByParent (p : P)
  | modify (k : K) (f : V → V) (hkey : ∀ v, key (f v) = key v)
      (hparent : ∀ v, parent (f v) = parent v)

namespace Change

variable {parent : V → P}

/-- The first section of a call. -/
def first (c : ChildTable key P) : Change key parent → Task P K × ChildTable key P
  | .save entity => saveFirst parent c entity
  | .delete k => deleteFirst parent c k
  | .deleteByParent p => deleteByParentFirst c p
  | .modify k f _ _ => (⟨.found (c.modify k f).1, []⟩, (c.modify k f).2)

/-- The call when nothing comes between its sections. -/
def alone (c : ChildTable key P) : Change key parent → Answer × ChildTable key P
  | .save entity => (.saved, c.save parent entity)
  | .delete k => (.found (c.delete parent k).1, (c.delete parent k).2)
  | .deleteByParent p => (.removed (c.deleteByParent p).1, (c.deleteByParent p).2)
  | .modify k f _ _ => (.found (c.modify k f).1, (c.modify k f).2)

end Change

/-- The remaining sections one right after the other. -/
def finish (c : ChildTable key P) (answer : Answer) :
    List (Section P K) → Answer × ChildTable key P
  | [] => (answer, c)
  | sec :: rest => finish (sec.run c answer).2 (sec.run c answer).1 rest

/-- A call whose sections follow one another is the call alone. -/
theorem Change.finish_first {parent : V → P} (c : ChildTable key P) (ch : Change key parent) :
    finish (ch.first c).2 (ch.first c).1.answer (ch.first c).1.rest = ch.alone c := by
  cases ch with
  | save entity =>
    simp only [first, alone, saveFirst, ChildTable.save]
    cases c.byKey.get (key entity) with
    | none => rfl
    | some old =>
      dsimp only
      split <;> rfl
  | delete k =>
    simp only [first, alone, deleteFirst, ChildTable.delete]
    cases c.byKey.get k <;> rfl
  | deleteByParent p =>
    simp only [first, alone, deleteByParentFirst, ChildTable.deleteByParent]
    split <;> rfl
  | modify k f => rfl

/-! ### Entries and rows -/

/-- How often the bucket of a parent has a key. -/
def entries (c : ChildTable key P) (p : P) (k : K) : ℕ := (bucket c.byParent p).count k

/-- Whether the row of a key belongs to a parent, as a number. -/
def filed (parent : V → P) (t : Table key) (p : P) (k : K) : ℕ :=
  (t.get k).elim 0 fun v => if parent v = p then 1 else 0

section Filed

variable {parent : V → P} {t : Table key} {p : P} {k : K}

theorem filed_of_get {v : V} (h : t.get k = some v) :
    filed parent t p k = if parent v = p then 1 else 0 := by
  rw [filed, h]
  rfl

theorem filed_of_get_none (h : t.get k = none) : filed parent t p k = 0 := by
  rw [filed, h]
  rfl

theorem filed_of_mem {v : V} (h : v ∈ t) :
    filed parent t p (key v) = if parent v = p then 1 else 0 :=
  filed_of_get (Table.get_of_mem h)

theorem filed_save (v : V) : filed parent (t.save v) p k =
    if key v = k then if parent v = p then 1 else 0 else filed parent t p k := by
  rw [filed, Table.get_save]
  split <;> rfl

theorem filed_remove (k' : K) : filed parent (t.remove k') p k =
    if k = k' then 0 else filed parent t p k := by
  rw [filed, Table.get_remove]
  split <;> rfl

omit [DecidableEq P] in
theorem get_removeAll (ks : List K) (t : Table key) (n : ℕ) (k : K) :
    (removeAll ks t n).2.get k = if k ∈ ks then none else t.get k := by
  induction ks generalizing t n with
  | nil => simp [removeAll]
  | cons k' ks ih =>
    rw [removeAll, ih, Table.get_remove]
    by_cases hk : k = k'
    · simp [hk]
    · simp [hk]

theorem filed_removeAll (ks : List K) (n : ℕ) : filed parent (removeAll ks t n).2 p k =
    if k ∈ ks then 0 else filed parent t p k := by
  rw [filed, get_removeAll]
  split <;> rfl

theorem filed_modify {f : V → V} (hkey : ∀ v, key (f v) = key v)
    (hparent : ∀ v, parent (f v) = parent v) (c : ChildTable key P) (k' : K) :
    filed parent (c.modify k' f).2.byKey p k = filed parent c.byKey p k := by
  unfold modify
  cases hold : c.byKey.get k' with
  | none => rfl
  | some old =>
    obtain ⟨hmem, rfl⟩ := Table.get_eq_some.mp hold
    rw [filed_save, hkey, hparent]
    split
    · next hk => rw [← hk, filed_of_mem hmem]
    · rfl

end Filed

omit [DecidableEq P] in
theorem byParent_modify (c : ChildTable key P) (k : K) (f : V → V) :
    (c.modify k f).2.byParent = c.byParent := by
  unfold modify
  cases c.byKey.get k <;> rfl

theorem Exact.modify {parent : V → P} {c : ChildTable key P} (h : Exact parent c) (k : K)
    {f : V → V} (hkey : ∀ v, key (f v) = key v) (hparent : ∀ v, parent (f v) = parent v) :
    Exact parent (c.modify k f).2 := by
  unfold ChildTable.modify
  cases hold : c.byKey.get k with
  | none => exact h
  | some old =>
    obtain ⟨hmem, rfl⟩ := Table.get_eq_some.mp hold
    exact ⟨h.valid, h.files.save_same hmem (hkey old).symm (hparent old).symm⟩

end ChildTable

end Contexide.Storage
