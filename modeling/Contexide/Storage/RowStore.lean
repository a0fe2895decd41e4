import Contexide.Storage.Filing

/-! What a repository of rows is for: a table whose rows are read, saved, created, altered
in place, deleted, and listed by a query in the order of their keys. Implementations are
compared with it, and so with each other. -/

namespace Contexide.Storage

/-- The calls of a repository. An alteration names what is done to the row. -/
inductive StoreCall (K V A Q : Type) where
  | get (k : K)
  | save (v : V)
  | create (v : V)
  | delete (k : K)
  | alter (k : K) (a : A)
  | list (q : Q)

/-- What a call returns. -/
inductive StoreAnswer (K V : Type) where
  | found (v : Option V)
  | saved (v : V)
  | created (k : K)
  | done (b : Bool)
  | listed (vs : List V)

/-- How rows are altered and listed. Keys are ordered by their numbers. -/
structure RowStore {K V : Type} (key : V → K) (A Q : Type) where
  number : K → ℕ
  number_inj : Function.Injective number
  alter : A → V → V
  key_alter : ∀ a v, key (alter a v) = key v
  selects : Q → V → Bool
  limit : Q → Option ℕ

namespace RowStore

variable {K V A Q : Type} {key : V → K}

/-- The selected rows in the order of their keys, up to the limit. -/
def listing (S : RowStore key A Q) (rows : List V) (q : Q) : List V :=
  let vs := (rows.filter (S.selects q)).insertionSort fun a b =>
    S.number (key a) ≤ S.number (key b)
  match S.limit q with
  | some n => vs.take n
  | none => vs

/-- The answer of a call and the table after it. -/
def answer [DecidableEq K] (S : RowStore key A Q) (t : Table key) :
    StoreCall K V A Q → StoreAnswer K V × Table key
  | .get k => (.found (t.get k), t)
  | .save v => (.saved v, t.save v)
  | .create v => (.created (key v), t.save v)
  | .delete k => (.done (t.get k).isSome, t.remove k)
  | .alter k a =>
    match t.get k with
    | some v => (.done true, t.save (S.alter a v))
    | none => (.done false, t)
  | .list q => (.listed (S.listing t.rows q), t)

theorem number_of_key (S : RowStore key A Q) {a b : V}
    (h : S.number (key a) = S.number (key b)) : key a = key b := S.number_inj h

/-- A list in the order of the keys with the selected rows is the listing. -/
theorem listing_eq (S : RowStore key A Q) {t : Table key} {q : Q} {vs : List V}
    (hperm : vs.Perm (t.rows.filter (S.selects q)))
    (hsorted : vs.Pairwise fun a b => S.number (key a) < S.number (key b)) :
    S.listing t.rows q = (S.limit q).elim vs vs.take := by
  have hlt := pairwise_lt_insertionSort (fun _ _ h => S.number_of_key h)
    (List.Perm.refl (t.rows.filter (S.selects q)))
  have heq : ((t.rows.filter (S.selects q)).insertionSort fun a b =>
      S.number (key a) ≤ S.number (key b)) = vs :=
    List.Perm.eq_of_pairwise (fun a b _ _ hab hba => absurd hba (lt_asymm hab)) hlt hsorted
      ((List.perm_insertionSort _ _).trans hperm.symm)
  unfold listing
  rw [heq]
  cases S.limit q <;> rfl

/-- A repository whose rows are those of the table after every call, and whose answers are
the table's. -/
structure Refines [DecidableEq K] (S : RowStore key A Q) {M C : Type}
    (call : C → StoreCall K V A Q) (answer : M → C → StoreAnswer K V × M)
    (rows : M → Table key) (Inv : M → Prop) : Prop where
  inv : ∀ m c, Inv m → Inv (answer m c).2
  fst : ∀ m c, Inv m → (answer m c).1 = (S.answer (rows m) (call c)).1
  mem : ∀ m c, Inv m → ∀ v, v ∈ rows (answer m c).2 ↔ v ∈ (S.answer (rows m) (call c)).2

/-- Calls of a repository that are calls of one that refines the table. -/
theorem Refines.of_eq [DecidableEq K] {S : RowStore key A Q} {M C : Type}
    {answer : M → StoreCall K V A Q → StoreAnswer K V × M} {rows : M → Table key}
    {Inv : M → Prop} (h : S.Refines id answer rows Inv) {call : C → StoreCall K V A Q}
    {mem : M → C → StoreAnswer K V × M} (heq : ∀ m c, mem m c = answer m (call c)) :
    S.Refines call mem rows Inv where
  inv m c hm := heq m c ▸ h.inv m (call c) hm
  fst m c hm := heq m c ▸ h.fst m (call c) hm
  mem m c hm := heq m c ▸ h.mem m (call c) hm

end RowStore

end Contexide.Storage
