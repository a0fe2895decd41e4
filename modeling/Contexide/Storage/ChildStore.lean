import Contexide.Storage.RowStore
import Contexide.Storage.Sections

/-! A child table is a repository of rows, listed by parent in the order of their keys. -/

namespace Contexide.Storage

namespace ChildTable

variable {K P V A : Type} [DecidableEq K] [DecidableEq P] {key : V → K} {parent : V → P}

/-- The answer of a call and the child table after it. -/
def answerCall (parent : V → P) (S : RowStore key A P) (c : ChildTable key P) :
    StoreCall K V A P → StoreAnswer K V × ChildTable key P
  | .get k => (.found (c.byKey.get k), c)
  | .save v => (.saved v, c.save parent v)
  | .create v => (.created (key v), c.save parent v)
  | .delete k => (.done (c.delete parent k).1, (c.delete parent k).2)
  | .alter k a => (.done (c.modify k (S.alter a)).1, (c.modify k (S.alter a)).2)
  | .list p => (.listed (c.list (fun v => S.number (key v)) p), c)

/-- The index does not show, when alterations keep the parent and a listing selects the
rows of one. -/
theorem refines {S : RowStore key A P} (halter : ∀ a v, parent (S.alter a v) = parent v)
    (hselects : ∀ p v, S.selects p v = decide (parent v = p)) (hlimit : ∀ p, S.limit p = none) :
    S.Refines id (answerCall parent S) ChildTable.byKey (Exact parent) where
  inv c call h := by
    cases call with
    | get k => exact h
    | save v => exact h.save v
    | create v => exact h.save v
    | delete k => exact h.delete k
    | alter k a => exact h.modify k (S.key_alter a) (halter a)
    | list p => exact h
  fst c call h := by
    cases call with
    | get k => rfl
    | save v => rfl
    | create v => rfl
    | delete k => exact congrArg StoreAnswer.done (delete_eq parent c k).1
    | alter k a =>
      simp only [answerCall, RowStore.answer, ChildTable.modify, id]
      cases c.byKey.get k <;> rfl
    | list p =>
      have hrows : (c.list (fun v => S.number (key v)) p).Perm
          (c.byKey.rows.filter (S.selects p)) := by
        rw [show S.selects p = fun v => decide (parent v = p) from funext (hselects p)]
        exact h.list_perm _ p
      have hlisting := S.listing_eq hrows (h.list_sorted (fun _ _ hk => S.number_of_key hk) p)
      rw [hlimit] at hlisting
      exact congrArg StoreAnswer.listed hlisting.symm
  mem c call h v := by
    cases call with
    | get k => exact Iff.rfl
    | save u =>
      show v ∈ (c.save parent u).byKey ↔ _
      rw [byKey_save]
      exact Iff.rfl
    | create u =>
      show v ∈ (c.save parent u).byKey ↔ _
      rw [byKey_save]
      exact Iff.rfl
    | delete k => exact ((delete_eq parent c k).2 v).trans Table.mem_remove.symm
    | alter k a =>
      simp only [answerCall, RowStore.answer, ChildTable.modify, id]
      cases c.byKey.get k <;> exact Iff.rfl
    | list p => exact Iff.rfl

end ChildTable

end Contexide.Storage
