import Mathlib.Data.Fintype.Card
import Mathlib.Logic.Relation
import Mathlib.Order.WellFounded
import Mathlib.Data.Fintype.EquivFin
import Mathlib.Data.Fintype.Sets

/-! Acyclic relations: a relation that a rank increases along is acyclic, and every
finite nonempty set has an element that no other of its elements precedes. -/

namespace Contexide.Graph

variable {V W : Type*}

/-- No path returns to its start. -/
def Acyclic (r : V → V → Prop) : Prop := ∀ v, ¬ Relation.TransGen r v v

theorem acyclic_of_rank {r : V → V → Prop} (rank : V → ℕ) (h : ∀ u v, r u v → rank u < rank v) :
    Acyclic r := by
  have hlt : ∀ u v, Relation.TransGen r u v → rank u < rank v := by
    intro u v huv
    induction huv with
    | single huv => exact h _ _ huv
    | tail _ hvw ih => exact ih.trans (h _ _ hvw)
  exact fun v hv => Nat.lt_irrefl _ (hlt v v hv)

/-- A map that keeps edges reflects acyclicity. -/
theorem Acyclic.of_map {r : V → V → Prop} {q : W → W → Prop} (hq : Acyclic q) (f : V → W)
    (h : ∀ u v, r u v → q (f u) (f v)) : Acyclic r :=
  fun v hv => hq (f v) (Relation.TransGen.lift f (fun u w => h u w) v v hv)

/-- In a finite set, walking backwards along an acyclic relation ends. -/
theorem Acyclic.exists_source {r : V → V → Prop} (hr : Acyclic r) (S : Finset V)
    (hS : S.Nonempty) : ∃ v ∈ S, ∀ u ∈ S, ¬ r u v := by
  let q : S → S → Prop := fun a b => Relation.TransGen r a b
  have : IsTrans S q := ⟨fun _ _ _ hab hbc => Relation.TransGen.trans hab hbc⟩
  have : Std.Irrefl q := ⟨fun a => hr a⟩
  have hwf : WellFounded q := Finite.wellFounded_of_trans_of_irrefl q
  obtain ⟨v, hv⟩ := hS
  obtain ⟨m, -, hm⟩ := hwf.has_min Set.univ ⟨⟨v, hv⟩, trivial⟩
  exact ⟨m, m.2, fun u hu hum => hm ⟨u, hu⟩ trivial (.single hum)⟩

/-- In a finite set that contains the predecessors of its elements, every element is
reached from one without predecessors. -/
theorem Acyclic.exists_reachable_source {r : V → V → Prop} (hr : Acyclic r) (S : Finset V)
    (hS : ∀ v ∈ S, ∀ u, r u v → u ∈ S) {v : V} (hv : v ∈ S) :
    ∃ u ∈ S, (∀ w, ¬ r w u) ∧ Relation.ReflTransGen r u v := by
  classical
  let ancestors := S.filter fun u => Relation.ReflTransGen r u v
  have hne : ancestors.Nonempty := ⟨v, Finset.mem_filter.mpr ⟨hv, .refl⟩⟩
  obtain ⟨u, hu, hsource⟩ := hr.exists_source ancestors hne
  obtain ⟨huS, huv⟩ := Finset.mem_filter.mp hu
  refine ⟨u, huS, fun w hwu => ?_, huv⟩
  have hw : w ∈ ancestors := Finset.mem_filter.mpr ⟨hS u huS w hwu, .head hwu huv⟩
  exact hsource w hw hwu

end Contexide.Graph
