import Mathlib.Order.OrderIsoNat

/-! Settling by rank. Along an infinite sequence of states whose steps either leave
an observation alone or lower a rank in a well-founded order, the observation is
eventually left alone for ever. Who takes the steps, and how often, is not said:
fairness enters only where a settled observation is shown to have an enabled step. -/

namespace Contexide.Effects

variable {σ β : Type} [PartialOrder β] [WellFoundedLT β]

/-- What is observed of the states settles when each step leaves it or lowers the rank. -/
theorem settles (rank : σ → β) {same : σ → σ → Prop} (hrefl : ∀ s, same s s)
    (htrans : ∀ {s t u}, same s t → same t u → same s u)
    (hrank : ∀ {s t}, same s t → rank t = rank s) (run : ℕ → σ)
    (hstep : ∀ n, same (run n) (run (n + 1)) ∨ rank (run (n + 1)) < rank (run n)) :
    ∃ N, ∀ n ≥ N, same (run N) (run n) := by
  have hanti : Antitone (rank ∘ run) := antitone_nat_of_succ_le fun n =>
    (hstep n).elim (fun h => (hrank h).le) le_of_lt
  obtain ⟨N, hN⟩ := WellFoundedLT.antitone_chain_condition hanti
  have hsame : ∀ n ≥ N, same (run n) (run (n + 1)) := fun n hn =>
    (hstep n).resolve_right fun hlt =>
      absurd ((hN (n + 1) (by omega)).symm.trans (hN n hn)) hlt.ne
  refine ⟨N, fun n hn => ?_⟩
  induction n, hn using Nat.le_induction with
  | base => exact hrefl _
  | succ n hn ih => exact htrans ih (hsame n hn)

end Contexide.Effects
