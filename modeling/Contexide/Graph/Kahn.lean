import Contexide.Graph.Acyclic
import Mathlib.Algebra.BigOperators.Group.Finset.Basic
import Mathlib.Algebra.Order.BigOperators.Group.Finset
import Mathlib.Logic.Function.Iterate

/-! Kahn's traversal of a finite directed multigraph: a queue of the vertices whose
edges from unvisited vertices are used up, and a count of these edges for every
vertex. The traversal visits every vertex exactly when the graph is acyclic, and then
in an order that respects all edges. -/

namespace Contexide.Graph.Kahn

variable {V : Type*} [DecidableEq V]

/-- The queue, the counts of incoming edges, and the vertices dequeued so far. -/
@[ext] structure State (V : Type*) where
  queue : List V
  indegree : V → ℕ
  order : List V

/-- Use up one edge into `v`, and enqueue `v` with the last one. -/
def relax (s : State V) (v : V) : State V :=
  let indegree := Function.update s.indegree v (s.indegree v - 1)
  { s with
    indegree := indegree
    queue := if indegree v = 0 then s.queue ++ [v] else s.queue }

/-- Dequeue a vertex and use up its edges. -/
def step (succ : V → List V) (s : State V) : State V :=
  match s.queue with
  | [] => s
  | u :: q => (succ u).foldl relax { s with queue := q, order := s.order ++ [u] }

theorem step_of_nil {succ : V → List V} {s : State V} (h : s.queue = []) : step succ s = s := by
  unfold step
  rw [h]

theorem step_of_cons {succ : V → List V} {s : State V} {u : V} {q : List V}
    (h : s.queue = u :: q) :
    step succ s = (succ u).foldl relax { s with queue := q, order := s.order ++ [u] } := by
  unfold step
  rw [h]

theorem iterate_step_of_nil {succ : V → List V} {s : State V} (h : s.queue = []) (k : ℕ) :
    (step succ)^[k] s = s :=
  Function.iterate_fixed (step_of_nil h) k

omit [DecidableEq V] in
theorem idxOf_lt_of_split [BEq V] [LawfulBEq V] {l l₁ l₂ : List V} {u v : V}
    (hl : l = l₁ ++ v :: l₂) (hn : l.Nodup) (hu : u ∈ l₁) : l.idxOf u < l.idxOf v := by
  subst hl
  have hv : v ∉ l₁ := fun hm => (List.nodup_append.mp hn).2.2 v hm v List.mem_cons_self rfl
  rw [List.idxOf_append_of_mem hu, List.idxOf_append_of_notMem hv, List.idxOf_cons_self]
  exact (List.idxOf_lt_length_of_mem hu).trans_le (Nat.le_add_right _ _)

section Relax

variable {s : State V} {l : List V}

@[simp] theorem order_foldl_relax : (l.foldl relax s).order = s.order := by
  induction l generalizing s with
  | nil => rfl
  | cons v l ih => exact ih

theorem indegree_foldl_relax (v : V) :
    (l.foldl relax s).indegree v = s.indegree v - l.count v := by
  induction l generalizing s with
  | nil => simp
  | cons w l ih =>
    rw [List.foldl_cons, ih]
    show Function.update s.indegree w (s.indegree w - 1) v - _ = _
    by_cases h : w = v
    · subst h
      rw [Function.update_self, List.count_cons_self]
      omega
    · rw [Function.update_of_ne (Ne.symm h), List.count_cons_of_ne h]

/-- With enough incoming edges counted, using up the edges `l` enqueues exactly the
vertices whose count they exhaust, each once. -/
theorem queue_foldl_relax (h : ∀ v, l.count v ≤ s.indegree v) :
    ∃ r : List V, (l.foldl relax s).queue = s.queue ++ r ∧ r.Nodup ∧
      ∀ v, v ∈ r ↔ v ∈ l ∧ s.indegree v = l.count v := by
  induction l generalizing s with
  | nil => exact ⟨[], by simp, List.nodup_nil, by simp⟩
  | cons w l ih =>
    have hw := h w
    rw [List.count_cons_self] at hw
    have hself : (relax s w).indegree w = s.indegree w - 1 := Function.update_self ..
    have hother : ∀ v, v ≠ w → (relax s w).indegree v = s.indegree v :=
      fun v hv => Function.update_of_ne hv ..
    obtain ⟨r, hq, hn, hr⟩ := ih (s := relax s w) fun v => by
      by_cases hv : v = w
      · rw [hv, hself]
        omega
      · rw [hother v hv, ← List.count_cons_of_ne (Ne.symm hv)]
        exact h v
    have hrest : ∀ v, v ≠ w → (v ∈ r ↔ v ∈ w :: l ∧ s.indegree v = (w :: l).count v) := by
      intro v hv
      rw [hr, hother v hv, List.mem_cons, or_iff_right hv, List.count_cons_of_ne (Ne.symm hv)]
    by_cases hlast : s.indegree w - 1 = 0
    · -- the last edge into `w`: it is enqueued now and does not occur again
      have hnot : w ∉ l := List.count_eq_zero.mp (by omega)
      refine ⟨w :: r, ?_, List.nodup_cons.mpr ⟨fun hm => hnot ((hr w).mp hm).1, hn⟩, fun v => ?_⟩
      · rw [List.foldl_cons, hq]
        show (if (relax s w).indegree w = 0 then s.queue ++ [w] else s.queue) ++ r = _
        rw [hself, if_pos hlast, List.append_assoc, List.singleton_append]
      · by_cases hv : v = w
        · subst hv
          rw [List.count_cons_self, List.count_eq_zero.mpr hnot]
          exact iff_of_true List.mem_cons_self ⟨List.mem_cons_self, by omega⟩
        · rw [List.mem_cons, or_iff_right hv]
          exact hrest v hv
    · refine ⟨r, ?_, hn, fun v => ?_⟩
      · rw [List.foldl_cons, hq]
        show (if (relax s w).indegree w = 0 then s.queue ++ [w] else s.queue) ++ r = _
        rw [hself, if_neg hlast]
      · by_cases hv : v = w
        · subst hv
          rw [hr, hself, List.count_cons_self]
          constructor
          · rintro ⟨-, he⟩
            exact ⟨List.mem_cons_self, by omega⟩
          · rintro ⟨-, he⟩
            exact ⟨List.count_pos_iff.mp (by omega), by omega⟩
        · exact hrest v hv

end Relax

section Invariant

variable (S : Finset V) (succ : V → List V)

/-- The edges of the graph: those out of its vertices. -/
def Edge (u v : V) : Prop := u ∈ S ∧ v ∈ succ u

/-- The number of edges into `v` from vertices that are not among `visited`. -/
def pending (visited : List V) (v : V) : ℕ := ∑ u ∈ S \ visited.toFinset, (succ u).count v

/-- What holds at every head of the traversal's loop. -/
structure Inv (s : State V) : Prop where
  nodup : (s.order ++ s.queue).Nodup
  subset : ∀ v ∈ s.order ++ s.queue, v ∈ S
  indegree : ∀ v ∈ S, s.indegree v = pending S succ s.order v
  enqueued : ∀ v ∈ S, v ∈ s.order ++ s.queue ↔ s.indegree v = 0
  /-- Whatever precedes a visited vertex was visited before it. -/
  closed : ∀ l₁ v l₂, s.order = l₁ ++ v :: l₂ → ∀ u ∈ S, v ∈ succ u → u ∈ l₁

variable {S succ}

theorem pending_snoc {visited : List V} {u : V} (hu : u ∈ S) (hn : u ∉ visited) (v : V) :
    pending S succ (visited ++ [u]) v + (succ u).count v = pending S succ visited v := by
  have hset : S \ (visited ++ [u]).toFinset = (S \ visited.toFinset).erase u := by
    ext w
    simp only [Finset.mem_sdiff, List.mem_toFinset, List.mem_append, List.mem_singleton,
      Finset.mem_erase, not_or]
    tauto
  have hmem : u ∈ S \ visited.toFinset :=
    Finset.mem_sdiff.mpr ⟨hu, fun h => hn (List.mem_toFinset.mp h)⟩
  rw [pending, pending, hset, Finset.sum_erase_add _ _ hmem]

theorem pending_eq_zero {visited : List V} {v : V} :
    pending S succ visited v = 0 ↔ ∀ u ∈ S, v ∈ succ u → u ∈ visited := by
  rw [pending, Finset.sum_eq_zero_iff]
  constructor
  · intro h u hu hv
    by_contra hn
    have hmem : u ∈ S \ visited.toFinset :=
      Finset.mem_sdiff.mpr ⟨hu, fun hm => hn (List.mem_toFinset.mp hm)⟩
    exact List.count_eq_zero.mp (h u hmem) hv
  · intro h u hu
    rw [Finset.mem_sdiff, List.mem_toFinset] at hu
    exact List.count_eq_zero.mpr fun hv => hu.2 (h u hu.1 hv)

/-- The loop starts with the vertices without incoming edges in the queue. -/
theorem inv_init {vs : List V} {d : V → ℕ} (hn : vs.Nodup)
    (hd : ∀ v ∈ vs, d v = ∑ u ∈ vs.toFinset, (succ u).count v) :
    Inv vs.toFinset succ ⟨vs.filter fun v => d v = 0, d, []⟩ := by
  constructor
  · exact hn.filter _
  · intro v hv
    rw [List.nil_append] at hv
    exact List.mem_toFinset.mpr (List.mem_filter.mp hv).1
  · intro v hv
    show d v = pending vs.toFinset succ [] v
    rw [hd v (List.mem_toFinset.mp hv), pending, List.toFinset_nil, Finset.sdiff_empty]
  · intro v hv
    rw [List.nil_append, List.mem_filter, decide_eq_true_eq]
    exact and_iff_right (List.mem_toFinset.mp hv)
  · intro l₁ v l₂ h
    exact absurd h (by simp)

section Step

variable {s : State V} {u : V} {q : List V}

theorem Inv.head (h : Inv S succ s) (hq : s.queue = u :: q) :
    u ∈ S ∧ u ∉ s.order ∧ ∀ w ∈ S, u ∈ succ w → w ∈ s.order := by
  have hmem : u ∈ s.order ++ s.queue := by simp [hq]
  have hS := h.subset u hmem
  refine ⟨hS, fun hu => ?_, ?_⟩
  · have hn := h.nodup
    rw [hq, List.nodup_append] at hn
    exact hn.2.2 u hu u List.mem_cons_self rfl
  · exact pending_eq_zero.mp ((h.indegree u hS).symm.trans ((h.enqueued u hS).mp hmem))

/-- The edges out of the vertex at the head of the queue are still counted. -/
theorem Inv.count_le (h : Inv S succ s) (hsucc : ∀ u ∈ S, ∀ v ∈ succ u, v ∈ S)
    (hq : s.queue = u :: q) (v : V) : (succ u).count v ≤ s.indegree v := by
  obtain ⟨hu, hn, -⟩ := h.head hq
  by_cases hv : v ∈ succ u
  · rw [h.indegree v (hsucc u hu v hv), ← pending_snoc hu hn v]
    exact Nat.le_add_left _ _
  · rw [List.count_eq_zero.mpr hv]
    exact Nat.zero_le _

/-- The head of the queue can be put behind the vertices visited so far. -/
theorem Inv.closed_snoc (h : Inv S succ s) (hpred : ∀ w ∈ S, u ∈ succ w → w ∈ s.order)
    {l₁ l₂ : List V} {v : V} (heq : s.order ++ [u] = l₁ ++ v :: l₂) :
    ∀ w ∈ S, v ∈ succ w → w ∈ l₁ := by
  intro w hw hvw
  rcases List.eq_nil_or_concat l₂ with rfl | ⟨l, z, rfl⟩
  · obtain ⟨hl, hv⟩ := List.append_inj' (show s.order ++ [u] = l₁ ++ [v] from heq) rfl
    rw [List.cons.injEq] at hv
    exact hl ▸ hpred w hw (hv.1 ▸ hvw)
  · have heq' : s.order ++ [u] = (l₁ ++ v :: l) ++ [z] := by
      rw [List.append_assoc, List.cons_append]
      simpa using heq
    exact h.closed l₁ v l (List.append_inj' heq' rfl).1 w hw hvw

/-- One round of the loop keeps the invariant. -/
theorem Inv.step (h : Inv S succ s) (hsucc : ∀ u ∈ S, ∀ v ∈ succ u, v ∈ S) :
    Inv S succ (step succ s) := by
  cases hq : s.queue with
  | nil => rwa [step_of_nil hq]
  | cons u q =>
    obtain ⟨hu, hn, hpred⟩ := h.head hq
    have hcount := h.count_le hsucc hq
    obtain ⟨r, hqueue, hrn, hr⟩ := queue_foldl_relax
      (s := { s with queue := q, order := s.order ++ [u] }) hcount
    have hperm : ∀ v, v ∈ s.order ++ [u] ++ (q ++ r) ↔ v ∈ s.order ++ s.queue ∨ v ∈ r := by
      intro v
      simp only [hq, List.mem_append, List.mem_cons, List.not_mem_nil, or_false]
      tauto
    have hfresh : ∀ v ∈ r, v ∈ S ∧ v ∉ s.order ++ s.queue := by
      intro v hv
      obtain ⟨hvu, hd⟩ := (hr v).mp hv
      have hvS := hsucc u hu v hvu
      refine ⟨hvS, fun hm => ?_⟩
      have hpos := List.count_pos_iff.mpr hvu
      have hzero := (h.enqueued v hvS).mp hm
      exact absurd (hd.symm.trans hzero) hpos.ne'
    rw [step_of_cons hq]
    constructor
    · rw [order_foldl_relax, hqueue]
      show (s.order ++ [u] ++ (q ++ r)).Nodup
      rw [← List.append_assoc, List.append_assoc s.order, List.singleton_append, ← hq]
      refine List.nodup_append.mpr ⟨h.nodup, hrn, fun a ha b hb hab => ?_⟩
      exact (hfresh b hb).2 (hab ▸ ha)
    · intro v hv
      rw [order_foldl_relax, hqueue] at hv
      rcases (hperm v).mp hv with hv | hv
      · exact h.subset v hv
      · exact (hfresh v hv).1
    · intro v hv
      rw [order_foldl_relax, indegree_foldl_relax]
      show s.indegree v - _ = pending S succ (s.order ++ [u]) v
      rw [h.indegree v hv, ← pending_snoc hu hn v, Nat.add_sub_cancel]
    · intro v hv
      rw [order_foldl_relax, hqueue, indegree_foldl_relax]
      refine (hperm v).trans ?_
      rw [h.enqueued v hv, hr v]
      have hle := hcount v
      show s.indegree v = 0 ∨ v ∈ succ u ∧ s.indegree v = _ ↔ s.indegree v - _ = 0
      by_cases hvu : v ∈ succ u
      · rw [and_iff_right hvu]
        omega
      · rw [List.count_eq_zero.mpr hvu]
        tauto
    · intro l₁ v l₂ heq
      rw [order_foldl_relax] at heq
      exact h.closed_snoc hpred heq

end Step

/-- Every state of a run satisfies the invariant. -/
theorem Inv.iterate {s : State V} (h : Inv S succ s) (hsucc : ∀ u ∈ S, ∀ v ∈ succ u, v ∈ S)
    (k : ℕ) : Inv S succ ((Kahn.step succ)^[k] s) := by
  induction k with
  | zero => exact h
  | succ k ih =>
    rw [Function.iterate_succ_apply']
    exact ih.step hsucc

/-- A round with a nonempty queue visits one vertex. -/
theorem iterate_queue_or_length (s : State V) (k : ℕ) :
    ((step succ)^[k] s).queue = [] ∨
      ((step succ)^[k] s).order.length = s.order.length + k := by
  induction k with
  | zero => exact .inr rfl
  | succ k ih =>
    rw [Function.iterate_succ_apply']
    cases hq : ((step succ)^[k] s).queue with
    | nil =>
      rw [step_of_nil hq]
      exact .inl hq
    | cons u q =>
      have hlen := ih.resolve_left (by simp [hq])
      right
      rw [step_of_cons hq, order_foldl_relax, List.length_append, hlen, List.length_singleton]
      omega

theorem Inv.length_le {s : State V} (h : Inv S succ s) :
    s.order.length + s.queue.length ≤ S.card := by
  rw [← List.length_append, ← List.toFinset_card_of_nodup h.nodup]
  exact Finset.card_le_card fun v hv => h.subset v (List.mem_toFinset.mp hv)

/-- After as many rounds as there are vertices the queue is empty. -/
theorem Inv.queue_eq_nil {s : State V} (h : Inv S succ s)
    (hsucc : ∀ u ∈ S, ∀ v ∈ succ u, v ∈ S) {k : ℕ} (hk : S.card ≤ s.order.length + k) :
    ((Kahn.step succ)^[k] s).queue = [] := by
  rcases @iterate_queue_or_length V _ succ s k with hq | hlen
  · exact hq
  · have hle := (h.iterate hsucc k).length_le
    exact List.length_eq_zero_iff.mp (by omega)

section Finished

variable {s : State V}

theorem Inv.order_toFinset (h : Inv S succ s) (hlen : s.order.length = S.card) :
    s.order.toFinset = S := by
  have hn := (List.nodup_append.mp h.nodup).1
  apply Finset.eq_of_subset_of_card_le
  · intro v hv
    exact h.subset v (List.mem_append_left _ (List.mem_toFinset.mp hv))
  · rw [List.toFinset_card_of_nodup hn, hlen]

/-- When every vertex has been visited, edges go forward in the order of the visits. -/
theorem Inv.exists_split (h : Inv S succ s) (hlen : s.order.length = S.card)
    (hsucc : ∀ u ∈ S, ∀ v ∈ succ u, v ∈ S) {u v : V} (huv : Edge S succ u v) :
    ∃ l₁ l₂, s.order = l₁ ++ v :: l₂ ∧ u ∈ l₁ := by
  have hv : v ∈ s.order := by
    rw [← List.mem_toFinset, h.order_toFinset hlen]
    exact hsucc u huv.1 v huv.2
  obtain ⟨l₁, l₂, hl⟩ := List.append_of_mem hv
  exact ⟨l₁, l₂, hl, h.closed l₁ v l₂ hl u huv.1 huv.2⟩

/-- The finished traversal has visited every vertex exactly when there is no cycle. -/
theorem Inv.length_eq_iff (h : Inv S succ s) (hsucc : ∀ u ∈ S, ∀ v ∈ succ u, v ∈ S)
    (hq : s.queue = []) : s.order.length = S.card ↔ Acyclic (Edge S succ) := by
  constructor
  · intro hlen
    refine acyclic_of_rank (fun v => s.order.idxOf v) fun u v huv => ?_
    obtain ⟨l₁, l₂, hl, hu⟩ := h.exists_split hlen hsucc huv
    exact idxOf_lt_of_split hl (List.nodup_append.mp h.nodup).1 hu
  · intro hac
    by_contra hne
    have hn := (List.nodup_append.mp h.nodup).1
    have hrest : (S \ s.order.toFinset).Nonempty := by
      rw [Finset.sdiff_nonempty]
      intro hsub
      have hle := Finset.card_le_card hsub
      rw [List.toFinset_card_of_nodup hn] at hle
      have hge := h.length_le
      omega
    obtain ⟨v, hv, hsource⟩ := hac.exists_source _ hrest
    rw [Finset.mem_sdiff, List.mem_toFinset] at hv
    -- a vertex that no unvisited vertex precedes has been enqueued, hence visited
    have hzero : s.indegree v = 0 := by
      rw [h.indegree v hv.1, pending_eq_zero]
      intro u hu huv
      by_contra hnot
      exact hsource u (Finset.mem_sdiff.mpr ⟨hu, fun hm => hnot (List.mem_toFinset.mp hm)⟩)
        ⟨hu, huv⟩
    have hmem := (h.enqueued v hv.1).mpr hzero
    rw [hq, List.append_nil] at hmem
    exact hv.2 hmem

end Finished

end Invariant

end Contexide.Graph.Kahn
