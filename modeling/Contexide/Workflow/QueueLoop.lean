import Contexide.Workflow.DagOrder

/-! The queue loop that `validate` and `topo_order` share, head by head. On distinct keys
and existing endpoints, with any number of parallel edges and loops, a count is at every
head the number of edges from nodes that are still to be dequeued. So every index is in
bounds, no decrement underflows, and no node is enqueued a second time. -/

namespace Contexide.Workflow

open Contexide.Graph

namespace Dag

/-- The variables of the loop at its head. `topo_order` keeps the dequeued positions,
`validate` only their number. -/
structure LoopState where
  queue : List ℕ
  indegree : List ℕ
  dequeued : List ℕ

/-- The loop is at its head after a number of rounds, none of which panicked. -/
inductive Head (g : Adjacency) : ℕ → LoopState → Prop
  | start : Head g 0 ⟨initialQueue g.indegree, g.indegree, []⟩
  | round {k u : ℕ} {s : LoopState} {q row q' indegree' : List ℕ} (head : Head g k s)
      (front : s.queue = u :: q) (edges : indexed g.adj u = .ok row)
      (inner : row.foldlM relax (q, s.indegree) = .ok (q', indegree')) :
      Head g (k + 1) ⟨q', indegree', s.dequeued ++ [u]⟩

/-- The number of edges into the node at `v`, with multiplicity, from nodes that have not
been dequeued. -/
def pendingEdges (dag : Dag) (dequeued : List ℕ) (v : ℕ) : ℕ :=
  dag.edges.countP fun e =>
    dag.keys[v]? = some e.toKey ∧ ∀ u ∈ dequeued, dag.keys[u]? ≠ some e.fromKey

/-- A position enters the queue once and leaves it into `dequeued`, so the two together
are everything that was ever enqueued. -/
def LoopState.enqueued (s : LoopState) : List ℕ := s.dequeued ++ s.queue

/-- What holds at a head of the loop on the vectors of a DAG. -/
structure SafeHead (dag : Dag) (g : Adjacency) (rounds : ℕ) (s : LoopState) : Prop where
  indegree : ∀ v < dag.nodes.length, s.indegree[v]? = some (dag.pendingEdges s.dequeued v)
  enqueued_once : s.enqueued.Nodup
  rounds_le : rounds ≤ dag.nodes.length
  /-- The row exists, and every decrement in it finds a positive count. -/
  decrement : ∀ u q, s.queue = u :: q → ∃ row, g.adj[u]? = some row ∧
    ∀ l₁ v l₂, row = l₁ ++ v :: l₂ → ∃ q' indegree' c,
      l₁.foldlM relax (q, s.indegree) = .ok (q', indegree') ∧ indegree'[v]? = some (c + 1)
  /-- The round ends, and what it enqueues was not enqueued before. -/
  next : ∀ u q, s.queue = u :: q → ∃ row pushed indegree', indexed g.adj u = .ok row ∧
    row.foldlM relax (q, s.indegree) = .ok (q ++ pushed, indegree') ∧
    (s.enqueued ++ pushed).Nodup

/-! ### One decrement -/

theorem relax_eq_ok {s s' : List ℕ × List ℕ} {v : ℕ} (h : relax s v = .ok s') :
    ∃ c, s.2[v]? = some (c + 1) := by
  unfold relax at h
  cases hd : indexed s.2 v with
  | error e =>
    rw [hd] at h
    cases h
  | ok d =>
    cases d with
    | zero =>
      rw [hd] at h
      cases h
    | succ c => exact ⟨c, indexed_eq_ok.mp hd⟩

/-- In an inner loop that ends, every decrement is of a positive count. -/
theorem relax_positive {s s' : List ℕ × List ℕ} {l₁ l₂ : List ℕ} {v : ℕ}
    (h : (l₁ ++ v :: l₂).foldlM relax s = .ok s') :
    ∃ q' indegree' c, l₁.foldlM relax s = .ok (q', indegree') ∧
      indegree'[v]? = some (c + 1) := by
  rw [List.foldlM_append] at h
  cases hl : l₁.foldlM relax s with
  | error e =>
    rw [hl] at h
    cases h
  | ok t =>
    rw [hl] at h
    have hv : (relax t v >>= fun t' => l₂.foldlM relax t') = .ok s' := h
    cases hr : relax t v with
    | error e =>
      rw [hr] at hv
      cases hv
    | ok t' =>
      obtain ⟨c, hc⟩ := relax_eq_ok hr
      exact ⟨t.1, t.2, c, rfl, hc⟩

/-! ### Edges that are still counted -/

variable {dag : Dag} {g : Adjacency}

/-- In a DAG with distinct keys an edge starts at one position. -/
theorem sum_from_eq (hn : dag.keys.Nodup) {S : Finset ℕ} {dequeued : List ℕ} {k : String}
    (hS : ∀ u, u ∈ S ↔ u < dag.keys.length ∧ u ∉ dequeued) (hk : k ∈ dag.keys) :
    (∑ u ∈ S, if dag.keys[u]? = some k then 1 else 0) =
      if ∀ u ∈ dequeued, dag.keys[u]? ≠ some k then 1 else 0 := by
  have hpos : ∀ u, dag.keys[u]? = some k ↔ u = dag.keys.idxOf k := by
    intro u
    constructor
    · intro hu
      obtain ⟨hlt, rfl⟩ := List.getElem?_eq_some_iff.mp hu
      exact (hn.idxOf_getElem u hlt).symm
    · rintro rfl
      exact List.getElem?_idxOf hk
  simp only [ne_eq, hpos, Finset.sum_ite_eq']
  congr 1
  rw [hS, eq_iff_iff]
  constructor
  · rintro ⟨-, hnot⟩ u hu rfl
    exact hnot hu
  · intro h
    exact ⟨List.idxOf_lt_length_of_mem hk, fun hu => h _ hu rfl⟩

/-- The counts of the traversal are those of the edges from nodes not yet dequeued. -/
theorem pending_eq (hn : dag.keys.Nodup)
    (hends : ∀ e ∈ dag.edges, e.fromKey ∈ dag.keys ∧ e.toKey ∈ dag.keys)
    (hg : ∀ u v, (g.row u).count v = dag.edgeCount u v) (dequeued : List ℕ) (v : ℕ) :
    Kahn.pending (Finset.range dag.nodes.length) g.row dequeued v =
      dag.pendingEdges dequeued v := by
  have hS : ∀ u, u ∈ Finset.range dag.nodes.length \ dequeued.toFinset ↔
      u < dag.keys.length ∧ u ∉ dequeued := by
    intro u
    rw [Finset.mem_sdiff, Finset.mem_range, List.mem_toFinset, keys, List.length_map]
  rw [Kahn.pending, pendingEdges]
  simp only [hg, edgeCount]
  revert hends
  induction dag.edges with
  | nil => simp
  | cons e edges ih =>
    intro hends
    have hsplit := sum_from_eq hn hS (hends e List.mem_cons_self).1
    simp only [List.countP_cons, Finset.sum_add_distrib,
      ih fun e' he' => hends e' (List.mem_cons_of_mem _ he'), decide_eq_true_eq]
    congr 1
    by_cases hv : dag.keys[v]? = some e.toKey
    · simp only [hv, and_true, true_and]
      exact hsplit
    · simp only [hv, and_false, false_and, if_false, Finset.sum_const_zero]

/-! ### Every head -/

/-- Every head of the loop is a state of Kahn's traversal. -/
theorem Head.inv {n k : ℕ} {s : LoopState} (hb : g.Balanced n) (h : Head g k s) :
    s.dequeued.length = k ∧ ∃ f, Represents n s.indegree f ∧
      Kahn.Inv (Finset.range n) g.row ⟨s.queue, f, s.dequeued⟩ := by
  have hsucc : ∀ u ∈ Finset.range n, ∀ v ∈ g.row u, v ∈ Finset.range n :=
    fun u _ v hv => Finset.mem_range.mpr (hb.bound u v hv)
  induction h with
  | start => exact ⟨rfl, _, hb.degree, inv_start hb⟩
  | @round k u s q row q' indegree' _ front edges inner ih =>
    obtain ⟨hlen, f, hrep, hinv⟩ := ih
    have hrow : row = g.row u := by
      rw [Adjacency.row]
      rw [indexed_eq_ok.mp edges]
      rfl
    obtain ⟨indegree'', hfold, hrep'⟩ := foldlM_relax
      (s := ⟨q, f, s.dequeued ++ [u]⟩) hrep (hb.bound u) (hinv.count_le hsucc front)
    rw [hrow, hfold] at inner
    obtain ⟨rfl, rfl⟩ := Prod.mk.inj (Except.ok.inj inner)
    refine ⟨by rw [List.length_append, hlen, List.length_singleton], _, hrep', ?_⟩
    let t := (g.row u).foldl Kahn.relax ⟨q, f, s.dequeued ++ [u]⟩
    have horder : t.order = s.dequeued ++ [u] := Kahn.order_foldl_relax
    have hstep := hinv.step hsucc
    rw [Kahn.step_of_cons (s := ⟨s.queue, f, s.dequeued⟩) front] at hstep
    have hstep' : Kahn.Inv (Finset.range n) g.row ⟨t.queue, t.indegree, t.order⟩ := hstep
    rwa [horder] at hstep'

/-- With a nonempty queue the next round ends, and what it enqueues is new. -/
theorem Head.exists_round {n k : ℕ} {s : LoopState} (hb : g.Balanced n) (h : Head g k s)
    {u : ℕ} {q : List ℕ} (hq : s.queue = u :: q) :
    ∃ pushed indegree', g.adj[u]? = some (g.row u) ∧
      (g.row u).foldlM relax (q, s.indegree) = .ok (q ++ pushed, indegree') ∧
      (s.enqueued ++ pushed).Nodup := by
  have hsucc : ∀ u ∈ Finset.range n, ∀ v ∈ g.row u, v ∈ Finset.range n :=
    fun u _ v hv => Finset.mem_range.mpr (hb.bound u v hv)
  obtain ⟨-, f, hrep, hinv⟩ := h.inv hb
  have hcount := hinv.count_le hsucc hq
  have hrow := hb.getElem?_adj (Finset.mem_range.mp (hinv.head hq).1)
  obtain ⟨indegree', hfold, -⟩ := foldlM_relax
    (s := ⟨q, f, s.dequeued ++ [u]⟩) hrep (hb.bound u) hcount
  obtain ⟨pushed, hqueue, -⟩ := Kahn.queue_foldl_relax
    (s := ⟨q, f, s.dequeued ++ [u]⟩) hcount
  rw [hqueue] at hfold
  refine ⟨pushed, indegree', hrow, hfold, ?_⟩
  have hnext := Head.round h hq (indexed_eq_ok.mpr hrow) hfold
  obtain ⟨-, f', -, hinv'⟩ := hnext.inv hb
  have hnodup := hinv'.nodup
  rw [LoopState.enqueued, hq]
  simpa using hnodup

/-- A head with a nonempty queue comes before the last round. -/
theorem Head.length_le {n k : ℕ} {s : LoopState} (hb : g.Balanced n) (h : Head g k s) :
    k + s.queue.length ≤ n := by
  obtain ⟨hlen, f, -, hinv⟩ := h.inv hb
  have hle := hinv.length_le
  rwa [Finset.card_range, hlen] at hle

/-- Some head with an empty queue is reached. -/
theorem exists_last {n : ℕ} (hb : g.Balanced n) : ∃ k s, Head g k s ∧ s.queue = [] := by
  by_contra hnone
  have hall : ∀ k, ∃ s, Head g k s := by
    intro k
    induction k with
    | zero => exact ⟨_, .start⟩
    | succ k ih =>
      obtain ⟨s, hs⟩ := ih
      cases hq : s.queue with
      | nil => exact absurd ⟨k, s, hs, hq⟩ hnone
      | cons u q =>
        obtain ⟨pushed, indegree', hrow, hfold, -⟩ := hs.exists_round hb hq
        exact ⟨_, .round hs hq (indexed_eq_ok.mpr hrow) hfold⟩
  obtain ⟨s, hs⟩ := hall (n + 1)
  have hle := hs.length_le hb
  omega

/-- Both loops come through every head. -/
theorem Head.loops_eq {n k : ℕ} {s : LoopState} (hb : g.Balanced n) (h : Head g k s) :
    orderLoop g.adj n (initialQueue g.indegree) g.indegree [] =
        orderLoop g.adj (n - k) s.queue s.indegree s.dequeued ∧
      countLoop g.adj n (initialQueue g.indegree) g.indegree 0 =
        countLoop g.adj (n - k) s.queue s.indegree k := by
  induction h with
  | start => exact ⟨rfl, rfl⟩
  | @round k u s q row q' indegree' head front edges inner ih =>
    have hle := head.length_le hb
    rw [front, List.length_cons] at hle
    have hrounds : n - k = n - (k + 1) + 1 := by omega
    rw [ih.1, ih.2, hrounds, front, orderLoop, countLoop, edges]
    constructor
    · show (row.foldlM relax (q, s.indegree) >>= _) = _
      rw [inner]
      rfl
    · show (row.foldlM relax (q, s.indegree) >>= _) = _
      rw [inner]
      rfl

theorem Head.safe {k : ℕ} {s : LoopState} (hn : dag.keys.Nodup)
    (hends : ∀ e ∈ dag.edges, e.fromKey ∈ dag.keys ∧ e.toKey ∈ dag.keys)
    (hb : g.Balanced dag.nodes.length) (hg : ∀ u v, (g.row u).count v = dag.edgeCount u v)
    (h : Head g k s) : SafeHead dag g k s := by
  obtain ⟨-, f, hrep, hinv⟩ := h.inv hb
  constructor
  · intro v hv
    rw [hrep v hv, ← pending_eq hn hends hg]
    exact congrArg some (hinv.indegree v (Finset.mem_range.mpr hv))
  · exact hinv.nodup
  · exact (Nat.le_add_right _ _).trans (h.length_le hb)
  · intro u q hq
    obtain ⟨pushed, indegree', hrow, hfold, -⟩ := h.exists_round hb hq
    refine ⟨_, hrow, fun l₁ v l₂ hsplit => ?_⟩
    rw [hsplit] at hfold
    exact relax_positive hfold
  · intro u q hq
    obtain ⟨pushed, indegree', hrow, hfold, hnew⟩ := h.exists_round hb hq
    exact ⟨_, pushed, indegree', indexed_eq_ok.mpr hrow, hfold, hnew⟩

/-- On distinct keys and existing endpoints every head of the queue loop is safe, both
methods come through each of them, and the loop ends with an empty queue. -/
theorem queueLoop_safe (dag : Dag) (hn : dag.keys.Nodup)
    (hends : ∀ e ∈ dag.edges, e.fromKey ∈ dag.keys ∧ e.toKey ∈ dag.keys) :
    ∃ index g, buildIndex dag = .ok index ∧
      addEdges index dag.edges ⟨List.replicate dag.nodes.length [],
        List.replicate dag.nodes.length 0⟩ = .ok g ∧
      (∀ k s, Head g k s → SafeHead dag g k s ∧
        orderLoop g.adj dag.nodes.length (initialQueue g.indegree) g.indegree [] =
          orderLoop g.adj (dag.nodes.length - k) s.queue s.indegree s.dequeued ∧
        countLoop g.adj dag.nodes.length (initialQueue g.indegree) g.indegree 0 =
          countLoop g.adj (dag.nodes.length - k) s.queue s.indegree k) ∧
      ∃ k s, Head g k s ∧ s.queue = [] ∧ k ≤ dag.nodes.length ∧
        orderLoop g.adj dag.nodes.length (initialQueue g.indegree) g.indegree [] =
          .ok s.dequeued ∧
        countLoop g.adj dag.nodes.length (initialQueue g.indegree) g.indegree 0 = .ok k := by
  obtain ⟨index, g, hindex, hadd, hb, hg⟩ := exists_adjacency hn hends
  refine ⟨index, g, hindex, hadd, fun k s h => ⟨h.safe hn hends hb hg, h.loops_eq hb⟩, ?_⟩
  obtain ⟨k, s, h, hq⟩ := exists_last hb
  obtain ⟨horder, hcount⟩ := h.loops_eq hb
  refine ⟨k, s, h, hq, (h.safe hn hends hb hg).rounds_le, ?_, ?_⟩
  · rw [horder, hq]
    cases dag.nodes.length - k <;> rfl
  · rw [hcount, hq]
    cases dag.nodes.length - k <;> rfl

/-- Two parallel edges and a loop. -/
def multigraph : Dag where
  name := "multigraph"
  version := 1
  nodes := [⟨"parse", .parse, none⟩, ⟨"chunk", .chunk, none⟩]
  edges := [⟨"parse", "chunk"⟩, ⟨"chunk", "chunk"⟩, ⟨"parse", "chunk"⟩]

theorem queueLoop_safe_multigraph :
    ∃ g : Adjacency, g = ⟨[[1, 1], [1]], [0, 3]⟩ ∧
      (∀ k s, Head g k s → SafeHead multigraph g k s) ∧
      ∃ k s, Head g k s ∧ s.queue = [] ∧
        countLoop g.adj 2 (initialQueue g.indegree) g.indegree 0 = .ok k := by
  obtain ⟨index, g, hindex, hadd, hsafe, k, s, hk, hq, -, -, hcount⟩ :=
    queueLoop_safe multigraph (by decide) (by decide)
  have hg : g = ⟨[[1, 1], [1]], [0, 3]⟩ := by
    have hbuilt : buildIndex multigraph = .ok index → addEdges index multigraph.edges
        ⟨List.replicate 2 [], List.replicate 2 0⟩ = .ok ⟨[[1, 1], [1]], [0, 3]⟩ := by
      intro h
      rw [← Except.ok.inj h]
      decide
    exact Except.ok.inj (hadd.symm.trans (hbuilt hindex))
  exact ⟨g, hg, fun k s h => (hsafe k s h).1, k, s, hk, hq, hcount⟩

end Dag

end Contexide.Workflow
