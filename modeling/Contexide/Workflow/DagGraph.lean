import Contexide.Graph.Kahn
import Contexide.Workflow.Dag
import Mathlib.Algebra.BigOperators.Group.Finset.Piecewise

/-! The vectors that validation builds represent the graph of a DAG, and the queue
loops over them are Kahn's traversal: they end without a panic. -/

namespace Contexide.Workflow

open Storage (Table Assoc)
open Contexide.Graph

/-! ### The index of the node keys -/

/-- `idx` maps every key to its position in `ks`. -/
def IndexOf (ks : List String) (idx : Assoc String ℕ) : Prop :=
  ∀ k i, idx.find k = some i ↔ ks[i]? = some k

theorem indexOf_nil : IndexOf [] Table.empty := by
  intro k i
  simp

theorem IndexOf.snoc {ks : List String} {idx : Assoc String ℕ} (h : IndexOf ks idx) {k : String}
    (hk : k ∉ ks) : IndexOf (ks ++ [k]) (idx.insert k ks.length) := by
  intro k' i
  rw [Assoc.find_insert]
  by_cases heq : k = k'
  · subst heq
    rw [if_pos rfl, Option.some.injEq]
    constructor
    · rintro rfl
      exact List.getElem?_concat_length
    · intro hi
      have hlt := (List.getElem?_eq_some_iff.mp hi).1
      rw [List.length_append, List.length_singleton] at hlt
      by_contra hne
      rw [List.getElem?_append_left (by omega)] at hi
      exact hk (List.mem_of_getElem? hi)
  · rw [if_neg heq, h]
    rcases Nat.lt_or_ge i ks.length with hi | hi
    · rw [List.getElem?_append_left hi]
    · rw [List.getElem?_append_right hi, List.getElem?_eq_none hi]
      cases i - ks.length with
      | zero => simpa using heq
      | succ j => simp

namespace Dag

/-- Building the index fails exactly on a repeated key. -/
theorem buildIndexFrom_spec {ks : List String} {idx : Assoc String ℕ} (h : IndexOf ks idx)
    (hn : ks.Nodup) (nodes : List DagNode) :
    (∃ idx', buildIndexFrom ks.length nodes idx = .ok idx' ∧
        (ks ++ nodes.map DagNode.key).Nodup ∧ IndexOf (ks ++ nodes.map DagNode.key) idx') ∨
      ((∃ k, buildIndexFrom ks.length nodes idx = .error (.invalid (.duplicateNodeKey k))) ∧
        ¬ (ks ++ nodes.map DagNode.key).Nodup) := by
  induction nodes generalizing ks idx with
  | nil => exact .inl ⟨idx, rfl, by simpa using hn, by simpa using h⟩
  | cons node nodes ih =>
    rw [buildIndexFrom]
    cases hfind : idx.find node.key with
    | some i =>
      right
      refine ⟨⟨node.key, rfl⟩, fun hnodup => ?_⟩
      have hmem := List.mem_of_getElem? ((h node.key i).mp hfind)
      exact (List.nodup_append.mp hnodup).2.2 node.key hmem node.key
        (List.mem_cons_self) rfl
    | none =>
      have hnot : node.key ∉ ks := by
        intro hmem
        obtain ⟨i, hi⟩ := List.getElem?_of_mem hmem
        rw [(h node.key i).mpr hi] at hfind
        exact absurd hfind (by simp)
      have hn' : (ks ++ [node.key]).Nodup := by
        rw [List.nodup_append]
        refine ⟨hn, List.nodup_singleton _, fun a ha b hb hab => hnot ?_⟩
        rw [← List.mem_singleton.mp hb, ← hab]
        exact ha
      have := ih (h.snoc hnot) hn'
      rwa [List.length_append, List.length_singleton, List.append_assoc,
        List.singleton_append] at this

theorem buildIndex_spec (dag : Dag) :
    (∃ idx, buildIndex dag = .ok idx ∧ dag.keys.Nodup ∧ IndexOf dag.keys idx) ∨
      ((∃ k, buildIndex dag = .error (.invalid (.duplicateNodeKey k))) ∧ ¬ dag.keys.Nodup) :=
  buildIndexFrom_spec indexOf_nil List.nodup_nil dag.nodes

end Dag

/-! ### The adjacency vectors -/

/-- The successors of a position. -/
def Adjacency.row (g : Adjacency) (u : ℕ) : List ℕ := g.adj[u]?.getD []

/-- The vectors have one entry for each of `n` positions, and the counts are those of
the edges in the adjacency lists. -/
structure Adjacency.Balanced (g : Adjacency) (n : ℕ) : Prop where
  adj_length : g.adj.length = n
  indegree_length : g.indegree.length = n
  bound : ∀ u, ∀ v ∈ g.row u, v < n
  degree : ∀ v < n, g.indegree[v]? = some (∑ u ∈ Finset.range n, (g.row u).count v)

theorem indexed_eq_ok {α : Type} {xs : List α} {i : ℕ} {x : α} :
    indexed xs i = .ok x ↔ xs[i]? = some x := by
  unfold indexed
  cases xs[i]? <;> simp

theorem indexed_of_lt {α : Type} {xs : List α} {i : ℕ} (h : i < xs.length) :
    indexed xs i = .ok xs[i] :=
  indexed_eq_ok.mpr (List.getElem?_eq_getElem h)

theorem Adjacency.Balanced.getElem?_adj {g : Adjacency} {n u : ℕ} (hg : g.Balanced n)
    (hu : u < n) : g.adj[u]? = some (g.row u) := by
  rw [Adjacency.row, List.getElem?_eq_getElem (hg.adj_length ▸ hu)]
  rfl

namespace Adjacency

theorem balanced_replicate (n : ℕ) :
    (⟨List.replicate n [], List.replicate n 0⟩ : Adjacency).Balanced n := by
  have hrow : ∀ u, (⟨List.replicate n [], List.replicate n 0⟩ : Adjacency).row u = [] := by
    intro u
    rw [row, List.getElem?_replicate]
    split <;> rfl
  constructor
  · exact List.length_replicate
  · exact List.length_replicate
  · intro u v hv
    rw [hrow] at hv
    exact absurd hv List.not_mem_nil
  · intro v hv
    simp only [hrow, List.count_nil, Finset.sum_const_zero]
    rw [List.getElem?_replicate, if_pos hv]

/-- The vectors after one more edge. -/
def push (g : Adjacency) (a b degree : ℕ) : Adjacency :=
  { adj := g.adj.set a (g.row a ++ [b]), indegree := g.indegree.set b (degree + 1) }

variable {g : Adjacency} {n a b : ℕ}

theorem row_push {degree : ℕ} (ha : a < g.adj.length) (u : ℕ) :
    (g.push a b degree).row u = g.row u ++ if u = a then [b] else [] := by
  show (g.adj.set a (g.row a ++ [b]))[u]?.getD [] = _
  by_cases hu : u = a
  · subst hu
    rw [List.getElem?_set_self ha, if_pos rfl]
    rfl
  · rw [List.getElem?_set_ne (Ne.symm hu), if_neg hu, List.append_nil]
    rfl

theorem count_row_push {degree : ℕ} (ha : a < g.adj.length) (u v : ℕ) :
    ((g.push a b degree).row u).count v =
      (g.row u).count v + if u = a ∧ b = v then 1 else 0 := by
  rw [row_push ha, List.count_append]
  by_cases hu : u = a
  · rw [if_pos hu, List.count_singleton]
    simp [hu]
  · rw [if_neg hu, if_neg fun h => hu h.1, List.count_nil]

theorem mem_row_push {degree u v : ℕ} (ha : a < g.adj.length) :
    v ∈ (g.push a b degree).row u ↔ v ∈ g.row u ∨ u = a ∧ v = b := by
  rw [row_push ha, List.mem_append]
  split
  · next h => simp [h]
  · next h => simp [h]

theorem Balanced.push (h : g.Balanced n) (ha : a < n) (hb : b < n) {degree : ℕ}
    (hd : g.indegree[b]? = some degree) : (g.push a b degree).Balanced n := by
  have hlen : a < g.adj.length := h.adj_length ▸ ha
  constructor
  · exact List.length_set.trans h.adj_length
  · exact List.length_set.trans h.indegree_length
  · intro u v hv
    rcases (mem_row_push hlen).mp hv with hv | ⟨-, rfl⟩
    · exact h.bound u v hv
    · exact hb
  · intro v hv
    have hsum : ∑ u ∈ Finset.range n, ((g.push a b degree).row u).count v =
        (∑ u ∈ Finset.range n, (g.row u).count v) + if b = v then 1 else 0 := by
      simp only [count_row_push hlen, ite_and, Finset.sum_add_distrib, Finset.sum_ite_eq',
        Finset.mem_range, ha, if_true]
    rw [hsum]
    show (g.indegree.set b (degree + 1))[v]? = _
    by_cases hbv : b = v
    · subst hbv
      rw [List.getElem?_set_self (h.indegree_length ▸ hb), if_pos rfl]
      rw [h.degree b hb, Option.some.injEq] at hd
      rw [hd]
    · rw [List.getElem?_set_ne hbv, if_neg hbv, Nat.add_zero, h.degree v hv]

end Adjacency

namespace Dag

theorem endpoint_of_find {index : Assoc String ℕ} {edge : DagEdge} {key : String} {i : ℕ}
    (h : index.find key = some i) : endpoint index edge key = .ok i := by
  rw [endpoint, h]

theorem endpoint_of_find_none {index : Assoc String ℕ} {edge : DagEdge} {key : String}
    (h : index.find key = none) : endpoint index edge key =
      .error (.invalid (.missingNode edge.fromKey edge.toKey)) := by
  rw [endpoint, h]

theorem addEdges_cons {index : Assoc String ℕ} {edge : DagEdge} {edges : List DagEdge}
    {g : Adjacency} {n a b : ℕ} (hg : g.Balanced n) (ha : index.find edge.fromKey = some a)
    (hb : index.find edge.toKey = some b) (han : a < n) (hbn : b < n) :
    ∃ degree, g.indegree[b]? = some degree ∧
      addEdges index (edge :: edges) g = addEdges index edges (g.push a b degree) := by
  refine ⟨_, hg.degree b hbn, ?_⟩
  rw [addEdges, endpoint_of_find ha, endpoint_of_find hb]
  show (indexed g.adj a >>= _) = _
  rw [indexed_eq_ok.mpr (hg.getElem?_adj han)]
  show (indexed g.indegree b >>= _) = _
  rw [indexed_eq_ok.mpr (hg.degree b hbn)]
  rfl

/-- Reading the edges fails exactly on a missing endpoint, and otherwise adds them all. -/
theorem addEdges_spec {ks : List String} {index : Assoc String ℕ} (hi : IndexOf ks index)
    (edges : List DagEdge) {g : Adjacency} (hg : g.Balanced ks.length) :
    (∃ g', addEdges index edges g = .ok g' ∧ (∀ e ∈ edges, e.fromKey ∈ ks ∧ e.toKey ∈ ks) ∧
        g'.Balanced ks.length ∧ ∀ u v, (g'.row u).count v = (g.row u).count v +
          edges.countP fun e => ks[u]? = some e.fromKey ∧ ks[v]? = some e.toKey) ∨
      ((∃ a b, addEdges index edges g = .error (.invalid (.missingNode a b))) ∧
        ¬ ∀ e ∈ edges, e.fromKey ∈ ks ∧ e.toKey ∈ ks) := by
  have hnone : ∀ {k}, index.find k = none → k ∉ ks := by
    intro k hk hmem
    obtain ⟨i, hi'⟩ := List.getElem?_of_mem hmem
    rw [(hi k i).mpr hi'] at hk
    exact absurd hk (by simp)
  induction edges generalizing g with
  | nil => exact .inl ⟨g, rfl, by simp, hg, by simp⟩
  | cons edge edges ih =>
    cases ha : index.find edge.fromKey with
    | none =>
      right
      refine ⟨⟨edge.fromKey, edge.toKey, ?_⟩, fun h => hnone ha (h edge List.mem_cons_self).1⟩
      rw [addEdges, endpoint_of_find_none ha]
      rfl
    | some a =>
      cases hb : index.find edge.toKey with
      | none =>
        right
        refine ⟨⟨edge.fromKey, edge.toKey, ?_⟩, fun h => hnone hb (h edge List.mem_cons_self).2⟩
        rw [addEdges, endpoint_of_find ha, endpoint_of_find_none hb]
        rfl
      | some b =>
        have hka := (hi _ _).mp ha
        have hkb := (hi _ _).mp hb
        have han := (List.getElem?_eq_some_iff.mp hka).1
        have hbn := (List.getElem?_eq_some_iff.mp hkb).1
        obtain ⟨degree, hdegree, heq⟩ := @addEdges_cons index edge edges g _ _ _ hg ha hb han hbn
        rw [heq]
        rcases ih (hg.push han hbn hdegree) with ⟨g', hg', hends, hbal, hrow⟩ | ⟨herr, hends⟩
        · left
          refine ⟨g', hg', ?_, hbal, fun u v => ?_⟩
          · intro e he
            rcases List.mem_cons.mp he with rfl | he
            · exact ⟨List.mem_of_getElem? hka, List.mem_of_getElem? hkb⟩
            · exact hends e he
          · have hu : ks[u]? = some edge.fromKey ↔ u = a := by
              rw [← hi, ha, Option.some.injEq, eq_comm]
            have hv : ks[v]? = some edge.toKey ↔ v = b := by
              rw [← hi, hb, Option.some.injEq, eq_comm]
            rw [hrow, Adjacency.count_row_push (hg.adj_length ▸ han), List.countP_cons]
            simp only [hu, hv, decide_eq_true_eq, eq_comm (a := b)]
            omega
        · exact .inr ⟨herr, fun h => hends fun e he => h e (List.mem_cons_of_mem _ he)⟩

end Dag

end Contexide.Workflow
