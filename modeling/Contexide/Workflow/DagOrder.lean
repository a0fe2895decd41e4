import Contexide.Core.Errors
import Contexide.Workflow.DagGraph

/-! Validation and topological order of a DAG. Their queue loops are Kahn's traversal of
the graph on the positions of the nodes, so they fail on the same inputs, and an order
lists every key once with the edges going forward. -/

namespace Contexide.Workflow

open Storage (Table Assoc)
open Contexide.Graph

/-! ### The loops over the vectors -/

section Loops

variable {n : ℕ}

/-- The vector holds the counts of the first `n` vertices. -/
def Represents (n : ℕ) (indegree : List ℕ) (f : ℕ → ℕ) : Prop :=
  ∀ v < n, indegree[v]? = some (f v)

theorem Represents.set {indegree : List ℕ} {f : ℕ → ℕ} (h : Represents n indegree f) {v : ℕ}
    (hv : v < n) (d : ℕ) : Represents n (indegree.set v d) (Function.update f v d) := by
  intro w hw
  have hlen := (List.getElem?_eq_some_iff.mp (h v hv)).1
  by_cases hwv : w = v
  · subst hwv
    rw [List.getElem?_set_self hlen, Function.update_self]
  · rw [List.getElem?_set_ne (Ne.symm hwv), Function.update_of_ne hwv, h w hw]

/-- The inner loop does not panic while every decremented count is positive. -/
theorem foldlM_relax {l : List ℕ} {s : Kahn.State ℕ} {indegree : List ℕ}
    (h : Represents n indegree s.indegree) (hl : ∀ v ∈ l, v < n)
    (hcount : ∀ v, l.count v ≤ s.indegree v) :
    ∃ indegree', l.foldlM Dag.relax (s.queue, indegree) =
        .ok ((l.foldl Kahn.relax s).queue, indegree') ∧
      Represents n indegree' (l.foldl Kahn.relax s).indegree := by
  induction l generalizing s indegree with
  | nil => exact ⟨indegree, rfl, h⟩
  | cons v l ih =>
    have hv := hl v List.mem_cons_self
    have hpos := hcount v
    rw [List.count_cons_self] at hpos
    have hrelax : Dag.relax (s.queue, indegree) v =
        .ok ((Kahn.relax s v).queue, indegree.set v (s.indegree v - 1)) := by
      rw [Dag.relax, indexed_eq_ok.mpr (h v hv)]
      show (if s.indegree v = 0 then _ else _) = _
      rw [if_neg (by omega), Kahn.relax]
      simp only [Function.update_self]
    have hrep : Represents n (indegree.set v (s.indegree v - 1)) (Kahn.relax s v).indegree :=
      h.set hv _
    obtain ⟨indegree', hfold, hrep'⟩ := ih hrep (fun w hw => hl w (List.mem_cons_of_mem _ hw)) <| by
      intro w
      by_cases hw : w = v
      · subst hw
        show _ ≤ Function.update s.indegree w _ w
        rw [Function.update_self]
        omega
      · have hcw := hcount w
        rw [List.count_cons_of_ne (Ne.symm hw)] at hcw
        show _ ≤ Function.update s.indegree v _ w
        rwa [Function.update_of_ne hw]
    refine ⟨indegree', ?_, hrep'⟩
    rw [List.foldlM_cons, hrelax]
    exact hfold

/-- The loop of `topo_order` runs Kahn's traversal to its end: every index is in bounds,
no count underflows, and the rounds suffice. -/
theorem orderLoop_eq {g : Adjacency} (hg : g.Balanced n) {s : Kahn.State ℕ} {indegree : List ℕ}
    (hinv : Kahn.Inv (Finset.range n) g.row s) (h : Represents n indegree s.indegree)
    (rounds : ℕ) (hr : n ≤ s.order.length + rounds) :
    Dag.orderLoop g.adj rounds s.queue indegree s.order =
      .ok ((Kahn.step g.row)^[rounds] s).order := by
  have hsucc : ∀ u ∈ Finset.range n, ∀ v ∈ g.row u, v ∈ Finset.range n :=
    fun u _ v hv => Finset.mem_range.mpr (hg.bound u v hv)
  induction rounds generalizing s indegree with
  | zero =>
    have hq : s.queue = [] := hinv.queue_eq_nil hsucc (k := 0) (by simpa using hr)
    rw [hq, Dag.orderLoop]
    rfl
  | succ rounds ih =>
    cases hq : s.queue with
    | nil => rw [Dag.orderLoop, Kahn.iterate_step_of_nil hq]
    | cons u q =>
      obtain ⟨hu, -, -⟩ := hinv.head hq
      have hrow : indexed g.adj u = .ok (g.row u) :=
        indexed_eq_ok.mpr (hg.getElem?_adj (Finset.mem_range.mp hu))
      have hstep := @Kahn.step_of_cons _ _ g.row _ _ _ hq
      obtain ⟨indegree', hfold, hrep⟩ := foldlM_relax
        (s := { s with queue := q, order := s.order ++ [u] }) h (hg.bound u)
        (hinv.count_le hsucc hq)
      rw [← hstep] at hfold hrep
      have hlen : (Kahn.step g.row s).order = s.order ++ [u] := by
        rw [hstep, Kahn.order_foldl_relax]
      rw [Dag.orderLoop, hrow]
      show (List.foldlM Dag.relax (q, indegree) (g.row u) >>= _) = _
      rw [hfold]
      show Dag.orderLoop g.adj rounds (Kahn.step g.row s).queue indegree' (s.order ++ [u]) = _
      have hr' : n ≤ (Kahn.step g.row s).order.length + rounds := by
        rw [hlen, List.length_append, List.length_singleton]
        omega
      rw [← hlen, ih (hinv.step hsucc) hrep hr', Function.iterate_succ_apply]

/-- The loop of `validate` counts what the loop of `topo_order` records. -/
theorem countLoop_eq (adj : List (List ℕ)) (rounds : ℕ) (queue indegree order : List ℕ) :
    Dag.countLoop adj rounds queue indegree order.length =
      List.length <$> Dag.orderLoop adj rounds queue indegree order := by
  induction rounds generalizing queue indegree order with
  | zero => cases queue <;> rfl
  | succ rounds ih =>
    cases queue with
    | nil => rfl
    | cons u q =>
      rw [Dag.countLoop, Dag.orderLoop]
      cases indexed adj u with
      | error e => rfl
      | ok row =>
        show (row.foldlM Dag.relax (q, indegree) >>= _) =
          List.length <$> (row.foldlM Dag.relax (q, indegree) >>= _)
        cases row.foldlM Dag.relax (q, indegree) with
        | error e => rfl
        | ok s =>
          have := ih s.1 s.2 (order ++ [u])
          rwa [List.length_append] at this

end Loops

namespace Dag

variable {dag : Dag}

/-- The graph on the positions of the nodes has the edges of the DAG. -/
def EdgesOf (dag : Dag) (g : Adjacency) : Prop :=
  ∀ u v, v ∈ g.row u ↔ ∃ e ∈ dag.edges, dag.keys[u]? = some e.fromKey ∧ dag.keys[v]? = some e.toKey

/-- The number of edges between the nodes at two positions. -/
def edgeCount (dag : Dag) (u v : ℕ) : ℕ :=
  dag.edges.countP fun e => dag.keys[u]? = some e.fromKey ∧ dag.keys[v]? = some e.toKey

theorem edgesOf_of_count {g : Adjacency} (h : ∀ u v, (g.row u).count v = dag.edgeCount u v) :
    EdgesOf dag g := by
  intro u v
  rw [← List.count_pos_iff, h, edgeCount, List.countP_pos_iff]
  simp

/-- With distinct keys and all endpoints present, the vectors hold one entry for every
edge of the DAG. -/
theorem exists_adjacency (hn : dag.keys.Nodup)
    (hends : ∀ e ∈ dag.edges, e.fromKey ∈ dag.keys ∧ e.toKey ∈ dag.keys) :
    ∃ index g, buildIndex dag = .ok index ∧
      addEdges index dag.edges ⟨List.replicate dag.nodes.length [],
        List.replicate dag.nodes.length 0⟩ = .ok g ∧
      g.Balanced dag.nodes.length ∧ ∀ u v, (g.row u).count v = dag.edgeCount u v := by
  have hlen : dag.keys.length = dag.nodes.length := List.length_map _
  have hzero := Adjacency.balanced_replicate dag.nodes.length
  rw [← hlen] at hzero
  obtain ⟨index, hindex, -, hi⟩ := (buildIndex_spec dag).resolve_right fun h => h.2 hn
  obtain ⟨g, hadd, -, hb, hcount⟩ := (addEdges_spec hi dag.edges hzero).resolve_right
    fun h => h.2 hends
  rw [hlen] at hadd hb
  refine ⟨index, g, hindex, hadd, hb, fun u v => ?_⟩
  have hempty : (⟨List.replicate dag.keys.length [],
      List.replicate dag.keys.length 0⟩ : Adjacency).row u = [] := by
    rw [Adjacency.row, List.getElem?_replicate]
    split <;> rfl
  rw [hcount, hempty, List.count_nil, Nat.zero_add]
  rfl

/-- With all endpoints present, cycles of positions are cycles of keys. -/
theorem acyclic_iff {g : Adjacency} (hg : EdgesOf dag g)
    (hends : ∀ e ∈ dag.edges, e.fromKey ∈ dag.keys ∧ e.toKey ∈ dag.keys) :
    Acyclic (Kahn.Edge (Finset.range dag.nodes.length) g.row) ↔ Acyclic dag.Edge := by
  constructor
  · intro h
    refine h.of_map dag.keys.idxOf ?_
    rintro a b ⟨e, he, rfl, rfl⟩
    obtain ⟨hfrom, hto⟩ := hends e he
    constructor
    · rw [Finset.mem_range, ← List.length_map DagNode.key]
      exact List.idxOf_lt_length_of_mem hfrom
    · exact (hg _ _).mpr ⟨e, he, List.getElem?_idxOf hfrom, List.getElem?_idxOf hto⟩
  · intro h
    refine h.of_map (fun u => dag.keys[u]?.getD "") ?_
    rintro u v ⟨-, huv⟩
    obtain ⟨e, he, hu, hv⟩ := (hg u v).mp huv
    show dag.Edge (dag.keys[u]?.getD "") (dag.keys[v]?.getD "")
    exact ⟨e, he, by rw [hu]; rfl, by rw [hv]; rfl⟩

/-- The loops start in a state that satisfies the traversal's invariant. -/
theorem inv_start {n : ℕ} {g : Adjacency} (hb : g.Balanced n) :
    Kahn.Inv (Finset.range n) g.row
      ⟨initialQueue g.indegree, fun v => ∑ u ∈ Finset.range n, (g.row u).count v, []⟩ := by
  have hrange : (List.range n).toFinset = Finset.range n := by
    ext v
    simp
  let f : ℕ → ℕ := fun v => ∑ u ∈ Finset.range n, (g.row u).count v
  have hqueue : initialQueue g.indegree = (List.range n).filter fun v => f v = 0 := by
    rw [initialQueue, hb.indegree_length]
    apply List.filter_congr
    intro v hv
    exact decide_eq_decide.mpr (by rw [hb.degree v (List.mem_range.mp hv), Option.some.injEq])
  have hinit := @Kahn.inv_init _ _ g.row (List.range n) f List.nodup_range
    (fun v _ => by rw [hrange])
  rwa [hrange, ← hqueue] at hinit

/-- What the two queue loops return on the graph of a DAG. -/
structure Traversal (dag : Dag) (g : Adjacency) (order : List ℕ) : Prop where
  recorded : orderLoop g.adj dag.nodes.length (initialQueue g.indegree) g.indegree [] = .ok order
  counted :
    countLoop g.adj dag.nodes.length (initialQueue g.indegree) g.indegree 0 = .ok order.length
  nodup : order.Nodup
  bound : ∀ i ∈ order, i < dag.nodes.length
  length_eq_iff : order.length = dag.nodes.length ↔ Acyclic dag.Edge
  split : order.length = dag.nodes.length → ∀ u v, v ∈ g.row u →
    ∃ l₁ l₂, order = l₁ ++ v :: l₂ ∧ u ∈ l₁

theorem exists_traversal {g : Adjacency} (hb : g.Balanced dag.nodes.length) (hg : EdgesOf dag g)
    (hends : ∀ e ∈ dag.edges, e.fromKey ∈ dag.keys ∧ e.toKey ∈ dag.keys) :
    ∃ order, Traversal dag g order := by
  have hsucc : ∀ u ∈ Finset.range dag.nodes.length, ∀ v ∈ g.row u,
      v ∈ Finset.range dag.nodes.length :=
    fun u _ v hv => Finset.mem_range.mpr (hb.bound u v hv)
  have hinit := inv_start hb
  have hfinal := hinit.iterate hsucc dag.nodes.length
  have hempty := hinit.queue_eq_nil hsucc (k := dag.nodes.length) (by simp)
  have hrun := orderLoop_eq hb hinit hb.degree dag.nodes.length (by simp)
  have hcard := Finset.card_range dag.nodes.length
  refine ⟨_, hrun, ?_, (List.nodup_append.mp hfinal.nodup).1, ?_, ?_, ?_⟩
  · rw [show (0 : ℕ) = ([] : List ℕ).length from rfl, countLoop_eq, hrun]
    rfl
  · intro i hi
    exact Finset.mem_range.mp (hfinal.subset i (List.mem_append_left _ hi))
  · rw [← acyclic_iff hg hends, ← hfinal.length_eq_iff hsucc hempty, hcard]
  · intro hlen u v huv
    have hu : u ∈ Finset.range dag.nodes.length := by
      obtain ⟨e, -, hu, -⟩ := (hg u v).mp huv
      have hlt := (List.getElem?_eq_some_iff.mp hu).1
      rwa [keys, List.length_map, ← Finset.mem_range] at hlt
    exact hfinal.exists_split (hlen.trans hcard.symm) hsucc ⟨hu, huv⟩

/-- The common beginning of both methods: an index and vectors for the graph of the DAG,
or the error that both return. -/
theorem prepare_spec (dag : Dag) :
    (∃ index g order, buildIndex dag = .ok index ∧
        addEdges index dag.edges ⟨List.replicate dag.nodes.length [],
          List.replicate dag.nodes.length 0⟩ = .ok g ∧
        dag.keys.Nodup ∧ (∀ e ∈ dag.edges, e.fromKey ∈ dag.keys ∧ e.toKey ∈ dag.keys) ∧
        EdgesOf dag g ∧ Traversal dag g order) ∨
      (∃ e, (buildIndex dag = .error (.invalid e) ∨ ∃ index, buildIndex dag = .ok index ∧
          addEdges index dag.edges ⟨List.replicate dag.nodes.length [],
            List.replicate dag.nodes.length 0⟩ = .error (.invalid e)) ∧
        ¬ (dag.keys.Nodup ∧ ∀ e ∈ dag.edges, e.fromKey ∈ dag.keys ∧ e.toKey ∈ dag.keys)) := by
  by_cases h : dag.keys.Nodup ∧ ∀ e ∈ dag.edges, e.fromKey ∈ dag.keys ∧ e.toKey ∈ dag.keys
  · obtain ⟨index, g, hindex, hadd, hb, hcount⟩ := exists_adjacency h.1 h.2
    have hg := edgesOf_of_count hcount
    obtain ⟨order, horder⟩ := exists_traversal hb hg h.2
    exact .inl ⟨index, g, order, hindex, hadd, h.1, h.2, hg, horder⟩
  · right
    have hlen : dag.keys.length = dag.nodes.length := List.length_map _
    have hzero := Adjacency.balanced_replicate dag.nodes.length
    rw [← hlen] at hzero ⊢
    rcases buildIndex_spec dag with ⟨index, hindex, hn, hi⟩ | ⟨⟨k, herr⟩, -⟩
    · rcases addEdges_spec hi dag.edges hzero with ⟨g, -, hends, -⟩ | ⟨⟨a, b, herr⟩, -⟩
      · exact absurd ⟨hn, hends⟩ h
      · exact ⟨.missingNode a b, .inr ⟨index, hindex, herr⟩, h⟩
    · exact ⟨.duplicateNodeKey k, .inl herr, h⟩

theorem mapM_key {order : List ℕ} (h : ∀ i ∈ order, i < dag.nodes.length) :
    (order.mapM fun ix => DagNode.key <$> indexed dag.nodes ix) =
      .ok (order.map fun ix => dag.keys[ix]?.getD "") := by
  apply mapM_of_forall
  intro i hi
  rw [indexed_of_lt (h i hi), keys, List.getElem?_map, List.getElem?_eq_getElem (h i hi)]
  rfl

/-- Both methods fail alike before their loops, and after them they differ only in what
they return. -/
theorem validate_topoOrder_cases (hne : dag.nodes ≠ []) :
    (∃ g order, dag.keys.Nodup ∧ (∀ e ∈ dag.edges, e.fromKey ∈ dag.keys ∧ e.toKey ∈ dag.keys) ∧
        EdgesOf dag g ∧ Traversal dag g order ∧
        dag.validate =
          (if order.length ≠ dag.nodes.length then .error (.invalid .cycle) else .ok ()) ∧
        dag.topoOrder =
          (if order.length ≠ dag.nodes.length then .error (.invalid .cycle)
            else .ok (order.map fun ix => dag.keys[ix]?.getD ""))) ∨
      (∃ e, dag.validate = .error (.invalid e) ∧ dag.topoOrder = .error (.invalid e) ∧
        ¬ (dag.keys.Nodup ∧ ∀ e ∈ dag.edges, e.fromKey ∈ dag.keys ∧ e.toKey ∈ dag.keys)) := by
  have hempty : ¬ dag.nodes.isEmpty = true := by rwa [List.isEmpty_iff]
  rw [validate, topoOrder, if_neg hempty, if_neg hempty]
  rcases prepare_spec dag with ⟨index, g, order, hindex, hadd, hn, hends, hg, ht⟩ |
    ⟨e, hindex | ⟨index, hindex, hadd⟩, hnot⟩
  · left
    refine ⟨g, order, hn, hends, hg, ht, ?_, ?_⟩
    · rw [hindex]
      show (addEdges index dag.edges _ >>= _) = _
      rw [hadd]
      show (countLoop g.adj dag.nodes.length (initialQueue g.indegree) g.indegree 0 >>= _) = _
      rw [ht.counted]
      rfl
    · rw [hindex]
      show (addEdges index dag.edges _ >>= _) = _
      rw [hadd]
      show (orderLoop g.adj dag.nodes.length (initialQueue g.indegree) g.indegree [] >>= _) = _
      rw [ht.recorded, ← mapM_key ht.bound]
      rfl
  · right
    rw [hindex]
    exact ⟨e, rfl, rfl, hnot⟩
  · right
    rw [hindex]
    refine ⟨e, ?_, ?_, hnot⟩
    · show (addEdges index dag.edges _ >>= _) = _
      rw [hadd]
      rfl
    · show (addEdges index dag.edges _ >>= _) = _
      rw [hadd]
      rfl

/-- On a DAG with nodes, validation accepts exactly what is well formed and acyclic. -/
theorem validate_eq_ok (hne : dag.nodes ≠ []) :
    dag.validate = .ok () ↔ dag.keys.Nodup ∧
      (∀ e ∈ dag.edges, e.fromKey ∈ dag.keys ∧ e.toKey ∈ dag.keys) ∧ Acyclic dag.Edge := by
  rcases validate_topoOrder_cases hne with ⟨g, order, hn, hends, -, ht, hval, -⟩ |
    ⟨e, hval, -, hnot⟩
  · rw [hval, ← ht.length_eq_iff]
    split
    · next h => simp [h]
    · next h => exact iff_of_true rfl ⟨hn, hends, not_not.mp h⟩
  · rw [hval]
    exact iff_of_false (by simp) fun h => hnot ⟨h.1, h.2.1⟩

/-- The keys in the order of the visits are the keys of the nodes, each once, and every
edge goes forward. -/
theorem Traversal.keys_perm {g : Adjacency} {order : List ℕ} (ht : Traversal dag g order)
    (hlen : order.length = dag.nodes.length) :
    (order.map fun ix => dag.keys[ix]?.getD "").Perm dag.keys := by
  have hperm : order.Perm (List.range dag.nodes.length) := by
    have hsub := List.subperm_of_subset ht.nodup fun i hi => List.mem_range.mpr (ht.bound i hi)
    apply hsub.perm_of_length_le
    rw [List.length_range, hlen]
  have hkeys : (List.range dag.nodes.length).map (fun ix => dag.keys[ix]?.getD "") = dag.keys := by
    apply List.ext_getElem
    · rw [List.length_map, List.length_range, keys, List.length_map]
    · intro i h₁ h₂
      rw [List.getElem_map, List.getElem_range, List.getElem?_eq_getElem h₂]
      rfl
  have hmap := hperm.map fun ix => dag.keys[ix]?.getD ""
  rwa [hkeys] at hmap

theorem Traversal.idxOf_lt {g : Adjacency} {order : List ℕ} (ht : Traversal dag g order)
    (hg : EdgesOf dag g) (hn : dag.keys.Nodup)
    (hends : ∀ e ∈ dag.edges, e.fromKey ∈ dag.keys ∧ e.toKey ∈ dag.keys)
    (hlen : order.length = dag.nodes.length) {e : DagEdge} (he : e ∈ dag.edges) :
    (order.map fun ix => dag.keys[ix]?.getD "").idxOf e.fromKey <
      (order.map fun ix => dag.keys[ix]?.getD "").idxOf e.toKey := by
  obtain ⟨u, hu⟩ := List.getElem?_of_mem (hends e he).1
  obtain ⟨v, hv⟩ := List.getElem?_of_mem (hends e he).2
  obtain ⟨l₁, l₂, hl, hmem⟩ := ht.split hlen u v ((hg u v).mpr ⟨e, he, hu, hv⟩)
  have hnodup := (ht.keys_perm hlen).nodup_iff.mpr hn
  rw [hl, List.map_append, List.map_cons] at hnodup ⊢
  have hfrom : e.fromKey = dag.keys[u]?.getD "" := by rw [hu]; rfl
  have hto : e.toKey = dag.keys[v]?.getD "" := by rw [hv]; rfl
  rw [hfrom, hto]
  exact Kahn.idxOf_lt_of_split rfl hnodup (List.mem_map_of_mem hmem)

/-- Validation is exact on every DAG but those that have edges and no node to attach them
to: the check of the endpoints is skipped there. -/
theorem validate_exact (dag : Dag) :
    (dag.validate = .ok () ↔ dag.keys.Nodup ∧
        (∀ e ∈ dag.edges, e.fromKey ∈ dag.keys ∧ e.toKey ∈ dag.keys) ∧ Acyclic dag.Edge) ↔
      (dag.nodes ≠ [] ∨ dag.edges = []) := by
  by_cases hne : dag.nodes = []
  · have hkeys : dag.keys = [] := by rw [keys, hne, List.map_nil]
    have hval : dag.validate = .ok () := by rw [validate, hne, if_pos (by rfl)]
    rw [or_iff_right (not_not.mpr hne), hkeys]
    constructor
    · intro h
      by_contra hedges
      obtain ⟨e, he⟩ := List.exists_mem_of_ne_nil _ hedges
      exact List.not_mem_nil ((h.mp hval).2.1 e he).1
    · intro hedges
      refine iff_of_true hval ⟨List.nodup_nil, by simp [hedges], fun a ha => ?_⟩
      obtain ⟨b, ⟨e, he, -⟩, -⟩ := Relation.TransGen.head'_iff.mp ha
      rw [hedges] at he
      exact List.not_mem_nil he
  · exact iff_of_true (validate_eq_ok hne) (.inl hne)

/-- One edge, and no node. -/
def dangling : Dag where
  name := "broken"
  version := 1
  nodes := []
  edges := [⟨"parse", "chunk"⟩]

theorem validate_accepts_dangling_edge :
    ¬ (dangling.validate = .ok () ↔ dangling.keys.Nodup ∧
      (∀ e ∈ dangling.edges, e.fromKey ∈ dangling.keys ∧ e.toKey ∈ dangling.keys) ∧
      Acyclic dangling.Edge) := by
  intro h
  have hends := (h.mp rfl).2.1 ⟨"parse", "chunk"⟩ List.mem_cons_self
  exact List.not_mem_nil hends.1

/-- `topo_order` fails exactly as `validate` does, neither panics, and the order it
returns has every key once with the edges going forward. -/
theorem topoOrder_correct (dag : Dag) (hne : dag.nodes ≠ []) :
    (∀ e, dag.topoOrder = .error e ↔ dag.validate = .error e) ∧
      ((∃ order, dag.topoOrder = .ok order) ↔ dag.validate = .ok ()) ∧
      dag.validate ≠ .error .panic ∧
      ∀ order, dag.topoOrder = .ok order → order.Perm dag.keys ∧
        ∀ e ∈ dag.edges, e.toKey ∈ order ∧ order.idxOf e.fromKey < order.idxOf e.toKey := by
  rcases validate_topoOrder_cases hne with ⟨g, order, hn, hends, hg, ht, hval, htopo⟩ |
    ⟨e, hval, htopo, -⟩
  · rw [hval, htopo]
    by_cases hlen : order.length = dag.nodes.length
    · rw [if_neg (not_not.mpr hlen), if_neg (not_not.mpr hlen)]
      refine ⟨fun e => by simp, by simp, by simp, fun order' h => ?_⟩
      rw [← Except.ok.inj h]
      have hperm := ht.keys_perm hlen
      refine ⟨hperm, fun e he => ⟨hperm.mem_iff.mpr (hends e he).2, ?_⟩⟩
      exact ht.idxOf_lt hg hn hends hlen he
    · rw [if_pos hlen, if_pos hlen]
      exact ⟨fun e => by simp, by simp, by simp, fun order' h => absurd h (by simp)⟩
  · rw [hval, htopo]
    exact ⟨fun e => by simp, by simp, by simp, fun order' h => absurd h (by simp)⟩

/-- Three stages in a chain, the nodes listed out of order. -/
def pipeline : Dag where
  name := "simple"
  version := 1
  nodes := [⟨"chunk", .chunk, none⟩, ⟨"ingest", .ingest, none⟩, ⟨"parse", .parse, none⟩]
  edges := [⟨"ingest", "parse"⟩, ⟨"parse", "chunk"⟩]

theorem topoOrder_correct_pipeline :
    pipeline.topoOrder = .ok ["ingest", "parse", "chunk"] ∧
      (["ingest", "parse", "chunk"] : List String).Perm pipeline.keys :=
  ⟨by decide, ((topoOrder_correct pipeline (by decide)).2.2.2 _ (by decide)).1⟩

end Dag

end Contexide.Workflow
