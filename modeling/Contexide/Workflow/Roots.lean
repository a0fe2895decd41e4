import Contexide.Workflow.DagOrder

/-! The entry points of a DAG. A flag for every position says whether some edge leads
into its node, and the nodes whose flag is not set are the roots. On what validation
accepts they are where a planner can start: every node is reached from one of them. -/

namespace Contexide.Workflow

open Storage (Table Assoc)
open Contexide.Graph

namespace Dag

/-- The loop over the edges that sets the flags of their targets. -/
def markIncoming (index : Assoc String ℕ) : List DagEdge → List Bool →
    Except DagFailure (List Bool)
  | [], hasIncoming => .ok hasIncoming
  | edge :: edges, hasIncoming =>
    match index.find edge.toKey with
    | none => markIncoming index edges hasIncoming
    | some toIx => do
      let _ ← indexed hasIncoming toIx
      markIncoming index edges (hasIncoming.set toIx true)

/-- The nodes, from position `i` on, whose flag is not set. -/
def unmarkedFrom (hasIncoming : List Bool) (i : ℕ) : List DagNode →
    Except DagFailure (List DagNode)
  | [] => .ok []
  | node :: nodes => do
    let incoming ← indexed hasIncoming i
    let rest ← unmarkedFrom hasIncoming (i + 1) nodes
    .ok (if !incoming then node :: rest else rest)

/-- All nodes that have no incoming edges; none when a key is repeated. -/
def roots (dag : Dag) : Except DagFailure (List DagNode) :=
  if dag.nodes.isEmpty then .ok [] else
    match buildIndex dag with
    | .error _ => .ok []
    | .ok index => do
      let hasIncoming ← markIncoming index dag.edges (List.replicate dag.nodes.length false)
      unmarkedFrom hasIncoming 0 dag.nodes

/-- Some edge leads into the node with this key. -/
def isTarget (edges : List DagEdge) (key : String) : Bool := edges.any fun e => e.toKey = key

theorem isTarget_iff {edges : List DagEdge} {key : String} :
    isTarget edges key = true ↔ ∃ e ∈ edges, e.toKey = key := by
  simp [isTarget]

/-! ### The flags -/

/-- Setting the flag at the position of a key sets it for this key alone. -/
theorem set_map_of_indexOf {ks : List String} {index : Assoc String ℕ} (h : IndexOf ks index)
    {k : String} {i : ℕ} (hi : index.find k = some i) (f : String → Bool) :
    (ks.map f).set i true = ks.map fun k' => f k' || decide (k = k') := by
  apply List.ext_getElem?
  intro j
  rw [List.getElem?_map]
  cases hj : ks[j]? with
  | none =>
    have hlen : (ks.map f).length ≤ j := by
      rw [List.length_map]
      exact List.getElem?_eq_none_iff.mp hj
    exact List.getElem?_eq_none (by rwa [List.length_set])
  | some k' =>
    have hlt : j < (ks.map f).length := by
      rw [List.length_map]
      exact (List.getElem?_eq_some_iff.mp hj).1
    by_cases hij : i = j
    · subst hij
      have hk : k = k' := by
        rw [(h k i).mp hi, Option.some.injEq] at hj
        exact hj
      rw [List.getElem?_set_self hlt, hk]
      simp
    · have hk : k ≠ k' := by
        rintro rfl
        rw [(h k j).mpr hj, Option.some.injEq] at hi
        exact hij hi.symm
      rw [List.getElem?_set_ne hij, List.getElem?_map, hj]
      simp [hk]

/-- The loop sets the flags of the targets of its edges, and of nothing else. -/
theorem markIncoming_eq {ks : List String} {index : Assoc String ℕ} (h : IndexOf ks index)
    (edges : List DagEdge) (f : String → Bool) :
    markIncoming index edges (ks.map f) =
      .ok (ks.map fun k => f k || isTarget edges k) := by
  induction edges generalizing f with
  | nil => simp [markIncoming, isTarget]
  | cons edge edges ih =>
    rw [markIncoming]
    cases hfind : index.find edge.toKey with
    | none =>
      show markIncoming index edges (ks.map f) = _
      rw [ih]
      congr 1
      apply List.map_congr_left
      intro k hk
      have hne : edge.toKey ≠ k := by
        rintro rfl
        obtain ⟨i, hi⟩ := List.getElem?_of_mem hk
        rw [(h _ i).mpr hi] at hfind
        exact absurd hfind (by simp)
      simp [isTarget, hne]
    | some i =>
      have hlt : i < (ks.map f).length := by
        rw [List.length_map]
        exact (List.getElem?_eq_some_iff.mp ((h _ _).mp hfind)).1
      show (indexed (ks.map f) i >>= _) = _
      rw [indexed_of_lt hlt]
      show markIncoming index edges ((ks.map f).set i true) = _
      rw [set_map_of_indexOf h hfind, ih]
      simp [isTarget, Bool.or_assoc]

theorem unmarkedFrom_eq (f : String → Bool) (passed : List String) (nodes : List DagNode) :
    unmarkedFrom ((passed ++ nodes.map DagNode.key).map f) passed.length nodes =
      .ok (nodes.filter fun node => !f node.key) := by
  induction nodes generalizing passed with
  | nil => rfl
  | cons node nodes ih =>
    have hflag : indexed ((passed ++ (node :: nodes).map DagNode.key).map f) passed.length =
        .ok (f node.key) := by
      rw [indexed_eq_ok]
      simp
    have hrest := ih (passed ++ [node.key])
    rw [List.length_append, List.length_singleton, List.append_assoc,
      List.singleton_append] at hrest
    rw [unmarkedFrom, hflag]
    show (unmarkedFrom _ (passed.length + 1) nodes >>= _) = _
    rw [List.map_cons, hrest, List.filter_cons]
    rfl

/-- On every DAG the call returns: nothing when a key is repeated, and the nodes that are
the target of no edge otherwise. -/
theorem roots_eq (dag : Dag) :
    dag.roots = .ok (if dag.keys.Nodup then
      dag.nodes.filter fun node => !isTarget dag.edges node.key else []) := by
  rw [roots]
  by_cases hne : dag.nodes = []
  · simp [hne]
  · rw [if_neg (by rwa [List.isEmpty_iff])]
    rcases buildIndex_spec dag with ⟨index, hindex, hn, hi⟩ | ⟨⟨k, herr⟩, hn⟩
    · have hflags : List.replicate dag.nodes.length false = dag.keys.map fun _ => false := by
        rw [List.map_const', keys, List.length_map]
      rw [hindex, if_pos hn, hflags]
      show (markIncoming index dag.edges (dag.keys.map fun _ => false) >>= _) = _
      rw [markIncoming_eq hi]
      simp only [Bool.false_or]
      exact unmarkedFrom_eq (isTarget dag.edges) [] dag.nodes
    · rw [herr, if_neg hn]

/-! ### Reachability -/

/-- In an acyclic DAG with all endpoints present every node is reached from one that is
no edge's target. -/
theorem exists_reachable_root {dag : Dag} (hac : Acyclic dag.Edge)
    (hends : ∀ e ∈ dag.edges, e.fromKey ∈ dag.keys ∧ e.toKey ∈ dag.keys) {node : DagNode}
    (hnode : node ∈ dag.nodes) : ∃ root ∈ dag.nodes, isTarget dag.edges root.key = false ∧
      Relation.ReflTransGen dag.Edge root.key node.key := by
  have hclosed : ∀ v ∈ dag.keys.toFinset, ∀ u, dag.Edge u v → u ∈ dag.keys.toFinset := by
    rintro v - u ⟨e, he, rfl, -⟩
    exact List.mem_toFinset.mpr (hends e he).1
  have hmem : node.key ∈ dag.keys.toFinset :=
    List.mem_toFinset.mpr (List.mem_map_of_mem hnode)
  obtain ⟨k, hk, hsource, hreach⟩ := hac.exists_reachable_source _ hclosed hmem
  obtain ⟨root, hroot, rfl⟩ := List.mem_map.mp (List.mem_toFinset.mp hk)
  refine ⟨root, hroot, ?_, hreach⟩
  rw [← Bool.not_eq_true, isTarget_iff]
  rintro ⟨e, he, hto⟩
  exact hsource e.fromKey ⟨e, he, rfl, hto⟩

/-- Where validation succeeds, the roots of a DAG with nodes are not empty, they are the
nodes that no edge leads to, in node order, and every node is reachable from one. -/
theorem roots_generate (dag : Dag) (hne : dag.nodes ≠ []) (hval : dag.validate = .ok ()) :
    ∃ roots, dag.roots = .ok roots ∧ roots ≠ [] ∧
      roots = dag.nodes.filter (fun node => ∀ e ∈ dag.edges, e.toKey ≠ node.key) ∧
      ∀ node ∈ dag.nodes, ∃ root ∈ roots, Relation.ReflTransGen dag.Edge root.key node.key := by
  obtain ⟨hn, hends, hac⟩ := (validate_eq_ok hne).mp hval
  have hreach : ∀ node ∈ dag.nodes,
      ∃ root ∈ dag.nodes.filter (fun node => !isTarget dag.edges node.key),
        Relation.ReflTransGen dag.Edge root.key node.key := by
    intro node hnode
    obtain ⟨root, hroot, hnot, hpath⟩ := exists_reachable_root hac hends hnode
    exact ⟨root, List.mem_filter.mpr ⟨hroot, by rw [hnot]; rfl⟩, hpath⟩
  refine ⟨_, by rw [roots_eq, if_pos hn], ?_, ?_, hreach⟩
  · obtain ⟨node, hnode⟩ := List.exists_mem_of_ne_nil _ hne
    obtain ⟨root, hroot, -⟩ := hreach node hnode
    exact List.ne_nil_of_mem hroot
  · apply List.filter_congr
    intro node _
    rw [Bool.eq_iff_iff, Bool.not_eq_true', ← Bool.not_eq_true, isTarget_iff]
    simp

theorem roots_generate_pipeline :
    pipeline.roots = .ok [⟨"ingest", .ingest, none⟩] ∧
      ∃ roots, pipeline.roots = .ok roots ∧ roots ≠ [] ∧
        roots = pipeline.nodes.filter (fun node => ∀ e ∈ pipeline.edges, e.toKey ≠ node.key) ∧
        ∀ node ∈ pipeline.nodes, ∃ root ∈ roots,
          Relation.ReflTransGen pipeline.Edge root.key node.key :=
  ⟨by decide, roots_generate pipeline (by decide) (by decide)⟩

end Dag

end Contexide.Workflow
