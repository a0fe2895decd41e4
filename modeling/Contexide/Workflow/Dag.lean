import Contexide.Storage.Table

/-! In-memory DAG definition for workflows: nodes with stable keys, dependency edges,
validation and the topological order. Both run the queue loop of Kahn's algorithm over
vectors indexed by the positions of the nodes; an index out of bounds, an underflow, or
a loop that is not over after as many rounds as there are nodes is a panic here. -/

namespace Contexide.Workflow

open Storage (Table Assoc)

/-- High-level domain kind for a task node. -/
inductive TaskKind where
  | ingest | parse | normalize | chunk | embed | index
  deriving DecidableEq, Repr

/-- Logical node inside a DAG. -/
structure DagNode where
  key : String
  kind : TaskKind
  label : Option String
  deriving DecidableEq, Repr

/-- Directed edge: the node `fromKey` must complete before `toKey` can be scheduled. -/
structure DagEdge where
  fromKey : String
  toKey : String
  deriving DecidableEq, Repr

/-- Full DAG definition: nodes and directed edges. -/
structure Dag where
  name : String
  version : Int32
  nodes : List DagNode
  edges : List DagEdge
  deriving DecidableEq, Repr

inductive DagValidationError where
  | duplicateNodeKey (key : String)
  | missingNode (fromKey toKey : String)
  | cycle
  deriving DecidableEq, Repr

/-- How a call can end without a result. -/
inductive DagFailure where
  | invalid (e : DagValidationError)
  | panic
  deriving DecidableEq, Repr

/-- Reading a vector at an index. -/
def indexed {α : Type} (xs : List α) (i : ℕ) : Except DagFailure α :=
  match xs[i]? with
  | some x => .ok x
  | none => .error .panic

/-- Adjacency lists and counts of incoming edges, by position. -/
structure Adjacency where
  adj : List (List ℕ)
  indegree : List ℕ
  deriving DecidableEq, Repr

namespace Dag

/-- Mapping from node key to position, with the first key seen twice as an error. -/
def buildIndexFrom (i : ℕ) : List DagNode → Assoc String ℕ →
    Except DagFailure (Assoc String ℕ)
  | [], idx => .ok idx
  | node :: nodes, idx =>
    match idx.find node.key with
    | some _ => .error (.invalid (.duplicateNodeKey node.key))
    | none => buildIndexFrom (i + 1) nodes (idx.insert node.key i)

def buildIndex (dag : Dag) : Except DagFailure (Assoc String ℕ) :=
  buildIndexFrom 0 dag.nodes Table.empty

/-- The position of an endpoint of `edge`. -/
def endpoint (index : Assoc String ℕ) (edge : DagEdge) (key : String) : Except DagFailure ℕ :=
  match index.find key with
  | some ix => .ok ix
  | none => .error (.invalid (.missingNode edge.fromKey edge.toKey))

/-- The loop over the edges that fills the adjacency lists and the counts. -/
def addEdges (index : Assoc String ℕ) : List DagEdge → Adjacency → Except DagFailure Adjacency
  | [], g => .ok g
  | edge :: edges, g => do
    let fromIx ← endpoint index edge edge.fromKey
    let toIx ← endpoint index edge edge.toKey
    let row ← indexed g.adj fromIx
    let degree ← indexed g.indegree toIx
    addEdges index edges
      { adj := g.adj.set fromIx (row ++ [toIx]), indegree := g.indegree.set toIx (degree + 1) }

/-- One decrement of the inner loop, over the queue and the counts. -/
def relax (s : List ℕ × List ℕ) (v : ℕ) : Except DagFailure (List ℕ × List ℕ) := do
  let degree ← indexed s.2 v
  if degree = 0 then .error .panic
  else
    let indegree := s.2.set v (degree - 1)
    .ok (if degree - 1 = 0 then s.1 ++ [v] else s.1, indegree)

/-- The positions with no incoming edges. -/
def initialQueue (indegree : List ℕ) : List ℕ :=
  (List.range indegree.length).filter fun i => indegree[i]? = some 0

/-- The queue loop of `validate`, which counts the dequeued nodes. -/
def countLoop (adj : List (List ℕ)) : ℕ → List ℕ → List ℕ → ℕ → Except DagFailure ℕ
  | _, [], _, seen => .ok seen
  | 0, _ :: _, _, _ => .error .panic
  | rounds + 1, u :: q, indegree, seen => do
    let row ← indexed adj u
    let s ← row.foldlM relax (q, indegree)
    countLoop adj rounds s.1 s.2 (seen + 1)

/-- The queue loop of `topo_order`, which records the dequeued nodes. -/
def orderLoop (adj : List (List ℕ)) : ℕ → List ℕ → List ℕ → List ℕ → Except DagFailure (List ℕ)
  | _, [], _, order => .ok order
  | 0, _ :: _, _, _ => .error .panic
  | rounds + 1, u :: q, indegree, order => do
    let row ← indexed adj u
    let s ← row.foldlM relax (q, indegree)
    orderLoop adj rounds s.1 s.2 (order ++ [u])

/-- All edge endpoints exist and the graph is acyclic. -/
def validate (dag : Dag) : Except DagFailure Unit :=
  if dag.nodes.isEmpty then .ok () else do
    let index ← buildIndex dag
    let n := dag.nodes.length
    let g ← addEdges index dag.edges ⟨List.replicate n [], List.replicate n 0⟩
    let seen ← countLoop g.adj n (initialQueue g.indegree) g.indegree 0
    if seen ≠ n then .error (.invalid .cycle) else .ok ()

/-- Node keys in topological order. -/
def topoOrder (dag : Dag) : Except DagFailure (List String) :=
  if dag.nodes.isEmpty then .ok [] else do
    let index ← buildIndex dag
    let n := dag.nodes.length
    let g ← addEdges index dag.edges ⟨List.replicate n [], List.replicate n 0⟩
    let orderIx ← orderLoop g.adj n (initialQueue g.indegree) g.indegree []
    if orderIx.length ≠ n then .error (.invalid .cycle)
    else orderIx.mapM fun ix => DagNode.key <$> indexed dag.nodes ix

def keys (dag : Dag) : List String := dag.nodes.map DagNode.key

/-- Some edge leads from `a` to `b`. -/
def Edge (dag : Dag) (a b : String) : Prop := ∃ e ∈ dag.edges, e.fromKey = a ∧ e.toKey = b

end Dag

end Contexide.Workflow
