import Contexide.Core.Errors
import Contexide.Core.Idempo
import Contexide.Workflow.Roots

/-! Workflow profile templates. A profile appends the chain of its stages for every asset
of its input and validates the result. The text of a UUID is a parameter; where it tells
UUIDs apart, exactly the lists without repetition are accepted, and the DAG is a disjoint
union of chains. -/

namespace Contexide.Workflow

open Contexide.Graph

/-- How a validation error is shown. -/
def DagValidationError.display : DagValidationError → String
  | .duplicateNodeKey key => s!"duplicate node key: {key}"
  | .missingNode fromKey toKey => s!"edge references missing node: {fromKey} -> {toKey}"
  | .cycle => "cycle detected in DAG"

namespace Profiles

/-- Common fields shared by all workflow starts. -/
structure WorkflowStartCommon where
  tenantId : TenantId
  documentId : Option DocumentId
  correlationId : Option String
  deriving DecidableEq, Repr

/-- Inputs for the ingest-only pipeline. -/
structure IngestOnlyInput where
  common : WorkflowStartCommon
  assetIds : List AssetId
  languageHint : Option String
  deriving DecidableEq, Repr

/-- Inputs for the full RAG index pipeline. -/
structure FullRagIndexInput where
  common : WorkflowStartCommon
  assetIds : List AssetId
  retrievalProfile : Option String
  forceRebuild : Bool
  deriving DecidableEq, Repr

/-- Errors specific to workflow profiles. -/
inductive ProfileError where
  | missingDocumentId
  | noAssets
  deriving DecidableEq, Repr

def ProfileError.display : ProfileError → String
  | .missingDocumentId => "missing document_id in input"
  | .noAssets => "no assets provided"

/-- How building a DAG can end without one. -/
inductive BuildFailure where
  | failed (e : Error)
  | panic
  deriving DecidableEq, Repr

def BuildFailure.ofProfile (e : ProfileError) : BuildFailure := .failed (.other e.display)

/-- A failed validation, wrapped. -/
def BuildFailure.ofDag : DagFailure → BuildFailure
  | .invalid e => .failed (.other e.display)
  | .panic => .panic

/-- The stages that a profile can have, with the text in their keys and labels. -/
inductive Stage where
  | extract | normalize | chunk | embed | index
  deriving DecidableEq, Repr

namespace Stage

def text : Stage → String
  | .extract => "extract"
  | .normalize => "normalize"
  | .chunk => "chunk"
  | .embed => "embed"
  | .index => "index"

def kind : Stage → TaskKind
  | .extract => .parse
  | .normalize => .normalize
  | .chunk => .chunk
  | .embed => .embed
  | .index => .index

end Stage

/-- The pairs of neighbours. -/
def consecutive (stages : List Stage) : List (Stage × Stage) := stages.zip stages.tail

section Build

variable (uuidText : Uuid → String)

def stageKey (stage : Stage) (asset : AssetId) : String :=
  s!"{stage.text}:{uuidText asset.uuid}"

def stageNode (stage : Stage) (asset : AssetId) : DagNode where
  key := stageKey uuidText stage asset
  kind := stage.kind
  label := some stage.text

def stageEdge (asset : AssetId) (pair : Stage × Stage) : DagEdge where
  fromKey := stageKey uuidText pair.1 asset
  toKey := stageKey uuidText pair.2 asset

def chainNodes (stages : List Stage) (asset : AssetId) : List DagNode :=
  stages.map fun stage => stageNode uuidText stage asset

def chainEdges (stages : List Stage) (asset : AssetId) : List DagEdge :=
  (consecutive stages).map (stageEdge uuidText asset)

/-- Push the nodes and the edges of one asset. -/
def appendStages (stages : List Stage) (built : List DagNode × List DagEdge) (asset : AssetId) :
    List DagNode × List DagEdge :=
  (built.1 ++ chainNodes uuidText stages asset, built.2 ++ chainEdges uuidText stages asset)

/-- Validate shared input constraints. -/
def validateAssets (assets : List AssetId) : Except BuildFailure Unit :=
  if assets.isEmpty then .error (.ofProfile .noAssets) else .ok ()

/-- The common body of both profiles. -/
def buildProfile (name : String)
    (append : List DagNode × List DagEdge → AssetId → List DagNode × List DagEdge)
    (assetIds : List AssetId) (documentId : Option DocumentId) : Except BuildFailure Dag := do
  validateAssets assetIds
  match documentId with
  | none => .error (.ofProfile .missingDocumentId)
  | some _ =>
    let built := assetIds.foldl append ([], [])
    let dag : Dag := { name := name, version := 1, nodes := built.1, edges := built.2 }
    match dag.validate with
    | .error e => .error (.ofDag e)
    | .ok () => .ok dag

namespace FullRagIndex

def stages : List Stage := [.extract, .normalize, .chunk, .embed, .index]

def appendChain := appendStages uuidText stages

/-- Extract, normalize, chunk, embed, index for each asset. -/
def buildDag (input : FullRagIndexInput) : Except BuildFailure Dag :=
  buildProfile "full_rag_index" (appendChain uuidText) input.assetIds input.common.documentId

end FullRagIndex

namespace IngestOnly

def stages : List Stage := [.extract, .normalize, .chunk]

def appendLinearChain := appendStages uuidText stages

/-- Extract, normalize, chunk for each asset. -/
def buildDag (input : IngestOnlyInput) : Except BuildFailure Dag :=
  buildProfile "ingest_only" (appendLinearChain uuidText) input.assetIds input.common.documentId

end IngestOnly

end Build

/-! ### Keys -/

section Keys

variable {uuidText : Uuid → String}

theorem toList_stageKey (stage : Stage) (asset : AssetId) :
    (stageKey uuidText stage asset).toList =
      stage.text.toList ++ ':' :: (uuidText asset.uuid).toList := by
  simp [stageKey, toString]

/-- The text of a stage comes before the first colon of its keys. -/
theorem takeWhile_stageKey (stage : Stage) (asset : AssetId) :
    (stageKey uuidText stage asset).toList.takeWhile (· ≠ ':') = stage.text.toList := by
  rw [toList_stageKey, List.takeWhile_append_of_pos]
  · simp
  · intro c hc
    have hall : stage.text.toList.all (· ≠ ':') = true := by cases stage <;> decide
    exact List.all_eq_true.mp hall c hc

theorem text_injective {s s' : Stage} (h : s.text = s'.text) : s = s' := by
  cases s <;> cases s' <;> first | rfl | exact absurd h (by decide)

/-- A key tells its stage and its asset. -/
theorem stageKey_inj (hu : Function.Injective uuidText) {s s' : Stage} {a a' : AssetId} :
    stageKey uuidText s a = stageKey uuidText s' a' ↔ s = s' ∧ a = a' := by
  constructor
  · intro h
    have htext := @takeWhile_stageKey uuidText s a
    rw [h, takeWhile_stageKey] at htext
    have hs := text_injective (String.toList_injective htext).symm
    have hlist := congrArg String.toList h
    rw [toList_stageKey, toList_stageKey, hs] at hlist
    have huuid := String.toList_injective (List.cons.inj (List.append_cancel_left hlist)).2
    exact ⟨hs, AssetId.ext (hu huuid)⟩
  · rintro ⟨rfl, rfl⟩
    rfl

/-- The place of a key in a chain, by what stands before its colon. -/
def keyRank (stages : List Stage) (key : String) : ℕ :=
  (stages.map fun s => s.text.toList).idxOf (key.toList.takeWhile (· ≠ ':'))

end Keys

/-! ### Stage lists -/

/-- The stages of a profile are distinct, the first is where its chains start. -/
structure IsChain (stages : List Stage) (first : Stage) : Prop where
  head : stages = first :: stages.tail
  nodup : stages.Nodup

theorem IsChain.fullRagIndex : IsChain FullRagIndex.stages .extract := ⟨rfl, by decide⟩

theorem IsChain.ingestOnly : IsChain IngestOnly.stages .extract := ⟨rfl, by decide⟩

theorem snd_consecutive (stages : List Stage) :
    (consecutive stages).map Prod.snd = stages.tail := by
  rw [consecutive, List.map_snd_zip]
  rw [List.length_tail]
  omega

theorem mem_of_consecutive {stages : List Stage} {pair : Stage × Stage}
    (h : pair ∈ consecutive stages) : pair.1 ∈ stages ∧ pair.2 ∈ stages :=
  ⟨(List.of_mem_zip h).1, List.mem_of_mem_tail (List.of_mem_zip h).2⟩

/-- In a list without repetition a neighbour comes one place later. -/
theorem idxOf_consecutive {α : Type} [DecidableEq α] {l : List α} (hn : l.Nodup) {x y : α}
    (h : (x, y) ∈ l.zip l.tail) : l.idxOf y = l.idxOf x + 1 := by
  obtain ⟨i, hi, hxy⟩ := List.getElem_of_mem h
  rw [List.getElem_zip, Prod.mk.injEq, List.getElem_tail] at hxy
  obtain ⟨rfl, rfl⟩ := hxy
  rw [hn.idxOf_getElem, hn.idxOf_getElem]

/-! ### The generated DAG -/

section Generated

variable {uuidText : Uuid → String} {stages : List Stage} {assets : List AssetId}

theorem foldl_appendStages (built : List DagNode × List DagEdge) :
    assets.foldl (appendStages uuidText stages) built =
      (built.1 ++ assets.flatMap (chainNodes uuidText stages),
        built.2 ++ assets.flatMap (chainEdges uuidText stages)) := by
  induction assets generalizing built with
  | nil => simp
  | cons asset assets ih => simp [ih, appendStages]

/-- The chains of the assets, side by side. -/
def chains (uuidText : Uuid → String) (name : String) (stages : List Stage)
    (assets : List AssetId) : Dag where
  name := name
  version := 1
  nodes := assets.flatMap (chainNodes uuidText stages)
  edges := assets.flatMap (chainEdges uuidText stages)

theorem mem_edges_chains {name : String} {e : DagEdge} :
    e ∈ (chains uuidText name stages assets).edges ↔
      ∃ asset ∈ assets, ∃ pair ∈ consecutive stages, e = stageEdge uuidText asset pair := by
  simp only [chains, chainEdges, List.mem_flatMap, List.mem_map, eq_comm (a := e)]

theorem keys_chains (name : String) : (chains uuidText name stages assets).keys =
    assets.flatMap fun asset => stages.map fun stage => stageKey uuidText stage asset := by
  simp only [Dag.keys, chains, chainNodes, List.map_flatMap, List.map_map]
  rfl

theorem mem_keys_chains {name : String} {stage : Stage} {asset : AssetId} (hs : stage ∈ stages)
    (ha : asset ∈ assets) :
    stageKey uuidText stage asset ∈ (chains uuidText name stages assets).keys := by
  rw [keys_chains]
  exact List.mem_flatMap.mpr ⟨asset, ha, List.mem_map_of_mem hs⟩

/-- Two chains share a key exactly when they are chains of one asset. -/
theorem disjoint_keys_iff (hu : Function.Injective uuidText) (hne : stages ≠ [])
    (a a' : AssetId) :
    List.Disjoint (stages.map fun s => stageKey uuidText s a)
      (stages.map fun s => stageKey uuidText s a') ↔ a ≠ a' := by
  constructor
  · rintro hd rfl
    obtain ⟨s, hs⟩ := List.exists_mem_of_ne_nil _ hne
    exact hd (List.mem_map_of_mem hs) (List.mem_map_of_mem hs)
  · intro hne' k hk hk'
    obtain ⟨s, -, rfl⟩ := List.mem_map.mp hk
    obtain ⟨s', -, hkey⟩ := List.mem_map.mp hk'
    exact hne' ((stageKey_inj hu).mp hkey.symm).2

theorem nodup_keys_chains (hu : Function.Injective uuidText) {first : Stage}
    (hc : IsChain stages first) (name : String) :
    (chains uuidText name stages assets).keys.Nodup ↔ assets.Nodup := by
  have hne : stages ≠ [] := by
    rw [hc.head]
    exact List.cons_ne_nil _ _
  have hchain : ∀ asset ∈ assets,
      (stages.map fun stage => stageKey uuidText stage asset).Nodup := by
    intro asset _
    exact hc.nodup.map fun s s' h => ((stageKey_inj hu).mp h).1
  rw [keys_chains, List.nodup_flatMap, and_iff_right hchain]
  exact List.Pairwise.iff fun a a' => disjoint_keys_iff hu hne a a'

theorem endpoints_chains (name : String) :
    ∀ e ∈ (chains uuidText name stages assets).edges,
      e.fromKey ∈ (chains uuidText name stages assets).keys ∧
        e.toKey ∈ (chains uuidText name stages assets).keys := by
  intro e he
  obtain ⟨asset, ha, pair, hpair, rfl⟩ := mem_edges_chains.mp he
  obtain ⟨hfrom, hto⟩ := mem_of_consecutive hpair
  exact ⟨mem_keys_chains hfrom ha, mem_keys_chains hto ha⟩

theorem keyRank_stageKey (stage : Stage) (asset : AssetId) :
    keyRank stages (stageKey uuidText stage asset) = stages.idxOf stage := by
  rw [keyRank, takeWhile_stageKey]
  induction stages with
  | nil => rfl
  | cons s stages ih =>
    rw [List.map_cons]
    by_cases h : s = stage
    · rw [h, List.idxOf_cons_self, List.idxOf_cons_self]
    · have htext : s.text.toList ≠ stage.text.toList :=
        fun heq => h (text_injective (String.toList_injective heq))
      rw [List.idxOf_cons_ne _ h, List.idxOf_cons_ne _ htext, ih]

/-- Along every edge the place in the chain grows by one. -/
theorem acyclic_chains (hn : stages.Nodup) (name : String) :
    Acyclic (chains uuidText name stages assets).Edge := by
  refine acyclic_of_rank (keyRank stages) ?_
  rintro k k' ⟨e, he, rfl, rfl⟩
  obtain ⟨asset, -, pair, hpair, rfl⟩ := mem_edges_chains.mp he
  show keyRank stages (stageKey uuidText pair.1 asset) <
    keyRank stages (stageKey uuidText pair.2 asset)
  rw [keyRank_stageKey, keyRank_stageKey, idxOf_consecutive hn hpair]
  exact Nat.lt_succ_self _

/-- With distinct keys, what begins a chain is what no edge leads to. -/
theorem filter_roots_chain (hu : Function.Injective uuidText) {first : Stage}
    (hc : IsChain stages first) {name : String} {asset : AssetId} (ha : asset ∈ assets) :
    (chainNodes uuidText stages asset).filter (fun node =>
      !Dag.isTarget (chains uuidText name stages assets).edges node.key) =
      [stageNode uuidText first asset] := by
  have htarget : ∀ stage, Dag.isTarget (chains uuidText name stages assets).edges
      (stageNode uuidText stage asset).key = true ↔ stage ∈ stages.tail := by
    intro stage
    rw [Dag.isTarget_iff, ← snd_consecutive, List.mem_map]
    constructor
    · rintro ⟨e, he, hto⟩
      obtain ⟨asset', -, pair, hpair, rfl⟩ := mem_edges_chains.mp he
      exact ⟨pair, hpair, ((stageKey_inj hu).mp hto).1⟩
    · rintro ⟨pair, hpair, rfl⟩
      exact ⟨stageEdge uuidText asset pair,
        mem_edges_chains.mpr ⟨asset, ha, pair, hpair, rfl⟩, rfl⟩
  have hnodup := hc.nodup
  rw [hc.head, List.nodup_cons] at hnodup
  rw [chainNodes, hc.head, List.map_cons, List.filter_cons_of_pos, List.filter_eq_nil_iff.mpr]
  · intro node hnode
    obtain ⟨stage, hstage, rfl⟩ := List.mem_map.mp hnode
    rw [← hc.head, (htarget stage).mpr hstage]
    exact Bool.false_ne_true
  · rw [← hc.head, Bool.not_eq_true', ← Bool.not_eq_true, htarget]
    exact hnodup.1

/-- The chains of distinct assets form a valid DAG whose roots are their first nodes. -/
theorem valid_chains (hu : Function.Injective uuidText) {first : Stage}
    (hc : IsChain stages first) (hne : assets ≠ []) (name : String) :
    (chains uuidText name stages assets).validate = .ok () ↔ assets.Nodup := by
  have hnodes : (chains uuidText name stages assets).nodes ≠ [] := by
    obtain ⟨asset, ha⟩ := List.exists_mem_of_ne_nil _ hne
    have hstage : first ∈ stages := by
      rw [hc.head]
      exact List.mem_cons_self
    have hmem : stageNode uuidText first asset ∈ (chains uuidText name stages assets).nodes :=
      List.mem_flatMap.mpr ⟨asset, ha, List.mem_map_of_mem hstage⟩
    exact List.ne_nil_of_mem hmem
  rw [Dag.validate_eq_ok hnodes, nodup_keys_chains hu hc]
  exact and_iff_left ⟨endpoints_chains name, acyclic_chains hc.nodup name⟩

theorem roots_chains (hu : Function.Injective uuidText) {first : Stage}
    (hc : IsChain stages first) (hn : assets.Nodup) (name : String) :
    (chains uuidText name stages assets).roots =
      .ok (assets.map (stageNode uuidText first)) := by
  rw [Dag.roots_eq, if_pos ((nodup_keys_chains hu hc name).mpr hn)]
  congr 1
  rw [show (chains uuidText name stages assets).nodes =
    assets.flatMap (chainNodes uuidText stages) from rfl, List.filter_flatMap,
    ← List.flatMap_pure_eq_map]
  exact List.flatMap_congr fun asset ha => filter_roots_chain hu hc ha

/-- A profile succeeds on a present document id and a nonempty list of distinct assets,
and then returns their chains. -/
theorem buildProfile_eq_ok (hu : Function.Injective uuidText) {first : Stage}
    (hc : IsChain stages first) (name : String) (documentId : Option DocumentId) (dag : Dag) :
    buildProfile name (appendStages uuidText stages) assets documentId = .ok dag ↔
      (documentId.isSome = true ∧ assets ≠ [] ∧ assets.Nodup) ∧
        dag = chains uuidText name stages assets := by
  by_cases hne : assets = []
  · subst hne
    have hbuild : buildProfile name (appendStages uuidText stages) [] documentId =
        .error (.ofProfile .noAssets) := by cases documentId <;> rfl
    rw [hbuild]
    exact iff_of_false (by simp) fun h => h.1.2.1 rfl
  · have hassets : validateAssets assets = .ok () := by
      rw [validateAssets, if_neg (by rwa [List.isEmpty_iff])]
    cases documentId with
    | none =>
      have hbuild : buildProfile name (appendStages uuidText stages) assets none =
          .error (.ofProfile .missingDocumentId) := by
        unfold buildProfile
        rw [hassets]
        rfl
      rw [hbuild]
      exact iff_of_false (by simp) fun h => absurd h.1.1 (by simp)
    | some d =>
      have hfold : assets.foldl (appendStages uuidText stages) ([], []) =
          ((chains uuidText name stages assets).nodes,
            (chains uuidText name stages assets).edges) := foldl_appendStages _
      have hbuild : buildProfile name (appendStages uuidText stages) assets (some d) =
          match (chains uuidText name stages assets).validate with
          | .error e => .error (.ofDag e)
          | .ok () => .ok (chains uuidText name stages assets) := by
        unfold buildProfile
        rw [hassets]
        simp only [hfold]
        rfl
      have hvalid := valid_chains hu hc hne name
      rw [hbuild]
      cases hval : (chains uuidText name stages assets).validate with
      | error e =>
        have hn : ¬ assets.Nodup := by
          rw [← hvalid, hval]
          simp
        exact iff_of_false (by simp) fun h => hn h.1.2.2
      | ok _ =>
        have hn := hvalid.mp hval
        simp only [Except.ok.injEq, Option.isSome_some, ne_eq, hne, not_false_eq_true, hn,
          and_self, true_and]
        exact eq_comm

/-- The DAG of a profile: valid, the chains of its assets and nothing else, entered at
their extract nodes. -/
structure IsProfileDag (uuidText : Uuid → String) (stages : List Stage) (assets : List AssetId)
    (dag : Dag) : Prop where
  valid : dag.validate = .ok ()
  roots : dag.roots = .ok (assets.map (stageNode uuidText .extract))
  nodes : dag.nodes = assets.flatMap (chainNodes uuidText stages)
  edges : dag.edges = assets.flatMap (chainEdges uuidText stages)
  /-- Every edge joins two consecutive stages of one asset. -/
  joins : ∀ e ∈ dag.edges, ∃ asset ∈ assets, ∃ s s', (s, s') ∈ consecutive stages ∧
    e.fromKey = stageKey uuidText s asset ∧ e.toKey = stageKey uuidText s' asset

theorem isProfileDag_chains (hu : Function.Injective uuidText) (hc : IsChain stages .extract)
    (hne : assets ≠ []) (hn : assets.Nodup) (name : String) :
    IsProfileDag uuidText stages assets (chains uuidText name stages assets) where
  valid := (valid_chains hu hc hne name).mpr hn
  roots := roots_chains hu hc hn name
  nodes := rfl
  edges := rfl
  joins e he := by
    obtain ⟨asset, ha, pair, hpair, rfl⟩ := mem_edges_chains.mp he
    exact ⟨asset, ha, pair.1, pair.2, hpair, rfl, rfl⟩

/-- What a profile with the given stages accepts, and what it returns for it. -/
theorem buildProfile_spec (hu : Function.Injective uuidText) (hc : IsChain stages .extract)
    (name : String) (assets : List AssetId) (documentId : Option DocumentId) :
    ((∃ dag, buildProfile name (appendStages uuidText stages) assets documentId = .ok dag) ↔
      documentId.isSome = true ∧ assets ≠ [] ∧ assets.Nodup) ∧
    ∀ dag, buildProfile name (appendStages uuidText stages) assets documentId = .ok dag →
      IsProfileDag uuidText stages assets dag := by
  constructor
  · constructor
    · rintro ⟨dag, hdag⟩
      exact ((buildProfile_eq_ok hu hc name documentId dag).mp hdag).1
    · intro h
      exact ⟨_, (buildProfile_eq_ok hu hc name documentId _).mpr ⟨h, rfl⟩⟩
  · intro dag hdag
    obtain ⟨⟨-, hne, hn⟩, rfl⟩ := (buildProfile_eq_ok hu hc name documentId dag).mp hdag
    exact isProfileDag_chains hu hc hne hn name

/-- Every asset contributes as many nodes as there are stages, and an edge less. -/
theorem IsProfileDag.length {dag : Dag} (h : IsProfileDag uuidText stages assets dag) :
    dag.nodes.length = stages.length * assets.length ∧
      dag.edges.length = (stages.length - 1) * assets.length := by
  rw [h.nodes, h.edges]
  clear h
  induction assets with
  | nil => exact ⟨rfl, rfl⟩
  | cons asset assets ih =>
    have hnodes : (chainNodes uuidText stages asset).length = stages.length := List.length_map _
    have hedges : (chainEdges uuidText stages asset).length = stages.length - 1 := by
      rw [chainEdges, List.length_map, consecutive, List.length_zip, List.length_tail]
      omega
    rw [List.flatMap_cons, List.flatMap_cons, List.length_append, List.length_append, ih.1, ih.2,
      hnodes, hedges, List.length_cons, Nat.mul_succ, Nat.mul_succ]
    constructor <;> omega

/-- A profile with fewer stages builds part of what one with more stages builds. -/
theorem IsProfileDag.subset {stages' : List Stage} {dag dag' : Dag}
    (h : IsProfileDag uuidText stages assets dag) (h' : IsProfileDag uuidText stages' assets dag')
    (hstages : stages ⊆ stages') (hpairs : consecutive stages ⊆ consecutive stages') :
    dag.nodes ⊆ dag'.nodes ∧ dag.edges ⊆ dag'.edges := by
  rw [h.nodes, h.edges, h'.nodes, h'.edges]
  constructor
  · intro node hnode
    obtain ⟨asset, ha, hchain⟩ := List.mem_flatMap.mp hnode
    exact List.mem_flatMap.mpr ⟨asset, ha, List.map_subset _ hstages hchain⟩
  · intro e he
    obtain ⟨asset, ha, hchain⟩ := List.mem_flatMap.mp he
    exact List.mem_flatMap.mpr ⟨asset, ha, List.map_subset _ hpairs hchain⟩

end Generated

/-- Both profiles accept exactly the inputs with a document id and a nonempty list of
distinct assets, both return the chains of the assets, and the ingest-only DAG is part of
the full one. -/
theorem profile_dags {uuidText : Uuid → String} (hu : Function.Injective uuidText) :
    (∀ input : FullRagIndexInput,
      ((∃ dag, FullRagIndex.buildDag uuidText input = .ok dag) ↔
        input.common.documentId.isSome = true ∧ input.assetIds ≠ [] ∧ input.assetIds.Nodup) ∧
      ∀ dag, FullRagIndex.buildDag uuidText input = .ok dag →
        IsProfileDag uuidText FullRagIndex.stages input.assetIds dag ∧
        dag.nodes.length = 5 * input.assetIds.length ∧
        dag.edges.length = 4 * input.assetIds.length) ∧
    (∀ input : IngestOnlyInput,
      ((∃ dag, IngestOnly.buildDag uuidText input = .ok dag) ↔
        input.common.documentId.isSome = true ∧ input.assetIds ≠ [] ∧ input.assetIds.Nodup) ∧
      ∀ dag, IngestOnly.buildDag uuidText input = .ok dag →
        IsProfileDag uuidText IngestOnly.stages input.assetIds dag ∧
        dag.nodes.length = 3 * input.assetIds.length ∧
        dag.edges.length = 2 * input.assetIds.length) ∧
    ∀ (full : FullRagIndexInput) (ingest : IngestOnlyInput) (fullDag ingestDag : Dag),
      full.assetIds = ingest.assetIds →
      FullRagIndex.buildDag uuidText full = .ok fullDag →
      IngestOnly.buildDag uuidText ingest = .ok ingestDag →
      ingestDag.nodes ⊆ fullDag.nodes ∧ ingestDag.edges ⊆ fullDag.edges := by
  refine ⟨fun input => ?_, fun input => ?_, ?_⟩
  · obtain ⟨haccept, hdag⟩ := buildProfile_spec hu IsChain.fullRagIndex "full_rag_index"
      input.assetIds input.common.documentId
    exact ⟨haccept, fun dag h => ⟨hdag dag h, (hdag dag h).length⟩⟩
  · obtain ⟨haccept, hdag⟩ := buildProfile_spec hu IsChain.ingestOnly "ingest_only"
      input.assetIds input.common.documentId
    exact ⟨haccept, fun dag h => ⟨hdag dag h, (hdag dag h).length⟩⟩
  · intro full ingest fullDag ingestDag hassets hfull hingest
    have hF := (buildProfile_spec hu IsChain.fullRagIndex _ _ _).2 fullDag hfull
    have hI := (buildProfile_spec hu IsChain.ingestOnly _ _ _).2 ingestDag hingest
    rw [hassets] at hF
    exact hI.subset hF (by decide) (by decide)

/-- An input with two assets. -/
def twoAssets : FullRagIndexInput where
  common := { tenantId := ⟨0⟩, documentId := some ⟨1⟩, correlationId := none }
  assetIds := [⟨2⟩, ⟨3⟩]
  retrievalProfile := none
  forceRebuild := false

theorem profile_dags_twoAssets :
    (∃ dag, FullRagIndex.buildDag Idempo.canonicalUuid twoAssets = .ok dag) ∧
      ∀ dag, FullRagIndex.buildDag Idempo.canonicalUuid twoAssets = .ok dag →
        dag.validate = .ok () ∧ dag.nodes.length = 10 ∧ dag.edges.length = 8 := by
  obtain ⟨hfull, -, -⟩ := profile_dags Idempo.writesUuids_canonicalUuid.injective
  obtain ⟨haccept, hdag⟩ := hfull twoAssets
  exact ⟨haccept.mpr (by decide), fun dag h => ⟨(hdag dag h).1.valid, (hdag dag h).2⟩⟩

end Profiles

end Contexide.Workflow
