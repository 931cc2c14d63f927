import Osrm.Contractor
import Osrm.Heap

/-!
`ContractNode<false>` and its witness search: the key that the search leaves for a target belongs to a walk around the
contracted node, and a pair of edges through the node is answered by a shortcut or by such a walk.
-/
namespace Osrm.NodeContraction
open List
open Typedefs Walks Heap Contractor

structure ContractorHeapData where
  hop : ℤ
  target : Bool
  deriving DecidableEq, Repr

abbrev ContractorHeap := QueryHeap NodeID ContractorHeapData

def relaxCandidates (graph : ContractorGraph) (node : NodeID) (hop : ℤ) (node_weight : EdgeWeight)
    (forbidden_node : NodeID) : List (QueryHeap.Candidate NodeID ContractorHeapData) :=
  (graph.adjacent node).filterMap fun edge =>
    if !edge.data.forward then none
    else if forbidden_node = edge.target then none
    else some ⟨edge.target,node_weight + edge.data.weight,fun old => ⟨hop + 1,(old.map (·.target)).getD false⟩⟩

def relaxNode (heap : ContractorHeap) (graph : ContractorGraph) (node : HeapNode NodeID ContractorHeapData)
    (forbidden_node : NodeID) : ContractorHeap :=
  heap.insertOrUpdateAll lighter (relaxCandidates graph node.node node.data.hop node.weight forbidden_node)

/-- `search`; the first argument is how many nodes may still be settled before the
    node limit is hit. -/
def search (graph : ContractorGraph) (number_of_targets : ℕ) (weight_limit : EdgeWeight) (forbidden_node : NodeID) :
    ℕ → ℕ → ContractorHeap → ContractorHeap
  | 0, _, heap =>
    match heap.DeleteMin with
    | none => heap
    | some (_,rest) => rest
  | nodes + 1, number_of_targets_found, heap =>
    match heap.DeleteMin with
    | none => heap
    | some (node,rest) =>
      if node.weight > weight_limit then rest
      else if node.data.target then
        if number_of_targets_found + 1 ≥ number_of_targets then rest
        else search graph number_of_targets weight_limit forbidden_node nodes (number_of_targets_found + 1)
          (relaxNode rest graph node forbidden_node)
      else search graph number_of_targets weight_limit forbidden_node nodes number_of_targets_found
        (relaxNode rest graph node forbidden_node)

def FULL_SEARCH_SPACE_SIZE : ℕ := 2000

def shortcutData (node : NodeID) (in_data out_data : ContractorEdgeData) (forward backward : Bool) :
    ContractorEdgeData :=
  { weight := in_data.weight + out_data.weight
    duration := in_data.duration + out_data.duration
    distance := in_data.distance + out_data.distance
    id := node
    originalEdges := min (2 ^ 29 - 1) (out_data.originalEdges + in_data.originalEdges)
    shortcut := true
    forward := forward
    backward := backward }

/-- The two edges `ContractNode` emits for a pair of edges through `node`. -/
def shortcutPair (node : NodeID) (in_edge out_edge : DynamicEdge) : List ContractorEdge :=
  [⟨in_edge.target,out_edge.target,shortcutData node in_edge.data out_edge.data true false⟩,
    ⟨out_edge.target,in_edge.target,shortcutData node in_edge.data out_edge.data false true⟩]

/-- What the first loop over the outgoing edges builds up. -/
structure Targets where
  heap : ContractorHeap
  max_weight : EdgeWeight
  number_of_targets : ℕ
  node_weights : NodeID → EdgeWeight
  inserted_edges : List ContractorEdge

def addTarget (node : NodeID) (in_edge : DynamicEdge) (s : Targets) (out_edge : DynamicEdge) : Targets :=
  if !out_edge.data.forward then s
  else if node = out_edge.target then s
  else
    let path_weight := in_edge.data.weight + out_edge.data.weight
    if out_edge.target = in_edge.target then
      if path_weight < s.node_weights node then
        { s with
          node_weights := Function.update s.node_weights in_edge.target path_weight
          inserted_edges := s.inserted_edges ++ shortcutPair node in_edge out_edge }
      else s
    else
      let s := { s with max_weight := max s.max_weight path_weight }
      if !s.heap.WasInserted out_edge.target then
        { s with
          heap := s.heap.Insert out_edge.target INVALID_EDGE_WEIGHT ⟨0,true⟩
          number_of_targets := s.number_of_targets + 1 }
      else s

/-- The shortcuts that the second loop over the outgoing edges emits. -/
def neededShortcuts (graph : ContractorGraph) (node : NodeID) (in_edge : DynamicEdge) (heap : ContractorHeap) :
    List ContractorEdge :=
  (graph.adjacent node).flatMap fun out_edge =>
    if !out_edge.data.forward then []
    else if out_edge.target = node then []
    else if in_edge.data.weight + out_edge.data.weight < heap.GetKey out_edge.target then
      shortcutPair node in_edge out_edge
    else []

def witnessHeap (graph : ContractorGraph) (node : NodeID) (s : Targets) : ContractorHeap :=
  search graph s.number_of_targets s.max_weight node FULL_SEARCH_SPACE_SIZE 0 s.heap
def collectTargets (graph : ContractorGraph) (node : NodeID) (in_edge : DynamicEdge)
    (s : (NodeID → EdgeWeight) × List ContractorEdge) : Targets :=
  (graph.adjacent node).foldl (addTarget node in_edge)
    ⟨QueryHeap.Clear.Insert in_edge.target 0 ⟨0,false⟩,0,0,s.1,s.2⟩

def contractIncoming (graph : ContractorGraph) (node : NodeID) (s : (NodeID → EdgeWeight) × List ContractorEdge)
    (in_edge : DynamicEdge) : (NodeID → EdgeWeight) × List ContractorEdge :=
  if in_edge.target = node then s
  else if !in_edge.data.backward then s
  else
    let targets := collectTargets graph node in_edge s
    (targets.node_weights,
      targets.inserted_edges ++ neededShortcuts graph node in_edge (witnessHeap graph node targets))

def sameShortcut (a b : ContractorEdge) : Bool :=
  a.source == b.source && a.target == b.target && a.data.weight == b.data.weight && a.data.shortcut == b.data.shortcut

/-- Adding the flags of an edge to the next edge that only differs in direction. -/
def absorb (edge : ContractorEdge) : List ContractorEdge → Option (List ContractorEdge)
  | [] => none
  | other :: rest =>
    if sameShortcut other edge then
      some ({ other with data := { other.data with
        forward := other.data.forward || edge.data.forward
        backward := other.data.backward || edge.data.backward } } :: rest)
    else (absorb edge rest).map (other :: ·)

/-- The loop at the end of `ContractNode`, which merges the new edges; `fuel` is
    their number. -/
def mergeDirections : ℕ → List ContractorEdge → List ContractorEdge
  | 0, edges => edges
  | _ + 1, [] => []
  | fuel + 1, edge :: rest =>
    match absorb edge rest with
    | some rest' => mergeDirections fuel rest'
    | none => edge :: mergeDirections fuel rest

/-- `ContractNode<false>`: the loop weights it leaves and the edges it emits. -/
def ContractNode (graph : ContractorGraph) (node : NodeID) (node_weights : NodeID → EdgeWeight) :
    (NodeID → EdgeWeight) × List ContractorEdge :=
  let s := (graph.adjacent node).foldl (contractIncoming graph node) (node_weights,[])
  (s.1,mergeDirections s.2.length s.2)

/-- A walk from `s` around the contracted node. -/
def Around (graph : ContractorGraph) (node s t : NodeID) (w : EdgeWeight) : Prop :=
  Walk (within (· ≠ node) (forwardArcs graph)) s t w
/-- What an entry of the witness search stands for: a target not reached yet or a walk around the node. -/
def Witnessed (graph : ContractorGraph) (node s : NodeID) (e : HeapNode NodeID ContractorHeapData) : Prop :=
  e.node ≠ node ∧ (e.weight = INVALID_EDGE_WEIGHT ∨ Around graph node s e.node e.weight)

variable {graph : ContractorGraph} {node s : NodeID}

private theorem relaxNode_witnessed {rest : ContractorHeap} {e : HeapNode NodeID ContractorHeapData}
    (away : e.node ≠ node) (walk : Around graph node s e.node e.weight)
    (all : ∀ e ∈ rest.inserted_nodes, Witnessed graph node s e) :
    ∀ e' ∈ (relaxNode rest graph e node).inserted_nodes, Witnessed graph node s e' := by
  intro e' member
  rcases mem_insertOrUpdateAll member with old | ⟨c,inside,same,weight,_⟩
  · exact all e' old
  · simp only [relaxCandidates,mem_filterMap] at inside
    obtain ⟨edge,stored,made⟩ := inside
    split at made
    · simp at made
    · rename_i forward
      split at made
      · simp at made
      · rename_i allowed
        cases made
        simp only at same weight
        refine ⟨by rw [same]; exact fun bad => allowed bad.symm,.inr ?_⟩
        rw [same,weight]
        exact walk.snoc ⟨away,fun bad => allowed bad.symm,edge,stored,rfl,by simpa using forward,rfl⟩

private theorem search_witnessed {number_of_targets : ℕ} {weight_limit : EdgeWeight} (small : weight_limit < INVALID_EDGE_WEIGHT)
    (nodes found : ℕ) (heap : ContractorHeap) (all : ∀ e ∈ heap.inserted_nodes, Witnessed graph node s e) :
    ∀ e ∈ (search graph number_of_targets weight_limit node nodes found heap).inserted_nodes,
      Witnessed graph node s e := by
  have pop : ∀ {heap rest : ContractorHeap} {least}, heap.DeleteMin = some (least,rest) →
      (∀ e ∈ heap.inserted_nodes, Witnessed graph node s e) → ∀ e ∈ rest.inserted_nodes, Witnessed graph node s e := by
    intro heap rest least popped all e member
    rcases (deleteMin_spec popped).new_or_old e member with rfl | old
    · exact all least (deleteMin_spec popped).member
    · exact all e old
  induction nodes generalizing found heap with
  | zero =>
    rw [search]
    split
    · exact all
    · rename_i popped
      exact pop popped all
  | succ nodes ih =>
    rw [search]
    split
    · exact all
    · rename_i least rest popped
      have spec := deleteMin_spec popped
      split
      · exact pop popped all
      · rename_i near
        obtain ⟨away,label⟩ := all least spec.member
        have walk : Around graph node s least.node least.weight := by
          rcases label with invalid | walk
          · exact absurd (invalid ▸ small) near
          · exact walk
        have next := relaxNode_witnessed away walk (pop popped all)
        split
        · split
          · exact pop popped all
          · exact ih _ _ next
        · exact ih _ _ next

private theorem search_wasInserted {number_of_targets : ℕ} {weight_limit : EdgeWeight} {target : NodeID} (nodes found : ℕ)
    (heap : ContractorHeap) (inserted : heap.WasInserted target = true) :
    (search graph number_of_targets weight_limit node nodes found heap).WasInserted target = true := by
  induction nodes generalizing found heap with
  | zero =>
    rw [search]
    split
    · exact inserted
    · rename_i popped
      rw [wasInserted_pop popped]
      exact inserted
  | succ nodes ih =>
    rw [search]
    split
    · exact inserted
    · rename_i least rest popped
      have still : rest.WasInserted target = true := by rw [wasInserted_pop popped]; exact inserted
      have next : (relaxNode rest graph least node).WasInserted target = true := wasInserted_insertOrUpdateAll still
      split
      · exact still
      · split
        · split
          · exact still
          · exact ih _ _ next
        · exact ih _ _ next

/-! ### The shortcuts of one node -/

def pairEdges (node : NodeID) (pairs : List (DynamicEdge × DynamicEdge)) : List ContractorEdge :=
  pairs.flatMap fun pair => shortcutPair node pair.1 pair.2

/-- An incoming and an outgoing edge of `node` that do not lead back to it. -/
structure Pair (graph : ContractorGraph) (node : NodeID) (in_edge out_edge : DynamicEdge) : Prop where
  incoming : in_edge ∈ graph.adjacent node
  outgoing : out_edge ∈ graph.adjacent node
  backward : in_edge.data.backward = true
  forward : out_edge.data.forward = true
  away : in_edge.target ≠ node
  other : out_edge.target ≠ node

/-- Shortcuts around the node fit. -/
def Fits (graph : ContractorGraph) (node : NodeID) : Prop :=
  ∀ in_edge out_edge, Pair graph node in_edge out_edge →
    in_edge.data.weight + out_edge.data.weight < INVALID_EDGE_WEIGHT

private structure Collected (graph : ContractorGraph) (node : NodeID) (in_edge : DynamicEdge)
    (before : List ContractorEdge) (seen : List DynamicEdge) (s : Targets) : Prop where
  entries : ∀ e ∈ s.heap.inserted_nodes, Witnessed graph node in_edge.target e
  source : s.heap.WasInserted in_edge.target = true
  targets : ∀ out_edge ∈ seen, out_edge.data.forward = true → out_edge.target ≠ node →
    s.heap.WasInserted out_edge.target = true
  small : s.max_weight < INVALID_EDGE_WEIGHT
  emitted : ∃ pairs, s.inserted_edges = before ++ pairEdges node pairs ∧ ∀ pair ∈ pairs, Pair graph node pair.1 pair.2

private theorem wasInserted_insert_of {heap : ContractorHeap} {x y : NodeID} {w : ℤ} {d : ContractorHeapData}
    (old : heap.WasInserted x = true) : (heap.Insert y w d).WasInserted x = true := by
  rw [wasInserted_iff] at old ⊢
  exact mem_cons_of_mem _ old
private theorem wasInserted_insert_self {heap : ContractorHeap} {y : NodeID} {w : ℤ} {d : ContractorHeapData} :
    (heap.Insert y w d).WasInserted y = true := by
  rw [wasInserted_iff]
  exact mem_cons_self

variable {before : List ContractorEdge}

private theorem addTarget_collected {in_edge out_edge : DynamicEdge}
    {seen : List DynamicEdge} {s : Targets} (fits : Fits graph node) (incoming : in_edge ∈ graph.adjacent node)
    (backward : in_edge.data.backward = true) (away : in_edge.target ≠ node) (outgoing : out_edge ∈ graph.adjacent node)
    (old : Collected graph node in_edge before seen s) :
    Collected graph node in_edge before (seen ++ [out_edge]) (addTarget node in_edge s out_edge) := by
  have more : ∀ {heap : ContractorHeap}, (∀ e ∈ seen, e.data.forward = true → e.target ≠ node →
      heap.WasInserted e.target = true) → (out_edge.data.forward = true → out_edge.target ≠ node →
      heap.WasInserted out_edge.target = true) → ∀ e ∈ seen ++ [out_edge], e.data.forward = true →
      e.target ≠ node → heap.WasInserted e.target = true := by
    intro heap first last e member
    rcases mem_append.mp member with inside | only
    · exact first e inside
    · obtain rfl : e = out_edge := by simpa using only
      exact last
  unfold addTarget
  split
  · rename_i unusable
    exact ⟨old.entries,old.source,more old.targets fun usable => by simp [usable] at unusable,old.small,old.emitted⟩
  · rename_i usable
    have forward : out_edge.data.forward = true := by simpa using usable
    split
    · rename_i loop
      exact ⟨old.entries,old.source,more old.targets fun _ other => absurd loop.symm other,old.small,old.emitted⟩
    · rename_i leaves
      have other : out_edge.target ≠ node := fun bad => leaves bad.symm
      have pair : Pair graph node in_edge out_edge := ⟨incoming,outgoing,backward,forward,away,other⟩
      split
      · rename_i back
        have known := more old.targets fun _ _ => back ▸ old.source
        dsimp only
        split
        · obtain ⟨pairs,emitted,valid⟩ := old.emitted
          refine ⟨old.entries,old.source,known,old.small,pairs ++ [(in_edge,out_edge)],?_,?_⟩
          · simp [emitted,pairEdges]
          · intro p member
            rcases mem_append.mp member with inside | only
            · exact valid p inside
            · obtain rfl : p = (in_edge,out_edge) := by simpa using only
              exact pair
        · exact ⟨old.entries,old.source,known,old.small,old.emitted⟩
      · have bounded : max s.max_weight (in_edge.data.weight + out_edge.data.weight) < INVALID_EDGE_WEIGHT :=
          max_lt old.small (fits _ _ pair)
        dsimp only
        split
        · refine ⟨?_,wasInserted_insert_of old.source,?_,bounded,old.emitted⟩
          · intro e member
            rcases mem_cons.mp member with rfl | inside
            · exact ⟨other,.inl rfl⟩
            · exact old.entries e inside
          · exact more (fun e inside usable away => wasInserted_insert_of (old.targets e inside usable away))
              fun _ _ => wasInserted_insert_self
        · rename_i present
          exact ⟨old.entries,old.source,more old.targets fun _ _ => by simpa using present,bounded,old.emitted⟩

variable {in_edge : DynamicEdge}

private theorem collectTargets_collected {weights : NodeID → EdgeWeight} (fits : Fits graph node) (incoming : in_edge ∈ graph.adjacent node)
    (backward : in_edge.data.backward = true) (away : in_edge.target ≠ node) :
    Collected graph node in_edge before (graph.adjacent node)
      (collectTargets graph node in_edge (weights,before)) := by
  have start : Collected graph node in_edge before []
      ⟨QueryHeap.Clear.Insert in_edge.target 0 ⟨0,false⟩,0,0,weights,before⟩ := by
    refine ⟨?_,wasInserted_insert_self,by simp,zero_lt_invalid,[],by simp [pairEdges],by simp⟩
    intro e member
    obtain rfl : e = ⟨in_edge.target,0,⟨0,false⟩,false⟩ := by
      simpa [QueryHeap.Insert,QueryHeap.Clear] using member
    exact ⟨away,.inr (.nil _)⟩
  have loop : ∀ (outs seen : List DynamicEdge) (s : Targets), (∀ e ∈ outs, e ∈ graph.adjacent node) →
      Collected graph node in_edge before seen s →
      Collected graph node in_edge before (seen ++ outs) (outs.foldl (addTarget node in_edge) s) := by
    intro outs
    induction outs with
    | nil => intro seen s _ old; simpa using old
    | cons out_edge rest ih =>
      intro seen s inside old
      have next := addTarget_collected fits incoming backward away (inside out_edge (by simp)) old
      simpa using ih _ _ (fun e member => inside e (mem_cons_of_mem _ member)) next
  exact loop (graph.adjacent node) [] _ (fun e member => member) start

private theorem pairEdges_append (one two : List (DynamicEdge × DynamicEdge)) :
    pairEdges node (one ++ two) = pairEdges node one ++ pairEdges node two := flatMap_append

private theorem neededShortcuts_spec {s : Targets}
    (fits : Fits graph node) (incoming : in_edge ∈ graph.adjacent node) (backward : in_edge.data.backward = true)
    (away : in_edge.target ≠ node) (collected : Collected graph node in_edge before (graph.adjacent node) s) :
    ∃ needed, neededShortcuts graph node in_edge (witnessHeap graph node s) = pairEdges node needed ∧
      (∀ pair ∈ needed, Pair graph node pair.1 pair.2) ∧ ∀ out_edge, Pair graph node in_edge out_edge →
        (in_edge,out_edge) ∈ needed ∨ ∃ k ≤ in_edge.data.weight + out_edge.data.weight,
          Around graph node in_edge.target out_edge.target k := by
  let chosen : DynamicEdge → Bool := fun out_edge => out_edge.data.forward && decide (out_edge.target ≠ node) &&
    decide (in_edge.data.weight + out_edge.data.weight < (witnessHeap graph node s).GetKey out_edge.target)
  refine ⟨((graph.adjacent node).filter chosen).map (in_edge,·),?_,?_,?_⟩
  · unfold neededShortcuts pairEdges
    induction graph.adjacent node with
    | nil => rfl
    | cons out_edge rest ih =>
      simp only [flatMap_cons,filter_cons,ih,chosen]
      by_cases forward : out_edge.data.forward = true <;> by_cases loop : out_edge.target = node <;>
        by_cases lighter : in_edge.data.weight + out_edge.data.weight <
          (witnessHeap graph node s).GetKey out_edge.target <;> simp [forward,loop,lighter]
  · intro pair member
    obtain ⟨out_edge,inside,rfl⟩ := mem_map.mp member
    simp only [mem_filter,chosen,Bool.and_eq_true,decide_eq_true_eq] at inside
    exact ⟨incoming,inside.1,backward,inside.2.1.1,away,inside.2.1.2⟩
  · intro out_edge pair
    by_cases lighter : in_edge.data.weight + out_edge.data.weight < (witnessHeap graph node s).GetKey out_edge.target
    · exact .inl (mem_map.mpr ⟨out_edge,by simp [chosen,pair.outgoing,pair.forward,pair.other,lighter],rfl⟩)
    · right
      have inserted : (witnessHeap graph node s).WasInserted out_edge.target = true :=
        search_wasInserted _ 0 s.heap (collected.targets out_edge pair.outgoing pair.forward pair.other)
      obtain ⟨e,member,same,key⟩ := getKey_entry inserted
      obtain ⟨_,invalid | walk⟩ := search_witnessed collected.small _ 0 s.heap collected.entries e member
      · rw [key,invalid] at lighter
        exact absurd (fits _ _ pair) lighter
      · exact ⟨e.weight,key ▸ not_lt.mp lighter,same ▸ walk⟩

/-- What one incoming edge contributes: a shortcut or a walk around the node for every outgoing edge. -/
private theorem contractIncoming_spec (weights : NodeID → EdgeWeight)
    (pairs : List (DynamicEdge × DynamicEdge)) (fits : Fits graph node) (incoming : in_edge ∈ graph.adjacent node) :
    ∃ weights' more, contractIncoming graph node (weights,pairEdges node pairs) in_edge =
        (weights',pairEdges node (pairs ++ more)) ∧ (∀ pair ∈ more, Pair graph node pair.1 pair.2) ∧
      ∀ out_edge, Pair graph node in_edge out_edge → (in_edge,out_edge) ∈ more ∨ ∃ k ≤ in_edge.data.weight + out_edge.data.weight,
          Around graph node in_edge.target out_edge.target k := by
  unfold contractIncoming
  split
  · rename_i loop
    exact ⟨weights,[],by simp,by simp,fun out_edge pair => absurd loop pair.away⟩
  · rename_i away
    split
    · rename_i unusable
      exact ⟨weights,[],by simp,by simp,fun out_edge pair => by simp [pair.backward] at unusable⟩
    · rename_i usable
      have backward : in_edge.data.backward = true := by simpa using usable
      have collected : Collected graph node in_edge (pairEdges node pairs) (graph.adjacent node)
          (collectTargets graph node in_edge (weights,pairEdges node pairs)) :=
        collectTargets_collected fits incoming backward away
      obtain ⟨loops,emitted,validLoops⟩ := collected.emitted
      obtain ⟨needed,emitted',validNeeded,complete⟩ :=
        neededShortcuts_spec fits incoming backward away collected
      refine ⟨(collectTargets graph node in_edge (weights,pairEdges node pairs)).node_weights,loops ++ needed,?_,?_,?_⟩
      · dsimp only
        rw [emitted,emitted',pairEdges_append,pairEdges_append,append_assoc]
      · intro pair member
        rcases mem_append.mp member with inside | inside
        · exact validLoops pair inside
        · exact validNeeded pair inside
      · intro out_edge pair
        exact (complete out_edge pair).imp_left (mem_append_right _)

private theorem foldl_contractIncoming (fits : Fits graph node) (edges : List DynamicEdge)
    (inside : ∀ e ∈ edges, e ∈ graph.adjacent node) (weights : NodeID → EdgeWeight)
    (pairs : List (DynamicEdge × DynamicEdge)) :
    ∃ weights' more, edges.foldl (contractIncoming graph node) (weights,pairEdges node pairs) =
        (weights',pairEdges node (pairs ++ more)) ∧ (∀ pair ∈ more, Pair graph node pair.1 pair.2) ∧
      ∀ in_edge ∈ edges, ∀ out_edge, Pair graph node in_edge out_edge → (in_edge,out_edge) ∈ more ∨
        ∃ k ≤ in_edge.data.weight + out_edge.data.weight, Around graph node in_edge.target out_edge.target k := by
  induction edges generalizing weights pairs with
  | nil => exact ⟨weights,[],by simp,by simp,by simp⟩
  | cons in_edge rest ih =>
    obtain ⟨weights₁,first,step,valid,complete⟩ := contractIncoming_spec weights pairs fits (inside in_edge (by simp))
    obtain ⟨weights₂,more,run,valid',complete'⟩ :=
      ih (fun e member => inside e (mem_cons_of_mem _ member)) weights₁ (pairs ++ first)
    refine ⟨weights₂,first ++ more,by rw [foldl_cons,step,run,append_assoc],?_,?_⟩
    · intro pair member
      rcases mem_append.mp member with one | two
      · exact valid pair one
      · exact valid' pair two
    · intro e member out_edge pair
      rcases mem_cons.mp member with rfl | later
      · exact (complete out_edge pair).imp_left (mem_append_left _)
      · exact (complete' e later out_edge pair).imp_left (mem_append_right _)

def flag (forward : Bool) (data : ContractorEdgeData) : Bool := if forward then data.forward else data.backward
/-- An inserted edge of this direction and weight. -/
def Offers (edges : List ContractorEdge) (forward : Bool) (s t : NodeID) (w : EdgeWeight) : Prop :=
  ∃ e ∈ edges, e.source = s ∧ e.target = t ∧ e.data.weight = w ∧ flag forward e.data = true

variable {edges rest rest' : List ContractorEdge} {edge : ContractorEdge} {forward : Bool} {t : NodeID}
  {w : EdgeWeight}

private theorem offers_cons : Offers (edge :: rest) forward s t w ↔
    (edge.source = s ∧ edge.target = t ∧ edge.data.weight = w ∧ flag forward edge.data = true) ∨
      Offers rest forward s t w := by
  simp [Offers]
private theorem offers_append : Offers (edges ++ rest) forward s t w ↔ Offers edges forward s t w ∨ Offers rest forward s t w := by
  simp only [Offers,mem_append,or_and_right,exists_or]

private theorem absorb_split (absorbed : absorb edge rest = some rest') :
    ∃ front other behind, rest = front ++ other :: behind ∧ sameShortcut other edge = true ∧
      rest' = front ++ { other with data := { other.data with
        forward := other.data.forward || edge.data.forward
        backward := other.data.backward || edge.data.backward } } :: behind := by
  induction rest generalizing rest' with
  | nil => cases absorbed
  | cons other more ih =>
    rw [absorb] at absorbed
    split at absorbed
    · rename_i same
      exact ⟨[],other,more,rfl,same,(Option.some.inj absorbed).symm⟩
    · obtain ⟨more',deeper,rfl⟩ := Option.map_eq_some_iff.mp absorbed
      obtain ⟨front,found,behind,rfl,same,rfl⟩ := ih deeper
      exact ⟨other :: front,found,behind,rfl,same,rfl⟩

private theorem absorb_offers (absorbed : absorb edge rest = some rest') :
    Offers rest' forward s t w ↔ Offers (edge :: rest) forward s t w := by
  obtain ⟨front,other,behind,rfl,same,rfl⟩ := absorb_split absorbed
  simp only [sameShortcut,Bool.and_eq_true,beq_iff_eq] at same
  obtain ⟨⟨⟨source,target⟩,weight⟩,_⟩ := same
  simp only [offers_append,offers_cons,← source,← target,← weight]
  cases forward <;> simp [flag] <;> tauto

/-- `e'` is `e` with perhaps more flags set. -/
structure Merged (e e' : ContractorEdge) : Prop where
  shortcut : e'.data.shortcut = e.data.shortcut
  id : e'.data.id = e.data.id
  flags : ∀ forward, flag forward e.data = true → flag forward e'.data = true

private theorem Merged.refl (e : ContractorEdge) : Merged e e := ⟨rfl,rfl,fun _ set => set⟩
private theorem Merged.trans {a b c : ContractorEdge} (one : Merged a b) (two : Merged b c) : Merged a c :=
  ⟨two.shortcut.trans one.shortcut,two.id.trans one.id,fun forward set => two.flags forward (one.flags forward set)⟩

private theorem absorb_merged (absorbed : absorb edge rest = some rest') :
    ∀ e' ∈ rest', ∃ e ∈ rest, Merged e e' := by
  obtain ⟨front,other,behind,rfl,-,rfl⟩ := absorb_split absorbed
  intro e' member
  rcases mem_append.mp member with before | member
  · exact ⟨e',mem_append_left _ before,.refl e'⟩
  rcases mem_cons.mp member with rfl | after
  · refine ⟨other,mem_append_right _ mem_cons_self,rfl,rfl,?_⟩
    rintro (_ | _) set <;> simp_all [flag]
  · exact ⟨e',mem_append_right _ (mem_cons_of_mem _ after),.refl e'⟩

private theorem mergeDirections_offers (fuel : ℕ) (edges : List ContractorEdge) :
    Offers (mergeDirections fuel edges) forward s t w ↔ Offers edges forward s t w := by
  induction fuel generalizing edges with
  | zero => rfl
  | succ fuel ih =>
    cases edges with
    | nil => rfl
    | cons edge rest =>
      rw [mergeDirections]
      split
      · rename_i absorbed
        rw [ih,absorb_offers absorbed]
      · rw [offers_cons,ih,offers_cons]

private theorem mergeDirections_merged (fuel : ℕ) (edges : List ContractorEdge) :
    ∀ e' ∈ mergeDirections fuel edges, ∃ e ∈ edges, Merged e e' := by
  induction fuel generalizing edges with
  | zero => exact fun e member => ⟨e,member,.refl e⟩
  | succ fuel ih =>
    intro e' member
    cases edges with
    | nil => simp [mergeDirections] at member
    | cons edge rest =>
      rw [mergeDirections] at member
      split at member
      · rename_i rest' absorbed
        obtain ⟨e,inside,merged⟩ := ih _ e' member
        obtain ⟨e₀,inside₀,merged₀⟩ := absorb_merged absorbed e inside
        exact ⟨e₀,mem_cons_of_mem _ inside₀,merged₀.trans merged⟩
      · rcases mem_cons.mp member with rfl | later
        · exact ⟨e',by simp,.refl e'⟩
        · obtain ⟨e,inside,same⟩ := ih rest e' later
          exact ⟨e,mem_cons_of_mem _ inside,same⟩

/-- Two edges at `node` that together lead from `s` to `t`. -/
def Through (graph : ContractorGraph) (node s t : NodeID) (w : EdgeWeight) : Prop :=
  ∃ a b, backwardArcs graph node s a ∧ forwardArcs graph node t b ∧ s ≠ node ∧ t ≠ node ∧ w = a + b

/-- What `ContractNode` promises about the edges it emits. -/
structure Emitted (graph : ContractorGraph) (node : NodeID) (edges : List ContractorEdge) : Prop where
  shortcut : ∀ e ∈ edges, e.data.shortcut = true ∧ e.data.id = node
  usable : ∀ e ∈ edges, ∃ forward, flag forward e.data = true
  sound : ∀ {s t w}, Offers edges true s t w → Through graph node s t w
  mirrored : ∀ {s t w}, Offers edges false t s w ↔ Offers edges true s t w
  bypass : ∀ {s t w}, Through graph node s t w → Offers edges true s t w ∨ ∃ k ≤ w, Around graph node s t k

private theorem pairEdges_offers {pairs : List (DynamicEdge × DynamicEdge)} :
    Offers (pairEdges node pairs) forward s t w ↔ ∃ pair ∈ pairs,
      (if forward then pair.1.target = s ∧ pair.2.target = t else pair.2.target = s ∧ pair.1.target = t) ∧
        pair.1.data.weight + pair.2.data.weight = w := by
  induction pairs with
  | nil => simp [Offers,pairEdges]
  | cons pair rest ih =>
    have unfolded : pairEdges node (pair :: rest) = shortcutPair node pair.1 pair.2 ++ pairEdges node rest := by
      simp [pairEdges]
    rw [unfolded,shortcutPair,cons_append,cons_append,nil_append,offers_cons,offers_cons,ih]
    cases forward <;> simp [flag,shortcutData,and_assoc]

theorem contractNode_emitted (fits : Fits graph node) (weights : NodeID → EdgeWeight) :
    Emitted graph node (ContractNode graph node weights).2 := by
  obtain ⟨weights',pairs,run,valid,complete⟩ :=
    foldl_contractIncoming fits (graph.adjacent node) (fun e member => member) weights []
  have result : (ContractNode graph node weights).2 =
      mergeDirections (pairEdges node pairs).length (pairEdges node pairs) := by
    unfold ContractNode
    rw [show ((weights,[]) : (NodeID → EdgeWeight) × List ContractorEdge) = (weights,pairEdges node []) from rfl,run,
      nil_append]
  rw [result]
  have origin : ∀ e ∈ mergeDirections (pairEdges node pairs).length (pairEdges node pairs),
      (e.data.shortcut = true ∧ e.data.id = node) ∧ ∃ forward, flag forward e.data = true := by
    intro e member
    obtain ⟨e',inside,merged⟩ := mergeDirections_merged _ _ e member
    obtain ⟨pair,_,made⟩ := mem_flatMap.mp inside
    rw [merged.shortcut,merged.id]
    rcases mem_cons.mp made with rfl | second
    · exact ⟨⟨rfl,rfl⟩,true,merged.flags true rfl⟩
    · cases mem_singleton.mp second
      exact ⟨⟨rfl,rfl⟩,false,merged.flags false rfl⟩
  refine ⟨fun e member => (origin e member).1,fun e member => (origin e member).2,?_,?_,?_⟩
  · intro s t w offered
    obtain ⟨pair,inside,ends,weight⟩ := pairEdges_offers.mp ((mergeDirections_offers _ _).mp offered)
    have known := valid pair inside
    obtain ⟨rfl,rfl⟩ := ends
    exact ⟨pair.1.data.weight,pair.2.data.weight,⟨pair.1,known.incoming,rfl,known.backward,rfl⟩,
      ⟨pair.2,known.outgoing,rfl,known.forward,rfl⟩,known.away,known.other,weight.symm⟩
  · intro s t w
    rw [mergeDirections_offers,mergeDirections_offers,pairEdges_offers,pairEdges_offers]
    simp [and_comm]
  · rintro s t w ⟨a,b,⟨in_edge,incoming,rfl,backward,rfl⟩,⟨out_edge,outgoing,rfl,forward,rfl⟩,away,other,rfl⟩
    refine (complete in_edge incoming out_edge ⟨incoming,outgoing,backward,forward,away,other⟩).imp_left fun made => ?_
    rw [mergeDirections_offers,pairEdges_offers]
    exact ⟨(in_edge,out_edge),made,⟨rfl,rfl⟩,rfl⟩

end Osrm.NodeContraction
