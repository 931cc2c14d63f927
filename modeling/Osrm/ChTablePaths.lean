import Osrm.ChTable

/-!
The entries of a table as descriptions of paths. `forwardRoutingStep` meets candidates: a label of the search from a
source and a bucket of the node, and for negative weights a loop at the node besides.
-/
namespace Osrm.ChTable
open List Option
open Typedefs Walks Heap QueryGraph Phantom ManyToMany ContractGraph ContractionRound

/-- The edges of the query graph that lead from `x` to `y`, stored at either end. -/
def Road (graph : QueryGraph.Graph) (x y : NodeID) (w : EdgeWeight) (d : EdgeDuration) : Prop :=
  (∃ edge ∈ graph.GetAdjacentEdgeRange x, edge.1.target = y ∧ edge.1.data.usable .FORWARD = true ∧
    edge.1.data.weight = w ∧ edge.1.data.duration = d) ∨
  ∃ edge ∈ graph.GetAdjacentEdgeRange y, edge.1.target = x ∧ edge.1.data.usable .REVERSE = true ∧
    edge.1.data.weight = w ∧ edge.1.data.duration = d

/-- A path of the query graph with its nodes, its weight and its duration. -/
inductive Travels (graph : QueryGraph.Graph) : NodeID → NodeID → List NodeID → EdgeWeight → EdgeDuration → Prop
  | stay (x : NodeID) : Travels graph x x [x] 0 0
  | go {x y z : NodeID} {nodes : List NodeID} {w n d m : ℤ} (road : Road graph x y w d)
      (rest : Travels graph y z nodes n m) : Travels graph x z (x :: nodes) (w + n) (d + m)

/-- A path of a pair of locations, from a segment of the source to one of the target. -/
def EntryPath (graph : QueryGraph.Graph) (sources targets : List Start) (nodes : List NodeID) (w : EdgeWeight)
    (d : EdgeDuration) : Prop :=
  ∃ s ∈ sources, ∃ t ∈ targets, ∃ n m, Travels graph s.node t.node nodes n m ∧
    w = s.weight + n + t.weight ∧ d = s.duration + m + t.duration

variable {graph : QueryGraph.Graph} {x y z : NodeID} {front back nodes : List NodeID} {w n d m n' m' : ℤ}

private theorem Travels.first (path : Travels graph x y nodes n m) : x ∈ nodes := by
  cases path <;> simp

private theorem Travels.append (one : Travels graph x y front n m) (two : Travels graph y z back n' m') :
    ∃ nodes, Travels graph x z nodes (n + n') (m + m') ∧ y ∈ nodes := by
  induction one with
  | stay => exact ⟨back,by simpa using two,two.first⟩
  | go road _ ih =>
    obtain ⟨nodes,path,member⟩ := ih two
    exact ⟨_,by simpa [add_assoc] using Travels.go road path,mem_cons_of_mem _ member⟩

private theorem Travels.snoc (path : Travels graph x y front n m) (road : Road graph y z w d) :
    ∃ nodes, Travels graph x z nodes (n + w) (m + d) ∧ y ∈ nodes := by
  simpa using path.append (.go road (.stay z))

/-! ### The candidates that are met -/

/-- A label of the search of a row together with a bucket of its node. -/
structure Encounter where
  row_index : ℕ
  heapNode : HeapNode NodeID HeapData
  bucket : NodeBucket
  deriving DecidableEq, Repr

namespace Encounter
variable (graph) (number_of_targets : ℕ) (e : Encounter)

def index : ℕ := e.row_index * number_of_targets + e.bucket.column_index
def new_weight : EdgeWeight := e.heapNode.weight + e.bucket.weight
def new_duration : EdgeDuration := e.heapNode.data.duration + e.bucket.duration
def new_distance : EdgeDistance := e.heapNode.data.distance + e.bucket.distance
def withLoop : Option (EdgeWeight × EdgeDuration × EdgeDistance) :=
  addLoopWeight graph e.heapNode.node e.new_weight e.new_duration e.new_distance
/-- The weight and the duration of the candidate; a negative weight makes none without a loop. -/
def candidate : Option (EdgeWeight × EdgeDuration) :=
  if e.new_weight < 0 then (e.withLoop graph).map fun (weight,duration,_) => (weight,duration)
  else some (e.new_weight,e.new_duration)
/-- The body of the loop of `forwardRoutingStep`. -/
def use (tables : Tables) : Tables :=
  useBucket graph e.row_index number_of_targets e.heapNode tables e.bucket

/-- One loop at a node is the lightest and the quickest. -/
def oneLoop (graph : QueryGraph.Graph) (node : NodeID) : Bool :=
  (graph.GetAdjacentEdgeRange node).any fun edge =>
    edge.1.data.forward && edge.1.target == node &&
      edge.1.data.weight == (getLoopMetric EdgeData.weight INVALID_EDGE_WEIGHT graph node).1 &&
      edge.1.data.duration == (getLoopMetric EdgeData.duration INVALID_EDGE_DURATION graph node).1

/-- A candidate with a loop has one loop and is in no respect worse than what the entry holds. -/
def replaces (tables : Tables) : Bool :=
  if e.new_weight < 0 then
    match e.withLoop graph with
    | some (weight,duration,_) => oneLoop graph e.heapNode.node &&
        weight ≤ tables.weight (e.index number_of_targets) && duration ≤ tables.duration (e.index number_of_targets)
    | none => true
  else true

end Encounter

/-- A step of the search of a row that only notes the node it takes out. -/
def settleStep (graph : QueryGraph.Graph) (s : Heap × List (HeapNode NodeID HeapData)) :
    Heap × List (HeapNode NodeID HeapData) :=
  match s.1.DeleteMin with
  | none => s
  | some (heapNode,rest) => (relaxOutgoingEdges graph .FORWARD heapNode rest,s.2 ++ [heapNode])

/-- The nodes that the search of a row takes out, in their order. -/
def settledNodes (fuel : ℕ) (graph : QueryGraph.Graph) (candidates_list : List PhantomNodeCandidates) (source : ℕ) :
    Option (List (HeapNode NodeID HeapData)) :=
  (Loops.whileLoop (fun s : Heap × List (HeapNode NodeID HeapData) => !s.1.Empty) (settleStep graph) fuel
    (insertSourceInHeap HeapData.mk .Clear (candidates_list.getD source []),[])).map (·.2)

/-- The candidates of a row in the order in which they are met. -/
def rowEncounters (fuel : ℕ) (graph : QueryGraph.Graph) (candidates_list : List PhantomNodeCandidates)
    (search_space_with_buckets : List NodeBucket) (source : ℕ × ℕ) : Option (List Encounter) :=
  (settledNodes fuel graph candidates_list source.1).map fun settled => settled.flatMap fun heapNode =>
    (equalRange search_space_with_buckets heapNode.node).map fun bucket => ⟨source.2,heapNode,bucket⟩

/-- The candidates of a request in the order in which they are met. -/
def encounters (fuel : ℕ) (sort : List NodeBucket → List NodeBucket) (graph : QueryGraph.Graph)
    (candidates_list : List PhantomNodeCandidates) (source_indices target_indices : List ℕ) : Option (List Encounter) := do
  let search_space_with_buckets ← target_indices.zipIdx.foldlM (searchColumn fuel graph candidates_list) []
  source_indices.zipIdx.foldlM (fun trace source =>
    (rowEncounters fuel graph candidates_list (sort search_space_with_buckets) source).map (trace ++ ·)) []

section run
variable {fuel : ℕ} {candidates_list : List PhantomNodeCandidates} {buckets : List NodeBucket} {tables : Tables}

variable (graph) in
def meetAll (number_of_targets : ℕ) (tables : Tables) (trace : List Encounter) : Tables :=
  trace.foldl (fun tables e => e.use graph number_of_targets tables) tables

private theorem searchRow_eq (number_of_targets : ℕ) (source : ℕ × ℕ) :
    searchRow fuel graph candidates_list number_of_targets buckets tables source =
      (rowEncounters fuel graph candidates_list buckets source).map (meetAll graph number_of_targets tables) := by
  have inStep : Loops.whileLoop (fun s : Heap × Tables => !s.1.Empty)
      (forwardRoutingStep graph source.2 number_of_targets buckets) fuel
        (insertSourceInHeap HeapData.mk .Clear (candidates_list.getD source.1 []),tables) =
      (Loops.whileLoop (fun s => !s.1.Empty) (settleStep graph) fuel
        (insertSourceInHeap HeapData.mk .Clear (candidates_list.getD source.1 []),[])).map fun s =>
          (s.1,s.2.foldl (useBuckets graph source.2 number_of_targets buckets) tables) := by
    refine Loops.whileLoop_map (fun s : Heap × List (HeapNode NodeID HeapData) =>
      (s.1,s.2.foldl (useBuckets graph source.2 number_of_targets buckets) tables)) (fun _ => rfl) ?_ fuel (_,[])
    intro s running
    obtain ⟨least,rest,popped⟩ := deleteMin_of_not_empty (by simpa using running)
    simp [forwardRoutingStep,settleStep,popped]
  unfold searchRow rowEncounters settledNodes
  rw [inStep]
  simp only [Option.map_map]
  congr 1
  funext s
  simp only [Function.comp_apply,meetAll,foldl_flatMap,foldl_map]
  rfl

private theorem fillTables_eq {sort : List NodeBucket → List NodeBucket} {source_indices target_indices : List ℕ}
    {calculate_distance : Bool} :
    fillTables fuel sort graph candidates_list source_indices target_indices calculate_distance =
      (encounters fuel sort graph candidates_list source_indices target_indices).map (meetAll graph target_indices.length
        (Tables.start (source_indices.length * target_indices.length) calculate_distance)) := by
  have rows : ∀ (sources : List (ℕ × ℕ)) (buckets : List NodeBucket) (start : Tables) (trace : List Encounter),
      sources.foldlM (searchRow fuel graph candidates_list target_indices.length buckets)
          (meetAll graph target_indices.length start trace) =
        (sources.foldlM (fun trace source =>
          (rowEncounters fuel graph candidates_list buckets source).map (trace ++ ·)) trace).map
            (meetAll graph target_indices.length start) := by
    intro sources buckets start
    induction sources with
    | nil => intro trace; rfl
    | cons source rest ih =>
      intro trace
      rw [foldlM_cons,foldlM_cons,searchRow_eq]
      cases rowEncounters fuel graph candidates_list buckets source with
      | none => rfl
      | some more => simpa [meetAll,foldl_append] using ih (trace ++ more)
  unfold fillTables encounters
  cases target_indices.zipIdx.foldlM (searchColumn fuel graph candidates_list) [] with
  | none => rfl
  | some found => exact rows _ _ _ []

end run

variable (graph) in
/-- A label of a search with the path it stands for: from a segment of the source, or to one of the target. -/
def Labelled : Direction → List Start → NodeID → EdgeWeight → EdgeDuration → Prop
  | .FORWARD, starts, x, k, d => ∃ s ∈ starts, ∃ nodes n m, Travels graph s.node x nodes n m ∧
      k = s.weight + n ∧ d = s.duration + m
  | .REVERSE, starts, x, k, d => ∃ t ∈ starts, ∃ nodes n m, Travels graph x t.node nodes n m ∧
      k = t.weight + n ∧ d = t.duration + m

section labels
variable {direction : Direction} {starts : List Start} {heap rest : Heap} {heapNode : HeapNode NodeID HeapData}

private theorem Labelled.extend {edge : QueryEdge × EdgeID} {k : ℤ} (label : Labelled graph direction starts x k d)
    (member : edge ∈ graph.GetAdjacentEdgeRange x) (usable : edge.1.data.usable direction = true) :
    Labelled graph direction starts edge.1.target (k + edge.1.data.weight) (d + edge.1.data.duration) := by
  cases direction with
  | FORWARD =>
    obtain ⟨s,start,nodes,n,m,path,rfl,rfl⟩ := label
    obtain ⟨nodes',path',_⟩ := path.snoc (.inl ⟨edge,member,rfl,usable,rfl,rfl⟩)
    exact ⟨s,start,nodes',_,_,path',by ring,by ring⟩
  | REVERSE =>
    obtain ⟨t,final,nodes,n,m,path,rfl,rfl⟩ := label
    exact ⟨t,final,_,_,_,.go (.inr ⟨edge,member,rfl,usable,rfl,rfl⟩) path,by ring,by ring⟩

private theorem relax_labelled (popped : heap.DeleteMin = some (heapNode,rest))
    (labels : ∀ e ∈ heap.inserted_nodes, Labelled graph direction starts e.node e.weight e.data.duration) :
    ∀ e ∈ (relaxOutgoingEdges graph direction heapNode rest).inserted_nodes,
      Labelled graph direction starts e.node e.weight e.data.duration := by
  have spec := deleteMin_spec popped
  have kept : ∀ e ∈ rest.inserted_nodes, Labelled graph direction starts e.node e.weight e.data.duration := by
    intro e member
    rcases spec.new_or_old e member with rfl | old
    · exact labels heapNode spec.member
    · exact labels e old
  unfold relaxOutgoingEdges
  split
  · exact kept
  · intro e member
    rcases mem_insertOrUpdateAll member with old | ⟨c,inside,node,weight,_,data⟩
    · exact kept e old
    · obtain ⟨edge,adjacent,made⟩ := mem_filterMap.mp inside
      split at made
      · rename_i usable
        cases made
        rw [node,weight,data]
        exact (labels heapNode spec.member).extend adjacent usable
      · simp at made

private theorem starts_labelled : ∀ e ∈ (insertStarts HeapData.mk .Clear starts).inserted_nodes,
    Labelled graph direction starts e.node e.weight e.data.duration := by
  intro e member
  rcases (mem_insertStarts HeapData.mk).mp member with old | ⟨s,inside,rfl⟩
  · simp [QueryHeap.Clear] at old
  · cases direction with
    | FORWARD => exact ⟨s,inside,_,0,0,.stay _,by ring,by ring⟩
    | REVERSE => exact ⟨s,inside,_,0,0,.stay _,by ring,by ring⟩

variable {fuel : ℕ} {candidates_list : List PhantomNodeCandidates}

private theorem settledNodes_labelled {source : ℕ} {settled : List (HeapNode NodeID HeapData)}
    (ran : settledNodes fuel graph candidates_list source = some settled) :
    ∀ e ∈ settled, Labelled graph .FORWARD (rowStarts candidates_list source) e.node e.weight e.data.duration := by
  obtain ⟨final,stopped,rfl⟩ := map_eq_some_iff.mp ran
  refine (Loops.whileLoop_invariant (fun s : Heap × List (HeapNode NodeID HeapData) =>
    (∀ e ∈ s.1.inserted_nodes, Labelled graph .FORWARD (rowStarts candidates_list source) e.node e.weight e.data.duration) ∧
      ∀ e ∈ s.2, Labelled graph .FORWARD (rowStarts candidates_list source) e.node e.weight e.data.duration)
    ?_ ⟨starts_labelled,by simp⟩ stopped).2
  rintro ⟨heap,settled⟩ ⟨labels,noted⟩ running
  obtain ⟨heapNode,rest,popped⟩ := deleteMin_of_not_empty (by simpa using running)
  simp only [settleStep,popped]
  refine ⟨relax_labelled popped labels,fun e member => ?_⟩
  rcases mem_append.mp member with old | new
  · exact noted e old
  · obtain rfl := mem_singleton.mp new
    exact labels e (deleteMin_spec popped).member

/-- A bucket and the path to a target of its column that it stands for. -/
def BucketLabelled (graph : QueryGraph.Graph) (candidates_list : List PhantomNodeCandidates) (targets : List (ℕ × ℕ))
    (b : NodeBucket) : Prop :=
  ∃ target ∈ targets, b.column_index = target.2 ∧
    Labelled graph .REVERSE (columnStarts candidates_list target.1) b.middle_node b.weight b.duration

private theorem searchColumns_labelled {targets : List (ℕ × ℕ)} {buckets : List NodeBucket}
    (ran : targets.foldlM (searchColumn fuel graph candidates_list) [] = some buckets) :
    ∀ b ∈ buckets, BucketLabelled graph candidates_list targets b := by
  refine Loops.foldlM_invariant (fun buckets => ∀ b ∈ buckets, BucketLabelled graph candidates_list targets b)
    ?_ (by simp) ran
  intro before target after known labelled ranColumn
  obtain ⟨final,stopped,rfl⟩ := map_eq_some_iff.mp ranColumn
  refine (Loops.whileLoop_invariant (fun s : Heap × List NodeBucket =>
    (∀ e ∈ s.1.inserted_nodes,
      Labelled graph .REVERSE (columnStarts candidates_list target.1) e.node e.weight e.data.duration) ∧
      ∀ b ∈ s.2, BucketLabelled graph candidates_list targets b) ?_ ⟨starts_labelled,labelled⟩ stopped).2
  rintro ⟨heap,buckets⟩ ⟨labels,noted⟩ running
  obtain ⟨heapNode,rest,popped⟩ := deleteMin_of_not_empty (by simpa using running)
  simp only [backwardRoutingStep,popped]
  refine ⟨relax_labelled popped labels,fun b member => ?_⟩
  rcases mem_append.mp member with old | new
  · exact noted b old
  · cases mem_singleton.mp new
    exact ⟨target,known,rfl,labels heapNode (deleteMin_spec popped).member⟩

end labels

section candidates
variable {fuel number_of_targets i : ℕ} {candidates_list : List PhantomNodeCandidates} {sort : List NodeBucket → List NodeBucket}
  {source_indices target_indices : List ℕ} {trace : List Encounter} {e : Encounter} {sources targets : List Start}

/-- The label and the bucket of a candidate stand for paths that share the node. -/
structure Encounter.Genuine (graph : QueryGraph.Graph) (sources targets : List Start) (e : Encounter) : Prop where
  up : Labelled graph .FORWARD sources e.heapNode.node e.heapNode.weight e.heapNode.data.duration
  down : Labelled graph .REVERSE targets e.heapNode.node e.bucket.weight e.bucket.duration

private theorem encounters_genuine (sorts : Sorts sort)
    (ran : encounters fuel sort graph candidates_list source_indices target_indices = some trace) :
    ∀ e ∈ trace, ∃ source ∈ source_indices.zipIdx, ∃ target ∈ target_indices.zipIdx,
      e.row_index = source.2 ∧ e.bucket.column_index = target.2 ∧
      e.Genuine graph (rowStarts candidates_list source.1) (columnStarts candidates_list target.1) := by
  obtain ⟨buckets,filled,rows⟩ := bind_eq_some_iff.mp ran
  have labelled := searchColumns_labelled filled
  refine Loops.foldlM_invariant (fun trace : List Encounter => ∀ e ∈ trace, ∃ source ∈ source_indices.zipIdx,
    ∃ target ∈ target_indices.zipIdx, e.row_index = source.2 ∧ e.bucket.column_index = target.2 ∧
      e.Genuine graph (rowStarts candidates_list source.1) (columnStarts candidates_list target.1)) ?_ (by simp) rows
  intro before source after known genuine ranRow
  obtain ⟨more,found,rfl⟩ := map_eq_some_iff.mp ranRow
  obtain ⟨settled,search,rfl⟩ := map_eq_some_iff.mp found
  intro e member
  rcases mem_append.mp member with old | new
  · exact genuine e old
  · obtain ⟨heapNode,inside,later⟩ := mem_flatMap.mp new
    obtain ⟨bucket,looked,rfl⟩ := mem_map.mp later
    obtain ⟨kept,here⟩ := (mem_equalRange (sorts.sorted buckets)).mp looked
    obtain ⟨target,column,same,down⟩ := labelled bucket ((sorts.perm buckets).mem_iff.mp kept)
    exact ⟨source,known,target,column,rfl,same,settledNodes_labelled search heapNode inside,here ▸ down⟩

private theorem Encounter.Genuine.path (genuine : e.Genuine graph sources targets)
    (loop : e.new_weight < 0 → Encounter.oneLoop graph e.heapNode.node = true) {c : EdgeWeight × EdgeDuration}
    (met : e.candidate graph = some c) :
    ∃ nodes, EntryPath graph sources targets nodes c.1 c.2 ∧ e.heapNode.node ∈ nodes := by
  obtain ⟨s,start,front,n,m,up,weightS,durationS⟩ := genuine.up
  obtain ⟨t,final,back,n',m',down,weightT,durationT⟩ := genuine.down
  unfold Encounter.candidate at met
  split at met
  · rename_i negative
    obtain ⟨⟨weight,duration,distance⟩,added,rfl⟩ := map_eq_some_iff.mp met
    unfold Encounter.withLoop addLoopWeight at added
    dsimp only at added
    split at added
    · obtain ⟨rfl,rfl,_⟩ : _ = weight ∧ _ = duration ∧ _ = distance := by simpa using added
      obtain ⟨edge,adjacent,properties⟩ := any_eq_true.mp (loop negative)
      simp only [Bool.and_eq_true,beq_iff_eq] at properties
      obtain ⟨⟨⟨usable,own⟩,lightest⟩,quickest⟩ := properties
      have round : Road graph e.heapNode.node e.heapNode.node
          (getLoopMetric EdgeData.weight INVALID_EDGE_WEIGHT graph e.heapNode.node).1
          (getLoopMetric EdgeData.duration INVALID_EDGE_DURATION graph e.heapNode.node).1 :=
        .inl ⟨edge,adjacent,own,usable,lightest,quickest⟩
      obtain ⟨nodes,path,member⟩ := up.append (.go round down)
      refine ⟨nodes,⟨s,start,t,final,_,_,path,?_,?_⟩,member⟩
      · rw [Encounter.new_weight,weightS,weightT]
        ring
      · rw [Encounter.new_duration,durationS,durationT]
        ring
    · simp at added
  · cases met
    obtain ⟨nodes,path,member⟩ := up.append down
    refine ⟨nodes,⟨s,start,t,final,_,_,path,?_,?_⟩,member⟩
    · rw [Encounter.new_weight,weightS,weightT]
      ring
    · rw [Encounter.new_duration,durationS,durationT]
      ring

end candidates

/-! ### One candidate after the other -/

section entry
variable {number_of_targets i size : ℕ} {tables : Tables} {e : Encounter} {sources targets : List Start}

structure Tables.Sized (size : ℕ) (tables : Tables) : Prop where
  weights : tables.weights_table.length = size
  durations : tables.durations_table.length = size
  middles : tables.middle_nodes_table.length = size

private theorem use_sized (sized : Tables.Sized size tables) : Tables.Sized size (e.use graph number_of_targets tables) := by
  obtain ⟨weights,durations,middles⟩ := sized
  unfold Encounter.use useBucket
  dsimp only
  split
  · split
    · exact ⟨by simpa [Tables.write] using weights,by simpa [Tables.write] using durations,
        by simpa [Tables.write] using middles⟩
    · exact ⟨weights,durations,middles⟩
  · split
    · exact ⟨by simpa [Tables.write] using weights,by simpa [Tables.write] using durations,
        by simpa [Tables.write] using middles⟩
    · exact ⟨weights,durations,middles⟩

private theorem use_other (other : e.index number_of_targets ≠ i) :
    (e.use graph number_of_targets tables).weight i = tables.weight i ∧
      (e.use graph number_of_targets tables).duration i = tables.duration i ∧
      (e.use graph number_of_targets tables).middle i = tables.middle i := by
  unfold Encounter.index at other
  unfold Encounter.use useBucket
  dsimp only
  split
  · split
    · simp [Tables.write,Tables.weight,Tables.duration,Tables.middle,getElem?_set_ne other]
    · exact ⟨rfl,rfl,rfl⟩
  · split
    · simp [Tables.write,Tables.weight,Tables.duration,Tables.middle,getElem?_set_ne other]
    · exact ⟨rfl,rfl,rfl⟩

private theorem use_none (nothing : e.candidate graph = none) : e.use graph number_of_targets tables = tables := by
  unfold Encounter.candidate at nothing
  split at nothing
  · rename_i negative
    have added : e.withLoop graph = none := by simpa using nothing
    unfold Encounter.withLoop at added
    unfold Encounter.use useBucket
    rw [Encounter.new_weight] at negative added
    simp only [negative,if_true]
    rw [Encounter.new_duration,Encounter.new_distance] at added
    simp [added]
  · simp at nothing

private theorem use_some {c : EdgeWeight × EdgeDuration} (sized : Tables.Sized size tables)
    (inside : e.index number_of_targets < size) (met : e.candidate graph = some c)
    (replaces : e.replaces graph number_of_targets tables = true) :
    ((e.use graph number_of_targets tables).weight (e.index number_of_targets) = c.1 ∧
      (e.use graph number_of_targets tables).duration (e.index number_of_targets) = c.2 ∧
      (e.use graph number_of_targets tables).middle (e.index number_of_targets) = e.heapNode.node ∧
      (c.1 < tables.weight (e.index number_of_targets) ∨ c.1 = tables.weight (e.index number_of_targets) ∧
        c.2 ≤ tables.duration (e.index number_of_targets))) ∨
    e.use graph number_of_targets tables = tables ∧ (tables.weight (e.index number_of_targets) < c.1 ∨
      tables.weight (e.index number_of_targets) = c.1 ∧ tables.duration (e.index number_of_targets) ≤ c.2) := by
  obtain ⟨weights,durations,middles⟩ := sized
  have written : ∀ w d x m, (tables.write (e.index number_of_targets) w d x m).weight (e.index number_of_targets) = w ∧
      (tables.write (e.index number_of_targets) w d x m).duration (e.index number_of_targets) = d ∧
      (tables.write (e.index number_of_targets) w d x m).middle (e.index number_of_targets) = m := by
    intro w d x m
    simp [Tables.write,Tables.weight,Tables.duration,Tables.middle,weights,durations,middles,inside]
  by_cases negative : e.new_weight < 0
  · simp only [Encounter.candidate,negative,if_true] at met
    obtain ⟨⟨weight,duration,distance⟩,added,rfl⟩ := map_eq_some_iff.mp met
    simp only [Encounter.replaces,negative,if_true,added,Bool.and_eq_true,decide_eq_true_eq] at replaces
    have result : e.use graph number_of_targets tables = tables.write (e.index number_of_targets)
        (min (tables.weight (e.index number_of_targets)) weight) (min (tables.duration (e.index number_of_targets)) duration)
        (min (tables.distance (e.index number_of_targets)) distance) e.heapNode.node := by
      unfold Encounter.use useBucket
      unfold Encounter.withLoop Encounter.new_weight Encounter.new_duration Encounter.new_distance at added
      unfold Encounter.new_weight at negative
      simp only [negative,if_true,added]
      rfl
    left
    rw [result,min_eq_right replaces.1.2,min_eq_right replaces.2]
    obtain ⟨one,two,three⟩ := written weight duration (min (tables.distance (e.index number_of_targets)) distance)
      e.heapNode.node
    exact ⟨one,two,three,by simp only; lia⟩
  · simp only [Encounter.candidate,negative,if_false] at met
    cases met
    by_cases better : e.new_weight < tables.weight (e.index number_of_targets) ∨
        e.new_weight = tables.weight (e.index number_of_targets) ∧ e.new_duration < tables.duration (e.index number_of_targets)
    · have result : e.use graph number_of_targets tables = tables.write (e.index number_of_targets) e.new_weight
          e.new_duration e.new_distance e.heapNode.node := by
        unfold Encounter.use useBucket
        unfold Encounter.new_weight at negative
        dsimp only
        rw [if_neg negative,if_pos (by simpa [Encounter.new_weight,Encounter.new_duration,Encounter.index] using better)]
        rfl
      left
      rw [result]
      obtain ⟨one,two,three⟩ := written e.new_weight e.new_duration e.new_distance e.heapNode.node
      exact ⟨one,two,three,by simp only; lia⟩
    · have result : e.use graph number_of_targets tables = tables := by
        unfold Encounter.use useBucket
        unfold Encounter.new_weight at negative
        dsimp only
        rw [if_neg negative,if_neg (by simpa [Encounter.new_weight,Encounter.new_duration,Encounter.index] using better)]
      right
      exact ⟨result,by simp only; lia⟩

def Met (graph : QueryGraph.Graph) (number_of_targets : ℕ) (trace : List Encounter) (i : ℕ) (c : EdgeWeight × EdgeDuration) :
    Prop :=
  ∃ e ∈ trace, e.index number_of_targets = i ∧ e.candidate graph = some c

/-- An entry describes one path that is least among the candidates met, or it is untouched. -/
structure Describes (graph : QueryGraph.Graph) (number_of_targets : ℕ) (sources targets : List Start) (tables : Tables)
    (i : ℕ) (trace : List Encounter) : Prop where
  path : (tables.weight i = INVALID_EDGE_WEIGHT ∧ tables.duration i = MAXIMAL_EDGE_DURATION ∧
      tables.middle i = SPECIAL_NODEID) ∨
    ∃ nodes, EntryPath graph sources targets nodes (tables.weight i) (tables.duration i) ∧ tables.middle i ∈ nodes
  least : ∀ c, Met graph number_of_targets trace i c →
    tables.weight i < c.1 ∨ tables.weight i = c.1 ∧ tables.duration i ≤ c.2

/-- Every candidate with a loop replaces the entry as it stands when the candidate is met. -/
def AllReplace (graph : QueryGraph.Graph) (number_of_targets : ℕ) (start : Tables) (trace : List Encounter) : Prop :=
  ∀ before e after, trace = before ++ e :: after →
    e.replaces graph number_of_targets (meetAll graph number_of_targets start before) = true

private theorem Describes.snoc {trace : List Encounter} (sized : Tables.Sized size tables) (inside : i < size)
    (describes : Describes graph number_of_targets sources targets tables i trace)
    (genuine : e.index number_of_targets = i → e.Genuine graph sources targets)
    (replaces : e.replaces graph number_of_targets tables = true) :
    Describes graph number_of_targets sources targets (e.use graph number_of_targets tables) i (trace ++ [e]) := by
  have later : ∀ c, Met graph number_of_targets (trace ++ [e]) i c →
      Met graph number_of_targets trace i c ∨ e.index number_of_targets = i ∧ e.candidate graph = some c := by
    rintro c ⟨e',member,here,met⟩
    rcases mem_append.mp member with old | new
    · exact .inl ⟨e',old,here,met⟩
    · cases mem_singleton.mp new
      exact .inr ⟨here,met⟩
  by_cases here : e.index number_of_targets = i
  · cases made : e.candidate graph with
    | none =>
      rw [use_none made]
      refine ⟨describes.path,fun c met => ?_⟩
      rcases later c met with old | ⟨_,new⟩
      · exact describes.least c old
      · simp [made] at new
    | some c =>
      subst here
      rcases use_some sized inside made replaces with ⟨weight,duration,middle,better⟩ | ⟨same,worse⟩
      · have loop : e.new_weight < 0 → Encounter.oneLoop graph e.heapNode.node = true := by
          intro negative
          simp only [Encounter.candidate,negative,if_true] at made
          obtain ⟨⟨w,d,x⟩,added,_⟩ := map_eq_some_iff.mp made
          simp only [Encounter.replaces,negative,if_true,added,Bool.and_eq_true] at replaces
          exact replaces.1.1
        obtain ⟨nodes,path,member⟩ := (genuine rfl).path loop made
        refine ⟨.inr ⟨nodes,by rw [weight,duration]; exact path,middle ▸ member⟩,fun c' met => ?_⟩
        rcases later c' met with old | ⟨_,new⟩
        · have := describes.least c' old
          lia
        · obtain rfl : c = c' := some.inj (made.symm.trans new)
          exact .inr ⟨weight,duration.le⟩
      · rw [same]
        refine ⟨describes.path,fun c' met => ?_⟩
        rcases later c' met with old | ⟨_,new⟩
        · exact describes.least c' old
        · obtain rfl : c = c' := some.inj (made.symm.trans new)
          exact worse
  · obtain ⟨weight,duration,middle⟩ := @use_other graph _ _ tables e here
    refine ⟨by rw [weight,duration,middle]; exact describes.path,fun c met => ?_⟩
    rw [weight,duration]
    rcases later c met with old | ⟨there,_⟩
    · exact describes.least c old
    · exact absurd there here

private theorem meetAll_describes {start : Tables} {trace : List Encounter} (sized : Tables.Sized size start) (inside : i < size)
    (untouched : start.weight i = INVALID_EDGE_WEIGHT ∧ start.duration i = MAXIMAL_EDGE_DURATION ∧
      start.middle i = SPECIAL_NODEID)
    (genuine : ∀ e ∈ trace, e.index number_of_targets = i → e.Genuine graph sources targets)
    (replace : AllReplace graph number_of_targets start trace) :
    Tables.Sized size (meetAll graph number_of_targets start trace) ∧
      Describes graph number_of_targets sources targets (meetAll graph number_of_targets start trace) i trace := by
  induction trace using List.reverseRecOn with
  | nil => exact ⟨sized,.inl untouched,by rintro c ⟨_,none_met,_⟩; simp at none_met⟩
  | append_singleton trace e ih =>
    obtain ⟨sized',describes⟩ := ih (fun e' member => genuine e' (mem_append_left _ member)) (by
      intro before e' after whole
      exact replace before e' (after ++ [e]) (by simp [whole]))
    have last : meetAll graph number_of_targets start (trace ++ [e]) =
        e.use graph number_of_targets (meetAll graph number_of_targets start trace) := by simp [meetAll]
    rw [last]
    exact ⟨use_sized sized',describes.snoc sized' inside (genuine e (by simp)) (replace trace e [] (by simp))⟩

end entry

/-- Up to any candidate of a request an entry describes one path, as long as the candidates with loops replace what
    they meet. Sums are taken to fit 32 bits. -/
theorem entries_describe_paths (hash : NodeID → ℕ) (graph : Contractor.ContractorGraph) (input : Input graph)
    (complete : Complete hash graph) (fits : complete.run.All ContractGraph.Step.Fits) (edges : List QueryEdge)
    (converted : ToEdges complete.final.result edges) (sort : List NodeBucket → List NodeBucket) (sorts : Sorts sort)
    (candidates_list : List PhantomNodeCandidates) (source_indices target_indices : List ℕ) (calculate_distance : Bool) :
    ∃ fuel, ∀ more ≥ fuel, ∃ trace,
      encounters more sort ⟨graph.number_of_nodes,edges⟩ candidates_list source_indices target_indices = some trace ∧
      fillTables more sort ⟨graph.number_of_nodes,edges⟩ candidates_list source_indices target_indices calculate_distance =
        some (meetAll ⟨graph.number_of_nodes,edges⟩ target_indices.length
          (Tables.start (source_indices.length * target_indices.length) calculate_distance) trace) ∧
      ∀ done rest, trace = done ++ rest →
        AllReplace ⟨graph.number_of_nodes,edges⟩ target_indices.length
          (Tables.start (source_indices.length * target_indices.length) calculate_distance) done →
        ∀ (row : Fin source_indices.length) (column : Fin target_indices.length),
          Describes ⟨graph.number_of_nodes,edges⟩ target_indices.length (rowStarts candidates_list (source_indices.get row))
            (columnStarts candidates_list (target_indices.get column))
            (meetAll ⟨graph.number_of_nodes,edges⟩ target_indices.length
              (Tables.start (source_indices.length * target_indices.length) calculate_distance) done)
            (row * target_indices.length + column) done := by
  obtain ⟨fuel,tables,runs,_⟩ := fillTables_spec (complete.climb input fits converted) input.positive
    (complete.bounded input fits converted) sorts candidates_list source_indices target_indices calculate_distance
  refine ⟨fuel,fun more enough => ?_⟩
  have filled := runs more enough
  rw [fillTables_eq] at filled
  obtain ⟨trace,met,same⟩ := map_eq_some_iff.mp filled
  refine ⟨trace,met,by rw [fillTables_eq,met]; rfl,?_⟩
  intro done rest whole replace row column
  have inside : row * target_indices.length + column < source_indices.length * target_indices.length :=
    calc row * target_indices.length + column < row * target_indices.length + target_indices.length := by omega
      _ = (row + 1) * target_indices.length := by ring
      _ ≤ source_indices.length * target_indices.length := Nat.mul_le_mul_right _ row.isLt
  refine (meetAll_describes ?_ inside ?_ ?_ replace).2
  · exact ⟨by simp [Tables.start],by simp [Tables.start],by simp [Tables.start]⟩
  · simp [Tables.start,Tables.weight,Tables.duration,Tables.middle,inside]
  · intro e member here
    obtain ⟨source,known,target,known',sameRow,sameColumn,genuine⟩ :=
      encounters_genuine sorts met e (by rw [whole]; exact mem_append_left _ member)
    obtain ⟨row',rfl⟩ := mem_zipIdx known
    obtain ⟨column',rfl⟩ := mem_zipIdx known'
    unfold Encounter.index at here
    rw [sameRow,sameColumn] at here
    obtain ⟨one,two⟩ := index_inj column'.isLt column.isLt here
    obtain rfl : row' = row := Fin.ext one
    obtain rfl : column' = column := Fin.ext two
    exact genuine

/-! ### Loops at the ends of a row -/

/-- A step that contracts the given nodes one after the other, with the weights up to which loops are kept. -/
def loopStep (s : State) (node_weights : NodeID → EdgeWeight) (priorities : NodeID → ℚ) (selected left : List NodeID)
    (chosen : s.selected id priorities = selected)
    (others : (s.remaining_nodes.filter fun node => !s.independent id priorities node) = left) :
    Step id s ⟨(RoundRun.sequential s.graph node_weights selected).result,s.new_to_old_node_id,left⟩ :=
  chosen ▸ others ▸ .round priorities node_weights (RoundRun.sequential s.graph node_weights _)

private def ringFirst : State := ⟨(RoundRun.sequential row (fun _ => INVALID_EDGE_WEIGHT) [1]).result,Equiv.refl _,[0,2]⟩
private def ringSecond : State := ⟨(RoundRun.sequential ringFirst.graph (fun _ => 2) [0]).result,Equiv.refl _,[2]⟩

private theorem ring_middle_selected :
    (State.start row [0,1,2]).selected id (fun u => if u = 1 then 0 else 1) = [1] := by
  decide +kernel
private theorem ring_middle_left : ((State.start row [0,1,2]).remaining_nodes.filter fun node =>
    !(State.start row [0,1,2]).independent id (fun u => if u = 1 then 0 else 1) node) = [0,2] := by
  decide +kernel
private theorem ring_first_selected : ringFirst.selected id (fun u => u) = [0] := by decide +kernel
private theorem ring_first_left :
    (ringFirst.remaining_nodes.filter fun node => !ringFirst.independent id (fun u => u) node) = [2] := by
  decide +kernel
private theorem ring_second_selected : ringSecond.selected id (fun u => u) = [2] := by decide +kernel
private theorem ring_second_left :
    (ringSecond.remaining_nodes.filter fun node => !ringSecond.independent id (fun u => u) node) = [] := by
  decide +kernel

/-- The row as oneway streets, whose loops at the ends are kept. -/
def onewayComplete : Complete id row where
  final := _
  run := .step (loopStep (.start row [0,1,2]) (fun _ => INVALID_EDGE_WEIGHT) (fun u => if u = 1 then 0 else 1) [1] [0,2]
      ring_middle_selected ring_middle_left)
    (.step (loopStep ringFirst (fun _ => 2) (fun u => u) [0] [2] ring_first_selected ring_first_left)
      (.step (loopStep ringSecond (fun _ => 2) (fun u => u) [2] [] ring_second_selected ring_second_left) (.stop _)))
  done := rfl

def onewayEdges : List QueryEdge :=
  (collectEdges onewayComplete.final.result).insertionSort fun a b => edgeBefore b a = false

private theorem onewayEdges_even : ∀ e ∈ onewayEdges, e.data.weight = e.data.duration ∧ 0 < e.data.weight := by
  decide +kernel

private theorem oneway_travels (path : Travels ⟨3,onewayEdges⟩ x y nodes n m) : n = m ∧ 0 ≤ n := by
  induction path with
  | stay => exact ⟨rfl,le_rfl⟩
  | @go _ _ _ _ w _ d _ road _ ih =>
    have edge : ∃ edge ∈ onewayEdges, edge.data.weight = w ∧ edge.data.duration = d := by
      rcases road with ⟨edge,adjacent,_,_,rfl,rfl⟩ | ⟨edge,adjacent,_,_,rfl,rfl⟩
      · exact ⟨edge.1,mem_of_getElem? (mem_adjacent.mp adjacent).1,rfl,rfl⟩
      · exact ⟨edge.1,mem_of_getElem? (mem_adjacent.mp adjacent).1,rfl,rfl⟩
    obtain ⟨edge,member,rfl,rfl⟩ := edge
    have := onewayEdges_even edge member
    lia

private theorem onewayComplete_fits : onewayComplete.run.All ContractGraph.Step.Fits := by
  have light : ∀ (s : State) (node_weights : NodeID → EdgeWeight) (priorities : NodeID → ℚ) (selected left : List NodeID)
      (chosen : s.selected id priorities = selected)
      (others : (s.remaining_nodes.filter fun node => !s.independent id priorities node) = left),
      (∀ v ∈ selected, ∀ e ∈ s.graph.adjacent v, e.data.weight < 2 ^ 30) →
        (loopStep s node_weights priorities selected left chosen others).Fits := by
    intro s node_weights priorities selected left chosen others edges
    subst chosen others
    exact fun v member => fits_of_light (edges v member)
  exact ⟨light _ _ _ _ _ _ _ (by decide +kernel),light _ _ _ _ _ _ _ (by decide +kernel),
    light _ _ _ _ _ _ _ (by decide +kernel),trivial⟩

private theorem onewayEdges_toEdges : ToEdges onewayComplete.final.result onewayEdges :=
  ⟨perm_insertionSort _ _,by decide +kernel⟩

/-- Between the starts of the outer segments no weight is negative, so that the entry describes a path. -/
theorem entries_describe_paths_oneway : ∃ fuel tables trace,
    fillTables fuel sortBuckets ⟨3,onewayEdges⟩ [[location 0 0],[location 2 0]] [0] [1] true = some tables ∧
      encounters fuel sortBuckets ⟨3,onewayEdges⟩ [[location 0 0],[location 2 0]] [0] [1] = some trace ∧
      Describes ⟨3,onewayEdges⟩ 1 (sourceStarts [location 0 0]) (targetStarts [location 2 0]) tables 0 trace := by
  obtain ⟨fuel,all⟩ := entries_describe_paths id row row_input onewayComplete onewayComplete_fits onewayEdges
    onewayEdges_toEdges sortBuckets sortBuckets_sorts [[location 0 0],[location 2 0]] [0] [1] true
  obtain ⟨trace,met,filled,describes⟩ := all fuel le_rfl
  refine ⟨fuel,_,trace,filled,met,describes trace [] (by simp) ?_ ⟨0,by decide⟩ ⟨0,by decide⟩⟩
  intro before e after whole
  obtain ⟨source,known,target,known',_,_,genuine⟩ := encounters_genuine sortBuckets_sorts met e (by simp [whole])
  obtain rfl : source = (0,0) := by simpa using known
  obtain rfl : target = (1,0) := by simpa using known'
  have low : 0 ≤ e.new_weight := by
    obtain ⟨s,start,_,n,_,up,weightS,_⟩ := genuine.up
    obtain ⟨t,final,_,n',_,down,weightT,_⟩ := genuine.down
    obtain ⟨_,zeroS⟩ := location_source.mp ⟨s,start,rfl,rfl⟩
    obtain ⟨_,zeroT⟩ := location_target.mp ⟨t,final,rfl,rfl⟩
    have := (oneway_travels up).2
    have := (oneway_travels down).2
    rw [Encounter.new_weight]
    lia
  simp [Encounter.replaces,not_lt.mpr low]

def timed (node : NodeID) (offset : EdgeWeight) (duration : EdgeDuration) : PhantomNode :=
  { location node offset with forward_duration := duration }

/-- A path of weight 0 and duration 1 is met first, then one with a loop of weight 1 and duration 0. The entry holds
    the lesser of both fields. -/
theorem entries_describe_paths_counterexample :
    ∃ tables, fillTables 9 sortBuckets ⟨3,onewayEdges⟩ [[timed 2 2 1,timed 0 1 2],[location 0 0]] [0] [1] true =
        some tables ∧ tables.weight 0 = 0 ∧ tables.duration 0 = 0 ∧
      ∀ nodes, ¬ EntryPath ⟨3,onewayEdges⟩ (sourceStarts [timed 2 2 1,timed 0 1 2]) (targetStarts [location 0 0]) nodes
        (tables.weight 0) (tables.duration 0) := by
  refine ⟨⟨[0],[0],[2],[0]⟩,by decide +kernel,rfl,rfl,?_⟩
  rintro nodes ⟨s,start,t,final,n,m,path,weight,duration⟩
  obtain ⟨rfl,_⟩ := oneway_travels path
  have sources : s = ⟨2,-2,-1,0⟩ ∨ s = ⟨0,-1,-2,0⟩ := by
    simpa [sourceStarts,timed,location,PhantomNode.IsValidForwardSource,PhantomNode.IsValidReverseSource,
      PhantomNode.GetForwardWeightPlusOffset,PhantomNode.GetForwardDuration,PhantomNode.GetForwardDistance] using start
  have targets : t = ⟨0,0,0,0⟩ := by
    simpa [targetStarts,location,PhantomNode.IsValidForwardTarget,PhantomNode.IsValidReverseTarget,
      PhantomNode.GetForwardWeightPlusOffset,PhantomNode.GetForwardDuration,PhantomNode.GetForwardDistance] using final
  subst targets
  simp only [Tables.weight,Tables.duration,getD_cons_zero] at weight duration
  rcases sources with rfl | rfl
  · simp only at weight duration
    lia
  · simp only at weight duration
    lia

end Osrm.ChTable
