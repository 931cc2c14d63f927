import Osrm.ChSearch
import Osrm.Phantom
import Osrm.ManyToMany

/-!
`manyToManySearch` on a contraction hierarchy. Searches from the targets climb the
hierarchy against the arcs and leave a bucket at every node they settle; searches
from the sources climb along the arcs and look up the buckets of the nodes they settle.
-/
namespace Osrm.ChTable
open List
open Typedefs Walks Heap QueryGraph Contraction Phantom ManyToMany

/-- `ManyToManyHeapData`. -/
structure HeapData where
  parent : NodeID
  duration : EdgeDuration
  distance : EdgeDistance
  deriving DecidableEq, Repr

abbrev Heap := QueryHeap NodeID HeapData

/-- `getLoopMetric`: the least value of the metric on a loop at the node, and its distance. -/
def getLoopMetric (metric : EdgeData → ℤ) (invalid : ℤ) (graph : Graph) (node : NodeID) : ℤ × EdgeDistance :=
  (graph.GetAdjacentEdgeRange node).foldl (fun loop edge =>
    if edge.1.data.forward && edge.1.target == node && metric edge.1.data < loop.1 then
      (metric edge.1.data,edge.1.data.distance)
    else loop) (invalid,MAXIMAL_EDGE_DISTANCE)

/-- `addLoopWeight`: the values with a loop at the node, if one makes up for the negative weight. -/
def addLoopWeight (graph : Graph) (node : NodeID) (weight : EdgeWeight) (duration : EdgeDuration)
    (distance : EdgeDistance) : Option (EdgeWeight × EdgeDuration × EdgeDistance) :=
  let loop_weight := getLoopMetric EdgeData.weight INVALID_EDGE_WEIGHT graph node
  if loop_weight.1 ≠ INVALID_EDGE_WEIGHT ∧ weight + loop_weight.1 ≥ 0 then
    let result := getLoopMetric EdgeData.duration INVALID_EDGE_DURATION graph node
    some (weight + loop_weight.1,duration + result.1,distance + result.2)
  else none

/-- The order of `std::tie(weight,duration)`. -/
def less (weight : ℤ) (data : HeapData) (old_weight : ℤ) (old : HeapData) : Bool :=
  weight < old_weight || (weight == old_weight && data.duration < old.duration)

def relaxCandidates (graph : Graph) (direction : Direction) (heapNode : HeapNode NodeID HeapData) :
    List (QueryHeap.Candidate NodeID HeapData) :=
  (graph.GetAdjacentEdgeRange heapNode.node).filterMap fun edge =>
    if edge.1.data.usable direction then
      some ⟨edge.1.target,heapNode.weight + edge.1.data.weight,
        fun _ => ⟨heapNode.node,heapNode.data.duration + edge.1.data.duration,
          heapNode.data.distance + edge.1.data.distance⟩⟩
    else none

def relaxOutgoingEdges (graph : Graph) (direction : Direction) (heapNode : HeapNode NodeID HeapData)
    (query_heap : Heap) : Heap :=
  if ChSearch.stallAtNode graph direction heapNode query_heap then query_heap
  else query_heap.insertOrUpdateAll less (relaxCandidates graph direction heapNode)

/-- What `forwardRoutingStep` does with a bucket of the node it has taken out. -/
def useBucket (graph : Graph) (row_index number_of_targets : ℕ) (heapNode : HeapNode NodeID HeapData) (tables : Tables)
    (current_bucket : NodeBucket) : Tables :=
  let index := row_index * number_of_targets + current_bucket.column_index
  let new_weight := heapNode.weight + current_bucket.weight
  let new_duration := heapNode.data.duration + current_bucket.duration
  let new_distance := heapNode.data.distance + current_bucket.distance
  if new_weight < 0 then
    match addLoopWeight graph heapNode.node new_weight new_duration new_distance with
    | some (weight,duration,distance) =>
      tables.write index (min (tables.weight index) weight) (min (tables.duration index) duration)
        (min (tables.distance index) distance) heapNode.node
    | none => tables
  else if new_weight < tables.weight index || (new_weight == tables.weight index && new_duration < tables.duration index)
  then tables.write index new_weight new_duration new_distance heapNode.node
  else tables

/-- What `forwardRoutingStep` does with the node it has taken out. -/
def useBuckets (graph : Graph) (row_index number_of_targets : ℕ) (search_space_with_buckets : List NodeBucket)
    (tables : Tables) (heapNode : HeapNode NodeID HeapData) : Tables :=
  (equalRange search_space_with_buckets heapNode.node).foldl (useBucket graph row_index number_of_targets heapNode) tables

def forwardRoutingStep (graph : Graph) (row_index number_of_targets : ℕ) (search_space_with_buckets : List NodeBucket)
    (s : Heap × Tables) : Heap × Tables :=
  match s.1.DeleteMin with
  | none => s
  | some (heapNode,rest) => (relaxOutgoingEdges graph .FORWARD heapNode rest,
      useBuckets graph row_index number_of_targets search_space_with_buckets s.2 heapNode)

/-- The bucket that `backwardRoutingStep` leaves at the node it has taken out. -/
def leaveBucket (column_index : ℕ) (search_space_with_buckets : List NodeBucket) (heapNode : HeapNode NodeID HeapData) :
    List NodeBucket :=
  search_space_with_buckets ++ [⟨heapNode.node,heapNode.data.parent,column_index,false,heapNode.weight,
    heapNode.data.duration,heapNode.data.distance⟩]

def backwardRoutingStep (graph : Graph) (column_index : ℕ) (s : Heap × List NodeBucket) : Heap × List NodeBucket :=
  match s.1.DeleteMin with
  | none => s
  | some (heapNode,rest) => (relaxOutgoingEdges graph .REVERSE heapNode rest,leaveBucket column_index s.2 heapNode)

def searchColumn (fuel : ℕ) (graph : Graph) (candidates_list : List PhantomNodeCandidates)
    (search_space_with_buckets : List NodeBucket) (target : ℕ × ℕ) : Option (List NodeBucket) :=
  (Loops.whileLoop (fun s : Heap × List NodeBucket => !s.1.Empty) (backwardRoutingStep graph target.2) fuel
    (insertTargetInHeap HeapData.mk .Clear (candidates_list.getD target.1 []),search_space_with_buckets)).map (·.2)

def searchRow (fuel : ℕ) (graph : Graph) (candidates_list : List PhantomNodeCandidates) (number_of_targets : ℕ)
    (search_space_with_buckets : List NodeBucket) (tables : Tables) (source : ℕ × ℕ) : Option Tables :=
  (Loops.whileLoop (fun s : Heap × Tables => !s.1.Empty)
    (forwardRoutingStep graph source.2 number_of_targets search_space_with_buckets) fuel
    (insertSourceInHeap HeapData.mk .Clear (candidates_list.getD source.1 []),tables)).map (·.2)

/-- `manyToManySearch`, with all the tables it fills; `none` if the fuel does not suffice. -/
def fillTables (fuel : ℕ) (sort : List NodeBucket → List NodeBucket) (graph : Graph)
    (candidates_list : List PhantomNodeCandidates) (source_indices target_indices : List ℕ) (calculate_distance : Bool) :
    Option Tables := do
  let search_space_with_buckets ← target_indices.zipIdx.foldlM (searchColumn fuel graph candidates_list) []
  source_indices.zipIdx.foldlM
    (searchRow fuel graph candidates_list target_indices.length (sort search_space_with_buckets))
    (Tables.start (source_indices.length * target_indices.length) calculate_distance)

/-- `manyToManySearch` returns the durations and the distances. -/
def manyToManySearch (fuel : ℕ) (sort : List NodeBucket → List NodeBucket) (graph : Graph)
    (candidates_list : List PhantomNodeCandidates) (source_indices target_indices : List ℕ) (calculate_distance : Bool) :
    Option (List EdgeDuration × List EdgeDistance) :=
  (fillTables fuel sort graph candidates_list source_indices target_indices calculate_distance).map
    fun tables => (tables.durations_table,tables.distances_table)

/-! ### One search -/

def Starts (starts : List Start) (x : NodeID) (o : ℤ) : Prop := ∃ s ∈ starts, s.node = x ∧ s.weight = o
/-- A way to `x` from one of the starts that weighs at most `k` together with the label of the start. -/
def Reach (A : Arcs NodeID) (starts : List Start) (x : NodeID) (k : ℤ) : Prop :=
  ∃ s o m, Starts starts s o ∧ Walk A s x m ∧ o + m ≤ k

def side (A F : Arcs NodeID) (starts : List Start) : Search.Direction NodeID HeapData where
  arcs := F
  Source := Starts starts
  Sound := Reach A starts
  Skipped x k := ∃ k' < k, Reach A starts x k'
  Good _ _ _ _ := True
  good_mono _ _ _ _ := id

variable {A F B : Arcs NodeID} {graph : Graph} {direction : Direction} {starts : List Start} {heap rest : Heap}
  {heapNode : HeapNode NodeID HeapData}

private theorem less_byWeight : ByWeight less := by
  intro w d w' d'
  constructor
  · intro better
    simp only [less,Bool.or_eq_true,decide_eq_true_eq,Bool.and_eq_true,beq_iff_eq] at better
    omega
  · intro worse
    simp only [less,Bool.or_eq_false_iff,decide_eq_false_iff_not] at worse
    omega

private theorem Reach.extend (climb : Climb A F B) {x y : NodeID} {k w : ℤ} (reach : Reach A starts x k) (arc : F x y w) :
    Reach A starts y (k + w) := by
  obtain ⟨s,o,m,start,walk,le⟩ := reach
  obtain ⟨m',mLe,more⟩ := climb.soundF _ _ _ arc
  exact ⟨s,o,m + m',start,walk.append more,by omega⟩

private theorem Reach.back (climb : Climb A F B) {x y : NodeID} {k w : ℤ} (reach : Reach A starts y k) (arc : B x y w) :
    Reach A starts x (k + w) := by
  obtain ⟨s,o,m,start,walk,le⟩ := reach
  obtain ⟨m',mLe,back⟩ := climb.soundB _ _ _ arc
  exact ⟨s,o,m + m',start,walk.append back,by omega⟩

private theorem mem_relaxCandidates {c : QueryHeap.Candidate NodeID HeapData}
    (inside : c ∈ relaxCandidates graph direction heapNode) :
    ∃ w, graph.arcs direction heapNode.node c.node w ∧ c.weight = heapNode.weight + w := by
  obtain ⟨edge,member,made⟩ := mem_filterMap.mp inside
  split at made
  · rename_i usable
    cases made
    exact ⟨edge.1.data.weight,⟨edge,member,rfl,usable,rfl⟩,rfl⟩
  · simp at made

private theorem relaxCandidates_mem {y : NodeID} {w : ℤ} (arc : graph.arcs direction heapNode.node y w) :
    ∃ c ∈ relaxCandidates graph direction heapNode, c.node = y ∧ c.weight = heapNode.weight + w := by
  obtain ⟨edge,member,rfl,usable,rfl⟩ := arc
  exact ⟨_,mem_filterMap.mpr ⟨edge,member,by rw [if_pos usable]⟩,rfl,rfl⟩

private theorem relaxOutgoingEdges_relaxes (climb : Climb A (graph.arcs direction) (graph.arcs direction.opposite))
    (bounded : ∀ e ∈ graph.edges, e.target < graph.number_of_nodes) :
    Search.Relaxes (side A (graph.arcs direction) starts) (List.range graph.number_of_nodes)
      (relaxOutgoingEdges graph direction) := by
  have above : ∀ heapNode, ∀ c ∈ relaxCandidates graph direction heapNode, heapNode.weight < c.weight := by
    intro heapNode c inside
    obtain ⟨w,arc,weight⟩ := mem_relaxCandidates inside
    have := climb.positiveF _ _ _ arc
    omega
  refine ⟨?_,?_,?_⟩
  · intro heap heapNode rest limit inv popped
    have spec := deleteMin_spec popped
    unfold relaxOutgoingEdges
    split
    · rename_i stalled
      have sound : ∀ e ∈ rest.inserted_nodes, Reach A starts e.node e.weight := by
        intro e member
        rcases spec.new_or_old e member with rfl | old
        · exact inv.sound heapNode spec.member
        · exact inv.sound e old
      have skipped := ChSearch.stallAtNode_lighter (Reach A starts) (fun x y k w reach arc => reach.back climb arc)
        sound stalled
      exact inv.step spec (.refl rest) le_rfl (by simp) (by simp) (by simp) fun _ => .inl skipped
    · have ext := insertOrUpdateAll_extends less_byWeight _ (Search.settled_le inv spec) (above heapNode)
      refine inv.step spec ext le_rfl (above heapNode) ?_ (fun _ _ _ => trivial) ?_
      · intro c inside
        obtain ⟨w,arc,weight⟩ := mem_relaxCandidates inside
        rw [weight]
        exact Reach.extend climb (inv.sound heapNode spec.member) arc
      · refine fun _ => .inr fun y w arc => .inl ?_
        obtain ⟨c,inside,node,weight⟩ := relaxCandidates_mem arc
        exact ⟨c,inside,node,weight.le⟩
  · intro heap heapNode rest limit inv popped e member gone
    unfold relaxOutgoingEdges at member
    split at member
    · exact member
    · have ext := insertOrUpdateAll_extends less_byWeight _ (Search.settled_le inv (deleteMin_spec popped)) (above heapNode)
      rcases ext.new_or_old e member with old | ⟨alive,_⟩
      · exact old
      · simp [alive] at gone
  · intro heapNode rest
    unfold relaxOutgoingEdges
    split
    · exact le_rfl
    · refine work_insertOrUpdateAll _ fun c inside => ?_
      obtain ⟨w,⟨edge,member,target,_⟩,_⟩ := mem_relaxCandidates inside
      rw [mem_range,← target]
      exact bounded _ (mem_of_getElem? (mem_adjacent.mp member).1)

/-- A search from `starts` ends; its entries stand for ways, and a best way up the hierarchy is among them. -/
theorem search_explores (climb : Climb A (graph.arcs direction) (graph.arcs direction.opposite))
    (bounded : ∀ e ∈ graph.edges, e.target < graph.number_of_nodes) {σ : Type} {step : Heap × σ → Heap × σ}
    {visit : σ → HeapNode NodeID HeapData → σ}
    (shape : ∀ heap acc heapNode rest, heap.DeleteMin = some (heapNode,rest) →
      step (heap,acc) = (relaxOutgoingEdges graph direction heapNode rest,visit acc heapNode))
    (starts : List Start) (acc : σ) :
    ∃ fuel, ∃ visited : List (HeapNode NodeID HeapData),
      (∀ more ≥ fuel, (Loops.whileLoop (fun s : Heap × σ => !s.1.Empty) step more
        (insertStarts HeapData.mk .Clear starts,acc)).map (·.2) = some (visited.foldl visit acc)) ∧
      (∀ e ∈ visited, Reach A starts e.node e.weight) ∧
      ∀ s o x n, Starts starts s o → Walk (graph.arcs direction) s x n → (∀ k, Reach A starts x k → o + n ≤ k) →
        ∃ e ∈ visited, e.node = x ∧ e.weight ≤ o + n := by
  have entries : ∀ e ∈ (insertStarts HeapData.mk .Clear starts).inserted_nodes,
      e.removed = false ∧ Starts starts e.node e.weight := by
    intro e member
    rcases (mem_insertStarts HeapData.mk).mp member with old | ⟨s,inside,rfl⟩
    · simp [QueryHeap.Clear] at old
    · exact ⟨rfl,s,inside,rfl,rfl⟩
  have start : ∀ limit, Search.Invariant (side A (graph.arcs direction) starts)
      (insertStarts HeapData.mk .Clear starts) limit := by
    intro limit
    refine .start ?_ (fun e member => (entries e member).1) ?_ (fun _ _ => trivial)
    · rintro x o ⟨s,inside,rfl,rfl⟩
      exact ⟨_,(mem_insertStarts HeapData.mk).mpr (.inr ⟨s,inside,rfl⟩),rfl,le_rfl⟩
    · exact fun e member => ⟨e.node,e.weight,0,(entries e member).2,.nil _,by omega⟩
  obtain ⟨fuel,final,visited,runs,empty,inv,sound,all⟩ := Search.explore (relaxOutgoingEdges_relaxes climb bounded)
    shape start (fun e member => (entries e member).1) acc
  refine ⟨fuel,visited,fun more enough => by rw [runs more enough]; rfl,sound,?_⟩
  intro s o x n begins walk optimal
  rcases (inv (o + n)).frontier_optimal climb.positiveF (fun x k skipped => skipped)
    (fun x k y w reach arc => Reach.extend climb reach arc) begins walk le_rfl optimal with ⟨k,le,d,gone⟩ | ⟨e,member,alive,_⟩
  · obtain ⟨e,inside,node,weight,_⟩ := all x k d gone
    exact ⟨e,inside,node,weight ▸ le⟩
  · simp [empty_iff.mp empty e member] at alive

/-- The segments of the targets of a column, and those of the sources of a row. -/
def columnStarts (candidates_list : List PhantomNodeCandidates) (index : ℕ) : List Start :=
  targetStarts (candidates_list.getD index [])
def rowStarts (candidates_list : List PhantomNodeCandidates) (index : ℕ) : List Start :=
  sourceStarts (candidates_list.getD index [])

structure Filled (A : Arcs NodeID) (graph : Graph) (candidates_list : List PhantomNodeCandidates)
    (targets : List (ℕ × ℕ)) (buckets : List NodeBucket) : Prop where
  sound : ∀ b ∈ buckets, ∃ target ∈ targets, b.column_index = target.2 ∧
    Reach (reverse A) (columnStarts candidates_list target.1) b.middle_node b.weight
  complete : ∀ target ∈ targets, ∀ t p x n, Starts (columnStarts candidates_list target.1) t p →
    Walk (graph.arcs .REVERSE) t x n → (∀ k, Reach (reverse A) (columnStarts candidates_list target.1) x k → p + n ≤ k) →
    ∃ b ∈ buckets, b.column_index = target.2 ∧ b.middle_node = x ∧ b.weight ≤ p + n

private theorem mem_leaveBuckets {column : ℕ} {visited : List (HeapNode NodeID HeapData)} {buckets : List NodeBucket}
    {b : NodeBucket} : b ∈ visited.foldl (leaveBucket column) buckets ↔ b ∈ buckets ∨
      ∃ e ∈ visited, b = ⟨e.node,e.data.parent,column,false,e.weight,e.data.duration,e.data.distance⟩ := by
  induction visited generalizing buckets with
  | nil => simp
  | cons e rest ih =>
    rw [foldl_cons,ih]
    simp only [leaveBucket,mem_append,mem_cons,not_mem_nil,or_false,exists_eq_or_imp]
    exact or_assoc

private theorem searchColumn_filled (climb : Climb A (graph.arcs .FORWARD) (graph.arcs .REVERSE))
    (bounded : ∀ e ∈ graph.edges, e.target < graph.number_of_nodes) {candidates_list : List PhantomNodeCandidates}
    {done : List (ℕ × ℕ)} {buckets : List NodeBucket} (filled : Filled A graph candidates_list done buckets)
    (target : ℕ × ℕ) :
    ∃ fuel after, (∀ more ≥ fuel, searchColumn more graph candidates_list buckets target = some after) ∧
      Filled A graph candidates_list (done ++ [target]) after := by
  have shape : ∀ heap acc heapNode rest, heap.DeleteMin = some (heapNode,rest) → backwardRoutingStep graph target.2 (heap,acc) =
      (relaxOutgoingEdges graph .REVERSE heapNode rest,leaveBucket target.2 acc heapNode) := by
    intro heap acc heapNode rest popped
    simp [backwardRoutingStep,popped]
  obtain ⟨fuel,visited,runs,sound,complete⟩ :=
    search_explores climb.flip bounded shape (columnStarts candidates_list target.1) buckets
  refine ⟨fuel,_,runs,?_,?_⟩
  · intro b member
    rcases mem_leaveBuckets.mp member with old | ⟨e,inside,rfl⟩
    · obtain ⟨earlier,before,reach⟩ := filled.sound b old
      exact ⟨earlier,mem_append_left _ before,reach⟩
    · exact ⟨target,by simp,rfl,sound e inside⟩
  · intro earlier before t p x n start walk optimal
    rcases mem_append.mp before with old | new
    · obtain ⟨b,member,found⟩ := filled.complete earlier old t p x n start walk optimal
      exact ⟨b,mem_leaveBuckets.mpr (.inl member),found⟩
    · cases mem_singleton.mp new
      obtain ⟨e,inside,node,weight⟩ := complete t p x n start walk optimal
      exact ⟨_,mem_leaveBuckets.mpr (.inr ⟨e,inside,rfl⟩),rfl,node,weight⟩

section entry
variable {tables : Tables} {row_index number_of_targets i : ℕ} {bucket : NodeBucket}

private theorem useBucket_length : (useBucket graph row_index number_of_targets heapNode tables bucket).weights_table.length =
    tables.weights_table.length := by
  unfold useBucket
  dsimp only
  split
  · split <;> simp
  · split <;> simp

private theorem useBucket_lowered (inside : i < tables.weights_table.length)
    (nonneg : row_index * number_of_targets + bucket.column_index = i → 0 ≤ heapNode.weight + bucket.weight) :
    Lowered (tables.weight i) ((useBucket graph row_index number_of_targets heapNode tables bucket).weight i)
      (fun v => row_index * number_of_targets + bucket.column_index = i ∧ v = heapNode.weight + bucket.weight)
      (fun v => row_index * number_of_targets + bucket.column_index = i ∧ v = heapNode.weight + bucket.weight) := by
  by_cases here : row_index * number_of_targets + bucket.column_index = i
  · unfold useBucket
    dsimp only
    rw [here,if_neg (by have := nonneg here; lia)]
    split
    · rename_i better
      simp only [Bool.or_eq_true,decide_eq_true_eq,Bool.and_eq_true,beq_iff_eq] at better
      rw [tables.weight_write inside]
      exact ⟨by lia,.inr ⟨rfl,rfl⟩,fun v offer => offer.2.ge⟩
    · rename_i worse
      simp only [Bool.or_eq_true,decide_eq_true_eq,not_or] at worse
      exact ⟨le_rfl,.inl rfl,fun v offer => by lia⟩
  · have same : (useBucket graph row_index number_of_targets heapNode tables bucket).weight i = tables.weight i := by
      unfold useBucket
      dsimp only
      split
      · split
        · exact tables.weight_write_ne here ..
        · rfl
      · split
        · exact tables.weight_write_ne here ..
        · rfl
    rw [same]
    exact .refl _ fun v offer => here offer.1

/-- What the buckets of a node offer to an entry. -/
def Offer (buckets : List NodeBucket) (row_index number_of_targets i : ℕ) (heapNode : HeapNode NodeID HeapData) (v : ℤ) :
    Prop :=
  ∃ b ∈ equalRange buckets heapNode.node, row_index * number_of_targets + b.column_index = i ∧
    v = heapNode.weight + b.weight

variable {buckets : List NodeBucket}

private theorem useBuckets_lowered (inside : i < tables.weights_table.length)
    (nonneg : ∀ v, Offer buckets row_index number_of_targets i heapNode v → 0 ≤ v) :
    (useBuckets graph row_index number_of_targets buckets tables heapNode).weights_table.length =
        tables.weights_table.length ∧
      Lowered (tables.weight i) ((useBuckets graph row_index number_of_targets buckets tables heapNode).weight i)
        (Offer buckets row_index number_of_targets i heapNode) (Offer buckets row_index number_of_targets i heapNode) := by
  refine foldl_lowered (fun (b : NodeBucket) v => row_index * number_of_targets + b.column_index = i ∧ v = heapNode.weight + b.weight)
    _ tables fun t size b member => ⟨useBucket_length,useBucket_lowered (by omega) fun here => ?_⟩
  exact nonneg _ ⟨b,member,here,rfl⟩

private theorem visited_lowered (inside : i < tables.weights_table.length) (visited : List (HeapNode NodeID HeapData))
    (nonneg : ∀ e ∈ visited, ∀ v, Offer buckets row_index number_of_targets i e v → 0 ≤ v) :
    (visited.foldl (useBuckets graph row_index number_of_targets buckets) tables).weights_table.length =
        tables.weights_table.length ∧
      Lowered (tables.weight i) ((visited.foldl (useBuckets graph row_index number_of_targets buckets) tables).weight i)
        (fun v => ∃ e ∈ visited, Offer buckets row_index number_of_targets i e v)
        (fun v => ∃ e ∈ visited, Offer buckets row_index number_of_targets i e v) := by
  exact foldl_lowered (Offer buckets row_index number_of_targets i) visited tables fun t size e member =>
    useBuckets_lowered (by omega) (nonneg e member)

end entry

/-! ### The weights -/

/-- The weight of a pair of segments: the label of the source, the distance and the label of the target. -/
def PairWeight (A : Arcs NodeID) (sources targets : List Start) (v : ℤ) : Prop :=
  ∃ s o t p d, Starts sources s o ∧ Starts targets t p ∧ Shortest A s t d ∧ v = o + d + p

variable {sources targets : List Start}

private theorem pair_of_labels (positive : Positive A) {x : NodeID} {k k' : ℤ} (up : Reach A sources x k)
    (down : Reach (reverse A) targets x k') : ∃ v ≤ k + k', PairWeight A sources targets v := by
  obtain ⟨s,o,m,start,walk,le⟩ := up
  obtain ⟨t,p,m',final,walk',le'⟩ := down
  have whole := walk.append walk'.of_reverse
  obtain ⟨d,shortest⟩ := exists_shortest positive ⟨_,whole⟩
  have := shortest.2 _ whole
  exact ⟨o + d + p,by omega,s,o,t,p,d,start,final,shortest,rfl⟩

private theorem labels_of_least (climb : Climb A (graph.arcs .FORWARD) (graph.arcs .REVERSE)) (positive : Positive A)
    {v : ℤ} (least : IsLeast {v | PairWeight A sources targets v} v) :
    ∃ s o t p x a b, Starts sources s o ∧ Starts targets t p ∧ Walk (graph.arcs .FORWARD) s x a ∧
      Walk (graph.arcs .REVERSE) t x b ∧ (o + a) + (p + b) ≤ v ∧ (∀ k, Reach A sources x k → o + a ≤ k) ∧
      ∀ k, Reach (reverse A) targets x k → p + b ≤ k := by
  obtain ⟨s,o,t,p,d,start,final,shortest,rfl⟩ := least.1
  obtain ⟨x,a,b,up,down,le⟩ := climb.meet s t d shortest.1
  obtain ⟨a',aLe,upA⟩ := climb.walkF up
  obtain ⟨b',bLe,downA⟩ := climb.flip.walkF down
  refine ⟨s,o,t,p,x,a,b,start,final,up,down,by omega,?_,?_⟩
  · intro k reach
    obtain ⟨u,uLe,pair⟩ := pair_of_labels positive reach ⟨t,p,b',final,downA,le_rfl⟩
    have := least.2 pair
    omega
  · intro k reach
    obtain ⟨u,uLe,pair⟩ := pair_of_labels positive ⟨s,o,a',start,upA,le_rfl⟩ reach
    have := least.2 pair
    omega

section table
variable {candidates_list : List PhantomNodeCandidates} {source_indices target_indices : List ℕ}
  {buckets : List NodeBucket}

def EntryWeight (A : Arcs NodeID) (candidates_list : List PhantomNodeCandidates) (source_indices target_indices : List ℕ)
    (row : Fin source_indices.length) (column : Fin target_indices.length) : ℤ → Prop :=
  PairWeight A (rowStarts candidates_list source_indices[row]) (columnStarts candidates_list target_indices[column])

theorem mem_zipIdx {l : List ℕ} {entry : ℕ × ℕ} (member : entry ∈ l.zipIdx) :
    ∃ i : Fin l.length, entry = (l[i],i.val) := by
  obtain ⟨inside,found⟩ := List.getElem?_eq_some_iff.mp (mem_zipIdx_iff_getElem?.mp member)
  exact ⟨⟨entry.2,inside⟩,Prod.ext found.symm rfl⟩

private theorem zipIdx_mem {l : List ℕ} (i : Fin l.length) : (l[i],i.val) ∈ l.zipIdx :=
  mem_zipIdx_iff_getElem?.mpr (getElem?_eq_getElem i.isLt)

theorem index_inj {n row row' column column' : ℕ} (inside : column < n) (inside' : column' < n)
    (same : row * n + column = row' * n + column') : row = row' ∧ column = column' := by
  have remainder : column = column' := by
    have modulo := congrArg (· % n) same
    simpa only [Nat.mul_add_mod_of_lt inside,Nat.mul_add_mod_of_lt inside'] using modulo
  have positive : 0 < n := by omega
  exact ⟨Nat.eq_of_mul_eq_mul_right positive (by omega),remainder⟩

private theorem searchRow_lowered (climb : Climb A (graph.arcs .FORWARD) (graph.arcs .REVERSE)) (positive : Positive A)
    (bounded : ∀ e ∈ graph.edges, e.target < graph.number_of_nodes)
    (filled : Filled A graph candidates_list target_indices.zipIdx buckets)
    (sorted : buckets.Pairwise fun a b => b.before a = false) {tables : Tables}
    (size : tables.weights_table.length = source_indices.length * target_indices.length)
    (current : Fin source_indices.length) :
    ∃ fuel after, (∀ more ≥ fuel, searchRow more graph candidates_list target_indices.length buckets tables
        (source_indices[current],current.val) = some after) ∧
      after.weights_table.length = tables.weights_table.length ∧
      ∀ (row : Fin source_indices.length) (column : Fin target_indices.length),
        (∀ v, EntryWeight A candidates_list source_indices target_indices row column v → 0 ≤ v) →
        Lowered (tables.weight (row * target_indices.length + column)) (after.weight (row * target_indices.length + column))
          (fun v => current = row ∧ ∃ u ≤ v, EntryWeight A candidates_list source_indices target_indices row column u)
          (fun v => current = row ∧ IsLeast {v | EntryWeight A candidates_list source_indices target_indices row column v} v) := by
  have shape : ∀ heap acc heapNode rest, heap.DeleteMin = some (heapNode,rest) →
      forwardRoutingStep graph current target_indices.length buckets (heap,acc) =
        (relaxOutgoingEdges graph .FORWARD heapNode rest,
          useBuckets graph current target_indices.length buckets acc heapNode) := by
    intro heap acc heapNode rest popped
    simp [forwardRoutingStep,popped]
  obtain ⟨fuel,visited,runs,sound,complete⟩ :=
    search_explores climb bounded shape (rowStarts candidates_list source_indices[current]) tables
  have offered : ∀ (row : Fin source_indices.length) (column : Fin target_indices.length), ∀ e ∈ visited, ∀ v,
      Offer buckets current target_indices.length (row * target_indices.length + column) e v →
      current = row ∧ ∃ u ≤ v, EntryWeight A candidates_list source_indices target_indices row column u := by
    rintro row column e member v ⟨b,found,index,rfl⟩
    obtain ⟨inside,here⟩ := (mem_equalRange sorted).mp found
    obtain ⟨target,known,same,reach⟩ := filled.sound b inside
    obtain ⟨column',rfl⟩ := mem_zipIdx known
    obtain ⟨sameRow,sameColumn⟩ := index_inj (by rw [same]; exact column'.isLt) column.isLt index
    obtain rfl : current = row := Fin.ext sameRow
    obtain rfl : column' = column := Fin.ext (same.symm.trans sameColumn)
    exact ⟨rfl,pair_of_labels positive (sound e member) (here ▸ reach)⟩
  refine ⟨fuel,_,runs,?_,?_⟩
  · refine Loops.foldl_invariant (fun _ (t : Tables) => t.weights_table.length = tables.weights_table.length)
      visited ?_ tables rfl
    intro _ t e _ same
    refine Loops.foldl_invariant (fun _ (t : Tables) => t.weights_table.length = tables.weights_table.length) _ ?_ t same
    exact fun _ t b _ same => useBucket_length.trans same
  · intro row column nonneg
    have index : row * target_indices.length + column < tables.weights_table.length := by
      rw [size]
      calc row * target_indices.length + column < row * target_indices.length + target_indices.length := by omega
        _ = (row + 1) * target_indices.length := by ring
        _ ≤ source_indices.length * target_indices.length := Nat.mul_le_mul_right _ row.isLt
    obtain ⟨_,lowered⟩ := visited_lowered index visited fun e member v offer => by
      obtain ⟨_,u,le,weight⟩ := offered row column e member v offer
      exact (nonneg u weight).trans le
    refine ⟨lowered.le,lowered.origin.imp_right ?_,?_⟩
    · rintro ⟨e,member,offer⟩
      exact offered row column e member _ offer
    · rintro v ⟨rfl,least⟩
      obtain ⟨s,o,t,p,x,a,b,start,final,up,down,le,optimal,optimal'⟩ := labels_of_least climb positive least
      obtain ⟨e,member,node,weight⟩ := complete s o x a start up optimal
      obtain ⟨bucket,inside,same,middle,weight'⟩ :=
        filled.complete _ (zipIdx_mem column) t p x b final down optimal'
      have bound := lowered.bound _ ⟨e,member,bucket,(mem_equalRange sorted).mpr ⟨inside,middle.trans node.symm⟩,
        by rw [same],rfl⟩
      lia

theorem fillTables_spec (climb : Climb A (graph.arcs .FORWARD) (graph.arcs .REVERSE)) (positive : Positive A)
    (bounded : ∀ e ∈ graph.edges, e.target < graph.number_of_nodes) {sort : List NodeBucket → List NodeBucket}
    (sorts : Sorts sort) (candidates_list : List PhantomNodeCandidates) (source_indices target_indices : List ℕ)
    (calculate_distance : Bool) :
    ∃ fuel tables, (∀ more ≥ fuel, fillTables more sort graph candidates_list source_indices target_indices
        calculate_distance = some tables) ∧
      ∀ (row : Fin source_indices.length) (column : Fin target_indices.length),
        (∀ v, EntryWeight A candidates_list source_indices target_indices row column v → 0 ≤ v) →
        Lowered INVALID_EDGE_WEIGHT (tables.weight (row * target_indices.length + column))
          (fun v => ∃ u ≤ v, EntryWeight A candidates_list source_indices target_indices row column u)
          (fun v => IsLeast {v | EntryWeight A candidates_list source_indices target_indices row column v} v) := by
  obtain ⟨fuel,unsorted,fills,filled⟩ := Loops.foldlM_total (Filled A graph candidates_list) target_indices.zipIdx
    (fun done buckets target _ filled => searchColumn_filled climb bounded filled target) []
    ⟨by simp,by simp⟩
  have filledSorted : Filled A graph candidates_list target_indices.zipIdx (sort unsorted) := by
    refine ⟨fun b member => filled.sound b ((sorts.perm unsorted).mem_iff.mp member),?_⟩
    intro target member t p x n start walk optimal
    obtain ⟨b,inside,found⟩ := filled.complete target member t p x n start walk optimal
    exact ⟨b,(sorts.perm unsorted).mem_iff.mpr inside,found⟩
  obtain ⟨fuel',tables,runs,_,result⟩ := Loops.foldlM_total
    (fun (done : List (ℕ × ℕ)) (tables : Tables) =>
      tables.weights_table.length = source_indices.length * target_indices.length ∧
      ∀ (row : Fin source_indices.length) (column : Fin target_indices.length),
        (∀ v, EntryWeight A candidates_list source_indices target_indices row column v → 0 ≤ v) →
        Lowered INVALID_EDGE_WEIGHT (tables.weight (row * target_indices.length + column))
          (fun v => ∃ source ∈ done, source.2 = row ∧
            ∃ u ≤ v, EntryWeight A candidates_list source_indices target_indices row column u)
          (fun v => ∃ source ∈ done, source.2 = row ∧
            IsLeast {v | EntryWeight A candidates_list source_indices target_indices row column v} v))
    source_indices.zipIdx
    (by
      rintro done tables source member ⟨size,before⟩
      obtain ⟨current,rfl⟩ := mem_zipIdx member
      obtain ⟨fuel,after,runs,same,lowered⟩ :=
        searchRow_lowered climb positive bounded filledSorted (sorts.sorted unsorted) size current
      refine ⟨fuel,after,runs,same.trans size,fun row column nonneg => (before row column nonneg).snoc ?_⟩
      simpa only [Fin.ext_iff] using lowered row column nonneg)
    (Tables.start (source_indices.length * target_indices.length) calculate_distance)
    ⟨by simp [Tables.start],fun row column _ => by
      have untouched : (Tables.start (source_indices.length * target_indices.length) calculate_distance).weight
          (row * target_indices.length + column) = INVALID_EDGE_WEIGHT := by
        simp only [Tables.start,Tables.weight,getD_eq_getElem?_getD,getElem?_replicate]
        split <;> rfl
      rw [untouched]
      exact .refl _ (by simp)⟩
  refine ⟨max fuel fuel',tables,?_,?_⟩
  · intro more enough
    unfold fillTables
    rw [fills more (by omega)]
    exact runs more (by omega)
  · intro row column nonneg
    have lowered := result row column nonneg
    refine ⟨lowered.le,lowered.origin.imp_right ?_,fun v least => lowered.bound v ⟨_,zipIdx_mem row,rfl,least⟩⟩
    rintro ⟨_,_,_,found⟩
    exact found

end table

private theorem exists_least {P : ℤ → Prop} (nonneg : ∀ v, P v → 0 ≤ v) {v : ℤ} (some_there : P v) :
    ∃ least, IsLeast {v | P v} least := by
  obtain ⟨least,here,below⟩ := Int.exists_least_of_bdd (P := P) ⟨0,nonneg⟩ ⟨v,some_there⟩
  exact ⟨least,here,below⟩

/-- The weight of an entry is the least one of its pairs of segments, unless one is negative. Sums are taken to fit 32 bits. -/
theorem manyToMany_least (hash : NodeID → ℕ) (graph : Contractor.ContractorGraph) (input : Input graph)
    (complete : Complete hash graph) (fits : complete.run.All ContractGraph.Step.Fits) (edges : List QueryEdge)
    (converted : ToEdges complete.final.result edges) (sort : List NodeBucket → List NodeBucket) (sorts : Sorts sort)
    (candidates_list : List PhantomNodeCandidates) (source_indices target_indices : List ℕ) (calculate_distance : Bool) :
    ∃ fuel tables, (∀ more ≥ fuel, fillTables more sort ⟨graph.number_of_nodes,edges⟩ candidates_list source_indices
        target_indices calculate_distance = some tables) ∧
      ∀ (row : Fin source_indices.length) (column : Fin target_indices.length),
        (∀ v, EntryWeight (Contractor.forwardArcs graph) candidates_list source_indices target_indices row column v → 0 ≤ v) →
        (∀ v, IsLeast {v | EntryWeight (Contractor.forwardArcs graph) candidates_list source_indices target_indices row column v} v →
          v < INVALID_EDGE_WEIGHT) →
        (tables.weight (row * target_indices.length + column) = INVALID_EDGE_WEIGHT ↔
          ¬ ∃ v, EntryWeight (Contractor.forwardArcs graph) candidates_list source_indices target_indices row column v) ∧
        (tables.weight (row * target_indices.length + column) ≠ INVALID_EDGE_WEIGHT →
          IsLeast {v | EntryWeight (Contractor.forwardArcs graph) candidates_list source_indices target_indices row column v}
            (tables.weight (row * target_indices.length + column))) := by
  obtain ⟨fuel,tables,runs,entries⟩ := fillTables_spec (complete.climb input fits converted) input.positive
    (complete.bounded input fits converted) sorts candidates_list source_indices target_indices calculate_distance
  refine ⟨fuel,tables,runs,fun row column nonneg light => ?_⟩
  have lowered := entries row column nonneg
  have found : ∀ v, IsLeast {v | EntryWeight (Contractor.forwardArcs graph) candidates_list source_indices target_indices
      row column v} v → tables.weight (row * target_indices.length + column) = v := by
    intro v least
    have upper := lowered.bound v least
    have bound := light v least
    rcases lowered.origin with invalid | ⟨u,uLe,weight⟩
    · lia
    · have := least.2 weight
      lia
  constructor
  · constructor
    · rintro invalid ⟨v,weight⟩
      obtain ⟨least,here⟩ := exists_least nonneg weight
      have := light least here
      have := found least here
      lia
    · intro none_there
      rcases lowered.origin with invalid | ⟨u,_,weight⟩
      · exact invalid
      · exact absurd ⟨u,weight⟩ none_there
  · intro valid
    rcases lowered.origin with invalid | ⟨u,_,weight⟩
    · exact absurd invalid valid
    · obtain ⟨least,here⟩ := exists_least nonneg weight
      exact found least here ▸ here

def location (node : NodeID) (offset : EdgeWeight) : PhantomNode :=
  ⟨⟨node,true⟩,⟨0,false⟩,offset,0,0,0,0,0,0,0,0,0,0,0,true,true,false,false⟩

theorem location_source {node x : NodeID} {offset o : ℤ} :
    Starts (sourceStarts [location node offset]) x o ↔ x = node ∧ o = -offset := by
  have only : sourceStarts [location node offset] = [⟨node,0 - (0 + offset),0 - 0,0 - 0⟩] := rfl
  rw [Starts,only]
  simp [eq_comm]

theorem location_target {node x : NodeID} {offset p : ℤ} :
    Starts (targetStarts [location node offset]) x p ↔ x = node ∧ p = offset := by
  have only : targetStarts [location node offset] = [⟨node,0 + offset,0 + 0,0 + 0⟩] := rfl
  rw [Starts,only]
  simp [eq_comm]

private theorem location_pair {A : Arcs NodeID} {s t : NodeID} {o p d v : ℤ} (shortest : Shortest A s t d) :
    PairWeight A (sourceStarts [location s o]) (targetStarts [location t p]) v ↔ v = -o + d + p := by
  simp only [PairWeight,location_source,location_target]
  constructor
  · rintro ⟨_,_,_,_,d',⟨rfl,rfl⟩,⟨rfl,rfl⟩,other,rfl⟩
    rw [shortest.unique other]
  · rintro rfl
    exact ⟨s,-o,t,p,d,⟨rfl,rfl⟩,⟨rfl,rfl⟩,shortest,rfl⟩

def sortBuckets (l : List NodeBucket) : List NodeBucket := l.insertionSort fun a b => b.before a = false

theorem sortBuckets_sorts : Sorts sortBuckets := by
  have total : ∀ a b : NodeBucket, b.before a = false ∨ a.before b = false := by
    intro a b
    simp only [NodeBucket.before,Bool.or_eq_false_iff,decide_eq_false_iff_not,Bool.and_eq_false_iff,
      beq_eq_false_iff_ne]
    lia
  have transitive : ∀ a b c : NodeBucket, b.before a = false → c.before b = false → c.before a = false := by
    intro a b c one two
    simp only [NodeBucket.before,Bool.or_eq_false_iff,decide_eq_false_iff_not,Bool.and_eq_false_iff,
      beq_eq_false_iff_ne] at one two ⊢
    lia
  have : Std.Total fun a b : NodeBucket => b.before a = false := ⟨total⟩
  have : IsTrans NodeBucket fun a b => b.before a = false := ⟨transitive⟩
  exact ⟨fun l => perm_insertionSort _ l,fun l => pairwise_insertionSort _ l⟩

/-- From a location on the first segment of the row to the start of the last one. -/
theorem manyToMany_least_row : ∃ fuel tables,
    (∀ more ≥ fuel, fillTables more sortBuckets ⟨3,rowEdges⟩ [[location 0 1],[location 2 0]] [0] [1] true = some tables) ∧
      tables.weight 0 = 1 := by
  obtain ⟨fuel,tables,runs,entries⟩ := manyToMany_least id ContractionRound.row row_input rowComplete rowComplete_fits
    rowEdges rowEdges_toEdges sortBuckets sortBuckets_sorts [[location 0 1],[location 2 0]] [0] [1] true
  have weight : ∀ v, EntryWeight (Contractor.forwardArcs ContractionRound.row) [[location 0 1],[location 2 0]] [0] [1]
      ⟨0,by decide⟩ ⟨0,by decide⟩ v ↔ v = 1 := fun v => location_pair ContractionRound.row_distance
  obtain ⟨invalid,least⟩ := entries ⟨0,by decide⟩ ⟨0,by decide⟩
    (fun v here => by rw [(weight v).mp here]; decide) (fun v here => by rw [(weight v).mp here.1]; decide)
  have reached : tables.weight 0 ≠ INVALID_EDGE_WEIGHT := fun bad => invalid.mp bad ⟨1,(weight 1).mpr rfl⟩
  exact ⟨fuel,tables,runs,(weight _).mp (least reached).1⟩

/-- The offset of a source is taken away and not added: the table has one, not three. And where the target lies before
    the source on one segment it does not have the negative weight. -/
theorem manyToMany_least_counterexample :
    ((fillTables 9 sortBuckets ⟨3,rowEdges⟩ [[location 0 1],[location 2 0]] [0] [1] true).map (·.weight 0) = some 1 ∧
      Shortest (Contractor.forwardArcs ContractionRound.row) 0 2 2 ∧
      (location 0 1).GetForwardWeightPlusOffset + 2 + (location 2 0).GetForwardWeightPlusOffset = 3) ∧
    (fillTables 9 sortBuckets ⟨3,rowEdges⟩ [[location 0 3],[location 0 1]] [0] [1] true).map (·.weight 0) = some 2 ∧
      Shortest (Contractor.forwardArcs ContractionRound.row) 0 0 0 ∧
      -(location 0 3).GetForwardWeightPlusOffset + 0 + (location 0 1).GetForwardWeightPlusOffset = -2 ∧
      (location 0 3).GetForwardWeightPlusOffset + 0 + (location 0 1).GetForwardWeightPlusOffset = 4 := by
  have own : Shortest (Contractor.forwardArcs ContractionRound.row) 0 0 0 :=
    ⟨.nil 0,fun n walk => walk.nonneg row_input.positive⟩
  exact ⟨⟨by decide +kernel,ContractionRound.row_distance,by decide⟩,by decide +kernel,own,by decide,by decide⟩

end Osrm.ChTable
