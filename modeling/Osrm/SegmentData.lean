import Osrm.CompressedGeometry

/-!
`CompressedEdgeContainer::ZipEdges` and `SegmentDataContainer`. Both directions of a street share one array of nodes;
a direction's values stand at the nodes that they lead to, so that one place at an end of each geometry has none.
-/
namespace Osrm.SegmentData
open List Option
open Typedefs
open Packing
open CompressedGeometry
open Updater (SegmentWeight SegmentDuration INVALID_SEGMENT_WEIGHT INVALID_SEGMENT_DURATION)

def pack (value : ℤ) : ℤ := value % 2 ^ 22
def LUA_SOURCE : ℕ := 0

/-- One node of a zipped geometry, with the values that lead to it in both directions. -/
structure ZippedNode where
  node_id : NodeID
  fwd_weight : SegmentWeight
  rev_weight : SegmentWeight
  fwd_duration : SegmentDuration
  rev_duration : SegmentDuration

def InitializeBothwayVector : SegmentDataContainer := ⟨[],[],[],[],[],[],[],[]⟩

def emplaceNode (segment_data : SegmentDataContainer) (node : ZippedNode) : SegmentDataContainer :=
  { segment_data with
    nodes := segment_data.nodes ++ [node.node_id]
    fwd_weights := segment_data.fwd_weights ++ [pack node.fwd_weight]
    rev_weights := segment_data.rev_weights ++ [pack node.rev_weight]
    fwd_durations := segment_data.fwd_durations ++ [pack node.fwd_duration]
    rev_durations := segment_data.rev_durations ++ [pack node.rev_duration]
    fwd_datasources := segment_data.fwd_datasources ++ [LUA_SOURCE]
    rev_datasources := segment_data.rev_datasources ++ [LUA_SOURCE] }

/-- `bucket.at(bucket.size() - 2 - i)`, which is outside when the difference wraps around. -/
def atFromEnd (bucket : OnewayEdgeBucket) (i : ℕ) : Option OnewayCompressedEdge :=
  if 2 + i ≤ bucket.length then bucket[bucket.length - 2 - i]? else none

/-- One step of the loop over the inner nodes; there is an exception outside of the buckets. -/
def zipInner (forward_bucket reverse_bucket : OnewayEdgeBucket) (segment_data : SegmentDataContainer) (i : ℕ) :
    Option SegmentDataContainer := do
  let fwd_node ← forward_bucket[i]?
  let rev_node ← atFromEnd reverse_bucket i
  pure (emplaceNode segment_data ⟨fwd_node.node_id,fwd_node.weight,rev_node.weight,fwd_node.duration,rev_node.duration⟩)

def ZipEdges (container : CompressedEdgeContainer) (f_edge_id r_edge_id : EdgeID) : Option (ℕ × CompressedEdgeContainer) := do
  let segment_data := container.segment_data.getD InitializeBothwayVector
  let forward_bucket ← container.GetBucketReference f_edge_id
  let reverse_bucket ← container.GetBucketReference r_edge_id
  let zipped_geometry_id := segment_data.index.length
  let segment_data := { segment_data with index := segment_data.index ++ [segment_data.nodes.length] }
  let first_node ← reverse_bucket.getLast?
  let segment_data := emplaceNode segment_data
    ⟨first_node.node_id,INVALID_SEGMENT_WEIGHT,first_node.weight,INVALID_SEGMENT_DURATION,first_node.duration⟩
  let segment_data ← (List.range (forward_bucket.length - 1)).foldlM (zipInner forward_bucket reverse_bucket) segment_data
  let last_node ← forward_bucket.getLast?
  let segment_data := emplaceNode segment_data
    ⟨last_node.node_id,last_node.weight,INVALID_SEGMENT_WEIGHT,last_node.duration,INVALID_SEGMENT_DURATION⟩
  pure (zipped_geometry_id,{ container with
    m_forward_edge_id_to_zipped_index_map :=
      Function.update container.m_forward_edge_id_to_zipped_index_map f_edge_id (some zipped_geometry_id)
    m_reverse_edge_id_to_zipped_index_map :=
      Function.update container.m_reverse_edge_id_to_zipped_index_map r_edge_id (some zipped_geometry_id)
    segment_data := some segment_data })

/-- `ToSegmentData`, the container's data with the index finished. -/
def ToSegmentData (container : CompressedEdgeContainer) : Option SegmentDataContainer :=
  container.segment_data.map fun segment_data => { segment_data with index := segment_data.index ++ [segment_data.nodes.length] }
def range {α : Type} (l : List α) (first last : ℕ) : List α := (l.drop first).take (last - first)

section Getters
variable (data : SegmentDataContainer) (id : ℕ)

def indexAt (i : ℕ) : ℕ := data.index.getD i 0

def GetForwardGeometry : List NodeID := range data.nodes (indexAt data id) (indexAt data (id + 1))
def GetReverseGeometry : List NodeID := (GetForwardGeometry data id).reverse

def forwardValues {α : Type} (values : List α) : List α := range values (indexAt data id + 1) (indexAt data (id + 1))
def reverseValues {α : Type} (values : List α) : List α := (range values (indexAt data id) (indexAt data (id + 1) - 1)).reverse

def GetForwardDurations : List SegmentDuration := forwardValues data id data.fwd_durations
def GetReverseDurations : List SegmentDuration := reverseValues data id data.rev_durations
def GetForwardWeights : List SegmentWeight := forwardValues data id data.fwd_weights
def GetReverseWeights : List SegmentWeight := reverseValues data id data.rev_weights
def GetForwardDatasources : List ℕ := forwardValues data id data.fwd_datasources
def GetReverseDatasources : List ℕ := reverseValues data id data.rev_datasources

end Getters

/-! ### Zipping one pair -/

/-- Nodes are put behind the nodes there are. -/
def extend (segment_data : SegmentDataContainer) (nodes : List ZippedNode) : SegmentDataContainer :=
  { segment_data with
    nodes := segment_data.nodes ++ nodes.map (·.node_id)
    fwd_weights := segment_data.fwd_weights ++ nodes.map (pack ·.fwd_weight)
    rev_weights := segment_data.rev_weights ++ nodes.map (pack ·.rev_weight)
    fwd_durations := segment_data.fwd_durations ++ nodes.map (pack ·.fwd_duration)
    rev_durations := segment_data.rev_durations ++ nodes.map (pack ·.rev_duration)
    fwd_datasources := segment_data.fwd_datasources ++ nodes.map fun _ => LUA_SOURCE
    rev_datasources := segment_data.rev_datasources ++ nodes.map fun _ => LUA_SOURCE }

private theorem extend_nil (segment_data : SegmentDataContainer) : extend segment_data [] = segment_data := by
  simp [extend]

private theorem emplaceNode_extend (segment_data : SegmentDataContainer) (nodes : List ZippedNode) (node : ZippedNode) :
    emplaceNode (extend segment_data nodes) node = extend segment_data (nodes ++ [node]) := by
  simp [extend,emplaceNode]

/-- The inner nodes of a pair of geometries, the other direction's segments being taken from its end. -/
def innerNodes (forward_bucket reverse_bucket : OnewayEdgeBucket) : List ZippedNode :=
  List.zipWith (fun fwd_node rev_node =>
    ⟨fwd_node.node_id,fwd_node.weight,rev_node.weight,fwd_node.duration,rev_node.duration⟩)
    forward_bucket reverse_bucket.reverse.tail

/-- The nodes of a pair of geometries that end with the given segments. -/
def zippedNodes (forward_bucket reverse_bucket : OnewayEdgeBucket) (last_node first_node : OnewayCompressedEdge) : List ZippedNode :=
  ⟨first_node.node_id,INVALID_SEGMENT_WEIGHT,first_node.weight,INVALID_SEGMENT_DURATION,first_node.duration⟩ ::
    innerNodes forward_bucket reverse_bucket ++
    [⟨last_node.node_id,last_node.weight,INVALID_SEGMENT_WEIGHT,last_node.duration,INVALID_SEGMENT_DURATION⟩]

variable {forward_bucket reverse_bucket : OnewayEdgeBucket} {last_node first_node : OnewayCompressedEdge}

private theorem zipInner_fold (same : forward_bucket.length = reverse_bucket.length) (segment_data : SegmentDataContainer) {k : ℕ}
    (le : k ≤ forward_bucket.length - 1) :
    (List.range k).foldlM (zipInner forward_bucket reverse_bucket) segment_data =
      some (extend segment_data ((innerNodes forward_bucket reverse_bucket).take k)) := by
  induction k with
  | zero => simp [extend_nil]
  | succ k ih =>
    have forward : forward_bucket[k]? = some (forward_bucket.get ⟨k,by omega⟩) := by simp
    have reverse : reverse_bucket[reverse_bucket.length - 2 - k]? =
        some (reverse_bucket.get ⟨reverse_bucket.length - 2 - k,by omega⟩) := by simp
    have inner : (innerNodes forward_bucket reverse_bucket)[k]? = some
        ⟨(forward_bucket.get ⟨k,by omega⟩).node_id,(forward_bucket.get ⟨k,by omega⟩).weight,
          (reverse_bucket.get ⟨reverse_bucket.length - 2 - k,by omega⟩).weight,(forward_bucket.get ⟨k,by omega⟩).duration,
          (reverse_bucket.get ⟨reverse_bucket.length - 2 - k,by omega⟩).duration⟩ := by
      have mirrored : reverse_bucket.reverse.tail[k]? = reverse_bucket[reverse_bucket.length - 2 - k]? := by
        rw [tail_reverse,getElem?_reverse (by simp; omega),getElem?_dropLast]
        simp only [length_dropLast]
        rw [if_pos (by omega)]
        congr 1
      rw [innerNodes,getElem?_zipWith,forward,mirrored,reverse]
    rw [range_succ,foldlM_append,ih (by omega)]
    simp only [bind,bind_some,foldlM_cons,foldlM_nil]
    rw [zipInner,forward,atFromEnd,if_pos (by omega),reverse]
    simp only [bind,bind_some,pure]
    rw [emplaceNode_extend,take_add_one,inner]
    rfl

variable {container : CompressedEdgeContainer}

private theorem ZipEdges_spec {f_edge_id r_edge_id : EdgeID} (forward : container.GetBucketReference f_edge_id = some forward_bucket)
    (reverse : container.GetBucketReference r_edge_id = some reverse_bucket)
    (same : forward_bucket.length = reverse_bucket.length) (last : forward_bucket.getLast? = some last_node)
    (first : reverse_bucket.getLast? = some first_node) :
    ∃ zipped, ZipEdges container f_edge_id r_edge_id =
        some ((container.segment_data.getD InitializeBothwayVector).index.length,zipped) ∧
      zipped.GetBucketReference = container.GetBucketReference ∧
      zipped.segment_data = some (extend { container.segment_data.getD InitializeBothwayVector with
        index := (container.segment_data.getD InitializeBothwayVector).index ++
          [(container.segment_data.getD InitializeBothwayVector).nodes.length] }
        (zippedNodes forward_bucket reverse_bucket last_node first_node)) := by
  have whole : (innerNodes forward_bucket reverse_bucket).take (forward_bucket.length - 1) =
      innerNodes forward_bucket reverse_bucket := by
    apply take_of_length_le
    simp [innerNodes,same]
  have begun : ∀ (data : SegmentDataContainer) (node : ZippedNode), emplaceNode data node = extend data [node] := by
    intro data node
    simp [emplaceNode,extend]
  unfold ZipEdges
  rw [forward,reverse]
  simp only [bind,bind_some,first,last]
  rw [zipInner_fold same _ le_rfl,whole,bind_some]
  refine ⟨_,rfl,rfl,?_⟩
  simp only [begun]
  simp [extend,zippedNodes]

private theorem zipWith_left {α β γ : Type} (g : α → γ) {l : List α} {m : List β} (le : l.length ≤ m.length) :
    List.zipWith (fun a _ => g a) l m = l.map g := by
  induction l generalizing m with
  | nil => simp
  | cons a l ih =>
    cases m with
    | nil => simp at le
    | cons b m => simp [ih (by simpa using le)]

private theorem zipWith_right {α β γ : Type} (g : β → γ) {l : List α} {m : List β} (le : m.length ≤ l.length) :
    List.zipWith (fun _ b => g b) l m = m.map g := by
  rw [zipWith_comm]
  exact zipWith_left g le

private theorem zippedNodes_columns (same : forward_bucket.length = reverse_bucket.length)
    (last : forward_bucket.getLast? = some last_node) (first : reverse_bucket.getLast? = some first_node) :
    (zippedNodes forward_bucket reverse_bucket last_node first_node).map (·.node_id) =
        first_node.node_id :: forward_bucket.map (·.node_id) ∧
      (zippedNodes forward_bucket reverse_bucket last_node first_node).map (pack ·.fwd_weight) =
        pack INVALID_SEGMENT_WEIGHT :: forward_bucket.map (pack ·.weight) ∧
      (zippedNodes forward_bucket reverse_bucket last_node first_node).map (pack ·.fwd_duration) =
        pack INVALID_SEGMENT_DURATION :: forward_bucket.map (pack ·.duration) ∧
      (zippedNodes forward_bucket reverse_bucket last_node first_node).map (pack ·.rev_weight) =
        (reverse_bucket.map (pack ·.weight)).reverse ++ [pack INVALID_SEGMENT_WEIGHT] ∧
      (zippedNodes forward_bucket reverse_bucket last_node first_node).map (pack ·.rev_duration) =
        (reverse_bucket.map (pack ·.duration)).reverse ++ [pack INVALID_SEGMENT_DURATION] := by
  obtain ⟨init,rfl⟩ := getLast?_eq_some_iff.mp last
  obtain ⟨rest,rfl⟩ := getLast?_eq_some_iff.mp first
  have sizes : init.length = rest.length := by simpa using same
  have inner : innerNodes (init ++ [last_node]) (rest ++ [first_node]) = List.zipWith (fun fwd_node rev_node =>
      ⟨fwd_node.node_id,fwd_node.weight,rev_node.weight,fwd_node.duration,rev_node.duration⟩) init rest.reverse := by
    have short : List.zipWith (fun (fwd_node rev_node : OnewayCompressedEdge) => (⟨fwd_node.node_id,fwd_node.weight,rev_node.weight,
        fwd_node.duration,rev_node.duration⟩ : ZippedNode)) (init ++ [last_node]) (rest.reverse ++ []) = _ :=
      zipWith_append (by simp [sizes])
    simpa [innerNodes] using short
  simp only [zippedNodes,inner,map_append,map_cons,map_nil,map_zipWith,reverse_append,cons_append]
  refine ⟨?_,?_,?_,?_,?_⟩
  · rw [zipWith_left (fun node : OnewayCompressedEdge => node.node_id) (by simp [sizes])]
  · rw [zipWith_left (fun node : OnewayCompressedEdge => pack node.weight) (by simp [sizes])]
  · rw [zipWith_left (fun node : OnewayCompressedEdge => pack node.duration) (by simp [sizes])]
  · rw [zipWith_right (fun node : OnewayCompressedEdge => pack node.weight) (by simp [sizes])]
    simp
  · rw [zipWith_right (fun node : OnewayCompressedEdge => pack node.duration) (by simp [sizes])]
    simp

/-! ### Zipping all pairs -/

def zipAll (container : CompressedEdgeContainer) (pairs : List (EdgeID × EdgeID)) : Option CompressedEdgeContainer :=
  pairs.foldlM (fun container pair => (ZipEdges container pair.1 pair.2).map Prod.snd) container

/-- A pair of edges has geometries that can be zipped: they go over the same nodes, and their values fit. -/
structure Zippable (container : CompressedEdgeContainer) (pair : EdgeID × EdgeID) (forward_bucket reverse_bucket : OnewayEdgeBucket)
    (last_node first_node : OnewayCompressedEdge) : Prop where
  forward : container.GetBucketReference pair.1 = some forward_bucket
  reverse : container.GetBucketReference pair.2 = some reverse_bucket
  last : forward_bucket.getLast? = some last_node
  first : reverse_bucket.getLast? = some first_node
  nodes : first_node.node_id :: forward_bucket.map (·.node_id) = (last_node.node_id :: reverse_bucket.map (·.node_id)).reverse
  packed : ∀ node ∈ forward_bucket ++ reverse_bucket, pack node.weight = node.weight ∧ pack node.duration = node.duration

/-- The data consists of the nodes of some geometries, one geometry after another. -/
structure Consists (data : SegmentDataContainer) (geometries : List (List ZippedNode)) : Prop where
  columns : data = { extend InitializeBothwayVector geometries.flatten with index := data.index }
  index : data.index ++ [data.nodes.length] = starts (geometries.map List.length)

private theorem Consists.nodes_length {data : SegmentDataContainer} {geometries : List (List ZippedNode)}
    (consists : Consists data geometries) : data.nodes.length = (geometries.map List.length).sum := by
  rw [consists.columns]
  simp [extend,InitializeBothwayVector,Function.comp_def]

private theorem Consists.extend {data : SegmentDataContainer} {geometries : List (List ZippedNode)} (consists : Consists data geometries)
    (nodes : List ZippedNode) :
    Consists (extend { data with index := data.index ++ [data.nodes.length] } nodes) (geometries ++ [nodes]) := by
  have columns := consists.columns
  constructor
  · rw [columns]
    simp [SegmentData.extend,InitializeBothwayVector]
  · have length : (SegmentData.extend { data with index := data.index ++ [data.nodes.length] } nodes).nodes.length =
        (geometries.map List.length).sum + nodes.length := by
      rw [← consists.nodes_length]
      simp [SegmentData.extend]
    rw [length,map_append,map_singleton,starts_snoc,← consists.index]
    rfl

section Reading
variable {data : SegmentDataContainer} {geometries : List (List ZippedNode)} {k : ℕ} {nodes : List ZippedNode}

private theorem index_at (finished : data.index = starts (geometries.map List.length)) (at_k : geometries[k]? = some nodes) :
    indexAt data k = ((geometries.map List.length).take k).sum ∧
      indexAt data (k + 1) = ((geometries.map List.length).take k).sum + nodes.length := by
  obtain ⟨inside,here⟩ := List.getElem?_eq_some_iff.mp at_k
  have size : (geometries.map List.length)[k]? = some nodes.length := by simp [at_k]
  constructor
  · rw [indexAt,finished,getD_eq_getElem?_getD,starts_get _ (by simpa using inside.le),getD_some]
  · rw [indexAt,finished,getD_eq_getElem?_getD,starts_get _ (by simpa using inside),getD_some,take_add_one,size]
    simp

variable {β : Type}

private theorem column_at (g : ZippedNode → β) (at_k : geometries[k]? = some nodes) :
    ((geometries.flatten.map g).drop ((geometries.map List.length).take k).sum).take nodes.length = nodes.map g := by
  have slice := flatten_slice (geometries.map (List.map g)) (show (geometries.map (List.map g))[k]? = some (nodes.map g) by simp [at_k])
  have sizes : (geometries.map (List.map g)).map List.length = geometries.map List.length := by simp
  rw [sizes,length_map,← map_flatten] at slice
  exact slice

private theorem range_at (g : ZippedNode → β) (finished : data.index = starts (geometries.map List.length))
    (at_k : geometries[k]? = some nodes) :
    range (geometries.flatten.map g) (indexAt data k) (indexAt data (k + 1)) = nodes.map g := by
  obtain ⟨first,last⟩ := index_at finished at_k
  rw [first,last,range,Nat.add_sub_cancel_left,column_at g at_k]
private theorem forwardValues_at (g : ZippedNode → β) (finished : data.index = starts (geometries.map List.length))
    (at_k : geometries[k]? = some nodes) : forwardValues data k (geometries.flatten.map g) = (nodes.map g).tail := by
  obtain ⟨first,last⟩ := index_at finished at_k
  rw [forwardValues,first,last,range,← column_at g at_k,← drop_one,drop_take,drop_drop]
  congr 1
  omega

private theorem reverseValues_at (g : ZippedNode → β) (finished : data.index = starts (geometries.map List.length))
    (at_k : geometries[k]? = some nodes) : reverseValues data k (geometries.flatten.map g) = (nodes.map g).dropLast.reverse := by
  obtain ⟨first,last⟩ := index_at finished at_k
  rw [reverseValues,first,last,range,dropLast_eq_take,length_map,← column_at g at_k,take_take]
  congr 2
  omega

end Reading

private theorem zipAll_consists (pairs : List (EdgeID × EdgeID))
    {geometries : List (List ZippedNode)} (consists : Consists (container.segment_data.getD InitializeBothwayVector) geometries)
    (zippable : ∀ pair ∈ pairs, ∃ forward_bucket reverse_bucket last_node first_node,
      Zippable container pair forward_bucket reverse_bucket last_node first_node) :
    ∃ zipped more, zipAll container pairs = some zipped ∧ (pairs ≠ [] → zipped.segment_data.isSome) ∧
      Consists (zipped.segment_data.getD InitializeBothwayVector) (geometries ++ more) ∧
      ∀ (k : ℕ) pair, pairs[k]? = some pair → ∃ forward_bucket reverse_bucket last_node first_node,
        Zippable container pair forward_bucket reverse_bucket last_node first_node ∧
        more[k]? = some (zippedNodes forward_bucket reverse_bucket last_node first_node) := by
  induction pairs generalizing container geometries with
  | nil => exact ⟨container,[],rfl,fun filled => absurd rfl filled,by simpa using consists,by simp⟩
  | cons pair pairs ih =>
    obtain ⟨forward_bucket,reverse_bucket,last_node,first_node,here⟩ := zippable pair (by simp)
    have same : forward_bucket.length = reverse_bucket.length := by simpa using congrArg List.length here.nodes
    obtain ⟨next,next_eq,next_buckets,next_data⟩ := ZipEdges_spec here.forward here.reverse same here.last here.first
    have moved : ∀ {other forward_bucket reverse_bucket last_node first_node},
        Zippable next other forward_bucket reverse_bucket last_node first_node ↔
          Zippable container other forward_bucket reverse_bucket last_node first_node := by
      intro other forward_bucket reverse_bucket last_node first_node
      constructor
      · rintro ⟨forward,reverse,last,first,nodes,packed⟩
        exact ⟨next_buckets ▸ forward,next_buckets ▸ reverse,last,first,nodes,packed⟩
      · rintro ⟨forward,reverse,last,first,nodes,packed⟩
        exact ⟨next_buckets ▸ forward,next_buckets ▸ reverse,last,first,nodes,packed⟩
    have next_consists : Consists (next.segment_data.getD InitializeBothwayVector)
        (geometries ++ [zippedNodes forward_bucket reverse_bucket last_node first_node]) := by
      rw [next_data,getD_some]
      exact consists.extend _
    obtain ⟨zipped,more,zipped_eq,_,zipped_consists,at_more⟩ := ih next_consists (by
      intro other member
      obtain ⟨forward_bucket,reverse_bucket,last_node,first_node,there⟩ := zippable other (mem_cons_of_mem _ member)
      exact ⟨forward_bucket,reverse_bucket,last_node,first_node,moved.mpr there⟩)
    refine ⟨zipped,zippedNodes forward_bucket reverse_bucket last_node first_node :: more,?_,?_,?_,?_⟩
    · rw [zipAll,foldlM_cons,next_eq]
      exact zipped_eq
    · intro _
      cases pairs with
      | nil =>
        obtain rfl : next = zipped := by simpa [zipAll] using zipped_eq
        rw [next_data]
        rfl
      | cons pair pairs => exact ‹_ → _› (by simp)
    · simpa using zipped_consists
    · intro k other at_k
      cases k with
      | zero =>
        obtain rfl : pair = other := by simpa using at_k
        exact ⟨forward_bucket,reverse_bucket,last_node,first_node,here,rfl⟩
      | succ k =>
        obtain ⟨forward_bucket,reverse_bucket,last_node,first_node,there,at_k⟩ := at_more k other (by simpa using at_k)
        exact ⟨forward_bucket,reverse_bucket,last_node,first_node,moved.mp there,by simpa using at_k⟩

structure ReadsBack (data : SegmentDataContainer) (k : ℕ) (source target : NodeID) (forward_bucket reverse_bucket : OnewayEdgeBucket) :
    Prop where
  forward_nodes : GetForwardGeometry data k = source :: forward_bucket.map (·.node_id)
  reverse_nodes : GetReverseGeometry data k = target :: reverse_bucket.map (·.node_id)
  forward_weights : GetForwardWeights data k = forward_bucket.map (·.weight)
  reverse_weights : GetReverseWeights data k = reverse_bucket.map (·.weight)
  forward_durations : GetForwardDurations data k = forward_bucket.map (·.duration)
  reverse_durations : GetReverseDurations data k = reverse_bucket.map (·.duration)

private theorem readsBack_at {data : SegmentDataContainer} {geometries : List (List ZippedNode)} {k : ℕ} {pair : EdgeID × EdgeID}
    (columns : data = { extend InitializeBothwayVector geometries.flatten with index := data.index })
    (finished : data.index = starts (geometries.map List.length))
    (at_k : geometries[k]? = some (zippedNodes forward_bucket reverse_bucket last_node first_node))
    (zip : Zippable container pair forward_bucket reverse_bucket last_node first_node) :
    ReadsBack data k first_node.node_id last_node.node_id forward_bucket reverse_bucket := by
  have same : forward_bucket.length = reverse_bucket.length := by simpa using congrArg List.length zip.nodes
  obtain ⟨nodes,fwd_weights,fwd_durations,rev_weights,rev_durations⟩ := zippedNodes_columns same zip.last zip.first
  obtain ⟨packed_forward,packed_reverse⟩ := forall_mem_append.mp zip.packed
  have unpacked : ∀ {bucket : OnewayEdgeBucket}, (∀ node ∈ bucket, pack node.weight = node.weight ∧ pack node.duration = node.duration) →
      bucket.map (pack ·.weight) = bucket.map (·.weight) ∧ bucket.map (pack ·.duration) = bucket.map (·.duration) := by
    intro bucket packed
    constructor
    · exact map_congr_left fun node member => (packed node member).1
    · exact map_congr_left fun node member => (packed node member).2
  have column_nodes : data.nodes = geometries.flatten.map (·.node_id) := congrArg (·.nodes) columns
  have column_fwd_weights : data.fwd_weights = geometries.flatten.map (pack ·.fwd_weight) := congrArg (·.fwd_weights) columns
  have column_rev_weights : data.rev_weights = geometries.flatten.map (pack ·.rev_weight) := congrArg (·.rev_weights) columns
  have column_fwd_durations : data.fwd_durations = geometries.flatten.map (pack ·.fwd_duration) := congrArg (·.fwd_durations) columns
  have column_rev_durations : data.rev_durations = geometries.flatten.map (pack ·.rev_duration) := congrArg (·.rev_durations) columns
  have forward_nodes : GetForwardGeometry data k = first_node.node_id :: forward_bucket.map (·.node_id) := by
    rw [GetForwardGeometry,column_nodes,range_at _ finished at_k,nodes]
  constructor
  · exact forward_nodes
  · rw [GetReverseGeometry,forward_nodes,zip.nodes,reverse_reverse]
  · rw [GetForwardWeights,column_fwd_weights,forwardValues_at _ finished at_k,fwd_weights,tail_cons,(unpacked packed_forward).1]
  · rw [GetReverseWeights,column_rev_weights,reverseValues_at _ finished at_k,rev_weights,dropLast_concat,reverse_reverse,
      (unpacked packed_reverse).1]
  · rw [GetForwardDurations,column_fwd_durations,forwardValues_at _ finished at_k,fwd_durations,tail_cons,
      (unpacked packed_forward).2]
  · rw [GetReverseDurations,column_rev_durations,reverseValues_at _ finished at_k,rev_durations,dropLast_concat,
      reverse_reverse,(unpacked packed_reverse).2]

theorem zipAll_reads (fresh : container.segment_data = none) (pairs : List (EdgeID × EdgeID))
    (zippable : ∀ pair ∈ pairs, ∃ forward_bucket reverse_bucket last_node first_node,
      Zippable container pair forward_bucket reverse_bucket last_node first_node) :
    ∃ zipped, zipAll container pairs = some zipped ∧ ∀ (k : ℕ) pair, pairs[k]? = some pair →
      ∃ data forward_bucket reverse_bucket last_node first_node, ToSegmentData zipped = some data ∧
        Zippable container pair forward_bucket reverse_bucket last_node first_node ∧
        ReadsBack data k first_node.node_id last_node.node_id forward_bucket reverse_bucket := by
  have nothing : Consists (container.segment_data.getD InitializeBothwayVector) [] := by
    rw [fresh]
    exact ⟨rfl,rfl⟩
  obtain ⟨zipped,geometries,zipped_eq,some_data,consists,at_geometries⟩ := zipAll_consists pairs nothing zippable
  refine ⟨zipped,zipped_eq,?_⟩
  intro k pair at_k
  obtain ⟨forward_bucket,reverse_bucket,last_node,first_node,zip,zipped_at_k⟩ := at_geometries k pair at_k
  obtain ⟨data,data_eq⟩ := isSome_iff_exists.mp (some_data (by rintro rfl; simp at at_k))
  rw [data_eq,getD_some,nil_append] at consists
  refine ⟨{ data with index := data.index ++ [data.nodes.length] },forward_bucket,reverse_bucket,last_node,first_node,?_,zip,?_⟩
  · rw [ToSegmentData,data_eq]
    rfl
  · have columns := consists.columns
    refine readsBack_at ?_ consists.index zipped_at_k zip
    rw [columns]

end Osrm.SegmentData
