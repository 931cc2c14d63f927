import Osrm.RTree
import Osrm.Updater

/-!
Annotating a path, `annotatePath` of `routing_algorithms/routing_base.hpp`, and the phantom nodes it starts and ends
with, `GeospatialQuery::MakePhantomNode`.
-/
namespace Osrm.Annotation
open List
open Typedefs
open Phantom (SegmentID)
open RTree (EdgeBasedNodeSegment)
open Updater (GeometryID INVALID_SEGMENT_WEIGHT)

def SPECIAL_SEGMENTID : NodeID := SPECIAL_NODEID / 2

structure Facade where
  GetGeometryIndex : NodeID → GeometryID
  GetUncompressedForwardGeometry : ℕ → List NodeID
  GetUncompressedReverseGeometry : ℕ → List NodeID
  GetUncompressedForwardWeights : ℕ → List EdgeWeight
  GetUncompressedReverseWeights : ℕ → List EdgeWeight
  GetUncompressedForwardDurations : ℕ → List EdgeDuration
  GetUncompressedReverseDurations : ℕ → List EdgeDuration
  GetUncompressedForwardDatasources : ℕ → List ℕ
  GetUncompressedReverseDatasources : ℕ → List ℕ
  turn_id : EdgeID → EdgeID
  GetWeightPenaltyForEdgeID : EdgeID → EdgeWeight
  GetDurationPenaltyForEdgeID : EdgeID → EdgeDuration

/-- `PhantomNode`, with what the annotation reads; distances and coordinates are left out. -/
structure PhantomNode where
  forward_segment_id : SegmentID
  reverse_segment_id : SegmentID
  forward_weight : EdgeWeight
  reverse_weight : EdgeWeight
  forward_weight_offset : EdgeWeight
  reverse_weight_offset : EdgeWeight
  forward_duration : EdgeDuration
  reverse_duration : EdgeDuration
  forward_duration_offset : EdgeDuration
  reverse_duration_offset : EdgeDuration
  fwd_segment_position : ℕ
  is_valid_forward_source : Bool
  is_valid_forward_target : Bool
  is_valid_reverse_source : Bool
  is_valid_reverse_target : Bool

/-- The share of a value up to a location on its part, truncated in floating point: from nothing to all of it. -/
structure Ratio where
  portion : ℤ → ℤ
  nonneg : ∀ w, 0 ≤ w → 0 ≤ portion w
  le : ∀ w, 0 ≤ w → portion w ≤ w

/-- The share that exact arithmetic gives. -/
def Ratio.ofRat (ratio : ℚ) (nonneg : 0 ≤ ratio) (le : ratio ≤ 1) : Ratio where
  portion w := ⌊(w : ℚ) * ratio⌋
  nonneg w positive := Int.floor_nonneg.mpr (mul_nonneg (by exact_mod_cast positive) nonneg)
  le w positive := by
    have : (w : ℚ) * ratio ≤ w := mul_le_of_le_one_right (by exact_mod_cast positive) le
    exact_mod_cast (Int.floor_le _).trans this

variable (facade : Facade)

def areSegmentsValid (weights : List EdgeWeight) : Bool := !weights.contains INVALID_SEGMENT_WEIGHT

def MakePhantomNode (data : EdgeBasedNodeSegment) (ratio : Ratio) : PhantomNode :=
  let geometry_id := (facade.GetGeometryIndex data.forward_segment_id.id).id
  let forward_weights := facade.GetUncompressedForwardWeights geometry_id
  let reverse_weights := facade.GetUncompressedReverseWeights geometry_id
  let forward_durations := facade.GetUncompressedForwardDurations geometry_id
  let reverse_durations := facade.GetUncompressedReverseDurations geometry_id
  let forward_weight := forward_weights.getD data.fwd_segment_position 0
  let forward_duration := forward_durations.getD data.fwd_segment_position 0
  let reverse_weight := reverse_weights.getD (reverse_weights.length - data.fwd_segment_position - 1) 0
  let reverse_duration := reverse_durations.getD (reverse_durations.length - data.fwd_segment_position - 1) 0
  { forward_segment_id := data.forward_segment_id
    reverse_segment_id := data.reverse_segment_id
    forward_weight :=
      if data.forward_segment_id.id ≠ SPECIAL_SEGMENTID then ratio.portion forward_weight else forward_weight
    reverse_weight :=
      if data.reverse_segment_id.id ≠ SPECIAL_SEGMENTID then reverse_weight - ratio.portion reverse_weight else reverse_weight
    forward_weight_offset := (forward_weights.take data.fwd_segment_position).sum
    reverse_weight_offset := (reverse_weights.take (reverse_weights.length - data.fwd_segment_position - 1)).sum
    forward_duration :=
      if data.forward_segment_id.id ≠ SPECIAL_SEGMENTID then ratio.portion forward_duration else forward_duration
    reverse_duration :=
      if data.reverse_segment_id.id ≠ SPECIAL_SEGMENTID then reverse_duration - ratio.portion reverse_duration
      else reverse_duration
    forward_duration_offset := (forward_durations.take data.fwd_segment_position).sum
    reverse_duration_offset := (reverse_durations.take (reverse_durations.length - data.fwd_segment_position - 1)).sum
    fwd_segment_position := data.fwd_segment_position
    is_valid_forward_source := areSegmentsValid forward_weights
    is_valid_forward_target := areSegmentsValid (forward_weights.take (data.fwd_segment_position + 1))
    is_valid_reverse_source := areSegmentsValid reverse_weights
    is_valid_reverse_target := areSegmentsValid (reverse_weights.take (reverse_weights.length - data.fwd_segment_position)) }

structure PathData where
  from_edge_based_node : NodeID
  turn_via_node : NodeID
  weight_until_turn : EdgeWeight
  weight_of_turn : EdgeWeight
  duration_until_turn : EdgeDuration
  duration_of_turn : EdgeDuration
  datasource_id : ℕ
  turn_edge : Option EdgeID
  deriving DecidableEq, Repr

/-- The vectors that `get_segment_geometry` fills. -/
structure SegmentGeometry where
  id_vector : List NodeID
  weight_vector : List EdgeWeight
  duration_vector : List EdgeDuration
  datasource_vector : List ℕ

def get_segment_geometry (geometry_index : GeometryID) : SegmentGeometry :=
  if geometry_index.forward then
    ⟨facade.GetUncompressedForwardGeometry geometry_index.id,facade.GetUncompressedForwardWeights geometry_index.id,
      facade.GetUncompressedForwardDurations geometry_index.id,facade.GetUncompressedForwardDatasources geometry_index.id⟩
  else
    ⟨facade.GetUncompressedReverseGeometry geometry_index.id,facade.GetUncompressedReverseWeights geometry_index.id,
      facade.GetUncompressedReverseDurations geometry_index.id,facade.GetUncompressedReverseDatasources geometry_index.id⟩

def SegmentGeometry.entry (geometry : SegmentGeometry) (node : NodeID) (segment_idx turn_via : ℕ) : PathData :=
  ⟨node,geometry.id_vector.getD turn_via 0,geometry.weight_vector.getD segment_idx 0,0,geometry.duration_vector.getD segment_idx 0,0,
    geometry.datasource_vector.getD segment_idx 0,none⟩

/-- The turn is added to the last entry. -/
def addTurn (turn_id : EdgeID) (unpacked_path : List PathData) : List PathData :=
  match unpacked_path.getLast? with
  | none => unpacked_path
  | some back => unpacked_path.dropLast ++ [{ back with
      duration_until_turn := back.duration_until_turn + facade.GetDurationPenaltyForEdgeID turn_id
      duration_of_turn := facade.GetDurationPenaltyForEdgeID turn_id
      weight_until_turn := back.weight_until_turn + facade.GetWeightPenaltyForEdgeID turn_id
      weight_of_turn := facade.GetWeightPenaltyForEdgeID turn_id
      turn_edge := some turn_id }]

/-- The loop over the nodes that are left by a turn; a step is the node and the edge of the turn. -/
def annotateStep (source_phantom : PhantomNode) (start_traversed_in_reverse : Bool) (unpacked_path : List PathData)
    (step : NodeID × EdgeID) : List PathData :=
  let geometry := get_segment_geometry facade (facade.GetGeometryIndex step.1)
  let start_index :=
    if unpacked_path.isEmpty then
      -- The position is kept in sixteen bits.
      (if start_traversed_in_reverse then geometry.weight_vector.length - source_phantom.fwd_segment_position - 1
      else source_phantom.fwd_segment_position) % 2 ^ 16
    else 0
  let end_index := geometry.weight_vector.length
  addTurn facade (facade.turn_id step.2) (unpacked_path ++
    (List.range' start_index (end_index - start_index)).map fun segment_idx => geometry.entry step.1 segment_idx (segment_idx + 1))

/-- The loop over the last node, which goes up or down from the first to the last index. -/
def lastEntries (geometry : SegmentGeometry) (node : NodeID) (start_index end_index : ℕ) : List PathData :=
  if start_index < end_index then
    (List.range' start_index (end_index - start_index)).map fun segment_idx => geometry.entry node segment_idx (segment_idx + 1)
  else
    (List.range (start_index - end_index)).map fun i => geometry.entry node (start_index - i) (start_index - i - 1)

/-- What lies before the source is taken off the first entry. -/
def adjustFirst (source_weight : EdgeWeight) (source_duration : EdgeDuration) : List PathData → List PathData
  | [] => []
  | front :: rest => { front with
      weight_until_turn := max (front.weight_until_turn - source_weight) 0
      duration_until_turn := max (front.duration_until_turn - source_duration) 0 } :: rest

/-- `annotatePath`, on the first node with its turns and the last node of the path. -/
def annotatePath (source_phantom target_phantom : PhantomNode) (unpacked_nodes : List NodeID) (unpacked_edges : List EdgeID) :
    List PathData :=
  let source_node_id := unpacked_nodes.headD 0
  let target_node_id := unpacked_nodes.getLastD 0
  let start_traversed_in_reverse := source_phantom.forward_segment_id.id != source_node_id
  let target_traversed_in_reverse := target_phantom.forward_segment_id.id != target_node_id
  let unpacked_path := (unpacked_nodes.zip unpacked_edges).foldl (annotateStep facade source_phantom start_traversed_in_reverse) []
  let target_geometry := facade.GetGeometryIndex target_node_id
  let is_local_path := (facade.GetGeometryIndex source_node_id).id == target_geometry.id && unpacked_path.isEmpty
  let geometry := get_segment_geometry facade target_geometry
  let size := geometry.weight_vector.length
  let start_index :=
    if is_local_path then
      if target_traversed_in_reverse then size - source_phantom.fwd_segment_position - 1 else source_phantom.fwd_segment_position
    else 0
  let end_index :=
    if target_traversed_in_reverse then size - target_phantom.fwd_segment_position - 1 else target_phantom.fwd_segment_position
  adjustFirst (if start_traversed_in_reverse then source_phantom.reverse_weight else source_phantom.forward_weight)
    (if start_traversed_in_reverse then source_phantom.reverse_duration else source_phantom.forward_duration)
    (unpacked_path ++ lastEntries geometry target_node_id start_index end_index)

/-- The weight that `assembleLeg` reports for the entries of a leg. -/
def assembledWeight (route_data : List PathData) (source_node target_node : PhantomNode) (target_traversed_in_reverse : Bool) : EdgeWeight :=
  let target_weight := if target_traversed_in_reverse then target_node.reverse_weight else target_node.forward_weight
  let weight := (route_data.map (·.weight_until_turn)).sum + target_weight
  if route_data.isEmpty then
    weight - if target_traversed_in_reverse then source_node.reverse_weight else source_node.forward_weight
  else weight

/-! ### The weight of the search -/

variable {facade}

def Facade.weights (facade : Facade) (node : NodeID) : List EdgeWeight :=
  (get_segment_geometry facade (facade.GetGeometryIndex node)).weight_vector
def PhantomNode.weightOn (phantom : PhantomNode) (node : NodeID) : EdgeWeight :=
  if phantom.forward_segment_id.id = node then phantom.forward_weight else phantom.reverse_weight
def PhantomNode.offsetOn (phantom : PhantomNode) (node : NodeID) : EdgeWeight :=
  if phantom.forward_segment_id.id = node then phantom.forward_weight_offset else phantom.reverse_weight_offset
def stepsWeight (facade : Facade) (steps : List (NodeID × EdgeID)) : EdgeWeight :=
  (steps.map fun step => (facade.weights step.1).sum + facade.GetWeightPenaltyForEdgeID (facade.turn_id step.2)).sum

/-- The weight with which the search accepts a path, less what lies before the source and with what lies before the target. -/
def pathWeight (facade : Facade) (source_phantom target_phantom : PhantomNode) (unpacked_nodes : List NodeID)
    (unpacked_edges : List EdgeID) : EdgeWeight :=
  stepsWeight facade (unpacked_nodes.zip unpacked_edges) -
    (source_phantom.weightOn (unpacked_nodes.headD 0) + source_phantom.offsetOn (unpacked_nodes.headD 0)) +
    (target_phantom.weightOn (unpacked_nodes.getLastD 0) + target_phantom.offsetOn (unpacked_nodes.getLastD 0))

/-- A segment of the tree is one of the parts of its geometry, and a second node has it the other way. -/
structure OnGeometry (facade : Facade) (data : EdgeBasedNodeSegment) : Prop where
  reverse : data.reverse_segment_id.enabled = true → (facade.GetGeometryIndex data.reverse_segment_id.id).forward = false
  same : data.reverse_segment_id.enabled = true →
    (facade.GetGeometryIndex data.reverse_segment_id.id).id = (facade.GetGeometryIndex data.forward_segment_id.id).id
  inside : data.fwd_segment_position < (facade.weights data.forward_segment_id.id).length
  sizes : data.reverse_segment_id.enabled = true →
    (facade.weights data.reverse_segment_id.id).length = (facade.weights data.forward_segment_id.id).length

/-- The first node of a segment has its geometry as it is stored; a copy of a via way comes with its own node first. -/
def Oriented (facade : Facade) (data : EdgeBasedNodeSegment) : Prop :=
  (facade.GetGeometryIndex data.forward_segment_id.id).forward = true

instance (facade : Facade) (data : EdgeBasedNodeSegment) : Decidable (Oriented facade data) :=
  inferInstanceAs (Decidable (_ = _))

def Uses (data : EdgeBasedNodeSegment) (node : NodeID) : Prop :=
  data.forward_segment_id.id = node ∨ data.reverse_segment_id.enabled = true ∧ data.reverse_segment_id.id = node
/-- The place of the part that a location lies on, counted in the direction of a node. -/
def place (facade : Facade) (data : EdgeBasedNodeSegment) (node : NodeID) : ℕ :=
  if data.forward_segment_id.id = node then data.fwd_segment_position
  else (facade.weights node).length - data.fwd_segment_position - 1

/-- A phantom node lies on a part of the geometry of a node. -/
structure Located (facade : Facade) (phantom : PhantomNode) (node : NodeID) (k : ℕ) : Prop where
  direction : phantom.forward_segment_id.id = node ↔ (facade.GetGeometryIndex node).forward = true
  inside : k < (facade.weights node).length
  index : (if phantom.forward_segment_id.id = node then phantom.fwd_segment_position
    else (facade.weights node).length - phantom.fwd_segment_position - 1) = k
  offset : phantom.offsetOn node = ((facade.weights node).take k).sum
  nonneg : 0 ≤ phantom.weightOn node
  le : phantom.weightOn node ≤ (facade.weights node).getD k 0

variable {data source target : EdgeBasedNodeSegment} {ratio source_ratio target_ratio : Ratio} {node : NodeID} {k : ℕ}

private theorem located (positive : ∀ node, ∀ w ∈ facade.weights node, 1 ≤ w) (on : OnGeometry facade data)
    (oriented : Oriented facade data) (uses : Uses data node) :
    Located facade (MakePhantomNode facade data ratio) node (place facade data node) := by
  have part : ∀ (node : NodeID) (k : ℕ), k < (facade.weights node).length → 0 ≤ (facade.weights node).getD k 0 := by
    intro node k inside
    rw [getD_eq_getElem?_getD,getElem?_eq_getElem inside,Option.getD_some]
    exact zero_le_one.trans (positive node _ (getElem_mem inside))
  by_cases forward : data.forward_segment_id.id = node
  · subst forward
    have itself : (MakePhantomNode facade data ratio).forward_segment_id.id = data.forward_segment_id.id := rfl
    have forwards : (facade.GetGeometryIndex data.forward_segment_id.id).forward = true := oriented
    have weights : facade.weights data.forward_segment_id.id =
        facade.GetUncompressedForwardWeights (facade.GetGeometryIndex data.forward_segment_id.id).id := by
      rw [Facade.weights,get_segment_geometry,if_pos forwards]
    have here : place facade data data.forward_segment_id.id = data.fwd_segment_position := if_pos rfl
    have bound := part _ _ on.inside
    rw [here]
    refine ⟨iff_of_true rfl forwards,on.inside,if_pos rfl,?_,?_,?_⟩
    · rw [PhantomNode.offsetOn,if_pos itself,weights]
      rfl
    · rw [PhantomNode.weightOn,if_pos itself]
      simp only [MakePhantomNode]
      rw [← weights]
      split
      · exact ratio.nonneg _ bound
      · exact bound
    · rw [PhantomNode.weightOn,if_pos itself]
      simp only [MakePhantomNode]
      rw [← weights]
      split
      · exact ratio.le _ bound
      · exact le_rfl
  · obtain ⟨enabled,rfl⟩ := uses.resolve_left forward
    have other : ¬(MakePhantomNode facade data ratio).forward_segment_id.id = data.reverse_segment_id.id := forward
    have weights : facade.weights data.reverse_segment_id.id =
        facade.GetUncompressedReverseWeights (facade.GetGeometryIndex data.forward_segment_id.id).id := by
      rw [Facade.weights,get_segment_geometry,if_neg (by simp [on.reverse enabled]),on.same enabled]
    have here : place facade data data.reverse_segment_id.id =
        (facade.weights data.reverse_segment_id.id).length - data.fwd_segment_position - 1 := if_neg forward
    have inside : (facade.weights data.reverse_segment_id.id).length - data.fwd_segment_position - 1 <
        (facade.weights data.reverse_segment_id.id).length := by
      have := on.inside
      have := on.sizes enabled
      omega
    have bound := part _ _ inside
    rw [here]
    refine ⟨iff_of_false forward (by simp [on.reverse enabled]),inside,if_neg forward,?_,?_,?_⟩
    · rw [PhantomNode.offsetOn,if_neg other,weights]
      rfl
    · rw [PhantomNode.weightOn,if_neg other]
      simp only [MakePhantomNode]
      rw [← weights]
      split
      · exact sub_nonneg.mpr (ratio.le _ bound)
      · exact bound
    · rw [PhantomNode.weightOn,if_neg other]
      simp only [MakePhantomNode]
      rw [← weights]
      split
      · exact sub_le_self _ (ratio.nonneg _ bound)
      · exact le_rfl

variable {phantom : PhantomNode} {reversed : Bool}

private theorem Located.index_of (on : Located facade phantom node k)
    (reversed_eq : reversed = decide (¬phantom.forward_segment_id.id = node)) :
    (if reversed then (facade.weights node).length - phantom.fwd_segment_position - 1 else phantom.fwd_segment_position) = k := by
  rw [reversed_eq,← on.index]
  by_cases forward : phantom.forward_segment_id.id = node
  · simp [forward]
  · simp [forward]

private theorem weight_of (reversed_eq : reversed = decide (¬phantom.forward_segment_id.id = node)) :
    (if reversed then phantom.reverse_weight else phantom.forward_weight) = phantom.weightOn node := by
  rw [reversed_eq,PhantomNode.weightOn]
  by_cases forward : phantom.forward_segment_id.id = node
  · simp [forward]
  · simp [forward]

private theorem bne_eq (a b : NodeID) : (a != b) = decide (¬a = b) := by
  by_cases same : a = b
  · simp [same]
  · simp [same]

/-! ### Sums of entries -/

def entriesWeight (entries : List PathData) : EdgeWeight := (entries.map (·.weight_until_turn)).sum

@[simp]
theorem entriesWeight_append (entries more : List PathData) :
    entriesWeight (entries ++ more) = entriesWeight entries + entriesWeight more := by
  simp [entriesWeight]

variable {a b : ℕ}

private theorem getD_range' (weights : List EdgeWeight) (le : a ≤ b) (inside : b ≤ weights.length) :
    ((List.range' a (b - a)).map fun i => weights.getD i 0).sum = (weights.take b).sum - (weights.take a).sum := by
  have parts : (List.range' a (b - a)).map (fun i => weights.getD i 0) = (weights.drop a).take (b - a) := by
    apply ext_getElem
    · simp only [length_map,length_range',length_take,length_drop]
      omega
    · intro i short _
      simp only [length_map,length_range'] at short
      rw [getElem_map,getElem_range',getElem_take,getElem_drop,getD_eq_getElem?_getD,
        getElem?_eq_getElem (by omega),Option.getD_some]
      congr 1
      omega
  have split : weights.take b = weights.take a ++ (weights.drop a).take (b - a) := by
    rw [← take_add,Nat.add_sub_cancel' le]
  rw [parts,split,sum_append]
  ring

variable {geometry : SegmentGeometry}

private theorem entries_up (le : a ≤ b) (inside : b ≤ geometry.weight_vector.length) (via : ℕ → ℕ) :
    entriesWeight ((List.range' a (b - a)).map fun i => geometry.entry node i (via i)) =
      (geometry.weight_vector.take b).sum - (geometry.weight_vector.take a).sum := by
  rw [← getD_range' geometry.weight_vector le inside,entriesWeight,map_map]
  rfl

private theorem addTurn_spec (turn_id : EdgeID) {entries : List PathData} {front : PathData} {rest : List PathData}
    (shape : entries = front :: rest) (penalty : 0 ≤ facade.GetWeightPenaltyForEdgeID turn_id) :
    entriesWeight (addTurn facade turn_id entries) = entriesWeight entries + facade.GetWeightPenaltyForEdgeID turn_id ∧
      ∃ front' rest', addTurn facade turn_id entries = front' :: rest' ∧ front.weight_until_turn ≤ front'.weight_until_turn := by
  have filled : entries ≠ [] := by simp [shape]
  have last := getLast?_eq_some_getLast filled
  have whole : entries.dropLast ++ [entries.getLast filled] = entries := dropLast_append_getLast filled
  unfold addTurn
  rw [last]
  constructor
  · conv_rhs => rw [← whole]
    simp only [entriesWeight_append]
    simp only [entriesWeight,map_singleton,sum_singleton]
    ring
  · subst shape
    cases rest with
    | nil => exact ⟨_,[],rfl,le_add_of_nonneg_right penalty⟩
    | cons second rest => exact ⟨front,_,rfl,le_rfl⟩

private theorem annotateStep_spec {entries : List PathData} {step : NodeID × EdgeID}
    {start : ℕ} (begins : (if entries.isEmpty then
      (if reversed then (facade.weights step.1).length - phantom.fwd_segment_position - 1 else phantom.fwd_segment_position) % 2 ^ 16
      else 0) = start) (inside : start ≤ (facade.weights step.1).length) {front : PathData} {rest : List PathData}
    (shape : entries ++ ((List.range' start ((facade.weights step.1).length - start)).map fun i =>
      (get_segment_geometry facade (facade.GetGeometryIndex step.1)).entry step.1 i (i + 1)) = front :: rest)
    (penalty : 0 ≤ facade.GetWeightPenaltyForEdgeID (facade.turn_id step.2)) :
    entriesWeight (annotateStep facade phantom reversed entries step) =
        entriesWeight entries + stepsWeight facade [step] - ((facade.weights step.1).take start).sum ∧
      ∃ front' rest', annotateStep facade phantom reversed entries step = front' :: rest' ∧
        front.weight_until_turn ≤ front'.weight_until_turn := by
  have unfolded : annotateStep facade phantom reversed entries step = addTurn facade (facade.turn_id step.2)
      (entries ++ ((List.range' start ((facade.weights step.1).length - start)).map fun i =>
        (get_segment_geometry facade (facade.GetGeometryIndex step.1)).entry step.1 i (i + 1))) := by
    rw [← begins]
    rfl
  obtain ⟨sum,further⟩ := addTurn_spec (facade.turn_id step.2) shape penalty
  rw [unfolded]
  refine ⟨?_,further⟩
  have parts : entriesWeight ((List.range' start ((facade.weights step.1).length - start)).map fun i =>
      (get_segment_geometry facade (facade.GetGeometryIndex step.1)).entry step.1 i (i + 1)) =
      ((facade.weights step.1).take (facade.weights step.1).length).sum - ((facade.weights step.1).take start).sum :=
    entries_up inside le_rfl (· + 1)
  rw [sum,entriesWeight_append,parts,take_length]
  simp only [stepsWeight,map_singleton,sum_singleton]
  ring

private theorem annotateSteps_further
    (penalties : ∀ turn, 0 ≤ facade.GetWeightPenaltyForEdgeID turn) (steps : List (NodeID × EdgeID)) {entries : List PathData}
    {front : PathData} {rest : List PathData} (shape : entries = front :: rest) :
    entriesWeight (steps.foldl (annotateStep facade phantom reversed) entries) = entriesWeight entries + stepsWeight facade steps ∧
      ∃ front' rest', steps.foldl (annotateStep facade phantom reversed) entries = front' :: rest' ∧
        front.weight_until_turn ≤ front'.weight_until_turn := by
  induction steps generalizing entries front rest with
  | nil => exact ⟨by simp [stepsWeight],front,rest,shape,le_rfl⟩
  | cons step steps ih =>
    obtain ⟨sum,front',rest',shape',le⟩ := @annotateStep_spec facade phantom reversed entries step 0 (by simp [shape])
      (Nat.zero_le _) front _ (by rw [shape,cons_append]) (penalties _)
    obtain ⟨sum',front'',rest'',shape'',le'⟩ := ih shape'
    rw [foldl_cons]
    refine ⟨?_,front'',rest'',shape'',le.trans le'⟩
    rw [sum',sum]
    simp only [stepsWeight,map_cons,sum_cons,map_nil,sum_nil,take_zero]
    ring

private theorem annotateSteps_spec
    (penalties : ∀ turn, 0 ≤ facade.GetWeightPenaltyForEdgeID turn) {step : NodeID × EdgeID} (steps : List (NodeID × EdgeID))
    (reversed_eq : reversed = decide (¬phantom.forward_segment_id.id = step.1)) (on : Located facade phantom step.1 k) :
    entriesWeight ((step :: steps).foldl (annotateStep facade phantom reversed) []) =
        stepsWeight facade (step :: steps) - ((facade.weights step.1).take (k % 2 ^ 16)).sum ∧
      ∃ front rest, (step :: steps).foldl (annotateStep facade phantom reversed) [] = front :: rest ∧
        (facade.weights step.1).getD (k % 2 ^ 16) 0 ≤ front.weight_until_turn := by
  have inside : k % 2 ^ 16 < (facade.weights step.1).length := (Nat.mod_le _ _).trans_lt on.inside
  have begins := congrArg (· % 2 ^ 16) (on.index_of reversed_eq)
  obtain ⟨size,more⟩ : ∃ size, (facade.weights step.1).length - k % 2 ^ 16 = size + 1 :=
    ⟨(facade.weights step.1).length - k % 2 ^ 16 - 1,by omega⟩
  obtain ⟨sum,front,rest,shape,le⟩ := @annotateStep_spec facade phantom reversed [] step (k % 2 ^ 16) begins inside.le _ _
    (by rw [nil_append,more,range'_succ,map_cons]) (penalties _)
  obtain ⟨sum',front',rest',shape',le'⟩ := annotateSteps_further penalties steps shape
  rw [foldl_cons]
  refine ⟨?_,front',rest',shape',le.trans le'⟩
  rw [sum',sum]
  simp only [stepsWeight,entriesWeight,map_cons,sum_cons,map_nil,sum_nil]
  ring

private theorem adjustFirst_weight (source_weight : EdgeWeight) (source_duration : EdgeDuration) (front : PathData)
    (rest : List PathData) :
    entriesWeight (adjustFirst source_weight source_duration (front :: rest)) =
      entriesWeight (front :: rest) - min source_weight front.weight_until_turn := by
  simp only [entriesWeight,adjustFirst,map_cons,sum_cons]
  rcases le_total source_weight front.weight_until_turn with le | le
  · rw [max_eq_left (sub_nonneg.mpr le),min_eq_left le]
    ring
  · rw [max_eq_right (sub_nonpos.mpr le),min_eq_right le]
    ring

private theorem entries_down (le : b ≤ a) (inside : a < geometry.weight_vector.length) (via : ℕ → ℕ) :
    entriesWeight ((List.range (a - b)).map fun i => geometry.entry node (a - i) (via i)) =
      (geometry.weight_vector.take (a + 1)).sum - (geometry.weight_vector.take (b + 1)).sum := by
  have backwards : (List.range (a - b)).map (a - ·) = (List.range' (b + 1) (a + 1 - (b + 1))).reverse := by
    rw [reverse_range',Nat.add_sub_add_right]
    apply map_congr_left
    intro i within
    have := mem_range.mp within
    omega
  rw [← getD_range' geometry.weight_vector (Nat.succ_le_succ le) inside,← sum_reverse,← map_reverse,← backwards,
    entriesWeight,map_map,map_map]
  rfl

private theorem take_sum_lt {weights : List EdgeWeight} (positive : ∀ w ∈ weights, 1 ≤ w) (lt : a < b)
    (inside : b ≤ weights.length) : (weights.take a).sum < (weights.take b).sum := by
  induction b with
  | zero => omega
  | succ b ih =>
    have here : b < weights.length := inside
    have step : (weights.take (b + 1)).sum = (weights.take b).sum + weights[b] := sum_take_succ weights b here
    have part := positive _ (getElem_mem here)
    rcases Nat.lt_succ_iff_lt_or_eq.mp lt with before | rfl
    · have := ih before here.le
      lia
    · lia

/-! ### The reported weight -/

variable {source_phantom target_phantom : PhantomNode}

private theorem assembledWeight_entries {target_reversed : Bool}
    {source_weight : EdgeWeight} {source_duration : EdgeDuration} {entries : List PathData} {front : PathData} {rest : List PathData}
    (reversed_eq : target_reversed = (target_phantom.forward_segment_id.id != node)) (shape : entries = front :: rest) :
    assembledWeight (adjustFirst source_weight source_duration entries) source_phantom target_phantom target_reversed =
      entriesWeight entries - min source_weight front.weight_until_turn + target_phantom.weightOn node := by
  have weight := adjustFirst_weight source_weight source_duration front rest
  subst shape
  rw [← weight,reversed_eq]
  unfold assembledWeight PhantomNode.weightOn
  by_cases forward : target_phantom.forward_segment_id.id = node
  · simp [forward,adjustFirst,entriesWeight]
  · simp [forward,adjustFirst,entriesWeight]

private theorem lastEntries_up (le : a ≤ b) (inside : b ≤ geometry.weight_vector.length) :
    entriesWeight (lastEntries geometry node a b) = (geometry.weight_vector.take b).sum - (geometry.weight_vector.take a).sum := by
  unfold lastEntries
  split
  · exact entries_up le inside (· + 1)
  · obtain rfl : a = b := by omega
    simp [entriesWeight]

private theorem lastEntries_front (geometry : SegmentGeometry) (node : NodeID) (ne : a ≠ b) :
    ∃ front rest, lastEntries geometry node a b = front :: rest ∧ front.weight_until_turn = geometry.weight_vector.getD a 0 := by
  unfold lastEntries
  split
  · obtain ⟨size,more⟩ : ∃ size, b - a = size + 1 := ⟨b - a - 1,by omega⟩
    rw [more,range'_succ,map_cons]
    exact ⟨_,_,rfl,rfl⟩
  · obtain ⟨size,more⟩ : ∃ size, a - b = size + 1 := ⟨a - b - 1,by omega⟩
    rw [more,range_succ_eq_map,map_cons]
    exact ⟨_,_,rfl,rfl⟩

/-- A path with turns is reported with its weight if sixteen bits hold the source's part, else from an earlier part. -/
private theorem annotated_turns {first last : NodeID} {edge : EdgeID}
    {nodes : List NodeID} {edges : List EdgeID} {ks kt : ℕ} (positive : ∀ w ∈ facade.weights first, 1 ≤ w)
    (penalties : ∀ turn, 0 ≤ facade.GetWeightPenaltyForEdgeID turn) (last_eq : (first :: nodes).getLastD 0 = last) (begins : Located facade source_phantom first ks)
    (ends : Located facade target_phantom last kt) :
    assembledWeight (annotatePath facade source_phantom target_phantom (first :: nodes) (edge :: edges)) source_phantom target_phantom
        (target_phantom.forward_segment_id.id != last) =
      pathWeight facade source_phantom target_phantom (first :: nodes) (edge :: edges) ↔ ks < 2 ^ 16 := by
  have from_step : Located facade source_phantom (first,edge).1 ks := begins
  obtain ⟨sum,front,rest,shape,le⟩ := annotateSteps_spec penalties (nodes.zip edges) (bne_eq _ _) from_step
  have unfolded : ∃ duration, annotatePath facade source_phantom target_phantom (first :: nodes) (edge :: edges) =
      adjustFirst (source_phantom.weightOn first) duration ((front :: rest) ++
        lastEntries (get_segment_geometry facade (facade.GetGeometryIndex last)) last 0 kt) := by
    rw [← shape,← weight_of (bne_eq _ first)]
    conv_rhs => rw [← ends.index_of (bne_eq _ last)]
    unfold annotatePath
    rw [last_eq]
    simp only [headD_cons,zip_cons_cons,shape,isEmpty_cons,Bool.and_false]
    exact ⟨_,rfl⟩
  obtain ⟨duration,unfolded⟩ := unfolded
  have up : entriesWeight (lastEntries (get_segment_geometry facade (facade.GetGeometryIndex last)) last 0 kt) =
      ((facade.weights last).take kt).sum - ((facade.weights last).take 0).sum := lastEntries_up (Nat.zero_le _) ends.inside.le
  rw [unfolded,assembledWeight_entries rfl (cons_append ..),entriesWeight_append,← shape,sum,up,← ends.offset]
  simp only [pathWeight,headD_cons,last_eq,zip_cons_cons,take_zero,sum_nil,begins.offset]
  by_cases fits : ks < 2 ^ 16
  · refine iff_of_true ?_ fits
    rw [Nat.mod_eq_of_lt fits] at le ⊢
    rw [min_eq_left (begins.le.trans le)]
    ring
  · refine iff_of_false ?_ fits
    have earlier : ks % 2 ^ 16 < ks := (Nat.mod_lt _ (Nat.two_pow_pos 16)).trans_le (not_lt.mp fits)
    have taken := take_sum_lt positive earlier begins.inside.le
    have cut := min_le_left (source_phantom.weightOn first) front.weight_until_turn
    lia

/-- A path on one node is reported with its weight if the target's part is not before the source's one. -/
private theorem annotated_local {ks kt : ℕ}
    (positive : ∀ w ∈ facade.weights node, 1 ≤ w) (begins : Located facade source_phantom node ks)
    (ends : Located facade target_phantom node kt) :
    assembledWeight (annotatePath facade source_phantom target_phantom [node] []) source_phantom target_phantom
        (target_phantom.forward_segment_id.id != node) = pathWeight facade source_phantom target_phantom [node] [] ↔ ¬kt < ks := by
  have same : (target_phantom.forward_segment_id.id != node) = (source_phantom.forward_segment_id.id != node) := by
    rw [bne_eq,bne_eq]
    exact decide_eq_decide.mpr (not_congr (ends.direction.trans begins.direction.symm))
  have unfolded : ∃ duration, annotatePath facade source_phantom target_phantom [node] [] =
      adjustFirst (source_phantom.weightOn node) duration
        (lastEntries (get_segment_geometry facade (facade.GetGeometryIndex node)) node ks kt) := by
    rw [← weight_of (bne_eq _ node)]
    conv_rhs => rw [← ends.index_of (bne_eq _ node),← begins.index_of (bne_eq _ node)]
    unfold annotatePath
    simp only [headD_cons,getLastD_cons,getLastD_nil,zip_nil_right,foldl_nil,isEmpty_nil,
      beq_self_eq_true,Bool.and_true,if_true,nil_append,same]
    exact ⟨_,rfl⟩
  obtain ⟨duration,unfolded⟩ := unfolded
  have searched : pathWeight facade source_phantom target_phantom [node] [] =
      (target_phantom.weightOn node + ((facade.weights node).take kt).sum) -
        (source_phantom.weightOn node + ((facade.weights node).take ks).sum) := by
    simp only [pathWeight,headD_cons,getLastD_cons,getLastD_nil,zip_nil_right,stepsWeight,map_nil,
      sum_nil,begins.offset,ends.offset]
    ring
  rw [unfolded,searched]
  rcases lt_trichotomy ks kt with before | rfl | after
  · refine iff_of_true ?_ before.le.not_gt
    have up : entriesWeight (lastEntries (get_segment_geometry facade (facade.GetGeometryIndex node)) node ks kt) =
      ((facade.weights node).take kt).sum - ((facade.weights node).take ks).sum := lastEntries_up before.le ends.inside.le
    obtain ⟨front,rest,shape,weight⟩ := lastEntries_front (get_segment_geometry facade (facade.GetGeometryIndex node)) node before.ne
    rw [assembledWeight_entries rfl shape,min_eq_left (begins.le.trans_eq weight.symm),up]
    ring
  · refine iff_of_true ?_ (lt_irrefl _)
    have none : lastEntries (get_segment_geometry facade (facade.GetGeometryIndex node)) node ks ks = [] := by simp [lastEntries]
    rw [none,adjustFirst,assembledWeight,same,weight_of (bne_eq _ node),← same,weight_of (bne_eq _ node)]
    simp
  · refine iff_of_false ?_ (not_not.mpr after)
    have down : entriesWeight (lastEntries (get_segment_geometry facade (facade.GetGeometryIndex node)) node ks kt) =
        ((facade.weights node).take (ks + 1)).sum - ((facade.weights node).take (kt + 1)).sum := by
      rw [lastEntries,if_neg after.not_gt]
      exact entries_down after.le begins.inside _
    obtain ⟨front,rest,shape,weight⟩ := lastEntries_front (get_segment_geometry facade (facade.GetGeometryIndex node)) node after.ne'
    have taken := take_sum_lt positive after begins.inside.le
    have added := take_sum_lt positive (Nat.succ_lt_succ after) begins.inside
    rw [assembledWeight_entries rfl shape,min_eq_left (begins.le.trans_eq weight.symm),down]
    simp only [Nat.succ_eq_add_one] at added
    lia

/-- The weight that is reported for a path is the weight with which the search accepts it. -/
def AddsUp (facade : Facade) (source_phantom target_phantom : PhantomNode) (unpacked_nodes : List NodeID)
    (unpacked_edges : List EdgeID) : Prop :=
  assembledWeight (annotatePath facade source_phantom target_phantom unpacked_nodes unpacked_edges) source_phantom target_phantom
    (target_phantom.forward_segment_id.id != unpacked_nodes.getLastD 0) =
      pathWeight facade source_phantom target_phantom unpacked_nodes unpacked_edges

instance (facade : Facade) (source_phantom target_phantom : PhantomNode) (unpacked_nodes : List NodeID)
    (unpacked_edges : List EdgeID) : Decidable (AddsUp facade source_phantom target_phantom unpacked_nodes unpacked_edges) :=
  inferInstanceAs (Decidable (_ = _))

/-- The path turns, and sixteen bits hold the source's part, or the target's part does not come earlier on the node. -/
def GoesOn (facade : Facade) (source target : EdgeBasedNodeSegment) (unpacked_nodes : List NodeID) : Prop :=
  if unpacked_nodes.length = 1 then
    place facade source (unpacked_nodes.headD 0) ≤ place facade target (unpacked_nodes.getLastD 0)
  else place facade source (unpacked_nodes.headD 0) < 2 ^ 16

/-- A path between two segments: it begins on a node of the first one and ends on a node of the second one. -/
structure Between (facade : Facade) (source target : EdgeBasedNodeSegment) (unpacked_nodes : List NodeID)
    (unpacked_edges : List EdgeID) : Prop where
  size : unpacked_nodes.length = unpacked_edges.length + 1
  source : OnGeometry facade source ∧ Uses source (unpacked_nodes.headD 0)
  target : OnGeometry facade target ∧ Uses target (unpacked_nodes.getLastD 0)

/-- The reported weight adds up exactly for paths that go on. -/
theorem annotated_weight_iff (positive : ∀ node, ∀ w ∈ facade.weights node, 1 ≤ w)
    (penalties : ∀ turn, 0 ≤ facade.GetWeightPenaltyForEdgeID turn) {unpacked_nodes : List NodeID} {unpacked_edges : List EdgeID}
    (path : Between facade source target unpacked_nodes unpacked_edges) (source_ratio target_ratio : Ratio) :
    (Oriented facade source ∧ Oriented facade target ∧ GoesOn facade source target unpacked_nodes →
        AddsUp facade (MakePhantomNode facade source source_ratio) (MakePhantomNode facade target target_ratio) unpacked_nodes
          unpacked_edges) ∧
      (Oriented facade source → Oriented facade target →
        AddsUp facade (MakePhantomNode facade source source_ratio) (MakePhantomNode facade target target_ratio) unpacked_nodes
          unpacked_edges → GoesOn facade source target unpacked_nodes) := by
  have exactly : Oriented facade source → Oriented facade target →
      (AddsUp facade (MakePhantomNode facade source source_ratio) (MakePhantomNode facade target target_ratio) unpacked_nodes
        unpacked_edges ↔ GoesOn facade source target unpacked_nodes) := by
    intro from_oriented to_oriented
    have begins := @located _ _ source_ratio _ positive path.source.1 from_oriented path.source.2
    have ends := @located _ _ target_ratio _ positive path.target.1 to_oriented path.target.2
    have size := path.size
    cases unpacked_nodes with
    | nil => simp at size
    | cons first nodes =>
      cases unpacked_edges with
      | nil =>
        obtain rfl : nodes = [] := by simpa using size
        rw [GoesOn,if_pos length_singleton,← not_lt]
        exact annotated_local (positive _) begins ends
      | cons edge edges =>
        have turns : ¬(first :: nodes).length = 1 := by
          rw [size,length_cons]
          omega
        rw [GoesOn,if_neg turns]
        exact annotated_turns (positive _) penalties rfl begins ends
  constructor
  · rintro ⟨from_oriented,to_oriented,on⟩
    exact (exactly from_oriented to_oriented).mpr on
  · intro from_oriented to_oriented adds_up
    exact (exactly from_oriented to_oriented).mp adds_up

/-- A street of two parts that takes longer one way, a copy of it the other way and a street that turns off. -/
def twoParts : Facade where
  GetGeometryIndex node :=
    if node = 0 then ⟨0,true⟩ else if node = 1 then ⟨0,false⟩ else if node = 2 then ⟨0,false⟩ else ⟨1,true⟩
  GetUncompressedForwardGeometry id := if id = 0 then [0,1,2] else [2,3]
  GetUncompressedReverseGeometry id := if id = 0 then [2,1,0] else [3,2]
  GetUncompressedForwardWeights id := if id = 0 then [3,4] else [5]
  GetUncompressedReverseWeights id := if id = 0 then [4,3] else [5]
  GetUncompressedForwardDurations id := if id = 0 then [3,4] else [5]
  GetUncompressedReverseDurations id := if id = 0 then [4,3] else [5]
  GetUncompressedForwardDatasources id := if id = 0 then [0,0] else [0]
  GetUncompressedReverseDatasources id := if id = 0 then [0,0] else [0]
  turn_id edge := edge
  GetWeightPenaltyForEdgeID _ := 2
  GetDurationPenaltyForEdgeID _ := 2

def firstPart : EdgeBasedNodeSegment := ⟨⟨0,true⟩,⟨1,true⟩,0,1,0,true⟩
def secondPart : EdgeBasedNodeSegment := ⟨⟨0,true⟩,⟨1,true⟩,1,2,1,true⟩
def firstCopied : EdgeBasedNodeSegment := ⟨⟨2,true⟩,⟨SPECIAL_SEGMENTID,false⟩,2,1,0,true⟩
def secondCopied : EdgeBasedNodeSegment := ⟨⟨2,true⟩,⟨SPECIAL_SEGMENTID,false⟩,1,0,1,true⟩
def turnedOff : EdgeBasedNodeSegment := ⟨⟨3,true⟩,⟨SPECIAL_SEGMENTID,false⟩,2,3,0,true⟩

def beginning : Ratio := .ofRat 0 le_rfl zero_le_one
def ending : Ratio := .ofRat 1 zero_le_one le_rfl

private theorem twoParts_positive : ∀ node, ∀ w ∈ twoParts.weights node, 1 ≤ w := by
  intro node
  by_cases zero : node = 0
  · subst zero
    decide
  · by_cases one : node = 1
    · subst one
      decide
    · by_cases two : node = 2
      · subst two
        decide
      · have weights : twoParts.weights node = [5] := by
          simp [Facade.weights,get_segment_geometry,twoParts,zero,one,two]
        rw [weights]
        decide

private theorem twoParts_penalties (turn : EdgeID) : 0 ≤ twoParts.GetWeightPenaltyForEdgeID turn := zero_le_two
private theorem twoParts_secondPart : OnGeometry twoParts secondPart := ⟨by decide,by decide,by decide,by decide⟩

theorem annotated_weight_twoParts :
    AddsUp twoParts (MakePhantomNode twoParts secondPart beginning) (MakePhantomNode twoParts turnedOff ending) [0,3] [0] :=
  (annotated_weight_iff twoParts_positive twoParts_penalties
    ⟨rfl,⟨twoParts_secondPart,Or.inl rfl⟩,⟨⟨by decide,by decide,by decide,by decide⟩,Or.inl rfl⟩⟩ beginning ending).1
    ⟨by decide,by decide,by unfold GoesOn; decide⟩

/-- From the joint of two parts to itself, placed on the second and the first part, and along the copy. -/
theorem annotated_weight_joint :
    (Between twoParts secondPart firstPart [0] [] ∧
      pathWeight twoParts (MakePhantomNode twoParts secondPart beginning) (MakePhantomNode twoParts firstPart ending) [0] [] = 0 ∧
      ¬AddsUp twoParts (MakePhantomNode twoParts secondPart beginning) (MakePhantomNode twoParts firstPart ending) [0] []) ∧
    (Between twoParts firstCopied secondCopied [2] [] ∧
      pathWeight twoParts (MakePhantomNode twoParts firstCopied beginning) (MakePhantomNode twoParts secondCopied beginning)
        [2] [] = 3 ∧
      ¬AddsUp twoParts (MakePhantomNode twoParts firstCopied beginning) (MakePhantomNode twoParts secondCopied beginning)
        [2] []) := by
  constructor
  · refine ⟨⟨rfl,⟨twoParts_secondPart,Or.inl rfl⟩,⟨⟨by decide,by decide,by decide,by decide⟩,Or.inl rfl⟩⟩,?_⟩
    decide +kernel
  · refine ⟨⟨rfl,⟨⟨by decide,by decide,by decide,by decide⟩,Or.inl rfl⟩,⟨⟨by decide,by decide,by decide,by decide⟩,Or.inl rfl⟩⟩,?_⟩
    decide +kernel

end Osrm.Annotation
