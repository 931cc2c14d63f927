import Osrm.EdgeBasedGraph
import Osrm.Loops

/-!
`Updater::LoadAndUpdateEdgeExpandedGraph`. Speeds of segments and penalties of turns are replaced by those of a
traffic update; the edges that start in a geometry that was touched are then weighed again.
-/
namespace Osrm.Updater
open List Option
open Typedefs EdgeBasedGraph Loops

abbrev OSMNodeID := ℕ
abbrev SegmentWeight := ℤ
abbrev SegmentDuration := ℤ
abbrev TurnPenalty := ℤ

def INVALID_SEGMENT_WEIGHT : SegmentWeight := 2 ^ 22 - 1
def INVALID_SEGMENT_DURATION : SegmentDuration := 2 ^ 22 - 1
def MAX_SEGMENT_WEIGHT : SegmentWeight := INVALID_SEGMENT_WEIGHT - 1
def MAX_SEGMENT_DURATION : SegmentDuration := INVALID_SEGMENT_DURATION - 1
def INVALID_TURN_PENALTY : TurnPenalty := 2 ^ 15 - 1

/-- `std::round`; halves are rounded away from zero. -/
def round (x : ℚ) : ℤ := if 0 ≤ x then ⌊x + 1 / 2⌋ else ⌈x - 1 / 2⌉
/-- `boost::numeric_cast` to the unsigned 32-bit numbers, which throws outside of their range. -/
def castSegment (x : ℤ) : Option ℤ := if 0 ≤ x ∧ x < 2 ^ 32 then some x else none
/-- `boost::numeric_cast` to the signed 16-bit numbers. -/
def castTurn (x : ℤ) : Option ℤ := if -2 ^ 15 ≤ x ∧ x < 2 ^ 15 then some x else none
/-- `alias_cast<TurnPenalty>`, which keeps the lowest 16 bits. -/
def wrapTurn (x : ℤ) : TurnPenalty := x.bmod (2 ^ 16)

/-- `SpeedSource`; a rate that is not a finite number is `some none`. -/
structure SpeedSource where
  speed : ℚ
  rate : Option (Option ℚ)

def convertToDuration (speed_in_kmh distance_in_meters : ℚ) : Option SegmentDuration :=
  if speed_in_kmh ≤ 0 then some INVALID_SEGMENT_DURATION
  else (castSegment (round (distance_in_meters / (speed_in_kmh / (36 / 10)) * 10))).map fun duration =>
    if max 1 duration ≥ INVALID_SEGMENT_DURATION then MAX_SEGMENT_DURATION else max 1 duration

/-- The weight that `convertToWeight` computes from a rate. -/
def weightAtRate (weight_multiplier rate distance_in_meters : ℚ) : Option SegmentWeight :=
  if rate ≤ 0 then some INVALID_SEGMENT_WEIGHT
  else (castSegment (round (distance_in_meters / rate * weight_multiplier))).map fun weight =>
    if max 1 weight ≥ INVALID_SEGMENT_WEIGHT then MAX_SEGMENT_WEIGHT else max 1 weight

def convertToWeight (weight_multiplier : ℚ) (existing_weight : SegmentWeight) (value : SpeedSource)
    (distance_in_meters : ℚ) : Option SegmentWeight :=
  match value.rate with
  | none => weightAtRate weight_multiplier (value.speed / (36 / 10)) distance_in_meters
  | some none => some existing_weight
  | some (some rate) => weightAtRate weight_multiplier rate distance_in_meters

/-- A geometry of the `SegmentDataContainer`; reverse values in the order of the nodes. -/
structure Geometry where
  nodes : List NodeID
  fwd_weights : List SegmentWeight
  rev_weights : List SegmentWeight
  fwd_durations : List SegmentDuration
  rev_durations : List SegmentDuration
  deriving Inhabited, DecidableEq

/-- The weights of a direction from its start. -/
def Geometry.weights (geometry : Geometry) (forward : Bool) : List SegmentWeight :=
  if forward then geometry.fwd_weights else geometry.rev_weights.reverse
def Geometry.durations (geometry : Geometry) (forward : Bool) : List SegmentDuration :=
  if forward then geometry.fwd_durations else geometry.rev_durations.reverse

structure GeometryID where
  id : ℕ
  forward : Bool
  deriving DecidableEq

section segments
variable (weight_multiplier : ℚ) (osm_node_ids : NodeID → OSMNodeID) (length : NodeID → NodeID → ℚ)

/-- The loop over the segments of a direction; `value` looks up speeds, and the flag says whether one was updated. -/
def updateSegments (value : NodeID → NodeID → Option SpeedSource) :
    List NodeID → List SegmentWeight → List SegmentDuration → Option (List SegmentWeight × List SegmentDuration × Bool)
  | u :: v :: nodes, weight :: weights, duration :: durations => do
    let (weights,durations,was_updated) ← updateSegments value (v :: nodes) weights durations
    -- artificial segments lead from a node to itself and keep their values
    if osm_node_ids u == osm_node_ids v then some (weight :: weights,duration :: durations,was_updated)
    else match value u v with
      | none => some (weight :: weights,duration :: durations,was_updated)
      | some value => do
        let new_duration ← convertToDuration value.speed (length u v)
        let new_weight ← convertToWeight weight_multiplier weight value (length u v)
        some (new_weight :: weights,new_duration :: durations,true)
  | _, weights, durations => some (weights,durations,false)

/-- Both directions of a geometry, and which of them were updated. -/
def updateGeometry (segment_speed_lookup : OSMNodeID → OSMNodeID → Option SpeedSource) (geometry : Geometry) :
    Option (Geometry × Bool × Bool) := do
  let (fwd_weights,fwd_durations,fwd_was_updated) ← updateSegments weight_multiplier osm_node_ids length
    (fun u v => segment_speed_lookup (osm_node_ids u) (osm_node_ids v)) geometry.nodes geometry.fwd_weights
    geometry.fwd_durations
  let (rev_weights,rev_durations,rev_was_updated) ← updateSegments weight_multiplier osm_node_ids length
    (fun u v => segment_speed_lookup (osm_node_ids v) (osm_node_ids u)) geometry.nodes geometry.rev_weights
    geometry.rev_durations
  some (⟨geometry.nodes,fwd_weights,rev_weights,fwd_durations,rev_durations⟩,fwd_was_updated,rev_was_updated)

/-- `updateSegmentData`: the new segments and the geometries that were touched. -/
def updateSegmentData (segment_speed_lookup : OSMNodeID → OSMNodeID → Option SpeedSource) (segment_data : List Geometry) :
    Option (List Geometry × List GeometryID) := do
  let updates ← segment_data.mapM (updateGeometry weight_multiplier osm_node_ids length segment_speed_lookup)
  some (updates.map (·.1),updates.zipIdx.flatMap fun ((_,fwd_was_updated,rev_was_updated),id) =>
    (if fwd_was_updated then [⟨id,true⟩] else []) ++ if rev_was_updated then [⟨id,false⟩] else [])

end segments

structure Turn where
  fromNode : OSMNodeID
  viaNode : OSMNodeID
  toNode : OSMNodeID
  deriving DecidableEq

/-- `PenaltySource`; a weight that is not a finite number is `none`. -/
structure PenaltySource where
  duration : ℚ
  weight : Option ℚ

/-- The penalties of a turn for a value of the update: its weight and its duration. -/
def convertPenalty (weight_multiplier : ℚ) (value : PenaltySource) : Option (TurnPenalty × TurnPenalty) := do
  let turn_duration_penalty ← castTurn (round (value.duration * 10))
  let turn_weight_penalty ← castTurn (round (match value.weight with
    | some weight => weight * weight_multiplier
    | none => turn_duration_penalty * weight_multiplier / 10))
  some (turn_weight_penalty,turn_duration_penalty)

/-- The penalties of all turns and the turns that were updated. -/
structure Penalties where
  turn_weight_penalties : List TurnPenalty
  turn_duration_penalties : List TurnPenalty
  updated_turns : List ℕ

/-- `updateTurnPenalties`; the penalties and the turns are found by the index of an edge. -/
def updateTurnPenalties (weight_multiplier : ℚ) (turn_index : ℕ → Turn) (turn_penalty_lookup : Turn → Option PenaltySource)
    (turn_weight_penalties turn_duration_penalties : List TurnPenalty) : Option Penalties :=
  (List.range turn_weight_penalties.length).foldlM (fun penalties edge_index =>
    match turn_penalty_lookup (turn_index edge_index) with
    | none => some penalties
    | some value => (convertPenalty weight_multiplier value).map fun (weight,duration) =>
      ⟨penalties.turn_weight_penalties.set edge_index weight,penalties.turn_duration_penalties.set edge_index duration,
        penalties.updated_turns ++ [edge_index]⟩) ⟨turn_weight_penalties,turn_duration_penalties,[]⟩

structure ConditionalTurnPenalty where
  turn_offset : ℕ

/-- `updateConditionalTurns`; whether a restriction is valid depends on the time and the place. -/
def updateConditionalTurns (IsRestrictionValid : ConditionalTurnPenalty → Bool)
    (conditional_turns : List ConditionalTurnPenalty) (turn_weight_penalties : List TurnPenalty) :
    List TurnPenalty × List ℕ :=
  conditional_turns.foldl (fun (penalties,updated_turns) penalty =>
    if IsRestrictionValid penalty then (penalties.set penalty.turn_offset INVALID_TURN_PENALTY,
      updated_turns ++ [penalty.turn_offset])
    else (penalties,updated_turns)) (turn_weight_penalties,[])

/-! ### The update -/

/-- The weight of a node; the highest bit of the 32-bit number is a flag of its own. -/
structure NodeWeight where
  flag : Bool
  weight : EdgeWeight
  deriving DecidableEq

/-- What the updater reads. The turns are numbered by the edges, as the extractor leaves them. -/
structure Files where
  edge_based_edge_list : List EdgeBasedEdge
  node_weights : NodeID → NodeWeight
  node_durations : NodeID → EdgeDuration
  segment_data : List Geometry
  GetGeometryID : NodeID → GeometryID
  turn_weight_penalties : List TurnPenalty
  turn_duration_penalties : List TurnPenalty
  turn_index : ℕ → Turn
  osm_node_ids : NodeID → OSMNodeID
  length : NodeID → NodeID → ℚ
  weight_multiplier : ℚ
  numbered : ∀ i (edge : EdgeBasedEdge), edge_based_edge_list[i]? = some edge → edge.data.turn_id = i
  sized : turn_weight_penalties.length = edge_based_edge_list.length

/-- The updates; each of the three kinds may be missing. -/
structure UpdaterConfig where
  segment_speed_lookup : Option (OSMNodeID → OSMNodeID → Option SpeedSource)
  turn_penalty_lookup : Option (Turn → Option PenaltySource)
  conditional_turns : Option ((ConditionalTurnPenalty → Bool) × List ConditionalTurnPenalty)

/-- What is known once the segments and the turns are updated. -/
structure Prepared where
  segment_data : List Geometry
  turn_weight_penalties : List TurnPenalty
  turn_duration_penalties : List TurnPenalty
  updated_segments : List GeometryID

def turnGeometries (files : Files) (updated_turns : List ℕ) : List GeometryID :=
  updated_turns.filterMap fun turn_id =>
    files.edge_based_edge_list[turn_id]?.map fun edge => files.GetGeometryID edge.source

def UpdaterConfig.segments (config : UpdaterConfig) (files : Files) : Option (List Geometry × List GeometryID) :=
  match config.segment_speed_lookup with
  | none => some (files.segment_data,[])
  | some segment_speed_lookup =>
    updateSegmentData files.weight_multiplier files.osm_node_ids files.length segment_speed_lookup files.segment_data

def UpdaterConfig.turns (config : UpdaterConfig) (files : Files) : Option Penalties :=
  match config.turn_penalty_lookup with
  | none => some ⟨files.turn_weight_penalties,files.turn_duration_penalties,[]⟩
  | some turn_penalty_lookup => updateTurnPenalties files.weight_multiplier files.turn_index turn_penalty_lookup
      files.turn_weight_penalties files.turn_duration_penalties

def UpdaterConfig.conditionals (config : UpdaterConfig) (turn_weight_penalties : List TurnPenalty) :
    List TurnPenalty × List ℕ :=
  match config.conditional_turns with
  | none => (turn_weight_penalties,[])
  | some (IsRestrictionValid,conditional_turns) =>
    updateConditionalTurns IsRestrictionValid conditional_turns turn_weight_penalties

/-- The part of `LoadAndUpdateEdgeExpandedGraph` before the loop over the edges; `none` where a value is out of range. -/
def prepare (config : UpdaterConfig) (files : Files) : Option Prepared := do
  let (segment_data,updated_segments) ← config.segments files
  let penalties ← config.turns files
  let conditional := config.conditionals penalties.turn_weight_penalties
  some ⟨segment_data,conditional.1,penalties.turn_duration_penalties,
    updated_segments ++ turnGeometries files penalties.updated_turns ++ turnGeometries files conditional.2⟩

/-- The sum of the weights of the segments, given up at the first one that is closed. -/
def accumulateWeights (new_weight : EdgeWeight) : List SegmentWeight → Option EdgeWeight
  | [] => some new_weight
  | weight :: weights =>
    if weight == INVALID_SEGMENT_WEIGHT then some INVALID_EDGE_WEIGHT
    else do accumulateWeights (← add32 new_weight weight) weights

/-- `compute_new_weight_and_duration`; the durations are added as unsigned numbers. -/
def computeNewWeightAndDuration (segment_data : List Geometry) (geometry_id : GeometryID) : Option (EdgeWeight × EdgeDuration) := do
  let geometry := segment_data.getD geometry_id.id default
  let new_weight ← accumulateWeights 0 (geometry.weights geometry_id.forward)
  some (new_weight,wrap32 (geometry.durations geometry_id.forward).sum)

structure EdgeExpandedGraph where
  edge_based_edge_list : List EdgeBasedEdge
  node_weights : NodeID → NodeWeight
  node_durations : NodeID → EdgeDuration
  turn_weight_penalties : List TurnPenalty

/-- The clamping of `update_edge`: the penalty of the turn and the weight that is added to it. -/
def clamp (new_weight weight_min_value : EdgeWeight) (turn_weight_penalty : TurnPenalty) : Option (TurnPenalty × EdgeWeight) := do
  let sum ← add32 turn_weight_penalty new_weight
  if sum < weight_min_value then
    if turn_weight_penalty < 0 then
      let difference ← add32 weight_min_value (-new_weight)
      some (wrapTurn difference,new_weight)
    else some (turn_weight_penalty,weight_min_value)
  else some (turn_weight_penalty,new_weight)

/-- The end of `update_edge`: the penalty, the weight and the duration, a field of 30 bits, that an edge gets. -/
def reweighEdge (new_weight weight_min_value : EdgeWeight) (new_duration old_duration : EdgeDuration)
    (turn_weight_penalty turn_duration_penalty : TurnPenalty) : Option (TurnPenalty × EdgeWeight × EdgeDuration) :=
  if new_weight == INVALID_EDGE_WEIGHT then some (turn_weight_penalty,INVALID_EDGE_WEIGHT,old_duration)
  else do
    let (turn_weight_penalty,new_weight) ← clamp new_weight weight_min_value turn_weight_penalty
    let weight ← add32 new_weight turn_weight_penalty
    let duration ← add32 new_duration turn_duration_penalty
    some (turn_weight_penalty,weight,duration.bmod (2 ^ 30))

/-- `update_edge`, which finds a touched geometry with the sums that were computed for it. -/
def updateEdge (files : Files) (prepared : Prepared) (graph : EdgeExpandedGraph) (index : ℕ) :
    Option EdgeExpandedGraph :=
  match graph.edge_based_edge_list[index]? with
  | none => some graph
  | some edge =>
    let geometry_id := files.GetGeometryID edge.source
    if geometry_id ∈ prepared.updated_segments then do
      let (new_weight,new_duration) ← computeNewWeightAndDuration prepared.segment_data geometry_id
      let num_nodes := (prepared.segment_data.getD geometry_id.id default).nodes.length
      let (turn_weight_penalty,weight,duration) ← reweighEdge new_weight (wrap32 num_nodes) new_duration edge.data.duration
        (graph.turn_weight_penalties.getD edge.data.turn_id 0) (prepared.turn_duration_penalties.getD edge.data.turn_id 0)
      some ⟨graph.edge_based_edge_list.set index { edge with data := { edge.data with weight, duration } },
        Function.update graph.node_weights edge.source ⟨(graph.node_weights edge.source).flag,new_weight⟩,
        Function.update graph.node_durations edge.source new_duration,
        graph.turn_weight_penalties.set edge.data.turn_id turn_weight_penalty⟩
    else some graph

/-- What `LoadAndUpdateEdgeExpandedGraph` leaves: the graph it returns and the penalties as they stand in their file. -/
structure Updated where
  edge_based_edge_list : List EdgeBasedEdge
  node_weights : NodeID → NodeWeight
  node_durations : NodeID → EdgeDuration
  segment_data : List Geometry
  turn_weight_penalties : List TurnPenalty

def UpdaterConfig.writesPenalties (config : UpdaterConfig) : Bool :=
  config.turn_penalty_lookup.isSome || config.conditional_turns.isSome

/-- The sums of all touched geometries, and then the loop over the edges. -/
def updateEdges (files : Files) (prepared : Prepared) (order : List ℕ) : Option EdgeExpandedGraph := do
  prepared.updated_segments.forM fun geometry_id => do
    let _ ← computeNewWeightAndDuration prepared.segment_data geometry_id
    some ()
  order.foldlM (updateEdge files prepared)
    ⟨files.edge_based_edge_list,files.node_weights,files.node_durations,prepared.turn_weight_penalties⟩

/-- `LoadAndUpdateEdgeExpandedGraph`; `none` where a value is out of range or a sum is undefined. -/
def loadAndUpdateEdgeExpandedGraph (config : UpdaterConfig) (files : Files) (order : List ℕ) : Option Updated := do
  let prepared ← prepare config files
  let graph ← updateEdges files prepared order
  some ⟨graph.edge_based_edge_list,graph.node_weights,graph.node_durations,prepared.segment_data,
    if config.writesPenalties then graph.turn_weight_penalties else files.turn_weight_penalties⟩

private theorem updateTurnPenalties_kept {weight_multiplier : ℚ} {turn_index : ℕ → Turn}
    {lookup : Turn → Option PenaltySource} {weights durations : List TurnPenalty} {penalties : Penalties}
    (ran : updateTurnPenalties weight_multiplier turn_index lookup weights durations = some penalties) :
    penalties.turn_weight_penalties.length = weights.length ∧
      ∀ i ∉ penalties.updated_turns, penalties.turn_weight_penalties.getD i 0 = weights.getD i 0 := by
  refine Loops.foldlM_invariant (fun penalties : Penalties => penalties.turn_weight_penalties.length = weights.length ∧
    ∀ i ∉ penalties.updated_turns, penalties.turn_weight_penalties.getD i 0 = weights.getD i 0) ?_ ⟨rfl,fun _ _ => rfl⟩ ran
  rintro before index after _ ⟨size,kept⟩ step
  dsimp only at step
  split at step
  · cases step
    exact ⟨size,kept⟩
  · obtain ⟨⟨weight,duration⟩,_,rfl⟩ := map_eq_some_iff.mp step
    refine ⟨by simpa using size,fun i other => ?_⟩
    simp only [mem_append,mem_singleton,not_or] at other
    rw [← kept i other.1]
    simp [getElem?_set_ne (Ne.symm other.2)]

private theorem updateConditionalTurns_kept (valid : ConditionalTurnPenalty → Bool) (turns : List ConditionalTurnPenalty)
    (weights : List TurnPenalty) :
    (updateConditionalTurns valid turns weights).1.length = weights.length ∧
      ∀ i ∉ (updateConditionalTurns valid turns weights).2,
        (updateConditionalTurns valid turns weights).1.getD i 0 = weights.getD i 0 := by
  refine Loops.foldl_invariant (fun _ (s : List TurnPenalty × List ℕ) => s.1.length = weights.length ∧
    ∀ i ∉ s.2, s.1.getD i 0 = weights.getD i 0) turns ?_ (weights,[]) ⟨rfl,fun _ _ => rfl⟩
  rintro _ ⟨penalties,updated⟩ penalty _ ⟨size,kept⟩
  dsimp only
  split
  · refine ⟨by simpa using size,fun i other => ?_⟩
    simp only [mem_append,mem_singleton,not_or] at other
    rw [← kept i other.1]
    simp [getElem?_set_ne (Ne.symm other.2)]
  · exact ⟨size,kept⟩

section prepared
variable {config : UpdaterConfig} {files : Files} {prepared : Prepared}

private theorem prepare_kept (ran : prepare config files = some prepared) :
    prepared.turn_weight_penalties.length = files.turn_weight_penalties.length ∧
      ∀ i edge, files.edge_based_edge_list[i]? = some edge →
        files.GetGeometryID edge.source ∉ prepared.updated_segments →
        prepared.turn_weight_penalties.getD i 0 = files.turn_weight_penalties.getD i 0 := by
  obtain ⟨⟨segment_data,updated_segments⟩,_,later⟩ := bind_eq_some_iff.mp ran
  obtain ⟨penalties,turned,same⟩ := bind_eq_some_iff.mp later
  cases same
  have turns : penalties.turn_weight_penalties.length = files.turn_weight_penalties.length ∧
      ∀ i ∉ penalties.updated_turns,
        penalties.turn_weight_penalties.getD i 0 = files.turn_weight_penalties.getD i 0 := by
    unfold UpdaterConfig.turns at turned
    split at turned
    · cases turned
      exact ⟨rfl,fun _ _ => rfl⟩
    · exact updateTurnPenalties_kept turned
  have conditionals : (config.conditionals penalties.turn_weight_penalties).1.length =
        penalties.turn_weight_penalties.length ∧
      ∀ i ∉ (config.conditionals penalties.turn_weight_penalties).2,
        (config.conditionals penalties.turn_weight_penalties).1.getD i 0 = penalties.turn_weight_penalties.getD i 0 := by
    unfold UpdaterConfig.conditionals
    split
    · exact ⟨rfl,fun _ _ => rfl⟩
    · exact updateConditionalTurns_kept _ _ _
  refine ⟨conditionals.1.trans turns.1,fun i edge found untouched => ?_⟩
  have geometry : ∀ updated : List ℕ, i ∈ updated → files.GetGeometryID edge.source ∈ turnGeometries files updated :=
    fun updated member => mem_filterMap.mpr ⟨i,member,by rw [found]; rfl⟩
  simp only [mem_append,not_or] at untouched
  exact (conditionals.2 i fun member => untouched.2 (geometry _ member)).trans
    (turns.2 i fun member => untouched.1.2 (geometry _ member))

private theorem prepare_unwritten (ran : prepare config files = some prepared) (unwritten : config.writesPenalties = false) :
    prepared.turn_weight_penalties = files.turn_weight_penalties := by
  obtain ⟨⟨segment_data,updated_segments⟩,_,later⟩ := bind_eq_some_iff.mp ran
  obtain ⟨penalties,turned,same⟩ := bind_eq_some_iff.mp later
  cases same
  simp only [UpdaterConfig.writesPenalties,Bool.or_eq_false_iff,isSome_eq_false_iff,isNone_iff_eq_none] at unwritten
  unfold UpdaterConfig.turns at turned
  rw [unwritten.1] at turned
  cases turned
  simp [UpdaterConfig.conditionals,unwritten.2]

end prepared

/-! ### The loop over the edges -/

section loop
variable {files : Files} {prepared : Prepared} {graph : EdgeExpandedGraph} {done : List ℕ} {i : ℕ} {edge : EdgeBasedEdge}

variable (files prepared) in
def Touched (edge : EdgeBasedEdge) : Prop := files.GetGeometryID edge.source ∈ prepared.updated_segments
instance : Decidable (Touched files prepared edge) := by unfold Touched; infer_instance

/-- The weight of segments, without the bounds of the machine. -/
def totalWeight (new_weight : EdgeWeight) : List SegmentWeight → EdgeWeight
  | [] => new_weight
  | weight :: weights => if weight == INVALID_SEGMENT_WEIGHT then INVALID_EDGE_WEIGHT else totalWeight (new_weight + weight) weights
/-- The sums of the weights up to the first segment that is closed fit. -/
def WeightsFit (new_weight : EdgeWeight) : List SegmentWeight → Prop
  | [] => True
  | weight :: weights => weight ≠ INVALID_SEGMENT_WEIGHT → Fits32 (new_weight + weight) ∧ WeightsFit (new_weight + weight) weights
def geometryWeights (segment_data : List Geometry) (geometry_id : GeometryID) : List SegmentWeight :=
  (segment_data.getD geometry_id.id default).weights geometry_id.forward

/-- What clamping gives without the bounds of the machine. -/
def clampedTo (new_weight weight_min_value : EdgeWeight) (turn_weight_penalty : TurnPenalty) : TurnPenalty × EdgeWeight :=
  if turn_weight_penalty + new_weight < weight_min_value then
    if turn_weight_penalty < 0 then (wrapTurn (weight_min_value - new_weight),new_weight)
    else (turn_weight_penalty,weight_min_value)
  else (turn_weight_penalty,new_weight)

private theorem add32_ends (x y : ℤ) : Ends (add32 x y) (Fits32 (x + y)) (x + y) := by
  intro other
  unfold add32
  split
  · simp_all [eq_comm]
  · simp_all

private theorem accumulateWeights_ends (new_weight : EdgeWeight) (weights : List SegmentWeight) :
    Ends (accumulateWeights new_weight weights) (WeightsFit new_weight weights) (totalWeight new_weight weights) := by
  induction weights generalizing new_weight with
  | nil => exact .pure _
  | cons weight weights ih =>
    rw [accumulateWeights,totalWeight,WeightsFit]
    by_cases closed : weight = INVALID_SEGMENT_WEIGHT
    · simp only [closed,beq_self_eq_true,if_true,ne_eq,not_true_eq_false,false_implies]
      exact .pure _
    · simp only [beq_iff_eq,closed,if_false,ne_eq,not_false_eq_true,true_implies]
      exact (add32_ends _ _).bind (ih _)

private theorem clamp_ends (new low : EdgeWeight) (penalty : TurnPenalty) : Ends (clamp new low penalty)
    (Fits32 (penalty + new) ∧ (penalty + new < low → penalty < 0 → Fits32 (low - new))) (clampedTo new low penalty) := by
  unfold clamp clampedTo
  refine (add32_ends _ _).bind ?_
  split
  case isTrue small =>
    split
    case isTrue negative =>
      exact ((add32_ends low (-new)).map fun difference => (wrapTurn difference,new)).congr (by simp [small,negative,sub_eq_add_neg])
    case isFalse negative => exact (Ends.pure _).congr (by simp [negative])
  case isFalse small => exact (Ends.pure _).congr (by simp [small])

/-- The sums formed for an edge fit: with its penalty, to the least weight, and the weight and duration it gets. -/
structure EdgeFits (new_weight weight_min_value : EdgeWeight) (new_duration : EdgeDuration)
    (turn_weight_penalty turn_duration_penalty : TurnPenalty) : Prop where
  sum : Fits32 (turn_weight_penalty + new_weight)
  missing : turn_weight_penalty + new_weight < weight_min_value → turn_weight_penalty < 0 → Fits32 (weight_min_value - new_weight)
  weight : Fits32 ((clampedTo new_weight weight_min_value turn_weight_penalty).2 +
    (clampedTo new_weight weight_min_value turn_weight_penalty).1)
  duration : Fits32 (new_duration + turn_duration_penalty)

/-- The penalty and the weight that an edge gets, without the bounds of the machine. -/
def reweighed (new_weight weight_min_value : EdgeWeight) (turn_weight_penalty : TurnPenalty) : TurnPenalty × EdgeWeight :=
  if new_weight = INVALID_EDGE_WEIGHT then (turn_weight_penalty,INVALID_EDGE_WEIGHT)
  else ((clampedTo new_weight weight_min_value turn_weight_penalty).1,
    (clampedTo new_weight weight_min_value turn_weight_penalty).2 + (clampedTo new_weight weight_min_value turn_weight_penalty).1)

private theorem reweighed_penalty {new low : EdgeWeight} {penalty : TurnPenalty} (usable : new ≠ INVALID_EDGE_WEIGHT) :
    (reweighed new low penalty).1 = (clampedTo new low penalty).1 := by
  rw [reweighed,if_neg usable]

private theorem reweighEdge_ends (new low : EdgeWeight) (new_duration old_duration : EdgeDuration)
    (penalty duration_penalty : TurnPenalty) :
    ∃ duration, Ends (reweighEdge new low new_duration old_duration penalty duration_penalty)
      (new ≠ INVALID_EDGE_WEIGHT → EdgeFits new low new_duration penalty duration_penalty)
      ((reweighed new low penalty).1,(reweighed new low penalty).2,duration) := by
  unfold reweighEdge reweighed
  by_cases closed : new = INVALID_EDGE_WEIGHT
  · refine ⟨old_duration,?_⟩
    simp only [closed,beq_self_eq_true,if_true]
    exact (Ends.pure _).congr (by simp)
  · refine ⟨(new_duration + duration_penalty).bmod (2 ^ 30),?_⟩
    simp only [beq_iff_eq,closed,if_false]
    have sums : Ends (do
        let weight ← add32 (clampedTo new low penalty).2 (clampedTo new low penalty).1
        let duration ← add32 new_duration duration_penalty
        some ((clampedTo new low penalty).1,weight,duration.bmod (2 ^ 30))) _ _ :=
      (add32_ends _ _).bind ((add32_ends new_duration duration_penalty).map _)
    refine ((clamp_ends new low penalty).bind sums).congr ?_
    constructor
    · rintro ⟨⟨sum,missing⟩,weight,duration⟩ _
      exact ⟨sum,missing,weight,duration⟩
    · intro fits
      obtain ⟨sum,missing,weight,duration⟩ := fits closed
      exact ⟨⟨sum,missing⟩,weight,duration⟩

private theorem computeNewWeightAndDuration_ends (segment_data : List Geometry) (geometry_id : GeometryID) :
    Ends (computeNewWeightAndDuration segment_data geometry_id) (WeightsFit 0 (geometryWeights segment_data geometry_id))
      (totalWeight 0 (geometryWeights segment_data geometry_id),
        wrap32 ((segment_data.getD geometry_id.id default).durations geometry_id.forward).sum) :=
  (accumulateWeights_ends 0 _).map (·,wrap32 ((segment_data.getD geometry_id.id default).durations geometry_id.forward).sum)

variable (files prepared) in
/-- The weight of the geometry in which an edge starts. -/
def newWeight (edge : EdgeBasedEdge) : EdgeWeight :=
  totalWeight 0 (geometryWeights prepared.segment_data (files.GetGeometryID edge.source))
variable (files prepared) in
/-- The least weight that an edge may have. -/
def weightMinValue (edge : EdgeBasedEdge) : EdgeWeight :=
  wrap32 (prepared.segment_data.getD (files.GetGeometryID edge.source).id default).nodes.length
variable (files prepared) in
def newDuration (edge : EdgeBasedEdge) : EdgeDuration :=
  let geometry_id := files.GetGeometryID edge.source
  wrap32 ((prepared.segment_data.getD geometry_id.id default).durations geometry_id.forward).sum
variable (files prepared) in
/-- The penalty and the weight of an edge that is touched. -/
def touchedTo (edge : EdgeBasedEdge) : TurnPenalty × EdgeWeight :=
  reweighed (newWeight files prepared edge) (weightMinValue files prepared edge)
    (prepared.turn_weight_penalties.getD edge.data.turn_id 0)

variable (files prepared) in
/-- The sums for an edge fit, if it can still be used. -/
def UsableFits (edge : EdgeBasedEdge) : Prop := newWeight files prepared edge ≠ INVALID_EDGE_WEIGHT →
  EdgeFits (newWeight files prepared edge) (weightMinValue files prepared edge) (newDuration files prepared edge)
    (prepared.turn_weight_penalties.getD edge.data.turn_id 0) (prepared.turn_duration_penalties.getD edge.data.turn_id 0)
variable (files prepared) in
/-- The sums that are formed while the loop takes an edge fit. -/
def Room (edge : EdgeBasedEdge) : Prop := Touched files prepared edge →
  WeightsFit 0 (geometryWeights prepared.segment_data (files.GetGeometryID edge.source)) ∧ UsableFits files prepared edge

variable (files prepared) in
/-- The penalty that an edge leaves. -/
def penaltyAfter (edge : EdgeBasedEdge) : TurnPenalty :=
  if Touched files prepared edge then (touchedTo files prepared edge).1
  else prepared.turn_weight_penalties.getD edge.data.turn_id 0
variable (files prepared) in
/-- The weight that an edge gets. -/
def weightAfter (edge : EdgeBasedEdge) : EdgeWeight :=
  if Touched files prepared edge then (touchedTo files prepared edge).2 else edge.data.weight

variable (files prepared) in
/-- What the loop has done once it has taken some of the edges. -/
structure Reached (done : List ℕ) (graph : EdgeExpandedGraph) : Prop where
  size : graph.turn_weight_penalties.length = files.edge_based_edge_list.length
  count : graph.edge_based_edge_list.length = files.edge_based_edge_list.length
  edges : ∀ i edge, files.edge_based_edge_list[i]? = some edge → ∃ edge', graph.edge_based_edge_list[i]? = some edge' ∧
    edge'.source = edge.source ∧ edge'.data.turn_id = edge.data.turn_id ∧
    edge'.data.weight = if i ∈ done then weightAfter files prepared edge else edge.data.weight
  penalties : ∀ i edge, files.edge_based_edge_list[i]? = some edge → graph.turn_weight_penalties.getD i 0 =
    if i ∈ done then penaltyAfter files prepared edge else prepared.turn_weight_penalties.getD i 0
  nodes : ∀ i edge, files.edge_based_edge_list[i]? = some edge → i ∈ done → Touched files prepared edge →
    (graph.node_weights edge.source).weight = newWeight files prepared edge
  others : ∀ node, files.GetGeometryID node ∉ prepared.updated_segments →
    (graph.node_weights node).weight = (files.node_weights node).weight

private theorem updateEdge_spec {edge' : EdgeBasedEdge} (now : graph.edge_based_edge_list[i]? = some edge')
    (source : edge'.source = edge.source) (turn : edge'.data.turn_id = edge.data.turn_id) (number : edge.data.turn_id = i)
    (weight : edge'.data.weight = edge.data.weight) (low : i < graph.turn_weight_penalties.length)
    (penalty : graph.turn_weight_penalties.getD i 0 = prepared.turn_weight_penalties.getD i 0) :
    ∃ next edge'', Ends (updateEdge files prepared graph i) (Room files prepared edge) next ∧
      next.edge_based_edge_list = graph.edge_based_edge_list.set i edge'' ∧
      edge''.source = edge.source ∧ edge''.data.turn_id = edge.data.turn_id ∧
      edge''.data.weight = weightAfter files prepared edge ∧
      next.turn_weight_penalties = graph.turn_weight_penalties.set i (penaltyAfter files prepared edge) ∧
      ∀ node, (next.node_weights node).weight =
        if node = edge.source ∧ Touched files prepared edge then newWeight files prepared edge
        else (graph.node_weights node).weight := by
  obtain ⟨inside,here⟩ := List.getElem?_eq_some_iff.mp now
  have kept : graph.turn_weight_penalties.set i (prepared.turn_weight_penalties.getD i 0) = graph.turn_weight_penalties := by
    rw [← penalty,getD_eq_getElem?_getD,getElem?_eq_getElem low,getD_some,set_getElem_self]
  unfold updateEdge
  rw [now]
  simp only [source,turn,number,penalty]
  by_cases touched : Touched files prepared edge
  · have member : files.GetGeometryID edge.source ∈ prepared.updated_segments := touched
    have sums := computeNewWeightAndDuration_ends prepared.segment_data (files.GetGeometryID edge.source)
    obtain ⟨duration,weighed⟩ := reweighEdge_ends (newWeight files prepared edge) (weightMinValue files prepared edge)
      (newDuration files prepared edge) edge'.data.duration (prepared.turn_weight_penalties.getD i 0)
      (prepared.turn_duration_penalties.getD i 0)
    have same : reweighed (newWeight files prepared edge) (weightMinValue files prepared edge)
        (prepared.turn_weight_penalties.getD i 0) = touchedTo files prepared edge := by rw [touchedTo,number]
    rw [if_pos member]
    rw [same] at weighed
    refine ⟨_,⟨edge.source,edge'.target,{ edge'.data with turn_id := i, weight := (touchedTo files prepared edge).2, duration }⟩,
      (sums.bind (weighed.map _)).congr ?_,rfl,rfl,rfl,?_,?_,?_⟩
    · simp [Room,UsableFits,touched,number]
    · simp [weightAfter,touched]
    · simp [penaltyAfter,touched]
    · intro node
      by_cases here : node = edge.source
      · simp [here,touched,newWeight]
      · simp [here]
  · have untouched : files.GetGeometryID edge.source ∉ prepared.updated_segments := touched
    rw [if_neg untouched]
    refine ⟨graph,edge',(Ends.pure graph).congr (by simp [Room,touched]),?_,source,turn.trans number,?_,?_,?_⟩
    · rw [← here,set_getElem_self]
    · simp [weightAfter,touched,weight]
    · simp only [penaltyAfter,touched,if_false,number]
      exact kept.symm
    · simp [touched]

private theorem Reached.step (reached : Reached files prepared done graph) (fresh : i ∉ done)
    (found : files.edge_based_edge_list[i]? = some edge) :
    ∃ next, Reached files prepared (done ++ [i]) next ∧ Ends (updateEdge files prepared graph i) (Room files prepared edge) next := by
  obtain ⟨edge',now,source,turn,weight⟩ := reached.edges i edge found
  have inside : i < graph.edge_based_edge_list.length := (List.getElem?_eq_some_iff.mp now).1
  have low : i < graph.turn_weight_penalties.length := by
    rw [reached.size]
    exact (List.getElem?_eq_some_iff.mp found).1
  have penalty := reached.penalties i edge found
  rw [if_neg fresh] at penalty weight
  obtain ⟨next,edge'',ends,edges,source',turn',weight',penalties,nodes⟩ := @updateEdge_spec files prepared graph i edge edge' now
    source turn (files.numbered i edge found) weight low penalty
  refine ⟨next,⟨by rw [penalties,length_set]; exact reached.size,by rw [edges,length_set]; exact reached.count,
    ?_,?_,?_,?_⟩,ends⟩
  · intro j other known
    rw [edges]
    by_cases same : j = i
    · subst same
      obtain rfl : edge = other := some.inj (found.symm.trans known)
      exact ⟨edge'',by simp [inside],source',turn',by simp [weight']⟩
    · rw [getElem?_set_ne (Ne.symm same)]
      simpa [same] using reached.edges j other known
  · intro j other known
    rw [penalties]
    by_cases same : j = i
    · subst same
      obtain rfl : edge = other := some.inj (found.symm.trans known)
      simp [low]
    · have before := reached.penalties j other known
      rw [getD_eq_getElem?_getD] at before ⊢
      rw [getElem?_set_ne (Ne.symm same),before]
      simp [same]
  · intro j other known member touched
    rw [nodes]
    split
    · rename_i here
      simp only [newWeight,here.1]
    · rename_i elsewhere
      have earlier : j ∈ done := by
        rcases mem_append.mp member with old | new
        · exact old
        · cases mem_singleton.mp new
          obtain rfl : edge = other := some.inj (found.symm.trans known)
          exact absurd ⟨rfl,touched⟩ elsewhere
      exact reached.nodes j other known earlier touched
  · intro node untouched
    rw [nodes,if_neg ?_]
    · exact reached.others node untouched
    · rintro ⟨rfl,touched⟩
      exact untouched touched

variable (files prepared) in
/-- All sums of the update fit: those of the geometries that are touched and those of the edges. -/
structure SumsFit : Prop where
  geometries : ∀ geometry_id ∈ prepared.updated_segments, WeightsFit 0 (geometryWeights prepared.segment_data geometry_id)
  edges : ∀ edge ∈ files.edge_based_edge_list, Touched files prepared edge → UsableFits files prepared edge

private theorem updateEdges_ends (size : prepared.turn_weight_penalties.length = files.turn_weight_penalties.length)
    {order : List ℕ} (perm : order.Perm (List.range files.edge_based_edge_list.length)) :
    ∃ graph, Reached files prepared order graph ∧ Ends (updateEdges files prepared order) (SumsFit files prepared) graph := by
  have distinct : order.Nodup := perm.nodup_iff.mpr nodup_range
  have start : Reached files prepared [] ⟨files.edge_based_edge_list,files.node_weights,files.node_durations,
      prepared.turn_weight_penalties⟩ :=
    ⟨size.trans files.sized,rfl,fun i edge known => ⟨edge,known,rfl,rfl,by simp⟩,fun i edge known => by simp,
      fun i edge known member => by simp at member,fun _ _ => rfl⟩
  obtain ⟨graph,reached,ends⟩ := foldlM_reaches (Reached files prepared)
    (fun i => ∀ edge, files.edge_based_edge_list[i]? = some edge → Room files prepared edge) order (by
      intro done graph i rest whole reached
      have fresh : i ∉ done := by
        rw [← whole] at distinct
        exact fun bad => (disjoint_of_nodup_append distinct) bad (by simp)
      have known : i < files.edge_based_edge_list.length :=
        mem_range.mp (perm.mem_iff.mp (by rw [← whole]; simp))
      obtain ⟨next,reached',ends⟩ := reached.step fresh (getElem?_eq_getElem known)
      exact ⟨next,reached',ends.congr (by simp [getElem?_eq_getElem known])⟩) start
  refine ⟨graph,reached,((forM_ends prepared.updated_segments fun geometry_id _ =>
    (computeNewWeightAndDuration_ends prepared.segment_data geometry_id).map fun _ => ()).bind ends).congr ?_⟩
  constructor
  · rintro ⟨geometries,room⟩
    refine ⟨geometries,fun edge member touched => ?_⟩
    obtain ⟨i,known⟩ := mem_iff_getElem?.mp member
    have done : i ∈ order := perm.mem_iff.mpr (mem_range.mpr (List.getElem?_eq_some_iff.mp known).1)
    exact (room i done edge known touched).2
  · rintro ⟨geometries,edges⟩
    exact ⟨geometries,fun i _ edge known touched => ⟨geometries _ touched,edges edge (mem_of_getElem? known) touched⟩⟩

end loop

def Files.Consistent (files : Files) : Prop :=
  ∀ edge ∈ files.edge_based_edge_list, edge.data.weight =
    (files.node_weights edge.source).weight + files.turn_weight_penalties.getD edge.data.turn_id 0

/-- The same after the update, for the edges whose segments can still be used. -/
def Updated.Consistent (files : Files) (after : Updated) : Prop :=
  ∀ edge ∈ after.edge_based_edge_list,
    totalWeight 0 (geometryWeights after.segment_data (files.GetGeometryID edge.source)) ≠ INVALID_EDGE_WEIGHT →
    edge.data.weight = (after.node_weights edge.source).weight + after.turn_weight_penalties.getD edge.data.turn_id 0

/-- No edge is clamped, unless by its negative penalty and the penalties are written, or one that 16 bits give back. -/
def Unclamped (config : UpdaterConfig) (files : Files) (prepared : Prepared) : Prop :=
  ∀ edge ∈ files.edge_based_edge_list, Touched files prepared edge → newWeight files prepared edge ≠ INVALID_EDGE_WEIGHT →
    weightMinValue files prepared edge ≤
        prepared.turn_weight_penalties.getD edge.data.turn_id 0 + newWeight files prepared edge ∨
      prepared.turn_weight_penalties.getD edge.data.turn_id 0 < 0 ∧ (config.writesPenalties = true ∨
        wrapTurn (weightMinValue files prepared edge - newWeight files prepared edge) =
          prepared.turn_weight_penalties.getD edge.data.turn_id 0)

private theorem clampedTo_fits {new low : EdgeWeight} {penalty file : TurnPenalty} :
    (clampedTo new low penalty).2 + (clampedTo new low penalty).1 = new + file ↔
      low ≤ penalty + new ∧ penalty = file ∨
        penalty + new < low ∧ penalty < 0 ∧ wrapTurn (low - new) = file ∨
        penalty + new < low ∧ 0 ≤ penalty ∧ low + penalty = new + file := by
  unfold clampedTo
  split
  · split
    · simp only
      lia
    · simp only
      lia
  · simp only
    lia

private theorem edge_fits_iff {config : UpdaterConfig} {files : Files} (consistent : files.Consistent) {order : List ℕ}
    (perm : order.Perm (List.range files.edge_based_edge_list.length)) {prepared : Prepared} {graph : EdgeExpandedGraph}
    (reached : Reached files prepared order graph) (ready : prepare config files = some prepared) {i : ℕ} {edge : EdgeBasedEdge}
    (known : files.edge_based_edge_list[i]? = some edge) (usable : newWeight files prepared edge ≠ INVALID_EDGE_WEIGHT) :
    weightAfter files prepared edge = (graph.node_weights edge.source).weight +
        (if config.writesPenalties then graph.turn_weight_penalties
          else files.turn_weight_penalties).getD i 0 ↔
      (Touched files prepared edge → weightMinValue files prepared edge ≤
        prepared.turn_weight_penalties.getD i 0 + newWeight files prepared edge ∨
      prepared.turn_weight_penalties.getD i 0 < 0 ∧ (config.writesPenalties = true ∨
        wrapTurn (weightMinValue files prepared edge - newWeight files prepared edge) =
          prepared.turn_weight_penalties.getD i 0)) := by
  obtain ⟨size,kept⟩ := prepare_kept ready
  have done : i ∈ order := perm.mem_iff.mpr (mem_range.mpr (List.getElem?_eq_some_iff.mp known).1)
  have penalty := reached.penalties i edge known
  rw [if_pos done] at penalty
  have number := files.numbered i edge known
  by_cases touched : Touched files prepared edge
  · rw [reached.nodes i edge known done touched]
    simp only [weightAfter,touched,if_true,touchedTo,reweighed,usable,if_false,number,clampedTo_fits,true_implies]
    have left : penaltyAfter files prepared edge = (clampedTo (newWeight files prepared edge) (weightMinValue files prepared edge)
        (prepared.turn_weight_penalties.getD i 0)).1 := by
      rw [penaltyAfter,if_pos touched,touchedTo,reweighed_penalty usable,number]
    rw [left] at penalty
    generalize weightMinValue files prepared edge = low at *
    cases written : config.writesPenalties with
    | true =>
      simp only [if_true,penalty,clampedTo,true_or,and_true]
      split
      · split
        · simp only
          lia
        · simp only
          lia
      · simp only
        lia
    | false =>
      simp only [Bool.false_eq_true,if_false,false_or,← prepare_unwritten ready written]
      lia
  · have untouched : files.GetGeometryID edge.source ∉ prepared.updated_segments := touched
    have before := consistent edge (mem_of_getElem? known)
    rw [number] at before
    refine iff_of_true ?_ fun bad => absurd bad touched
    rw [reached.others _ untouched,weightAfter,if_neg touched,before]
    cases config.writesPenalties with
    | true =>
      rw [if_pos rfl,penalty,penaltyAfter,if_neg touched,number,kept i edge known untouched]
    | false => rfl

/-- After an update edges, nodes and turns fit together exactly where no sum overflows, no edge is clamped by its weight
    and no clamped penalty is lost. -/
theorem updated_consistent_iff (config : UpdaterConfig) (files : Files) (consistent : files.Consistent) (order : List ℕ)
    (perm : order.Perm (List.range files.edge_based_edge_list.length)) (prepared : Prepared)
    (ready : prepare config files = some prepared) :
    (∃ after, loadAndUpdateEdgeExpandedGraph config files order = some after ∧ after.Consistent files) ↔
      SumsFit files prepared ∧ Unclamped config files prepared := by
  obtain ⟨graph,reached,ends⟩ := updateEdges_ends (prepare_kept ready).1 perm
  have done : ∀ i edge, files.edge_based_edge_list[i]? = some edge → i ∈ order := fun i edge known =>
    perm.mem_iff.mpr (mem_range.mpr (List.getElem?_eq_some_iff.mp known).1)
  have loads := ends.map fun graph => (⟨graph.edge_based_edge_list,graph.node_weights,graph.node_durations,prepared.segment_data,
    if config.writesPenalties then graph.turn_weight_penalties else files.turn_weight_penalties⟩ : Updated)
  rw [loadAndUpdateEdgeExpandedGraph,ready]
  refine (loads.some_iff fun after => after.Consistent files).trans (and_congr_right fun _ => ?_)
  constructor
  · intro holds edge member touched usable
    obtain ⟨i,known⟩ := mem_iff_getElem?.mp member
    obtain ⟨edge',now,source,turn,weight⟩ := reached.edges i edge known
    rw [if_pos (done i edge known)] at weight
    have fits := holds edge' (mem_of_getElem? now) (by rw [source]; exact usable)
    rw [weight,source,turn,files.numbered i edge known] at fits
    rw [files.numbered i edge known]
    exact (edge_fits_iff consistent perm reached ready known usable).mp fits touched
  · intro unclamped edge' member usable
    obtain ⟨i,now⟩ := mem_iff_getElem?.mp member
    have inside : i < files.edge_based_edge_list.length := by
      rw [← reached.count]
      exact (List.getElem?_eq_some_iff.mp now).1
    have known := getElem?_eq_getElem inside
    obtain ⟨edge'',now',source,turn,weight⟩ := reached.edges i _ known
    obtain rfl : edge' = edge'' := some.inj (now.symm.trans now')
    rw [if_pos (done i _ known)] at weight
    rw [source] at usable
    rw [weight,source,turn,files.numbered i _ known]
    refine (edge_fits_iff consistent perm reached ready known usable).mpr fun touched => ?_
    have condition := unclamped _ (mem_of_getElem? known) touched usable
    rwa [files.numbered i _ known] at condition

/-- A street of one segment with one turn at its end. -/
def street (weight : EdgeWeight) (penalty : TurnPenalty) : Files where
  edge_based_edge_list := [⟨0,1,⟨0,weight + penalty,1,1,true,false⟩⟩]
  node_weights _ := ⟨false,weight⟩
  node_durations _ := 1
  segment_data := [⟨[0,1],[weight],[weight],[1],[1]⟩]
  GetGeometryID node := ⟨0,node == 0⟩
  turn_weight_penalties := [penalty]
  turn_duration_penalties := [0]
  turn_index _ := ⟨0,1,2⟩
  osm_node_ids node := node
  length _ _ := 1
  weight_multiplier := 1
  numbered i edge known := by
    obtain ⟨low,same⟩ := List.getElem?_eq_some_iff.mp known
    obtain rfl : i = 0 := by simpa using low
    simp [← same]
  sized := rfl

def faster : UpdaterConfig := ⟨some fun u v => if u = 0 ∧ v = 1 then some ⟨36 / 10,none⟩ else none,none,none⟩

private theorem street_prepared (weight : EdgeWeight) (penalty : TurnPenalty) : prepare faster (street weight penalty) =
    some ⟨[⟨[0,1],[1],[weight],[10],[1]⟩],[penalty],[0],[⟨0,true⟩]⟩ := by
  have duration : convertToDuration (36 / 10) 1 = some 10 := by decide +kernel
  have rate : weightAtRate 1 1 1 = some 1 := by decide +kernel
  simp only [prepare,UpdaterConfig.segments,faster,updateSegmentData,street,updateGeometry,updateSegments,convertToWeight,
    mapM_cons,mapM_nil]
  simp [duration,rate,UpdaterConfig.turns,UpdaterConfig.conditionals,turnGeometries]

private theorem street_consistent (weight : EdgeWeight) (penalty : TurnPenalty) : (street weight penalty).Consistent := by
  intro edge member
  obtain rfl : edge = ⟨0,1,⟨0,weight + penalty,1,1,true,false⟩⟩ := by simpa [street] using member
  rfl

/-- With a penalty of seven the street fits after the update. -/
theorem updated_consistent_iff_street : ∃ after,
    loadAndUpdateEdgeExpandedGraph faster (street 5 7) [0] = some after ∧ after.Consistent (street 5 7) := by
  have only : ∀ edge ∈ (street 5 7).edge_based_edge_list, edge = ⟨0,1,⟨0,5 + 7,1,1,true,false⟩⟩ := by simp [street]
  refine (updated_consistent_iff faster (street 5 7) (street_consistent 5 7) [0] (.refl _) _ (street_prepared 5 7)).mpr
    ⟨⟨?_,?_⟩,?_⟩
  · intro geometry_id member
    obtain rfl := mem_singleton.mp member
    exact fun _ => ⟨by decide +kernel,trivial⟩
  · intro edge member _ _
    obtain rfl := only edge member
    constructor <;> decide +kernel
  · intro edge member _ _
    obtain rfl := only edge member
    exact .inl (by decide +kernel)

/-- Without a penalty the street weighs one and its edge two. -/
theorem updated_consistent_iff_counterexample : (street 5 0).Consistent ∧ ∃ after,
    loadAndUpdateEdgeExpandedGraph faster (street 5 0) [0] = some after ∧
      after.edge_based_edge_list.map (·.data.weight) = [2] ∧ (after.node_weights 0).weight = 1 ∧
      after.turn_weight_penalties = [0] ∧ ¬ after.Consistent (street 5 0) := by
  refine ⟨street_consistent 5 0,_,by rw [loadAndUpdateEdgeExpandedGraph,street_prepared]; rfl,by decide +kernel,
    by decide +kernel,by decide +kernel,fun fits => ?_⟩
  have equation := fits ⟨0,1,⟨0,2,1,10,true,false⟩⟩ (by decide +kernel) (by decide +kernel)
  exact absurd equation (by decide +kernel)

end Osrm.Updater
