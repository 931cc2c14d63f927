import Osrm.SegmentData

/-!
`GraphCompressor::Compress`. A node of degree two between compatible edges is taken out of the node-based graph: the
edges to it are extended over the edges from it, and the geometries are joined in the `CompressedEdgeContainer`.
-/
namespace Osrm.GraphCompressor
open List Function
open Typedefs
open CompressedGeometry
open SegmentData

/-- `NodeBasedEdgeClassification`, with the fields that are compared. -/
structure NodeBasedEdgeClassification where
  forward : Bool
  backward : Bool
  is_split : Bool
  roundabout : Bool
  circular : Bool
  startpoint : Bool
  restricted : Bool
  road_classification : ℕ
  deriving DecidableEq

structure NodeBasedEdgeAnnotation where
  name_id : ℕ
  lane_description_id : ℕ
  classes : ℕ
  travel_mode : ℕ
  is_left_hand_driving : Bool

def INVALID_LANE_DESCRIPTIONID : ℕ := 2 ^ 16 - 1
def NodeBasedEdgeAnnotation.CanCombineWith (data other : NodeBasedEdgeAnnotation) : Bool :=
  (data.name_id,data.classes,data.travel_mode,data.is_left_hand_driving) ==
    (other.name_id,other.classes,other.travel_mode,other.is_left_hand_driving)

/-- `NodeBasedEdgeData`, without the geometry that it gets when everything is compressed. -/
structure NodeBasedEdgeData where
  weight : EdgeWeight
  duration : EdgeDuration
  distance : EdgeDistance
  reversed : Bool
  flags : NodeBasedEdgeClassification
  annotation_data : ℕ

structure DynamicNode where
  first_edge : EdgeID
  edges : ℕ

structure DynamicEdge where
  target : NodeID
  data : NodeBasedEdgeData

/-- `util::NodeBasedDynamicGraph`. -/
structure NodeBasedDynamicGraph where
  number_of_nodes : ℕ
  number_of_edges : ℕ
  node_array : NodeID → DynamicNode
  edge_list : EdgeID → DynamicEdge

namespace NodeBasedDynamicGraph
variable (graph : NodeBasedDynamicGraph)

def GetOutDegree (n : NodeID) : ℕ := (graph.node_array n).edges
def GetTarget (e : EdgeID) : NodeID := (graph.edge_list e).target
def GetEdgeData (e : EdgeID) : NodeBasedEdgeData := (graph.edge_list e).data
def BeginEdges (n : NodeID) : EdgeID := (graph.node_array n).first_edge
def EndEdges (n : NodeID) : EdgeID := (graph.node_array n).first_edge + (graph.node_array n).edges
def SetTarget (e : EdgeID) (n : NodeID) : NodeBasedDynamicGraph :=
  { graph with edge_list := Function.update graph.edge_list e { graph.edge_list e with target := n } }
def setEdgeData (e : EdgeID) (data : NodeBasedEdgeData) : NodeBasedDynamicGraph :=
  { graph with edge_list := Function.update graph.edge_list e { graph.edge_list e with data := data } }
def makeDummy (e : EdgeID) : NodeBasedDynamicGraph := graph.SetTarget e SPECIAL_NODEID

/-- The last edge of the node takes the place of the edge. -/
def DeleteEdge (source : NodeID) (e : EdgeID) : NodeBasedDynamicGraph :=
  let node := { graph.node_array source with edges := (graph.node_array source).edges - 1 }
  let last := node.first_edge + node.edges
  makeDummy { graph with
    number_of_edges := graph.number_of_edges - 1
    node_array := Function.update graph.node_array source node
    edge_list := Function.update graph.edge_list e (graph.edge_list last) } last

def FindEdge (source target : NodeID) : Option EdgeID :=
  (List.range' (graph.BeginEdges source) (graph.GetOutDegree source)).find? fun i => target == graph.GetTarget i
def FindEdgeInEitherDirection (source target : NodeID) : Option EdgeID :=
  (graph.FindEdge source target).or (graph.FindEdge target source)

end NodeBasedDynamicGraph

structure TrafficSignals where
  bidirectional_nodes : NodeID → Bool
  unidirectional_segments : NodeID × NodeID → Bool

def TrafficSignals.HasSignal (signals : TrafficSignals) (source target : NodeID) : Bool :=
  signals.bidirectional_nodes target || signals.unidirectional_segments (source,target)
def TrafficSignals.moveSegment (signals : TrafficSignals) (old new : NodeID × NodeID) : TrafficSignals :=
  if signals.unidirectional_segments old then
    { signals with unidirectional_segments := Function.update (Function.update signals.unidirectional_segments old false) new true }
  else signals

def TrafficSignals.Compress (signals : TrafficSignals) (source via target : NodeID) : TrafficSignals :=
  let signals := { signals with bidirectional_nodes := Function.update signals.bidirectional_nodes via false }
  (signals.moveSegment (via,target) (source,target)).moveSegment (via,source) (target,source)

/-! ### Compressing a node -/

/-- What the profile's `ProcessTurn` gives for the artificial turn at a signal. -/
structure ExtractionTurn where
  duration : ℚ
  weight : ℚ

structure Environment where
  barrier_nodes : NodeID → Bool
  incompressible_via_nodes : NodeID → Bool
  node_data_container : ℕ → NodeBasedEdgeAnnotation
  weight_multiplier : ℚ
  ProcessTurn : NodeID → ExtractionTurn

def SECOND_TO_DECISECOND : ℚ := 10
def truncate (x : ℚ) : ℤ := if 0 ≤ x then ⌊x⌋ else ⌈x⌉

structure NodePenalty where
  weight : EdgeWeight
  duration : EdgeDuration
  deriving DecidableEq

/-- The penalty of a direction, `update_direction_penalty` on the values that mean none. -/
def directionPenalty (environment : Environment) (turn : ExtractionTurn) (signal : Bool) : NodePenalty :=
  if signal then ⟨truncate (turn.weight * environment.weight_multiplier),truncate (turn.duration * SECOND_TO_DECISECOND)⟩
  else ⟨INVALID_EDGE_WEIGHT,MAXIMAL_EDGE_DURATION⟩
def set_dummy_penalty (penalty other : NodePenalty) : NodePenalty :=
  if penalty.weight = INVALID_EDGE_WEIGHT ∧ other.weight ≠ INVALID_EDGE_WEIGHT then ⟨0,0⟩ else penalty

def apply_e2_to_e1 (graph : NodeBasedDynamicGraph) (edge1 edge2 : EdgeID) (penalty : NodePenalty) : NodeBasedDynamicGraph :=
  let edge1_data := graph.GetEdgeData edge1
  let edge2_data := graph.GetEdgeData edge2
  let sum := { edge1_data with
    weight := wrap32 (edge1_data.weight + edge2_data.weight)
    duration := wrap32 (edge1_data.duration + edge2_data.duration)
    distance := edge1_data.distance + edge2_data.distance }
  graph.setEdgeData edge1
    (if HasPenalty penalty.weight penalty.duration then
      { sum with weight := wrap32 (sum.weight + penalty.weight), duration := wrap32 (sum.duration + penalty.duration) }
    else sum)

structure State where
  graph : NodeBasedDynamicGraph
  traffic_signals : TrafficSignals
  geometry_compressor : CompressedEdgeContainer

/-- The edges around a node that is compressed, and the nodes at their ends. -/
structure Around where
  node_u : NodeID
  node_v : NodeID
  node_w : NodeID
  forward_e1 : EdgeID
  forward_e2 : EdgeID
  reverse_e1 : EdgeID
  reverse_e2 : EdgeID

/-- The edges around a node of degree two. -/
def around (graph : NodeBasedDynamicGraph) (node_v : NodeID) : Option Around :=
  let reverse_edge_order := (graph.GetEdgeData (graph.BeginEdges node_v)).reversed
  let forward_e2 := graph.BeginEdges node_v + reverse_edge_order.toNat
  let reverse_e2 := graph.BeginEdges node_v + 1 - reverse_edge_order.toNat
  let node_w := graph.GetTarget forward_e2
  let node_u := graph.GetTarget reverse_e2
  match graph.FindEdge node_u node_v,graph.FindEdge node_w node_v with
  | some forward_e1,some reverse_e1 => some ⟨node_u,node_v,node_w,forward_e1,forward_e2,reverse_e1,reverse_e2⟩
  | _,_ => none

/-- The edges on both sides can be one edge. -/
def compatible (environment : Environment) (graph : NodeBasedDynamicGraph) (a : Around) : Bool :=
  let fwd_edge_data1 := graph.GetEdgeData a.forward_e1
  let fwd_edge_data2 := graph.GetEdgeData a.forward_e2
  let rev_edge_data1 := graph.GetEdgeData a.reverse_e1
  let rev_edge_data2 := graph.GetEdgeData a.reverse_e2
  let fwd_annotation_data1 := environment.node_data_container fwd_edge_data1.annotation_data
  let fwd_annotation_data2 := environment.node_data_container fwd_edge_data2.annotation_data
  let rev_annotation_data1 := environment.node_data_container rev_edge_data1.annotation_data
  let rev_annotation_data2 := environment.node_data_container rev_edge_data2.annotation_data
  (graph.FindEdgeInEitherDirection a.node_u a.node_w).isNone &&
    -- Two ways with different names may overlap.
    (fwd_annotation_data1.name_id == rev_annotation_data1.name_id && fwd_annotation_data2.name_id == rev_annotation_data2.name_id) &&
    (fwd_edge_data1.flags == fwd_edge_data2.flags && rev_edge_data1.flags == rev_edge_data2.flags &&
      fwd_edge_data1.reversed == fwd_edge_data2.reversed && rev_edge_data1.reversed == rev_edge_data2.reversed &&
      fwd_annotation_data1.CanCombineWith fwd_annotation_data2 && rev_annotation_data1.CanCombineWith rev_annotation_data2)

def selectAnnotation (environment : Environment) : ℕ → ℕ → ℕ := fun front_annotation back_annotation =>
  if (environment.node_data_container back_annotation).lane_description_id = INVALID_LANE_DESCRIPTIONID then front_annotation
  else back_annotation
def annotate (environment : Environment) (graph : NodeBasedDynamicGraph) (edges : EdgeID × EdgeID) : NodeBasedDynamicGraph :=
  graph.setEdgeData edges.1 { graph.GetEdgeData edges.1 with
    annotation_data := selectAnnotation environment (graph.GetEdgeData edges.1).annotation_data
      (graph.GetEdgeData edges.2).annotation_data }

def annotateAround (environment : Environment) (graph : NodeBasedDynamicGraph) (a : Around) : NodeBasedDynamicGraph :=
  [(a.forward_e1,a.forward_e2),(a.reverse_e1,a.reverse_e2),(a.forward_e2,a.forward_e1),(a.reverse_e2,a.reverse_e1)].foldl
    (annotate environment) graph

/-- The edges to the node get the weights and the targets of the edges from it, which are deleted. -/
def mergeEdges (graph : NodeBasedDynamicGraph) (a : Around) (forward reverse : NodePenalty) : NodeBasedDynamicGraph :=
  let graph := apply_e2_to_e1 graph a.forward_e1 a.forward_e2 forward
  let graph := apply_e2_to_e1 graph a.reverse_e1 a.reverse_e2 reverse
  let graph := graph.SetTarget a.forward_e1 a.node_w
  let graph := graph.SetTarget a.reverse_e1 a.node_u
  let graph := graph.DeleteEdge a.node_v a.forward_e2
  graph.DeleteEdge a.node_v a.reverse_e2

/-- The geometries of both directions. -/
def storeGeometries (container : CompressedEdgeContainer) (graph : NodeBasedDynamicGraph) (a : Around)
    (forward reverse : NodePenalty) : CompressedEdgeContainer :=
  let container := container.CompressEdge a.forward_e1 a.forward_e2 a.node_v a.node_w (graph.GetEdgeData a.forward_e1).weight
    (graph.GetEdgeData a.forward_e2).weight (graph.GetEdgeData a.forward_e1).duration (graph.GetEdgeData a.forward_e2).duration
    forward.weight forward.duration
  container.CompressEdge a.reverse_e1 a.reverse_e2 a.node_v a.node_u (graph.GetEdgeData a.reverse_e1).weight
    (graph.GetEdgeData a.reverse_e2).weight (graph.GetEdgeData a.reverse_e1).duration (graph.GetEdgeData a.reverse_e2).duration
    reverse.weight reverse.duration

def nodePenalties (environment : Environment) (traffic_signals : TrafficSignals) (a : Around) : NodePenalty × NodePenalty :=
  let turn := environment.ProcessTurn a.node_v
  (directionPenalty environment turn (traffic_signals.HasSignal a.node_u a.node_v),
    directionPenalty environment turn (traffic_signals.HasSignal a.node_w a.node_v))

/-- The body of the first loop. -/
def compressNode (environment : Environment) (state : State) (node_v : NodeID) : State :=
  if state.graph.GetOutDegree node_v ≠ 2 then state
  else if environment.barrier_nodes node_v then state
  else if environment.incompressible_via_nodes node_v then state
  else
    match around state.graph node_v with
    | none => state
    | some a =>
      if compatible environment state.graph a then
        let graph := annotateAround environment state.graph a
        if (state.traffic_signals.HasSignal a.node_u a.node_v || state.traffic_signals.HasSignal a.node_w a.node_v) &&
            (graph.GetEdgeData a.forward_e1).flags.restricted != (graph.GetEdgeData a.forward_e2).flags.restricted then
          { state with graph := graph }
        else
          let penalties := nodePenalties environment state.traffic_signals a
          -- The other direction gets an empty penalty, so that both geometries have as many segments.
          let forward := set_dummy_penalty penalties.1 penalties.2
          let reverse := set_dummy_penalty penalties.2 forward
          { graph := mergeEdges graph a penalties.1 penalties.2
            traffic_signals := state.traffic_signals.Compress a.node_u a.node_v a.node_w
            geometry_compressor := storeGeometries state.geometry_compressor graph a forward reverse }
      else state

/-- The body of the second loop. -/
def addUncompressed (state : State) (edge_id : EdgeID) : State :=
  let data := state.graph.GetEdgeData edge_id
  let target := state.graph.GetTarget edge_id
  { state with geometry_compressor := state.geometry_compressor.AddUncompressedEdge edge_id target data.weight data.duration }

def allEdges (graph : NodeBasedDynamicGraph) : List EdgeID :=
  (List.range graph.number_of_nodes).flatMap fun node_u => List.range' (graph.BeginEdges node_u) (graph.GetOutDegree node_u)
def Compress (environment : Environment) (state : State) : State :=
  let state := (List.range state.graph.number_of_nodes).foldl (compressNode environment) state
  (allEdges state.graph).foldl addUncompressed state

/-! ### What a step does to the graph -/

def Live (graph : NodeBasedDynamicGraph) (e : EdgeID) (s : NodeID) : Prop := graph.BeginEdges s ≤ e ∧ e < graph.EndEdges s

/-- Every edge has one source and an opposite edge; there are no loops and no parallel edges. -/
structure WellFormed (graph : NodeBasedDynamicGraph) : Prop where
  inside : ∀ e s, Live graph e s → s < graph.number_of_nodes
  apart : ∀ e s s', Live graph e s → Live graph e s' → s = s'
  no_loop : ∀ e s, Live graph e s → graph.GetTarget e ≠ s
  simple : ∀ e e' s, Live graph e s → Live graph e' s → graph.GetTarget e = graph.GetTarget e' → e = e'
  opposite : ∀ e s, Live graph e s → ∃ e', Live graph e' (graph.GetTarget e) ∧ graph.GetTarget e' = s

variable {graph after original : NodeBasedDynamicGraph} {a : Around} {e : EdgeID}

private theorem FindEdge_some {s t : NodeID} (found : graph.FindEdge s t = some e) : Live graph e s ∧ graph.GetTarget e = t := by
  have target := find?_some found
  have member := mem_of_find?_eq_some found
  rw [mem_range'_1] at member
  exact ⟨member,(by simpa using target : t = graph.GetTarget e).symm⟩

private theorem FindEdge_none {s t : NodeID} (missing : graph.FindEdge s t = none) (live : Live graph e s) :
    graph.GetTarget e ≠ t := by
  have other := find?_eq_none.mp missing e (mem_range'_1.mpr live)
  intro same
  simp [same] at other

structure IsAround (graph : NodeBasedDynamicGraph) (a : Around) : Prop where
  forward_e2 : Live graph a.forward_e2 a.node_v ∧ graph.GetTarget a.forward_e2 = a.node_w
  reverse_e2 : Live graph a.reverse_e2 a.node_v ∧ graph.GetTarget a.reverse_e2 = a.node_u
  both : ∀ e, Live graph e a.node_v ↔ e = a.forward_e2 ∨ e = a.reverse_e2
  different : a.forward_e2 ≠ a.reverse_e2
  forward_e1 : Live graph a.forward_e1 a.node_u ∧ graph.GetTarget a.forward_e1 = a.node_v
  reverse_e1 : Live graph a.reverse_e1 a.node_w ∧ graph.GetTarget a.reverse_e1 = a.node_v

theorem around_spec {node_v : NodeID} (degree : graph.GetOutDegree node_v = 2) (found : around graph node_v = some a) :
    a.node_v = node_v ∧ IsAround graph a := by
  unfold around at found
  simp only at found
  split at found
  next forward_e1 reverse_e1 forward reverse =>
    cases found
    refine ⟨rfl,?_⟩
    have range : ∀ e, Live graph e node_v ↔ e = graph.BeginEdges node_v ∨ e = graph.BeginEdges node_v + 1 := by
      intro e
      have size : (graph.node_array node_v).edges = 2 := degree
      unfold Live NodeBasedDynamicGraph.EndEdges NodeBasedDynamicGraph.BeginEdges
      rw [size]
      lia
    have first := FindEdge_some forward
    have second := FindEdge_some reverse
    cases order : (graph.GetEdgeData (graph.BeginEdges node_v)).reversed with
    | false =>
      simp only [order,Bool.toNat_false,Nat.add_zero,Nat.sub_zero] at first second ⊢
      exact ⟨⟨(range _).mpr (.inl rfl),rfl⟩,⟨(range _).mpr (.inr rfl),rfl⟩,range,by simp,first,second⟩
    | true =>
      simp only [order,Bool.toNat_true,Nat.add_sub_cancel] at first second ⊢
      exact ⟨⟨(range _).mpr (.inr rfl),rfl⟩,⟨(range _).mpr (.inl rfl),rfl⟩,fun e => (range e).trans or_comm,by simp,first,second⟩
  next => simp at found

namespace IsAround
variable (around : IsAround graph a) (wellFormed : WellFormed graph)
include around wellFormed

private theorem u_ne_w : a.node_u ≠ a.node_w := by
  intro same
  apply around.different
  apply wellFormed.simple _ _ _ around.forward_e2.1 around.reverse_e2.1
  rw [around.forward_e2.2,around.reverse_e2.2,same]

private theorem u_ne_v : a.node_u ≠ a.node_v := by
  intro same
  have := wellFormed.no_loop _ _ around.reverse_e2.1
  exact this (around.reverse_e2.2.trans same)

private theorem w_ne_v : a.node_w ≠ a.node_v := by
  intro same
  have := wellFormed.no_loop _ _ around.forward_e2.1
  exact this (around.forward_e2.2.trans same)

theorem e1_ne : a.forward_e1 ≠ a.reverse_e1 := by
  intro same
  apply around.u_ne_w wellFormed
  exact wellFormed.apart _ _ _ around.forward_e1.1 (same ▸ around.reverse_e1.1)

theorem e1_ne_e2 {e1 e2 : EdgeID} (first : e1 = a.forward_e1 ∨ e1 = a.reverse_e1) (second : e2 = a.forward_e2 ∨ e2 = a.reverse_e2) :
    e1 ≠ e2 := by
  rintro rfl
  have live := (around.both e1).mpr second
  rcases first with rfl | rfl
  · exact around.u_ne_v wellFormed (wellFormed.apart _ _ _ around.forward_e1.1 live)
  · exact around.w_ne_v wellFormed (wellFormed.apart _ _ _ around.reverse_e1.1 live)

end IsAround

/-- Two graphs with the same edges, which may differ in their annotations. -/
structure Alike (graph after : NodeBasedDynamicGraph) : Prop where
  number : after.number_of_nodes = graph.number_of_nodes
  nodes : after.node_array = graph.node_array
  target : ∀ e, after.GetTarget e = graph.GetTarget e
  weight : ∀ e, (after.GetEdgeData e).weight = (graph.GetEdgeData e).weight
  duration : ∀ e, (after.GetEdgeData e).duration = (graph.GetEdgeData e).duration

theorem Alike.live (alike : Alike graph after) (e : EdgeID) (s : NodeID) : Live after e s ↔ Live graph e s := by
  unfold Live NodeBasedDynamicGraph.EndEdges NodeBasedDynamicGraph.BeginEdges
  rw [alike.nodes]

private theorem annotate_alike (environment : Environment) (graph : NodeBasedDynamicGraph) (edges : EdgeID × EdgeID) :
    Alike graph (annotate environment graph edges) := by
  have entry : ∀ e, (annotate environment graph edges).GetTarget e = graph.GetTarget e ∧
      ((annotate environment graph edges).GetEdgeData e).weight = (graph.GetEdgeData e).weight ∧
      ((annotate environment graph edges).GetEdgeData e).duration = (graph.GetEdgeData e).duration := by
    intro e
    unfold annotate NodeBasedDynamicGraph.setEdgeData NodeBasedDynamicGraph.GetTarget NodeBasedDynamicGraph.GetEdgeData
    by_cases same : e = edges.1
    · simp [same]
    · simp [same]
  exact ⟨rfl,rfl,fun e => (entry e).1,fun e => (entry e).2.1,fun e => (entry e).2.2⟩

theorem annotateAround_alike (environment : Environment) (graph : NodeBasedDynamicGraph) (a : Around) :
    Alike graph (annotateAround environment graph a) := by
  have folded : ∀ (assignments : List (EdgeID × EdgeID)) (graph : NodeBasedDynamicGraph),
      Alike graph (assignments.foldl (annotate environment) graph) := by
    intro assignments
    induction assignments with
    | nil =>
      intro graph
      exact ⟨rfl,rfl,fun _ => rfl,fun _ => rfl,fun _ => rfl⟩
    | cons edges assignments ih =>
      intro graph
      have one := annotate_alike environment graph edges
      have rest := ih (annotate environment graph edges)
      exact ⟨rest.number.trans one.number,rest.nodes.trans one.nodes,fun e => (rest.target e).trans (one.target e),
        fun e => (rest.weight e).trans (one.weight e),fun e => (rest.duration e).trans (one.duration e)⟩
  exact folded _ graph

private theorem DeleteEdge_other {source : NodeID} {deleted e : EdgeID} (ne : e ≠ deleted)
    (not_last : e ≠ graph.BeginEdges source + (graph.GetOutDegree source - 1)) :
    (graph.DeleteEdge source deleted).edge_list e = graph.edge_list e := by
  unfold NodeBasedDynamicGraph.DeleteEdge NodeBasedDynamicGraph.makeDummy NodeBasedDynamicGraph.SetTarget
  exact (update_of_ne not_last ..).trans (update_of_ne ne ..)
private theorem DeleteEdge_nodes (graph : NodeBasedDynamicGraph) (source : NodeID) (deleted : EdgeID) :
    (graph.DeleteEdge source deleted).node_array = Function.update graph.node_array source
      { graph.node_array source with edges := (graph.node_array source).edges - 1 } := rfl

def NodePenalty.added (penalty : NodePenalty) : EdgeWeight × EdgeDuration :=
  if HasPenalty penalty.weight penalty.duration then (penalty.weight,penalty.duration) else (0,0)

/-- The edges over the node are extended and those of the node are gone. -/
structure Merged (graph after : NodeBasedDynamicGraph) (a : Around) (forward reverse : NodePenalty) : Prop where
  number : after.number_of_nodes = graph.number_of_nodes
  live : ∀ e s, Live after e s ↔ Live graph e s ∧ s ≠ a.node_v
  target_forward : after.GetTarget a.forward_e1 = a.node_w
  target_reverse : after.GetTarget a.reverse_e1 = a.node_u
  weight_forward : (after.GetEdgeData a.forward_e1).weight =
    (graph.GetEdgeData a.forward_e1).weight + (graph.GetEdgeData a.forward_e2).weight + forward.added.1
  weight_reverse : (after.GetEdgeData a.reverse_e1).weight =
    (graph.GetEdgeData a.reverse_e1).weight + (graph.GetEdgeData a.reverse_e2).weight + reverse.added.1
  duration_forward : (after.GetEdgeData a.forward_e1).duration =
    (graph.GetEdgeData a.forward_e1).duration + (graph.GetEdgeData a.forward_e2).duration + forward.added.2
  duration_reverse : (after.GetEdgeData a.reverse_e1).duration =
    (graph.GetEdgeData a.reverse_e1).duration + (graph.GetEdgeData a.reverse_e2).duration + reverse.added.2
  others : ∀ e s, Live graph e s → s ≠ a.node_v → e ≠ a.forward_e1 → e ≠ a.reverse_e1 → after.edge_list e = graph.edge_list e

/-- The sums over two edges and the penalty between them fit 32 bits. -/
structure SumsFit (graph : NodeBasedDynamicGraph) (edge1 edge2 : EdgeID) (penalty : NodePenalty) : Prop where
  weight : Fits32 ((graph.GetEdgeData edge1).weight + (graph.GetEdgeData edge2).weight)
  duration : Fits32 ((graph.GetEdgeData edge1).duration + (graph.GetEdgeData edge2).duration)
  all_weight : Fits32 ((graph.GetEdgeData edge1).weight + (graph.GetEdgeData edge2).weight + penalty.added.1)
  all_duration : Fits32 ((graph.GetEdgeData edge1).duration + (graph.GetEdgeData edge2).duration + penalty.added.2)

private theorem apply_edge_list {edge1 edge2 : EdgeID} {penalty : NodePenalty} (fit : SumsFit graph edge1 edge2 penalty) :
    ∃ data, (apply_e2_to_e1 graph edge1 edge2 penalty).edge_list =
        Function.update graph.edge_list edge1 { graph.edge_list edge1 with data := data } ∧
      data.weight = (graph.GetEdgeData edge1).weight + (graph.GetEdgeData edge2).weight + penalty.added.1 ∧
      data.duration = (graph.GetEdgeData edge1).duration + (graph.GetEdgeData edge2).duration + penalty.added.2 := by
  obtain ⟨weight,duration,all_weight,all_duration⟩ := fit
  refine ⟨_,rfl,?_,?_⟩
  · unfold NodePenalty.added at all_weight ⊢
    by_cases has : HasPenalty penalty.weight penalty.duration
    · simp only [has,if_true] at all_weight ⊢
      rw [wrap32_of_fits weight,wrap32_of_fits all_weight]
    · simp only [has,if_false]
      rw [wrap32_of_fits weight,add_zero]
  · unfold NodePenalty.added at all_duration ⊢
    by_cases has : HasPenalty penalty.weight penalty.duration
    · simp only [has,if_true] at all_duration ⊢
      rw [wrap32_of_fits duration,wrap32_of_fits all_duration]
    · simp only [has,if_false]
      rw [wrap32_of_fits duration,add_zero]

private theorem deleteBoth (around : IsAround graph a) (degree : graph.GetOutDegree a.node_v = 2) {extended : NodeBasedDynamicGraph}
    (nodes : extended.node_array = graph.node_array) :
    (∀ e s, Live ((extended.DeleteEdge a.node_v a.forward_e2).DeleteEdge a.node_v a.reverse_e2) e s ↔
        Live graph e s ∧ s ≠ a.node_v) ∧
      ∀ e, e ≠ a.forward_e2 → e ≠ a.reverse_e2 →
        ((extended.DeleteEdge a.node_v a.forward_e2).DeleteEdge a.node_v a.reverse_e2).edge_list e = extended.edge_list e := by
  have size : (graph.node_array a.node_v).edges = 2 := degree
  constructor
  · intro e s
    unfold Live NodeBasedDynamicGraph.EndEdges NodeBasedDynamicGraph.BeginEdges
    rw [DeleteEdge_nodes,DeleteEdge_nodes,nodes]
    by_cases same : s = a.node_v
    · subst same
      simp [size]
    · simp [same]
  · intro e not_forward not_reverse
    have deleted (i : ℕ) (inside : i < 2) : e ≠ graph.BeginEdges a.node_v + i := by
      rintro rfl
      have live : Live graph (graph.BeginEdges a.node_v + i) a.node_v := by
        unfold Live NodeBasedDynamicGraph.EndEdges NodeBasedDynamicGraph.BeginEdges
        rw [size]
        lia
      exact ((around.both _).mp live).elim not_forward not_reverse
    have first : e ≠ graph.BeginEdges a.node_v := deleted 0 (by decide)
    have second : e ≠ graph.BeginEdges a.node_v + 1 := deleted 1 (by decide)
    rw [DeleteEdge_other not_reverse,DeleteEdge_other not_forward]
    · unfold NodeBasedDynamicGraph.BeginEdges NodeBasedDynamicGraph.GetOutDegree
      rw [nodes,size]
      exact second
    · unfold NodeBasedDynamicGraph.BeginEdges NodeBasedDynamicGraph.GetOutDegree
      rw [DeleteEdge_nodes,update_self,nodes]
      simpa [size,NodeBasedDynamicGraph.BeginEdges] using first

theorem mergeEdges_spec (wellFormed : WellFormed graph) (around : IsAround graph a) (degree : graph.GetOutDegree a.node_v = 2)
    {forward reverse : NodePenalty} (fit_forward : SumsFit graph a.forward_e1 a.forward_e2 forward)
    (fit_reverse : SumsFit graph a.reverse_e1 a.reverse_e2 reverse) :
    Merged graph (mergeEdges graph a forward reverse) a forward reverse := by
  have e1 := around.e1_ne wellFormed
  have apart := @IsAround.e1_ne_e2 _ _ around wellFormed
  obtain ⟨forward_data,forward_list,forward_weight,forward_duration⟩ := apply_edge_list fit_forward
  have unchanged : ∀ e, e ≠ a.forward_e1 →
      (apply_e2_to_e1 graph a.forward_e1 a.forward_e2 forward).GetEdgeData e = graph.GetEdgeData e := by
    intro e ne
    rw [NodeBasedDynamicGraph.GetEdgeData,forward_list,update_of_ne ne]
    rfl
  have same_e1 := unchanged _ e1.symm
  have same_e2 := unchanged _ (apart (.inl rfl) (.inr rfl)).symm
  have fit_later : SumsFit (apply_e2_to_e1 graph a.forward_e1 a.forward_e2 forward) a.reverse_e1 a.reverse_e2 reverse := by
    constructor
    · simpa only [same_e1,same_e2] using fit_reverse.weight
    · simpa only [same_e1,same_e2] using fit_reverse.duration
    · simpa only [same_e1,same_e2] using fit_reverse.all_weight
    · simpa only [same_e1,same_e2] using fit_reverse.all_duration
  obtain ⟨reverse_data,reverse_list,reverse_weight,reverse_duration⟩ := apply_edge_list fit_later
  rw [same_e1,same_e2] at reverse_weight reverse_duration
  -- the graph before the edges of the node are deleted
  obtain ⟨extended,extended_eq⟩ : ∃ extended, ((apply_e2_to_e1 (apply_e2_to_e1 graph a.forward_e1 a.forward_e2 forward) a.reverse_e1
      a.reverse_e2 reverse).SetTarget a.forward_e1 a.node_w).SetTarget a.reverse_e1 a.node_u = extended := ⟨_,rfl⟩
  have nodes : extended.node_array = graph.node_array := by
    rw [← extended_eq]
    rfl
  have at_forward : extended.edge_list a.forward_e1 = ⟨a.node_w,forward_data⟩ := by
    simp [← extended_eq,NodeBasedDynamicGraph.SetTarget,reverse_list,forward_list,e1]
  have at_reverse : extended.edge_list a.reverse_e1 = ⟨a.node_u,reverse_data⟩ := by
    simp [← extended_eq,NodeBasedDynamicGraph.SetTarget,reverse_list,e1.symm]
  have at_others : ∀ e, e ≠ a.forward_e1 → e ≠ a.reverse_e1 → extended.edge_list e = graph.edge_list e := by
    intro e not_forward not_reverse
    simp [← extended_eq,NodeBasedDynamicGraph.SetTarget,reverse_list,forward_list,not_forward,not_reverse]
  obtain ⟨live,edges⟩ := deleteBoth around degree nodes
  have after_eq : mergeEdges graph a forward reverse =
      (extended.DeleteEdge a.node_v a.forward_e2).DeleteEdge a.node_v a.reverse_e2 := by
    rw [← extended_eq]
    rfl
  rw [after_eq]
  have forward_edge := (edges a.forward_e1 (apart (.inl rfl) (.inl rfl)) (apart (.inl rfl) (.inr rfl))).trans at_forward
  have reverse_edge := (edges a.reverse_e1 (apart (.inr rfl) (.inl rfl)) (apart (.inr rfl) (.inr rfl))).trans at_reverse
  constructor
  · rw [← extended_eq]
    rfl
  · exact live
  · rw [NodeBasedDynamicGraph.GetTarget,forward_edge]
  · rw [NodeBasedDynamicGraph.GetTarget,reverse_edge]
  · rw [NodeBasedDynamicGraph.GetEdgeData,forward_edge]
    exact forward_weight
  · rw [NodeBasedDynamicGraph.GetEdgeData,reverse_edge]
    exact reverse_weight
  · rw [NodeBasedDynamicGraph.GetEdgeData,forward_edge]
    exact forward_duration
  · rw [NodeBasedDynamicGraph.GetEdgeData,reverse_edge]
    exact reverse_duration
  · intro e s live_e elsewhere not_forward not_reverse
    rw [edges e]
    · exact at_others e not_forward not_reverse
    · rintro rfl
      exact elsewhere (wellFormed.apart _ _ _ live_e around.forward_e2.1)
    · rintro rfl
      exact elsewhere (wellFormed.apart _ _ _ live_e around.reverse_e2.1)

section Step
variable {forward reverse : NodePenalty} (valid : WellFormed graph) (around : IsAround graph a)
  (merged : Merged graph after a forward reverse)

include valid around in
private theorem IsAround.into {s : NodeID} (live : Live graph e s) (ends : graph.GetTarget e = a.node_v) :
    e = a.forward_e1 ∨ e = a.reverse_e1 := by
  obtain ⟨back,back_live,back_target⟩ := valid.opposite e s live
  rw [ends] at back_live
  rcases (around.both back).mp back_live with rfl | rfl
  · right
    rw [around.forward_e2.2] at back_target
    subst back_target
    exact valid.simple _ _ _ live around.reverse_e1.1 (ends.trans around.reverse_e1.2.symm)
  · left
    rw [around.reverse_e2.2] at back_target
    subst back_target
    exact valid.simple _ _ _ live around.forward_e1.1 (ends.trans around.forward_e1.2.symm)

structure Untouched (graph after : NodeBasedDynamicGraph) (a : Around) (e : EdgeID) (s : NodeID) : Prop where
  live : Live graph e s
  elsewhere : s ≠ a.node_v
  not_forward : e ≠ a.forward_e1
  not_reverse : e ≠ a.reverse_e1
  target : after.GetTarget e = graph.GetTarget e
  data : after.GetEdgeData e = graph.GetEdgeData e
  target_elsewhere : graph.GetTarget e ≠ a.node_v

include valid around merged in
theorem Merged.cases {s : NodeID} (live : Live after e s) :
    (e = a.forward_e1 ∧ s = a.node_u) ∨ (e = a.reverse_e1 ∧ s = a.node_w) ∨ Untouched graph after a e s := by
  obtain ⟨before,elsewhere⟩ := (merged.live e s).mp live
  by_cases is_forward : e = a.forward_e1
  · subst is_forward
    exact .inl ⟨rfl,valid.apart _ _ _ before around.forward_e1.1⟩
  · by_cases is_reverse : e = a.reverse_e1
    · subst is_reverse
      exact .inr (.inl ⟨rfl,valid.apart _ _ _ before around.reverse_e1.1⟩)
    · have same := merged.others e s before elsewhere is_forward is_reverse
      refine .inr (.inr ⟨before,elsewhere,is_forward,is_reverse,congrArg (·.target) same,congrArg (·.data) same,?_⟩)
      intro ends
      exact (around.into valid before ends).elim is_forward is_reverse

include valid around merged in
theorem Merged.live_forward : Live after a.forward_e1 a.node_u :=
  (merged.live _ _).mpr ⟨around.forward_e1.1,around.u_ne_v valid⟩

include valid around merged in
theorem Merged.live_reverse : Live after a.reverse_e1 a.node_w :=
  (merged.live _ _).mpr ⟨around.reverse_e1.1,around.w_ne_v valid⟩

include valid around merged in
theorem Merged.back {e' : EdgeID} {s t : NodeID} (elsewhere : s ≠ a.node_v) (live : Live graph e' t) (not_v : t ≠ a.node_v)
    (back : graph.GetTarget e' = s) : Untouched graph after a e' t := by
  have live_after : Live after e' t := (merged.live _ _).mpr ⟨live,not_v⟩
  rcases merged.cases valid around live_after with ⟨rfl,_⟩ | ⟨rfl,_⟩ | untouched
  · rw [around.forward_e1.2] at back
    exact absurd back.symm elsewhere
  · rw [around.reverse_e1.2] at back
    exact absurd back.symm elsewhere
  · exact untouched

include valid around merged in
theorem Merged.wellFormed (apart : graph.FindEdgeInEitherDirection a.node_u a.node_w = none) : WellFormed after := by
  obtain ⟨no_forward,no_reverse⟩ := Option.or_eq_none_iff.mp apart
  have u_ne_w := around.u_ne_w valid
  constructor
  · intro e s live
    rw [merged.number]
    exact valid.inside e s ((merged.live e s).mp live).1
  · intro e s s' live live'
    exact valid.apart e s s' ((merged.live e s).mp live).1 ((merged.live e s').mp live').1
  · intro e s live
    rcases merged.cases valid around live with ⟨rfl,rfl⟩ | ⟨rfl,rfl⟩ | untouched
    · rw [merged.target_forward]
      exact u_ne_w.symm
    · rw [merged.target_reverse]
      exact u_ne_w
    · rw [untouched.target]
      exact valid.no_loop e s untouched.live
  · intro e e' s live live' same
    rcases merged.cases valid around live with ⟨rfl,rfl⟩ | ⟨rfl,rfl⟩ | untouched
    · rw [merged.target_forward] at same
      rcases merged.cases valid around live' with ⟨rfl,_⟩ | ⟨_,shared⟩ | untouched'
      · rfl
      · exact absurd shared u_ne_w
      · rw [untouched'.target] at same
        exact absurd same.symm (FindEdge_none no_forward untouched'.live)
    · rw [merged.target_reverse] at same
      rcases merged.cases valid around live' with ⟨_,shared⟩ | ⟨rfl,_⟩ | untouched'
      · exact absurd shared.symm u_ne_w
      · rfl
      · rw [untouched'.target] at same
        exact absurd same.symm (FindEdge_none no_reverse untouched'.live)
    · rw [untouched.target] at same
      rcases merged.cases valid around live' with ⟨rfl,rfl⟩ | ⟨rfl,rfl⟩ | untouched'
      · rw [merged.target_forward] at same
        exact absurd same (FindEdge_none no_forward untouched.live)
      · rw [merged.target_reverse] at same
        exact absurd same (FindEdge_none no_reverse untouched.live)
      · rw [untouched'.target] at same
        exact valid.simple e e' s untouched.live untouched'.live same
  · intro e s live
    rcases merged.cases valid around live with ⟨rfl,rfl⟩ | ⟨rfl,rfl⟩ | untouched
    · refine ⟨a.reverse_e1,?_,merged.target_reverse⟩
      rw [merged.target_forward]
      exact merged.live_reverse valid around
    · refine ⟨a.forward_e1,?_,merged.target_forward⟩
      rw [merged.target_reverse]
      exact merged.live_forward valid around
    · obtain ⟨e',live',target'⟩ := valid.opposite e s untouched.live
      have back := merged.back valid around untouched.elsewhere live' untouched.target_elsewhere target'
      refine ⟨e',?_,back.target.trans target'⟩
      rw [untouched.target]
      exact (merged.live _ _).mpr ⟨live',untouched.target_elsewhere⟩

end Step

end Osrm.GraphCompressor
