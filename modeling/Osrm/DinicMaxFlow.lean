import Osrm.Loops
import Osrm.RecursiveBisection
import Osrm.UnitFlows

/-!
`partitioner/dinic_max_flow.cpp`. A minimum cut between two sets of nodes: levels by breadth-first search from the
sources, paths by depth-first search down the levels, until no sink has a level any more.
-/
namespace Osrm.DinicMaxFlow
open Typedefs Loops RecursiveBisection

/-- A range of the nodes of a bisection graph, with the targets relative to its begin. -/
structure BisectionGraphView where
  bisection_graph : BisectionGraph
  view_begin : ℕ
  view_end : ℕ
  room : view_end ≤ bisection_graph.nodes.length
  closed : bisection_graph.Closed view_begin view_end
  small : view_end - view_begin ≤ SPECIAL_NODEID

namespace BisectionGraphView

def NumberOfNodes (view : BisectionGraphView) : ℕ := view.view_end - view.view_begin
def Edges (view : BisectionGraphView) (nid : NodeID) : List BisectionEdge :=
  view.bisection_graph.Edges (view.bisection_graph.Node (view.view_begin + nid))
def targets (view : BisectionGraphView) (nid : NodeID) : List NodeID := (view.Edges nid).map BisectionEdge.target

end BisectionGraphView

def INVALID_LEVEL : ℕ := 4294967295
abbrev LevelGraph := NodeID → ℕ
abbrev FlowEdges := NodeID → Finset NodeID

structure MinCut where
  num_nodes_source : ℕ
  num_edges : ℕ
  flags : List Bool
  deriving DecidableEq, Repr

section Algorithm
variable (view : BisectionGraphView) (source_nodes sink_nodes : List NodeID)

def hasNeighborNotIn (nodes : List NodeID) (nid : NodeID) : Bool := (view.targets nid).any fun target => target ∉ nodes

structure LevelSearch where
  levels : LevelGraph
  level_queue : List NodeID

/-- A source on the border and its neighbors among the sources get the level zero. -/
def enqueueSource (s : LevelSearch) (node_id : NodeID) : LevelSearch where
  levels := (view.targets node_id).foldl (fun levels target => if target ∈ source_nodes then Function.update levels target 0 else levels)
    (Function.update s.levels node_id 0)
  level_queue := s.level_queue ++ [node_id]

def relaxEdge (flow : FlowEdges) (node_id : NodeID) (level : ℕ) (s : LevelSearch) (target : NodeID) : LevelSearch :=
  if target ∈ flow node_id then s
  else if s.levels target > level then ⟨Function.update s.levels target level,s.level_queue ++ [target]⟩ else s
def relax_node (flow : FlowEdges) (s : LevelSearch) (node_id : NodeID) : LevelSearch :=
  if node_id ∈ sink_nodes then s
  else (view.targets node_id).foldl (relaxEdge flow node_id ((s.levels node_id + 1) % 2 ^ 32)) s

def relaxFront (flow : FlowEdges) (s : LevelSearch) : LevelSearch :=
  match s.level_queue with
  | [] => s
  | front :: _ =>
    let relaxed := relax_node view sink_nodes flow s front
    { relaxed with level_queue := relaxed.level_queue.tail }

def ComputeLevelGraph (border_source_nodes : List NodeID) (flow : FlowEdges) (fuel : ℕ) : Option LevelGraph :=
  (whileLoop (fun s => !s.level_queue.isEmpty) (relaxFront view sink_nodes flow) fuel
    (border_source_nodes.foldl (enqueueSource view source_nodes) ⟨fun _ => INVALID_LEVEL,[]⟩)).map LevelSearch.levels

/-- The path from the sink, last node first, and for each node but a source the edges that were not looked at. -/
structure PathSearch where
  levels : LevelGraph
  path : List NodeID
  dfs_stack : List (List NodeID)
  found : Bool

/-- One edge of the last node of the path is looked at, or the node is given up. -/
def pathStep (flow : FlowEdges) (s : PathSearch) : PathSearch :=
  match s.path,s.dfs_stack with
  | back :: path,(target :: edges) :: dfs_stack =>
    if back ∉ flow target ∧ (s.levels target + 1) % 2 ^ 32 = s.levels back then
      if target ∈ source_nodes then { s with path := target :: back :: path,dfs_stack := edges :: dfs_stack,found := true }
      else { s with path := target :: back :: path,dfs_stack := view.targets target :: edges :: dfs_stack }
    else { s with dfs_stack := edges :: dfs_stack }
  | back :: path,[] :: dfs_stack =>
    { s with levels := Function.update s.levels back INVALID_LEVEL,path := path,dfs_stack := dfs_stack }
  | _,_ => s

/-- The path from a source, no node of it if there is none, and the levels that are left. -/
def GetAugmentingPath (levels : LevelGraph) (node_id : NodeID) (flow : FlowEdges) (fuel : ℕ) : Option (List NodeID × LevelGraph) :=
  (whileLoop (fun s => !s.found && !s.dfs_stack.isEmpty) (pathStep view source_nodes flow) fuel
    ⟨levels,[node_id],[view.targets node_id],false⟩).map fun s => (s.path,s.levels)
def augment_one (flow : FlowEdges) (source target : NodeID) : FlowEdges :=
  if source ∈ flow target then Function.update flow target ((flow target).erase source)
  else Function.update flow source (insert target (flow source))
def augment_flow (flow : FlowEdges) : List NodeID → FlowEdges
  | source :: target :: path => augment_flow (augment_one flow source target) (target :: path)
  | _ => flow

structure Blocking where
  flow : FlowEdges
  levels : LevelGraph
  flow_increase : ℕ
  finished : Bool

/-- A round of the loop that looks for paths to a sink. -/
def augmentPath (sink_node_id : NodeID) (fuel : ℕ) (s : Blocking) : Option Blocking :=
  (GetAugmentingPath view source_nodes s.levels sink_node_id s.flow fuel).map fun r =>
    if r.1 = [] then { s with levels := r.2,finished := true }
    else { s with flow := augment_flow s.flow r.1,levels := r.2,flow_increase := s.flow_increase + 1 }

def augment_all_paths (fuel : ℕ) (s : Blocking) (sink_node_id : NodeID) : Option Blocking :=
  if s.levels sink_node_id = INVALID_LEVEL then some s
  else whileLoopM (fun s => !s.finished) (augmentPath view source_nodes sink_node_id fuel) fuel { s with finished := false }
def BlockingFlow (flow : FlowEdges) (levels : LevelGraph) (border_sink_nodes : List NodeID) (fuel : ℕ) : Option Blocking :=
  border_sink_nodes.foldlM (augment_all_paths view source_nodes fuel) ⟨flow,levels,0,false⟩
def is_valid_level (level : ℕ) : Bool := level != INVALID_LEVEL
def MakeCut (levels : LevelGraph) (flow_value : ℕ) : MinCut where
  num_nodes_source := (List.range view.NumberOfNodes).countP fun nid => is_valid_level (levels nid)
  num_edges := flow_value
  flags := (List.range view.NumberOfNodes).map fun nid => is_valid_level (levels nid)

/-- The sources get a level before the cut is made, those behind the border as well. -/
def markSources (source_nodes : List NodeID) (levels : LevelGraph) : LevelGraph :=
  source_nodes.foldl (fun levels s => Function.update levels s 0) levels

/-- The variables of the outermost loop, with the result once there is one. -/
structure Progress where
  flow : FlowEdges
  flow_value : ℕ
  cut : Option MinCut

/-- A round of the outermost loop. -/
def separate (fuel : ℕ) (s : Progress) : Option Progress := do
  let border_source_nodes := source_nodes.filter (hasNeighborNotIn view source_nodes)
  let border_sink_nodes := sink_nodes.filter (hasNeighborNotIn view sink_nodes)
  let levels ← ComputeLevelGraph view source_nodes sink_nodes border_source_nodes s.flow fuel
  let separated := border_sink_nodes.all fun node => levels node == INVALID_LEVEL
  if separated then
    some { s with cut := some (MakeCut view (markSources source_nodes levels) s.flow_value) }
  else do
    let blocking ← BlockingFlow view source_nodes s.flow levels border_sink_nodes fuel
    some { s with flow := blocking.flow,flow_value := s.flow_value + blocking.flow_increase }

/-- `DinicMaxFlow::operator()`. -/
def minimumCut (fuel : ℕ) : Option MinCut :=
  (whileLoopM (fun s => s.cut.isNone) (separate view source_nodes sink_nodes fuel) fuel ⟨fun _ => ∅,0,none⟩).bind Progress.cut

end Algorithm

end Osrm.DinicMaxFlow
