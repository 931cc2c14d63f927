import Osrm.MultiEdges
import Osrm.UsedNodes
import Mathlib.Data.List.Perm.Basic

/-!
The two passes of `PrepareEdges` that give the edges their nodes. The edges are sorted by the ids at their starts and
merged with the sorted nodes, then by the ids at their ends and merged again.
-/
namespace Osrm.EdgeEnds
open List
open Typedefs MultiEdges UsedNodes UniqueSort
open Rectangle (Coordinate)

def SPECIAL_OSM_NODEID : OSMNodeID := 2 ^ 64 - 1

structure NodeBasedEdgeWithOSM extends NodeBasedEdge where
  osm_source_id : OSMNodeID
  osm_target_id : OSMNodeID

structure InternalExtractorEdge (WeightData : Type) where
  result : NodeBasedEdgeWithOSM
  weight_data : WeightData
  duration_data : WeightData
  source_coordinate : Coordinate

/-- The position found by `std::lower_bound` in the sorted ids. -/
def mapExternalToInternalNodeID (ids : List OSMNodeID) (value : OSMNodeID) : NodeID :=
  let it := (ids.takeWhile (· < value)).length
  match ids[it]? with
  | none => SPECIAL_NODEID
  | some found => if value < found then SPECIAL_NODEID else it

def CmpEdgeByOSMStartID {W : Type} (lhs rhs : InternalExtractorEdge W) : Bool :=
  lhs.result.osm_source_id < rhs.result.osm_source_id
def CmpEdgeByOSMTargetID {W : Type} (lhs rhs : InternalExtractorEdge W) : Bool :=
  lhs.result.osm_target_id < rhs.result.osm_target_id

section Passes
variable {W : Type} (used_node_id_list : List OSMNodeID)

def markSourcesInvalid (edge : InternalExtractorEdge W) : InternalExtractorEdge W :=
  { edge with result := { edge.result with source := SPECIAL_NODEID, osm_source_id := SPECIAL_OSM_NODEID } }
def markTargetsInvalid (edge : InternalExtractorEdge W) : InternalExtractorEdge W :=
  { edge with result := { edge.result with target := SPECIAL_NODEID } }

/-- The pass over the edges that are sorted by their starts. -/
def setStarts : List QueryNode → List (InternalExtractorEdge W) → List (InternalExtractorEdge W)
  | _,[] => []
  | [],edge :: edges => (edge :: edges).map markSourcesInvalid
  | node :: nodes,edge :: edges =>
    if edge.result.osm_source_id < node.node_id then
      { edge with result := { edge.result with source := SPECIAL_NODEID } } :: setStarts (node :: nodes) edges
    else if edge.result.osm_source_id > node.node_id then setStarts nodes (edge :: edges)
    -- remove loops
    else if edge.result.osm_source_id = edge.result.osm_target_id then
      { edge with result := { edge.result with source := SPECIAL_NODEID, target := SPECIAL_NODEID } } ::
        setStarts (node :: nodes) edges
    else
      let node_id := mapExternalToInternalNodeID used_node_id_list node.node_id
      { edge with result := { edge.result with source := node_id }, source_coordinate := node.location } ::
        setStarts (node :: nodes) edges
termination_by nodes edges => nodes.length + edges.length

/-- What the great circle distance, the data of the edge and the script make of an edge between two coordinates. -/
abbrev SegmentValues (W : Type) := InternalExtractorEdge W → Coordinate → Coordinate → EdgeWeight × EdgeDuration × EdgeDistance

variable (segmentValues : SegmentValues W)

/-- The body of the second pass, for an edge and the node at its end. -/
def setTarget (node : QueryNode) (edge : InternalExtractorEdge W) : InternalExtractorEdge W :=
  -- flip source and target coordinates if segment is in backward direction only
  let flipped := !edge.result.flags.forward && edge.result.flags.backward
  let source_coord := if flipped then node.location else edge.source_coordinate
  let target_coord := if flipped then edge.source_coordinate else node.location
  let values := segmentValues edge source_coord target_coord
  let node_id := mapExternalToInternalNodeID used_node_id_list node.node_id
  let resolved : NodeBasedEdge :=
    { edge.result.toNodeBasedEdge with weight := values.1, duration := values.2.1, distance := values.2.2, target := node_id }
  { edge with result := { edge.result with toNodeBasedEdge := orient resolved } }

/-- The pass over the edges that are sorted by their ends. -/
def setTargets : List QueryNode → List (InternalExtractorEdge W) → List (InternalExtractorEdge W)
  | _,[] => []
  | [],edge :: edges => (edge :: edges).map markTargetsInvalid
  | node :: nodes,edge :: edges =>
    if edge.result.source = SPECIAL_NODEID then edge :: setTargets (node :: nodes) edges
    else if edge.result.osm_target_id < node.node_id then
      { edge with result := { edge.result with target := SPECIAL_NODEID } } :: setTargets (node :: nodes) edges
    else if edge.result.osm_target_id > node.node_id then setTargets nodes (edge :: edges)
    else setTarget used_node_id_list segmentValues node edge :: setTargets (node :: nodes) edges
termination_by nodes edges => nodes.length + edges.length

end Passes

structure Started {W : Type} (ids : List OSMNodeID) (nodes : List QueryNode) (edge result : InternalExtractorEdge W) : Prop where
  target : result.result.osm_target_id = edge.result.osm_target_id
  flags : result.result.flags = edge.result.flags
  source : result.result.source =
    if edge.result.osm_source_id ∈ nodes.map (·.node_id) ∧ edge.result.osm_source_id ≠ edge.result.osm_target_id then
      mapExternalToInternalNodeID ids edge.result.osm_source_id
    else SPECIAL_NODEID

/-- What the second pass does with an edge that was started. -/
structure Ended {W : Type} (ids : List OSMNodeID) (nodes : List QueryNode) (edge result : InternalExtractorEdge W) : Prop where
  invalid : edge.result.source = SPECIAL_NODEID → result.result.source = SPECIAL_NODEID
  missing : edge.result.source ≠ SPECIAL_NODEID → edge.result.osm_target_id ∉ nodes.map (·.node_id) →
    result.result.target = SPECIAL_NODEID
  found : edge.result.source ≠ SPECIAL_NODEID → edge.result.osm_target_id ∈ nodes.map (·.node_id) →
    ∃ resolved : NodeBasedEdge, result.result.toNodeBasedEdge = orient resolved ∧ resolved.source = edge.result.source ∧
      resolved.target = mapExternalToInternalNodeID ids edge.result.osm_target_id ∧ resolved.flags = edge.result.flags

/-- The nodes that are not left were passed by all edges that are left. -/
structure Passing {W : Type} (key : InternalExtractorEdge W → OSMNodeID) (all nodes : List QueryNode)
    (edges : List (InternalExtractorEdge W)) : Prop where
  sortedNodes : nodes.Pairwise fun a b => a.node_id < b.node_id
  sortedEdges : edges.Pairwise fun a b => key a ≤ key b
  subset : ∀ node ∈ nodes, node ∈ all
  passed : ∀ node ∈ all, node ∈ nodes ∨ ∀ edge ∈ edges, node.node_id < key edge

namespace Passing
variable {W : Type} {key : InternalExtractorEdge W → OSMNodeID} {all nodes : List QueryNode} {node : QueryNode}
  {edge : InternalExtractorEdge W} {edges : List (InternalExtractorEdge W)}

private theorem tail (passing : Passing key all nodes (edge :: edges)) : Passing key all nodes edges where
  sortedNodes := passing.sortedNodes
  sortedEdges := passing.sortedEdges.of_cons
  subset := passing.subset
  passed other member := (passing.passed other member).imp_right fun before e inEdges => before e (.tail _ inEdges)

private theorem next (passing : Passing key all (node :: nodes) (edge :: edges)) (less : node.node_id < key edge) :
    Passing key all nodes (edge :: edges) where
  sortedNodes := passing.sortedNodes.of_cons
  sortedEdges := passing.sortedEdges
  subset other member := passing.subset other (.tail _ member)
  passed other member := by
    rcases passing.passed other member with left | before
    · rcases mem_cons.mp left with rfl | later
      · refine .inr fun e inEdges => ?_
        rcases mem_cons.mp inEdges with rfl | behind
        · exact less
        · exact less.trans_le ((pairwise_cons.mp passing.sortedEdges).1 e behind)
      · exact .inl later
    · exact .inr before

private theorem notMem (passing : Passing key all (node :: nodes) (edge :: edges)) (less : key edge < node.node_id) :
    key edge ∉ all.map (·.node_id) := by
  intro member
  obtain ⟨other,inAll,same⟩ := mem_map.mp member
  rcases passing.passed other inAll with left | before
  · rcases mem_cons.mp left with rfl | later
    · exact less.ne' same
    · exact (less.trans ((pairwise_cons.mp passing.sortedNodes).1 other later)).ne' same
  · exact (before edge (.head _)).ne same

private theorem notMem_nil (passing : Passing key all [] edges) (inEdges : edge ∈ edges) : key edge ∉ all.map (·.node_id) := by
  intro member
  obtain ⟨other,inAll,same⟩ := mem_map.mp member
  rcases passing.passed other inAll with left | before
  · cases left
  · exact (before edge inEdges).ne same

private theorem mem (passing : Passing key all (node :: nodes) (edge :: edges)) (notLess : ¬key edge < node.node_id)
    (notMore : ¬key edge > node.node_id) : key edge ∈ all.map (·.node_id) ∧ node.node_id = key edge := by
  have same : node.node_id = key edge := le_antisymm (not_lt.mp notLess) (not_lt.mp notMore)
  exact ⟨mem_map.mpr ⟨node,passing.subset node (.head _),same⟩,same⟩

end Passing

section Specs
variable {W : Type} (ids : List OSMNodeID) {all nodes : List QueryNode} {edges : List (InternalExtractorEdge W)}

private theorem setStarts_spec (passing : Passing (·.result.osm_source_id) all nodes edges) :
    List.Forall₂ (Started ids all) edges (setStarts ids nodes edges) := by
  fun_induction setStarts ids nodes edges with
  | case1 => exact .nil
  | case2 edge edges =>
    refine forall₂_map_right_iff.mpr (forall₂_same.mpr fun other inEdges => ?_)
    have absent := passing.notMem_nil inEdges
    exact ⟨rfl,rfl,by simp [markSourcesInvalid,absent]⟩
  | case3 node nodes edge edges less ih =>
    have absent := passing.notMem less
    exact .cons ⟨rfl,rfl,by simp [absent]⟩ (ih passing.tail)
  | case4 node nodes edge edges notLess more ih => exact ih (passing.next more)
  | case5 node nodes edge edges notLess notMore loop ih => exact .cons ⟨rfl,rfl,by simp [loop]⟩ (ih passing.tail)
  | case6 node nodes edge edges notLess notMore notLoop =>
    rename_i ih
    obtain ⟨there,same⟩ := passing.mem notLess notMore
    exact .cons ⟨rfl,rfl,by rw [if_pos ⟨there,notLoop⟩]; exact congrArg (mapExternalToInternalNodeID ids) same⟩ (ih passing.tail)

private theorem setTargets_spec (segmentValues : SegmentValues W) (passing : Passing (·.result.osm_target_id) all nodes edges) :
    List.Forall₂ (Ended ids all) edges (setTargets ids segmentValues nodes edges) := by
  fun_induction setTargets ids segmentValues nodes edges with
  | case1 => exact .nil
  | case2 edge edges =>
    refine forall₂_map_right_iff.mpr (forall₂_same.mpr fun other inEdges => ?_)
    have absent := passing.notMem_nil inEdges
    exact ⟨id,fun _ _ => rfl,fun _ there => absurd there absent⟩
  | case3 node nodes edge edges invalid ih =>
    exact .cons ⟨id,fun valid => absurd invalid valid,fun valid => absurd invalid valid⟩ (ih passing.tail)
  | case4 node nodes edge edges valid less ih =>
    have absent := passing.notMem less
    exact .cons ⟨id,fun _ _ => rfl,fun _ there => absurd there absent⟩ (ih passing.tail)
  | case5 node nodes edge edges valid notLess more ih => exact ih (passing.next more)
  | case6 node nodes edge edges valid notLess notMore ih =>
    obtain ⟨there,same⟩ := passing.mem notLess notMore
    refine .cons ⟨fun invalid => absurd invalid valid,fun _ absent => absurd there absent,fun _ _ => ?_⟩ (ih passing.tail)
    exact ⟨_,rfl,rfl,congrArg (mapExternalToInternalNodeID ids) same,rfl⟩

end Specs

/-- The original edge can be used from the end of less rank to the other one. -/
def usableUpwards {W : Type} (used : List OSMNodeID) (nodes : List QueryNode) (edge : InternalExtractorEdge W) : Bool :=
  if rank used nodes edge.result.osm_source_id < rank used nodes edge.result.osm_target_id then edge.result.flags.forward
  else edge.result.flags.backward
def usableDownwards {W : Type} (used : List OSMNodeID) (nodes : List QueryNode) (edge : InternalExtractorEdge W) : Bool :=
  if rank used nodes edge.result.osm_source_id < rank used nodes edge.result.osm_target_id then edge.result.flags.backward
  else edge.result.flags.forward

/-- An edge has two ends exactly if two nodes of its ids exist, their ranks, the less one first. -/
structure Resolved {W : Type} (used : List OSMNodeID) (nodes : List QueryNode) (edge result : InternalExtractorEdge W) : Prop where
  valid : result.result.source ≠ SPECIAL_NODEID ∧ result.result.target ≠ SPECIAL_NODEID ↔
    edge.result.osm_source_id ∈ nodes.map (·.node_id) ∧ edge.result.osm_target_id ∈ nodes.map (·.node_id) ∧
      edge.result.osm_source_id ≠ edge.result.osm_target_id
  ends : result.result.source ≠ SPECIAL_NODEID → result.result.target ≠ SPECIAL_NODEID →
    result.result.source = min (rank used nodes edge.result.osm_source_id) (rank used nodes edge.result.osm_target_id) ∧
    result.result.target = max (rank used nodes edge.result.osm_source_id) (rank used nodes edge.result.osm_target_id) ∧
    result.result.source < result.result.target
  flags : result.result.source ≠ SPECIAL_NODEID → result.result.target ≠ SPECIAL_NODEID →
    result.result.flags.forward = usableUpwards used nodes edge ∧ result.result.flags.backward = usableDownwards used nodes edge

section Results
variable {W : Type} {used ids : List OSMNodeID} {nodes : List QueryNode} {node_id : OSMNodeID}
  {edge started result : InternalExtractorEdge W}

private theorem map_eq_rank (ranked : Ranked used nodes ids) (member : node_id ∈ existing used nodes) :
    mapExternalToInternalNodeID ids node_id = rank used nodes node_id := by
  rw [mapExternalToInternalNodeID]
  simp [ranked.length_takeWhile,ranked.getElem?_rank member]

private theorem rank_lt_special (fits : (existing used nodes).card ≤ SPECIAL_NODEID) (member : node_id ∈ existing used nodes) :
    rank used nodes node_id < SPECIAL_NODEID := by
  refine lt_of_lt_of_le (Finset.card_lt_card ⟨Finset.filter_subset _ _,fun all => ?_⟩) fits
  exact lt_irrefl node_id (Finset.mem_filter.mp (all member)).2

private theorem resolved_of_invalid (invalid : result.result.source = SPECIAL_NODEID ∨ result.result.target = SPECIAL_NODEID)
    (missing : ¬(edge.result.osm_source_id ∈ nodes.map (·.node_id) ∧ edge.result.osm_target_id ∈ nodes.map (·.node_id) ∧
      edge.result.osm_source_id ≠ edge.result.osm_target_id)) : Resolved used nodes edge result := by
  have notBoth : ¬(result.result.source ≠ SPECIAL_NODEID ∧ result.result.target ≠ SPECIAL_NODEID) := by tauto
  exact ⟨iff_of_false notBoth missing,fun s t => absurd ⟨s,t⟩ notBoth,fun s t => absurd ⟨s,t⟩ notBoth⟩

private theorem resolved_of_passes (fits : (existing used nodes).card ≤ SPECIAL_NODEID) (ranked : Ranked used nodes ids)
    (source : edge.result.osm_source_id ∈ used) (target : edge.result.osm_target_id ∈ used)
    (start : Started ids nodes edge started) (final : Ended ids nodes started result) : Resolved used nodes edge result := by
  by_cases starts : edge.result.osm_source_id ∈ nodes.map (·.node_id) ∧ edge.result.osm_source_id ≠ edge.result.osm_target_id
  · have inSource := mem_existing.mpr ⟨source,starts.1⟩
    have sourceRank := start.source
    rw [if_pos starts,map_eq_rank ranked inSource] at sourceRank
    have sourceValid := rank_lt_special fits inSource
    have valid : started.result.source ≠ SPECIAL_NODEID := by
      rw [sourceRank]
      exact sourceValid.ne
    by_cases there : edge.result.osm_target_id ∈ nodes.map (·.node_id)
    · have inTarget := mem_existing.mpr ⟨target,there⟩
      have targetValid := rank_lt_special fits inTarget
      obtain ⟨resolved,oriented,sameSource,targetRank,flags⟩ := final.found valid (start.target ▸ there)
      rw [start.target,map_eq_rank ranked inTarget] at targetRank
      rw [sourceRank] at sameSource
      rw [start.flags] at flags
      have both := iff_of_true (And.intro starts.1 (And.intro there starts.2)) trivial
      rcases lt_or_gt_of_ne starts.2 with less | greater
      · have ranks := (rank_lt_iff inSource inTarget).mpr less
        have kept : result.result.toNodeBasedEdge = resolved := by
          rw [oriented,orient,if_neg (by rw [sameSource,targetRank]; exact ranks.not_gt)]
        refine ⟨?_,fun _ _ => ?_,fun _ _ => ?_⟩
        · rw [kept,sameSource,targetRank,both]
          simp [sourceValid.ne,targetValid.ne]
        · rw [kept,sameSource,targetRank,min_eq_left ranks.le,max_eq_right ranks.le]
          exact ⟨rfl,rfl,ranks⟩
        · rw [kept,flags,usableUpwards,usableDownwards,if_pos ranks,if_pos ranks]
          exact ⟨rfl,rfl⟩
      · have ranks := (rank_lt_iff inTarget inSource).mpr greater
        have turned := oriented
        rw [orient,if_pos (by rw [sameSource,targetRank]; exact ranks)] at turned
        refine ⟨?_,fun _ _ => ?_,fun _ _ => ?_⟩
        · rw [turned,both]
          simp [sameSource,targetRank,sourceValid.ne,targetValid.ne]
        · rw [turned,min_eq_right ranks.le,max_eq_left ranks.le]
          exact ⟨targetRank,sameSource,by simpa only [sameSource,targetRank] using ranks⟩
        · rw [turned,usableUpwards,usableDownwards,if_neg ranks.not_gt,if_neg ranks.not_gt]
          simp [flags]
    · refine resolved_of_invalid (.inr (final.missing valid ?_)) (by tauto)
      rwa [start.target]
  · have invalid := start.source
    rw [if_neg starts] at invalid
    exact resolved_of_invalid (.inl (final.invalid invalid)) (by tauto)

end Results

private theorem forall₂_comp {α β γ : Type} {R : α → β → Prop} {S : β → γ → Prop} {T : α → γ → Prop} {l : List α} {m : List β} {n : List γ}
    (first : List.Forall₂ R l m) (second : List.Forall₂ S m n) (compose : ∀ a ∈ l, ∀ b c, R a b → S b c → T a c) :
    List.Forall₂ T l n := by
  induction first generalizing n with
  | nil => cases second; exact .nil
  | cons head tail ih =>
    cases second with
    | cons head' tail' =>
      exact .cons (compose _ (.head _) _ _ head head') (ih tail' fun a member => compose a (.tail _ member))

section Run
variable {W : Type} {used sorted_ids ids : List OSMNodeID} {nodes sorted_nodes : List QueryNode}
  {edges byStart byTarget : List (InternalExtractorEdge W)}

private theorem passing_all (distinct : (nodes.map (·.node_id)).Nodup) (sortsNodes : Sorts lessNode nodes sorted_nodes)
    {key : InternalExtractorEdge W → OSMNodeID} (sorted : edges.Pairwise fun a b => key a ≤ key b) :
    Passing key nodes sorted_nodes edges where
  sortedNodes := sorted_nodes_strict distinct sortsNodes
  sortedEdges := sorted
  subset _ member := sortsNodes.perm.mem_iff.mp member
  passed _ member := .inl (sortsNodes.perm.mem_iff.mpr member)

private theorem passes_resolve (segmentValues : SegmentValues W) (distinct : (nodes.map (·.node_id)).Nodup)
    (ends : ∀ edge ∈ edges, edge.result.osm_source_id ∈ used ∧ edge.result.osm_target_id ∈ used)
    (sortsNodes : Sorts lessNode nodes sorted_nodes) (fits : (existing used nodes).card ≤ SPECIAL_NODEID)
    (ranked : Ranked used nodes ids) (sortsStart : Sorts CmpEdgeByOSMStartID edges byStart)
    (sortsTarget : Sorts CmpEdgeByOSMTargetID (setStarts ids sorted_nodes byStart) byTarget) :
    ∃ order, order.Perm edges ∧
      List.Forall₂ (Resolved used nodes) order (setTargets ids segmentValues sorted_nodes byTarget) := by
  have byStarts : byStart.Pairwise fun a b => a.result.osm_source_id ≤ b.result.osm_source_id :=
    sortsStart.ordered.imp fun level => by simpa [CmpEdgeByOSMStartID] using level
  have byTargets : byTarget.Pairwise fun a b => a.result.osm_target_id ≤ b.result.osm_target_id :=
    sortsTarget.ordered.imp fun level => by simpa [CmpEdgeByOSMTargetID] using level
  have started := setStarts_spec ids (passing_all distinct sortsNodes byStarts)
  have ended := setTargets_spec ids segmentValues (passing_all distinct sortsNodes byTargets)
  obtain ⟨order,starts,perm⟩ := perm_comp_forall₂ sortsTarget.perm started.flip
  refine ⟨order,perm.trans sortsStart.perm,forall₂_comp starts.flip ended fun edge member mid result start final => ?_⟩
  have inside := (perm.trans sortsStart.perm).mem_iff.mp member
  exact resolved_of_passes fits ranked (ends edge inside).1 (ends edge inside).2 start final

private theorem used_nodes_rank (distinct : (nodes.map (·.node_id)).Nodup) {prepared : Prepared}
    (isPrepared : IsPrepared used nodes sorted_nodes prepared) {node : QueryNode} (inNodes : node ∈ nodes)
    (isUsed : node.node_id ∈ used) : prepared.used_nodes[rank used nodes node.node_id]? = some node := by
  have place := isPrepared.ranked.getElem?_rank (mem_existing.mpr ⟨isUsed,mem_map_of_mem inNodes⟩)
  rw [← isPrepared.ids,getElem?_map] at place
  obtain ⟨other,found,same⟩ := Option.map_eq_some_iff.mp place
  rw [found,inj_on_of_nodup_map distinct (isPrepared.exist other (mem_of_getElem? found)) inNodes same]

/-- After `PrepareNodes` and the two passes the nodes are at their ranks and the edges are resolved. -/
theorem edges_resolved (segmentValues : SegmentValues W) (distinct : (nodes.map (·.node_id)).Nodup)
    (ends : ∀ edge ∈ edges, edge.result.osm_source_id ∈ used ∧ edge.result.osm_target_id ∈ used)
    (sortsIds : Sorts lessID used sorted_ids) (sortsNodes : Sorts lessNode nodes sorted_nodes) :
    match PrepareNodes sorted_ids sorted_nodes with
    | .error failure => failure = .too_many_nodes ∧ SPECIAL_NODEID < (existing used nodes).card
    | .ok prepared =>
      (∀ node ∈ nodes, node.node_id ∈ used → prepared.used_nodes[rank used nodes node.node_id]? = some node) ∧
      prepared.used_nodes.length = (existing used nodes).card ∧
      ∀ byStart byTarget, Sorts CmpEdgeByOSMStartID edges byStart →
        Sorts CmpEdgeByOSMTargetID (setStarts prepared.used_node_id_list prepared.all_nodes_list byStart) byTarget →
        ∃ order, order.Perm edges ∧ List.Forall₂ (Resolved used nodes) order
          (setTargets prepared.used_node_id_list segmentValues prepared.all_nodes_list byTarget) := by
  have result := prepareNodes_spec distinct sortsIds sortsNodes
  cases ran : PrepareNodes sorted_ids sorted_nodes with
  | error failure =>
    rw [ran] at result
    exact result
  | ok prepared =>
    rw [ran] at result
    refine ⟨fun node inNodes isUsed => used_nodes_rank distinct result inNodes isUsed,?_,fun byStart byTarget starts targets => ?_⟩
    · rw [← result.ranked.length_eq,← result.ids,length_map]
    · rw [result.all_nodes] at targets ⊢
      exact passes_resolve segmentValues distinct ends sortsNodes result.fits result.ranked starts targets

end Run

/-- Two nodes of which one is used by an edge to a node that is missing. -/
theorem edges_resolved_two : ∃ prepared, PrepareNodes [5,7,9] [⟨⟨0,0⟩,5⟩,⟨⟨1,1⟩,9⟩] = .ok prepared ∧
    prepared.used_nodes[1]? = some ⟨⟨1,1⟩,9⟩ := by
  let edge : InternalExtractorEdge ℕ := ⟨⟨⟨SPECIAL_NODEID,SPECIAL_NODEID,0,0,0,0,⟨true,false,false⟩⟩,9,7⟩,1,1,⟨0,0⟩⟩
  have ids : Sorts lessID [5,7,9] [5,7,9] := ⟨.refl _,by decide⟩
  have nodes : Sorts lessNode [⟨⟨0,0⟩,5⟩,⟨⟨1,1⟩,9⟩] [⟨⟨0,0⟩,5⟩,⟨⟨1,1⟩,9⟩] := ⟨.refl _,by decide⟩
  have ends : ∀ e ∈ [edge], e.result.osm_source_id ∈ [5,7,9] ∧ e.result.osm_target_id ∈ [5,7,9] := by simp [edge]
  have result := edges_resolved (fun _ _ _ => (1,1,1)) (by decide) ends ids nodes
  cases ran : PrepareNodes [5,7,9] [⟨⟨0,0⟩,5⟩,⟨⟨1,1⟩,9⟩] with
  | error failure =>
    rw [ran] at result
    exact absurd result.2 (by decide)
  | ok prepared =>
    rw [ran] at result
    exact ⟨prepared,rfl,result.1 ⟨⟨1,1⟩,9⟩ (by simp) (by simp)⟩

end Osrm.EdgeEnds
