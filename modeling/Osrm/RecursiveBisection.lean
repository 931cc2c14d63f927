import Osrm.Rectangle
import Osrm.Slices
import Osrm.Typedefs

/-!
`RecursiveBisectionState::ApplyBisection`. A range of nodes is parted by a flag for each of them: edges between the
parts are erased in place, the nodes are moved, and the edges get targets relative to their part.
-/
namespace Osrm.RecursiveBisection
open List Option
open Typedefs Rectangle Slices

structure BisectionNode where
  coordinate : Coordinate
  original_id : NodeID
  deriving DecidableEq, Repr

structure BisectionGraphNode extends BisectionNode where
  edges_begin : ℕ
  edges_end : ℕ
  deriving DecidableEq, Repr

structure BisectionEdge where
  target : NodeID
  deriving DecidableEq, Repr

structure BisectionGraph where
  nodes : List BisectionGraphNode
  edges : List BisectionEdge
  deriving DecidableEq, Repr

namespace BisectionGraph

def Node (graph : BisectionGraph) (nid : NodeID) : BisectionGraphNode := graph.nodes.getD nid ⟨⟨⟨0,0⟩,SPECIAL_NODEID⟩,0,0⟩
def Edges (graph : BisectionGraph) (node : BisectionGraphNode) : List BisectionEdge := slice graph.edges node.edges_begin node.edges_end

/-- The edges of a node for which the filter holds are moved behind the other ones and cut off. -/
def RemoveEdges (graph : BisectionGraph) (nid : NodeID) (filter : BisectionEdge → Bool) : BisectionGraph :=
  let node := graph.Node nid
  let negate_filter := fun edge => !filter edge
  let remaining_edges := (graph.Edges node).countP negate_filter
  ⟨graph.nodes.set nid { node with edges_end := node.edges_begin + remaining_edges },
    replaceSlice graph.edges node.edges_begin node.edges_end (stablePartition negate_filter (graph.Edges node))⟩

/-- What the construction of the graph leaves: every node has an id and a range of edges of its own. -/
structure WellFormed (graph : BisectionGraph) : Prop where
  ids : (graph.nodes.map fun node => node.original_id).Nodup
  inside : ∀ node ∈ graph.nodes, node.edges_begin ≤ node.edges_end ∧ node.edges_end ≤ graph.edges.length
  apart : graph.nodes.Pairwise (Apart BisectionGraphNode.edges_begin BisectionGraphNode.edges_end)

/-- The targets of the edges of a range of nodes, relative to its begin, are in the range. -/
def Closed (graph : BisectionGraph) (first last : ℕ) : Prop :=
  ∀ node ∈ slice graph.nodes first last, ∀ edge ∈ graph.Edges node, edge.target < last - first

end BisectionGraph

structure BisectionInputEdge extends BisectionEdge where
  source : NodeID

/-- One round of the loop of `makeBisectionGraph`, with the number of edges it went past before. -/
def makeNode (edges : List BisectionInputEdge) (s : ℕ × BisectionGraph) (entry : Coordinate × ℕ) : ℕ × BisectionGraph :=
  let advanced := (edges.drop s.1).takeWhile fun edge => edge.source == entry.2
  let edge_itr := s.1 + advanced.length
  (edge_itr,⟨s.2.nodes ++ [⟨⟨entry.1,entry.2⟩,s.1,edge_itr⟩],s.2.edges ++ advanced.map BisectionInputEdge.toBisectionEdge⟩)

def makeBisectionGraph (coordinates : List Coordinate) (edges : List BisectionInputEdge) : BisectionGraph :=
  (coordinates.zipIdx.foldl (makeNode edges) (0,⟨[],[]⟩)).2
abbrev BisectionID := BitVec 32

structure RecursiveBisectionState where
  bisection_graph : BisectionGraph
  bisection_ids : NodeID → BisectionID

/-- The flag is added to the bisection id of a node on the right side. -/
def augment (flag : BisectionID) (partition : List Bool) (bisection_ids : NodeID → BisectionID) (entry : BisectionGraphNode × ℕ) :
    NodeID → BisectionID :=
  if partition.getD entry.2 false then
    Function.update bisection_ids entry.1.original_id (bisection_ids entry.1.original_id ||| flag)
  else bisection_ids

/-- Each node gets the next id of the part it is moved to. -/
def mapNodes (by_flag_bit : BisectionNode → Bool) : ℕ → ℕ → List BisectionGraphNode → List NodeID
  | _,_,[] => []
  | lesser_id,upper_id,node :: nodes =>
    if by_flag_bit node.toBisectionNode then lesser_id :: mapNodes by_flag_bit (lesser_id + 1) upper_id nodes
    else upper_id :: mapNodes by_flag_bit lesser_id (upper_id + 1) nodes

/-- Erases the edges of a node into the other part. The targets are read as places behind the begin of the range. -/
def removeCrossing (by_flag_bit : BisectionNode → Bool) (first : ℕ) (graph : BisectionGraph) (nid : NodeID) : BisectionGraph :=
  graph.RemoveEdges nid fun edge =>
    by_flag_bit (graph.Node nid).toBisectionNode != by_flag_bit (graph.Node (first + edge.target)).toBisectionNode
def remap (mapping : List NodeID) (edge : BisectionEdge) : BisectionEdge := ⟨mapping.getD edge.target SPECIAL_NODEID⟩

section Apply
variable (s : RecursiveBisectionState) (first last depth : ℕ) (partition : List Bool)

def depthFlag (depth : ℕ) : BisectionID := 1#32 <<< (32 - depth - 1)
def augmented : NodeID → BisectionID :=
  (slice s.bisection_graph.nodes first last).zipIdx.foldl (augment (depthFlag depth) partition) s.bisection_ids
def byFlagBit (node : BisectionNode) : Bool := augmented s first last depth partition node.original_id &&& depthFlag depth == 0

/-- The bisected state and the place of the first node of the second part. -/
def ApplyBisection : RecursiveBisectionState × ℕ :=
  let by_flag_bit := byFlagBit s first last depth partition
  let mapping := mapNodes by_flag_bit 0 0 (slice s.bisection_graph.nodes first last)
  let removed := (List.range' first (last - first)).foldl (removeCrossing by_flag_bit first) s.bisection_graph
  let range := slice removed.nodes first last
  let nodes := replaceSlice removed.nodes first last (stablePartition (fun node => by_flag_bit node.toBisectionNode) range)
  let edges := (slice nodes first last).foldl
    (replaceOne BisectionGraphNode.edges_begin BisectionGraphNode.edges_end fun _ => List.map (remap mapping)) removed.edges
  (⟨⟨nodes,edges⟩,augmented s first last depth partition⟩,
    first + range.countP fun node => by_flag_bit node.toBisectionNode)

end Apply

/-- What holds between two rounds of the loop that makes the nodes. -/
structure Made (node_id : NodeID) (s : ℕ × BisectionGraph) : Prop where
  formed : s.2.WellFormed
  edge_itr : s.1 = s.2.edges.length
  earlier : ∀ node ∈ s.2.nodes, node.original_id < node_id

private theorem Made.step {s : ℕ × BisectionGraph} {node_id : NodeID} (made : Made node_id s) (edges : List BisectionInputEdge)
    (coordinate : Coordinate) : Made (node_id + 1) (makeNode edges s (coordinate,node_id)) := by
  obtain ⟨⟨ids,inside,apart⟩,edge_itr,earlier⟩ := made
  rw [makeNode]
  dsimp only
  generalize (edges.drop s.1).takeWhile (fun edge => edge.source == node_id) = advanced
  refine ⟨⟨?_,?_,?_⟩,?_,?_⟩
  · simp only [map_append,map_singleton]
    refine nodup_append.mpr ⟨ids,nodup_singleton _,fun id member id' member' => ?_⟩
    obtain ⟨node,at_node,rfl⟩ := mem_map.mp member
    rw [mem_singleton.mp member']
    exact (earlier node at_node).ne
  · intro node member
    rw [length_append,length_map,← edge_itr]
    cases mem_append.mp member with
    | inl old =>
      have := inside node old
      omega
    | inr new =>
      rw [mem_singleton.mp new]
      exact ⟨Nat.le_add_right ..,le_rfl⟩
  · refine pairwise_append.mpr ⟨apart,pairwise_singleton ..,fun node member node' member' => ?_⟩
    rw [mem_singleton.mp member']
    exact .inl (edge_itr ▸ (inside node member).2)
  · rw [length_append,length_map,edge_itr]
  · intro node member
    cases mem_append.mp member with
    | inl old => exact Nat.lt_succ_of_lt (earlier node old)
    | inr new =>
      rw [mem_singleton.mp new]
      exact Nat.lt_succ_self _

private theorem makeBisectionGraph_formed (coordinates : List Coordinate) (edges : List BisectionInputEdge) :
    (makeBisectionGraph coordinates edges).WellFormed := by
  have run : ∀ (k : ℕ) (s : ℕ × BisectionGraph), Made k s →
      Made (k + coordinates.length) ((coordinates.zipIdx k).foldl (makeNode edges) s) := by
    induction coordinates with
    | nil => exact fun _ _ made => made
    | cons coordinate coordinates ih =>
      intro k s made
      have length : k + (coordinate :: coordinates).length = k + 1 + coordinates.length := by
        rw [length_cons]
        omega
      rw [zipIdx_cons,foldl_cons,length]
      exact ih (k + 1) _ (made.step edges coordinate)
  exact (run 0 (0,⟨[],[]⟩) ⟨⟨nodup_nil,by simp,.nil⟩,rfl,by simp⟩).formed

/-- Some node of a list with the id is flagged. The flags of the list begin at a place of the partition. -/
def FlaggedFrom (nodes : List BisectionGraphNode) (partition : List Bool) (k : ℕ) (id : NodeID) : Prop :=
  ∃ i node, nodes[i]? = some node ∧ node.original_id = id ∧ partition.getD (k + i) false = true

variable {node : BisectionGraphNode}

private theorem flaggedFrom_cons {nodes : List BisectionGraphNode} {partition : List Bool} {k : ℕ} {id : NodeID} :
    FlaggedFrom (node :: nodes) partition k id ↔
      node.original_id = id ∧ partition.getD k false = true ∨ FlaggedFrom nodes partition (k + 1) id := by
  constructor
  · rintro ⟨i,found,at_i,same,holds⟩
    cases i with
    | zero =>
      obtain rfl : node = found := by simpa using at_i
      exact .inl ⟨same,holds⟩
    | succ i => exact .inr ⟨i,found,at_i,same,by rwa [Nat.add_right_comm,Nat.add_assoc]⟩
  · rintro (⟨same,holds⟩ | ⟨i,found,at_i,same,holds⟩)
    · exact ⟨0,node,rfl,same,holds⟩
    · exact ⟨i + 1,found,at_i,same,by rwa [← Nat.add_assoc,Nat.add_right_comm]⟩

private theorem augment_bit (flag : BisectionID) (partition : List Bool) (ids : NodeID → BisectionID) (node : BisectionGraphNode) (k j : ℕ)
    (id : NodeID) : (augment flag partition ids (node,k) id).getLsbD j = true ↔
      (ids id).getLsbD j = true ∨ flag.getLsbD j = true ∧ node.original_id = id ∧ partition.getD k false = true := by
  rw [augment]
  generalize partition.getD k false = flagged
  cases flagged with
  | false => simp
  | true =>
    by_cases same : node.original_id = id
    · subst same
      simp
    · simp [same,Function.update_of_ne (Ne.symm same)]

private theorem foldl_augment_bit (flag : BisectionID) (partition : List Bool) (nodes : List BisectionGraphNode) (k j : ℕ)
    (ids : NodeID → BisectionID) (id : NodeID) : ((nodes.zipIdx k).foldl (augment flag partition) ids id).getLsbD j = true ↔
      (ids id).getLsbD j = true ∨ flag.getLsbD j = true ∧ FlaggedFrom nodes partition k id := by
  induction nodes generalizing k ids with
  | nil => simp [FlaggedFrom]
  | cons node nodes ih =>
    rw [zipIdx_cons,foldl_cons,ih,augment_bit,flaggedFrom_cons]
    tauto

private theorem depthFlag_bit {depth : ℕ} (below : depth < 32) (j : ℕ) : (depthFlag depth).getLsbD j = true ↔ j = 31 - depth := by
  have shifted : depthFlag depth = BitVec.twoPow 32 (32 - depth - 1) := rfl
  rw [shifted,BitVec.getLsbD_twoPow]
  simp only [Bool.and_eq_true,decide_eq_true_eq]
  omega

private theorem and_depthFlag {depth : ℕ} (below : depth < 32) (id : BisectionID) :
    (id &&& depthFlag depth == 0) = !id.getLsbD (31 - depth) := by
  have shifted : depthFlag depth = BitVec.twoPow 32 (31 - depth) := by
    rw [depthFlag,show 32 - depth - 1 = 31 - depth by omega]
    rfl
  rw [shifted,BitVec.and_twoPow]
  by_cases set : id.getLsbD (31 - depth) = true
  · rw [if_pos set,set]
    have kept : (BitVec.twoPow 32 (31 - depth)).getLsbD (31 - depth) = true := by
      rw [BitVec.getLsbD_twoPow]
      simp
      omega
    simp only [beq_eq_false_iff_ne,Bool.not_true]
    intro zero
    rw [zero] at kept
    simp at kept
  · rw [if_neg set,Bool.not_eq_true _ |>.mp set]
    rfl

section Flags
variable {s : RecursiveBisectionState} {first last depth : ℕ} {partition : List Bool}

def Unset (s : RecursiveBisectionState) (first last depth : ℕ) : Prop :=
  ∀ node ∈ slice s.bisection_graph.nodes first last, (s.bisection_ids node.original_id).getLsbD (31 - depth) = false

private theorem flaggedFrom_iff {nodes : List BisectionGraphNode} (ids : (nodes.map fun node => node.original_id).Nodup) {i : ℕ} (found : nodes[i]? = some node) :
    FlaggedFrom nodes partition 0 node.original_id ↔ partition.getD i false = true := by
  constructor
  · rintro ⟨j,other,at_j,same,holds⟩
    have place : j < (nodes.map fun node => node.original_id).length := by
      rw [length_map]
      exact (List.getElem?_eq_some_iff.mp at_j).1
    have equal : j = i := (getElem?_inj place ids).mp (by rw [getElem?_map,getElem?_map,at_j,found]; simp [same])
    rwa [Nat.zero_add,equal] at holds
  · exact fun holds => ⟨i,node,found,rfl,by rwa [Nat.zero_add]⟩

private theorem nodup_slice_ids (formed : s.bisection_graph.WellFormed) (first last : ℕ) :
    ((slice s.bisection_graph.nodes first last).map fun node => node.original_id).Nodup :=
  formed.ids.sublist ((slice_sublist ..).map _)

private theorem byFlagBit_eq (formed : s.bisection_graph.WellFormed) (below : depth < 32) (unset : Unset s first last depth) {i : ℕ} (found : (slice s.bisection_graph.nodes first last)[i]? = some node) :
    byFlagBit s first last depth partition node.toBisectionNode = !partition.getD i false := by
  rw [byFlagBit,and_depthFlag below]
  congr 1
  rw [Bool.eq_iff_iff,augmented,foldl_augment_bit,depthFlag_bit below,flaggedFrom_iff (nodup_slice_ids formed first last) found,
    unset node (mem_of_getElem? found)]
  simp

end Flags

/-! ### The edges between the parts are erased -/

section Remove
variable {by_flag_bit : BisectionNode → Bool} {first : ℕ} {graph g : BisectionGraph} {positions : List ℕ} {i : ℕ}

def stays (by_flag_bit : BisectionNode → Bool) (graph : BisectionGraph) (first : ℕ) (node : BisectionGraphNode) (edge : BisectionEdge) :
    Bool :=
  !(by_flag_bit node.toBisectionNode != by_flag_bit (graph.Node (first + edge.target)).toBisectionNode)
def shrink (by_flag_bit : BisectionNode → Bool) (graph : BisectionGraph) (first : ℕ) (node : BisectionGraphNode) : BisectionGraphNode :=
  { node with edges_end := node.edges_begin + (graph.Edges node).countP (stays by_flag_bit graph first node) }

private theorem node_eq (found : graph.nodes[i]? = some node) : graph.Node i = node := by
  rw [BisectionGraph.Node,getD_eq_getElem?_getD,found,getD_some]
private theorem getElem?_node (below : i < graph.nodes.length) : graph.nodes[i]? = some (graph.Node i) := by
  rw [getElem?_eq_getElem below,node_eq (getElem?_eq_getElem below)]
private theorem node_mem (below : i < graph.nodes.length) : graph.Node i ∈ graph.nodes := mem_of_getElem? (getElem?_node below)

private theorem apart_places (formed : graph.WellFormed) {j : ℕ} (ne : i ≠ j) (below : i < graph.nodes.length) (below' : j < graph.nodes.length) :
    Apart (fun i => (graph.Node i).edges_begin) (fun i => (graph.Node i).edges_end) i j := by
  have ordered := pairwise_iff_getElem.mp formed.apart
  rw [Apart,node_eq (getElem?_eq_getElem below),node_eq (getElem?_eq_getElem below')]
  cases Nat.lt_or_gt_of_ne ne with
  | inl before => exact ordered i j below below' before
  | inr after => exact (ordered j i below' below after).symm

/-- What a graph has in common with the one of the beginning as long as the nodes at some places are not treated. -/
structure Untreated (graph : BisectionGraph) (positions : List ℕ) (g : BisectionGraph) : Prop where
  nodes_length : g.nodes.length = graph.nodes.length
  edges_length : g.edges.length = graph.edges.length
  names : ∀ i, (g.Node i).toBisectionNode = (graph.Node i).toBisectionNode
  node : ∀ i ∈ positions, g.Node i = graph.Node i
  edges : ∀ i ∈ positions, g.Edges (graph.Node i) = graph.Edges (graph.Node i)

private theorem Untreated.removeCrossing_eq (untreated : Untreated graph positions g) (member : i ∈ positions) :
    removeCrossing by_flag_bit first g i = ⟨g.nodes.set i (shrink by_flag_bit graph first (graph.Node i)),
      replaceOne (fun i => (graph.Node i).edges_begin) (fun i => (graph.Node i).edges_end)
        (fun i => stablePartition (stays by_flag_bit graph first (graph.Node i))) g.edges i⟩ := by
  have filter : (fun edge : BisectionEdge => !(by_flag_bit (graph.Node i).toBisectionNode !=
      by_flag_bit (g.Node (first + edge.target)).toBisectionNode)) = stays by_flag_bit graph first (graph.Node i) := by
    funext edge
    rw [stays,untreated.names]
  rw [removeCrossing,BisectionGraph.RemoveEdges,untreated.node i member,filter,shrink,replaceOne,← untreated.edges i member]
  rfl

private theorem node_set {nodes : List BisectionGraphNode} {edges : List BisectionEdge} (edges' : List BisectionEdge) (j : ℕ) :
    BisectionGraph.Node ⟨nodes.set i node,edges⟩ j =
      if j = i ∧ i < nodes.length then node else BisectionGraph.Node ⟨nodes,edges'⟩ j := by
  rw [BisectionGraph.Node,BisectionGraph.Node,getD_eq_getElem?_getD,getD_eq_getElem?_getD,getElem?_set]
  by_cases here : i = j
  · subst here
    by_cases below : i < nodes.length <;> simp [below]
  · simp [here,Ne.symm here]

private theorem Untreated.step (by_flag_bit : BisectionNode → Bool) (first : ℕ) (formed : graph.WellFormed) (below : ∀ j ∈ i :: positions, j < graph.nodes.length)
    (nodup : (i :: positions).Nodup) (untreated : Untreated graph (i :: positions) g) :
    Untreated graph positions (removeCrossing by_flag_bit first g i) := by
  have here := below i mem_cons_self
  obtain ⟨fresh,-⟩ := nodup_cons.mp nodup
  obtain ⟨le,room⟩ := formed.inside _ (node_mem here)
  rw [← untreated.edges_length] at room
  have size := @length_slice _ g.edges (graph.Node i).edges_begin _ room
  rw [untreated.removeCrossing_eq mem_cons_self]
  constructor
  · rw [length_set]
    exact untreated.nodes_length
  · rw [← untreated.edges_length,replaceOne,replaceSlice]
    simp only [length_append,length_take,length_drop,length_stablePartition,size]
    omega
  · intro j
    rw [node_set g.edges]
    split_ifs with changed
    · rw [changed.1]
      rfl
    · exact untreated.names j
  · intro j member
    have ne : j ≠ i := fun same => fresh (same ▸ member)
    rw [node_set g.edges,if_neg fun changed => ne changed.1]
    exact untreated.node j (mem_cons_of_mem _ member)
  · intro j member
    rw [← untreated.edges j (mem_cons_of_mem _ member)]
    have ne : j ≠ i := fun same => fresh (same ▸ member)
    exact slice_replaceSlice_apart room le (by rw [length_stablePartition,size])
      (apart_places formed ne (below j (mem_cons_of_mem _ member)) here)

private theorem foldl_removeCrossing (by_flag_bit : BisectionNode → Bool) (first : ℕ) (formed : graph.WellFormed) (below : ∀ j ∈ positions, j < graph.nodes.length) (nodup : positions.Nodup)
    (untreated : Untreated graph positions g) :
    (positions.foldl (removeCrossing by_flag_bit first) g).edges =
        positions.foldl (replaceOne (fun i => (graph.Node i).edges_begin) (fun i => (graph.Node i).edges_end)
          fun i => stablePartition (stays by_flag_bit graph first (graph.Node i))) g.edges ∧
      (positions.foldl (removeCrossing by_flag_bit first) g).nodes.length = graph.nodes.length ∧
      ∀ j, (positions.foldl (removeCrossing by_flag_bit first) g).Node j =
        if j ∈ positions then shrink by_flag_bit graph first (graph.Node j) else g.Node j := by
  induction positions generalizing g with
  | nil => exact ⟨rfl,untreated.nodes_length,fun j => by simp⟩
  | cons i positions ih =>
    obtain ⟨fresh,others⟩ := nodup_cons.mp nodup
    obtain ⟨edges,length,nodes⟩ := ih (fun j member => below j (mem_cons_of_mem _ member)) others
      (untreated.step by_flag_bit first formed below nodup)
    have here : i < g.nodes.length := untreated.nodes_length ▸ below i mem_cons_self
    rw [foldl_cons,foldl_cons]
    refine ⟨?_,length,fun j => ?_⟩
    · rw [edges,untreated.removeCrossing_eq mem_cons_self]
    · rw [nodes j,untreated.removeCrossing_eq mem_cons_self,node_set g.edges]
      by_cases same : j = i
      · subst same
        simp [fresh,here]
      · simp [same]

/-- The graph after the loop over a range of nodes, against the graph before it. -/
structure Erased (by_flag_bit : BisectionNode → Bool) (graph : BisectionGraph) (first last : ℕ) (removed : BisectionGraph) : Prop where
  nodes : removed.nodes = replaceSlice graph.nodes first last ((slice graph.nodes first last).map (shrink by_flag_bit graph first))
  edges_length : removed.edges.length = graph.edges.length
  own : ∀ node ∈ slice graph.nodes first last,
    removed.Edges node = stablePartition (stays by_flag_bit graph first node) (graph.Edges node)
  untouched : ∀ i, (∀ node ∈ slice graph.nodes first last, i < node.edges_begin ∨ node.edges_end ≤ i) →
    removed.edges[i]? = graph.edges[i]?

private theorem erased (by_flag_bit : BisectionNode → Bool) (formed : graph.WellFormed) {last : ℕ} (le : first ≤ last) (room : last ≤ graph.nodes.length) :
    Erased by_flag_bit graph first last
      ((List.range' first (last - first)).foldl (removeCrossing by_flag_bit first) graph) := by
  have below : ∀ j ∈ List.range' first (last - first), j < graph.nodes.length := by
    intro j member
    have := mem_range'_1.mp member
    omega
  have nodup : (List.range' first (last - first)).Nodup := nodup_range'
  obtain ⟨edges,length,nodes⟩ := foldl_removeCrossing by_flag_bit first formed below nodup
    ⟨rfl,rfl,fun _ => rfl,fun _ _ => rfl,fun _ _ => rfl⟩
  obtain ⟨kept,own,untouched⟩ := foldl_replaceOne (fun i => (graph.Node i).edges_begin) (fun i => (graph.Node i).edges_end)
    (fun i => stablePartition (stays by_flag_bit graph first (graph.Node i))) (fun _ _ => length_stablePartition ..) _ graph.edges
    (fun j member => formed.inside _ (node_mem (below j member)))
    (nodup.pairwise_of_forall_ne fun i at_i j at_j ne => apart_places formed ne (below i at_i) (below j at_j))
  have places : ∀ node ∈ slice graph.nodes first last, ∃ j ∈ List.range' first (last - first), graph.Node j = node := by
    intro node member
    obtain ⟨j,low,high,found⟩ := mem_slice.mp member
    exact ⟨j,mem_range'_1.mpr ⟨low,by omega⟩,node_eq found⟩
  generalize (List.range' first (last - first)).foldl (removeCrossing by_flag_bit first) graph = removed at edges length nodes ⊢
  rw [← edges] at kept own untouched
  constructor
  · apply ext_getElem?
    intro j
    rw [replaceSlice_getElem? room le (by rw [length_map,length_slice room]),getElem?_map,slice_getElem?]
    by_cases inside : j < graph.nodes.length
    · rw [getElem?_node (length ▸ inside),nodes j]
      by_cases here : first ≤ j ∧ j < last
      · rw [if_pos (mem_range'_1.mpr ⟨here.1,by omega⟩),if_pos here,if_pos (by omega),Nat.add_sub_cancel' here.1,
          getElem?_node inside,map_some]
      · rw [if_neg fun member => here ⟨(mem_range'_1.mp member).1,by have := (mem_range'_1.mp member).2; omega⟩,if_neg here,
          getElem?_node inside]
    · rw [if_neg (by omega),getElem?_eq_none (by omega),getElem?_eq_none (by omega)]
  · exact kept
  · intro node member
    obtain ⟨j,at_j,rfl⟩ := places node member
    exact own j at_j
  · intro i outside
    refine untouched i fun j at_j => ?_
    have := mem_range'_1.mp at_j
    exact outside _ (mem_slice.mpr ⟨j,this.1,by omega,getElem?_node (below j at_j)⟩)

end Remove

section Fewer
variable {graph after : BisectionGraph}

/-- The node has its edges in the range of the other one. -/
structure Within (a b : BisectionGraphNode) : Prop where
  name : a.toBisectionNode = b.toBisectionNode
  begins : a.edges_begin = b.edges_begin
  le : a.edges_begin ≤ a.edges_end
  ends : a.edges_end ≤ b.edges_end

private theorem Within.refl (le : node.edges_begin ≤ node.edges_end) : Within node node := ⟨rfl,rfl,le,le_rfl⟩

private theorem Within.apart {a b a' b' : BisectionGraphNode} (first : Within a b) (second : Within a' b')
    (separate : Apart BisectionGraphNode.edges_begin BisectionGraphNode.edges_end b b') :
    Apart BisectionGraphNode.edges_begin BisectionGraphNode.edges_end a a' := by
  rw [Apart] at *
  have := first.begins
  have := first.ends
  have := second.begins
  have := second.ends
  omega

private theorem shrink_within (by_flag_bit : BisectionNode → Bool) (formed : graph.WellFormed) (first : ℕ)
    (member : node ∈ graph.nodes) : Within (shrink by_flag_bit graph first node) node := by
  obtain ⟨le,room⟩ := formed.inside node member
  refine ⟨rfl,rfl,Nat.le_add_right ..,?_⟩
  have most : (graph.Edges node).countP (stays by_flag_bit graph first node) ≤ (graph.Edges node).length := countP_le_length
  rw [BisectionGraph.Edges,length_slice room] at most
  rw [shrink]
  dsimp only
  rw [BisectionGraph.Edges]
  omega

variable {nodes nodes' : List BisectionGraphNode}

private theorem within_of_mem (within : List.Forall₂ Within nodes' nodes)
    (member : node ∈ nodes') : ∃ whole ∈ nodes, Within node whole := by
  induction within with
  | nil => simp at member
  | cons head _ ih =>
    cases mem_cons.mp member with
    | inl here => exact ⟨_,mem_cons_self,here ▸ head⟩
    | inr later =>
      obtain ⟨whole,member',related⟩ := ih later
      exact ⟨whole,mem_cons_of_mem _ member',related⟩

private theorem formed_of_within {edges edges' : List BisectionEdge}
    (formed : BisectionGraph.WellFormed ⟨nodes,edges⟩) (within : List.Forall₂ Within nodes' nodes) (length : edges'.length = edges.length) :
    BisectionGraph.WellFormed ⟨nodes',edges'⟩ := by
  have names : nodes'.map (fun node => node.original_id) = nodes.map fun node => node.original_id := by
    clear formed
    induction within with
    | nil => rfl
    | cons head _ ih => rw [map_cons,map_cons,ih,head.name]
  constructor
  · rw [names]
    exact formed.ids
  · intro node member
    obtain ⟨whole,member',related⟩ := within_of_mem within member
    refine ⟨related.le,?_⟩
    calc node.edges_end ≤ whole.edges_end := related.ends
      _ ≤ edges.length := (formed.inside whole member').2
      _ = edges'.length := length.symm
  · have apart := formed.apart
    clear formed names
    induction within with
    | nil => exact .nil
    | cons head tail ih =>
      obtain ⟨here,later⟩ := pairwise_cons.mp apart
      refine pairwise_cons.mpr ⟨fun other member => ?_,ih later⟩
      obtain ⟨other',member',related⟩ := within_of_mem tail member
      exact head.apart related (here other' member')

private theorem formed_of_perm {edges edges' : List BisectionEdge}
    (formed : BisectionGraph.WellFormed ⟨nodes,edges⟩) (perm : nodes'.Perm nodes) (length : edges'.length = edges.length) :
    BisectionGraph.WellFormed ⟨nodes',edges'⟩ := by
  constructor
  · exact (perm.map _).nodup_iff.mpr formed.ids
  · intro node member
    rw [length]
    exact formed.inside node (perm.mem_iff.mp member)
  · exact (perm.pairwise_iff fun separate => separate.symm).mpr formed.apart

end Fewer

/-- How many nodes before a place of the range are in the same part as the one there. -/
def rank (partition : List Bool) (i : ℕ) : NodeID :=
  (List.range i).countP fun k => partition.getD k false == partition.getD i false

private theorem mapNodes_getElem? (by_flag_bit : BisectionNode → Bool) (lesser_id upper_id : ℕ) (nodes : List BisectionGraphNode) (i : ℕ) :
    (mapNodes by_flag_bit lesser_id upper_id nodes)[i]? = nodes[i]?.map fun node =>
      (if by_flag_bit node.toBisectionNode then lesser_id else upper_id) +
        (nodes.take i).countP fun other => by_flag_bit other.toBisectionNode == by_flag_bit node.toBisectionNode := by
  induction nodes generalizing lesser_id upper_id i with
  | nil => simp [mapNodes]
  | cons head nodes ih =>
    rw [mapNodes]
    cases i with
    | zero => split_ifs with lower <;> simp [lower]
    | succ i =>
      rw [getElem?_cons_succ]
      split_ifs with lower
      · rw [getElem?_cons_succ,ih,take_succ_cons]
        congr 1
        funext node
        rw [countP_cons,lower]
        cases by_flag_bit node.toBisectionNode with
        | false => simp
        | true =>
          simp
          omega
      · rw [getElem?_cons_succ,ih,take_succ_cons]
        congr 1
        funext node
        rw [countP_cons,Bool.eq_false_iff.mpr lower]
        cases by_flag_bit node.toBisectionNode with
        | false =>
          simp
          omega
        | true => simp

section Parts
variable {by_flag_bit : BisectionNode → Bool} {partition : List Bool} {nodes : List BisectionGraphNode} {i : ℕ}
variable (lower : ∀ i node, nodes[i]? = some node → by_flag_bit node.toBisectionNode = !partition.getD i false)
include lower

private theorem countP_same (found : nodes[i]? = some node) :
    ((nodes.take i).countP fun other => by_flag_bit other.toBisectionNode == by_flag_bit node.toBisectionNode) = rank partition i := by
  refine countP_take_eq (Nat.le_of_lt (List.getElem?_eq_some_iff.mp found).1) fun k _ other at_k => ?_
  rw [lower k other at_k,lower i node found]
  cases partition.getD k false <;> cases partition.getD i false <;> rfl

private theorem mapNodes_rank (below : i < nodes.length) (default : NodeID) : (mapNodes by_flag_bit 0 0 nodes).getD i default = rank partition i := by
  have found := getElem?_eq_getElem below
  rw [getD_eq_getElem?_getD,mapNodes_getElem?,found,map_some,getD_some,ite_self,Nat.zero_add,countP_same lower found]

end Parts

/-! ### The whole step -/

section Step
variable {graph removed : BisectionGraph} {by_flag_bit : BisectionNode → Bool} {first last : ℕ}

private theorem Erased.formed (left : Erased by_flag_bit graph first last removed) (formed : graph.WellFormed) (le : first ≤ last) :
    removed.WellFormed := by
  have within : List.Forall₂ Within removed.nodes graph.nodes := by
    have alike : ∀ nodes, (∀ node ∈ nodes, node ∈ graph.nodes) → List.Forall₂ Within nodes nodes :=
      fun nodes sub => forall₂_same.mpr fun node member => Within.refl (formed.inside node (sub node member)).1
    have middle : List.Forall₂ Within ((slice graph.nodes first last).map (shrink by_flag_bit graph first)) (slice graph.nodes first last) := by
      rw [forall₂_map_left_iff,forall₂_same]
      exact fun node member => shrink_within by_flag_bit formed first (mem_of_slice member)
    have parts := replaceSlice_slice (l := graph.nodes) le
    rw [left.nodes]
    conv => rhs; rw [← parts]
    exact rel_append (rel_append (alike _ fun _ member => mem_of_mem_take member) middle)
      (alike _ fun _ member => mem_of_mem_drop member)
  exact formed_of_within formed within left.edges_length

private theorem Erased.range (left : Erased by_flag_bit graph first last removed) (le : first ≤ last) (room : last ≤ graph.nodes.length) :
    slice removed.nodes first last = (slice graph.nodes first last).map (shrink by_flag_bit graph first) := by
  rw [left.nodes,slice_replaceSlice room le (by rw [length_map,length_slice room])]

private theorem Erased.edges_left (left : Erased by_flag_bit graph first last removed) (formed : graph.WellFormed)
    (member : node ∈ slice graph.nodes first last) :
    removed.Edges (shrink by_flag_bit graph first node) = (graph.Edges node).filter (stays by_flag_bit graph first node) := by
  have within := shrink_within by_flag_bit formed first (mem_of_slice member)
  have low : node.edges_begin ≤ (shrink by_flag_bit graph first node).edges_end := Nat.le_add_right ..
  have count : (shrink by_flag_bit graph first node).edges_end - node.edges_begin =
      (graph.Edges node).countP (stays by_flag_bit graph first node) := Nat.add_sub_cancel_left ..
  calc removed.Edges (shrink by_flag_bit graph first node)
      = slice removed.edges node.edges_begin (shrink by_flag_bit graph first node).edges_end := rfl
    _ = (removed.Edges node).take ((shrink by_flag_bit graph first node).edges_end - node.edges_begin) :=
      (slice_take low within.ends).symm
    _ = (stablePartition (stays by_flag_bit graph first node) (graph.Edges node)).take
        ((graph.Edges node).countP (stays by_flag_bit graph first node)) := by rw [left.own node member,count]
    _ = (graph.Edges node).filter (stays by_flag_bit graph first node) := take_stablePartition ..

private theorem Erased.remapped (left : Erased by_flag_bit graph first last removed) (formed : graph.WellFormed) (le : first ≤ last)
    (room : last ≤ graph.nodes.length) {parted : List BisectionGraphNode} (perm : parted.Perm (slice removed.nodes first last))
    (mapping : List NodeID) {edges : List BisectionEdge}
    (run : edges = parted.foldl (replaceOne BisectionGraphNode.edges_begin BisectionGraphNode.edges_end
      fun _ => List.map (remap mapping)) removed.edges) :
    edges.length = graph.edges.length ∧
      (∀ node ∈ slice graph.nodes first last,
        slice edges node.edges_begin (shrink by_flag_bit graph first node).edges_end =
          ((graph.Edges node).filter (stays by_flag_bit graph first node)).map (remap mapping)) ∧
      ∀ i, (∀ node ∈ slice graph.nodes first last, i < node.edges_begin ∨ node.edges_end ≤ i) → edges[i]? = graph.edges[i]? := by
  have formed' := left.formed formed le
  have visited : ∀ node ∈ parted, ∃ whole ∈ slice graph.nodes first last, shrink by_flag_bit graph first whole = node := by
    intro node member
    rw [perm.mem_iff,left.range le room] at member
    exact mem_map.mp member
  have inside : ∀ node ∈ parted, node.edges_begin ≤ node.edges_end ∧ node.edges_end ≤ removed.edges.length :=
    fun node member => formed'.inside node (mem_of_slice (perm.mem_iff.mp member))
  have apart : parted.Pairwise (Apart BisectionGraphNode.edges_begin BisectionGraphNode.edges_end) := by
    refine (perm.pairwise_iff fun separate => separate.symm).mpr ?_
    exact formed'.apart.sublist (slice_sublist ..)
  obtain ⟨length,own,untouched⟩ := foldl_replaceOne _ _ (fun _ => List.map (remap mapping)) (fun _ _ => length_map _) parted
    removed.edges inside apart
  rw [← run] at length own untouched
  refine ⟨length.trans left.edges_length,fun node member => ?_,fun i outside => ?_⟩
  · have moved : shrink by_flag_bit graph first node ∈ parted := by
      rw [perm.mem_iff,left.range le room]
      exact mem_map_of_mem member
    rw [← left.edges_left formed member]
    exact own _ moved
  · rw [untouched i ?_,left.untouched i outside]
    intro node member
    obtain ⟨whole,member',rfl⟩ := visited node member
    have within := shrink_within by_flag_bit formed first (mem_of_slice member')
    have begins := within.begins
    have ends := within.ends
    have apart' := outside whole member'
    omega

theorem slice_nodes (graph : BisectionGraph) (room : last ≤ graph.nodes.length) {i : ℕ} (below : i < last - first) :
    (slice graph.nodes first last)[i]? = some (graph.Node (first + i)) := by
  rw [slice_getElem?,if_pos below,getElem?_node (by omega)]

private theorem slice_nodes_eq (graph : BisectionGraph) (room : last ≤ graph.nodes.length) :
    slice graph.nodes first last = (List.range (last - first)).map fun i => graph.Node (first + i) := by
  apply ext_getElem?
  intro i
  rw [getElem?_map]
  by_cases below : i < last - first
  · rw [slice_nodes graph room below,getElem?_range below,map_some]
  · rw [slice_getElem?,if_neg below,getElem?_eq_none (by simpa using below),map_none]

/-- The nodes after the partition, against those before it. -/
structure Parted (by_flag_bit : BisectionNode → Bool) (graph : BisectionGraph) (first last center : ℕ)
    (before nodes : List BisectionGraphNode) : Prop where
  inside : first ≤ center ∧ center ≤ last
  left : slice nodes first center =
    ((slice graph.nodes first last).filter fun node => by_flag_bit node.toBisectionNode).map (shrink by_flag_bit graph first)
  right : slice nodes center last =
    ((slice graph.nodes first last).filter fun node => !by_flag_bit node.toBisectionNode).map (shrink by_flag_bit graph first)
  range : (slice nodes first last).Perm (slice before first last)
  perm : nodes.Perm before
  length : nodes.length = graph.nodes.length
  outside : ∀ i, i < first ∨ last ≤ i → nodes[i]? = graph.nodes[i]?

private theorem Erased.parted (left : Erased by_flag_bit graph first last removed) (le : first ≤ last) (room : last ≤ graph.nodes.length) :
    Parted by_flag_bit graph first last
      (first + (slice removed.nodes first last).countP fun node => by_flag_bit node.toBisectionNode) removed.nodes
      (replaceSlice removed.nodes first last
        (stablePartition (fun node => by_flag_bit node.toBisectionNode) (slice removed.nodes first last))) := by
  have size : ((slice graph.nodes first last).map (shrink by_flag_bit graph first)).length = last - first := by
    rw [length_map,length_slice room]
  have length : removed.nodes.length = graph.nodes.length := by
    rw [left.nodes,replaceSlice,length_append,length_append,size,length_take,length_drop]
    omega
  rw [← length] at room
  have fits : (stablePartition (fun node => by_flag_bit node.toBisectionNode) (slice removed.nodes first last)).length = last - first := by
    rw [length_stablePartition,length_slice room]
  have most : (slice removed.nodes first last).countP (fun node => by_flag_bit node.toBisectionNode) ≤ last - first := by
    rw [← length_slice room]
    exact countP_le_length
  have range := slice_replaceSlice room le fits
  have shrunk := left.range le (length ▸ room)
  generalize centered : first + (slice removed.nodes first last).countP (fun node => by_flag_bit node.toBisectionNode) = center
  have count : center - first = (slice removed.nodes first last).countP fun node => by_flag_bit node.toBisectionNode := by omega
  constructor
  · omega
  · rw [← slice_take (by omega : first ≤ center) (by omega : center ≤ last),range,count,take_stablePartition,shrunk,List.filter_map]
    rfl
  · rw [← slice_drop (by omega : first ≤ center),range,count,countP_eq_length_filter,stablePartition,drop_left,shrunk,
      List.filter_map]
    rfl
  · rw [range]
    exact stablePartition_perm ..
  · exact replaceSlice_perm le (stablePartition_perm ..)
  · rw [replaceSlice,length_append,length_append,fits,length_take,length_drop]
    omega
  · intro i outside
    rw [replaceSlice_getElem? room le fits,if_neg (by omega),left.nodes,replaceSlice_getElem? (length ▸ room) le size,if_neg (by omega)]

variable {partition : List Bool}
variable (lower : ∀ i node, (slice graph.nodes first last)[i]? = some node → by_flag_bit node.toBisectionNode = !partition.getD i false)
include lower

private theorem edges_mapped (room : last ≤ graph.nodes.length) (closed : graph.Closed first last) {i : ℕ}
    (found : (slice graph.nodes first last)[i]? = some node) :
    ((graph.Edges node).filter (stays by_flag_bit graph first node)).map (remap (mapNodes by_flag_bit 0 0 (slice graph.nodes first last))) =
      ((graph.Edges node).filter fun edge => partition.getD edge.target false == partition.getD i false).map
        fun edge => ⟨rank partition edge.target⟩ := by
  have inside := closed node (mem_of_getElem? found)
  have same : (graph.Edges node).filter (stays by_flag_bit graph first node) =
      (graph.Edges node).filter fun edge => partition.getD edge.target false == partition.getD i false := by
    refine filter_congr fun edge member => ?_
    rw [stays,lower i node found,lower edge.target _ (slice_nodes graph room (inside edge member))]
    cases partition.getD edge.target false <;> cases partition.getD i false <;> rfl
  rw [same]
  refine map_congr_left fun edge member => ?_
  have target := inside edge (mem_of_mem_filter member)
  rw [remap,mapNodes_rank lower (by rwa [length_slice room])]

private theorem filter_lower (room : last ≤ graph.nodes.length) :
    ((slice graph.nodes first last).filter fun node => by_flag_bit node.toBisectionNode) =
        ((List.range (last - first)).filter fun i => !partition.getD i false).map (fun i => graph.Node (first + i)) ∧
      ((slice graph.nodes first last).filter fun node => !by_flag_bit node.toBisectionNode) =
        ((List.range (last - first)).filter fun i => partition.getD i false).map fun i => graph.Node (first + i) := by
  have flags : ∀ i ∈ List.range (last - first), by_flag_bit (graph.Node (first + i)).toBisectionNode = !partition.getD i false :=
    fun i member => lower i _ (slice_nodes graph room (mem_range.mp member))
  rw [slice_nodes_eq graph room,List.filter_map,List.filter_map]
  constructor
  · exact congrArg _ (filter_congr fun i member => flags i member)
  · refine congrArg _ (filter_congr fun i member => ?_)
    rw [Function.comp_apply,flags i member,Bool.not_not]

end Step

private theorem rank_lt (partition : List Bool) {i n : ℕ} (below : i < n) :
    rank partition i < (List.range n).countP fun k => partition.getD k false == partition.getD i false := by
  have front : (List.range (i + 1)).Sublist (List.range n) := range_sublist.mpr below
  calc rank partition i < rank partition i + 1 := Nat.lt_succ_self _
    _ = (List.range (i + 1)).countP fun k => partition.getD k false == partition.getD i false := by
      rw [range_succ,countP_append,rank]
      simp
    _ ≤ _ := front.countP_le

/-- What a bisection makes of the state, against the state before it. -/
structure Bisected (s : RecursiveBisectionState) (first last depth : ℕ) (partition : List Bool) (after : RecursiveBisectionState)
    (center : ℕ) : Prop where
  inside : first ≤ center ∧ center ≤ last
  left : (slice after.bisection_graph.nodes first center).map BisectionGraphNode.toBisectionNode =
    ((List.range (last - first)).filter fun i => !partition.getD i false).map
      fun i => (s.bisection_graph.Node (first + i)).toBisectionNode
  right : (slice after.bisection_graph.nodes center last).map BisectionGraphNode.toBisectionNode =
    ((List.range (last - first)).filter fun i => partition.getD i false).map
      fun i => (s.bisection_graph.Node (first + i)).toBisectionNode
  induced : ∀ i < last - first, ∃ node,
    (if partition.getD i false then slice after.bisection_graph.nodes center last
      else slice after.bisection_graph.nodes first center)[rank partition i]? = some node ∧
    node.toBisectionNode = (s.bisection_graph.Node (first + i)).toBisectionNode ∧
    after.bisection_graph.Edges node =
      ((s.bisection_graph.Edges (s.bisection_graph.Node (first + i))).filter
        fun edge => partition.getD edge.target false == partition.getD i false).map fun edge => ⟨rank partition edge.target⟩
  closed : after.bisection_graph.Closed first center ∧ after.bisection_graph.Closed center last
  ids : ∀ id j, (after.bisection_ids id).getLsbD j = true ↔ (s.bisection_ids id).getLsbD j = true ∨
    j = 31 - depth ∧ ∃ i < last - first, (s.bisection_graph.Node (first + i)).original_id = id ∧ partition.getD i false = true
  nodes_length : after.bisection_graph.nodes.length = s.bisection_graph.nodes.length
  nodes : ∀ i, i < first ∨ last ≤ i → after.bisection_graph.nodes[i]? = s.bisection_graph.nodes[i]?
  edges_length : after.bisection_graph.edges.length = s.bisection_graph.edges.length
  edges : ∀ i, (∀ node ∈ slice s.bisection_graph.nodes first last, i < node.edges_begin ∨ node.edges_end ≤ i) →
    after.bisection_graph.edges[i]? = s.bisection_graph.edges[i]?
  others : ∀ i node, i < first ∨ last ≤ i → s.bisection_graph.nodes[i]? = some node →
    after.bisection_graph.Edges node = s.bisection_graph.Edges node
  formed : after.bisection_graph.WellFormed

private theorem closed_of_part {graph after : BisectionGraph} {by_flag_bit : BisectionNode → Bool} {first last start stop : ℕ}
    {partition : List Bool} (right : Bool) (room : stop ≤ after.nodes.length)
    (part : slice after.nodes start stop = ((List.range (last - first)).filter fun i => partition.getD i false == right).map
      fun i => shrink by_flag_bit graph first (graph.Node (first + i)))
    (edges : ∀ i < last - first, after.Edges (shrink by_flag_bit graph first (graph.Node (first + i))) =
      ((graph.Edges (graph.Node (first + i))).filter fun edge => partition.getD edge.target false == partition.getD i false).map
        fun edge => ⟨rank partition edge.target⟩)
    (closed : ∀ i < last - first, ∀ edge ∈ graph.Edges (graph.Node (first + i)), edge.target < last - first) :
    after.Closed start stop := by
  intro node member edge at_node
  rw [part] at member
  obtain ⟨i,chosen,rfl⟩ := mem_map.mp member
  obtain ⟨inside,flagged⟩ := mem_filter.mp chosen
  have below := mem_range.mp inside
  rw [edges i below] at at_node
  obtain ⟨whole,kept,rfl⟩ := mem_map.mp at_node
  obtain ⟨old,same⟩ := mem_filter.mp kept
  have flag : partition.getD whole.target false = right := (beq_iff_eq.mp same).trans (beq_iff_eq.mp flagged)
  have size : stop - start = (List.range (last - first)).countP fun k => partition.getD k false == right := by
    rw [← length_slice room,part,length_map,countP_eq_length_filter]
  have less := rank_lt partition (closed i below whole old)
  rw [flag] at less
  exact size ▸ less

section Result
variable {s : RecursiveBisectionState} {first last depth : ℕ} {partition : List Bool}

private theorem flagged_iff (room : last ≤ s.bisection_graph.nodes.length) (id : NodeID) :
    FlaggedFrom (slice s.bisection_graph.nodes first last) partition 0 id ↔
      ∃ i < last - first, (s.bisection_graph.Node (first + i)).original_id = id ∧ partition.getD i false = true := by
  constructor
  · rintro ⟨i,node,found,same,flagged⟩
    rw [slice_getElem?] at found
    split at found
    · rename_i below
      exact ⟨i,below,by rwa [node_eq found],by rwa [Nat.zero_add] at flagged⟩
    · simp at found
  · rintro ⟨i,below,same,flagged⟩
    exact ⟨i,_,slice_nodes _ room below,same,by rwa [Nat.zero_add]⟩

private theorem bisected_of_parts (formed : s.bisection_graph.WellFormed) (room : last ≤ s.bisection_graph.nodes.length)
    (closed : s.bisection_graph.Closed first last) (below : depth < 32) (unset : Unset s first last depth)
    {before nodes : List BisectionGraphNode} {edges : List BisectionEdge} {center : ℕ}
    (parted : Parted (byFlagBit s first last depth partition) s.bisection_graph first last center before nodes)
    (formed' : BisectionGraph.WellFormed ⟨nodes,edges⟩) (edges_length : edges.length = s.bisection_graph.edges.length)
    (own : ∀ node ∈ slice s.bisection_graph.nodes first last,
      slice edges node.edges_begin (shrink (byFlagBit s first last depth partition) s.bisection_graph first node).edges_end =
        ((s.bisection_graph.Edges node).filter (stays (byFlagBit s first last depth partition) s.bisection_graph first node)).map
          (remap (mapNodes (byFlagBit s first last depth partition) 0 0 (slice s.bisection_graph.nodes first last))))
    (untouched : ∀ i, (∀ node ∈ slice s.bisection_graph.nodes first last, i < node.edges_begin ∨ node.edges_end ≤ i) →
      edges[i]? = s.bisection_graph.edges[i]?) :
    Bisected s first last depth partition ⟨⟨nodes,edges⟩,augmented s first last depth partition⟩ center := by
  have lower : ∀ i node, (slice s.bisection_graph.nodes first last)[i]? = some node →
      byFlagBit s first last depth partition node.toBisectionNode = !partition.getD i false :=
    fun i node found => byFlagBit_eq formed below unset found
  have places : ∀ i < last - first, (slice s.bisection_graph.nodes first last)[i]? = some (s.bisection_graph.Node (first + i)) :=
    fun i => slice_nodes _ room
  have inside : ∀ i < last - first, ∀ edge ∈ s.bisection_graph.Edges (s.bisection_graph.Node (first + i)), edge.target < last - first :=
    fun i below => closed _ (mem_of_getElem? (places i below))
  have renumbered : ∀ i < last - first, BisectionGraph.Edges ⟨nodes,edges⟩
      (shrink (byFlagBit s first last depth partition) s.bisection_graph first (s.bisection_graph.Node (first + i))) =
        ((s.bisection_graph.Edges (s.bisection_graph.Node (first + i))).filter
          fun edge => partition.getD edge.target false == partition.getD i false).map fun edge => ⟨rank partition edge.target⟩ := by
    intro i below
    rw [← edges_mapped lower room closed (places i below)]
    exact own _ (mem_of_getElem? (places i below))
  obtain ⟨lefts,rights⟩ := filter_lower lower room
  have left := parted.left
  have right := parted.right
  rw [lefts,List.map_map] at left
  rw [rights,List.map_map] at right
  constructor
  · exact parted.inside
  · rw [left,List.map_map]
    rfl
  · rw [right,List.map_map]
    rfl
  · intro i below
    refine ⟨shrink _ _ _ _,?_,rfl,renumbered i below⟩
    have found := places i below
    have flag := lower i _ found
    have same := countP_same lower found
    cases flagged : partition.getD i false with
    | true =>
      rw [flagged,Bool.not_true] at flag
      rw [flag] at same
      simp only [beq_false] at same
      rw [if_pos rfl,parted.right,getElem?_map,← same,filter_getElem?_countP (fun node => !byFlagBit s first last depth partition
        node.toBisectionNode) found (by rw [flag,Bool.not_false]),map_some]
    | false =>
      rw [flagged,Bool.not_false] at flag
      rw [flag] at same
      simp only [beq_true] at same
      rw [if_neg Bool.false_ne_true,parted.left,getElem?_map,← same,filter_getElem?_countP (fun node =>
        byFlagBit s first last depth partition node.toBisectionNode) found flag,map_some]
  · have fits : last ≤ nodes.length := parted.length ▸ room
    constructor
    · refine closed_of_part false (le_trans parted.inside.2 fits) ?_ renumbered inside
      simp only [beq_false]
      exact left
    · refine closed_of_part true fits ?_ renumbered inside
      simp only [beq_true]
      exact right
  · intro id j
    rw [augmented,foldl_augment_bit,depthFlag_bit below,flagged_iff room]
  · exact parted.length
  · exact parted.outside
  · exact edges_length
  · exact untouched
  · intro i node outside found
    have placed := (List.getElem?_eq_some_iff.mp found).1
    apply ext_getElem?
    intro k
    rw [BisectionGraph.Edges,BisectionGraph.Edges,slice_getElem?,slice_getElem?]
    split
    · refine untouched _ fun other member => ?_
      obtain ⟨j,low,high,at_j⟩ := mem_slice.mp member
      have separate := apart_places formed (by omega : i ≠ j) placed (by omega)
      rw [Apart,node_eq found,node_eq at_j] at separate
      omega
    · rfl
  · exact formed'

/-- Bisection splits a range of nodes exactly. -/
theorem bisection_splits (formed : s.bisection_graph.WellFormed) (le : first ≤ last) (room : last ≤ s.bisection_graph.nodes.length)
    (closed : s.bisection_graph.Closed first last) (below : depth < 32) (unset : Unset s first last depth) :
    Bisected s first last depth partition (ApplyBisection s first last depth partition).1
      (ApplyBisection s first last depth partition).2 := by
  have removed := erased (byFlagBit s first last depth partition) formed le room
  have parted := removed.parted le room
  obtain ⟨edges_length,own,untouched⟩ := removed.remapped formed le room parted.range
    (mapNodes (byFlagBit s first last depth partition) 0 0 (slice s.bisection_graph.nodes first last)) rfl
  have formed' := formed_of_perm (removed.formed formed le) parted.perm (edges_length.trans removed.edges_length.symm)
  exact bisected_of_parts formed room closed below unset parted formed' edges_length own untouched

def squareState : RecursiveBisectionState :=
  ⟨makeBisectionGraph [⟨0,0⟩,⟨0,1⟩,⟨1,1⟩,⟨1,0⟩] [⟨⟨1⟩,0⟩,⟨⟨2⟩,0⟩,⟨⟨3⟩,1⟩,⟨⟨0⟩,1⟩,⟨⟨0⟩,2⟩,⟨⟨3⟩,2⟩,⟨⟨1⟩,3⟩,⟨⟨2⟩,3⟩],fun _ => 0⟩

theorem square_splits : Bisected squareState 0 4 1 [true,false,true,false]
    (ApplyBisection squareState 0 4 1 [true,false,true,false]).1 (ApplyBisection squareState 0 4 1 [true,false,true,false]).2 :=
  bisection_splits (makeBisectionGraph_formed _ _) (by decide) (by decide) (by unfold BisectionGraph.Closed; decide) (by decide)
    (fun _ _ => by simp [squareState])

example : (ApplyBisection squareState 0 4 1 [true,false,true,false]).1.bisection_graph.nodes.map (fun node => node.original_id) =
    [1,3,0,2] := by decide

end Result

end Osrm.RecursiveBisection
