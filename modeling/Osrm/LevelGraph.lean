import Osrm.Partition
import Osrm.EdgeBasedGraph
import Osrm.Walks

/-!
`partitioner::MultiLevelGraph`, the edge-based graph with the edges of every node sorted by the
highest level on which their ends are apart. The edges that leave the cell of the node on a level
are then the last ones of the node.
-/
namespace Osrm.LevelGraph
open List
open Typedefs Walks Osrm.Partition EdgeBasedGraph

/-- The highest level on which an edge is a border edge. -/
def borderLevel (P : MultiLevelPartition) (edge : EdgeBasedEdge) : LevelID :=
  P.GetHighestDifferentLevel edge.source edge.target

/-- `MultiLevelGraph`; the id of an edge is its position. -/
structure MultiLevelGraph (P : MultiLevelPartition) where
  number_of_nodes : ℕ
  edges : List EdgeBasedEdge
  sorted : edges.Pairwise fun a b => a.source < b.source ∨ a.source = b.source ∧ borderLevel P a ≤ borderLevel P b
  bounded : ∀ e ∈ edges, e.source < number_of_nodes ∧ e.target < number_of_nodes

/-- The scan over the edges of a node: how many of them are passed before those of a level. -/
def levelOffset {α : Type} (border : α → LevelID) (edges : List α) : LevelID → ℕ
  | 0 => 0
  | level + 1 => levelOffset border edges level +
      ((edges.drop (levelOffset border edges level)).takeWhile fun e => border e == level).length

private theorem levelOffset_cut {α : Type} {border : α → LevelID} {edges : List α}
    (sorted : edges.Pairwise fun a b => border a ≤ border b) (level : LevelID) :
    (∀ e ∈ edges.take (levelOffset border edges level), border e < level) ∧
      ∀ e ∈ edges.drop (levelOffset border edges level), level ≤ border e := by
  induction level with
  | zero => simp [levelOffset]
  | succ level ih =>
    obtain ⟨below,above⟩ := ih
    rw [levelOffset,take_add,← drop_drop]
    generalize edges.take (levelOffset border edges level) = front at below
    have order := sorted.sublist (drop_sublist (levelOffset border edges level) edges)
    generalize edges.drop (levelOffset border edges level) = back at above order
    have cut := takeWhile_append_dropWhile (p := fun e => border e == level) (l := back)
    have first : back.take (back.takeWhile fun e => border e == level).length = back.takeWhile fun e => border e == level := by
      nth_rewrite 2 [← cut]
      exact take_left
    have last : back.drop (back.takeWhile fun e => border e == level).length = back.dropWhile fun e => border e == level := by
      nth_rewrite 2 [← cut]
      exact drop_left
    rw [first,last]
    constructor
    · intro e member
      rcases mem_append.mp member with early | here
      · exact (below e early).trans (Nat.lt_succ_self level)
      · have level_eq : border e = level := by simpa using mem_takeWhile_imp here
        lia
    · intro e member
      have ge := above e ((dropWhile_sublist _).mem member)
      have tail := order.sublist (dropWhile_sublist fun e => border e == level)
      cases rest : back.dropWhile fun e => border e == level with
      | nil => simp [rest] at member
      | cons head others =>
        have stops : border head ≠ level := by
          have := head_dropWhile_not (fun e => border e == level) (l := back) (by simp [rest])
          simpa [rest] using this
        have headGe := above head ((dropWhile_sublist _).mem (by rw [rest]; simp))
        rw [rest] at member tail
        rcases mem_cons.mp member with rfl | later
        · lia
        · have := (pairwise_cons.mp tail).1 e later
          lia

namespace MultiLevelGraph
variable {P : MultiLevelPartition} (graph : MultiLevelGraph P) {edge : EdgeBasedEdge × EdgeID} {node : NodeID}
  {level : LevelID}

def GetAdjacentEdgeRange (node : NodeID) : List (EdgeBasedEdge × EdgeID) :=
  graph.edges.zipIdx.filter fun edge => edge.1.source == node
/-- The edges from `BeginBorderEdges` on. -/
def GetBorderEdgeRange (level : LevelID) (node : NodeID) : List (EdgeBasedEdge × EdgeID) :=
  (graph.GetAdjacentEdgeRange node).drop
    (levelOffset (fun edge => borderLevel P edge.1) (graph.GetAdjacentEdgeRange node) level)
/-- The edges up to `BeginBorderEdges`. -/
def GetInternalEdgeRange (level : LevelID) (node : NodeID) : List (EdgeBasedEdge × EdgeID) :=
  (graph.GetAdjacentEdgeRange node).take
    (levelOffset (fun edge => borderLevel P edge.1) (graph.GetAdjacentEdgeRange node) level)
/-- `FindEdge`; `none` stands for `SPECIAL_EDGEID`. -/
def FindEdge (source target : NodeID) : Option (EdgeBasedEdge × EdgeID) :=
  (graph.GetAdjacentEdgeRange source).find? fun edge => edge.1.target == target

/-- The range has the edges of the node with their ids. -/
theorem mem_adjacent : edge ∈ graph.GetAdjacentEdgeRange node ↔ graph.edges[edge.2]? = some edge.1 ∧ edge.1.source = node := by
  simp [GetAdjacentEdgeRange,mem_zipIdx_iff_getElem?]

private theorem adjacent_sorted : (graph.GetAdjacentEdgeRange node).Pairwise fun a b => borderLevel P a.1 ≤ borderLevel P b.1 := by
  have pairs : (graph.edges.zipIdx).Pairwise fun a b =>
      a.1.source < b.1.source ∨ a.1.source = b.1.source ∧ borderLevel P a.1 ≤ borderLevel P b.1 := by
    have := graph.sorted
    rw [← zipIdx_map_fst 0 graph.edges,pairwise_map] at this
    exact this
  refine (pairs.filter _).imp_of_mem ?_
  intro a b memberA memberB order
  have one := ((mem_adjacent graph).mp memberA).2
  have two := ((mem_adjacent graph).mp memberB).2
  rcases order with less | ⟨_,le⟩
  · lia
  · exact le

/-- The arcs along which a direction uses the edges, with the weights that `weigh` gives them. -/
def arcs (weigh : EdgeBasedEdge → ℤ) (direction : Direction) : Arcs NodeID := fun u v w =>
  ∃ edge ∈ graph.GetAdjacentEdgeRange u, edge.1.target = v ∧ edge.1.data.usable direction = true ∧ weigh edge.1 = w

/-- The arcs of a direction are those of its usable edges. -/
theorem arcs_iff {weigh : EdgeBasedEdge → ℤ} {direction : Direction} {u v : NodeID} {w : ℤ} :
    graph.arcs weigh direction u v w ↔
      ∃ e ∈ graph.edges, e.source = u ∧ e.target = v ∧ e.data.usable direction = true ∧ weigh e = w := by
  constructor
  · rintro ⟨edge,member,target,usable,weight⟩
    obtain ⟨found,source⟩ := graph.mem_adjacent.mp member
    exact ⟨edge.1,mem_of_getElem? found,source,target,usable,weight⟩
  · rintro ⟨e,member,source,target,usable,weight⟩
    obtain ⟨id,found⟩ := mem_iff_getElem?.mp member
    exact ⟨(e,id),graph.mem_adjacent.mpr ⟨found,source⟩,target,usable,weight⟩

/-- An edge that one direction uses is stored at its other end for the other direction. -/
def Mirrored : Prop := ∀ u v, (∃ w, graph.arcs (fun _ => 0) .FORWARD u v w) ↔ ∃ w, graph.arcs (fun _ => 0) .REVERSE v u w

/-- The ends of a border edge differ on the level or above. -/
theorem mem_border : edge ∈ graph.GetBorderEdgeRange level node ↔
    edge ∈ graph.GetAdjacentEdgeRange node ∧ level ≤ P.GetHighestDifferentLevel node edge.1.target := by
  obtain ⟨below,above⟩ := levelOffset_cut (@adjacent_sorted _ graph node) level
  constructor
  · intro member
    have inside := mem_of_mem_drop member
    have le := above edge member
    rw [borderLevel,((mem_adjacent graph).mp inside).2] at le
    exact ⟨inside,le⟩
  · rintro ⟨inside,le⟩
    rw [← take_append_drop (levelOffset (fun edge => borderLevel P edge.1) (graph.GetAdjacentEdgeRange node) level)
      (graph.GetAdjacentEdgeRange node),mem_append] at inside
    rcases inside with early | late
    · have less := below edge early
      rw [borderLevel,((mem_adjacent graph).mp (mem_of_mem_take early)).2] at less
      lia
    · exact late

theorem mem_internal : edge ∈ graph.GetInternalEdgeRange level node ↔
    edge ∈ graph.GetAdjacentEdgeRange node ∧ P.GetHighestDifferentLevel node edge.1.target < level := by
  obtain ⟨below,above⟩ := levelOffset_cut (@adjacent_sorted _ graph node) level
  constructor
  · intro member
    have inside := mem_of_mem_take member
    have less := below edge member
    rw [borderLevel,((mem_adjacent graph).mp inside).2] at less
    exact ⟨inside,less⟩
  · rintro ⟨inside,less⟩
    rw [← take_append_drop (levelOffset (fun edge => borderLevel P edge.1) (graph.GetAdjacentEdgeRange node) level)
      (graph.GetAdjacentEdgeRange node),mem_append] at inside
    rcases inside with early | late
    · exact early
    · have le := above edge late
      rw [borderLevel,((mem_adjacent graph).mp (mem_of_mem_drop late)).2] at le
      lia

end MultiLevelGraph

end Osrm.LevelGraph
