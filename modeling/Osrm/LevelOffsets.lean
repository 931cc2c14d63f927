import Osrm.Scan
import Osrm.LevelGraph
import Osrm.CellStorage

/-!
How `partitioner::MultiLevelGraph` is stored: the edges sorted by source and level, the first edge of every node, and
for the nodes up to the last one at a border a byte for each level, the number of its edges before those of the level.
-/
namespace Osrm.LevelOffsets
open List Option
open Typedefs Osrm.Partition EdgeBasedGraph LevelGraph Scan
open CellStorage (rowPartition rowGraph road)

/-- `EdgeArrayEntry`. -/
structure EdgeArrayEntry where
  target : NodeID
  data : EdgeData
  deriving DecidableEq, Repr

def edgeToEntry (edge : EdgeBasedEdge) : EdgeArrayEntry := ⟨edge.target,edge.data⟩
/-- The bytes of `EdgeOffset`. -/
def EdgeOffset (distance : ℕ) : ℕ := distance % 2 ^ 8

/-- The members of `MultiLevelGraph`. -/
structure Graph where
  node_array : List EdgeID
  edge_array : List EdgeArrayEntry
  node_to_edge_offset : List ℕ
  deriving DecidableEq, Repr

/-- The comparison of `SortEdgesByHighestLevel`. -/
def before (P : MultiLevelPartition) (lhs rhs : EdgeBasedEdge) : Bool :=
  lhs.source < rhs.source || lhs.source == rhs.source &&
    (borderLevel P lhs < borderLevel P rhs || borderLevel P lhs == borderLevel P rhs && lhs.target < rhs.target)

/-- A possible order of the edges after `SortEdgesByHighestLevel`. -/
structure Sorted (P : MultiLevelPartition) (edges sorted : List EdgeBasedEdge) : Prop where
  perm : sorted.Perm edges
  ordered : sorted.Pairwise fun a b => before P b a = false

/-- The loop of `InitializeFromSortedEdgeRange`, with the edges that are left and the number of those passed. -/
def firstEdges : List NodeID → List EdgeBasedEdge → ℕ → List EdgeID
  | [], _, _ => []
  | node :: nodes, rest, passed =>
    let offset := passed + (rest.takeWhile fun edge => edge.source == node).length
    offset :: firstEdges nodes (rest.dropWhile fun edge => edge.source == node) offset

def maxBorderNode (P : MultiLevelPartition) (edges : List EdgeBasedEdge) : NodeID :=
  edges.foldl (fun max_border_node_id edge =>
    if borderLevel P edge > 0 then max max_border_node_id (max edge.source edge.target) else max_border_node_id) 0

/-- The loop over the levels of a node, with the edges left and the distance from its first one. -/
def offsetsOf (P : MultiLevelPartition) (node : NodeID) :
    List LevelID → List EdgeBasedEdge → ℕ → List ℕ × List EdgeBasedEdge
  | [], rest, _ => ([],rest)
  | level :: levels, rest, distance =>
    let offset := distance + (rest.takeWhile fun edge => edge.source == node && borderLevel P edge == level).length
    let next := offsetsOf P node levels (rest.dropWhile fun edge => edge.source == node && borderLevel P edge == level) offset
    (EdgeOffset offset :: next.1,next.2)

/-- The loop of `InitializeOffsetsFromSortedEdges` over the nodes. -/
def offsetsFrom (P : MultiLevelPartition) : List NodeID → List EdgeBasedEdge → List ℕ
  | [], _ => []
  | node :: nodes, rest =>
    let offsets := offsetsOf P node (List.range P.GetNumberOfLevels) rest 0
    (0 :: offsets.1).dropLast ++ offsetsFrom P nodes offsets.2

def InitializeOffsetsFromSortedEdges (P : MultiLevelPartition) (max_border_node_id : NodeID) (sorted : List EdgeBasedEdge) :
    List ℕ :=
  offsetsFrom P (List.range (max_border_node_id + 1)) sorted ++ [EdgeOffset P.GetNumberOfLevels]

/-- The constructor, for an order in which the edges were sorted. -/
def Graph.build (P : MultiLevelPartition) (num_nodes : ℕ) (edges sorted : List EdgeBasedEdge) : Graph where
  node_array := 0 :: firstEdges (List.range num_nodes) sorted 0
  edge_array := sorted.map edgeToEntry
  node_to_edge_offset := InitializeOffsetsFromSortedEdges P (maxBorderNode P edges) sorted

namespace Graph
variable (graph : Graph)

/-- `none` stands for an access outside of an array. -/
def BeginEdges (n : NodeID) : Option EdgeID := graph.node_array[n]?
def EndEdges (n : NodeID) : Option EdgeID := graph.node_array[n + 1]?
def GetNumberOfLevels : Option LevelID := graph.node_to_edge_offset.getLast?

/-- `BeginBorderEdges`; the index is a number of 32 bits. -/
def BeginBorderEdges (level : LevelID) (node : NodeID) : Option EdgeID := do
  let levels ← graph.GetNumberOfLevels
  let index := node * levels % 2 ^ 32
  if index ≥ graph.node_to_edge_offset.length - 1 then
    if level == 0 then graph.BeginEdges node else graph.EndEdges node
  else
    let first ← graph.BeginEdges node
    let offset ← graph.node_to_edge_offset[(index + level) % 2 ^ 32]?
    pure (first + offset)

/-- The ids of an interval; `irange`. -/
def irange (first last : EdgeID) : List EdgeID := List.range' first (last - first)
def GetAdjacentEdgeRange (node : NodeID) : Option (List EdgeID) := do
  pure (irange (← graph.BeginEdges node) (← graph.EndEdges node))
def GetBorderEdgeRange (level : LevelID) (node : NodeID) : Option (List EdgeID) := do
  pure (irange (← graph.BeginBorderEdges level node) (← graph.EndEdges node))
def GetInternalEdgeRange (level : LevelID) (node : NodeID) : Option (List EdgeID) := do
  pure (irange (← graph.BeginEdges node) (← graph.BeginBorderEdges level node))
def GetMaxBorderNodeID : Option NodeID := do
  let num_levels ← graph.GetNumberOfLevels
  pure ((graph.node_to_edge_offset.length - 1) / num_levels - 1)

end Graph

/-! ### The loops -/

variable {P : MultiLevelPartition} {sorted edges : List EdgeBasedEdge} {num_nodes : ℕ} {v : NodeID} {l : LevelID}

def Ordered (P : MultiLevelPartition) (sorted : List EdgeBasedEdge) : Prop :=
  sorted.Pairwise fun a b => a.source < b.source ∨ a.source = b.source ∧ borderLevel P a ≤ borderLevel P b

theorem Sorted.order (sort : Sorted P edges sorted) : Ordered P sorted := by
  refine sort.ordered.imp ?_
  intro a b order
  simp only [before,Bool.or_eq_false_iff,Bool.and_eq_false_iff,decide_eq_false_iff_not,beq_eq_false_iff_ne] at order
  obtain ⟨source,level⟩ := order
  lia

def early (v : NodeID) (edge : EdgeBasedEdge) : Bool := edge.source < v
def lower (P : MultiLevelPartition) (v : NodeID) (l : LevelID) (edge : EdgeBasedEdge) : Bool :=
  edge.source == v && decide (borderLevel P edge < l)

private theorem falling_of (order : Ordered P sorted) {p : EdgeBasedEdge → Bool} (closed : ∀ a b, (a.source < b.source ∨
    a.source = b.source ∧ borderLevel P a ≤ borderLevel P b) → p b = true → p a = true) : Falling p sorted :=
  order.imp fun {a b} => closed a b

private theorem falling_early (order : Ordered P sorted) (v : NodeID) : Falling (early v) sorted := by
  refine falling_of order fun a b before late => ?_
  simp only [early,decide_eq_true_eq] at late ⊢
  lia

private theorem falling_filter (order : Ordered P sorted) {p q : EdgeBasedEdge → Bool} (closed : ∀ a b, q a = true →
    (a.source < b.source ∨ a.source = b.source ∧ borderLevel P a ≤ borderLevel P b) → p b = true → p a = true) :
    Falling p (sorted.filter q) := by
  refine (Pairwise.filter _ order).imp_of_mem ?_
  intro a b member _ before holds
  exact closed a b (mem_filter.mp member).2 before holds

private theorem firstEdges_spec (order : Ordered P sorted) (count : ℕ) (v : NodeID) :
    firstEdges (List.range' v count) (sorted.filter fun edge => !early v edge) (sorted.countP (early v)) =
      (List.range' v count).map fun node => sorted.countP (early (node + 1)) := by
  induction count generalizing v with
  | zero => rfl
  | succ count ih =>
    have falling : Falling (fun edge : EdgeBasedEdge => edge.source == v) (sorted.filter fun edge => !early v edge) := by
      refine falling_filter order fun a b here before there => ?_
      simp only [early,Bool.not_eq_true',decide_eq_false_iff_not,beq_iff_eq] at here there ⊢
      lia
    have passed : sorted.countP (early v) + ((sorted.filter fun edge => !early v edge).takeWhile fun edge => edge.source == v).length =
        sorted.countP (early (v + 1)) := by
      rw [length_takeWhile falling,countP_filter]
      refine (countP_or sorted (fun edge => ?_) fun edge => ?_).symm
      all_goals simp only [early,Bool.and_eq_true,beq_iff_eq,Bool.not_eq_true',decide_eq_false_iff_not,decide_eq_true_eq]; lia
    have left : ((sorted.filter fun edge => !early v edge).dropWhile fun edge => edge.source == v) =
        sorted.filter fun edge => !early (v + 1) edge := by
      rw [dropWhile_eq_filter falling,List.filter_filter]
      refine filter_congr fun edge _ => ?_
      rw [Bool.eq_iff_iff]
      simp only [early,Bool.and_eq_true,Bool.not_eq_true',beq_eq_false_iff_ne,decide_eq_false_iff_not]
      lia
    rw [range'_succ,firstEdges,map_cons]
    rw [passed,left,ih]

private theorem node_array_at (order : Ordered P sorted) (le : v ≤ num_nodes) :
    (0 :: firstEdges (List.range num_nodes) sorted 0)[v]? = some (sorted.countP (early v)) := by
  have all : sorted.filter (fun edge => !early 0 edge) = sorted := by simp [early]
  have none : sorted.countP (early 0) = 0 := by simp [early]
  have spec := firstEdges_spec order num_nodes 0
  rw [all,none,← range_eq_range'] at spec
  rw [spec]
  cases v with
  | zero => simp [none]
  | succ v =>
    have below : v < num_nodes := le
    simp [below]

private theorem offsetsOf_spec (order : Ordered P sorted) (v : NodeID) (count : ℕ) (l : LevelID) :
    offsetsOf P v (List.range' l count) (sorted.filter fun edge => !early v edge && !lower P v l edge)
        (sorted.countP (lower P v l)) =
      ((List.range' l count).map fun level => EdgeOffset (sorted.countP (lower P v (level + 1))),
        sorted.filter fun edge => !early v edge && !lower P v (l + count) edge) := by
  induction count generalizing l with
  | zero => rfl
  | succ count ih =>
    have falling : Falling (fun edge => edge.source == v && borderLevel P edge == l)
        (sorted.filter fun edge => !early v edge && !lower P v l edge) := by
      refine falling_filter order fun a b here before there => ?_
      simp only [early,lower,Bool.not_eq_true',Bool.and_eq_true,Bool.and_eq_false_iff,decide_eq_false_iff_not,beq_iff_eq,
        beq_eq_false_iff_ne] at here there ⊢
      lia
    have passed : sorted.countP (lower P v l) + ((sorted.filter fun edge => !early v edge && !lower P v l edge).takeWhile
        fun edge => edge.source == v && borderLevel P edge == l).length = sorted.countP (lower P v (l + 1)) := by
      rw [length_takeWhile falling,countP_filter]
      refine (countP_or sorted (fun edge => ?_) fun edge => ?_).symm
      all_goals
        simp only [early,lower,Bool.and_eq_true,beq_iff_eq,Bool.not_eq_true',Bool.and_eq_false_iff,beq_eq_false_iff_ne,
          decide_eq_false_iff_not,decide_eq_true_eq]
        lia
    have left : ((sorted.filter fun edge => !early v edge && !lower P v l edge).dropWhile
        fun edge => edge.source == v && borderLevel P edge == l) =
        sorted.filter fun edge => !early v edge && !lower P v (l + 1) edge := by
      rw [dropWhile_eq_filter falling,List.filter_filter]
      refine filter_congr fun edge _ => ?_
      rw [Bool.eq_iff_iff]
      simp only [early,lower,Bool.and_eq_true,Bool.not_eq_true',Bool.and_eq_false_iff,beq_eq_false_iff_ne,decide_eq_false_iff_not]
      lia
    rw [range'_succ,offsetsOf,map_cons]
    rw [passed,left,ih]
    simp only [Nat.add_assoc,Nat.add_comm 1 count]

private theorem offsets_node (order : Ordered P sorted) (v : NodeID) :
    (0 :: (offsetsOf P v (List.range P.GetNumberOfLevels) (sorted.filter fun edge => !early v edge) 0).1).dropLast =
        (List.range P.GetNumberOfLevels).map (fun level => EdgeOffset (sorted.countP (lower P v level))) ∧
      (offsetsOf P v (List.range P.GetNumberOfLevels) (sorted.filter fun edge => !early v edge) 0).2 =
        sorted.filter fun edge => !early (v + 1) edge := by
  have start : sorted.filter (fun edge => !early v edge && !lower P v 0 edge) = sorted.filter fun edge => !early v edge := by
    simp [lower]
  have none : sorted.countP (lower P v 0) = 0 := by simp [lower]
  have spec := offsetsOf_spec order v P.GetNumberOfLevels 0
  rw [start,none,← range_eq_range',Nat.zero_add] at spec
  rw [spec]
  constructor
  · have zero : (0 : ℕ) = EdgeOffset (sorted.countP (lower P v 0)) := by simp [none,EdgeOffset]
    nth_rewrite 1 [zero]
    exact dropLast_shift (fun level => EdgeOffset (sorted.countP (lower P v level))) P.GetNumberOfLevels
  · refine filter_congr fun edge _ => ?_
    have level := P.highest_lt (x := edge.source) (y := edge.target)
    rw [Bool.eq_iff_iff]
    simp only [early,lower,borderLevel,Bool.and_eq_true,Bool.not_eq_true',Bool.and_eq_false_iff,beq_eq_false_iff_ne,
      decide_eq_false_iff_not]
    lia

private theorem offsetsFrom_spec (order : Ordered P sorted) (count : ℕ) (v : NodeID) :
    offsetsFrom P (List.range' v count) (sorted.filter fun edge => !early v edge) =
      (List.range' v count).flatMap fun node =>
        (List.range P.GetNumberOfLevels).map fun level => EdgeOffset (sorted.countP (lower P node level)) := by
  induction count generalizing v with
  | zero => rfl
  | succ count ih =>
    obtain ⟨bytes,left⟩ := offsets_node order v
    rw [range'_succ,offsetsFrom,flatMap_cons]
    rw [left,ih,bytes]

def offsetBytes (P : MultiLevelPartition) (sorted : List EdgeBasedEdge) (count : ℕ) : List ℕ :=
  (List.range count).flatMap fun node =>
    (List.range P.GetNumberOfLevels).map fun level => EdgeOffset (sorted.countP (lower P node level))

private theorem initializeOffsets_eq (order : Ordered P sorted) (max_border_node_id : NodeID) :
    InitializeOffsetsFromSortedEdges P max_border_node_id sorted =
      offsetBytes P sorted (max_border_node_id + 1) ++ [EdgeOffset P.GetNumberOfLevels] := by
  have all : sorted.filter (fun edge => !early 0 edge) = sorted := by simp [early]
  have spec := offsetsFrom_spec order (max_border_node_id + 1) 0
  rw [all,← range_eq_range'] at spec
  rw [InitializeOffsetsFromSortedEdges,spec,offsetBytes]

private theorem offsetBytes_length (count : ℕ) : (offsetBytes P sorted count).length = count * P.GetNumberOfLevels := by
  induction count with
  | zero => simp [offsetBytes]
  | succ count ih =>
    rw [offsetBytes,range_succ,flatMap_append,length_append,← offsetBytes,ih]
    simp [Nat.succ_mul]

private theorem offsetBytes_at {count : ℕ} (node : v < count) (level : l < P.GetNumberOfLevels) :
    (offsetBytes P sorted count)[v * P.GetNumberOfLevels + l]? = some (EdgeOffset (sorted.countP (lower P v l))) := by
  rw [offsetBytes,getElem?_flatMap _ P.GetNumberOfLevels count v l (by simp) node level]
  simp [level]

private theorem le_maxBorderNode {edge : EdgeBasedEdge} (member : edge ∈ edges) (border : 0 < borderLevel P edge) :
    edge.source ≤ maxBorderNode P edges := by
  have keeps : ∀ (rest : List EdgeBasedEdge) (start : NodeID), start ≤ rest.foldl (fun max_border_node_id edge =>
      if borderLevel P edge > 0 then max max_border_node_id (max edge.source edge.target) else max_border_node_id) start := by
    intro rest
    induction rest with
    | nil => exact fun start => le_rfl
    | cons first rest ih =>
      intro start
      refine le_trans ?_ (ih _)
      dsimp only
      split
      · exact le_max_left _ _
      · exact le_rfl
  obtain ⟨front,back,rfl⟩ := append_of_mem member
  rw [maxBorderNode,foldl_append,foldl_cons,if_pos border]
  exact (le_max_left _ _).trans ((le_max_right _ _).trans (keeps back _))

/-! ### The ranges -/

theorem countP_early_succ (sorted : List EdgeBasedEdge) (v : NodeID) :
    sorted.countP (early (v + 1)) = sorted.countP (early v) + sorted.countP fun edge => edge.source == v := by
  refine countP_or sorted (fun edge => ?_) fun edge => ?_
  all_goals simp only [early,decide_eq_true_eq,beq_iff_eq]; lia

theorem countP_lower_le (sorted : List EdgeBasedEdge) (v : NodeID) (l : LevelID) :
    sorted.countP (lower P v l) ≤ sorted.countP fun edge => edge.source == v := by
  refine countP_mono_left fun edge _ here => ?_
  simp only [lower,Bool.and_eq_true] at here
  exact here.1

theorem begins_at (order : Ordered P sorted) (inside : v < num_nodes) :
    (Graph.build P num_nodes edges sorted).BeginEdges v = some (sorted.countP (early v)) := node_array_at order (by lia)

theorem ends_at (order : Ordered P sorted) (inside : v < num_nodes) : (Graph.build P num_nodes edges sorted).EndEdges v =
    some (sorted.countP (early v) + sorted.countP fun edge => edge.source == v) := by
  rw [← countP_early_succ]
  exact node_array_at order (by lia)

private theorem bytes_eq (order : Ordered P sorted) (levels : P.GetNumberOfLevels < 2 ^ 8) :
    (Graph.build P num_nodes edges sorted).node_to_edge_offset =
      offsetBytes P sorted (maxBorderNode P edges + 1) ++ [P.GetNumberOfLevels] := by
  rw [← Nat.mod_eq_of_lt levels]
  exact initializeOffsets_eq order _

theorem byte_at (order : Ordered P sorted) (levels : P.GetNumberOfLevels < 2 ^ 8) (within : v ≤ maxBorderNode P edges)
    (level : l < P.GetNumberOfLevels) :
    (Graph.build P num_nodes edges sorted).node_to_edge_offset[v * P.GetNumberOfLevels + l]? =
      some (EdgeOffset (sorted.countP (lower P v l))) := by
  have less : v * P.GetNumberOfLevels + l < (maxBorderNode P edges + 1) * P.GetNumberOfLevels := by
    have : (v + 1) * P.GetNumberOfLevels ≤ (maxBorderNode P edges + 1) * P.GetNumberOfLevels := Nat.mul_le_mul_right _ (by lia)
    rw [Nat.succ_mul] at this
    lia
  rw [bytes_eq order levels,getElem?_append_left (by rwa [offsetBytes_length]),offsetBytes_at (Nat.lt_succ_of_le within) level]

private theorem numberOfLevels_eq (order : Ordered P sorted) (levels : P.GetNumberOfLevels < 2 ^ 8) :
    (Graph.build P num_nodes edges sorted).GetNumberOfLevels = some P.GetNumberOfLevels := by
  rw [Graph.GetNumberOfLevels,bytes_eq order levels,getLast?_concat]

private theorem bytes_length (order : Ordered P sorted) (levels : P.GetNumberOfLevels < 2 ^ 8) :
    (Graph.build P num_nodes edges sorted).node_to_edge_offset.length - 1 = (maxBorderNode P edges + 1) * P.GetNumberOfLevels := by
  rw [bytes_eq order levels]
  simp [offsetBytes_length]

theorem beginBorderEdges_within (order : Ordered P sorted) (levels : P.GetNumberOfLevels < 2 ^ 8)
    (index : v * P.GetNumberOfLevels % 2 ^ 32 = v * P.GetNumberOfLevels) (inside : v < num_nodes) (within : v ≤ maxBorderNode P edges) :
    (Graph.build P num_nodes edges sorted).BeginBorderEdges l v =
      ((Graph.build P num_nodes edges sorted).node_to_edge_offset[(v * P.GetNumberOfLevels + l) % 2 ^ 32]?).map
        (sorted.countP (early v) + ·) := by
  have positive : 0 < P.GetNumberOfLevels := P.highest_lt (x := v) (y := v) |>.trans_le' (Nat.zero_le _)
  have less : v * P.GetNumberOfLevels < (maxBorderNode P edges + 1) * P.GetNumberOfLevels :=
    Nat.mul_lt_mul_of_pos_right (Nat.lt_succ_of_le within) positive
  simp only [Graph.BeginBorderEdges,numberOfLevels_eq order levels,bind_eq_bind,bind_some,index,bytes_length order levels]
  rw [if_neg (by lia),begins_at order inside]
  cases (Graph.build P num_nodes edges sorted).node_to_edge_offset[(v * P.GetNumberOfLevels + l) % 2 ^ 32]? with
  | none => rfl
  | some offset => rfl

theorem beginBorderEdges_beyond (perm : sorted.Perm edges) (order : Ordered P sorted) (levels : P.GetNumberOfLevels < 2 ^ 8)
    (index : v * P.GetNumberOfLevels % 2 ^ 32 = v * P.GetNumberOfLevels) (inside : v < num_nodes) (beyond : maxBorderNode P edges < v) :
    (Graph.build P num_nodes edges sorted).BeginBorderEdges l v = some (sorted.countP (early v) + sorted.countP (lower P v l)) := by
  simp only [Graph.BeginBorderEdges,numberOfLevels_eq order levels,bind_eq_bind,bind_some,index,bytes_length order levels]
  rw [if_pos (Nat.mul_le_mul_right _ beyond)]
  by_cases ground : l = 0
  · have none : sorted.countP (lower P v 0) = 0 := by simp [lower]
    subst ground
    rw [if_pos (beq_self_eq_true _),begins_at order inside,none,Nat.add_zero]
  · have all : sorted.countP (lower P v l) = sorted.countP fun edge => edge.source == v := by
      refine countP_congr fun edge member => ?_
      simp only [lower,Bool.and_eq_true,beq_iff_eq,decide_eq_true_eq,and_iff_left_iff_imp]
      intro source
      by_contra above
      have border := le_maxBorderNode (perm.mem_iff.mp member) (show 0 < borderLevel P edge by lia)
      lia
    rw [if_neg (by simpa using ground),ends_at order inside,all]

private theorem beginBorderEdges_eq (perm : sorted.Perm edges) (order : Ordered P sorted) (levels : P.GetNumberOfLevels < 2 ^ 8)
    (few : ∀ node, edges.countP (fun edge => edge.source == node) ≤ 255) (small : (num_nodes + 1) * P.GetNumberOfLevels < 2 ^ 32)
    (inside : v < num_nodes) (level : l < P.GetNumberOfLevels) :
    (Graph.build P num_nodes edges sorted).BeginBorderEdges l v = some (sorted.countP (early v) + sorted.countP (lower P v l)) := by
  -- the index and the byte of the level are below those of the node that would come after the last one
  have room : v * P.GetNumberOfLevels + l < 2 ^ 32 := by
    refine lt_of_lt_of_le ?_ small.le
    have : (v + 1) * P.GetNumberOfLevels ≤ (num_nodes + 1) * P.GetNumberOfLevels := Nat.mul_le_mul_right _ (by lia)
    rw [Nat.succ_mul] at this
    lia
  have index : v * P.GetNumberOfLevels % 2 ^ 32 = v * P.GetNumberOfLevels := Nat.mod_eq_of_lt (by lia)
  rcases Nat.lt_or_ge (maxBorderNode P edges) v with beyond | within
  · exact beginBorderEdges_beyond perm order levels index inside beyond
  · have byte : sorted.countP (lower P v l) < 2 ^ 8 := by
      have le := countP_lower_le (P := P) sorted v l
      rw [perm.countP_eq fun edge => edge.source == v] at le
      have := few v
      lia
    rw [beginBorderEdges_within order levels index inside within,Nat.mod_eq_of_lt room,byte_at order levels within level,EdgeOffset,
      Nat.mod_eq_of_lt byte]
    rfl

/-- An edge leaves the cell of its source on a level; on level 0 every edge does. -/
def leaves (P : MultiLevelPartition) (l : LevelID) (edge : EdgeBasedEdge) : Bool :=
  l == 0 || P.GetCell l edge.source != P.GetCell l edge.target

private theorem lower_eq (level : l < P.GetNumberOfLevels) (edge : EdgeBasedEdge) :
    lower P v l edge = (edge.source == v && !leaves P l edge) := by
  unfold lower leaves borderLevel
  cases l with
  | zero => simp
  | succ l =>
    have cell := P.highest_lt_iff (x := edge.source) (y := edge.target) (Nat.succ_pos l) level
    rw [Bool.eq_iff_iff]
    simp [cell]

private theorem internal_slice (order : Ordered P sorted) (v : NodeID) (l : LevelID) :
    (sorted.drop (sorted.countP (early v))).take (sorted.countP (lower P v l)) = sorted.filter (lower P v l) := by
  have exclusive : ∀ edge, (lower P v l edge && !early v edge) = lower P v l edge := by
    intro edge
    rw [Bool.eq_iff_iff]
    simp only [lower,early,Bool.and_eq_true,beq_iff_eq,decide_eq_true_eq,Bool.not_eq_true',decide_eq_false_iff_not]
    lia
  have falling : Falling (lower P v l) (sorted.filter fun edge => !early v edge) := by
    refine falling_filter order fun a b here before there => ?_
    simp only [early,lower,Bool.not_eq_true',Bool.and_eq_true,decide_eq_false_iff_not,decide_eq_true_eq,beq_iff_eq] at here there ⊢
    lia
  have cut := take_countP falling
  rw [countP_filter,List.filter_filter] at cut
  simp only [exclusive] at cut
  rw [drop_countP (falling_early order v)]
  exact cut

private theorem countP_passed (sorted : List EdgeBasedEdge) (v : NodeID) (l : LevelID) :
    sorted.countP (fun edge => early v edge || lower P v l edge) = sorted.countP (early v) + sorted.countP (lower P v l) := by
  refine countP_or sorted (fun edge => by simp) fun edge => ?_
  simp only [early,lower,Bool.and_eq_true,beq_iff_eq,decide_eq_true_eq]
  lia

private theorem falling_passed (order : Ordered P sorted) (v : NodeID) (l : LevelID) :
    Falling (fun edge => early v edge || lower P v l edge) sorted := by
  refine falling_of order fun a b before there => ?_
  simp only [early,lower,Bool.or_eq_true,Bool.and_eq_true,decide_eq_true_eq,beq_iff_eq] at there ⊢
  lia

private theorem border_slice (order : Ordered P sorted) (v : NodeID) (l : LevelID) :
    (sorted.drop (sorted.countP (early v) + sorted.countP (lower P v l))).take
        ((sorted.countP fun edge => edge.source == v) - sorted.countP (lower P v l)) =
      sorted.filter fun edge => edge.source == v && !lower P v l edge := by
  have falling : Falling (fun edge : EdgeBasedEdge => edge.source == v)
      (sorted.filter fun edge => !(early v edge || lower P v l edge)) := by
    refine falling_filter order fun a b here before there => ?_
    simp only [early,lower,Bool.not_eq_true',Bool.or_eq_false_iff,Bool.and_eq_false_iff,decide_eq_false_iff_not,beq_iff_eq,
      beq_eq_false_iff_ne] at here there ⊢
    lia
  have rest : ∀ edge : EdgeBasedEdge, (edge.source == v && !(early v edge || lower P v l edge)) =
      (edge.source == v && !lower P v l edge) := by
    intro edge
    rw [Bool.eq_iff_iff]
    simp only [early,Bool.and_eq_true,Bool.not_eq_true',Bool.or_eq_false_iff,decide_eq_false_iff_not,beq_iff_eq]
    lia
  have total : sorted.countP (fun edge => edge.source == v) =
      sorted.countP (lower P v l) + sorted.countP fun edge => edge.source == v && !lower P v l edge := by
    refine countP_or sorted (fun edge => ?_) fun edge => ?_
    · simp only [lower,Bool.and_eq_true,Bool.not_eq_true',Bool.and_eq_false_iff,decide_eq_true_eq,decide_eq_false_iff_not,
        beq_iff_eq,beq_eq_false_iff_ne]
      lia
    · simp only [Bool.and_eq_true,Bool.not_eq_true']
      intro one two
      simp [one] at two
  have cut := take_countP falling
  rw [countP_filter,List.filter_filter] at cut
  simp only [rest] at cut
  rw [total,Nat.add_sub_cancel_left,← countP_passed,drop_countP (falling_passed order v l)]
  exact cut

/-- On every level the two ranges of a node are its edges in order: those that stay in its cell and those that leave it. -/
theorem edge_ranges_by_level (sort : Sorted P edges sorted) (levels : P.GetNumberOfLevels < 2 ^ 8)
    (few : ∀ node, edges.countP (fun edge => edge.source == node) ≤ 255) (small : (num_nodes + 1) * P.GetNumberOfLevels < 2 ^ 32)
    (inside : v < num_nodes) (level : l < P.GetNumberOfLevels) :
    ∃ internal border,
      (Graph.build P num_nodes edges sorted).GetInternalEdgeRange l v = some internal ∧
      (Graph.build P num_nodes edges sorted).GetBorderEdgeRange l v = some border ∧
      (Graph.build P num_nodes edges sorted).GetAdjacentEdgeRange v = some (internal ++ border) ∧
      (internal.map ((Graph.build P num_nodes edges sorted).edge_array[·]?)).Perm
        ((edges.filter fun edge => edge.source == v && !leaves P l edge).map (some ∘ edgeToEntry)) ∧
      (border.map ((Graph.build P num_nodes edges sorted).edge_array[·]?)).Perm
        ((edges.filter fun edge => edge.source == v && leaves P l edge).map (some ∘ edgeToEntry)) := by
  have order := sort.order
  have begins : (Graph.build P num_nodes edges sorted).BeginEdges v = some (sorted.countP (early v)) := begins_at order inside
  have ends : (Graph.build P num_nodes edges sorted).EndEdges v =
      some (sorted.countP (early v) + sorted.countP fun edge => edge.source == v) := ends_at order inside
  have cut := beginBorderEdges_eq sort.perm order levels few small inside level
  have le := countP_lower_le (P := P) sorted v l
  have length : sorted.countP (early v) + (sorted.countP fun edge => edge.source == v) ≤ sorted.length := by
    rw [← countP_early_succ]
    exact countP_le_length
  have array : (Graph.build P num_nodes edges sorted).edge_array = sorted.map edgeToEntry := rfl
  refine ⟨_,_,by rw [Graph.GetInternalEdgeRange,begins,cut]; rfl,by rw [Graph.GetBorderEdgeRange,cut,ends]; rfl,?_,?_,?_⟩
  · rw [Graph.GetAdjacentEdgeRange,begins,ends]
    simp only [Graph.irange,bind_eq_bind,bind_some,Option.pure_def,Nat.add_sub_cancel_left,Nat.add_sub_add_left,
      range'_append_1,Nat.add_sub_cancel' le]
  · rw [array,Graph.irange,Nat.add_sub_cancel_left,map_getElem?_range' _ _ _ (by rw [length_map]; lia),← map_drop,
      ← map_take,internal_slice order,List.map_map]
    refine Perm.map _ ?_
    rw [funext (lower_eq level)]
    exact sort.perm.filter _
  · rw [array,Graph.irange,Nat.add_sub_add_left,map_getElem?_range' _ _ _ (by rw [length_map]; lia),← map_drop,
      ← map_take,border_slice order,List.map_map]
    refine Perm.map _ ?_
    have same : (fun edge : EdgeBasedEdge => edge.source == v && !lower P v l edge) = fun edge => edge.source == v && leaves P l edge := by
      funext edge
      rw [lower_eq level]
      cases edge.source == v <;> cases leaves P l edge <;> rfl
    rw [same]
    exact sort.perm.filter _

theorem mem_border_interval (order : Ordered P sorted) (v : NodeID) (l : LevelID) {id : EdgeID} {edge : EdgeBasedEdge}
    (found : sorted[id]? = some edge) :
    (sorted.countP (early v) + sorted.countP (lower P v l) ≤ id ∧
      id < sorted.countP (early v) + sorted.countP fun edge => edge.source == v) ↔
    edge.source = v ∧ l ≤ borderLevel P edge := by
  have passed := lt_countP_iff (falling_passed order v l) found
  have ended := lt_countP_iff (falling_early order (v + 1)) found
  rw [countP_passed] at passed
  rw [countP_early_succ] at ended
  rw [← not_lt,passed,ended]
  simp only [early,lower,Bool.or_eq_true,Bool.and_eq_true,decide_eq_true_eq,beq_iff_eq]
  lia

/-- A node's border edges by the stored offsets are those by the levels. -/
theorem border_refines (graph : MultiLevelGraph P) (perm : graph.edges.Perm edges) (levels : P.GetNumberOfLevels < 2 ^ 8)
    (few : ∀ node, edges.countP (fun edge => edge.source == node) ≤ 255)
    (small : (graph.number_of_nodes + 1) * P.GetNumberOfLevels < 2 ^ 32) (inside : v < graph.number_of_nodes)
    (level : l < P.GetNumberOfLevels) :
    (Graph.build P graph.number_of_nodes edges graph.edges).GetBorderEdgeRange l v =
      some ((graph.GetBorderEdgeRange l v).map (·.2)) := by
  have order : Ordered P graph.edges := graph.sorted
  have ends : (Graph.build P graph.number_of_nodes edges graph.edges).EndEdges v =
      some (graph.edges.countP (early v) + graph.edges.countP fun edge => edge.source == v) := ends_at order inside
  have cut := beginBorderEdges_eq perm order levels few small inside level
  have length : graph.edges.countP (early v) + (graph.edges.countP fun edge => edge.source == v) ≤ graph.edges.length := by
    rw [← countP_early_succ]
    exact countP_le_length
  rw [Graph.GetBorderEdgeRange,cut,ends]
  simp only [bind_eq_bind,bind_some,Option.pure_def,some.injEq,Graph.irange]
  have increasing : ((graph.GetBorderEdgeRange l v).map (·.2)).Pairwise (· < ·) := by
    have all : (graph.edges.zipIdx.map (·.2)).Pairwise (· < ·) := by
      rw [zipIdx_map_snd]
      exact pairwise_lt_range'
    refine all.sublist (Sublist.map _ ?_)
    exact (drop_sublist _ _).trans filter_sublist
  have interval : (List.range' (graph.edges.countP (early v) + graph.edges.countP (lower P v l))
      (graph.edges.countP (early v) + (graph.edges.countP fun edge => edge.source == v) -
        (graph.edges.countP (early v) + graph.edges.countP (lower P v l)))).Pairwise (· < ·) := pairwise_lt_range'
  refine Perm.eq_of_pairwise (fun a b _ _ one two => absurd two one.not_gt) interval increasing ?_
  refine (perm_ext_iff_of_nodup nodup_range' (increasing.imp fun less => less.ne)).mpr fun id => ?_
  simp only [mem_range'_1,List.mem_map]
  constructor
  · rintro ⟨low,high⟩
    have inRange : id < graph.edges.length := by lia
    obtain ⟨edge,there⟩ : ∃ edge, graph.edges[id]? = some edge := ⟨_,getElem?_eq_getElem inRange⟩
    obtain ⟨source,above⟩ := (mem_border_interval order v l there).mp ⟨low,by lia⟩
    refine ⟨(edge,id),graph.mem_border.mpr ⟨graph.mem_adjacent.mpr ⟨there,source⟩,?_⟩,rfl⟩
    rw [← source]
    exact above
  · rintro ⟨edge,member,rfl⟩
    obtain ⟨adjacent,above⟩ := graph.mem_border.mp member
    obtain ⟨there,source⟩ := graph.mem_adjacent.mp adjacent
    rw [← source] at above
    have := (mem_border_interval order v l there).mpr ⟨source,above⟩
    lia

theorem border_refines_row : (Graph.build rowPartition 4 rowGraph.edges rowGraph.edges).GetBorderEdgeRange 1 2 =
    some ((rowGraph.GetBorderEdgeRange 1 2).map (·.2)) := by
  refine border_refines rowGraph (.refl _) (by decide) ?_ (by decide) (by decide) (by decide)
  intro node
  exact countP_le_length.trans (by decide)

def rowEdges : List EdgeBasedEdge := [road 0 1,road 1 2,road 1 0,road 2 1,road 2 3,road 3 2]

theorem edge_ranges_by_level_row : ∃ internal border,
    (Graph.build rowPartition 4 rowEdges rowEdges).GetInternalEdgeRange 1 2 = some internal ∧
    (Graph.build rowPartition 4 rowEdges rowEdges).GetBorderEdgeRange 1 2 = some border ∧
    (Graph.build rowPartition 4 rowEdges rowEdges).GetAdjacentEdgeRange 2 = some (internal ++ border) ∧
    (internal.map ((Graph.build rowPartition 4 rowEdges rowEdges).edge_array[·]?)).Perm
      ((rowEdges.filter fun edge => edge.source == 2 && !leaves rowPartition 1 edge).map (some ∘ edgeToEntry)) ∧
    (border.map ((Graph.build rowPartition 4 rowEdges rowEdges).edge_array[·]?)).Perm
      ((rowEdges.filter fun edge => edge.source == 2 && leaves rowPartition 1 edge).map (some ∘ edgeToEntry)) := by
  refine edge_ranges_by_level ⟨.refl _,by decide +kernel⟩ (by decide) ?_ (by decide) (by decide) (by decide)
  intro node
  exact countP_le_length.trans (by decide)

end Osrm.LevelOffsets
