import Mathlib.Data.Nat.Find
import Osrm.PartitionBuild

/-!
The levels of a query on the multi-level Dijkstra graph. What the constructor of `MultiLevelPartition` builds has words that fit
the bits of the levels, and its cells are nested and counted, so the levels found from the bits are those of the cells.
-/
namespace Osrm.QueryLevels
open List Option
open Typedefs Changes Osrm.Partition PartitionBuild

variable {nums : List ℕ} {level_data : LevelData} {l : LevelID} {word : PartitionID} {cell : CellID}

private theorem setCell_lt (made : MakeLevelData nums = some level_data) (low : 1 ≤ l) (high : l ≤ nums.length)
    (fits : cell ≤ nums.getD (l - 1) 0) (small : word < 2 ^ level_data.lidx_to_offset.getD nums.length 0) :
    setCell level_data l word cell < 2 ^ level_data.lidx_to_offset.getD nums.length 0 := by
  obtain ⟨width,_,_⟩ := level_bits made low high
  have bits : cell < 2 ^ Nat.clog 2 (nums.getD (l - 1) 0 + 1) :=
    (Nat.lt_succ_of_le fits).trans_le (Nat.le_pow_clog Nat.one_lt_two _)
  refine Nat.or_lt_two_pow (Nat.and_le_left.trans_lt small) ((Nat.mod_le _ _).trans_lt ?_)
  rw [Nat.shiftLeft_eq]
  calc cell * 2 ^ level_data.lidx_to_offset.getD (l - 1) 0
      < 2 ^ Nat.clog 2 (nums.getD (l - 1) 0 + 1) * 2 ^ level_data.lidx_to_offset.getD (l - 1) 0 :=
        Nat.mul_lt_mul_of_pos_right bits (Nat.two_pow_pos _)
    _ = 2 ^ level_data.lidx_to_offset.getD l 0 := by rw [← Nat.pow_add,Nat.add_comm,← width]
    _ ≤ 2 ^ level_data.lidx_to_offset.getD nums.length 0 :=
        Nat.pow_le_pow_right (by decide) (offsets_le made high le_rfl)

section Words
variable {permutation : List NodeID} {sentinel node : NodeID} {partition : NodeID → CellID} {words : NodeID → PartitionID}

private theorem numberLevel_of_notMem (distinct : (permutation ++ [sentinel]).Nodup) (missing : node ∉ permutation ++ [sentinel]) :
    numberLevel level_data permutation sentinel l partition words node = words node := by
  simp only [mem_append,mem_singleton,not_or] at missing
  obtain ⟨_,_,_,others⟩ := foldl_numberNode permutation partition level_data l words (nodup_append.mp distinct).1 le_rfl
  rw [take_length] at others
  rw [numberLevel,SetCellID,Function.update_of_ne missing.2,others node missing.1]

private theorem numberLevels_of_notMem (distinct : (permutation ++ [sentinel]).Nodup) (missing : node ∉ permutation ++ [sentinel])
    (partitions : List (NodeID → CellID)) :
    numberLevels level_data permutation sentinel partitions l words node = words node := by
  induction partitions generalizing l words with
  | nil => rfl
  | cons partition rest ih => rw [numberLevels,ih,numberLevel_of_notMem distinct missing]

private theorem numberLevel_lt (made : MakeLevelData nums = some level_data) (distinct : (permutation ++ [sentinel]).Nodup) (low : 1 ≤ l)
    (high : l ≤ nums.length) (fits : ∀ i ≤ permutation.length, numberAt permutation partition i ≤ nums.getD (l - 1) 0)
    (small : ∀ node, words node < 2 ^ level_data.lidx_to_offset.getD nums.length 0) (node : NodeID) :
    numberLevel level_data permutation sentinel l partition words node < 2 ^ level_data.lidx_to_offset.getD nums.length 0 := by
  by_cases member : node ∈ permutation ++ [sentinel]
  · obtain ⟨i,inside,same⟩ := mem_iff_getElem.mp member
    have place : (permutation ++ [sentinel]).getD i 0 = node := by
      rw [getD_eq_getElem?_getD,getElem?_eq_getElem inside,getD_some,same]
    rw [length_append,length_singleton] at inside
    rw [← place,numberLevel_at permutation sentinel partition words distinct (by omega)]
    exact setCell_lt made low high (fits i (by omega)) (small _)
  · rw [numberLevel_of_notMem distinct member]
    exact small node

private theorem numberLevels_lt (made : MakeLevelData nums = some level_data) (distinct : (permutation ++ [sentinel]).Nodup)
    (partitions : List (NodeID → CellID)) (size : partitions.length ≤ nums.length)
    (fits : ∀ l, 1 ≤ l → l ≤ partitions.length → ∀ i ≤ permutation.length,
      numberAt permutation (partitions.getD (partitions.length - l) fun _ => 0) i ≤ nums.getD (l - 1) 0)
    (small : ∀ node, words node < 2 ^ level_data.lidx_to_offset.getD nums.length 0) (node : NodeID) :
    numberLevels level_data permutation sentinel partitions partitions.length words node <
      2 ^ level_data.lidx_to_offset.getD nums.length 0 := by
  induction partitions generalizing words with
  | nil => exact small node
  | cons partition rest ih =>
    have mine := fits (rest.length + 1) (by lia) (by simp)
    simp only [length_cons,Nat.sub_self,getD_cons_zero] at size fits mine ⊢
    rw [numberLevels,Nat.add_sub_cancel]
    apply ih (by lia)
    · intro l low below i inside
      have here := fits l low (by lia) i inside
      rwa [show rest.length + 1 - l = rest.length - l + 1 by lia,getD_cons_succ] at here
    · exact numberLevel_lt made distinct (by lia) size mine small

end Words

section Built
variable {partitions : List (NodeID → CellID)} {num_nodes : ℕ} {u v x y : NodeID}

private theorem words_lt (packable : Packable partitions num_nodes nums) (made : MakeLevelData nums = some level_data) (some_node : 0 < num_nodes)
    (node : NodeID) : words level_data partitions num_nodes node < 2 ^ level_data.lidx_to_offset.getD nums.length 0 := by
  have levels : nums.length = partitions.length := by rw [packable.counted,length_map]
  have reversed : partitions.reverse.length = partitions.length := length_reverse
  rw [words,← reversed]
  apply numberLevels_lt made sortedNodes_nodup partitions.reverse (by rw [reversed,levels])
  · intro l low high i inside
    have bound := numberAt_le (i := i) (sortedNodes partitions num_nodes) (partitions.getD (l - 1) fun _ => 0)
    rw [reversed] at high ⊢
    rw [sortedNodes_length] at bound
    rw [getD_reverse low high,count_at packable some_node low high]
    exact bound
  · exact fun _ => Nat.two_pow_pos _

private theorem cells_outside (packable : Packable partitions num_nodes nums) (made : MakeLevelData nums = some level_data)
    (some_node : 0 < num_nodes) (outside : num_nodes < x) : ∃ u < num_nodes, ∀ l, 1 ≤ l → l ≤ partitions.length →
      cellOf level_data l (words level_data partitions num_nodes x) = cellOf level_data l (words level_data partitions num_nodes u) := by
  have missing : x ∉ sortedNodes partitions num_nodes ++ [num_nodes] := by
    simp only [mem_append,mem_singleton,not_or]
    exact ⟨fun member => absurd (mem_range.mp (sortedNodes_perm.mem_iff.mp member)) (by lia),by lia⟩
  refine ⟨(sortedNodes partitions num_nodes).getD 0 0,place_lt some_node,fun l low high => ?_⟩
  have first := (numbered_words packable made some_node).at_place l low high 0 some_node
  rw [words,numberLevels_of_notMem sortedNodes_nodup missing]
  exact (by simp [cellOf] : cellOf level_data l 0 = 0).trans first.symm

variable (packable : Packable partitions num_nodes nums) (made : MakeLevelData nums = some level_data) (some_node : 0 < num_nodes)
include packable made some_node

private theorem words_nested (low : 1 ≤ l) (high : l + 1 ≤ partitions.length)
    (same : cellOf level_data l (words level_data partitions num_nodes x) = cellOf level_data l (words level_data partitions num_nodes y)) :
    cellOf level_data (l + 1) (words level_data partitions num_nodes x) =
      cellOf level_data (l + 1) (words level_data partitions num_nodes y) := by
  have numbered := numbered_words packable made some_node
  have stand_in : ∀ x, x ≠ num_nodes → ∃ u < num_nodes, ∀ l, 1 ≤ l → l ≤ partitions.length →
      cellOf level_data l (words level_data partitions num_nodes x) = cellOf level_data l (words level_data partitions num_nodes u) := by
    intro x other
    rcases Nat.lt_or_gt_of_ne other with inside | outside
    · exact ⟨x,inside,fun _ _ _ => rfl⟩
    · exact cells_outside packable made some_node outside
  have sentinel : ∀ u < num_nodes, cellOf level_data l (words level_data partitions num_nodes u) ≠
      cellOf level_data l (words level_data partitions num_nodes num_nodes) := fun u inside same =>
    absurd ((ids_of_numbered numbered some_node low (by lia) _).mp ⟨u,inside,same⟩) (lt_irrefl _)
  by_cases last : x = num_nodes
  · by_cases last' : y = num_nodes
    · rw [last,last']
    · obtain ⟨v,insideV,atV⟩ := stand_in y last'
      rw [last,atV l low (by lia)] at same
      exact absurd same.symm (sentinel v insideV)
  · obtain ⟨u,insideU,atU⟩ := stand_in x last
    by_cases last' : y = num_nodes
    · rw [last',atU l low (by lia)] at same
      exact absurd same (sentinel u insideU)
    · obtain ⟨v,insideV,atV⟩ := stand_in y last'
      rw [atU l low (by lia),atV l low (by lia)] at same
      rw [atU (l + 1) (by lia) high,atV (l + 1) (by lia) high]
      have below := (cells_of_numbered numbered packable.nested low (by lia) insideU insideV).mp same
      exact (cells_of_numbered numbered packable.nested (by lia) high insideU insideV).mpr
        (packable.nested.lift low (Nat.le_succ l) high insideU insideV below)

end Built

private theorem exists_partition {partitions : List (NodeID → CellID)} {num_nodes : ℕ} {packed : PackedPartition}
    (packable : Packable partitions num_nodes nums) (built : MultiLevelPartitionImpl partitions num_nodes nums = some packed) :
    ∃ P : MultiLevelPartition, P.toPartitionData = packed.toPartitionData := by
  unfold MultiLevelPartitionImpl at built
  split_ifs at built with accepted
  obtain ⟨_,_,_,some_node⟩ := accepted
  obtain ⟨level_data,made,rfl⟩ := map_eq_some_iff.mp built
  obtain ⟨same,_⟩ := addChildren_spec (sortedNodes partitions num_nodes) ⟨level_data,num_nodes,words level_data partitions num_nodes⟩
    (by rwa [sortedNodes_length]) partitions.tail 1 [0] []
  have number_of_levels : level_data.num_level = partitions.length + 1 := by
    obtain ⟨offsets,_,rfl⟩ := map_eq_some_iff.mp made
    simp [packable.counted]
  refine ⟨⟨⟨level_data,num_nodes,words level_data partitions num_nodes⟩,nums,made,words_lt packable made some_node,?_,?_⟩,same.symm⟩
  · intro l low high x y
    exact words_nested packable made some_node low (by simp only [number_of_levels] at high; lia)
  · intro l low high node inside
    exact (ids_of_numbered (numbered_words packable made some_node) some_node low (by simp only [number_of_levels] at high; lia) _).mp
      ⟨node,inside,rfl⟩

/-- The highest level on which two nodes are in different cells, and 0 where there is none. -/
def highestDifferentLevel (data : PartitionData) (u v : NodeID) : LevelID :=
  Nat.findGreatest (fun l => data.GetCell l u ≠ data.GetCell l v) (data.GetNumberOfLevels - 1)

private theorem highest_eq_cells (P : MultiLevelPartition) (u v : NodeID) :
    P.GetHighestDifferentLevel u v = highestDifferentLevel P.toPartitionData u v := by
  have bounded := P.highest_lt (x := u) (y := v)
  refine (Nat.findGreatest_eq_iff.mpr ⟨by lia,fun some_level same => ?_,fun l above below => ?_⟩).symm
  · exact absurd ((P.highest_lt_iff (Nat.pos_of_ne_zero some_level) bounded).mpr same) (lt_irrefl _)
  · exact not_not.mpr ((P.highest_lt_iff (by lia) (by lia)).mp above)

/-- On the query level the cell of a node holds neither the start nor the target, and one level above it holds one of them;
    highest different levels are those of the cells. -/
structure LevelsOfCells (data : PartitionData) : Prop where
  highest : ∀ u v, data.GetHighestDifferentLevel u v = highestDifferentLevel data u v
  query : ∀ s t v, data.GetQueryLevel s t v = min (highestDifferentLevel data s v) (highestDifferentLevel data t v)
  apart : ∀ s t v, 0 < data.GetQueryLevel s t v →
    data.GetCell (data.GetQueryLevel s t v) s ≠ data.GetCell (data.GetQueryLevel s t v) v ∧
      data.GetCell (data.GetQueryLevel s t v) t ≠ data.GetCell (data.GetQueryLevel s t v) v
  joined : ∀ s t v, data.GetQueryLevel s t v + 1 < data.GetNumberOfLevels →
    data.GetCell (data.GetQueryLevel s t v + 1) s = data.GetCell (data.GetQueryLevel s t v + 1) v ∨
      data.GetCell (data.GetQueryLevel s t v + 1) t = data.GetCell (data.GetQueryLevel s t v + 1) v

/-- The levels of the built partition are those of its cells. -/
theorem levels_of_cells {partitions : List (NodeID → CellID)} {num_nodes : ℕ} {packed : PackedPartition}
    (packable : Packable partitions num_nodes nums) (built : MultiLevelPartitionImpl partitions num_nodes nums = some packed) :
    LevelsOfCells packed.toPartitionData := by
  obtain ⟨P,same⟩ := exists_partition packable built
  rw [← same]
  refine ⟨highest_eq_cells P,fun s t v => ?_,fun s t v positive => ?_,fun s t v inside => ?_⟩
  · rw [← highest_eq_cells,← highest_eq_cells,PartitionData.GetQueryLevel]
  · have levels := P.highest_lt (x := s) (y := v)
    have start : P.GetQueryLevel s t v ≤ P.GetHighestDifferentLevel s v := min_le_left _ _
    have target : P.GetQueryLevel s t v ≤ P.GetHighestDifferentLevel t v := min_le_right _ _
    exact ⟨fun together => absurd ((P.highest_lt_iff positive (by lia)).mpr together) (by lia),
      fun together => absurd ((P.highest_lt_iff positive (by lia)).mpr together) (by lia)⟩
  · rw [← P.highest_lt_iff (by lia) inside,← P.highest_lt_iff (by lia) inside]
    exact min_lt_iff.mp (Nat.lt_succ_self (P.GetQueryLevel s t v))

/-- Four nodes, two cells on the lower level and one on the higher one. -/
theorem levels_of_two_cells : ∃ packed,
    MultiLevelPartitionImpl [fun node => [0,0,1,1].getD node 0,fun _ => 0] 4 [2,1] = some packed ∧
      LevelsOfCells packed.toPartitionData := by
  have packable : Packable [fun node => [0,0,1,1].getD node 0,fun _ => 0] 4 [2,1] := ⟨by unfold Nested; decide,by decide,by decide⟩
  obtain ⟨packed,built⟩ : ∃ packed, MultiLevelPartitionImpl [fun node => [0,0,1,1].getD node 0,fun _ => 0] 4 [2,1] = some packed :=
    isSome_iff_exists.mp rfl
  exact ⟨packed,built,levels_of_cells packable built⟩

end Osrm.QueryLevels
