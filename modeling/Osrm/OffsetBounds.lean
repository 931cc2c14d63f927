import Osrm.LevelOffsets
import Osrm.PartitionBuild

/-!
The bounds of the numbers in `partitioner::MultiLevelGraph`: 255 edges in the bytes of a node, and 32 bits for the
index of the bytes. Neither is checked; below them the border edges of every level begin where they should.
-/
namespace Osrm.OffsetBounds
open List Option
open Typedefs Osrm.Partition EdgeBasedGraph LevelGraph PartitionBuild LevelOffsets
open CellStorage (rowPartition road)

variable {P : MultiLevelPartition} {edges sorted : List EdgeBasedEdge} {num_nodes : ℕ} {v : NodeID} {l : LevelID} {cut : EdgeID}

/-- A place among the edges of a node that has the edges below the level before it and the others after it. -/
structure Separates (P : MultiLevelPartition) (sorted : List EdgeBasedEdge) (l : LevelID) (first cut last : EdgeID) : Prop where
  above : first ≤ cut
  below : cut ≤ last
  internal : ∀ id edge, sorted[id]? = some edge → first ≤ id → id < cut → borderLevel P edge < l
  border : ∀ id edge, sorted[id]? = some edge → cut ≤ id → id < last → l ≤ borderLevel P edge

/-- Nothing wraps: bytes are the counts below the levels, the index is the product, and the border edges begin in between
    where the level is reached. -/
structure Unwrapped (P : MultiLevelPartition) (num_nodes : ℕ) (edges sorted : List EdgeBasedEdge) : Prop where
  bytes : ∀ v ≤ maxBorderNode P edges, ∀ l < P.GetNumberOfLevels,
    (Graph.build P num_nodes edges sorted).node_to_edge_offset[v * P.GetNumberOfLevels + l]? = some (sorted.countP (lower P v l))
  index : ∀ v < num_nodes, v * P.GetNumberOfLevels % 2 ^ 32 = v * P.GetNumberOfLevels
  cuts : ∀ v < num_nodes, ∀ l < P.GetNumberOfLevels, ∃ first cut last,
    (Graph.build P num_nodes edges sorted).BeginEdges v = some first ∧
      (Graph.build P num_nodes edges sorted).BeginBorderEdges l v = some cut ∧
      (Graph.build P num_nodes edges sorted).EndEdges v = some last ∧ Separates P sorted l first cut last

/-- What the constructor does not check: the nodes up to the last one at a border have at most 255 edges inside a cell of the
    highest level, and the bytes of all nodes have indices of 32 bits, but for the last node where the bytes of the first
    one, which are read then, say the same. -/
structure Fits (P : MultiLevelPartition) (num_nodes : ℕ) (edges : List EdgeBasedEdge) : Prop where
  few : ∀ v ≤ maxBorderNode P edges, edges.countP (lower P v (P.GetNumberOfLevels - 1)) ≤ 255
  small : (num_nodes - 1) * P.GetNumberOfLevels < 2 ^ 32
  corner : ∀ v < num_nodes, v ≤ maxBorderNode P edges → ∀ l < P.GetNumberOfLevels, 2 ^ 32 ≤ v * P.GetNumberOfLevels + l →
    edges.countP (lower P 0 (v * P.GetNumberOfLevels + l - 2 ^ 32)) = edges.countP (lower P v l)

private theorem separates_lower (order : Ordered P sorted) (v : NodeID) (l : LevelID) :
    Separates P sorted l (sorted.countP (early v)) (sorted.countP (early v) + sorted.countP (lower P v l))
      (sorted.countP (early v) + sorted.countP fun edge => edge.source == v) := by
  have le := countP_lower_le (P := P) sorted v l
  refine ⟨Nat.le_add_right _ _,Nat.add_le_add_left le _,fun id edge found first before => ?_,fun id edge found after last => ?_⟩
  · have ground := (mem_border_interval order v 0 found).mp
    have here := (mem_border_interval order v l found).mpr
    have none : sorted.countP (lower P v 0) = 0 := by simp [lower]
    by_contra reached
    have := here ⟨(ground ⟨by lia,by lia⟩).1,by lia⟩
    lia
  · exact ((mem_border_interval order v l found).mp ⟨after,last⟩).2

private theorem separates_unique (order : Ordered P sorted) (separates : Separates P sorted l (sorted.countP (early v)) cut
    (sorted.countP (early v) + sorted.countP fun edge => edge.source == v)) :
    cut = sorted.countP (early v) + sorted.countP (lower P v l) := by
  have exact_cut := separates_lower order v l
  have length : sorted.countP (early v) + (sorted.countP fun edge => edge.source == v) ≤ sorted.length := by
    rw [← countP_early_succ]
    exact countP_le_length
  have bounds := separates.below
  have bounds' := exact_cut.below
  rcases lt_trichotomy cut (sorted.countP (early v) + sorted.countP (lower P v l)) with less | same | more
  · have found := getElem?_eq_getElem (show cut < sorted.length by lia)
    have := exact_cut.internal cut _ found separates.above less
    have := separates.border cut _ found le_rfl (by lia)
    lia
  · exact same
  · have found := getElem?_eq_getElem (show sorted.countP (early v) + sorted.countP (lower P v l) < sorted.length by lia)
    have := separates.internal _ _ found exact_cut.above more
    have := exact_cut.border _ _ found le_rfl (by lia)
    lia

private theorem countP_lower_mono {l' : LevelID} (le : l ≤ l') : sorted.countP (lower P v l) ≤ sorted.countP (lower P v l') := by
  refine countP_mono_left fun edge _ here => ?_
  simp only [lower,Bool.and_eq_true,decide_eq_true_eq] at here ⊢
  exact ⟨here.1,by lia⟩

private theorem levels_pos (P : MultiLevelPartition) : 0 < P.GetNumberOfLevels := (Nat.zero_le _).trans_lt (P.highest_lt (x := 0) (y := 0))

private theorem bytes_iff (sort : Sorted P edges sorted) (levels : P.GetNumberOfLevels < 2 ^ 8) (within : v ≤ maxBorderNode P edges) :
    (∀ l < P.GetNumberOfLevels, (Graph.build P num_nodes edges sorted).node_to_edge_offset[v * P.GetNumberOfLevels + l]? =
      some (sorted.countP (lower P v l))) ↔ edges.countP (lower P v (P.GetNumberOfLevels - 1)) ≤ 255 := by
  have positive := levels_pos P
  rw [← sort.perm.countP_eq]
  constructor
  · intro bytes
    have last := bytes (P.GetNumberOfLevels - 1) (by lia)
    rw [byte_at sort.order levels within (by lia),some.injEq,EdgeOffset] at last
    have := Nat.mod_lt (sorted.countP (lower P v (P.GetNumberOfLevels - 1))) (Nat.two_pow_pos 8)
    lia
  · intro few l level
    have le : sorted.countP (lower P v l) ≤ sorted.countP (lower P v (P.GetNumberOfLevels - 1)) := countP_lower_mono (by lia)
    rw [byte_at sort.order levels within level,EdgeOffset,Nat.mod_eq_of_lt (by lia)]

/-- Level offsets never wrap exactly where the edges and the nodes are few enough. -/
theorem offsets_never_wrap_iff (sort : Sorted P edges sorted) (levels : P.GetNumberOfLevels ≤ MAX_NUM_LEVEL) :
    Unwrapped P num_nodes edges sorted ↔ Fits P num_nodes edges := by
  have order := sort.order
  have positive := levels_pos P
  have byte_levels : P.GetNumberOfLevels < 2 ^ 8 := by
    unfold MAX_NUM_LEVEL at levels
    lia
  constructor
  · intro unwrapped
    refine ⟨fun v within => (bytes_iff sort byte_levels within).mp (unwrapped.bytes v within),?_,?_⟩
    · cases num_nodes with
      | zero => simp
      | succ n =>
        rw [Nat.add_sub_cancel,← unwrapped.index n (Nat.lt_succ_self n)]
        exact Nat.mod_lt _ (Nat.two_pow_pos 32)
    · intro v inside within l level far
      have index := unwrapped.index v inside
      have bound : v * P.GetNumberOfLevels < 2 ^ 32 := by
        rw [← index]
        exact Nat.mod_lt _ (Nat.two_pow_pos 32)
      obtain ⟨first,cut,last,begins,border,ends,separates⟩ := unwrapped.cuts v inside l level
      rw [begins_at order inside,some.injEq] at begins
      rw [ends_at order inside,some.injEq] at ends
      have wrapped : (v * P.GetNumberOfLevels + l) % 2 ^ 32 = 0 * P.GetNumberOfLevels + (v * P.GetNumberOfLevels + l - 2 ^ 32) := by
        lia
      rw [beginBorderEdges_within order byte_levels index inside within,wrapped,unwrapped.bytes 0 (Nat.zero_le _) _ (by lia),
        map_some,some.injEq] at border
      rw [← begins,← ends] at separates
      have unique := separates_unique order separates
      rw [← sort.perm.countP_eq,← sort.perm.countP_eq]
      lia
  · intro fits
    have index : ∀ v < num_nodes, v * P.GetNumberOfLevels < 2 ^ 32 := fun v inside =>
      (Nat.mul_le_mul_right _ (show v ≤ num_nodes - 1 by lia)).trans_lt fits.small
    refine ⟨fun v within => (bytes_iff sort byte_levels within).mpr (fits.few v within),fun v inside => Nat.mod_eq_of_lt (index v inside),?_⟩
    intro v inside l level
    refine ⟨_,sorted.countP (early v) + sorted.countP (lower P v l),_,begins_at order inside,?_,ends_at order inside,separates_lower order v l⟩
    have exact_index := Nat.mod_eq_of_lt (index v inside)
    rcases Nat.lt_or_ge (maxBorderNode P edges) v with beyond | within
    · exact beginBorderEdges_beyond sort.perm order byte_levels exact_index inside beyond
    · rw [beginBorderEdges_within order byte_levels exact_index inside within]
      rcases Nat.lt_or_ge (v * P.GetNumberOfLevels + l) (2 ^ 32) with near | far
      · rw [Nat.mod_eq_of_lt near,(bytes_iff sort byte_levels within).mpr (fits.few v within) l level]
        rfl
      · have bound := index v inside
        have wrapped : (v * P.GetNumberOfLevels + l) % 2 ^ 32 = 0 * P.GetNumberOfLevels + (v * P.GetNumberOfLevels + l - 2 ^ 32) := by
          lia
        have corner := fits.corner v inside within l level far
        rw [← sort.perm.countP_eq,← sort.perm.countP_eq] at corner
        rw [wrapped,(bytes_iff sort byte_levels (Nat.zero_le _)).mpr (fits.few 0 (Nat.zero_le _)) _ (by lia),corner]
        rfl

theorem offsets_of_row : Unwrapped rowPartition 4 rowEdges rowEdges ↔ Fits rowPartition 4 rowEdges :=
  offsets_never_wrap_iff ⟨.refl _,by decide +kernel⟩ (by decide)

def starData : PartitionData where
  level_data := ⟨2,[0,2],[3],MakeBitToLevel [0,2] 2⟩
  number_of_nodes := 258
  partition node := if node < 257 then 0 else if node = 257 then 1 else 2

private theorem starData_made : MakeLevelData [2] = some starData.level_data := rfl

private theorem starData_packed (node : NodeID) : starData.partition node < 2 ^ starData.level_data.lidx_to_offset.getD 1 0 := by
  simp only [starData]
  split_ifs <;> decide

private theorem starData_nested (l : LevelID) (low : 1 ≤ l) (high : l + 1 < starData.level_data.num_level) (x y : NodeID)
    (_ : starData.GetCell l x = starData.GetCell l y) : starData.GetCell (l + 1) x = starData.GetCell (l + 1) y := by
  simp only [starData] at high
  lia

private theorem starData_counted (l : LevelID) (low : 1 ≤ l) (high : l < starData.level_data.num_level) (node : NodeID)
    (below : node < starData.number_of_nodes) : starData.GetCell l node < starData.GetNumberOfCells l := by
  simp only [starData] at high below
  obtain rfl : l = 1 := by lia
  by_cases inside : node < 257
  · simp [starData,PartitionData.GetNumberOfCells,PartitionData.GetCell,inside]
  · simp [starData,PartitionData.GetNumberOfCells,PartitionData.GetCell,show node = 257 by lia]

def starPartition : MultiLevelPartition where
  toPartitionData := starData
  lidx_to_num_cells := [2]
  made := starData_made
  packed := starData_packed
  nested := starData_nested
  counted := starData_counted

def starEdges : List EdgeBasedEdge := (List.range' 1 257).map (road 0) ++ (List.range' 1 257).map fun node => road node 0

private theorem borderLevel_star {node : NodeID} (inside : node < 258) :
    borderLevel starPartition (road 0 node) = if node < 257 then 0 else 1 := by
  by_cases near : node < 257
  · simp [borderLevel,road,starPartition,starData,PartitionData.GetHighestDifferentLevel,near]
  · have last : node = 257 := by lia
    subst last
    decide

private theorem star_sorted : Sorted starPartition starEdges starEdges := by
  refine ⟨.refl _,pairwise_append.mpr ⟨?_,?_,?_⟩⟩
  · rw [pairwise_map]
    refine (pairwise_lt_range' (s := 1) (n := 257)).imp_of_mem fun {a b} memberA memberB less => ?_
    rw [mem_range'_1] at memberA memberB
    simp only [LevelOffsets.before,borderLevel_star (show a < 258 by lia),borderLevel_star (show b < 258 by lia),Bool.or_eq_false_iff,
      Bool.and_eq_false_iff,beq_eq_false_iff_ne]
    simp only [road]
    split_ifs <;> lia
  · rw [pairwise_map]
    refine (pairwise_lt_range' (s := 1) (n := 257)).imp fun {a b} less => ?_
    simp only [LevelOffsets.before,road,Bool.or_eq_false_iff,Bool.and_eq_false_iff,beq_eq_false_iff_ne]
    lia
  · intro a memberA b memberB
    obtain ⟨i,_,rfl⟩ := mem_map.mp memberA
    obtain ⟨j,inside,rfl⟩ := mem_map.mp memberB
    rw [mem_range'_1] at inside
    simp only [LevelOffsets.before,road,Bool.or_eq_false_iff,Bool.and_eq_false_iff,beq_eq_false_iff_ne]
    lia

/-- The 256 edges inside of the cell are counted as none: all edges of the node count as border edges. -/
theorem star_wraps : Sorted starPartition starEdges starEdges ∧ ¬ Unwrapped starPartition 258 starEdges starEdges ∧
    (Graph.build starPartition 258 starEdges starEdges).BeginBorderEdges 1 0 = some 0 := by
  have order := star_sorted.order
  have inner : starEdges.countP (lower starPartition 0 1) = 256 := by decide +kernel
  have none : starEdges.countP (early 0) = 0 := by simp [early]
  have byte : (Graph.build starPartition 258 starEdges starEdges).node_to_edge_offset[0 * starPartition.GetNumberOfLevels + 1]? =
      some (EdgeOffset (starEdges.countP (lower starPartition 0 1))) := byte_at order (by decide) (Nat.zero_le _) (by decide)
  rw [inner] at byte
  refine ⟨star_sorted,fun unwrapped => ?_,?_⟩
  · have stored := unwrapped.bytes 0 (Nat.zero_le _) 1 (by decide)
    rw [byte,inner] at stored
    simp [EdgeOffset] at stored
  · rw [beginBorderEdges_within order (by decide) (by decide) (by decide) (Nat.zero_le _),none]
    rw [Nat.mod_eq_of_lt (show 0 * starPartition.GetNumberOfLevels + 1 < 2 ^ 32 by decide),byte]
    simp [EdgeOffset]

end Osrm.OffsetBounds
