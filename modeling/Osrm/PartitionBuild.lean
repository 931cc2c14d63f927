import Mathlib.Algebra.BigOperators.Group.List.Basic
import Osrm.Changes
import Osrm.Partition

/-!
The construction of `partitioner::MultiLevelPartition`. The nodes are sorted by the cells of one level after the
other, a level is numbered by the changes of its cells along them, and the cells below a cell are a range of numbers.
-/
namespace Osrm.PartitionBuild
open List Option Function
open Typedefs Changes Osrm.Partition

def MAX_NUM_LEVEL : ℕ := 16

/-- The data of a partition with the first children of its cells, one level after the other. -/
structure PackedPartition extends PartitionData where
  lidx_to_children_offsets : List ℕ
  cell_to_children : List CellID

namespace PackedPartition
variable (packed : PackedPartition)

def BeginChildren (level : LevelID) (cell : CellID) : Option CellID :=
  packed.cell_to_children[(packed.lidx_to_children_offsets.getD (level - 1) 0 + cell) % 2 ^ 32]?
def EndChildren (level : LevelID) (cell : CellID) : Option CellID :=
  packed.cell_to_children[(packed.lidx_to_children_offsets.getD (level - 1) 0 + cell + 1) % 2 ^ 32]?

end PackedPartition

def setCell (level_data : LevelData) (l : LevelID) (word : PartitionID) (cell_id : CellID) : PartitionID :=
  (word &&& ((2 ^ 64 - 1) ^^^ level_data.lidx_to_mask.getD (l - 1) 0)) |||
    (cell_id <<< level_data.lidx_to_offset.getD (l - 1) 0) % 2 ^ 64
def SetCellID (level_data : LevelData) (partition : NodeID → PartitionID) (l : LevelID) (node : NodeID) (cell_id : CellID) :
    NodeID → PartitionID :=
  Function.update partition node (setCell level_data l (partition node) cell_id)

/-- The locals of the loop that numbers the cells of a level. -/
structure Numbering where
  last_cell_id : CellID
  cell_id : CellID
  partition : NodeID → PartitionID

def numberNode (level_data : LevelData) (level : LevelID) (partition : NodeID → CellID) (s : Numbering) (node : NodeID) :
    Numbering :=
  if s.last_cell_id ≠ partition node then
    ⟨partition node,s.cell_id + 1,SetCellID level_data s.partition level node (s.cell_id + 1)⟩
  else ⟨s.last_cell_id,s.cell_id,SetCellID level_data s.partition level node s.cell_id⟩

def numberLevel (level_data : LevelData) (permutation : List NodeID) (sentinel : NodeID) (level : LevelID)
    (partition : NodeID → CellID) (words : NodeID → PartitionID) : NodeID → PartitionID :=
  let done := permutation.foldl (numberNode level_data level partition) ⟨partition (permutation.headD 0),0,words⟩
  SetCellID level_data done.partition level sentinel (done.cell_id + 1)

/-- The levels from the highest one down; the list starts with it. -/
def numberLevels (level_data : LevelData) (permutation : List NodeID) (sentinel : NodeID) :
    List (NodeID → CellID) → LevelID → (NodeID → PartitionID) → NodeID → PartitionID
  | [],_,words => words
  | partition :: rest,level,words =>
    numberLevels level_data permutation sentinel rest (level - 1)
      (numberLevel level_data permutation sentinel level partition words)

def openParent (parent : NodeID → CellID) (child : NodeID → CellID) (s : CellID × List CellID) (node : NodeID) :
    CellID × List CellID :=
  if s.1 ≠ parent node then (parent node,s.2 ++ [child node]) else s
/-- The first children of the parents of one level, and the sentinel for the last one. -/
def levelChildren (parent : NodeID → CellID) (child : NodeID → CellID) (permutation : List NodeID) : List CellID :=
  (permutation.foldl (openParent parent child) (parent (permutation.headD 0),[child (permutation.headD 0)])).2 ++
    [child (permutation.getLastD 0) + 1]

/-- The loop over the levels that have a level above them. -/
def addChildren (data : PartitionData) (permutation : List NodeID) :
    List (NodeID → CellID) → LevelID → List ℕ → List CellID → PackedPartition
  | [],_,offsets,children => ⟨data,offsets,children⟩
  | parent_partition :: rest,level,offsets,children =>
    addChildren data permutation rest (level + 1) (offsets ++ [children.length % 2 ^ 32])
      (children ++ levelChildren parent_partition (data.GetCell level) permutation)

/-- The nodes sorted by the cells of one level after the other, from the lowest one up. -/
def sortedNodes (partitions : List (NodeID → CellID)) (num_nodes : ℕ) : List NodeID :=
  partitions.foldl (fun permutation partition => sortBy partition permutation) (List.range num_nodes)
def InitializePartitionIDs (level_data : LevelData) (partitions : List (NodeID → CellID)) (num_nodes : ℕ) : PackedPartition :=
  let permutation := sortedNodes partitions num_nodes
  let words := numberLevels level_data permutation num_nodes partitions.reverse partitions.length fun _ => 0
  addChildren ⟨level_data,num_nodes,words⟩ permutation partitions.tail 1 [0] []

/-- `MultiLevelPartitionImpl(partitions, lidx_to_num_cells)`. The arrays of the levels have `MAX_NUM_LEVEL - 1` entries with
    the sentinel, numbers of cells are taken in 32 bits, and the first level and node are read. -/
def MultiLevelPartitionImpl (partitions : List (NodeID → CellID)) (num_nodes : ℕ) (lidx_to_num_cells : List ℕ) :
    Option PackedPartition :=
  if lidx_to_num_cells.length + 1 < MAX_NUM_LEVEL ∧ (∀ num_cells ∈ lidx_to_num_cells, num_cells + 1 < 2 ^ 32) ∧
      partitions ≠ [] ∧ 0 < num_nodes then
    (MakeLevelData lidx_to_num_cells).map fun level_data => InitializePartitionIDs level_data partitions num_nodes
  else none

variable {nums : List ℕ} {level_data : LevelData} {l l' : LevelID} {word : PartitionID} {cell : CellID}

def cellOf (level_data : LevelData) (l : LevelID) (word : PartitionID) : CellID :=
  (word &&& level_data.lidx_to_mask.getD (l - 1) 0) >>> level_data.lidx_to_offset.getD (l - 1) 0

private theorem makeOffsets_width {sum_bits : ℕ} {nums offsets : List ℕ} (made : makeOffsets sum_bits nums = some offsets) :
    ∀ i < nums.length, offsets.getD (i + 1) 0 = offsets.getD i 0 + Nat.clog 2 (nums.getD i 0 + 1) ∧ offsets.getD (i + 1) 0 ≤ 64 := by
  induction nums generalizing sum_bits offsets with
  | nil => simp
  | cons num rest ih =>
    rw [makeOffsets] at made
    split at made
    · simp at made
    · rename_i room
      obtain ⟨later,found,rfl⟩ := map_eq_some_iff.mp made
      have first := (makeOffsets_le found).2.1
      rintro (_ | i) below
      · refine ⟨by simpa using first,?_⟩
        simp only [getD_cons_succ,first]
        simpa [NUM_PARTITION_BITS] using room
      · simpa using ih found i (by simpa using below)

theorem level_bits (made : MakeLevelData nums = some level_data) (low : 1 ≤ l) (high : l ≤ nums.length) :
    level_data.lidx_to_offset.getD l 0 = level_data.lidx_to_offset.getD (l - 1) 0 + Nat.clog 2 (nums.getD (l - 1) 0 + 1) ∧
      level_data.lidx_to_offset.getD l 0 ≤ 64 ∧
      level_data.lidx_to_mask.getD (l - 1) 0 =
        (2 ^ level_data.lidx_to_offset.getD l 0 - 1) ^^^ (2 ^ level_data.lidx_to_offset.getD (l - 1) 0 - 1) := by
  obtain ⟨offsets,found,rfl⟩ := map_eq_some_iff.mp made
  have width := makeOffsets_width found (l - 1) (by lia)
  have mask := masks_at offsets (l - 1) (by rw [(makeOffsets_le found).1]; lia)
  rw [show l - 1 + 1 = l by lia] at width mask
  exact ⟨width.1,width.2,mask⟩

theorem offsets_le (made : MakeLevelData nums = some level_data) (le : l ≤ l') (high : l' ≤ nums.length) :
    level_data.lidx_to_offset.getD l 0 ≤ level_data.lidx_to_offset.getD l' 0 := by
  induction l', le using Nat.le_induction with
  | base => exact le_rfl
  | succ l' _ ih =>
    have width := (level_bits made (show 1 ≤ l' + 1 by lia) high).1
    exact (ih (by lia)).trans (by rw [width]; simp)

private theorem set_testBit {low high v : ℕ} (le : low ≤ high) (fits : v < 2 ^ (high - low)) {i : ℕ} (inside : i < 64) :
    ((word &&& ((2 ^ 64 - 1) ^^^ ((2 ^ high - 1) ^^^ (2 ^ low - 1)))) ||| (v <<< low) % 2 ^ 64).testBit i =
      if low ≤ i ∧ i < high then v.testBit (i - low) else word.testBit i := by
  rw [Nat.testBit_or,Nat.testBit_and,Nat.testBit_xor,Nat.testBit_xor,Nat.testBit_two_pow_sub_one,
    Nat.testBit_two_pow_sub_one,Nat.testBit_two_pow_sub_one,Nat.testBit_mod_two_pow,Nat.testBit_shiftLeft]
  by_cases above : low ≤ i
  · by_cases below : i < high
    · simp [inside,above,below]
    · have zero : v.testBit (i - low) = false := by
        apply Nat.testBit_lt_two_pow
        exact fits.trans_le (Nat.pow_le_pow_right (by decide) (by omega))
      simp [inside,above,below,zero]
  · simp [inside,above,show i < low by omega,show i < high by omega]

private theorem cellOf_setCell (made : MakeLevelData nums = some level_data) (low : 1 ≤ l) (high : l ≤ nums.length) (low' : 1 ≤ l')
    (high' : l' ≤ nums.length) (fits : cell ≤ nums.getD (l - 1) 0) :
    cellOf level_data l' (setCell level_data l word cell) = if l' = l then cell else cellOf level_data l' word := by
  obtain ⟨width,size,mask⟩ := level_bits made low high
  obtain ⟨width',size',mask'⟩ := level_bits made low' high'
  have small : cell < 2 ^ (level_data.lidx_to_offset.getD l 0 - level_data.lidx_to_offset.getD (l - 1) 0) := by
    rw [width,Nat.add_sub_cancel_left]
    exact (Nat.lt_succ_of_le fits).trans_le (Nat.le_pow_clog Nat.one_lt_two _)
  have ordered := offsets_le made (show l - 1 ≤ l by lia) high
  apply Nat.eq_of_testBit_eq
  intro i
  rw [cellOf,setCell,mask,mask',cut_testBit]
  by_cases inside : level_data.lidx_to_offset.getD (l' - 1) 0 + i < level_data.lidx_to_offset.getD l' 0
  · rw [set_testBit ordered small (inside.trans_le size'),decide_eq_true inside,Bool.and_true]
    by_cases same : l' = l
    · subst same
      rw [if_pos ⟨Nat.le_add_right _ _,inside⟩,if_pos rfl,Nat.add_sub_cancel_left]
    · have apart : ¬ (level_data.lidx_to_offset.getD (l - 1) 0 ≤ level_data.lidx_to_offset.getD (l' - 1) 0 + i ∧
          level_data.lidx_to_offset.getD (l' - 1) 0 + i < level_data.lidx_to_offset.getD l 0) := by
        rcases Nat.lt_or_ge l l' with above | below
        · have := offsets_le made (show l ≤ l' - 1 by lia) (by lia)
          omega
        · have := offsets_le made (show l' ≤ l - 1 by lia) (by lia)
          omega
      rw [if_neg apart,if_neg same,cellOf,mask',cut_testBit,decide_eq_true inside,Bool.and_true]
  · rw [decide_eq_false inside,Bool.and_false]
    by_cases same : l' = l
    · subst same
      rw [if_pos rfl]
      apply (Nat.testBit_lt_two_pow (small.trans_le (Nat.pow_le_pow_right (by decide) (by omega)))).symm
    · rw [if_neg same,cellOf,mask',cut_testBit,decide_eq_false inside,Bool.and_false]

/-! ### The numbers of the nodes -/

section Numbers
variable (permutation : List NodeID) (sentinel : NodeID) (partition : NodeID → CellID) {i k : ℕ}

def cellsAlong (i : ℕ) : CellID := partition (permutation.getD i 0)
/-- The number of a place among the sorted nodes; the sentinel stands behind them. -/
def numberAt (i : ℕ) : CellID :=
  if i < permutation.length then changes (cellsAlong permutation partition) i
  else changes (cellsAlong permutation partition) (permutation.length - 1) + 1

theorem foldl_numberNode (level_data : LevelData) (l : LevelID) (words : NodeID → PartitionID) (distinct : permutation.Nodup) (inside : k ≤ permutation.length) :
    let s := (permutation.take k).foldl (numberNode level_data l partition) ⟨partition (permutation.headD 0),0,words⟩
    s.last_cell_id = cellsAlong permutation partition (k - 1) ∧
      s.cell_id = changes (cellsAlong permutation partition) (k - 1) ∧
      (∀ i < k, s.partition (permutation.getD i 0) =
        setCell level_data l (words (permutation.getD i 0)) (changes (cellsAlong permutation partition) i)) ∧
      ∀ node ∉ permutation.take k, s.partition node = words node := by
  induction k with
  | zero => simp [cellsAlong,changes,headD_eq_head?_getD,head?_eq_getElem?,getD_eq_getElem?_getD]
  | succ k ih =>
    obtain ⟨last,cell,done,others⟩ := ih (by omega)
    rw [take_add_one,getElem?_eq_getElem (show k < permutation.length by omega)]
    simp only [foldl_append,toList_some,foldl_cons,foldl_nil]
    generalize (permutation.take k).foldl (numberNode level_data l partition) ⟨partition (permutation.headD 0),0,words⟩ = s at last cell done others ⊢
    have here : permutation[k] = permutation.getD k 0 := by simp [getD_eq_getElem?_getD,show k < permutation.length by omega]
    have fresh : permutation.getD k 0 ∉ permutation.take k := by
      rw [← here]
      intro member
      obtain ⟨j,less,same⟩ := mem_take_iff_getElem.mp member
      have := (Nodup.getElem_inj_iff distinct).mp same
      omega
    have step : numberNode level_data l partition s permutation[k] =
        ⟨cellsAlong permutation partition k,changes (cellsAlong permutation partition) k,
          SetCellID level_data s.partition l (permutation.getD k 0) (changes (cellsAlong permutation partition) k)⟩ := by
      rw [numberNode,here,last,cell]
      change (if cellsAlong permutation partition (k - 1) ≠ cellsAlong permutation partition k then _ else _) = _
      by_cases first : k = 0
      · subst first
        simp [changes]
      · obtain ⟨k,rfl⟩ := Nat.exists_eq_succ_of_ne_zero first
        have next : changes (cellsAlong permutation partition) (k + 1) =
            if cellsAlong permutation partition k ≠ cellsAlong permutation partition (k + 1) then
              changes (cellsAlong permutation partition) k + 1 else changes (cellsAlong permutation partition) k := rfl
        rw [Nat.succ_eq_add_one,Nat.add_sub_cancel,next]
        by_cases same : cellsAlong permutation partition k = cellsAlong permutation partition (k + 1)
        · rw [if_neg (not_not.mpr same),if_neg (not_not.mpr same),same]
        · rw [if_pos same,if_pos same]
          rfl
    rw [step]
    dsimp only
    refine ⟨by simp,by simp,fun i less => ?_,fun node missing => ?_⟩
    · rcases Nat.eq_or_lt_of_le (Nat.le_of_lt_succ less) with rfl | before
      · rw [SetCellID,update_self,others _ fresh]
      · rw [SetCellID,update_of_ne,done i before]
        intro same
        apply fresh
        rw [← same,mem_take_iff_getElem]
        exact ⟨i,by omega,by simp [getD_eq_getElem?_getD,show i < permutation.length by omega]⟩
    · rw [mem_append,not_or] at missing
      rw [SetCellID,update_of_ne,others node missing.1]
      rintro rfl
      exact missing.2 (by simp [here])

theorem numberLevel_at (words : NodeID → PartitionID) (distinct : (permutation ++ [sentinel]).Nodup)
    (inside : i ≤ permutation.length) :
    numberLevel level_data permutation sentinel l partition words ((permutation ++ [sentinel]).getD i 0) =
      setCell level_data l (words ((permutation ++ [sentinel]).getD i 0)) (numberAt permutation partition i) := by
  obtain ⟨nodes,_,apart⟩ := nodup_append.mp distinct
  obtain ⟨_,cell,done,others⟩ := foldl_numberNode permutation partition level_data l words nodes le_rfl
  rw [take_length] at cell done others
  have missing : sentinel ∉ permutation := fun member => apart sentinel member sentinel (by simp) rfl
  unfold numberLevel numberAt
  rcases Nat.eq_or_lt_of_le inside with rfl | before
  · simp only [getD_eq_getElem?_getD,getElem?_append_right le_rfl,Nat.sub_self,getElem?_cons_zero,
      getD_some,lt_irrefl,if_false]
    rw [SetCellID,update_self,others sentinel missing,cell]
  · rw [getD_append _ _ _ _ before,if_pos before,SetCellID,update_of_ne,done i before]
    rintro rfl
    apply missing
    rw [getD_eq_getElem?_getD,getElem?_eq_getElem before]
    exact getElem_mem before

private theorem numberLevels_at (made : MakeLevelData nums = some level_data) (distinct : (permutation ++ [sentinel]).Nodup)
    (partitions : List (NodeID → CellID)) (words : NodeID → PartitionID) (size : partitions.length ≤ nums.length)
    (fits : ∀ l, 1 ≤ l → l ≤ partitions.length → ∀ i ≤ permutation.length,
      numberAt permutation (partitions.getD (partitions.length - l) fun _ => 0) i ≤ nums.getD (l - 1) 0)
    (low : 1 ≤ l) (high : l ≤ nums.length) (inside : i ≤ permutation.length) :
    cellOf level_data l (numberLevels level_data permutation sentinel partitions partitions.length words
        ((permutation ++ [sentinel]).getD i 0)) =
      if l ≤ partitions.length then numberAt permutation (partitions.getD (partitions.length - l) fun _ => 0) i
      else cellOf level_data l (words ((permutation ++ [sentinel]).getD i 0)) := by
  induction partitions generalizing words with
  | nil => simp [numberLevels,show ¬ l ≤ 0 by lia]
  | cons partition rest ih =>
    have rank : ∀ l, 1 ≤ l → l ≤ rest.length →
        (partition :: rest).getD (rest.length + 1 - l) (fun _ => 0) = rest.getD (rest.length - l) fun _ => 0 := by
      intro l low below
      rw [show rest.length + 1 - l = rest.length - l + 1 by lia,getD_cons_succ]
    have mine := fits (rest.length + 1) (by lia) (by simp) i inside
    simp only [length_cons,Nat.sub_self,getD_cons_zero] at size fits mine ⊢
    rw [numberLevels,Nat.add_sub_cancel,ih _ (by lia) fun l low below i inside => by
      simpa only [rank l low below] using fits l low (by lia) i inside]
    by_cases below : l ≤ rest.length
    · rw [if_pos below,if_pos (by lia),rank l low below]
    · rw [if_neg below,numberLevel_at permutation sentinel partition words distinct inside,
        cellOf_setCell made (by lia) size low high mine]
      by_cases same : l = rest.length + 1
      · subst same
        simp
      · rw [if_neg same,if_neg (by lia)]

private theorem foldl_openParent (child : NodeID → CellID) (inside : k ≤ permutation.length) :
    let s := (permutation.take k).foldl (openParent partition child) (partition (permutation.headD 0),[child (permutation.headD 0)])
    s.1 = cellsAlong permutation partition (k - 1) ∧
      s.2.length = changes (cellsAlong permutation partition) (k - 1) + 1 ∧
      ∀ c ≤ changes (cellsAlong permutation partition) (k - 1), ∃ i ≤ k - 1, s.2[c]? = some (child (permutation.getD i 0)) ∧
        changes (cellsAlong permutation partition) i = c ∧ ∀ j < i, changes (cellsAlong permutation partition) j < c := by
  induction k with
  | zero =>
    refine ⟨by simp [cellsAlong,headD_eq_head?_getD,head?_eq_getElem?,getD_eq_getElem?_getD],by simp [changes],?_⟩
    intro c le
    obtain rfl : c = 0 := by simpa [changes] using le
    exact ⟨0,le_rfl,by simp [headD_eq_head?_getD,head?_eq_getElem?,getD_eq_getElem?_getD],rfl,by simp⟩
  | succ k ih =>
    obtain ⟨last,size,entries⟩ := ih (by omega)
    rw [take_add_one,getElem?_eq_getElem (show k < permutation.length by omega)]
    simp only [foldl_append,toList_some,foldl_cons,foldl_nil]
    generalize (permutation.take k).foldl (openParent partition child) (partition (permutation.headD 0),[child (permutation.headD 0)]) = s
      at last size entries ⊢
    have here : permutation[k] = permutation.getD k 0 := by simp [getD_eq_getElem?_getD,show k < permutation.length by omega]
    have step : openParent partition child s permutation[k] =
        if cellsAlong permutation partition (k - 1) ≠ cellsAlong permutation partition k then
          (cellsAlong permutation partition k,s.2 ++ [child (permutation.getD k 0)]) else s := by
      rw [openParent,here,last]
      rfl
    rw [step]
    by_cases first : k = 0
    · subst first
      rw [if_neg (not_not.mpr rfl)]
      exact ⟨last,size,entries⟩
    obtain ⟨k,rfl⟩ := Nat.exists_eq_succ_of_ne_zero first
    have next : changes (cellsAlong permutation partition) (k + 1) =
        if cellsAlong permutation partition k ≠ cellsAlong permutation partition (k + 1) then
          changes (cellsAlong permutation partition) k + 1 else changes (cellsAlong permutation partition) k := rfl
    simp only [Nat.succ_eq_add_one,Nat.add_sub_cancel] at last size entries ⊢
    by_cases same : cellsAlong permutation partition k = cellsAlong permutation partition (k + 1)
    · rw [if_neg (not_not.mpr same)] at next ⊢
      refine ⟨last.trans same,by rw [size,next],fun c le => ?_⟩
      obtain ⟨i,before,entry⟩ := entries c (by omega)
      exact ⟨i,by omega,entry⟩
    · rw [if_pos same] at next ⊢
      refine ⟨rfl,by simp [size,next],fun c le => ?_⟩
      rcases Nat.lt_or_ge c s.2.length with old | new
      · obtain ⟨i,before,entry⟩ := entries c (by omega)
        exact ⟨i,by omega,by simpa [getElem?_append_left old] using entry⟩
      · obtain rfl : c = s.2.length := by omega
        refine ⟨k + 1,le_rfl,by simp,by omega,fun j less => ?_⟩
        have := changes_mono (cellsAlong permutation partition) (show j ≤ k by omega)
        omega

/-- The children of a level: its parents have their first children as entries, then the end of the last one's. -/
theorem levelChildren_spec (child : NodeID → CellID) (some_node : 0 < permutation.length) :
    (levelChildren partition child permutation).length = numberAt permutation partition permutation.length + 1 ∧
      (∀ c < numberAt permutation partition permutation.length, ∃ i < permutation.length,
        (levelChildren partition child permutation)[c]? = some (child (permutation.getD i 0)) ∧
          changes (cellsAlong permutation partition) i = c ∧ ∀ j < i, changes (cellsAlong permutation partition) j < c) ∧
      (levelChildren partition child permutation)[numberAt permutation partition permutation.length]? =
        some (child (permutation.getD (permutation.length - 1) 0) + 1) := by
  obtain ⟨_,size,entries⟩ := foldl_openParent permutation partition child le_rfl
  rw [take_length] at size entries
  have last : permutation.getLastD 0 = permutation.getD (permutation.length - 1) 0 := by
    simp [getLastD_eq_getLast?,getLast?_eq_getElem?,getD_eq_getElem?_getD]
  have total : numberAt permutation partition permutation.length =
      changes (cellsAlong permutation partition) (permutation.length - 1) + 1 := by simp [numberAt]
  rw [levelChildren,last,total]
  refine ⟨by rw [length_append,size,length_singleton],fun c below => ?_,?_⟩
  · obtain ⟨i,before,entry,rest⟩ := entries c (Nat.le_of_lt_succ below)
    refine ⟨i,by omega,?_,rest⟩
    rw [getElem?_append_left (by rw [size]; exact below)]
    exact entry
  · rw [← size,getElem?_append_right le_rfl,Nat.sub_self,getElem?_cons_zero]

theorem addChildren_spec (data : PartitionData) (some_node : 0 < permutation.length) (parents : List (NodeID → CellID)) (level : LevelID)
    (offsets : List ℕ) (children : List CellID) :
    let packed := addChildren data permutation parents level offsets children
    packed.toPartitionData = data ∧ (∀ i < offsets.length, packed.lidx_to_children_offsets.getD i 0 = offsets.getD i 0) ∧
      (∃ more, packed.cell_to_children = children ++ more) ∧
      packed.cell_to_children.length =
        children.length + (parents.map fun parent => numberAt permutation parent permutation.length + 1).sum ∧
      ∀ i < parents.length, ∃ start, packed.lidx_to_children_offsets.getD (offsets.length + i) 0 = start % 2 ^ 32 ∧
        start + (numberAt permutation (parents.getD i fun _ => 0) permutation.length + 1) ≤ packed.cell_to_children.length ∧
        ∀ c ≤ numberAt permutation (parents.getD i fun _ => 0) permutation.length, packed.cell_to_children[start + c]? =
          (levelChildren (parents.getD i fun _ => 0) (data.GetCell (level + i)) permutation)[c]? := by
  induction parents generalizing level offsets children with
  | nil => exact ⟨rfl,fun _ _ => rfl,⟨[],(append_nil _).symm⟩,by simp [addChildren],fun i below => by simp at below⟩
  | cons parent rest ih =>
    obtain ⟨same,kept,⟨more,grown⟩,size,found⟩ := ih (level + 1) (offsets ++ [children.length % 2 ^ 32])
      (children ++ levelChildren parent (data.GetCell level) permutation)
    have block := (levelChildren_spec permutation parent (data.GetCell level) some_node).1
    simp only [addChildren]
    refine ⟨same,fun i below => ?_,⟨_,by rw [grown,append_assoc]⟩,?_,?_⟩
    · rw [kept i (by rw [length_append]; omega),getD_append _ _ _ _ below]
    · rw [size,length_append,block,map_cons,sum_cons]
      omega
    · rintro (_ | i) below
      · refine ⟨children.length,?_,?_,fun c le => ?_⟩
        · rw [kept _ (by simp)]
          simp [getD_eq_getElem?_getD]
        · rw [grown,length_append,length_append,block,getD_cons_zero]
          omega
        · rw [grown,append_assoc,getElem?_append_right (Nat.le_add_right _ _),Nat.add_sub_cancel_left,
            getElem?_append_left (by rw [block]; exact Nat.lt_succ_of_le le),getD_cons_zero,Nat.add_zero]
      · obtain ⟨start,offset,inside,entries⟩ := found i (by simpa using below)
        rw [length_append,length_singleton] at offset
        refine ⟨start,?_,inside,fun c le => ?_⟩
        · rw [← offset,Nat.add_right_comm,Nat.add_assoc]
        · rw [entries c le,getD_cons_succ,Nat.add_right_comm,Nat.add_assoc]

end Numbers

section Sorted
variable {partitions : List (NodeID → CellID)} {num_nodes : ℕ}

/-- Sorting loses no node. -/
theorem sortedNodes_perm : (sortedNodes partitions num_nodes).Perm (List.range num_nodes) := by
  unfold sortedNodes
  generalize List.range num_nodes = nodes
  induction partitions generalizing nodes with
  | nil => exact Perm.refl _
  | cons partition rest ih => exact (ih (sortBy partition nodes)).trans (sortBy_perm partition nodes)

/-- A common cell on a level is one on the next. -/
def Nested (partitions : List (NodeID → CellID)) (num_nodes : ℕ) : Prop :=
  partitions.Pairwise fun lower higher => ∀ u < num_nodes, ∀ v < num_nodes, lower u = lower v → higher u = higher v

theorem Nested.lift (nested : Nested partitions num_nodes) (low : 1 ≤ l) (le : l ≤ l') (high : l' ≤ partitions.length) {u v : NodeID}
    (insideU : u < num_nodes) (insideV : v < num_nodes)
    (same : (partitions.getD (l - 1) fun _ => 0) u = (partitions.getD (l - 1) fun _ => 0) v) :
    (partitions.getD (l' - 1) fun _ => 0) u = (partitions.getD (l' - 1) fun _ => 0) v := by
  rcases Nat.lt_or_eq_of_le le with less | rfl
  · have coarser := pairwise_iff_getElem.mp nested (l - 1) (l' - 1) (by lia) (by lia) (by lia)
    simp only [getD_eq_getElem?_getD,getElem?_eq_getElem (show l - 1 < partitions.length by lia),
      getElem?_eq_getElem (show l' - 1 < partitions.length by lia),getD_some] at same ⊢
    exact coarser u insideU v insideV same
  · exact same

private theorem grouped_foldl (f : NodeID → CellID) (partitions : List (NodeID → CellID)) (nodes : List NodeID) (grouped : Grouped f nodes)
    (coarser : ∀ partition ∈ partitions, ∀ u ∈ nodes, ∀ v ∈ nodes, f u = f v → partition u = partition v) :
    Grouped f (partitions.foldl (fun permutation partition => sortBy partition permutation) nodes) := by
  induction partitions generalizing nodes with
  | nil => exact grouped
  | cons partition rest ih =>
    apply ih
    · exact grouped_sortBy_of_coarser partition nodes f grouped (coarser partition mem_cons_self)
    · intro later member u insideU v insideV
      exact coarser later (mem_cons_of_mem _ member) u ((sortBy_perm partition nodes).mem_iff.mp insideU) v
        ((sortBy_perm partition nodes).mem_iff.mp insideV)

private theorem sortedNodes_grouped (nested : Nested partitions num_nodes) :
    ∀ partition ∈ partitions, Grouped partition (sortedNodes partitions num_nodes) := by
  intro partition member
  obtain ⟨lower,higher,rfl⟩ := append_of_mem member
  have above := pairwise_cons.mp (pairwise_append.mp nested).2.1
  have nodes : (sortedNodes lower num_nodes).Perm (List.range num_nodes) := sortedNodes_perm
  unfold sortedNodes at nodes ⊢
  rw [foldl_append,foldl_cons]
  generalize lower.foldl (fun permutation partition => sortBy partition permutation) (List.range num_nodes) = sorted at nodes ⊢
  apply grouped_foldl _ _ _ (grouped_sortBy partition sorted)
  have inside : ∀ u ∈ sortBy partition sorted, u < num_nodes := fun u member =>
    mem_range.mp (nodes.mem_iff.mp ((sortBy_perm partition sorted).mem_iff.mp member))
  intro later member u insideU v insideV
  exact above.1 later member u (inside u insideU) v (inside v insideV)

end Sorted

/-! ### What the partition stands for -/

variable {partitions : List (NodeID → CellID)} {num_nodes : ℕ} {lidx_to_num_cells : List ℕ}

/-- The input of the constructor: nested levels, the numbers of their cells, and widths that fit a word. -/
structure Packable (partitions : List (NodeID → CellID)) (num_nodes : ℕ) (lidx_to_num_cells : List ℕ) : Prop where
  nested : Nested partitions num_nodes
  counted : lidx_to_num_cells = partitions.map fun partition => ((Finset.range num_nodes).image partition).card
  fits : (lidx_to_num_cells.map fun num_cells => Nat.clog 2 (num_cells + 1)).sum ≤ NUM_PARTITION_BITS

/-- The cells of the input, numbered, with the children of each. -/
structure Represents (packed : PackedPartition) (partitions : List (NodeID → CellID)) (num_nodes : ℕ) : Prop where
  cells : ∀ l, 1 ≤ l → l ≤ partitions.length → ∀ u < num_nodes, ∀ v < num_nodes,
    packed.GetCell l u = packed.GetCell l v ↔
      (partitions.getD (l - 1) fun _ => 0) u = (partitions.getD (l - 1) fun _ => 0) v
  ids : ∀ l, 1 ≤ l → l ≤ partitions.length → ∀ id, (∃ node < num_nodes, packed.GetCell l node = id) ↔ id < packed.GetNumberOfCells l
  children : ∀ l, 2 ≤ l → l ≤ partitions.length → ∀ cell < packed.GetNumberOfCells l, ∃ first last,
    packed.BeginChildren l cell = some first ∧ packed.EndChildren l cell = some last ∧
      ∀ id, (first ≤ id ∧ id < last) ↔ ∃ node < num_nodes, packed.GetCell l node = cell ∧ packed.GetCell (l - 1) node = id

private theorem makeOffsets_some (nums : List ℕ) (sum_bits : ℕ)
    (fits : sum_bits + (nums.map fun num_cells => Nat.clog 2 (num_cells + 1)).sum ≤ NUM_PARTITION_BITS) :
    ∃ offsets, makeOffsets sum_bits nums = some offsets := by
  induction nums generalizing sum_bits with
  | nil => exact ⟨[sum_bits],rfl⟩
  | cons num rest ih =>
    rw [map_cons,sum_cons] at fits
    obtain ⟨offsets,found⟩ := ih (sum_bits + Nat.clog 2 (num + 1)) (by omega)
    exact ⟨sum_bits :: offsets,by rw [makeOffsets,if_neg (by omega),found]; rfl⟩

private theorem children_fit (nums : List ℕ) (levels : nums.length + 1 < MAX_NUM_LEVEL) (descending : nums.Pairwise (· ≥ ·))
    (some_cell : ∀ num ∈ nums, 1 ≤ num)
    (fits : (nums.map fun num_cells => Nat.clog 2 (num_cells + 1)).sum ≤ NUM_PARTITION_BITS) :
    (nums.tail.map (· + 1)).sum ≤ 2 ^ 32 := by
  have width : ∀ {x bits : ℕ}, Nat.clog 2 (x + 1) ≤ bits → x + 1 ≤ 2 ^ bits := fun le =>
    (Nat.le_pow_clog Nat.one_lt_two _).trans (Nat.pow_le_pow_right (by decide) le)
  have order : ∀ {x y : ℕ}, x ≤ y → Nat.clog 2 (x + 1) ≤ Nat.clog 2 (y + 1) := fun le =>
    Nat.clog_mono_right 2 (Nat.succ_le_succ le)
  simp only [NUM_PARTITION_BITS] at fits
  match nums with
  | [] => simp
  | [a] => simp
  | [a,b] =>
    have le : b ≤ a := by simpa using descending
    have bits := order le
    simp only [map_cons,map_nil,sum_cons,sum_nil] at fits
    simpa using width (show Nat.clog 2 (b + 1) ≤ 32 by omega)
  | a :: b :: c :: rest =>
    obtain ⟨top,below⟩ := pairwise_cons.mp descending
    obtain ⟨middle,lower⟩ := pairwise_cons.mp below
    obtain ⟨last,_⟩ := pairwise_cons.mp lower
    have first := order (top b (by simp))
    have second := order (middle c (by simp))
    have some_bit : 1 ≤ Nat.clog 2 (c + 1) := by
      have := some_cell c (by simp)
      exact Nat.clog_pos Nat.one_lt_two (by omega)
    simp only [map_cons,sum_cons] at fits
    have wide := width (show Nat.clog 2 (b + 1) ≤ 31 by omega)
    have narrow : ∀ x ∈ c :: rest, x + 1 ≤ 2 ^ 21 := by
      intro x member
      have le : x ≤ c := by
        rcases mem_cons.mp member with rfl | later
        · exact le_rfl
        · exact last x later
      have := order le
      exact width (by omega)
    have sum := sum_le_card_nsmul ((c :: rest).map (· + 1)) (2 ^ 21) (by
      intro y member
      obtain ⟨x,known,rfl⟩ := mem_map.mp member
      exact narrow x known)
    simp only [length_map,smul_eq_mul,length_cons,MAX_NUM_LEVEL] at sum levels
    rw [tail_cons,map_cons,sum_cons]
    have : (rest.length + 1) * 2 ^ 21 ≤ 12 * 2 ^ 21 := Nat.mul_le_mul_right _ (by omega)
    omega

section Places
variable (packable : Packable partitions num_nodes lidx_to_num_cells) {l : LevelID} {i : ℕ}

theorem sortedNodes_length : (sortedNodes partitions num_nodes).length = num_nodes :=
  sortedNodes_perm.length_eq.trans length_range

theorem sortedNodes_nodup : (sortedNodes partitions num_nodes ++ [num_nodes]).Nodup := by
  rw [nodup_append]
  refine ⟨sortedNodes_perm.nodup_iff.mpr nodup_range,by simp,?_⟩
  rintro node member later inside rfl
  cases mem_singleton.mp inside
  exact lt_irrefl _ (mem_range.mp (sortedNodes_perm.mem_iff.mp member))

theorem place_lt (inside : i < num_nodes) : (sortedNodes partitions num_nodes).getD i 0 < num_nodes := by
  have known : i < (sortedNodes partitions num_nodes).length := by rwa [sortedNodes_length]
  rw [getD_eq_getElem?_getD,getElem?_eq_getElem known,getD_some,← mem_range]
  exact sortedNodes_perm.mem_iff.mp (getElem_mem known)

private theorem exists_place (partitions : List (NodeID → CellID)) {node : NodeID} (known : node < num_nodes) :
    ∃ i < num_nodes, (sortedNodes partitions num_nodes).getD i 0 = node := by
  have member : node ∈ sortedNodes partitions num_nodes := sortedNodes_perm.mem_iff.mpr (mem_range.mpr known)
  obtain ⟨i,inside,same⟩ := mem_iff_getElem.mp member
  refine ⟨i,by rwa [sortedNodes_length] at inside,?_⟩
  rw [getD_eq_getElem?_getD,getElem?_eq_getElem inside,getD_some,same]

private theorem exists_node_iff (partitions : List (NodeID → CellID)) {P : NodeID → Prop} :
    (∃ node < num_nodes, P node) ↔ ∃ i < num_nodes, P ((sortedNodes partitions num_nodes).getD i 0) := by
  constructor
  · rintro ⟨node,known,holds⟩
    obtain ⟨i,inside,same⟩ := exists_place partitions known
    exact ⟨i,inside,same ▸ holds⟩
  · rintro ⟨i,inside,holds⟩
    exact ⟨_,place_lt inside,holds⟩

private theorem contiguous_of_mem (nested : Nested partitions num_nodes) {partition : NodeID → CellID} (member : partition ∈ partitions) :
    Contiguous (cellsAlong (sortedNodes partitions num_nodes) partition) num_nodes := by
  have grouped := grouped_contiguous partition _ 0 (sortedNodes_grouped nested partition member)
  rwa [sortedNodes_length] at grouped

private theorem numberAt_last (nested : Nested partitions num_nodes) (some_node : 0 < num_nodes) {partition : NodeID → CellID}
    (member : partition ∈ partitions) :
    numberAt (sortedNodes partitions num_nodes) partition num_nodes = ((Finset.range num_nodes).image partition).card := by
  have nodes : (Finset.range num_nodes).image partition =
      (Finset.range num_nodes).image (cellsAlong (sortedNodes partitions num_nodes) partition) := by
    ext c
    simp only [Finset.mem_image,Finset.mem_range]
    exact exists_node_iff partitions
  rw [nodes,card_image_eq (contiguous_of_mem nested member) some_node,numberAt,sortedNodes_length,if_neg (lt_irrefl _)]

theorem numberAt_le (permutation : List NodeID) (partition : NodeID → CellID) :
    numberAt permutation partition i ≤ numberAt permutation partition permutation.length := by
  unfold numberAt
  rw [if_neg (lt_irrefl permutation.length)]
  split
  · exact (changes_mono _ (by omega)).trans (Nat.le_succ _)
  · exact le_rfl

def words (level_data : LevelData) (partitions : List (NodeID → CellID)) (num_nodes : ℕ) : NodeID → PartitionID :=
  numberLevels level_data (sortedNodes partitions num_nodes) num_nodes partitions.reverse partitions.length fun _ => 0

theorem getD_reverse (low : 1 ≤ l) (high : l ≤ partitions.length) :
    partitions.reverse.getD (partitions.length - l) (fun _ => 0) = partitions.getD (l - 1) fun _ => 0 := by
  rw [getD_eq_getElem?_getD,getD_eq_getElem?_getD,getElem?_reverse (by lia)]
  congr 2
  lia

private theorem getD_mem (low : 1 ≤ l) (high : l ≤ partitions.length) : (partitions.getD (l - 1) fun _ => 0) ∈ partitions := by
  rw [getD_eq_getElem?_getD,getElem?_eq_getElem (show l - 1 < partitions.length by lia)]
  exact getElem_mem _

include packable in
theorem count_at (some_node : 0 < num_nodes) (low : 1 ≤ l) (high : l ≤ partitions.length) :
    lidx_to_num_cells.getD (l - 1) 0 = numberAt (sortedNodes partitions num_nodes) (partitions.getD (l - 1) fun _ => 0) num_nodes := by
  rw [numberAt_last packable.nested some_node (getD_mem low high),packable.counted]
  simp [getD_eq_getElem?_getD,show l - 1 < partitions.length by lia]

include packable in
private theorem cellOf_words (made : MakeLevelData lidx_to_num_cells = some level_data) (some_node : 0 < num_nodes) (low : 1 ≤ l)
    (high : l ≤ partitions.length) (inside : i ≤ num_nodes) :
    cellOf level_data l (words level_data partitions num_nodes ((sortedNodes partitions num_nodes ++ [num_nodes]).getD i 0)) =
      numberAt (sortedNodes partitions num_nodes) (partitions.getD (l - 1) fun _ => 0) i := by
  have levels : lidx_to_num_cells.length = partitions.length := by rw [packable.counted,length_map]
  have reversed : partitions.reverse.length = partitions.length := length_reverse
  have spec := numberLevels_at (l := l) (i := i) (sortedNodes partitions num_nodes) num_nodes made sortedNodes_nodup partitions.reverse (fun _ => 0)
    (by rw [reversed,levels])
  simp only [reversed,sortedNodes_length] at spec
  rw [words,spec ?_ low (by rw [levels]; exact high) inside,if_pos high,getD_reverse low high]
  intro l low high i inside
  have bound := numberAt_le (i := i) (sortedNodes partitions num_nodes) (partitions.getD (l - 1) fun _ => 0)
  rw [sortedNodes_length] at bound
  rw [getD_reverse low high,count_at packable some_node low high]
  exact bound

include packable in
private theorem children_le (some_node : 0 < num_nodes) (levels : lidx_to_num_cells.length + 1 < MAX_NUM_LEVEL) :
    (partitions.tail.map fun parent => numberAt (sortedNodes partitions num_nodes) parent num_nodes + 1).sum ≤ 2 ^ 32 := by
  have counts : (partitions.tail.map fun parent => numberAt (sortedNodes partitions num_nodes) parent num_nodes + 1) =
      lidx_to_num_cells.tail.map (· + 1) := by
    rw [packable.counted,← map_tail,List.map_map]
    apply map_congr_left
    intro parent member
    rw [numberAt_last packable.nested some_node (mem_of_mem_tail member)]
    rfl
  rw [counts]
  refine children_fit _ levels ?_ ?_ packable.fits
  · rw [packable.counted,pairwise_map]
    refine Pairwise.imp (fun {lower higher} coarser => ?_) packable.nested
    apply card_image_le_of_coarser
    intro u insideU v insideV
    exact coarser u (Finset.mem_range.mp insideU) v (Finset.mem_range.mp insideV)
  · intro num member
    rw [packable.counted] at member
    obtain ⟨partition,_,rfl⟩ := mem_map.mp member
    exact Finset.card_pos.mpr ⟨partition 0,Finset.mem_image_of_mem _ (Finset.mem_range.mpr some_node)⟩

/-- The levels of a partition are numbered along the sorted nodes. -/
structure Numbered (data : PartitionData) (partitions : List (NodeID → CellID)) (num_nodes : ℕ) : Prop where
  at_end : ∀ l, 1 ≤ l → l ≤ partitions.length →
    data.GetNumberOfCells l = numberAt (sortedNodes partitions num_nodes) (partitions.getD (l - 1) fun _ => 0) num_nodes
  at_place : ∀ l, 1 ≤ l → l ≤ partitions.length → ∀ i < num_nodes, data.GetCell l ((sortedNodes partitions num_nodes).getD i 0) =
    changes (cellsAlong (sortedNodes partitions num_nodes) (partitions.getD (l - 1) fun _ => 0)) i

include packable in
theorem numbered_words (made : MakeLevelData lidx_to_num_cells = some level_data) (some_node : 0 < num_nodes) :
    Numbered ⟨level_data,num_nodes,words level_data partitions num_nodes⟩ partitions num_nodes := by
  constructor
  · intro l low high
    have here := cellOf_words packable made some_node low high le_rfl
    rwa [getD_eq_getElem?_getD,getElem?_append_right (by rw [sortedNodes_length]),sortedNodes_length,Nat.sub_self,
      getElem?_cons_zero,getD_some] at here
  · intro l low high i inside
    have here := cellOf_words packable made some_node low high inside.le
    rw [getD_append _ _ _ _ (by rwa [sortedNodes_length]),numberAt,if_pos (by rwa [sortedNodes_length])] at here
    exact here

variable {data : PartitionData} (numbered : Numbered data partitions num_nodes)
include numbered

theorem cells_of_numbered (nested : Nested partitions num_nodes) (low : 1 ≤ l) (high : l ≤ partitions.length) {u v : NodeID}
    (insideU : u < num_nodes) (insideV : v < num_nodes) : data.GetCell l u = data.GetCell l v ↔
      (partitions.getD (l - 1) fun _ => 0) u = (partitions.getD (l - 1) fun _ => 0) v := by
  obtain ⟨i,insideI,rfl⟩ := exists_place partitions insideU
  obtain ⟨j,insideJ,rfl⟩ := exists_place partitions insideV
  rw [numbered.at_place l low high i insideI,numbered.at_place l low high j insideJ]
  exact changes_eq_iff (contiguous_of_mem nested (getD_mem low high)) insideI insideJ

theorem ids_of_numbered (some_node : 0 < num_nodes) (low : 1 ≤ l) (high : l ≤ partitions.length) (id : CellID) :
    (∃ node < num_nodes, data.GetCell l node = id) ↔ id < data.GetNumberOfCells l := by
  rw [exists_node_iff partitions,numbered.at_end l low high,numberAt,sortedNodes_length,if_neg (lt_irrefl _)]
  constructor
  · rintro ⟨i,inside,rfl⟩
    rw [numbered.at_place l low high i inside]
    exact Nat.lt_succ_of_le (changes_mono _ (by omega))
  · intro below
    obtain ⟨i,_,inside,same⟩ := changes_between (cellsAlong (sortedNodes partitions num_nodes) (partitions.getD (l - 1) fun _ => 0))
      (Nat.zero_le (num_nodes - 1)) (Nat.zero_le id) (Nat.le_of_lt_succ below)
    exact ⟨i,by omega,by rw [numbered.at_place l low high i (by omega),same]⟩

private theorem children_of_numbered (nested : Nested partitions num_nodes) (some_node : 0 < num_nodes) (low : 2 ≤ l) (high : l ≤ partitions.length)
    {cell : CellID} (inside : cell < data.GetNumberOfCells l) :
    let block := levelChildren (partitions.getD (l - 1) fun _ => 0) (data.GetCell (l - 1)) (sortedNodes partitions num_nodes)
    ∃ first last, block[cell]? = some first ∧ block[cell + 1]? = some last ∧
      ∀ id, (first ≤ id ∧ id < last) ↔ ∃ node < num_nodes, data.GetCell l node = cell ∧ data.GetCell (l - 1) node = id := by
  obtain ⟨_,entries,final⟩ := levelChildren_spec (sortedNodes partitions num_nodes) (partitions.getD (l - 1) fun _ => 0)
    (data.GetCell (l - 1)) (by rw [sortedNodes_length]; exact some_node)
  rw [numbered.at_end l (by lia) high] at inside
  rw [sortedNodes_length] at entries final
  have total : numberAt (sortedNodes partitions num_nodes) (partitions.getD (l - 1) fun _ => 0) num_nodes =
      changes (cellsAlong (sortedNodes partitions num_nodes) (partitions.getD (l - 1) fun _ => 0)) (num_nodes - 1) + 1 := by
    rw [numberAt,sortedNodes_length,if_neg (lt_irrefl _)]
  have above := contiguous_of_mem nested (getD_mem (show 1 ≤ l by lia) high)
  have below := numbered.at_place (l - 1) (by lia) (by lia)
  -- along the sorted nodes the cells of the level change only where those of the level below do
  have coarser : ∀ i < num_nodes, ∀ j < num_nodes,
      cellsAlong (sortedNodes partitions num_nodes) (partitions.getD (l - 1 - 1) fun _ => 0) i =
        cellsAlong (sortedNodes partitions num_nodes) (partitions.getD (l - 1 - 1) fun _ => 0) j →
      cellsAlong (sortedNodes partitions num_nodes) (partitions.getD (l - 1) fun _ => 0) i =
        cellsAlong (sortedNodes partitions num_nodes) (partitions.getD (l - 1) fun _ => 0) j := by
    intro i insideI j insideJ same
    exact nested.lift (show 1 ≤ l - 1 by lia) (show l - 1 ≤ l by lia) high (place_lt insideI) (place_lt insideJ) same
  obtain ⟨a,insideA,entry,here,first⟩ := entries cell inside
  rw [below a insideA] at entry
  have meaning : ∀ id, (∃ node < num_nodes, data.GetCell l node = cell ∧ data.GetCell (l - 1) node = id) ↔
      ∃ i < num_nodes, changes (cellsAlong (sortedNodes partitions num_nodes) (partitions.getD (l - 1) fun _ => 0)) i = cell ∧
        changes (cellsAlong (sortedNodes partitions num_nodes) (partitions.getD (l - 1 - 1) fun _ => 0)) i = id := by
    intro id
    rw [exists_node_iff partitions]
    refine exists_congr fun i => and_congr_right fun less => ?_
    rw [numbered.at_place l (by lia) high i less,below i less]
  by_cases last : cell + 1 < numberAt (sortedNodes partitions num_nodes) (partitions.getD (l - 1) fun _ => 0) num_nodes
  · obtain ⟨b,insideB,entry',next,before⟩ := entries (cell + 1) last
    rw [below b insideB] at entry'
    exact ⟨_,_,entry,entry',fun id => by rw [meaning,within_iff above coarser insideB here first next before]⟩
  · have same : cell + 1 = numberAt (sortedNodes partitions num_nodes) (partitions.getD (l - 1) fun _ => 0) num_nodes := by lia
    rw [← same,below (num_nodes - 1) (by omega)] at final
    exact ⟨_,_,entry,final,fun id => by
      rw [meaning,within_last_iff some_node here first (by lia) insideA]⟩

end Places

/-- The constructor takes every input of up to fourteen levels, and what it builds represents the input. -/
theorem represents (packable : Packable partitions num_nodes lidx_to_num_cells) (some_level : partitions ≠ []) (some_node : 0 < num_nodes)
    (levels : partitions.length ≤ 14) (cells : ∀ num_cells ∈ lidx_to_num_cells, num_cells + 1 < 2 ^ 32) :
    ∃ packed, MultiLevelPartitionImpl partitions num_nodes lidx_to_num_cells = some packed ∧
      packed.GetNumberOfLevels = partitions.length + 1 ∧ Represents packed partitions num_nodes := by
  have size : lidx_to_num_cells.length = partitions.length := by rw [packable.counted,length_map]
  have few : lidx_to_num_cells.length + 1 < MAX_NUM_LEVEL := by
    rw [size,MAX_NUM_LEVEL]
    lia
  obtain ⟨offsets,found⟩ := makeOffsets_some lidx_to_num_cells 0 (by simpa using packable.fits)
  obtain ⟨level_data,made,number_of_levels⟩ : ∃ level_data, MakeLevelData lidx_to_num_cells = some level_data ∧
      level_data.num_level = partitions.length + 1 := by
    refine ⟨_,by rw [MakeLevelData,MakeLevelOffsets,found]; rfl,?_⟩
    rw [← size]
  have numbered := numbered_words packable made some_node
  obtain ⟨same,_,_,total,entries⟩ := addChildren_spec (sortedNodes partitions num_nodes)
    ⟨level_data,num_nodes,words level_data partitions num_nodes⟩ (by rw [sortedNodes_length]; exact some_node) partitions.tail 1 [0] []
  refine ⟨InitializePartitionIDs level_data partitions num_nodes,by rw [MultiLevelPartitionImpl,if_pos ⟨few,cells,some_level,some_node⟩,made]; rfl,?_⟩
  change (addChildren ⟨level_data,num_nodes,words level_data partitions num_nodes⟩ (sortedNodes partitions num_nodes)
      partitions.tail 1 [0] []).GetNumberOfLevels = _ ∧
    Represents (addChildren ⟨level_data,num_nodes,words level_data partitions num_nodes⟩ (sortedNodes partitions num_nodes)
      partitions.tail 1 [0] []) partitions num_nodes
  generalize addChildren ⟨level_data,num_nodes,words level_data partitions num_nodes⟩ (sortedNodes partitions num_nodes)
    partitions.tail 1 [0] [] = packed at same total entries ⊢
  have bound := children_le packable some_node few
  rw [sortedNodes_length] at total entries
  rw [length_nil,Nat.zero_add] at total
  rw [← total] at bound
  rw [← same] at numbered entries
  refine ⟨by rw [PartitionData.GetNumberOfLevels,same]; exact number_of_levels,?_,?_,?_⟩
  · exact fun l low high u insideU v insideV => cells_of_numbered numbered packable.nested low high insideU insideV
  · exact fun l low high id => ids_of_numbered numbered some_node low high id
  · intro l low high cell inside
    obtain ⟨first,last,begins,ends,meaning⟩ := children_of_numbered numbered packable.nested some_node low high inside
    obtain ⟨start,offset,block,found⟩ := entries (l - 2) (by rw [length_tail]; lia)
    have parent : (partitions.tail.getD (l - 2) fun _ => 0) = partitions.getD (l - 1) fun _ => 0 := by
      rw [getD_eq_getElem?_getD,getD_eq_getElem?_getD,getElem?_tail,show l - 2 + 1 = l - 1 by lia]
    rw [parent,← numbered.at_end l (by lia) high] at block found
    rw [show 1 + (l - 2) = l - 1 by lia] at found
    rw [length_singleton,show 1 + (l - 2) = l - 1 by lia] at offset
    refine ⟨first,last,?_,?_,meaning⟩
    · rw [PackedPartition.BeginChildren,offset,Nat.mod_add_mod,Nat.mod_eq_of_lt (by lia),found cell (by lia)]
      exact begins
    · rw [PackedPartition.EndChildren,offset,Nat.add_assoc,Nat.mod_add_mod,Nat.mod_eq_of_lt (by lia),found (cell + 1) (by lia)]
      exact ends

/-- Two levels of three nodes; the cells of the lower one are numbered along those of the higher one. -/
theorem represents_two_levels : ∃ packed,
    MultiLevelPartitionImpl [fun node => [7,5,7].getD node 0,fun node => [1,0,1].getD node 0] 3 [2,2] = some packed ∧
      packed.GetNumberOfLevels = 3 ∧ Represents packed [fun node => [7,5,7].getD node 0,fun node => [1,0,1].getD node 0] 3 :=
  represents ⟨by unfold Nested; decide,by decide,by decide⟩ (by simp) (by decide) (by simp) (by simp)

/-- Sixteen levels of one cell take sixteen bits only; the arrays of the levels have no place for them. -/
theorem too_many_levels : Packable (replicate 16 fun _ => 0) 1 (replicate 16 1) ∧
    ¬ ∃ packed, MultiLevelPartitionImpl (replicate 16 fun _ => 0) 1 (replicate 16 1) = some packed ∧
      Represents packed (replicate 16 fun _ => 0) 1 := by
  refine ⟨⟨?_,by decide,by decide⟩,?_⟩
  · unfold Nested
    rw [pairwise_replicate]
    simp
  · rintro ⟨packed,built,_⟩
    rw [MultiLevelPartitionImpl,if_neg (by decide)] at built
    simp at built

end Osrm.PartitionBuild
