import Mathlib.Data.Nat.Log
import Mathlib.Data.Nat.Bitwise
import Osrm.Typedefs

/-!
`partitioner::MultiLevelPartition`. The ids of the cells that hold a node, one for each level,
are packed into one number, the lowest level into the lowest bits. The highest level on which two
nodes are apart is then found from the highest bit in which their numbers differ.
-/
namespace Osrm.Partition
open Typedefs

abbrev LevelID := ℕ
abbrev CellID := ℕ
abbrev PartitionID := ℕ

def INVALID_LEVEL_ID : LevelID := 255
def NUM_PARTITION_BITS : ℕ := 64

/-- `LevelData`; level `l` has the index `l - 1`. -/
structure LevelData where
  num_level : ℕ
  lidx_to_offset : List ℕ
  lidx_to_mask : List PartitionID
  bit_to_level : ℕ → LevelID

/-- The loop of `MakeLevelOffsets`, which throws where the bits do not suffice; the last offset is a sentinel. -/
def makeOffsets (sum_bits : ℕ) : List ℕ → Option (List ℕ)
  | [] => some [sum_bits]
  | num_cells :: rest =>
    if sum_bits + Nat.clog 2 (num_cells + 1) > NUM_PARTITION_BITS then none
    else (makeOffsets (sum_bits + Nat.clog 2 (num_cells + 1)) rest).map (sum_bits :: ·)

def MakeLevelOffsets (lidx_to_num_cells : List ℕ) : Option (List ℕ) := makeOffsets 0 lidx_to_num_cells
/-- The bits of each level. -/
def MakeLevelMasks : List ℕ → List PartitionID
  | offset :: next_offset :: rest => ((2 ^ next_offset - 1) ^^^ (2 ^ offset - 1)) :: MakeLevelMasks (next_offset :: rest)
  | _ => []
/-- The level to which the highest differing bit belongs. -/
def MakeBitToLevel (level_offsets : List ℕ) (num_level : ℕ) : ℕ → LevelID :=
  (List.range (num_level - 1)).foldl (fun bit_to_level lidx idx =>
    if level_offsets.getD lidx 0 ≤ idx then lidx + 1 else bit_to_level idx) fun _ => 0
def MakeLevelData (lidx_to_num_cells : List ℕ) : Option LevelData :=
  (MakeLevelOffsets lidx_to_num_cells).map fun offsets =>
    ⟨lidx_to_num_cells.length + 1,offsets,MakeLevelMasks offsets,MakeBitToLevel offsets (lidx_to_num_cells.length + 1)⟩

/-- The data of a partition; a node has its number by its id, and the next one is the sentinel. -/
structure PartitionData where
  level_data : LevelData
  number_of_nodes : ℕ
  partition : NodeID → PartitionID

namespace PartitionData
variable (data : PartitionData)

def GetNumberOfLevels : ℕ := data.level_data.num_level
/-- The cell of a node on a level. -/
def GetCell (l : LevelID) (node : NodeID) : CellID :=
  (data.partition node &&& data.level_data.lidx_to_mask.getD (l - 1) 0) >>> data.level_data.lidx_to_offset.getD (l - 1) 0
def GetNumberOfCells (level : LevelID) : ℕ := data.GetCell level data.number_of_nodes
/-- The highest level on which the cells of two nodes differ. -/
def GetHighestDifferentLevel (first second : NodeID) : LevelID :=
  if data.partition first == data.partition second then 0
  else data.level_data.bit_to_level (data.partition first ^^^ data.partition second).log2
def GetQueryLevel (start target node : NodeID) : LevelID :=
  min (data.GetHighestDifferentLevel start node) (data.GetHighestDifferentLevel target node)

end PartitionData

/-- A partition whose numbers fit the bits of its levels and whose cells are nested and counted. -/
structure MultiLevelPartition extends PartitionData where
  lidx_to_num_cells : List ℕ
  made : MakeLevelData lidx_to_num_cells = some level_data
  packed : ∀ node, partition node < 2 ^ level_data.lidx_to_offset.getD lidx_to_num_cells.length 0
  nested : ∀ l, 1 ≤ l → l + 1 < level_data.num_level → ∀ x y,
    toPartitionData.GetCell l x = toPartitionData.GetCell l y →
      toPartitionData.GetCell (l + 1) x = toPartitionData.GetCell (l + 1) y
  counted : ∀ l, 1 ≤ l → l < level_data.num_level → ∀ node < number_of_nodes,
    toPartitionData.GetCell l node < toPartitionData.GetNumberOfCells l

/-! ### The bits of a level -/

theorem makeOffsets_le {sum_bits : ℕ} {nums offsets : List ℕ} (made : makeOffsets sum_bits nums = some offsets) :
    offsets.length = nums.length + 1 ∧ offsets.getD 0 0 = sum_bits ∧
      ∀ i < nums.length, offsets.getD i 0 ≤ offsets.getD (i + 1) 0 := by
  induction nums generalizing sum_bits offsets with
  | nil =>
    cases made
    simp
  | cons n rest ih =>
    rw [makeOffsets] at made
    split at made
    · simp at made
    · obtain ⟨later,found,rfl⟩ := Option.map_eq_some_iff.mp made
      obtain ⟨size,first,order⟩ := ih found
      refine ⟨by simp [size],rfl,?_⟩
      rintro (_ | i) below
      · simp only [List.getD_cons_zero,List.getD_cons_succ,first]
        omega
      · simpa using order i (by simpa using below)

theorem masks_at (offsets : List ℕ) (i : ℕ) (below : i + 1 < offsets.length) :
    (MakeLevelMasks offsets).getD i 0 = (2 ^ offsets.getD (i + 1) 0 - 1) ^^^ (2 ^ offsets.getD i 0 - 1) := by
  induction offsets generalizing i with
  | nil => simp at below
  | cons offset rest ih =>
    cases rest with
    | nil => simp at below
    | cons next rest =>
      cases i with
      | zero => simp [MakeLevelMasks]
      | succ i => simpa [MakeLevelMasks] using ih i (by simpa using below)

private theorem bitToLevel_spec (offsets : List ℕ) (n idx : ℕ) (first : offsets.getD 0 0 ≤ idx) :
    (1 ≤ n → 1 ≤ MakeBitToLevel offsets (n + 1) idx) ∧ MakeBitToLevel offsets (n + 1) idx ≤ n ∧
      (1 ≤ n → offsets.getD (MakeBitToLevel offsets (n + 1) idx - 1) 0 ≤ idx) ∧
      ∀ l, MakeBitToLevel offsets (n + 1) idx < l → l ≤ n → idx < offsets.getD (l - 1) 0 := by
  induction n with
  | zero => simp [MakeBitToLevel]; lia
  | succ n ih =>
    have next : MakeBitToLevel offsets (n + 1 + 1) idx =
        if offsets.getD n 0 ≤ idx then n + 1 else MakeBitToLevel offsets (n + 1) idx := by
      simp [MakeBitToLevel,List.range_succ]
    obtain ⟨low,high,at_,above⟩ := ih
    by_cases passed : offsets.getD n 0 ≤ idx
    · rw [next,if_pos passed]
      exact ⟨by lia,le_rfl,fun _ => passed,by lia⟩
    · rw [next,if_neg passed]
      have some_level : 1 ≤ n := by
        by_contra none_below
        obtain rfl : n = 0 := by lia
        exact passed first
      refine ⟨fun _ => low some_level,by lia,fun _ => at_ some_level,fun l less le => ?_⟩
      rcases Nat.lt_or_ge n l with top | inside
      · obtain rfl : l = n + 1 := by lia
        simpa using passed
      · exact above l less inside

theorem cut_testBit (p low high i : ℕ) :
    ((p &&& ((2 ^ high - 1) ^^^ (2 ^ low - 1))) >>> low).testBit i =
      (p.testBit (low + i) && decide (low + i < high)) := by
  rw [Nat.testBit_shiftRight,Nat.testBit_and,Nat.testBit_xor,Nat.testBit_two_pow_sub_one,Nat.testBit_two_pow_sub_one]
  simp

namespace MultiLevelPartition
variable (P : MultiLevelPartition) {x y z : NodeID} {l : LevelID}

private def offset (i : ℕ) : ℕ := P.level_data.lidx_to_offset.getD i 0

private theorem offsets_made : MakeLevelOffsets P.lidx_to_num_cells = some P.level_data.lidx_to_offset ∧
    P.level_data.num_level = P.lidx_to_num_cells.length + 1 ∧
    P.level_data.lidx_to_mask = MakeLevelMasks P.level_data.lidx_to_offset ∧
    P.level_data.bit_to_level = MakeBitToLevel P.level_data.lidx_to_offset (P.lidx_to_num_cells.length + 1) := by
  obtain ⟨offsets,made,same⟩ := Option.map_eq_some_iff.mp P.made
  rw [← same]
  exact ⟨made,rfl,rfl,rfl⟩

private theorem offset_mono {i j : ℕ} (le : i ≤ j) (below : j < P.level_data.num_level) : P.offset i ≤ P.offset j := by
  obtain ⟨made,levels,_⟩ := P.offsets_made
  obtain ⟨_,_,order⟩ := makeOffsets_le made
  induction j with
  | zero =>
    obtain rfl : i = 0 := by lia
    exact le_rfl
  | succ j ih =>
    rcases Nat.lt_or_ge j i with top | inside
    · obtain rfl : i = j + 1 := by lia
      exact le_rfl
    · exact (ih inside (by lia)).trans (order j (by lia))

private theorem cell_eq_iff (low : 1 ≤ l) (high : l < P.GetNumberOfLevels) : P.GetCell l x = P.GetCell l y ↔
    ∀ i, P.offset (l - 1) ≤ i → i < P.offset l → (P.partition x).testBit i = (P.partition y).testBit i := by
  obtain ⟨made,levels,masks,_⟩ := P.offsets_made
  obtain ⟨size,_⟩ := makeOffsets_le made
  have mask := masks_at P.level_data.lidx_to_offset (l - 1) (by simp only [PartitionData.GetNumberOfLevels] at high; lia)
  rw [show l - 1 + 1 = l by lia] at mask
  simp only [PartitionData.GetCell,masks,mask]
  constructor
  · intro same i above below
    have bit := congrArg (·.testBit (i - P.offset (l - 1))) same
    simp only [cut_testBit] at bit
    have back : P.level_data.lidx_to_offset.getD (l - 1) 0 + (i - P.offset (l - 1)) = i := by
      unfold offset at above ⊢
      omega
    rw [back] at bit
    rw [decide_eq_true (show i < P.level_data.lidx_to_offset.getD l 0 from below),Bool.and_true,Bool.and_true] at bit
    exact bit
  · intro agree
    apply Nat.eq_of_testBit_eq
    intro i
    rw [cut_testBit,cut_testBit]
    by_cases below : P.level_data.lidx_to_offset.getD (l - 1) 0 + i < P.level_data.lidx_to_offset.getD l 0
    · have bit := agree (P.level_data.lidx_to_offset.getD (l - 1) 0 + i) (Nat.le_add_right _ _) below
      rw [bit]
    · rw [decide_eq_false below,Bool.and_false,Bool.and_false]

private theorem lt_iff_above (low : 1 ≤ l) (high : l < P.GetNumberOfLevels) :
    P.GetHighestDifferentLevel x y < l ↔
      ∀ l', l ≤ l' → l' < P.GetNumberOfLevels → P.GetCell l' x = P.GetCell l' y := by
  by_cases same : P.partition x = P.partition y
  · have zero : P.GetHighestDifferentLevel x y = 0 := by simp [PartitionData.GetHighestDifferentLevel,same]
    rw [zero]
    exact iff_of_true (by lia) fun l' _ _ => by simp [PartitionData.GetCell,same]
  obtain ⟨made,levels,_,bits⟩ := P.offsets_made
  obtain ⟨_,first,_⟩ := makeOffsets_le made
  have apart : P.partition x ^^^ P.partition y ≠ 0 := by simpa [Nat.xor_eq_zero_iff] using same
  have level : P.GetHighestDifferentLevel x y =
      P.level_data.bit_to_level (P.partition x ^^^ P.partition y).log2 := by
    simp [PartitionData.GetHighestDifferentLevel,same]
  generalize top : (P.partition x ^^^ P.partition y).log2 = m at level
  have differs : (P.partition x).testBit m ≠ (P.partition y).testBit m := by
    have bit := Nat.testBit_log2 apart
    rw [top,Nat.testBit_xor] at bit
    simpa using bit
  have agrees : ∀ i > m, (P.partition x).testBit i = (P.partition y).testBit i := by
    intro i above
    have small : P.partition x ^^^ P.partition y < 2 ^ i :=
      (Nat.log2_lt apart).mp (by omega)
    have bit := Nat.testBit_lt_two_pow small
    rw [Nat.testBit_xor] at bit
    simpa using bit
  obtain ⟨known,bounded,reached,beyond⟩ := bitToLevel_spec P.level_data.lidx_to_offset P.lidx_to_num_cells.length m
    (first.le.trans (Nat.zero_le m))
  rw [← bits,← level] at known bounded reached beyond
  simp only [PartitionData.GetNumberOfLevels] at high ⊢
  have some_level : 1 ≤ P.lidx_to_num_cells.length := by lia
  have inside : m < P.offset (P.GetHighestDifferentLevel x y) := by
    rcases Nat.lt_or_ge (P.GetHighestDifferentLevel x y) P.lidx_to_num_cells.length with below | last
    · exact beyond (P.GetHighestDifferentLevel x y + 1) (by lia) below
    · have all : P.GetHighestDifferentLevel x y = P.lidx_to_num_cells.length := by lia
      rw [all]
      by_contra outside
      have far : P.offset P.lidx_to_num_cells.length ≤ m := by simpa using outside
      have fits : ∀ node, P.partition node < 2 ^ m :=
        fun node => (P.packed node).trans_le (Nat.pow_le_pow_right (by decide) far)
      exact differs ((Nat.testBit_lt_two_pow (fits x)).trans (Nat.testBit_lt_two_pow (fits y)).symm)
  constructor
  · intro less l' le below
    refine (P.cell_eq_iff (by lia) below).mpr fun i above _ => agrees i ?_
    have step := P.offset_mono (show P.GetHighestDifferentLevel x y ≤ l' - 1 by lia) (by lia)
    lia
  · intro together
    by_contra above
    have same_cell := together (P.GetHighestDifferentLevel x y) (by lia) (by lia)
    exact differs ((P.cell_eq_iff (known some_level) (by simp only [PartitionData.GetNumberOfLevels]; lia)).mp same_cell m
      (reached some_level) inside)

/-- Below a level nodes differ exactly when they share its cell. -/
theorem highest_lt_iff (low : 1 ≤ l) (high : l < P.GetNumberOfLevels) :
    P.GetHighestDifferentLevel x y < l ↔ P.GetCell l x = P.GetCell l y := by
  rw [P.lt_iff_above low high]
  refine ⟨fun all => all l le_rfl high,fun here l' le => ?_⟩
  induction l', le using Nat.le_induction with
  | base => exact fun _ => here
  | succ l' above ih => exact fun below => P.nested l' (by lia) below x y (ih (by lia))

theorem highest_lt : P.GetHighestDifferentLevel x y < P.GetNumberOfLevels := by
  obtain ⟨made,levels,_,bits⟩ := P.offsets_made
  obtain ⟨_,first,_⟩ := makeOffsets_le made
  unfold PartitionData.GetHighestDifferentLevel PartitionData.GetNumberOfLevels
  split
  · lia
  · have spec := bitToLevel_spec P.level_data.lidx_to_offset P.lidx_to_num_cells.length
      (P.partition x ^^^ P.partition y).log2 (first.le.trans (Nat.zero_le _))
    rw [bits,levels]
    lia

@[simp] theorem highest_self : P.GetHighestDifferentLevel x x = 0 := by simp [PartitionData.GetHighestDifferentLevel]

theorem highest_comm : P.GetHighestDifferentLevel x y = P.GetHighestDifferentLevel y x := by
  unfold PartitionData.GetHighestDifferentLevel
  rw [Nat.xor_comm,Bool.beq_comm]

theorem highest_trans (one : P.GetHighestDifferentLevel x y < l) (two : P.GetHighestDifferentLevel y z < l) :
    P.GetHighestDifferentLevel x z < l := by
  rcases Nat.lt_or_ge l P.GetNumberOfLevels with high | beyond
  · have low : 1 ≤ l := by lia
    rw [P.highest_lt_iff low high] at one two ⊢
    exact one.trans two
  · exact P.highest_lt.trans_le beyond

theorem highest_eq (near : P.GetHighestDifferentLevel x y < P.GetHighestDifferentLevel z x) :
    P.GetHighestDifferentLevel z y = P.GetHighestDifferentLevel z x := by
  have back : P.GetHighestDifferentLevel y x < P.GetHighestDifferentLevel z x := by rwa [P.highest_comm]
  rcases lt_trichotomy (P.GetHighestDifferentLevel z y) (P.GetHighestDifferentLevel z x) with less | same | more
  · exact absurd (P.highest_trans less back) (lt_irrefl _)
  · exact same
  · exact absurd (P.highest_trans more (near.trans more)) (lt_irrefl _)

end MultiLevelPartition

end Osrm.Partition
