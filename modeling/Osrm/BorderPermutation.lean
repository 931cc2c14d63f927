import Osrm.PartitionBuild
import Osrm.Permutation
import Osrm.Scan

/-!
`makePermutation` of `partitioner/renumber.cpp`. The nodes are sorted by the highest level on which they are at a border, the
highest level first, and within one level by their cells, so that the border nodes of every level come first.
-/
namespace Osrm.BorderPermutation
open List
open Typedefs Changes Osrm.Partition PartitionBuild Permutation

/-- The nodes of a graph with the targets of their edges. -/
structure Graph where
  GetNumberOfNodes : ℕ
  targets : NodeID → List NodeID
  bounded : ∀ node < GetNumberOfNodes, ∀ target ∈ targets node, target < GetNumberOfNodes

/-- `irange<LevelID>`; a level is a number of eight bits, and so is the end of the range. -/
def irange (first last : ℕ) : List LevelID :=
  (List.range ((last % 2 ^ 8 + 2 ^ 8 - first % 2 ^ 8) % 2 ^ 8)).map fun i => (first + i) % 2 ^ 8

section Levels
variable (graph : Graph)

/-- The body of the loop over the edges of a node. -/
def markEdge (level : LevelID) (partition : NodeID → CellID) (node : NodeID) (border_level : NodeID → LevelID) (target : NodeID) :
    NodeID → LevelID :=
  if partition node ≠ partition target then Function.update (Function.update border_level node level) target level else border_level
def markLevel (partitions : List (NodeID → CellID)) (border_level : NodeID → LevelID) (level : LevelID) : NodeID → LevelID :=
  (List.range graph.GetNumberOfNodes).foldl
    (fun border_level node => (graph.targets node).foldl (markEdge level (partitions.getD (level - 1) fun _ => 0) node) border_level)
    border_level

def getHighestBorderLevel (partitions : List (NodeID → CellID)) : NodeID → LevelID :=
  (irange 1 (partitions.length + 1)).foldl (markLevel graph partitions) fun _ => 0

/-- The nodes in their new order. -/
def makeOrdering (partitions : List (NodeID → CellID)) : List NodeID :=
  let ordering := partitions.foldl (fun ordering partition => sortBy partition ordering) (List.range graph.GetNumberOfNodes)
  let border_level := getHighestBorderLevel graph partitions
  ordering.mergeSort fun lhs rhs => !(border_level rhs > border_level lhs)

def makePermutation (partitions : List (NodeID → CellID)) : List NodeID := orderingToPermutation (makeOrdering graph partitions)

end Levels

section Border
variable {graph : Graph} {partitions : List (NodeID → CellID)} {partition : NodeID → CellID} {level : LevelID}
  {before after : NodeID → LevelID} {hit : NodeID → Prop} {u v : NodeID}

def Adjacent (graph : Graph) (u v : NodeID) : Prop :=
  u < graph.GetNumberOfNodes ∧ v ∈ graph.targets u ∨ v < graph.GetNumberOfNodes ∧ u ∈ graph.targets v
def IsBorder (graph : Graph) (partition : NodeID → CellID) (v : NodeID) : Prop := ∃ w, Adjacent graph v w ∧ partition v ≠ partition w
def partitionAt (partitions : List (NodeID → CellID)) (level : LevelID) : NodeID → CellID := partitions.getD (level - 1) fun _ => 0

open Classical in
/-- The highest level on which a node has a neighbour in another cell, and 0 where there is none. -/
noncomputable def highestBorderLevel (graph : Graph) (partitions : List (NodeID → CellID)) (v : NodeID) : LevelID :=
  Nat.findGreatest (fun level => IsBorder graph (partitionAt partitions level) v) partitions.length
def Marks (level : LevelID) (hit : NodeID → Prop) (before after : NodeID → LevelID) : Prop :=
  ∀ v, (hit v → after v = level) ∧ (¬ hit v → after v = before v)

private theorem marks_foldl {β : Type} {step : (NodeID → LevelID) → β → NodeID → LevelID} {hits : β → NodeID → Prop}
    (marks : ∀ before item, Marks level (hits item) before (step before item)) (items : List β) (before : NodeID → LevelID) :
    Marks level (fun v => ∃ item ∈ items, hits item v) before (items.foldl step before) := by
  induction items generalizing before with
  | nil => simp [Marks]
  | cons item items ih =>
    intro v
    obtain ⟨marked,kept⟩ := ih (step before item) v
    obtain ⟨now,still⟩ := marks before item v
    rw [foldl_cons]
    by_cases later : ∃ item ∈ items, hits item v
    · refine ⟨fun _ => marked later,fun none => absurd ?_ none⟩
      obtain ⟨other,member,known⟩ := later
      exact ⟨other,mem_cons_of_mem _ member,known⟩
    · rw [kept later]
      constructor
      · rintro ⟨other,member,known⟩
        cases mem_cons.mp member with
        | inl same => exact now (same ▸ known)
        | inr behind => exact absurd ⟨other,behind,known⟩ later
      · exact fun none => still fun known => none ⟨item,mem_cons_self,known⟩

private theorem marks_edge (level : LevelID) (partition : NodeID → CellID) (node : NodeID) (before : NodeID → LevelID) (target : NodeID) :
    Marks level (fun v => partition node ≠ partition target ∧ (v = node ∨ v = target)) before
      (markEdge level partition node before target) := by
  intro v
  by_cases apart : partition node ≠ partition target
  · have step : markEdge level partition node before target = Function.update (Function.update before node level) target level :=
      if_pos apart
    simp only [step,apart,true_and,not_or,ne_eq,not_false_eq_true]
    constructor
    · rintro (rfl | rfl)
      · simp [Function.update_apply]
      · simp
    · exact fun other => by rw [Function.update_of_ne other.2,Function.update_of_ne other.1]
  · simp [markEdge,apart]

private theorem marks_level (graph : Graph) (partitions : List (NodeID → CellID)) (before : NodeID → LevelID) (level : LevelID) :
    Marks level (IsBorder graph (partitionAt partitions level)) before (markLevel graph partitions before level) := by
  have marks := marks_foldl (fun before node => marks_foldl (marks_edge level (partitionAt partitions level) node)
    (graph.targets node) before) (List.range graph.GetNumberOfNodes) before
  intro v
  obtain ⟨marked,kept⟩ := marks v
  have same : IsBorder graph (partitionAt partitions level) v ↔ ∃ node ∈ List.range graph.GetNumberOfNodes,
      ∃ target ∈ graph.targets node, partitionAt partitions level node ≠ partitionAt partitions level target ∧ (v = node ∨ v = target) := by
    simp only [mem_range]
    constructor
    · rintro ⟨w,⟨inside,edge⟩ | ⟨inside,edge⟩,apart⟩
      · exact ⟨v,inside,w,edge,apart,.inl rfl⟩
      · exact ⟨w,inside,v,edge,apart.symm,.inr rfl⟩
    · rintro ⟨node,inside,target,edge,apart,rfl | rfl⟩
      · exact ⟨target,.inl ⟨inside,edge⟩,apart⟩
      · exact ⟨node,.inr ⟨inside,edge⟩,apart.symm⟩
  exact ⟨fun border => marked (same.mp border),fun inner => kept fun found => inner (same.mpr found)⟩

private theorem irange_levels {count : ℕ} (levels : count ≤ 255) : irange 1 (count + 1) = (List.range count).map (· + 1) := by
  have number : ((count + 1) % 2 ^ 8 + 2 ^ 8 - 1 % 2 ^ 8) % 2 ^ 8 = count := by omega
  rw [irange,number]
  refine map_congr_left fun i member => ?_
  have below := mem_range.mp member
  rw [Nat.mod_eq_of_lt (by omega),Nat.add_comm]

private theorem getHighestBorderLevel_eq (levels : partitions.length ≤ 255) :
    getHighestBorderLevel graph partitions v = highestBorderLevel graph partitions v := by
  classical
  rw [getHighestBorderLevel,irange_levels levels,highestBorderLevel]
  generalize partitions.length = count
  induction count with
  | zero => rfl
  | succ count ih =>
    rw [range_succ,map_append,foldl_append,Nat.findGreatest_succ]
    obtain ⟨marked,kept⟩ := marks_level graph partitions
      (((List.range count).map (· + 1)).foldl (markLevel graph partitions) fun _ => 0) (count + 1) v
    by_cases border : IsBorder graph (partitionAt partitions (count + 1)) v
    · rw [if_pos border]
      exact marked border
    · rw [if_neg border,← ih]
      exact kept border

end Border

/-! ### The order of the nodes -/

section Order
variable {graph : Graph} {partitions : List (NodeID → CellID)} {u v : NodeID} {level : LevelID}

def cellKey (partitions : List (NodeID → CellID)) (v : NodeID) : List ℕ := (partitions.reverse.map fun partition => partition v) ++ [v]

private theorem sorted_by_cells (partitions : List (NodeID → CellID)) (num_nodes : ℕ) :
    (partitions.foldl (fun ordering partition => sortBy partition ordering) (List.range num_nodes)).Pairwise
      fun a b => cellKey partitions a < cellKey partitions b := by
  induction partitions using List.reverseRecOn with
  | nil => exact pairwise_lt_range.imp fun less => cons_lt_cons_iff.mpr (.inl less)
  | append_singleton partitions partition ih =>
    rw [foldl_append,foldl_cons,foldl_nil]
    refine (Scan.mergeSort_refines ?_ ?_ ih).imp fun {a b} order => ?_
    · simpa using fun a b c => le_trans
    · simpa using fun a b => le_total (partition a) (partition b)
    simp only [decide_eq_true_eq] at order
    simp only [cellKey,reverse_append,reverse_singleton,map_cons,cons_append,cons_lt_cons_iff]
    rcases Nat.lt_or_eq_of_le order.1 with less | same
    · exact .inl less
    · exact .inr ⟨same,order.2 same.ge⟩

/-- What the order of the new ids goes by. -/
def Before (graph : Graph) (partitions : List (NodeID → CellID)) (u v : NodeID) : Prop :=
  highestBorderLevel graph partitions v < highestBorderLevel graph partitions u ∨
    highestBorderLevel graph partitions u = highestBorderLevel graph partitions v ∧ cellKey partitions u < cellKey partitions v

private theorem not_before (first : Before graph partitions u v) : ¬ Before graph partitions v u := by
  rintro (less | ⟨same,later⟩)
  · cases first with
    | inl more => exact absurd more less.not_gt
    | inr level => exact absurd level.1 less.ne
  · cases first with
    | inl more => exact absurd same more.ne
    | inr level => exact lt_asymm level.2 later

private theorem makeOrdering_before (levels : partitions.length ≤ 255) :
    (makeOrdering graph partitions).Pairwise (Before graph partitions) := by
  unfold makeOrdering
  refine (Scan.mergeSort_refines ?_ ?_ (sorted_by_cells partitions graph.GetNumberOfNodes)).imp fun {a b} order => ?_
  · simpa using fun a b c one two => le_trans two one
  · simpa using fun a b => le_total (getHighestBorderLevel graph partitions b) (getHighestBorderLevel graph partitions a)
  simp only [Bool.not_eq_true',decide_eq_false_iff_not,gt_iff_lt,not_lt,getHighestBorderLevel_eq levels] at order
  rcases Nat.lt_or_eq_of_le order.1 with less | same
  · exact .inl less
  · exact .inr ⟨same.symm,order.2 same.ge⟩

private theorem makeOrdering_perm (graph : Graph) (partitions : List (NodeID → CellID)) :
    (makeOrdering graph partitions).Perm (List.range graph.GetNumberOfNodes) :=
  (mergeSort_perm _ _).trans sortedNodes_perm

private theorem makeOrdering_bijective (graph : Graph) (partitions : List (NodeID → CellID)) : Bijective (makeOrdering graph partitions) := by
  have perm := makeOrdering_perm graph partitions
  refine ⟨perm.nodup_iff.mpr nodup_range,fun node member => ?_⟩
  rw [perm.length_eq,length_range]
  exact mem_range.mp (perm.mem_iff.mp member)

private theorem makeOrdering_length : (makeOrdering graph partitions).length = graph.GetNumberOfNodes := by
  rw [(makeOrdering_perm graph partitions).length_eq,length_range]

private theorem makePermutation_lt_iff (levels : partitions.length ≤ 255) (insideU : u < graph.GetNumberOfNodes) (insideV : v < graph.GetNumberOfNodes) :
    (makePermutation graph partitions).getD u 0 < (makePermutation graph partitions).getD v 0 ↔ Before graph partitions u v := by
  have bijective := makeOrdering_bijective graph partitions
  have before : (makeOrdering graph partitions).Pairwise (Before graph partitions) := makeOrdering_before levels
  have ordered := pairwise_iff_getElem.mp before
  have place : ∀ node < graph.GetNumberOfNodes, ∃ i, ∃ inside : i < (makeOrdering graph partitions).length,
      (makeOrdering graph partitions)[i] = node ∧ (makePermutation graph partitions).getD node 0 = i := by
    intro node inside
    obtain ⟨i,below,rfl⟩ := bijective.surjective (by rwa [makeOrdering_length])
    refine ⟨i,below,(getD_eq_getElem _ _ below).symm,?_⟩
    rw [makePermutation,getD_eq_getElem?_getD,orderingToPermutation_ordering bijective below,Option.getD_some]
  obtain ⟨i,belowI,atI,newI⟩ := place u insideU
  obtain ⟨j,belowJ,atJ,newJ⟩ := place v insideV
  rw [newI,newJ]
  constructor
  · intro less
    have first := ordered i j belowI belowJ less
    rwa [atI,atJ] at first
  · intro first
    by_contra late
    rcases Nat.lt_or_eq_of_le (not_lt.mp late) with less | same
    · have other := ordered j i belowJ belowI less
      rw [atI,atJ] at other
      exact not_before first other
    · subst same
      rw [← atI,← atJ] at first
      exact not_before first first

private theorem isBorder_iff (nested : Nested partitions graph.GetNumberOfNodes) (low : 1 ≤ level) (high : level ≤ partitions.length)
    (inside : v < graph.GetNumberOfNodes) :
    IsBorder graph (partitionAt partitions level) v ↔ level ≤ highestBorderLevel graph partitions v := by
  classical
  constructor
  · exact fun border => Nat.le_findGreatest high border
  · intro le
    obtain ⟨w,edge,apart⟩ : IsBorder graph (partitionAt partitions (highestBorderLevel graph partitions v)) v :=
      Nat.findGreatest_of_ne_zero (P := fun level => IsBorder graph (partitionAt partitions level) v) rfl (by lia)
    refine ⟨w,edge,fun same => apart ?_⟩
    have insideW : w < graph.GetNumberOfNodes := by
      cases edge with
      | inl out => exact graph.bounded v out.1 w out.2
      | inr back => exact back.1
    exact nested.lift low le (Nat.findGreatest_le _) inside insideW same

private theorem border_nodes_below (nested : Nested partitions graph.GetNumberOfNodes) (levels : partitions.length ≤ 255) (low : 1 ≤ level)
    (high : level ≤ partitions.length) : ∃ count, ∀ v < graph.GetNumberOfNodes,
      IsBorder graph (partitionAt partitions level) v ↔ (makePermutation graph partitions).getD v 0 < count := by
  classical
  by_cases all : ∃ id, ∃ v < graph.GetNumberOfNodes, (makePermutation graph partitions).getD v 0 = id ∧
      ¬ IsBorder graph (partitionAt partitions level) v
  · -- the first node that is not at a border
    obtain ⟨w,insideW,here,inner⟩ := Nat.find_spec all
    refine ⟨Nat.find all,fun v inside => ⟨fun border => ?_,fun below => ?_⟩⟩
    · rw [isBorder_iff nested low high inside] at border
      rw [isBorder_iff nested low high insideW,not_le] at inner
      rw [← here,makePermutation_lt_iff levels inside insideW]
      exact .inl (inner.trans_le border)
    · by_contra outer
      exact Nat.find_min all below ⟨v,inside,rfl,outer⟩
  · refine ⟨graph.GetNumberOfNodes,fun v inside => iff_of_true ?_ ?_⟩
    · by_contra inner
      exact all ⟨_,v,inside,rfl,inner⟩
    · have bijective := makeOrdering_bijective graph partitions
      have size := orderingToPermutation_length bijective
      rw [makeOrdering_length] at size
      have below := (orderingToPermutation_bijective bijective).lt (by rwa [size])
      rwa [size] at below

structure BorderFirst (graph : Graph) (partitions : List (NodeID → CellID)) (permutation : List NodeID) : Prop where
  bijective : Bijective permutation
  length : permutation.length = graph.GetNumberOfNodes
  border : ∀ u < graph.GetNumberOfNodes, ∀ v < graph.GetNumberOfNodes,
    highestBorderLevel graph partitions v < highestBorderLevel graph partitions u → permutation.getD u 0 < permutation.getD v 0
  within : ∀ u < graph.GetNumberOfNodes, ∀ v < graph.GetNumberOfNodes,
    highestBorderLevel graph partitions u = highestBorderLevel graph partitions v →
      (permutation.getD u 0 < permutation.getD v 0 ↔ cellKey partitions u < cellKey partitions v)
  beginning : ∀ level, 1 ≤ level → level ≤ partitions.length → ∃ count, ∀ v < graph.GetNumberOfNodes,
    IsBorder graph (partitionAt partitions level) v ↔ permutation.getD v 0 < count

/-- The nodes are renumbered with the border nodes of every level first. -/
theorem border_nodes_first (nested : Nested partitions graph.GetNumberOfNodes) (levels : partitions.length ≤ 255) :
    BorderFirst graph partitions (makePermutation graph partitions) := by
  have bijective := makeOrdering_bijective graph partitions
  refine ⟨orderingToPermutation_bijective bijective,?_,?_,?_,fun level low high => border_nodes_below nested levels low high⟩
  · rw [makePermutation,orderingToPermutation_length bijective,makeOrdering_length]
  · intro u insideU v insideV higher
    exact (makePermutation_lt_iff levels insideU insideV).mpr (.inl higher)
  · intro u insideU v insideV same
    rw [makePermutation_lt_iff levels insideU insideV,Before,or_iff_right (by rw [same]; exact lt_irrefl _),and_iff_right same]

end Order

def row : Graph := ⟨3,fun node => if node = 0 then [1] else if node = 1 then [0,2] else [1],by decide⟩

theorem border_nodes_first_row : BorderFirst row [fun node => if node < 2 then 0 else 1]
    (makePermutation row [fun node => if node < 2 then 0 else 1]) :=
  border_nodes_first (pairwise_singleton _ _) (by decide)

end Osrm.BorderPermutation
