import Osrm.CellStorage
import Osrm.Scan

/-!
How `partitioner::CellStorage` lays out its cells: the boundary nodes of all cells in two arrays, level by level and
cell by cell, and a block for the values of each cell, the product of its two numbers of boundary nodes.
-/
namespace Osrm.CellLayout
open Option
open List hiding ranges
open Typedefs Osrm.Partition EdgeBasedGraph LevelGraph Scan
open CellStorage (is_boundary_node is_source_node is_destination_node)

def INVALID_VALUE_OFFSET : ℕ := 2 ^ 64 - 1
def INVALID_BOUNDARY_OFFSET : ℕ := 2 ^ 64 - 1

structure CellData where
  value_offset : ℕ
  source_boundary_offset : ℕ
  destination_boundary_offset : ℕ
  num_source_nodes : ℕ
  num_destination_nodes : ℕ
  deriving DecidableEq, Repr

namespace CellData

/-- A cell as `cells.resize` makes it. -/
def unset : CellData := ⟨INVALID_VALUE_OFFSET,INVALID_BOUNDARY_OFFSET,INVALID_BOUNDARY_OFFSET,0,0⟩
/-- `num_source_nodes * num_destination_nodes`, a product of two numbers of 32 bits. -/
def product (cell : CellData) : ℕ := cell.num_source_nodes * cell.num_destination_nodes % 2 ^ 32
def size (cell : CellData) : ℕ := cell.num_source_nodes * cell.num_destination_nodes

def setSource (value offset : ℕ) (cell : CellData) : CellData :=
  { cell with num_source_nodes := value, source_boundary_offset := offset }
def setDestination (value offset : ℕ) (cell : CellData) : CellData :=
  { cell with num_destination_nodes := value, destination_boundary_offset := offset }

end CellData

/-- The members of `CellStorage`. -/
structure Storage where
  source_boundary : List NodeID
  destination_boundary : List NodeID
  cells : List CellData
  level_to_cell_offset : List ℕ
  deriving DecidableEq, Repr

def cellLevels (P : MultiLevelPartition) : List LevelID := List.range' 1 (P.GetNumberOfLevels - 1)

/-- The loop that counts the cells, with a counter of 32 bits. -/
def levelToCellOffset (P : MultiLevelPartition) : List LevelID → ℕ → List ℕ
  | [], number_of_cells => [number_of_cells]
  | level :: levels, number_of_cells =>
    number_of_cells :: levelToCellOffset P levels ((number_of_cells + P.GetNumberOfCells level) % 2 ^ 32)

def pairLe (a b : CellID × NodeID) : Bool := a.1 < b.1 || a.1 == b.1 && a.2 ≤ b.2

section
variable {P : MultiLevelPartition} (graph : MultiLevelGraph P)

/-- The boundary nodes of a level with their cells, those with an edge into the cell. -/
def levelSourceBoundary (level : LevelID) : List (CellID × NodeID) :=
  ((List.range graph.number_of_nodes).filter fun node => is_boundary_node graph level node && is_source_node graph level node).map
    fun node => (P.GetCell level node,node)

/-- Those with an edge out of the cell; a node without either is kept here. -/
def levelDestinationBoundary (level : LevelID) : List (CellID × NodeID) :=
  ((List.range graph.number_of_nodes).filter fun node => is_boundary_node graph level node &&
    (is_destination_node graph level node || !is_source_node graph level node && !is_destination_node graph level node)).map
    fun node => (P.GetCell level node,node)

/-- `insert_cell_boundary`: the cells and one of the arrays after the nodes of a cell. -/
def insertCellBoundary (level_offset : ℕ) (set : ℕ → ℕ → CellData → CellData) (state : List CellData × List NodeID) :
    List (CellID × NodeID) → List CellData × List NodeID
  | [] => state
  | first :: rest =>
    (state.1.modify (level_offset + first.1) (set ((first :: rest).length % 2 ^ 32) state.2.length),
      state.2 ++ (first :: rest).map (·.2))

def insertBoundary (level_offset : ℕ) (set : ℕ → ℕ → CellData → CellData) (state : List CellData × List NodeID)
    (boundary : List (CellID × NodeID)) : List CellData × List NodeID :=
  (ranges (·.1) (boundary.mergeSort pairLe)).foldl (insertCellBoundary level_offset set) state

/-- The body of the loop over the levels. -/
def insertLevel (storage : Storage) (level : LevelID) : Storage :=
  let level_offset := storage.level_to_cell_offset.getD (level - 1) 0
  let sources := insertBoundary level_offset CellData.setSource (storage.cells,storage.source_boundary)
    (levelSourceBoundary graph level)
  let destinations := insertBoundary level_offset CellData.setDestination (sources.1,storage.destination_boundary)
    (levelDestinationBoundary graph level)
  { storage with source_boundary := sources.2, destination_boundary := destinations.2, cells := destinations.1 }

/-- The last loop; `ValueOffset` has 64 bits. -/
def setValueOffsets : ℕ → List CellData → List CellData
  | _, [] => []
  | value_offset, cell :: cells =>
    { cell with value_offset } :: setValueOffsets ((value_offset + cell.product) % 2 ^ 64) cells

/-- The constructor. -/
def Storage.build : Storage :=
  let level_to_cell_offset := levelToCellOffset P (cellLevels P) 0
  let filled := (cellLevels P).foldl (insertLevel graph)
    ⟨[],[],replicate (level_to_cell_offset.getLastD 0) .unset,level_to_cell_offset⟩
  { filled with cells := setValueOffsets 0 filled.cells }

end

namespace Storage
variable (storage : Storage)

/-- The size of the arrays of `MakeMetric`. -/
def metricSize : ℕ :=
  match storage.cells.getLast? with
  | none => 0
  | some last_cell => (last_cell.value_offset + last_cell.product) % 2 ^ 64 + 1

/-- The data of a cell; `none` stands for an index outside of the array. -/
def cell (level : LevelID) (id : CellID) : Option CellData :=
  storage.cells[storage.level_to_cell_offset.getD (level - 1) 0 + id]?
def GetSourceNodes (cell : CellData) : List NodeID :=
  (storage.source_boundary.drop cell.source_boundary_offset).take cell.num_source_nodes
def GetDestinationNodes (cell : CellData) : List NodeID :=
  (storage.destination_boundary.drop cell.destination_boundary_offset).take cell.num_destination_nodes

end Storage

/-! ### The nodes of the cells of a level -/

variable {pairs : List (CellID × NodeID)} {lo : ℕ} {set : ℕ → ℕ → CellData → CellData}

/-- The nodes of the cells, cell by cell; a cell that has none keeps what was stored for it. -/
theorem insertCellBoundary_spec (sorted : pairs.Pairwise fun a b => a.1 ≤ b.1) (cells : List CellData) (boundary : List NodeID) :
    ((ranges (·.1) pairs).foldl (insertCellBoundary lo set) (cells,boundary)).2 = boundary ++ pairs.map (·.2) ∧
    (∀ i < lo, ((ranges (·.1) pairs).foldl (insertCellBoundary lo set) (cells,boundary)).1[i]? = cells[i]?) ∧
    ∀ c, ((ranges (·.1) pairs).foldl (insertCellBoundary lo set) (cells,boundary)).1[lo + c]? =
      if pairs.countP (·.1 == c) = 0 then cells[lo + c]?
      else cells[lo + c]?.map (set (pairs.countP (·.1 == c) % 2 ^ 32) (boundary.length + pairs.countP (·.1 < c))) := by
  induction pairs using ranges.induct (fun pair : CellID × NodeID => pair.1) generalizing cells boundary with
  | case1 => simp [ranges]
  | case2 first rest ih =>
    obtain ⟨whole,here,above⟩ := ranges_cut sorted
    have order := (pairwise_cons.mp sorted).2
    rw [ranges,foldl_cons]
    have tail := order.sublist (dropWhile_sublist fun pair => pair.1 == first.1)
    rw [whole]
    generalize rest.dropWhile (fun pair => pair.1 == first.1) = later at ih above tail ⊢
    generalize block_eq : (first :: rest.takeWhile fun pair => pair.1 == first.1) = block at here ⊢
    have step : insertCellBoundary lo set (cells,boundary) block =
        (cells.modify (lo + first.1) (set (block.length % 2 ^ 32) boundary.length),boundary ++ block.map (·.2)) := by
      rw [← block_eq,insertCellBoundary]
    have some : block.length ≠ 0 := by simp [← block_eq]
    obtain ⟨nodes,below,at_⟩ := ih tail (cells.modify (lo + first.1) (set (block.length % 2 ^ 32) boundary.length))
      (boundary ++ block.map (·.2))
    rw [step]
    refine ⟨?_,?_,?_⟩
    · rw [nodes,map_append,append_assoc]
    · intro i less
      rw [below i less,getElem?_modify_ne _ _ (by lia)]
    · intro c
      rw [at_ c,countP_append,countP_append]
      by_cases same : c = first.1
      · subst same
        have all : block.countP (fun pair => pair.1 == first.1) = block.length := countP_eq_length.mpr (by simpa using here)
        have none : later.countP (fun pair => pair.1 == first.1) = 0 :=
          countP_eq_zero.mpr fun pair member => by simpa using (above pair member).ne'
        have before : block.countP (fun pair => pair.1 < first.1) = 0 :=
          countP_eq_zero.mpr fun pair member => by simp [here pair member]
        have before' : later.countP (fun pair => pair.1 < first.1) = 0 :=
          countP_eq_zero.mpr fun pair member => by simpa using (above pair member).le
        rw [all,none,before,before',if_pos rfl,if_neg (by simpa using some),getElem?_modify_eq]
        simp
      · have none : block.countP (fun pair => pair.1 == c) = 0 :=
          countP_eq_zero.mpr fun pair member => by simpa [here pair member] using Ne.symm same
        rw [none,Nat.zero_add,getElem?_modify_ne _ _ (by lia)]
        by_cases empty : later.countP (fun pair => pair.1 == c) = 0
        · rw [if_pos empty,if_pos empty]
        · obtain ⟨pair,member,key⟩ := countP_pos_iff.mp (Nat.pos_of_ne_zero empty)
          have less := above pair member
          have all : block.countP (fun pair => pair.1 < c) = block.length := by
            refine countP_eq_length.mpr fun other inside => ?_
            simp only [beq_iff_eq] at key
            simpa [here other inside,key] using less
          rw [if_neg empty,if_neg empty,all,length_append,length_map,Nat.add_assoc]

private theorem pairLe_trans (a b c : CellID × NodeID) (one : pairLe a b = true) (two : pairLe b c = true) : pairLe a c = true := by
  simp only [pairLe,Bool.or_eq_true,Bool.and_eq_true,decide_eq_true_eq,beq_iff_eq] at one two ⊢
  lia

private theorem pairLe_total (a b : CellID × NodeID) : (pairLe a b || pairLe b a) = true := by
  simp only [pairLe,Bool.or_eq_true,Bool.and_eq_true,decide_eq_true_eq,beq_iff_eq]
  lia

def nodesOf (cellOf : NodeID → CellID) (nodes : List NodeID) (id : CellID) : List NodeID := nodes.filter fun node => cellOf node == id

private theorem sorted_nodes (cellOf : NodeID → CellID) {nodes : List NodeID} (increasing : nodes.Pairwise (· < ·)) (id : CellID) :
    (((nodes.map fun node => (cellOf node,node)).mergeSort pairLe).filter (·.1 == id)).map (·.2) = nodesOf cellOf nodes id := by
  have order := pairwise_mergeSort pairLe_trans pairLe_total (nodes.map fun node => (cellOf node,node))
  have perm := mergeSort_perm (nodes.map fun node => (cellOf node,node)) pairLe
  generalize (nodes.map fun node => (cellOf node,node)).mergeSort pairLe = sorted at order perm
  have le : ((sorted.filter (·.1 == id)).map (·.2)).Pairwise (· ≤ ·) := by
    rw [pairwise_map]
    refine (order.filter _).imp_of_mem fun {a b} memberA memberB before => ?_
    have one := (mem_filter.mp memberA).2
    have two := (mem_filter.mp memberB).2
    simp only [pairLe,Bool.or_eq_true,Bool.and_eq_true,decide_eq_true_eq,beq_iff_eq] at one two before
    lia
  have same : ((sorted.filter (·.1 == id)).map (·.2)).Perm (nodesOf cellOf nodes id) := by
    refine ((perm.filter _).map _).trans ?_
    rw [List.filter_map,List.map_map,nodesOf]
    simp [Function.comp_def]
  have le' : (nodesOf cellOf nodes id).Pairwise (· ≤ ·) := (increasing.filter _).imp fun less => less.le
  exact Perm.eq_of_pairwise (fun a b _ _ one two => le_antisymm one two) le le' same

private theorem insertBoundary_spec (cellOf : NodeID → CellID) {nodes : List NodeID} (increasing : nodes.Pairwise (· < ·)) (lo : ℕ)
    (set : ℕ → ℕ → CellData → CellData) (cells : List CellData) (boundary : List NodeID) :
    ∃ added, (insertBoundary lo set (cells,boundary) (nodes.map fun node => (cellOf node,node))).2 = boundary ++ added ∧
      (∀ i < lo, (insertBoundary lo set (cells,boundary) (nodes.map fun node => (cellOf node,node))).1[i]? = cells[i]?) ∧
      ∀ id, ∃ offset,
        (insertBoundary lo set (cells,boundary) (nodes.map fun node => (cellOf node,node))).1[lo + id]? =
          (if nodesOf cellOf nodes id = [] then cells[lo + id]?
            else cells[lo + id]?.map (set ((nodesOf cellOf nodes id).length % 2 ^ 32) offset)) ∧
        ∀ more, ((boundary ++ added ++ more).drop offset).take (nodesOf cellOf nodes id).length = nodesOf cellOf nodes id := by
  have order := pairwise_mergeSort pairLe_trans pairLe_total (nodes.map fun node => (cellOf node,node))
  have cellNodes := sorted_nodes cellOf increasing
  unfold insertBoundary
  generalize (nodes.map fun node => (cellOf node,node)).mergeSort pairLe = sorted at order cellNodes
  have keys : sorted.Pairwise fun a b => a.1 ≤ b.1 := by
    refine order.imp fun {a b} before => ?_
    simp only [pairLe,Bool.or_eq_true,Bool.and_eq_true,decide_eq_true_eq,beq_iff_eq] at before
    lia
  obtain ⟨all,below,at_⟩ := @insertCellBoundary_spec sorted lo set keys cells boundary
  refine ⟨sorted.map (·.2),all,below,?_⟩
  intro id
  have count : sorted.countP (·.1 == id) = (nodesOf cellOf nodes id).length := by
    rw [← cellNodes id,length_map,countP_eq_length_filter]
  refine ⟨boundary.length + sorted.countP (·.1 < id),?_,?_⟩
  · rw [at_ id,count]
    simp only [length_eq_zero_iff]
  · intro more
    obtain ⟨slice,total⟩ := take_drop_countP keys id
    rw [append_assoc,drop_length_add_append,← cellNodes id,length_map,← countP_eq_length_filter,← slice]
    rw [drop_append_of_le_length (by rw [length_map]; exact countP_le_length),← map_drop,
      take_append_of_le_length,← map_take]
    rw [length_map,length_drop]
    omega

private theorem insertBoundary_length (lo : ℕ) (set : ℕ → ℕ → CellData → CellData) (state : List CellData × List NodeID)
    (boundary : List (CellID × NodeID)) : (insertBoundary lo set state boundary).1.length = state.1.length := by
  unfold insertBoundary
  generalize ranges (·.1) (boundary.mergeSort pairLe) = blocks
  induction blocks generalizing state with
  | nil => rfl
  | cons block blocks ih =>
    rw [foldl_cons,ih]
    cases block with
    | nil => rfl
    | cons first rest => simp [insertCellBoundary]

/-! ### The levels -/

def levelStart (P : MultiLevelPartition) (level : LevelID) : ℕ := ((List.range' 1 (level - 1)).map P.GetNumberOfCells).sum

section
variable {P : MultiLevelPartition} {graph : MultiLevelGraph P} {storage : Storage} {level : LevelID} {id : CellID} {cell : CellData}

private theorem levelStart_succ (low : 1 ≤ level) : levelStart P (level + 1) = levelStart P level + P.GetNumberOfCells level := by
  obtain ⟨l,rfl⟩ : ∃ l, level = l + 1 := ⟨level - 1,by lia⟩
  simp [levelStart,range'_concat,Nat.add_comm]

private theorem levelStart_mono {level' : LevelID} (low : 1 ≤ level) (le : level ≤ level') : levelStart P level ≤ levelStart P level' := by
  induction level', le using Nat.le_induction with
  | base => exact le_rfl
  | succ level' above ih =>
    rw [levelStart_succ (low.trans above)]
    exact ih.trans (Nat.le_add_right _ _)

private theorem levelToCellOffset_at (count : ℕ) (first : LevelID) (low : 1 ≤ first) (small : levelStart P (first + count) < 2 ^ 32)
    (i : ℕ) (le : i ≤ count) :
    (levelToCellOffset P (List.range' first count) (levelStart P first))[i]? = some (levelStart P (first + i)) := by
  induction count generalizing first i with
  | zero =>
    obtain rfl : i = 0 := by lia
    rfl
  | succ count ih =>
    have next := levelStart_succ (P := P) low
    have less : levelStart P (first + 1) < 2 ^ 32 :=
      (levelStart_mono (show 1 ≤ first + 1 by lia) (show first + 1 ≤ first + (count + 1) by lia)).trans_lt small
    rw [range'_succ,levelToCellOffset]
    cases i with
    | zero => rfl
    | succ i =>
      rw [getElem?_cons_succ,← next,Nat.mod_eq_of_lt less,ih (first + 1) (by lia) (by rwa [Nat.add_right_comm,Nat.add_assoc]) i (by lia),
        Nat.add_right_comm,Nat.add_assoc]

private theorem levelToCellOffset_length (levels : List LevelID) (number_of_cells : ℕ) :
    (levelToCellOffset P levels number_of_cells).length = levels.length + 1 := by
  induction levels generalizing number_of_cells with
  | nil => rfl
  | cons level levels ih => rw [levelToCellOffset,length_cons,ih,length_cons]

private theorem cellOffset_at (small : levelStart P P.GetNumberOfLevels < 2 ^ 32) (low : 1 ≤ level) (high : level ≤ P.GetNumberOfLevels) :
    (levelToCellOffset P (cellLevels P) 0)[level - 1]? = some (levelStart P level) := by
  have at_ := levelToCellOffset_at (P := P) (P.GetNumberOfLevels - 1) 1 le_rfl (by rwa [Nat.add_sub_cancel' (by lia)]) (level - 1) (by lia)
  rwa [Nat.add_sub_cancel' low] at at_

/-- The data of a cell name its boundary nodes in the arrays, whatever is appended to these. -/
structure Lists (graph : MultiLevelGraph P) (sources destinations : List NodeID) (level : LevelID) (id : CellID) (cell : CellData) :
    Prop where
  num_source : cell.num_source_nodes = (CellStorage.source_boundary graph level id).length
  num_destination : cell.num_destination_nodes = (CellStorage.destination_boundary graph level id).length
  source : ∀ more, ((sources ++ more).drop cell.source_boundary_offset).take cell.num_source_nodes =
    CellStorage.source_boundary graph level id
  destination : ∀ more, ((destinations ++ more).drop cell.destination_boundary_offset).take cell.num_destination_nodes =
    CellStorage.destination_boundary graph level id

structure Filled (graph : MultiLevelGraph P) (storage : Storage) (level : LevelID) : Prop where
  offsets : storage.level_to_cell_offset = levelToCellOffset P (cellLevels P) 0
  length : storage.cells.length = levelStart P P.GetNumberOfLevels
  unset : ∀ i, levelStart P (level + 1) ≤ i → i < levelStart P P.GetNumberOfLevels → storage.cells[i]? = some .unset
  done : ∀ l, 1 ≤ l → l ≤ level → ∀ id < P.GetNumberOfCells l, ∃ cell, storage.cells[levelStart P l + id]? = some cell ∧
    Lists graph storage.source_boundary storage.destination_boundary l id cell

private theorem range_filter_increasing (n : ℕ) (p : NodeID → Bool) : ((List.range n).filter p).Pairwise (· < ·) :=
  pairwise_lt_range.filter p

private theorem nodesOf_filter (cellOf : NodeID → CellID) (n : ℕ) (p : NodeID → Bool) (id : CellID) :
    nodesOf cellOf ((List.range n).filter p) id = (List.range n).filter fun node => cellOf node == id && p node := by
  rw [nodesOf,List.filter_filter]

private theorem source_nodesOf : nodesOf (P.GetCell level) ((List.range graph.number_of_nodes).filter fun node =>
    is_boundary_node graph level node && is_source_node graph level node) id = CellStorage.source_boundary graph level id := by
  rw [nodesOf_filter,CellStorage.source_boundary]
  simp only [Bool.and_assoc]

private theorem destination_nodesOf : nodesOf (P.GetCell level) ((List.range graph.number_of_nodes).filter fun node =>
    is_boundary_node graph level node &&
      (is_destination_node graph level node || !is_source_node graph level node && !is_destination_node graph level node)) id =
    CellStorage.destination_boundary graph level id := by
  rw [nodesOf_filter,CellStorage.destination_boundary]
  simp only [Bool.and_assoc]

private theorem source_length_lt (fits : graph.number_of_nodes < 2 ^ 32) : (CellStorage.source_boundary graph level id).length < 2 ^ 32 :=
  (length_filter_le _ _).trans_lt (by simpa using fits)

private theorem destination_length_lt (fits : graph.number_of_nodes < 2 ^ 32) :
    (CellStorage.destination_boundary graph level id).length < 2 ^ 32 :=
  (length_filter_le _ _).trans_lt (by simpa using fits)

private theorem no_nodes_beyond (nodes : graph.number_of_nodes ≤ P.number_of_nodes) (low : 1 ≤ level) (high : level < P.GetNumberOfLevels)
    (beyond : P.GetNumberOfCells level ≤ id) :
    CellStorage.source_boundary graph level id = [] ∧ CellStorage.destination_boundary graph level id = [] := by
  have other : ∀ node ∈ List.range graph.number_of_nodes, (P.GetCell level node == id) = false := by
    intro node member
    have counted := P.counted level low high node ((mem_range.mp member).trans_le nodes)
    rw [beq_eq_false_iff_ne]
    lia
  unfold CellStorage.source_boundary CellStorage.destination_boundary
  rw [filter_eq_nil_iff,filter_eq_nil_iff]
  exact ⟨fun node member => by simp [other node member],fun node member => by simp [other node member]⟩

private theorem insertLevel_filled (filled : Filled graph storage level) (nodes : graph.number_of_nodes ≤ P.number_of_nodes)
    (fits : graph.number_of_nodes < 2 ^ 32) (small : levelStart P P.GetNumberOfLevels < 2 ^ 32)
    (below : level + 1 < P.GetNumberOfLevels) : Filled graph (insertLevel graph storage (level + 1)) (level + 1) := by
  have start : storage.level_to_cell_offset.getD (level + 1 - 1) 0 = levelStart P (level + 1) := by
    rw [filled.offsets,getD_eq_getElem?_getD,cellOffset_at small (by lia) below.le]
    rfl
  obtain ⟨added,nodes_,before,at_⟩ := insertBoundary_spec (P.GetCell (level + 1))
    (range_filter_increasing graph.number_of_nodes fun node =>
      is_boundary_node graph (level + 1) node && is_source_node graph (level + 1) node)
    (levelStart P (level + 1)) CellData.setSource storage.cells storage.source_boundary
  have sameLength := insertBoundary_length (levelStart P (level + 1)) CellData.setSource (storage.cells,storage.source_boundary)
    (levelSourceBoundary graph (level + 1))
  rw [← levelSourceBoundary] at nodes_ before at_
  simp only [insertLevel,start]
  generalize insertBoundary (levelStart P (level + 1)) CellData.setSource (storage.cells,storage.source_boundary)
    (levelSourceBoundary graph (level + 1)) = sources at nodes_ before at_ sameLength ⊢
  obtain ⟨added',nodes_',before',at_'⟩ := insertBoundary_spec (P.GetCell (level + 1))
    (range_filter_increasing graph.number_of_nodes fun node => is_boundary_node graph (level + 1) node &&
      (is_destination_node graph (level + 1) node ||
        !is_source_node graph (level + 1) node && !is_destination_node graph (level + 1) node))
    (levelStart P (level + 1)) CellData.setDestination sources.1 storage.destination_boundary
  have sameLength' := insertBoundary_length (levelStart P (level + 1)) CellData.setDestination
    (sources.1,storage.destination_boundary) (levelDestinationBoundary graph (level + 1))
  rw [← levelDestinationBoundary] at nodes_' before' at_'
  generalize insertBoundary (levelStart P (level + 1)) CellData.setDestination (sources.1,storage.destination_boundary)
    (levelDestinationBoundary graph (level + 1)) = destinations at nodes_' before' at_' sameLength' ⊢
  simp only [source_nodesOf] at at_
  simp only [destination_nodesOf] at at_'
  refine ⟨filled.offsets,by rw [sameLength',sameLength,filled.length],?_,?_⟩
  · intro i above inside
    obtain ⟨id,rfl⟩ : ∃ id, i = levelStart P (level + 1) + id := ⟨i - levelStart P (level + 1),by
      have := levelStart_mono (P := P) (show 1 ≤ level + 1 by lia) (show level + 1 ≤ level + 1 + 1 by lia)
      lia⟩
    have beyond : P.GetNumberOfCells (level + 1) ≤ id := by
      rw [levelStart_succ (by lia)] at above
      lia
    obtain ⟨none,none'⟩ := no_nodes_beyond nodes (show 1 ≤ level + 1 by lia) below beyond
    obtain ⟨_,entry,_⟩ := at_ id
    obtain ⟨_,entry',_⟩ := at_' id
    dsimp only
    rw [entry',if_pos none',entry,if_pos none]
    exact filled.unset _ (Nat.le_add_right _ _) inside
  · intro l low le id cells
    by_cases last : l = level + 1
    · subst last
      obtain ⟨offset,entry,slice⟩ := at_ id
      obtain ⟨offset',entry',slice'⟩ := at_' id
      have fresh := filled.unset (levelStart P (level + 1) + id) (Nat.le_add_right _ _) (by
        have top := levelStart_mono (P := P) (show 1 ≤ level + 1 + 1 by lia) below
        rw [levelStart_succ (by lia)] at top
        lia)
      rw [fresh,Nat.mod_eq_of_lt (source_length_lt fits)] at entry
      rw [entry,Nat.mod_eq_of_lt (destination_length_lt fits)] at entry'
      dsimp only
      rw [entry',nodes_,nodes_']
      by_cases none : CellStorage.source_boundary graph (level + 1) id = []
      · by_cases none' : CellStorage.destination_boundary graph (level + 1) id = []
        · rw [if_pos none,if_pos none']
          exact ⟨_,rfl,by simp [CellData.unset,none],by simp [CellData.unset,none'],by simp [CellData.unset,none],
            by simp [CellData.unset,none']⟩
        · rw [if_pos none,if_neg none']
          exact ⟨_,rfl,by simp [CellData.unset,CellData.setDestination,none],rfl,
            by simp [CellData.unset,CellData.setDestination,none],slice'⟩
      · by_cases none' : CellStorage.destination_boundary graph (level + 1) id = []
        · rw [if_neg none,if_pos none']
          exact ⟨_,rfl,rfl,by simp [CellData.unset,CellData.setSource,none'],slice,
            by simp [CellData.unset,CellData.setSource,none']⟩
        · rw [if_neg none,if_neg none']
          exact ⟨_,rfl,rfl,rfl,slice,slice'⟩
    · obtain ⟨cell,entry,lists⟩ := filled.done l low (by lia) id cells
      have less : levelStart P l + id < levelStart P (level + 1) := by
        have := levelStart_mono (P := P) (show 1 ≤ l + 1 by lia) (show l + 1 ≤ level + 1 by lia)
        rw [levelStart_succ low] at this
        lia
      refine ⟨cell,by rw [before' _ less,before _ less,entry],lists.num_source,lists.num_destination,?_,?_⟩
      · intro more
        rw [nodes_,append_assoc]
        exact lists.source _
      · intro more
        rw [nodes_',append_assoc]
        exact lists.destination _

private theorem start_filled (small : levelStart P P.GetNumberOfLevels < 2 ^ 32) : Filled graph
    ⟨[],[],replicate ((levelToCellOffset P (cellLevels P) 0).getLastD 0) .unset,levelToCellOffset P (cellLevels P) 0⟩ 0 := by
  have levels : 1 ≤ P.GetNumberOfLevels := P.highest_lt (x := 0) (y := 0) |>.pos
  have all : (levelToCellOffset P (cellLevels P) 0).getLastD 0 = levelStart P P.GetNumberOfLevels := by
    rw [getLastD_eq_getLast?,getLast?_eq_getElem?,levelToCellOffset_length,cellLevels,length_range',Nat.add_sub_cancel]
    rw [← cellLevels,cellOffset_at small levels le_rfl]
    rfl
  rw [all]
  refine ⟨rfl,length_replicate,?_,by lia⟩
  intro i _ inside
  simp [inside]

private theorem levels_filled (nodes : graph.number_of_nodes ≤ P.number_of_nodes) (fits : graph.number_of_nodes < 2 ^ 32)
    (small : levelStart P P.GetNumberOfLevels < 2 ^ 32) (count : ℕ) (below : count < P.GetNumberOfLevels) :
    Filled graph ((List.range' 1 count).foldl (insertLevel graph)
      ⟨[],[],replicate ((levelToCellOffset P (cellLevels P) 0).getLastD 0) .unset,levelToCellOffset P (cellLevels P) 0⟩) count := by
  induction count with
  | zero => exact start_filled small
  | succ count ih =>
    rw [range'_concat,foldl_append,Nat.one_mul,Nat.add_comm 1 count]
    exact insertLevel_filled (ih (by lia)) nodes fits small below

private theorem place_of_cell (level : LevelID) {i : ℕ} (below : i < levelStart P level) :
    ∃ l id, 1 ≤ l ∧ l < level ∧ id < P.GetNumberOfCells l ∧ i = levelStart P l + id := by
  induction level with
  | zero => simp [levelStart] at below
  | succ level ih =>
    by_cases low : 1 ≤ level
    · rw [levelStart_succ low] at below
      by_cases earlier : i < levelStart P level
      · obtain ⟨l,id,one,less,inside,same⟩ := ih earlier
        exact ⟨l,id,one,by lia,inside,same⟩
      · exact ⟨level,i - levelStart P level,low,by lia,by lia,by lia⟩
    · obtain rfl : level = 0 := by lia
      simp [levelStart] at below

end

/-- Where a block begins when the sizes of those before it are added up with 32 bits each. -/
def blockStart (sizes : List ℕ) (i : ℕ) : ℕ := ((sizes.take i).map (· % 2 ^ 32)).sum

variable {sizes : List ℕ} {i j p : ℕ}

private theorem blockStart_succ (found : sizes[i]? = some p) : blockStart sizes (i + 1) = blockStart sizes i + p % 2 ^ 32 := by
  obtain ⟨inside,rfl⟩ := List.getElem?_eq_some_iff.mp found
  rw [blockStart,take_succ_eq_append_getElem inside,map_append,sum_append]
  simp [blockStart]

private theorem blockStart_mono (le : i ≤ j) (inside : j ≤ sizes.length) : blockStart sizes i ≤ blockStart sizes j := by
  induction j, le using Nat.le_induction with
  | base => exact le_rfl
  | succ j above ih =>
    rw [blockStart_succ (getElem?_eq_getElem inside)]
    exact (ih (by omega)).trans (Nat.le_add_right _ _)

private theorem blocks_apart_iff : ((∀ (i j : ℕ) (p q : ℕ), sizes[i]? = some p → sizes[j]? = some q → i ≠ j →
      ∀ k, blockStart sizes i ≤ k → k < blockStart sizes i + p → blockStart sizes j ≤ k → ¬ k < blockStart sizes j + q) ∧
    ∀ (i : ℕ) (p : ℕ), sizes[i]? = some p → blockStart sizes i + p ≤ blockStart sizes sizes.length + 1) ↔
    ∀ p ∈ sizes, p < 2 ^ 32 := by
  constructor
  · rintro ⟨apart,fits⟩ p member
    obtain ⟨i,found⟩ := mem_iff_getElem?.mp member
    have length := (List.getElem?_eq_some_iff.mp found).1
    by_contra large
    have cut : p % 2 ^ 32 + 2 ^ 32 ≤ p := by
      have := Nat.div_add_mod p (2 ^ 32)
      have : 1 ≤ p / 2 ^ 32 := (Nat.one_le_div_iff (by decide)).mpr (by omega)
      omega
    -- what follows begins inside of the block, so it is empty
    have follow : ∀ j, i + 1 ≤ j → j ≤ sizes.length → blockStart sizes j = blockStart sizes i + p % 2 ^ 32 := by
      intro j above
      induction j, above using Nat.le_induction with
      | base => exact fun _ => blockStart_succ found
      | succ j above ih =>
        intro inside
        have same := ih (by omega)
        have there : sizes[j]? = some sizes[j] := getElem?_eq_getElem inside
        have empty : sizes[j] = 0 := by
          by_contra some
          exact apart i j p sizes[j] found there (by omega) (blockStart sizes j) (by omega) (by omega) le_rfl (by omega)
        rw [blockStart_succ there,same,empty]
        rfl
    have last := follow sizes.length length le_rfl
    have := fits i p found
    omega
  · intro small
    have next : ∀ i p, sizes[i]? = some p → blockStart sizes (i + 1) = blockStart sizes i + p := by
      intro i p found
      rw [blockStart_succ found,Nat.mod_eq_of_lt (small p (mem_of_getElem? found))]
    have before : ∀ i j p q, sizes[i]? = some p → sizes[j]? = some q → i < j → blockStart sizes i + p ≤ blockStart sizes j := by
      intro i j p q found found' less
      rw [← next i p found]
      exact blockStart_mono less (List.getElem?_eq_some_iff.mp found').1.le
    constructor
    · intro i j p q found found' other k low high low' high'
      rcases Nat.lt_or_gt_of_ne other with less | more
      · have := before i j p q found found' less
        omega
      · have := before j i q p found' found more
        omega
    · intro i p found
      rw [← next i p found]
      exact (blockStart_mono (List.getElem?_eq_some_iff.mp found).1 le_rfl).trans (Nat.le_succ _)

private theorem blockStart_lt (few : sizes.length < 2 ^ 32) (inside : i ≤ sizes.length) : blockStart sizes i < 2 ^ 64 := by
  have bound : ∀ l : List ℕ, (l.map (· % 2 ^ 32)).sum ≤ l.length * (2 ^ 32 - 1) := by
    intro l
    induction l with
    | nil => simp
    | cons a l ih =>
      have := Nat.mod_lt a (show 2 ^ 32 > 0 by decide)
      simp only [map_cons,sum_cons,length_cons]
      omega
  have := bound (sizes.take i)
  rw [length_take] at this
  unfold blockStart
  omega

private theorem setValueOffsets_at (cells : List CellData) (value_offset : ℕ) (fits : value_offset < 2 ^ 64) (i : ℕ) :
    (setValueOffsets value_offset cells)[i]? = cells[i]?.map fun cell =>
      { cell with value_offset := (value_offset + blockStart (cells.map CellData.size) i) % 2 ^ 64 } := by
  induction cells generalizing value_offset i with
  | nil => rfl
  | cons cell cells ih =>
    rw [setValueOffsets]
    cases i with
    | zero =>
      simp only [getElem?_cons_zero,map_some,blockStart,take_zero,map_nil,sum_nil,Nat.add_zero]
      rw [Nat.mod_eq_of_lt fits]
    | succ i =>
      rw [getElem?_cons_succ,getElem?_cons_succ,ih _ (Nat.mod_lt _ (by decide))]
      have sum : blockStart ((cell :: cells).map CellData.size) (i + 1) = cell.product + blockStart (cells.map CellData.size) i := by
        simp [blockStart,CellData.product,CellData.size]
      rw [sum,Nat.mod_add_mod,Nat.add_assoc]

private theorem setValueOffsets_length (cells : List CellData) (value_offset : ℕ) :
    (setValueOffsets value_offset cells).length = cells.length := by
  induction cells generalizing value_offset with
  | nil => rfl
  | cons cell cells ih => rw [setValueOffsets,length_cons,ih,length_cons]

/-! ### The storage -/

section
variable {P : MultiLevelPartition} {graph : MultiLevelGraph P} {storage : Storage} {level : LevelID} {id : CellID} {cell : CellData}

/-- The lists of every cell are its boundary nodes, and the values of different cells are apart and in the arrays. -/
structure Correct (graph : MultiLevelGraph P) (storage : Storage) : Prop where
  lists : ∀ level id, 1 ≤ level → level < P.GetNumberOfLevels → id < P.GetNumberOfCells level →
    ∃ cell, storage.cell level id = some cell ∧
      ((storage.GetSourceNodes cell).Nodup ∧ ∀ x, x ∈ storage.GetSourceNodes cell ↔ x < graph.number_of_nodes ∧
        P.GetCell level x = id ∧ is_boundary_node graph level x = true ∧ is_source_node graph level x = true) ∧
      (storage.GetDestinationNodes cell).Nodup ∧ ∀ x, x ∈ storage.GetDestinationNodes cell ↔ x < graph.number_of_nodes ∧
        P.GetCell level x = id ∧ is_boundary_node graph level x = true ∧ (is_destination_node graph level x = true ∨
          is_source_node graph level x = false ∧ is_destination_node graph level x = false)
  apart : ∀ (i j : ℕ) (cell cell' : CellData), storage.cells[i]? = some cell → storage.cells[j]? = some cell' → i ≠ j → ∀ k,
    cell.value_offset ≤ k → k < cell.value_offset + cell.size → cell'.value_offset ≤ k → ¬ k < cell'.value_offset + cell'.size
  inside : ∀ (i : ℕ) (cell : CellData), storage.cells[i]? = some cell → cell.value_offset + cell.size ≤ storage.metricSize

private theorem build_filled (nodes : graph.number_of_nodes ≤ P.number_of_nodes) (fits : graph.number_of_nodes < 2 ^ 32)
    (small : levelStart P P.GetNumberOfLevels < 2 ^ 32) : ∃ filled, Filled graph filled (P.GetNumberOfLevels - 1) ∧
      Storage.build graph = { filled with cells := setValueOffsets 0 filled.cells } := by
  have levels : 1 ≤ P.GetNumberOfLevels := P.highest_lt (x := 0) (y := 0) |>.pos
  exact ⟨_,levels_filled nodes fits small (P.GetNumberOfLevels - 1) (by lia),rfl⟩

variable {filled : Storage}

private theorem laid_at (fill : Filled graph filled (P.GetNumberOfLevels - 1)) (small : levelStart P P.GetNumberOfLevels < 2 ^ 32) (i : ℕ) :
    (setValueOffsets 0 filled.cells)[i]? = filled.cells[i]?.map fun cell =>
      { cell with value_offset := blockStart (filled.cells.map CellData.size) i } := by
  rw [setValueOffsets_at _ 0 (by decide),Nat.zero_add]
  by_cases inside : i ≤ filled.cells.length
  · rw [Nat.mod_eq_of_lt (blockStart_lt (by rw [length_map,fill.length]; exact small) (by simpa using inside))]
  · simp [getElem?_eq_none (show filled.cells.length ≤ i by lia)]

private theorem laid_metricSize (fill : Filled graph filled (P.GetNumberOfLevels - 1)) (small : levelStart P P.GetNumberOfLevels < 2 ^ 32)
    (some : filled.cells ≠ []) : Storage.metricSize { filled with cells := setValueOffsets 0 filled.cells } =
      blockStart (filled.cells.map CellData.size) filled.cells.length + 1 := by
  have positive := length_pos_iff.mpr some
  have last : filled.cells[filled.cells.length - 1]? = Option.some (filled.cells.getLast some) := by
    rw [← getLast?_eq_getElem?,getLast?_eq_some_getLast some]
  have laid := laid_at fill small (filled.cells.length - 1)
  have next : blockStart (filled.cells.map CellData.size) (filled.cells.length - 1 + 1) = _ :=
    blockStart_succ (by rw [getElem?_map,last]; rfl)
  rw [Nat.sub_add_cancel positive] at next
  have bound : blockStart (filled.cells.map CellData.size) filled.cells.length < 2 ^ 64 :=
    blockStart_lt (by rw [length_map,fill.length]; exact small) (by simp)
  rw [last,map_some] at laid
  rw [Storage.metricSize,getLast?_eq_getElem?,setValueOffsets_length]
  simp only [laid]
  rw [show CellData.product { filled.cells.getLast some with
    value_offset := blockStart (filled.cells.map CellData.size) (filled.cells.length - 1) } =
      (filled.cells.getLast some).size % 2 ^ 32 from rfl,← next,Nat.mod_eq_of_lt bound]

private theorem laid_lists (fill : Filled graph filled (P.GetNumberOfLevels - 1)) (small : levelStart P P.GetNumberOfLevels < 2 ^ 32)
    (low : 1 ≤ level) (high : level < P.GetNumberOfLevels) (inside : id < P.GetNumberOfCells level) :
    ∃ cell, Storage.cell { filled with cells := setValueOffsets 0 filled.cells } level id = some cell ∧
      Storage.GetSourceNodes { filled with cells := setValueOffsets 0 filled.cells } cell =
        CellStorage.source_boundary graph level id ∧
      Storage.GetDestinationNodes { filled with cells := setValueOffsets 0 filled.cells } cell =
        CellStorage.destination_boundary graph level id := by
  obtain ⟨cell,entry,lists⟩ := fill.done level low (by lia) id inside
  have start : filled.level_to_cell_offset.getD (level - 1) 0 = levelStart P level := by
    rw [fill.offsets,getD_eq_getElem?_getD,cellOffset_at small low high.le]
    rfl
  refine ⟨{ cell with value_offset := blockStart (filled.cells.map CellData.size) (levelStart P level + id) },?_,?_,?_⟩
  · simp only [Storage.cell,start]
    rw [laid_at fill small,entry]
    rfl
  · simpa [Storage.GetSourceNodes] using lists.source []
  · simpa [Storage.GetDestinationNodes] using lists.destination []

private theorem sizes_lt_iff (fill : Filled graph filled (P.GetNumberOfLevels - 1)) :
    (∀ p ∈ filled.cells.map CellData.size, p < 2 ^ 32) ↔
    ∀ level id, 1 ≤ level → level < P.GetNumberOfLevels → id < P.GetNumberOfCells level →
      (CellStorage.source_boundary graph level id).length * (CellStorage.destination_boundary graph level id).length < 2 ^ 32 := by
  constructor
  · intro small level id low high inside
    obtain ⟨cell,entry,lists⟩ := fill.done level low (by lia) id inside
    rw [← lists.num_source,← lists.num_destination]
    exact small cell.size (mem_map_of_mem (mem_of_getElem? entry))
  · intro small p member
    obtain ⟨cell,inside,rfl⟩ := mem_map.mp member
    obtain ⟨i,there⟩ := mem_iff_getElem?.mp inside
    have below := (List.getElem?_eq_some_iff.mp there).1
    rw [fill.length] at below
    obtain ⟨level,id,low,high,less,rfl⟩ := place_of_cell P.GetNumberOfLevels below
    obtain ⟨other,entry,lists⟩ := fill.done level low (by lia) id less
    obtain rfl := some.inj (there.symm.trans entry)
    have := small level id low high less
    rwa [← lists.num_source,← lists.num_destination] at this

private theorem laid_iff (fill : Filled graph filled (P.GetNumberOfLevels - 1)) (small : levelStart P P.GetNumberOfLevels < 2 ^ 32) (i : ℕ)
    (cell : CellData) : (setValueOffsets 0 filled.cells)[i]? = some cell ↔ ∃ old, filled.cells[i]? = some old ∧
      cell = { old with value_offset := blockStart (filled.cells.map CellData.size) i } := by
  rw [laid_at fill small,map_eq_some_iff]
  simp only [eq_comm]

private theorem size_iff {cells : List CellData} {i p : ℕ} :
    (cells.map CellData.size)[i]? = some p ↔ ∃ old, cells[i]? = some old ∧ old.size = p := by
  rw [getElem?_map,map_eq_some_iff]

private theorem sizes_of_correct (nodes : graph.number_of_nodes ≤ P.number_of_nodes) (fits : graph.number_of_nodes < 2 ^ 32)
    (small : levelStart P P.GetNumberOfLevels < 2 ^ 32) (correct : Correct graph (Storage.build graph)) (low : 1 ≤ level)
    (high : level < P.GetNumberOfLevels) (inside : id < P.GetNumberOfCells level) :
    (CellStorage.source_boundary graph level id).length * (CellStorage.destination_boundary graph level id).length < 2 ^ 32 := by
  obtain ⟨filled,fill,built⟩ := build_filled nodes fits small
  rw [built] at correct
  refine (sizes_lt_iff fill).mp (blocks_apart_iff.mp ⟨?_,?_⟩) level id low high inside
  · intro i j p q found found' other k
    obtain ⟨old,there,rfl⟩ := size_iff.mp found
    obtain ⟨old',there',rfl⟩ := size_iff.mp found'
    exact correct.apart i j _ _ ((laid_iff fill small i _).mpr ⟨old,there,rfl⟩) ((laid_iff fill small j _).mpr ⟨old',there',rfl⟩) other k
  · intro i p found
    obtain ⟨old,there,rfl⟩ := size_iff.mp found
    have some : filled.cells ≠ [] := ne_nil_of_mem (mem_of_getElem? there)
    have inside := correct.inside i _ ((laid_iff fill small i _).mpr ⟨old,there,rfl⟩)
    rw [laid_metricSize fill small some] at inside
    rw [length_map]
    exact inside

private theorem correct_of_sizes (nodes : graph.number_of_nodes ≤ P.number_of_nodes) (fits : graph.number_of_nodes < 2 ^ 32)
    (small : levelStart P P.GetNumberOfLevels < 2 ^ 32) (sizes : ∀ level id, 1 ≤ level → level < P.GetNumberOfLevels →
      id < P.GetNumberOfCells level →
      (CellStorage.source_boundary graph level id).length * (CellStorage.destination_boundary graph level id).length < 2 ^ 32) :
    Correct graph (Storage.build graph) := by
  obtain ⟨filled,fill,built⟩ := build_filled nodes fits small
  obtain ⟨apart,inside⟩ := blocks_apart_iff.mpr ((sizes_lt_iff fill).mpr sizes)
  rw [built]
  refine ⟨?_,?_,?_⟩
  · intro level id low high cells
    obtain ⟨cell,entry,sources,destinations⟩ := laid_lists fill small low high cells
    refine ⟨cell,entry,⟨?_,?_⟩,?_,?_⟩
    · rw [sources]
      exact CellStorage.source_boundary_nodup
    · intro x
      rw [sources]
      simp [CellStorage.source_boundary,and_assoc]
    · rw [destinations]
      exact CellStorage.destination_boundary_nodup
    · intro x
      rw [destinations]
      simp [CellStorage.destination_boundary,and_assoc]
  · intro i j cell cell' found found' other k
    obtain ⟨old,there,rfl⟩ := (laid_iff fill small i cell).mp found
    obtain ⟨old',there',rfl⟩ := (laid_iff fill small j cell').mp found'
    exact apart i j _ _ (size_iff.mpr ⟨old,there,rfl⟩) (size_iff.mpr ⟨old',there',rfl⟩) other k
  · intro i cell found
    obtain ⟨old,there,rfl⟩ := (laid_iff fill small i cell).mp found
    have some : filled.cells ≠ [] := ne_nil_of_mem (mem_of_getElem? there)
    have within := inside i _ (size_iff.mpr ⟨old,there,rfl⟩)
    rw [length_map] at within
    rw [laid_metricSize fill small some]
    exact within

/-- The storage is correct exactly where no cell has 2^32 values. -/
theorem build_correct_iff (graph : MultiLevelGraph P) (nodes : graph.number_of_nodes ≤ P.number_of_nodes)
    (fits : graph.number_of_nodes < 2 ^ 32) (small : levelStart P P.GetNumberOfLevels < 2 ^ 32) :
    Correct graph (Storage.build graph) ↔
    ∀ level id, 1 ≤ level → level < P.GetNumberOfLevels → id < P.GetNumberOfCells level →
      (CellStorage.source_boundary graph level id).length * (CellStorage.destination_boundary graph level id).length < 2 ^ 32 :=
  ⟨fun correct _ _ low high inside => sizes_of_correct nodes fits small correct low high inside,correct_of_sizes nodes fits small⟩

end

open CellStorage (rowGraph rowPartition road)

theorem build_correct_iff_row : Correct rowGraph (Storage.build rowGraph) := by
  refine (build_correct_iff rowGraph (by decide) (by decide) (by decide)).mpr fun level id _ _ _ => ?_
  have source : (CellStorage.source_boundary rowGraph level id).length ≤ 4 := length_filter_le _ _
  have destination : (CellStorage.destination_boundary rowGraph level id).length ≤ 4 := length_filter_le _ _
  exact (Nat.mul_le_mul source destination).trans_lt (by decide)

/-! ### Two cells of 65536 nodes -/

def half (node : NodeID) : PartitionID := min (node / 65536) 2

private theorem half_packed (node : NodeID) : half node < 2 ^ 2 := by
  unfold half
  lia

private theorem half_cell (node : NodeID) : (half node &&& 3) >>> 0 = half node := by
  have small := half_packed node
  interval_cases half node <;> rfl

def halvesData : PartitionData := ⟨⟨2,[0,2],[3],MakeBitToLevel [0,2] 2⟩,131072,half⟩

private theorem halvesData_nested (l : LevelID) (low : 1 ≤ l) (high : l + 1 < 2) (x y : NodeID)
    (_ : halvesData.GetCell l x = halvesData.GetCell l y) : halvesData.GetCell (l + 1) x = halvesData.GetCell (l + 1) y := by
  lia

private theorem halvesData_counted (l : LevelID) (low : 1 ≤ l) (high : l < 2) (node : NodeID) (below : node < 131072) :
    halvesData.GetCell l node < halvesData.GetNumberOfCells l := by
  obtain rfl : l = 1 := by lia
  change (half node &&& 3) >>> 0 < 2
  rw [half_cell,half]
  lia

def halvesPartition : MultiLevelPartition := ⟨halvesData,[2],rfl,half_packed,halvesData_nested,halvesData_counted⟩
def pairUp (node : NodeID) : NodeID := if node % 2 = 0 then node + 1 else node - 1
@[irreducible] def halvesEdges : List EdgeBasedEdge :=
  (List.range 131072).flatMap fun node => [road node (pairUp node),road node ((node + 65536) % 131072)]

private theorem mem_halvesEdges {edge : EdgeBasedEdge} : edge ∈ halvesEdges ↔
    ∃ node < 131072, edge = road node (pairUp node) ∨ edge = road node ((node + 65536) % 131072) := by
  unfold halvesEdges
  simp only [mem_flatMap,mem_range,mem_cons,not_mem_nil,or_false]

private theorem pairUp_half {node : NodeID} (below : node < 131072) : pairUp node < 131072 ∧ half (pairUp node) = half node := by
  unfold pairUp half
  split_ifs <;> lia

private theorem halvesEdges_sorted : halvesEdges.Pairwise fun a b =>
    a.source < b.source ∨ a.source = b.source ∧ borderLevel halvesPartition a ≤ borderLevel halvesPartition b := by
  unfold halvesEdges
  refine pairwise_flatMap.mpr ⟨?_,?_⟩
  · intro node member
    have same := (pairUp_half (mem_range.mp member)).2
    have zero : borderLevel halvesPartition (road node (pairUp node)) = 0 := by
      simp [borderLevel,road,PartitionData.GetHighestDifferentLevel,halvesPartition,halvesData,same]
    have source : ∀ target, (road node target).source = node := fun _ => rfl
    rw [pairwise_pair,zero,source,source]
    exact .inr ⟨rfl,Nat.zero_le _⟩
  · refine pairwise_lt_range.imp fun {v w} less => ?_
    intro a memberA b memberB
    simp only [mem_cons,not_mem_nil,or_false] at memberA memberB
    rcases memberA with rfl | rfl <;> rcases memberB with rfl | rfl <;> exact .inl less

private theorem halvesEdges_bounded : ∀ e ∈ halvesEdges, e.source < 131072 ∧ e.target < 131072 := by
  intro e member
  obtain ⟨node,below,rfl | rfl⟩ := mem_halvesEdges.mp member
  · exact ⟨below,(pairUp_half below).1⟩
  · exact ⟨below,Nat.mod_lt _ (by decide)⟩

def halvesGraph : MultiLevelGraph halvesPartition := ⟨131072,halvesEdges,halvesEdges_sorted,halvesEdges_bounded⟩

private theorem halvesGraph_edges : halvesGraph.edges = halvesEdges := by
  rw [halvesGraph]

private theorem halves_cell (node : NodeID) : halvesPartition.GetCell 1 node = half node := by
  rw [← half_cell node]
  rfl

private theorem adjacent_of_mem {P : MultiLevelPartition} (graph : MultiLevelGraph P) {e : EdgeBasedEdge} (member : e ∈ graph.edges) :
    ∃ id, (e,id) ∈ graph.GetAdjacentEdgeRange e.source := by
  obtain ⟨id,found⟩ := mem_iff_getElem?.mp member
  exact ⟨id,graph.mem_adjacent.mpr ⟨found,rfl⟩⟩

private theorem half_opposite {node : ℕ} (below : node < 131072) : half ((node + 65536) % 131072) ≠ half node := by
  have other : (node + 65536) % 131072 / 65536 ≠ node / 65536 := by omega
  have small : (node + 65536) % 131072 / 65536 < 2 := by omega
  have small' : node / 65536 < 2 := by omega
  unfold half
  rw [min_eq_left small.le,min_eq_left small'.le]
  exact other

private theorem halves_nodes {node : NodeID} (below : node < 131072) : is_boundary_node halvesGraph 1 node = true ∧
    is_source_node halvesGraph 1 node = true ∧ is_destination_node halvesGraph 1 node = true := by
  have innerEdge := mem_halvesEdges.mpr ⟨node,below,.inl rfl⟩
  have outerEdge := mem_halvesEdges.mpr ⟨node,below,.inr rfl⟩
  rw [← halvesGraph_edges] at innerEdge outerEdge
  obtain ⟨inner,innerThere⟩ := adjacent_of_mem halvesGraph innerEdge
  obtain ⟨outer,outerThere⟩ := adjacent_of_mem halvesGraph outerEdge
  have same := (pairUp_half below).2
  have other := half_opposite below
  unfold is_boundary_node is_source_node is_destination_node
  simp only [List.any_eq_true]
  refine ⟨⟨_,outerThere,?_⟩,⟨_,innerThere,?_⟩,⟨_,innerThere,?_⟩⟩
  · rw [halves_cell,halves_cell]
    simpa [road] using other
  · rw [halves_cell,halves_cell]
    simp [road,same]
  · rw [halves_cell,halves_cell]
    simp [road,same]

private theorem halves_large : 65536 ≤ (CellStorage.source_boundary halvesGraph 1 0).length ∧
    65536 ≤ (CellStorage.destination_boundary halvesGraph 1 0).length := by
  have zero : ∀ node < 65536, node < halvesGraph.number_of_nodes ∧ halvesPartition.GetCell 1 node = 0 := by
    intro node below
    refine ⟨show node < 131072 by lia,?_⟩
    rw [halves_cell,half]
    lia
  have source : List.range 65536 ⊆ CellStorage.source_boundary halvesGraph 1 0 := by
    intro node member
    obtain ⟨inside,cell⟩ := zero node (mem_range.mp member)
    obtain ⟨boundary,starts,_⟩ := halves_nodes inside
    simp [CellStorage.source_boundary,inside,cell,boundary,starts]
  have destination : List.range 65536 ⊆ CellStorage.destination_boundary halvesGraph 1 0 := by
    intro node member
    obtain ⟨inside,cell⟩ := zero node (mem_range.mp member)
    obtain ⟨boundary,_,ends⟩ := halves_nodes inside
    simp [CellStorage.destination_boundary,inside,cell,boundary,ends]
  exact ⟨by simpa using (subperm_of_subset nodup_range source).length_le,
    by simpa using (subperm_of_subset nodup_range destination).length_le⟩

/-- Two cells with 65536 sources and as many destinations share the memory of their values. -/
theorem build_incorrect_halves : ¬ Correct halvesGraph (Storage.build halvesGraph) := by
  intro correct
  have small := sizes_of_correct (show halvesGraph.number_of_nodes ≤ halvesPartition.number_of_nodes from le_rfl)
    (show 131072 < 2 ^ 32 by decide) (by decide) correct le_rfl (show 1 < halvesPartition.GetNumberOfLevels by decide)
    (show 0 < halvesPartition.GetNumberOfCells 1 by decide)
  have large := Nat.mul_le_mul halves_large.1 halves_large.2
  exact absurd small (by omega)

end Osrm.CellLayout
