import Mathlib.Data.List.MinMax
import Osrm.PartitionBuild

/-!
`removeUnconnectedBoundaryNodes` of `partitioner/remove_unconnected.hpp`. From the highest level down, a node that has
neighbours in other cells only is moved into the cell of one of them, on this level and on all levels below it.
-/
namespace Osrm.RemoveUnconnected
open List
open Typedefs Osrm.Partition PartitionBuild

structure Edge where
  target : NodeID
  forward : Bool
  backward : Bool
  deriving DecidableEq, Repr

structure Graph where
  GetNumberOfNodes : ℕ
  GetAdjacentEdgeRange : NodeID → List Edge
  bounded : ∀ node < GetNumberOfNodes, ∀ edge ∈ GetAdjacentEdgeRange node, edge.target < GetNumberOfNodes

/-- The partitions with the counters; the lowest level has the index 0. -/
structure Repair where
  partitions : List (NodeID → CellID)
  num_unconnected : ℕ
  could_not_fix : ℕ

def cellAt (partitions : List (NodeID → CellID)) (level_index : ℕ) (node : NodeID) : CellID :=
  (partitions.getD level_index fun _ => 0) node
/-- How many edges of a node would be between cells, up to the repaired level, if it were moved to a witness. -/
def induced_border_edges (partitions : List (NodeID → CellID)) (level_index : ℕ) (edges : List Edge) (id : NodeID) : ℕ :=
  (edges.map fun edge => (List.range (level_index + 1)).countP fun sublevel_index =>
    cellAt partitions sublevel_index edge.target != cellAt partitions sublevel_index id).sum
/-- The subcells of the best witness are assigned to the node. -/
def assign (partitions : List (NodeID → CellID)) (level_index : ℕ) (node best_witness : NodeID) : List (NodeID → CellID) :=
  partitions.mapIdx fun sublevel_index partition =>
    if sublevel_index ≤ level_index then Function.update partition node (partition best_witness) else partition

section Run
variable (graph : Graph)

/-- The body of the loop over the nodes. -/
def visit (level_index : ℕ) (s : Repair) (node : NodeID) : Repair :=
  let edges := graph.GetAdjacentEdgeRange node
  let inside := edges.filter fun edge => cellAt s.partitions level_index edge.target == cellAt s.partitions level_index node
  let outside := edges.filter fun edge => cellAt s.partitions level_index edge.target != cellAt s.partitions level_index node
  let is_source := inside.any (·.forward)
  let is_target := inside.any (·.backward)
  if outside ≠ [] ∧ is_source = false ∧ is_target = false then
    let witnesses := (outside.map (·.target)).filter fun id => decide (level_index + 1 < s.partitions.length →
      cellAt s.partitions (level_index + 1) node = cellAt s.partitions (level_index + 1) id)
    match witnesses.argmin (induced_border_edges s.partitions level_index edges) with
    | none => { s with num_unconnected := s.num_unconnected + 1,could_not_fix := s.could_not_fix + 1 }
    | some best_witness =>
      { s with partitions := assign s.partitions level_index node best_witness,num_unconnected := s.num_unconnected + 1 }
  else s

def repairLevel (s : Repair) (level_index : ℕ) : Repair := (List.range graph.GetNumberOfNodes).foldl (visit graph level_index) s
def removeUnconnectedBoundaryNodes (partitions : List (NodeID → CellID)) : Repair :=
  (List.range partitions.length).reverse.foldl (repairLevel graph) ⟨partitions,0,0⟩

end Run

section Moves
variable {graph : Graph} {partitions : List (NodeID → CellID)} {level_index l k : ℕ} {s : Repair} {node best : NodeID}

/-- Every edge is stored at both of its ends and can be used in some direction. -/
structure Stored (graph : Graph) : Prop where
  mirrored : ∀ node < graph.GetNumberOfNodes, ∀ edge ∈ graph.GetAdjacentEdgeRange node,
    ∃ back ∈ graph.GetAdjacentEdgeRange edge.target, back.target = node
  usable : ∀ node < graph.GetNumberOfNodes, ∀ edge ∈ graph.GetAdjacentEdgeRange node, edge.forward = true ∨ edge.backward = true

/-- A node with a neighbour in another cell has a neighbour in its own cell. -/
def Joined (graph : Graph) (partition : NodeID → CellID) (node : NodeID) : Prop :=
  (∃ edge ∈ graph.GetAdjacentEdgeRange node, partition edge.target ≠ partition node) →
    ∃ edge ∈ graph.GetAdjacentEdgeRange node, partition edge.target = partition node

private theorem cellAt_assign (v : NodeID) :
    cellAt (assign partitions level_index node best) l v = cellAt partitions l (if l ≤ level_index ∧ v = node then best else v) := by
  simp only [cellAt,assign,getD_eq_getElem?_getD,getElem?_mapIdx]
  cases partitions[l]? with
  | none => rfl
  | some partition =>
    by_cases below : l ≤ level_index
    · by_cases same : v = node
      · simp [below,same]
      · simp [below,same,Function.update_of_ne]
    · simp [below]

private theorem nested_iff : Nested partitions graph.GetNumberOfNodes ↔
    ∀ lower higher, lower ≤ higher → higher < partitions.length → ∀ u < graph.GetNumberOfNodes, ∀ v < graph.GetNumberOfNodes,
      cellAt partitions lower u = cellAt partitions lower v → cellAt partitions higher u = cellAt partitions higher v := by
  constructor
  · intro nested lower higher le inside u insideU v insideV same
    exact nested.lift (show 1 ≤ lower + 1 by omega) (show lower + 1 ≤ higher + 1 by omega) (show higher + 1 ≤ partitions.length by omega)
      insideU insideV same
  · intro all
    refine pairwise_iff_getElem.mpr fun i j inside inside' less u insideU v insideV same => ?_
    have above := all i j less.le inside' u insideU v insideV
    simp only [cellAt,getD_eq_getElem?_getD,getElem?_eq_getElem inside,getElem?_eq_getElem inside',Option.getD_some] at above
    exact above same

private theorem assign_nested (nested : Nested partitions graph.GetNumberOfNodes) (insideN : node < graph.GetNumberOfNodes)
    (insideB : best < graph.GetNumberOfNodes)
    (above : level_index + 1 < partitions.length → cellAt partitions (level_index + 1) node = cellAt partitions (level_index + 1) best) :
    Nested (assign partitions level_index node best) graph.GetNumberOfNodes := by
  rw [nested_iff] at nested ⊢
  intro lower higher le inside u insideU v insideV same
  rw [assign,length_mapIdx] at inside
  rw [cellAt_assign,cellAt_assign] at same ⊢
  have moved : ∀ w < graph.GetNumberOfNodes, ∀ l, (if l ≤ level_index ∧ w = node then best else w) < graph.GetNumberOfNodes := by
    intro w insideW l
    split_ifs
    · exact insideB
    · exact insideW
  have lifted := nested lower higher le inside _ (moved u insideU lower) _ (moved v insideV lower) same
  -- above the level that is repaired the node and the witness share their cells
  have alike : ∀ w < graph.GetNumberOfNodes, cellAt partitions higher (if lower ≤ level_index ∧ w = node then best else w) =
      cellAt partitions higher (if higher ≤ level_index ∧ w = node then best else w) := by
    intro w insideW
    by_cases here : w = node
    · by_cases low : lower ≤ level_index
      · by_cases high : higher ≤ level_index
        · simp [low,high]
        · rw [if_pos ⟨low,here⟩,if_neg (by omega),here]
          exact (nested (level_index + 1) higher (by omega) inside node insideN best insideB (above (by omega))).symm
      · simp [low,show ¬ higher ≤ level_index by omega]
    · simp [here]
  rwa [alike u insideU,alike v insideV] at lifted

private theorem assign_joined (stored : Stored graph) (neighbour : ∃ edge ∈ graph.GetAdjacentEdgeRange node, edge.target = best)
    (alone : ∀ edge ∈ graph.GetAdjacentEdgeRange node, cellAt partitions level_index edge.target ≠ cellAt partitions level_index node)
    {v : NodeID} (insideV : v < graph.GetNumberOfNodes) (joined : v = node ∨ Joined graph (cellAt partitions level_index) v) :
    Joined graph (cellAt (assign partitions level_index node best) level_index) v := by
  obtain ⟨witness,member,rfl⟩ := neighbour
  have other : witness.target ≠ node := fun same => alone witness member (by rw [same])
  intro apart
  by_cases here : v = node
  · subst here
    refine ⟨witness,member,?_⟩
    rw [cellAt_assign,cellAt_assign,if_neg fun both => other both.2,if_pos ⟨le_rfl,rfl⟩]
  · have joined := joined.resolve_left here
    obtain ⟨away,leaving,_⟩ := apart
    obtain ⟨edge,known,same⟩ : ∃ edge ∈ graph.GetAdjacentEdgeRange v, cellAt partitions level_index edge.target = cellAt partitions level_index v := by
      by_cases within : cellAt partitions level_index away.target = cellAt partitions level_index v
      · exact ⟨away,leaving,within⟩
      · exact joined ⟨away,leaving,within⟩
    refine ⟨edge,known,?_⟩
    have elsewhere : edge.target ≠ node := by
      intro back
      obtain ⟨mirror,there,returns⟩ := stored.mirrored v insideV edge known
      rw [back] at there same
      exact alone mirror there (by rw [returns,same])
    rw [cellAt_assign,cellAt_assign,if_neg fun both => elsewhere both.2,if_neg fun both => here both.2,same]

end Moves

/-! ### The loops -/

section Loops
variable {graph : Graph} {partitions : List (NodeID → CellID)} {levels level_index k : ℕ} {s : Repair} {node : NodeID}

/-- Between two nodes of a level: the levels above are joined, and so are the visited nodes of the level. -/
structure Repaired (graph : Graph) (levels level_index k : ℕ) (s : Repair) : Prop where
  length : s.partitions.length = levels
  nested : Nested s.partitions graph.GetNumberOfNodes
  above : ∀ l, level_index < l → l < levels → ∀ v < graph.GetNumberOfNodes, Joined graph (cellAt s.partitions l) v
  here : ∀ v < k, Joined graph (cellAt s.partitions level_index) v
  fixed : s.could_not_fix = 0

/-- A node has neighbours, and all of them are in other cells. -/
structure Unconnected (graph : Graph) (partition : NodeID → CellID) (node : NodeID) : Prop where
  leaves : ∃ edge ∈ graph.GetAdjacentEdgeRange node, partition edge.target ≠ partition node
  alone : ∀ edge ∈ graph.GetAdjacentEdgeRange node, partition edge.target ≠ partition node

/-- A neighbour that shares the cell of the level above. -/
structure Usable (graph : Graph) (partitions : List (NodeID → CellID)) (level_index : ℕ) (node best : NodeID) : Prop where
  neighbour : ∃ edge ∈ graph.GetAdjacentEdgeRange node, edge.target = best
  above : level_index + 1 < partitions.length → cellAt partitions (level_index + 1) node = cellAt partitions (level_index + 1) best

private theorem visit_cases (stored : Stored graph) (inside : node < graph.GetNumberOfNodes) (level_index : ℕ) (s : Repair) :
    Joined graph (cellAt s.partitions level_index) node ∧ visit graph level_index s node = s ∨
    Unconnected graph (cellAt s.partitions level_index) node ∧
      ((∃ best, Usable graph s.partitions level_index node best ∧ visit graph level_index s node =
          { s with partitions := assign s.partitions level_index node best,num_unconnected := s.num_unconnected + 1 }) ∨
        ∀ best, ¬ Usable graph s.partitions level_index node best) := by
  by_cases together : ∃ edge ∈ graph.GetAdjacentEdgeRange node,
      cellAt s.partitions level_index edge.target = cellAt s.partitions level_index node
  · obtain ⟨edge,member,same⟩ := together
    refine .inl ⟨fun _ => ⟨edge,member,same⟩,if_neg ?_⟩
    rintro ⟨_,source,target⟩
    have kept : edge ∈ (graph.GetAdjacentEdgeRange node).filter fun edge =>
        cellAt s.partitions level_index edge.target == cellAt s.partitions level_index node :=
      mem_filter.mpr ⟨member,by simpa using same⟩
    cases stored.usable node inside edge member with
    | inl forward => exact any_eq_false.mp source edge kept forward
    | inr backward => exact any_eq_false.mp target edge kept backward
  · have alone : ∀ edge ∈ graph.GetAdjacentEdgeRange node,
        cellAt s.partitions level_index edge.target ≠ cellAt s.partitions level_index node :=
      fun edge member same => together ⟨edge,member,same⟩
    have none_inside : ((graph.GetAdjacentEdgeRange node).filter fun edge =>
        cellAt s.partitions level_index edge.target == cellAt s.partitions level_index node) = [] := by
      simpa [filter_eq_nil_iff] using alone
    have all_outside : ((graph.GetAdjacentEdgeRange node).filter fun edge =>
        cellAt s.partitions level_index edge.target != cellAt s.partitions level_index node) = graph.GetAdjacentEdgeRange node := by
      simpa [filter_eq_self] using alone
    simp only [visit,none_inside,all_outside,any_nil,and_true]
    cases edges : graph.GetAdjacentEdgeRange node with
    | nil => exact .inl ⟨by simp [Joined,edges],by simp⟩
    | cons first rest =>
      rw [← edges]
      refine .inr ⟨⟨⟨first,by simp [edges],alone first (by simp [edges])⟩,alone⟩,?_⟩
      rw [if_pos (by simp [edges])]
      split
      · rename_i none_left
        rw [argmin_eq_none,filter_eq_nil_iff] at none_left
        refine .inr fun best usable => ?_
        obtain ⟨edge,member,rfl⟩ := usable.neighbour
        exact none_left edge.target (mem_map_of_mem member) (decide_eq_true usable.above)
      · rename_i best found
        obtain ⟨member,above⟩ := mem_filter.mp (argmin_mem found)
        obtain ⟨edge,known,same⟩ := mem_map.mp member
        exact .inl ⟨best,⟨⟨edge,known,same⟩,of_decide_eq_true above⟩,rfl⟩

private theorem exists_usable (unconnected : Unconnected graph (cellAt partitions level_index) node)
    (above : level_index + 1 < partitions.length → Joined graph (cellAt partitions (level_index + 1)) node) :
    ∃ best, Usable graph partitions level_index node best := by
  obtain ⟨edge,member,_⟩ := unconnected.leaves
  by_cases higher : level_index + 1 < partitions.length
  · by_cases same : cellAt partitions (level_index + 1) edge.target = cellAt partitions (level_index + 1) node
    · exact ⟨edge.target,⟨edge,member,rfl⟩,fun _ => same.symm⟩
    · obtain ⟨other,known,within⟩ := above higher ⟨edge,member,same⟩
      exact ⟨other.target,⟨other,known,rfl⟩,fun _ => within.symm⟩
  · exact ⟨edge.target,⟨edge,member,rfl⟩,fun top => absurd top higher⟩

private theorem Repaired.visit (stored : Stored graph) (inside : k < graph.GetNumberOfNodes)
    (repaired : Repaired graph levels level_index k s) : Repaired graph levels level_index (k + 1) (visit graph level_index s k) := by
  rcases visit_cases stored inside level_index s with ⟨joined,same⟩ | ⟨unconnected,moved | stuck⟩
  · rw [same]
    refine { repaired with here := fun v below => ?_ }
    rcases Nat.lt_succ_iff_lt_or_eq.mp below with before | rfl
    · exact repaired.here v before
    · exact joined
  · obtain ⟨best,usable,same⟩ := moved
    obtain ⟨edge,member,target⟩ := usable.neighbour
    have insideB : best < graph.GetNumberOfNodes := target ▸ graph.bounded k inside edge member
    rw [same]
    refine ⟨?_,assign_nested repaired.nested inside insideB usable.above,?_,?_,repaired.fixed⟩
    · rw [assign,length_mapIdx,repaired.length]
    · intro l higher lower v insideV
      have kept : cellAt (assign s.partitions level_index k best) l = cellAt s.partitions l := by
        funext w
        rw [cellAt_assign,if_neg fun both => absurd both.1 (by omega)]
      rw [kept]
      exact repaired.above l higher lower v insideV
    · intro v below
      refine assign_joined stored usable.neighbour unconnected.alone (show v < graph.GetNumberOfNodes by omega) ?_
      rcases Nat.lt_succ_iff_lt_or_eq.mp below with before | here
      · exact .inr (repaired.here v before)
      · exact .inl here
  · refine absurd (exists_usable unconnected fun higher => ?_) (not_exists.mpr stuck)
    rw [repaired.length] at higher
    exact repaired.above (level_index + 1) (Nat.lt_succ_self _) higher k inside

private theorem Repaired.repairLevel (stored : Stored graph) (repaired : Repaired graph levels level_index 0 s) :
    Repaired graph levels level_index graph.GetNumberOfNodes (repairLevel graph s level_index) := by
  have visits : ∀ k ≤ graph.GetNumberOfNodes, Repaired graph levels level_index k ((List.range k).foldl (RemoveUnconnected.visit graph level_index) s) := by
    intro k
    induction k with
    | zero => exact fun _ => repaired
    | succ k ih =>
      intro le
      rw [range_succ,foldl_append]
      exact (ih (by omega)).visit stored (by omega)
  exact visits _ le_rfl

structure Done (graph : Graph) (levels : ℕ) (s : Repair) : Prop where
  length : s.partitions.length = levels
  nested : Nested s.partitions graph.GetNumberOfNodes
  joined : ∀ l < levels, ∀ v < graph.GetNumberOfNodes, Joined graph (cellAt s.partitions l) v
  fixed : s.could_not_fix = 0

private theorem levels_done (stored : Stored graph) (count : ℕ) (le : count ≤ levels) (length : s.partitions.length = levels)
    (nested : Nested s.partitions graph.GetNumberOfNodes) (fixed : s.could_not_fix = 0)
    (above : ∀ l, count ≤ l → l < levels → ∀ v < graph.GetNumberOfNodes, Joined graph (cellAt s.partitions l) v) :
    Done graph levels ((List.range count).reverse.foldl (RemoveUnconnected.repairLevel graph) s) := by
  induction count generalizing s with
  | zero => exact ⟨length,nested,fun l => above l (Nat.zero_le l),fixed⟩
  | succ count ih =>
    rw [range_succ,reverse_append,reverse_singleton,singleton_append,foldl_cons]
    have repaired := Repaired.repairLevel stored ⟨length,nested,above,fun v below => absurd below (Nat.not_lt_zero v),fixed⟩
    refine ih (by omega) repaired.length repaired.nested repaired.fixed fun l low => ?_
    rcases Nat.lt_or_eq_of_le low with higher | rfl
    · exact repaired.above l higher
    · exact fun _ => repaired.here

private theorem visit_of_joined (stored : Stored graph) (inside : node < graph.GetNumberOfNodes)
    (joined : Joined graph (cellAt s.partitions level_index) node) : visit graph level_index s node = s := by
  cases visit_cases stored inside level_index s with
  | inl same => exact same.2
  | inr moved =>
    obtain ⟨edge,member,within⟩ := joined moved.1.leaves
    exact absurd within (moved.1.alone edge member)

private theorem run_of_joined (stored : Stored graph)
    (joined : ∀ l < partitions.length, ∀ v < graph.GetNumberOfNodes, Joined graph (cellAt partitions l) v) :
    removeUnconnectedBoundaryNodes graph partitions = ⟨partitions,0,0⟩ := by
  have visits : ∀ l < partitions.length, ∀ nodes : List NodeID, (∀ v ∈ nodes, v < graph.GetNumberOfNodes) →
      nodes.foldl (visit graph l) ⟨partitions,0,0⟩ = ⟨partitions,0,0⟩ := by
    intro l inside nodes known
    induction nodes with
    | nil => rfl
    | cons v nodes ih =>
      obtain ⟨first,rest⟩ := forall_mem_cons.mp known
      rw [foldl_cons,visit_of_joined stored first (joined l inside v first),ih rest]
  have levels : ∀ indices : List ℕ, (∀ l ∈ indices, l < partitions.length) →
      indices.foldl (repairLevel graph) ⟨partitions,0,0⟩ = ⟨partitions,0,0⟩ := by
    intro indices known
    induction indices with
    | nil => rfl
    | cons l indices ih =>
      obtain ⟨first,rest⟩ := forall_mem_cons.mp known
      rw [foldl_cons,repairLevel,visits l first _ fun v => mem_range.mp,ih rest]
  exact levels _ fun l member => mem_range.mp (mem_reverse.mp member)

/-- Boundary repair always succeeds, and a second repair changes nothing. -/
theorem boundary_repaired (stored : Stored graph) (nested : Nested partitions graph.GetNumberOfNodes) :
    Done graph partitions.length (removeUnconnectedBoundaryNodes graph partitions) ∧
      removeUnconnectedBoundaryNodes graph (removeUnconnectedBoundaryNodes graph partitions).partitions =
        ⟨(removeUnconnectedBoundaryNodes graph partitions).partitions,0,0⟩ := by
  have done : Done graph partitions.length (removeUnconnectedBoundaryNodes graph partitions) :=
    levels_done stored partitions.length le_rfl rfl nested rfl fun l high low => absurd low (not_lt.mpr high)
  exact ⟨done,run_of_joined stored (by rw [done.length]; exact done.joined)⟩

end Loops

def ringGraph : Graph :=
  ⟨4,fun node => [⟨(node + 1) % 4,true,false⟩,⟨(node + 3) % 4,false,true⟩],by decide⟩
def ringLevels : List (NodeID → CellID) := [fun node => if node = 2 then 1 else 0,fun _ => 0]

theorem boundary_repaired_ring : Done ringGraph ringLevels.length (removeUnconnectedBoundaryNodes ringGraph ringLevels) ∧
    removeUnconnectedBoundaryNodes ringGraph (removeUnconnectedBoundaryNodes ringGraph ringLevels).partitions =
      ⟨(removeUnconnectedBoundaryNodes ringGraph ringLevels).partitions,0,0⟩ :=
  boundary_repaired ⟨by decide,by decide⟩ (by unfold Nested ringLevels; decide)

end Osrm.RemoveUnconnected
