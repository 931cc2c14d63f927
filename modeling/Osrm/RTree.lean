import Osrm.Phantom
import Osrm.Loops
import Osrm.Packing
import Osrm.Rectangle

/-!
The packed R-tree of `util/static_rtree.hpp`. The segments are put in the order of their Hilbert codes, blocks become
leaves and then parents, and the finished array is turned around, each level in its order.
-/
namespace Osrm.RTree
open List Option
open Loops Packing Rectangle Rectangle.RectangleInt2D
open Typedefs (NodeID)
open Phantom (SegmentID)

/-- `extractor::EdgeBasedNodeSegment`, the segments that are stored in the tree. -/
structure EdgeBasedNodeSegment where
  forward_segment_id : SegmentID
  reverse_segment_id : SegmentID
  u : NodeID
  v : NodeID
  fwd_segment_position : ℕ
  is_startpoint : Bool
  deriving DecidableEq, Repr

structure WrappedInputElement where
  m_hilbert_value : ℕ
  m_original_index : ℕ
  deriving DecidableEq, Repr

/-- The tree; a `TreeNode` is its `minimum_bounding_rectangle`. -/
structure StaticRTree where
  m_search_tree : List RectangleInt2D
  m_coordinate_list : NodeID → Coordinate
  m_tree_level_starts : List ℕ
  m_objects : List EdgeBasedNodeSegment

structure TreeIndex where
  level : ℕ
  offset : ℕ
  deriving DecidableEq, Repr

/-- `web_mercator::fromWGS84` after rounding: longitudes stay as they are. -/
def fromWGS84 (latToY : ℤ → ℤ) (coordinate : Coordinate) : Coordinate := ⟨coordinate.lon,latToY coordinate.lat⟩

/-- What the tree is built with: the template arguments, the projection and Hilbert code of coordinates in floating point,
    and a sort that leaves equal codes in any order. -/
structure Settings where
  BRANCHING_FACTOR : ℕ
  LEAF_NODE_SIZE : ℕ
  latToY : ℤ → ℤ
  GetHilbertCode : Coordinate → Coordinate → ℕ
  parallel_sort : List WrappedInputElement → List WrappedInputElement

variable (settings : Settings) (coordinates : NodeID → Coordinate)

/-- The elements with their Hilbert codes. -/
def input_wrapper_vector (input_data_vector : List EdgeBasedNodeSegment) : List WrappedInputElement :=
  input_data_vector.mapIdx fun element_counter current_element =>
    ⟨settings.GetHilbertCode (coordinates current_element.u) (coordinates current_element.v),element_counter⟩
def order (input_data_vector : List EdgeBasedNodeSegment) : List ℕ :=
  (settings.parallel_sort (input_wrapper_vector settings coordinates input_data_vector)).map (·.m_original_index)
def out_objects (input_data_vector : List EdgeBasedNodeSegment) : List EdgeBasedNodeSegment :=
  (order settings coordinates input_data_vector).filterMap fun input_object_index => input_data_vector[input_object_index]?
def projectedRectangle (object : EdgeBasedNodeSegment) : RectangleInt2D :=
  empty.MergeBoundingBoxes (ofPoints (fromWGS84 settings.latToY (coordinates object.u))
    (fromWGS84 settings.latToY (coordinates object.v)))
/-- One leaf: the next block of segments and its bounding box. -/
def addLeaf (objects : List EdgeBasedNodeSegment) (state : ℕ × List RectangleInt2D) : ℕ × List RectangleInt2D :=
  let current := (objects.drop state.1).take settings.LEAF_NODE_SIZE
  (state.1 + current.length,state.2 ++ [mergeAll (current.map (projectedRectangle settings coordinates))])
def leafLevel (fuel : ℕ) (objects : List EdgeBasedNodeSegment) : Option (ℕ × List RectangleInt2D) :=
  whileLoop (fun state => decide (state.1 < objects.length)) (addLeaf settings coordinates objects) fuel (0,[])

structure Building where
  search_tree : List RectangleInt2D
  nodes_in_previous_level : ℕ
  tree_level_sizes : List ℕ

/-- One level of parents, appended node by node. -/
def addLevel (state : Building) : Building :=
  let previous_level_start_pos := state.search_tree.length - state.nodes_in_previous_level
  let nodes_in_current_level := (state.nodes_in_previous_level + settings.BRANCHING_FACTOR - 1) / settings.BRANCHING_FACTOR
  let search_tree := (List.range nodes_in_current_level).foldl (fun search_tree current_node_idx =>
    let first_child_index := current_node_idx * settings.BRANCHING_FACTOR + previous_level_start_pos
    let last_child_index := first_child_index +
      min settings.BRANCHING_FACTOR (state.nodes_in_previous_level - current_node_idx * settings.BRANCHING_FACTOR)
    search_tree ++ [mergeAll ((List.range' first_child_index (last_child_index - first_child_index)).map
      fun child_node_idx => search_tree.getD child_node_idx empty)]) state.search_tree
  ⟨search_tree,nodes_in_current_level,state.tree_level_sizes ++ [nodes_in_current_level]⟩

/-- The constructor. The array is turned around as a whole and then level by level. -/
def construct (fuel : ℕ) (input_data_vector : List EdgeBasedNodeSegment) : Option StaticRTree := do
  let objects := out_objects settings coordinates input_data_vector
  let leaves ← leafLevel settings coordinates fuel objects
  let built ← whileLoop (fun state => decide (state.nodes_in_previous_level > 1)) (addLevel settings) fuel
    ⟨leaves.2,leaves.2.length,[leaves.2.length]⟩
  let tree_level_sizes := built.tree_level_sizes.reverse
  let tree_level_starts := starts tree_level_sizes
  let search_tree := (List.range tree_level_sizes.length).foldl (fun tree i =>
    reverseRange tree (tree_level_starts.getD i 0) (tree_level_sizes.getD i 0)) built.search_tree.reverse
  return ⟨search_tree,coordinates,tree_level_starts,objects⟩

namespace StaticRTree
variable (tree : StaticRTree)

def is_leaf (treeindex : TreeIndex) : Bool := treeindex.level == tree.m_tree_level_starts.length - 2
def GetLevelSize (level : ℕ) : ℕ := tree.m_tree_level_starts.getD (level + 1) 0 - tree.m_tree_level_starts.getD level 0

/-- The positions of the children, among the segments for a leaf and among the nodes otherwise. -/
def child_indexes (parent : TreeIndex) : List ℕ :=
  if tree.is_leaf parent then
    let first_child_index := parent.offset * settings.LEAF_NODE_SIZE
    let end_child_index := min (first_child_index + settings.LEAF_NODE_SIZE) tree.m_objects.length
    List.range' first_child_index (end_child_index - first_child_index)
  else
    let first_child_index := tree.m_tree_level_starts.getD (parent.level + 1) 0 + parent.offset * settings.BRANCHING_FACTOR
    let end_child_index := min (first_child_index + settings.BRANCHING_FACTOR)
      (tree.m_tree_level_starts.getD (parent.level + 1) 0 + tree.GetLevelSize (parent.level + 1))
    List.range' first_child_index (end_child_index - first_child_index)

end StaticRTree

/-- A tree over the segments in their order on disk: packed levels in the array, from the root down. -/
structure IsTree (objects : List EdgeBasedNodeSegment) (levels : List (List RectangleInt2D)) (tree : StaticRTree) : Prop where
  objects_eq : tree.m_objects = objects
  coordinates_eq : tree.m_coordinate_list = coordinates
  packed : IsPacked mergeAll settings.LEAF_NODE_SIZE settings.BRANCHING_FACTOR
    (objects.map (projectedRectangle settings coordinates)) levels
  root : ∃ last, levels.getLast? = some last ∧ last.length ≤ 1
  search_tree : tree.m_search_tree = levels.reverse.flatten
  level_starts : tree.m_tree_level_starts = starts (levels.reverse.map List.length)

variable {settings coordinates}

private theorem order_perm (sorts : ∀ l, (settings.parallel_sort l).Perm l) (input_data_vector : List EdgeBasedNodeSegment) :
    (order settings coordinates input_data_vector).Perm (List.range input_data_vector.length) := by
  have positions : (input_wrapper_vector settings coordinates input_data_vector).map (·.m_original_index) =
      List.range input_data_vector.length := by
    unfold input_wrapper_vector
    apply ext_getElem
    · simp
    · intro i one two
      simp
  rw [← positions]
  exact (sorts _).map _

private theorem out_objects_get (sorts : ∀ l, (settings.parallel_sort l).Perm l) (input_data_vector : List EdgeBasedNodeSegment) (i : ℕ) :
    (out_objects settings coordinates input_data_vector)[i]? =
      (order settings coordinates input_data_vector)[i]?.bind fun index => input_data_vector[index]? := by
  apply filterMap_get
  intro index member
  exact mem_range.mp ((order_perm sorts input_data_vector).mem_iff.mp member)

theorem exists_place (sorts : ∀ l, (settings.parallel_sort l).Perm l) (input_data_vector : List EdgeBasedNodeSegment) :
    ∃ place : Equiv.Perm (Fin input_data_vector.length), ∀ p : Fin input_data_vector.length,
      (out_objects settings coordinates input_data_vector)[p.val]? = some (input_data_vector.get (place p)) := by
  have permuted : (order settings coordinates input_data_vector).Perm _ := order_perm sorts input_data_vector
  have count : (order settings coordinates input_data_vector).length = input_data_vector.length := by
    simpa using permuted.length_eq
  let place (p : Fin input_data_vector.length) : Fin input_data_vector.length :=
    ⟨(order settings coordinates input_data_vector).get ⟨p,by omega⟩,
      mem_range.mp (permuted.mem_iff.mp (get_mem (order settings coordinates input_data_vector) ⟨p,by omega⟩))⟩
  have injective : Function.Injective place := by
    intro p q same
    have nodup : (order settings coordinates input_data_vector).Nodup := permuted.nodup_iff.mpr nodup_range
    have equal := nodup_iff_injective_get.mp nodup (congrArg Fin.val same)
    exact Fin.ext (Fin.mk.inj_iff.mp equal)
  refine ⟨Equiv.ofBijective place (Finite.injective_iff_bijective.mp injective),fun p => ?_⟩
  rw [out_objects_get sorts,getElem?_eq_getElem (by omega),bind_some]
  exact getElem?_eq_getElem (place p).isLt

theorem out_objects_perm (sorts : ∀ l, (settings.parallel_sort l).Perm l) (input_data_vector : List EdgeBasedNodeSegment) :
    (out_objects settings coordinates input_data_vector).Perm input_data_vector := by
  have moved : (out_objects settings coordinates input_data_vector).Perm _ :=
    (order_perm sorts input_data_vector).filterMap fun index => input_data_vector[index]?
  rwa [filterMap_range] at moved

/-! ### The construction -/

private structure Cut (settings : Settings) (coordinates : NodeID → Coordinate) (objects : List EdgeBasedNodeSegment) (count : ℕ)
    (state : ℕ × List RectangleInt2D) : Prop where
  position : state.1 = min (count * settings.LEAF_NODE_SIZE) objects.length
  leaves : state.2 = (List.range count).map fun j =>
    mergeAll (block settings.LEAF_NODE_SIZE (objects.map (projectedRectangle settings coordinates)) j)
  few : count ≤ blockCount settings.LEAF_NODE_SIZE objects.length

variable {objects : List EdgeBasedNodeSegment}

private theorem Cut.more {count : ℕ} {state : ℕ × List RectangleInt2D} (leaf_pos : 0 < settings.LEAF_NODE_SIZE)
    (cut : Cut settings coordinates objects count state) (left : state.1 < objects.length) :
    Cut settings coordinates objects (count + 1) (addLeaf settings coordinates objects state) := by
  -- segments are left, so all blocks so far are full
  have full : state.1 = count * settings.LEAF_NODE_SIZE := by
    have := cut.position
    omega
  constructor
  · simp only [addLeaf,length_take,length_drop,Nat.succ_mul]
    omega
  · simp only [addLeaf,range_succ,map_append,map_singleton,cut.leaves,full,block_map]
    rfl
  · have := le_blockCount_mul leaf_pos objects.length
    by_contra above
    have : blockCount settings.LEAF_NODE_SIZE objects.length * settings.LEAF_NODE_SIZE ≤ count * settings.LEAF_NODE_SIZE :=
      Nat.mul_le_mul_right _ (by omega)
    omega

private theorem leafLevel_spec (leaf_pos : 0 < settings.LEAF_NODE_SIZE) (objects : List EdgeBasedNodeSegment) :
    ∃ fuel index, ∀ more ≥ fuel, leafLevel settings coordinates more objects =
      some (index,parents mergeAll settings.LEAF_NODE_SIZE (objects.map (projectedRectangle settings coordinates))) := by
  obtain ⟨⟨index,leaves⟩,ran,⟨count,cut⟩,stopped⟩ := whileLoop_total
    (fun state => ∃ count, Cut settings coordinates objects count state) (fun state => objects.length - state.1)
    (fun state inv more => inv.elim fun count cut => ⟨count + 1,cut.more leaf_pos (of_decide_eq_true more)⟩)
    (fun state _ more => by
      have left := of_decide_eq_true more
      simp only [addLeaf,length_take,length_drop]
      omega)
    objects.length (0,[]) ⟨0,by simp,rfl,Nat.zero_le _⟩ (by simp)
  refine ⟨objects.length,index,fun more enough => ?_⟩
  have all : objects.length ≤ count * settings.LEAF_NODE_SIZE := by
    have := cut.position
    have := of_decide_eq_false stopped
    dsimp only at *
    omega
  have exactly : count = blockCount settings.LEAF_NODE_SIZE objects.length := by
    refine le_antisymm cut.few ?_
    refine Nat.lt_succ_iff.mp ((Nat.div_lt_iff_lt_mul leaf_pos).mpr ?_)
    rw [Nat.succ_mul]
    omega
  unfold leafLevel
  rw [whileLoop_mono ran enough,parents,length_map,← exactly]
  exact congrArg (fun l => some (index,l)) cut.leaves

private structure Stacked (settings : Settings) (coordinates : NodeID → Coordinate) (objects : List EdgeBasedNodeSegment)
    (levels : List (List RectangleInt2D)) (last : List RectangleInt2D) (state : Building) : Prop where
  packed : IsPacked mergeAll settings.LEAF_NODE_SIZE settings.BRANCHING_FACTOR
    (objects.map (projectedRectangle settings coordinates)) levels
  top : levels.getLast? = some last
  nodes : state.nodes_in_previous_level = last.length
  search_tree : state.search_tree = levels.flatten
  sizes : state.tree_level_sizes = levels.map List.length

private theorem children_block {α : Type*} (before level after : List α) (d : α) (size j : ℕ) :
    (List.range' (j * size + before.length) (min size (level.length - j * size))).map
      (fun i => (before ++ level ++ after).getD i d) = block size level j := by
  apply ext_getElem?
  intro i
  rw [block,getElem?_map,getElem?_take,getElem?_drop]
  by_cases inside : i < min size (level.length - j * size)
  · rw [getElem?_range' inside,if_pos (by omega),map_some,getD_eq_getElem?_getD,append_assoc,
      getElem?_append_right (by omega),getElem?_append_left (by omega),
      show j * size + before.length + 1 * i - before.length = j * size + i by omega,getElem?_eq_getElem (by omega)]
    rfl
  · rw [getElem?_eq_none (by rw [length_range']; omega),map_none]
    by_cases short : i < size
    · rw [if_pos short,getElem?_eq_none (by omega)]
    · rw [if_neg short]

private theorem Stacked.more {levels : List (List RectangleInt2D)} {last : List RectangleInt2D} {state : Building}
    (stacked : Stacked settings coordinates objects levels last state) :
    Stacked settings coordinates objects (levels ++ [parents mergeAll settings.BRANCHING_FACTOR last])
      (parents mergeAll settings.BRANCHING_FACTOR last) (addLevel settings state) := by
  obtain ⟨before,rfl⟩ : ∃ before, levels = before ++ [last] := getLast?_eq_some_iff.mp stacked.top
  have whole : state.search_tree = before.flatten ++ last := by simp [stacked.search_tree]
  have position : state.search_tree.length - last.length = before.flatten.length := by
    rw [whole,length_append]
    omega
  have appended : (addLevel settings state).search_tree = state.search_tree ++ parents mergeAll settings.BRANCHING_FACTOR last := by
    simp only [addLevel,stacked.nodes,position,parents,blockCount]
    induction (last.length + settings.BRANCHING_FACTOR - 1) / settings.BRANCHING_FACTOR with
    | zero => simp
    | succ count ih =>
      rw [range_succ,foldl_append,ih,foldl_cons,foldl_nil,map_append,map_singleton,
        ← append_assoc,Nat.add_sub_cancel_left,whole,children_block]
  refine ⟨stacked.packed.push stacked.top,by simp,?_,?_,?_⟩
  · rw [parents_length,blockCount,← stacked.nodes]
    rfl
  · rw [appended,flatten_append,stacked.search_tree]
    simp
  · rw [map_append,← stacked.sizes]
    simp only [addLevel,stacked.nodes,map_singleton,parents_length,blockCount]

theorem construct_spec (two : 2 ≤ settings.BRANCHING_FACTOR) (leaf_pos : 0 < settings.LEAF_NODE_SIZE)
    (input_data_vector : List EdgeBasedNodeSegment) :
    ∃ fuel tree levels, (∀ more ≥ fuel, construct settings coordinates more input_data_vector = some tree) ∧
      IsTree settings coordinates (out_objects settings coordinates input_data_vector) levels tree := by
  generalize same : out_objects settings coordinates input_data_vector = objects
  obtain ⟨fuel,index,cut⟩ := @leafLevel_spec settings coordinates leaf_pos objects
  generalize leaves_eq : parents mergeAll settings.LEAF_NODE_SIZE (objects.map (projectedRectangle settings coordinates)) = leaves at cut
  obtain ⟨built,ran,⟨levels,last,stacked⟩,stopped⟩ := whileLoop_total
    (fun state => ∃ levels last, Stacked settings coordinates objects levels last state)
    (fun state => state.nodes_in_previous_level)
    (fun state inv _ => inv.elim fun levels inv => inv.elim fun last stacked => ⟨_,_,stacked.more⟩)
    (fun state _ more => blockCount_lt two (of_decide_eq_true more))
    leaves.length ⟨leaves,leaves.length,[leaves.length]⟩
    ⟨[leaves],leaves,by rw [← leaves_eq]; exact IsPacked.single,rfl,rfl,by simp,rfl⟩ le_rfl
  refine ⟨max fuel leaves.length,⟨levels.reverse.flatten,coordinates,starts (levels.reverse.map List.length),objects⟩,levels,?_,
    rfl,rfl,stacked.packed,⟨last,stacked.top,?_⟩,rfl,rfl⟩
  · intro more enough
    have turned : built.search_tree.reverse = (levels.reverse.map List.reverse).flatten := by
      rw [stacked.search_tree,reverse_flatten,map_reverse]
    have sizes : built.tree_level_sizes.reverse = (levels.reverse.map List.reverse).map List.length := by
      rw [stacked.sizes,List.map_map,← map_reverse]
      exact map_congr_left fun l _ => length_reverse.symm
    have restored := reverseRange_levels (levels.reverse.map List.reverse)
    simp only [construct,same,cut more (by omega),whileLoop_mono ran (show more ≥ leaves.length by omega),bind_eq_bind,
      bind_some,turned,sizes]
    have back : (levels.reverse.map List.reverse).map List.reverse = levels.reverse := by
      rw [List.map_map]
      exact map_id'' (fun l => reverse_reverse l) _
    have lengths : (levels.reverse.map List.reverse).map List.length = levels.reverse.map List.length := by
      rw [List.map_map]
      exact map_congr_left fun l _ => length_reverse
    rw [length_map,restored,back,lengths]
    rfl
  · have := of_decide_eq_false stopped
    rw [← stacked.nodes]
    omega

namespace IsTree
variable {levels : List (List RectangleInt2D)} {tree : StaticRTree} (built : IsTree settings coordinates objects levels tree)
include built

theorem levels_pos : 0 < levels.length := (List.getElem?_eq_some_iff.mp built.packed.lowest).choose

theorem is_leaf_iff (index : TreeIndex) : tree.is_leaf index = true ↔ index.level + 1 = levels.length := by
  have := built.levels_pos
  unfold StaticRTree.is_leaf
  rw [built.level_starts,starts_length,beq_iff_eq,length_map,length_reverse]
  omega

theorem leaf_children {index : TreeIndex} (leaf : tree.is_leaf index = true) :
    tree.child_indexes settings index = below settings.LEAF_NODE_SIZE settings.BRANCHING_FACTOR objects.length 0 index.offset := by
  unfold StaticRTree.child_indexes
  rw [if_pos leaf,below,block_range,built.objects_eq]
  dsimp only
  congr 1
  omega

private theorem level_at {level height : ℕ} (sum : level + height + 1 = levels.length) :
    ∃ nodes, levels[height]? = some nodes ∧ levels.reverse[level]? = some nodes ∧
      nodes.length = width settings.LEAF_NODE_SIZE settings.BRANCHING_FACTOR objects.length height := by
  have inside : height < levels.length := by omega
  refine ⟨levels.get ⟨height,inside⟩,by simp,?_,?_⟩
  · rw [getElem?_reverse (by omega),show levels.length - 1 - level = height by omega]
    simp
  · have := built.packed.length (show levels[height]? = some (levels.get ⟨height,inside⟩) by simp)
    rwa [length_map] at this

private theorem start_at {level : ℕ} (inside : level ≤ levels.length) :
    tree.m_tree_level_starts.getD level 0 = ((levels.reverse.map List.length).take level).sum := by
  rw [built.level_starts,getD_eq_getElem?_getD,starts_get _ (by simpa using inside),getD_some]

private theorem levelSize {level height : ℕ} (sum : level + height + 1 = levels.length) :
    tree.GetLevelSize level = width settings.LEAF_NODE_SIZE settings.BRANCHING_FACTOR objects.length height := by
  obtain ⟨nodes,_,at_level,count⟩ := built.level_at sum
  have here : (levels.reverse.map List.length)[level]? = some nodes.length := by
    rw [getElem?_map,at_level,map_some]
  obtain ⟨short,same⟩ := List.getElem?_eq_some_iff.mp here
  unfold StaticRTree.GetLevelSize
  rw [built.start_at (by omega),built.start_at (by omega),take_succ_eq_append_getElem short,sum_append,same,← count]
  simp

theorem inner_children {index : TreeIndex} {height : ℕ} (sum : index.level + 1 + height + 1 = levels.length) :
    tree.child_indexes settings index = (block settings.BRANCHING_FACTOR
      (List.range (width settings.LEAF_NODE_SIZE settings.BRANCHING_FACTOR objects.length height)) index.offset).map
        fun offset => tree.m_tree_level_starts.getD (index.level + 1) 0 + offset := by
  have inner : ¬tree.is_leaf index = true := by
    rw [built.is_leaf_iff]
    omega
  unfold StaticRTree.child_indexes
  rw [if_neg inner,block_range,map_add_range',built.levelSize sum]
  dsimp only
  congr 1
  omega

theorem child_bounds {level height offset : ℕ} (sum : level + height + 1 = levels.length)
    (child : offset < width settings.LEAF_NODE_SIZE settings.BRANCHING_FACTOR objects.length height) {i : ℕ}
    (lies : i ∈ below settings.LEAF_NODE_SIZE settings.BRANCHING_FACTOR objects.length height offset)
    {object : EdgeBasedNodeSegment} (at_i : objects[i]? = some object) :
    Within (projectedRectangle settings coordinates object)
      (tree.m_search_tree.getD (tree.m_tree_level_starts.getD level 0 + offset) empty) := by
  obtain ⟨nodes,at_height,at_level,count⟩ := built.level_at sum
  have inside : offset < nodes.length := by omega
  have found := flatten_get levels.reverse at_level inside
  rw [built.search_tree,built.start_at (by omega),getD_eq_getElem?_getD,found,getElem?_eq_getElem inside,
    getD_some]
  refine built.packed.bounds Within (fun _ _ _ => Within.trans) (fun _ _ => within_mergeAll) at_height
    (getElem?_eq_getElem inside) (i := i) (by rwa [length_map]) ?_
  rw [getElem?_map,at_i,map_some]

theorem root_below (leaf_pos : 0 < settings.LEAF_NODE_SIZE) (branching_pos : 0 < settings.BRANCHING_FACTOR) :
    below settings.LEAF_NODE_SIZE settings.BRANCHING_FACTOR objects.length (levels.length - 1) 0 = List.range objects.length := by
  obtain ⟨last,top,few⟩ := built.root
  rw [getLast?_eq_getElem?] at top
  have count := built.packed.length top
  rw [length_map] at count
  have all := @flatMap_below _ _ objects.length leaf_pos branching_pos (levels.length - 1)
  rw [← count] at all
  rcases Nat.lt_or_ge 0 last.length with one | none_left
  · rw [show last.length = 1 by omega] at all
    simpa using all
  · rw [show last.length = 0 by omega] at all
    have no_objects : objects.length = 0 := by simpa using (congrArg List.length all).symm
    rw [no_objects,range_zero]
    exact eq_nil_iff_forall_not_mem.mpr fun i lies => absurd (below_lt lies) (Nat.not_lt_zero i)

end IsTree

end Osrm.RTree
