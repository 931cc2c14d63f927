import Osrm.RTree

/-!
The queries of `util::StaticRTree`. A box is sought level by level, with projected rectangles for inner nodes and
unprojected segments; the nearest segments come from a heap in which nodes wait with a lower bound.
-/
namespace Osrm.RTreeQueries
open List Option
open Loops Packing Rectangle Rectangle.RectangleInt2D RTree
open Typedefs (NodeID)

variable (settings : Settings)

/-! ### Searching in a box -/

/-- The queue of `SearchInBox`, and the segments that the callback was called with. -/
structure BoxSearch where
  traversal_queue : List TreeIndex
  called : List EdgeBasedNodeSegment

def bbox (coordinates : NodeID → Coordinate) (current_edge : EdgeBasedNodeSegment) : RectangleInt2D :=
  ofPoints (coordinates current_edge.u) (coordinates current_edge.v)
def projected_rectangle (search_rectangle : RectangleInt2D) : RectangleInt2D :=
  ⟨search_rectangle.min_lon,search_rectangle.max_lon,settings.latToY search_rectangle.min_lat,
    settings.latToY search_rectangle.max_lat⟩

def boxStep (tree : StaticRTree) (search_rectangle : RectangleInt2D) (state : BoxSearch) : BoxSearch :=
  match state.traversal_queue with
  | [] => state
  | current_tree_index :: rest =>
    if tree.is_leaf current_tree_index then
      ⟨rest,state.called ++ ((tree.child_indexes settings current_tree_index).filterMap fun i => tree.m_objects[i]?).filter
        fun current_edge => (bbox tree.m_coordinate_list current_edge).Intersects search_rectangle⟩
    else
      ⟨rest ++ ((tree.child_indexes settings current_tree_index).filter fun child_index =>
          (tree.m_search_tree.getD child_index empty).Intersects (projected_rectangle settings search_rectangle)).map
        fun child_index => ⟨current_tree_index.level + 1,
          child_index - tree.m_tree_level_starts.getD (current_tree_index.level + 1) 0⟩,state.called⟩

def SearchInBox (fuel : ℕ) (tree : StaticRTree) (search_rectangle : RectangleInt2D) : Option (List EdgeBasedNodeSegment) :=
  (whileLoop (fun state => !state.traversal_queue.isEmpty) (boxStep settings tree search_rectangle) fuel ⟨[⟨0,0⟩],[]⟩).map (·.called)

variable {settings} {coordinates : NodeID → Coordinate} {objects : List EdgeBasedNodeSegment}
  {levels : List (List RectangleInt2D)} {tree : StaticRTree} {search_rectangle : RectangleInt2D}

def segmentsBelow (settings : Settings) (objects : List EdgeBasedNodeSegment) (levels : List (List RectangleInt2D))
    (index : TreeIndex) : List ℕ :=
  below settings.LEAF_NODE_SIZE settings.BRANCHING_FACTOR objects.length (levels.length - 1 - index.level) index.offset

private def cost (settings : Settings) (levels : List (List RectangleInt2D)) (index : TreeIndex) : ℕ :=
  work settings.LEAF_NODE_SIZE settings.BRANCHING_FACTOR (levels.length - 1 - index.level)

/-- The children of an inner node as the searches name them. -/
private def children (settings : Settings) (objects : List EdgeBasedNodeSegment) (height : ℕ) (index : TreeIndex) : List ℕ :=
  block settings.BRANCHING_FACTOR
    (List.range (width settings.LEAF_NODE_SIZE settings.BRANCHING_FACTOR objects.length height)) index.offset

variable {index : TreeIndex} {height : ℕ}

private theorem segmentsBelow_inner (sum : index.level + 1 + height + 1 = levels.length) :
    segmentsBelow settings objects levels index = (children settings objects height index).flatMap fun offset =>
      segmentsBelow settings objects levels ⟨index.level + 1,offset⟩ := by
  unfold segmentsBelow
  rw [show levels.length - 1 - index.level = height + 1 by omega,below]
  dsimp only
  rw [show levels.length - 1 - (index.level + 1) = height by omega]
  rfl

private theorem cost_pos (index : TreeIndex) : 0 < cost settings levels index := by
  unfold cost
  cases levels.length - 1 - index.level <;> simp [work]

private theorem children_cheaper (sum : index.level + 1 + height + 1 = levels.length)
    {offsets : List ℕ} (few : offsets.length ≤ settings.BRANCHING_FACTOR) :
    ((offsets.map fun offset => (⟨index.level + 1,offset⟩ : TreeIndex)).map (cost settings levels)).sum <
      cost settings levels index := by
  have above : cost settings levels index = work settings.LEAF_NODE_SIZE settings.BRANCHING_FACTOR (height + 1) := by
    unfold cost
    rw [show levels.length - 1 - index.level = height + 1 by omega]
  rw [above]
  refine sum_work_lt (by simpa using few) _ fun child member => ?_
  obtain ⟨offset,_,rfl⟩ := mem_map.mp member
  unfold cost
  dsimp only
  rw [show levels.length - 1 - (index.level + 1) = height by omega]

private theorem ends_within (object : EdgeBasedNodeSegment) :
    Within (ofPoints (fromWGS84 settings.latToY (coordinates object.u)) (fromWGS84 settings.latToY (coordinates object.v)))
      (projectedRectangle settings coordinates object) :=
  ⟨min_le_right _ _,le_max_right _ _,min_le_right _ _,le_max_right _ _⟩

private theorem projected_intersects (mono : Monotone settings.latToY) {object : EdgeBasedNodeSegment}
    (meets : (bbox coordinates object).Intersects search_rectangle = true) :
    (projectedRectangle settings coordinates object).Intersects (projected_rectangle settings search_rectangle) = true := by
  refine (ends_within object).intersects ?_
  rw [intersects_iff] at meets ⊢
  obtain ⟨west,east,south,north⟩ := meets
  refine ⟨west,east,?_,?_⟩
  · exact (mono south).trans_eq mono.map_max
  · exact mono.map_min.symm.trans_le (mono north)

/-- The segments below a node that meet the rectangle. -/
private def matching (settings : Settings) (coordinates : NodeID → Coordinate) (objects : List EdgeBasedNodeSegment)
    (levels : List (List RectangleInt2D)) (search_rectangle : RectangleInt2D) (index : TreeIndex) : List EdgeBasedNodeSegment :=
  ((segmentsBelow settings objects levels index).filterMap fun i => objects[i]?).filter
    fun edge => (bbox coordinates edge).Intersects search_rectangle

private theorem flatMap_filter {α β : Type*} {l : List α} {p : α → Bool} {f : α → List β}
    (dropped : ∀ a ∈ l, p a = false → f a = []) : (l.filter p).flatMap f = l.flatMap f := by
  induction l with
  | nil => rfl
  | cons a rest ih =>
    have later := ih fun b member => dropped b (mem_cons_of_mem _ member)
    cases keep : p a with
    | true => rw [filter_cons_of_pos keep,flatMap_cons,flatMap_cons,later]
    | false =>
      rw [filter_cons_of_neg (by simp [keep]),flatMap_cons,dropped a (by simp) keep,later]
      rfl

private theorem pruned (built : IsTree settings coordinates objects levels tree) (mono : Monotone settings.latToY) {height offset : ℕ} (sum : index.level + 1 + height + 1 = levels.length)
    (child : offset ∈ children settings objects height index)
    (apart : (tree.m_search_tree.getD (tree.m_tree_level_starts.getD (index.level + 1) 0 + offset) empty).Intersects
      (projected_rectangle settings search_rectangle) = false) :
    matching settings coordinates objects levels search_rectangle ⟨index.level + 1,offset⟩ = [] := by
  refine eq_nil_iff_forall_not_mem.mpr fun edge member => ?_
  obtain ⟨listed,meets⟩ := mem_filter.mp member
  obtain ⟨i,lies,at_i⟩ := mem_filterMap.mp listed
  unfold segmentsBelow at lies
  rw [show levels.length - 1 - (index.level + 1) = height by omega] at lies
  have bounded := built.child_bounds sum (mem_range.mp (mem_of_mem_block child)) lies at_i
  have := bounded.intersects (projected_intersects mono meets)
  rw [apart] at this
  simp at this

/-- What waits in the queue and what was found make up all matches. -/
private structure Searching (settings : Settings) (coordinates : NodeID → Coordinate) (objects : List EdgeBasedNodeSegment)
    (levels : List (List RectangleInt2D)) (search_rectangle : RectangleInt2D) (state : BoxSearch) : Prop where
  levels_lt : ∀ index ∈ state.traversal_queue, index.level < levels.length
  all : (state.called ++ state.traversal_queue.flatMap (matching settings coordinates objects levels search_rectangle)).Perm
    (objects.filter fun edge => (bbox coordinates edge).Intersects search_rectangle)

private theorem boxStep_leaf (built : IsTree settings coordinates objects levels tree) {rest : List TreeIndex}
    {called : List EdgeBasedNodeSegment} (leaf : tree.is_leaf index = true) :
    boxStep settings tree search_rectangle ⟨index :: rest,called⟩ =
      ⟨rest,called ++ matching settings coordinates objects levels search_rectangle index⟩ := by
  have bottom := (built.is_leaf_iff index).mp leaf
  simp only [boxStep,leaf,if_true,matching,segmentsBelow,built.leaf_children leaf,built.objects_eq,built.coordinates_eq,
    show levels.length - 1 - index.level = 0 by omega]

private theorem boxStep_inner (built : IsTree settings coordinates objects levels tree) {rest : List TreeIndex}
    {called : List EdgeBasedNodeSegment} (sum : index.level + 1 + height + 1 = levels.length) :
    boxStep settings tree search_rectangle ⟨index :: rest,called⟩ =
      ⟨rest ++ ((children settings objects height index).filter fun offset =>
        (tree.m_search_tree.getD (tree.m_tree_level_starts.getD (index.level + 1) 0 + offset) empty).Intersects
          (projected_rectangle settings search_rectangle)).map fun offset => ⟨index.level + 1,offset⟩,called⟩ := by
  have inner : tree.is_leaf index = false := by
    rw [← Bool.not_eq_true,built.is_leaf_iff]
    omega
  simp only [boxStep,inner,Bool.false_eq_true,if_false,built.inner_children sum,List.filter_map,List.map_map,children]
  congr 2
  refine map_congr_left fun offset _ => ?_
  simp

private theorem Searching.step (built : IsTree settings coordinates objects levels tree) (mono : Monotone settings.latToY)
    {state : BoxSearch} (searching : Searching settings coordinates objects levels search_rectangle state)
    (more : (!state.traversal_queue.isEmpty) = true) :
    Searching settings coordinates objects levels search_rectangle (boxStep settings tree search_rectangle state) ∧
      ((boxStep settings tree search_rectangle state).traversal_queue.map (cost settings levels)).sum <
        (state.traversal_queue.map (cost settings levels)).sum := by
  obtain ⟨queue,called⟩ := state
  obtain ⟨levels_lt,all⟩ := searching
  cases queue with
  | nil => simp at more
  | cons index rest =>
    have here := levels_lt index (by simp)
    dsimp only at all levels_lt
    by_cases leaf : tree.is_leaf index = true
    · rw [boxStep_leaf built leaf]
      refine ⟨⟨fun other member => levels_lt other (mem_cons_of_mem _ member),?_⟩,?_⟩
      · rwa [flatMap_cons,← append_assoc] at all
      · simpa using cost_pos index
    · rw [built.is_leaf_iff] at leaf
      obtain ⟨height,sum⟩ : ∃ height, index.level + 1 + height + 1 = levels.length := ⟨levels.length - index.level - 2,by omega⟩
      rw [boxStep_inner built sum]
      refine ⟨⟨?_,?_⟩,?_⟩
      · intro other member
        rcases mem_append.mp member with old | new
        · exact levels_lt other (mem_cons_of_mem _ old)
        · obtain ⟨offset,_,rfl⟩ := mem_map.mp new
          dsimp only
          omega
      · -- the pruned children have nothing to contribute
        have kept : (((children settings objects height index).filter fun offset =>
            (tree.m_search_tree.getD (tree.m_tree_level_starts.getD (index.level + 1) 0 + offset) empty).Intersects
              (projected_rectangle settings search_rectangle)).map fun offset => (⟨index.level + 1,offset⟩ : TreeIndex)).flatMap
                (matching settings coordinates objects levels search_rectangle) =
            matching settings coordinates objects levels search_rectangle index := by
          rw [flatMap_map,flatMap_filter fun offset member apart => pruned built mono sum member apart,matching,
            segmentsBelow_inner sum,filterMap_flatMap,filter_flatMap]
          rfl
        dsimp only
        rw [flatMap_append,kept]
        exact (Perm.append_left called perm_append_comm).trans all
      · have few := (length_filter_le (fun offset =>
            (tree.m_search_tree.getD (tree.m_tree_level_starts.getD (index.level + 1) 0 + offset) empty).Intersects
              (projected_rectangle settings search_rectangle)) (children settings objects height index)).trans
          (block_length_le _ index.offset)
        have cheaper := children_cheaper sum few
        simp only [map_append,sum_append,map_cons,sum_cons,List.map_map] at cheaper ⊢
        omega

private theorem searchInBox_of_tree (built : IsTree settings coordinates objects levels tree) (leaf_pos : 0 < settings.LEAF_NODE_SIZE)
    (branching_pos : 0 < settings.BRANCHING_FACTOR) (mono : Monotone settings.latToY) (search_rectangle : RectangleInt2D) :
    ∃ fuel found, (∀ more ≥ fuel, SearchInBox settings more tree search_rectangle = some found) ∧
      found.Perm (objects.filter fun edge => (bbox coordinates edge).Intersects search_rectangle) := by
  have root : matching settings coordinates objects levels search_rectangle ⟨0,0⟩ =
      objects.filter fun edge => (bbox coordinates edge).Intersects search_rectangle := by
    rw [matching,segmentsBelow]
    dsimp only
    rw [Nat.sub_zero,built.root_below leaf_pos branching_pos,filterMap_range]
  obtain ⟨final,ran,searching,stopped⟩ := whileLoop_total
    (Searching settings coordinates objects levels search_rectangle)
    (fun state => (state.traversal_queue.map (cost settings levels)).sum)
    (fun state searching more => (searching.step built mono more).1)
    (fun state searching more => (searching.step built mono more).2)
    (cost settings levels ⟨0,0⟩) ⟨[⟨0,0⟩],[]⟩ ⟨by simpa using built.levels_pos,by simp [root]⟩ (by simp)
  refine ⟨cost settings levels ⟨0,0⟩,final.called,fun more enough => ?_,?_⟩
  · unfold SearchInBox
    rw [whileLoop_mono ran enough,map_some]
  · have empty_queue : final.traversal_queue = [] := by simpa using stopped
    have all := searching.all
    rwa [empty_queue,flatMap_nil,append_nil] at all

/-- Searching the tree in a box calls back every segment whose bounding box meets it once, and no other. -/
theorem searchInBox_complete (settings : Settings) (coordinates : NodeID → Coordinate) (two : 2 ≤ settings.BRANCHING_FACTOR)
    (leaf_pos : 0 < settings.LEAF_NODE_SIZE) (sorts : ∀ l, (settings.parallel_sort l).Perm l) (mono : Monotone settings.latToY)
    (input_data_vector : List EdgeBasedNodeSegment) (search_rectangle : RectangleInt2D) :
    ∃ fuel tree found, (∀ more ≥ fuel, construct settings coordinates more input_data_vector = some tree ∧
        SearchInBox settings more tree search_rectangle = some found) ∧
      found.Perm (input_data_vector.filter fun edge => (bbox coordinates edge).Intersects search_rectangle) := by
  obtain ⟨fuel,tree,levels,constructs,built⟩ := @construct_spec settings coordinates two leaf_pos input_data_vector
  obtain ⟨fuel',found,searches,same⟩ := searchInBox_of_tree built leaf_pos (by omega) mono search_rectangle
  refine ⟨max fuel fuel',tree,found,fun more enough => ⟨constructs more (by omega),searches more (by omega)⟩,?_⟩
  exact same.trans ((out_objects_perm sorts input_data_vector).filter _)

/-- Three segments of a street, in leaves of one segment and nodes of two children. -/
def streetSettings : Settings := ⟨2,1,id,fun _ _ => 0,id⟩
def streetCoordinates (node : NodeID) : Coordinate := ⟨node,0⟩
def streetSegments : List EdgeBasedNodeSegment :=
  [⟨⟨0,true⟩,⟨1,true⟩,0,1,0,true⟩,⟨⟨2,true⟩,⟨3,true⟩,1,2,0,true⟩,⟨⟨4,true⟩,⟨5,true⟩,2,3,0,true⟩]

theorem searchInBox_complete_street : ∃ fuel tree found,
    (∀ more ≥ fuel, construct streetSettings streetCoordinates more streetSegments = some tree ∧
      SearchInBox streetSettings more tree ⟨2,5,-1,1⟩ = some found) ∧
    found.Perm (streetSegments.drop 1) :=
  searchInBox_complete streetSettings streetCoordinates (by decide) (by decide) (fun l => Perm.refl l) monotone_id
    streetSegments ⟨2,5,-1,1⟩

/-! ### The nearest segments -/

/-- An entry of the traversal queue; a tree node has no segment index. -/
structure QueryCandidate where
  squared_min_dist : ℕ
  tree_index : TreeIndex
  segment_index : Option ℕ
  fixed_projected_coordinate : Coordinate
  deriving DecidableEq, Repr

structure CandidateSegment where
  fixed_projected_coordinate : Coordinate
  data : EdgeBasedNodeSegment
  deriving DecidableEq, Repr

/-- `util::BinaryHeap`: some order with a least candidate in front, which popping takes off. -/
structure BinaryHeap where
  emplace : List QueryCandidate → QueryCandidate → List QueryCandidate
  pop : List QueryCandidate → Option (QueryCandidate × List QueryCandidate)
  emplace_perm : ∀ heap candidate, (emplace heap candidate).Perm (candidate :: heap)
  pop_nil : pop [] = none
  pop_cons : ∀ heap ≠ [], ∃ top rest, pop heap = some (top,rest) ∧ heap.Perm (top :: rest) ∧
    ∀ candidate ∈ heap, top.squared_min_dist ≤ candidate.squared_min_dist

/-- The state of `Nearest`; `stopped` is set by the `break` of its loop. -/
structure NearestSearch where
  traversal_queue : List QueryCandidate
  results : List CandidateSegment
  stopped : Bool

section Nearest
variable (settings : Settings) (heap : BinaryHeap) (projected_nearest : Coordinate → Coordinate → Coordinate → Coordinate)
  (tree : StaticRTree) (input_coordinate : Coordinate)

def nearestPoint (coordinates : NodeID → Coordinate) (edge : EdgeBasedNodeSegment) : Coordinate :=
  projected_nearest (coordinates edge.u) (coordinates edge.v) input_coordinate
def squared_distance (coordinates : NodeID → Coordinate) (edge : EdgeBasedNodeSegment) : ℕ :=
  squaredEuclideanDistance (fromWGS84 settings.latToY input_coordinate)
    (nearestPoint projected_nearest input_coordinate coordinates edge)

/-- The segments of a leaf with their distances. -/
def leafCandidates (leaf_id : TreeIndex) : List QueryCandidate :=
  (tree.child_indexes settings leaf_id).filterMap fun i => tree.m_objects[i]?.map fun current_edge =>
    ⟨squared_distance settings projected_nearest input_coordinate tree.m_coordinate_list current_edge,leaf_id,some i,
      nearestPoint projected_nearest input_coordinate tree.m_coordinate_list current_edge⟩

/-- The children of a node with the distances of their rectangles. -/
def treeCandidates (parent : TreeIndex) : List QueryCandidate :=
  (tree.child_indexes settings parent).map fun child_index =>
    ⟨(tree.m_search_tree.getD child_index empty).GetMinSquaredDist (fromWGS84 settings.latToY input_coordinate),
      ⟨parent.level + 1,child_index - tree.m_tree_level_starts.getD (parent.level + 1) 0⟩,none,⟨0,0⟩⟩

def ExploreLeafNode (leaf_id : TreeIndex) (traversal_queue : List QueryCandidate) : List QueryCandidate :=
  (leafCandidates settings projected_nearest tree input_coordinate leaf_id).foldl heap.emplace traversal_queue
def ExploreTreeNode (parent : TreeIndex) (traversal_queue : List QueryCandidate) : List QueryCandidate :=
  (treeCandidates settings tree input_coordinate parent).foldl heap.emplace traversal_queue

/-- One turn of the loop of `Nearest`. -/
def nearestStep (filter : CandidateSegment → Bool × Bool) (terminate : ℕ → CandidateSegment → Bool) (state : NearestSearch) :
    NearestSearch :=
  match heap.pop state.traversal_queue with
  | none => state
  | some (current_query_node,traversal_queue) =>
    match current_query_node.segment_index with
    | none =>
      if tree.is_leaf current_query_node.tree_index then
        { state with traversal_queue :=
            ExploreLeafNode settings heap projected_nearest tree input_coordinate current_query_node.tree_index traversal_queue }
      else
        { state with traversal_queue :=
            ExploreTreeNode settings heap tree input_coordinate current_query_node.tree_index traversal_queue }
    | some segment_index =>
      match tree.m_objects[segment_index]? with
      | none => { state with traversal_queue }
      | some edge_data =>
        let current_candidate : CandidateSegment := ⟨current_query_node.fixed_projected_coordinate,edge_data⟩
        if terminate state.results.length current_candidate then { state with traversal_queue,stopped := true }
        else
          let use_segment := filter current_candidate
          if !use_segment.1 && !use_segment.2 then { state with traversal_queue }
          else
            { state with
              traversal_queue
              results := state.results ++ [{ current_candidate with
                data := { edge_data with
                  forward_segment_id := { edge_data.forward_segment_id with
                    enabled := edge_data.forward_segment_id.enabled && use_segment.1 }
                  reverse_segment_id := { edge_data.reverse_segment_id with
                    enabled := edge_data.reverse_segment_id.enabled && use_segment.2 } } }] }

def Nearest (fuel : ℕ) (filter : CandidateSegment → Bool × Bool) (terminate : ℕ → CandidateSegment → Bool) :
    Option (List CandidateSegment) :=
  (whileLoop (fun state => !state.traversal_queue.isEmpty && !state.stopped)
    (nearestStep settings heap projected_nearest tree input_coordinate filter terminate) fuel
    ⟨heap.emplace [] ⟨0,⟨0,0⟩,none,⟨0,0⟩⟩,[],false⟩).map (·.results)

end Nearest

section Nearest
variable {heap : BinaryHeap} {k : ℕ} {picks dropped : List ℕ}

private theorem foldl_emplace_perm (candidates queue : List QueryCandidate) :
    (candidates.foldl heap.emplace queue).Perm (candidates ++ queue) := by
  induction candidates generalizing queue with
  | nil => exact Perm.refl _
  | cons candidate rest ih =>
    refine (ih _).trans ?_
    exact ((heap.emplace_perm queue candidate).append_left rest).trans perm_middle

private structure Query where
  settings : Settings
  coordinates : NodeID → Coordinate
  objects : List EdgeBasedNodeSegment
  levels : List (List RectangleInt2D)
  projected_nearest : Coordinate → Coordinate → Coordinate → Coordinate
  input_coordinate : Coordinate

namespace Query
variable (query : Query)

private def standsFor (candidate : QueryCandidate) : List ℕ :=
  match candidate.segment_index with
  | none => segmentsBelow query.settings query.objects query.levels candidate.tree_index
  | some i => [i]

private def distance (edge : EdgeBasedNodeSegment) : ℕ :=
  squared_distance query.settings query.projected_nearest query.input_coordinate query.coordinates edge

private def point (edge : EdgeBasedNodeSegment) : Coordinate :=
  nearestPoint query.projected_nearest query.input_coordinate query.coordinates edge

private def distanceAt (i : ℕ) : ℕ := (query.objects[i]?.map query.distance).getD 0

/-- A candidate is never farther than what it stands for, and a segment has its own distance. -/
private structure Waiting (candidate : QueryCandidate) : Prop where
  level_lt : candidate.segment_index = none → candidate.tree_index.level < query.levels.length
  bound : ∀ i ∈ query.standsFor candidate, candidate.squared_min_dist ≤ query.distanceAt i
  segment : ∀ i, candidate.segment_index = some i → ∃ edge, query.objects[i]? = some edge ∧
    candidate.squared_min_dist = query.distance edge ∧ candidate.fixed_projected_coordinate = query.point edge

/-- What was picked, dropped and what waits are all segments, and what is left is no closer than what was picked. -/
private structure Picked (k : ℕ) (picks dropped : List ℕ) (state : NearestSearch) : Prop where
  waiting : ∀ candidate ∈ state.traversal_queue, query.Waiting candidate
  all : (picks ++ (dropped ++ state.traversal_queue.flatMap query.standsFor)).Perm (List.range query.objects.length)
  results : state.results.map some = picks.map fun i => query.objects[i]?.map fun edge => ⟨query.point edge,edge⟩
  sorted : picks.Pairwise fun i j => query.distanceAt i ≤ query.distanceAt j
  closer : ∀ i ∈ picks, ∀ j ∈ dropped ++ state.traversal_queue.flatMap query.standsFor, query.distanceAt i ≤ query.distanceAt j
  few : picks.length ≤ k
  dropped_nil : state.stopped = false → dropped = []
  stopped_full : state.stopped = true → picks.length = k

end Query

variable {query : Query} {queue rest candidates : List QueryCandidate} {top : QueryCandidate} {results : List CandidateSegment}
  {stopped : Bool}

private theorem Query.Picked.requeue (picked : query.Picked k picks dropped ⟨queue,results,stopped⟩)
    (same : (rest.flatMap query.standsFor).Perm (queue.flatMap query.standsFor)) (waiting : ∀ candidate ∈ rest, query.Waiting candidate) :
    query.Picked k picks dropped ⟨rest,results,stopped⟩ where
  waiting := waiting
  all := ((same.append_left dropped).append_left picks).trans picked.all
  results := picked.results
  sorted := picked.sorted
  closer i member j left := picked.closer i member j (((same.append_left dropped).mem_iff).mp left)
  few := picked.few
  dropped_nil := picked.dropped_nil
  stopped_full := picked.stopped_full

private theorem Query.Picked.expand (picked : query.Picked k picks dropped ⟨queue,results,stopped⟩) (popped : queue.Perm (top :: rest))
    (same : candidates.flatMap query.standsFor = query.standsFor top) (waiting : ∀ candidate ∈ candidates, query.Waiting candidate) :
    query.Picked k picks dropped ⟨candidates.foldl heap.emplace rest,results,stopped⟩ := by
  have contents := @foldl_emplace_perm heap candidates rest
  refine picked.requeue ?_ fun candidate member => ?_
  · have moved := contents.flatMap_right query.standsFor
    rw [flatMap_append,same,← flatMap_cons] at moved
    exact moved.trans (popped.flatMap_right _).symm
  · rcases mem_append.mp (contents.mem_iff.mp member) with new | old
    · exact waiting candidate new
    · exact picked.waiting candidate (popped.mem_iff.mpr (mem_cons_of_mem _ old))

private theorem standsFor_popped (popped : queue.Perm (top :: rest)) {i : ℕ} (segment : top.segment_index = some i) :
    (queue.flatMap query.standsFor).Perm (i :: rest.flatMap query.standsFor) := by
  have alone : query.standsFor top = [i] := by simp [Query.standsFor,segment]
  have moved := popped.flatMap_right query.standsFor
  rwa [flatMap_cons,alone] at moved
private theorem distanceAt_eq {i : ℕ} {edge : EdgeBasedNodeSegment} (at_i : query.objects[i]? = some edge) :
    query.distanceAt i = query.distance edge := by
  rw [Query.distanceAt,at_i,map_some,getD_some]

private theorem Query.Picked.pick (picked : query.Picked k picks [] ⟨queue,results,false⟩) (popped : queue.Perm (top :: rest))
    (least : ∀ candidate ∈ queue, top.squared_min_dist ≤ candidate.squared_min_dist) {i : ℕ} (segment : top.segment_index = some i)
    {edge : EdgeBasedNodeSegment} (at_i : query.objects[i]? = some edge) (exactly : top.squared_min_dist = query.distanceAt i)
    (room : picks.length < k) :
    query.Picked k (picks ++ [i]) [] ⟨rest,results ++ [⟨query.point edge,edge⟩],false⟩ := by
  have whole := @standsFor_popped query _ _ _ popped i segment
  have first : ∀ j ∈ picks, query.distanceAt j ≤ query.distanceAt i := fun j member =>
    picked.closer j member i (whole.mem_iff.mpr (by simp))
  have kept : ∀ candidate ∈ rest, candidate ∈ queue := fun candidate member =>
    popped.mem_iff.mpr (mem_cons_of_mem _ member)
  refine ⟨fun candidate member => picked.waiting candidate (kept candidate member),?_,?_,?_,?_,?_,fun _ => rfl,by simp⟩
  · refine List.Perm.trans ?_ picked.all
    simpa using (whole.symm.append_left picks)
  · rw [map_append,picked.results,map_append]
    simp [at_i]
  · rw [pairwise_append]
    exact ⟨picked.sorted,pairwise_singleton _ _,fun j member l one => (mem_singleton.mp one) ▸ first j member⟩
  · intro j member l left
    rcases mem_append.mp member with old | new
    · exact picked.closer j old l (whole.mem_iff.mpr (mem_cons_of_mem _ left))
    · obtain rfl := mem_singleton.mp new
      obtain ⟨candidate,inside,stands⟩ := mem_flatMap.mp left
      calc query.distanceAt j = top.squared_min_dist := exactly.symm
        _ ≤ candidate.squared_min_dist := least candidate (kept candidate inside)
        _ ≤ query.distanceAt l := (picked.waiting candidate (kept candidate inside)).bound l stands
  · rw [length_append]
    exact room

private theorem Query.Picked.stop (picked : query.Picked k picks [] ⟨queue,results,false⟩) (popped : queue.Perm (top :: rest))
    {i : ℕ} (segment : top.segment_index = some i) (full : k ≤ picks.length) :
    query.Picked k picks [i] ⟨rest,results,true⟩ := by
  have whole := @standsFor_popped query _ _ _ popped i segment
  refine ⟨fun candidate member => picked.waiting candidate (popped.mem_iff.mpr (mem_cons_of_mem _ member)),?_,picked.results,
    picked.sorted,?_,picked.few,by simp,fun _ => le_antisymm picked.few full⟩
  · exact (whole.symm.append_left picks).trans picked.all
  · intro j member l left
    exact picked.closer j member l (whole.mem_iff.mpr left)

variable {tree : StaticRTree} (built : IsTree query.settings query.coordinates query.objects query.levels tree)
include built

private theorem leafCandidates_spec {leaf_id : TreeIndex} (leaf : tree.is_leaf leaf_id = true) :
    (leafCandidates query.settings query.projected_nearest tree query.input_coordinate leaf_id).flatMap query.standsFor =
        segmentsBelow query.settings query.objects query.levels leaf_id ∧
      ∀ candidate ∈ leafCandidates query.settings query.projected_nearest tree query.input_coordinate leaf_id,
        query.Waiting candidate := by
  have bottom := (built.is_leaf_iff leaf_id).mp leaf
  have positions : tree.child_indexes query.settings leaf_id = segmentsBelow query.settings query.objects query.levels leaf_id := by
    rw [built.leaf_children leaf,segmentsBelow,show query.levels.length - 1 - leaf_id.level = 0 by omega]
  unfold leafCandidates
  rw [positions,built.objects_eq,built.coordinates_eq]
  constructor
  · have inside : ∀ i ∈ segmentsBelow query.settings query.objects query.levels leaf_id, i < query.objects.length :=
      fun i lies => below_lt lies
    generalize segmentsBelow query.settings query.objects query.levels leaf_id = l at inside
    induction l with
    | nil => rfl
    | cons i l ih =>
      have found : query.objects[i]? = some (query.objects.get ⟨i,inside i (by simp)⟩) := by simp
      rw [filterMap_cons_some (by rw [found,map_some]),flatMap_cons,
        ih fun j member => inside j (mem_cons_of_mem _ member)]
      rfl
  · intro candidate member
    obtain ⟨i,_,made⟩ := mem_filterMap.mp member
    obtain ⟨edge,at_i,rfl⟩ := map_eq_some_iff.mp made
    refine ⟨by simp,?_,?_⟩
    · intro j stands
      obtain rfl : j = i := by simpa [Query.standsFor] using stands
      rw [distanceAt_eq at_i]
      exact le_rfl
    · intro j same
      obtain rfl : i = j := by simpa using same
      exact ⟨edge,at_i,rfl,rfl⟩

private theorem treeCandidates_spec (inside : ∀ u v location, (ofPoints (fromWGS84 query.settings.latToY u)
      (fromWGS84 query.settings.latToY v)).Contains (query.projected_nearest u v location) = true)
    {parent : TreeIndex} (sum : parent.level + 1 + height + 1 = query.levels.length) :
    (treeCandidates query.settings tree query.input_coordinate parent).flatMap query.standsFor =
        segmentsBelow query.settings query.objects query.levels parent ∧
      ∀ candidate ∈ treeCandidates query.settings tree query.input_coordinate parent, query.Waiting candidate := by
  unfold treeCandidates
  rw [built.inner_children sum,List.map_map]
  constructor
  · rw [flatMap_map,segmentsBelow_inner sum]
    refine flatMap_congr fun offset _ => ?_
    simp [Query.standsFor]
  · intro candidate member
    obtain ⟨offset,child,rfl⟩ := mem_map.mp member
    refine ⟨fun _ => ?_,fun i stands => ?_,by simp⟩
    · dsimp only [Function.comp]
      omega
    · have lies : i ∈ below query.settings.LEAF_NODE_SIZE query.settings.BRANCHING_FACTOR query.objects.length height offset := by
        simpa [Query.standsFor,segmentsBelow,show query.levels.length - 1 - (parent.level + 1) = height by omega] using stands
      have at_i : query.objects[i]? = some (query.objects.get ⟨i,below_lt lies⟩) := by simp
      have bounded := built.child_bounds sum (mem_range.mp (mem_of_mem_block child)) lies at_i
      rw [distanceAt_eq at_i]
      exact minSquaredDist_le (bounded.contains ((ends_within _).contains (inside _ _ _)))

private def Query.candidateCost (query : Query) (candidate : QueryCandidate) : ℕ :=
  match candidate.segment_index with
  | none => cost query.settings query.levels candidate.tree_index
  | some _ => 1

private theorem leafCandidates_cheaper {leaf_id : TreeIndex} (leaf : tree.is_leaf leaf_id = true) :
    ((leafCandidates query.settings query.projected_nearest tree query.input_coordinate leaf_id).map query.candidateCost).sum <
      cost query.settings query.levels leaf_id := by
  have bottom := (built.is_leaf_iff leaf_id).mp leaf
  have each : ∀ c ∈ (leafCandidates query.settings query.projected_nearest tree query.input_coordinate leaf_id).map
      query.candidateCost, c ≤ 1 := by
    intro c member
    obtain ⟨candidate,inside,rfl⟩ := mem_map.mp member
    obtain ⟨i,_,made⟩ := mem_filterMap.mp inside
    obtain ⟨edge,_,rfl⟩ := map_eq_some_iff.mp made
    exact le_rfl
  have few : (tree.child_indexes query.settings leaf_id).length ≤ query.settings.LEAF_NODE_SIZE := by
    rw [built.leaf_children leaf]
    exact block_length_le _ _
  have listed := length_filterMap_le (fun i => tree.m_objects[i]?.map fun current_edge => (⟨squared_distance query.settings
    query.projected_nearest query.input_coordinate tree.m_coordinate_list current_edge,leaf_id,some i,
    nearestPoint query.projected_nearest query.input_coordinate tree.m_coordinate_list current_edge⟩ : QueryCandidate))
    (tree.child_indexes query.settings leaf_id)
  have summed := sum_le_card_nsmul _ 1 each
  rw [length_map,smul_eq_mul,mul_one] at summed
  have price : cost query.settings query.levels leaf_id = query.settings.LEAF_NODE_SIZE + 1 := by
    unfold cost
    rw [show query.levels.length - 1 - leaf_id.level = 0 by omega,work]
  rw [price]
  exact Nat.lt_succ_of_le (summed.trans (listed.trans few))

private theorem treeCandidates_cheaper {parent : TreeIndex} (sum : parent.level + 1 + height + 1 = query.levels.length) :
    ((treeCandidates query.settings tree query.input_coordinate parent).map query.candidateCost).sum <
      cost query.settings query.levels parent := by
  have cheaper := @children_cheaper query.settings query.levels parent height sum _ (block_length_le (List.range
    (width query.settings.LEAF_NODE_SIZE query.settings.BRANCHING_FACTOR query.objects.length height)) parent.offset)
  unfold treeCandidates
  rw [built.inner_children sum,List.map_map,List.map_map]
  rw [List.map_map] at cheaper
  refine lt_of_eq_of_lt ?_ cheaper
  -- what a child costs depends on its level only
  congr 1

variable {state : NearestSearch}

private theorem Query.Picked.step (inside : ∀ u v location, (ofPoints (fromWGS84 query.settings.latToY u)
      (fromWGS84 query.settings.latToY v)).Contains (query.projected_nearest u v location) = true) (picked : query.Picked k picks dropped state)
    (more : (!state.traversal_queue.isEmpty && !state.stopped) = true) :
    (∃ picks dropped, query.Picked k picks dropped (nearestStep query.settings heap query.projected_nearest tree
      query.input_coordinate (fun _ => (true,true)) (fun size _ => decide (size ≥ k)) state)) ∧
    ((nearestStep query.settings heap query.projected_nearest tree query.input_coordinate (fun _ => (true,true))
      (fun size _ => decide (size ≥ k)) state).traversal_queue.map query.candidateCost).sum <
        (state.traversal_queue.map query.candidateCost).sum := by
  obtain ⟨queue,results,stopped⟩ := state
  simp only [Bool.and_eq_true,Bool.not_eq_true',isEmpty_eq_false_iff] at more
  obtain ⟨some_wait,rfl⟩ := more
  obtain ⟨top,rest,pops,popped,least⟩ := heap.pop_cons queue some_wait
  obtain rfl := picked.dropped_nil rfl
  have total : (queue.map query.candidateCost).sum = query.candidateCost top + (rest.map query.candidateCost).sum := by
    rw [(popped.map _).sum_eq,map_cons,sum_cons]
  have front := picked.waiting top (popped.mem_iff.mpr (by simp))
  have expanded : ∀ candidates : List QueryCandidate,
      ((candidates.foldl heap.emplace rest).map query.candidateCost).sum =
        (candidates.map query.candidateCost).sum + (rest.map query.candidateCost).sum := by
    intro candidates
    rw [((foldl_emplace_perm candidates rest).map _).sum_eq,map_append,sum_append]
  cases kind : top.segment_index with
  | none =>
    have here := front.level_lt kind
    have stands : query.standsFor top = segmentsBelow query.settings query.objects query.levels top.tree_index := by
      simp [Query.standsFor,kind]
    have price : query.candidateCost top = cost query.settings query.levels top.tree_index := by simp [Query.candidateCost,kind]
    by_cases leaf : tree.is_leaf top.tree_index = true
    · obtain ⟨same,waiting⟩ := leafCandidates_spec built leaf
      simp only [nearestStep,pops,kind,leaf,if_true,ExploreLeafNode]
      refine ⟨⟨picks,[],picked.expand popped (same.trans stands.symm) waiting⟩,?_⟩
      have cheaper := leafCandidates_cheaper built leaf
      rw [expanded,total,price]
      omega
    · have inner : tree.is_leaf top.tree_index = false := by simpa using leaf
      rw [built.is_leaf_iff] at leaf
      obtain ⟨height,sum⟩ : ∃ height, top.tree_index.level + 1 + height + 1 = query.levels.length :=
        ⟨query.levels.length - top.tree_index.level - 2,by omega⟩
      obtain ⟨same,waiting⟩ := treeCandidates_spec built inside sum
      simp only [nearestStep,pops,kind,inner,Bool.false_eq_true,if_false,ExploreTreeNode]
      refine ⟨⟨picks,[],picked.expand popped (same.trans stands.symm) waiting⟩,?_⟩
      have cheaper := treeCandidates_cheaper built sum
      rw [expanded,total,price]
      omega
  | some i =>
    obtain ⟨edge,at_i,exactly,placed⟩ := front.segment i kind
    have price : query.candidateCost top = 1 := by simp [Query.candidateCost,kind]
    have count : results.length = picks.length := by
      have := congrArg List.length picked.results
      simpa using this
    by_cases full : k ≤ picks.length
    · have ended : nearestStep query.settings heap query.projected_nearest tree query.input_coordinate (fun _ => (true,true))
          (fun size _ => decide (size ≥ k)) ⟨queue,results,false⟩ = ⟨rest,results,true⟩ := by
        simp [nearestStep,pops,kind,built.objects_eq,at_i,count,full]
      rw [ended]
      refine ⟨⟨picks,[i],picked.stop popped kind full⟩,?_⟩
      dsimp only
      omega
    · have taken : nearestStep query.settings heap query.projected_nearest tree query.input_coordinate (fun _ => (true,true))
          (fun size _ => decide (size ≥ k)) ⟨queue,results,false⟩ = ⟨rest,results ++ [⟨query.point edge,edge⟩],false⟩ := by
        simp [nearestStep,pops,kind,built.objects_eq,at_i,count,full,placed]
      rw [taken]
      refine ⟨⟨picks ++ [i],[],picked.pick popped least kind at_i (exactly.trans (distanceAt_eq at_i).symm) (by omega)⟩,?_⟩
      dsimp only
      omega

private theorem nearest_picks (leaf_pos : 0 < query.settings.LEAF_NODE_SIZE) (branching_pos : 0 < query.settings.BRANCHING_FACTOR)
    (inside : ∀ u v location, (ofPoints (fromWGS84 query.settings.latToY u)
      (fromWGS84 query.settings.latToY v)).Contains (query.projected_nearest u v location) = true) (heap : BinaryHeap) (k : ℕ) :
    ∃ fuel final picks dropped, (∀ more ≥ fuel, Nearest query.settings heap query.projected_nearest tree query.input_coordinate more
        (fun _ => (true,true)) (fun size _ => decide (size ≥ k)) = some final.results) ∧
      query.Picked k picks dropped final ∧ (final.stopped = false → final.traversal_queue = []) := by
  have single : heap.emplace [] ⟨0,⟨0,0⟩,none,⟨0,0⟩⟩ = [⟨0,⟨0,0⟩,none,⟨0,0⟩⟩] := perm_singleton.mp (heap.emplace_perm _ _)
  have root : query.standsFor ⟨0,⟨0,0⟩,none,⟨0,0⟩⟩ = List.range query.objects.length := by
    simp only [Query.standsFor,segmentsBelow,Nat.sub_zero]
    exact built.root_below leaf_pos branching_pos
  have start : query.Picked k [] [] ⟨[⟨0,⟨0,0⟩,none,⟨0,0⟩⟩],[],false⟩ := by
    refine ⟨?_,?_,rfl,List.Pairwise.nil,by simp,Nat.zero_le _,fun _ => rfl,by simp⟩
    · intro candidate member
      cases mem_singleton.mp member
      exact ⟨fun _ => built.levels_pos,fun _ _ => Nat.zero_le _,by simp⟩
    · simp [root]
  obtain ⟨final,ran,⟨picks,dropped,picked⟩,ended⟩ := whileLoop_total
    (fun state => ∃ picks dropped, query.Picked k picks dropped state)
    (fun state => (state.traversal_queue.map query.candidateCost).sum)
    (fun state inv more => inv.elim fun picks inv => inv.elim fun dropped picked => (picked.step built inside more).1)
    (fun state inv more => inv.elim fun picks inv => inv.elim fun dropped picked => (picked.step built inside more).2)
    (query.candidateCost ⟨0,⟨0,0⟩,none,⟨0,0⟩⟩) _ ⟨[],[],start⟩ (by simp)
  refine ⟨query.candidateCost ⟨0,⟨0,0⟩,none,⟨0,0⟩⟩,final,picks,dropped,fun more enough => ?_,picked,?_⟩
  · unfold Nearest
    rw [single,whileLoop_mono ran enough,map_some]
  · intro running
    simpa [running] using ended

omit built

private theorem Query.Picked.left (picked : query.Picked k picks dropped state) {i j : ℕ} (taken : i ∈ picks)
    (position : j < query.objects.length) (other : j ∉ picks) : query.distanceAt i ≤ query.distanceAt j := by
  rcases mem_append.mp (picked.all.mem_iff.mpr (mem_range.mpr position)) with one | rest
  · exact absurd one other
  · exact picked.closer i taken j rest

private theorem Query.Picked.length (picked : query.Picked k picks dropped state)
    (ended : state.stopped = false → state.traversal_queue = []) : picks.length = min k query.objects.length := by
  have count := picked.all.length_eq
  rw [length_append,length_range] at count
  cases stops : state.stopped with
  | true =>
    have := picked.stopped_full stops
    omega
  | false =>
    have := picked.few
    rw [picked.dropped_nil stops,ended stops] at count
    simp only [nil_append,flatMap_nil,length_nil] at count
    omega

end Nearest

/-- The nearest segments, up to a limit and in the order of their distances; none that is left out is closer. -/
theorem nearest_eq_bruteForce (settings : Settings) (coordinates : NodeID → Coordinate) (two : 2 ≤ settings.BRANCHING_FACTOR)
    (leaf_pos : 0 < settings.LEAF_NODE_SIZE) (sorts : ∀ l, (settings.parallel_sort l).Perm l) (heap : BinaryHeap)
    (projected_nearest : Coordinate → Coordinate → Coordinate → Coordinate)
    (inside : ∀ u v location, (ofPoints (fromWGS84 settings.latToY u) (fromWGS84 settings.latToY v)).Contains
      (projected_nearest u v location) = true)
    (input_data_vector : List EdgeBasedNodeSegment) (input_coordinate : Coordinate) (k : ℕ) :
    ∃ fuel tree found, (∀ more ≥ fuel, construct settings coordinates more input_data_vector = some tree ∧
        Nearest settings heap projected_nearest tree input_coordinate more (fun _ => (true,true)) (fun size _ => decide (size ≥ k)) =
          some found) ∧
      ∃ picks : List (Fin input_data_vector.length),
        found = picks.map (fun i => ⟨nearestPoint projected_nearest input_coordinate coordinates (input_data_vector.get i),
          input_data_vector.get i⟩) ∧
        picks.Nodup ∧ picks.length = min k input_data_vector.length ∧
        picks.Pairwise (fun i j => squared_distance settings projected_nearest input_coordinate coordinates (input_data_vector.get i) ≤
          squared_distance settings projected_nearest input_coordinate coordinates (input_data_vector.get j)) ∧
        ∀ i ∈ picks, ∀ j ∉ picks,
          squared_distance settings projected_nearest input_coordinate coordinates (input_data_vector.get i) ≤
            squared_distance settings projected_nearest input_coordinate coordinates (input_data_vector.get j) := by
  obtain ⟨fuel,tree,levels,constructs,built⟩ := @construct_spec settings coordinates two leaf_pos input_data_vector
  let query : Query := ⟨settings,coordinates,out_objects settings coordinates input_data_vector,levels,projected_nearest,
    input_coordinate⟩
  obtain ⟨fuel',final,positions,dropped,searches,picked,ended⟩ := @nearest_picks query tree built leaf_pos (by change 0 < settings.BRANCHING_FACTOR; omega) inside heap k
  refine ⟨max fuel fuel',tree,final.results,fun more enough => ⟨constructs more (by omega),searches more (by omega)⟩,?_⟩
  obtain ⟨place,placed⟩ : ∃ place : Equiv.Perm (Fin input_data_vector.length), ∀ p : Fin input_data_vector.length,
    query.objects[p.val]? = some (input_data_vector.get (place p)) := exists_place sorts input_data_vector
  have count : query.objects.length = input_data_vector.length := (out_objects_perm sorts input_data_vector).length_eq
  have distances : ∀ p : Fin input_data_vector.length, query.distanceAt p =
      squared_distance settings projected_nearest input_coordinate coordinates (input_data_vector.get (place p)) :=
    fun p => distanceAt_eq (placed p)
  have size := picked.length ended
  have distinct : positions.Nodup := (nodup_append.mp (picked.all.nodup_iff.mpr nodup_range)).1
  have bounded : ∀ p ∈ positions, p < input_data_vector.length := fun p member =>
    count ▸ mem_range.mp (picked.all.mem_iff.mp (mem_append_left _ member))
  obtain ⟨positions,rfl⟩ : ∃ l : List (Fin input_data_vector.length), l.map Fin.val = positions := CanLift.prf _ bounded
  refine ⟨positions.map place,?_,?_,?_,?_,?_⟩
  · apply map_injective_iff.mpr (some_injective CandidateSegment)
    rw [picked.results,List.map_map,List.map_map,List.map_map]
    refine map_congr_left fun p _ => ?_
    simp only [Function.comp,placed p,map_some]
    rfl
  · exact (Nodup.of_map _ distinct).map place.injective
  · rw [length_map] at size ⊢
    rw [size,count]
  · have sorted := picked.sorted
    rw [pairwise_map] at sorted ⊢
    exact sorted.imp fun {p q} le => by rwa [distances,distances] at le
  · intro i taken j left
    obtain ⟨p,member,rfl⟩ := mem_map.mp taken
    have outside : (place.symm j).val ∉ positions.map Fin.val := by
      intro inside
      obtain ⟨q,among,same⟩ := mem_map.mp inside
      exact left (mem_map.mpr ⟨q,among,by rw [Fin.ext same,Equiv.apply_symm_apply]⟩)
    have closer := picked.left (mem_map_of_mem member) (by rw [count]; exact (place.symm j).isLt) outside
    rwa [distances,distances,Equiv.apply_symm_apply] at closer

/-- A heap that sorts its array before it pops. -/
def sortingHeap : BinaryHeap where
  emplace heap candidate := candidate :: heap
  pop heap :=
    match heap.mergeSort fun a b => decide (a.squared_min_dist ≤ b.squared_min_dist) with
    | [] => none
    | top :: rest => some (top,rest)
  emplace_perm heap candidate := Perm.refl _
  pop_nil := by simp
  pop_cons heap filled := by
    have same := mergeSort_perm heap fun a b => decide (a.squared_min_dist ≤ b.squared_min_dist)
    have sorted : (heap.mergeSort fun a b => decide (a.squared_min_dist ≤ b.squared_min_dist)).Pairwise
        fun a b => decide (a.squared_min_dist ≤ b.squared_min_dist) = true := pairwise_mergeSort
      (by simp only [decide_eq_true_eq]; exact fun a b c => Nat.le_trans)
      (by simp only [Bool.or_eq_true,decide_eq_true_eq]; exact fun a b => Nat.le_total _ _) heap
    cases shape : heap.mergeSort fun a b => decide (a.squared_min_dist ≤ b.squared_min_dist) with
    | nil =>
      rw [shape] at same
      exact absurd same.symm.eq_nil filled
    | cons top rest =>
      rw [shape] at same sorted
      refine ⟨top,rest,rfl,same.symm,fun candidate member => ?_⟩
      rcases mem_cons.mp (same.mem_iff.mpr member) with rfl | later
      · exact le_rfl
      · exact of_decide_eq_true (rel_of_pairwise_cons sorted later)

def clampToBox (u v location : Coordinate) : Coordinate :=
  ⟨max (min u.lon v.lon) (min location.lon (max u.lon v.lon)),max (min u.lat v.lat) (min location.lat (max u.lat v.lat))⟩

theorem nearest_eq_bruteForce_street : ∃ fuel tree found,
    (∀ more ≥ fuel, construct streetSettings streetCoordinates more streetSegments = some tree ∧
      Nearest streetSettings sortingHeap clampToBox tree ⟨0,1⟩ more (fun _ => (true,true)) (fun size _ => decide (size ≥ 2)) =
        some found) ∧ found.length = 2 := by
  obtain ⟨fuel,tree,found,runs,picks,rfl,_,size,_⟩ := nearest_eq_bruteForce streetSettings streetCoordinates (by decide) (by decide)
    (fun l => Perm.refl l) sortingHeap clampToBox (fun u v location => by
      rw [contains_iff]
      simp only [clampToBox,ofPoints,fromWGS84,streetSettings,id]
      omega) streetSegments ⟨0,1⟩ 2
  refine ⟨fuel,tree,_,runs,?_⟩
  rw [length_map,size]
  rfl

end Osrm.RTreeQueries
