import Osrm.QueryGraph
import Osrm.Search
import Osrm.Loops

/-!
`ch::search`, the bidirectional search of `routing_base_ch`. Both directions climb the
hierarchy, a node is stalled where a neighbour offers a lighter way to it, and a
direction gives up once its minimum exceeds the best weight found.
-/
namespace Osrm.ChSearch
open List
open Typedefs Walks Heap QueryGraph NodeContraction Contraction

structure HeapData where
  parent : NodeID
  deriving DecidableEq, Repr

abbrev Heap := QueryHeap NodeID HeapData

/-- `stallAtNode`, for every kind of heap. -/
def stallAtNode {Data : Type} (graph : Graph) (direction : Direction) (heapNode : HeapNode NodeID Data)
    (query_heap : QueryHeap NodeID Data) : Bool :=
  (graph.GetAdjacentEdgeRange heapNode.node).any fun edge =>
    edge.1.data.usable direction.opposite &&
      match query_heap.GetHeapNodeIfWasInserted edge.1.target with
      | some toHeapNode => toHeapNode.weight + edge.1.data.weight < heapNode.weight
      | none => false

def relaxCandidates (graph : Graph) (direction : Direction) (heapNode : HeapNode NodeID HeapData) :
    List (QueryHeap.Candidate NodeID HeapData) :=
  (graph.GetAdjacentEdgeRange heapNode.node).filterMap fun edge =>
    if edge.1.data.usable direction then
      some ⟨edge.1.target,heapNode.weight + edge.1.data.weight,fun _ => ⟨heapNode.node⟩⟩
    else none

def relaxOutgoingEdges (graph : Graph) (direction : Direction) (heapNode : HeapNode NodeID HeapData) (heap : Heap) :
    Heap :=
  heap.insertOrUpdateAll lighter (relaxCandidates graph direction heapNode)
def shouldForceStep (force_nodes : List NodeID) (forward_heap_node reverse_heap_node : HeapNode NodeID HeapData) :
    Bool :=
  forward_heap_node.data.parent == forward_heap_node.node &&
    reverse_heap_node.data.parent == reverse_heap_node.node && force_nodes.contains forward_heap_node.node

/-- The best meeting node and its weight; `none` stands for `SPECIAL_NODEID`. -/
structure Meeting where
  middle_node_id : Option NodeID
  upper_bound : EdgeWeight
  deriving DecidableEq, Repr

/-- The part of `routingStep` that looks for a better meeting node. -/
def meet (graph : Graph) (direction : Direction) (force_step_nodes : List NodeID)
    (heapNode : HeapNode NodeID HeapData) (reverse_heap : Heap) (meeting : Meeting) : Meeting :=
  match reverse_heap.GetHeapNodeIfWasInserted heapNode.node with
  | none => meeting
  | some reverseHeapNode =>
    let new_weight := reverseHeapNode.weight + heapNode.weight
    if new_weight < meeting.upper_bound then
      if shouldForceStep force_step_nodes heapNode reverseHeapNode || new_weight < 0 then
        (graph.GetAdjacentEdgeRange heapNode.node).foldl (fun meeting edge =>
          if edge.1.data.usable direction && edge.1.target == heapNode.node then
            let loop_weight := new_weight + edge.1.data.weight
            if loop_weight ≥ 0 && loop_weight < meeting.upper_bound then ⟨some heapNode.node,loop_weight⟩ else meeting
          else meeting) meeting
      else ⟨some heapNode.node,new_weight⟩
    else meeting

/-- `routingStep` with stalling, on a heap that is not empty. -/
def routingStep (graph : Graph) (direction : Direction) (min_edge_offset : EdgeWeight) (force_step_nodes : List NodeID)
    (forward_heap reverse_heap : Heap) (meeting : Meeting) : Heap × Meeting :=
  match forward_heap.DeleteMin with
  | none => (forward_heap,meeting)
  | some (heapNode,rest) =>
    let meeting := meet graph direction force_step_nodes heapNode reverse_heap meeting
    if heapNode.weight + min_edge_offset > meeting.upper_bound then (rest.DeleteAll,meeting)
    else if stallAtNode graph direction heapNode rest then (rest,meeting)
    else (relaxOutgoingEdges graph direction heapNode rest,meeting)

structure SearchState where
  forward_heap : Heap
  reverse_heap : Heap
  meeting : Meeting

/-- One of the two routing steps in the body of the loop of `search`. -/
def halfStep (graph : Graph) (min_edge_offset : EdgeWeight) (force_step_nodes : List NodeID) (direction : Direction)
    (s : SearchState) : SearchState :=
  match direction with
  | .FORWARD =>
    if !s.forward_heap.Empty then
      let step := routingStep graph .FORWARD min_edge_offset force_step_nodes s.forward_heap s.reverse_heap s.meeting
      { s with forward_heap := step.1,meeting := step.2 }
    else s
  | .REVERSE =>
    if !s.reverse_heap.Empty then
      let step := routingStep graph .REVERSE min_edge_offset force_step_nodes s.reverse_heap s.forward_heap s.meeting
      { s with reverse_heap := step.1,meeting := step.2 }
    else s

def searchStep (graph : Graph) (min_edge_offset : EdgeWeight) (force_step_nodes : List NodeID) (s : SearchState) :
    SearchState :=
  halfStep graph min_edge_offset force_step_nodes .REVERSE (halfStep graph min_edge_offset force_step_nodes .FORWARD s)
def parentOf (heap : Heap) (node : NodeID) : NodeID :=
  ((heap.GetHeapNodeIfWasInserted node).map (·.data.parent)).getD node

/-- `retrievePackedPathFromSingleHeap`, with the path that it extends. -/
def retrievePackedPathFromSingleHeap (fuel : ℕ) (search_heap : Heap) (middle_node_id : NodeID)
    (packed_path : List NodeID) : Option (List NodeID) :=
  (Loops.whileLoop
    (fun s : NodeID × List NodeID => s.1 != parentOf search_heap s.1 && search_heap.WasInserted (parentOf search_heap s.1))
    (fun s => (parentOf search_heap s.1,s.2 ++ [parentOf search_heap s.1])) fuel (middle_node_id,packed_path)).map (·.2)

def retrievePackedPathFromHeap (fuel : ℕ) (forward_heap reverse_heap : Heap) (middle_node_id : NodeID) :
    Option (List NodeID) := do
  let packed_path ← retrievePackedPathFromSingleHeap fuel forward_heap middle_node_id []
  retrievePackedPathFromSingleHeap fuel reverse_heap middle_node_id (packed_path.reverse ++ [middle_node_id])

/-- What `search` returns once its loop has ended. -/
def searchResult (fuel : ℕ) (weight_upper_bound : EdgeWeight) (s : SearchState) : Option (EdgeWeight × List NodeID) :=
  match s.meeting.middle_node_id with
  | none => some (INVALID_EDGE_WEIGHT,[])
  | some middle =>
    if weight_upper_bound ≤ s.meeting.upper_bound then some (INVALID_EDGE_WEIGHT,[])
    else if s.meeting.upper_bound ≠ s.forward_heap.GetKey middle + s.reverse_heap.GetKey middle then
      some (s.meeting.upper_bound,[middle,middle])
    else
      (retrievePackedPathFromHeap fuel s.forward_heap s.reverse_heap middle).map (s.meeting.upper_bound,·)

/-- `search`: the weight and the packed leg, or `none` if the fuel does not suffice. -/
def search (fuel : ℕ) (graph : Graph) (forward_heap reverse_heap : Heap) (force_step_nodes : List NodeID)
    (weight_upper_bound : EdgeWeight) : Option (EdgeWeight × List NodeID) :=
  if forward_heap.Empty || reverse_heap.Empty then some (INVALID_EDGE_WEIGHT,[])
  else
    (Loops.whileLoop (fun s : SearchState => 0 < s.forward_heap.Size + s.reverse_heap.Size)
      (searchStep graph (min 0 forward_heap.MinKey) force_step_nodes) fuel
      ⟨forward_heap,reverse_heap,none,weight_upper_bound⟩).bind (searchResult fuel weight_upper_bound)

/-! ### One direction -/

/-- What a direction keeps up: labels stand for walks, entries name their parents, and stalled nodes have lighter ways. -/
def side (A F : Arcs NodeID) (s : NodeID) : Search.Direction NodeID HeapData where
  arcs := F
  Source x o := x = s ∧ o = 0
  Sound x k := ∃ m ≤ k, Walk A s x m
  Skipped x k := ∃ k' < k, ∃ m ≤ k', Walk A s x m
  Good S x k d := (x = s ∧ k = 0 ∧ d.parent = s) ∨ ∃ k' d' w, S d.parent k' d' ∧ F d.parent x w ∧ k = k' + w
  good_mono more := by
    rintro x k d (start | ⟨k',d',w,settled,rest⟩)
    · exact .inl start
    · exact .inr ⟨k',d',w,more _ _ _ settled,rest⟩

variable {A F B : Arcs NodeID} {graph : Graph} {direction : Direction} {heap rest reverse_heap : Heap}
  {heapNode : HeapNode NodeID HeapData} {meeting : Meeting} {limit limit' : ℤ} {s t : NodeID}

private theorem mem_relaxCandidates {c : QueryHeap.Candidate NodeID HeapData}
    (inside : c ∈ relaxCandidates graph direction heapNode) :
    ∃ w, graph.arcs direction heapNode.node c.node w ∧ c.weight = heapNode.weight + w ∧
      ∀ old, c.data old = ⟨heapNode.node⟩ := by
  obtain ⟨edge,member,made⟩ := mem_filterMap.mp inside
  split at made
  · rename_i usable
    cases made
    exact ⟨edge.1.data.weight,⟨edge,member,rfl,usable,rfl⟩,rfl,fun _ => rfl⟩
  · simp at made

private theorem relaxCandidates_mem {y : NodeID} {w : ℤ} (arc : graph.arcs direction heapNode.node y w) :
    ∃ c ∈ relaxCandidates graph direction heapNode, c.node = y ∧ c.weight = heapNode.weight + w := by
  obtain ⟨edge,member,rfl,usable,rfl⟩ := arc
  exact ⟨⟨edge.1.target,heapNode.weight + edge.1.data.weight,fun _ => ⟨heapNode.node⟩⟩,
    mem_filterMap.mpr ⟨edge,member,by simp [usable]⟩,rfl,rfl⟩

theorem stallAtNode_lighter {Data : Type} (Sound : NodeID → ℤ → Prop) {heapNode : HeapNode NodeID Data}
    {rest : QueryHeap NodeID Data}
    (extend : ∀ x y k w, Sound y k → graph.arcs direction.opposite x y w → Sound x (k + w))
    (sound : ∀ e ∈ rest.inserted_nodes, Sound e.node e.weight)
    (stalled : stallAtNode graph direction heapNode rest = true) :
    ∃ k < heapNode.weight, Sound heapNode.node k := by
  obtain ⟨edge,member,holds⟩ := any_eq_true.mp stalled
  rw [Bool.and_eq_true] at holds
  obtain ⟨usable,lighter⟩ := holds
  split at lighter
  · rename_i other found
    obtain ⟨inside,same⟩ := find_some found
    exact ⟨other.weight + edge.1.data.weight,by simpa using lighter,
      extend _ _ _ _ (same ▸ sound other inside) ⟨edge,member,rfl,usable,rfl⟩⟩
  · simp at lighter

private theorem reach_extend (climb : Climb A F B) {x y : NodeID} {k w : ℤ} (sound : ∃ m ≤ k, Walk A s x m) (arc : F x y w) :
    ∃ m ≤ k + w, Walk A s y m := by
  obtain ⟨m,mLe,walk⟩ := sound
  obtain ⟨m',mLe',more⟩ := climb.soundF _ _ _ arc
  exact ⟨m + m',by lia,walk.append more⟩

private theorem reach_back (climb : Climb A F B) {x y : NodeID} {k w : ℤ} (sound : ∃ m ≤ k, Walk A s y m) (arc : B x y w) :
    ∃ m ≤ k + w, Walk A s x m := by
  obtain ⟨m,mLe,walk⟩ := sound
  obtain ⟨m',mLe',back⟩ := climb.soundB _ _ _ arc
  exact ⟨m + m',by lia,walk.append back⟩

/-- What a routing step does to the heap it takes a node from. -/
private structure Stepped (A F : Arcs NodeID) (s : NodeID) (heap after : Heap) (heapNode : HeapNode NodeID HeapData)
    (limit : ℤ) : Prop where
  inv : Search.Invariant (side A F s) after limit
  distinct : (after.inserted_nodes.map (·.node)).Nodup
  taken : { heapNode with removed := true } ∈ after.inserted_nodes
  settled : ∀ e ∈ after.inserted_nodes, e.removed = true → e.weight ≤ limit →
    e = { heapNode with removed := true } ∨ e ∈ heap.inserted_nodes
  labels : ∀ e ∈ heap.inserted_nodes, ∃ e' ∈ after.inserted_nodes, e'.node = e.node ∧ e'.weight ≤ e.weight

private def stepHeap (graph : Graph) (direction : Direction) (heapNode : HeapNode NodeID HeapData) (rest : Heap)
    (upper_bound : ℤ) : Heap :=
  if heapNode.weight > upper_bound then rest.DeleteAll
  else if stallAtNode graph direction heapNode rest then rest
  else relaxOutgoingEdges graph direction heapNode rest

private theorem stepHeap_stepped (climb : Climb A (graph.arcs direction) (graph.arcs direction.opposite))
    (inv : Search.Invariant (side A (graph.arcs direction) s) heap limit)
    (distinct : (heap.inserted_nodes.map (·.node)).Nodup) (popped : heap.DeleteMin = some (heapNode,rest))
    (le : limit' ≤ limit) :
    Stepped A (graph.arcs direction) s heap (stepHeap graph direction heapNode rest limit') heapNode limit' := by
  have spec := deleteMin_spec popped
  have distinctRest : (rest.inserted_nodes.map (·.node)).Nodup := spec.nodes ▸ distinct
  have labels : ∀ e ∈ heap.inserted_nodes, ∃ e' ∈ rest.inserted_nodes, e'.node = e.node ∧ e'.weight ≤ e.weight := by
    intro e member
    rcases spec.old_kept e member with rfl | kept
    · exact ⟨_,spec.settled,rfl,le_rfl⟩
    · exact ⟨e,kept,rfl,le_rfl⟩
  unfold stepHeap
  split
  · rename_i far
    have waiting := inv.step spec (.refl rest) le (by simp) (by simp) (by simp) fun below => by omega
    refine ⟨waiting.deleteAll le_rfl ?_,by simpa [QueryHeap.DeleteAll,Function.comp_def] using distinctRest,
      mem_map.mpr ⟨_,spec.settled,rfl⟩,?_,?_⟩
    · intro e member alive
      have := waiting.ordered _ spec.settled rfl e member alive
      simp only at this
      omega
    · intro e member _ below
      obtain ⟨e',member',rfl⟩ := mem_map.mp member
      cases gone : e'.removed with
      | false =>
        have := waiting.ordered _ spec.settled rfl e' member' gone
        simp only at this below
        omega
      | true =>
        have same : { e' with removed := true } = e' := by rw [← gone]
        rw [same]
        exact spec.new_or_old e' member'
    · intro e member
      obtain ⟨e',member',same⟩ := labels e member
      exact ⟨_,mem_map_of_mem member',same⟩
  · split
    · rename_i stalled
      have sound : ∀ e ∈ rest.inserted_nodes, ∃ m ≤ e.weight, Walk A s e.node m := by
        intro e member
        rcases spec.new_or_old e member with rfl | old
        · exact inv.sound heapNode spec.member
        · exact inv.sound e old
      have skipped := stallAtNode_lighter (fun x k => ∃ m ≤ k, Walk A s x m)
        (fun x y k w => reach_back climb) sound stalled
      exact ⟨inv.step spec (.refl rest) le (by simp) (by simp) (by simp) fun _ => .inl skipped,distinctRest,
        spec.settled,fun e member _ _ => spec.new_or_old e member,labels⟩
    · have above : ∀ c ∈ relaxCandidates graph direction heapNode, heapNode.weight < c.weight := by
        intro c inside
        obtain ⟨w,arc,weight,_⟩ := mem_relaxCandidates inside
        have := climb.positiveF _ _ _ arc
        omega
      have ext := insertOrUpdateAll_extends (@lighter_byWeight HeapData) _ (Search.settled_le inv spec) above
      refine ⟨inv.step spec ext le above ?_ ?_ ?_,ext.distinct distinctRest,ext.settled _ spec.settled rfl,?_,?_⟩
      · intro c inside
        obtain ⟨w,arc,weight,_⟩ := mem_relaxCandidates inside
        rw [weight]
        exact reach_extend climb (inv.sound heapNode spec.member) arc
      · intro c inside old
        obtain ⟨w,arc,weight,data⟩ := mem_relaxCandidates inside
        rw [data old]
        exact .inr ⟨heapNode.weight,heapNode.data,w,spec.settled,arc,weight⟩
      · intro _
        refine .inr fun y w arc => .inl ?_
        obtain ⟨c,inside,node,weight⟩ := relaxCandidates_mem arc
        exact ⟨c,inside,node,weight.le⟩
      · intro e member gone _
        rcases ext.new_or_old e member with old | ⟨alive,_⟩
        · exact spec.new_or_old e old
        · simp [alive] at gone
      · intro e member
        obtain ⟨e',member',node,weight⟩ := labels e member
        obtain ⟨e'',member'',node',weight'⟩ := ext.label member'
        exact ⟨e'',member'',node'.trans node,weight'.trans weight⟩

/-! ### Both directions -/

private theorem meet_cases (low : 0 ≤ heapNode.weight) (lowR : ∀ e ∈ reverse_heap.inserted_nodes, 0 ≤ e.weight) :
    (meet graph direction [] heapNode reverse_heap meeting = meeting ∧
        ∀ r, reverse_heap.GetHeapNodeIfWasInserted heapNode.node = some r →
          meeting.upper_bound ≤ heapNode.weight + r.weight) ∨
      ∃ r, reverse_heap.GetHeapNodeIfWasInserted heapNode.node = some r ∧
        heapNode.weight + r.weight < meeting.upper_bound ∧
        meet graph direction [] heapNode reverse_heap meeting = ⟨some heapNode.node,heapNode.weight + r.weight⟩ := by
  unfold meet
  split
  · rename_i absent
    exact .inl ⟨rfl,fun r found => by simp [absent] at found⟩
  · rename_i r found
    have rLow := lowR r (find_some found).1
    have unforced : (shouldForceStep [] heapNode r || decide (r.weight + heapNode.weight < 0)) = false := by
      simp [shouldForceStep]
      omega
    dsimp only
    split
    · rename_i better
      rw [unforced]
      exact .inr ⟨r,found,by omega,by simp [add_comm]⟩
    · rename_i worse
      refine .inl ⟨rfl,fun r' found' => ?_⟩
      obtain rfl : r = r' := Option.some.inj (found.symm.trans found')
      lia

/-- The invariant of the search: `F` leads up from the start and `B` from the end. -/
structure Invariant (A F B : Arcs NodeID) (s t : NodeID) (weight_upper_bound : ℤ) (forward_heap reverse_heap : Heap)
    (meeting : Meeting) : Prop where
  forward : Search.Invariant (side A F s) forward_heap meeting.upper_bound
  reverse : Search.Invariant (side (reverse A) B t) reverse_heap meeting.upper_bound
  distinctF : (forward_heap.inserted_nodes.map (·.node)).Nodup
  distinctR : (reverse_heap.inserted_nodes.map (·.node)).Nodup
  /-- A node settled in both directions was taken into account. -/
  met : ∀ e ∈ forward_heap.inserted_nodes, ∀ r ∈ reverse_heap.inserted_nodes, e.removed = true → r.removed = true →
    e.node = r.node → e.weight ≤ meeting.upper_bound → r.weight ≤ meeting.upper_bound →
    meeting.upper_bound ≤ e.weight + r.weight
  middle : (meeting.middle_node_id = none ∧ meeting.upper_bound = weight_upper_bound) ∨
    ∃ e ∈ forward_heap.inserted_nodes, ∃ r ∈ reverse_heap.inserted_nodes, e.node = r.node ∧
      meeting.middle_node_id = some e.node ∧ e.weight + r.weight ≤ meeting.upper_bound ∧
      meeting.upper_bound < weight_upper_bound

variable {bound : ℤ}

private theorem Invariant.flip {forward_heap : Heap} (inv : Invariant A F B s t bound forward_heap reverse_heap meeting) :
    Invariant (Walks.reverse A) B F t s bound reverse_heap forward_heap meeting := by
  refine ⟨inv.reverse,inv.forward,inv.distinctR,inv.distinctF,?_,?_⟩
  · intro r memberR e member goneR gone same belowR below
    have := inv.met e member r memberR gone goneR same.symm below belowR
    lia
  · refine inv.middle.imp_right ?_
    rintro ⟨e,member,r,memberR,same,middle,total,less⟩
    exact ⟨r,memberR,e,member,same.symm,same ▸ middle,by omega,less⟩

private theorem routingStep_invariant (positive : Positive A)
    (climb : Climb A (graph.arcs direction) (graph.arcs direction.opposite))
    (inv : Invariant A (graph.arcs direction) (graph.arcs direction.opposite) s t bound heap reverse_heap meeting)
    (filled : heap.Empty = false) :
    Invariant A (graph.arcs direction) (graph.arcs direction.opposite) s t bound
      (routingStep graph direction 0 [] heap reverse_heap meeting).1 reverse_heap
      (routingStep graph direction 0 [] heap reverse_heap meeting).2 := by
  obtain ⟨heapNode,rest,popped⟩ := deleteMin_of_not_empty filled
  have spec := deleteMin_spec popped
  have low : 0 ≤ heapNode.weight := by
    obtain ⟨m,mLe,walk⟩ := inv.forward.sound heapNode spec.member
    exact (walk.nonneg positive).trans mLe
  have lowR : ∀ e ∈ reverse_heap.inserted_nodes, 0 ≤ e.weight := by
    intro e member
    obtain ⟨m,mLe,walk⟩ := inv.reverse.sound e member
    exact (walk.nonneg positive.reverse).trans mLe
  let found := meet graph direction [] heapNode reverse_heap meeting
  have result : routingStep graph direction 0 [] heap reverse_heap meeting =
      (stepHeap graph direction heapNode rest found.upper_bound,found) := by
    unfold routingStep stepHeap
    rw [popped]
    dsimp only
    rw [add_zero]
    split_ifs <;> rfl
  have cases := @meet_cases graph direction reverse_heap heapNode meeting low lowR
  have le : found.upper_bound ≤ meeting.upper_bound := by
    rcases cases with ⟨same,_⟩ | ⟨r,_,better,new⟩
    · exact (congrArg Meeting.upper_bound same).le
    · rw [show found = _ from new]
      exact better.le
  have stepped := stepHeap_stepped climb inv.forward inv.distinctF popped le
  rw [result]
  refine ⟨stepped.inv,inv.reverse.lower le,stepped.distinct,inv.distinctR,?_,?_⟩
  · intro e member r memberR gone goneR same below belowR
    rcases stepped.settled e member gone below with rfl | old
    · have entry : reverse_heap.GetHeapNodeIfWasInserted heapNode.node = some r := by
        rw [show heapNode.node = r.node from same]
        exact find_unique inv.distinctR memberR
      rcases cases with ⟨unchanged,checked⟩ | ⟨r',entry',_,new⟩
      · exact le.trans (checked r entry)
      · obtain rfl : r = r' := Option.some.inj (entry.symm.trans entry')
        exact (congrArg Meeting.upper_bound new).le
    · have := inv.met e old r memberR gone goneR same (below.trans le) (belowR.trans le)
      exact le.trans this
  · rcases cases with ⟨unchanged,_⟩ | ⟨r,entry,better,new⟩
    · rw [show found = meeting from unchanged]
      refine inv.middle.imp_right ?_
      rintro ⟨e,member,r,memberR,same,middle,total,less⟩
      obtain ⟨e',member',node,weight⟩ := stepped.labels e member
      rw [show found = meeting from unchanged] at member'
      exact ⟨e',member',r,memberR,node.trans same,node ▸ middle,by lia,less⟩
    · obtain ⟨memberR,same⟩ := find_some entry
      have upper : meeting.upper_bound ≤ bound := by
        rcases inv.middle with ⟨_,start⟩ | ⟨_,_,_,_,_,_,_,less⟩
        · exact start.le
        · exact less.le
      refine .inr ⟨_,stepped.taken,r,memberR,same.symm,?_,?_,?_⟩
      · exact congrArg Meeting.middle_node_id new
      · exact (congrArg Meeting.upper_bound new).ge
      · rw [show found = _ from new]
        exact better.trans_le upper

private theorem routingStep_work (bounded : ∀ e ∈ graph.edges, e.target < graph.number_of_nodes) (filled : heap.Empty = false)
    (offset : EdgeWeight) (force_step_nodes : List NodeID) :
    work (List.range graph.number_of_nodes)
      (routingStep graph direction offset force_step_nodes heap reverse_heap meeting).1 <
        work (List.range graph.number_of_nodes) heap := by
  obtain ⟨heapNode,rest,popped⟩ := deleteMin_of_not_empty filled
  have less := @work_pop _ _ _ _ _ (List.range graph.number_of_nodes) _ popped
  have known : ∀ c ∈ relaxCandidates graph direction heapNode, c.node ∈ List.range graph.number_of_nodes := by
    intro c inside
    obtain ⟨w,⟨edge,member,target,_⟩,_⟩ := mem_relaxCandidates inside
    rw [mem_range,← target]
    exact bounded _ (mem_of_getElem? (mem_adjacent.mp member).1)
  unfold routingStep
  rw [popped]
  dsimp only
  split_ifs
  · have := @work_deleteAll _ _ rest _ (List.range graph.number_of_nodes)
    dsimp only
    omega
  · dsimp only
    omega
  · have := @work_insertOrUpdateAll _ _ rest _ (@lighter HeapData) _ _ known
    dsimp only [relaxOutgoingEdges]
    omega

/-- The nodes through which a node was reached, each with the arc to the one before. -/
def Chain (F : Arcs NodeID) (s : NodeID) : NodeID → List NodeID → ℤ → Prop
  | x, [], k => x = s ∧ k = 0
  | x, parent :: path, k => ∃ w k', F parent x w ∧ Chain F s parent path k' ∧ k = k' + w

private theorem retrieve_chain (positive : Positive F) (positiveA : Positive A)
    (inv : Search.Invariant (side A F s) heap limit) (distinct : (heap.inserted_nodes.map (·.node)).Nodup)
    {e : HeapNode NodeID HeapData} (member : e ∈ heap.inserted_nodes) :
    ∃ path fuel, Chain F s e.node path e.weight ∧ ∀ more ≥ fuel, ∀ packed,
      retrievePackedPathFromSingleHeap more heap e.node packed = some (packed ++ path) := by
  have low : ∀ e ∈ heap.inserted_nodes, 0 ≤ e.weight := by
    intro e member
    obtain ⟨m,mLe,walk⟩ := inv.sound e member
    exact (walk.nonneg positiveA).trans mLe
  suffices all : ∀ k, 0 ≤ k → ∀ e ∈ heap.inserted_nodes, e.weight = k → ∃ path fuel, Chain F s e.node path e.weight ∧
      ∀ more ≥ fuel, ∀ packed, retrievePackedPathFromSingleHeap more heap e.node packed = some (packed ++ path) from
    all e.weight (low e member) e member rfl
  refine weight_induction ?_
  rintro k - ih e member rfl
  have entry : parentOf heap e.node = e.data.parent := by
    unfold parentOf
    rw [find_unique distinct member]
    rfl
  rcases inv.good e member with ⟨start,none_yet,own⟩ | ⟨k',d',w,settled,arc,total⟩
  · refine ⟨[],0,⟨start,none_yet⟩,fun more _ packed => ?_⟩
    have stops : (e.node != parentOf heap e.node && heap.WasInserted (parentOf heap e.node)) = false := by
      rw [entry,own,start]
      simp
    cases more <;> simp [retrievePackedPathFromSingleHeap,Loops.whileLoop,stops]
  · have wPos := positive _ _ _ arc
    obtain ⟨path,fuel,chain,runs⟩ := ih k' (low _ settled) (by omega) _ settled rfl
    refine ⟨e.data.parent :: path,fuel + 1,⟨w,k',arc,chain,total⟩,fun more enough packed => ?_⟩
    have away : e.node ≠ e.data.parent := by
      intro same
      have again := (find_unique distinct member).symm.trans (same ▸ find_unique distinct settled)
      have := congrArg HeapNode.weight (Option.some.inj again)
      simp only at this
      omega
    have inserted : heap.WasInserted e.data.parent = true := by
      rw [wasInserted_iff]
      exact mem_map_of_mem settled
    obtain ⟨rest,rfl⟩ : ∃ rest, more = rest + 1 := ⟨more - 1,by omega⟩
    have next := runs rest (by omega) (packed ++ [e.data.parent])
    simp only [retrievePackedPathFromSingleHeap] at next ⊢
    rw [Loops.whileLoop]
    simp only [entry,inserted,Bool.and_true,bne_iff_ne,ne_eq,away,not_false_eq_true,if_true]
    simpa using next

/-! ### The search as a whole -/

def Holds (A : Arcs NodeID) (graph : Graph) (s t : NodeID) (bound : ℤ) (state : SearchState) : Prop :=
  Invariant A (graph.arcs .FORWARD) (graph.arcs .REVERSE) s t bound state.forward_heap state.reverse_heap state.meeting

private def remainingWork (graph : Graph) (state : SearchState) : ℕ :=
  work (List.range graph.number_of_nodes) state.forward_heap + work (List.range graph.number_of_nodes) state.reverse_heap

variable {state : SearchState}

private theorem halfStep_spec (positive : Positive A) (climb : Climb A (graph.arcs .FORWARD) (graph.arcs .REVERSE))
    (bounded : ∀ e ∈ graph.edges, e.target < graph.number_of_nodes) (direction : Direction)
    (holds : Holds A graph s t bound state) :
    Holds A graph s t bound (halfStep graph 0 [] direction state) ∧
      (remainingWork graph (halfStep graph 0 [] direction state) < remainingWork graph state ∨
        halfStep graph 0 [] direction state = state ∧
          (match direction with | .FORWARD => state.forward_heap | .REVERSE => state.reverse_heap).Empty = true) := by
  cases direction with
  | FORWARD =>
    cases filled : state.forward_heap.Empty with
    | true => simp [halfStep,filled,holds]
    | false =>
      have less := @routingStep_work graph .FORWARD _ state.reverse_heap state.meeting bounded filled 0 []
      simp only [halfStep,filled,Bool.not_false,if_true]
      exact ⟨routingStep_invariant positive climb holds filled,.inl (by simp only [remainingWork]; omega)⟩
  | REVERSE =>
    cases filled : state.reverse_heap.Empty with
    | true => simp [halfStep,filled,holds]
    | false =>
      have less := @routingStep_work graph .REVERSE _ state.forward_heap state.meeting bounded filled 0 []
      simp only [halfStep,filled,Bool.not_false,if_true]
      have stepped := routingStep_invariant positive.reverse climb.flip holds.flip filled
      exact ⟨stepped.flip,.inl (by simp only [remainingWork]; omega)⟩

private theorem searchStep_spec (positive : Positive A) (climb : Climb A (graph.arcs .FORWARD) (graph.arcs .REVERSE))
    (bounded : ∀ e ∈ graph.edges, e.target < graph.number_of_nodes)
    (holds : Holds A graph s t bound state) (running : 0 < state.forward_heap.Size + state.reverse_heap.Size) :
    Holds A graph s t bound (searchStep graph 0 [] state) ∧
      remainingWork graph (searchStep graph 0 [] state) < remainingWork graph state := by
  obtain ⟨holds₁,less₁⟩ := halfStep_spec positive climb bounded .FORWARD holds
  obtain ⟨holds₂,less₂⟩ := halfStep_spec positive climb bounded .REVERSE holds₁
  refine ⟨holds₂,?_⟩
  unfold searchStep
  rcases less₁ with less₁ | ⟨same₁,emptyF⟩
  · rcases less₂ with less₂ | ⟨same₂,_⟩
    · omega
    · rw [same₂]
      exact less₁
  · rw [same₁] at less₂ ⊢
    rcases less₂ with less₂ | ⟨_,emptyR⟩
    · exact less₂
    · simp only [QueryHeap.Empty,beq_iff_eq] at emptyF emptyR
      omega

def startHeap (s : NodeID) : Heap := QueryHeap.Clear.Insert s 0 ⟨s⟩

private theorem startHeap_invariant (A F : Arcs NodeID) (s : NodeID) (limit : ℤ) :
    Search.Invariant (side A F s) (startHeap s) limit := by
  have only : ∀ e ∈ (startHeap s).inserted_nodes, e = ⟨s,0,⟨s⟩,false⟩ := by
    simp [startHeap,QueryHeap.Insert,QueryHeap.Clear]
  refine .start ?_ ?_ ?_ ?_
  · rintro x o ⟨rfl,rfl⟩
    exact ⟨⟨x,0,⟨x⟩,false⟩,by simp [startHeap,QueryHeap.Insert],rfl,le_rfl⟩
  · intro e member
    rw [only e member]
  · intro e member
    rw [only e member]
    exact ⟨0,le_rfl,.nil s⟩
  · intro e member
    rw [only e member]
    exact .inl ⟨rfl,rfl,rfl⟩

private theorem loop_total (bound : ℤ) (positive : Positive A)
    (climb : Climb A (graph.arcs .FORWARD) (graph.arcs .REVERSE))
    (bounded : ∀ e ∈ graph.edges, e.target < graph.number_of_nodes) (s t : NodeID) :
    ∃ fuel final, Holds A graph s t bound final ∧ final.forward_heap.Size + final.reverse_heap.Size = 0 ∧
      ∀ more ≥ fuel, Loops.whileLoop (fun s : SearchState => 0 < s.forward_heap.Size + s.reverse_heap.Size)
        (searchStep graph 0 []) more ⟨startHeap s,startHeap t,none,bound⟩ = some final := by
  have start : Holds A graph s t bound ⟨startHeap s,startHeap t,none,bound⟩ := by
    refine ⟨startHeap_invariant _ _ _ _,startHeap_invariant _ _ _ _,by simp [startHeap,QueryHeap.Insert,QueryHeap.Clear],
      by simp [startHeap,QueryHeap.Insert,QueryHeap.Clear],?_,.inl ⟨rfl,rfl⟩⟩
    intro e member r _ gone
    obtain rfl : e = ⟨s,0,⟨s⟩,false⟩ := by simpa [startHeap,QueryHeap.Insert,QueryHeap.Clear] using member
    simp at gone
  have step : ∀ state, Holds A graph s t bound state → decide (0 < state.forward_heap.Size + state.reverse_heap.Size) = true →
      Holds A graph s t bound (searchStep graph 0 [] state) ∧
        remainingWork graph (searchStep graph 0 [] state) < remainingWork graph state :=
    fun state holds running => searchStep_spec positive climb bounded holds (of_decide_eq_true running)
  obtain ⟨final,ran,holds,stopped⟩ := Loops.whileLoop_total (Holds A graph s t bound) (remainingWork graph)
    (fun state holds running => (step state holds running).1) (fun state holds running => (step state holds running).2)
    _ _ start le_rfl
  exact ⟨_,final,holds,by simpa using stopped,fun more enough => Loops.whileLoop_mono ran enough⟩

private theorem final_le {bound d : ℤ}
    (climb : Climb A (graph.arcs .FORWARD) (graph.arcs .REVERSE)) (holds : Holds A graph s t bound state)
    (finished : state.forward_heap.Size + state.reverse_heap.Size = 0) (shortest : Shortest A s t d) :
    state.meeting.upper_bound ≤ d := by
  by_contra above
  obtain ⟨x,a,b,up,down,le⟩ := climb.meet s t d shortest.1
  have aLow := up.nonneg climb.positiveF
  have bLow := down.nonneg climb.positiveB
  obtain ⟨a',aLe,upA⟩ := climb.walkF up
  obtain ⟨b',bLe,downA⟩ := climb.flip.walkF down
  have emptyF := empty_iff.mp (show state.forward_heap.Empty = true by simp [QueryHeap.Empty]; lia)
  have emptyR := empty_iff.mp (show state.reverse_heap.Empty = true by simp [QueryHeap.Empty]; lia)
  have settledF : ∃ k ≤ a, ∃ d, Search.settled state.forward_heap x k d := by
    rcases holds.forward.frontier_optimal climb.positiveF (fun x k skipped => skipped)
        (fun x k y w => reach_extend climb) ⟨rfl,rfl⟩ up (by lia) (by
        rintro k ⟨m,mLe,walk⟩
        have := shortest.2 _ (walk.append downA.of_reverse)
        lia) with done | ⟨e,member,alive,_⟩
    · simpa using done
    · simp [emptyF e member] at alive
  have settledR : ∃ k ≤ b, ∃ d, Search.settled state.reverse_heap x k d := by
    rcases holds.reverse.frontier_optimal climb.positiveB (fun x k skipped => skipped)
        (fun x k y w => reach_extend climb.flip) ⟨rfl,rfl⟩ down (by lia) (by
        rintro k ⟨m,mLe,walk⟩
        have := shortest.2 _ (upA.append walk.of_reverse)
        lia) with done | ⟨e,member,alive,_⟩
    · simpa using done
    · simp [emptyR e member] at alive
  obtain ⟨kf,kfLe,df,memberF⟩ := settledF
  obtain ⟨kr,krLe,dr,memberR⟩ := settledR
  have := holds.met _ memberF _ memberR rfl rfl rfl (by simp only; lia) (by simp only; lia)
  simp only at this
  lia

private theorem final_walk (holds : Holds A graph s t bound state)
    {e r : HeapNode NodeID HeapData} (member : e ∈ state.forward_heap.inserted_nodes)
    (memberR : r ∈ state.reverse_heap.inserted_nodes) (same : e.node = r.node) :
    ∃ m ≤ e.weight + r.weight, Walk A s t m := by
  obtain ⟨m,mLe,up⟩ := holds.forward.sound e member
  obtain ⟨k,kLe,down⟩ := holds.reverse.sound r memberR
  exact ⟨m + k,by lia,up.append (same ▸ down.of_reverse)⟩

/-- Nothing where no walk leads to the target, else the distance and both chains of parents from the meeting node. -/
theorem search_spec (positive : Positive A) (climb : Climb A (graph.arcs .FORWARD) (graph.arcs .REVERSE))
    (bounded : ∀ e ∈ graph.edges, e.target < graph.number_of_nodes) (s t : NodeID)
    (light : ∀ d, Shortest A s t d → d < INVALID_EDGE_WEIGHT) :
    ∃ fuel, (¬ Reachable A s t ∧
        ∀ more ≥ fuel, search more graph (startHeap s) (startHeap t) [] INVALID_EDGE_WEIGHT =
          some (INVALID_EDGE_WEIGHT,[])) ∨
      ∃ d x up down a b, Shortest A s t d ∧ Chain (graph.arcs .FORWARD) s x up a ∧ Chain (graph.arcs .REVERSE) t x down b ∧
        a + b = d ∧ ∀ more ≥ fuel, search more graph (startHeap s) (startHeap t) [] INVALID_EDGE_WEIGHT =
          some (d,up.reverse ++ [x] ++ down) := by
  obtain ⟨fuel,final,holds,finished,runs⟩ := loop_total INVALID_EDGE_WEIGHT positive climb bounded s t
  have filled : ∀ s, (startHeap s).Empty = false := fun s => by simp [QueryHeap.Empty,startHeap,QueryHeap.Size,QueryHeap.Insert]
  have offset : min 0 (startHeap s).MinKey = 0 := by
    simp [startHeap,QueryHeap.Insert,QueryHeap.Clear,QueryHeap.MinKey,QueryHeap.DeleteMin,popMin]
  have found : ∀ more ≥ fuel, search more graph (startHeap s) (startHeap t) [] INVALID_EDGE_WEIGHT =
      searchResult more INVALID_EDGE_WEIGHT final := by
    intro more enough
    unfold search
    rw [filled,filled,offset,runs more enough]
    rfl
  rcases holds.middle with ⟨none_met,start⟩ | ⟨e,member,r,memberR,same,middle,total,less⟩
  · refine ⟨fuel,.inl ⟨?_,fun more enough => ?_⟩⟩
    · intro reachable
      obtain ⟨d,shortest⟩ := exists_shortest positive reachable
      have := final_le climb holds finished shortest
      have := light d shortest
      lia
    · rw [found more enough]
      simp [searchResult,none_met]
  · obtain ⟨m,mLe,walk⟩ := final_walk holds member memberR same
    obtain ⟨d,shortest⟩ := exists_shortest positive ⟨m,walk⟩
    have upper := final_le climb holds finished shortest
    have lower := shortest.2 m walk
    have exact_ : e.weight + r.weight = d ∧ final.meeting.upper_bound = d := by lia
    obtain ⟨up,fuelF,chainF,retrieveF⟩ := retrieve_chain climb.positiveF positive holds.forward holds.distinctF member
    obtain ⟨down,fuelR,chainR,retrieveR⟩ :=
      retrieve_chain climb.positiveB positive.reverse holds.reverse holds.distinctR memberR
    refine ⟨max fuel (max fuelF fuelR),.inr ⟨d,e.node,up,down,e.weight,r.weight,shortest,chainF,same ▸ chainR,exact_.1,?_⟩⟩
    intro more enough
    have keyF : final.forward_heap.GetKey e.node = e.weight := by
      simp [QueryHeap.GetKey,find_unique holds.distinctF member]
    have keyR : final.reverse_heap.GetKey e.node = r.weight := by
      simp [QueryHeap.GetKey,same,find_unique holds.distinctR memberR]
    have bounds : ¬ INVALID_EDGE_WEIGHT ≤ d := by have := light d shortest; lia
    have single := retrieveF more (by lia) []
    have both := retrieveR more (by lia) (up.reverse ++ [e.node])
    rw [← same] at both
    rw [found more (by lia)]
    simp [searchResult,middle,exact_.2,bounds,keyF,keyR,exact_.1,retrievePackedPathFromHeap,single]
    simpa using both

/-- Searching a completely contracted graph finds the distances of the input; sums are taken to fit 32 bits. -/
theorem search_eq_distance (hash : NodeID → ℕ) (graph : Contractor.ContractorGraph) (input : Input graph)
    (complete : Complete hash graph) (fits : complete.run.All ContractGraph.Step.Fits) (edges : List QueryEdge)
    (converted : ToEdges complete.final.result edges) (s t : NodeID)
    (light : ∀ d, Shortest (Contractor.forwardArcs graph) s t d → d < INVALID_EDGE_WEIGHT) :
    ∃ fuel weight packed_leg, (∀ more ≥ fuel, search more ⟨graph.number_of_nodes,edges⟩ (startHeap s) (startHeap t) []
        INVALID_EDGE_WEIGHT = some (weight,packed_leg)) ∧
      (weight = INVALID_EDGE_WEIGHT ↔ ¬ Reachable (Contractor.forwardArcs graph) s t) ∧
      (weight ≠ INVALID_EDGE_WEIGHT → Shortest (Contractor.forwardArcs graph) s t weight) := by
  obtain ⟨fuel,none_there | ⟨d,x,up,down,a,b,shortest,_,_,_,runs⟩⟩ :=
    search_spec input.positive (complete.climb input fits converted) (complete.bounded input fits converted) s t light
  · exact ⟨fuel,_,_,none_there.2,by simp [none_there.1],by simp⟩
  · have := light d shortest
    exact ⟨fuel,d,_,runs,⟨fun bad => by lia,fun bad => absurd ⟨d,shortest.1⟩ bad⟩,fun _ => shortest⟩

theorem row_light (d : ℤ) (shortest : Shortest (Contractor.forwardArcs ContractionRound.row) 0 2 d) :
    d < INVALID_EDGE_WEIGHT := by
  rw [shortest.unique ContractionRound.row_distance]
  decide

theorem row_search : ∃ fuel packed_leg, ∀ more ≥ fuel,
    search more ⟨3,rowEdges⟩ (startHeap 0) (startHeap 2) [] INVALID_EDGE_WEIGHT = some (2,packed_leg) := by
  have positive : Positive (Contractor.forwardArcs ContractionRound.row) := row_input.positive
  obtain ⟨fuel,⟨unreachable,_⟩ | ⟨d,x,up,down,a,b,shortest,_,_,_,runs⟩⟩ :=
    @search_spec _ ⟨3,rowEdges⟩ positive (rowComplete.climb row_input rowComplete_fits rowEdges_toEdges)
      (rowComplete.bounded row_input rowComplete_fits rowEdges_toEdges) 0 2 row_light
  · exact absurd ⟨2,ContractionRound.row_distance.1⟩ unreachable
  · obtain rfl := shortest.unique ContractionRound.row_distance
    exact ⟨fuel,_,runs⟩

/-- From one end of the row to the other the search returns two. -/
theorem search_eq_distance_row : ∃ fuel packed_leg, ∀ more ≥ fuel,
    search more ⟨3,rowEdges⟩ (startHeap 0) (startHeap 2) [] INVALID_EDGE_WEIGHT = some (2,packed_leg) := by
  obtain ⟨fuel,weight,packed_leg,runs,invalid,exact_⟩ := search_eq_distance id ContractionRound.row row_input rowComplete
    rowComplete_fits rowEdges rowEdges_toEdges 0 2 row_light
  have reached : weight ≠ INVALID_EDGE_WEIGHT := fun bad => invalid.mp bad ⟨2,ContractionRound.row_distance.1⟩
  obtain rfl := (exact_ reached).unique ContractionRound.row_distance
  exact ⟨fuel,packed_leg,runs⟩

end Osrm.ChSearch
