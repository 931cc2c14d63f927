import Osrm.MldFacade
import Osrm.Loops

/-!
`mld::runSearch`, the bidirectional search of `routing_base_mld`. Both directions settle nodes in turn;
the search stops once the two minima together reach the best weight found. The minimum of a direction
whose heap ran empty is not read again.
-/
namespace Osrm.MldSearch
open Typedefs Walks Heap Osrm.Partition CellStorage Overlay Phantom MldFacade
open EdgeBasedGraph

/-- The best meeting node and its weight; `none` stands for `SPECIAL_NODEID`. -/
structure Meeting where
  middle : Option NodeID
  weight : EdgeWeight
  deriving DecidableEq, Repr

def shouldForceStep (force_nodes : List NodeID) (forward_heap_node reverse_heap_node : HeapNode NodeID HeapData) :
    Bool :=
  forward_heap_node.data.parent == forward_heap_node.node &&
    reverse_heap_node.data.parent == reverse_heap_node.node && force_nodes.contains forward_heap_node.node

/-- The part of `routingStep` that looks for a better meeting node. -/
def meet (force_step_nodes : List NodeID) (heapNode : HeapNode NodeID HeapData) (reverse_heap : Heap)
    (meeting : Meeting) : Meeting :=
  match reverse_heap.GetHeapNodeIfWasInserted heapNode.node with
  | none => meeting
  | some reverseHeapNode =>
    let path_weight := heapNode.weight + reverseHeapNode.weight
    if !shouldForceStep force_step_nodes heapNode reverseHeapNode && path_weight ≥ 0 && path_weight < meeting.weight then
      ⟨some heapNode.node,path_weight⟩
    else meeting

structure SearchState where
  forward_heap : Heap
  reverse_heap : Heap
  meeting : Meeting
  forward_heap_min : EdgeWeight
  reverse_heap_min : EdgeWeight

section search
variable {P : MultiLevelPartition} (facade : DataFacade P) (force_step_nodes : List NodeID) (args : Args)

/-- `routingStep`, on a heap that is not empty. -/
def routingStep (direction : Direction) (forward_heap reverse_heap : Heap) (meeting : Meeting) : Heap × Meeting :=
  match forward_heap.DeleteMin with
  | none => (forward_heap,meeting)
  | some (heapNode,rest) =>
    (relaxOutgoingEdges facade direction args heapNode rest,meet force_step_nodes heapNode reverse_heap meeting)

/-- One of the two routing steps in the body of the loop of `runSearch`. -/
def halfStep (direction : Direction) (s : SearchState) : SearchState :=
  match direction with
  | .FORWARD =>
    if !s.forward_heap.Empty then
      let step := routingStep facade force_step_nodes args .FORWARD s.forward_heap s.reverse_heap s.meeting
      { s with forward_heap := step.1,meeting := step.2,
               forward_heap_min := if !step.1.Empty then step.1.MinKey else s.forward_heap_min }
    else s
  | .REVERSE =>
    if !s.reverse_heap.Empty then
      let step := routingStep facade force_step_nodes args .REVERSE s.reverse_heap s.forward_heap s.meeting
      { s with reverse_heap := step.1,meeting := step.2,
               reverse_heap_min := if !step.1.Empty then step.1.MinKey else s.reverse_heap_min }
    else s

def searchStep (s : SearchState) : SearchState :=
  halfStep facade force_step_nodes args .REVERSE (halfStep facade force_step_nodes args .FORWARD s)
/-- The condition of the loop of `runSearch`. -/
def running (s : SearchState) : Bool :=
  0 < s.forward_heap.Size + s.reverse_heap.Size && s.forward_heap_min + s.reverse_heap_min < s.meeting.weight

/-- What `runSearch` returns once its loop has ended. -/
def searchResult (weight_upper_bound : EdgeWeight) (s : SearchState) : Option (NodeID × EdgeWeight) :=
  match s.meeting.middle with
  | none => none
  | some middle => if s.meeting.weight ≥ weight_upper_bound then none else some (middle,s.meeting.weight)

/-- `runSearch`: the meeting node and its weight, if any, and the heaps it leaves; `none` without enough fuel. -/
def runSearch (fuel : ℕ) (forward_heap reverse_heap : Heap) (weight_upper_bound : EdgeWeight) :
    Option (Option (NodeID × EdgeWeight) × Heap × Heap) :=
  if forward_heap.Empty || reverse_heap.Empty then some (none,forward_heap,reverse_heap)
  else
    (Loops.whileLoop running (searchStep facade force_step_nodes args) fuel
      ⟨forward_heap,reverse_heap,⟨none,weight_upper_bound⟩,forward_heap.MinKey,reverse_heap.MinKey⟩).map fun s =>
        (searchResult weight_upper_bound s,s.forward_heap,s.reverse_heap)

def startHeap (s : NodeID) : Heap := QueryHeap.Clear.Insert s 0 ⟨s,false⟩

end search

/-! ### The two directions together -/

section both
variable {P : MultiLevelPartition} {facade : DataFacade P} {args : Args} {S : NodeID → Prop} {s t : NodeID}
  {bound : ℤ} {forward_heap reverse_heap rest : Heap} {meeting : Meeting} {heapNode : HeapNode NodeID HeapData}
  {direction : Direction}

variable (facade args S) in
/-- What both directions keep up together: the best weight accounts for every arc between settled nodes and for the ends. -/
structure Meets (direction : Direction) (s t : NodeID) (bound : ℤ) (forward_heap reverse_heap : Heap) (meeting : Meeting) :
    Prop where
  forward : ∀ limit, Search.Invariant (overlaid facade args S direction s).direction forward_heap limit
  reverse : ∀ limit, Search.Invariant (overlaid facade args S direction.opposite t).direction reverse_heap limit
  distinctF : (forward_heap.inserted_nodes.map (·.node)).Nodup
  distinctR : (reverse_heap.inserted_nodes.map (·.node)).Nodup
  across : ∀ e ∈ forward_heap.inserted_nodes, e.removed = true → ∀ r ∈ reverse_heap.inserted_nodes, r.removed = true →
    ∀ w, (overlaid facade args S direction s).arcs e.node r.node w → meeting.weight ≤ e.weight + w + r.weight
  final : ∀ e ∈ forward_heap.inserted_nodes, e.removed = true → e.node = t → meeting.weight ≤ e.weight
  initial : ∀ r ∈ reverse_heap.inserted_nodes, r.removed = true → r.node = s → meeting.weight ≤ r.weight
  middle : meeting.middle = none ∧ meeting.weight = bound ∨
    ∃ e ∈ forward_heap.inserted_nodes, ∃ r ∈ reverse_heap.inserted_nodes, e.node = r.node ∧
      meeting.middle = some e.node ∧ e.weight + r.weight ≤ meeting.weight ∧ meeting.weight < bound

private theorem overlaid_opposite {x y : NodeID} {w : ℤ} : (overlaid facade args S direction.opposite t).arcs y x w ↔
    (overlaid facade args S direction s).arcs x y w := by
  cases direction <;> exact Iff.rfl

private theorem Meets.flip (meets : Meets facade args S direction s t bound forward_heap reverse_heap meeting) :
    Meets facade args S direction.opposite t s bound reverse_heap forward_heap meeting := by
  have twice : direction.opposite.opposite = direction := by cases direction <;> rfl
  refine ⟨meets.reverse,by rw [twice]; exact meets.forward,meets.distinctR,meets.distinctF,?_,meets.initial,meets.final,?_⟩
  · intro r memberR goneR e member gone w arc
    have := meets.across e member gone r memberR goneR w (overlaid_opposite.mp arc)
    lia
  · rcases meets.middle with start | ⟨e,member,r,memberR,same,middle,le,less⟩
    · exact .inl start
    · exact .inr ⟨r,memberR,e,member,same.symm,same ▸ middle,by lia,less⟩

variable (customized : facade.Customized) (searches : Searches facade args S)
include customized searches

private theorem label_nonneg {direction : Direction} {heap : Heap} {limit : ℤ}
    (inv : Search.Invariant (overlaid facade args S direction s).direction heap limit) {e : HeapNode NodeID HeapData}
    (member : e ∈ heap.inserted_nodes) : 0 ≤ e.weight :=
  (inv.sound e member).2.nonneg fun _ _ _ arc => (overlaid_arcs (s := s) customized searches arc).2.2

private theorem meet_le (meets : Meets facade args S direction s t bound forward_heap reverse_heap meeting)
    (member : heapNode ∈ forward_heap.inserted_nodes) {r : HeapNode NodeID HeapData}
    (memberR : r ∈ reverse_heap.inserted_nodes) (same : r.node = heapNode.node) :
    (meet [] heapNode reverse_heap meeting).weight ≤ heapNode.weight + r.weight := by
  have found := find_unique meets.distinctR memberR
  have low := label_nonneg customized searches (meets.forward 0) member
  have lowR := label_nonneg customized searches (meets.reverse 0) memberR
  rw [same] at found
  unfold meet
  rw [found]
  dsimp only
  split
  · exact le_rfl
  · rename_i kept
    have sum : 0 ≤ heapNode.weight + r.weight := by omega
    simpa [shouldForceStep,sum] using kept

omit customized searches in
private theorem meet_mono : (meet [] heapNode reverse_heap meeting).weight ≤ meeting.weight := by
  unfold meet
  split
  · exact le_rfl
  · dsimp only
    split
    · rename_i better
      simp only [Bool.and_eq_true,decide_eq_true_eq] at better
      exact better.2.le
    · exact le_rfl

omit customized searches in
private theorem meet_middle : meet [] heapNode reverse_heap meeting = meeting ∨
    ∃ r ∈ reverse_heap.inserted_nodes, r.node = heapNode.node ∧ heapNode.weight + r.weight < meeting.weight ∧
      meet [] heapNode reverse_heap meeting = ⟨some heapNode.node,heapNode.weight + r.weight⟩ := by
  unfold meet
  split
  · exact .inl rfl
  · rename_i r found
    dsimp only
    split
    · rename_i better
      simp only [Bool.and_eq_true,decide_eq_true_eq] at better
      exact .inr ⟨r,(find_some found).1,(find_some found).2,better.2,rfl⟩
    · exact .inl rfl

private theorem Meets.step (meets : Meets facade args S direction s t bound forward_heap reverse_heap meeting)
    (popped : forward_heap.DeleteMin = some (heapNode,rest)) :
    Meets facade args S direction s t bound (relaxOutgoingEdges facade direction args heapNode rest) reverse_heap
      (meet [] heapNode reverse_heap meeting) := by
  have spec := deleteMin_spec popped
  have ext := (relax_step customized searches (meets.forward 0) popped).1
  have settled : ∀ e ∈ (relaxOutgoingEdges facade direction args heapNode rest).inserted_nodes, e.removed = true →
      e = { heapNode with removed := true } ∨ e ∈ forward_heap.inserted_nodes := by
    intro e member gone
    rcases ext.new_or_old e member with old | ⟨alive,_⟩
    · exact spec.new_or_old e old
    · simp [alive] at gone
  have less := @meet_mono reverse_heap meeting heapNode
  refine ⟨fun limit => (relax_step customized searches (meets.forward limit) popped).2,meets.reverse,
    ext.distinct (spec.nodes ▸ meets.distinctF),meets.distinctR,?_,?_,?_,?_⟩
  · intro e member gone r memberR goneR w arc
    rcases settled e member gone with rfl | old
    · rcases (meets.reverse r.weight).relaxed r memberR goneR le_rfl with skipped | handed
      · exact skipped.elim
      · obtain ⟨r',memberR',node,weight⟩ := handed heapNode.node w (overlaid_opposite.mpr arc)
        have := meet_le customized searches meets spec.member memberR' node
        simp only
        lia
    · have := meets.across e old gone r memberR goneR w arc
      lia
  · intro e member gone here
    rcases settled e member gone with rfl | old
    · obtain ⟨r,memberR,node,weight⟩ := (meets.reverse 0).source t 0 ⟨rfl,rfl⟩
      have := meet_le customized searches meets spec.member memberR (node.trans here.symm)
      simp only
      lia
    · have := meets.final e old gone here
      lia
  · intro r memberR goneR here
    have := meets.initial r memberR goneR here
    lia
  · rcases @meet_middle reverse_heap meeting heapNode with
      same | ⟨r,memberR,node,better,now⟩
    · rw [same]
      rcases meets.middle with start | ⟨e,member,r,memberR,here,middle,le,below⟩
      · exact .inl start
      · obtain ⟨e',member',node',weight'⟩ := Search.label_pop spec member
        obtain ⟨e'',member'',node'',weight''⟩ := ext.label member'
        have names := node''.trans node'
        exact .inr ⟨e'',member'',r,memberR,names.trans here,by rw [names]; exact middle,by omega,below⟩
    · rw [now]
      have bounded : meeting.weight ≤ bound := by
        rcases meets.middle with start | ⟨_,_,_,_,_,_,_,below⟩
        · exact start.2.le
        · exact below.le
      exact .inr ⟨_,ext.settled _ spec.settled rfl,r,memberR,node.symm,rfl,le_rfl,better.trans_le bounded⟩

/-! ### The search as a whole -/

omit customized searches in
variable (facade args S) in
structure Holds (s t : NodeID) (bound : ℤ) (state : SearchState) : Prop where
  meets : Meets facade args S .FORWARD s t bound state.forward_heap state.reverse_heap state.meeting
  minF : ∀ e ∈ state.forward_heap.inserted_nodes, e.removed = false → state.forward_heap_min ≤ e.weight
  minR : ∀ r ∈ state.reverse_heap.inserted_nodes, r.removed = false → state.reverse_heap_min ≤ r.weight

omit customized searches in
private theorem min_le {heap : Heap} {old : ℤ} {e : HeapNode NodeID HeapData} (member : e ∈ heap.inserted_nodes)
    (alive : e.removed = false) : (if !heap.Empty then heap.MinKey else old) ≤ e.weight := by
  have filled : heap.Empty = false := by
    by_contra none_left
    have gone := empty_iff.mp (by simpa using none_left) e member
    simp [gone] at alive
  simpa [filled] using minKey_le member alive

omit customized searches in
variable (facade) in
private def remainingWork (state : SearchState) : ℕ :=
  work (List.range facade.graph.number_of_nodes) state.forward_heap +
    work (List.range facade.graph.number_of_nodes) state.reverse_heap

variable {state : SearchState}

private theorem halfStep_spec (direction : Direction) (holds : Holds facade args S s t bound state) :
    Holds facade args S s t bound (halfStep facade [] args direction state) ∧
      (remainingWork facade (halfStep facade [] args direction state) < remainingWork facade state ∨
        halfStep facade [] args direction state = state ∧
          (match direction with | .FORWARD => state.forward_heap | .REVERSE => state.reverse_heap).Empty = true) := by
  cases direction with
  | FORWARD =>
    cases filled : state.forward_heap.Empty with
    | true => simp [halfStep,filled,holds]
    | false =>
      obtain ⟨heapNode,rest,popped⟩ := deleteMin_of_not_empty filled
      have less := @work_pop _ _ _ _ _ (List.range facade.graph.number_of_nodes) _ popped
      have same := @relax_work P facade args heapNode .FORWARD rest
      simp only [halfStep,filled,Bool.not_false,if_true,routingStep,popped]
      exact ⟨⟨holds.meets.step customized searches popped,fun e => min_le,holds.minR⟩,
        .inl (by simp only [remainingWork]; omega)⟩
  | REVERSE =>
    cases filled : state.reverse_heap.Empty with
    | true => simp [halfStep,filled,holds]
    | false =>
      obtain ⟨heapNode,rest,popped⟩ := deleteMin_of_not_empty filled
      have less := @work_pop _ _ _ _ _ (List.range facade.graph.number_of_nodes) _ popped
      have same := @relax_work P facade args heapNode .REVERSE rest
      simp only [halfStep,filled,Bool.not_false,if_true,routingStep,popped]
      exact ⟨⟨(holds.meets.flip.step customized searches popped).flip,holds.minF,fun e => min_le⟩,
        .inl (by simp only [remainingWork]; omega)⟩

private theorem searchStep_spec (holds : Holds facade args S s t bound state)
    (more : running state = true) : Holds facade args S s t bound (searchStep facade [] args state) ∧
      remainingWork facade (searchStep facade [] args state) < remainingWork facade state := by
  obtain ⟨holds₁,less₁⟩ := halfStep_spec customized searches .FORWARD holds
  obtain ⟨holds₂,less₂⟩ := halfStep_spec customized searches .REVERSE holds₁
  refine ⟨holds₂,?_⟩
  unfold searchStep
  rcases less₁ with less₁ | ⟨same₁,emptyF⟩
  · rcases less₂ with less₂ | ⟨same₂,_⟩
    · omega
    · rw [same₂]
      exact less₁
  · rw [same₁] at less₂ ⊢
    rcases less₂ with less₂ | ⟨_,emptyR⟩
    · exact less₂
    · simp only [QueryHeap.Empty,beq_iff_eq] at emptyF emptyR
      simp [running,emptyF,emptyR] at more

omit customized searches in
private theorem startHeap_invariant (direction : Direction) (known : S s) (limit : ℤ) :
    Search.Invariant (overlaid facade args S direction s).direction (startHeap s) limit := by
  have only : ∀ e ∈ (startHeap s).inserted_nodes, e = ⟨s,0,⟨s,false⟩,false⟩ := by
    simp [startHeap,QueryHeap.Insert,QueryHeap.Clear]
  refine .start ?_ ?_ ?_ ?_
  · rintro x o ⟨rfl,rfl⟩
    exact ⟨⟨x,0,⟨x,false⟩,false⟩,by simp [startHeap,QueryHeap.Insert],rfl,le_rfl⟩
  · intro e member
    rw [only e member]
  · intro e member
    rw [only e member]
    exact ⟨known,.nil s⟩
  · intro e member
    rw [only e member]
    exact ⟨trivial,.inl ⟨rfl,rfl,rfl⟩⟩

private theorem loop_total (bound : ℤ) (start : S s) (target : S t) :
    ∃ fuel final, Holds facade args S s t bound final ∧ running final = false ∧
      ∀ more ≥ fuel, Loops.whileLoop running (searchStep facade [] args) more
        ⟨startHeap s,startHeap t,⟨none,bound⟩,(startHeap s).MinKey,(startHeap t).MinKey⟩ = some final := by
  have pending : ∀ x, ∀ e ∈ (startHeap x).inserted_nodes, e.removed = false := by
    intro x e member
    obtain rfl : e = ⟨x,0,⟨x,false⟩,false⟩ := by simpa [startHeap,QueryHeap.Insert,QueryHeap.Clear] using member
    rfl
  have first : Holds facade args S s t bound
      ⟨startHeap s,startHeap t,⟨none,bound⟩,(startHeap s).MinKey,(startHeap t).MinKey⟩ := by
    refine ⟨⟨startHeap_invariant _ start,startHeap_invariant _ target,
      by simp [startHeap,QueryHeap.Insert,QueryHeap.Clear],by simp [startHeap,QueryHeap.Insert,QueryHeap.Clear],?_,?_,?_,
      .inl ⟨rfl,rfl⟩⟩,fun e member alive => minKey_le member alive,fun r member alive => minKey_le member alive⟩
    · intro e member gone
      simp [pending s e member] at gone
    · intro e member gone
      simp [pending s e member] at gone
    · intro r member gone
      simp [pending t r member] at gone
  obtain ⟨final,ran,holds,stopped⟩ := Loops.whileLoop_total (Holds facade args S s t bound) (remainingWork facade)
    (fun state holds more => (searchStep_spec customized searches holds more).1)
    (fun state holds more => (searchStep_spec customized searches holds more).2) _ _ first le_rfl
  exact ⟨_,final,holds,stopped,fun more enough => Loops.whileLoop_mono ran enough⟩

private theorem settled_or (holds : Holds facade args S s t bound state)
    (stopped : running state = false) {v : NodeID} {a b : ℤ} (front : Walk (overlaid facade args S .FORWARD s).arcs s v a)
    (back : Walk (overlaid facade args S .FORWARD s).arcs v t b) (less : a + b < state.meeting.weight) :
    (∃ k ≤ a, ∃ d, Search.settled state.forward_heap v k d) ∨ ∃ k ≤ b, ∃ d, Search.settled state.reverse_heap v k d := by
  have positive : Positive (overlaid facade args S .FORWARD s).arcs := (overlaid_lawful customized searches s).positive
  have positiveR : Positive (overlaid facade args S .REVERSE t).arcs := (overlaid_lawful customized searches t).positive
  have turned : Walk (overlaid facade args S .REVERSE t).arcs t v b := back.reversed
  rcases (holds.meets.forward a).frontier positive (fun _ _ skipped => skipped) ⟨rfl,rfl⟩ front (by lia) with
    doneF | ⟨e,member,alive,m,rest,total⟩
  · exact .inl (by simpa using doneF)
  · rcases (holds.meets.reverse b).frontier positiveR (fun _ _ skipped => skipped) ⟨rfl,rfl⟩ turned (by lia) with
      doneR | ⟨r,memberR,aliveR,m',rest',total'⟩
    · exact .inr (by simpa using doneR)
    · have one := holds.minF e member alive
      have two := holds.minR r memberR aliveR
      have mLow := rest.nonneg positive
      have mLow' := rest'.nonneg positiveR
      have filled : 0 < state.forward_heap.Size := List.countP_pos_iff.mpr ⟨e,member,by simp [alive]⟩
      simp only [running,Bool.and_eq_false_iff,decide_eq_false_iff_not] at stopped
      lia

private theorem final_le (holds : Holds facade args S s t bound state) (stopped : running state = false)
    {d : ℤ} (walk : Walk (overlaid facade args S .FORWARD s).arcs s t d) : state.meeting.weight ≤ d := by
  by_contra above
  -- from a node that is settled forwards the way is followed up to the first node settled backwards
  have follow : ∀ {v b}, Walk (overlaid facade args S .FORWARD s).arcs v t b → ∀ a k data,
      Walk (overlaid facade args S .FORWARD s).arcs s v a → k ≤ a → Search.settled state.forward_heap v k data →
        a + b = d → state.meeting.weight ≤ d := by
    intro v b back
    generalize last : t = z at back
    induction back with
    | nil v =>
      intro a k data _ kLe here total
      have := holds.meets.final _ here rfl last.symm
      simp only at this
      lia
    | @cons v u x w b arc rest ih =>
      intro a k data front kLe here total
      obtain rfl := last
      rcases settled_or customized searches holds stopped (front.snoc arc) rest (by lia) with
        ⟨k',kLe',data',there⟩ | ⟨k',kLe',data',there⟩
      · exact ih rfl (a + w) k' data' (front.snoc arc) kLe' there (by lia)
      · have := holds.meets.across _ here rfl _ there rfl w arc
        simp only at this
        lia
  rcases settled_or customized searches holds stopped (.nil s) walk (by lia) with
    ⟨k,kLe,data,here⟩ | ⟨k,kLe,data,here⟩
  · exact above (follow walk 0 k data (.nil s) kLe here (by lia))
  · have := holds.meets.initial _ here rfl rfl
    simp only at this
    lia

private theorem overlaid_shortest {d : ℤ} (seenS : visible facade.graph (fun x => getNodeQueryLevel P x args) s)
    (seenT : visible facade.graph (fun x => getNodeQueryLevel P x args) t) :
    Shortest (overlaid facade args S .FORWARD s).arcs s t d ↔ Shortest (within S facade.arcs) s t d :=
  (searches.layered.covers (searches.layered.exactFor customized.exact) customized.flags customized.positive).shortest_iff
    (searches.layered.clique_walk (searches.layered.exactFor customized.exact)) seenS seenT d

/-- No meeting node where no way leads to the target, else one on a shortest way, with labels that add up to it. -/
theorem runSearch_spec (start : S s) (target : S t) (seenS : visible facade.graph (fun x => getNodeQueryLevel P x args) s)
    (seenT : visible facade.graph (fun x => getNodeQueryLevel P x args) t)
    (light : ∀ d, Shortest (within S facade.arcs) s t d → d < INVALID_EDGE_WEIGHT) :
    ∃ fuel result forward_heap reverse_heap meeting,
      (∀ more ≥ fuel, runSearch facade [] args more (startHeap s) (startHeap t) INVALID_EDGE_WEIGHT =
        some (result,forward_heap,reverse_heap)) ∧
      Meets facade args S .FORWARD s t INVALID_EDGE_WEIGHT forward_heap reverse_heap meeting ∧
      (result = none ∧ ¬ Reachable (within S facade.arcs) s t ∨
        ∃ e ∈ forward_heap.inserted_nodes, ∃ r ∈ reverse_heap.inserted_nodes, e.node = r.node ∧
          result = some (e.node,e.weight + r.weight) ∧ Shortest (within S facade.arcs) s t (e.weight + r.weight)) := by
  obtain ⟨fuel,final,holds,stopped,runs⟩ := loop_total customized searches INVALID_EDGE_WEIGHT start target
  have filled : ∀ x, (startHeap x).Empty = false := fun x => by
    simp [QueryHeap.Empty,startHeap,QueryHeap.Size,QueryHeap.Insert]
  refine ⟨fuel,searchResult INVALID_EDGE_WEIGHT final,final.forward_heap,final.reverse_heap,final.meeting,?_,holds.meets,?_⟩
  · intro more enough
    rw [runSearch,filled,filled,runs more enough]
    rfl
  · rcases holds.meets.middle with ⟨none_met,start⟩ | ⟨e,member,r,memberR,same,middle,total,less⟩
    · refine .inl ⟨by simp [searchResult,none_met],fun reachable => ?_⟩
      obtain ⟨d,shortest⟩ := exists_shortest customized.positive.within reachable
      have le := final_le customized searches holds stopped
        ((overlaid_shortest customized searches seenS seenT).mpr shortest).1
      have := light d shortest
      lia
    · have up := ((holds.meets.forward 0).sound e member).2
      have down := ((holds.meets.reverse 0).sound r memberR).2
      have walk : Walk (overlaid facade args S .FORWARD s).arcs s t (e.weight + r.weight) :=
        Walk.append up (same ▸ Walk.of_reverse down)
      have shortest : Shortest (overlaid facade args S .FORWARD s).arcs s t (e.weight + r.weight) :=
        ⟨walk,fun n other => total.trans (final_le customized searches holds stopped other)⟩
      have upper := final_le customized searches holds stopped walk
      have exact_ : final.meeting.weight = e.weight + r.weight := le_antisymm upper total
      have based := (overlaid_shortest customized searches seenS seenT).mp shortest
      have below := light _ based
      refine .inr ⟨e,member,r,memberR,same,?_,based⟩
      simp only [searchResult,middle,exact_]
      rw [if_neg (by lia)]

end both

/-- The search finds the distances of the graph; sums are taken to fit 32 bits. -/
theorem runSearch_eq_distance {P : MultiLevelPartition} (facade : DataFacade P) (customized : facade.Customized)
    (source_phantoms target_phantoms : PhantomNodeCandidates) (s t : NodeID)
    (ends : ∃ source ∈ source_phantoms, ∃ target ∈ target_phantoms, Segment source s ∧ Segment target t)
    (keptS : facade.ExcludeNode s = false) (keptT : facade.ExcludeNode t = false)
    (light : ∀ d, Shortest facade.routes s t d → d < INVALID_EDGE_WEIGHT) :
    ∃ fuel result, (∀ more ≥ fuel, (runSearch facade [] (.candidates source_phantoms target_phantoms) more (startHeap s)
        (startHeap t) INVALID_EDGE_WEIGHT).map (·.1) = some result) ∧
      (result = none ↔ ¬ Reachable facade.routes s t) ∧
      ∀ middle weight, result = some (middle,weight) →
        Shortest facade.routes s t weight := by
  obtain ⟨source,inS,target,inT,segmentS,segmentT⟩ := ends
  have terminal : ∀ x, x = s ∨ x = t → Terminal source_phantoms target_phantoms x :=
    fun x same => ⟨source,inS,target,inT,s,t,segmentS,segmentT,same⟩
  have seen : ∀ x, x = s ∨ x = t →
      visible facade.graph (fun x => getNodeQueryLevel P x (.candidates source_phantoms target_phantoms)) x :=
    fun x same => .inl (queryLevel_terminal (terminal x same))
  obtain ⟨fuel,result,forward_heap,reverse_heap,meeting,runs,_,outcome⟩ :=
    runSearch_spec customized (searches_candidates (terminal s (.inl rfl))) (by simpa using keptS) (by simpa using keptT)
      (seen s (.inl rfl)) (seen t (.inr rfl)) light
  refine ⟨fuel,result,fun more enough => by rw [runs more enough]; rfl,?_,?_⟩
  · rcases outcome with ⟨rfl,unreachable⟩ | ⟨e,_,r,_,_,rfl,shortest⟩
    · exact iff_of_true rfl unreachable
    · exact iff_of_false (by simp) fun unreachable => unreachable ⟨_,shortest.1⟩
  · rintro middle weight rfl
    rcases outcome with ⟨bad,_⟩ | ⟨e,_,r,_,_,found,shortest⟩
    · simp at bad
    · obtain ⟨_,rfl⟩ : middle = e.node ∧ weight = e.weight + r.weight := by simpa using found
      exact shortest

def rowFacade : DataFacade rowPartition where
  graph := rowGraph
  metric := ⟨fun _ _ i => if i = 0 ∨ i = 3 then 0 else 1,fun _ _ _ => 0,fun _ _ _ => 0⟩
  GetNodeWeight _ := 1
  GetWeightPenaltyForEdgeID _ := 0
  ExcludeNode _ := false

private theorem rowFacade_arcs {u v : NodeID} {w : ℤ} :
    rowFacade.arcs u v w ↔ w = 1 ∧ u < 4 ∧ v < 4 ∧ (v = u + 1 ∨ u = v + 1) :=
  rowGraph_arcs fun _ _ => by simp [rowFacade,relaxWeight]
private theorem rowFacade_walk {u v : NodeID} {n : ℤ} (walk : Walk rowFacade.arcs u v n) :
    (v : ℤ) ≤ u + n ∧ (u : ℤ) ≤ v + n := by
  induction walk with
  | nil => lia
  | cons arc _ ih => have := rowFacade_arcs.mp arc; lia

private theorem rowFacade_entry {id : CellID} {x y : NodeID} {w : ℤ}
    (entry : (CellStorage.GetCell rowGraph rowFacade.metric 1 id).Entry (rowFacade.metric.weights 1 id) x y w) :
    id = 1 ∧ (x = 1 ∧ y = 1 ∧ w = 0 ∨ x = 1 ∧ y = 2 ∧ w = 1 ∨ x = 2 ∧ y = 1 ∧ w = 1 ∨ x = 2 ∧ y = 2 ∧ w = 0) := by
  obtain ⟨row,column,source,destination,value⟩ := entry
  have inside : x ∈ source_boundary rowGraph 1 id := List.mem_of_getElem? source
  have kept := inside
  simp only [source_boundary,List.mem_filter,Bool.and_eq_true,beq_iff_eq,List.mem_range] at kept
  obtain ⟨below,⟨rfl,_⟩,starts⟩ := kept
  have middle : x = 1 ∨ x = 2 := by
    have small : x < 4 := below
    interval_cases x
    · exact absurd starts (by decide)
    · exact .inl rfl
    · exact .inr rfl
    · exact absurd starts (by decide)
  have cell : rowPartition.GetCell 1 x = 1 := by rcases middle with rfl | rfl <;> decide
  rw [cell] at source destination value
  have sources : source_boundary rowGraph 1 1 = [1,2] := by decide
  have destinations : destination_boundary rowGraph 1 1 = [1,2] := by decide
  simp only [CellStorage.GetCell,sources,destinations] at source destination value
  refine ⟨cell,?_⟩
  have rows : row < 2 := (List.getElem?_eq_some_iff.mp source).1
  have columns : column < 2 := (List.getElem?_eq_some_iff.mp destination).1
  interval_cases row <;> interval_cases column <;> simp [rowFacade] at source destination value <;> lia

theorem rowFacade_customized : rowFacade.Customized where
  mirrored u v w := by
    rw [rowFacade_arcs]
    refine Iff.trans ?_ (rowGraph_arcs fun _ _ => by simp [rowFacade,relaxWeight]).symm
    lia
  positive u v w arc := by
    rw [rowFacade_arcs] at arc
    lia
  exact level low high id x y w entry := by
    obtain rfl : level = 1 := by
      have : level < 2 := high
      lia
    obtain ⟨rfl,values⟩ := rowFacade_entry entry
    have member : ∀ z, z = 1 ∨ z = 2 → inCell rowPartition (fun x => !rowFacade.ExcludeNode x) 1 1 z := by
      rintro z (rfl | rfl) <;> exact ⟨by decide,rfl⟩
    have arc : ∀ u v, u = 1 ∧ v = 2 ∨ u = 2 ∧ v = 1 →
        within (inCell rowPartition (fun x => !rowFacade.ExcludeNode x) 1 1) rowFacade.arcs u v 1 := by
      intro u v ends
      exact ⟨member u (by lia),member v (by lia),rowFacade_arcs.mpr (by lia)⟩
    have walk : Walk (within (inCell rowPartition (fun x => !rowFacade.ExcludeNode x) 1 1) rowFacade.arcs) x y w := by
      rcases values with ⟨rfl,rfl,rfl⟩ | ⟨rfl,rfl,rfl⟩ | ⟨rfl,rfl,rfl⟩ | ⟨rfl,rfl,rfl⟩
      · exact .nil 1
      · exact .single (arc 1 2 (.inl ⟨rfl,rfl⟩))
      · exact .single (arc 2 1 (.inr ⟨rfl,rfl⟩))
      · exact .nil 2
    have valid : w ≠ INVALID_EDGE_WEIGHT := by
      rcases values with ⟨_,_,rfl⟩ | ⟨_,_,rfl⟩ | ⟨_,_,rfl⟩ | ⟨_,_,rfl⟩ <;> decide
    refine ⟨⟨fun bad => absurd bad valid,fun none_there => ?_⟩,fun _ => ⟨walk,fun n other => ?_⟩⟩
    · exact absurd ⟨member x (by lia),member y (by lia),w,walk⟩ none_there
    · have := rowFacade_walk other.of_within
      lia

def phantomOn (node : NodeID) : PhantomNode :=
  ⟨⟨node,true⟩,⟨node,false⟩,0,0,0,0,0,0,0,0,0,0,0,0,true,true,true,true⟩

theorem row_shortest : Shortest rowFacade.routes 0 3 3 := by
  have arc : ∀ u v, u < 4 ∧ v < 4 ∧ v = u + 1 → rowFacade.routes u v 1 :=
    fun u v ends => ⟨rfl,rfl,rowFacade_arcs.mpr (by lia)⟩
  refine ⟨(((Walk.single (arc 0 1 (by decide))).snoc (arc 1 2 (by decide))).snoc (arc 2 3 (by decide))),fun n walk => ?_⟩
  have := rowFacade_walk walk.of_within
  lia

/-- From one end of the row to the other the search crosses the middle cell. -/
theorem runSearch_eq_distance_row : ∃ fuel middle, ∀ more ≥ fuel,
    (runSearch rowFacade [] (.candidates [phantomOn 0] [phantomOn 3]) more (startHeap 0) (startHeap 3)
      INVALID_EDGE_WEIGHT).map (·.1) = some (some (middle,3)) := by
  obtain ⟨fuel,result,runs,none_iff,found⟩ := runSearch_eq_distance rowFacade rowFacade_customized [phantomOn 0] [phantomOn 3]
    0 3 ⟨phantomOn 0,by simp,phantomOn 3,by simp,⟨⟨0,true⟩,by simp [phantomOn],rfl,rfl⟩,
      ⟨⟨3,true⟩,by simp [phantomOn],rfl,rfl⟩⟩ rfl rfl (fun d shortest => by rw [shortest.unique row_shortest]; decide)
  cases result with
  | none => exact absurd ⟨3,row_shortest.1⟩ (none_iff.mp rfl)
  | some pair =>
    obtain ⟨middle,weight⟩ := pair
    obtain rfl := (found middle weight rfl).unique row_shortest
    exact ⟨fuel,middle,runs⟩

end Osrm.MldSearch
