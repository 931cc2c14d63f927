import Osrm.CustomizedCells
import Osrm.LoadedGraph
import Osrm.MldSearch

/-!
From the edge-based edges to a route: `osrm-customize` loads the edges and customizes the cells of the multi-level
graph, and `osrm-routed` searches it. Together they find the distances of the edges, without the excluded nodes.
-/
namespace Osrm.CustomizedSearch
open List
open Typedefs Walks Osrm.Partition EdgeBasedGraph LoadedGraph LevelGraph CellStorage
open CellCustomizer CustomizedCells MldFacade Phantom

def edgeArcs (edges : List EdgeBasedEdge) : Arcs NodeID := fun u v w =>
  ∃ e ∈ edges, e.data.weight ≠ INVALID_EDGE_WEIGHT ∧ e.source = u ∧ e.target = v ∧ e.data.weight = w

/-- Each edge is usable forward only and weighs what its node and its turn weigh; penalties can be reconciled. -/
structure Input (edges : List EdgeBasedEdge) (GetNodeWeight GetWeightPenaltyForEdgeID : NodeID → EdgeWeight) : Prop where
  directed : Directed edges
  positive : ∀ e ∈ edges, 1 ≤ e.data.weight
  consistent : ∀ e ∈ edges, e.data.weight ≠ INVALID_EDGE_WEIGHT →
    e.data.weight = GetNodeWeight e.source + GetWeightPenaltyForEdgeID e.data.turn_id
  reconciled : ∀ u v, u ≠ v → Reconciled GetWeightPenaltyForEdgeID edges u v

section loaded
variable {P : MultiLevelPartition} {edges loaded : List EdgeBasedEdge} {GetNodeWeight GetWeightPenaltyForEdgeID : NodeID → EdgeWeight}
  {graph : MultiLevelGraph P} {S : NodeID → Prop} {u v : NodeID} {w : ℤ}

variable (input : Input edges GetNodeWeight GetWeightPenaltyForEdgeID) (prepared : Prepared (splitBidirectionalEdges edges) loaded)
include input prepared

private theorem Input.stored {e : EdgeBasedEdge} (member : e ∈ loaded) (forward : e.data.forward = true) :
    ∃ edge ∈ edges, edge.data.weight ≠ INVALID_EDGE_WEIGHT ∧ edge.source = e.source ∧
      edge.target = e.target ∧ e.data.weight = edge.data.weight ∧ e.data.turn_id = edge.data.turn_id ∧
      ∀ other ∈ edges, other.data.weight ≠ INVALID_EDGE_WEIGHT → other.source = e.source → other.target = e.target →
        edge.data.weight ≤ other.data.weight := by
  obtain ⟨sorted,sorting,rfl⟩ := prepared
  have oneWay : OneWay edges := fun edge inside => by simp [input.directed edge inside]
  have apart := prepareIntervals_apart e member
  have loads := loaded_of_sorted apart oneWay sorting
  obtain ⟨edge,cheapest,content_eq⟩ := loads.cheapest e (mem_forwardEdges.mpr ⟨member,rfl,rfl,forward⟩)
  have heavy := input.positive edge cheapest.member
  have stored : storedWeight edge = edge.data.weight := max_eq_left heavy
  obtain ⟨source,target⟩ : edge.source = e.source ∧ edge.target = e.target := by
    rcases cheapest.leads with ⟨source,target,_⟩ | ⟨_,_,backward⟩
    · exact ⟨source,target⟩
    · simp [input.directed edge cheapest.member] at backward
  simp only [content,Prod.mk.injEq] at content_eq
  refine ⟨edge,cheapest.member,cheapest.valid,source,target,by rw [content_eq.2.2.1,stored],content_eq.2.2.2.2.2,?_⟩
  intro other inside valid source' target'
  have least := cheapest.least other inside valid (.inl ⟨source',target',(input.directed other inside).1⟩)
  rwa [stored,storedWeight,max_eq_left (input.positive other inside)] at least

variable (perm : graph.edges.Perm loaded)
include perm

private theorem Input.weightArcs_sub (arc : weightArcs graph u v w) : edgeArcs edges u v w ∧
      graph.arcs (relaxWeight GetNodeWeight GetWeightPenaltyForEdgeID .FORWARD) .FORWARD u v w := by
  obtain ⟨e,member,rfl,rfl,usable,rfl⟩ := graph.arcs_iff.mp arc
  obtain ⟨edge,inside,valid,source,target,weight,turn,_⟩ := input.stored prepared (perm.mem_iff.mp member) usable
  refine ⟨⟨edge,inside,valid,source,target,weight.symm⟩,graph.arcs_iff.mpr ⟨e,member,rfl,rfl,usable,?_⟩⟩
  rw [relaxWeight,turn,weight,input.consistent edge inside valid,source]

private theorem Input.arcs_eq :
    graph.arcs (relaxWeight GetNodeWeight GetWeightPenaltyForEdgeID .FORWARD) .FORWARD = weightArcs graph := by
  funext u v w
  refine propext ⟨?_,fun arc => (input.weightArcs_sub prepared perm arc).2⟩
  rintro ⟨edge,member,target,usable,rfl⟩
  have arc : weightArcs graph u v edge.1.data.weight := ⟨edge,member,target,usable,rfl⟩
  obtain ⟨found,source⟩ := graph.mem_adjacent.mp member
  obtain ⟨origin,inside,valid,source',_,weight,turn,_⟩ := input.stored prepared (perm.mem_iff.mp (mem_of_getElem? found)) usable
  have weighs : relaxWeight GetNodeWeight GetWeightPenaltyForEdgeID .FORWARD edge.1 = edge.1.data.weight := by
    rw [relaxWeight,turn,weight,input.consistent origin inside valid,source']
  rw [weighs]
  exact arc

private theorem Input.weightArcs_le (apart : u ≠ v)
    (arc : edgeArcs edges u v w) : ∃ w' ≤ w, weightArcs graph u v w' := by
  obtain ⟨edge,inside,valid,rfl,rfl,rfl⟩ := arc
  have oneWay : OneWay edges := fun edge inside => by simp [input.directed edge inside]
  obtain ⟨sorted,sorting,rfl⟩ := id prepared
  have loads := loaded_of_sorted apart oneWay sorting
  have filled := loads.stored_iff.mpr ⟨edge,inside,valid,.inl ⟨rfl,rfl,(input.directed edge inside).1⟩⟩
  obtain ⟨e,member⟩ := exists_mem_of_ne_nil _ filled
  obtain ⟨stored,source,target,forward⟩ := mem_forwardEdges.mp member
  obtain ⟨origin,_,_,_,_,weight,_,least⟩ := input.stored prepared stored forward
  refine ⟨e.data.weight,?_,graph.arcs_iff.mpr ⟨e,perm.mem_iff.mpr stored,source,target,forward,rfl⟩⟩
  rw [weight]
  exact least edge inside valid source.symm target.symm

private theorem Input.shortest_iff (d : ℤ) :
    Shortest (within S (weightArcs graph)) u v d ↔ Shortest (within S (edgeArcs edges)) u v d := by
  refine shortest_congr (fun n walk => ⟨n,le_rfl,walk.mono fun x y w arc =>
    ⟨arc.1,arc.2.1,(input.weightArcs_sub prepared perm arc.2.2).1⟩⟩) (fun n walk => walk.lift fun x y w arc => ?_) d
  by_cases loop : x = y
  · -- an edge from a node to itself is not stored
    subst loop
    obtain ⟨edge,inside,_,_,_,rfl⟩ := arc.2.2
    have := input.positive edge inside
    exact ⟨0,by lia,.nil x⟩
  · obtain ⟨w',le,stored⟩ := input.weightArcs_le prepared perm loop arc.2.2
    exact ⟨w',le,.single ⟨arc.1,arc.2.1,stored⟩⟩

private theorem Input.mirrored (u v : NodeID) (w : ℤ) :
    graph.arcs (relaxWeight GetNodeWeight GetWeightPenaltyForEdgeID .FORWARD) .FORWARD u v w ↔
      graph.arcs (relaxWeight GetNodeWeight GetWeightPenaltyForEdgeID .REVERSE) .REVERSE v u w := by
  have added (direction : Direction) (x y : NodeID) :
      graph.arcs (relaxWeight GetNodeWeight GetWeightPenaltyForEdgeID direction) direction x y w ↔
        w ∈ addedWeights GetNodeWeight GetWeightPenaltyForEdgeID direction loaded x y := by
    simp only [graph.arcs_iff,addedWeights,mem_map,mem_filter,Bool.and_eq_true,sameEnds_iff,perm.mem_iff]
    constructor
    · rintro ⟨e,member,source,target,usable,weight⟩
      exact ⟨e,⟨member,⟨source,target⟩,usable⟩,weight⟩
    · rintro ⟨e,⟨member,⟨source,target⟩,usable⟩,weight⟩
      exact ⟨e,member,source,target,usable,weight⟩
  obtain ⟨sorted,sorting,rfl⟩ := prepared
  rw [added,added]
  by_cases loop : u = v
  · subst loop
    rw [added_loop,added_loop]
  · rw [agree_of_reconciled input.directed sorting loop (input.reconciled u v loop)]

private theorem Input.customized
    (nodes : graph.number_of_nodes ≤ P.number_of_nodes) (ExcludeNode : NodeID → Bool) (order : LevelID → List CellID)
    (every : ∀ level, 1 ≤ level → level < P.GetNumberOfLevels → ∀ id < P.GetNumberOfCells level, id ∈ order level)
    (light : ∀ (S : NodeID → Prop) x y d, Shortest (within S (edgeArcs edges)) x y d → d < INVALID_EDGE_WEIGHT) :
    ∃ fuel metric, (∀ more ≥ fuel, Customize graph (fun x => !ExcludeNode x) more order MakeMetric = some metric) ∧
      DataFacade.Customized ⟨graph,metric,GetNodeWeight,GetWeightPenaltyForEdgeID,ExcludeNode⟩ := by
  have arcs := input.arcs_eq prepared perm
  have mirrored := input.mirrored prepared perm
  have positive : Positive (weightArcs graph) := by
    intro u v w arc
    obtain ⟨⟨edge,inside,_,_,_,rfl⟩,_⟩ := input.weightArcs_sub prepared perm arc
    exact input.positive edge inside
  have flags : graph.Mirrored := by
    intro u v
    constructor
    · rintro ⟨_,edge,member,target,usable,_⟩
      obtain ⟨edge',member',target',usable',_⟩ := (mirrored u v _).mp ⟨edge,member,target,usable,rfl⟩
      exact ⟨0,edge',member',target',usable',rfl⟩
    · rintro ⟨_,edge,member,target,usable,_⟩
      obtain ⟨edge',member',target',usable',_⟩ := (mirrored u v _).mpr ⟨edge,member,target,usable,rfl⟩
      exact ⟨0,edge',member',target',usable',rfl⟩
  have some_level := P.highest_lt (x := 0) (y := 0)
  obtain ⟨fuel,metric,runs,fitting,_⟩ := levels_spec flags positive nodes every
    (fun _ _ _ _ x y d shortest => light _ x y d ((input.shortest_iff prepared perm d).mp shortest)) (P.GetNumberOfLevels - 1) (by lia)
  refine ⟨fuel,metric,runs,⟨mirrored,?_,?_⟩⟩
  · simp only [DataFacade.arcs]
    rw [arcs]
    exact positive
  · intro level low high
    simp only [DataFacade.arcs]
    rw [arcs]
    exact (fitting level low (by lia)).exactAt

end loaded

/-- Loading, customizing and searching find the distances of the edges without the excluded nodes; sums fit 32 bits. -/
theorem loaded_customized_searched {P : MultiLevelPartition} (edges loaded : List EdgeBasedEdge) (graph : MultiLevelGraph P)
    (GetNodeWeight GetWeightPenaltyForEdgeID : NodeID → EdgeWeight) (ExcludeNode : NodeID → Bool) (order : LevelID → List CellID)
    (source_phantoms target_phantoms : PhantomNodeCandidates) (s t : NodeID)
    (input : Input edges GetNodeWeight GetWeightPenaltyForEdgeID) (prepared : Prepared (splitBidirectionalEdges edges) loaded)
    (perm : graph.edges.Perm loaded) (nodes : graph.number_of_nodes ≤ P.number_of_nodes)
    (every : ∀ level, 1 ≤ level → level < P.GetNumberOfLevels → ∀ id < P.GetNumberOfCells level, id ∈ order level)
    (light : ∀ (S : NodeID → Prop) x y d, Shortest (within S (edgeArcs edges)) x y d → d < INVALID_EDGE_WEIGHT)
    (ends : ∃ source ∈ source_phantoms, ∃ target ∈ target_phantoms, Segment source s ∧ Segment target t)
    (keptS : ExcludeNode s = false) (keptT : ExcludeNode t = false) :
    ∃ fuel metric result, (∀ more ≥ fuel, Customize graph (fun x => !ExcludeNode x) more order MakeMetric = some metric ∧
        (MldSearch.runSearch ⟨graph,metric,GetNodeWeight,GetWeightPenaltyForEdgeID,ExcludeNode⟩ []
          (.candidates source_phantoms target_phantoms) more (MldSearch.startHeap s) (MldSearch.startHeap t)
          INVALID_EDGE_WEIGHT).map (·.1) = some result) ∧
      (result = none ↔ ¬ Reachable (within (fun x => ExcludeNode x = false) (edgeArcs edges)) s t) ∧
      ∀ middle weight, result = some (middle,weight) → Shortest (within (fun x => ExcludeNode x = false) (edgeArcs edges)) s t weight := by
  obtain ⟨source,inS,target,inT,segmentS,segmentT⟩ := ends
  obtain ⟨fuel,metric,runs,customized⟩ := input.customized prepared perm nodes ExcludeNode order every light
  have terminal : ∀ x, x = s ∨ x = t → Terminal source_phantoms target_phantoms x :=
    fun x same => ⟨source,inS,target,inT,s,t,segmentS,segmentT,same⟩
  have seen : ∀ x, x = s ∨ x = t →
      visible graph (fun x => getNodeQueryLevel P x (.candidates source_phantoms target_phantoms)) x :=
    fun x same => .inl (queryLevel_terminal (terminal x same))
  have distances (d : ℤ) : Shortest (within (fun x => (!ExcludeNode x) = true)
      (DataFacade.arcs ⟨graph,metric,GetNodeWeight,GetWeightPenaltyForEdgeID,ExcludeNode⟩)) s t d ↔
      Shortest (within (fun x => ExcludeNode x = false) (edgeArcs edges)) s t d := by
    simp only [Bool.not_eq_true',DataFacade.arcs]
    rw [input.arcs_eq prepared perm]
    exact input.shortest_iff prepared perm d
  have positive : Positive (edgeArcs edges) := by
    rintro u v w ⟨edge,inside,_,_,_,rfl⟩
    exact input.positive edge inside
  obtain ⟨fuel',result,forward_heap,reverse_heap,meeting,runs',_,outcome⟩ :=
    MldSearch.runSearch_spec customized (searches_candidates (terminal s (.inl rfl))) (by simpa using keptS) (by simpa using keptT)
      (seen s (.inl rfl)) (seen t (.inr rfl)) fun d shortest => light _ s t d ((distances d).mp shortest)
  refine ⟨max fuel fuel',metric,result,fun more enough => ⟨runs more (by lia),by rw [runs' more (by lia)]; rfl⟩,?_,?_⟩
  · rcases outcome with ⟨rfl,unreachable⟩ | ⟨e,_,r,_,_,rfl,shortest⟩
    · refine iff_of_true rfl fun reachable => unreachable ?_
      obtain ⟨d,shortest⟩ := exists_shortest positive.within reachable
      exact ⟨d,((distances d).mpr shortest).1⟩
    · exact iff_of_false (by simp) fun unreachable => unreachable ⟨_,((distances _).mp shortest).1⟩
  · rintro middle weight rfl
    rcases outcome with ⟨bad,_⟩ | ⟨e,_,r,_,_,found,shortest⟩
    · simp at bad
    · obtain ⟨_,rfl⟩ : middle = e.node ∧ weight = e.weight + r.weight := by simpa using found
      exact (distances _).mp shortest

def streets : List EdgeBasedEdge := [street 0 1 true,street 1 2 true,street 2 3 true]

private def streetsSorted : List EdgeBasedEdge :=
  [street 0 1 true,street 1 0 false,street 1 2 true,street 2 1 false,street 2 3 true,street 3 2 false]

private theorem streets_prepared : Prepared (splitBidirectionalEdges streets) streetsSorted :=
  ⟨streetsSorted,⟨by decide,by decide⟩,by simp [streetsSorted,street,prepareIntervals,mergeInterval,sameEnds]⟩

private theorem streets_arcs {u v : NodeID} {w : ℤ} : edgeArcs streets u v w ↔ w = 1 ∧ u < 3 ∧ v = u + 1 := by
  constructor
  · rintro ⟨e,member,_,rfl,rfl,rfl⟩
    simp only [streets,mem_cons,not_mem_nil,or_false] at member
    rcases member with rfl | rfl | rfl <;> decide
  · rintro ⟨rfl,below,rfl⟩
    refine ⟨street u (u + 1) true,?_,by simp [street,INVALID_EDGE_WEIGHT],rfl,rfl,rfl⟩
    interval_cases u <;> simp [streets]

private theorem streets_walk {S : NodeID → Prop} {x y : NodeID} {n : ℤ} (walk : Walk (within S (edgeArcs streets)) x y n) :
    (y : ℤ) = x + n ∧ (x = y ∨ y < 4) := by
  induction walk with
  | nil => simp
  | cons arc _ ih => have := streets_arcs.mp arc.2.2; lia

/-- From one end of the way to the other, with the cells customized from the last one on. -/
theorem loaded_customized_searched_row : ∃ fuel metric middle, ∀ more ≥ fuel,
    Customize streetGraph (fun _ => true) more (fun _ => [2,0,1]) MakeMetric = some metric ∧
    (MldSearch.runSearch ⟨streetGraph,metric,fun _ => 1,fun _ => 0,fun _ => false⟩ []
      (.candidates [MldSearch.phantomOn 0] [MldSearch.phantomOn 3]) more (MldSearch.startHeap 0) (MldSearch.startHeap 3)
      INVALID_EDGE_WEIGHT).map (·.1) = some (some (middle,3)) := by
  have each : ∀ e ∈ streets, 1 ≤ e.data.weight ∧ e.data.forward = true ∧ e.data.backward = false ∧ e.data.weight = 1 := by decide
  have one_level (level : LevelID) (low : 1 ≤ level) (high : level < rowPartition.GetNumberOfLevels) : level = 1 := by
    have : level < 2 := high
    lia
  have light (S : NodeID → Prop) (x y : NodeID) (d : ℤ) (shortest : Shortest (within S (edgeArcs streets)) x y d) :
      d < INVALID_EDGE_WEIGHT := by
    have := streets_walk shortest.1
    simp only [INVALID_EDGE_WEIGHT]
    lia
  have step (u : NodeID) (below : u < 3) : within (fun _ => (false : Bool) = false) (edgeArcs streets) u (u + 1) 1 :=
    ⟨rfl,rfl,streets_arcs.mpr ⟨rfl,below,rfl⟩⟩
  have walk : Walk (within (fun _ => (false : Bool) = false) (edgeArcs streets)) 0 3 3 :=
    .cons (step 0 (by lia)) (.cons (step 1 (by lia)) (.single (step 2 (by lia))))
  obtain ⟨fuel,metric,result,runs,none_iff,found⟩ := loaded_customized_searched streets _ streetGraph (fun _ => 1) (fun _ => 0)
    (fun _ => false) (fun _ => [2,0,1]) [MldSearch.phantomOn 0] [MldSearch.phantomOn 3] 0 3
    ⟨fun e member => ⟨(each e member).2.1,(each e member).2.2.1⟩,fun e member => (each e member).1,
      fun e member _ => (each e member).2.2.2,fun _ _ _ => ⟨fun _ _ _ _ _ => rfl,fun _ _ _ _ _ => rfl⟩⟩
    streets_prepared (by decide) (by decide) (fun level low high => by rw [one_level level low high]; decide) light
    ⟨MldSearch.phantomOn 0,by simp,MldSearch.phantomOn 3,by simp,⟨⟨0,true⟩,by simp [MldSearch.phantomOn],rfl,rfl⟩,
      ⟨⟨3,true⟩,by simp [MldSearch.phantomOn],rfl,rfl⟩⟩ rfl rfl
  cases result with
  | none => exact absurd ⟨3,walk⟩ (none_iff.mp rfl)
  | some pair =>
    obtain ⟨middle,weight⟩ := pair
    obtain rfl : weight = 3 := by have := streets_walk (found middle weight rfl).1; lia
    exact ⟨fuel,metric,middle,runs⟩

end Osrm.CustomizedSearch
