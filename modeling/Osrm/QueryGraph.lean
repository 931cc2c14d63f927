import Osrm.ContractGraph

/-!
`toEdges` and the `QueryGraph` built from its result. The edges are sorted by source and target, so that the edges of
a node are consecutive; the id of an edge is its position.
-/
namespace Osrm.QueryGraph
open List
open Typedefs Walks Contractor ContractionRound ContractGraph

/-- `QueryEdge::EdgeData`; `turn_id` is the middle node of a shortcut. -/
structure EdgeData where
  turn_id : NodeID
  shortcut : Bool
  weight : EdgeWeight
  duration : EdgeDuration
  forward : Bool
  backward : Bool
  distance : EdgeDistance
  deriving DecidableEq, Repr

/-- An edge of the contracted graph. -/
structure QueryEdge where
  source : NodeID
  target : NodeID
  data : EdgeData
  deriving DecidableEq, Repr

/-- `QueryGraph`, a `util::StaticGraph` over sorted edges. -/
structure Graph where
  number_of_nodes : ℕ
  edges : List QueryEdge

/-- `GetAdjacentEdgeRange`, as the edges with their ids. -/
def Graph.GetAdjacentEdgeRange (graph : Graph) (node : NodeID) : List (QueryEdge × EdgeID) :=
  graph.edges.zipIdx.filter fun e => e.1.source = node
def EdgeData.usable (data : EdgeData) : Direction → Bool
  | .FORWARD => data.forward
  | .REVERSE => data.backward
def Graph.arcs (graph : Graph) (direction : Direction) : Arcs NodeID :=
  fun u v w => ∃ e ∈ graph.GetAdjacentEdgeRange u, e.1.target = v ∧ e.1.data.usable direction = true ∧ e.1.data.weight = w
def toQueryEdge (node : NodeID) (e : DynamicEdge) : QueryEdge :=
  ⟨node,e.target,e.data.id,e.data.shortcut,e.data.weight,e.data.duration,e.data.forward,e.data.backward,e.data.distance⟩
/-- The edges that the loop of `toEdges` collects. -/
def collectEdges (graph : ContractorGraph) : List QueryEdge :=
  (List.range graph.number_of_nodes).flatMap fun node => (graph.adjacent node).map (toQueryEdge node)
/-- `QueryEdge::operator<`. -/
def edgeBefore (a b : QueryEdge) : Bool := a.source < b.source || (a.source == b.source && a.target < b.target)

/-- A possible result of `toEdges`, whose sort may arrange parallel edges freely. -/
structure ToEdges (graph : ContractorGraph) (edges : List QueryEdge) : Prop where
  perm : edges.Perm (collectEdges graph)
  sorted : edges.Pairwise fun a b => edgeBefore b a = false

variable {graph : ContractorGraph} {edges : List QueryEdge} {u v : NodeID} {w : ℤ}

theorem mem_adjacent {query : Graph} {e : QueryEdge × EdgeID} :
    e ∈ query.GetAdjacentEdgeRange u ↔ query.edges[e.2]? = some e.1 ∧ e.1.source = u := by
  simp [Graph.GetAdjacentEdgeRange,mem_zipIdx_iff_getElem?]

theorem exists_adjacent {query : Graph} {P : QueryEdge → Prop} :
    (∃ e ∈ query.GetAdjacentEdgeRange u, P e.1) ↔ ∃ e ∈ query.edges, e.source = u ∧ P e := by
  constructor
  · rintro ⟨e,member,holds⟩
    obtain ⟨found,source⟩ := mem_adjacent.mp member
    exact ⟨e.1,mem_of_getElem? found,source,holds⟩
  · rintro ⟨e,member,source,holds⟩
    obtain ⟨i,found⟩ := mem_iff_getElem?.mp member
    exact ⟨(e,i),mem_adjacent.mpr ⟨found,source⟩,holds⟩

theorem ToEdges.mem_iff (converted : ToEdges graph edges)
    (bounded : ∀ u, ∀ e ∈ graph.adjacent u, u < graph.number_of_nodes) {e : QueryEdge} :
    e ∈ edges ↔ ∃ e' ∈ graph.adjacent e.source, e = toQueryEdge e.source e' := by
  rw [converted.perm.mem_iff]
  simp only [collectEdges,mem_flatMap,mem_range,mem_map]
  constructor
  · rintro ⟨node,_,e',member,rfl⟩
    exact ⟨e',member,rfl⟩
  · rintro ⟨e',member,same⟩
    exact ⟨e.source,bounded _ e' member,e',member,same.symm⟩

/-- Conversion to query edges keeps both sets of arcs. -/
theorem ToEdges.arcs (converted : ToEdges graph edges)
    (bounded : ∀ u, ∀ e ∈ graph.adjacent u, u < graph.number_of_nodes) {n : ℕ} :
    (Graph.mk n edges).arcs .FORWARD = forwardArcs graph ∧ (Graph.mk n edges).arcs .REVERSE = backwardArcs graph := by
  have edge : ∀ (P : QueryEdge → Prop) u, (∃ e ∈ (Graph.mk n edges).GetAdjacentEdgeRange u, P e.1) ↔
      ∃ e ∈ graph.adjacent u, P (toQueryEdge u e) := by
    intro P u
    rw [exists_adjacent]
    constructor
    · rintro ⟨e,member,rfl,holds⟩
      obtain ⟨e',member',same⟩ := (converted.mem_iff bounded).mp member
      exact ⟨e',member',same ▸ holds⟩
    · rintro ⟨e,member,holds⟩
      exact ⟨toQueryEdge u e,(converted.mem_iff bounded).mpr ⟨e,member,rfl⟩,rfl,holds⟩
  constructor
  · funext u v w
    exact propext (edge (fun e => e.target = v ∧ e.data.forward = true ∧ e.data.weight = w) u)
  · funext u v w
    exact propext (edge (fun e => e.target = v ∧ e.data.backward = true ∧ e.data.weight = w) u)

/-- What `toContractorGraph` promises: edges are stored at both ends, weigh at least one and are no shortcuts. -/
structure Input (graph : ContractorGraph) : Prop where
  mirrored : Mirrored graph
  heavy : ∀ u, ∀ e ∈ graph.adjacent u, 1 ≤ e.data.weight
  plain : ∀ u, ∀ e ∈ graph.adjacent u, e.data.shortcut = false
  bounded : ∀ u, ∀ e ∈ graph.adjacent u, u < graph.number_of_nodes ∧ e.target < graph.number_of_nodes

theorem Input.consistent (input : Input graph) : Consistent graph (· < graph.number_of_nodes) := by
  have all := mirrored_consistent input.mirrored input.heavy
  exact ⟨fun u _ e member => (input.bounded u e member).2,fun u _ => all.positive u trivial,
    fun u v _ => all.symmetric u v trivial,fun u v w _ => all.forward u v w trivial,
    fun u v w _ => all.backward u v w trivial⟩

theorem Input.positive (input : Input graph) : Positive (forwardArcs graph) := by
  rintro u v w ⟨e,member,_,_,rfl⟩
  have := input.heavy u e member
  lia

/-- A run of `contractGraph` that contracts every node. -/
structure Complete (hash : NodeID → ℕ) (graph : ContractorGraph) where
  final : State
  run : Run hash (.start graph (List.range graph.number_of_nodes)) final
  done : final.remaining_nodes = []

variable {hash : NodeID → ℕ}

theorem Complete.hierarchy (complete : Complete hash graph) (input : Input graph)
    (fits : complete.run.All Step.Fits) :
    Hierarchy graph (· < graph.number_of_nodes) (fun _ => True) complete.final.result (fun _ => False) := by
  have valid := complete.run.valid input.consistent input.bounded (fun u member => mem_range.mp member) fits
  have empty : (fun u => u < graph.number_of_nodes ∧ (u ∈ List.range graph.number_of_nodes →
      u ∈ complete.final.core)) = fun _ => False := by
    funext u
    simp [State.core,complete.done]
  exact empty ▸ valid.hierarchy

/-- The query edges are a hierarchy over the input edges. -/
theorem Complete.climb (complete : Complete hash graph) (input : Input graph) (fits : complete.run.All Step.Fits)
    (converted : ToEdges complete.final.result edges) {n : ℕ} :
    Contraction.Climb (forwardArcs graph) ((Graph.mk n edges).arcs .FORWARD) ((Graph.mk n edges).arcs .REVERSE) := by
  have hierarchy := complete.hierarchy input fits
  obtain ⟨forward,backward⟩ := @ToEdges.arcs _ _ converted
    (fun u e member => hierarchy.nodes ▸ (hierarchy.inside u e member).1) n
  rw [forward,backward]
  have sound : ∀ u v w, usableArcs complete.final.result u v w → ∃ m ≤ w, Walk (forwardArcs graph) u v m := by
    intro u v w arc
    simpa using hierarchy.sound input.consistent (fun _ _ _ => trivial) trivial trivial arc
  refine ⟨?_,?_,fun u v w arc => sound u v w (.inl arc),fun u v w arc => sound v u w (.inr arc),?_⟩
  · rintro u v w ⟨e,member,_,_,rfl⟩
    exact hierarchy.positive u e member
  · rintro u v w ⟨e,member,_,_,rfl⟩
    exact hierarchy.positive u e member
  · intro s t n walk
    have upDown := hierarchy.upDown
    simp only [within_univ] at upDown
    obtain ⟨x,a,b,up,down,le⟩ := upDown.meet (fun u v w arc => arc.1) walk
    exact ⟨x,a,b,up.mono fun _ _ _ arc => arc.2,down.mono fun _ _ _ arc => arc.2,le⟩

/-- Query edges lead to nodes of the graph. -/
theorem Complete.bounded (complete : Complete hash graph) (input : Input graph) (fits : complete.run.All Step.Fits)
    (converted : ToEdges complete.final.result edges) : ∀ e ∈ edges, e.target < graph.number_of_nodes := by
  have hierarchy := complete.hierarchy input fits
  intro e member
  obtain ⟨e',member',same⟩ :=
    (converted.mem_iff fun u e member => hierarchy.nodes ▸ (hierarchy.inside u e member).1).mp member
  rw [same]
  exact (hierarchy.inside _ e' member').2

theorem row_input : Input row := by
  refine ⟨row_mirrored,row_heavy,?_,?_⟩
  · intro u e member
    rcases row_edge member with ⟨rfl,rfl⟩ | ⟨rfl,rfl⟩ | ⟨rfl,rfl⟩ | ⟨rfl,rfl⟩ <;> rfl
  · intro u e member
    rcases row_edge member with ⟨rfl,rfl⟩ | ⟨rfl,rfl⟩ | ⟨rfl,rfl⟩ | ⟨rfl,rfl⟩ <;> decide

/-- The states in which the middle of the row is contracted, then the first node. -/
private def rowFirst : State := ⟨(RoundRun.sequential row (fun _ => 0) [1]).result,Equiv.refl _,[0,2]⟩
private def rowSecond : State := ⟨(RoundRun.sequential rowFirst.graph (fun _ => 0) [0]).result,Equiv.refl _,[2]⟩

/-- A step that contracts the given nodes one after the other. -/
def contractStep (s : State) (priorities : NodeID → ℚ) (selected left : List NodeID)
    (chosen : s.selected hash priorities = selected)
    (others : (s.remaining_nodes.filter fun node => !s.independent hash priorities node) = left) :
    Step hash s ⟨(RoundRun.sequential s.graph (fun _ => 0) selected).result,s.new_to_old_node_id,left⟩ :=
  chosen ▸ others ▸ .round priorities (fun _ => 0) (RoundRun.sequential s.graph (fun _ => 0) _)

theorem contractStep_fits {s : State} {priorities : NodeID → ℚ} {selected left : List NodeID}
    {chosen : s.selected hash priorities = selected}
    {others : (s.remaining_nodes.filter fun node => !s.independent hash priorities node) = left}
    (fits : ∀ v ∈ selected, NodeContraction.Fits s.graph v) :
    (contractStep s priorities selected left chosen others).Fits := by
  subst chosen others
  exact fits

theorem contractStep_detours {P : NodeID → Prop} {s : State} {priorities : NodeID → ℚ} {selected left : List NodeID}
    {chosen : s.selected hash priorities = selected}
    {others : (s.remaining_nodes.filter fun node => !s.independent hash priorities node) = left}
    (alone : ∀ v ∈ selected, ∀ a b w, P a → P b →
      NodeContraction.Through s.result (s.new_to_old_node_id v) a b w → a = b ∧ 0 < w) :
    (contractStep s priorities selected left chosen others).Detours P := by
  subst chosen others
  intro v taken a b w insideA insideB through best _
  obtain ⟨rfl,heavy⟩ := alone v taken a b w insideA insideB through
  exact absurd (best 0 (.nil a)) (not_le.mpr heavy)

def rowComplete : Complete id row where
  final := _
  run := .step (contractStep (.start row [0,1,2]) (fun u => if u = 1 then 0 else 1) [1] [0,2]
      (by decide +kernel) (by decide +kernel))
    (.step (contractStep rowFirst (fun u => u) [0] [2] (by decide +kernel) (by decide +kernel))
      (.step (contractStep rowSecond (fun u => u) [2] [] (by decide +kernel) (by decide +kernel)) (.stop _)))
  done := rfl

theorem fits_of_light {graph : ContractorGraph} {v : NodeID} (light : ∀ e ∈ graph.adjacent v, e.data.weight < 2 ^ 30) :
    NodeContraction.Fits graph v := by
  intro in_edge out_edge pair
  have one := light _ pair.incoming
  have two := light _ pair.outgoing
  unfold INVALID_EDGE_WEIGHT
  lia

theorem rowComplete_fits : rowComplete.run.All Step.Fits := by
  refine ⟨contractStep_fits ?_,contractStep_fits ?_,contractStep_fits ?_,trivial⟩
  · exact fun v _ => row_fits v
  · intro v only
    cases mem_singleton.mp only
    exact fits_of_light (by decide +kernel)
  · intro v only
    cases mem_singleton.mp only
    exact fits_of_light (by decide +kernel)

def rowEdges : List QueryEdge := (collectEdges rowComplete.final.result).insertionSort fun a b => edgeBefore b a = false

theorem rowEdges_toEdges : ToEdges rowComplete.final.result rowEdges :=
  ⟨perm_insertionSort _ _,by decide +kernel⟩

end Osrm.QueryGraph
