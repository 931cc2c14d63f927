import Osrm.ChUnpack
import Osrm.ContractorAdaptors

/-!
From the edge-based edges to a route, with a contraction hierarchy: `osrm-contract` builds the graph, contracts every
node of it and writes the edges that are left; `osrm-routed` searches them and unpacks what it found.
-/
namespace Osrm.ContractedSearch
open List
open Typedefs Walks DynamicGraphs EdgeBasedGraph ContractorAdaptors QueryGraph ChSearch
open ChUnpack
open Contractor (ContractorEdgeData)

/-- The edges as arcs. No arc is lighter than one, and an edge of invalid weight is none. -/
def inputArcs (input_edge_list : List EdgeBasedEdge) : Arcs NodeID := fun u v w => w ∈ inputWeights input_edge_list u v

section graph
variable {parallel_sort : ParallelSort} {uninitialized : ℕ → Edge ContractorEdgeData} {number_of_nodes : ℕ}
  {input_edge_list : List EdgeBasedEdge} {u v : NodeID} {w : ℤ}

private theorem inputArcs_positive : Positive (inputArcs input_edge_list) := by
  intro u v w arc
  obtain ⟨edge,_,rfl⟩ := mem_map.mp arc
  lia

private theorem inputArcs_ends (nodes : ∀ edge ∈ input_edge_list, edge.source < number_of_nodes ∧ edge.target < number_of_nodes)
    (arc : inputArcs input_edge_list u v w) : u < number_of_nodes ∧ v < number_of_nodes := by
  obtain ⟨edge,member,_⟩ := mem_map.mp arc
  obtain ⟨inside,usable⟩ := mem_filter.mp member
  simp only [usableInput,Bool.and_eq_true,Bool.or_eq_true,beq_iff_eq] at usable
  rcases usable.2 with ⟨⟨rfl,rfl⟩,_⟩ | ⟨⟨rfl,rfl⟩,_⟩
  · exact nodes edge inside
  · exact (nodes edge inside).symm

private theorem forwardArcs_iff : Contractor.forwardArcs
    (contractorGraph (toContractorGraph parallel_sort uninitialized number_of_nodes input_edge_list)) u v w ↔
      w ∈ storedWeights (toContractorGraph parallel_sort uninitialized number_of_nodes input_edge_list) .FORWARD u v := by
  simp only [Contractor.forwardArcs,contractorGraph,storedWeights,mem_map,mem_filter,Bool.and_eq_true,beq_iff_eq,usable]
  constructor
  · rintro ⟨_,⟨edge,member,rfl⟩,target,forward,weight⟩
    exact ⟨edge,⟨member,target,forward⟩,weight⟩
  · rintro ⟨edge,⟨member,target,forward⟩,weight⟩
    exact ⟨_,⟨edge,member,rfl⟩,target,forward,weight⟩

private theorem forwardArcs_least (here : u < number_of_nodes) (apart : u ≠ v) : Contractor.forwardArcs
    (contractorGraph (toContractorGraph parallel_sort uninitialized number_of_nodes input_edge_list)) u v w ↔
      (inputWeights input_edge_list u v).min? = some w := by
  obtain ⟨merging,gathered,kept⟩ := contractorEdges_between parallel_sort input_edge_list apart
  rw [forwardArcs_iff,storedWeights_eq here,← (@weights_contractorEdges parallel_sort input_edge_list u v apart).1,← weights_filter,kept,
    gathered.weights .FORWARD]
  split
  · simp [eq_comm]
  · simp

private theorem inputArcs_of_forward (arc : Contractor.forwardArcs
    (contractorGraph (toContractorGraph parallel_sort uninitialized number_of_nodes input_edge_list)) u v w) :
    inputArcs input_edge_list u v w := by
  have here : u < number_of_nodes := by
    obtain ⟨edge,member,_⟩ := arc
    exact (mem_contractorGraph member).1
  have apart : u ≠ v := by
    obtain ⟨edge,member,rfl,_⟩ := arc
    obtain ⟨_,kept,inside,rfl,rfl⟩ := mem_contractorGraph member
    rw [contractorEdges_eq] at inside
    exact (mem_merged inside).1
  exact min?_mem ((forwardArcs_least here apart).mp arc)

private theorem contractor_shortest_iff (nodes : ∀ edge ∈ input_edge_list, edge.source < number_of_nodes ∧ edge.target < number_of_nodes)
    (d : ℤ) : Shortest (Contractor.forwardArcs
      (contractorGraph (toContractorGraph parallel_sort uninitialized number_of_nodes input_edge_list))) u v d ↔
      Shortest (inputArcs input_edge_list) u v d := by
  refine shortest_congr (fun n walk => ⟨n,le_rfl,walk.mono fun x y w => inputArcs_of_forward⟩)
    (fun n walk => walk.lift fun x y w arc => ?_) d
  by_cases loop : x = y
  · -- an edge from a node to itself is not stored
    subst loop
    have := inputArcs_positive x x w arc
    exact ⟨0,by lia,.nil x⟩
  · obtain ⟨here,_⟩ := inputArcs_ends nodes arc
    cases least : (inputWeights input_edge_list x y).min? with
    | none =>
      rw [min?_eq_none_iff] at least
      rw [inputArcs,least] at arc
      cases arc
    | some lightest =>
      exact ⟨lightest,(min?_eq_some_iff.mp least).2 w arc,.single ((forwardArcs_least here loop).mpr least)⟩

end graph

section unpacked
variable {hash : NodeID → ℕ} {graph : Contractor.ContractorGraph} {edges : List QueryEdge} {s t : NodeID} {n : ℤ}

def routeNodes (s : NodeID) (calls : List ((NodeID × NodeID) × EdgeID)) : List NodeID := s :: calls.map (·.1.2)

private theorem joins_original (input : Input graph) (complete : Complete hash graph)
    (fits : complete.run.All ContractGraph.Step.Fits) (converted : ToEdges complete.final.result edges) {e : QueryEdge}
    {id : EdgeID} {u v : NodeID} (joins : Joins ⟨graph.number_of_nodes,edges⟩ e id u v) (plain : e.data.shortcut = false) :
    Contractor.forwardArcs graph u v e.data.weight := by
  have hierarchy := complete.hierarchy input fits
  have bounded : ∀ u, ∀ e ∈ complete.final.result.adjacent u, u < complete.final.result.number_of_nodes :=
    fun u e member => hierarchy.nodes ▸ (hierarchy.inside u e member).1
  obtain ⟨found,ways⟩ := joins
  obtain ⟨stored,member,same⟩ := (converted.mem_iff bounded).mp (mem_of_getElem? found)
  obtain ⟨source,target,data⟩ := e
  simp only [toQueryEdge,QueryEdge.mk.injEq,true_and] at same
  obtain ⟨rfl,rfl⟩ := same
  have original : stored ∈ graph.adjacent source := by
    rcases hierarchy.edges source stored member with old | added
    · exact old
    · exact absurd (plain.symm.trans added.shortcut) (by decide)
  rcases ways with ⟨rfl,rfl,forward⟩ | ⟨rfl,rfl,backward⟩
  · exact ⟨stored,original,rfl,forward,rfl⟩
  · obtain ⟨opposite,there,target',weight,forward',_⟩ := input.mirrored source stored original
    exact ⟨opposite,there,target',forward'.trans backward,weight⟩

private theorem route_path (input : Input graph) (complete : Complete hash graph)
    (fits : complete.run.All ContractGraph.Step.Fits) (converted : ToEdges complete.final.result edges)
    {calls : List ((NodeID × NodeID) × EdgeID)} (route : Route ⟨graph.number_of_nodes,edges⟩ s t calls n) :
    Path (Contractor.forwardArcs graph) s t (routeNodes s calls) n := by
  induction calls generalizing s n with
  | nil =>
    obtain ⟨rfl,rfl⟩ := route
    exact .single s
  | cons call calls ih =>
    obtain ⟨⟨a,b⟩,id⟩ := call
    obtain ⟨rfl,e,joins,plain,rest⟩ := route
    have path := Path.cons (joins_original input complete fits converted joins plain) (ih rest)
    rwa [add_sub_cancel] at path

end unpacked

/-- Contracting and searching find the shortest routes over the edges. -/
theorem contracted_searched_unpacked (parallel_sort : ParallelSort) (uninitialized : ℕ → Edge ContractorEdgeData) (number_of_nodes : ℕ)
    (input_edge_list : List EdgeBasedEdge)
    (nodes : ∀ edge ∈ input_edge_list, edge.source < number_of_nodes ∧ edge.target < number_of_nodes) (hash : NodeID → ℕ)
    (graph : Contractor.ContractorGraph)
    (built : graph = contractorGraph (toContractorGraph parallel_sort uninitialized number_of_nodes input_edge_list))
    (complete : Complete hash graph) (fits : complete.run.All ContractGraph.Step.Fits) (edges : List QueryEdge)
    (converted : ToEdges complete.final.result edges) (s t : NodeID)
    (light : ∀ d, Shortest (inputArcs input_edge_list) s t d → d < INVALID_EDGE_WEIGHT) :
    ∃ fuel weight packed_leg, (∀ more ≥ fuel, search more ⟨number_of_nodes,edges⟩ (startHeap s) (startHeap t) []
        INVALID_EDGE_WEIGHT = some (weight,packed_leg)) ∧
      (weight = INVALID_EDGE_WEIGHT ↔ ¬ Reachable (inputArcs input_edge_list) s t) ∧
      (weight ≠ INVALID_EDGE_WEIGHT → Shortest (inputArcs input_edge_list) s t weight ∧
        ∃ calls, (∀ more ≥ fuel, unpackPath more ⟨number_of_nodes,edges⟩ packed_leg = some calls) ∧
          Path (inputArcs input_edge_list) s t (routeNodes s calls) weight) := by
  have input : Input graph := built ▸ toContractorGraph_input parallel_sort uninitialized nodes
  have count : graph.number_of_nodes = number_of_nodes := built ▸ rfl
  have distances (d : ℤ) : Shortest (Contractor.forwardArcs graph) s t d ↔ Shortest (inputArcs input_edge_list) s t d :=
    built ▸ contractor_shortest_iff nodes d
  have unpackable := complete_unpackable complete input fits converted number_of_nodes
  have positive : Positive (Contractor.forwardArcs graph) := input.positive
  obtain ⟨fuel,⟨unreachable,runs⟩ | ⟨d,x,up,down,a,b,shortest,chainF,chainR,total,runs⟩⟩ :=
    @search_spec _ ⟨number_of_nodes,edges⟩ positive unpackable.climb (count ▸ complete.bounded input fits converted) s t
      fun d shortest => light d ((distances d).mp shortest)
  · refine ⟨fuel,_,_,runs,iff_of_true rfl fun reachable => unreachable ?_,fun valid => absurd rfl valid⟩
    obtain ⟨d,shortest⟩ := exists_shortest inputArcs_positive reachable
    exact ⟨d,((distances d).mpr shortest).1⟩
  · have based := (distances d).mp shortest
    have path := packed_path chainF chainR
    rw [total] at path
    obtain ⟨fuel',calls,route,unpacks⟩ := unpackPath_spec unpackable path shortest (light d based)
    have along : Path (Contractor.forwardArcs graph) s t (routeNodes s calls) d :=
      route_path input complete fits converted (count ▸ route)
    refine ⟨max fuel fuel',d,_,fun more enough => runs more (by lia),iff_of_false (light d based).ne
      fun unreachable => unreachable ⟨d,based.1⟩,fun _ => ⟨based,calls,fun more enough => unpacks more (by lia),?_⟩⟩
    subst built
    exact along.mono fun u v w => inputArcs_of_forward

def streets : List EdgeBasedEdge := [⟨0,1,⟨0,1,1,1,true,true⟩⟩,⟨1,2,⟨0,1,1,1,true,true⟩⟩]

def insertionSort : ParallelSort where
  sort edges := edges.insertionSort fun a b => less b a = false
  perm edges := perm_insertionSort _ edges
  ordered edges := by
    have total : Std.Total fun a b : ContractorEdge => less b a = false := ⟨fun a b => by
      simp only [less,Bool.or_eq_false_iff,decide_eq_false_iff_not,Bool.and_eq_false_imp,beq_iff_eq]
      lia⟩
    have trans : IsTrans ContractorEdge fun a b => less b a = false := ⟨fun a b c => by
      simp only [less,Bool.or_eq_false_iff,decide_eq_false_iff_not,Bool.and_eq_false_imp,beq_iff_eq]
      lia⟩
    exact pairwise_insertionSort _ edges

private theorem row_built : ContractionRound.row =
    contractorGraph (toContractorGraph insertionSort (fun _ => (noEdge 0 0 0 true).edge) 3 streets) := by
  have each : ∀ u, ContractionRound.row.adjacent u =
      (contractorGraph (toContractorGraph insertionSort (fun _ => (noEdge 0 0 0 true).edge) 3 streets)).adjacent u := by
    intro u
    by_cases here : u < 3
    · interval_cases u <;> decide +kernel
    · have none_there : (contractorGraph (toContractorGraph insertionSort (fun _ => (noEdge 0 0 0 true).edge) 3 streets)).adjacent u = [] :=
        eq_nil_iff_forall_not_mem.mpr fun edge member => here (mem_contractorGraph member).1
      rw [none_there]
      simp [ContractionRound.row,show u ≠ 0 by lia,show u ≠ 1 by lia,show u ≠ 2 by lia]
  exact congrArg (Contractor.ContractorGraph.mk 3) (funext each)

private theorem streets_shortest : Shortest (inputArcs streets) 0 2 2 := by
  have inside : ∀ edge ∈ streets, edge.source < 3 ∧ edge.target < 3 := by decide
  exact (contractor_shortest_iff inside 2).mp (row_built ▸ ContractionRound.row_distance)

/-- Both streets, from one end to the other. -/
theorem contracted_searched_unpacked_row : ∃ fuel packed_leg calls, (∀ more ≥ fuel,
      search more ⟨3,rowEdges⟩ (startHeap 0) (startHeap 2) [] INVALID_EDGE_WEIGHT = some (2,packed_leg) ∧
      unpackPath more ⟨3,rowEdges⟩ packed_leg = some calls) ∧ Path (inputArcs streets) 0 2 (routeNodes 0 calls) 2 := by
  obtain ⟨fuel,weight,packed_leg,runs,unreachable,found⟩ := contracted_searched_unpacked insertionSort (fun _ => (noEdge 0 0 0 true).edge) 3 streets
    (by decide) id ContractionRound.row row_built rowComplete rowComplete_fits rowEdges rowEdges_toEdges 0 2
    fun d shortest => by rw [shortest.unique streets_shortest]; decide
  obtain ⟨shortest,calls,unpacks,path⟩ := found fun invalid => unreachable.mp invalid ⟨2,streets_shortest.1⟩
  obtain rfl := shortest.unique streets_shortest
  exact ⟨fuel,packed_leg,calls,fun more enough => ⟨runs more enough,unpacks more enough⟩,path⟩

end Osrm.ContractedSearch
