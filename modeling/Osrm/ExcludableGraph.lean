import Osrm.ContractedEdgeContainer
import Osrm.Loops

/-!
`contractExcludableGraph`: a graph is contracted for several filters at once. The nodes that all
filters allow are contracted first and the result is shared; what is left of the graph is
filtered and contracted for each filter apart.
-/
namespace Osrm.ExcludableGraph
open List
open Typedefs Walks Contractor NodeContraction ContractionRound Contraction
open ContractGraph QueryGraph ContractedEdgeContainer

/-- `DynamicGraph::Filter`. -/
def Filter (graph : ContractorGraph) (filter : NodeID → Bool) : ContractorGraph where
  number_of_nodes := graph.number_of_nodes
  adjacent u := if filter u then (graph.adjacent u).filter fun e => filter e.target else []
def always_allowed (filters : List (NodeID → Bool)) (node : NodeID) : Bool := filters.all fun filter => filter node
def contractable (graph : ContractorGraph) (filters : List (NodeID → Bool)) : List NodeID :=
  (List.range graph.number_of_nodes).filter (always_allowed filters)
/-- The nodes that the shared contraction leaves, those that some filter forbids among them. -/
def is_shared_core (graph : ContractorGraph) (filters : List (NodeID → Bool)) (shared : State) (node : NodeID) : Bool :=
  !(contractable graph filters).contains node || shared.core.contains node

structure CoreRun (hash : NodeID → ℕ) (core_graph : ContractorGraph) (core : NodeID → Bool) (filter : NodeID → Bool) where
  final : State
  run : Run hash (.start (Filter core_graph filter) ((List.range core_graph.number_of_nodes).filter core)) final
  done : final.remaining_nodes = []
  edges : List QueryEdge
  converted : ToEdges final.result edges

/-- The loop over the filters that merges the edges of the contracted cores. -/
inductive Merges (hash : NodeID → ℕ) (core_graph : ContractorGraph) (core : NodeID → Bool) :
    List (NodeID → Bool) → Container → Container → Type
  | nil (container : Container) : Merges hash core_graph core [] container container
  | cons {filter : NodeID → Bool} {filters : List (NodeID → Bool)} {container middle after : Container}
      (first : CoreRun hash core_graph core filter) (merge : container.Merge first.edges middle)
      (rest : Merges hash core_graph core filters middle after) :
      Merges hash core_graph core (filter :: filters) container after

/-- The container with the edges that are not in the core, filtered for every filter. -/
def nonCore (graph : ContractorGraph) (filters : List (NodeID → Bool)) (shared : State) (edges : List QueryEdge) :
    Container :=
  filters.zipIdx.foldl (fun container filter => container.Filter filter.1 filter.2)
    (.Insert (edges.filter fun e =>
      !(is_shared_core graph filters shared e.source && is_shared_core graph filters shared e.target)))

/-- The query graph and the edge filters; the edges are those of the entries. -/
structure GraphAndFilter where
  query_graph : QueryGraph.Graph
  edge_filters : List (List Bool)

def allows_all (graph : ContractorGraph) (filters : List (NodeID → Bool)) : Prop :=
  ∃ filter, filters = [filter] ∧ ∀ node < graph.number_of_nodes, filter node = true

/-- A run of `contractExcludableGraph`. -/
inductive ContractExcludableGraph (hash : NodeID → ℕ) (graph : ContractorGraph) (filters : List (NodeID → Bool)) :
    GraphAndFilter → Type
  | contractFullGraph (single : allows_all graph filters) (complete : Complete hash graph) (edges : List QueryEdge)
      (converted : ToEdges complete.final.result edges) :
      ContractExcludableGraph hash graph filters ⟨⟨graph.number_of_nodes,edges⟩,[edges.map fun _ => true]⟩
  | shared (several : ¬ allows_all graph filters) (shared : State)
      (run : Run hash (.start graph (contractable graph filters)) shared) (edges : List QueryEdge)
      (converted : ToEdges shared.result edges) (container : Container)
      (merges : Merges hash (Filter shared.result (is_shared_core graph filters shared))
        (is_shared_core graph filters shared) filters (nonCore graph filters shared edges) container) :
      ContractExcludableGraph hash graph filters
        ⟨⟨graph.number_of_nodes,container.entries.map (·.1)⟩,container.MakeEdgeFilters⟩

def GraphAndFilter.restrict (result : GraphAndFilter) (i : ℕ) : QueryGraph.Graph :=
  ⟨result.query_graph.number_of_nodes,((result.query_graph.edges.zip (result.edge_filters.getD i [])).filter (·.2)).map (·.1)⟩
/-- The weight of a path that goes up from `s` and, against the arcs, up from `t`. -/
def UpDownWeight (graph : QueryGraph.Graph) (s t : NodeID) (n : ℤ) : Prop :=
  ∃ x a b, Walk (graph.arcs .FORWARD) s x a ∧ Walk (graph.arcs .REVERSE) t x b ∧ n = a + b

/-- The best of these paths is as long as the shortest way through the allowed nodes. -/
structure RoutesWithin (graph : ContractorGraph) (filter : NodeID → Bool) (query_graph : QueryGraph.Graph) : Prop where
  reachable : ∀ s t, filter s = true → filter t = true →
    ((∃ n, UpDownWeight query_graph s t n) ↔ Reachable (within (fun u => filter u = true) (forwardArcs graph)) s t)
  shortest : ∀ s t d, filter s = true → filter t = true →
    (IsLeast {n | UpDownWeight query_graph s t n} d ↔ Shortest (within (fun u => filter u = true) (forwardArcs graph)) s t d)

variable {hash : NodeID → ℕ} {graph core_graph : ContractorGraph} {core : NodeID → Bool}
  {filters : List (NodeID → Bool)} {filter : NodeID → Bool}

def Merges.Fits : {filters : List (NodeID → Bool)} → {container after : Container} →
    Merges hash core_graph core filters container after → Prop
  | _, _, _, .nil _ => True
  | _, _, _, .cons first _ rest => first.run.All Step.Fits ∧ rest.Fits

def ContractExcludableGraph.Fits {result : GraphAndFilter} : ContractExcludableGraph hash graph filters result → Prop
  | .contractFullGraph _ complete _ _ => complete.run.All Step.Fits
  | .shared _ _ run _ _ _ merges => run.All Step.Fits ∧ merges.Fits

/-- In every round of the shared contraction, where no shortcut is made for a shortest way among the allowed nodes,
    there is another such way. -/
def ContractExcludableGraph.Detours {result : GraphAndFilter} (filter : NodeID → Bool) :
    ContractExcludableGraph hash graph filters result → Prop
  | .contractFullGraph .. => True
  | .shared _ _ run _ _ _ _ => run.All (Step.Detours fun u => filter u = true)

private theorem nonCore_flags {shared : State} {edges : List QueryEdge} (few : filters.length ≤ 8) {i : ℕ}
    (found : filters[i]? = some filter) (e : QueryEdge) :
    HasFlag (nonCore graph filters shared edges).entries i e ↔
      (e ∈ edges ∧ ¬ (is_shared_core graph filters shared e.source = true ∧
        is_shared_core graph filters shared e.target = true)) ∧ filter e.source = true ∧ filter e.target = true := by
  rw [show nonCore graph filters shared edges = (Container.Insert _).filterAll filters from rfl,
    filterAll_flags few found]
  simp only [Container.Insert,map_map,Function.comp_def,map_id',List.mem_filter,Bool.not_eq_true',
    Bool.and_eq_false_iff,not_and_or,Bool.not_eq_true]

@[simp] private theorem nonCore_index {shared : State} {edges : List QueryEdge} :
    (nonCore graph filters shared edges).index = 0 := filterAll_index filters

private theorem Merges.lists {container after : Container} (merges : Merges hash core_graph core filters container after)
    (fits : merges.Fits) : ∃ lists : List (List QueryEdge), lists.length = filters.length ∧
      ContractedEdgeContainer.Merges lists container after ∧
      ∀ (j : ℕ) filter, filters[j]? = some filter → ∃ run : CoreRun hash core_graph core filter,
        run.run.All Step.Fits ∧ lists[j]? = some run.edges := by
  induction merges with
  | nil container => exact ⟨[],rfl,.nil _,by simp⟩
  | @cons filter filters container middle after first merge rest ih =>
    obtain ⟨lists,length,merges,runs⟩ := ih fits.2
    refine ⟨first.edges :: lists,by simp [length],.cons merge merges,?_⟩
    intro j filter' found
    cases j with
    | zero =>
      obtain rfl : filter = filter' := by simpa using found
      exact ⟨first,fits.1,rfl⟩
    | succ j => simpa using runs j filter' (by simpa using found)

private theorem Merges.flags {container after : Container} (merges : Merges hash core_graph core filters container after)
    (few : container.index + filters.length ≤ 8) (fits : merges.Fits) :
    after.index = container.index + filters.length ∧
    ∀ j filter, filters[j]? = some filter → ∃ run : CoreRun hash core_graph core filter, run.run.All Step.Fits ∧
      (∀ e, HasFlag after.entries (container.index + j) e →
        HasFlag container.entries (container.index + j) e ∨ ∃ new ∈ run.edges, Alike e new) ∧
      (∀ e, HasFlag container.entries (container.index + j) e → HasFlag after.entries (container.index + j) e) ∧
      ∀ new ∈ run.edges, ∃ e, HasFlag after.entries (container.index + j) e ∧ Alike e new := by
  obtain ⟨lists,length,all,runs⟩ := merges.lists fits
  obtain ⟨total,_,flags⟩ := all.flags (by omega)
  refine ⟨by omega,?_⟩
  intro j filter found
  obtain ⟨run,fits',merged⟩ := runs j filter found
  exact ⟨run,fits',flags j run.edges merged⟩

private theorem restrict_arcs {container : Container} {n i : ℕ} (known : i < container.index) {direction : Direction}
    {u v : NodeID} {w : ℤ} :
    (GraphAndFilter.restrict ⟨⟨n,container.entries.map (·.1)⟩,container.MakeEdgeFilters⟩ i).arcs direction u v w ↔
      ∃ e, HasFlag container.entries i e ∧ e.source = u ∧ e.target = v ∧ e.data.usable direction = true ∧
        e.data.weight = w := by
  have edges (e : QueryEdge) : e ∈ (GraphAndFilter.restrict ⟨⟨n,container.entries.map (·.1)⟩,container.MakeEdgeFilters⟩ i).edges ↔
      HasFlag container.entries i e := mem_edgesOf known
  unfold Graph.arcs
  rw [exists_adjacent (P := fun e => e.target = v ∧ e.data.usable direction = true ∧ e.data.weight = w)]
  simp only [edges]

/-! ### The two contractions together -/

private theorem filter_arcs : forwardArcs (Filter graph filter) = within (fun u => filter u = true) (forwardArcs graph) := by
  funext u v w
  refine propext ⟨?_,?_⟩
  · rintro ⟨e,member,rfl,forward,rfl⟩
    unfold Filter at member
    dsimp only at member
    split at member
    · rename_i allowed
      obtain ⟨inside,allowed'⟩ := List.mem_filter.mp member
      exact ⟨allowed,allowed',e,inside,rfl,forward,rfl⟩
    · simp at member
  · rintro ⟨allowed,allowed',e,member,rfl,forward,rfl⟩
    refine ⟨e,?_,rfl,forward,rfl⟩
    unfold Filter
    dsimp only
    rw [if_pos allowed]
    exact List.mem_filter.mpr ⟨member,allowed'⟩

private theorem mem_filter {u : NodeID} {e : DynamicEdge} :
    e ∈ (Filter graph filter).adjacent u ↔ filter u = true ∧ filter e.target = true ∧ e ∈ graph.adjacent u := by
  unfold Filter
  dsimp only
  by_cases allowed : filter u = true
  · rw [if_pos allowed,List.mem_filter]
    tauto
  · simp [allowed]

private theorem filter_consistent {alive : NodeID → Prop} (consistent : Consistent graph alive) :
    Consistent (Filter graph filter) alive := by
  refine ⟨?_,?_,?_,?_,?_⟩
  · exact fun u living e member => consistent.closed u living e (mem_filter.mp member).2.2
  · exact fun u living e member => consistent.positive u living e (mem_filter.mp member).2.2
  · rintro u v living ⟨e,member,rfl⟩
    obtain ⟨here,there,inside⟩ := mem_filter.mp member
    obtain ⟨e',member',target⟩ := consistent.symmetric u e.target living ⟨e,inside,rfl⟩
    exact ⟨e',mem_filter.mpr ⟨there,target ▸ here,member'⟩,target⟩
  · rintro u v w living ⟨e,member,rfl,forward,rfl⟩
    obtain ⟨here,there,inside⟩ := mem_filter.mp member
    obtain ⟨w',wLe,e',member',target,backward,weight⟩ :=
      consistent.forward u e.target _ living ⟨e,inside,rfl,forward,rfl⟩
    exact ⟨w',wLe,e',mem_filter.mpr ⟨there,target ▸ here,member'⟩,target,backward,weight⟩
  · rintro u v w living ⟨e,member,rfl,backward,rfl⟩
    obtain ⟨here,there,inside⟩ := mem_filter.mp member
    obtain ⟨w',wLe,e',member',target,forward,weight⟩ :=
      consistent.backward e.target v _ living ⟨e,inside,rfl,backward,rfl⟩
    exact ⟨w',wLe,e',mem_filter.mpr ⟨there,target ▸ here,member'⟩,target,forward,weight⟩

def InCore (graph : ContractorGraph) (filters : List (NodeID → Bool)) (shared : State) (u : NodeID) : Prop :=
  u < graph.number_of_nodes ∧ (u ∈ contractable graph filters → u ∈ shared.core)

private theorem is_shared_core_iff {shared : State} {u : NodeID} : is_shared_core graph filters shared u = true ↔
    (u ∈ contractable graph filters → u ∈ shared.core) := by
  simp only [is_shared_core,Bool.or_eq_true,Bool.not_eq_true',contains_eq_mem,decide_eq_false_iff_not,
    decide_eq_true_eq]
  tauto

section climb
variable {shared : State} {P : NodeID → Prop}

private theorem CoreRun.hierarchy (run : CoreRun hash (Filter shared.result (is_shared_core graph filters shared))
      (is_shared_core graph filters shared) filter)
    (before : Hierarchy graph (· < graph.number_of_nodes) P shared.result (InCore graph filters shared))
    (fits : run.run.All Step.Fits) :
    Hierarchy (Filter (Filter shared.result (is_shared_core graph filters shared)) filter) (InCore graph filters shared)
      (fun _ => True) run.final.result (fun _ => False) := by
  have core : ∀ u, u ∈ (List.range (Filter shared.result (is_shared_core graph filters shared)).number_of_nodes).filter
      (is_shared_core graph filters shared) ↔ InCore graph filters shared u := by
    intro u
    have nodes : (Filter shared.result (is_shared_core graph filters shared)).number_of_nodes = graph.number_of_nodes :=
      before.nodes
    rw [List.mem_filter,mem_range,nodes,is_shared_core_iff]
    rfl
  have inside : ∀ u, ∀ e ∈ (Filter (Filter shared.result (is_shared_core graph filters shared)) filter).adjacent u,
      InCore graph filters shared u ∧ InCore graph filters shared e.target := by
    intro u e member
    obtain ⟨_,_,member⟩ := mem_filter.mp member
    obtain ⟨here,there,member⟩ := mem_filter.mp member
    obtain ⟨low,low'⟩ := before.inside u e member
    exact ⟨⟨low,is_shared_core_iff.mp here⟩,low',is_shared_core_iff.mp there⟩
  have valid := run.run.valid (filter_consistent (filter_consistent before.consistent)) inside
    (fun u member => (core u).mp member) fits
  have empty : (fun u => InCore graph filters shared u ∧ (u ∈ (List.range (Filter shared.result
      (is_shared_core graph filters shared)).number_of_nodes).filter (is_shared_core graph filters shared) →
        u ∈ run.final.core)) = fun _ => False := by
    funext u
    simp only [core,State.core,run.done,map_nil,not_mem_nil,eq_iff_iff,iff_false]
    tauto
  exact empty ▸ valid.hierarchy

private theorem shared_climb (input : Input graph) (member : filter ∈ filters)
    (before : Hierarchy graph (· < graph.number_of_nodes) (fun u => filter u = true) shared.result
      (InCore graph filters shared))
    (run : CoreRun hash (Filter shared.result (is_shared_core graph filters shared))
      (is_shared_core graph filters shared) filter) (fits : run.run.All Step.Fits) {F B : Arcs NodeID}
    (forward : ∀ u v w, F u v w ↔ (¬ (is_shared_core graph filters shared u = true ∧
        is_shared_core graph filters shared v = true) ∧ filter u = true ∧ filter v = true ∧
        forwardArcs shared.result u v w) ∨ forwardArcs run.final.result u v w)
    (backward : ∀ u v w, B u v w ↔ (¬ (is_shared_core graph filters shared u = true ∧
        is_shared_core graph filters shared v = true) ∧ filter u = true ∧ filter v = true ∧
        backwardArcs shared.result u v w) ∨ backwardArcs run.final.result u v w) :
    Climb (within (fun u => filter u = true) (forwardArcs graph)) F B := by
  have after := run.hierarchy before fits
  have dead_allowed : ∀ u, u < graph.number_of_nodes → ¬ InCore graph filters shared u → filter u = true := by
    intro u low dead
    by_contra forbidden
    refine dead ⟨low,fun chosen => ?_⟩
    have allowed := (List.mem_filter.mp chosen).2
    exact absurd (all_eq_true.mp allowed filter member) forbidden
  have first : ∀ {u v w}, filter u = true → filter v = true → usableArcs shared.result u v w →
      ∃ m ≤ w, Walk (within (fun u => filter u = true) (forwardArcs graph)) u v m :=
    fun here there arc => before.sound input.consistent dead_allowed here there arc
  have second : ∀ {u v w}, usableArcs run.final.result u v w →
      ∃ m ≤ w, Walk (within (fun u => filter u = true) (forwardArcs graph)) u v m := by
    intro u v w arc
    obtain ⟨m,mLe,walk⟩ := after.sound (filter_consistent (filter_consistent before.consistent)) (fun _ _ _ => trivial)
      trivial trivial arc
    rw [within_univ,filter_arcs,filter_arcs] at walk
    obtain ⟨m',mLe',walk'⟩ := walk.lift fun u v w arc => first arc.1 arc.2.1 (.inl arc.2.2.2.2)
    exact ⟨m',mLe'.trans mLe,walk'⟩
  refine ⟨?_,?_,?_,?_,?_⟩
  · intro u v w arc
    rcases (forward u v w).mp arc with ⟨_,_,_,e,inside,_,_,rfl⟩ | ⟨e,inside,_,_,rfl⟩
    · exact before.positive u e inside
    · exact after.positive u e inside
  · intro u v w arc
    rcases (backward u v w).mp arc with ⟨_,_,_,e,inside,_,_,rfl⟩ | ⟨e,inside,_,_,rfl⟩
    · exact before.positive u e inside
    · exact after.positive u e inside
  · intro u v w arc
    rcases (forward u v w).mp arc with ⟨_,here,there,old⟩ | new
    · exact first here there (.inl old)
    · exact second (.inl new)
  · intro u v w arc
    rcases (backward u v w).mp arc with ⟨_,here,there,old⟩ | new
    · exact first there here (.inr old)
    · exact second (.inr new)
  · intro s t n walk
    obtain ⟨x,y,a,b,m,up,down,middle,total⟩ := before.upDown s t n walk
    have middle' : Walk (within (fun _ => True) (forwardArcs
        (Filter (Filter shared.result (is_shared_core graph filters shared)) filter))) x y m := by
      rw [within_univ,filter_arcs,filter_arcs]
      refine middle.mono ?_
      rintro u v w ⟨here,there,living,living',arc⟩
      exact ⟨here,there,is_shared_core_iff.mpr living.2,is_shared_core_iff.mpr living'.2,arc⟩
    obtain ⟨z,c,d,up',down',le⟩ := after.upDown.meet (fun u v w arc => arc.2.2.1) middle'
    have outside : ∀ {u v}, u < graph.number_of_nodes ∧ ¬ InCore graph filters shared u →
        ¬ (is_shared_core graph filters shared u = true ∧ is_shared_core graph filters shared v = true) :=
      fun dead both => dead.2 ⟨dead.1,is_shared_core_iff.mp both.1⟩
    have upF : Walk F s x a := by
      refine up.mono ?_
      rintro u v w ⟨here,there,dead,arc⟩
      exact (forward u v w).mpr (.inl ⟨outside dead,here,there,arc⟩)
    have downB : Walk B t y b := by
      refine down.mono ?_
      rintro u v w ⟨here,there,dead,arc⟩
      exact (backward u v w).mpr (.inl ⟨outside dead,here,there,arc⟩)
    have upF' : Walk F x z c := up'.mono fun u v w arc => (forward u v w).mpr (.inr arc.2.2.2)
    have downB' : Walk B y z d := down'.mono fun u v w arc => (backward u v w).mpr (.inr arc.2.2.2)
    exact ⟨z,a + c,b + d,upF.append upF',downB.append downB',by omega⟩

end climb

/-! ### Routes -/

private theorem climb_routes {query_graph : QueryGraph.Graph}
    (climb : Climb (within (fun u => filter u = true) (forwardArcs graph)) (query_graph.arcs .FORWARD)
      (query_graph.arcs .REVERSE)) : RoutesWithin graph filter query_graph := by
  have sound : ∀ {s t n}, UpDownWeight query_graph s t n →
      ∃ m ≤ n, Walk (within (fun u => filter u = true) (forwardArcs graph)) s t m := by
    rintro s t n ⟨x,a,b,up,down,rfl⟩
    obtain ⟨a',aLe,one⟩ := climb.walkF up
    obtain ⟨b',bLe,two⟩ := climb.flip.walkF down
    exact ⟨a' + b',by omega,one.append two.of_reverse⟩
  have complete : ∀ {s t n}, Walk (within (fun u => filter u = true) (forwardArcs graph)) s t n →
      ∃ m ≤ n, UpDownWeight query_graph s t m := by
    intro s t n walk
    obtain ⟨x,a,b,up,down,le⟩ := climb.meet s t n walk
    exact ⟨a + b,le,x,a,b,up,down,rfl⟩
  refine ⟨fun s t _ _ => ⟨?_,?_⟩,fun s t d _ _ => ⟨?_,?_⟩⟩
  · rintro ⟨n,path⟩
    obtain ⟨m,_,walk⟩ := sound path
    exact ⟨m,walk⟩
  · rintro ⟨n,walk⟩
    obtain ⟨m,_,path⟩ := complete walk
    exact ⟨m,path⟩
  · rintro ⟨path,least⟩
    obtain ⟨m,mLe,walk⟩ := sound path
    have bound : ∀ k, Walk (within (fun u => filter u = true) (forwardArcs graph)) s t k → d ≤ k := by
      intro k other
      obtain ⟨k',kLe,path'⟩ := complete other
      exact (least path').trans kLe
    exact ⟨le_antisymm mLe (bound m walk) ▸ walk,bound⟩
  · rintro ⟨walk,least⟩
    obtain ⟨m,mLe,path⟩ := complete walk
    have bound : ∀ k, UpDownWeight query_graph s t k → d ≤ k := by
      intro k other
      obtain ⟨k',kLe,walk'⟩ := sound other
      exact (least k' walk').trans kLe
    exact ⟨le_antisymm mLe (bound m path) ▸ path,fun k other => bound k other⟩

private theorem keep_all (edges : List QueryEdge) :
    ((edges.zip (edges.map fun _ => true)).filter (·.2)).map (·.1) = edges := by
  induction edges with
  | nil => rfl
  | cons e rest ih =>
    rw [map_cons,zip_cons_cons,filter_cons_of_pos rfl,map_cons,ih]

private theorem restrict_all (nodes : ℕ) (edges : List QueryEdge) :
    GraphAndFilter.restrict ⟨⟨nodes,edges⟩,[edges.map fun _ => true]⟩ 0 = ⟨nodes,edges⟩ :=
  congrArg (QueryGraph.Graph.mk _) (keep_all edges)

private theorem within_all (input : Input graph) (all : ∀ u < graph.number_of_nodes, filter u = true) :
    within (fun u => filter u = true) (forwardArcs graph) = forwardArcs graph := by
  funext u v w
  refine propext ⟨fun arc => arc.2.2,fun arc => ?_⟩
  obtain ⟨e,member,rfl,set⟩ := arc
  obtain ⟨low,low'⟩ := input.bounded u e member
  exact ⟨all u low,all _ low',e,member,rfl,set⟩

private theorem merged_arcs {container : Container} {shared : State} {edges core : List QueryEdge} {i : ℕ}
    (few : filters.length ≤ 8) (found : filters[i]? = some filter) (known : i < container.index)
    (origin : ∀ e, HasFlag container.entries i e →
      HasFlag (nonCore graph filters shared edges).entries i e ∨ ∃ e' ∈ core, Alike e e')
    (kept : ∀ e, HasFlag (nonCore graph filters shared edges).entries i e → HasFlag container.entries i e)
    (new : ∀ e ∈ core, ∃ e', HasFlag container.entries i e' ∧ Alike e' e) (direction : Direction) (u v : NodeID) (w : ℤ) :
    (GraphAndFilter.restrict ⟨⟨graph.number_of_nodes,container.entries.map (·.1)⟩,container.MakeEdgeFilters⟩ i).arcs
        direction u v w ↔
      (¬ (is_shared_core graph filters shared u = true ∧ is_shared_core graph filters shared v = true) ∧
        filter u = true ∧ filter v = true ∧ (QueryGraph.Graph.mk graph.number_of_nodes edges).arcs direction u v w) ∨
      (QueryGraph.Graph.mk graph.number_of_nodes core).arcs direction u v w := by
  have listed : ∀ l : List QueryEdge, (QueryGraph.Graph.mk graph.number_of_nodes l).arcs direction u v w ↔
      ∃ e ∈ l, e.source = u ∧ e.target = v ∧ e.data.usable direction = true ∧ e.data.weight = w :=
    fun l => exists_adjacent (P := fun e => e.target = v ∧ e.data.usable direction = true ∧ e.data.weight = w)
  rw [restrict_arcs known,listed,listed]
  constructor
  · rintro ⟨e,flag,rfl,rfl,usable,rfl⟩
    rcases origin e flag with old | ⟨e',member,alike⟩
    · obtain ⟨⟨member,outside⟩,here,there⟩ := (nonCore_flags few found e).mp old
      exact .inl ⟨outside,here,there,e,member,rfl,rfl,usable,rfl⟩
    · obtain ⟨source,target,weight,forward,backward⟩ := alike.fields
      refine .inr ⟨e',member,source.symm,target.symm,?_,weight.symm⟩
      cases direction
      · exact forward.symm.trans usable
      · exact backward.symm.trans usable
  · rintro (⟨outside,here,there,e,member,rfl,rfl,rest⟩ | ⟨e,member,rfl,rfl,usable,rfl⟩)
    · exact ⟨e,kept e ((nonCore_flags few found e).mpr ⟨⟨member,outside⟩,here,there⟩),rfl,rfl,rest⟩
    · obtain ⟨e',flag,alike⟩ := new e member
      obtain ⟨source,target,weight,forward,backward⟩ := alike.fields
      refine ⟨e',flag,source,target,?_,weight⟩
      cases direction
      · exact forward.trans usable
      · exact backward.trans usable

/-- Where the shared contraction drops no shortcut that the filter needs, the query graph routes as the allowed nodes do. -/
theorem excludable_routes (hash : NodeID → ℕ) (graph : ContractorGraph) (input : Input graph)
    (filters : List (NodeID → Bool)) (few : filters.length ≤ 8) (result : GraphAndFilter)
    (run : ContractExcludableGraph hash graph filters result) (fits : run.Fits) (i : ℕ) (filter : NodeID → Bool)
    (found : filters[i]? = some filter) (detours : run.Detours filter) :
    RoutesWithin graph filter (result.restrict i) := by
  cases run with
  | contractFullGraph single complete edges converted =>
    obtain ⟨only,rfl,all⟩ := single
    obtain ⟨rfl,rfl⟩ : i = 0 ∧ only = filter := by
      cases i with
      | zero => simpa using found
      | succ i => simp at found
    rw [restrict_all]
    exact climb_routes ((within_all input all).symm ▸ complete.climb input fits converted)
  | shared several shared run edges converted container merges =>
    have valid := run.valid_within input.consistent input.bounded
      (fun u member => mem_range.mp (List.mem_filter.mp member).1) fits.1 detours
    have before : Hierarchy graph (· < graph.number_of_nodes) (fun u => filter u = true) shared.result
        (InCore graph filters shared) := valid.hierarchy
    obtain ⟨total,later⟩ := merges.flags (by simpa [nonCore_index] using few) fits.2
    obtain ⟨core,coreFits,origin,kept,new⟩ := later i filter found
    rw [nonCore_index,Nat.zero_add] at origin kept new
    have after := core.hierarchy before coreFits
    have known : i < container.index := by
      rw [total,nonCore_index,Nat.zero_add]
      exact (List.getElem?_eq_some_iff.mp found).1
    have sharedArcs := @ToEdges.arcs _ _ converted (fun u e member => before.nodes ▸ (before.inside u e member).1)
      graph.number_of_nodes
    have coreArcs := @ToEdges.arcs _ _ core.converted (fun u e member =>
      after.nodes ▸ before.nodes.symm ▸ (after.inside u e member).1.1) graph.number_of_nodes
    have arcs := merged_arcs few found known origin kept new
    refine climb_routes (shared_climb input (mem_of_getElem? found) before core coreFits ?_ ?_)
    · intro u v w
      rw [arcs,sharedArcs.1,coreArcs.1]
    · intro u v w
      rw [arcs,sharedArcs.2,coreArcs.2]

/-! ### An example -/

def circle : ContractorGraph where
  number_of_nodes := 4
  adjacent := fun u => if u = 0 then [street 1,street 3] else if u = 1 then [street 0,street 2]
    else if u = 2 then [street 1,street 3] else if u = 3 then [street 0,street 2] else []

def circleFilters : List (NodeID → Bool) := [fun u => u < 3,fun u => 0 < u]
/-- `XORFastHash` of the four ids, its tables shuffled by libstdc++. -/
def circleHash (node : NodeID) : ℕ := [19848,4001,4069,10674].getD node 0
/-- The greatest `float`, the priority of what is not contractable. -/
def maxPriority : ℚ := (2 ^ 24 - 1) * 2 ^ 104

/-- The states in which the third node is contracted, as the second yields to it, then the second. -/
def circleFirst : State := ⟨(RoundRun.sequential circle (fun _ => 0) [2]).result,Equiv.refl _,[1]⟩
def circleShared : State := ⟨(RoundRun.sequential circleFirst.graph (fun _ => 0) [1]).result,Equiv.refl _,[]⟩
/-- The contraction of neither node adds an edge, so that only the depth counts for its priority. -/
def circlePriorities (depth : ℚ) (node : NodeID) : ℚ := if node = 1 then depth else if node = 2 then 0 else maxPriority
def circleRun : Run circleHash (.start circle (contractable circle circleFilters)) circleShared :=
  .step (contractStep (.start circle (contractable circle circleFilters)) (circlePriorities 0) [2] [1]
      (by decide +kernel) (by decide +kernel))
    (.step (contractStep circleFirst (circlePriorities 1) [1] [] (by decide +kernel) (by decide +kernel)) (.stop _))

abbrev circleInCore : NodeID → Bool := is_shared_core circle circleFilters circleShared
abbrev circleCoreGraph : ContractorGraph := Filter circleShared.result circleInCore
def sortEdges (edges : List QueryEdge) : List QueryEdge := edges.insertionSort fun a b => edgeBefore b a = false

/-- For either filter the core has no edges and is contracted in one round. -/
def circleCore (filter : NodeID → Bool)
    (chosen : (State.start (Filter circleCoreGraph filter) ((List.range 4).filter circleInCore)).selected circleHash
      (fun _ => 0) = [0,3])
    (others : ((State.start (Filter circleCoreGraph filter) ((List.range 4).filter circleInCore)).remaining_nodes.filter
      fun node => !(State.start (Filter circleCoreGraph filter) ((List.range 4).filter circleInCore)).independent
        circleHash (fun _ => 0) node) = [])
    (none_left : collectEdges (State.result ⟨(RoundRun.sequential (Filter circleCoreGraph filter) (fun _ => 0) [0,3]).result,
      Equiv.refl _,[]⟩) = []) : CoreRun circleHash circleCoreGraph circleInCore filter where
  final := _
  run := .step (contractStep _ (fun _ => 0) [0,3] [] chosen others) (.stop _)
  done := rfl
  edges := []
  converted := ⟨Perm.of_eq none_left.symm,.nil⟩

def circleCores : (CoreRun circleHash circleCoreGraph circleInCore fun u => u < 3) ×
    CoreRun circleHash circleCoreGraph circleInCore fun u => 0 < u :=
  (circleCore _ (by decide +kernel) (by decide +kernel) (by decide +kernel),
    circleCore _ (by decide +kernel) (by decide +kernel) (by decide +kernel))

def circleContainer : Container :=
  nonCore circle circleFilters circleShared (sortEdges (collectEdges circleShared.result))

private theorem merge_nil (i : ℕ) : (Container.mk i circleContainer.entries).Merge [] ⟨i + 1,circleContainer.entries⟩ :=
  ⟨rfl,by simp [Container.mergeEntries,Container.mergeScan],
    (by decide +kernel : circleContainer.entries.Pairwise fun a b => mergeCompare b.1 a.1 = false)⟩

def circleMerges : Merges circleHash circleCoreGraph circleInCore circleFilters circleContainer ⟨2,circleContainer.entries⟩ :=
  .cons circleCores.1 (merge_nil 0) (.cons circleCores.2 (merge_nil 1) (.nil _))

private theorem circle_several : ¬ allows_all circle circleFilters := by
  rintro ⟨filter,only,_⟩
  simp [circleFilters] at only

def circleContracted : ContractExcludableGraph circleHash circle circleFilters
    ⟨⟨4,circleContainer.entries.map (·.1)⟩,(Container.mk 2 circleContainer.entries).MakeEdgeFilters⟩ :=
  .shared circle_several circleShared circleRun (sortEdges (collectEdges circleShared.result))
    ⟨perm_insertionSort _ _,by decide +kernel⟩ ⟨2,circleContainer.entries⟩ circleMerges

private theorem circle_edge {u : NodeID} {e : DynamicEdge} (member : e ∈ circle.adjacent u) :
    (u < 4 ∧ e = street ((u + 1) % 4)) ∨ (u < 4 ∧ e = street ((u + 3) % 4)) := by
  unfold circle at member
  dsimp only at member
  split_ifs at member <;> simp_all <;> exact member.symm

private theorem circle_input : Input circle := by
  refine ⟨?_,?_,?_,?_⟩
  · intro u e member
    have low : u < 4 := by rcases circle_edge member with ⟨low,_⟩ | ⟨low,_⟩ <;> exact low
    revert e
    interval_cases u <;> decide
  · intro u e member
    rcases circle_edge member with ⟨_,rfl⟩ | ⟨_,rfl⟩ <;> exact le_rfl
  · intro u e member
    rcases circle_edge member with ⟨_,rfl⟩ | ⟨_,rfl⟩ <;> rfl
  · intro u e member
    rcases circle_edge member with ⟨low,rfl⟩ | ⟨low,rfl⟩
    · exact ⟨low,Nat.mod_lt _ (by decide)⟩
    · exact ⟨low,Nat.mod_lt _ (by decide)⟩

private theorem circleContracted_fits : circleContracted.Fits := by
  refine ⟨⟨contractStep_fits ?_,contractStep_fits ?_,trivial⟩,⟨contractStep_fits ?_,trivial⟩,⟨contractStep_fits ?_,trivial⟩,
    trivial⟩
  · intro v only
    cases mem_singleton.mp only
    exact fits_of_light (by decide +kernel)
  · intro v only
    cases mem_singleton.mp only
    exact fits_of_light (by decide +kernel)
  · intro v only
    have known : ∀ v ∈ [0,3], ∀ e ∈ (State.start (Filter circleCoreGraph fun u => decide (u < 3))
      ((List.range 4).filter circleInCore)).graph.adjacent v, e.data.weight < 2 ^ 30 := by decide +kernel
    exact fits_of_light (known v only)
  · intro v only
    have known : ∀ v ∈ [0,3], ∀ e ∈ (State.start (Filter circleCoreGraph fun u => decide (0 < u))
      ((List.range 4).filter circleInCore)).graph.adjacent v, e.data.weight < 2 ^ 30 := by decide +kernel
    exact fits_of_light (known v only)

private theorem circleContracted_detours : circleContracted.Detours fun u => u < 3 := by
  have alone : ∀ (graph : ContractorGraph) (v x : NodeID),
      (∀ e ∈ graph.adjacent v, e.target < 3 → e.target = x ∧ 0 < e.data.weight) →
      ∀ a b w, decide (a < 3) = true → decide (b < 3) = true → Through graph v a b w → a = b ∧ 0 < w := by
    rintro graph v x only a b w hereA hereB
      ⟨_,_,⟨e,member,rfl,_,rfl⟩,⟨e',member',rfl,_,rfl⟩,_,_,rfl⟩
    obtain ⟨one,low⟩ := only e member (by simpa using hereA)
    obtain ⟨two,low'⟩ := only e' member' (by simpa using hereB)
    exact ⟨one.trans two.symm,by lia⟩
  refine ⟨contractStep_detours ?_,contractStep_detours ?_,trivial⟩
  · intro v only
    obtain rfl : v = 2 := by simpa using only
    exact alone _ 2 1 (by decide +kernel)
  · intro v only
    obtain rfl : v = 1 := by simpa using only
    exact alone _ 1 0 (by decide +kernel)

private theorem circle_arc {u v : NodeID} {w : ℤ} (arc : forwardArcs circle u v w) :
    w = 1 ∧ u < 4 ∧ (v = (u + 1) % 4 ∨ v = (u + 3) % 4) := by
  obtain ⟨e,member,rfl,_,rfl⟩ := arc
  rcases circle_edge member with ⟨low,rfl⟩ | ⟨low,rfl⟩
  · exact ⟨rfl,low,.inl rfl⟩
  · exact ⟨rfl,low,.inr rfl⟩

private theorem circle_far {P : NodeID → Prop} {u m v : NodeID} (first : forwardArcs circle u m 1)
    (second : forwardArcs circle m v 1) (here : P u) (middle : P m) (there : P v) (differ : u ≠ v)
    (far : v ≠ (u + 1) % 4 ∧ v ≠ (u + 3) % 4) : Shortest (within P (forwardArcs circle)) u v 2 := by
  have one : within P (forwardArcs circle) u m 1 := ⟨here,middle,first⟩
  have two : within P (forwardArcs circle) m v 1 := ⟨middle,there,second⟩
  refine ⟨(Walk.single one).snoc two,fun n walk => ?_⟩
  cases walk with
  | nil => exact absurd rfl differ
  | @cons _ x _ w n arc rest =>
    obtain ⟨rfl,_,next⟩ := circle_arc arc.2.2
    by_contra less
    have same := rest.eq_of_nonpos circle_input.positive.within (by lia)
    subst same
    exact next.elim far.1 far.2

/-- Without the last node the way from the first to the third is found. -/
theorem excludable_routes_circle : IsLeast {n | UpDownWeight (GraphAndFilter.restrict
    ⟨⟨4,circleContainer.entries.map (·.1)⟩,(Container.mk 2 circleContainer.entries).MakeEdgeFilters⟩ 0) 0 2 n} 2 := by
  have routes := excludable_routes circleHash circle circle_input circleFilters (by decide) _ circleContracted
    circleContracted_fits 0 _ rfl circleContracted_detours
  refine (routes.shortest 0 2 2 rfl rfl).mpr (circle_far (m := 1) ?_ ?_ rfl rfl rfl (by decide) (by decide))
  · exact ⟨street 1,by decide,rfl,rfl,rfl⟩
  · exact ⟨street 2,by decide,rfl,rfl,rfl⟩

/-- Without the first node the way from the second to the last is lost: its shortcut was dropped for the way through
    the first node. -/
theorem excludable_routes_counterexample :
    Input circle ∧ circleFilters[1]? = some (fun u => decide (0 < u)) ∧
      Nonempty (ContractExcludableGraph circleHash circle circleFilters
        ⟨⟨4,circleContainer.entries.map (·.1)⟩,(Container.mk 2 circleContainer.entries).MakeEdgeFilters⟩) ∧
      Shortest (within (fun u => decide (0 < u) = true) (forwardArcs circle)) 1 3 2 ∧
      ¬ ∃ n, UpDownWeight (GraphAndFilter.restrict
        ⟨⟨4,circleContainer.entries.map (·.1)⟩,(Container.mk 2 circleContainer.entries).MakeEdgeFilters⟩ 1) 1 3 n := by
  refine ⟨circle_input,rfl,⟨circleContracted⟩,circle_far (m := 2) ?_ ?_ rfl rfl rfl (by decide) (by decide),?_⟩
  · exact ⟨street 2,by decide,rfl,rfl,rfl⟩
  · exact ⟨street 3,by decide,rfl,rfl,rfl⟩
  · rintro ⟨n,x,a,b,up,down,_⟩
    have sources : ∀ e ∈ (GraphAndFilter.restrict ⟨⟨4,circleContainer.entries.map (·.1)⟩,
        (Container.mk 2 circleContainer.entries).MakeEdgeFilters⟩ 1).edges, e.source = 2 := by decide +kernel
    have stuck : ∀ {direction s t n}, Walk ((GraphAndFilter.restrict ⟨⟨4,circleContainer.entries.map (·.1)⟩,
        (Container.mk 2 circleContainer.entries).MakeEdgeFilters⟩ 1).arcs direction) s t n → s ≠ 2 → s = t := by
      intro direction s t n walk away
      cases walk with
      | nil => rfl
      | cons arc _ =>
        obtain ⟨e,member,_⟩ := arc
        obtain ⟨found,rfl⟩ := mem_adjacent.mp member
        exact absurd (sources _ (mem_of_getElem? found)) away
    have one := stuck up (by decide)
    have two := stuck down (by decide)
    rw [← one] at two
    exact absurd two (by decide)

end Osrm.ExcludableGraph
