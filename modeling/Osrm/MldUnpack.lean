import Osrm.MldSearch

/-!
Unpacking in `mld::search`. The packed path is read off the parents in the two heaps. An edge of it that crosses a cell is
replaced by the path of another search, one level below and inside the cell, down to the edges of the graph.
-/
namespace Osrm.MldUnpack
open List
open Typedefs Walks Heap Osrm.Partition CellStorage Overlay Phantom MldFacade
open EdgeBasedGraph LevelGraph MldSearch

structure PackedEdge where
  source : NodeID
  target : NodeID
  overlay_edge : Bool
  deriving DecidableEq, Repr

/-- `none` in the edges stands for `SPECIAL_EDGEID`. -/
structure UnpackedPath where
  weight : EdgeWeight
  nodes : List NodeID
  edges : List (Option (EdgeBasedEdge × EdgeID))
  deriving DecidableEq, Repr

def dataOf (heap : Heap) (node : NodeID) : HeapData :=
  ((heap.GetHeapNodeIfWasInserted node).map (·.data)).getD ⟨node,false⟩
def packedEdge (direction : Direction) (parent current : NodeID) (from_clique_arc : Bool) : PackedEdge :=
  match direction with
  | .FORWARD => ⟨parent,current,from_clique_arc⟩
  | .REVERSE => ⟨current,parent,from_clique_arc⟩

/-- `retrievePackedPathFromSingleHeap`, with the path that it extends. -/
def retrievePackedPathFromSingleHeap (direction : Direction) (fuel : ℕ) (heap : Heap) (middle : NodeID)
    (packed_path : List PackedEdge) : Option (List PackedEdge) :=
  (Loops.whileLoop (fun s : NodeID × List PackedEdge => s.1 != (dataOf heap s.1).parent)
    (fun s => ((dataOf heap s.1).parent,
      s.2 ++ [packedEdge direction (dataOf heap s.1).parent s.1 (dataOf heap s.1).from_clique_arc]))
    fuel (middle,packed_path)).map (·.2)

def retrievePackedPathFromHeap (fuel : ℕ) (forward_heap reverse_heap : Heap) (middle : NodeID) : Option (List PackedEdge) := do
  let packed_path ← retrievePackedPathFromSingleHeap .FORWARD fuel forward_heap middle []
  retrievePackedPathFromSingleHeap .REVERSE fuel reverse_heap middle packed_path.reverse

section search
variable {P : MultiLevelPartition} (facade : DataFacade P) (force_step_nodes : List NodeID)

/-- The body of the loop over the packed path. `search` is the call for the cell of an overlay edge. -/
def unpackEdge (search : Args → Heap → Heap → EdgeWeight → Option UnpackedPath) (args : Args) (unpacked : UnpackedPath)
    (packed_edge : PackedEdge) : Option UnpackedPath :=
  if !packed_edge.overlay_edge then
    some { unpacked with
      nodes := unpacked.nodes ++ [packed_edge.target]
      edges := unpacked.edges ++ [facade.graph.FindEdge packed_edge.source packed_edge.target] }
  else
    let level := getNodeQueryLevel P packed_edge.source args
    let parent_cell_id := P.GetCell level packed_edge.source
    let sublevel := level - 1
    (search (.cell sublevel parent_cell_id) (startHeap packed_edge.source) (startHeap packed_edge.target)
      INVALID_EDGE_WEIGHT).map fun unpacked_subpath =>
        { unpacked with
          nodes := unpacked.nodes ++ unpacked_subpath.nodes.tail
          edges := unpacked.edges ++ unpacked_subpath.edges }

/-- `search`: the weight, the nodes and the edges of a path; `none` if the fuel does not suffice. -/
def search : ℕ → Args → Heap → Heap → EdgeWeight → Option UnpackedPath
  | 0, _, _, _, _ => none
  | fuel + 1, args, forward_heap, reverse_heap, weight_upper_bound =>
    match runSearch facade force_step_nodes args fuel forward_heap reverse_heap weight_upper_bound with
    | none => none
    | some (none,_,_) => some ⟨INVALID_EDGE_WEIGHT,[],[]⟩
    | some (some (middle,weight),forward_heap,reverse_heap) =>
      match retrievePackedPathFromHeap fuel forward_heap reverse_heap middle with
      | none => none
      | some packed_path =>
        packed_path.foldlM (unpackEdge facade (search fuel) args) ⟨weight,[(packed_path.head?.map (·.source)).getD middle],[]⟩

end search

section packed
variable {P : MultiLevelPartition} {facade : DataFacade P} {args : Args} {S : NodeID → Prop} {s t x : NodeID} {k n m : ℤ}
  {heap : Heap} {direction : Direction}

variable (facade args S) in
/-- What an edge of a packed path stands for. -/
def packedArcs (overlay_edge : Bool) : Arcs NodeID :=
  match overlay_edge with
  | true => cliqueArcs facade.graph facade.metric (fun x => getNodeQueryLevel P x args) S
  | false => border (within S facade.arcs) (inside P fun x => getNodeQueryLevel P x args)

variable (facade args S) in
/-- The edges of a packed path lead from `s` to `t` and weigh `n` together. -/
def Packed (t : NodeID) : NodeID → List PackedEdge → ℤ → Prop
  | s, [], n => s = t ∧ n = 0
  | s, edge :: edges, n => edge.source = s ∧ ∃ w, packedArcs facade args S edge.overlay_edge s edge.target w ∧
      Packed t edge.target edges (n - w)

private theorem Packed.append {first second : List PackedEdge} (one : Packed facade args S x s first n)
    (two : Packed facade args S t x second m) : Packed facade args S t s (first ++ second) (n + m) := by
  induction first generalizing s n with
  | nil =>
    obtain ⟨rfl,rfl⟩ := one
    simpa using two
  | cons edge edges ih =>
    obtain ⟨source,w,arc,rest⟩ := one
    refine ⟨source,w,arc,?_⟩
    have more := ih rest
    rwa [show n - w + m = n + m - w by ring] at more

variable (facade args S) in
def tracedArcs (direction : Direction) (overlay_edge : Bool) : Arcs NodeID :=
  match direction with
  | .FORWARD => packedArcs facade args S overlay_edge
  | .REVERSE => reverse (packedArcs facade args S overlay_edge)

variable (facade args S) in
/-- The edges by which a direction that started at `s` reached a node. -/
def Traced (direction : Direction) (s : NodeID) : NodeID → List PackedEdge → ℤ → Prop
  | x, [], k => x = s ∧ k = 0
  | x, edge :: edges, k => ∃ parent flag w, edge = packedEdge direction parent x flag ∧
      tracedArcs facade args S direction flag parent x w ∧ Traced direction s parent edges (k - w)

private theorem Traced.forward {edges : List PackedEdge} (traced : Traced facade args S .FORWARD s x edges k) :
    Packed facade args S x s edges.reverse k := by
  induction edges generalizing x k with
  | nil =>
    obtain ⟨rfl,rfl⟩ := traced
    exact ⟨rfl,rfl⟩
  | cons edge edges ih =>
    obtain ⟨parent,flag,w,rfl,arc,rest⟩ := traced
    rw [reverse_cons]
    have last : Packed facade args S x parent [packedEdge .FORWARD parent x flag] w := ⟨rfl,w,arc,rfl,sub_self w⟩
    simpa using (ih rest).append last

private theorem Traced.reverse {edges : List PackedEdge} (traced : Traced facade args S .REVERSE t x edges k) :
    Packed facade args S t x edges k := by
  induction edges generalizing x k with
  | nil => exact traced
  | cons edge edges ih =>
    obtain ⟨parent,flag,w,rfl,arc,rest⟩ := traced
    exact ⟨rfl,w,arc,ih rest⟩

private theorem packed_link {d d' : HeapData} {p : NodeID} {w : ℤ} (link : (overlaid facade args S direction s).Link p d' x d w) :
    d.parent = p ∧ tracedArcs facade args S direction d.from_clique_arc p x w := by
  obtain ⟨parent,⟨flag,_,arc⟩ | ⟨flag,arc⟩⟩ := link
  · rw [flag]
    cases direction <;> exact ⟨parent,arc⟩
  · rw [flag]
    cases direction <;> exact ⟨parent,arc⟩

private theorem retrieve_traced (customized : facade.Customized) (searches : Searches facade args S)
    (inv : Search.Invariant (overlaid facade args S direction s).direction heap k)
    (distinct : (heap.inserted_nodes.map (·.node)).Nodup) {e : HeapNode NodeID HeapData} (member : e ∈ heap.inserted_nodes) :
    ∃ edges fuel, Traced facade args S direction s e.node edges e.weight ∧ ∀ more ≥ fuel, ∀ packed,
      retrievePackedPathFromSingleHeap direction more heap e.node packed = some (packed ++ edges) := by
  have lawful : (overlaid facade args S direction s).Lawful := overlaid_lawful customized searches s
  have low : ∀ e ∈ heap.inserted_nodes, 0 ≤ e.weight := fun e member =>
    (inv.sound e member).2.nonneg fun _ _ _ arc => (overlaid_arcs (s := s) customized searches arc).2.2
  suffices all : ∀ k, 0 ≤ k → ∀ e ∈ heap.inserted_nodes, e.weight = k → ∃ edges fuel,
      Traced facade args S direction s e.node edges e.weight ∧ ∀ more ≥ fuel, ∀ packed,
        retrievePackedPathFromSingleHeap direction more heap e.node packed = some (packed ++ edges) from
    all e.weight (low e member) e member rfl
  refine weight_induction ?_
  rintro k - ih e member rfl
  have entry : dataOf heap e.node = e.data := by
    unfold dataOf
    rw [find_unique distinct member]
    rfl
  rcases (inv.good e member).2 with ⟨start,none_yet,own⟩ | ⟨p,k',d',w,settled,total,link⟩
  · refine ⟨[],0,⟨start,none_yet⟩,fun more _ packed => ?_⟩
    have stops : (e.node != (dataOf heap e.node).parent) = false := by
      rw [entry,own,start]
      simp
    cases more <;> simp [retrievePackedPathFromSingleHeap,Loops.whileLoop,stops]
  · have wPos := lawful.positive _ _ _ (lawful.arc link)
    obtain ⟨parent,arc⟩ := packed_link link
    obtain ⟨edges,fuel,traced,runs⟩ := ih k' (low _ settled) (by lia) _ settled rfl
    refine ⟨packedEdge direction p e.node e.data.from_clique_arc :: edges,fuel + 1,
      ⟨p,e.data.from_clique_arc,w,rfl,arc,by rwa [show e.weight - w = k' by lia]⟩,fun more enough packed => ?_⟩
    have away : e.node ≠ p := by
      intro same
      have again := (find_unique distinct member).symm.trans (same ▸ find_unique distinct settled)
      have := congrArg HeapNode.weight (Option.some.inj again)
      simp only at this
      lia
    obtain ⟨rest,rfl⟩ : ∃ rest, more = rest + 1 := ⟨more - 1,by lia⟩
    have next := runs rest (by lia) (packed ++ [packedEdge direction p e.node e.data.from_clique_arc])
    simp only [retrievePackedPathFromSingleHeap] at next ⊢
    rw [Loops.whileLoop]
    simp only [entry,parent,bne_iff_ne,ne_eq,away,not_false_eq_true,if_true]
    simpa using next

end packed

/-! ### Unpacking -/

section unpack
variable {P : MultiLevelPartition} {facade : DataFacade P} {args : Args} {S : NodeID → Prop} {s t u v : NodeID} {a n w : ℤ}
  {unpacked : UnpackedPath}

/-- What `FindEdge` finds between the nodes of a path. -/
def lookedUp (graph : MultiLevelGraph P) (nodes : List NodeID) : List (Option (EdgeBasedEdge × EdgeID)) :=
  (nodes.zip nodes.tail).map fun pair => graph.FindEdge pair.1 pair.2

private theorem lookedUp_join {graph : MultiLevelGraph P} (front back : List NodeID) :
    lookedUp graph (front ++ v :: back) = lookedUp graph (front ++ [v]) ++ lookedUp graph (v :: back) := by
  induction front with
  | nil => simp [lookedUp]
  | cons a front ih =>
    cases front with
    | nil => simp [lookedUp]
    | cons b front => simpa [lookedUp] using ih

variable (facade S) in
/-- The nodes are a path and the edges are those between them. -/
structure Follows (s t : NodeID) (n : ℤ) (unpacked : UnpackedPath) : Prop where
  path : Path (within S facade.arcs) s t unpacked.nodes n
  edges : unpacked.edges = lookedUp facade.graph unpacked.nodes

private theorem Follows.join {further : UnpackedPath} (follows : Follows facade S s v a unpacked)
    (more : Follows facade S v t w further) : Follows facade S s t (a + w)
      { unpacked with nodes := unpacked.nodes ++ further.nodes.tail,edges := unpacked.edges ++ further.edges } := by
  obtain ⟨front,nodes⟩ := follows.path.last
  obtain ⟨back,nodes'⟩ := more.path.first
  have whole : unpacked.nodes ++ further.nodes.tail = front ++ v :: back := by simp [nodes,nodes']
  refine ⟨?_,?_⟩
  · simp only
    rw [whole]
    exact .join (nodes ▸ follows.path) (nodes' ▸ more.path)
  · simp only
    rw [whole,lookedUp_join,follows.edges,more.edges,nodes,nodes']

private theorem packedArcs_proper (customized : facade.Customized) (searches : Searches facade args S) {overlay_edge : Bool}
    (arc : packedArcs facade args S overlay_edge u v w) : S u ∧ S v ∧ 0 < w := by
  have through : (overlaid facade args S .FORWARD u).arcs u v w := by
    cases overlay_edge
    · exact .inl arc
    · exact .inr arc
  exact overlaid_arcs customized searches through

private theorem Packed.nonneg (customized : facade.Customized) (searches : Searches facade args S) {edges : List PackedEdge}
    (packed : Packed facade args S t s edges n) : 0 ≤ n := by
  induction edges generalizing s n with
  | nil => exact packed.2.ge
  | cons edge edges ih =>
    obtain ⟨_,w,arc,rest⟩ := packed
    have := ih rest
    have := (packedArcs_proper customized searches arc).2.2
    lia

/-- A search that unpacks the arcs through the cells. -/
def Unpacks (facade : DataFacade P) (args : Args) (S : NodeID → Prop) : Prop :=
  ∀ s t w, packedArcs facade args S true s t w → w < INVALID_EDGE_WEIGHT →
    ∃ fuel unpacked, (∀ more ≥ fuel, search facade [] more
      (.cell (getNodeQueryLevel P s args - 1) (P.GetCell (getNodeQueryLevel P s args) s)) (startHeap s) (startHeap t)
      INVALID_EDGE_WEIGHT = some unpacked) ∧ Follows facade S s t w unpacked

private theorem unpackEdge_spec (unpacks : Unpacks facade args S) (follows : Follows facade S s v a unpacked) {edge : PackedEdge}
    (source : edge.source = v) (arc : packedArcs facade args S edge.overlay_edge v edge.target w)
    (light : w < INVALID_EDGE_WEIGHT) :
    ∃ fuel next, (∀ more ≥ fuel, unpackEdge facade (search facade [] more) args unpacked edge = some next) ∧
      next.weight = unpacked.weight ∧ Follows facade S s edge.target (a + w) next := by
  obtain ⟨begins,target,overlay_edge⟩ := edge
  obtain rfl : begins = v := source
  simp only at arc ⊢
  cases overlay_edge with
  | false =>
    have step : Follows facade S begins target w ⟨0,[begins,target],[facade.graph.FindEdge begins target]⟩ :=
      ⟨by simpa using Path.cons arc.1 (.single target),rfl⟩
    exact ⟨0,_,fun _ _ => rfl,rfl,follows.join step⟩
  | true =>
    obtain ⟨fuel,sub,runs,along⟩ := unpacks begins target w arc light
    refine ⟨fuel,_,fun more enough => ?_,?_,follows.join along⟩
    · simp only [unpackEdge,runs more enough]
      rfl
    · rfl

private theorem unpack_loop (customized : facade.Customized) (searches : Searches facade args S) (unpacks : Unpacks facade args S)
    {edges : List PackedEdge} (packed : Packed facade args S t v edges n) (light : n < INVALID_EDGE_WEIGHT)
    (follows : Follows facade S s v a unpacked) :
    ∃ fuel final, (∀ more ≥ fuel, edges.foldlM (unpackEdge facade (search facade [] more) args) unpacked = some final) ∧
      final.weight = unpacked.weight ∧ Follows facade S s t (a + n) final := by
  induction edges generalizing v n a unpacked with
  | nil =>
    obtain ⟨rfl,rfl⟩ := packed
    exact ⟨0,unpacked,fun _ _ => rfl,rfl,by simpa using follows⟩
  | cons edge edges ih =>
    obtain ⟨source,w,arc,rest⟩ := packed
    have restLow := rest.nonneg customized searches
    have wLow := (packedArcs_proper customized searches arc).2.2
    obtain ⟨fuel,next,runs,weight,along⟩ := unpackEdge_spec unpacks follows source arc (by lia)
    obtain ⟨fuel',final,continues,weight',whole⟩ := ih rest (by lia) along
    refine ⟨max fuel fuel',final,fun more enough => ?_,weight'.trans weight,?_⟩
    · rw [foldlM_cons,runs more (by lia)]
      exact continues more (by lia)
    · rwa [show a + w + (n - w) = a + n by ring] at whole

private theorem search_step (customized : facade.Customized) (searches : Searches facade args S) (unpacks : Unpacks facade args S)
    (start : S s) (target : S t) (seenS : visible facade.graph (fun x => getNodeQueryLevel P x args) s)
    (seenT : visible facade.graph (fun x => getNodeQueryLevel P x args) t)
    (light : ∀ d, Shortest (within S facade.arcs) s t d → d < INVALID_EDGE_WEIGHT) :
    ∃ fuel unpacked, (∀ more ≥ fuel, search facade [] more args (startHeap s) (startHeap t) INVALID_EDGE_WEIGHT = some unpacked) ∧
      (¬ Reachable (within S facade.arcs) s t ∧ unpacked = ⟨INVALID_EDGE_WEIGHT,[],[]⟩ ∨
        Shortest (within S facade.arcs) s t unpacked.weight ∧ Follows facade S s t unpacked.weight unpacked) := by
  obtain ⟨fuel,result,forward_heap,reverse_heap,meeting,runs,meets,outcome⟩ :=
    runSearch_spec customized searches start target seenS seenT light
  rcases outcome with ⟨rfl,unreachable⟩ | ⟨e,member,r,memberR,same,rfl,shortest⟩
  · refine ⟨fuel + 1,_,fun more enough => ?_,.inl ⟨unreachable,rfl⟩⟩
    obtain ⟨rest,rfl⟩ : ∃ rest, more = rest + 1 := ⟨more - 1,by lia⟩
    rw [search,runs rest (by lia)]
  · obtain ⟨up,fuelF,tracedF,runsF⟩ := retrieve_traced customized searches (meets.forward 0) meets.distinctF member
    obtain ⟨down,fuelR,tracedR,runsR⟩ := retrieve_traced customized searches (meets.reverse 0) meets.distinctR memberR
    have packed : Packed facade args S t s (up.reverse ++ down) (e.weight + r.weight) :=
      tracedF.forward.append (same ▸ Traced.reverse tracedR)
    have begins : ((up.reverse ++ down).head?.map (·.source)).getD e.node = s := by
      cases whole : up.reverse ++ down with
      | nil =>
        obtain rfl : up = [] := by simpa using (append_eq_nil_iff.mp whole).1
        exact tracedF.1
      | cons edge edges =>
        rw [whole] at packed
        exact packed.1
    have alone : Follows facade S s s 0 ⟨e.weight + r.weight,[s],[]⟩ := ⟨.single s,rfl⟩
    obtain ⟨fuel',final,continues,weight,follows⟩ := unpack_loop customized searches unpacks packed (light _ shortest) alone
    rw [zero_add] at follows
    simp only at weight
    refine ⟨fuel + fuelF + fuelR + fuel' + 1,final,fun more enough => ?_,.inr (weight ▸ ⟨shortest,follows⟩)⟩
    obtain ⟨rest,rfl⟩ : ∃ rest, more = rest + 1 := ⟨more - 1,by lia⟩
    have retrieved : retrievePackedPathFromHeap rest forward_heap reverse_heap e.node = some (up.reverse ++ down) := by
      have backwards : retrievePackedPathFromSingleHeap .REVERSE rest reverse_heap e.node up.reverse =
          some (up.reverse ++ down) := same ▸ runsR rest (by lia) up.reverse
      simp [retrievePackedPathFromHeap,runsF rest (by lia) [],backwards]
    rw [search,runs rest (by lia)]
    simp only [retrieved,begins]
    exact continues rest (by lia)

private theorem unpacks (customized : facade.Customized) (levels : ℕ) : ∀ args S, Searches facade args S →
    (∀ x, S x → getNodeQueryLevel P x args ≤ levels) → Unpacks facade args S := by
  induction levels with
  | zero =>
    rintro args S searches ground s t w ⟨known,low,_⟩
    have := ground s known
    lia
  | succ levels ih =>
    rintro args S searches below s t w ⟨known,low,apart,valid,entry⟩ light
    have high := searches.layered.bounded s known
    simp only at low entry high
    obtain ⟨row,column,source,destination,_⟩ := id entry
    obtain ⟨_,boundaryS⟩ := source_cell (mem_of_getElem? source)
    obtain ⟨_,boundaryT⟩ := destination_cell (mem_of_getElem? destination)
    obtain ⟨invalid,shortest⟩ := customized.exact _ low high _ s t w entry
    have inner : Searches facade _ _ := searches_cell low high (P.GetCell (getNodeQueryLevel P s args) s)
    have reached : inCell P (fun x => !facade.ExcludeNode x) (getNodeQueryLevel P s args)
        (P.GetCell (getNodeQueryLevel P s args) s) s ∧ inCell P (fun x => !facade.ExcludeNode x) (getNodeQueryLevel P s args)
        (P.GetCell (getNodeQueryLevel P s args) s) t := by
      by_contra missing
      exact valid (invalid.mpr fun both => missing ⟨both.1,both.2.1⟩)
    have lower : getNodeQueryLevel P s args - 1 ≤ levels := by
      have := below s known
      lia
    obtain ⟨fuel,unpacked,runs,outcome⟩ := search_step customized inner (ih _ _ inner fun _ _ => lower) reached.1 reached.2
      (visible_cell low high boundaryS) (visible_cell low high boundaryT) fun d other => by rwa [other.unique (shortest valid)]
    rcases outcome with ⟨unreachable,_⟩ | ⟨found,follows⟩
    · exact absurd ⟨w,(shortest valid).1⟩ unreachable
    · obtain same : unpacked.weight = w := found.unique (shortest valid)
      rw [same] at follows
      exact ⟨fuel,unpacked,runs,follows.path.mono (within_mono fun x inside => ((searches.layered.mem_cell low known).mp inside).2),
        follows.edges⟩

end unpack

section found
variable {P : MultiLevelPartition} {facade : DataFacade P} {s t : NodeID} {n : ℤ}

variable (facade) in
/-- Between any two neighbours `FindEdge` finds a lightest of the edges that can be used. -/
def Foremost : Prop := ∀ u v w, facade.routes u v w → ∃ edge, facade.graph.FindEdge u v = some edge ∧
  edge.1.data.usable .FORWARD = true ∧ relaxWeight facade.GetNodeWeight facade.GetWeightPenaltyForEdgeID .FORWARD edge.1 ≤ w

variable (facade) in
structure Carries (edges : List (Option (EdgeBasedEdge × EdgeID))) (found : List (EdgeBasedEdge × EdgeID)) (n : ℤ) : Prop where
  every : edges = found.map some
  usable : ∀ edge ∈ found, edge.1.data.usable .FORWARD = true
  total : (found.map fun edge => relaxWeight facade.GetNodeWeight facade.GetWeightPenaltyForEdgeID .FORWARD edge.1).sum = n

private theorem path_found (foremost : Foremost facade) {nodes : List NodeID} (path : Path facade.routes s t nodes n) :
    ∃ found, ∃ m ≤ n, Carries facade (lookedUp facade.graph nodes) found m ∧ Walk facade.routes s t m := by
  induction path with
  | single v => exact ⟨[],0,le_rfl,⟨rfl,by simp,rfl⟩,.nil v⟩
  | @cons u v x w n nodes arc rest ih =>
    obtain ⟨found,m,le,carries,walk⟩ := ih
    obtain ⟨edge,finds,usable,light⟩ := foremost u v w arc
    obtain ⟨back,rfl⟩ := rest.first
    have target : edge.1.target = v := by simpa using find?_some finds
    have hop : facade.routes u v (relaxWeight facade.GetNodeWeight facade.GetWeightPenaltyForEdgeID .FORWARD edge.1) :=
      ⟨arc.1,arc.2.1,edge,mem_of_find?_eq_some finds,target,usable,rfl⟩
    refine ⟨edge :: found,_,add_le_add light le,⟨?_,?_,?_⟩,.cons hop walk⟩
    · have more := carries.every
      simp only [lookedUp,tail_cons] at more
      simp [lookedUp,finds,more]
    · simpa [usable] using carries.usable
    · simp [carries.total]

end found

/-- A search returns a shortest route, node by node, with the edges that are found between its nodes. -/
theorem search_unpacks_route {P : MultiLevelPartition} (facade : DataFacade P) (customized : facade.Customized)
    (source_phantoms target_phantoms : PhantomNodeCandidates) (s t : NodeID)
    (ends : ∃ source ∈ source_phantoms, ∃ target ∈ target_phantoms, Segment source s ∧ Segment target t)
    (keptS : facade.ExcludeNode s = false) (keptT : facade.ExcludeNode t = false)
    (light : ∀ d, Shortest facade.routes s t d → d < INVALID_EDGE_WEIGHT) :
    ∃ fuel unpacked, (∀ more ≥ fuel, search facade [] more (.candidates source_phantoms target_phantoms) (startHeap s) (startHeap t)
        INVALID_EDGE_WEIGHT = some unpacked) ∧
      (unpacked.weight = INVALID_EDGE_WEIGHT ↔ ¬ Reachable facade.routes s t) ∧
      (unpacked.weight ≠ INVALID_EDGE_WEIGHT → Shortest facade.routes s t unpacked.weight ∧
        Path facade.routes s t unpacked.nodes unpacked.weight ∧ unpacked.edges = lookedUp facade.graph unpacked.nodes ∧
        (Foremost facade → ∃ found, Carries facade unpacked.edges found unpacked.weight)) := by
  obtain ⟨source,inS,target,inT,segmentS,segmentT⟩ := ends
  have terminal : ∀ x, x = s ∨ x = t → Terminal source_phantoms target_phantoms x :=
    fun x same => ⟨source,inS,target,inT,s,t,segmentS,segmentT,same⟩
  have seen : ∀ x, x = s ∨ x = t →
      visible facade.graph (fun x => getNodeQueryLevel P x (.candidates source_phantoms target_phantoms)) x :=
    fun x same => .inl (queryLevel_terminal (terminal x same))
  have searches : Searches facade (.candidates source_phantoms target_phantoms) fun x => (!facade.ExcludeNode x) = true :=
    searches_candidates (terminal s (.inl rfl))
  have levels := unpacks customized P.GetNumberOfLevels _ _ searches fun x kept => (searches.layered.bounded x kept).le
  obtain ⟨fuel,unpacked,runs,outcome⟩ := search_step customized searches levels (by simpa using keptS) (by simpa using keptT)
    (seen s (.inl rfl)) (seen t (.inr rfl)) light
  refine ⟨fuel,unpacked,runs,?_⟩
  rcases outcome with ⟨unreachable,rfl⟩ | ⟨shortest,follows⟩
  · exact ⟨iff_of_true rfl unreachable,fun valid => absurd rfl valid⟩
  · have valid := light _ shortest
    refine ⟨iff_of_false valid.ne fun unreachable => unreachable ⟨_,shortest.1⟩,fun _ =>
      ⟨shortest,follows.path,follows.edges,fun foremost => ?_⟩⟩
    obtain ⟨found,m,le,carries,walk⟩ := path_found foremost follows.path
    obtain rfl : m = unpacked.weight := le_antisymm le (shortest.2 m walk)
    exact ⟨found,follows.edges ▸ carries⟩

/-- Across the middle cell of the row. -/
theorem search_unpacks_route_row : ∃ fuel unpacked, (∀ more ≥ fuel, search rowFacade [] more
    (.candidates [phantomOn 0] [phantomOn 3]) (startHeap 0) (startHeap 3) INVALID_EDGE_WEIGHT = some unpacked) ∧
      unpacked.weight = 3 ∧ Path rowFacade.routes 0 3 unpacked.nodes 3 := by
  obtain ⟨fuel,unpacked,runs,invalid,route⟩ := search_unpacks_route rowFacade rowFacade_customized [phantomOn 0] [phantomOn 3]
    0 3 ⟨phantomOn 0,by simp,phantomOn 3,by simp,⟨⟨0,true⟩,by simp [phantomOn],rfl,rfl⟩,
      ⟨⟨3,true⟩,by simp [phantomOn],rfl,rfl⟩⟩ rfl rfl (fun d shortest => by rw [shortest.unique row_shortest]; decide)
  obtain ⟨shortest,path,_⟩ := route fun bad => invalid.mp bad ⟨3,row_shortest.1⟩
  have weight := shortest.unique row_shortest
  exact ⟨fuel,unpacked,runs,weight,weight ▸ path⟩

example : (search rowFacade [] 20 (.candidates [phantomOn 0] [phantomOn 3]) (startHeap 0) (startHeap 3)
    INVALID_EDGE_WEIGHT).map (·.nodes) = some [0,1,2,3] := by decide +kernel

end Osrm.MldUnpack
