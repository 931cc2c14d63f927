import Osrm.ChSearch

/-!
`unpackPath`. A packed path only holds nodes: the edge between two of them is looked up again, at the first node among
the edges leading forward and, if there is none, at the second among those leading back.
-/
namespace Osrm.ChUnpack
open List
open Typedefs Walks QueryGraph ChSearch Contraction

/-- `FindSmallestEdge`; `none` stands for `SPECIAL_EDGEID`. -/
def FindSmallestEdge (graph : Graph) (source target : NodeID) (filter : EdgeData → Bool) : Option (QueryEdge × EdgeID) :=
  ((graph.GetAdjacentEdgeRange source).foldl (fun (best : Option (QueryEdge × EdgeID) × EdgeWeight) edge =>
    if edge.1.target = target && edge.1.data.weight < best.2 && filter edge.1.data then (some edge,edge.1.data.weight)
    else best) (none,INVALID_EDGE_WEIGHT)).1

/-- The edge that a pair of consecutive nodes stands for. -/
def findPackedEdge (graph : Graph) (edge : NodeID × NodeID) : Option (QueryEdge × EdgeID) :=
  match FindSmallestEdge graph edge.1 edge.2 (·.forward) with
  | some smaller_edge => some smaller_edge
  | none => FindSmallestEdge graph edge.2 edge.1 (·.backward)

/-- The loop of `unpackPath` over its stack; an edge that is not found ends it, which the source asserts not to happen. -/
def unpackLoop (graph : Graph) : ℕ → List (NodeID × NodeID) → Option (List ((NodeID × NodeID) × EdgeID))
  | _, [] => some []
  | 0, _ :: _ => none
  | fuel + 1, edge :: recursion_stack =>
    match findPackedEdge graph edge with
    | none => none
    | some (smaller_edge,smaller_edge_id) =>
      if smaller_edge.data.shortcut then
        unpackLoop graph fuel ((edge.1,smaller_edge.data.turn_id) :: (smaller_edge.data.turn_id,edge.2) :: recursion_stack)
      else (unpackLoop graph fuel recursion_stack).map ((edge,smaller_edge_id) :: ·)

def unpackPath (fuel : ℕ) (graph : Graph) (packed_path : List NodeID) : Option (List ((NodeID × NodeID) × EdgeID)) :=
  unpackLoop graph fuel (packed_path.zip packed_path.tail)
def travel (graph : Graph) : Arcs NodeID :=
  fun u v w => graph.arcs .FORWARD u v w ∨ graph.arcs .REVERSE v u w
/-- The edge with this id leads from `u` to `v`. -/
def Joins (graph : Graph) (e : QueryEdge) (id : EdgeID) (u v : NodeID) : Prop :=
  graph.edges[id]? = some e ∧ ((e.source = u ∧ e.target = v ∧ e.data.forward = true) ∨
    (e.source = v ∧ e.target = u ∧ e.data.backward = true))

/-- The calls follow a way from `u` to `v` over edges that are no shortcuts and weigh `n` together. -/
def Route (graph : Graph) : NodeID → NodeID → List ((NodeID × NodeID) × EdgeID) → ℤ → Prop
  | u, v, [], n => u = v ∧ n = 0
  | u, v, ((a,b),id) :: calls, n => a = u ∧ ∃ e, Joins graph e id a b ∧ e.data.shortcut = false ∧
      Route graph b v calls (n - e.data.weight)

variable {graph : Graph} {A : Arcs NodeID} {u v x : NodeID} {w n m : ℤ}

private theorem Route.append {first second : List ((NodeID × NodeID) × EdgeID)} (one : Route graph u v first n)
    (two : Route graph v x second m) : Route graph u x (first ++ second) (n + m) := by
  induction first generalizing u n with
  | nil =>
    obtain ⟨rfl,rfl⟩ := one
    simpa using two
  | cons call calls ih =>
    obtain ⟨⟨a,b⟩,id⟩ := call
    obtain ⟨start,e,joins,plain,rest⟩ := one
    refine ⟨start,e,joins,plain,?_⟩
    have more := ih rest
    rwa [show n - e.data.weight + m = n + m - e.data.weight by ring] at more

private theorem findSmallest_loop {target : NodeID} {filter : EdgeData → Bool} (edges : List (QueryEdge × EdgeID))
    (best : Option (QueryEdge × EdgeID) × EdgeWeight) :
    let step := fun (best : Option (QueryEdge × EdgeID) × EdgeWeight) (edge : QueryEdge × EdgeID) =>
      if edge.1.target = target && edge.1.data.weight < best.2 && filter edge.1.data then
        (some edge,edge.1.data.weight) else best
    (edges.foldl step best).2 ≤ best.2 ∧
      (∀ e ∈ edges, e.1.target = target → filter e.1.data = true → (edges.foldl step best).2 ≤ e.1.data.weight) ∧
      (edges.foldl step best = best ∨ ∃ e ∈ edges, e.1.target = target ∧ filter e.1.data = true ∧
        edges.foldl step best = (some e,e.1.data.weight)) := by
  intro step
  induction edges generalizing best with
  | nil => exact ⟨le_rfl,by simp,.inl rfl⟩
  | cons edge rest ih =>
    obtain ⟨le,least,origin⟩ := ih (step best edge)
    rw [foldl_cons]
    by_cases better : (decide (edge.1.target = target) && decide (edge.1.data.weight < best.2) && filter edge.1.data) = true
    · have now : step best edge = (some edge,edge.1.data.weight) := by simp only [step,better,if_true]
      simp only [Bool.and_eq_true,decide_eq_true_eq] at better
      obtain ⟨⟨target',lighter⟩,usable⟩ := better
      rw [now] at le least origin ⊢
      refine ⟨le.trans lighter.le,?_,.inr ?_⟩
      · intro e member sameTarget sameFilter
        rcases mem_cons.mp member with rfl | later
        · exact le
        · exact least e later sameTarget sameFilter
      · rcases origin with same | ⟨e,member,rest⟩
        · exact ⟨edge,by simp,target',usable,same⟩
        · exact ⟨e,mem_cons_of_mem _ member,rest⟩
    · have now : step best edge = best := by simp only [step,better]; simp
      rw [now] at le least origin ⊢
      refine ⟨le,?_,origin.imp_right ?_⟩
      · intro e member sameTarget sameFilter
        rcases mem_cons.mp member with rfl | later
        · simp only [Bool.and_eq_true,decide_eq_true_eq,sameTarget,sameFilter,and_true,true_and,not_lt] at better
          exact le.trans better
        · exact least e later sameTarget sameFilter
      · rintro ⟨e,member,rest⟩
        exact ⟨e,mem_cons_of_mem _ member,rest⟩

private theorem findSmallestEdge_spec (direction : Direction) :
    (∀ w, graph.arcs direction u v w → INVALID_EDGE_WEIGHT ≤ w) ∧
        FindSmallestEdge graph u v (·.usable direction) = none ∨
      ∃ e ∈ graph.GetAdjacentEdgeRange u, e.1.target = v ∧ e.1.data.usable direction = true ∧
        FindSmallestEdge graph u v (·.usable direction) = some e ∧
        ∀ w, graph.arcs direction u v w → e.1.data.weight ≤ w := by
  obtain ⟨_,least,origin⟩ := @findSmallest_loop v (·.usable direction) (graph.GetAdjacentEdgeRange u)
    (none,INVALID_EDGE_WEIGHT)
  rcases origin with start | ⟨e,member,target,usable,result⟩
  · refine .inl ⟨?_,congrArg Prod.fst start⟩
    rintro w ⟨e,member,target,usable,rfl⟩
    have := least e member target usable
    rwa [start] at this
  · refine .inr ⟨e,member,target,usable,congrArg Prod.fst result,?_⟩
    rintro w ⟨e',member',target',usable',rfl⟩
    have := least e' member' target' usable'
    rwa [result] at this

/-! ### Unpacking -/

def Middle (graph : Graph) (middle u v : NodeID) (w : ℤ) : Prop :=
  ∃ a b, graph.arcs .REVERSE middle u a ∧ graph.arcs .FORWARD middle v b ∧ w = a + b

/-- What unpacking needs of a query graph for the input `A`. -/
structure Unpackable (A : Arcs NodeID) (graph : Graph) : Prop where
  climb : Climb A (graph.arcs .FORWARD) (graph.arcs .REVERSE)
  /-- Two nodes are joined at one of them only, the one that was contracted first. -/
  oneWay : ∀ e ∈ graph.edges, ∀ e' ∈ graph.edges, e.source ≠ e.target → e'.source = e.target → e'.target ≠ e.source
  forward : ∀ e ∈ graph.edges, e.data.shortcut = true → e.data.forward = true →
    Middle graph e.data.turn_id e.source e.target e.data.weight
  backward : ∀ e ∈ graph.edges, e.data.shortcut = true → e.data.backward = true →
    Middle graph e.data.turn_id e.target e.source e.data.weight

private theorem Unpackable.sound (unpackable : Unpackable A graph) (arc : travel graph u v w) : ∃ m ≤ w, Walk A u v m :=
  arc.elim (unpackable.climb.soundF u v w) (unpackable.climb.soundB v u w)
private theorem Unpackable.positive (unpackable : Unpackable A graph) : Positive (travel graph) := fun u v w arc =>
  arc.elim (unpackable.climb.positiveF u v w) (unpackable.climb.positiveB v u w)

private theorem findPackedEdge_tight (unpackable : Unpackable A graph)
    (shortest : Shortest A u v w) (arc : travel graph u v w) (light : w < INVALID_EDGE_WEIGHT) :
    ∃ e id, findPackedEdge graph (u,v) = some (e,id) ∧ Joins graph e id u v ∧ e.data.weight = w ∧
      (e.data.shortcut = true → Middle graph e.data.turn_id u v w) := by
  have differ : u ≠ v := by
    rintro rfl
    have := shortest.2 0 (.nil u)
    have := unpackable.positive _ _ _ arc
    omega
  have least : ∀ {k}, travel graph u v k → w ≤ k := by
    intro k other
    obtain ⟨m,mLe,walk⟩ := unpackable.sound other
    exact (shortest.2 m walk).trans mLe
  have search : findPackedEdge graph (u,v) = match FindSmallestEdge graph u v (·.usable .FORWARD) with
      | some smaller_edge => some smaller_edge
      | none => FindSmallestEdge graph v u (·.usable .REVERSE) := rfl
  rw [search]
  rcases arc with up | down
  · rcases @findSmallestEdge_spec graph u v .FORWARD with ⟨none_light,_⟩ | ⟨⟨e,id⟩,member,target,forward,found,smallest⟩
    · exact absurd light (not_lt.mpr (none_light w up))
    · obtain ⟨entry,source⟩ := mem_adjacent.mp member
      have weight : e.data.weight = w := le_antisymm (smallest w up) (least (.inl ⟨_,member,target,forward,rfl⟩))
      simp only at target forward source entry
      refine ⟨e,id,by rw [found],⟨entry,.inl ⟨source,target,forward⟩⟩,weight,fun shortcut => ?_⟩
      rw [← source,← target,← weight]
      exact unpackable.forward e (mem_of_getElem? entry) shortcut forward
  · have none_up : FindSmallestEdge graph u v (·.usable .FORWARD) = none := by
      rcases @findSmallestEdge_spec graph u v .FORWARD with ⟨_,none_found⟩ | ⟨⟨e,id⟩,member,target,_⟩
      · exact none_found
      · obtain ⟨entry,source⟩ := mem_adjacent.mp member
        obtain ⟨e',member',target',_⟩ := down
        obtain ⟨entry',source'⟩ := mem_adjacent.mp member'
        simp only at target source
        exact absurd (target'.trans source.symm) (unpackable.oneWay e (mem_of_getElem? entry) e'.1
          (mem_of_getElem? entry') (by rw [source,target]; exact differ) (source'.trans target.symm))
    rw [none_up]
    rcases @findSmallestEdge_spec graph v u .REVERSE with ⟨none_light,_⟩ | ⟨⟨e,id⟩,member,target,backward,found,smallest⟩
    · exact absurd light (not_lt.mpr (none_light w down))
    · obtain ⟨entry,source⟩ := mem_adjacent.mp member
      have weight : e.data.weight = w := le_antisymm (smallest w down) (least (.inr ⟨_,member,target,backward,rfl⟩))
      simp only at target backward source entry
      refine ⟨e,id,by rw [found],⟨entry,.inr ⟨source,target,backward⟩⟩,weight,fun shortcut => ?_⟩
      rw [← source,← target,← weight]
      exact unpackable.backward e (mem_of_getElem? entry) shortcut backward

private theorem shortest_halves (shortest : Shortest A u v w) {a b : ℤ} (total : w = a + b)
    (first : ∃ m ≤ a, Walk A u x m) (second : ∃ m ≤ b, Walk A x v m) : Shortest A u x a ∧ Shortest A x v b := by
  obtain ⟨k,kLe,one⟩ := first
  obtain ⟨l,lLe,two⟩ := second
  have whole := shortest.2 _ (one.append two)
  obtain rfl : k = a := by omega
  obtain rfl : l = b := by omega
  refine ⟨⟨one,fun m other => ?_⟩,⟨two,fun m other => ?_⟩⟩
  · have := shortest.2 _ (other.append two)
    omega
  · have := shortest.2 _ (one.append other)
    omega

private theorem unpackLoop_tight (unpackable : Unpackable A graph)
    (shortest : Shortest A u v w) (arc : travel graph u v w) (light : w < INVALID_EDGE_WEIGHT) :
    ∃ fuel calls, Route graph u v calls w ∧ ∀ more stack,
      unpackLoop graph (fuel + more) ((u,v) :: stack) = (unpackLoop graph more stack).map (calls ++ ·) := by
  suffices all : ∀ w, 0 ≤ w → ∀ u v, Shortest A u v w → travel graph u v w → w < INVALID_EDGE_WEIGHT →
      ∃ fuel calls, Route graph u v calls w ∧ ∀ more stack,
        unpackLoop graph (fuel + more) ((u,v) :: stack) = (unpackLoop graph more stack).map (calls ++ ·) from
    all w (unpackable.positive _ _ _ arc).le u v shortest arc light
  refine weight_induction fun w _ ih u v shortest arc light => ?_
  obtain ⟨e,id,found,joins,weight,middle⟩ := findPackedEdge_tight unpackable shortest arc light
  cases shortcut : e.data.shortcut with
  | false =>
    refine ⟨1,[((u,v),id)],⟨rfl,e,joins,shortcut,rfl,by rw [weight]; omega⟩,fun more stack => ?_⟩
    rw [add_comm,unpackLoop]
    simp [found,shortcut]
  | true =>
    obtain ⟨a,b,back,forth,total⟩ := middle shortcut
    have aPos := unpackable.climb.positiveB _ _ _ back
    have bPos := unpackable.climb.positiveF _ _ _ forth
    obtain ⟨left,right⟩ := shortest_halves shortest total (unpackable.climb.soundB _ _ _ back)
      (unpackable.climb.soundF _ _ _ forth)
    obtain ⟨fuel₁,calls₁,route₁,runs₁⟩ := ih a aPos.le (by omega) _ _ left (.inr back) (by omega)
    obtain ⟨fuel₂,calls₂,route₂,runs₂⟩ := ih b bPos.le (by omega) _ _ right (.inl forth) (by omega)
    refine ⟨fuel₁ + fuel₂ + 1,calls₁ ++ calls₂,total ▸ route₁.append route₂,fun more stack => ?_⟩
    rw [show fuel₁ + fuel₂ + 1 + more = (fuel₁ + (fuel₂ + more)) + 1 by omega,unpackLoop]
    simp only [found,shortcut,if_true,runs₁,runs₂,Option.map_map]
    congr 1
    funext calls
    simp

theorem unpackPath_spec (unpackable : Unpackable A graph) {packed_path : List NodeID}
    (path : Path (travel graph) u v packed_path w) (shortest : Shortest A u v w) (light : w < INVALID_EDGE_WEIGHT) :
    ∃ fuel calls, Route graph u v calls w ∧ ∀ more ≥ fuel, unpackPath more graph packed_path = some calls := by
  suffices loop : ∃ fuel calls, Route graph u v calls w ∧ ∀ more,
      unpackLoop graph (fuel + more) (packed_path.zip packed_path.tail) = some calls by
    obtain ⟨fuel,calls,route,runs⟩ := loop
    refine ⟨fuel,calls,route,fun more enough => ?_⟩
    have := runs (more - fuel)
    rwa [Nat.add_sub_cancel' enough] at this
  induction path with
  | single v => exact ⟨0,[],⟨rfl,rfl⟩,fun more => by cases more <;> simp [unpackLoop]⟩
  | @cons u v x w n nodes arc rest ih =>
    have wPos := unpackable.positive _ _ _ arc
    have nLow := rest.walk.nonneg unpackable.positive
    have tail : ∃ m ≤ n, Walk A v x m := rest.walk.lift fun _ _ _ => unpackable.sound
    obtain ⟨left,right⟩ := shortest_halves shortest rfl (unpackable.sound arc) tail
    obtain ⟨fuel₁,calls₁,route₁,runs₁⟩ := unpackLoop_tight unpackable left arc (by omega)
    obtain ⟨fuel₂,calls₂,route₂,runs₂⟩ := ih right (by omega)
    obtain ⟨others,rfl⟩ : ∃ others, nodes = v :: others := by
      cases rest with
      | single => exact ⟨[],rfl⟩
      | cons => exact ⟨_,rfl⟩
    refine ⟨fuel₁ + fuel₂,calls₁ ++ calls₂,route₁.append route₂,fun more => ?_⟩
    have next := runs₂ more
    simp only [tail_cons,zip_cons_cons] at next ⊢
    rw [Nat.add_assoc,runs₁,next]
    rfl

theorem packed_path {s t : NodeID} {up down : List NodeID} {a b : ℤ} (chainF : Chain (graph.arcs .FORWARD) s x up a)
    (chainR : Chain (graph.arcs .REVERSE) t x down b) :
    Path (travel graph) s t (up.reverse ++ [x] ++ down) (a + b) := by
  have front : ∀ {x up a}, Chain (graph.arcs .FORWARD) s x up a → Path (travel graph) s x (up.reverse ++ [x]) a := by
    intro x up a chain
    induction up generalizing x a with
    | nil =>
      obtain ⟨rfl,rfl⟩ := chain
      exact .single x
    | cons parent path ih =>
      obtain ⟨w,k,arc,rest,rfl⟩ := chain
      simpa using (ih rest).snoc (show travel graph parent x w from .inl arc)
  have back : ∀ {x down b}, Chain (graph.arcs .REVERSE) t x down b → Path (travel graph) x t (x :: down) b := by
    intro x down b chain
    induction down generalizing x b with
    | nil =>
      obtain ⟨rfl,rfl⟩ := chain
      exact .single x
    | cons parent path ih =>
      obtain ⟨w,k,arc,rest,rfl⟩ := chain
      rw [add_comm]
      exact .cons (.inr arc) (ih rest)
  simpa using (front chainF).join (back chainR)

theorem complete_unpackable {hash : NodeID → ℕ} {input : Contractor.ContractorGraph} {edges : List QueryEdge}
    (complete : Complete hash input) (valid : Input input) (fits : complete.run.All ContractGraph.Step.Fits)
    (converted : ToEdges complete.final.result edges) (n : ℕ) :
    Unpackable (Contractor.forwardArcs input) ⟨n,edges⟩ := by
  have hierarchy := complete.hierarchy valid fits
  have bounded : ∀ u, ∀ e ∈ complete.final.result.adjacent u, u < complete.final.result.number_of_nodes :=
    fun u e member => hierarchy.nodes ▸ (hierarchy.inside u e member).1
  obtain ⟨forward,backward⟩ := @ToEdges.arcs _ _ converted bounded n
  have made : ∀ e ∈ edges, e.data.shortcut = true → ∃ e' ∈ complete.final.result.adjacent e.source,
      e = toQueryEdge e.source e' ∧
        ContractGraph.Shortcut complete.final.result (fun v => v < input.number_of_nodes ∧ ¬ False) e.source e' := by
    intro e member shortcut
    obtain ⟨e',member',same⟩ := (converted.mem_iff bounded).mp member
    refine ⟨e',member',same,(hierarchy.edges _ e' member').resolve_left fun old => ?_⟩
    rw [same] at shortcut
    exact absurd ((valid.plain _ e' old).symm.trans shortcut) (by decide)
  refine ⟨complete.climb valid fits converted,?_,?_,?_⟩
  · intro e member e' member' differ back returns
    obtain ⟨f,inside,same⟩ := (converted.mem_iff bounded).mp member
    obtain ⟨f',inside',same'⟩ := (converted.mem_iff bounded).mp member'
    have dead : ∀ {v f}, f ∈ complete.final.result.adjacent v → v < input.number_of_nodes ∧ ¬ False :=
      fun inside => ⟨(hierarchy.inside _ _ inside).1,id⟩
    have target : f.target = e.target := (congrArg QueryEdge.target same).symm
    have target' : f'.target = e.source := (congrArg QueryEdge.target same').symm.trans returns
    rw [back] at inside'
    exact hierarchy.oneWay e.source e.target (dead inside) (dead inside') differ ⟨f,inside,target⟩ ⟨f',inside',target'⟩
  · intro e member shortcut usable
    obtain ⟨e',member',same,stands⟩ := made e member shortcut
    rw [same] at usable ⊢
    obtain ⟨a,b,back,forth,_,_,total⟩ := stands.forward usable
    exact ⟨a,b,backward ▸ back,forward ▸ forth,total⟩
  · intro e member shortcut usable
    obtain ⟨e',member',same,stands⟩ := made e member shortcut
    rw [same] at usable ⊢
    obtain ⟨a,b,back,forth,_,_,total⟩ := stands.backward usable
    exact ⟨a,b,backward ▸ back,forward ▸ forth,total⟩

/-- A path found in a contracted graph unpacks to edges of the input that weigh what the search returned. -/
theorem unpacked_route (hash : NodeID → ℕ) (input : Contractor.ContractorGraph) (valid : Input input)
    (complete : Complete hash input) (fits : complete.run.All ContractGraph.Step.Fits) (edges : List QueryEdge)
    (converted : ToEdges complete.final.result edges) (s t : NodeID)
    (light : ∀ d, Shortest (Contractor.forwardArcs input) s t d → d < INVALID_EDGE_WEIGHT) :
    ∃ fuel weight packed_leg, (∀ more ≥ fuel, search more ⟨input.number_of_nodes,edges⟩ (startHeap s) (startHeap t) []
        INVALID_EDGE_WEIGHT = some (weight,packed_leg)) ∧
      (weight ≠ INVALID_EDGE_WEIGHT →
        Path (travel ⟨input.number_of_nodes,edges⟩) s t packed_leg weight ∧
        ∃ calls, Route ⟨input.number_of_nodes,edges⟩ s t calls weight ∧
          ∀ more ≥ fuel, unpackPath more ⟨input.number_of_nodes,edges⟩ packed_leg = some calls) := by
  have unpackable := complete_unpackable complete valid fits converted input.number_of_nodes
  obtain ⟨fuel,none_there | ⟨d,x,up,down,a,b,shortest,chainF,chainR,total,runs⟩⟩ :=
    search_spec valid.positive unpackable.climb (complete.bounded valid fits converted) s t light
  · exact ⟨fuel,_,_,none_there.2,by simp⟩
  · have path := packed_path chainF chainR
    rw [total] at path
    obtain ⟨fuel',calls,route,unpacks⟩ := unpackPath_spec unpackable path shortest (light d shortest)
    exact ⟨max fuel fuel',d,_,fun more enough => runs more (le_of_max_le_left enough),
      fun _ => ⟨path,calls,route,fun more enough => unpacks more (le_of_max_le_right enough)⟩⟩

/-- The shortcut of the row unpacks to its two streets. -/
theorem unpacked_route_row : ∃ fuel packed_leg calls, (∀ more ≥ fuel,
      search more ⟨3,rowEdges⟩ (startHeap 0) (startHeap 2) [] INVALID_EDGE_WEIGHT = some (2,packed_leg)) ∧
    Route ⟨3,rowEdges⟩ 0 2 calls 2 ∧ ∀ more ≥ fuel, unpackPath more ⟨3,rowEdges⟩ packed_leg = some calls := by
  obtain ⟨fuel,weight,packed_leg,runs,unpacks⟩ := unpacked_route id ContractionRound.row row_input rowComplete
    rowComplete_fits rowEdges rowEdges_toEdges 0 2 row_light
  obtain ⟨fuel',leg,found⟩ := row_search
  have same := (runs (max fuel fuel') (le_max_left _ _)).symm.trans (found (max fuel fuel') (le_max_right _ _))
  obtain ⟨rfl,rfl⟩ : weight = 2 ∧ packed_leg = leg := by simpa using same
  obtain ⟨_,calls,route,ends⟩ := unpacks (by decide)
  exact ⟨fuel,packed_leg,calls,runs,route,ends⟩

end Osrm.ChUnpack
