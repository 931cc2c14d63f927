import Osrm.Phantom
import Osrm.Loops
import Osrm.Packing

/-!
Routes through several waypoints without a turn at a waypoint, `shortestPathWithWaypointContinuation` of
`routing_algorithms/shortest_path_impl.hpp`.
-/
namespace Osrm.Waypoints
open List Option
open Typedefs Phantom Loops Packing

structure Directed where
  phantom : PhantomNode
  direction : Direction
  deriving DecidableEq, Repr

namespace Directed
variable (candidate : Directed)

def segment_id : SegmentID :=
  match candidate.direction with
  | .FORWARD => candidate.phantom.forward_segment_id
  | .REVERSE => candidate.phantom.reverse_segment_id

def IsValidSource : Bool :=
  match candidate.direction with
  | .FORWARD => candidate.phantom.IsValidForwardSource
  | .REVERSE => candidate.phantom.IsValidReverseSource

def IsValidTarget : Bool :=
  match candidate.direction with
  | .FORWARD => candidate.phantom.IsValidForwardTarget
  | .REVERSE => candidate.phantom.IsValidReverseTarget

def GetWeightPlusOffset : EdgeWeight :=
  match candidate.direction with
  | .FORWARD => candidate.phantom.GetForwardWeightPlusOffset
  | .REVERSE => candidate.phantom.GetReverseWeightPlusOffset

private theorem enabled_of_source {candidate : Directed} (valid : candidate.IsValidSource = true) : candidate.segment_id.enabled = true := by
  obtain ⟨phantom,direction⟩ := candidate
  cases direction with
  | FORWARD => exact (Bool.and_eq_true_iff.mp valid).1
  | REVERSE => exact (Bool.and_eq_true_iff.mp valid).1

private theorem enabled_of_target {candidate : Directed} (valid : candidate.IsValidTarget = true) : candidate.segment_id.enabled = true := by
  obtain ⟨phantom,direction⟩ := candidate
  cases direction with
  | FORWARD => exact (Bool.and_eq_true_iff.mp valid).1
  | REVERSE => exact (Bool.and_eq_true_iff.mp valid).1

end Directed

/-- No two candidates of a waypoint share a segment, which the callers see to and `getLegConnections` asserts. -/
def Distinct (candidates : PhantomNodeCandidates) : Prop :=
  ∀ (i j : ℕ) (p q : PhantomNode) (d d' : Direction), candidates[i]? = some p → candidates[j]? = some q → (Directed.mk p d).segment_id.enabled = true →
    (Directed.mk p d).segment_id.id = (Directed.mk q d').segment_id.id → i = j ∧ d = d'

structure PhantomCandidatesToTarget where
  source_phantoms : PhantomNodeCandidates
  target_phantom : PhantomNode

/-- `requiresForwardForce` and `requiresBackwardForce`. -/
def requiresForce (direction : Direction) (source target : PhantomNode) : Bool :=
  (Directed.mk source direction).IsValidSource && (Directed.mk target direction).IsValidTarget &&
    (Directed.mk source direction).segment_id.id == (Directed.mk target direction).segment_id.id &&
    (Directed.mk source direction).GetWeightPlusOffset > (Directed.mk target direction).GetWeightPlusOffset

/-- `getForwardForceNodes` and `getBackwardForceNodes`. -/
def getForceNodes (direction : Direction) (candidates : PhantomCandidatesToTarget) : List NodeID :=
  (candidates.source_phantoms.filter fun source => requiresForce direction source candidates.target_phantom).map
    fun source => (Directed.mk source direction).segment_id.id

structure leg_state where
  reached_node_target : Direction → List Bool
  total_weight_to : Direction → List EdgeWeight
  total_nodes_to : Direction → List ℕ

def leg_state.reset : leg_state := ⟨fun _ => [],fun _ => [],fun _ => []⟩

/-- The state of the dynamic program; `INVALID_LEG_INDEX` is `none`. -/
structure route_state where
  total_packed_paths : List NodeID
  packed_leg_begin : List ℕ
  previous_leg_in_route : List (Option ℕ)
  last : leg_state
  current : leg_state
  current_leg : ℕ
  previous_leg_path_offset : ℕ

/-- The constructor of `route_state`. -/
def route_state.init (init_candidates : PhantomNodeCandidates) : route_state :=
  ⟨[],[],[],⟨fun direction => init_candidates.map fun phantom => (Directed.mk phantom direction).IsValidSource,
    fun _ => init_candidates.map fun _ => 0,fun _ => []⟩,.reset,0,0⟩
def Direction.place : Direction → ℕ
  | .FORWARD => 0
  | .REVERSE => 1
/-- `previousForwardPath` and `previousReversePath`. -/
def route_state.previousPath (route : route_state) (direction : Direction) (previous_leg : ℕ) : ℕ :=
  route.previous_leg_path_offset + 2 * previous_leg + Direction.place direction
/-- The search of a leg between two filled heaps, with forced nodes: the weight, invalid without a path, and the path. -/
abbrev LegSearch := List (NodeID × EdgeWeight) → List (NodeID × EdgeWeight) → List NodeID → PhantomCandidatesToTarget →
  EdgeWeight × List NodeID

/-- What is inserted for the source candidates: reached valid sources, with the weight of the route up to them. -/
def sourceInserts (sources : PhantomNodeCandidates) (search_from : Direction → List Bool)
    (total_weight_to : Direction → List EdgeWeight) : List (NodeID × EdgeWeight) :=
  sources.zipIdx.flatMap fun source => [Direction.FORWARD,Direction.REVERSE].flatMap fun direction =>
    if (search_from direction).getD source.2 false && (Directed.mk source.1 direction).IsValidSource then
      [((Directed.mk source.1 direction).segment_id.id,
        (total_weight_to direction).getD source.2 0 - (Directed.mk source.1 direction).GetWeightPlusOffset)]
    else []

/-- One half of `search`, to the target in one direction. -/
def search (legSearch : LegSearch) (last : leg_state) (candidates : PhantomCandidatesToTarget) (direction : Direction) :
    EdgeWeight × List NodeID :=
  if (Directed.mk candidates.target_phantom direction).IsValidTarget then
    legSearch (sourceInserts candidates.source_phantoms last.reached_node_target last.total_weight_to)
      [((Directed.mk candidates.target_phantom direction).segment_id.id,
        (Directed.mk candidates.target_phantom direction).GetWeightPlusOffset)]
      (getForceNodes direction candidates) candidates
  else (INVALID_EDGE_WEIGHT,[])

/-- What a source candidate adds to the connections, the forward and the reverse one. -/
def connect (packed_leg : List NodeID) (new_total_weight : EdgeWeight) (connections : Option ℕ × Option ℕ)
    (candidate : PhantomNode × ℕ) : Option ℕ × Option ℕ :=
  if new_total_weight ≠ INVALID_EDGE_WEIGHT ∧ candidate.1.IsValidForwardSource = true ∧
      packed_leg.head? = some candidate.1.forward_segment_id.id then (some candidate.2,connections.2)
  else if new_total_weight ≠ INVALID_EDGE_WEIGHT ∧ candidate.1.IsValidReverseSource = true ∧
      packed_leg.head? = some candidate.1.reverse_segment_id.id then (connections.1,some candidate.2)
  else connections

/-- `getLegConnections` for one direction of the target. -/
def getLegConnections (source_candidates : PhantomNodeCandidates) (packed_leg : List NodeID) (new_total_weight : EdgeWeight) :
    Option ℕ × Option ℕ :=
  source_candidates.zipIdx.foldl (connect packed_leg new_total_weight) (none,none)

/-- The link of a new leg and the number of nodes of the route with it. -/
def route_state.link (route : route_state) (source_candidates : PhantomNodeCandidates) (packed_leg : List NodeID)
    (new_total_weight : EdgeWeight) : Option ℕ × ℕ :=
  if route.current_leg > 0 then
    match getLegConnections source_candidates packed_leg new_total_weight with
    | (some i,_) => (some (route.previousPath .FORWARD i),(route.last.total_nodes_to .FORWARD).getD i 0 + packed_leg.length)
    | (none,some i) => (some (route.previousPath .REVERSE i),(route.last.total_nodes_to .REVERSE).getD i 0 + packed_leg.length)
    | (none,none) => (none,0)
  else (none,packed_leg.length)

/-- What `addSearchResult` does for one direction of the target. -/
def route_state.addResult (route : route_state) (source_candidates : PhantomNodeCandidates) (direction : Direction)
    (result : EdgeWeight × List NodeID) : route_state :=
  let linked := route.link source_candidates result.2 result.1
  { route with
    previous_leg_in_route := route.previous_leg_in_route ++ [linked.1]
    current :=
      { total_nodes_to := Function.update route.current.total_nodes_to direction
          (route.current.total_nodes_to direction ++ [linked.2])
        total_weight_to := Function.update route.current.total_weight_to direction
          (route.current.total_weight_to direction ++ [result.1])
        reached_node_target := Function.update route.current.reached_node_target direction
          (route.current.reached_node_target direction ++ [decide (result.1 ≠ INVALID_EDGE_WEIGHT)]) }
    packed_leg_begin := route.packed_leg_begin ++ [route.total_packed_paths.length]
    total_packed_paths := route.total_packed_paths ++ result.2 }

def route_state.addSearchResult (route : route_state) (candidates : PhantomCandidatesToTarget)
    (results : Direction → EdgeWeight × List NodeID) : route_state :=
  (route.addResult candidates.source_phantoms .FORWARD (results .FORWARD)).addResult candidates.source_phantoms .REVERSE
    (results .REVERSE)

/-- `completeLeg`; the flag says whether a candidate of the waypoint was reached. -/
def route_state.completeLeg (route : route_state) : route_state × Bool :=
  ({ route with
      last := route.current
      current := .reset
      current_leg := route.current_leg + 1
      previous_leg_path_offset :=
        route.previous_leg_in_route.length - 2 * (route.current.total_weight_to .FORWARD).length },
    (route.current.total_weight_to .FORWARD).any (fun v => v != INVALID_EDGE_WEIGHT) ||
      (route.current.total_weight_to .REVERSE).any (fun v => v != INVALID_EDGE_WEIGHT))

def route_state.completeSearch (route : route_state) : route_state :=
  { route with packed_leg_begin := route.packed_leg_begin ++ [route.total_packed_paths.length] }
/-- `std::min_element`, which keeps the first one of several smallest. -/
def min_element (less : ℕ → ℕ → Bool) (range : List ℕ) : ℕ :=
  range.tail.foldl (fun smallest i => if less i smallest then i else smallest) (range.headD 0)

def route_state.minCandidate (route : route_state) (direction : Direction) : ℕ :=
  let weight i := (route.last.total_weight_to direction).getD i 0
  let nodes i := (route.last.total_nodes_to direction).getD i 0
  min_element (fun a b => decide (weight a < weight b) || (weight a == weight b && decide (nodes a < nodes b)))
    (List.range (route.last.total_weight_to direction).length)

/-- The loop over the links; the indices come out in the order of the route. -/
def backtrack (fuel : ℕ) (previous_leg_in_route : List (Option ℕ)) (path_index : ℕ) : Option (List ℕ) :=
  (whileLoop (fun state => (previous_leg_in_route.getD state.1 none).isSome)
    (fun state =>
      let current_path_index := (previous_leg_in_route.getD state.1 none).getD 0
      (current_path_index,state.2 ++ [current_path_index])) fuel (path_index,[path_index])).map fun state => state.2.reverse

def route_state.getMinRoute (fuel : ℕ) (route : route_state) : Option (List ℕ × EdgeWeight) :=
  let forward_min := route.minCandidate .FORWARD
  let reverse_min := route.minCandidate .REVERSE
  let weight direction i := (route.last.total_weight_to direction).getD i 0
  let nodes direction i := (route.last.total_nodes_to direction).getD i 0
  if weight .FORWARD forward_min < weight .REVERSE reverse_min ∨ weight .FORWARD forward_min = weight .REVERSE reverse_min ∧
      nodes .FORWARD forward_min < nodes .REVERSE reverse_min then
    (backtrack fuel route.previous_leg_in_route (route.previousPath .FORWARD forward_min)).map
      fun path_indices => (path_indices,weight .FORWARD forward_min)
  else
    (backtrack fuel route.previous_leg_in_route (route.previousPath .REVERSE reverse_min)).map
      fun path_indices => (path_indices,weight .REVERSE reverse_min)

/-- `InternalRouteResult`, with the packed path of each leg in the place of the unpacked one. -/
structure InternalRouteResult where
  packed_legs : List (List NodeID)
  leg_endpoints : List (PhantomNode × PhantomNode)
  source_traversed_in_reverse : List Bool
  target_traversed_in_reverse : List Bool
  shortest_path_weight : EdgeWeight

def InternalRouteResult.invalid : InternalRouteResult := ⟨[],[],[],[],INVALID_EDGE_WEIGHT⟩
def InternalRouteResult.is_valid (result : InternalRouteResult) : Bool := result.shortest_path_weight != INVALID_EDGE_WEIGHT
def findCandidate (candidates : PhantomNodeCandidates) (node : NodeID) : Option PhantomNode :=
  candidates.find? fun phantom => node == phantom.forward_segment_id.id || node == phantom.reverse_segment_id.id

/-- The end points of a leg, from the nodes at the ends of its packed path. -/
def legEndpoints (waypoint_candidates : List PhantomNodeCandidates) (packed_paths : List NodeID) (packed_path_begin : List ℕ)
    (route_path_indices : List ℕ) (i : ℕ) : Option (PhantomNode × PhantomNode) := do
  let path_index ← route_path_indices[i]?
  let start_node ← packed_paths[packed_path_begin.getD path_index 0]?
  let end_node ← packed_paths[packed_path_begin.getD (path_index + 1) 0 - 1]?
  let source ← findCandidate (waypoint_candidates.getD i []) start_node
  let target ← findCandidate (waypoint_candidates.getD (i + 1) []) end_node
  return (source,target)

/-- The packed path of a leg, cut out of the array. -/
def packedLeg (packed_paths : List NodeID) (packed_path_begin : List ℕ) (path_index : ℕ) : List NodeID :=
  (packed_paths.drop (packed_path_begin.getD path_index 0)).take
    (packed_path_begin.getD (path_index + 1) 0 - packed_path_begin.getD path_index 0)

/-- `constructRouteResult` and `unpackLegs`. -/
def constructRouteResult (waypoint_candidates : List PhantomNodeCandidates) (route_path_indices : List ℕ)
    (packed_paths : List NodeID) (packed_path_begin : List ℕ) (min_weight : EdgeWeight) : Option InternalRouteResult := do
  let leg_endpoints ← (List.range (waypoint_candidates.length - 1)).mapM
    (legEndpoints waypoint_candidates packed_paths packed_path_begin route_path_indices)
  let packed_legs := route_path_indices.map (packedLeg packed_paths packed_path_begin)
  return ⟨packed_legs,leg_endpoints,
    (packed_legs.zip leg_endpoints).map fun leg => leg.1.head? != some leg.2.1.forward_segment_id.id,
    (packed_legs.zip leg_endpoints).map fun leg => leg.1.getLast? != some leg.2.2.forward_segment_id.id,
    min_weight⟩

/-- One turn of the outer loop: the searches to every candidate of the next waypoint. -/
def route_state.addLeg (legSearch : LegSearch) (route : route_state) (source_candidates target_candidates : PhantomNodeCandidates) :
    route_state × Bool :=
  (target_candidates.foldl (fun route target_phantom => route.addSearchResult ⟨source_candidates,target_phantom⟩
    (search legSearch route.last ⟨source_candidates,target_phantom⟩)) route).completeLeg

/-- The outer loop, which ends early with `none` when a waypoint is not reached. -/
def addLegs (legSearch : LegSearch) : route_state → PhantomNodeCandidates → List PhantomNodeCandidates → Option route_state
  | route,_,[] => some route
  | route,source_candidates,target_candidates :: rest =>
    let completed := route.addLeg legSearch source_candidates target_candidates
    if completed.2 then addLegs legSearch completed.1 target_candidates rest else none

def shortestPathWithWaypointContinuation (fuel : ℕ) (legSearch : LegSearch) (waypoint_candidates : List PhantomNodeCandidates) :
    Option InternalRouteResult :=
  match addLegs legSearch (.init (waypoint_candidates.headD [])) (waypoint_candidates.headD []) waypoint_candidates.tail with
  | none => some .invalid
  | some route => do
    let route := route.completeSearch
    let min_route ← route.getMinRoute fuel
    constructRouteResult waypoint_candidates min_route.1 route.total_packed_paths route.packed_leg_begin min_route.2

section Spec
variable (leg : Directed → Directed → Option EdgeWeight) (waypoint_candidates : List PhantomNodeCandidates)

/-- A choice of a directed candidate for each waypoint up to one, the last first, such that every leg goes on where the
    leg before has ended, with the sum of the weights. -/
inductive Chain : ℕ → List Directed → EdgeWeight → Prop
  | start {candidates : PhantomNodeCandidates} {c : Directed} (waypoint : waypoint_candidates[0]? = some candidates)
      (member : c.phantom ∈ candidates) (source : c.IsValidSource = true) : Chain 0 [c] 0
  | next {m : ℕ} {before : List Directed} {total w : EdgeWeight} {candidates : PhantomNodeCandidates} {c c' : Directed}
      (chain : Chain m (c :: before) total) (source : c.IsValidSource = true)
      (waypoint : waypoint_candidates[m + 1]? = some candidates) (member : c'.phantom ∈ candidates)
      (target : c'.IsValidTarget = true) (weighs : leg c c' = some w) (below : total + w < INVALID_EDGE_WEIGHT) :
      Chain (m + 1) (c' :: c :: before) (total + w)

/-- A source that a search starts from, and the weight of the route up to it. -/
def Offered (last : leg_state) (sources : PhantomNodeCandidates) (c : Directed) (total : EdgeWeight) : Prop :=
  ∃ i : ℕ, sources[i]? = some c.phantom ∧ (last.reached_node_target c.direction).getD i false = true ∧
    (last.total_weight_to c.direction).getD i 0 = total ∧ c.IsValidSource = true

/-- The search of a leg finds the lightest way on from one of its sources, if one is below the invalid weight. -/
structure Exact (legSearch : LegSearch) : Prop where
  found : ∀ (last : leg_state) (candidates : PhantomCandidatesToTarget) (direction : Direction),
    Distinct candidates.source_phantoms → (Directed.mk candidates.target_phantom direction).IsValidTarget = true →
    (search legSearch last candidates direction).1 ≠ INVALID_EDGE_WEIGHT →
    ∃ c total w, Offered last candidates.source_phantoms c total ∧ leg c ⟨candidates.target_phantom,direction⟩ = some w ∧
      (search legSearch last candidates direction).1 = total + w ∧ total + w < INVALID_EDGE_WEIGHT ∧
      (search legSearch last candidates direction).2.head? = some c.segment_id.id ∧
      (search legSearch last candidates direction).2.getLast? =
        some (Directed.mk candidates.target_phantom direction).segment_id.id
  least : ∀ (last : leg_state) (candidates : PhantomCandidatesToTarget) (direction : Direction),
    Distinct candidates.source_phantoms → (Directed.mk candidates.target_phantom direction).IsValidTarget = true →
    ∀ c total w, Offered last candidates.source_phantoms c total → leg c ⟨candidates.target_phantom,direction⟩ = some w →
      total + w < INVALID_EDGE_WEIGHT → (search legSearch last candidates direction).1 ≤ total + w

end Spec

section Connections
variable {sources : PhantomNodeCandidates} {packed_leg : List NodeID} {new_total_weight : EdgeWeight} {c : Directed} {i : ℕ}

private def connectionOf (direction : Direction) (i : ℕ) : Option ℕ × Option ℕ :=
  match direction with
  | .FORWARD => (some i,none)
  | .REVERSE => (none,some i)

private theorem getLegConnections_eq (distinct : Distinct sources) (at_i : sources[i]? = some c.phantom)
    (source : c.IsValidSource = true) (reaches : new_total_weight ≠ INVALID_EDGE_WEIGHT)
    (starts_on : packed_leg.head? = some c.segment_id.id) :
    getLegConnections sources packed_leg new_total_weight = connectionOf c.direction i := by
  have only : ∀ j q d, sources[j]? = some q → c.segment_id.id = (Directed.mk q d).segment_id.id → i = j ∧ c.direction = d :=
    fun j q d at_j same => distinct i j c.phantom q c.direction d at_i at_j (Directed.enabled_of_source source) same
  have others : ∀ l : List (PhantomNode × ℕ), (∀ other ∈ l, other.2 ≠ i ∧ sources[other.2]? = some other.1) → ∀ connections,
      l.foldl (connect packed_leg new_total_weight) connections = connections := by
    intro l
    induction l with
    | nil => exact fun _ _ => rfl
    | cons other rest ih =>
      intro apart connections
      obtain ⟨elsewhere,at_other⟩ := apart other (by simp)
      have skipped : connect packed_leg new_total_weight connections other = connections := by
        unfold connect
        rw [starts_on,if_neg,if_neg]
        · rintro ⟨_,_,same⟩
          exact elsewhere (only other.2 other.1 .REVERSE at_other (some_inj.mp same)).1.symm
        · rintro ⟨_,_,same⟩
          exact elsewhere (only other.2 other.1 .FORWARD at_other (some_inj.mp same)).1.symm
      rw [foldl_cons,skipped]
      exact ih (fun later member => apart later (mem_cons_of_mem _ member)) connections
  obtain ⟨before,after,split⟩ := append_of_mem (mem_zipIdx_iff_getElem?.mpr at_i : (c.phantom,i) ∈ sources.zipIdx)
  have nodup : (sources.zipIdx.map Prod.snd).Nodup := by
    rw [zipIdx_map_snd]
    exact nodup_range'
  rw [split,map_append,map_cons,nodup_append,nodup_cons] at nodup
  obtain ⟨_,⟨no_later,_⟩,no_earlier⟩ := nodup
  have known : ∀ other ∈ sources.zipIdx, sources[other.2]? = some other.1 := fun other member =>
    mem_zipIdx_iff_getElem?.mp member
  have here : connect packed_leg new_total_weight (none,none) (c.phantom,i) = connectionOf c.direction i := by
    unfold connect
    obtain ⟨phantom,direction⟩ := c
    cases direction with
    | FORWARD => exact if_pos ⟨reaches,source,starts_on⟩
    | REVERSE =>
      rw [if_neg,if_pos ⟨reaches,source,starts_on⟩]
      · rfl
      · rintro ⟨_,_,same⟩
        have := (only i phantom .FORWARD at_i (some_inj.mp (starts_on.symm.trans same))).2
        simp at this
  unfold getLegConnections
  rw [split,foldl_append,foldl_cons,others before,here,others after]
  · intro other member
    refine ⟨fun same => no_later ?_,known other (by simp [split,member])⟩
    exact mem_map.mpr ⟨other,member,same⟩
  · intro other member
    refine ⟨fun same => no_earlier _ (mem_map_of_mem member) i (by simp) same,known other (by simp [split,member])⟩

end Connections

/-! ### The dynamic program -/

section Program
variable {leg : Directed → Directed → Option EdgeWeight} {waypoint_candidates : List PhantomNodeCandidates}
  {legs more : List (List NodeID)} {previous links : List (Option ℕ)} {m : ℕ} {c : Directed} {chosen before : List Directed}
  {total : EdgeWeight} {indices : List ℕ}

variable (leg waypoint_candidates) in
/-- A chain whose legs are stored in the array and linked to each other; the indices come last one first. -/
inductive Traced (legs : List (List NodeID)) (previous : List (Option ℕ)) : ℕ → List Directed → EdgeWeight → List ℕ → Prop
  | start {candidates : PhantomNodeCandidates} {c : Directed} (waypoint : waypoint_candidates[0]? = some candidates)
      (member : c.phantom ∈ candidates) (source : c.IsValidSource = true) : Traced legs previous 0 [c] 0 []
  | next {m p : ℕ} {before : List Directed} {total w : EdgeWeight} {indices : List ℕ} {candidates : PhantomNodeCandidates}
      {c c' : Directed} {path : List NodeID} (traced : Traced legs previous m (c :: before) total indices)
      (source : c.IsValidSource = true) (waypoint : waypoint_candidates[m + 1]? = some candidates)
      (member : c'.phantom ∈ candidates) (target : c'.IsValidTarget = true) (weighs : leg c c' = some w)
      (below : total + w < INVALID_EDGE_WEIGHT) (stored : legs[p]? = some path) (first : path.head? = some c.segment_id.id)
      (last : path.getLast? = some c'.segment_id.id) (linked : previous[p]? = some indices.head?) :
      Traced legs previous (m + 1) (c' :: c :: before) (total + w) (p :: indices)

private theorem Traced.chain (traced : Traced leg waypoint_candidates legs previous m chosen total indices) :
    Chain leg waypoint_candidates m chosen total := by
  induction traced with
  | start waypoint member source => exact .start waypoint member source
  | next _ source waypoint member target weighs below _ _ _ _ ih => exact .next ih source waypoint member target weighs below

private theorem Traced.append (traced : Traced leg waypoint_candidates legs previous m chosen total indices) (more : List (List NodeID))
    (links : List (Option ℕ)) : Traced leg waypoint_candidates (legs ++ more) (previous ++ links) m chosen total indices := by
  induction traced with
  | start waypoint member source => exact .start waypoint member source
  | next _ source waypoint member target weighs below stored first last linked ih =>
    refine .next ih source waypoint member target weighs below ?_ first last ?_
    · rwa [getElem?_append_left (List.getElem?_eq_some_iff.mp stored).choose]
    · rwa [getElem?_append_left (List.getElem?_eq_some_iff.mp linked).choose]

private theorem Chain.member (chain : Chain leg waypoint_candidates m (c :: before) total) :
    ∃ candidates, waypoint_candidates[m]? = some candidates ∧ c.phantom ∈ candidates := by
  cases chain with
  | start waypoint member source => exact ⟨_,waypoint,member⟩
  | next _ _ waypoint member => exact ⟨_,waypoint,member⟩

private theorem Chain.nonempty (chain : Chain leg waypoint_candidates m chosen total) : ∃ c before, chosen = c :: before := by
  cases chain with
  | start => exact ⟨_,_,rfl⟩
  | next => exact ⟨_,_,rfl⟩

private theorem Chain.earlier (chain : Chain leg waypoint_candidates m chosen total) {k : ℕ} (le : k ≤ m) :
    ∃ chosen total, Chain leg waypoint_candidates k chosen total := by
  induction chain with
  | start waypoint member source =>
    obtain rfl : k = 0 := by omega
    exact ⟨_,_,.start waypoint member source⟩
  | @next m before total w candidates c c' chain source waypoint member target weighs below ih =>
    rcases Nat.lt_or_ge k (m + 1) with less | same
    · exact ih (by omega)
    · obtain rfl : k = m + 1 := by omega
      exact ⟨_,_,.next chain source waypoint member target weighs below⟩

variable (leg waypoint_candidates) in
/-- What the tables say: a reached candidate has a stored chain with its weight, and none is lighter. -/
structure Entry (legs : List (List NodeID)) (previous : List (Option ℕ)) (m : ℕ) (c : Directed) (reached : Bool)
    (weight : EdgeWeight) (index : Option ℕ) : Prop where
  traced : reached = true → ∃ before indices, Traced leg waypoint_candidates legs previous m (c :: before) weight indices ∧
    indices.head? = index
  least : ∀ before total, Chain leg waypoint_candidates m (c :: before) total → reached = true ∧ weight ≤ total

variable {weight : EdgeWeight}

private theorem Entry.append {reached : Bool} {index : Option ℕ}
    (entry : Entry leg waypoint_candidates legs previous m c reached weight index) (more : List (List NodeID))
    (links : List (Option ℕ)) : Entry leg waypoint_candidates (legs ++ more) (previous ++ links) m c reached weight index := by
  refine ⟨fun is_reached => ?_,entry.least⟩
  obtain ⟨before,indices,traced,first⟩ := entry.traced is_reached
  exact ⟨before,indices,traced.append more links,first⟩

variable (leg waypoint_candidates) in
structure Stage (m : ℕ) (candidates : PhantomNodeCandidates) (route : route_state) (legs : List (List NodeID)) : Prop where
  waypoint : waypoint_candidates[m]? = some candidates
  current_leg : route.current_leg = m
  current : route.current = .reset
  paths : route.total_packed_paths = legs.flatten
  begins : route.packed_leg_begin ++ [route.total_packed_paths.length] = starts (legs.map List.length)
  count : route.previous_leg_in_route.length = legs.length
  reached_length : ∀ d, (route.last.reached_node_target d).length = candidates.length
  weight_length : ∀ d, (route.last.total_weight_to d).length = candidates.length
  entry : ∀ (d : Direction) (i : ℕ) (phantom : PhantomNode) (reached : Bool) (weight : EdgeWeight), candidates[i]? = some phantom →
    (route.last.reached_node_target d)[i]? = some reached → (route.last.total_weight_to d)[i]? = some weight →
    Entry leg waypoint_candidates legs route.previous_leg_in_route m ⟨phantom,d⟩ reached weight
      (if m = 0 then none else some (route.previousPath d i))
  marks : 0 < m → ∀ d, route.last.reached_node_target d =
    (route.last.total_weight_to d).map fun weight => decide (weight ≠ INVALID_EDGE_WEIGHT)

variable (leg waypoint_candidates) in
/-- The state when some candidates of the next waypoint are done. -/
structure Filling (m : ℕ) (start : route_state) (legs : List (List NodeID)) (done : PhantomNodeCandidates) (route : route_state)
    (more : List (List NodeID)) (links : List (Option ℕ)) : Prop where
  last : route.last = start.last
  offset : route.previous_leg_path_offset = start.previous_leg_path_offset
  current_leg : route.current_leg = start.current_leg
  paths : route.total_packed_paths = (legs ++ more).flatten
  begins : route.packed_leg_begin ++ [route.total_packed_paths.length] = starts ((legs ++ more).map List.length)
  links_eq : route.previous_leg_in_route = start.previous_leg_in_route ++ links
  more_length : more.length = 2 * done.length
  links_length : links.length = 2 * done.length
  weight_length : ∀ d, (route.current.total_weight_to d).length = done.length
  entry : ∀ (d : Direction) (k : ℕ) (phantom : PhantomNode) (weight : EdgeWeight), done[k]? = some phantom →
    (route.current.total_weight_to d)[k]? = some weight →
    Entry leg waypoint_candidates (legs ++ more) route.previous_leg_in_route (m + 1) ⟨phantom,d⟩
      (decide (weight ≠ INVALID_EDGE_WEIGHT)) weight (some (legs.length + 2 * k + Direction.place d))
  marks : ∀ d, route.current.reached_node_target d =
    (route.current.total_weight_to d).map fun weight => decide (weight ≠ INVALID_EDGE_WEIGHT)

variable {legSearch : LegSearch} {sources : PhantomNodeCandidates} {start route : route_state}

private theorem Stage.link (stage : Stage leg waypoint_candidates m sources start legs) (distinct : Distinct sources)
    (offset : route.previous_leg_path_offset = start.previous_leg_path_offset) (current_leg : route.current_leg = start.current_leg)
    {i : ℕ} (at_i : sources[i]? = some c.phantom) (source : c.IsValidSource = true) {packed_leg : List NodeID}
    {new_total_weight : EdgeWeight} (reaches : new_total_weight ≠ INVALID_EDGE_WEIGHT)
    (starts_on : packed_leg.head? = some c.segment_id.id) :
    (route.link sources packed_leg new_total_weight).1 = if m = 0 then none else some (start.previousPath c.direction i) := by
  have moved : ∀ d, route.previousPath d i = start.previousPath d i := fun d => by
    unfold route_state.previousPath
    rw [offset]
  unfold route_state.link
  rw [current_leg,stage.current_leg,getLegConnections_eq distinct at_i source reaches starts_on]
  rcases Nat.eq_zero_or_pos m with rfl | positive
  · rfl
  · rw [if_pos positive,if_neg (by omega)]
    cases c.direction with
    | FORWARD => exact congrArg some (moved .FORWARD)
    | REVERSE => exact congrArg some (moved .REVERSE)

private theorem Stage.known (stage : Stage leg waypoint_candidates m sources start legs)
    (chain : Chain leg waypoint_candidates m (c :: before) total) :
    ∃ i : ℕ, sources[i]? = some c.phantom ∧ (start.last.reached_node_target c.direction)[i]? = some true ∧
      ∃ weight ≤ total, (start.last.total_weight_to c.direction)[i]? = some weight := by
  obtain ⟨candidates,waypoint,member⟩ := chain.member
  obtain rfl : sources = candidates := some_inj.mp (stage.waypoint.symm.trans waypoint)
  obtain ⟨i,inside,at_i⟩ := mem_iff_getElem.mp member
  have at_i' : sources[i]? = some c.phantom := by rw [getElem?_eq_getElem inside,at_i]
  have in_reached : i < (start.last.reached_node_target c.direction).length := by rw [stage.reached_length]; exact inside
  have in_weights : i < (start.last.total_weight_to c.direction).length := by rw [stage.weight_length]; exact inside
  obtain ⟨is_reached,le⟩ := (stage.entry c.direction i c.phantom _ _ at_i' (getElem?_eq_getElem in_reached)
    (getElem?_eq_getElem in_weights)).least before total chain
  refine ⟨i,at_i',?_,_,le,getElem?_eq_getElem in_weights⟩
  rw [getElem?_eq_getElem in_reached,is_reached]

private theorem get_of_getD {α : Type} {l : List α} {i : ℕ} {default a : α} (inside : i < l.length) (same : l.getD i default = a) :
    l[i]? = some a := by
  rw [getD_eq_getElem?_getD,getElem?_eq_getElem inside,getD_some] at same
  rw [getElem?_eq_getElem inside,same]

variable {candidates : PhantomNodeCandidates}

private theorem Stage.found (stage : Stage leg waypoint_candidates m sources start legs) (exact : Exact leg legSearch)
    (distinct : Distinct sources) (waypoint : waypoint_candidates[m + 1]? = some candidates)
    {target : PhantomNode} (member : target ∈ candidates) (d : Direction) (last : route.last = start.last)
    (offset : route.previous_leg_path_offset = start.previous_leg_path_offset) (current_leg : route.current_leg = start.current_leg)
    (paired : more.length = links.length) {result : EdgeWeight × List NodeID}
    (searched : result = search legSearch route.last ⟨sources,target⟩ d) :
    Entry leg waypoint_candidates (legs ++ (more ++ [result.2]))
      (start.previous_leg_in_route ++ (links ++ [(route.link sources result.2 result.1).1])) (m + 1) ⟨target,d⟩
      (decide (result.1 ≠ INVALID_EDGE_WEIGHT)) result.1 (some (legs.length + more.length)) := by
  constructor
  · intro is_reached
    have reaches : result.1 ≠ INVALID_EDGE_WEIGHT := of_decide_eq_true is_reached
    have valid : (Directed.mk target d).IsValidTarget = true := by
      by_contra invalid
      rw [searched,search,if_neg invalid] at reaches
      exact reaches rfl
    obtain ⟨c,total,w,⟨i,at_i,reached,weight,source⟩,weighs,sum,below,first,ends⟩ :=
      exact.found route.last ⟨sources,target⟩ d distinct valid (searched ▸ reaches)
    rw [← searched] at sum first ends
    rw [last] at reached weight
    have inside : i < sources.length := (List.getElem?_eq_some_iff.mp at_i).choose
    obtain ⟨before,indices,traced,linked⟩ := (stage.entry c.direction i c.phantom true total at_i
      (get_of_getD (by rw [stage.reached_length]; exact inside) reached)
      (get_of_getD (by rw [stage.weight_length]; exact inside) weight)).traced rfl
    refine ⟨c :: before,(legs.length + more.length) :: indices,?_,rfl⟩
    rw [sum]
    refine .next (traced.append _ _) source waypoint member valid weighs below ?_ first ends ?_
    · rw [getElem?_append_right (by omega),Nat.add_sub_cancel_left,getElem?_append_right le_rfl,Nat.sub_self]
      rfl
    · have counted := stage.count
      rw [getElem?_append_right (by omega),counted,Nat.add_sub_cancel_left,paired,getElem?_append_right le_rfl,
        Nat.sub_self,linked,stage.link distinct offset current_leg at_i source (sum ▸ reaches) first]
      rfl
  · intro before total chain
    cases chain with
    | @next _ before total w candidates c _ chain source _ _ valid weighs below =>
      obtain ⟨i,at_i,reached,weight,le,weighs'⟩ := stage.known chain
      have offered : Offered start.last sources c weight := by
        refine ⟨i,at_i,?_,?_,source⟩
        · rw [getD_eq_getElem?_getD,reached,getD_some]
        · rw [getD_eq_getElem?_getD,weighs',getD_some]
      have lightest := exact.least route.last ⟨sources,target⟩ d distinct valid c weight w (last ▸ offered) weighs (by lia)
      rw [← searched] at lightest
      refine ⟨decide_eq_true fun mark => ?_,by lia⟩
      lia

private theorem addResult_flat (sources : PhantomNodeCandidates) (direction : Direction) (result : EdgeWeight × List NodeID)
    (paths : route.total_packed_paths = legs.flatten)
    (begins : route.packed_leg_begin ++ [route.total_packed_paths.length] = starts (legs.map List.length)) :
    (route.addResult sources direction result).total_packed_paths = (legs ++ [result.2]).flatten ∧
      (route.addResult sources direction result).packed_leg_begin ++
          [(route.addResult sources direction result).total_packed_paths.length] =
        starts ((legs ++ [result.2]).map List.length) := by
  have grown : (route.addResult sources direction result).total_packed_paths = (legs ++ [result.2]).flatten := by
    simp [route_state.addResult,paths]
  refine ⟨grown,?_⟩
  rw [grown,map_append,map_singleton,starts_snoc,← begins,length_flatten,map_append,sum_append]
  simp [route_state.addResult]

private theorem addSearchResult_weights (candidates : PhantomCandidatesToTarget) (results : Direction → EdgeWeight × List NodeID)
    (d : Direction) : (route.addSearchResult candidates results).current.total_weight_to d =
      route.current.total_weight_to d ++ [(results d).1] := by
  cases d <;> simp [route_state.addSearchResult,route_state.addResult]
private theorem addSearchResult_reached (candidates : PhantomCandidatesToTarget) (results : Direction → EdgeWeight × List NodeID)
    (d : Direction) : (route.addSearchResult candidates results).current.reached_node_target d =
      route.current.reached_node_target d ++ [decide ((results d).1 ≠ INVALID_EDGE_WEIGHT)] := by
  cases d <;> simp [route_state.addSearchResult,route_state.addResult]

private theorem Filling.step (stage : Stage leg waypoint_candidates m sources start legs) (exact : Exact leg legSearch)
    (distinct : Distinct sources) (waypoint : waypoint_candidates[m + 1]? = some candidates)
    {done : PhantomNodeCandidates} {target : PhantomNode} (member : target ∈ candidates)
    (filling : Filling leg waypoint_candidates m start legs done route more links) :
    ∃ more links, Filling leg waypoint_candidates m start legs (done ++ [target])
      (route.addSearchResult ⟨sources,target⟩ (search legSearch route.last ⟨sources,target⟩)) more links := by
  generalize searched : search legSearch route.last ⟨sources,target⟩ = results
  have paired : more.length = links.length := by rw [filling.more_length,filling.links_length]
  have forward := stage.found exact distinct waypoint member .FORWARD filling.last filling.offset filling.current_leg paired
    (congrFun searched.symm .FORWARD)
  have reverse := stage.found exact distinct waypoint member .REVERSE filling.last filling.offset filling.current_leg
    (show (more ++ [(results .FORWARD).2]).length =
      (links ++ [(route.link sources (results .FORWARD).2 (results .FORWARD).1).1]).length by simp [paired])
    (congrFun searched.symm .REVERSE)
  obtain ⟨paths,begins⟩ := addResult_flat sources .FORWARD (results .FORWARD) filling.paths filling.begins
  obtain ⟨paths,begins⟩ := addResult_flat sources .REVERSE (results .REVERSE) paths begins
  have whole : (route.addSearchResult ⟨sources,target⟩ results).previous_leg_in_route = start.previous_leg_in_route ++
      (links ++ [(route.link sources (results .FORWARD).2 (results .FORWARD).1).1] ++
        [(route.link sources (results .REVERSE).2 (results .REVERSE).1).1]) := by
    rw [← append_assoc,← append_assoc,← filling.links_eq]
    rfl
  refine ⟨more ++ [(results .FORWARD).2] ++ [(results .REVERSE).2],_,filling.last,filling.offset,filling.current_leg,?_,?_,whole,
    ?_,?_,?_,?_,?_⟩
  · rw [← append_assoc,← append_assoc]
    exact paths
  · rw [← append_assoc,← append_assoc]
    exact begins
  · simp [filling.more_length]
    omega
  · simp [filling.links_length]
    omega
  · intro d
    rw [addSearchResult_weights]
    simp [filling.weight_length d]
  · intro d k phantom weight at_k weighs
    rw [addSearchResult_weights] at weighs
    rw [whole]
    rcases Nat.lt_or_ge k done.length with old | new
    · rw [getElem?_append_left old] at at_k
      rw [getElem?_append_left (by rw [filling.weight_length]; exact old)] at weighs
      have entry := (filling.entry d k phantom weight at_k weighs).append ([(results .FORWARD).2] ++ [(results .REVERSE).2])
        ([(route.link sources (results .FORWARD).2 (results .FORWARD).1).1] ++
          [(route.link sources (results .REVERSE).2 (results .REVERSE).1).1])
      rw [filling.links_eq] at entry
      simpa only [append_assoc] using entry
    · obtain rfl : k = done.length := by
        have := (List.getElem?_eq_some_iff.mp at_k).choose
        simp only [length_append,length_singleton] at this
        omega
      obtain rfl : target = phantom := by simpa using at_k
      rw [← filling.weight_length d] at weighs
      obtain rfl : (results d).1 = weight := by simpa using weighs
      cases d with
      | FORWARD =>
        have entry := forward.append [(results .REVERSE).2] [(route.link sources (results .REVERSE).2 (results .REVERSE).1).1]
        rw [filling.more_length] at entry
        simpa only [append_assoc,Direction.place,Nat.add_zero] using entry
      | REVERSE =>
        rw [length_append,length_singleton,filling.more_length] at reverse
        simpa only [append_assoc,Direction.place,Nat.add_assoc] using reverse
  · intro d
    rw [addSearchResult_weights,addSearchResult_reached,filling.marks,map_append]
    rfl

private theorem Stage.addLeg (stage : Stage leg waypoint_candidates m sources start legs) (exact : Exact leg legSearch)
    (distinct : Distinct sources) (waypoint : waypoint_candidates[m + 1]? = some candidates) :
    ∃ legs, Stage leg waypoint_candidates (m + 1) candidates (start.addLeg legSearch sources candidates).1 legs := by
  have begun : Filling leg waypoint_candidates m start legs [] start [] [] := by
    refine ⟨rfl,rfl,rfl,?_,?_,(append_nil _).symm,rfl,rfl,?_,?_,?_⟩
    · rw [append_nil]
      exact stage.paths
    · rw [append_nil]
      exact stage.begins
    · simp [stage.current,leg_state.reset]
    · intro d k phantom weight at_k
      simp at at_k
    · simp [stage.current,leg_state.reset]
  obtain ⟨more,links,filling⟩ := foldl_invariant
    (fun done route => ∃ more links, Filling leg waypoint_candidates m start legs done route more links) candidates
    (fun done route target member inv => inv.elim fun more inv => inv.elim fun links filling =>
      filling.step stage exact distinct waypoint member) start ⟨[],[],begun⟩
  generalize filled : candidates.foldl (fun route target_phantom => route.addSearchResult ⟨sources,target_phantom⟩
    (search legSearch route.last ⟨sources,target_phantom⟩)) start = route at filling
  have completed : start.addLeg legSearch sources candidates = route.completeLeg := by rw [route_state.addLeg,filled]
  have counted : route.previous_leg_in_route.length = legs.length + 2 * candidates.length := by
    rw [filling.links_eq,length_append,stage.count,filling.links_length]
  refine ⟨legs ++ more,?_⟩
  rw [completed]
  refine ⟨waypoint,?_,rfl,filling.paths,filling.begins,?_,?_,filling.weight_length,?_,fun _ => filling.marks⟩
  · simp only [route_state.completeLeg,filling.current_leg,stage.current_leg]
  · rw [length_append,filling.more_length]
    exact counted
  · intro d
    change (route.current.reached_node_target d).length = candidates.length
    rw [filling.marks,length_map,filling.weight_length]
  · intro d i phantom reached weight at_i is_reached weighs
    have entry := filling.entry d i phantom weight at_i weighs
    have same : reached = decide (weight ≠ INVALID_EDGE_WEIGHT) := by
      change (route.current.reached_node_target d)[i]? = some reached at is_reached
      change (route.current.total_weight_to d)[i]? = some weight at weighs
      rw [filling.marks,getElem?_map,weighs,map_some,some_inj] at is_reached
      exact is_reached.symm
    have index : route.completeLeg.1.previousPath d i = legs.length + 2 * i + Direction.place d := by
      simp only [route_state.previousPath,route_state.completeLeg,counted,filling.weight_length]
      omega
    rw [if_neg (by omega),index,same]
    exact entry

private theorem Stage.reached (stage : Stage leg waypoint_candidates m sources route legs) (positive : 0 < m)
    (chain : Chain leg waypoint_candidates m (c :: before) total) :
    ∃ weight ∈ route.last.total_weight_to c.direction, weight ≠ INVALID_EDGE_WEIGHT ∧ weight ≤ total := by
  obtain ⟨i,_,reached,weight,le,weighs⟩ := stage.known chain
  rw [stage.marks positive,getElem?_map,weighs,map_some,some_inj] at reached
  exact ⟨weight,mem_of_getElem? weighs,of_decide_eq_true reached,le⟩

private theorem completeLeg_flag (route : route_state) : route.completeLeg.2 = true ↔
    ∃ d, ∃ weight ∈ route.completeLeg.1.last.total_weight_to d, weight ≠ INVALID_EDGE_WEIGHT := by
  simp only [route_state.completeLeg,Bool.or_eq_true,List.any_eq_true,bne_iff_ne]
  constructor
  · rintro (found | found)
    · exact ⟨.FORWARD,found⟩
    · exact ⟨.REVERSE,found⟩
  · rintro ⟨d,found⟩
    cases d with
    | FORWARD => exact .inl found
    | REVERSE => exact .inr found

private theorem addLegs_spec (exact : Exact leg legSearch) (distinct : ∀ candidates ∈ waypoint_candidates, Distinct candidates)
    (rest : List PhantomNodeCandidates) (remaining : waypoint_candidates.drop (m + 1) = rest)
    (stage : Stage leg waypoint_candidates m sources start legs)
    (known : 0 < m → ∃ d, ∃ weight ∈ start.last.total_weight_to d, weight ≠ INVALID_EDGE_WEIGHT) :
    (addLegs legSearch start sources rest = none → ¬∃ chosen total, Chain leg waypoint_candidates (m + rest.length) chosen total) ∧
      ∀ route, addLegs legSearch start sources rest = some route →
        ∃ candidates legs, Stage leg waypoint_candidates (m + rest.length) candidates route legs ∧
          (0 < m + rest.length → ∃ d, ∃ weight ∈ route.last.total_weight_to d, weight ≠ INVALID_EDGE_WEIGHT) := by
  induction rest generalizing m sources start legs with
  | nil =>
    refine ⟨by simp [addLegs],fun route same => ?_⟩
    obtain rfl : start = route := by simpa [addLegs] using same
    exact ⟨sources,legs,stage,known⟩
  | cons candidates rest ih =>
    have waypoint : waypoint_candidates[m + 1]? = some candidates := by
      rw [← head?_drop,remaining,head?_cons]
    obtain ⟨legs',completed⟩ := stage.addLeg exact (distinct sources (mem_of_getElem? stage.waypoint)) waypoint
    have flag := completeLeg_flag (candidates.foldl (fun route target_phantom => route.addSearchResult ⟨sources,target_phantom⟩
      (search legSearch route.last ⟨sources,target_phantom⟩)) start)
    change (start.addLeg legSearch sources candidates).2 = true ↔ _ at flag
    rw [addLegs,length_cons,show m + (rest.length + 1) = m + 1 + rest.length by omega]
    cases valid : (start.addLeg legSearch sources candidates).2 with
    | true =>
      rw [if_pos rfl]
      refine ih ?_ completed fun _ => flag.mp valid
      rw [← drop_drop,drop_one,remaining,tail_cons]
    | false =>
      rw [if_neg (by simp)]
      refine ⟨?_,by simp⟩
      rintro _ ⟨chosen,total,chain⟩
      obtain ⟨chosen,total,chain⟩ := chain.earlier (show m + 1 ≤ m + 1 + rest.length by omega)
      obtain ⟨c,before,rfl⟩ := chain.nonempty
      obtain ⟨weight,member,proper,_⟩ := completed.reached (by omega) chain
      exact absurd (flag.mpr ⟨c.direction,weight,member,proper⟩) (by simp [valid])

private theorem Stage.init (waypoint : waypoint_candidates[0]? = some candidates) :
    Stage leg waypoint_candidates 0 candidates (.init candidates) [] := by
  refine ⟨waypoint,rfl,rfl,rfl,rfl,rfl,?_,?_,?_,by simp⟩
  · simp [route_state.init]
  · simp [route_state.init]
  · intro d i phantom reached weight at_i is_reached weighs
    obtain rfl : (Directed.mk phantom d).IsValidSource = reached := by
      simpa [route_state.init,getElem?_map,at_i] using is_reached
    obtain rfl : (0 : EdgeWeight) = weight := by
      simp only [route_state.init,getElem?_map,at_i,map_some,some_inj] at weighs
      exact weighs
    constructor
    · exact fun source => ⟨[],[],.start waypoint (mem_of_getElem? at_i) source,rfl⟩
    · intro before total chain
      cases chain with
      | start _ _ source => exact ⟨source,le_rfl⟩

/-! ### The lightest route -/

private theorem min_element_spec (less : ℕ → ℕ → Bool) (weight : ℕ → EdgeWeight)
    (below : ∀ a b, less a b = true → weight a ≤ weight b) (above : ∀ a b, less a b = false → weight b ≤ weight a)
    {range : List ℕ} (some_left : range ≠ []) :
    min_element less range ∈ range ∧ ∀ i ∈ range, weight (min_element less range) ≤ weight i := by
  obtain ⟨first,rest,rfl⟩ := exists_cons_of_ne_nil some_left
  unfold min_element
  rw [tail_cons,headD_cons]
  clear some_left
  induction rest generalizing first with
  | nil => simp
  | cons i rest ih =>
    rw [foldl_cons]
    cases lighter : less i first with
    | true =>
      obtain ⟨member,least⟩ := ih i
      rw [if_pos rfl]
      refine ⟨mem_cons_of_mem _ member,fun j inside => ?_⟩
      rcases mem_cons.mp inside with rfl | later
      · exact (least i (by simp)).trans (below i j lighter)
      · exact least j later
    | false =>
      obtain ⟨member,least⟩ := ih first
      rw [if_neg (by simp)]
      refine ⟨?_,fun j inside => ?_⟩
      · rcases mem_cons.mp member with same | later
        · simp [same]
        · exact mem_cons_of_mem _ (mem_cons_of_mem _ later)
      · rcases mem_cons.mp inside with rfl | later
        · exact least j (by simp)
        · rcases mem_cons.mp later with rfl | later
          · exact (least first (by simp)).trans (above j first lighter)
          · exact least j (mem_cons_of_mem _ later)

private theorem minCandidate_spec (d : Direction) (some_left : route.last.total_weight_to d ≠ []) :
    route.minCandidate d < (route.last.total_weight_to d).length ∧
      ∀ weight ∈ route.last.total_weight_to d, (route.last.total_weight_to d).getD (route.minCandidate d) 0 ≤ weight := by
  have filled : List.range (route.last.total_weight_to d).length ≠ [] := by simpa using some_left
  obtain ⟨member,least⟩ := min_element_spec
    (fun a b => decide ((route.last.total_weight_to d).getD a 0 < (route.last.total_weight_to d).getD b 0) ||
      ((route.last.total_weight_to d).getD a 0 == (route.last.total_weight_to d).getD b 0 &&
        decide ((route.last.total_nodes_to d).getD a 0 < (route.last.total_nodes_to d).getD b 0)))
    (fun i => (route.last.total_weight_to d).getD i 0)
    (by
      intro a b lighter
      simp only [Bool.or_eq_true,decide_eq_true_eq,Bool.and_eq_true,beq_iff_eq] at lighter
      lia)
    (by
      intro a b heavier
      simp only [Bool.or_eq_false_iff,decide_eq_false_iff_not] at heavier
      lia) filled
  refine ⟨mem_range.mp member,fun weight inside => ?_⟩
  obtain ⟨i,short,rfl⟩ := mem_iff_getElem.mp inside
  refine (least i (mem_range.mpr short)).trans_eq ?_
  rw [getD_eq_getElem?_getD,getElem?_eq_getElem short,getD_some]

private theorem follow_links {all : List ℕ} (traced : Traced leg waypoint_candidates legs previous m chosen total all) :
    ∀ p indices, all = p :: indices → ∀ (seen : List ℕ) more, indices.length ≤ more →
      ∃ last, whileLoop (fun state => (previous.getD state.1 none).isSome)
        (fun state => ((previous.getD state.1 none).getD 0,state.2 ++ [(previous.getD state.1 none).getD 0])) more (p,seen) =
          some (last,seen ++ indices) := by
  induction traced with
  | start => simp
  | @next m p before total w indices candidates c c' path traced _ _ _ _ _ _ _ _ _ linked ih =>
    rintro q rest same seen more enough
    obtain ⟨rfl,rfl⟩ := List.cons.inj same
    have here : previous.getD p none = indices.head? := by rw [getD_eq_getElem?_getD,linked,getD_some]
    cases indices with
    | nil =>
      refine ⟨p,?_⟩
      cases more <;> simp only [whileLoop,here,head?_nil,isSome_none,Bool.false_eq_true,if_false,append_nil]
    | cons q rest =>
      cases more with
      | zero => simp at enough
      | succ more =>
        obtain ⟨last,runs⟩ := ih q rest rfl (seen ++ [q]) more (by simpa using enough)
        refine ⟨last,?_⟩
        simp only [whileLoop,here,head?_cons,isSome_some,if_true,getD_some]
        rw [runs,append_assoc,singleton_append]

private theorem backtrack_traced {p : ℕ} (traced : Traced leg waypoint_candidates legs previous m chosen total (p :: indices)) :
    ∀ more ≥ indices.length, backtrack more previous p = some (p :: indices).reverse := by
  intro more enough
  obtain ⟨last,runs⟩ := follow_links traced p indices rfl [p] more enough
  unfold backtrack
  dsimp only
  rw [runs]
  rfl

private theorem Traced.total_lt (traced : Traced leg waypoint_candidates legs previous (m + 1) chosen total indices) :
    total < INVALID_EDGE_WEIGHT := by
  cases traced with
  | next _ _ _ _ _ _ below => exact below

private theorem Stage.traced (stage : Stage leg waypoint_candidates (m + 1) sources route legs) {d : Direction} {i : ℕ} (at_i : (route.last.total_weight_to d)[i]? = some weight) (proper : weight ≠ INVALID_EDGE_WEIGHT) :
    ∃ chosen indices, Traced leg waypoint_candidates legs route.previous_leg_in_route (m + 1) chosen weight
      (route.previousPath d i :: indices) := by
  have inside : i < sources.length := by
    rw [← stage.weight_length d]
    exact (List.getElem?_eq_some_iff.mp at_i).choose
  have reached : (route.last.reached_node_target d)[i]? = some true := by
    rw [stage.marks (by omega),getElem?_map,at_i,map_some,decide_eq_true proper]
  obtain ⟨before,indices,traced,first⟩ := (stage.entry d i _ true weight (getElem?_eq_getElem inside) reached at_i).traced rfl
  rw [if_neg (by omega)] at first
  cases indices with
  | nil => simp at first
  | cons p rest =>
    obtain rfl : p = route.previousPath d i := by simpa using first
    exact ⟨_,rest,traced⟩

private theorem Stage.getMinRoute (stage : Stage leg waypoint_candidates (m + 1) sources route legs) {d : Direction} (member : weight ∈ route.last.total_weight_to d) (proper : weight ≠ INVALID_EDGE_WEIGHT) :
    ∃ fuel chosen total indices, (∀ more ≥ fuel, route.getMinRoute more = some (indices.reverse,total)) ∧
      Traced leg waypoint_candidates legs route.previous_leg_in_route (m + 1) chosen total indices ∧
      ∀ d, ∀ weight ∈ route.last.total_weight_to d, total ≤ weight := by
  have filled : ∀ d, route.last.total_weight_to d ≠ [] := by
    intro d' none_left
    have same := stage.weight_length d
    rw [← stage.weight_length d',none_left] at same
    rw [eq_nil_of_length_eq_zero same] at member
    simp at member
  obtain ⟨i,at_i⟩ := mem_iff_getElem?.mp member
  obtain ⟨_,_,known⟩ := stage.traced at_i proper
  have below := known.total_lt
  -- the better one of the two directions is no heavier than the weight that is known
  have best : ∀ d', (∀ d, ∀ weight ∈ route.last.total_weight_to d,
      (route.last.total_weight_to d').getD (route.minCandidate d') 0 ≤ weight) →
      ∃ chosen indices, Traced leg waypoint_candidates legs route.previous_leg_in_route (m + 1) chosen
        ((route.last.total_weight_to d').getD (route.minCandidate d') 0) (route.previousPath d' (route.minCandidate d') :: indices) := by
    intro d' least
    obtain ⟨inside,_⟩ := minCandidate_spec d' (filled d')
    refine stage.traced ?_ ?_
    · rw [getD_eq_getElem?_getD,getElem?_eq_getElem inside,getD_some]
    · have := least d weight member
      lia
  unfold route_state.getMinRoute
  dsimp only
  split
  · rename_i lighter
    have least : ∀ d, ∀ weight ∈ route.last.total_weight_to d,
        (route.last.total_weight_to .FORWARD).getD (route.minCandidate .FORWARD) 0 ≤ weight := by
      intro d weight inside
      have := (minCandidate_spec d (filled d)).2 weight inside
      cases d <;> lia
    obtain ⟨chosen,indices,traced⟩ := best .FORWARD least
    refine ⟨indices.length,chosen,_,_,fun more enough => ?_,traced,least⟩
    rw [backtrack_traced traced more enough]
    rfl
  · rename_i heavier
    have least : ∀ d, ∀ weight ∈ route.last.total_weight_to d,
        (route.last.total_weight_to .REVERSE).getD (route.minCandidate .REVERSE) 0 ≤ weight := by
      intro d weight inside
      have := (minCandidate_spec d (filled d)).2 weight inside
      cases d <;> lia
    obtain ⟨chosen,indices,traced⟩ := best .REVERSE least
    refine ⟨indices.length,chosen,_,_,fun more enough => ?_,traced,least⟩
    rw [backtrack_traced traced more enough]
    rfl

structure LegAt (waypoint_candidates : List PhantomNodeCandidates) (legs : List (List NodeID)) (i p : ℕ) (c c' : Directed) : Prop where
  path : ∃ path, legs[p]? = some path ∧ path.head? = some c.segment_id.id ∧ path.getLast? = some c'.segment_id.id
  source : ∃ candidates, waypoint_candidates[i]? = some candidates ∧ c.phantom ∈ candidates
  target : ∃ candidates, waypoint_candidates[i + 1]? = some candidates ∧ c'.phantom ∈ candidates
  valid_source : c.IsValidSource = true
  valid_target : c'.IsValidTarget = true

private theorem Traced.legAt (traced : Traced leg waypoint_candidates legs previous m chosen total indices) :
    indices.length = m ∧ chosen.length = m + 1 ∧ ∀ i < m, ∃ p c c', indices.reverse[i]? = some p ∧ chosen.reverse[i]? = some c ∧
      chosen.reverse[i + 1]? = some c' ∧ LegAt waypoint_candidates legs i p c c' := by
  induction traced with
  | start => simp
  | @next m p before total w indices candidates c c' path traced source waypoint member target _ _ stored first last _ ih =>
    obtain ⟨count,length,each⟩ := ih
    refine ⟨by simp [count],by simpa using length,fun i inside => ?_⟩
    have order : (c' :: c :: before).reverse = (c :: before).reverse ++ [c'] := reverse_cons
    have order' : (p :: indices).reverse = indices.reverse ++ [p] := reverse_cons
    have size : (c :: before).reverse.length = m + 1 := by rw [length_reverse,length]
    have size' : indices.reverse.length = m := by rw [length_reverse,count]
    rw [order,order']
    rcases Nat.lt_or_ge i m with earlier | new
    · obtain ⟨q,d,d',at_i,at_d,at_d',stored⟩ := each i earlier
      refine ⟨q,d,d',?_,?_,?_,stored⟩
      · rwa [getElem?_append_left (by omega)]
      · rwa [getElem?_append_left (by omega)]
      · rwa [getElem?_append_left (by omega)]
    · obtain rfl : i = m := by omega
      refine ⟨p,c,c',?_,?_,?_,⟨path,stored,first,last⟩,traced.chain.member,⟨candidates,waypoint,member⟩,source,target⟩
      · rw [getElem?_append_right (by omega),size',Nat.sub_self]
        rfl
      · have before_length : before.reverse.length = i := by simpa using length
        rw [getElem?_append_left (by omega),reverse_cons,getElem?_append_right (by omega),before_length,Nat.sub_self]
        rfl
      · rw [getElem?_append_right (by omega),size,Nat.sub_self]
        rfl

private theorem findCandidate_eq (distinct : Distinct candidates) (member : c.phantom ∈ candidates)
    (enabled : c.segment_id.enabled = true) : findCandidate candidates c.segment_id.id = some c.phantom := by
  obtain ⟨i,inside,at_i⟩ := mem_iff_getElem.mp member
  have at_i' : candidates[i]? = some c.phantom := by rw [getElem?_eq_getElem inside,at_i]
  have itself : (c.segment_id.id == c.phantom.forward_segment_id.id || c.segment_id.id == c.phantom.reverse_segment_id.id) = true := by
    obtain ⟨phantom,direction⟩ := c
    cases direction with
    | FORWARD => simp [Directed.segment_id]
    | REVERSE => simp [Directed.segment_id]
  unfold findCandidate
  cases found : candidates.find? fun phantom =>
      c.segment_id.id == phantom.forward_segment_id.id || c.segment_id.id == phantom.reverse_segment_id.id with
  | none => exact absurd itself (find?_eq_none.mp found c.phantom member)
  | some other =>
    obtain ⟨j,at_j⟩ := mem_iff_getElem?.mp (mem_of_find?_eq_some found)
    have matching := find?_some found
    simp only [Bool.or_eq_true,beq_iff_eq] at matching
    have same : i = j := by
      rcases matching with forward | reverse
      · exact (distinct i j c.phantom other c.direction .FORWARD at_i' at_j enabled forward).1
      · exact (distinct i j c.phantom other c.direction .REVERSE at_i' at_j enabled reverse).1
    rw [← same,at_i'] at at_j
    exact at_j.symm

private theorem traversed_in_reverse (distinct : Distinct candidates)
    (member : c.phantom ∈ candidates) (enabled : c.segment_id.enabled = true) :
    (some c.segment_id.id != some c.phantom.forward_segment_id.id) = decide (c.direction = .REVERSE) := by
  obtain ⟨i,inside,at_i⟩ := mem_iff_getElem.mp member
  have at_i' : candidates[i]? = some c.phantom := by rw [getElem?_eq_getElem inside,at_i]
  have only := distinct i i c.phantom c.phantom c.direction .FORWARD at_i' at_i' enabled
  obtain ⟨phantom,direction⟩ := c
  cases direction with
  | FORWARD => simp [Directed.segment_id]
  | REVERSE =>
    have apart : phantom.reverse_segment_id.id ≠ phantom.forward_segment_id.id := fun same => by simpa using only same
    simpa [Directed.segment_id] using apart

private theorem packed_at {p : ℕ} {path : List NodeID} (stored : legs[p]? = some path) (filled : path ≠ []) :
    packedLeg legs.flatten (starts (legs.map List.length)) p = path ∧
      legs.flatten[(starts (legs.map List.length)).getD p 0]? = path.head? ∧
      legs.flatten[(starts (legs.map List.length)).getD (p + 1) 0 - 1]? = path.getLast? := by
  obtain ⟨inside,same⟩ := List.getElem?_eq_some_iff.mp stored
  have size : 0 < path.length := length_pos_iff.mpr filled
  have begins : (starts (legs.map List.length)).getD p 0 = ((legs.map List.length).take p).sum := by
    rw [getD_eq_getElem?_getD,starts_get _ (by simpa using inside.le),getD_some]
  have ends : (starts (legs.map List.length)).getD (p + 1) 0 = ((legs.map List.length).take p).sum + path.length := by
    rw [getD_eq_getElem?_getD,starts_get _ (by simpa using inside),getD_some,
      take_succ_eq_append_getElem (by simpa using inside),sum_append,getElem_map,same]
    simp
  refine ⟨?_,?_,?_⟩
  · unfold packedLeg
    rw [begins,ends,Nat.add_sub_cancel_left]
    exact flatten_slice legs stored
  · have := flatten_get legs stored size
    rwa [Nat.add_zero,← begins,← head?_eq_getElem?] at this
  · have := flatten_get legs stored (show path.length - 1 < path.length by omega)
    rw [ends,show ((legs.map List.length).take p).sum + path.length - 1 =
      ((legs.map List.length).take p).sum + (path.length - 1) by omega,this,← getLast?_eq_getElem?]

private theorem mapM_exists {α β : Type} {f : α → Option β} {l : List α} (all : ∀ a ∈ l, ∃ b, f a = some b) :
    ∃ values, l.mapM f = some values ∧ values.map some = l.map f := by
  induction l with
  | nil => exact ⟨[],rfl,rfl⟩
  | cons a rest ih =>
    obtain ⟨b,first⟩ := all a (by simp)
    obtain ⟨values,mapped,same⟩ := ih fun later member => all later (mem_cons_of_mem _ member)
    exact ⟨b :: values,by simp [mapM_cons,first,mapped],by simp [first,same]⟩

/-- A result whose legs follow a list of directed candidates. -/
structure Follows (result : InternalRouteResult) (route : List Directed) : Prop where
  count : result.packed_legs.length + 1 = route.length
  legs : ∀ (i : ℕ) (path : List NodeID), result.packed_legs[i]? = some path → ∃ c c', route[i]? = some c ∧ route[i + 1]? = some c' ∧
    path.head? = some c.segment_id.id ∧ path.getLast? = some c'.segment_id.id ∧
    result.leg_endpoints[i]? = some (c.phantom,c'.phantom) ∧
    result.source_traversed_in_reverse[i]? = some (decide (c.direction = .REVERSE)) ∧
    result.target_traversed_in_reverse[i]? = some (decide (c'.direction = .REVERSE))

private theorem Traced.construct (traced : Traced leg waypoint_candidates legs previous m chosen total indices)
    (distinct : ∀ candidates ∈ waypoint_candidates, Distinct candidates) (size : waypoint_candidates.length = m + 1) :
    ∃ result, constructRouteResult waypoint_candidates indices.reverse legs.flatten (starts (legs.map List.length)) total = some result ∧
      result.shortest_path_weight = total ∧ Follows result chosen.reverse := by
  obtain ⟨count,length,each⟩ := traced.legAt
  have endpoints : ∀ i < m, ∀ p c c', indices.reverse[i]? = some p → LegAt waypoint_candidates legs i p c c' →
      legEndpoints waypoint_candidates legs.flatten (starts (legs.map List.length)) indices.reverse i =
        some (c.phantom,c'.phantom) := by
    intro i inside p c c' at_i stored
    obtain ⟨path,at_p,first,last⟩ := stored.path
    obtain ⟨candidates,waypoint,member⟩ := stored.source
    obtain ⟨candidates',waypoint',member'⟩ := stored.target
    obtain ⟨_,head,final⟩ := packed_at at_p (by rintro rfl; simp at first)
    have source := findCandidate_eq (distinct _ (mem_of_getElem? waypoint)) member (Directed.enabled_of_source stored.valid_source)
    have target := findCandidate_eq (distinct _ (mem_of_getElem? waypoint')) member'
      (Directed.enabled_of_target stored.valid_target)
    have here : waypoint_candidates.getD i [] = candidates := by rw [getD_eq_getElem?_getD,waypoint,getD_some]
    have next : waypoint_candidates.getD (i + 1) [] = candidates' := by rw [getD_eq_getElem?_getD,waypoint',getD_some]
    simp only [legEndpoints,at_i,head,final,first,last,here,next,source,target,bind_eq_bind,bind_some]
    rfl
  obtain ⟨values,mapped,same⟩ := @mapM_exists _ _ (legEndpoints waypoint_candidates legs.flatten (starts (legs.map List.length))
    indices.reverse) (List.range (waypoint_candidates.length - 1)) (by
      intro i member
      have inside : i < m := by simpa [size] using member
      obtain ⟨p,c,c',at_i,_,_,stored⟩ := each i inside
      exact ⟨_,endpoints i inside p c c' at_i stored⟩)
  have value_at : ∀ i < m, values[i]?.map some =
      some (legEndpoints waypoint_candidates legs.flatten (starts (legs.map List.length)) indices.reverse i) := by
    intro i inside
    rw [← getElem?_map,same,getElem?_map,getElem?_range (by omega),map_some]
  refine ⟨_,by rw [constructRouteResult,mapped]; rfl,rfl,by simp [count,length],?_⟩
  intro i path at_i
  dsimp only at at_i ⊢
  have inside : i < m := by
    have := (List.getElem?_eq_some_iff.mp at_i).choose
    simpa [count] using this
  obtain ⟨p,c,c',index,at_c,at_c',stored⟩ := each i inside
  obtain ⟨kept,at_p,first,last⟩ := stored.path
  obtain ⟨candidates,waypoint,member⟩ := stored.source
  obtain ⟨candidates',waypoint',member'⟩ := stored.target
  have cut := (packed_at at_p (by rintro rfl; simp at first)).1
  rw [getElem?_map,index,map_some,cut,some_inj] at at_i
  subst at_i
  have leg_value : values[i]? = some (c.phantom,c'.phantom) := by
    have := value_at i inside
    rw [endpoints i inside p c c' index stored] at this
    simpa using this
  have zipped : ((indices.reverse.map (packedLeg legs.flatten (starts (legs.map List.length)))).zip values)[i]? =
      some (kept,(c.phantom,c'.phantom)) := by
    rw [getElem?_zip_eq_some,getElem?_map,index,map_some,cut]
    exact ⟨rfl,leg_value⟩
  refine ⟨c,c',at_c,at_c',first,last,leg_value,?_,?_⟩
  · rw [getElem?_map,zipped,map_some,first]
    exact congrArg some (traversed_in_reverse (distinct _ (mem_of_getElem? waypoint)) member
      (Directed.enabled_of_source stored.valid_source))
  · rw [getElem?_map,zipped,map_some,last]
    exact congrArg some (traversed_in_reverse (distinct _ (mem_of_getElem? waypoint')) member'
      (Directed.enabled_of_target stored.valid_target))

end Program

/-- Routes through at least two waypoints that have to go straight on: one leg for each pair of waypoints, each going on
    where the one before has ended; the weight is the sum over the legs, and no choice of directed candidates has a smaller
    one. No route is reported exactly when there is no choice. -/
theorem waypointContinuation_optimal (leg : Directed → Directed → Option EdgeWeight) (legSearch : LegSearch)
    (exact : Exact leg legSearch) (waypoint_candidates : List PhantomNodeCandidates) (two : 2 ≤ waypoint_candidates.length)
    (distinct : ∀ candidates ∈ waypoint_candidates, Distinct candidates) :
    ∃ fuel result, (∀ more ≥ fuel, shortestPathWithWaypointContinuation more legSearch waypoint_candidates = some result) ∧
      (result.is_valid = true → ∃ chosen,
        Chain leg waypoint_candidates (waypoint_candidates.length - 1) chosen result.shortest_path_weight ∧
        Follows result chosen.reverse ∧
        ∀ other total, Chain leg waypoint_candidates (waypoint_candidates.length - 1) other total →
          result.shortest_path_weight ≤ total) ∧
      (result.is_valid = false ↔ ¬∃ chosen total, Chain leg waypoint_candidates (waypoint_candidates.length - 1) chosen total) := by
  obtain ⟨first,rest,rfl⟩ : ∃ first rest, waypoint_candidates = first :: rest := by
    cases waypoint_candidates with
    | nil => simp at two
    | cons first rest => exact ⟨first,rest,rfl⟩
  obtain ⟨k,size⟩ : ∃ k, rest.length = k + 1 := ⟨rest.length - 1,by simp at two; omega⟩
  have last : (first :: rest).length - 1 = 0 + rest.length := by simp
  obtain ⟨unreached,completed⟩ := addLegs_spec exact distinct rest rfl (Stage.init rfl) (by simp)
  rw [last]
  cases legs_added : addLegs legSearch (.init first) first rest with
  | none =>
    refine ⟨0,.invalid,fun more _ => ?_,by simp [InternalRouteResult.is_valid,InternalRouteResult.invalid],?_⟩
    · simp [shortestPathWithWaypointContinuation,legs_added]
    · exact ⟨fun _ => unreached legs_added,fun _ => by simp [InternalRouteResult.is_valid,InternalRouteResult.invalid]⟩
  | some route =>
    obtain ⟨candidates,legs,stage,known⟩ := completed route legs_added
    obtain ⟨d,weight,member,proper⟩ := known (by omega)
    rw [show 0 + rest.length = k + 1 by omega] at stage ⊢
    obtain ⟨fuel,chosen,total,indices,runs,traced,least⟩ := stage.getMinRoute member proper
    obtain ⟨result,made,weighs,follows⟩ := traced.construct distinct (by simp [size])
    have valid : result.is_valid = true := by
      have := traced.total_lt
      simp only [InternalRouteResult.is_valid,weighs,bne_iff_ne]
      lia
    refine ⟨fuel,result,fun more enough => ?_,fun _ => ⟨chosen,weighs ▸ traced.chain,follows,?_⟩,?_⟩
    · simp only [shortestPathWithWaypointContinuation,headD_cons,tail_cons,legs_added]
      change ((route.completeSearch.getMinRoute more).bind _) = _
      rw [show route.completeSearch.getMinRoute more = route.getMinRoute more from rfl,runs more enough]
      have begins := stage.begins
      rw [stage.paths] at begins
      simp only [bind_some,route_state.completeSearch,stage.paths]
      rw [begins,made]
    · intro other total' chain
      obtain ⟨c,before,rfl⟩ := chain.nonempty
      obtain ⟨weight',among,_,le⟩ := stage.reached (by omega) chain
      rw [weighs]
      exact (least c.direction weight' among).trans le
    · simp only [valid,Bool.true_eq_false,false_iff,not_not]
      exact ⟨chosen,total,traced.chain⟩

/-! ### A search by table -/

section Table
variable (table : NodeID → NodeID → Option EdgeWeight)

/-- The ways from the inserted sources to the inserted target, with the weights of a table. -/
def tableWays (forward_heap reverse_heap : List (NodeID × EdgeWeight)) : List (EdgeWeight × List NodeID) :=
  forward_heap.flatMap fun source => reverse_heap.filterMap fun target =>
    (table source.1 target.1).map fun w => (source.2 + w + target.2,[source.1,target.1])
def tableSearch : LegSearch := fun forward_heap reverse_heap _ _ =>
  (tableWays table forward_heap reverse_heap).foldl (fun best way => if way.1 < best.1 then way else best) (INVALID_EDGE_WEIGHT,[])
def tableLeg (source target : Directed) : Option EdgeWeight :=
  (table source.segment_id.id target.segment_id.id).map fun w => w - source.GetWeightPlusOffset + target.GetWeightPlusOffset

private theorem best_way (ways : List (EdgeWeight × List NodeID)) (start : EdgeWeight × List NodeID) :
    (ways.foldl (fun best way => if way.1 < best.1 then way else best) start = start ∨
      ways.foldl (fun best way => if way.1 < best.1 then way else best) start ∈ ways ∧
        (ways.foldl (fun best way => if way.1 < best.1 then way else best) start).1 < start.1) ∧
    ∀ way ∈ start :: ways, (ways.foldl (fun best way => if way.1 < best.1 then way else best) start).1 ≤ way.1 := by
  induction ways generalizing start with
  | nil => simp
  | cons way rest ih =>
    rw [foldl_cons]
    by_cases lighter : way.1 < start.1
    · obtain ⟨found,least⟩ := ih way
      rw [if_pos lighter]
      refine ⟨.inr ?_,?_⟩
      · rcases found with same | ⟨member,less⟩
        · exact ⟨by simp [same],by rw [same]; exact lighter⟩
        · exact ⟨mem_cons_of_mem _ member,less.trans lighter⟩
      · intro other member
        rcases mem_cons.mp member with rfl | later
        · exact (least way (by simp)).trans lighter.le
        · exact least other later
    · obtain ⟨found,least⟩ := ih start
      rw [if_neg lighter]
      refine ⟨?_,?_⟩
      · rcases found with same | ⟨member,less⟩
        · exact .inl same
        · exact .inr ⟨mem_cons_of_mem _ member,less⟩
      · intro other member
        rcases mem_cons.mp member with rfl | later
        · exact least other (by simp)
        · rcases mem_cons.mp later with rfl | later
          · exact (least start (by simp)).trans (not_lt.mp lighter)
          · exact least other (mem_cons_of_mem _ later)

private theorem mem_sourceInserts {last : leg_state} {sources : PhantomNodeCandidates} {insert : NodeID × EdgeWeight} :
    insert ∈ sourceInserts sources last.reached_node_target last.total_weight_to ↔
      ∃ c total, Offered last sources c total ∧ insert = (c.segment_id.id,total - c.GetWeightPlusOffset) := by
  unfold sourceInserts
  constructor
  · intro member
    obtain ⟨source,listed,inner⟩ := mem_flatMap.mp member
    obtain ⟨direction,_,here⟩ := mem_flatMap.mp inner
    by_cases chosen : ((last.reached_node_target direction).getD source.2 false && (Directed.mk source.1 direction).IsValidSource) = true
    · rw [if_pos chosen] at here
      obtain ⟨reached,valid⟩ := Bool.and_eq_true_iff.mp chosen
      exact ⟨⟨source.1,direction⟩,_,⟨source.2,mem_zipIdx_iff_getElem?.mp listed,reached,rfl,valid⟩,mem_singleton.mp here⟩
    · rw [if_neg chosen] at here
      simp at here
  · rintro ⟨⟨phantom,direction⟩,total,⟨i,at_i,reached,weight,valid⟩,rfl⟩
    refine mem_flatMap.mpr ⟨(phantom,i),mem_zipIdx_iff_getElem?.mpr at_i,mem_flatMap.mpr ⟨direction,?_,?_⟩⟩
    · cases direction <;> simp
    · rw [if_pos (by rw [reached,valid]; rfl),weight]
      simp

private theorem mem_tableWays {last : leg_state} {sources : PhantomNodeCandidates} {target : Directed}
    {way : EdgeWeight × List NodeID} :
    way ∈ tableWays table (sourceInserts sources last.reached_node_target last.total_weight_to)
        [(target.segment_id.id,target.GetWeightPlusOffset)] ↔
      ∃ c total w, Offered last sources c total ∧ tableLeg table c target = some w ∧
        way = (total + w,[c.segment_id.id,target.segment_id.id]) := by
  unfold tableWays tableLeg
  constructor
  · intro member
    obtain ⟨source,listed,inner⟩ := mem_flatMap.mp member
    obtain ⟨c,total,offered,rfl⟩ := mem_sourceInserts.mp listed
    obtain ⟨insert,one,made⟩ := mem_filterMap.mp inner
    cases mem_singleton.mp one
    obtain ⟨w,weighs,rfl⟩ := map_eq_some_iff.mp made
    refine ⟨c,total,_,offered,by rw [weighs]; rfl,?_⟩
    ext1
    · ring
    · rfl
  · rintro ⟨c,total,w,offered,weighs,rfl⟩
    obtain ⟨raw,looked,rfl⟩ := map_eq_some_iff.mp weighs
    refine mem_flatMap.mpr ⟨_,mem_sourceInserts.mpr ⟨c,total,offered,rfl⟩,mem_filterMap.mpr ⟨_,mem_singleton.mpr rfl,?_⟩⟩
    rw [looked,map_some,some_inj]
    ext1
    · ring
    · rfl

private theorem tableSearch_exact : Exact (tableLeg table) (tableSearch table) := by
  constructor
  · intro last candidates direction _ valid reaches
    rw [search,if_pos valid] at reaches ⊢
    obtain ⟨same | ⟨member,less⟩,_⟩ := best_way (tableWays table (sourceInserts candidates.source_phantoms last.reached_node_target
      last.total_weight_to) [((Directed.mk candidates.target_phantom direction).segment_id.id,
        (Directed.mk candidates.target_phantom direction).GetWeightPlusOffset)]) (INVALID_EDGE_WEIGHT,[])
    · exact absurd (congrArg Prod.fst same) reaches
    · obtain ⟨c,total,w,offered,weighs,same⟩ := (mem_tableWays table).mp member
      rw [same] at less
      refine ⟨c,total,w,offered,weighs,congrArg Prod.fst same,less,?_,?_⟩
      · exact (congrArg (fun way => way.2.head?) same).trans rfl
      · exact (congrArg (fun way => way.2.getLast?) same).trans rfl
  · intro last candidates direction _ valid c total w offered weighs _
    rw [search,if_pos valid]
    have way := (mem_tableWays table).mpr ⟨c,total,w,offered,weighs,rfl⟩
    exact (best_way _ (INVALID_EDGE_WEIGHT,[])).2 _ (mem_cons_of_mem _ way)

end Table

/-- A waypoint on a street of its own, whose segments are numbered one after the other. -/
def stop (number : ℕ) : PhantomNode :=
  ⟨⟨2 * number,true⟩,⟨2 * number + 1,true⟩,1,1,0,0,0,0,0,0,0,0,0,0,true,true,true,true⟩
def streets (source target : NodeID) : Option EdgeWeight :=
  if source = 0 ∧ target = 2 then some 5 else if source = 2 ∧ target = 4 then some 7 else none

private theorem stop_distinct (number : ℕ) : Distinct [stop number] := by
  intro i j p q d d' at_i at_j _ same
  obtain ⟨rfl,rfl⟩ : i = 0 ∧ stop number = p := by
    cases i with
    | zero => exact ⟨rfl,by simpa using at_i⟩
    | succ i => simp at at_i
  obtain ⟨rfl,rfl⟩ : j = 0 ∧ stop number = q := by
    cases j with
    | zero => exact ⟨rfl,by simpa using at_j⟩
    | succ j => simp at at_j
  refine ⟨rfl,?_⟩
  cases d <;> cases d'
  · rfl
  · change 2 * number = 2 * number + 1 at same
    omega
  · change 2 * number + 1 = 2 * number at same
    omega
  · rfl

theorem waypointContinuation_optimal_stops : ∃ fuel result,
    (∀ more ≥ fuel, shortestPathWithWaypointContinuation more (tableSearch streets) [[stop 0],[stop 1],[stop 2]] = some result) ∧
      result.is_valid = true ∧ result.shortest_path_weight ≤ 12 := by
  obtain ⟨fuel,result,runs,route,no_route⟩ := waypointContinuation_optimal (tableLeg streets) (tableSearch streets)
    (tableSearch_exact streets) [[stop 0],[stop 1],[stop 2]] (by decide) (by
      intro candidates member
      simp only [mem_cons,not_mem_nil,or_false] at member
      rcases member with rfl | rfl | rfl
      · exact stop_distinct 0
      · exact stop_distinct 1
      · exact stop_distinct 2)
  have chain : Chain (tableLeg streets) [[stop 0],[stop 1],[stop 2]] 2 [⟨stop 2,.FORWARD⟩,⟨stop 1,.FORWARD⟩,⟨stop 0,.FORWARD⟩]
      (0 + 5 + 7) :=
    .next (.next (.start rfl (mem_singleton.mpr rfl) rfl) rfl rfl (mem_singleton.mpr rfl) rfl (by decide) (by decide))
      rfl rfl (mem_singleton.mpr rfl) rfl (by decide) (by decide)
  have valid : result.is_valid = true := by
    by_contra invalid
    exact no_route.mp (by simpa using invalid) ⟨_,_,chain⟩
  obtain ⟨chosen,_,_,least⟩ := route valid
  exact ⟨fuel,result,runs,valid,least _ _ chain⟩

end Osrm.Waypoints
