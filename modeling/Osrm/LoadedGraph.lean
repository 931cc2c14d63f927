import Osrm.EdgeBasedGraph
import Osrm.Scan

/-!
What the edge-based graph holds after it was loaded, and that it is the same after it was written and loaded again.
Edges that are usable backward only are turned round first.
-/
namespace Osrm.LoadedGraph
open List
open Typedefs EdgeBasedGraph Scan

variable {edges sorted graph : List EdgeBasedEdge} {s t : NodeID} {edge : EdgeBasedEdge}

def content (edge : EdgeBasedEdge) : NodeID × NodeID × EdgeWeight × EdgeDuration × EdgeDistance × NodeID :=
  (edge.source,edge.target,edge.data.weight,edge.data.duration,edge.data.distance,edge.data.turn_id)
def forwardEdges (graph : List EdgeBasedEdge) (s t : NodeID) : List EdgeBasedEdge :=
  graph.filter fun edge => sameEnds s t edge && edge.data.forward
def backwardEdges (graph : List EdgeBasedEdge) (s t : NodeID) : List EdgeBasedEdge :=
  graph.filter fun edge => sameEnds s t edge && edge.data.backward

theorem mem_forwardEdges : edge ∈ forwardEdges graph s t ↔
    edge ∈ graph ∧ edge.source = s ∧ edge.target = t ∧ edge.data.forward = true := by
  simp [forwardEdges,sameEnds_iff,and_assoc]

private theorem mem_backwardEdges : edge ∈ backwardEdges graph s t ↔
    edge ∈ graph ∧ edge.source = s ∧ edge.target = t ∧ edge.data.backward = true := by
  simp [backwardEdges,sameEnds_iff,and_assoc]

def leads (s t : NodeID) (edge : EdgeBasedEdge) : Prop :=
  edge.source = s ∧ edge.target = t ∧ edge.data.forward = true ∨ edge.source = t ∧ edge.target = s ∧ edge.data.backward = true

/-- A valid edge that leads from a node to another one and is as light as any. -/
structure Cheapest (edges : List EdgeBasedEdge) (s t : NodeID) (edge : EdgeBasedEdge) : Prop where
  member : edge ∈ edges
  valid : edge.data.weight ≠ INVALID_EDGE_WEIGHT
  leads : leads s t edge
  least : ∀ other ∈ edges, other.data.weight ≠ INVALID_EDGE_WEIGHT → LoadedGraph.leads s t other → storedWeight edge ≤ storedWeight other

/-- For the way between two nodes: the data of a cheapest forward edge, and at the other end an equal backward edge. -/
structure Loaded (edges graph : List EdgeBasedEdge) (s t : NodeID) : Prop where
  forward_once : (forwardEdges graph s t).length ≤ 1
  backward_once : (backwardEdges graph t s).length ≤ 1
  cheapest : ∀ stored ∈ forwardEdges graph s t, ∃ edge, Cheapest edges s t edge ∧ content stored =
    (s,t,storedWeight edge,edge.data.duration,edge.data.distance,edge.data.turn_id)
  mirrored : (backwardEdges graph t s).map (·.data.weight) = (forwardEdges graph s t).map (·.data.weight)
  stored_iff : forwardEdges graph s t ≠ [] ↔ ∃ edge ∈ edges, edge.data.weight ≠ INVALID_EDGE_WEIGHT ∧ leads s t edge

def orient (edge : EdgeBasedEdge) : EdgeBasedEdge :=
  if edge.data.forward then edge else ⟨edge.target,edge.source,{ edge.data with forward := true,backward := false }⟩

private theorem orient_spec (oneWay : edge.data.backward = !edge.data.forward) :
    (splitEdge (orient edge)).Perm (splitEdge edge) ∧ (orient edge).data.forward = true ∧ (orient edge).data.backward = false ∧
      ((orient edge).source = s ∧ (orient edge).target = t ↔ leads s t edge) := by
  cases forward : edge.data.forward with
  | true =>
    rw [forward] at oneWay
    simp [orient,forward,oneWay,leads]
  | false =>
    rw [forward] at oneWay
    refine ⟨?_,by simp [orient,forward],by simp [orient,forward],?_⟩
    · by_cases invalid : edge.data.weight = INVALID_EDGE_WEIGHT
      · simp [orient,forward,splitEdge,invalid]
      · simp only [orient,splitEdge,forward,oneWay,beq_iff_eq,invalid,Bool.false_eq_true,if_false,Bool.not_false]
        exact List.Perm.swap _ _ _
    · simp only [orient,forward,leads,oneWay,Bool.false_eq_true,if_false,and_false,false_or,Bool.not_false,and_true]
      exact and_comm

@[simp] theorem orient_data : (orient edge).data.weight = edge.data.weight ∧ (orient edge).data.duration = edge.data.duration ∧
    (orient edge).data.distance = edge.data.distance ∧ (orient edge).data.turn_id = edge.data.turn_id := by
  unfold orient
  split <;> simp

private theorem directed_orient (oneWay : OneWay edges) : Directed (edges.map orient) := by
  intro edge member
  obtain ⟨original,inside,rfl⟩ := mem_map.mp member
  obtain ⟨_,forward,backward,_⟩ := orient_spec (s := 0) (t := 0) (oneWay original inside)
  exact ⟨forward,backward⟩

private theorem split_orient (oneWay : OneWay edges) :
    (splitBidirectionalEdges (edges.map orient)).Perm (splitBidirectionalEdges edges) := by
  rw [splitBidirectionalEdges,splitBidirectionalEdges,flatMap_map]
  exact Perm.flatMap_left _ fun edge member => (orient_spec (s := 0) (t := 0) (oneWay edge member)).1

private theorem sorted_orient (oneWay : OneWay edges) (sorting : Sorted (splitBidirectionalEdges edges) sorted) :
    Sorted (splitBidirectionalEdges (edges.map orient)) sorted :=
  ⟨sorting.perm.trans (split_orient oneWay).symm,sorting.ordered⟩

private theorem cheapest_of_lightest (oneWay : OneWay edges) (lightest : Lightest (edges.map orient) s t edge) :
    ∃ original, Cheapest edges s t original ∧ edge = orient original := by
  obtain ⟨original,inside,rfl⟩ := mem_map.mp lightest.member
  obtain ⟨_,_,_,ends⟩ := orient_spec (s := s) (t := t) (oneWay original inside)
  refine ⟨original,⟨inside,by simpa using lightest.valid,ends.mp ⟨lightest.source,lightest.target⟩,?_⟩,rfl⟩
  intro other member valid leads
  obtain ⟨_,_,_,ends'⟩ := orient_spec (s := s) (t := t) (oneWay other member)
  obtain ⟨source,target⟩ := ends'.mpr leads
  simpa [storedWeight] using lightest.least (orient other) (mem_map_of_mem member) (by simpa using valid) source target

/-! ### What is stored -/

private theorem forward_stored (apart : s ≠ t) (oneWay : OneWay sorted) (ordered : sorted.Pairwise fun a b => before b a = false) :
    (forwardEdges (prepareIntervals sorted) s t).map content =
      (sorted.find? fun edge => sameEnds s t edge && edge.data.forward).toList.map content := by
  have stored : forwardEdges (prepareIntervals sorted) s t =
      ((prepareIntervals sorted).filter (sameEnds s t)).filter (·.data.forward) := by
    simp only [forwardEdges,filter_filter,Bool.and_comm]
  rw [stored,prepareIntervals_at apart oneWay ordered]
  cases forward : sorted.find? (fun edge => sameEnds s t edge && edge.data.forward) with
  | none =>
    cases backward : sorted.find? (fun edge => sameEnds s t edge && edge.data.backward) with
    | none => simp [merged]
    | some b =>
      obtain ⟨_,_,_,flag,_⟩ := (find_flags oneWay).2 backward
      simp [merged,flag]
  | some f =>
    obtain ⟨_,_,_,flag,_⟩ := (find_flags oneWay).1 forward
    cases backward : sorted.find? (fun edge => sameEnds s t edge && edge.data.backward) with
    | none => simp [merged,flag]
    | some b =>
      obtain ⟨_,_,_,flag',_⟩ := (find_flags oneWay).2 backward
      by_cases same : f.data.weight = b.data.weight
      · simp [merged,flag,same,content]
      · simp [merged,flag,flag',same]

private theorem backward_stored (apart : s ≠ t) (oneWay : OneWay sorted) (ordered : sorted.Pairwise fun a b => before b a = false) :
    (backwardEdges (prepareIntervals sorted) s t).map (·.data.weight) =
      (sorted.find? fun edge => sameEnds s t edge && edge.data.backward).toList.map (·.data.weight) := by
  have stored : backwardEdges (prepareIntervals sorted) s t =
      ((prepareIntervals sorted).filter (sameEnds s t)).filter (·.data.backward) := by
    simp only [backwardEdges,filter_filter,Bool.and_comm]
  rw [stored,prepareIntervals_at apart oneWay ordered]
  cases backward : sorted.find? (fun edge => sameEnds s t edge && edge.data.backward) with
  | none =>
    cases forward : sorted.find? (fun edge => sameEnds s t edge && edge.data.forward) with
    | none => simp [merged]
    | some f =>
      obtain ⟨_,_,_,_,flag⟩ := (find_flags oneWay).1 forward
      simp [merged,flag]
  | some b =>
    obtain ⟨_,_,_,_,flag⟩ := (find_flags oneWay).2 backward
    cases forward : sorted.find? (fun edge => sameEnds s t edge && edge.data.forward) with
    | none => simp [merged,flag]
    | some f =>
      obtain ⟨_,_,_,_,flag'⟩ := (find_flags oneWay).1 forward
      by_cases same : f.data.weight = b.data.weight
      · simp [merged,same]
      · simp [merged,flag,flag',same]

theorem loaded_of_sorted (apart : s ≠ t) (oneWay : OneWay edges) (sorting : Sorted (splitBidirectionalEdges edges) sorted) :
    Loaded edges (prepareIntervals sorted) s t := by
  have directed := directed_orient oneWay
  have sorting' := sorted_orient oneWay sorting
  have sortedOneWay : OneWay sorted := fun edge member => split_oneWay directed edge (sorting'.perm.mem_iff.mp member)
  have forward := forward_stored apart sortedOneWay sorting.ordered
  have backward := backward_stored apart.symm sortedOneWay sorting.ordered
  cases first : sorted.find? fun edge => sameEnds s t edge && edge.data.forward with
  | none =>
    have unusable : ∀ edge ∈ edges, edge.data.weight ≠ INVALID_EDGE_WEIGHT → ¬ leads s t edge := by
      intro edge member valid leads
      obtain ⟨source,target⟩ := (orient_spec (oneWay edge member)).2.2.2.mpr leads
      obtain ⟨⟨f,found⟩,_⟩ := exists_first directed sorting' (mem_map_of_mem member) (by simpa using valid)
      rw [source,target,first] at found
      simp at found
    have missing : sorted.find? (fun edge => sameEnds t s edge && edge.data.backward) = none := by
      cases last : sorted.find? fun edge => sameEnds t s edge && edge.data.backward with
      | none => rfl
      | some b =>
        obtain ⟨x,lightest,_⟩ := first_backward directed sorting' last
        obtain ⟨original,cheapest,_⟩ := cheapest_of_lightest oneWay lightest
        exact absurd cheapest.leads (unusable original cheapest.member cheapest.valid)
    rw [first] at forward
    rw [missing] at backward
    have nothing : forwardEdges (prepareIntervals sorted) s t = [] := by simpa using forward
    have nothing' : backwardEdges (prepareIntervals sorted) t s = [] := by simpa using backward
    refine ⟨by simp [nothing],by simp [nothing'],by simp [nothing],by simp [nothing,nothing'],?_⟩
    rw [nothing]
    simpa using unusable
  | some f =>
    obtain ⟨x,lightest,rfl⟩ := first_forward directed sorting' first
    obtain ⟨original,cheapest,rfl⟩ := cheapest_of_lightest oneWay lightest
    obtain ⟨_,b,last⟩ := exists_first directed sorting' lightest.member lightest.valid
    rw [lightest.source,lightest.target] at last
    obtain ⟨y,lightest',rfl⟩ := first_backward directed sorting' last
    rw [first] at forward
    rw [last] at backward
    obtain ⟨stored,one,same⟩ := map_eq_singleton_iff.mp forward
    obtain ⟨stored',one',same'⟩ := map_eq_singleton_iff.mp backward
    have weights : stored'.data.weight = stored.data.weight := by
      rw [same',show stored.data.weight = (content stored).2.2.1 from rfl,same]
      exact (lightest'.same lightest)
    refine ⟨by simp [one],by simp [one'],fun edge member => ⟨original,cheapest,?_⟩,by simp [one,one',weights],?_⟩
    · rw [one,mem_singleton] at member
      rw [member,same]
      simp [content,atSource,lightest.source,lightest.target,storedWeight]
    · rw [one]
      exact iff_of_true (by simp) ⟨original,cheapest.member,cheapest.valid,cheapest.leads⟩

/-- A stored edge has the turn, the weight and the directions of another edge, and may be usable backward besides. -/
def StoredAs (origin edge : EdgeBasedEdge) : Prop :=
  edge.data.turn_id = origin.data.turn_id ∧ edge.data.weight = origin.data.weight ∧ edge.data.forward = origin.data.forward ∧
    (origin.data.backward = true → edge.data.backward = true)

private theorem mergeInterval_origin {first : EdgeBasedEdge} {interval : List EdgeBasedEdge} (inside : first ∈ interval) :
    ∀ edge ∈ mergeInterval first interval, ∃ origin ∈ interval, StoredAs origin edge := by
  intro edge member
  by_cases loop : first.source = first.target
  · simp [mergeInterval,loop] at member
  cases found : interval.find? (·.data.backward) with
  | none =>
    have same : edge = first := by simpa [mergeInterval,loop,found] using member
    exact ⟨first,inside,by simp [StoredAs,same]⟩
  | some first_backward =>
    have inside' := mem_of_find?_eq_some found
    by_cases backward : first.data.backward = true
    · have same : edge = first_backward := by simpa [mergeInterval,loop,found,backward] using member
      exact ⟨first_backward,inside',by simp [StoredAs,same]⟩
    · by_cases weights : first.data.weight = first_backward.data.weight
      · refine ⟨first,inside,?_⟩
        simp only [mergeInterval,loop,found,backward,weights,beq_iff_eq,Bool.false_eq_true,if_false,if_true,mem_singleton] at member
        simp [StoredAs,member,weights]
      · simp only [mergeInterval,loop,found,backward,weights,beq_iff_eq,Bool.false_eq_true,if_false,mem_cons,not_mem_nil,or_false] at member
        cases member with
        | inl same => exact ⟨first,inside,by simp [StoredAs,same]⟩
        | inr same => exact ⟨first_backward,inside',by simp [StoredAs,same]⟩

private theorem prepareIntervals_origin : ∀ edge ∈ prepareIntervals sorted, ∃ origin ∈ sorted, StoredAs origin edge := by
  induction sorted using prepareIntervals.induct with
  | case1 => simp [prepareIntervals]
  | case2 first rest ih =>
    intro edge member
    rw [prepareIntervals] at member
    cases mem_append.mp member with
    | inl here =>
      obtain ⟨origin,inside,same⟩ := mergeInterval_origin mem_cons_self edge here
      exact ⟨origin,((takeWhile_sublist _).cons_cons first).subset inside,same⟩
    | inr later =>
      obtain ⟨origin,inside,same⟩ := ih edge later
      exact ⟨origin,mem_cons_of_mem _ ((dropWhile_sublist _).subset inside),same⟩

private theorem weight_valid (sorting : Sorted (splitBidirectionalEdges edges) sorted) :
    ∀ edge ∈ prepareIntervals sorted, edge.data.weight ≠ INVALID_EDGE_WEIGHT := by
  intro edge member
  obtain ⟨origin,inside,_,weight,_⟩ := prepareIntervals_origin edge member
  obtain ⟨x,_,valid,rfl | rfl⟩ := mem_split.mp (sorting.perm.mem_iff.mp inside)
  all_goals
    rw [weight]
    simp only [atSource,atTarget,storedWeight,INVALID_EDGE_WEIGHT] at valid ⊢
    lia

/-- Loading keeps the cheapest connection in each direction, and neither eigenloops nor edges of invalid weight. -/
theorem cheapest_connections_loaded (oneWay : OneWay edges) (prepared : Prepared (splitBidirectionalEdges edges) graph) :
    (∀ s t, s ≠ t → Loaded edges graph s t) ∧
      ∀ edge ∈ graph, edge.source ≠ edge.target ∧ edge.data.weight ≠ INVALID_EDGE_WEIGHT := by
  obtain ⟨sorted,sorting,rfl⟩ := prepared
  exact ⟨fun s t apart => loaded_of_sorted apart oneWay sorting,
    fun edge member => ⟨prepareIntervals_apart edge member,weight_valid sorting edge member⟩⟩

/-- An edge that is usable forward, and one between the same nodes that is usable backward. -/
def bothWays : List EdgeBasedEdge := [⟨0,1,⟨0,3,0,0,true,false⟩⟩,⟨0,1,⟨2,3,0,0,false,true⟩⟩]
def bothWaysSorted : List EdgeBasedEdge :=
  [⟨0,1,⟨0,3,0,0,true,false⟩⟩,⟨0,1,⟨2,3,0,0,false,true⟩⟩,⟨1,0,⟨2,3,0,0,true,false⟩⟩,⟨1,0,⟨0,3,0,0,false,true⟩⟩]

private theorem bothWays_prepared : Prepared (splitBidirectionalEdges bothWays) (prepareIntervals bothWaysSorted) :=
  ⟨bothWaysSorted,⟨by decide,by decide⟩,rfl⟩

theorem cheapest_connections_loaded_bothWays : (∀ s t, s ≠ t → Loaded bothWays (prepareIntervals bothWaysSorted) s t) ∧
    ∀ edge ∈ prepareIntervals bothWaysSorted, edge.source ≠ edge.target ∧ edge.data.weight ≠ INVALID_EDGE_WEIGHT :=
  cheapest_connections_loaded (by simp [OneWay,bothWays]) bothWays_prepared

def emptyEdge : EdgeBasedEdge := ⟨0,0,⟨0,0,0,0,false,false⟩⟩
def forwardOnly (edge : EdgeBasedEdge) : EdgeBasedEdge := { edge with data := { edge.data with forward := true,backward := false } }
def writeEdge (edges : List EdgeBasedEdge) (edge : EdgeBasedEdge) : List EdgeBasedEdge :=
  if edge.data.forward then edges.set edge.data.turn_id (forwardOnly edge) else edges
/-- `graphToEdges`, for the order in which the tasks visit the edges. The number of slots is taken in 32 bits. -/
def graphToEdges (visited : List EdgeBasedEdge) : List EdgeBasedEdge :=
  let max_turn_id := visited.foldl (fun max_turn_id edge => max max_turn_id edge.data.turn_id) 0
  visited.foldl writeEdge (replicate ((max_turn_id + 1) % 2 ^ 32) emptyEdge)
def filled (edge : EdgeBasedEdge) : Bool := !sameEnds 0 0 edge

private theorem filter_set {α : Type} {p : α → Bool} {l : List α} {i : ℕ} {old new : α} (there : l[i]? = some old) (before : p old = false)
    (after : p new = true) : ((l.set i new).filter p).Perm (new :: l.filter p) := by
  induction l generalizing i with
  | nil => simp at there
  | cons a l ih =>
    cases i with
    | zero =>
      have same : a = old := by simpa using there
      rw [set_cons_zero,filter_cons_of_pos after,filter_cons_of_neg (by simp [same,before])]
    | succ i =>
      have tail := ih (by simpa using there)
      rw [set_cons_succ]
      cases holds : p a with
      | true =>
        rw [filter_cons_of_pos holds,filter_cons_of_pos holds]
        exact (tail.cons a).trans (List.Perm.swap _ _ _)
      | false => rwa [filter_cons_of_neg (by simp [holds]),filter_cons_of_neg (by simp [holds])]

private theorem foldl_writeEdge (visited slots : List EdgeBasedEdge) (loopless : ∀ edge ∈ visited, edge.source ≠ edge.target)
    (distinct : (visited.filter (·.data.forward)).Pairwise fun a b => a.data.turn_id ≠ b.data.turn_id)
    (free : ∀ edge ∈ visited, edge.data.forward = true → slots[edge.data.turn_id]? = some emptyEdge) :
    ((visited.foldl writeEdge slots).filter filled).Perm
      (slots.filter filled ++ (visited.filter (·.data.forward)).map forwardOnly) := by
  induction visited generalizing slots with
  | nil => simp
  | cons edge visited ih =>
    have loopless' := fun other member => loopless other (mem_cons_of_mem _ member)
    rw [foldl_cons,writeEdge]
    cases forward : edge.data.forward with
    | false =>
      rw [filter_cons_of_neg (by simp [forward])] at distinct ⊢
      exact ih slots loopless' distinct fun other member => free other (mem_cons_of_mem _ member)
    | true =>
      rw [filter_cons_of_pos (by simpa using forward)] at distinct ⊢
      obtain ⟨fresh,distinct'⟩ := pairwise_cons.mp distinct
      rw [if_pos rfl]
      have written := filter_set (free edge mem_cons_self forward) (show filled emptyEdge = false by decide)
        (show filled (forwardOnly edge) = true by
          have apart := loopless edge mem_cons_self
          simp only [filled,Bool.not_eq_true',← Bool.not_eq_true,sameEnds_iff,forwardOnly]
          exact fun ends => apart (ends.1.trans ends.2.symm))
      have rest := ih (slots.set edge.data.turn_id (forwardOnly edge)) loopless' distinct' (by
        intro other member usable
        rw [getElem?_set_ne (fresh other (mem_filter.mpr ⟨member,usable⟩))]
        exact free other (mem_cons_of_mem _ member) usable)
      refine rest.trans ((written.append_right _).trans ?_)
      rw [map_cons,cons_append]
      exact perm_middle.symm

private theorem le_max_turn_id (visited : List EdgeBasedEdge) (start : NodeID) :
    start ≤ visited.foldl (fun max_turn_id edge => max max_turn_id edge.data.turn_id) start ∧
      ∀ edge ∈ visited, edge.data.turn_id ≤ visited.foldl (fun max_turn_id edge => max max_turn_id edge.data.turn_id) start := by
  induction visited generalizing start with
  | nil => simp
  | cons first visited ih =>
    obtain ⟨above,all⟩ := ih (max start first.data.turn_id)
    rw [foldl_cons,forall_mem_cons]
    exact ⟨(le_max_left _ _).trans above,(le_max_right _ _).trans above,all⟩

private theorem max_turn_id_lt {bound : NodeID} (visited : List EdgeBasedEdge) (below : ∀ edge ∈ visited, edge.data.turn_id < bound)
    (start : NodeID) (low : start < bound) :
    visited.foldl (fun max_turn_id edge => max max_turn_id edge.data.turn_id) start < bound := by
  induction visited generalizing start with
  | nil => exact low
  | cons first visited ih =>
    rw [forall_mem_cons] at below
    exact ih below.2 _ (max_lt low below.1)

private theorem graphToEdges_filled {visited : List EdgeBasedEdge} (loopless : ∀ edge ∈ visited, edge.source ≠ edge.target)
    (distinct : (visited.filter (·.data.forward)).Pairwise fun a b => a.data.turn_id ≠ b.data.turn_id)
    (ids : ∀ edge ∈ visited, edge.data.turn_id < SPECIAL_NODEID) :
    ((graphToEdges visited).filter filled).Perm ((visited.filter (·.data.forward)).map forwardOnly) := by
  have below := max_turn_id_lt visited ids 0 (by decide)
  have above := (le_max_turn_id visited 0).2
  unfold graphToEdges
  dsimp only
  generalize visited.foldl (fun max_turn_id edge => max max_turn_id edge.data.turn_id) 0 = max_turn_id at below above ⊢
  have size : (max_turn_id + 1) % 2 ^ 32 = max_turn_id + 1 := by
    rw [SPECIAL_NODEID] at below
    lia
  rw [size]
  have written := foldl_writeEdge visited (replicate (max_turn_id + 1) emptyEdge) loopless distinct fun edge member _ => by
    rw [getElem?_replicate,if_pos (Nat.lt_succ_of_le (above edge member))]
  have empty : (replicate (max_turn_id + 1) emptyEdge).filter filled = [] := by
    rw [filter_eq_nil_iff]
    intro edge member
    rw [eq_of_mem_replicate member]
    decide
  rwa [empty,nil_append] at written

private theorem split_filled (edges : List EdgeBasedEdge) :
    (splitBidirectionalEdges edges).filter filled = splitBidirectionalEdges (edges.filter filled) := by
  induction edges with
  | nil => rfl
  | cons edge edges ih =>
    have split : (splitEdge edge).filter filled = if filled edge then splitEdge edge else [] := by
      by_cases invalid : edge.data.weight = INVALID_EDGE_WEIGHT
      · simp [splitEdge,invalid]
      · have ends : ∀ data, filled ⟨edge.source,edge.target,data⟩ = filled edge ∧ filled ⟨edge.target,edge.source,data⟩ = filled edge :=
          fun data => ⟨rfl,by simp [filled,sameEnds,Bool.and_comm]⟩
        cases used : filled edge with
        | true => simp [splitEdge,invalid,ends,used]
        | false => simp [splitEdge,invalid,ends,used]
    unfold splitBidirectionalEdges at ih ⊢
    rw [flatMap_cons,filter_append,ih,split]
    cases used : filled edge with
    | true => rw [filter_cons_of_pos used,flatMap_cons,if_pos rfl]
    | false => simp [used]

private theorem prepareIntervals_dropWhile (s : NodeID) (sorted : List EdgeBasedEdge) :
    prepareIntervals (sorted.dropWhile (sameEnds s s)) = prepareIntervals sorted := by
  cases sorted with
  | nil => rfl
  | cons first rest =>
    cases loop : sameEnds s s first with
    | false => rw [dropWhile_cons_of_neg (by simp [loop])]
    | true =>
      obtain ⟨source,target⟩ := sameEnds_iff.mp loop
      rw [dropWhile_cons_of_pos loop,prepareIntervals]
      simp [mergeInterval,source,target]

private theorem prepared_filled (prepared : Prepared (splitBidirectionalEdges edges) graph) :
    Prepared (splitBidirectionalEdges (edges.filter filled)) graph := by
  obtain ⟨sorted,sorting,rfl⟩ := prepared
  have falling : Falling (sameEnds 0 0) sorted := by
    refine sorting.ordered.imp fun {a b} order empty => ?_
    rw [sameEnds_iff] at empty ⊢
    simp only [before,Bool.or_eq_false_iff,Bool.and_eq_false_iff,decide_eq_false_iff_not,beq_eq_false_iff_ne,empty.1,empty.2] at order
    lia
  refine ⟨sorted.filter filled,⟨?_,sorting.ordered.filter _⟩,?_⟩
  · rw [← split_filled]
    exact sorting.perm.filter _
  · rw [← prepareIntervals_dropWhile 0,dropWhile_eq_filter falling]
    rfl

private theorem prepared_perm {edges' : List EdgeBasedEdge} (perm : edges.Perm edges') (prepared : Prepared (splitBidirectionalEdges edges) graph) :
    Prepared (splitBidirectionalEdges edges') graph := by
  obtain ⟨sorted,sorting,same⟩ := prepared
  exact ⟨sorted,⟨sorting.perm.trans (perm.flatMap_right _),sorting.ordered⟩,same⟩

/-! ### What is loaded again -/

/-- Edges that are usable in one direction each, with turn ids of their own. -/
structure Input (edges : List EdgeBasedEdge) : Prop where
  oneWay : OneWay edges
  distinct : (edges.map (·.data.turn_id)).Nodup
  ids : ∀ edge ∈ edges, edge.data.turn_id < SPECIAL_NODEID

private theorem Input.turn_ids (input : Input edges) (prepared : Prepared (splitBidirectionalEdges edges) graph) :
    ∀ edge ∈ graph, edge.data.turn_id < SPECIAL_NODEID := by
  obtain ⟨sorted,sorting,rfl⟩ := prepared
  intro edge member
  obtain ⟨origin,inside,turn,_⟩ := prepareIntervals_origin edge member
  obtain ⟨x,known,_,rfl | rfl⟩ := mem_split.mp (sorting.perm.mem_iff.mp inside)
  all_goals
    rw [turn]
    exact input.ids x known

private theorem leads_unique (oneWay : edge.data.backward = !edge.data.forward) {s' t' : NodeID} (one : leads s t edge) (two : leads s' t' edge) :
    s = s' ∧ t = t' := by
  obtain ⟨source,target⟩ := (orient_spec oneWay).2.2.2.mpr one
  obtain ⟨source',target'⟩ := (orient_spec oneWay).2.2.2.mpr two
  exact ⟨source.symm.trans source',target.symm.trans target'⟩

private theorem Input.forward_distinct (input : Input edges) (prepared : Prepared (splitBidirectionalEdges edges) graph) :
    (graph.filter (·.data.forward)).Pairwise fun a b => a.data.turn_id ≠ b.data.turn_id := by
  obtain ⟨sorted,sorting,rfl⟩ := prepared
  rw [pairwise_iff_forall_sublist]
  intro a b pair turns
  have origin : ∀ edge ∈ [a,b], edge ∈ forwardEdges (prepareIntervals sorted) edge.source edge.target ∧
      ∃ original, Cheapest edges edge.source edge.target original ∧ edge.data.turn_id = original.data.turn_id := by
    intro edge member
    obtain ⟨known,forward⟩ := mem_filter.mp (pair.subset member)
    have stored := mem_forwardEdges.mpr ⟨known,rfl,rfl,forward⟩
    obtain ⟨original,cheapest,same⟩ :=
      (loaded_of_sorted (prepareIntervals_apart edge known) input.oneWay sorting).cheapest edge stored
    exact ⟨stored,original,cheapest,congrArg (·.2.2.2.2.2) same⟩
  obtain ⟨storedA,x,cheapestA,turnA⟩ := origin a (by simp)
  obtain ⟨_,y,cheapestB,turnB⟩ := origin b (by simp)
  have same : x = y := inj_on_of_nodup_map input.distinct cheapestA.member cheapestB.member (by rw [← turnA,← turnB,turns])
  subst same
  obtain ⟨source,target⟩ := leads_unique (input.oneWay x cheapestA.member) cheapestA.leads cheapestB.leads
  have both := pair.filter (sameEnds a.source a.target)
  rw [filter_filter,filter_cons_of_pos (by simp [sameEnds]),filter_cons_of_pos (by simp [sameEnds,source,target]),
    filter_nil] at both
  have once := (loaded_of_sorted (prepareIntervals_apart a (mem_forwardEdges.mp storedA).1) input.oneWay sorting).forward_once
  exact absurd (both.length_le.trans once) (by simp)

/-- Both graphs have the same forward edges and the same backward weights, and the second has no other edges. -/
structure SameConnections (graph reread : List EdgeBasedEdge) : Prop where
  forward : ((reread.filter (·.data.forward)).map content).Perm ((graph.filter (·.data.forward)).map content)
  backward : ∀ s t, (backwardEdges reread s t).map (·.data.weight) = (backwardEdges graph s t).map (·.data.weight)
  used : ∀ edge ∈ reread, edge.source ≠ edge.target ∧ (edge.data.forward = true ∨ edge.data.backward = true)

private theorem contents_again {written reread : List EdgeBasedEdge} (loaded : Loaded edges graph s t) (again : Loaded written reread s t)
    (valid : ∀ edge ∈ graph, edge.data.weight ≠ INVALID_EDGE_WEIGHT)
    (mem_written : ∀ edge, edge ∈ written ↔ ∃ stored ∈ graph, stored.data.forward = true ∧ forwardOnly stored = edge) :
    (forwardEdges reread s t).map content = (forwardEdges graph s t).map content := by
  have stored_of : ∀ edge ∈ written, leads s t edge → ∃ stored ∈ forwardEdges graph s t, forwardOnly stored = edge := by
    intro edge member leads
    obtain ⟨stored,known,forward,rfl⟩ := (mem_written edge).mp member
    cases leads with
    | inl ends => exact ⟨stored,mem_forwardEdges.mpr ⟨known,ends.1,ends.2.1,forward⟩,rfl⟩
    | inr ends => simp [forwardOnly] at ends
  cases one : forwardEdges graph s t with
  | nil =>
    have nothing : forwardEdges reread s t = [] := by
      by_contra something
      obtain ⟨edge,member,_,leads⟩ := again.stored_iff.mp something
      obtain ⟨stored,inside,_⟩ := stored_of edge member leads
      rw [one] at inside
      exact absurd inside not_mem_nil
    rw [nothing]
  | cons stored rest =>
    have alone : rest = [] := by
      have once := loaded.forward_once
      rw [one] at once
      simpa using once
    subst alone
    obtain ⟨known,source,target,forward⟩ := mem_forwardEdges.mp (show stored ∈ forwardEdges graph s t by simp [one])
    obtain ⟨original,_,same⟩ := loaded.cheapest stored (by simp [one])
    have weight : max stored.data.weight 1 = stored.data.weight := by
      have positive : stored.data.weight = storedWeight original := congrArg (·.2.2.1) same
      rw [positive,storedWeight,max_assoc,max_self]
    have something : forwardEdges reread s t ≠ [] :=
      again.stored_iff.mpr ⟨forwardOnly stored,(mem_written _).mpr ⟨stored,known,forward,rfl⟩,valid stored known,.inl ⟨source,target,rfl⟩⟩
    obtain ⟨stored',one'⟩ := length_eq_one_iff.mp
      (Nat.le_antisymm again.forward_once (length_pos_iff.mpr something))
    obtain ⟨edge,cheapest,same'⟩ := again.cheapest stored' (by simp [one'])
    obtain ⟨x,inside,rfl⟩ := stored_of edge cheapest.member cheapest.leads
    have this : x = stored := by simpa [one] using inside
    rw [one',map_singleton,map_singleton,same',this]
    simp [content,forwardOnly,storedWeight,weight,source,target]

private theorem perm_of_contents {reread : List EdgeBasedEdge} (loopless : ∀ edge ∈ graph, edge.source ≠ edge.target)
    (loopless' : ∀ edge ∈ reread, edge.source ≠ edge.target)
    (same : ∀ s t, s ≠ t → (forwardEdges reread s t).map content = (forwardEdges graph s t).map content) :
    ((reread.filter (·.data.forward)).map content).Perm ((graph.filter (·.data.forward)).map content) := by
  have cut : ∀ (l : List EdgeBasedEdge) s t, ((l.filter (·.data.forward)).map content).filter (fun c => c.1 == s && c.2.1 == t) =
      (forwardEdges l s t).map content := by
    intro l s t
    rw [filter_map,filter_filter]
    rfl
  have no_loop : ∀ l : List EdgeBasedEdge, (∀ edge ∈ l, edge.source ≠ edge.target) → ∀ s, forwardEdges l s s = [] := by
    intro l apart s
    rw [eq_nil_iff_forall_not_mem]
    intro edge member
    obtain ⟨known,source,target,_⟩ := mem_forwardEdges.mp member
    exact apart edge known (source.trans target.symm)
  refine perm_iff_count.mpr fun c => ?_
  rw [← count_filter (p := fun c' => c'.1 == c.1 && c'.2.1 == c.2.1) (by simp),cut,
    ← count_filter (p := fun c' => c'.1 == c.1 && c'.2.1 == c.2.1) (l := (graph.filter (·.data.forward)).map content) (by simp),cut]
  by_cases loop : c.1 = c.2.1
  · rw [← loop,no_loop reread loopless',no_loop graph loopless]
  · rw [same _ _ loop]

/-- Writing the graph and loading it again keeps it, in whatever order the tasks come to its edges. -/
theorem written_graph_loaded_again {visited reread : List EdgeBasedEdge} (input : Input edges)
    (prepared : Prepared (splitBidirectionalEdges edges) graph) (order : visited.Perm graph)
    (again : Prepared (splitBidirectionalEdges (graphToEdges visited)) reread) : SameConnections graph reread := by
  have loopless : ∀ edge ∈ graph, edge.source ≠ edge.target := by
    obtain ⟨sorted,_,rfl⟩ := prepared
    exact prepareIntervals_apart
  have valid : ∀ edge ∈ graph, edge.data.weight ≠ INVALID_EDGE_WEIGHT := by
    obtain ⟨sorted,sorting,rfl⟩ := prepared
    exact weight_valid sorting
  have distinct := ((order.filter _).pairwise_iff fun different => different.symm).mpr (input.forward_distinct prepared)
  have slots := graphToEdges_filled (fun edge member => loopless edge (order.subset member)) distinct
    fun edge member => input.turn_ids prepared edge (order.subset member)
  have written := prepared_perm (slots.trans ((order.filter _).map _)) (prepared_filled again)
  have directed : Directed ((graph.filter (·.data.forward)).map forwardOnly) := by
    intro edge member
    obtain ⟨stored,_,rfl⟩ := mem_map.mp member
    exact ⟨rfl,rfl⟩
  have oneWay : OneWay ((graph.filter (·.data.forward)).map forwardOnly) := fun edge member => by simp [directed edge member]
  have mem_written : ∀ edge, edge ∈ (graph.filter (·.data.forward)).map forwardOnly ↔
      ∃ stored ∈ graph, stored.data.forward = true ∧ forwardOnly stored = edge := by
    simp [and_assoc]
  obtain ⟨sorted,sorting,same⟩ := prepared
  obtain ⟨sorted',sorting',same'⟩ := written
  have contents : ∀ s t, s ≠ t → (forwardEdges reread s t).map content = (forwardEdges graph s t).map content := by
    intro s t apart
    have loaded := loaded_of_sorted apart input.oneWay sorting
    have loaded' := loaded_of_sorted apart oneWay sorting'
    rw [← same] at loaded
    rw [← same'] at loaded'
    exact contents_again loaded loaded' valid mem_written
  have loopless' : ∀ edge ∈ reread, edge.source ≠ edge.target := by
    rw [same']
    exact prepareIntervals_apart
  refine ⟨perm_of_contents loopless loopless' contents,fun t s => ?_,fun edge member => ⟨loopless' edge member,?_⟩⟩
  · by_cases loop : s = t
    · have nothing : ∀ l : List EdgeBasedEdge, (∀ edge ∈ l, edge.source ≠ edge.target) → backwardEdges l t s = [] := by
        intro l apart
        rw [eq_nil_iff_forall_not_mem]
        intro edge inside
        obtain ⟨known,source,target,_⟩ := mem_backwardEdges.mp inside
        exact apart edge known (source.trans (loop.symm.trans target.symm))
      rw [nothing reread loopless',nothing graph loopless]
    · have loaded := loaded_of_sorted loop input.oneWay sorting
      have loaded' := loaded_of_sorted loop oneWay sorting'
      rw [← same] at loaded
      rw [← same'] at loaded'
      have weights := congrArg (List.map (·.2.2.1)) (contents s t loop)
      simp only [map_map] at weights
      rw [loaded'.mirrored,loaded.mirrored]
      exact weights
  · rw [same'] at member
    obtain ⟨origin,inside,_,_,forward,backward⟩ := prepareIntervals_origin edge member
    have flags := split_oneWay directed origin (sorting'.perm.mem_iff.mp inside)
    rw [forward]
    cases usable : origin.data.forward with
    | true => exact .inl rfl
    | false => exact .inr (backward (by simp [flags,usable]))

private theorem bothWays_again : Prepared (splitBidirectionalEdges (graphToEdges (prepareIntervals bothWaysSorted)))
    (prepareIntervals (⟨0,0,⟨0,1,0,0,false,false⟩⟩ :: ⟨0,0,⟨0,1,0,0,false,false⟩⟩ :: bothWaysSorted)) := by
  have graph : prepareIntervals bothWaysSorted = [⟨0,1,⟨0,3,0,0,true,true⟩⟩,⟨1,0,⟨2,3,0,0,true,true⟩⟩] := by
    simp [bothWaysSorted,prepareIntervals,mergeInterval,sameEnds]
  rw [graph]
  exact ⟨_,⟨by decide,by decide⟩,rfl⟩

theorem written_graph_loaded_again_bothWays : SameConnections (prepareIntervals bothWaysSorted)
    (prepareIntervals (⟨0,0,⟨0,1,0,0,false,false⟩⟩ :: ⟨0,0,⟨0,1,0,0,false,false⟩⟩ :: bothWaysSorted)) :=
  written_graph_loaded_again ⟨by simp [OneWay,bothWays],by decide,by decide⟩ bothWays_prepared (.refl _) bothWays_again

end Osrm.LoadedGraph
