import Mathlib.Data.List.TakeWhile
import Mathlib.Data.List.Find
import Mathlib.Data.List.Sort
import Mathlib.Data.Prod.Lex
import Osrm.Typedefs

/-!
`partitioner/edge_based_graph_reader.hpp`. Every edge is stored at both of its ends, parallel edges are reduced to the
lightest one of either direction, and two directions of the same weight are merged into one edge with a single turn
id.
-/
namespace Osrm.EdgeBasedGraph
open List Option
open Typedefs

/-- `EdgeBasedEdge::EdgeData`. -/
structure EdgeData where
  turn_id : NodeID
  weight : EdgeWeight
  distance : EdgeDistance
  duration : EdgeDuration
  forward : Bool
  backward : Bool
  deriving DecidableEq, Repr

structure EdgeBasedEdge where
  source : NodeID
  target : NodeID
  data : EdgeData
  deriving DecidableEq, Repr

/-- The two edges that `splitBidirectionalEdges` makes of an edge. -/
def splitEdge (edge : EdgeBasedEdge) : List EdgeBasedEdge :=
  if edge.data.weight == INVALID_EDGE_WEIGHT then []
  else [⟨edge.source,edge.target,{ edge.data with weight := max edge.data.weight 1 }⟩,
    ⟨edge.target,edge.source,{ edge.data with
      weight := max edge.data.weight 1,forward := edge.data.backward,backward := edge.data.forward }⟩]

def splitBidirectionalEdges (edges : List EdgeBasedEdge) : List EdgeBasedEdge := edges.flatMap splitEdge

/-- The order of `prepareEdgesForUsageInGraph`: source, target, forward ones first, weight. -/
def before (lhs rhs : EdgeBasedEdge) : Bool :=
  lhs.source < rhs.source || lhs.source == rhs.source &&
    (lhs.target < rhs.target || lhs.target == rhs.target &&
      (!rhs.data.forward && lhs.data.forward || rhs.data.forward == lhs.data.forward &&
        lhs.data.weight < rhs.data.weight))

/-- A possible result of `std::sort`. -/
structure Sorted (edges sorted : List EdgeBasedEdge) : Prop where
  perm : sorted.Perm edges
  ordered : sorted.Pairwise fun a b => before b a = false

def sameEnds (source target : NodeID) (edge : EdgeBasedEdge) : Bool := edge.source == source && edge.target == target

/-- The edges made of an interval of edges with the same ends, of which `first` is the first. -/
def mergeInterval (first : EdgeBasedEdge) (interval : List EdgeBasedEdge) : List EdgeBasedEdge :=
  if first.source == first.target then []
  else
    match interval.find? (·.data.backward) with
    | none => [first]
    | some first_backward =>
      if first.data.backward then [first_backward]
      else if first.data.weight == first_backward.data.weight then
        [{ first with data := { first.data with backward := true } }]
      else [first,first_backward]

/-- The loop of `prepareEdgesForUsageInGraph` over the sorted edges. -/
def prepareIntervals : List EdgeBasedEdge → List EdgeBasedEdge
  | [] => []
  | first :: rest =>
    mergeInterval first (first :: rest.takeWhile (sameEnds first.source first.target)) ++
      prepareIntervals (rest.dropWhile (sameEnds first.source first.target))
  termination_by edges => edges.length
  decreasing_by
    exact Nat.lt_succ_of_le (dropWhile_sublist _).length_le

/-- A possible result of `prepareEdgesForUsageInGraph`. -/
def Prepared (edges output_edges : List EdgeBasedEdge) : Prop :=
  ∃ sorted, Sorted edges sorted ∧ output_edges = prepareIntervals sorted

/-! ### What is stored for a pair of nodes -/

/-- The edges stored for two nodes, of which the given ones are the first forward and backward edge. -/
def merged : Option EdgeBasedEdge → Option EdgeBasedEdge → List EdgeBasedEdge
  | none, none => []
  | some first, none => [first]
  | none, some first_backward => [first_backward]
  | some first, some first_backward =>
    if first.data.weight == first_backward.data.weight then
      [{ first with data := { first.data with backward := true } }]
    else [first,first_backward]

variable {edges sorted : List EdgeBasedEdge} {u v : NodeID}

def OneWay (edges : List EdgeBasedEdge) : Prop := ∀ e ∈ edges, e.data.backward = !e.data.forward

variable {e : EdgeBasedEdge}

theorem sameEnds_iff : sameEnds u v e = true ↔ e.source = u ∧ e.target = v := by
  simp [sameEnds]

variable {first : EdgeBasedEdge}

private theorem mergeInterval_eq {interval : List EdgeBasedEdge}
    (apart : first.source ≠ first.target) (oneWay : OneWay (first :: interval))
    (ends : ∀ e ∈ interval, e.source = first.source ∧ e.target = first.target)
    (ordered : (first :: interval).Pairwise fun a b => before b a = false) :
    mergeInterval first (first :: interval) =
      merged ((first :: interval).find? (·.data.forward)) ((first :: interval).find? (·.data.backward)) := by
  have direction := oneWay first (by simp)
  cases forward : first.data.forward with
  | true =>
    rw [forward] at direction
    cases found : (first :: interval).find? (·.data.backward) with
    | none => simp [mergeInterval,found,apart,forward,merged]
    | some first_backward => simp [mergeInterval,found,apart,forward,direction,merged]
  | false =>
    rw [forward] at direction
    have none_forward : ∀ e ∈ interval, e.data.forward = false := by
      intro e member
      have later := (pairwise_cons.mp ordered).1 e member
      by_contra other
      simp [before,ends e member,forward,other] at later
    have missing : (first :: interval).find? (·.data.forward) = none := by
      rw [find?_eq_none]
      intro e member
      rcases mem_cons.mp member with rfl | later
      · simp [forward]
      · simp [none_forward e later]
    have found : (first :: interval).find? (·.data.backward) = some first := by simp [direction]
    rw [missing,found]
    simp [mergeInterval,apart,direction,merged]

private theorem mergeInterval_ends {interval : List EdgeBasedEdge}
    (ends : ∀ e ∈ interval, e.source = first.source ∧ e.target = first.target) :
    ∀ e ∈ mergeInterval first (first :: interval), e.source = first.source ∧ e.target = first.target := by
  intro e member
  unfold mergeInterval at member
  split at member
  · simp at member
  · split at member
    · cases mem_singleton.mp member
      exact ⟨rfl,rfl⟩
    · rename_i first_backward found
      have backwardEnds : first_backward.source = first.source ∧ first_backward.target = first.target := by
        rcases mem_cons.mp (mem_of_find?_eq_some found) with rfl | later
        · exact ⟨rfl,rfl⟩
        · exact ends _ later
      split at member
      · cases mem_singleton.mp member
        exact backwardEnds
      · split at member
        · cases mem_singleton.mp member
          exact ⟨rfl,rfl⟩
        · rcases mem_cons.mp member with rfl | second
          · exact ⟨rfl,rfl⟩
          · cases mem_singleton.mp second
            exact backwardEnds

private theorem dropWhile_other {rest : List EdgeBasedEdge}
    (ordered : (first :: rest).Pairwise fun a b => before b a = false) :
    ∀ e ∈ rest.dropWhile (sameEnds first.source first.target), sameEnds first.source first.target e = false := by
  cases left : rest.dropWhile (sameEnds first.source first.target) with
  | nil => simp
  | cons next later =>
    have other : sameEnds first.source first.target next = false := by
      have filled : rest.dropWhile (sameEnds first.source first.target) ≠ [] := by simp [left]
      have head := head_dropWhile_not (sameEnds first.source first.target) filled
      simpa [left] using head
    have sub : (first :: next :: later).Sublist (first :: rest) :=
      (left ▸ dropWhile_sublist _ : (next :: later).Sublist rest).cons_cons first
    have sortedTail := ordered.sublist sub
    obtain ⟨fromFirst,tail⟩ := pairwise_cons.mp sortedTail
    obtain ⟨fromNext,_⟩ := pairwise_cons.mp tail
    intro e member
    rcases mem_cons.mp member with rfl | behind
    · exact other
    · have one := fromFirst next (by simp)
      have two := fromNext e behind
      by_contra same
      obtain ⟨source,target⟩ := sameEnds_iff.mp (by simpa using same)
      simp only [sameEnds,Bool.and_eq_false_iff,beq_eq_false_iff_ne] at other
      simp only [before,Bool.or_eq_false_iff,Bool.and_eq_false_iff,decide_eq_false_iff_not,beq_eq_false_iff_ne,
        source,target] at one two
      lia

theorem prepareIntervals_at (apart : u ≠ v) (oneWay : OneWay sorted)
    (ordered : sorted.Pairwise fun a b => before b a = false) :
    (prepareIntervals sorted).filter (sameEnds u v) =
      merged (sorted.find? fun e => sameEnds u v e && e.data.forward)
        (sorted.find? fun e => sameEnds u v e && e.data.backward) := by
  induction sorted using prepareIntervals.induct with
  | case1 => simp [prepareIntervals,merged]
  | case2 first rest ih =>
    have tailOrdered : (rest.dropWhile (sameEnds first.source first.target)).Pairwise fun a b => before b a = false :=
      (pairwise_cons.mp ordered).2.sublist (dropWhile_sublist _)
    have tailOneWay : OneWay (rest.dropWhile (sameEnds first.source first.target)) :=
      fun e member => oneWay e (mem_cons_of_mem _ ((dropWhile_sublist _).subset member))
    have tail := ih tailOneWay tailOrdered
    have interval : ∀ e ∈ rest.takeWhile (sameEnds first.source first.target),
        e.source = first.source ∧ e.target = first.target :=
      fun e member => sameEnds_iff.mp (mem_takeWhile_imp member)
    have ends := mergeInterval_ends interval
    have whole : first :: rest = (first :: rest.takeWhile (sameEnds first.source first.target)) ++
        rest.dropWhile (sameEnds first.source first.target) := by simp
    rw [prepareIntervals,filter_append,tail]
    by_cases here : first.source = u ∧ first.target = v
    · obtain ⟨rfl,rfl⟩ := here
      have inside : ∀ e ∈ first :: rest.takeWhile (sameEnds first.source first.target),
          sameEnds first.source first.target e = true := by
        intro e member
        rcases mem_cons.mp member with rfl | later
        · simp [sameEnds]
        · exact mem_takeWhile_imp later
      have none_left : ∀ p : EdgeBasedEdge → Bool, (rest.dropWhile (sameEnds first.source first.target)).find?
          (fun e => sameEnds first.source first.target e && p e) = none := by
        intro p
        rw [find?_eq_none]
        intro e member
        simp [dropWhile_other ordered e member]
      have found : ∀ p : EdgeBasedEdge → Bool, (first :: rest).find? (fun e => sameEnds first.source first.target e && p e) =
          (first :: rest.takeWhile (sameEnds first.source first.target)).find? p := by
        intro p
        rw [whole,find?_append,none_left,or_none]
        exact find?_congr fun e member => by simp [inside e member]
      rw [none_left,none_left,found,found,filter_eq_self.mpr fun e member => sameEnds_iff.mpr (ends e member)]
      rw [mergeInterval_eq apart (fun e member => oneWay e (whole ▸ mem_append_left _ member)) interval
        (ordered.sublist (whole ▸ sublist_append_left _ _))]
      simp [merged]
    · have other : ∀ e ∈ first :: rest.takeWhile (sameEnds first.source first.target), sameEnds u v e = false := by
        intro e member
        rcases mem_cons.mp member with rfl | later
        · simpa [sameEnds] using here
        · simpa [sameEnds,interval e later] using here
      have skipped : ∀ p : EdgeBasedEdge → Bool, (first :: rest).find? (fun e => sameEnds u v e && p e) =
          (rest.dropWhile (sameEnds first.source first.target)).find? (fun e => sameEnds u v e && p e) := by
        intro p
        have none_there : (first :: rest.takeWhile (sameEnds first.source first.target)).find?
            (fun e => sameEnds u v e && p e) = none := by
          rw [find?_eq_none]
          intro e member
          simp [other e member]
        rw [whole,find?_append,none_there,none_or]
      rw [skipped,skipped,filter_eq_nil_iff.mpr,nil_append]
      intro e member
      simpa [sameEnds,ends e member] using here

/-- Loops are not kept. -/
theorem prepareIntervals_apart : ∀ e ∈ prepareIntervals sorted, e.source ≠ e.target := by
  induction sorted using prepareIntervals.induct with
  | case1 => simp [prepareIntervals]
  | case2 first rest ih =>
    intro e member
    rw [prepareIntervals] at member
    rcases mem_append.mp member with here | later
    · obtain ⟨source,target⟩ :=
        mergeInterval_ends (fun e member => sameEnds_iff.mp (mem_takeWhile_imp member)) e here
      rw [source,target]
      intro same
      simp [mergeInterval,same] at here
    · exact ih e later

/-- The flag of a direction. -/
def EdgeData.usable (data : EdgeData) : Direction → Bool
  | .FORWARD => data.forward
  | .REVERSE => data.backward

section relax
variable (GetNodeWeight GetWeightPenaltyForEdgeID : NodeID → EdgeWeight)

/-- What `mld::relaxOutgoingEdges` adds: the weight of the node that is entered and the penalty of the turn. -/
def relaxWeight (direction : Direction) (edge : EdgeBasedEdge) : EdgeWeight :=
  GetNodeWeight (match direction with | .FORWARD => edge.source | .REVERSE => edge.target) +
    GetWeightPenaltyForEdgeID edge.data.turn_id
/-- The weights that a search adds when it goes from a node to another one. -/
def addedWeights (direction : Direction) (graph : List EdgeBasedEdge) (node other : NodeID) : List EdgeWeight :=
  (graph.filter fun e => sameEnds node other e && e.data.usable direction).map
    (relaxWeight GetNodeWeight GetWeightPenaltyForEdgeID direction)
def Agree (graph : List EdgeBasedEdge) : Prop :=
  ∀ u v, addedWeights GetNodeWeight GetWeightPenaltyForEdgeID .FORWARD graph u v =
    addedWeights GetNodeWeight GetWeightPenaltyForEdgeID .REVERSE graph v u

variable {GetNodeWeight GetWeightPenaltyForEdgeID}

private theorem added_eq {direction : Direction} (apart : u ≠ v) (oneWay : OneWay sorted)
    (ordered : sorted.Pairwise fun a b => before b a = false) :
    addedWeights GetNodeWeight GetWeightPenaltyForEdgeID direction (prepareIntervals sorted) u v =
      ((merged (sorted.find? fun e => sameEnds u v e && e.data.forward)
        (sorted.find? fun e => sameEnds u v e && e.data.backward)).filter (·.data.usable direction)).map
        (relaxWeight GetNodeWeight GetWeightPenaltyForEdgeID direction) := by
  rw [← prepareIntervals_at apart oneWay ordered,List.filter_filter]
  simp only [addedWeights,Bool.and_comm]

private theorem mem_of_find {flag : EdgeBasedEdge → Bool}
    (found : sorted.find? (fun e => sameEnds u v e && flag e) = some e) : e ∈ sorted ∧ e.source = u ∧ e.target = v ∧ flag e = true := by
  have holds := find?_some found
  simp only [Bool.and_eq_true,sameEnds_iff] at holds
  exact ⟨mem_of_find?_eq_some found,holds.1.1,holds.1.2,holds.2⟩

theorem find_flags (oneWay : OneWay sorted) :
    (sorted.find? (fun e => sameEnds u v e && e.data.forward) = some e →
      e ∈ sorted ∧ e.source = u ∧ e.target = v ∧ e.data.forward = true ∧ e.data.backward = false) ∧
    (sorted.find? (fun e => sameEnds u v e && e.data.backward) = some e →
      e ∈ sorted ∧ e.source = u ∧ e.target = v ∧ e.data.forward = false ∧ e.data.backward = true) := by
  constructor
  · intro found
    obtain ⟨member,source,target,forward⟩ := mem_of_find found
    have flag := oneWay e member
    exact ⟨member,source,target,forward,by simp [flag,forward]⟩
  · intro found
    obtain ⟨member,source,target,backward⟩ := mem_of_find found
    have flag := oneWay e member
    exact ⟨member,source,target,by simpa [backward] using flag,backward⟩

private theorem added_forward (apart : u ≠ v) (oneWay : OneWay sorted)
    (ordered : sorted.Pairwise fun a b => before b a = false) :
    addedWeights GetNodeWeight GetWeightPenaltyForEdgeID .FORWARD (prepareIntervals sorted) u v =
      (sorted.find? fun e => sameEnds u v e && e.data.forward).toList.map
        fun e => GetNodeWeight u + GetWeightPenaltyForEdgeID e.data.turn_id := by
  rw [added_eq apart oneWay ordered]
  cases forward : sorted.find? (fun e => sameEnds u v e && e.data.forward) with
  | none =>
    cases backward : sorted.find? (fun e => sameEnds u v e && e.data.backward) with
    | none => simp [merged]
    | some b =>
      obtain ⟨_,_,_,flag,_⟩ := (find_flags oneWay).2 backward
      simp [merged,EdgeData.usable,flag]
  | some f =>
    obtain ⟨_,source,_,flag,_⟩ := (find_flags oneWay).1 forward
    cases backward : sorted.find? (fun e => sameEnds u v e && e.data.backward) with
    | none => simp [merged,EdgeData.usable,flag,relaxWeight,source]
    | some b =>
      obtain ⟨_,_,_,flag',_⟩ := (find_flags oneWay).2 backward
      by_cases same : f.data.weight = b.data.weight
      · simp [merged,EdgeData.usable,flag,relaxWeight,source,same]
      · simp [merged,EdgeData.usable,flag,flag',relaxWeight,source,same]

def reverseTurn (forward : Option EdgeBasedEdge) (backward : EdgeBasedEdge) : NodeID :=
  match forward with
  | some f => if f.data.weight = backward.data.weight then f.data.turn_id else backward.data.turn_id
  | none => backward.data.turn_id

/-- The reverse search uses the first backward edge, but the turn of the first forward one if the two were merged. -/
theorem added_reverse (apart : u ≠ v) (oneWay : OneWay sorted)
    (ordered : sorted.Pairwise fun a b => before b a = false) :
    addedWeights GetNodeWeight GetWeightPenaltyForEdgeID .REVERSE (prepareIntervals sorted) v u =
      (sorted.find? fun e => sameEnds v u e && e.data.backward).toList.map fun e => GetNodeWeight u +
        GetWeightPenaltyForEdgeID (reverseTurn (sorted.find? fun e => sameEnds v u e && e.data.forward) e) := by
  rw [added_eq apart.symm oneWay ordered]
  cases backward : sorted.find? (fun e => sameEnds v u e && e.data.backward) with
  | none =>
    cases forward : sorted.find? (fun e => sameEnds v u e && e.data.forward) with
    | none => simp [merged]
    | some f =>
      obtain ⟨_,_,_,_,flag⟩ := (find_flags oneWay).1 forward
      simp [merged,EdgeData.usable,flag]
  | some b =>
    obtain ⟨_,_,target,_,flag⟩ := (find_flags oneWay).2 backward
    cases forward : sorted.find? (fun e => sameEnds v u e && e.data.forward) with
    | none => simp [merged,EdgeData.usable,flag,relaxWeight,target,reverseTurn]
    | some f =>
      obtain ⟨_,_,target',_,flag'⟩ := (find_flags oneWay).1 forward
      by_cases same : f.data.weight = b.data.weight
      · simp [merged,EdgeData.usable,relaxWeight,target',same,reverseTurn]
      · simp [merged,EdgeData.usable,flag,flag',relaxWeight,target,same,reverseTurn]

end relax

/-! ### When the searches agree -/

def storedWeight (edge : EdgeBasedEdge) : EdgeWeight := max edge.data.weight 1

/-- A usable edge between two nodes than which none is stored with less weight. -/
structure Lightest (edges : List EdgeBasedEdge) (u v : NodeID) (edge : EdgeBasedEdge) : Prop where
  member : edge ∈ edges
  valid : edge.data.weight ≠ INVALID_EDGE_WEIGHT
  source : edge.source = u
  target : edge.target = v
  least : ∀ e ∈ edges, e.data.weight ≠ INVALID_EDGE_WEIGHT → e.source = u → e.target = v → storedWeight edge ≤ storedWeight e

/-- The condition under which the two searches agree on the way from `u` to `v`. -/
structure Reconciled (GetWeightPenaltyForEdgeID : NodeID → EdgeWeight) (edges : List EdgeBasedEdge) (u v : NodeID) :
    Prop where
  /-- Where the two directions are merged, their lightest edges have the same penalty. -/
  merged : ∀ x y, Lightest edges u v x → Lightest edges v u y → storedWeight x = storedWeight y →
    GetWeightPenaltyForEdgeID x.data.turn_id = GetWeightPenaltyForEdgeID y.data.turn_id
  /-- Where they are not, the lightest edges of the direction have the same penalty. -/
  separate : ∀ x x', Lightest edges u v x → Lightest edges u v x' →
    (∀ y, Lightest edges v u y → storedWeight x ≠ storedWeight y) →
    GetWeightPenaltyForEdgeID x.data.turn_id = GetWeightPenaltyForEdgeID x'.data.turn_id

/-- An edge as it is stored at its source, and as it is stored at its target. -/
def atSource (edge : EdgeBasedEdge) : EdgeBasedEdge :=
  ⟨edge.source,edge.target,{ edge.data with weight := storedWeight edge }⟩
def atTarget (edge : EdgeBasedEdge) : EdgeBasedEdge :=
  ⟨edge.target,edge.source,{ edge.data with
    weight := storedWeight edge,forward := edge.data.backward,backward := edge.data.forward }⟩
def Directed (edges : List EdgeBasedEdge) : Prop := ∀ e ∈ edges, e.data.forward = true ∧ e.data.backward = false

theorem mem_split : e ∈ splitBidirectionalEdges edges ↔
    ∃ x ∈ edges, x.data.weight ≠ INVALID_EDGE_WEIGHT ∧ (e = atSource x ∨ e = atTarget x) := by
  simp only [splitBidirectionalEdges,mem_flatMap]
  refine exists_congr fun x => and_congr_right fun _ => ?_
  by_cases invalid : x.data.weight = INVALID_EDGE_WEIGHT
  · simp [splitEdge,invalid]
  · simp [splitEdge,invalid,atSource,atTarget,storedWeight]

theorem split_oneWay (directed : Directed edges) : OneWay (splitBidirectionalEdges edges) := by
  intro e member
  obtain ⟨x,inside,_,rfl | rfl⟩ := mem_split.mp member
  · simp [atSource,directed x inside]
  · simp [atTarget,directed x inside]

private theorem find_first {α : Type} {r : α → α → Prop} {l : List α} {p : α → Bool} {a : α} (ordered : l.Pairwise r)
    (found : l.find? p = some a) : ∀ b ∈ l, p b = true → b = a ∨ r a b := by
  induction l with
  | nil => simp
  | cons c rest ih =>
    obtain ⟨first,tail⟩ := pairwise_cons.mp ordered
    intro b member holds
    by_cases here : p c = true
    · obtain rfl : c = a := by simpa [here] using found
      rcases mem_cons.mp member with rfl | later
      · exact .inl rfl
      · exact .inr (first b later)
    · rw [find?_cons_of_neg here] at found
      rcases mem_cons.mp member with rfl | later
      · exact absurd holds here
      · exact ih tail found b later holds

theorem first_forward (directed : Directed edges) (sorting : Sorted (splitBidirectionalEdges edges) sorted)
    {f : EdgeBasedEdge} (found : sorted.find? (fun e => sameEnds u v e && e.data.forward) = some f) :
    ∃ x, Lightest edges u v x ∧ f = atSource x := by
  have holds := find?_some found
  simp only [Bool.and_eq_true,sameEnds_iff] at holds
  obtain ⟨x,inside,valid,rfl | rfl⟩ := mem_split.mp (sorting.perm.mem_iff.mp (mem_of_find?_eq_some found))
  · refine ⟨x,⟨inside,valid,holds.1.1,holds.1.2,fun e member validE source target => ?_⟩,rfl⟩
    have stored : atSource e ∈ sorted := sorting.perm.mem_iff.mpr (mem_split.mpr ⟨e,member,validE,.inl rfl⟩)
    have usable : (sameEnds u v (atSource e) && (atSource e).data.forward) = true := by
      simp [sameEnds,atSource,source,target,directed e member]
    rcases find_first sorting.ordered found _ stored usable with same | later
    · exact (congrArg (·.data.weight) same).ge
    · have sourceX : x.source = u := holds.1.1
      have targetX : x.target = v := holds.1.2
      simpa [before,atSource,source,target,sourceX,targetX,directed e member,directed x inside] using later
  · simp [atTarget,directed x inside] at holds

theorem first_backward (directed : Directed edges) (sorting : Sorted (splitBidirectionalEdges edges) sorted)
    {b : EdgeBasedEdge} (found : sorted.find? (fun e => sameEnds v u e && e.data.backward) = some b) :
    ∃ x, Lightest edges u v x ∧ b = atTarget x := by
  have holds := find?_some found
  simp only [Bool.and_eq_true,sameEnds_iff] at holds
  obtain ⟨x,inside,valid,rfl | rfl⟩ := mem_split.mp (sorting.perm.mem_iff.mp (mem_of_find?_eq_some found))
  · simp [atSource,directed x inside] at holds
  · refine ⟨x,⟨inside,valid,holds.1.2,holds.1.1,fun e member validE source target => ?_⟩,rfl⟩
    have stored : atTarget e ∈ sorted := sorting.perm.mem_iff.mpr (mem_split.mpr ⟨e,member,validE,.inr rfl⟩)
    have usable : (sameEnds v u (atTarget e) && (atTarget e).data.backward) = true := by
      simp [sameEnds,atTarget,source,target,directed e member]
    rcases find_first sorting.ordered found _ stored usable with same | later
    · exact (congrArg (·.data.weight) same).ge
    · have sourceX : x.source = u := holds.1.2
      have targetX : x.target = v := holds.1.1
      simpa [before,atTarget,source,target,sourceX,targetX,directed e member,directed x inside] using later

variable {x : EdgeBasedEdge}

theorem exists_first (directed : Directed edges) (sorting : Sorted (splitBidirectionalEdges edges) sorted) (inside : x ∈ edges) (valid : x.data.weight ≠ INVALID_EDGE_WEIGHT) :
    (∃ f, sorted.find? (fun e => sameEnds x.source x.target e && e.data.forward) = some f) ∧
      ∃ b, sorted.find? (fun e => sameEnds x.target x.source e && e.data.backward) = some b := by
  have stored : atSource x ∈ sorted ∧ atTarget x ∈ sorted :=
    ⟨sorting.perm.mem_iff.mpr (mem_split.mpr ⟨x,inside,valid,.inl rfl⟩),
      sorting.perm.mem_iff.mpr (mem_split.mpr ⟨x,inside,valid,.inr rfl⟩)⟩
  constructor
  · refine isSome_iff_exists.mp (find?_isSome.mpr ⟨_,stored.1,?_⟩)
    simp [sameEnds,atSource,directed x inside]
  · refine isSome_iff_exists.mp (find?_isSome.mpr ⟨_,stored.2,?_⟩)
    simp [sameEnds,atTarget,directed x inside]

theorem Lightest.same {x x' : EdgeBasedEdge} (one : Lightest edges u v x) (other : Lightest edges u v x') :
    storedWeight x = storedWeight x' :=
  le_antisymm (one.least x' other.member other.valid other.source other.target)
    (other.least x one.member one.valid one.source one.target)

private def sortKey (e : EdgeBasedEdge) : NodeID ×ₗ NodeID ×ₗ Bool ×ₗ EdgeWeight :=
  toLex (e.source,toLex (e.target,toLex (!e.data.forward,e.data.weight)))

private theorem before_iff {a b : EdgeBasedEdge} : before a b = true ↔ sortKey a < sortKey b := by
  simp only [before,sortKey,Prod.Lex.toLex_lt_toLex,Bool.or_eq_true,Bool.and_eq_true,decide_eq_true_eq,beq_iff_eq]
  cases a.data.forward <;> cases b.data.forward <;> simp [Bool.lt_iff]

private theorem exists_sorted (edges : List EdgeBasedEdge) (preferred : EdgeBasedEdge → Bool) :
    ∃ sorted, Sorted edges sorted ∧ ∀ p a b, sorted.find? p = some a → b ∈ sorted → p b = true →
      sortKey a = sortKey b → preferred b = true → preferred a = true := by
  let key (e : EdgeBasedEdge) : (NodeID ×ₗ NodeID ×ₗ Bool ×ₗ EdgeWeight) ×ₗ Bool := toLex (sortKey e,!preferred e)
  have total : Std.Total fun a b : EdgeBasedEdge => key a ≤ key b := ⟨fun a b => le_total _ _⟩
  have trans : IsTrans EdgeBasedEdge fun a b => key a ≤ key b := ⟨fun a b c => le_trans⟩
  have ordered := pairwise_insertionSort (fun a b : EdgeBasedEdge => key a ≤ key b) edges
  refine ⟨edges.insertionSort fun a b => key a ≤ key b,⟨perm_insertionSort _ _,?_⟩,?_⟩
  · refine ordered.imp fun {a b} le => ?_
    rw [← Bool.not_eq_true,before_iff,not_lt]
    rcases Prod.Lex.toLex_le_toLex.mp le with less | ⟨same,_⟩
    · exact less.le
    · exact same.le
  · intro p a b found member holds same liked
    rcases find_first ordered found b member holds with rfl | le
    · exact liked
    · rcases Prod.Lex.toLex_le_toLex.mp le with less | ⟨_,flags⟩
      · exact absurd same less.ne
      · cases liked' : preferred a with
        | true => rfl
        | false => simp [liked,liked',Bool.le_iff_imp] at flags

section agree
variable {GetNodeWeight GetWeightPenaltyForEdgeID : NodeID → EdgeWeight}

private theorem preferred_forward {preferred : EdgeBasedEdge → Prop} [DecidablePred preferred]
    (directed : Directed edges) (sorting : Sorted (splitBidirectionalEdges edges) sorted)
    (prefers : ∀ p a b, sorted.find? p = some a → b ∈ sorted → p b = true → sortKey a = sortKey b →
      decide (preferred b) = true → decide (preferred a) = true)
    (lightest : Lightest edges u v x) (liked : preferred (atSource x))
    (only : ∀ x', Lightest edges u v x' → preferred (atSource x') → atSource x' = atSource x) :
    sorted.find? (fun e => sameEnds u v e && e.data.forward) = some (atSource x) := by
  obtain ⟨⟨f,found⟩,_⟩ := exists_first directed sorting lightest.member lightest.valid
  rw [lightest.source,lightest.target] at found
  obtain ⟨x',lightest',rfl⟩ := first_forward directed sorting found
  have stored : atSource x ∈ sorted :=
    sorting.perm.mem_iff.mpr (mem_split.mpr ⟨x,lightest.member,lightest.valid,.inl rfl⟩)
  have usable : (sameEnds u v (atSource x) && (atSource x).data.forward) = true := by
    simp [sameEnds,atSource,lightest.source,lightest.target,directed x lightest.member]
  have key : sortKey (atSource x') = sortKey (atSource x) := by
    simp [sortKey,atSource,lightest.source,lightest'.source,lightest.target,lightest'.target,
      directed x lightest.member,directed x' lightest'.member,lightest.same lightest']
  have chosen := prefers _ _ _ found stored usable key (by simpa using liked)
  rw [found,only x' lightest' (by simpa using chosen)]

private theorem preferred_backward {preferred : EdgeBasedEdge → Prop} [DecidablePred preferred]
    (directed : Directed edges) (sorting : Sorted (splitBidirectionalEdges edges) sorted)
    (prefers : ∀ p a b, sorted.find? p = some a → b ∈ sorted → p b = true → sortKey a = sortKey b →
      decide (preferred b) = true → decide (preferred a) = true)
    (lightest : Lightest edges u v x) (liked : preferred (atTarget x))
    (only : ∀ x', Lightest edges u v x' → preferred (atTarget x') → atTarget x' = atTarget x) :
    sorted.find? (fun e => sameEnds v u e && e.data.backward) = some (atTarget x) := by
  obtain ⟨_,b,found⟩ := exists_first directed sorting lightest.member lightest.valid
  rw [lightest.source,lightest.target] at found
  obtain ⟨x',lightest',rfl⟩ := first_backward directed sorting found
  have stored : atTarget x ∈ sorted :=
    sorting.perm.mem_iff.mpr (mem_split.mpr ⟨x,lightest.member,lightest.valid,.inr rfl⟩)
  have usable : (sameEnds v u (atTarget x) && (atTarget x).data.backward) = true := by
    simp [sameEnds,atTarget,lightest.source,lightest.target,directed x lightest.member]
  have key : sortKey (atTarget x') = sortKey (atTarget x) := by
    simp [sortKey,atTarget,lightest.source,lightest'.source,lightest.target,lightest'.target,
      directed x lightest.member,directed x' lightest'.member,lightest.same lightest']
  have chosen := prefers _ _ _ found stored usable key (by simpa using liked)
  rw [found,only x' lightest' (by simpa using chosen)]

private theorem reverseTurn_at (directed : Directed edges) (sorting : Sorted (splitBidirectionalEdges edges) sorted) :
    (∃ y, Lightest edges v u y ∧ sorted.find? (fun e => sameEnds v u e && e.data.forward) = some (atSource y) ∧
        storedWeight x = storedWeight y ∧
        reverseTurn (sorted.find? fun e => sameEnds v u e && e.data.forward) (atTarget x) = y.data.turn_id) ∨
      ((∀ y, Lightest edges v u y → storedWeight x ≠ storedWeight y) ∧
        reverseTurn (sorted.find? fun e => sameEnds v u e && e.data.forward) (atTarget x) = x.data.turn_id) := by
  cases forward : sorted.find? (fun e => sameEnds v u e && e.data.forward) with
  | none =>
    refine .inr ⟨fun y other _ => ?_,rfl⟩
    obtain ⟨⟨f,found⟩,_⟩ := exists_first directed sorting other.member other.valid
    rw [other.source,other.target,forward] at found
    simp at found
  | some f =>
    obtain ⟨y,other,rfl⟩ := first_forward directed sorting forward
    by_cases same : storedWeight x = storedWeight y
    · exact .inl ⟨y,other,rfl,same,by simp [reverseTurn,atSource,atTarget,same]⟩
    · refine .inr ⟨fun y' other' bad => same (bad.trans (other'.same other)),?_⟩
      simp [reverseTurn,atSource,atTarget,Ne.symm same]

private theorem oneWay_sorted (directed : Directed edges) (sorting : Sorted (splitBidirectionalEdges edges) sorted) :
    OneWay sorted :=
  fun e member => split_oneWay directed e (sorting.perm.mem_iff.mp member)

private theorem penalty_of_agree (directed : Directed edges)
    (agree : ∀ graph, Prepared (splitBidirectionalEdges edges) graph → Agree GetNodeWeight GetWeightPenaltyForEdgeID graph)
    (apart : u ≠ v) (sorting : Sorted (splitBidirectionalEdges edges) sorted) {f b : EdgeBasedEdge}
    (forward : sorted.find? (fun e => sameEnds u v e && e.data.forward) = some f)
    (backward : sorted.find? (fun e => sameEnds v u e && e.data.backward) = some b) :
    GetWeightPenaltyForEdgeID f.data.turn_id = GetWeightPenaltyForEdgeID
      (reverseTurn (sorted.find? fun e => sameEnds v u e && e.data.forward) b) := by
  have oneWay := oneWay_sorted directed sorting
  have same := agree _ ⟨sorted,sorting,rfl⟩ u v
  rw [added_forward apart oneWay sorting.ordered,added_reverse apart oneWay sorting.ordered,forward,backward] at same
  simpa using same

private theorem merged_of_agree (directed : Directed edges)
    (agree : ∀ graph, Prepared (splitBidirectionalEdges edges) graph → Agree GetNodeWeight GetWeightPenaltyForEdgeID graph)
    (apart : u ≠ v) {x y : EdgeBasedEdge} (one : Lightest edges u v x) (other : Lightest edges v u y)
    (weights : storedWeight x = storedWeight y) :
    GetWeightPenaltyForEdgeID x.data.turn_id = GetWeightPenaltyForEdgeID y.data.turn_id := by
  obtain ⟨sorted,sorting,prefers⟩ := exists_sorted (splitBidirectionalEdges edges)
    fun e => e = atSource x ∨ e = atSource y
  have forward := preferred_forward directed sorting prefers one (by simp) (by
    rintro x' lightest (same | same)
    · exact same
    · exact absurd (lightest.source.symm.trans ((congrArg (·.source) same).trans other.source)) apart)
  have forward' := preferred_forward directed sorting prefers other (by simp) (by
    rintro y' lightest (same | same)
    · exact absurd (lightest.source.symm.trans ((congrArg (·.source) same).trans one.source)) apart.symm
    · exact same)
  obtain ⟨_,b,backward⟩ := exists_first directed sorting one.member one.valid
  rw [one.source,one.target] at backward
  obtain ⟨x',lightest',rfl⟩ := first_backward directed sorting backward
  have turn : reverseTurn (some (atSource y)) (atTarget x') = y.data.turn_id := by
    simp [reverseTurn,atSource,atTarget,← weights,one.same lightest']
  have same := penalty_of_agree directed agree apart sorting forward backward
  rw [forward',turn] at same
  exact same

private theorem separate_of_agree (directed : Directed edges)
    (agree : ∀ graph, Prepared (splitBidirectionalEdges edges) graph → Agree GetNodeWeight GetWeightPenaltyForEdgeID graph)
    (apart : u ≠ v) {x x' : EdgeBasedEdge} (one : Lightest edges u v x) (other : Lightest edges u v x')
    (differ : ∀ y, Lightest edges v u y → storedWeight x ≠ storedWeight y) :
    GetWeightPenaltyForEdgeID x.data.turn_id = GetWeightPenaltyForEdgeID x'.data.turn_id := by
  obtain ⟨sorted,sorting,prefers⟩ := exists_sorted (splitBidirectionalEdges edges)
    fun e => e = atSource x ∨ e = atTarget x'
  have forward := preferred_forward directed sorting prefers one (by simp) (by
    rintro x'' lightest (same | same)
    · exact same
    · exact absurd (lightest.source.symm.trans ((congrArg (·.source) same).trans other.target)) apart)
  have backward := preferred_backward directed sorting prefers other (by simp) (by
    rintro x'' lightest (same | same)
    · exact absurd (lightest.target.symm.trans ((congrArg (·.source) same).trans one.source)) apart.symm
    · exact same)
  have same := penalty_of_agree directed agree apart sorting forward backward
  rcases reverseTurn_at (x := x') directed sorting with ⟨y,lightest,_,weights,_⟩ | ⟨_,turn⟩
  · exact absurd ((one.same other).trans weights) (differ y lightest)
  · rw [turn] at same
    exact same

theorem added_loop (direction : Direction) :
    addedWeights GetNodeWeight GetWeightPenaltyForEdgeID direction (prepareIntervals sorted) u u = [] := by
  simp only [addedWeights,map_eq_nil_iff,filter_eq_nil_iff]
  intro e member holds
  simp only [Bool.and_eq_true,sameEnds_iff] at holds
  exact prepareIntervals_apart e member (holds.1.1.trans holds.1.2.symm)

theorem agree_of_reconciled (directed : Directed edges) (sorting : Sorted (splitBidirectionalEdges edges) sorted)
    (apart : u ≠ v) (holds : Reconciled GetWeightPenaltyForEdgeID edges u v) :
    addedWeights GetNodeWeight GetWeightPenaltyForEdgeID .FORWARD (prepareIntervals sorted) u v =
      addedWeights GetNodeWeight GetWeightPenaltyForEdgeID .REVERSE (prepareIntervals sorted) v u := by
  have oneWay := oneWay_sorted directed sorting
  rw [added_forward apart oneWay sorting.ordered,added_reverse apart oneWay sorting.ordered]
  cases forward : sorted.find? (fun e => sameEnds u v e && e.data.forward) with
  | none =>
    cases backward : sorted.find? (fun e => sameEnds v u e && e.data.backward) with
    | none => rfl
    | some b =>
      obtain ⟨x,lightest,_⟩ := first_backward directed sorting backward
      obtain ⟨⟨f,found⟩,_⟩ := exists_first directed sorting lightest.member lightest.valid
      rw [lightest.source,lightest.target,forward] at found
      simp at found
  | some f =>
    obtain ⟨x,lightest,rfl⟩ := first_forward directed sorting forward
    obtain ⟨_,b,backward⟩ := exists_first directed sorting lightest.member lightest.valid
    rw [lightest.source,lightest.target] at backward
    obtain ⟨x',lightest',rfl⟩ := first_backward directed sorting backward
    rw [backward]
    simp only [toList_some,map_cons,map_nil]
    rcases reverseTurn_at (x := x') directed sorting with ⟨y,other,_,same,turn⟩ | ⟨differ,turn⟩
    · rw [turn,← holds.merged x y lightest other ((lightest.same lightest').trans same)]
      rfl
    · rw [turn,← holds.separate x x' lightest lightest' fun y other => lightest.same lightest' ▸ differ y other]
      rfl

/-- For directed edges both searches agree, whatever the sort, exactly where the penalties can be reconciled. -/
theorem agree_iff_reconciled (directed : Directed edges) :
    (∀ graph, Prepared (splitBidirectionalEdges edges) graph → Agree GetNodeWeight GetWeightPenaltyForEdgeID graph) ↔
      ∀ u v, u ≠ v → Reconciled GetWeightPenaltyForEdgeID edges u v := by
  constructor
  · intro agree u v apart
    exact ⟨fun x y => merged_of_agree directed agree apart,fun x x' => separate_of_agree directed agree apart⟩
  · rintro reconciled graph ⟨sorted,sorting,rfl⟩ u v
    by_cases loop : u = v
    · subst loop
      rw [added_loop,added_loop]
    · exact agree_of_reconciled directed sorting loop (reconciled u v loop)

end agree

def crossing : List EdgeBasedEdge := [⟨0,1,⟨0,3,0,0,true,false⟩⟩,⟨1,0,⟨1,3,0,0,true,false⟩⟩]
def crossingSorted : List EdgeBasedEdge :=
  [⟨0,1,⟨0,3,0,0,true,false⟩⟩,⟨0,1,⟨1,3,0,0,false,true⟩⟩,⟨1,0,⟨1,3,0,0,true,false⟩⟩,⟨1,0,⟨0,3,0,0,false,true⟩⟩]

private theorem crossing_prepared : Prepared (splitBidirectionalEdges crossing) (prepareIntervals crossingSorted) :=
  ⟨crossingSorted,⟨by decide,by decide⟩,rfl⟩

/-- With the same penalty both ways the searches agree. -/
theorem agree_iff_reconciled_crossing : Agree (fun _ => 1) (fun _ => 2) (prepareIntervals crossingSorted) :=
  (agree_iff_reconciled (by simp [Directed,crossing])).mpr (fun _ _ _ => ⟨fun _ _ _ _ _ => rfl,fun _ _ _ _ _ => rfl⟩)
    _ crossing_prepared

/-- Where nodes of weight one and two have an edge of weight three each way, the searches add three and two. -/
theorem agree_iff_reconciled_counterexample :
    Directed crossing ∧ (∀ e ∈ crossing, e.data.weight =
        (fun node => if node = 0 then 1 else 2) e.source + (fun turn => if turn = 0 then 2 else 1) e.data.turn_id) ∧
      ∃ graph, Prepared (splitBidirectionalEdges crossing) graph ∧
        addedWeights (fun node => if node = 0 then 1 else 2) (fun turn => if turn = 0 then 2 else 1) .FORWARD graph 0 1 = [3] ∧
        addedWeights (fun node => if node = 0 then 1 else 2) (fun turn => if turn = 0 then 2 else 1) .REVERSE graph 1 0 = [2] := by
  refine ⟨by simp [Directed,crossing],by decide,_,crossing_prepared,?_,?_⟩
  · simp [crossingSorted,prepareIntervals,mergeInterval,sameEnds,addedWeights,relaxWeight,EdgeData.usable]
  · simp [crossingSorted,prepareIntervals,mergeInterval,sameEnds,addedWeights,relaxWeight,EdgeData.usable]

end Osrm.EdgeBasedGraph
