import Mathlib.Data.List.GetD
import Osrm.BestCut
import Osrm.Slices
import Osrm.TripBruteForce

/-!
`engine/trip/trip_farthest_insertion.hpp`: a route starts with the two locations farthest apart, and the one whose
best insertion makes it the longest is next. A best insertion need not exist where ways are marked.
-/
namespace Osrm.TripFarthestInsertion
open List
open Typedefs (EdgeDuration INVALID_EDGE_DURATION)
open BestCut (keep foldl_keep_mem foldl_keep_unbeaten foldl_keep_of_unbeaten)
open TripPlugin
open TripBruteForce (BruteForceTrip Durations NoOverflow bruteForceTrip_spec searchLength_admissible threeLocations)

/-- An insertion and the length it adds; `none` is an iterator that was never set. -/
structure InsertCandidate where
  trip_distance : EdgeDuration
  insert_point : Option ℕ

section Insertion
variable (dist_table : DistTableWrapper) (route : List ℕ) (new_loc : ℕ)

def toNode (from_node : ℕ) : ℕ := if from_node + 1 = route.length then 0 else from_node + 1

def insertBehind (best : InsertCandidate) (from_node : ℕ) : InsertCandidate :=
  let to_node := toNode route from_node
  let dist_from := dist_table.entry (route.getD from_node 0) new_loc
  let dist_to := dist_table.entry new_loc (route.getD to_node 0)
  if dist_from = INVALID_EDGE_DURATION ∨ dist_to = INVALID_EDGE_DURATION then best
  else
    let trip_dist := toInt32 (toInt32 (dist_from + dist_to) - dist_table.entry (route.getD from_node 0) (route.getD to_node 0))
    if trip_dist < best.trip_distance then ⟨trip_dist,some to_node⟩ else best

def GetShortestRoundTrip : InsertCandidate :=
  (List.range route.length).foldl (insertBehind dist_table route new_loc) ⟨INVALID_EDGE_DURATION,none⟩

end Insertion

/-- `std::numeric_limits<std::int32_t>::min()` -/
def MINIMAL_INT32 : EdgeDuration := -2147483648

/-- The location to insert next; `none` is `-1`. -/
structure Farthest where
  farthest_distance : EdgeDuration
  next_node : Option ℕ
  next_insert_point : Option ℕ

structure RouteState where
  visited : List Bool
  route : List ℕ

section Route
variable (number_of_locations : ℕ) (dist_table : DistTableWrapper)

def considerNode (state : RouteState) (best : Farthest) (node : ℕ) : Farthest :=
  if !state.visited.getD node false then
    let insert_candidate := GetShortestRoundTrip dist_table state.route node
    if best.farthest_distance < insert_candidate.trip_distance then
      ⟨insert_candidate.trip_distance,some node,insert_candidate.insert_point⟩
    else best
  else best

/-- `none` where a node or an insertion point is read that was never set. -/
def addNode (state : RouteState) : Option RouteState :=
  let best := (List.range number_of_locations).foldl (considerNode dist_table state) ⟨MINIMAL_INT32,none,none⟩
  match best.next_node,best.next_insert_point with
  | some next_node,some next_insert_point =>
    some ⟨state.visited.set next_node true,state.route.insertIdx next_insert_point next_node⟩
  | _,_ => none

def FindRoute (start1 start2 : ℕ) : Option (List ℕ) :=
  ((List.range' 2 (number_of_locations - 2)).foldlM (fun state _ => addNode number_of_locations dist_table state)
    ⟨((replicate number_of_locations false).set start1 true).set start2 true,[start1,start2]⟩).map (·.route)
/-- The index of the first one of the greatest durations behind the first duration. -/
def indexOfFarthest : ℕ :=
  (List.range' 2 (dist_table.table_.length - 2)).foldl
    (keep fun i best => dist_table.table_.getD best 0 < dist_table.table_.getD i 0) 1
def FarthestInsertionTrip : Option (List ℕ) :=
  let index_of_farthest_distance := indexOfFarthest dist_table
  FindRoute number_of_locations dist_table (index_of_farthest_distance / number_of_locations)
    (index_of_farthest_distance % number_of_locations)

end Route

def Bounded (number_of_locations : ℕ) (table : DistTableWrapper) : Prop :=
  ∀ k l, k < number_of_locations → l < number_of_locations →
    0 ≤ table.entry k l ∧ (table.entry k l = INVALID_EDGE_DURATION ∨ table.entry k l < 536870912)
/-- A location may be inserted behind a position of the route. -/
def Allowed (table : DistTableWrapper) (route : List ℕ) (new_loc from_node : ℕ) : Prop :=
  table.entry (route.getD from_node 0) new_loc ≠ INVALID_EDGE_DURATION ∧
    table.entry new_loc (route.getD (toNode route from_node) 0) ≠ INVALID_EDGE_DURATION

section Insertions
variable {number_of_locations : ℕ} {table : DistTableWrapper} {route : List ℕ} {new_loc node i p : ℕ}

/-- The candidate is one of the insertions so far that are allowed. -/
def Chosen (table : DistTableWrapper) (route : List ℕ) (new_loc : ℕ) (seen : List ℕ) (candidate : InsertCandidate) : Prop :=
  ∃ i ∈ seen, Allowed table route new_loc i ∧ candidate.insert_point = some (toNode route i) ∧
    MINIMAL_INT32 < candidate.trip_distance

private theorem getD_below (below : ∀ x ∈ route, x < number_of_locations) (inside : i < route.length) : route.getD i 0 < number_of_locations := by
  rw [getD_eq_getElem _ _ inside]
  exact below _ (getElem_mem inside)

private theorem toNode_lt (inside : i < route.length) : toNode route i < route.length := by
  rw [toNode]
  split_ifs
  · omega
  · omega

private theorem insertion_bounds {a b c : EdgeDuration} (a_nonneg : 0 ≤ a) (a_less : a < 536870912) (b_nonneg : 0 ≤ b) (b_less : b < 536870912)
    (c_nonneg : 0 ≤ c) (c_bound : c = INVALID_EDGE_DURATION ∨ c < 536870912) :
    MINIMAL_INT32 < toInt32 (toInt32 (a + b) - c) ∧ toInt32 (toInt32 (a + b) - c) < INVALID_EDGE_DURATION := by
  have marker : INVALID_EDGE_DURATION = 2147483647 := rfl
  have least : MINIMAL_INT32 = -2147483648 := rfl
  have sum : toInt32 (a + b) = a + b := toInt32_of_bounds (by lia) (by lia)
  have difference : toInt32 (a + b - c) = a + b - c := toInt32_of_bounds (by lia) (by lia)
  rw [sum,difference]
  exact ⟨by lia,by lia⟩

private theorem Chosen.append {seen : List ℕ} {candidate : InsertCandidate} (chosen : Chosen table route new_loc seen candidate) (i : ℕ) :
    Chosen table route new_loc (seen ++ [i]) candidate := by
  obtain ⟨j,member,rest⟩ := chosen
  exact ⟨j,mem_append_left _ member,rest⟩

private theorem chosen_insertBehind (bounded : Bounded number_of_locations table) (below : ∀ x ∈ route, x < number_of_locations)
    (new_below : new_loc < number_of_locations) (inside : i < route.length) {seen : List ℕ} {best : InsertCandidate}
    (before : best = ⟨INVALID_EDGE_DURATION,none⟩ ∧ (∀ j ∈ seen, ¬Allowed table route new_loc j) ∨ Chosen table route new_loc seen best) :
    insertBehind table route new_loc best i = ⟨INVALID_EDGE_DURATION,none⟩ ∧ (∀ j ∈ seen ++ [i], ¬Allowed table route new_loc j) ∨
      Chosen table route new_loc (seen ++ [i]) (insertBehind table route new_loc best i) := by
  have from_below := getD_below below inside
  have to_below := getD_below below (toNode_lt inside)
  unfold insertBehind
  dsimp only
  split_ifs with marked shorter
  · refine before.imp (fun both => ⟨both.1,?_⟩) fun chosen => chosen.append i
    refine forall_mem_append.mpr ⟨both.2,forall_mem_singleton.mpr fun allowed => ?_⟩
    exact marked.elim allowed.1 allowed.2
  all_goals
    rw [not_or] at marked
    obtain ⟨a_nonneg,a_bound⟩ := bounded _ _ from_below new_below
    obtain ⟨b_nonneg,b_bound⟩ := bounded _ _ new_below to_below
    obtain ⟨c_nonneg,c_bound⟩ := bounded _ _ from_below to_below
    obtain ⟨more,less⟩ := insertion_bounds a_nonneg (a_bound.resolve_left marked.1) b_nonneg (b_bound.resolve_left marked.2) c_nonneg c_bound
  · exact .inr ⟨i,by simp,marked,rfl,more⟩
  · refine .inr ?_
    rcases before with ⟨rfl,_⟩ | chosen
    · exact absurd less shorter
    · exact chosen.append i

private theorem chosen_getShortestRoundTrip (bounded : Bounded number_of_locations table) (below : ∀ x ∈ route, x < number_of_locations)
    (new_below : new_loc < number_of_locations) (inside : i < route.length) (allowed : Allowed table route new_loc i) :
    Chosen table route new_loc (List.range route.length) (GetShortestRoundTrip table route new_loc) := by
  have run : ∀ n ≤ route.length, let best := (List.range n).foldl (insertBehind table route new_loc) ⟨INVALID_EDGE_DURATION,none⟩
      best = ⟨INVALID_EDGE_DURATION,none⟩ ∧ (∀ j ∈ List.range n, ¬Allowed table route new_loc j) ∨
        Chosen table route new_loc (List.range n) best := by
    intro n few
    induction n with
    | zero => exact .inl ⟨rfl,by simp⟩
    | succ n ih =>
      rw [range_succ,foldl_append]
      exact chosen_insertBehind bounded below new_below few (ih (by omega))
  rcases run route.length le_rfl with ⟨_,none⟩ | chosen
  · exact absurd allowed (none i (mem_range.mpr inside))
  · exact chosen

end Insertions

/-! ### The route -/

section Routes
variable {number_of_locations : ℕ} {table : DistTableWrapper} {state : RouteState} {Good : List ℕ → Prop}

/-- Wherever a location may be inserted the route stays good, and somewhere it may be. -/
def Insertable (number_of_locations : ℕ) (table : DistTableWrapper) (Good : List ℕ → Prop) : Prop :=
  ∀ route new_loc, Good route → route.Nodup → (∀ x ∈ route, x < number_of_locations) → 2 ≤ route.length → new_loc < number_of_locations → new_loc ∉ route →
    (∃ i < route.length, Allowed table route new_loc i) ∧
      ∀ i < route.length, Allowed table route new_loc i → Good (route.insertIdx (toNode route i) new_loc)

/-- A route without repetition, and the marks of its locations. -/
structure Visiting (number_of_locations : ℕ) (Good : List ℕ → Prop) (length : ℕ) (state : RouteState) : Prop where
  size : state.route.length = length
  distinct : state.route.Nodup
  below : ∀ x ∈ state.route, x < number_of_locations
  marks : ∀ x, state.visited.getD x false = true ↔ x ∈ state.route
  room : state.visited.length = number_of_locations
  good : Good state.route

/-- What is considered so far is visited, or one of it is to be inserted. -/
def Considered (table : DistTableWrapper) (state : RouteState) (seen : List ℕ) (best : Farthest) : Prop :=
  best = ⟨MINIMAL_INT32,none,none⟩ ∧ (∀ node ∈ seen, node ∈ state.route) ∨
    ∃ node ∈ seen, node ∉ state.route ∧ best.next_node = some node ∧
      ∃ i < state.route.length, Allowed table state.route node i ∧ best.next_insert_point = some (toNode state.route i)

private theorem considered_considerNode {length node : ℕ} {seen : List ℕ} {best : Farthest} (bounded : Bounded number_of_locations table)
    (insertable : Insertable number_of_locations table Good) (visiting : Visiting number_of_locations Good length state) (two : 2 ≤ length)
    (node_below : node < number_of_locations) (considered : Considered table state seen best) :
    Considered table state (seen ++ [node]) (considerNode table state best node) := by
  have later : (∃ other ∈ seen, other ∉ state.route ∧ best.next_node = some other ∧
      ∃ i < state.route.length, Allowed table state.route other i ∧ best.next_insert_point = some (toNode state.route i)) →
        Considered table state (seen ++ [node]) best := fun ⟨other,member,rest⟩ =>
    .inr ⟨other,mem_append_left _ member,rest⟩
  unfold considerNode
  cases known : state.visited.getD node false with
  | true =>
    rw [Bool.not_true,if_neg Bool.false_ne_true]
    rcases considered with ⟨none,all⟩ | chosen
    · exact .inl ⟨none,forall_mem_append.mpr ⟨all,forall_mem_singleton.mpr ((visiting.marks node).mp known)⟩⟩
    · exact later chosen
  | false =>
    have new : node ∉ state.route := fun member => by
      rw [(visiting.marks node).mpr member] at known
      exact Bool.noConfusion known
    obtain ⟨⟨i,inside,allowed⟩,_⟩ := insertable _ node visiting.good visiting.distinct visiting.below (by rw [visiting.size]; exact two) node_below new
    obtain ⟨j,there,allowed',point,more⟩ := chosen_getShortestRoundTrip bounded visiting.below node_below inside allowed
    rw [Bool.not_false,if_pos rfl]
    dsimp only
    split_ifs with farther
    · exact .inr ⟨node,by simp,new,rfl,j,mem_range.mp there,allowed',point⟩
    · rcases considered with ⟨rfl,_⟩ | chosen
      · exact absurd more farther
      · exact later chosen

private theorem visiting_addNode {length : ℕ} (bounded : Bounded number_of_locations table) (insertable : Insertable number_of_locations table Good)
    (visiting : Visiting number_of_locations Good length state) (two : 2 ≤ length) (few : length < number_of_locations) :
    ∃ next, addNode number_of_locations table state = some next ∧ Visiting number_of_locations Good (length + 1) next := by
  have run : ∀ n ≤ number_of_locations, Considered table state (List.range n)
      ((List.range n).foldl (considerNode table state) ⟨MINIMAL_INT32,none,none⟩) := by
    intro n bound
    induction n with
    | zero => exact .inl ⟨rfl,by simp⟩
    | succ n ih =>
      rw [range_succ,foldl_append]
      exact considered_considerNode bounded insertable visiting two bound (ih (by omega))
  rcases run _ le_rfl with ⟨_,all⟩ | ⟨node,member,new,next_node,i,inside,allowed,point⟩
  · have count := (nodup_range.subperm all).length_le
    rw [length_range,visiting.size] at count
    omega
  · have node_below := mem_range.mp member
    have atMost : toNode state.route i ≤ state.route.length := (toNode_lt inside).le
    have perm := perm_insertIdx node state.route atMost
    refine ⟨⟨state.visited.set node true,state.route.insertIdx (toNode state.route i) node⟩,?_,?_,?_,?_,?_,?_,?_⟩
    · rw [addNode,next_node,point]
    · rw [perm.length_eq,length_cons,visiting.size]
    · exact perm.nodup_iff.mpr (nodup_cons.mpr ⟨new,visiting.distinct⟩)
    · intro x inside
      rcases mem_cons.mp (perm.subset inside) with rfl | old
      · exact node_below
      · exact visiting.below x old
    · intro x
      rw [perm.mem_iff,mem_cons,Slices.getD_set (visiting.room.symm ▸ node_below),← visiting.marks x]
      by_cases here : x = node
      · simp [here]
      · rw [if_neg here,or_iff_right here]
    · rw [length_set,visiting.room]
    · exact (insertable _ node visiting.good visiting.distinct visiting.below (by rw [visiting.size]; exact two) node_below new).2 i inside allowed

private theorem visiting_foldlM {length : ℕ} (rounds : List ℕ) (bounded : Bounded number_of_locations table)
    (insertable : Insertable number_of_locations table Good) (visiting : Visiting number_of_locations Good length state) (two : 2 ≤ length)
    (few : length + rounds.length ≤ number_of_locations) :
    ∃ last, rounds.foldlM (fun state _ => addNode number_of_locations table state) state = some last ∧
      Visiting number_of_locations Good (length + rounds.length) last := by
  induction rounds generalizing state length with
  | nil => exact ⟨state,rfl,visiting⟩
  | cons round later ih =>
    rw [length_cons] at few
    obtain ⟨next,added,more⟩ := visiting_addNode bounded insertable visiting two (by omega)
    obtain ⟨last,ran,all⟩ := ih more (by omega) (by omega)
    refine ⟨last,?_,?_⟩
    · rw [foldlM_cons,added]
      exact ran
    · rwa [length_cons,Nat.add_comm later.length,← Nat.add_assoc]

private theorem visiting_start {start1 start2 : ℕ} (apart : start1 ≠ start2) (below1 : start1 < number_of_locations)
    (below2 : start2 < number_of_locations) (good : Good [start1,start2]) :
    Visiting number_of_locations Good 2
      ⟨((replicate number_of_locations false).set start1 true).set start2 true,[start1,start2]⟩ := by
  refine ⟨rfl,by simp [apart],by simp [below1,below2],fun x => ?_,by simp,good⟩
  rw [getD_eq_getElem?_getD,getElem?_set,getElem?_set,getElem?_replicate]
  simp only [length_set,length_replicate,below1,below2,if_true,mem_cons,not_mem_nil,or_false]
  split_ifs <;> simp_all [eq_comm]

private theorem findRoute_visits {start1 start2 : ℕ} (bounded : Bounded number_of_locations table)
    (insertable : Insertable number_of_locations table Good) (two : 2 ≤ number_of_locations) (apart : start1 ≠ start2)
    (below1 : start1 < number_of_locations) (below2 : start2 < number_of_locations) (good : Good [start1,start2]) :
    ∃ route, FindRoute number_of_locations table start1 start2 = some route ∧ route.Perm (List.range number_of_locations) ∧ Good route := by
  obtain ⟨last,ran,visiting⟩ := visiting_foldlM (List.range' 2 (number_of_locations - 2)) bounded insertable
    (visiting_start apart below1 below2 good) le_rfl (by rw [length_range']; omega)
  refine ⟨last.route,?_,?_,visiting.good⟩
  · rw [FindRoute,ran]
    rfl
  · have subset : last.route ⊆ List.range number_of_locations := fun x member => mem_range.mpr (visiting.below x member)
    refine (visiting.distinct.subperm subset).perm_of_length_le ?_
    rw [visiting.size,length_range',length_range]
    omega

end Routes

section Tables
variable {form : TripForm} {number_of_locations : ℕ} {table : DistTableWrapper} {route : List ℕ} {i k l x : ℕ}

/-- A table of short durations, with none from a location to itself. -/
structure ShortDurations (number_of_locations : ℕ) (table : DistTableWrapper) : Prop where
  square : Square number_of_locations table
  short : ∀ duration ∈ table.table_, 0 ≤ duration ∧ duration < 536870912
  diagonal : ∀ i < number_of_locations, table.entry i i = 0

private theorem ShortDurations.entry (durations : ShortDurations number_of_locations table) (row : k < number_of_locations)
    (column : l < number_of_locations) : 0 ≤ table.entry k l ∧ table.entry k l < 536870912 :=
  durations.square.forall_entry durations.short row column

private theorem bounded_manipulated (durations : ShortDurations number_of_locations table) (some_location : 0 < number_of_locations) :
    Bounded number_of_locations (manipulated form number_of_locations table) := fun _ _ row column =>
  durations.square.forall_manipulated (P := fun d => 0 ≤ d ∧ (d = INVALID_EDGE_DURATION ∨ d < 536870912)) some_location
    (fun _ _ row column => (durations.entry row column).imp_right .inr) ⟨le_rfl,.inr (by decide)⟩
    (fun _ _ => ⟨by decide,.inl rfl⟩) row column

private theorem fixed_entry_marked (durations : ShortDurations number_of_locations table) (row : k < number_of_locations)
    (column : l < number_of_locations) : (ManipulateTableForFSE 0 (number_of_locations - 1) table).entry k l = INVALID_EDGE_DURATION ↔
      k = 0 ∧ l = number_of_locations - 1 ∨
        ¬(k = number_of_locations - 1 ∧ l = 0) ∧ (k = number_of_locations - 1 ∧ l ≠ number_of_locations - 1 ∨ l = 0 ∧ k ≠ 0) := by
  have some_location : 0 < number_of_locations := by omega
  rw [(durations.square.fixed some_location (Nat.sub_lt some_location Nat.one_pos)).2 k l row column]
  have marker : INVALID_EDGE_DURATION = 2147483647 := rfl
  have short := durations.entry row column
  split_ifs with first second third
  · exact iff_of_true rfl (.inl first)
  · exact iff_of_false (by decide) (by omega)
  · exact iff_of_true rfl (.inr ⟨second,third⟩)
  · refine iff_of_false (by lia) (by omega)

private theorem insertIdx_head? (positive : 0 < i) : (route.insertIdx i x).head? = route.head? := by
  rw [head?_eq_getElem?,head?_eq_getElem?,getElem?_insertIdx_of_lt positive]

private theorem insertIdx_getLast? (inside : i < route.length) : (route.insertIdx i x).getLast? = route.getLast? := by
  rw [getLast?_eq_getElem?,getLast?_eq_getElem?,length_insertIdx_of_le_length inside.le,Nat.add_sub_cancel,
    getElem?_insertIdx_of_gt inside]

private theorem insertable_fixed (durations : ShortDurations number_of_locations table) :
    Insertable number_of_locations (ManipulateTableForFSE 0 (number_of_locations - 1) table) fun route =>
      route.head? = some 0 ∧ route.getLast? = some (number_of_locations - 1) := by
  rintro route new_loc ⟨first,last⟩ distinct below two new_below new
  rw [head?_eq_getElem?,List.getElem?_eq_some_iff] at first
  rw [getLast?_eq_getElem?,List.getElem?_eq_some_iff] at last
  obtain ⟨some_node,first⟩ := first
  obtain ⟨last_inside,last⟩ := last
  have not_first : new_loc ≠ 0 := by
    rintro rfl
    exact new (first ▸ getElem_mem some_node)
  have not_last : new_loc ≠ number_of_locations - 1 := by
    rintro rfl
    exact new (last ▸ getElem_mem last_inside)
  have allowed_iff : ∀ i < route.length,
      (Allowed (ManipulateTableForFSE 0 (number_of_locations - 1) table) route new_loc i ↔ i + 1 < route.length) := by
    intro i inside
    have there := toNode_lt inside
    have atLast : route[i] = route[route.length - 1] ↔ i = route.length - 1 := distinct.getElem_inj_iff
    have atFirst : route[toNode route i] = route[0] ↔ toNode route i = 0 := distinct.getElem_inj_iff
    rw [last] at atLast
    rw [first] at atFirst
    have wraps : toNode route i = 0 ↔ i + 1 = route.length := by
      unfold toNode
      by_cases whole : i + 1 = route.length
      · rw [if_pos whole]
        exact iff_of_true rfl whole
      · rw [if_neg whole]
        exact iff_of_false (Nat.succ_ne_zero i) whole
    rw [Allowed,Ne,Ne,fixed_entry_marked durations (getD_below below inside) new_below,
      fixed_entry_marked durations new_below (getD_below below there),getD_eq_getElem _ _ inside,getD_eq_getElem _ _ there]
    generalize route[i] = source at atLast ⊢
    generalize route[toNode route i] = target at atFirst ⊢
    omega
  refine ⟨⟨0,some_node,(allowed_iff 0 some_node).mpr two⟩,fun i inside allowed => ?_⟩
  have before_last := (allowed_iff i inside).mp allowed
  have point : toNode route i = i + 1 := if_neg before_last.ne
  dsimp only
  rw [point,insertIdx_head? (Nat.succ_pos i),insertIdx_getLast? before_last,head?_eq_getElem?,getElem?_eq_getElem some_node,
    getLast?_eq_getElem?,getElem?_eq_getElem last_inside,first,last]
  exact ⟨rfl,rfl⟩

private theorem insertable_unmarked (unmarked : ∀ k l, k < number_of_locations → l < number_of_locations → table.entry k l ≠ INVALID_EDGE_DURATION) :
    Insertable number_of_locations table fun _ => True := by
  intro route new_loc _ _ below two new_below _
  have inside : 0 < route.length := by omega
  refine ⟨⟨0,inside,unmarked _ _ (getD_below below inside) new_below,unmarked _ _ new_below (getD_below below (toNode_lt inside))⟩,?_⟩
  exact fun _ _ _ => trivial

/-! ### The first two locations -/

private theorem indexOfFarthest_spec (table : DistTableWrapper) :
    indexOfFarthest table ∈ 1 :: List.range' 2 (table.table_.length - 2) ∧
      ∀ i ∈ 1 :: List.range' 2 (table.table_.length - 2),
        table.table_.getD i 0 ≤ table.table_.getD (indexOfFarthest table) 0 := by
  let beats (i best : ℕ) : Prop := table.table_.getD best 0 < table.table_.getD i 0
  have trans : ∀ a b c, beats a b → beats b c → beats a c := fun _ _ _ first second => second.trans first
  have irrefl : ∀ a, ¬beats a a := fun _ => lt_irrefl _
  exact ⟨foldl_keep_mem 1 _,fun i member => not_lt.mp (foldl_keep_unbeaten trans irrefl 1 _ i member)⟩

private theorem getD_eq_entry (nodes : table.number_of_nodes_ = number_of_locations) (i : ℕ) :
    table.table_.getD i 0 = table.entry (i / number_of_locations) (i % number_of_locations) := by
  rw [DistTableWrapper.entry,nodes,Nat.mul_comm,Nat.div_add_mod]

private theorem range'_cut {size middle : ℕ} (two : 2 ≤ middle) (inside : middle < size) :
    List.range' 2 (size - 2) = List.range' 2 (middle - 2) ++ middle :: List.range' (middle + 1) (size - (middle + 1)) := by
  rw [← range'_succ,show size - (middle + 1) + 1 = size - middle by omega]
  have parts := range'_append_1 (s := 2) (m := middle - 2) (n := size - middle)
  rw [show 2 + (middle - 2) = middle by omega,show middle - 2 + (size - middle) = size - 2 by omega] at parts
  exact parts.symm

private theorem Bounded.le (bounded : Bounded number_of_locations table) (square : Square number_of_locations table)
    (inside : i < number_of_locations * number_of_locations) : table.table_.getD i 0 ≤ INVALID_EDGE_DURATION := by
  have some_location : 0 < number_of_locations := Nat.pos_of_ne_zero fun none => by simp [none] at inside
  rw [getD_eq_entry square.nodes]
  obtain ⟨_,marked | short⟩ := bounded _ _ (Nat.div_lt_of_lt_mul inside) (Nat.mod_lt i some_location)
  · exact marked.le
  · exact short.le.trans (by decide)

private theorem indexOfFarthest_fixed (durations : ShortDurations number_of_locations table) (three : 3 ≤ number_of_locations) :
    indexOfFarthest (ManipulateTableForFSE 0 (number_of_locations - 1) table) = number_of_locations - 1 := by
  obtain ⟨square,_⟩ := durations.square.fixed (show 0 < number_of_locations by omega) (show number_of_locations - 1 < number_of_locations by omega)
  have bounded : Bounded number_of_locations (ManipulateTableForFSE 0 (number_of_locations - 1) table) :=
    @bounded_manipulated ⟨true,true,false⟩ _ _ durations (by omega)
  have marked_iff : ∀ l < number_of_locations, (ManipulateTableForFSE 0 (number_of_locations - 1) table).entry 0 l = INVALID_EDGE_DURATION ↔
      l = number_of_locations - 1 := by
    intro l column
    rw [fixed_entry_marked durations (by omega) column]
    omega
  have firstRow : ∀ l < number_of_locations, (ManipulateTableForFSE 0 (number_of_locations - 1) table).table_.getD l 0 =
      (ManipulateTableForFSE 0 (number_of_locations - 1) table).entry 0 l := by
    intro l column
    rw [getD_eq_entry square.nodes,Nat.div_eq_of_lt column,Nat.mod_eq_of_lt column]
  generalize ManipulateTableForFSE 0 (number_of_locations - 1) table = changed at square bounded marked_iff firstRow
  have large : number_of_locations ≤ number_of_locations * number_of_locations := Nat.le_mul_self _
  rw [indexOfFarthest,square.size,range'_cut (show 2 ≤ number_of_locations - 1 by omega) (by omega),foldl_append,foldl_cons]
  have found : (List.range' 2 (number_of_locations - 1 - 2)).foldl
      (keep fun i best => changed.table_.getD best 0 < changed.table_.getD i 0) 1 ∈ 1 :: _ := foldl_keep_mem 1 _
  generalize List.foldl _ 1 (List.range' 2 (number_of_locations - 1 - 2)) = best at found
  have early : best < number_of_locations - 1 := by
    rw [mem_cons,mem_range'_1] at found
    omega
  have last_marked : changed.table_.getD (number_of_locations - 1) 0 = INVALID_EDGE_DURATION := by
    rw [firstRow _ (by omega)]
    exact (marked_iff _ (by omega)).mpr rfl
  have shorter : changed.table_.getD best 0 < changed.table_.getD (number_of_locations - 1) 0 := by
    have not_marked := mt (marked_iff best (by omega)).mp early.ne
    rw [last_marked,firstRow best (by omega)]
    exact ((bounded 0 best (by omega) (by omega)).2.resolve_left not_marked).trans (by decide)
  rw [keep,if_pos shorter]
  refine foldl_keep_of_unbeaten fun i member => not_lt.mpr ?_
  rw [last_marked]
  rw [mem_range'_1] at member
  exact bounded.le square (by omega)

private theorem indexOfFarthest_apart (square : Square number_of_locations table) (three : 3 ≤ number_of_locations)
    (nonneg : ∀ k l, k < number_of_locations → l < number_of_locations → 0 ≤ table.entry k l)
    (diagonal : ∀ i < number_of_locations, table.entry i i = 0) :
    indexOfFarthest table < number_of_locations * number_of_locations ∧
      indexOfFarthest table / number_of_locations ≠ indexOfFarthest table % number_of_locations := by
  have large : 3 * number_of_locations ≤ number_of_locations * number_of_locations := Nat.mul_le_mul_right _ three
  obtain ⟨member,greatest⟩ := indexOfFarthest_spec table
  rw [square.size] at member greatest
  have inside : indexOfFarthest table < number_of_locations * number_of_locations := by
    rw [mem_cons,mem_range'_1] at member
    omega
  refine ⟨inside,fun same => ?_⟩
  have none : table.table_.getD (indexOfFarthest table) 0 = 0 := by
    rw [getD_eq_entry square.nodes,same]
    exact diagonal _ (Nat.mod_lt _ (by omega))
  -- all durations are zero, and the first one of them is that of two locations
  have first : indexOfFarthest table = 1 := by
    refine foldl_keep_of_unbeaten fun i member => not_lt.mpr ?_
    rw [square.size] at member
    have zero := greatest i (mem_cons_of_mem _ member)
    rw [none] at zero
    refine zero.trans ?_
    rw [getD_eq_entry square.nodes]
    exact nonneg _ _ (Nat.div_lt_of_lt_mul (by omega)) (Nat.mod_lt _ (by omega))
  rw [first,Nat.div_eq_of_lt (by omega),Nat.mod_eq_of_lt (by omega)] at same
  exact absurd same (by decide)

private theorem manipulated_diagonal (durations : ShortDurations number_of_locations table)
    (open_end : (form.fixed_start && form.fixed_end) = false) (inside : i < number_of_locations) :
    (manipulated form number_of_locations table).entry i i = 0 := by
  have last_below : number_of_locations - 1 < number_of_locations := by omega
  rw [manipulated,if_neg (Bool.eq_false_iff.mp open_end)]
  split_ifs
  · rw [(durations.square.freeSource (by omega)).2 i i inside inside,durations.diagonal i inside,ite_self]
  · rw [(durations.square.freeDestination last_below).2 i i inside inside,durations.diagonal i inside,ite_self]
  · exact durations.diagonal i inside

private theorem square_manipulated (square : Square number_of_locations table) (some_location : 0 < number_of_locations) :
    Square number_of_locations (manipulated form number_of_locations table) := by
  have last_below := Nat.sub_lt some_location Nat.one_pos
  rw [manipulated]
  split_ifs
  · exact (square.fixed some_location last_below).1
  · exact (square.freeSource some_location).1
  · exact (square.freeDestination last_below).1
  · exact square

private theorem farthestInsertionTrip_visits (durations : ShortDurations number_of_locations table) (three : 3 ≤ number_of_locations) :
    ∃ route, FarthestInsertionTrip number_of_locations (manipulated form number_of_locations table) = some route ∧
      route.Perm (List.range number_of_locations) ∧
      ((form.fixed_start && form.fixed_end) = true → route.head? = some 0 ∧ route.getLast? = some (number_of_locations - 1)) := by
  have bounded : Bounded number_of_locations (manipulated form number_of_locations table) := bounded_manipulated durations (by omega)
  rw [FarthestInsertionTrip]
  cases both : form.fixed_start && form.fixed_end with
  | true =>
    rw [manipulated,if_pos both] at bounded ⊢
    rw [indexOfFarthest_fixed durations three,Nat.div_eq_of_lt (by omega),Nat.mod_eq_of_lt (by omega)]
    obtain ⟨route,found,perm,ends⟩ := findRoute_visits bounded (insertable_fixed durations) (by omega) (by omega) (by omega) (by omega)
      ⟨rfl,rfl⟩
    exact ⟨route,found,perm,fun _ => ends⟩
  | false =>
    have unmarked : ∀ k l, k < number_of_locations → l < number_of_locations →
        (manipulated form number_of_locations table).entry k l ≠ INVALID_EDGE_DURATION := fun k l row column =>
      durations.square.forall_manipulated (P := (· ≠ INVALID_EDGE_DURATION)) (by omega)
        (fun _ _ row column => ((durations.entry row column).2.trans (by decide)).ne) (by decide)
        (fun start stop => by simp [start,stop] at both) row column
    obtain ⟨inside,apart⟩ := indexOfFarthest_apart (@square_manipulated form _ _ durations.square (by omega)) three
      (fun k l row column => (bounded k l row column).1) fun i inside => manipulated_diagonal durations both inside
    obtain ⟨route,found,perm,_⟩ := findRoute_visits bounded (insertable_unmarked unmarked) (by omega) apart
      (Nat.div_lt_of_lt_mul inside) (Nat.mod_lt _ (by omega)) trivial
    exact ⟨route,found,perm,fun impossible => absurd impossible Bool.false_ne_true⟩

/-- The order visits all locations, and between fixed ends it starts and ends there without a marker. -/
theorem farthestInsertion_order (form : TripForm) (durations : ShortDurations number_of_locations table) (three : 3 ≤ number_of_locations) :
    ∃ route, FarthestInsertionTrip number_of_locations (manipulated form number_of_locations table) = some route ∧
      route.Perm (List.range number_of_locations) ∧
      (form.fixed_start = true → form.fixed_end = true →
        (rotated form number_of_locations route).head? = some 0 ∧
        (rotated form number_of_locations route).getLast? = some (number_of_locations - 1) ∧
        INVALID_EDGE_DURATION ∉ tripLegs (manipulated form number_of_locations table) (rotated form number_of_locations route)) := by
  obtain ⟨route,found,perm,ends⟩ := @farthestInsertionTrip_visits form _ _ durations three
  refine ⟨route,found,perm,fun fixed_start fixed_end => ?_⟩
  obtain ⟨first,last⟩ := ends (by rw [fixed_start,fixed_end]; rfl)
  have stays : rotated form number_of_locations route = route := by
    obtain ⟨rest,rfl⟩ := head?_eq_some_iff.mp first
    rw [rotated,fixed_start,Bool.or_true,if_pos rfl,idxOf_cons_self,rotate_zero]
  have finite : Durations number_of_locations table :=
    ⟨durations.square,fun d member => (durations.short d member).imp_right fun less => less.trans (by decide)⟩
  rw [stays]
  exact ⟨first,last,(searchLength_admissible finite (by simp [IsSupportedParameterCombination,fixed_start]) (by omega) (fun _ _ => three)
    ⟨perm,fun _ => first,fun _ => last⟩).1⟩

end Tables

theorem farthestInsertion_three : ∃ route, FarthestInsertionTrip 3 (manipulated ⟨true,true,false⟩ 3 threeLocations) = some route ∧
    route.Perm (List.range 3) := by
  have durations : ShortDurations 3 threeLocations := ⟨⟨rfl,rfl⟩,by decide,by decide⟩
  obtain ⟨route,found,perm,_⟩ := farthestInsertion_order ⟨true,true,false⟩ durations le_rfl
  exact ⟨route,found,perm⟩

end Osrm.TripFarthestInsertion
