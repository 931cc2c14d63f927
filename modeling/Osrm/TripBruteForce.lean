import Mathlib.Algebra.BigOperators.Group.List.Basic
import Mathlib.Algebra.Order.BigOperators.Group.List
import Mathlib.Data.List.GetD
import Osrm.NextPermutation
import Osrm.TripPlugin

/-!
`engine/trip/trip_brute_force.hpp`: the shortest round trip over all orders of the locations, where the sum for an
order is cut off at the best one so far.
-/
namespace Osrm.TripBruteForce
open List
open Typedefs (EdgeDuration INVALID_EDGE_DURATION)
open NextPermutation (ordersFrom mem_ordersFrom_ascending)
open TripPlugin

section Search
variable (dist_table : DistTableWrapper) (location_order : List ℕ) (min_route_dist : EdgeDuration) (number_of_locations : ℕ)

def legFrom (current_index : ℕ) : EdgeDuration :=
  dist_table.entry (location_order.getD current_index 0) (location_order.getD ((current_index + 1) % number_of_locations) 0)

/-- The loop over the locations, with those that are left. -/
def addLegs : List ℕ → EdgeDuration → EdgeDuration
  | [], route_dist => route_dist
  | current_index :: later, route_dist =>
    if route_dist < min_route_dist then
      let edge_weight := legFrom dist_table location_order number_of_locations current_index
      if edge_weight = INVALID_EDGE_DURATION then INVALID_EDGE_DURATION else addLegs later (toInt32 (route_dist + edge_weight))
    else route_dist

def ReturnDistance : EdgeDuration :=
  addLegs dist_table location_order min_route_dist number_of_locations (List.range location_order.length) 0

structure Best where
  min_route_dist : EdgeDuration
  route : List ℕ

def improve (best : Best) (node_order : List ℕ) : Best :=
  let new_distance := ReturnDistance dist_table node_order best.min_route_dist number_of_locations
  if new_distance < best.min_route_dist then ⟨new_distance,node_order⟩ else best
def BruteForceTrip (number_of_locations : ℕ) (dist_table : DistTableWrapper) : List ℕ :=
  ((ordersFrom (List.range number_of_locations)).foldl (improve dist_table number_of_locations)
    ⟨INVALID_EDGE_DURATION,List.range number_of_locations⟩).route

end Search

section Meaning
variable (dist_table : DistTableWrapper) (number_of_locations : ℕ)

def searchLength (order : List ℕ) : EdgeDuration :=
  if INVALID_EDGE_DURATION ∈ tripLegs dist_table order then INVALID_EDGE_DURATION else (tripLegs dist_table order).sum
def NoOverflow : Prop :=
  ∀ order, order.Perm (List.range number_of_locations) → ∀ legs, legs <+: tripLegs dist_table order →
    INVALID_EDGE_DURATION ∉ legs → legs.sum ≤ INVALID_EDGE_DURATION
def NonNegative : Prop := ∀ k l, k < number_of_locations → l < number_of_locations → 0 ≤ dist_table.entry k l

end Meaning

/-! ### The search -/

section Searching
variable {dist_table : DistTableWrapper} {order : List ℕ} {min_route_dist route_dist : EdgeDuration} {number_of_locations : ℕ}

private theorem addLegs_spec (indices : List ℕ) (limit : min_route_dist ≤ INVALID_EDGE_DURATION) (positive : 0 ≤ route_dist)
    (legs : List EdgeDuration) (are : indices.map (legFrom dist_table order number_of_locations) = legs)
    (nonneg : ∀ leg ∈ legs, 0 ≤ leg)
    (fits : ∀ front, front <+: legs → INVALID_EDGE_DURATION ∉ front → route_dist + front.sum ≤ INVALID_EDGE_DURATION) :
    (addLegs dist_table order min_route_dist number_of_locations indices route_dist < min_route_dist ↔
      INVALID_EDGE_DURATION ∉ legs ∧ route_dist + legs.sum < min_route_dist) ∧
    (addLegs dist_table order min_route_dist number_of_locations indices route_dist < min_route_dist →
      addLegs dist_table order min_route_dist number_of_locations indices route_dist = route_dist + legs.sum) := by
  induction indices generalizing route_dist legs with
  | nil =>
    subst are
    simp [addLegs]
  | cons i later ih =>
    subst are
    rw [map_cons] at nonneg fits ⊢
    obtain ⟨leg_nonneg,later_nonneg⟩ := forall_mem_cons.mp nonneg
    rw [addLegs,mem_cons,sum_cons]
    have sum_nonneg : 0 ≤ (later.map (legFrom dist_table order number_of_locations)).sum := sum_nonneg later_nonneg
    dsimp only
    split_ifs with less marked
    · refine ⟨?_,fun under => absurd under (not_lt.mpr limit)⟩
      simp [marked,not_lt.mpr limit]
    · have first := fits [legFrom dist_table order number_of_locations i] (by simp) (by simpa [eq_comm] using marked)
      rw [sum_singleton] at first
      have exactly : toInt32 (route_dist + legFrom dist_table order number_of_locations i) =
          route_dist + legFrom dist_table order number_of_locations i := toInt32_of_bounds (by lia) first
      have more : 0 ≤ route_dist + legFrom dist_table order number_of_locations i := by lia
      have step := ih more _ rfl later_nonneg fun front begins unmarked => by
        have := fits (legFrom dist_table order number_of_locations i :: front) (by simpa using begins) (by simp [unmarked,Ne.symm marked])
        rw [sum_cons] at this
        lia
      rw [exactly]
      rw [add_assoc] at step
      simpa [Ne.symm marked] using step
    · refine ⟨iff_of_false less fun both => less ?_,fun under => absurd under less⟩
      lia

private theorem map_legFrom (size : order.length = number_of_locations) :
    (List.range order.length).map (legFrom dist_table order number_of_locations) = tripLegs dist_table order := by
  refine ext_getElem (by simp [tripLegs]) fun i inside inside' => ?_
  have there : i < order.length := by simpa using inside
  rw [getElem_map,getElem_range,legFrom]
  simp only [tripLegs,getElem_zipWith,getElem_rotate]
  rw [getD_eq_getElem _ _ there,getD_eq_getElem _ _ (size ▸ Nat.mod_lt _ (by omega))]
  simp only [size]

private theorem returnDistance_spec (nonneg : NonNegative dist_table number_of_locations) (fits : NoOverflow dist_table number_of_locations)
    (perm : order.Perm (List.range number_of_locations)) (limit : min_route_dist ≤ INVALID_EDGE_DURATION) :
    (ReturnDistance dist_table order min_route_dist number_of_locations < min_route_dist ↔ searchLength dist_table order < min_route_dist) ∧
    (ReturnDistance dist_table order min_route_dist number_of_locations < min_route_dist →
      ReturnDistance dist_table order min_route_dist number_of_locations = searchLength dist_table order) := by
  have size : order.length = number_of_locations := by rw [perm.length_eq,length_range]
  have below : ∀ x ∈ order, x < number_of_locations := fun x member => mem_range.mp (perm.subset member)
  have legs_nonneg : ∀ leg ∈ tripLegs dist_table order, 0 ≤ leg := forall_tripLegs fun x here y there => nonneg x y (below x here) (below y there)
  obtain ⟨under,length⟩ := addLegs_spec (List.range order.length) limit le_rfl _ (map_legFrom size) legs_nonneg
    (by simpa using fits order perm)
  rw [zero_add] at under length
  rw [ReturnDistance,searchLength]
  split_ifs with marked
  · have not_under := not_lt.mpr limit
    refine ⟨iff_of_false (fun less => (under.mp less).1 marked) not_under,fun less => absurd marked (under.mp less).1⟩
  · exact ⟨under.trans (and_iff_right marked),length⟩

structure Found (dist_table : DistTableWrapper) (first : List ℕ) (seen : List (List ℕ)) (best : Best) : Prop where
  limit : best.min_route_dist ≤ INVALID_EDGE_DURATION
  length : searchLength dist_table best.route ≤ best.min_route_dist
  least : ∀ order ∈ seen, best.min_route_dist ≤ searchLength dist_table order
  known : best.route = first ∨ best.route ∈ seen ∧ searchLength dist_table best.route < INVALID_EDGE_DURATION

private theorem searchLength_le (fits : NoOverflow dist_table number_of_locations) (perm : order.Perm (List.range number_of_locations)) :
    searchLength dist_table order ≤ INVALID_EDGE_DURATION := by
  rw [searchLength]
  split_ifs with marked
  · exact le_rfl
  · exact fits order perm _ prefix_rfl marked

private theorem Found.improve {first : List ℕ} {seen : List (List ℕ)} {best : Best} (found : Found dist_table first seen best)
    (nonneg : NonNegative dist_table number_of_locations) (fits : NoOverflow dist_table number_of_locations)
    (perm : order.Perm (List.range number_of_locations)) :
    Found dist_table first (seen ++ [order]) (improve dist_table number_of_locations best order) := by
  obtain ⟨under,same⟩ := returnDistance_spec nonneg fits perm found.limit
  rw [TripBruteForce.improve]
  split_ifs with less
  · rw [same less]
    have shorter := under.mp less
    refine ⟨searchLength_le fits perm,le_rfl,?_,.inr ⟨by simp,shorter.trans_le found.limit⟩⟩
    refine forall_mem_append.mpr ⟨fun other member => shorter.le.trans (found.least other member),?_⟩
    exact forall_mem_singleton.mpr le_rfl
  · refine ⟨found.limit,found.length,?_,found.known.imp_right fun both => ⟨mem_append_left _ both.1,both.2⟩⟩
    refine forall_mem_append.mpr ⟨found.least,forall_mem_singleton.mpr ?_⟩
    exact not_lt.mp fun shorter => less (under.mpr shorter)

private theorem Found.foldl {first : List ℕ} {best : Best} (seen orders : List (List ℕ)) (found : Found dist_table first seen best)
    (nonneg : NonNegative dist_table number_of_locations) (fits : NoOverflow dist_table number_of_locations)
    (perms : ∀ order ∈ orders, order.Perm (List.range number_of_locations)) :
    Found dist_table first (seen ++ orders) (orders.foldl (TripBruteForce.improve dist_table number_of_locations) best) := by
  induction orders generalizing seen best with
  | nil => rwa [append_nil]
  | cons order later ih =>
    have step := found.improve nonneg fits (perms order (by simp))
    have run := ih (seen ++ [order]) step fun other member => perms other (mem_cons_of_mem _ member)
    rwa [append_assoc] at run

theorem bruteForceTrip_spec (nonneg : NonNegative dist_table number_of_locations) (fits : NoOverflow dist_table number_of_locations) :
    (BruteForceTrip number_of_locations dist_table).Perm (List.range number_of_locations) ∧
      (∀ order, order.Perm (List.range number_of_locations) →
        searchLength dist_table (BruteForceTrip number_of_locations dist_table) ≤ searchLength dist_table order) ∧
      (BruteForceTrip number_of_locations dist_table = List.range number_of_locations ∨
        searchLength dist_table (BruteForceTrip number_of_locations dist_table) < INVALID_EDGE_DURATION) := by
  have all : ∀ order, order ∈ ordersFrom (List.range number_of_locations) ↔ order.Perm (List.range number_of_locations) := fun order =>
    mem_ordersFrom_ascending (pairwise_le_range)
  have start : Found dist_table (List.range number_of_locations) [] ⟨INVALID_EDGE_DURATION,List.range number_of_locations⟩ :=
    ⟨le_rfl,searchLength_le fits (Perm.refl _),by simp,.inl rfl⟩
  have found := start.foldl [] (ordersFrom (List.range number_of_locations)) nonneg fits fun order member => (all order).mp member
  rw [nil_append] at found
  refine ⟨?_,fun order perm => found.length.trans (found.least order ((all order).mpr perm)),found.known.imp_right And.right⟩
  rcases found.known with first | ⟨seen,_⟩
  · exact Perm.of_eq first
  · exact (all _).mp seen

end Searching

/-! ### The shortest trip -/

/-- The order of `HandleRequest` for few locations. -/
def bruteForceOrder (form : TripForm) (number_of_locations : ℕ) (result_duration_table : DistTableWrapper) : List ℕ :=
  rotated form number_of_locations
    (BruteForceTrip number_of_locations (manipulated form number_of_locations result_duration_table))

section Shortest
variable {form : TripForm} {number_of_locations : ℕ} {table : DistTableWrapper} {order : List ℕ}

private theorem searchLength_rotated (form : TripForm) (number_of_locations : ℕ) (table : DistTableWrapper) (order : List ℕ) :
    searchLength table (rotated form number_of_locations order) = searchLength table order := by
  obtain ⟨k,there⟩ := exists_rotated form number_of_locations order
  rw [there,searchLength,searchLength,tripLegs_rotate]
  simp only [mem_rotate,(rotate_perm (tripLegs table order) k).sum_eq]

/-- The table is that of some locations, with a duration of each way. -/
structure Durations (number_of_locations : ℕ) (table : DistTableWrapper) : Prop where
  square : Square number_of_locations table
  finite : ∀ duration ∈ table.table_, 0 ≤ duration ∧ duration < INVALID_EDGE_DURATION

theorem searchLength_admissible (durations : Durations number_of_locations table) (supported : IsSupportedParameterCombination form = true)
    (some_location : 0 < number_of_locations) (room : form.fixed_start = true → form.fixed_end = true → 3 ≤ number_of_locations)
    (admissible : Admissible form number_of_locations order) :
    INVALID_EDGE_DURATION ∉ tripLegs (manipulated form number_of_locations table) order ∧
      (tripLegs (manipulated form number_of_locations table) order).sum = requestedLength form table order := by
  have no_marker : ∀ x ∈ order, ∀ y ∈ order, table.entry x y ≠ INVALID_EDGE_DURATION := fun x here y there =>
    (durations.square.forall_entry durations.finite (admissible.below x here) (admissible.below y there)).2.ne
  have legs_marked : INVALID_EDGE_DURATION ∉ tripLegs table order := fun member =>
    forall_tripLegs (P := (· ≠ INVALID_EDGE_DURATION)) no_marker _ member rfl
  rw [requestedLength]
  cases round : form.asPath with
  | false =>
    rw [manipulated_roundtrip round]
    exact ⟨legs_marked,rfl⟩
  | true =>
    rw [tripLegs_manipulated durations.square supported admissible round some_location room,sum_append,sum_singleton,add_zero,
      mem_append,mem_singleton]
    refine ⟨?_,rfl⟩
    rintro (member | free)
    · exact legs_marked (pathLegs_subset member)
    · exact absurd free (by decide)

private theorem admissible_range (form : TripForm) (some_location : 0 < number_of_locations) :
    Admissible form number_of_locations (List.range number_of_locations) := by
  refine ⟨Perm.refl _,fun _ => ?_,fun _ => ?_⟩
  · rw [head?_range,if_neg some_location.ne']
  · rw [getLast?_range,if_neg some_location.ne']

private theorem nonNegative_manipulated (durations : Durations number_of_locations table) (some_location : 0 < number_of_locations) :
    NonNegative (manipulated form number_of_locations table) number_of_locations := fun _ _ row column =>
  durations.square.forall_manipulated some_location (fun _ _ row column => (durations.square.forall_entry durations.finite row column).1)
    le_rfl (fun _ _ => by decide) row column

private theorem unmarked_bruteForceTrip (durations : Durations number_of_locations table) (supported : IsSupportedParameterCombination form = true)
    (three : 3 ≤ number_of_locations) (fits : NoOverflow (manipulated form number_of_locations table) number_of_locations) :
    INVALID_EDGE_DURATION ∉ tripLegs (manipulated form number_of_locations table)
      (BruteForceTrip number_of_locations (manipulated form number_of_locations table)) := by
  obtain ⟨_,_,first | under⟩ := bruteForceTrip_spec (nonNegative_manipulated durations (by omega)) fits
  · rw [first]
    exact (searchLength_admissible durations supported (by omega) (fun _ _ => three) (admissible_range form (by omega))).1
  · intro marked
    rw [searchLength,if_pos marked] at under
    exact lt_irrefl _ under

private theorem bruteForceOrder_last (durations : Durations number_of_locations table) (two : 2 ≤ number_of_locations)
    (fits : NoOverflow (manipulated form number_of_locations table) number_of_locations) (fixed_start : form.fixed_start = true)
    (fixed_end : form.fixed_end = true) :
    (bruteForceOrder form number_of_locations table).getLast? = some (number_of_locations - 1) := by
  have some_location : 0 < number_of_locations := by omega
  obtain ⟨perm,_⟩ := bruteForceTrip_spec (@nonNegative_manipulated form _ _ durations some_location) fits
  have all : (bruteForceOrder form number_of_locations table).Perm (List.range number_of_locations) := rotated_perm.trans perm
  have first : (bruteForceOrder form number_of_locations table).head? = some 0 :=
    rotated_start (perm.symm.subset (mem_range.mpr some_location)) (by rw [fixed_start]; rfl)
  obtain ⟨rest,shape⟩ := head?_eq_some_iff.mp first
  have size : rest.length + 1 = number_of_locations := by rw [← length_range (n := number_of_locations),← all.length_eq,shape,length_cons]
  obtain rfl | ⟨front,last,rfl⟩ := eq_nil_or_concat' rest
  · rw [length_nil] at size
    omega
  have distinct : (0 :: (front ++ [last])).Nodup := shape ▸ all.nodup_iff.mpr nodup_range
  have not_first : last ≠ 0 := by
    rintro rfl
    exact (nodup_cons.mp distinct).1 (by simp)
  have below : last < number_of_locations := mem_range.mp (all.subset (by rw [shape]; simp))
  rw [shape,← cons_append,getLast?_concat,Option.some.injEq]
  by_contra other
  -- the way back would be a marker
  have unmarked := unmarked_bruteForceTrip durations (by simp [IsSupportedParameterCombination,fixed_start]) (by omega) fits
  obtain ⟨k,there⟩ := exists_rotated form number_of_locations
    (BruteForceTrip number_of_locations (manipulated form number_of_locations table))
  rw [← mem_rotate (n := k),← tripLegs_rotate,← there] at unmarked
  change INVALID_EDGE_DURATION ∉ tripLegs _ (bruteForceOrder form number_of_locations table) at unmarked
  rw [shape,tripLegs_eq (cons_ne_nil _ _),mem_append,not_or,mem_singleton] at unmarked
  refine unmarked.2 ?_
  have back : (0 :: (front ++ [last])).getLast (cons_ne_nil _ _) = last := by simp
  have shape_table : manipulated form number_of_locations table = ManipulateTableForFSE 0 (number_of_locations - 1) table := by
    rw [manipulated,fixed_start,fixed_end]
    rfl
  rw [back,head_cons,shape_table,(durations.square.fixed some_location (by omega)).2 last 0 below some_location,if_neg (by omega),
    if_neg (by omega),if_pos (by omega)]

private theorem admissible_two {other : List ℕ} (fixed_start : form.fixed_start = true) (fixed_end : form.fixed_end = true)
    (admissible : Admissible form 2 order) (admissible' : Admissible form 2 other) : order = other := by
  have shape : ∀ {order}, Admissible form 2 order → order = [0,1] := by
    intro order admissible
    obtain ⟨rest,rfl⟩ := head?_eq_some_iff.mp (admissible.start (by rw [fixed_start]; rfl))
    have last := admissible.stop (by rw [fixed_start,fixed_end]; rfl)
    have size := admissible.all.length_eq
    obtain ⟨a,rfl⟩ := length_eq_one_iff.mp (Nat.succ_inj.mp size)
    rw [show [0,a] = [0] ++ [a] from rfl,getLast?_concat,Option.some.injEq] at last
    rw [last]
  rw [shape admissible,shape admissible']

/-- The trip is admissible, and no admissible one is shorter. -/
theorem bruteForceOrder_shortest (durations : Durations number_of_locations table) (two : 2 ≤ number_of_locations)
    (supported : IsSupportedParameterCombination form = true)
    (fits : NoOverflow (manipulated form number_of_locations table) number_of_locations) :
    Admissible form number_of_locations (bruteForceOrder form number_of_locations table) ∧
      ∀ order, Admissible form number_of_locations order →
        requestedLength form table (bruteForceOrder form number_of_locations table) ≤ requestedLength form table order := by
  have some_location : 0 < number_of_locations := by omega
  obtain ⟨perm,least,_⟩ := bruteForceTrip_spec (@nonNegative_manipulated form _ _ durations some_location) fits
  have member : ∀ i < number_of_locations, i ∈ BruteForceTrip number_of_locations (manipulated form number_of_locations table) := fun i below =>
    perm.symm.subset (mem_range.mpr below)
  have admissible : Admissible form number_of_locations (bruteForceOrder form number_of_locations table) := by
    refine ⟨rotated_perm.trans perm,rotated_start (member 0 some_location),fun stop => ?_⟩
    rw [Bool.and_eq_true] at stop
    cases fixed_start : form.fixed_start with
    | true => exact bruteForceOrder_last durations two fits fixed_start stop.1
    | false =>
      have open_trip : form.roundtrip = false := by simpa [fixed_start] using stop.2
      exact rotated_stop (member _ (by omega)) fixed_start stop.1 open_trip
  refine ⟨admissible,fun order other => ?_⟩
  by_cases room : form.fixed_start = true → form.fixed_end = true → 3 ≤ number_of_locations
  · have lengths : ∀ {order}, Admissible form number_of_locations order →
        searchLength (manipulated form number_of_locations table) order = requestedLength form table order := by
      intro order admissible
      obtain ⟨unmarked,length⟩ := searchLength_admissible durations supported some_location room admissible
      rw [searchLength,if_neg unmarked,length]
    calc requestedLength form table (bruteForceOrder form number_of_locations table)
        = searchLength (manipulated form number_of_locations table) (bruteForceOrder form number_of_locations table) := (lengths admissible).symm
      _ = searchLength (manipulated form number_of_locations table)
            (BruteForceTrip number_of_locations (manipulated form number_of_locations table)) := searchLength_rotated ..
      _ ≤ searchLength (manipulated form number_of_locations table) order := least order other.all
      _ = requestedLength form table order := lengths other
  · push Not at room
    obtain ⟨fixed_start,fixed_end,few⟩ := room
    obtain rfl : number_of_locations = 2 := by omega
    rw [admissible_two fixed_start fixed_end admissible other]

private theorem noOverflow_of_bound {bound : EdgeDuration} (durations : Durations number_of_locations table) (some_location : 0 < number_of_locations)
    (nonneg : 0 ≤ bound) (bounded : ∀ duration ∈ table.table_, duration ≤ bound) (fits : number_of_locations * bound ≤ INVALID_EDGE_DURATION) :
    NoOverflow (manipulated form number_of_locations table) number_of_locations := by
  intro order perm legs begins unmarked
  have below : ∀ x ∈ order, x < number_of_locations := fun x member => mem_range.mp (perm.subset member)
  have leg_bound : ∀ leg ∈ tripLegs (manipulated form number_of_locations table) order, leg = INVALID_EDGE_DURATION ∨ leg ≤ bound :=
    forall_tripLegs (P := fun leg => leg = INVALID_EDGE_DURATION ∨ leg ≤ bound) fun x here y there =>
      durations.square.forall_manipulated (P := fun leg => leg = INVALID_EDGE_DURATION ∨ leg ≤ bound) some_location
        (fun _ _ row column => .inr (durations.square.forall_entry bounded row column)) (.inr nonneg) (fun _ _ => .inl rfl) (below x here)
        (below y there)
  have count : legs.length ≤ number_of_locations := by
    have := begins.length_le
    rwa [tripLegs,length_zipWith,length_rotate,Nat.min_self,perm.length_eq,length_range] at this
  have sum := sum_le_card_nsmul legs bound fun leg member => by
    rcases leg_bound leg (begins.subset member) with rfl | le
    · exact absurd member unmarked
    · exact le
  rw [nsmul_eq_mul] at sum
  exact sum.trans ((mul_le_mul_of_nonneg_right (Int.ofNat_le.mpr count) nonneg).trans fits)

end Shortest

def threeLocations : DistTableWrapper := ⟨[0,1,2,3,0,4,5,6,0],3⟩

theorem bruteForceOrder_three : requestedLength ⟨true,true,false⟩ threeLocations (bruteForceOrder ⟨true,true,false⟩ 3 threeLocations) ≤
    requestedLength ⟨true,true,false⟩ threeLocations [0,1,2] := by
  have durations : Durations 3 threeLocations := ⟨⟨rfl,rfl⟩,by decide⟩
  have fits : NoOverflow (manipulated ⟨true,true,false⟩ 3 threeLocations) 3 :=
    noOverflow_of_bound durations (by decide) (show (0 : EdgeDuration) ≤ 6 by decide) (by decide) (by decide)
  exact (bruteForceOrder_shortest durations (by decide) rfl fits).2 [0,1,2] ⟨Perm.refl _,fun _ => rfl,fun _ => rfl⟩

end Osrm.TripBruteForce
