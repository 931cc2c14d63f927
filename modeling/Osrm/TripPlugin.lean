import Mathlib.Data.List.Rotate
import Osrm.Typedefs

/-!
The table of durations and the request forms of `engine/plugins/trip.cpp`. Both searches look for round trips; for the other
forms the table is changed before the search, and the trip is rotated after it.
-/
namespace Osrm.TripPlugin
open List Option
open Typedefs (EdgeDuration INVALID_EDGE_DURATION)

def toInt32 (x : ℤ) : EdgeDuration := x.bmod (2 ^ 32)

/-- Within the bounds the conversion changes nothing. -/
theorem toInt32_of_bounds {x : ℤ} (low : -2147483648 ≤ x) (high : x ≤ INVALID_EDGE_DURATION) : toInt32 x = x := by
  rw [INVALID_EDGE_DURATION] at high
  rw [toInt32,Int.bmod_eq_of_le] <;> omega

structure DistTableWrapper where
  table_ : List EdgeDuration
  number_of_nodes_ : ℕ

namespace DistTableWrapper
variable (table : DistTableWrapper)

def GetNumberOfNodes : ℕ := table.number_of_nodes_
/-- `operator()` of the table. -/
def entry (source target : ℕ) : EdgeDuration := table.table_.getD (source * table.number_of_nodes_ + target) 0
def SetValue (source target : ℕ) (value : EdgeDuration) : DistTableWrapper :=
  { table with table_ := table.table_.set (source * table.number_of_nodes_ + target) value }

end DistTableWrapper

section Manipulation
variable (source_id destination_id : ℕ) (result_table : DistTableWrapper)

/-- No way leads to the source or from the destination, and the way from the destination to the source is free. -/
def ManipulateTableForFSE : DistTableWrapper :=
  let no_way_to_source := ((List.range result_table.GetNumberOfNodes).filter (· ≠ source_id)).foldl
    (fun table i => table.SetValue i source_id INVALID_EDGE_DURATION) result_table
  let no_way_from_destination := ((List.range result_table.GetNumberOfNodes).filter (· ≠ destination_id)).foldl
    (fun table i => table.SetValue destination_id i INVALID_EDGE_DURATION) no_way_to_source
  (no_way_from_destination.SetValue destination_id source_id 0).SetValue source_id destination_id INVALID_EDGE_DURATION

def ManipulateTableForNonRoundtripFS : DistTableWrapper :=
  (List.range result_table.GetNumberOfNodes).foldl (fun table i => table.SetValue i source_id 0) result_table
def ManipulateTableForNonRoundtripFE : DistTableWrapper :=
  (List.range result_table.GetNumberOfNodes).foldl (fun table i => table.SetValue destination_id i 0) result_table

end Manipulation

/-- Whether the first location is the start and the last one the end, and whether the trip returns. -/
structure TripForm where
  fixed_start : Bool
  fixed_end : Bool
  roundtrip : Bool

def IsSupportedParameterCombination (form : TripForm) : Bool := form.roundtrip || form.fixed_start || form.fixed_end

section Request
variable (form : TripForm) (number_of_locations : ℕ)

/-- The table the search is given. -/
def manipulated (result_duration_table : DistTableWrapper) : DistTableWrapper :=
  if form.fixed_start && form.fixed_end then ManipulateTableForFSE 0 (number_of_locations - 1) result_duration_table
  else if !form.roundtrip && form.fixed_start then ManipulateTableForNonRoundtripFS 0 result_duration_table
  else if !form.roundtrip && form.fixed_end then ManipulateTableForNonRoundtripFE (number_of_locations - 1) result_duration_table
  else result_duration_table

/-- The trip from its first location on, or up to its last one. -/
def rotated (duration_trip : List ℕ) : List ℕ :=
  if !form.fixed_end || form.fixed_start then duration_trip.rotate (duration_trip.idxOf 0)
  else
    let destination_index := duration_trip.idxOf (number_of_locations - 1)
    let front :=
      if !form.roundtrip then
        if destination_index + 1 = duration_trip.length then 0 else destination_index + 1
      else destination_index
    duration_trip.rotate front

end Request

structure Square (number_of_locations : ℕ) (table : DistTableWrapper) : Prop where
  nodes : table.number_of_nodes_ = number_of_locations
  size : table.table_.length = number_of_locations * number_of_locations

def pathLegs (table : DistTableWrapper) (order : List ℕ) : List EdgeDuration := List.zipWith table.entry order order.tail
def tripLegs (table : DistTableWrapper) (order : List ℕ) : List EdgeDuration := List.zipWith table.entry order (order.rotate 1)
def TripForm.asPath (form : TripForm) : Bool := form.fixed_start && form.fixed_end || !form.roundtrip
def requestedLength (form : TripForm) (table : DistTableWrapper) (order : List ℕ) : ℤ :=
  if form.asPath then (pathLegs table order).sum else (tripLegs table order).sum

/-- The order of all locations starts and ends where the request says. -/
structure Admissible (form : TripForm) (number_of_locations : ℕ) (order : List ℕ) : Prop where
  all : order.Perm (List.range number_of_locations)
  start : (form.fixed_start || !form.fixed_end) = true → order.head? = some 0
  stop : (form.fixed_end && (form.fixed_start || !form.roundtrip)) = true → order.getLast? = some (number_of_locations - 1)

/-! ### The manipulated tables -/

section Entries
variable {number_of_locations : ℕ} {table : DistTableWrapper} {i j k l : ℕ} {value : EdgeDuration}

private theorem Square.setValue (square : Square number_of_locations table) : Square number_of_locations (table.SetValue i j value) :=
  ⟨square.nodes,by rw [DistTableWrapper.SetValue,length_set,square.size]⟩

private theorem cell_lt (row : i < number_of_locations) (column : j < number_of_locations) :
    i * number_of_locations + j < number_of_locations * number_of_locations := by
  have := Nat.mul_le_mul_right number_of_locations (Nat.succ_le_of_lt row)
  rw [Nat.succ_mul] at this
  omega

private theorem cell_row (column : j < number_of_locations) : (i * number_of_locations + j) / number_of_locations = i := by
  rw [Nat.add_comm,Nat.add_mul_div_right _ _ (by omega),Nat.div_eq_of_lt column,Nat.zero_add]

private theorem cell_inj (column : j < number_of_locations) (column' : l < number_of_locations) :
    i * number_of_locations + j = k * number_of_locations + l ↔ i = k ∧ j = l := by
  constructor
  · intro same
    have rows : i = k := by
      rw [← cell_row (i := i) column,same,cell_row column']
    exact ⟨rows,by rwa [rows,Nat.add_left_cancel_iff] at same⟩
  · rintro ⟨rfl,rfl⟩
    rfl

theorem Square.forall_entry {P : EdgeDuration → Prop} (square : Square number_of_locations table) (each : ∀ duration ∈ table.table_, P duration)
    (row : k < number_of_locations) (column : l < number_of_locations) : P (table.entry k l) := by
  have inside : k * table.number_of_nodes_ + l < table.table_.length := by
    rw [square.nodes,square.size]
    exact cell_lt row column
  rw [DistTableWrapper.entry,getD_eq_getElem?_getD,getElem?_eq_getElem inside]
  exact each _ (getElem_mem inside)

private theorem Square.entry_setValue (square : Square number_of_locations table) (row : i < number_of_locations) (column : j < number_of_locations)
    (column' : l < number_of_locations) : (table.SetValue i j value).entry k l = if i = k ∧ j = l then value else table.entry k l := by
  rw [DistTableWrapper.entry,DistTableWrapper.SetValue,getD_eq_getElem?_getD,getElem?_set]
  simp only [square.nodes,cell_inj column column',square.size,cell_lt row column,if_true]
  split_ifs with here
  · rfl
  · rw [DistTableWrapper.entry,getD_eq_getElem?_getD,square.nodes]

private theorem Square.foldl_setValue {cell : ℕ → ℕ × ℕ} (square : Square number_of_locations table) (writes : List ℕ)
    (inside : ∀ i ∈ writes, (cell i).1 < number_of_locations ∧ (cell i).2 < number_of_locations) :
    Square number_of_locations (writes.foldl (fun table i => table.SetValue (cell i).1 (cell i).2 value) table) ∧
      ∀ k l, l < number_of_locations → (writes.foldl (fun table i => table.SetValue (cell i).1 (cell i).2 value) table).entry k l =
        if (k,l) ∈ writes.map cell then value else table.entry k l := by
  induction writes generalizing table with
  | nil => exact ⟨square,fun k l _ => by simp⟩
  | cons i writes ih =>
    obtain ⟨row,column⟩ := inside i (by simp)
    have written : Square number_of_locations (table.SetValue (cell i).1 (cell i).2 value) := square.setValue
    obtain ⟨still,entries⟩ := ih written fun j member => inside j (mem_cons_of_mem _ member)
    refine ⟨still,fun k l column' => ?_⟩
    have first : (k,l) = cell i ↔ (cell i).1 = k ∧ (cell i).2 = l := by
      rw [Prod.ext_iff]
      exact and_congr eq_comm eq_comm
    rw [foldl_cons,entries k l column',square.entry_setValue row column column']
    simp only [map_cons,mem_cons,first]
    by_cases later : (k,l) ∈ writes.map cell
    · rw [if_pos later,if_pos (.inr later)]
    · rw [if_neg later]
      simp only [later,or_false]

private theorem mem_column {writes : List ℕ} : (k,l) ∈ writes.map (fun i => (i,j)) ↔ k ∈ writes ∧ l = j := by
  rw [List.mem_map]
  constructor
  · rintro ⟨i,member,same⟩
    obtain ⟨rfl,rfl⟩ := Prod.mk.inj same
    exact ⟨member,rfl⟩
  · rintro ⟨member,rfl⟩
    exact ⟨k,member,rfl⟩

private theorem mem_row {writes : List ℕ} : (k,l) ∈ writes.map (fun i => (j,i)) ↔ l ∈ writes ∧ k = j := by
  rw [List.mem_map]
  constructor
  · rintro ⟨i,member,same⟩
    obtain ⟨rfl,rfl⟩ := Prod.mk.inj same
    exact ⟨member,rfl⟩
  · rintro ⟨member,rfl⟩
    exact ⟨l,member,rfl⟩

section Locations
variable {source_id destination_id : ℕ} (square : Square number_of_locations table)
include square

theorem Square.freeSource (start : source_id < number_of_locations) :
    Square number_of_locations (ManipulateTableForNonRoundtripFS source_id table) ∧
      ∀ k l, k < number_of_locations → l < number_of_locations →
        (ManipulateTableForNonRoundtripFS source_id table).entry k l = if l = source_id then 0 else table.entry k l := by
  obtain ⟨still,entries⟩ := @foldl_setValue _ _ 0 (fun i => (i,source_id)) square (List.range table.GetNumberOfNodes) fun i member =>
    ⟨by rwa [mem_range,DistTableWrapper.GetNumberOfNodes,square.nodes] at member,start⟩
  refine ⟨still,fun k l row column => ?_⟩
  rw [ManipulateTableForNonRoundtripFS,entries k l column]
  have written : (k,l) ∈ (List.range table.GetNumberOfNodes).map (fun i => (i,source_id)) ↔ l = source_id := by
    rw [mem_column,mem_range,DistTableWrapper.GetNumberOfNodes,square.nodes]
    exact and_iff_right row
  simp only [written]

theorem Square.freeDestination (stop : destination_id < number_of_locations) :
    Square number_of_locations (ManipulateTableForNonRoundtripFE destination_id table) ∧
      ∀ k l, k < number_of_locations → l < number_of_locations →
        (ManipulateTableForNonRoundtripFE destination_id table).entry k l = if k = destination_id then 0 else table.entry k l := by
  obtain ⟨still,entries⟩ := @foldl_setValue _ _ 0 (fun i => (destination_id,i)) square (List.range table.GetNumberOfNodes) fun i member =>
    ⟨stop,by rwa [mem_range,DistTableWrapper.GetNumberOfNodes,square.nodes] at member⟩
  refine ⟨still,fun k l row column => ?_⟩
  rw [ManipulateTableForNonRoundtripFE,entries k l column]
  have written : (k,l) ∈ (List.range table.GetNumberOfNodes).map (fun i => (destination_id,i)) ↔ k = destination_id := by
    rw [mem_row,mem_range,DistTableWrapper.GetNumberOfNodes,square.nodes]
    exact and_iff_right column
  simp only [written]

/-- From the end to the start is free, no other way goes there. -/
theorem Square.fixed (start : source_id < number_of_locations)
    (stop : destination_id < number_of_locations) :
    Square number_of_locations (ManipulateTableForFSE source_id destination_id table) ∧
      ∀ k l, k < number_of_locations → l < number_of_locations →
        (ManipulateTableForFSE source_id destination_id table).entry k l =
          if k = source_id ∧ l = destination_id then INVALID_EDGE_DURATION
          else if k = destination_id ∧ l = source_id then 0
          else if k = destination_id ∧ l ≠ destination_id ∨ l = source_id ∧ k ≠ source_id then INVALID_EDGE_DURATION
          else table.entry k l := by
  have nodes : table.GetNumberOfNodes = number_of_locations := square.nodes
  rw [ManipulateTableForFSE,nodes]
  obtain ⟨square,columns⟩ := @foldl_setValue _ _ INVALID_EDGE_DURATION (fun i => (i,source_id)) square
    ((List.range number_of_locations).filter (· ≠ source_id)) fun i member => ⟨by simpa using (mem_filter.mp member).1,start⟩
  obtain ⟨square,rows⟩ := @foldl_setValue _ _ INVALID_EDGE_DURATION (fun i => (destination_id,i)) square
    ((List.range number_of_locations).filter (· ≠ destination_id)) fun i member => ⟨stop,by simpa using (mem_filter.mp member).1⟩
  refine ⟨square.setValue.setValue,fun k l row column => ?_⟩
  rw [square.setValue.entry_setValue start stop column,square.entry_setValue stop start column,rows k l column,columns k l column]
  have inRow : (k,l) ∈ ((List.range number_of_locations).filter (· ≠ destination_id)).map (fun i => (destination_id,i)) ↔
      k = destination_id ∧ l ≠ destination_id := by
    rw [mem_row,mem_filter,mem_range,decide_eq_true_eq]
    exact ⟨fun both => ⟨both.2,both.1.2⟩,fun both => ⟨⟨column,both.2⟩,both.1⟩⟩
  have inColumn : (k,l) ∈ ((List.range number_of_locations).filter (· ≠ source_id)).map (fun i => (i,source_id)) ↔
      l = source_id ∧ k ≠ source_id := by
    rw [mem_column,mem_filter,mem_range,decide_eq_true_eq]
    exact ⟨fun both => ⟨both.2,both.1.2⟩,fun both => ⟨⟨row,both.2⟩,both.1⟩⟩
  simp only [inRow,inColumn]
  split_ifs <;> first | rfl | omega

end Locations

end Entries

section Legs
variable {table other : DistTableWrapper} {order : List ℕ} {a b : ℕ} {P : EdgeDuration → Prop}

private theorem pathLegs_cons_cons {rest : List ℕ} : pathLegs table (a :: b :: rest) = table.entry a b :: pathLegs table (b :: rest) := rfl

private theorem pathLegs_congr (same : order.IsChain fun x y => table.entry x y = other.entry x y) : pathLegs table order = pathLegs other order := by
  induction order with
  | nil => rfl
  | cons a rest ih =>
    cases rest with
    | nil => rfl
    | cons b rest =>
      obtain ⟨first,later⟩ := isChain_cons_cons.mp same
      rw [pathLegs_cons_cons,pathLegs_cons_cons,first,ih later]

theorem tripLegs_eq (nonempty : order ≠ []) :
    tripLegs table order = pathLegs table order ++ [table.entry (order.getLast nonempty) (order.head nonempty)] := by
  have way_back : ∀ (rest : List ℕ) (a c : ℕ), List.zipWith table.entry (a :: rest) (rest ++ [c]) =
      List.zipWith table.entry (a :: rest) rest ++ [table.entry ((a :: rest).getLast (cons_ne_nil _ _)) c] := by
    intro rest
    induction rest with
    | nil => simp
    | cons b rest ih =>
      intro a c
      rw [cons_append,zipWith_cons_cons,ih,zipWith_cons_cons,getLast_cons (cons_ne_nil _ _)]
      rfl
  obtain ⟨a,rest,rfl⟩ := exists_cons_of_ne_nil nonempty
  rw [tripLegs,rotate_cons_succ,rotate_zero]
  exact way_back rest a a

theorem forall_tripLegs (each : ∀ x ∈ order, ∀ y ∈ order, P (table.entry x y)) : ∀ leg ∈ tripLegs table order, P leg := by
  intro leg member
  rw [tripLegs,← map_uncurry_zip_eq_zipWith,List.mem_map] at member
  obtain ⟨⟨x,y⟩,both,rfl⟩ := member
  obtain ⟨here,there⟩ := of_mem_zip both
  exact each x here y (mem_rotate.mp there)

theorem pathLegs_subset : pathLegs table order ⊆ tripLegs table order := by
  cases order with
  | nil => exact nil_subset _
  | cons a rest =>
    rw [tripLegs_eq (cons_ne_nil a rest)]
    exact subset_append_left _ _

theorem tripLegs_rotate (table : DistTableWrapper) (order : List ℕ) (k : ℕ) :
    tripLegs table (order.rotate k) = (tripLegs table order).rotate k := by
  rw [tripLegs,tripLegs,zipWith_rotate_distrib _ _ _ _ (length_rotate _ _).symm,rotate_rotate,rotate_rotate,
    Nat.add_comm]

end Legs

/-! ### The request forms -/

section Forms
variable {form : TripForm} {number_of_locations : ℕ} {table : DistTableWrapper} {order duration_trip : List ℕ}

private theorem pathLegs_frame {other : DistTableWrapper} (distinct : order.Nodup)
    (same : ∀ x ∈ order, ∀ y ∈ order, order.head? ≠ some y → order.getLast? ≠ some x →
      (order.head? = some x → order.getLast? = some y → order.length = 2) → other.entry x y = table.entry x y) :
    pathLegs other order = pathLegs table order := by
  have front : ∀ j (inside : j < order.length), order.head? = some order[j] → j = 0 := by
    intro j inside first
    rw [head?_eq_getElem?,List.getElem?_eq_some_iff] at first
    obtain ⟨_,equal⟩ := first
    exact (distinct.getElem_inj_iff.mp equal).symm
  have back : ∀ j (inside : j < order.length), order.getLast? = some order[j] → j = order.length - 1 := by
    intro j inside last
    rw [getLast?_eq_getElem?,List.getElem?_eq_some_iff] at last
    obtain ⟨_,equal⟩ := last
    exact (distinct.getElem_inj_iff.mp equal).symm
  refine pathLegs_congr (isChain_iff_getElem.mpr fun i inside => ?_)
  refine same _ (getElem_mem _) _ (getElem_mem _) (fun first => ?_) (fun last => ?_) fun first last => ?_
  · exact Nat.succ_ne_zero i (front (i + 1) inside first)
  · have := back i (by omega) last
    omega
  · have := front i (by omega) first
    have := back (i + 1) inside last
    omega

theorem Admissible.below (admissible : Admissible form number_of_locations order) : ∀ x ∈ order, x < number_of_locations :=
  fun _ member => mem_range.mp (admissible.all.subset member)

theorem Square.forall_manipulated {P : EdgeDuration → Prop} (square : Square number_of_locations table) (some_location : 0 < number_of_locations)
    (each : ∀ k l, k < number_of_locations → l < number_of_locations → P (table.entry k l)) (free : P 0)
    (marker : form.fixed_start = true → form.fixed_end = true → P INVALID_EDGE_DURATION) {k l : ℕ} (row : k < number_of_locations)
    (column : l < number_of_locations) : P ((manipulated form number_of_locations table).entry k l) := by
  have last_below := Nat.sub_lt some_location Nat.one_pos
  rw [manipulated]
  split_ifs with both
  · rw [Bool.and_eq_true] at both
    rw [(square.fixed some_location last_below).2 k l row column]
    split_ifs
    · exact marker both.1 both.2
    · exact free
    · exact marker both.1 both.2
    · exact each k l row column
  · rw [(square.freeSource some_location).2 k l row column]
    split_ifs
    · exact free
    · exact each k l row column
  · rw [(square.freeDestination last_below).2 k l row column]
    split_ifs
    · exact free
    · exact each k l row column
  · exact each k l row column

theorem tripLegs_manipulated (square : Square number_of_locations table) (supported : IsSupportedParameterCombination form = true)
    (admissible : Admissible form number_of_locations order) (path : form.asPath = true) (some_location : 0 < number_of_locations)
    (room : form.fixed_start = true → form.fixed_end = true → 3 ≤ number_of_locations) :
    tripLegs (manipulated form number_of_locations table) order = pathLegs table order ++ [0] := by
  have distinct : order.Nodup := admissible.all.nodup_iff.mpr nodup_range
  have size : order.length = number_of_locations := by rw [admissible.all.length_eq,length_range]
  have nonempty : order ≠ [] := by
    rintro rfl
    rw [← size] at some_location
    exact absurd some_location (lt_irrefl _)
  have below := admissible.below
  have head_below := below _ (head_mem nonempty)
  have last_below := below _ (getLast_mem nonempty)
  have head_eq : ∀ {a}, order.head? = some a → order.head nonempty = a := fun first => by
    rwa [head?_eq_some_head nonempty,some.injEq] at first
  have last_eq : ∀ {a}, order.getLast? = some a → order.getLast nonempty = a := fun last => by
    rwa [getLast?_eq_some_getLast nonempty,some.injEq] at last
  have start := admissible.start
  have stop := admissible.stop
  obtain ⟨fixed_start,fixed_end,roundtrip⟩ := form
  rw [tripLegs_eq nonempty]
  cases fixed_start with
  | true =>
    have first := start rfl
    cases fixed_end with
    | true =>
      have last := stop rfl
      have three := room rfl rfl
      have shape : manipulated ⟨true,true,roundtrip⟩ number_of_locations table = ManipulateTableForFSE 0 (number_of_locations - 1) table := rfl
      obtain ⟨_,entries⟩ := square.fixed some_location (Nat.sub_lt some_location Nat.one_pos)
      rw [shape,pathLegs_frame distinct fun x here y there notFirst notLast together => ?_,entries _ _ last_below head_below,head_eq first,
        last_eq last,if_neg (by omega),if_pos (by omega)]
      rw [first,Ne,some.injEq] at notFirst
      rw [last,Ne,some.injEq] at notLast
      rw [first,last,some.injEq,some.injEq,size] at together
      rw [entries x y (below x here) (below y there),if_neg (by omega),if_neg (by omega),if_neg (by omega)]
    | false =>
      obtain rfl : roundtrip = false := by simpa [TripForm.asPath] using path
      have shape : manipulated ⟨true,false,false⟩ number_of_locations table = ManipulateTableForNonRoundtripFS 0 table := rfl
      obtain ⟨_,entries⟩ := square.freeSource some_location
      rw [shape,pathLegs_frame distinct fun x here y there notFirst _ _ => ?_,entries _ _ last_below head_below,if_pos (head_eq first)]
      rw [first,Ne,some.injEq] at notFirst
      rw [entries x y (below x here) (below y there),if_neg (Ne.symm notFirst)]
  | false =>
    obtain rfl : roundtrip = false := by simpa [TripForm.asPath] using path
    obtain rfl : fixed_end = true := by simpa [IsSupportedParameterCombination] using supported
    have last := stop rfl
    have shape : manipulated ⟨false,true,false⟩ number_of_locations table =
      ManipulateTableForNonRoundtripFE (number_of_locations - 1) table := rfl
    obtain ⟨_,entries⟩ := square.freeDestination (Nat.sub_lt some_location Nat.one_pos)
    rw [shape,pathLegs_frame distinct fun x here y there _ notLast _ => ?_,entries _ _ last_below head_below,if_pos (last_eq last)]
    rw [last,Ne,some.injEq] at notLast
    rw [entries x y (below x here) (below y there),if_neg (Ne.symm notLast)]

theorem manipulated_roundtrip (round : form.asPath = false) : manipulated form number_of_locations table = table := by
  obtain ⟨fixed_start,fixed_end,roundtrip⟩ := form
  simp only [TripForm.asPath,Bool.or_eq_false_iff,Bool.not_eq_false'] at round
  obtain ⟨both,rfl⟩ := round
  rw [manipulated,if_neg (Bool.eq_false_iff.mp both)]
  rfl

theorem exists_rotated (form : TripForm) (number_of_locations : ℕ) (duration_trip : List ℕ) :
    ∃ k, rotated form number_of_locations duration_trip = duration_trip.rotate k := by
  rw [rotated]
  cases !form.fixed_end || form.fixed_start with
  | true => exact ⟨_,rfl⟩
  | false => exact ⟨_,rfl⟩

theorem rotated_perm : (rotated form number_of_locations duration_trip).Perm duration_trip := by
  obtain ⟨k,there⟩ := exists_rotated form number_of_locations duration_trip
  exact there ▸ rotate_perm duration_trip k

private theorem head?_rotate_idxOf {a : ℕ} (member : a ∈ duration_trip) : (duration_trip.rotate (duration_trip.idxOf a)).head? = some a := by
  rw [head?_rotate (idxOf_lt_length_of_mem member),getElem?_idxOf member]

private theorem getLast?_rotate_idxOf {a : ℕ} (member : a ∈ duration_trip) :
    (duration_trip.rotate (duration_trip.idxOf a + 1)).getLast? = some a := by
  obtain ⟨rest,front⟩ := head?_eq_some_iff.mp (head?_rotate_idxOf member)
  rw [← rotate_rotate,front,rotate_cons_succ,rotate_zero,getLast?_concat]

theorem rotated_start (member : 0 ∈ duration_trip) (from_first : (form.fixed_start || !form.fixed_end) = true) :
    (rotated form number_of_locations duration_trip).head? = some 0 := by
  rw [rotated,if_pos (by rwa [Bool.or_comm])]
  exact head?_rotate_idxOf member

theorem rotated_stop (member : number_of_locations - 1 ∈ duration_trip) (open_start : form.fixed_start = false)
    (fixed_end : form.fixed_end = true) (open_trip : form.roundtrip = false) :
    (rotated form number_of_locations duration_trip).getLast? = some (number_of_locations - 1) := by
  have last := getLast?_rotate_idxOf member
  rw [rotated,open_start,fixed_end,open_trip,if_neg (by simp)]
  dsimp only
  rw [Bool.not_false,if_pos rfl]
  split_ifs with whole
  · rwa [whole,rotate_length,← rotate_zero duration_trip] at last
  · exact last

end Forms

end Osrm.TripPlugin
