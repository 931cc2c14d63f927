import Osrm.MatchTidy

/-!
What the match plugin looks for. `GetPhantomNodesInRange` reads a list of options only where it is not empty, so a
list that is not carried over counts as not given; `keep_all` and `tidy` carry all lists over but the approaches.
-/
namespace Osrm.MatchOptions
open List
open MatchTidy
variable {C Hint Bearing Candidate D : Type}

structure Facade (C Hint Bearing Candidate : Type) where
  segment_hints_empty : Hint → Bool
  IsValid : Hint → C → Bool
  hinted : Hint → C → List Candidate
  NearestPhantomNodesInRange : C → ℚ → Option Bearing → Approach → Bool → List Candidate

section Search
variable (facade : Facade C Hint Bearing Candidate)

/-- The candidates of one coordinate. -/
def lookUp (coordinate : C) (hint : Option Hint) (radius : ℚ) (bearing : Option Bearing) (approach : Option Approach)
    (use_all_edges : Bool) : List Candidate :=
  match hint.filter fun hint => !facade.segment_hints_empty hint && facade.IsValid hint coordinate with
  | some hint => facade.hinted hint coordinate
  | none => facade.NearestPhantomNodesInRange coordinate radius bearing (approach.getD .UNRESTRICTED) use_all_edges

def GetPhantomNodesInRange (parameters : MatchParameters C Hint Bearing) (radiuses : List ℚ) (use_all_edges : Bool) :
    List (List Candidate) :=
  (List.range parameters.coordinates.length).filterMap fun i => parameters.coordinates[i]?.map fun coordinate =>
    lookUp facade coordinate
      (if !parameters.hints.isEmpty then parameters.hints.getD i none else none)
      (radiuses.getD i 0)
      (if !parameters.bearings.isEmpty then parameters.bearings.getD i none else none)
      (if !parameters.approaches.isEmpty then parameters.approaches.getD i none else none)
      use_all_edges

end Search

def DEFAULT_GPS_PRECISION : ℚ := 5
def RADIUS_MULTIPLIER : ℚ := 3
def fallback_radius (default_radius : Option ℚ) : ℚ :=
  match default_radius with
  | some radius => if radius ≠ -1 then radius else DEFAULT_GPS_PRECISION * RADIUS_MULTIPLIER
  | none => DEFAULT_GPS_PRECISION * RADIUS_MULTIPLIER

def search_radius (default_radius : Option ℚ) : Option ℚ → ℚ
  | some radius => radius * RADIUS_MULTIPLIER
  | none => fallback_radius default_radius
/-- `search_radiuses` of the plugin. -/
def search_radiuses (default_radius : Option ℚ) (parameters : MatchParameters C Hint Bearing) : List ℚ :=
  if parameters.radiuses.isEmpty then replicate parameters.coordinates.length (fallback_radius default_radius)
  else parameters.radiuses.map (search_radius default_radius)

/-- The candidates of a coordinate by the options that were given for it. -/
def lookUpGiven (facade : Facade C Hint Bearing Candidate) (default_radius : Option ℚ) (params : MatchParameters C Hint Bearing) (i : ℕ) :
    Option (List Candidate) :=
  params.coordinates[i]?.map fun coordinate => lookUp facade coordinate (params.hints.getD i none)
    (search_radius default_radius (params.radiuses.getD i none)) (params.bearings.getD i none) (params.approaches.getD i none) true

/-- The search looks for the coordinates at some indices with the options given for them. -/
def Searches (params : MatchParameters C Hint Bearing) (kept : List ℕ) (parameters : MatchParameters C Hint Bearing) : Prop :=
  ∀ (Candidate : Type) (facade : Facade C Hint Bearing Candidate) (default_radius : Option ℚ),
    GetPhantomNodesInRange facade parameters (search_radiuses default_radius parameters) true =
      kept.filterMap (lookUpGiven facade default_radius params)

structure KeepsAll (params : MatchParameters C Hint Bearing) (result : Result C Hint Bearing) : Prop where
  coordinates : result.parameters.coordinates = params.coordinates
  hints : result.parameters.hints = params.hints
  radiuses : result.parameters.radiuses = params.radiuses
  bearings : result.parameters.bearings = params.bearings
  approaches : result.parameters.approaches = params.approaches
  timestamps : result.parameters.timestamps = params.timestamps
  waypoints : result.parameters.waypoints.Pairwise (· < ·) ∧ ∀ w, w ∈ result.parameters.waypoints ↔ w ∈ params.waypoints
  searches : Searches params (List.range params.coordinates.length) result.parameters

/-- The options that were given are restricted to the indices that are left. -/
structure Restricts (params : MatchParameters C Hint Bearing) (result : Result C Hint Bearing) : Prop where
  hints : params.hints ≠ [] → result.parameters.hints = select params.hints result.tidied_to_original
  radiuses : params.radiuses ≠ [] → result.parameters.radiuses = select params.radiuses result.tidied_to_original
  bearings : params.bearings ≠ [] → result.parameters.bearings = select params.bearings result.tidied_to_original
  approaches : params.approaches ≠ [] → result.parameters.approaches = select params.approaches result.tidied_to_original
  timestamps : params.timestamps ≠ [] → result.parameters.timestamps = select params.timestamps result.tidied_to_original
  searches : Searches params result.tidied_to_original result.parameters

variable {params : MatchParameters C Hint Bearing} {bearing_valid : Bearing → Bool} {α : Type}

private theorem select_range (array : List α) {n : ℕ} (all : array.length ≤ n) : select array (List.range n) = array := by
  have front : ∀ n, select array (List.range n) = array.take n := by
    intro n
    induction n with
    | zero => rfl
    | succ n ih => rw [range_succ,select_append,select_singleton,ih,take_add_one]
  rw [front,take_of_length_le all]

variable {kept : List ℕ} {array : List α}

private theorem getElem?_select (inside : ∀ i ∈ kept, i < array.length) (k : ℕ) :
    (select array kept)[k]? = kept[k]?.bind (array[·]?) := by
  induction kept generalizing k with
  | nil => rfl
  | cons i rest ih =>
    rw [select,filterMap_cons,getElem?_eq_getElem (inside i (by simp))]
    cases k with
    | zero => simp [getElem?_eq_getElem (inside i (by simp))]
    | succ k => exact ih (fun j member => inside j (mem_cons_of_mem _ member)) k

def ForEach {α : Type} (params : MatchParameters C Hint Bearing) (array : List α) : Prop :=
  array = [] ∨ array.length = params.coordinates.length

private theorem isEmpty_or {n : ℕ} (checked : (array.isEmpty || array.length == n) = true) :
    array = [] ∨ array.length = n := by simpa using checked

/-- What `IsValid` checks of the lists. -/
structure Sized (params : MatchParameters C Hint Bearing) : Prop where
  hints : ForEach params params.hints
  radiuses : ForEach params params.radiuses
  bearings : ForEach params params.bearings
  timestamps : ForEach params params.timestamps
  waypoints : ∀ w ∈ params.waypoints, w < params.coordinates.length

private theorem sized_of_isValid (valid : IsValid bearing_valid params = true) : Sized params := by
  simp only [IsValid,Bool.and_eq_true,all_eq_true,decide_eq_true_eq] at valid
  obtain ⟨⟨⟨⟨⟨⟨⟨hints,bearings⟩,radiuses⟩,_⟩,_⟩,_⟩,waypoints⟩,timestamps⟩ := valid
  exact ⟨isEmpty_or hints,isEmpty_or radiuses,isEmpty_or bearings,isEmpty_or timestamps,waypoints⟩

section Searched
variable {mask : List Bool} {out : MatchParameters C Hint Bearing} {i k : ℕ}

private theorem given_entry {array : List (Option α)} (sized : ForEach params array)
    (inside : ∀ i ∈ kept, i < params.coordinates.length) (found : kept[k]? = some i) :
    (if !(select array kept).isEmpty then (select array kept).getD k none else none) = array.getD i none := by
  cases sized with
  | inl none =>
    rw [none,select_nil]
    rfl
  | inr size =>
    have there : i < array.length := size ▸ inside i (mem_of_getElem? found)
    have entry : (select array kept)[k]? = some array[i] := by
      rw [getElem?_select (fun i member => size ▸ inside i member),found,Option.bind_some,getElem?_eq_getElem there]
    have some_left : (select array kept).isEmpty = false := by
      rw [← Bool.not_eq_true,List.isEmpty_iff]
      intro none
      simp [none] at entry
    rw [some_left,Bool.not_false,if_pos rfl,getD_eq_getElem?_getD,entry,getD_eq_getElem?_getD,
      getElem?_eq_getElem there]

private theorem given_radius (default_radius : Option ℚ) (sized : ForEach params params.radiuses)
    (coordinates : out.coordinates = select params.coordinates kept) (radiuses : out.radiuses = select params.radiuses kept)
    (inside : ∀ i ∈ kept, i < params.coordinates.length) (found : kept[k]? = some i) :
    (search_radiuses default_radius out).getD k 0 = search_radius default_radius (params.radiuses.getD i none) := by
  have less : k < kept.length := (List.getElem?_eq_some_iff.mp found).1
  have entry := given_entry sized inside found
  rw [search_radiuses,radiuses]
  cases none : (select params.radiuses kept).isEmpty with
  | true =>
    rw [none,Bool.not_true,if_neg Bool.false_ne_true] at entry
    rw [if_pos rfl,coordinates,length_select inside,← entry,getD_eq_getElem?_getD,getElem?_replicate,if_pos less]
    rfl
  | false =>
    have same : (select params.radiuses kept).length = kept.length := by
      refine length_select fun i member => ?_
      cases sized with
      | inl empty => simp [empty] at none
      | inr size => exact size ▸ inside i member
    rw [none,Bool.not_false,if_pos rfl] at entry
    rw [if_neg Bool.false_ne_true,← entry,getD_eq_getElem?_getD,getD_eq_getElem?_getD,getElem?_map,
      getElem?_eq_getElem (same ▸ less)]
    rfl

private theorem searches_of_copied (sized : Sized params) (none : params.approaches = []) (copied : Copied params mask params.coordinates.length out) :
    Searches params (keptBelow mask params.coordinates.length) out := by
  intro Candidate facade default_radius
  have inside : ∀ i ∈ keptBelow mask params.coordinates.length, i < params.coordinates.length := fun i member =>
    (mem_keptBelow.mp member).1
  rw [GetPhantomNodesInRange,copied.coordinates,length_select inside]
  conv_rhs => rw [← select_range (keptBelow mask params.coordinates.length) le_rfl,select,filterMap_filterMap]
  refine filterMap_congr fun k member => ?_
  obtain ⟨i,found⟩ : ∃ i, (keptBelow mask params.coordinates.length)[k]? = some i :=
    ⟨_,getElem?_eq_getElem (mem_range.mp member)⟩
  rw [getElem?_select inside,found,Option.bind_some,Option.bind_some,lookUpGiven]
  refine congrArg (Option.map · _) (funext fun coordinate => ?_)
  have no_approach : params.approaches.getD i Option.none = Option.none := by simp [none]
  rw [copied.hints,copied.bearings,copied.approaches,given_entry sized.hints inside found,given_entry sized.bearings inside found,
    given_radius default_radius sized.radiuses copied.coordinates copied.radiuses inside found,no_approach]
  rfl

end Searched

private theorem keptBelow_unmarked (n i : ℕ) : keptBelow (replicate n false) i = List.range i := by
  refine filter_eq_self.mpr fun j _ => ?_
  rw [getD_eq_getElem?_getD,getElem?_replicate]
  split_ifs <;> rfl

private theorem copied_keep_all (params : MatchParameters C Hint Bearing) :
    Copied params (replicate params.coordinates.length false) params.coordinates.length
      ((List.range params.coordinates.length).foldl (fun out i =>
        if !(replicate params.coordinates.length false).getD i false then pushKept params (wasWaypoint params) out i else out) .empty) := by
  have kept : ∀ i, (replicate params.coordinates.length false).getD i false = false := by
    intro i
    rw [getD_eq_getElem?_getD,getElem?_replicate]
    split_ifs <;> rfl
  have all : ∀ i ≤ params.coordinates.length, Copied params (replicate params.coordinates.length false) i
      ((List.range i).foldl (fun out i =>
        if !(replicate params.coordinates.length false).getD i false then pushKept params (wasWaypoint params) out i else out) .empty) := by
    intro i bound
    induction i with
    | zero => exact copied_empty params _
    | succ i ih =>
      rw [range_succ,foldl_append]
      simp only [foldl_cons,foldl_nil]
      rw [kept,Bool.not_false,if_pos rfl]
      exact (ih (by omega)).pushKept (wasWaypoint_iff params) bound (kept i)
  exact all _ le_rfl

private theorem select_all (sized : ForEach params array) :
    select array (List.range params.coordinates.length) = array := by
  refine select_range array ?_
  cases sized with
  | inl none => simp [none]
  | inr size => exact size.le

private theorem keep_all_waypoints (sized : Sized params) : (keep_all params).parameters.waypoints.Pairwise (· < ·) ∧
    ∀ w, w ∈ (keep_all params).parameters.waypoints ↔ w ∈ params.waypoints := by
  have copied := copied_keep_all params
  rw [keep_all,length_replicate]
  cases none : params.waypoints with
  | nil => exact ⟨List.Pairwise.nil,by simp⟩
  | cons first rest =>
    refine ⟨copied.increasing,fun w => (copied.waypoints w).trans ?_⟩
    simp only [keptBelow_unmarked,length_range,IsWaypoint,none,reduceCtorEq,false_or,Nat.succ_inj]
    constructor
    · rintro ⟨v,_,⟨_,member⟩,rfl⟩
      exact member
    · intro member
      have inside := sized.waypoints w (none ▸ member)
      exact ⟨w,inside,⟨inside,member⟩,rfl⟩

private theorem keepsAll_keep_all (sized : Sized params) (none : params.approaches = []) : KeepsAll params (keep_all params) := by
  have copied := copied_keep_all params
  have searches := searches_of_copied sized none copied
  have waypoints := keep_all_waypoints sized
  rw [keptBelow_unmarked] at searches
  obtain ⟨coordinates,hints,radiuses,bearings,approaches,timestamps,_,_,_⟩ := copied
  rw [keptBelow_unmarked,select_all (.inr rfl)] at coordinates
  rw [keptBelow_unmarked,select_all sized.hints] at hints
  rw [keptBelow_unmarked,select_all sized.radiuses] at radiuses
  rw [keptBelow_unmarked,select_all sized.bearings] at bearings
  rw [keptBelow_unmarked,select_all sized.timestamps] at timestamps
  rw [keep_all,length_replicate] at waypoints ⊢
  split_ifs at waypoints ⊢
  · exact ⟨coordinates,hints,radiuses,bearings,approaches.trans none.symm,timestamps,waypoints,searches⟩
  · exact ⟨coordinates,hints,radiuses,bearings,approaches.trans none.symm,timestamps,waypoints,searches⟩

private theorem keep_all_approaches (params : MatchParameters C Hint Bearing) : (keep_all params).parameters.approaches = [] := by
  have copied := copied_keep_all params
  rw [keep_all,length_replicate]
  split_ifs
  · exact copied.approaches
  · exact copied.approaches

section Tidying
variable [Zero D] [Add D] [LE D] [DecidableLE D]

/-- Both return parameters with the options that were given, and the search looks with these. -/
structure OptionsKept (params : MatchParameters C Hint Bearing) (greatCircleDistance : C → C → D) (cfg : Thresholds D) : Prop where
  keep_all : KeepsAll params (keep_all params)
  tidy : ∃ result, tidy params greatCircleDistance cfg = some result ∧ Restricts params result

/-- Exactly where no approaches are given and the first waypoint is a stop, no option is lost. -/
theorem options_kept_iff (greatCircleDistance : C → C → D) (cfg : Thresholds D) (valid : IsValid bearing_valid params = true) :
    OptionsKept params greatCircleDistance cfg ↔ params.approaches = [] ∧ FirstWaypointStops params greatCircleDistance cfg := by
  have two := IsValid.two valid
  have sized := sized_of_isValid valid
  constructor
  · rintro ⟨all,result,ran,_⟩
    refine ⟨all.approaches.symm.trans (keep_all_approaches params),?_⟩
    by_contra moves
    simp [tidy_none two moves] at ran
  · rintro ⟨none,first⟩
    obtain ⟨result,ran,_,kept,copied⟩ := tidy_some two first
    have searches := searches_of_copied sized none copied
    rw [← kept] at searches
    refine ⟨keepsAll_keep_all sized none,result,ran,?_,?_,?_,fun given => absurd none given,?_,searches⟩
    all_goals rw [kept]
    · exact fun _ => copied.hints
    · exact fun _ => copied.radiuses
    · exact fun _ => copied.bearings
    · exact fun _ => copied.timestamps

end Tidying

def twoCoordinates (approaches : List (Option Approach)) : MatchParameters ℕ Unit Unit :=
  ⟨[0,100],[none,some ()],[some 5,none],[some (),none],approaches,[0,10],[]⟩

theorem options_kept_two : OptionsKept (twoCoordinates []) (fun a b => b - a) ⟨15,5⟩ :=
  (options_kept_iff (fun a b => b - a) ⟨15,5⟩ (show IsValid (fun _ => true) (twoCoordinates []) = true by decide)).mpr
    ⟨rfl,firstWaypointStops_of_zero ⟨by decide,.inl rfl⟩⟩

/-- The approaches are not carried over. -/
theorem approaches_lost : IsValid (fun _ => true) (twoCoordinates [some .CURB,none]) = true ∧
    ¬OptionsKept (twoCoordinates [some .CURB,none]) (fun a b => b - a) ⟨15,5⟩ := by
  refine ⟨by decide,fun kept => ?_⟩
  have lost : (keep_all (twoCoordinates [some .CURB,none])).parameters.approaches = [] := rfl
  rw [kept.keep_all.approaches] at lost
  exact cons_ne_nil _ _ lost

end Osrm.MatchOptions
