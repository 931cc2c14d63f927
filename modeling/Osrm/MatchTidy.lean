import Mathlib.Algebra.GroupWithZero.Nat
import Mathlib.Algebra.Order.Ring.Rat
import Mathlib.Tactic.Common
import Osrm.Scan
import Osrm.Slices

/-!
`tidy` and `keep_all` of `engine/api/match_parameters_tidy.hpp`, with what the match plugin looks for with the
parameters they return.
-/
namespace Osrm.MatchTidy
open List Option
open Scan (Falling lt_countP_iff)
open Slices (getD_set)

inductive Approach
  | CURB
  | UNRESTRICTED
  | OPPOSITE
  deriving DecidableEq, Repr

variable {C Hint Bearing D : Type}

/-- `api::MatchParameters`, with the lists that have an entry for each coordinate, and the waypoints. -/
structure MatchParameters (C Hint Bearing : Type) where
  coordinates : List C
  hints : List (Option Hint)
  radiuses : List (Option ℚ)
  bearings : List (Option Bearing)
  approaches : List (Option Approach)
  timestamps : List (BitVec 32)
  waypoints : List ℕ

def MatchParameters.empty : MatchParameters C Hint Bearing := ⟨[],[],[],[],[],[],[]⟩

/-- The checks of `BaseParameters`, `RouteParameters` and `MatchParameters`. -/
def IsValid (bearing_valid : Bearing → Bool) (params : MatchParameters C Hint Bearing) : Bool :=
  (params.hints.isEmpty || params.hints.length == params.coordinates.length) &&
  (params.bearings.isEmpty || params.bearings.length == params.coordinates.length) &&
  (params.radiuses.isEmpty || params.radiuses.length == params.coordinates.length) &&
  (params.approaches.isEmpty || params.approaches.length == params.coordinates.length) &&
  params.bearings.all (fun bearing_and_range => bearing_and_range.all bearing_valid) &&
  decide (2 ≤ params.coordinates.length) &&
  params.waypoints.all (fun w => decide (w < params.coordinates.length)) &&
  (params.timestamps.isEmpty || params.timestamps.length == params.coordinates.length)

/-- Distances are summed up and compared only; times are numbers of 32 bits. -/
structure Thresholds (D : Type) where
  distance_in_meters : D
  duration_in_seconds : BitVec 32

structure Result (C Hint Bearing : Type) where
  parameters : MatchParameters C Hint Bearing
  can_be_removed : List Bool
  tidied_to_original : List ℕ
  was_waypoint : List Bool

section Copies
variable (params : MatchParameters C Hint Bearing)

/-- By default all coordinates are waypoints; otherwise the given ones are cleared and the mask is flipped. -/
def wasWaypoint : List Bool :=
  if params.waypoints.isEmpty then replicate params.coordinates.length true
  else (params.waypoints.foldl (fun mask p => mask.set p false) (replicate params.coordinates.length true)).map (!·)

/-- A coordinate that is kept is copied with its options. -/
def pushKept (was_waypoint : List Bool) (out : MatchParameters C Hint Bearing) (i : ℕ) : MatchParameters C Hint Bearing :=
  { out with
    coordinates := out.coordinates ++ params.coordinates[i]?.toList
    waypoints := if was_waypoint.getD i false then out.waypoints ++ [(out.coordinates ++ params.coordinates[i]?.toList).length - 1]
      else out.waypoints
    hints := if params.hints.isEmpty then out.hints else out.hints ++ params.hints[i]?.toList
    radiuses := if params.radiuses.isEmpty then out.radiuses else out.radiuses ++ params.radiuses[i]?.toList
    bearings := if params.bearings.isEmpty then out.bearings else out.bearings ++ params.bearings[i]?.toList
    timestamps := if params.timestamps.isEmpty then out.timestamps else out.timestamps ++ params.timestamps[i]?.toList }

/-- A removed waypoint moves to the last kept coordinate; `none` is the last element of an empty list. -/
def moveWaypoint (was_waypoint : List Bool) (out : MatchParameters C Hint Bearing) (i : ℕ) : Option (MatchParameters C Hint Bearing) :=
  if was_waypoint.getD i false then
    out.waypoints.getLast?.map fun back =>
      if back ≠ out.coordinates.length - 1 then { out with waypoints := out.waypoints ++ [out.coordinates.length - 1] } else out
  else some out

/-- A step of the loop that rebuilds the parameters. -/
def copyStep (can_be_removed was_waypoint : List Bool) (out : MatchParameters C Hint Bearing) (i : ℕ) :
    Option (MatchParameters C Hint Bearing) :=
  if !can_be_removed.getD i false then some (pushKept params was_waypoint out i) else moveWaypoint was_waypoint out i

def keep_all : Result C Hint Bearing :=
  let can_be_removed := replicate params.coordinates.length false
  let was_waypoint := wasWaypoint params
  let parameters := (List.range can_be_removed.length).foldl (fun out i =>
    if !can_be_removed.getD i false then pushKept params was_waypoint out i else out) .empty
  { parameters := if params.waypoints.isEmpty then { parameters with waypoints := [] } else parameters
    can_be_removed := can_be_removed
    tidied_to_original := List.range params.coordinates.length
    was_waypoint := was_waypoint }

structure Walk (D : Type) where
  running : Thresholds D
  tidied_to_original : List ℕ
  can_be_removed : List Bool

variable [Zero D] [Add D] [LE D] [DecidableLE D] (greatCircleDistance : C → C → D) (cfg : Thresholds D)

def distance_delta (next : ℕ) : D :=
  match params.coordinates[next - 1]?,params.coordinates[next]? with
  | some current,some next => greatCircleDistance current next
  | _,_ => 0

def duration_delta (next : ℕ) : BitVec 32 := params.timestamps.getD next 0 - params.timestamps.getD (next - 1) 0

/-- A coordinate is kept where the running distance, and with timestamps the running time, reaches its threshold. -/
def walkStep (walk : Walk D) (next : ℕ) : Walk D :=
  let running : Thresholds D :=
    ⟨walk.running.distance_in_meters + distance_delta params greatCircleDistance next,
      if params.timestamps.isEmpty then walk.running.duration_in_seconds
      else walk.running.duration_in_seconds + duration_delta params next⟩
  let over_distance := decide (cfg.distance_in_meters ≤ running.distance_in_meters)
  let over_duration := cfg.duration_in_seconds.sle running.duration_in_seconds
  if over_distance && (params.timestamps.isEmpty || over_duration) then
    { walk with running := ⟨0,0⟩, tidied_to_original := walk.tidied_to_original ++ [next] }
  else { walk with running := running, can_be_removed := walk.can_be_removed.set next true }

def walkTrace : Walk D :=
  (List.range' 1 (params.coordinates.length - 2)).foldl (walkStep params greatCircleDistance cfg)
    ⟨⟨0,0⟩,[0],replicate params.coordinates.length false⟩

def tidy : Option (Result C Hint Bearing) :=
  let walk := walkTrace params greatCircleDistance cfg
  let was_waypoint := wasWaypoint params
  let tidied_to_original :=
    if 1 < params.coordinates.length then walk.tidied_to_original ++ [params.coordinates.length - 1] else walk.tidied_to_original
  ((List.range walk.can_be_removed.length).foldlM (copyStep params walk.can_be_removed was_waypoint) .empty).map
    fun parameters => ⟨parameters,walk.can_be_removed,tidied_to_original,was_waypoint⟩

end Copies

def select {α : Type} (array : List α) (indices : List ℕ) : List α := indices.filterMap (array[·]?)
def keptBelow (can_be_removed : List Bool) (i : ℕ) : List ℕ := (List.range i).filter fun j => !can_be_removed.getD j false
def IsWaypoint (params : MatchParameters C Hint Bearing) (w : ℕ) : Prop :=
  w < params.coordinates.length ∧ (params.waypoints = [] ∨ w ∈ params.waypoints)
def LastBefore (kept : List ℕ) (w j : ℕ) : Prop := j ∈ kept ∧ j ≤ w ∧ ∀ j' ∈ kept, j' ≤ w → j' ≤ j

/-- The parameters are those of the kept indices, and the waypoints are the last ones that are kept. -/
structure Tidied (params : MatchParameters C Hint Bearing) (result : Result C Hint Bearing) : Prop where
  kept : result.tidied_to_original = keptBelow result.can_be_removed params.coordinates.length
  first : 0 ∈ result.tidied_to_original
  last : params.coordinates.length - 1 ∈ result.tidied_to_original
  coordinates : result.parameters.coordinates = select params.coordinates result.tidied_to_original
  hints : result.parameters.hints = select params.hints result.tidied_to_original
  radiuses : result.parameters.radiuses = select params.radiuses result.tidied_to_original
  bearings : result.parameters.bearings = select params.bearings result.tidied_to_original
  timestamps : result.parameters.timestamps = select params.timestamps result.tidied_to_original
  increasing : result.parameters.waypoints.Pairwise (· < ·)
  waypoints : ∀ k, k ∈ result.parameters.waypoints ↔
    ∃ w j, IsWaypoint params w ∧ LastBefore result.tidied_to_original w j ∧ result.tidied_to_original[k]? = some j

variable {params : MatchParameters C Hint Bearing}

theorem wasWaypoint_iff (params : MatchParameters C Hint Bearing) (w : ℕ) : (wasWaypoint params).getD w false = true ↔ IsWaypoint params w := by
  have cleared : ∀ (marks : List ℕ) (mask : List Bool) (i : ℕ), (marks.foldl (fun mask p => mask.set p false) mask)[i]? =
      mask[i]?.map fun b => b && !decide (i ∈ marks) := by
    intro marks
    induction marks with
    | nil => simp
    | cons p marks ih =>
      intro mask i
      rw [foldl_cons,ih,getElem?_set]
      by_cases here : p = i
      · subst here
        rw [if_pos rfl]
        by_cases inside : p < mask.length
        · simp [inside]
        · simp [inside]
      · rw [if_neg here]
        simp [Ne.symm here]
  rw [wasWaypoint,IsWaypoint]
  cases none : params.waypoints with
  | nil =>
    rw [isEmpty_nil,if_pos rfl,getD_eq_getElem?_getD,getElem?_replicate]
    by_cases inside : w < params.coordinates.length
    · simp [inside]
    · simp [inside]
  | cons first rest =>
    rw [isEmpty_cons,if_neg Bool.false_ne_true,getD_eq_getElem?_getD,getElem?_map,cleared,getElem?_replicate]
    by_cases inside : w < params.coordinates.length
    · simp [inside]
    · simp [inside]

/-! ### The copies -/

variable {α : Type}

theorem select_append (array : List α) (l l' : List ℕ) : select array (l ++ l') = select array l ++ select array l' :=
  filterMap_append

theorem select_singleton (array : List α) (i : ℕ) : select array [i] = array[i]?.toList := by
  rw [select]
  cases found : array[i]? <;> simp [found]

@[simp] theorem select_nil (indices : List ℕ) : select ([] : List α) indices = [] := by simp [select]

theorem length_select {array : List α} {indices : List ℕ} (inside : ∀ i ∈ indices, i < array.length) :
    (select array indices).length = indices.length := by
  induction indices with
  | nil => rfl
  | cons i rest ih =>
    rw [select,filterMap_cons,getElem?_eq_getElem (inside i (by simp))]
    exact congrArg (· + 1) (ih fun j member => inside j (mem_cons_of_mem _ member))

private theorem keptBelow_succ (can_be_removed : List Bool) (i : ℕ) : keptBelow can_be_removed (i + 1) =
    keptBelow can_be_removed i ++ if !can_be_removed.getD i false then [i] else [] := by
  rw [keptBelow,range_succ,filter_append,keptBelow,filter_cons,filter_nil]

theorem mem_keptBelow {can_be_removed : List Bool} {i j : ℕ} : j ∈ keptBelow can_be_removed i ↔ j < i ∧ can_be_removed.getD j false = false := by
  rw [keptBelow,mem_filter,mem_range,Bool.not_eq_true']

/-- The parameters rebuilt for the indices below a bound. -/
structure Copied (params : MatchParameters C Hint Bearing) (can_be_removed : List Bool) (i : ℕ) (out : MatchParameters C Hint Bearing) :
    Prop where
  coordinates : out.coordinates = select params.coordinates (keptBelow can_be_removed i)
  hints : out.hints = select params.hints (keptBelow can_be_removed i)
  radiuses : out.radiuses = select params.radiuses (keptBelow can_be_removed i)
  bearings : out.bearings = select params.bearings (keptBelow can_be_removed i)
  approaches : out.approaches = []
  timestamps : out.timestamps = select params.timestamps (keptBelow can_be_removed i)
  increasing : out.waypoints.Pairwise (· < ·)
  below : ∀ k ∈ out.waypoints, k < (keptBelow can_be_removed i).length
  waypoints : ∀ k, k ∈ out.waypoints ↔ ∃ w < i, IsWaypoint params w ∧ k + 1 = (keptBelow can_be_removed (w + 1)).length

variable {can_be_removed was_waypoint : List Bool} {out : MatchParameters C Hint Bearing} {i : ℕ}

theorem copied_empty (params : MatchParameters C Hint Bearing) (can_be_removed : List Bool) : Copied params can_be_removed 0 .empty :=
  ⟨rfl,rfl,rfl,rfl,rfl,rfl,List.Pairwise.nil,by simp [MatchParameters.empty],by simp [MatchParameters.empty]⟩

private theorem copied_entries {array entries : List α} (kept : can_be_removed.getD i false = false)
    (copied : entries = select array (keptBelow can_be_removed i)) :
    (if array.isEmpty then entries else entries ++ array[i]?.toList) = select array (keptBelow can_be_removed (i + 1)) := by
  rw [keptBelow_succ,kept,select_append]
  cases array with
  | nil => simpa using copied
  | cons a array =>
    rw [isEmpty_cons,if_neg Bool.false_ne_true,copied]
    exact congrArg _ (select_singleton _ _).symm

private theorem waypoints_succ {old new : List ℕ}
    (known : ∀ k, k ∈ old ↔ ∃ w < i, IsWaypoint params w ∧ k + 1 = (keptBelow can_be_removed (w + 1)).length)
    (step : ∀ k, k ∈ new ↔ k ∈ old ∨ IsWaypoint params i ∧ k + 1 = (keptBelow can_be_removed (i + 1)).length) (k : ℕ) :
    k ∈ new ↔ ∃ w < i + 1, IsWaypoint params w ∧ k + 1 = (keptBelow can_be_removed (w + 1)).length := by
  rw [step,known,Nat.exists_lt_succ_right]

theorem Copied.pushKept (copied : Copied params can_be_removed i out) (marks : ∀ w, was_waypoint.getD w false = true ↔ IsWaypoint params w)
    (inside : i < params.coordinates.length) (kept : can_be_removed.getD i false = false) :
    Copied params can_be_removed (i + 1) (pushKept params was_waypoint out i) := by
  have longer : keptBelow can_be_removed (i + 1) = keptBelow can_be_removed i ++ [i] := by
    rw [keptBelow_succ,kept]
    rfl
  have coordinates : out.coordinates ++ params.coordinates[i]?.toList = select params.coordinates (keptBelow can_be_removed (i + 1)) := by
    rw [longer,select_append,select_singleton,copied.coordinates]
  have size : (out.coordinates ++ params.coordinates[i]?.toList).length - 1 = (keptBelow can_be_removed i).length := by
    rw [coordinates,length_select fun j member => by
      have := (mem_keptBelow.mp member).1
      omega]
    simp [longer]
  refine ⟨coordinates,copied_entries kept copied.hints,copied_entries kept copied.radiuses,copied_entries kept copied.bearings,
    copied.approaches,copied_entries kept copied.timestamps,?_,?_,?_⟩
  all_goals
    simp only [MatchTidy.pushKept,size]
  · split_ifs
    · refine pairwise_append.mpr ⟨copied.increasing,pairwise_singleton _ _,fun k member last here => ?_⟩
      rw [mem_singleton.mp here]
      exact copied.below k member
    · exact copied.increasing
  · intro k member
    rw [longer,length_append,length_singleton]
    split_ifs at member
    · cases mem_append.mp member with
      | inl old => exact (copied.below k old).trans (Nat.lt_succ_self _)
      | inr new => exact mem_singleton.mp new ▸ Nat.lt_succ_self _
    · exact (copied.below k member).trans (Nat.lt_succ_self _)
  · refine waypoints_succ copied.waypoints fun k => ?_
    rw [← marks,longer,length_append,length_singleton,Nat.succ_inj]
    split_ifs with here
    · rw [and_iff_right here,mem_append,mem_singleton]
    · exact (or_iff_left fun both => here both.1).symm

private theorem Copied.remove (copied : Copied params can_be_removed i out) (removed : can_be_removed.getD i false = true) {waypoints : List ℕ}
    (increasing : waypoints.Pairwise (· < ·)) (below : ∀ k ∈ waypoints, k < (keptBelow can_be_removed i).length)
    (step : ∀ k, k ∈ waypoints ↔ k ∈ out.waypoints ∨ IsWaypoint params i ∧ k + 1 = (keptBelow can_be_removed i).length) :
    Copied params can_be_removed (i + 1) { out with waypoints := waypoints } := by
  have same : keptBelow can_be_removed (i + 1) = keptBelow can_be_removed i := by
    rw [keptBelow_succ,removed]
    exact append_nil _
  refine ⟨?_,?_,?_,?_,copied.approaches,?_,increasing,by rw [same]; exact below,waypoints_succ copied.waypoints (by rw [same]; exact step)⟩
  · rw [same]
    exact copied.coordinates
  · rw [same]
    exact copied.hints
  · rw [same]
    exact copied.radiuses
  · rw [same]
    exact copied.bearings
  · rw [same]
    exact copied.timestamps

private theorem Copied.moveWaypoint (copied : Copied params can_be_removed i out) (marks : ∀ w, was_waypoint.getD w false = true ↔ IsWaypoint params w)
    (bound : i ≤ params.coordinates.length) (removed : can_be_removed.getD i false = true) (first : IsWaypoint params i → out.waypoints ≠ []) :
    ∃ next, moveWaypoint was_waypoint out i = some next ∧ Copied params can_be_removed (i + 1) next := by
  have size : out.coordinates.length = (keptBelow can_be_removed i).length := by
    rw [copied.coordinates]
    exact length_select fun j member => ((mem_keptBelow.mp member).1).trans_le bound
  unfold MatchTidy.moveWaypoint
  by_cases here : was_waypoint.getD i false = true
  · rw [if_pos here,size]
    have waypoint := (marks i).mp here
    obtain ⟨earlier,back,shape⟩ := (eq_nil_or_concat' out.waypoints).resolve_left (first waypoint)
    have last : back ∈ out.waypoints := by simp [shape]
    have some_kept := copied.below back last
    rw [shape,getLast?_concat,map_some,← shape]
    refine ⟨_,rfl,?_⟩
    split_ifs with moved
    · refine copied.remove removed (pairwise_append.mpr ⟨copied.increasing,pairwise_singleton _ _,fun k member new equal => ?_⟩) ?_ ?_
      · have upTo : k ≤ back := by
          have increasing := copied.increasing
          rw [shape] at increasing member
          cases mem_append.mp member with
          | inl before => exact ((pairwise_append.mp increasing).2.2 k before back (by simp)).le
          | inr here => exact (mem_singleton.mp here).le
        rw [mem_singleton.mp equal]
        omega
      · refine forall_mem_append.mpr ⟨copied.below,forall_mem_singleton.mpr ?_⟩
        omega
      · intro k
        rw [mem_append,mem_singleton,and_iff_right waypoint]
        exact or_congr_right (by omega)
    · refine copied.remove removed copied.increasing copied.below fun k => ?_
      refine (or_iff_left_of_imp fun same => ?_).symm
      rwa [show k = back by omega]
  · rw [if_neg here]
    refine ⟨out,rfl,copied.remove removed copied.increasing copied.below fun k => ?_⟩
    exact (or_iff_left fun both => here ((marks i).mpr both.1)).symm

private theorem copies_total (marks : ∀ w, was_waypoint.getD w false = true ↔ IsWaypoint params w) (bound : i ≤ params.coordinates.length)
    (first : ∀ w < i, IsWaypoint params w → can_be_removed.getD w false = true → ∃ v < w, IsWaypoint params v)
    (start : can_be_removed.getD 0 false = false) :
    ∃ out, (List.range i).foldlM (copyStep params can_be_removed was_waypoint) .empty = some out ∧ Copied params can_be_removed i out := by
  induction i with
  | zero => exact ⟨.empty,rfl,copied_empty params can_be_removed⟩
  | succ i ih =>
    obtain ⟨out,ran,copied⟩ := ih (by omega) fun w less => first w (by omega)
    rw [range_succ,foldlM_append,ran]
    simp only [bind_eq_bind,bind_some,foldlM_cons,foldlM_nil]
    cases removed : can_be_removed.getD i false with
    | false =>
      rw [copyStep,removed]
      exact ⟨_,rfl,copied.pushKept marks (by omega) removed⟩
    | true =>
      rw [copyStep,removed]
      obtain ⟨next,moved,more⟩ := copied.moveWaypoint marks (by omega) removed fun waypoint none => by
        obtain ⟨v,less,earlier⟩ := first i (Nat.lt_succ_self i) waypoint removed
        have positive : 0 < (keptBelow can_be_removed (v + 1)).length :=
          length_pos_of_mem (mem_keptBelow.mpr ⟨Nat.succ_pos v,start⟩)
        have known := (copied.waypoints ((keptBelow can_be_removed (v + 1)).length - 1)).mpr ⟨v,less,earlier,by omega⟩
        rw [none] at known
        exact not_mem_nil known
      exact ⟨next,by simp [moved],more⟩

private theorem copies_none {w : ℕ} (marks : ∀ w, was_waypoint.getD w false = true ↔ IsWaypoint params w) (waypoint : IsWaypoint params w)
    (removed : can_be_removed.getD w false = true) (least : ∀ v < w, ¬IsWaypoint params v) (start : can_be_removed.getD 0 false = false) :
    (List.range params.coordinates.length).foldlM (copyStep params can_be_removed was_waypoint) .empty = none := by
  obtain ⟨out,ran,copied⟩ := copies_total marks waypoint.1.le
    (fun v less here => absurd here (least v less)) start
  have none : out.waypoints = [] := by
    refine eq_nil_iff_forall_not_mem.mpr fun k member => ?_
    obtain ⟨v,less,earlier,_⟩ := (copied.waypoints k).mp member
    exact least v less earlier
  have parts : List.range params.coordinates.length = List.range w ++ w :: List.range' (w + 1) (params.coordinates.length - (w + 1)) := by
    have inside := waypoint.1
    rw [range_eq_range',range_eq_range',← range'_succ,show params.coordinates.length - (w + 1) + 1 = params.coordinates.length - w by omega]
    conv_lhs => rw [show params.coordinates.length = w + (params.coordinates.length - w) by omega]
    rw [← range'_append]
    simp
  have stuck : copyStep params can_be_removed was_waypoint out w = Option.none := by
    rw [copyStep,removed,Bool.not_true,if_neg Bool.false_ne_true,moveWaypoint,if_pos ((marks w).mpr waypoint),none]
    rfl
  rw [parts,foldlM_append,ran]
  simp [stuck]

private theorem keptBelow_increasing (can_be_removed : List Bool) (i : ℕ) : (keptBelow can_be_removed i).Pairwise (· < ·) :=
  pairwise_lt_range.filter _

private theorem countP_keptBelow {w : ℕ} (can_be_removed : List Bool) (inside : w < i) :
    (keptBelow can_be_removed i).countP (· ≤ w) = (keptBelow can_be_removed (w + 1)).length := by
  induction i, inside using Nat.le_induction with
  | base =>
    refine countP_eq_length.mpr fun j member => ?_
    have := (mem_keptBelow.mp member).1
    simp only [decide_eq_true_eq]
    omega
  | succ i less ih =>
    rw [keptBelow_succ,countP_append,ih]
    split
    · rw [countP_singleton,if_neg (by simp only [decide_eq_true_eq]; omega),Nat.add_zero]
    · rfl

private theorem lastBefore_iff {w k : ℕ} (inside : w < i) : k + 1 = (keptBelow can_be_removed (w + 1)).length ↔
    ∃ j, LastBefore (keptBelow can_be_removed i) w j ∧ (keptBelow can_be_removed i)[k]? = some j := by
  rw [← countP_keptBelow can_be_removed inside]
  have increasing := keptBelow_increasing can_be_removed i
  generalize keptBelow can_be_removed i = kept at increasing
  have falling : Falling (fun j => decide (j ≤ w)) kept := increasing.imp fun less le => by
    simp only [decide_eq_true_eq] at le ⊢
    omega
  have bound : kept.countP (· ≤ w) ≤ kept.length := countP_le_length
  have upTo : ∀ {k k' j j' : ℕ}, kept[k]? = some j → kept[k']? = some j' → k < k' → j < j' := fun found found' less => by
    obtain ⟨_,rfl⟩ := List.getElem?_eq_some_iff.mp found
    obtain ⟨_,rfl⟩ := List.getElem?_eq_some_iff.mp found'
    exact pairwise_iff_getElem.mp increasing _ _ _ _ less
  constructor
  · intro place
    have found : kept[k]? = some kept[k] := getElem?_eq_getElem (by omega)
    have le := (lt_countP_iff falling found).mp (by omega)
    refine ⟨kept[k],⟨getElem_mem _,of_decide_eq_true le,fun j' member le' => ?_⟩,found⟩
    obtain ⟨k',found'⟩ := getElem?_of_mem member
    have before := (lt_countP_iff falling found').mpr (decide_eq_true le')
    by_contra more
    have := upTo found found'
    have := upTo found' found
    rcases lt_trichotomy k k' with less | same | less
    · omega
    · subst same
      rw [found,some.injEq] at found'
      omega
    · omega
  · rintro ⟨j,⟨member,le,last⟩,found⟩
    have before := (lt_countP_iff falling found).mpr (decide_eq_true le)
    by_contra other
    have next : kept[k + 1]? = some kept[k + 1] := getElem?_eq_getElem (by omega)
    have below := (lt_countP_iff falling next).mp (by omega)
    have := last _ (getElem_mem _) (of_decide_eq_true below)
    have := upTo found next (Nat.lt_succ_self k)
    omega

/-! ### The walk -/

private theorem keptBelow_congr {mask mask' : List Bool} (same : ∀ j < i, mask.getD j false = mask'.getD j false) :
    keptBelow mask i = keptBelow mask' i :=
  filter_congr fun j member => by rw [same j (mem_range.mp member)]

def elapsed (params : MatchParameters C Hint Bearing) (k m : ℕ) : BitVec 32 := params.timestamps.getD m 0 - params.timestamps.getD k 0

private theorem elapsed_succ (k m : ℕ) : elapsed params k m + duration_delta params (m + 1) = elapsed params k (m + 1) := by
  rw [elapsed,elapsed,duration_delta,Nat.add_sub_cancel]
  generalize params.timestamps.getD m 0 = a
  generalize params.timestamps.getD k 0 = b
  generalize params.timestamps.getD (m + 1) 0 = c
  grind

section Walks
variable [Zero D] [Add D] {greatCircleDistance : C → C → D} {m k : ℕ}

def travelled (params : MatchParameters C Hint Bearing) (greatCircleDistance : C → C → D) (k m : ℕ) : D :=
  ((List.range' (k + 1) (m - k)).map (distance_delta params greatCircleDistance)).foldl (· + ·) 0

private theorem travelled_self (m : ℕ) : travelled params greatCircleDistance m m = 0 := by simp [travelled]

private theorem travelled_succ (le : k ≤ m) : travelled params greatCircleDistance k (m + 1) =
    travelled params greatCircleDistance k m + distance_delta params greatCircleDistance (m + 1) := by
  rw [travelled,show m + 1 - k = m - k + 1 by omega,range'_1_concat,map_append,foldl_append,travelled,
    show k + 1 + (m - k) = m + 1 by omega]
  rfl

variable [LE D] [DecidableLE D] (params) (greatCircleDistance) (cfg : Thresholds D)

def Far (k m : ℕ) : Prop :=
  cfg.distance_in_meters ≤ travelled params greatCircleDistance k m ∧
    (params.timestamps = [] ∨ cfg.duration_in_seconds.sle (elapsed params k m) = true)

instance (k m : ℕ) : Decidable (Far params greatCircleDistance cfg k m) := inferInstanceAs (Decidable (_ ∧ _))

/-- The last stop up to a coordinate; a coordinate is a stop where it is far enough from the one before. -/
def lastStop : ℕ → ℕ
  | 0 => 0
  | m + 1 => if Far params greatCircleDistance cfg (lastStop m) (m + 1) then m + 1 else lastStop m
def IsStop (w : ℕ) : Prop := w + 1 = params.coordinates.length ∨ lastStop params greatCircleDistance cfg w = w

/-- The loop over adjacent coordinates, up to one of them. -/
structure Walked (m : ℕ) (walk : Walk D) : Prop where
  size : walk.can_be_removed.length = params.coordinates.length
  marks : ∀ i, walk.can_be_removed.getD i false = true ↔ i ≤ m ∧ lastStop params greatCircleDistance cfg i ≠ i
  stops : walk.tidied_to_original = keptBelow walk.can_be_removed (m + 1)
  distance : walk.running.distance_in_meters = travelled params greatCircleDistance (lastStop params greatCircleDistance cfg m) m
  duration : walk.running.duration_in_seconds = elapsed params (lastStop params greatCircleDistance cfg m) m

variable {params} {greatCircleDistance} {cfg}

private theorem lastStop_le (m : ℕ) : lastStop params greatCircleDistance cfg m ≤ m := by
  induction m with
  | zero => exact le_rfl
  | succ m ih =>
    rw [lastStop]
    split_ifs
    · exact le_rfl
    · omega

private theorem walked_start : Walked params greatCircleDistance cfg 0 ⟨⟨0,0⟩,[0],replicate params.coordinates.length false⟩ := by
  have clear : ∀ i, (replicate params.coordinates.length false).getD i false = false := fun i => by
    rw [getD_eq_getElem?_getD,getElem?_replicate]
    split_ifs <;> rfl
  refine ⟨length_replicate,fun i => ?_,?_,(travelled_self 0).symm,?_⟩
  · rw [clear]
    simp only [Bool.false_eq_true,false_iff,not_and,not_not]
    intro zero
    rw [Nat.le_zero.mp zero]
    rfl
  · rw [keptBelow_succ,clear]
    rfl
  · simp [elapsed,lastStop]

private theorem Walked.step {walk : Walk D} (walked : Walked params greatCircleDistance cfg m walk) (inside : m + 1 < params.coordinates.length) :
    Walked params greatCircleDistance cfg (m + 1) (walkStep params greatCircleDistance cfg walk (m + 1)) := by
  have le : lastStop params greatCircleDistance cfg m ≤ m := lastStop_le m
  have distance : walk.running.distance_in_meters + distance_delta params greatCircleDistance (m + 1) =
      travelled params greatCircleDistance (lastStop params greatCircleDistance cfg m) (m + 1) := by
    rw [walked.distance,travelled_succ le]
  have duration : (if params.timestamps.isEmpty then walk.running.duration_in_seconds
      else walk.running.duration_in_seconds + duration_delta params (m + 1)) =
      elapsed params (lastStop params greatCircleDistance cfg m) (m + 1) := by
    rw [walked.duration]
    split_ifs with none
    · rw [List.isEmpty_iff] at none
      simp [elapsed,none]
    · exact elapsed_succ _ m
  have far : (decide (cfg.distance_in_meters ≤ travelled params greatCircleDistance (lastStop params greatCircleDistance cfg m) (m + 1)) &&
      (params.timestamps.isEmpty || cfg.duration_in_seconds.sle (elapsed params (lastStop params greatCircleDistance cfg m) (m + 1)))) = true ↔
      Far params greatCircleDistance cfg (lastStop params greatCircleDistance cfg m) (m + 1) := by
    rw [Far,Bool.and_eq_true,Bool.or_eq_true,decide_eq_true_eq,List.isEmpty_iff]
  have next : lastStop params greatCircleDistance cfg (m + 1) =
      if Far params greatCircleDistance cfg (lastStop params greatCircleDistance cfg m) (m + 1) then m + 1
      else lastStop params greatCircleDistance cfg m := rfl
  unfold walkStep
  simp only [distance,duration]
  by_cases here : Far params greatCircleDistance cfg (lastStop params greatCircleDistance cfg m) (m + 1)
  · rw [if_pos (far.mpr here)]
    rw [if_pos here] at next
    have unmarked : walk.can_be_removed.getD (m + 1) false = false := by
      rw [← Bool.not_eq_true,walked.marks]
      omega
    refine ⟨walked.size,fun i => ?_,?_,?_,?_⟩
    · rw [walked.marks]
      by_cases new : i = m + 1
      · rw [new,next]
        omega
      · rw [show i ≤ m + 1 ↔ i ≤ m by omega]
    · rw [keptBelow_succ,unmarked,walked.stops]
      rfl
    · rw [next,travelled_self]
    · simp [next,elapsed]
  · rw [if_neg (by rw [far]; exact here)]
    rw [if_neg here] at next
    have marked : ∀ i, (walk.can_be_removed.set (m + 1) true).getD i false = if i = m + 1 then true else walk.can_be_removed.getD i false :=
      getD_set (walked.size.symm ▸ inside) true false
    refine ⟨by simp [walked.size],fun i => ?_,?_,?_,?_⟩
    · rw [marked]
      split_ifs with new
      · rw [new,next]
        simp only [true_iff]
        omega
      · rw [walked.marks,show i ≤ m + 1 ↔ i ≤ m by omega]
    · rw [keptBelow_succ,marked,if_pos rfl,walked.stops]
      refine (keptBelow_congr fun j less => ?_).trans (append_nil _).symm
      rw [marked,if_neg less.ne]
    · rw [next]
    · rw [next]

private theorem walked_walkTrace (params : MatchParameters C Hint Bearing) (greatCircleDistance : C → C → D) (cfg : Thresholds D) :
    Walked params greatCircleDistance cfg (params.coordinates.length - 2) (walkTrace params greatCircleDistance cfg) := by
  have all : ∀ m ≤ params.coordinates.length - 2, Walked params greatCircleDistance cfg m
      ((List.range' 1 m).foldl (walkStep params greatCircleDistance cfg) ⟨⟨0,0⟩,[0],replicate params.coordinates.length false⟩) := by
    intro m
    induction m with
    | zero => exact fun _ => walked_start
    | succ m ih =>
      intro bound
      rw [range'_1_concat,foldl_append,Nat.add_comm 1 m]
      exact (ih (by omega)).step (by omega)
  exact all _ le_rfl

end Walks

/-! ### Tidying -/

section Tidying
variable [Zero D] [Add D] [LE D] [DecidableLE D] {greatCircleDistance : C → C → D} {cfg : Thresholds D}

private theorem removed_iff {w : ℕ} (two : 2 ≤ params.coordinates.length) (inside : w < params.coordinates.length) :
    (walkTrace params greatCircleDistance cfg).can_be_removed.getD w false = true ↔ ¬IsStop params greatCircleDistance cfg w := by
  rw [(walked_walkTrace params greatCircleDistance cfg).marks,IsStop]
  omega

private theorem kept_first : (walkTrace params greatCircleDistance cfg).can_be_removed.getD 0 false = false := by
  rw [← Bool.not_eq_true,(walked_walkTrace params greatCircleDistance cfg).marks]
  exact fun both => both.2 rfl

def FirstWaypointStops (params : MatchParameters C Hint Bearing) (greatCircleDistance : C → C → D) (cfg : Thresholds D) : Prop :=
  ∀ w, IsWaypoint params w → (∀ v < w, ¬IsWaypoint params v) → IsStop params greatCircleDistance cfg w

private theorem tidied_to_original_eq (two : 2 ≤ params.coordinates.length) :
    (if 1 < params.coordinates.length then
      (walkTrace params greatCircleDistance cfg).tidied_to_original ++ [params.coordinates.length - 1]
    else (walkTrace params greatCircleDistance cfg).tidied_to_original) =
      keptBelow (walkTrace params greatCircleDistance cfg).can_be_removed params.coordinates.length := by
  have walked := walked_walkTrace params greatCircleDistance cfg
  have last : (walkTrace params greatCircleDistance cfg).can_be_removed.getD (params.coordinates.length - 1) false = false := by
    rw [← Bool.not_eq_true,removed_iff two (by omega),not_not]
    exact .inl (by omega)
  have more := keptBelow_succ (walkTrace params greatCircleDistance cfg).can_be_removed (params.coordinates.length - 1)
  rw [last,show params.coordinates.length - 1 + 1 = params.coordinates.length by omega] at more
  rw [if_pos (by omega),more,walked.stops,show params.coordinates.length - 2 + 1 = params.coordinates.length - 1 by omega]
  rfl

theorem tidy_some (two : 2 ≤ params.coordinates.length) (first : FirstWaypointStops params greatCircleDistance cfg) :
    ∃ result, tidy params greatCircleDistance cfg = some result ∧
      result.can_be_removed = (walkTrace params greatCircleDistance cfg).can_be_removed ∧
      result.tidied_to_original = keptBelow result.can_be_removed params.coordinates.length ∧
      Copied params result.can_be_removed params.coordinates.length result.parameters := by
  have earlier : ∀ w < params.coordinates.length, IsWaypoint params w →
      (walkTrace params greatCircleDistance cfg).can_be_removed.getD w false = true → ∃ v < w, IsWaypoint params v := by
    intro w inside waypoint removed
    by_contra none
    rw [removed_iff two inside] at removed
    exact removed (first w waypoint fun v less earlier => none ⟨v,less,earlier⟩)
  obtain ⟨out,ran,copied⟩ := copies_total (wasWaypoint_iff params) le_rfl earlier kept_first
  refine ⟨⟨out,(walkTrace params greatCircleDistance cfg).can_be_removed,
    keptBelow (walkTrace params greatCircleDistance cfg).can_be_removed params.coordinates.length,wasWaypoint params⟩,?_,rfl,rfl,copied⟩
  rw [tidy,(walked_walkTrace params greatCircleDistance cfg).size,ran,tidied_to_original_eq two]
  rfl

theorem tidy_none (two : 2 ≤ params.coordinates.length) (removed : ¬FirstWaypointStops params greatCircleDistance cfg) :
    tidy params greatCircleDistance cfg = none := by
  unfold FirstWaypointStops at removed
  push Not at removed
  obtain ⟨w,waypoint,least,moves⟩ := removed
  rw [tidy,(walked_walkTrace params greatCircleDistance cfg).size,
    copies_none (wasWaypoint_iff params) waypoint ((removed_iff two waypoint.1).mpr moves) least kept_first]
  rfl

private theorem Copied.tidied {result : Result C Hint Bearing} (two : 2 ≤ params.coordinates.length)
    (mask : result.can_be_removed = (walkTrace params greatCircleDistance cfg).can_be_removed)
    (kept : result.tidied_to_original = keptBelow result.can_be_removed params.coordinates.length)
    (copied : Copied params result.can_be_removed params.coordinates.length result.parameters) : Tidied params result := by
  refine ⟨kept,?_,?_,?_,?_,?_,?_,?_,copied.increasing,fun k => ?_⟩
  · rw [kept,mem_keptBelow,mask]
    exact ⟨by omega,kept_first⟩
  · rw [kept,mem_keptBelow,mask]
    refine ⟨by omega,?_⟩
    rw [← Bool.not_eq_true,removed_iff two (by omega),not_not]
    exact .inl (by omega)
  · rw [kept,copied.coordinates]
  · rw [kept,copied.hints]
  · rw [kept,copied.radiuses]
  · rw [kept,copied.bearings]
  · rw [kept,copied.timestamps]
  · rw [copied.waypoints,kept]
    constructor
    · rintro ⟨w,inside,waypoint,place⟩
      obtain ⟨j,last,found⟩ := (lastBefore_iff inside).mp place
      exact ⟨w,j,waypoint,last,found⟩
    · rintro ⟨w,j,waypoint,last,found⟩
      exact ⟨w,waypoint.1,waypoint,(lastBefore_iff waypoint.1).mpr ⟨j,last,found⟩⟩

def KeepsWaypoints (params : MatchParameters C Hint Bearing) (greatCircleDistance : C → C → D) (cfg : Thresholds D) : Prop :=
  ∃ result, tidy params greatCircleDistance cfg = some result ∧ Tidied params result

theorem IsValid.two {bearing_valid : Bearing → Bool} (valid : IsValid bearing_valid params = true) : 2 ≤ params.coordinates.length := by
  simp only [IsValid,Bool.and_eq_true,decide_eq_true_eq] at valid
  omega

/-- Exactly where the first waypoint is a stop, tidying keeps every waypoint. -/
theorem waypoints_kept_iff {bearing_valid : Bearing → Bool} (greatCircleDistance : C → C → D) (cfg : Thresholds D)
    (valid : IsValid bearing_valid params = true) :
    KeepsWaypoints params greatCircleDistance cfg ↔ FirstWaypointStops params greatCircleDistance cfg := by
  have two := IsValid.two valid
  constructor
  · rintro ⟨result,ran,_⟩
    by_contra moves
    simp [tidy_none two moves] at ran
  · intro first
    obtain ⟨result,ran,mask,kept,copied⟩ := tidy_some two first
    exact ⟨result,ran,copied.tidied two mask kept⟩

theorem firstWaypointStops_of_zero (zero : IsWaypoint params 0) : FirstWaypointStops params greatCircleDistance cfg := by
  intro w _ least
  have first : w = 0 := Nat.eq_zero_of_not_pos fun positive => least 0 positive zero
  rw [first]
  exact .inr rfl

end Tidying

/-- Three coordinates on a line, of which the second one is close to the first one. -/
def closeBy (waypoints : List ℕ) : MatchParameters ℕ Unit Unit := ⟨[0,1,100],[],[],[],[],[],waypoints⟩

theorem waypoints_kept_closeBy : KeepsWaypoints (closeBy [0,1,2]) (fun a b => b - a) ⟨15,5⟩ :=
  (waypoints_kept_iff (fun a b => b - a) ⟨15,5⟩ (show IsValid (fun _ => true) (closeBy [0,1,2]) = true by decide)).mpr
    (firstWaypointStops_of_zero ⟨by decide,by decide⟩)

/-- Only the coordinate that is removed is a waypoint. -/
theorem waypoint_of_nothing : IsValid (fun _ => true) (closeBy [1]) = true ∧
    ¬KeepsWaypoints (closeBy [1]) (fun a b => b - a) ⟨15,5⟩ := by
  have stuck : tidy (closeBy [1]) (fun a b => b - a) ⟨15,5⟩ = none := rfl
  refine ⟨by decide,?_⟩
  rintro ⟨result,ran,_⟩
  rw [stuck] at ran
  simp at ran

end Osrm.MatchTidy
