import Osrm.Annotation

/-!
`CollapseInternalRouteResult` of `engine/internal_route_result.hpp`, which merges the legs of a route at the waypoints
that are to be dropped, and the totals that `assembleLeg` reports for a leg.
-/
namespace Osrm.CollapsedRoute
open List
open Typedefs
open Annotation (PhantomNode PathData assembledWeight)

structure PhantomEndpoints where
  source_phantom : PhantomNode
  target_phantom : PhantomNode

/-- What the four vectors of an `InternalRouteResult` hold of one leg. -/
structure Leg where
  unpacked_path_segment : List PathData
  leg_endpoints : PhantomEndpoints
  source_traversed_in_reverse : Bool
  target_traversed_in_reverse : Bool

structure InternalRouteResult where
  legs : List Leg
  shortest_path_weight : EdgeWeight

/-- The weight from the beginning of the part of the geometry to the location, in a direction. -/
def weightOf (phantom : PhantomNode) (reversed : Bool) : EdgeWeight :=
  if reversed then phantom.reverse_weight else phantom.forward_weight
def durationOf (phantom : PhantomNode) (reversed : Bool) : EdgeDuration :=
  if reversed then phantom.reverse_duration else phantom.forward_duration

/-- The entry with what lies before the source. -/
def addSource (phantom : PhantomNode) (reversed : Bool) (data : PathData) : PathData :=
  { data with
    weight_until_turn := data.weight_until_turn + weightOf phantom reversed
    duration_until_turn := data.duration_until_turn + durationOf phantom reversed }

def copiedSegments (leg : Leg) : List PathData :=
  match leg.unpacked_path_segment with
  | [] => []
  | front :: rest => addSource leg.leg_endpoints.source_phantom leg.source_traversed_in_reverse front :: rest

/-- No new leg: the next segment is collapsed into the last leg. -/
def Leg.collapse (last leg : Leg) : Leg :=
  { last with
    unpacked_path_segment := last.unpacked_path_segment ++ copiedSegments leg
    leg_endpoints := { last.leg_endpoints with target_phantom := leg.leg_endpoints.target_phantom }
    target_traversed_in_reverse := leg.target_traversed_in_reverse }

def collapseStep (collapsed : List Leg) (leg : Leg × Bool) : List Leg :=
  if leg.2 then collapsed ++ [leg.1]
  else
    match collapsed.getLast? with
    | none => collapsed
    | some last => collapsed.dropLast ++ [last.collapse leg.1]

def marked (legs : List Leg) (is_waypoint : List Bool) : List (Leg × Bool) :=
  legs.zipIdx.map fun leg => (leg.1,is_waypoint.getD leg.2 false)
def CollapseInternalRouteResult (leggy_result : InternalRouteResult) (is_waypoint : List Bool) : InternalRouteResult :=
  -- Nothing to collapse! return result as is
  if leggy_result.legs.length = 1 then leggy_result
  else ⟨(marked leggy_result.legs is_waypoint).foldl collapseStep [],leggy_result.shortest_path_weight⟩

/-- The duration that `assembleLeg` reports for the entries of a leg, in tenths of a second. -/
def assembledDuration (route_data : List PathData) (source_node target_node : PhantomNode) (target_traversed_in_reverse : Bool) :
    EdgeDuration :=
  let duration := (route_data.map (·.duration_until_turn)).sum + durationOf target_node target_traversed_in_reverse
  -- The rectified linear unit avoids negative values that come from flooring.
  if route_data.isEmpty then max 0 (duration - durationOf source_node target_traversed_in_reverse) else duration

/-- `RouteLeg`, without the distance and the texts. Duration and weight are as they stand before the last line, which
    divides them by ten and by the weight multiplier in floating point. -/
structure RouteLeg where
  duration : EdgeDuration
  weight : EdgeWeight

def assembleLeg (leg : Leg) : RouteLeg where
  duration := assembledDuration leg.unpacked_path_segment leg.leg_endpoints.source_phantom leg.leg_endpoints.target_phantom
    leg.target_traversed_in_reverse
  weight := assembledWeight leg.unpacked_path_segment leg.leg_endpoints.source_phantom leg.leg_endpoints.target_phantom
    leg.target_traversed_in_reverse

def totalDuration (result : InternalRouteResult) : EdgeDuration := (result.legs.map fun leg => (assembleLeg leg).duration).sum
def totalWeight (result : InternalRouteResult) : EdgeWeight := (result.legs.map fun leg => (assembleLeg leg).weight).sum
/-- On its part of the geometry the target lies ahead of the source, in a direction. -/
def Onward (source target : PhantomNode) (reversed : Bool) : Prop := durationOf source reversed ≤ durationOf target reversed

/-- Dropping the waypoint before a leg loses nothing: the merged leg, which starts at `source`, has entries and the leg leaves
    the waypoint as the merged leg arrives; or the leg has no entries and goes on that way, and so has the merged leg if it
    has none either. -/
def Continues (source : PhantomNode) (empty reversed : Bool) (leg : Leg) : Prop :=
  if leg.unpacked_path_segment.isEmpty then leg.target_traversed_in_reverse = reversed ∧
    Onward leg.leg_endpoints.source_phantom leg.leg_endpoints.target_phantom reversed ∧
    (empty = true → Onward source leg.leg_endpoints.source_phantom reversed)
  else empty = false ∧ leg.source_traversed_in_reverse = reversed

/-- Every leg behind a dropped waypoint continues the legs that it is merged with. -/
def Straight : PhantomNode → Bool → Bool → List (Leg × Bool) → Prop
  | _, _, _, [] => True
  | source, empty, reversed, (leg,is_waypoint) :: rest =>
    let leg_empty := leg.unpacked_path_segment.isEmpty
    if is_waypoint then Straight leg.leg_endpoints.source_phantom leg_empty leg.target_traversed_in_reverse rest
    else Continues source empty reversed leg ∧ Straight source (empty && leg_empty) leg.target_traversed_in_reverse rest

def StraightRoute (legs : List Leg) (is_waypoint : List Bool) : Prop :=
  match marked legs is_waypoint with
  | [] => True
  | (leg,_) :: rest =>
    Straight leg.leg_endpoints.source_phantom leg.unpacked_path_segment.isEmpty leg.target_traversed_in_reverse rest

/-! ### Weights and durations alike -/

/-- What is summed: of an entry, of the part before a location, and what becomes of a leg without entries. -/
structure Measure where
  until_turn : PathData → ℤ
  before : PhantomNode → Bool → ℤ
  clip : ℤ → ℤ
  until_turn_addSource : ∀ phantom reversed data,
    until_turn (addSource phantom reversed data) = until_turn data + before phantom reversed
  clip_onward : ∀ source target reversed, Onward source target reversed →
    clip (before target reversed - before source reversed) = before target reversed - before source reversed

def weights : Measure := ⟨PathData.weight_until_turn,weightOf,id,fun _ _ _ => rfl,fun _ _ _ _ => rfl⟩
def durations : Measure := ⟨PathData.duration_until_turn,durationOf,max 0,fun _ _ _ => rfl,
  fun _ _ _ onward => max_eq_right (Int.sub_nonneg_of_le onward)⟩

namespace Measure
variable (M : Measure)

def lastPart (empty : Bool) (source target : PhantomNode) (reversed : Bool) : ℤ :=
  if empty then M.clip (M.before target reversed - M.before source reversed) else M.before target reversed
def total (leg : Leg) : ℤ :=
  (leg.unpacked_path_segment.map M.until_turn).sum +
    M.lastPart leg.unpacked_path_segment.isEmpty leg.leg_endpoints.source_phantom leg.leg_endpoints.target_phantom
      leg.target_traversed_in_reverse

/-- What dropping the waypoint before a leg adds to the sum: `source` is where the merged leg starts, `empty` whether it
    has no entries so far, and `reversed` how it arrives. -/
def shift (source : PhantomNode) (empty reversed : Bool) (leg : Leg) : ℤ :=
  let waypoint := leg.leg_endpoints.source_phantom
  let target := leg.leg_endpoints.target_phantom
  match empty, leg.unpacked_path_segment.isEmpty with
  | false, false => M.before waypoint leg.source_traversed_in_reverse - M.before waypoint reversed
  | false, true =>
    M.before target leg.target_traversed_in_reverse - M.before waypoint reversed -
      M.clip (M.before target leg.target_traversed_in_reverse - M.before waypoint leg.target_traversed_in_reverse)
  | true, false =>
    M.before waypoint leg.source_traversed_in_reverse - M.clip (M.before waypoint reversed - M.before source reversed)
  | true, true =>
    M.clip (M.before target leg.target_traversed_in_reverse - M.before source leg.target_traversed_in_reverse) -
      M.clip (M.before waypoint reversed - M.before source reversed) -
      M.clip (M.before target leg.target_traversed_in_reverse - M.before waypoint leg.target_traversed_in_reverse)

/-- The sum of the shifts at the waypoints that are dropped. -/
def shifts : PhantomNode → Bool → Bool → List (Leg × Bool) → ℤ
  | _, _, _, [] => 0
  | source, empty, reversed, (leg,is_waypoint) :: rest =>
    let leg_empty := leg.unpacked_path_segment.isEmpty
    if is_waypoint then shifts leg.leg_endpoints.source_phantom leg_empty leg.target_traversed_in_reverse rest
    else M.shift source empty reversed leg + shifts source (empty && leg_empty) leg.target_traversed_in_reverse rest

def shiftsOf : List (Leg × Bool) → ℤ
  | [] => 0
  | (leg,_) :: rest =>
    M.shifts leg.leg_endpoints.source_phantom leg.unpacked_path_segment.isEmpty leg.target_traversed_in_reverse rest

end Measure

def SharesPhantoms (legs : List Leg) : Prop :=
  legs.IsChain fun leg next => leg.leg_endpoints.target_phantom = next.leg_endpoints.source_phantom

private theorem SharesPhantoms.collapse {last leg : Leg} {rest : List Leg} (shared : SharesPhantoms (last :: leg :: rest)) :
    SharesPhantoms (last.collapse leg :: rest) := by
  obtain ⟨-,later⟩ := isChain_cons_cons.mp shared
  cases rest with
  | nil => exact isChain_singleton _
  | cons next rest =>
    obtain ⟨same,later⟩ := isChain_cons_cons.mp later
    exact isChain_cons_cons.mpr ⟨same,later⟩

private theorem map_fst_marked (legs : List Leg) (is_waypoint : List Bool) : (marked legs is_waypoint).map Prod.fst = legs := by
  rw [marked,map_map]
  exact zipIdx_map_fst 0 legs

private theorem copiedSegments_isEmpty (leg : Leg) : (copiedSegments leg).isEmpty = leg.unpacked_path_segment.isEmpty := by
  rw [copiedSegments]
  cases leg.unpacked_path_segment <;> rfl

private theorem collapse_isEmpty (last leg : Leg) : (last.collapse leg).unpacked_path_segment.isEmpty =
    (last.unpacked_path_segment.isEmpty && leg.unpacked_path_segment.isEmpty) := by
  rw [← copiedSegments_isEmpty leg]
  change (last.unpacked_path_segment ++ copiedSegments leg).isEmpty = _
  cases last.unpacked_path_segment <;> rfl

namespace Measure
variable (M : Measure)

private theorem sum_copiedSegments (leg : Leg) :
    ((copiedSegments leg).map M.until_turn).sum = (leg.unpacked_path_segment.map M.until_turn).sum +
      if leg.unpacked_path_segment.isEmpty then 0 else M.before leg.leg_endpoints.source_phantom leg.source_traversed_in_reverse := by
  rw [copiedSegments]
  cases leg.unpacked_path_segment with
  | nil => rfl
  | cons front rest =>
    simp only [map_cons,sum_cons,M.until_turn_addSource,isEmpty_cons]
    rw [if_neg (by decide)]
    ring

private theorem total_collapse {last leg : Leg} (shared : last.leg_endpoints.target_phantom = leg.leg_endpoints.source_phantom) :
    M.total (last.collapse leg) = M.total last + M.total leg +
      M.shift last.leg_endpoints.source_phantom last.unpacked_path_segment.isEmpty last.target_traversed_in_reverse leg := by
  have sum : ((last.collapse leg).unpacked_path_segment.map M.until_turn).sum =
      (last.unpacked_path_segment.map M.until_turn).sum + ((copiedSegments leg).map M.until_turn).sum := by
    rw [Leg.collapse,map_append,sum_append]
  rw [total,total,total,collapse_isEmpty,sum,sum_copiedSegments,shared]
  cases earlier : last.unpacked_path_segment.isEmpty with
  | false =>
    cases here : leg.unpacked_path_segment.isEmpty with
    | false =>
      simp only [Leg.collapse,lastPart,shift,here,Bool.and_false,Bool.false_eq_true,if_false]
      ring
    | true =>
      simp only [Leg.collapse,lastPart,shift,here,Bool.and_true,Bool.false_eq_true,if_false,if_true]
      ring
  | true =>
    cases here : leg.unpacked_path_segment.isEmpty with
    | false =>
      simp only [Leg.collapse,lastPart,shift,here,Bool.and_false,Bool.false_eq_true,if_false,if_true]
      ring
    | true =>
      simp only [Leg.collapse,lastPart,shift,here,Bool.and_true,if_true]
      ring

private theorem total_foldl {last : Leg} {rest : List (Leg × Bool)} (shared : SharesPhantoms (last :: rest.map Prod.fst)) (done : List Leg) :
    ((rest.foldl collapseStep (done ++ [last])).map M.total).sum =
      ((done ++ [last]).map M.total).sum + ((rest.map Prod.fst).map M.total).sum +
        M.shifts last.leg_endpoints.source_phantom last.unpacked_path_segment.isEmpty last.target_traversed_in_reverse rest := by
  induction rest generalizing last done with
  | nil => simp [shifts]
  | cons entry rest ih =>
    obtain ⟨leg,is_waypoint⟩ := entry
    obtain ⟨same,later⟩ := isChain_cons_cons.mp shared
    rw [foldl_cons,shifts]
    cases is_waypoint with
    | true =>
      have step : collapseStep (done ++ [last]) (leg,true) = (done ++ [last]) ++ [leg] := rfl
      rw [step,ih later,if_pos rfl]
      simp only [map_append,map_cons,map_nil,sum_append,sum_cons,sum_nil]
      ring
    | false =>
      have step : collapseStep (done ++ [last]) (leg,false) = done ++ [last.collapse leg] := by
        simp [collapseStep]
      rw [step,ih shared.collapse,if_neg (by decide)]
      simp only [map_append,map_cons,map_nil,sum_append,sum_cons,sum_nil,M.total_collapse same,
        collapse_isEmpty]
      simp only [Leg.collapse]
      ring

private theorem total_CollapseInternalRouteResult {result : InternalRouteResult} {is_waypoint : List Bool}
    (shared : SharesPhantoms result.legs) (first : is_waypoint[0]? = some true) :
    ((CollapseInternalRouteResult result is_waypoint).legs.map M.total).sum =
      (result.legs.map M.total).sum + M.shiftsOf (marked result.legs is_waypoint) := by
  obtain ⟨legs,shortest_path_weight⟩ := result
  cases legs with
  | nil => rfl
  | cons leg rest =>
    obtain ⟨entries,start⟩ : ∃ entries, marked (leg :: rest) is_waypoint = (leg,true) :: entries :=
      ⟨_,by simp [marked,zipIdx_cons,first]; rfl⟩
    have names := map_fst_marked (leg :: rest) is_waypoint
    rw [start,map_cons] at names
    obtain ⟨-,rfl⟩ := List.cons.inj names
    have ran := M.total_foldl shared []
    rw [CollapseInternalRouteResult]
    split
    · rename_i single
      obtain rfl : entries = [] := by simpa using single
      rw [start]
      exact (add_zero _).symm
    · rw [start]
      simpa [collapseStep,shiftsOf] using ran

private theorem shift_of_continues {source : PhantomNode} {empty reversed : Bool} {leg : Leg} (continues : Continues source empty reversed leg) :
    M.shift source empty reversed leg = 0 := by
  rw [Continues] at continues
  cases here : leg.unpacked_path_segment.isEmpty with
  | false =>
    rw [here,if_neg (by decide)] at continues
    obtain ⟨rfl,direction⟩ := continues
    simp only [shift,here,direction,sub_self]
  | true =>
    rw [here,if_pos rfl] at continues
    obtain ⟨direction,ahead,earlier⟩ := continues
    have leg_kept := M.clip_onward _ _ _ ahead
    cases empty with
    | false =>
      simp only [shift,here,direction,leg_kept]
      ring
    | true =>
      simp only [shift,here,direction,leg_kept,M.clip_onward _ _ _ (earlier rfl),
        M.clip_onward source _ _ ((earlier rfl).trans ahead)]
      ring

private theorem shifts_of_straight {source : PhantomNode} {empty reversed : Bool} {entries : List (Leg × Bool)}
    (straight : Straight source empty reversed entries) : M.shifts source empty reversed entries = 0 := by
  induction entries generalizing source empty reversed with
  | nil => rfl
  | cons entry rest ih =>
    obtain ⟨leg,is_waypoint⟩ := entry
    rw [shifts]
    cases is_waypoint with
    | true => exact ih straight
    | false =>
      obtain ⟨here,later⟩ := straight
      rw [if_neg (by decide),ih later,M.shift_of_continues here,add_zero]

end Measure

private theorem assembledWeight_eq (leg : Leg) :
    assembledWeight leg.unpacked_path_segment leg.leg_endpoints.source_phantom leg.leg_endpoints.target_phantom
      leg.target_traversed_in_reverse = weights.total leg := by
  rw [assembledWeight,Measure.total,Measure.lastPart]
  split
  · exact Int.add_sub_assoc _ _ _
  · rfl

private theorem assembledDuration_eq (leg : Leg) :
    assembledDuration leg.unpacked_path_segment leg.leg_endpoints.source_phantom leg.leg_endpoints.target_phantom
      leg.target_traversed_in_reverse = durations.total leg := by
  rw [assembledDuration,Measure.total,Measure.lastPart]
  cases leg.unpacked_path_segment with
  | nil => simp [durations]
  | cons front rest => rfl

private theorem totalWeight_eq (result : InternalRouteResult) : totalWeight result = (result.legs.map weights.total).sum := by
  simp only [totalWeight,assembleLeg,assembledWeight_eq]
private theorem totalDuration_eq (result : InternalRouteResult) : totalDuration result = (result.legs.map durations.total).sum := by
  simp only [totalDuration,assembleLeg,assembledDuration_eq]

/-- The totals are kept where every leg behind a dropped waypoint continues the legs that it is merged with. -/
theorem totals_kept {result : InternalRouteResult} {is_waypoint : List Bool} (shared : SharesPhantoms result.legs)
    (first : is_waypoint[0]? = some true) (straight : StraightRoute result.legs is_waypoint) :
    totalDuration (CollapseInternalRouteResult result is_waypoint) = totalDuration result ∧
      totalWeight (CollapseInternalRouteResult result is_waypoint) = totalWeight result := by
  have none_shifted : ∀ M : Measure, M.shiftsOf (marked result.legs is_waypoint) = 0 := by
    intro M
    rw [StraightRoute] at straight
    cases entries : marked result.legs is_waypoint with
    | nil => rfl
    | cons entry rest =>
      rw [entries] at straight
      exact M.shifts_of_straight straight
  rw [totalDuration_eq,totalDuration_eq,totalWeight_eq,totalWeight_eq,durations.total_CollapseInternalRouteResult shared first,
    weights.total_CollapseInternalRouteResult shared first,none_shifted,none_shifted,add_zero,add_zero]
  exact ⟨rfl,rfl⟩

/-- A location on a one-way road, so far behind the beginning of its part of the geometry. -/
def oneWay (before : ℤ) : PhantomNode where
  forward_segment_id := ⟨1,true⟩
  reverse_segment_id := ⟨Osrm.Annotation.SPECIAL_SEGMENTID,false⟩
  forward_weight := before
  reverse_weight := 0
  forward_weight_offset := 0
  reverse_weight_offset := 0
  forward_duration := before
  reverse_duration := 0
  forward_duration_offset := 0
  reverse_duration_offset := 0
  fwd_segment_position := 0
  is_valid_forward_source := true
  is_valid_forward_target := true
  is_valid_reverse_source := false
  is_valid_reverse_target := false

def entry (until_turn : ℤ) : PathData := ⟨1,2,until_turn,0,until_turn,0,0,none⟩
def onward : InternalRouteResult :=
  ⟨[⟨[entry 70],⟨oneWay 30,oneWay 60⟩,false,false⟩,⟨[entry 40],⟨oneWay 60,oneWay 10⟩,false,false⟩],180⟩

theorem totals_kept_onward :
    totalDuration (CollapseInternalRouteResult onward [true,false,true]) = totalDuration onward ∧
      totalWeight (CollapseInternalRouteResult onward [true,false,true]) = totalWeight onward :=
  totals_kept (isChain_pair.mpr rfl) rfl ⟨⟨rfl,rfl⟩,trivial⟩

/-- The first leg stays on one part of the geometry, from 30 to 60, and the second one leaves it. -/
def stayed : InternalRouteResult :=
  ⟨[⟨[],⟨oneWay 30,oneWay 60⟩,false,false⟩,⟨[entry 40],⟨oneWay 60,oneWay 10⟩,false,false⟩],80⟩

/-- The merged leg is counted from the beginning of the part. -/
theorem totals_not_kept : SharesPhantoms stayed.legs ∧ [true,false,true][0]? = some true ∧ [true,false,true].getLast? = some true ∧
    totalDuration stayed = 80 ∧ totalDuration (CollapseInternalRouteResult stayed [true,false,true]) = 110 ∧
    totalWeight stayed = 80 ∧ totalWeight (CollapseInternalRouteResult stayed [true,false,true]) = 110 := by
  refine ⟨isChain_pair.mpr rfl,rfl,rfl,?_,?_,?_,?_⟩ <;> decide +kernel

end Osrm.CollapsedRoute
