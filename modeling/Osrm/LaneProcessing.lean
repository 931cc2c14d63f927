import Mathlib.Order.Interval.Finset.Nat
import Mathlib.Tactic.Common
import Mathlib.Tactic.IntervalCases

/-!
`anticipateLaneChange`: along runs of short steps with lanes a turn constrains the lanes of the turn before it. The
steps are walked backwards, so what a turn constrains may itself have been constrained.
-/
namespace Osrm.LaneProcessing
open List Option

abbrev LaneID := BitVec 8
def INVALID_LANEID : LaneID := 255#8

structure LaneTuple where
  lanes_in_turn : LaneID
  first_lane_from_the_right : LaneID
  deriving DecidableEq, Repr

inductive DirectionModifier
  | UTurn
  | SharpRight
  | Right
  | SlightRight
  | Straight
  | SlightLeft
  | Left
  | SharpLeft
  deriving DecidableEq, Repr

inductive TurnType
  | Invalid
  | NewName
  | Continue
  | Turn
  | Merge
  | OnRamp
  | OffRamp
  | Fork
  | EndOfRoad
  | Notification
  | EnterRoundabout
  | EnterAndExitRoundabout
  | EnterRotary
  | EnterAndExitRotary
  | EnterRoundaboutIntersection
  | EnterAndExitRoundaboutIntersection
  | NoTurn
  | Suppressed
  | EnterRoundaboutAtExit
  | ExitRoundabout
  | EnterRotaryAtExit
  | ExitRotary
  | EnterRoundaboutIntersectionAtExit
  | ExitRoundaboutIntersection
  | StayOnRoundabout
  | Sliproad
  deriving DecidableEq, Repr

structure TurnInstruction where
  type : TurnType
  direction_modifier : DirectionModifier
  deriving DecidableEq, Repr

def TurnInstruction.NO_TURN : TurnInstruction := ⟨.NoTurn,.UTurn⟩

section Turns
variable (instruction : TurnInstruction)

def hasLeftModifier : Bool :=
  instruction.direction_modifier == .SharpLeft || instruction.direction_modifier == .Left ||
    instruction.direction_modifier == .SlightLeft
def hasRightModifier : Bool :=
  instruction.direction_modifier == .SharpRight || instruction.direction_modifier == .Right ||
    instruction.direction_modifier == .SlightRight
def isLeftTurn : Bool :=
  match instruction.type with
  | .Merge => hasRightModifier instruction
  | _ => hasLeftModifier instruction

def isRightTurn : Bool :=
  match instruction.type with
  | .Merge => hasLeftModifier instruction
  | _ => hasRightModifier instruction

end Turns

inductive WaypointType
  | None
  | Arrive
  | Depart
  deriving DecidableEq, Repr

structure StepManeuver where
  instruction : TurnInstruction
  waypoint_type : WaypointType

def getInvalidStepManeuver : StepManeuver := ⟨.NO_TURN,.None⟩

/-- The lanes of an intersection, and what is painted on each of its lanes. -/
structure IntermediateIntersection where
  lanes : LaneTuple
  lane_description : List (BitVec 16)

def getInvalidIntersection : IntermediateIntersection := ⟨⟨0,INVALID_LANEID⟩,[]⟩

structure RouteStep (D : Type) where
  from_id : ℕ
  duration : D
  distance : D
  weight : D
  mode : BitVec 8
  maneuver : StepManeuver
  geometry_begin : ℕ
  geometry_end : ℕ
  front : IntermediateIntersection
  following : List IntermediateIntersection

def TRAVEL_MODE_INACCESSIBLE : BitVec 8 := 0

namespace RouteStep
variable {D : Type} (step : RouteStep D)

def NumLanesInTurn : LaneID := step.front.lanes.lanes_in_turn
def NumLanesInTotal : LaneID := BitVec.ofNat 8 step.front.lane_description.length
def HasLanesAtTurn : Bool := step.NumLanesInTotal != 0
def NumLanesToTheRight : LaneID := if !step.HasLanesAtTurn then 0 else step.front.lanes.first_lane_from_the_right
def NumLanesToTheLeft : LaneID :=
  if !step.HasLanesAtTurn then 0 else step.NumLanesInTotal - (step.NumLanesInTurn + step.NumLanesToTheRight)

def Invalidate [Zero D] : RouteStep D :=
  { step with
    duration := 0
    distance := 0
    weight := 0
    mode := TRAVEL_MODE_INACCESSIBLE
    maneuver := getInvalidStepManeuver
    geometry_begin := 0
    geometry_end := 0
    front := getInvalidIntersection
    following := [] }

def ElongateBy [Add D] (following_step : RouteStep D) : RouteStep D :=
  { step with
    duration := step.duration + following_step.duration
    distance := step.distance + following_step.distance
    weight := step.weight + following_step.weight
    geometry_end := following_step.geometry_end
    following := step.following ++ following_step.front :: following_step.following }

end RouteStep

/-- The runs of elements that satisfy the predicate, each with its first index and the one past its last. -/
def group_by {α : Type} (pred : α → Bool) (first : ℕ) (l : List α) : List (ℕ × ℕ) :=
  if l.isEmpty then [] else
    let found := first + (l.takeWhile (!pred ·)).length
    let rest := l.dropWhile (!pred ·)
    let next := found + (rest.takeWhile pred).length
    (found,next) :: group_by pred next (rest.dropWhile pred)
termination_by l.length
decreasing_by
  cases l with
  | nil => contradiction
  | cons a l =>
    have skipped := (dropWhile_suffix (l := l) (!pred ·)).length_le
    cases holds : pred a with
    | false =>
      have ran := (dropWhile_suffix (l := l.dropWhile (!pred ·)) pred).length_le
      simp only [dropWhile_cons,holds,Bool.not_false,if_true,length_cons]
      omega
    | true =>
      have ran := (dropWhile_suffix (l := l) pred).length_le
      simp only [dropWhile_cons,holds,Bool.not_true,Bool.false_eq_true,if_false,if_true,length_cons]
      omega

section Anticipation
variable {D : Type} [Zero D] [Add D] [Mul D] [IntCast D] [LT D] [DecidableLT D] (min_distance_needed_for_lane_change : D)

def is_short_has_lanes (step : RouteStep D) : Bool :=
  if ¬0 < step.front.lanes.lanes_in_turn then false
  else
    let right := step.NumLanesToTheRight
    let left := step.NumLanesToTheLeft
    let to_cross := if right < left then left else right
    let scale : ℤ := 1 + to_cross.toNat
    decide (step.distance < (scale : D) * min_distance_needed_for_lane_change)

def quick_lanes_ranges (steps : List (RouteStep D)) : List (ℕ × ℕ) :=
  (group_by (is_short_has_lanes min_distance_needed_for_lane_change) 0 steps).filter fun range => decide (1 < range.2 - range.1)

/-- What the walk reads and writes; the steps that are tagged are named by their indices. -/
structure Walk (D : Type) where
  steps : List (RouteStep D)
  is_straight_left : List ℕ
  is_straight_right : List ℕ
  distance_to_constrained : D

variable (walk : Walk D) (current_index : ℕ) (current previous : RouteStep D)

def measure : Walk D :=
  { walk with
    distance_to_constrained :=
      if previous.maneuver.instruction.type = .Suppressed then walk.distance_to_constrained + previous.distance else 0 }

/-- Whether the previous turn has more lanes than the current one and no room to change between them. -/
def constrains : Bool :=
  let lanes_to_constrain := decide (1 < previous.front.lanes.lanes_in_turn)
  let lanes_fan_in := decide (current.front.lanes.lanes_in_turn < previous.front.lanes.lanes_in_turn)
  let lane_delta : ℤ := previous.front.lanes.lanes_in_turn.toNat - current.front.lanes.lanes_in_turn.toNat
  let can_make_all_turns :=
    decide ((lane_delta : D) * min_distance_needed_for_lane_change < (measure walk previous).distance_to_constrained)
  lanes_to_constrain && lanes_fan_in && !can_make_all_turns

/-- A keep straight is tagged with the direction of the next turn. -/
def tagStraight : Walk D :=
  let previous_is_straight := !isLeftTurn previous.maneuver.instruction && !isRightTurn previous.maneuver.instruction
  if previous_is_straight then
    if isLeftTurn current.maneuver.instruction || walk.is_straight_left.contains current_index then
      { walk with is_straight_left := (current_index - 1) :: walk.is_straight_left }
    else if isRightTurn current.maneuver.instruction || walk.is_straight_right.contains current_index then
      { walk with is_straight_right := (current_index - 1) :: walk.is_straight_right }
    else walk
  else walk

/-- `std::min` of two numbers of lanes. -/
def fewer (a b : LaneID) : LaneID := if b < a then b else a
/-- The rightmost lanes of the previous turn are left out. -/
def anticipate_for_left_turn : LaneTuple :=
  let start := previous.front.lanes.first_lane_from_the_right + previous.front.lanes.lanes_in_turn - current.front.lanes.lanes_in_turn
  ⟨current.front.lanes.lanes_in_turn,start - fewer current.NumLanesToTheLeft current.front.lanes.lanes_in_turn⟩
def anticipate_for_right_turn : LaneTuple :=
  let start := previous.front.lanes.first_lane_from_the_right
  ⟨current.front.lanes.lanes_in_turn,start + fewer current.NumLanesToTheRight current.front.lanes.lanes_in_turn⟩

/-- The lanes that are left of the previous turn. -/
def anticipate : LaneTuple :=
  if isLeftTurn current.maneuver.instruction then anticipate_for_left_turn current previous
  else if isRightTurn current.maneuver.instruction then anticipate_for_right_turn current previous
  else if walk.is_straight_left.contains current_index then anticipate_for_left_turn current previous
  else if walk.is_straight_right.contains current_index then anticipate_for_right_turn current previous
  else anticipate_for_right_turn current previous

def merges : Bool :=
  previous.maneuver.instruction.type == .Suppressed && current.maneuver.instruction.type == .Suppressed &&
    previous.mode == current.mode && decide (previous.front.lanes = current.front.lanes)
def RouteStep.withLanes (step : RouteStep D) (lanes : LaneTuple) : RouteStep D :=
  { step with front := { step.front with lanes := lanes } }

/-- A pair of a turn and the one before it. -/
def constrainPair (walk : Walk D) (current_index : ℕ) : Walk D :=
  match walk.steps[current_index]?,walk.steps[current_index - 1]? with
  | some current,some previous =>
    let measured := measure walk previous
    if !constrains min_distance_needed_for_lane_change walk current previous then measured
    else
      let tagged := tagStraight measured current_index current previous
      let narrowed := previous.withLanes (anticipate tagged current_index current previous)
      if merges current narrowed then
        { tagged with
          steps := (tagged.steps.set (current_index - 1) (narrowed.ElongateBy current)).set current_index current.Invalidate }
      else { tagged with steps := tagged.steps.set (current_index - 1) narrowed }
  | _,_ => walk

def turnsBackwards (turns : ℕ × ℕ) : List ℕ := (List.range' (turns.1 + 1) (turns.2 - (turns.1 + 1))).reverse
def startRange (walk : Walk D) : Walk D := { walk with distance_to_constrained := 0 }
def constrain_lanes (walk : Walk D) (turns : ℕ × ℕ) : Walk D :=
  (turnsBackwards turns).foldl (constrainPair min_distance_needed_for_lane_change) (startRange walk)
def startWalk (steps : List (RouteStep D)) : Walk D := ⟨steps,[],[],0⟩
def wholeWalk (steps : List (RouteStep D)) : Walk D :=
  (quick_lanes_ranges min_distance_needed_for_lane_change steps).foldl
    (constrain_lanes min_distance_needed_for_lane_change) (startWalk steps)
def not_is_valid (step : RouteStep D) : Bool :=
  step.maneuver.instruction == .NO_TURN && step.maneuver.waypoint_type == .None
def removeNoTurnInstructions (steps : List (RouteStep D)) : List (RouteStep D) := steps.filter (!not_is_valid ·)
def anticipateLaneChange (steps : List (RouteStep D)) : List (RouteStep D) :=
  removeNoTurnInstructions (wholeWalk min_distance_needed_for_lane_change steps).steps

end Anticipation

section Narrowing
variable {D : Type}

def turnLanes (lanes : LaneTuple) : Finset ℕ :=
  Finset.Ico lanes.first_lane_from_the_right.toNat (lanes.first_lane_from_the_right.toNat + lanes.lanes_in_turn.toNat)

/-- The lanes of each turn lie within their description. -/
def LanesWithin (steps : List (RouteStep D)) : Prop :=
  ∀ step ∈ steps, step.front.lanes.lanes_in_turn ≠ 0 →
    step.front.lanes.first_lane_from_the_right.toNat + step.front.lanes.lanes_in_turn.toNat ≤ step.front.lane_description.length ∧
      step.front.lane_description.length ≤ 255

def keepsLeft (walk : Walk D) (current_index : ℕ) (current : RouteStep D) : Bool :=
  isLeftTurn current.maneuver.instruction ||
    !isRightTurn current.maneuver.instruction && walk.is_straight_left.contains current_index
/-- The lanes beside the turn that are counted for it, at most as many as it has itself. -/
def lanesBeside (walk : Walk D) (current_index : ℕ) (current : RouteStep D) : ℕ :=
  min (if keepsLeft walk current_index current then current.NumLanesToTheLeft else current.NumLanesToTheRight).toNat
    current.front.lanes.lanes_in_turn.toNat
/-- The lanes beside the current turn are no more than the previous turn has lanes to leave out. -/
def HasRoom (walk : Walk D) (current_index : ℕ) (current previous : RouteStep D) : Prop :=
  lanesBeside walk current_index current ≤
    previous.front.lanes.lanes_in_turn.toNat - current.front.lanes.lanes_in_turn.toNat

variable [Zero D] [Add D] [Mul D] [IntCast D] [LT D] [DecidableLT D] (min_distance_needed_for_lane_change : D)
  (steps : List (RouteStep D))

def remaining : List (RouteStep D × ℕ) :=
  (wholeWalk min_distance_needed_for_lane_change steps).steps.zipIdx.filter fun left => !not_is_valid left.1
def OnlyNarrows : Prop :=
  ∀ left ∈ remaining min_distance_needed_for_lane_change steps,
    ∃ before, steps[left.2]? = some before ∧ turnLanes left.1.front.lanes ⊆ turnLanes before.front.lanes

/-- The walk comes to a pair. -/
def Reaches (walk : Walk D) (current_index : ℕ) : Prop :=
  ∃ before range after earlier later,
    quick_lanes_ranges min_distance_needed_for_lane_change steps = before ++ range :: after ∧
      turnsBackwards range = earlier ++ current_index :: later ∧
        walk = earlier.foldl (constrainPair min_distance_needed_for_lane_change)
          (startRange (before.foldl (constrain_lanes min_distance_needed_for_lane_change) (startWalk steps)))

/-- Wherever a step that remains is constrained, there is room for the lanes beside the turn after it. -/
def RoomBeside : Prop :=
  ∀ walk current_index current previous, Reaches min_distance_needed_for_lane_change steps walk current_index →
    (∃ step, (step,current_index - 1) ∈ remaining min_distance_needed_for_lane_change steps) →
      walk.steps[current_index]? = some current → walk.steps[current_index - 1]? = some previous →
        constrains min_distance_needed_for_lane_change walk current previous = true → HasRoom walk current_index current previous

end Narrowing

section Pairs
variable {D : Type} {walk : Walk D} {current_index j : ℕ} {current previous : RouteStep D}

private theorem anticipate_eq : anticipate walk current_index current previous =
    if keepsLeft walk current_index current then anticipate_for_left_turn current previous else anticipate_for_right_turn current previous := by
  rw [anticipate,keepsLeft]
  cases isLeftTurn current.maneuver.instruction with
  | true => rfl
  | false =>
    cases isRightTurn current.maneuver.instruction with
    | true => rfl
    | false => cases walk.is_straight_left.contains current_index <;> simp

private theorem fewer_toNat (a b : LaneID) : (fewer a b).toNat = min a.toNat b.toNat := by
  unfold fewer
  split_ifs with less
  · rw [BitVec.lt_def] at less
    omega
  · rw [BitVec.lt_def] at less
    omega

private theorem ico_subset_iff {a c p l : ℕ} : Finset.Ico a (a + c) ⊆ Finset.Ico p (p + l) ↔ c = 0 ∨ p ≤ a ∧ a + c ≤ p + l := by
  rcases Nat.eq_zero_or_pos c with rfl | positive
  · simp
  · rw [Finset.Ico_subset_Ico_iff (by omega)]
    omega

private theorem anticipate_subset_iff (fan_in : current.front.lanes.lanes_in_turn < previous.front.lanes.lanes_in_turn)
    (within : previous.front.lanes.first_lane_from_the_right.toNat + previous.front.lanes.lanes_in_turn.toNat ≤ 255) :
    turnLanes (anticipate walk current_index current previous) ⊆ turnLanes previous.front.lanes ↔
      HasRoom walk current_index current previous := by
  rw [BitVec.lt_def] at fan_in
  rw [anticipate_eq,HasRoom,lanesBeside]
  have first := previous.front.lanes.first_lane_from_the_right.isLt
  split_ifs
  · rw [turnLanes,turnLanes,ico_subset_iff,anticipate_for_left_turn,BitVec.toNat_sub,fewer_toNat,BitVec.toNat_sub,BitVec.toNat_add]
    have left := current.NumLanesToTheLeft.isLt
    dsimp only
    omega
  · rw [turnLanes,turnLanes,ico_subset_iff,anticipate_for_right_turn,BitVec.toNat_add,fewer_toNat]
    have right := current.NumLanesToTheRight.isLt
    dsimp only
    omega

@[simp] theorem tagStraight_steps : (tagStraight walk current_index current previous).steps = walk.steps := by
  unfold tagStraight
  dsimp only
  split_ifs <;> rfl

def Left (walk walk' : Walk D) (j : ℕ) : Prop :=
  walk'.steps[j]? = walk.steps[j]? ∨ ∃ step, walk'.steps[j]? = some step ∧ not_is_valid step = true

private theorem Left.trans {walk' walk'' : Walk D} (first : Left walk walk' j) (second : Left walk' walk'' j) : Left walk walk'' j := by
  rcases second with same | merged
  · unfold Left
    rwa [same]
  · exact .inr merged

private theorem left_foldl {α : Type} {f : Walk D → α → Walk D} (l : List α) (walk : Walk D) (each : ∀ a ∈ l, ∀ walk, Left walk (f walk a) j) :
    Left walk (l.foldl f walk) j := by
  induction l generalizing walk with
  | nil => exact .inl rfl
  | cons a l ih =>
    exact (each a (by simp) walk).trans (ih _ fun b member => each b (mem_cons_of_mem _ member))

private theorem unchanged_foldl {α : Type} {f : Walk D → α → Walk D} (l : List α) (walk : Walk D)
    (each : ∀ a ∈ l, ∀ walk, (f walk a).steps[j]? = walk.steps[j]?) : (l.foldl f walk).steps[j]? = walk.steps[j]? := by
  induction l generalizing walk with
  | nil => rfl
  | cons a l ih =>
    exact (ih _ fun b member => each b (mem_cons_of_mem _ member)).trans (each a (by simp) walk)

private theorem mem_turnsBackwards {turns : ℕ × ℕ} : current_index ∈ turnsBackwards turns ↔ turns.1 < current_index ∧ current_index < turns.2 := by
  rw [turnsBackwards,mem_reverse,mem_range'_1]
  omega

section Measured
variable [Zero D] [Add D]

@[simp] theorem measure_steps : (measure walk previous).steps = walk.steps := rfl

private theorem keepsLeft_tagged (positive : 0 < current_index) :
    keepsLeft (tagStraight (measure walk previous) current_index current previous) current_index current =
      keepsLeft walk current_index current := by
  have apart : current_index ≠ current_index - 1 := by omega
  unfold keepsLeft tagStraight
  dsimp only
  split_ifs <;> simp [measure,apart]

end Measured

end Pairs

section Walking
variable {D : Type} [Zero D] [Add D] [Mul D] [IntCast D] [LT D] [DecidableLT D] {min_distance_needed_for_lane_change : D}
  {walk : Walk D} {steps : List (RouteStep D)} {current_index j : ℕ} {current previous : RouteStep D}

private theorem constrainPair_other (here : j ≠ current_index) (before : j ≠ current_index - 1) :
    (constrainPair min_distance_needed_for_lane_change walk current_index).steps[j]? = walk.steps[j]? := by
  unfold constrainPair
  split
  · dsimp only
    split_ifs
    · rfl
    · rw [getElem?_set_ne here.symm,getElem?_set_ne before.symm,tagStraight_steps,measure_steps]
    · rw [getElem?_set_ne before.symm,tagStraight_steps,measure_steps]
  · rfl

private theorem constrainPair_current (positive : 0 < current_index) :
    Left walk (constrainPair min_distance_needed_for_lane_change walk current_index) current_index := by
  have apart : current_index - 1 ≠ current_index := by omega
  unfold constrainPair
  split
  · next current previous looked _ =>
    dsimp only
    split_ifs
    · exact .inl rfl
    · refine .inr ⟨current.Invalidate,?_,rfl⟩
      have inside := (List.getElem?_eq_some_iff.mp looked).1
      rw [getElem?_set_self (by simpa using inside)]
    · refine .inl ?_
      rw [getElem?_set_ne apart,tagStraight_steps,measure_steps]
  · exact .inl rfl

private theorem constrainPair_previous (looked : walk.steps[current_index]? = some current)
    (behind : walk.steps[current_index - 1]? = some previous) (positive : 0 < current_index) :
    ∃ narrowed, (constrainPair min_distance_needed_for_lane_change walk current_index).steps[current_index - 1]? = some narrowed ∧
      narrowed.front.lanes = if constrains min_distance_needed_for_lane_change walk current previous then
        anticipate walk current_index current previous else previous.front.lanes := by
  have apart : current_index ≠ current_index - 1 := by omega
  have inside := (List.getElem?_eq_some_iff.mp behind).1
  rw [constrainPair,looked,behind]
  dsimp only
  cases constrains min_distance_needed_for_lane_change walk current previous with
  | false => exact ⟨previous,behind,rfl⟩
  | true =>
    rw [Bool.not_true,if_neg Bool.false_ne_true,if_pos rfl,anticipate_eq,anticipate_eq,keepsLeft_tagged positive]
    split_ifs
    all_goals
      try rw [getElem?_set_ne apart]
      rw [getElem?_set_self (by simpa using inside)]
      exact ⟨_,rfl,rfl⟩

private theorem left_constrainPair (positive : 0 < current_index) (apart : current_index ≠ j + 1) :
    Left walk (constrainPair min_distance_needed_for_lane_change walk current_index) j := by
  by_cases here : j = current_index
  · subst here
    exact constrainPair_current positive
  · exact .inl (constrainPair_other here (by omega))

private theorem left_constrain_lanes {turns : ℕ × ℕ} (apart : j + 1 ∉ turnsBackwards turns) :
    Left walk (constrain_lanes min_distance_needed_for_lane_change walk turns) j := by
  refine left_foldl (turnsBackwards turns) (startRange walk) fun current_index member walk => ?_
  refine left_constrainPair ?_ fun same => apart (same ▸ member)
  have := (mem_turnsBackwards.mp member).1
  omega

private theorem unchanged_constrain_lanes {turns : ℕ × ℕ} (apart : j < turns.1 ∨ turns.2 ≤ j) :
    (constrain_lanes min_distance_needed_for_lane_change walk turns).steps[j]? = walk.steps[j]? := by
  refine unchanged_foldl (turnsBackwards turns) (startRange walk) fun current_index member walk => ?_
  have := mem_turnsBackwards.mp member
  exact constrainPair_other (by omega) (by omega)

end Walking

/-! ### The ranges -/

private theorem group_by_nil {α : Type} (pred : α → Bool) (first : ℕ) : group_by pred first [] = [] := by
  rw [group_by]
  rfl

private theorem group_by_cons {α : Type} (pred : α → Bool) (first : ℕ) (a : α) (l : List α) : group_by pred first (a :: l) =
    let found := first + ((a :: l).takeWhile (!pred ·)).length
    let rest := (a :: l).dropWhile (!pred ·)
    let next := found + (rest.takeWhile pred).length
    (found,next) :: group_by pred next (rest.dropWhile pred) := by
  rw [group_by]
  rfl

private theorem group_by_from {α : Type} (pred : α → Bool) (first : ℕ) (l : List α) :
    (∀ range ∈ group_by pred first l, first ≤ range.1 ∧ range.1 ≤ range.2) ∧
      (group_by pred first l).Pairwise fun range later => range.2 ≤ later.1 := by
  fun_induction group_by pred first l with
  | case1 => simp
  | case2 first l _ found rest next ih =>
    have start : first ≤ found := Nat.le_add_right _ _
    have stop : found ≤ next := Nat.le_add_right _ _
    refine ⟨fun range member => ?_,pairwise_cons.mpr ⟨fun later member => (ih.1 later member).1,ih.2⟩⟩
    cases mem_cons.mp member with
    | inl here => exact here ▸ ⟨start,stop⟩
    | inr there => exact ⟨(start.trans stop).trans (ih.1 range there).1,(ih.1 range there).2⟩

section Ranges
variable {D : Type} [Mul D] [IntCast D] [LT D] [DecidableLT D]

private theorem ranges_apart (min_distance_needed_for_lane_change : D) (steps : List (RouteStep D)) :
    (quick_lanes_ranges min_distance_needed_for_lane_change steps).Pairwise fun range later => range.2 ≤ later.1 :=
  (group_by_from _ 0 steps).2.sublist filter_sublist

end Ranges

section Narrowed
variable {D : Type} [Zero D] [Add D] [Mul D] [IntCast D] [LT D] [DecidableLT D] {min_distance_needed_for_lane_change : D}
  {walk : Walk D} {steps : List (RouteStep D)} {current_index j : ℕ} {current previous : RouteStep D}

private theorem turnsBackwards_descending (turns : ℕ × ℕ) : (turnsBackwards turns).Pairwise (· > ·) :=
  pairwise_reverse.mpr pairwise_lt_range'

private theorem Reaches.frame (reaches : Reaches min_distance_needed_for_lane_change steps walk current_index) :
    0 < current_index ∧ walk.steps[current_index - 1]? = steps[current_index - 1]? ∧
      Left (constrainPair min_distance_needed_for_lane_change walk current_index)
        (wholeWalk min_distance_needed_for_lane_change steps) (current_index - 1) := by
  obtain ⟨before,range,after,earlier,later,ranges,turns,rfl⟩ := reaches
  have inside := mem_turnsBackwards.mp (turns ▸ mem_append_right earlier mem_cons_self)
  have descending := turnsBackwards_descending range
  rw [turns] at descending
  obtain ⟨_,below,above⟩ := pairwise_append.mp descending
  have apart := ranges ▸ ranges_apart min_distance_needed_for_lane_change steps
  obtain ⟨_,disjoint,split⟩ := pairwise_append.mp apart
  refine ⟨by omega,?_,?_⟩
  · refine (unchanged_foldl earlier _ fun i member walk => ?_).trans (unchanged_foldl before _ fun other member walk => ?_)
    · have := above i member current_index (by simp)
      exact constrainPair_other (by omega) (by omega)
    · have := split other member range (by simp)
      exact unchanged_constrain_lanes (.inr (by omega))
  · rw [wholeWalk,ranges,foldl_append,foldl_cons]
    rw [constrain_lanes.eq_def _ _ range,turns,foldl_append,foldl_cons]
    refine (left_foldl later _ fun i member walk => ?_).trans (left_foldl after _ fun other member walk => ?_)
    · have := (pairwise_cons.mp below).1 i member
      have := mem_turnsBackwards.mp (turns ▸ mem_append_right earlier (mem_cons_of_mem _ member))
      exact left_constrainPair (by omega) (by omega)
    · have := (pairwise_cons.mp disjoint).1 other member
      refine left_constrain_lanes fun found => ?_
      have := mem_turnsBackwards.mp found
      omega

private theorem left_of_not_reaches (none : ∀ walk, ¬Reaches min_distance_needed_for_lane_change steps walk (j + 1)) :
    Left (startWalk steps) (wholeWalk min_distance_needed_for_lane_change steps) j := by
  refine left_foldl _ _ fun range member walk => left_constrain_lanes fun found => ?_
  obtain ⟨before,after,ranges⟩ := append_of_mem member
  obtain ⟨earlier,later,turns⟩ := append_of_mem found
  exact none _ ⟨before,range,after,earlier,later,ranges,turns,rfl⟩

variable {step : RouteStep D}

/-- The steps that remain are the result of `anticipateLaneChange`. -/
theorem map_remaining : (remaining min_distance_needed_for_lane_change steps).map Prod.fst =
    anticipateLaneChange min_distance_needed_for_lane_change steps := by
  rw [anticipateLaneChange,removeNoTurnInstructions]
  conv_rhs => rw [← zipIdx_map_fst 0 (wholeWalk min_distance_needed_for_lane_change steps).steps,List.filter_map]
  rfl

private theorem mem_remaining : (step,j) ∈ remaining min_distance_needed_for_lane_change steps ↔
    (wholeWalk min_distance_needed_for_lane_change steps).steps[j]? = some step ∧ not_is_valid step = false := by
  rw [remaining,mem_filter,mem_zipIdx_iff_getElem?,Bool.not_eq_true']

private theorem Left.kept (later : Left walk (wholeWalk min_distance_needed_for_lane_change steps) j)
    (left : (step,j) ∈ remaining min_distance_needed_for_lane_change steps) : walk.steps[j]? = some step := by
  obtain ⟨found,valid⟩ := mem_remaining.mp left
  rcases later with same | ⟨merged,there,invalid⟩
  · exact same.symm.trans found
  · rw [found,some.injEq] at there
    rw [there,invalid] at valid
    exact Bool.noConfusion valid

private theorem Reaches.lanes (reaches : Reaches min_distance_needed_for_lane_change steps walk current_index)
    (looked : walk.steps[current_index]? = some current) (behind : walk.steps[current_index - 1]? = some previous)
    (left : (step,current_index - 1) ∈ remaining min_distance_needed_for_lane_change steps) :
    steps[current_index - 1]? = some previous ∧
      step.front.lanes = if constrains min_distance_needed_for_lane_change walk current previous then
        anticipate walk current_index current previous else previous.front.lanes := by
  obtain ⟨positive,given,later⟩ := reaches.frame
  obtain ⟨narrowed,there,lanes⟩ := constrainPair_previous looked behind positive
  rw [later.kept left,some.injEq] at there
  exact ⟨given.symm.trans behind,there ▸ lanes⟩

private theorem given_of_unpaired (left : (step,j) ∈ remaining min_distance_needed_for_lane_change steps)
    (unpaired : ¬∃ walk current previous, Reaches min_distance_needed_for_lane_change steps walk (j + 1) ∧
      walk.steps[j + 1]? = some current ∧ walk.steps[j]? = some previous) : steps[j]? = some step := by
  by_cases none : ∀ walk, ¬Reaches min_distance_needed_for_lane_change steps walk (j + 1)
  · exact (left_of_not_reaches none).kept left
  · push Not at none
    obtain ⟨walk,reaches⟩ := none
    obtain ⟨_,given,later⟩ := reaches.frame
    rw [Nat.add_sub_cancel] at given later
    have stays : constrainPair min_distance_needed_for_lane_change walk (j + 1) = walk := by
      unfold constrainPair
      split
      · next current previous looked behind => exact absurd ⟨walk,current,previous,reaches,looked,behind⟩ unpaired
      · rfl
    rw [stays] at later
    exact given.symm.trans (later.kept left)

/-- Exactly where there is room beside each turn that constrains one that remains, lanes are only left out. -/
theorem only_narrows_iff (within : LanesWithin steps) :
    OnlyNarrows min_distance_needed_for_lane_change steps ↔ RoomBeside min_distance_needed_for_lane_change steps := by
  have subset_iff : ∀ {walk : Walk D} {current_index : ℕ} {current previous : RouteStep D}, steps[current_index - 1]? = some previous →
      constrains min_distance_needed_for_lane_change walk current previous = true →
        (turnLanes (anticipate walk current_index current previous) ⊆ turnLanes previous.front.lanes ↔
          HasRoom walk current_index current previous) := by
    intro walk current_index current previous given binds
    simp only [constrains,Bool.and_eq_true,decide_eq_true_eq] at binds
    obtain ⟨⟨_,fan_in⟩,_⟩ := binds
    refine anticipate_subset_iff fan_in ?_
    obtain ⟨inside,few⟩ := within previous (mem_of_getElem? given) (fun none => by simp [none] at fan_in)
    omega
  constructor
  · intro narrows walk current_index current previous reaches ⟨step,left⟩ looked behind binds
    obtain ⟨given,lanes⟩ := reaches.lanes looked behind left
    obtain ⟨before,same,subset⟩ := narrows _ left
    rw [given,some.injEq] at same
    rw [lanes,if_pos binds,← same] at subset
    exact (subset_iff given binds).mp subset
  · rintro room ⟨step,j⟩ left
    by_cases paired : ∃ walk current previous, Reaches min_distance_needed_for_lane_change steps walk (j + 1) ∧
        walk.steps[j + 1]? = some current ∧ walk.steps[j]? = some previous
    · obtain ⟨walk,current,previous,reaches,looked,behind⟩ := paired
      obtain ⟨given,lanes⟩ := reaches.lanes looked behind left
      refine ⟨previous,given,?_⟩
      rw [lanes]
      split_ifs with binds
      · exact (subset_iff given binds).mpr (room walk (j + 1) current previous reaches ⟨step,left⟩ looked behind binds)
      · exact Finset.Subset.refl _
    · exact ⟨step,given_of_unpaired left paired,Finset.Subset.refl _⟩

end Narrowed

/-- A step of ten metres with the lanes that are used and those that are painted. -/
def turnStep (type : TurnType) (modifier : DirectionModifier) (waypoint_type : WaypointType) (lanes : LaneTuple) (painted : ℕ) : RouteStep ℤ :=
  ⟨0,1,10,1,1,⟨⟨type,modifier⟩,waypoint_type⟩,0,1,⟨lanes,replicate painted 0⟩,[]⟩
/-- Straight on with three lanes, and then a left turn with the two rightmost of some lanes. -/
def leftAfterStraight (painted : ℕ) : List (RouteStep ℤ) :=
  [turnStep .NoTurn .UTurn .Depart ⟨0,INVALID_LANEID⟩ 0,turnStep .Continue .Straight .None ⟨3,0⟩ 3,
    turnStep .Turn .Left .None ⟨2,0⟩ painted,turnStep .NoTurn .UTurn .Arrive ⟨0,INVALID_LANEID⟩ 0]

private theorem group_by_middle {α : Type} {pred : α → Bool} {a b c d : α} (shape : [a,b,c,d].map pred = [false,true,true,false]) :
    group_by pred 0 [a,b,c,d] = [(1,3),(4,4)] := by
  simp only [map_cons,map_nil,List.cons.injEq,and_true] at shape
  obtain ⟨first,second,third,last⟩ := shape
  rw [group_by_cons]
  simp [first,second,third,last,group_by_cons,group_by_nil]

private theorem leftAfterStraight_ranges (painted : ℕ) (few : painted ≤ 4) : quick_lanes_ranges 200 (leftAfterStraight painted) = [(1,3)] := by
  have shape : (leftAfterStraight painted).map (is_short_has_lanes 200) = [false,true,true,false] := by
    interval_cases painted <;> rfl
  rw [quick_lanes_ranges,leftAfterStraight,group_by_middle shape]
  rfl

private theorem leftAfterStraight_within (painted : ℕ) (two : 2 ≤ painted) (few : painted ≤ 4) : LanesWithin (leftAfterStraight painted) := by
  intro step member
  simp only [leftAfterStraight,mem_cons,not_mem_nil,or_false] at member
  rcases member with rfl | rfl | rfl | rfl
  · exact fun none => absurd rfl none
  · exact fun _ => ⟨by decide,by decide⟩
  · refine fun _ => ⟨?_,?_⟩
    · simpa [turnStep] using two
    · simp only [turnStep,length_replicate]
      omega
  · exact fun none => absurd rfl none

private theorem leftAfterStraight_reaches {painted current_index : ℕ} {walk : Walk ℤ} (few : painted ≤ 4)
    (reaches : Reaches 200 (leftAfterStraight painted) walk current_index) :
    current_index = 2 ∧ walk = startRange (startWalk (leftAfterStraight painted)) := by
  obtain ⟨before,range,after,earlier,later,ranges,turns,rfl⟩ := reaches
  rw [leftAfterStraight_ranges painted few,singleton_eq_append_iff] at ranges
  obtain ⟨rfl,single⟩ | ⟨rfl,single⟩ := ranges
  · obtain ⟨rfl,_⟩ := List.cons.inj single
    have pair : turnsBackwards (1,3) = [2] := rfl
    rw [pair,singleton_eq_append_iff] at turns
    obtain ⟨rfl,last⟩ | ⟨_,last⟩ := turns
    · exact ⟨(List.cons.inj last).1,rfl⟩
    · simp at last
  · simp at single

theorem leftAfterStraight_narrows : OnlyNarrows 200 (leftAfterStraight 2) := by
  refine (only_narrows_iff (leftAfterStraight_within 2 le_rfl (by decide))).mpr ?_
  intro walk current_index current previous reaches _ looked behind _
  obtain ⟨rfl,rfl⟩ := leftAfterStraight_reaches (by decide) reaches
  obtain rfl := some.inj looked
  obtain rfl := some.inj behind
  unfold HasRoom
  decide

/-- The turn has two lanes to the left, and one of the straight lanes is left out only. -/
theorem leftAfterStraight_wraps : LanesWithin (leftAfterStraight 4) ∧ ¬OnlyNarrows 200 (leftAfterStraight 4) := by
  refine ⟨leftAfterStraight_within 4 (by decide) le_rfl,fun narrows => ?_⟩
  have left : (turnStep .Continue .Straight .None ⟨2,255⟩ 3,1) ∈ remaining 200 (leftAfterStraight 4) := by
    rw [mem_remaining,wholeWalk,leftAfterStraight_ranges 4 le_rfl]
    exact ⟨rfl,rfl⟩
  obtain ⟨before,given,subset⟩ := narrows _ left
  obtain rfl := some.inj given
  exact absurd subset (by decide)

end Osrm.LaneProcessing
