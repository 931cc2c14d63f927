import Osrm.LaneProcessing
import Mathlib.Algebra.BigOperators.Group.List.Basic

/-!
`RouteStep::MergeWith` of `engine/guidance/route_step.hpp`, which is to extend a step by the one before or after it.
The functions for the two sides assert that the ranges meet, and `MergeWith` calls the one for the other side.
-/
namespace Osrm.RouteSteps
open List Option
open LaneProcessing

section Steps
variable {D : Type}

/-- `intersections`, of which there is always a first one. -/
def intersections (step : RouteStep D) : List IntermediateIntersection := step.front :: step.following

variable [Add D]

def AddInFront (step preceeding_step : RouteStep D) : RouteStep D :=
  { step with
    duration := step.duration + preceeding_step.duration
    distance := step.distance + preceeding_step.distance
    weight := step.weight + preceeding_step.weight
    geometry_begin := preceeding_step.geometry_begin
    front := preceeding_step.front
    following := preceeding_step.following ++ step.front :: step.following }

def MergeWith (step by_step : RouteStep D) : RouteStep D :=
  if step.geometry_end = by_step.geometry_begin + 1 then AddInFront step by_step else step.ElongateBy by_step

inductive Side
  | Before
  | After
  deriving DecidableEq, Repr

def merged (side : Side) (first second : RouteStep D) : RouteStep D :=
  match side with
  | .Before => MergeWith second first
  | .After => MergeWith first second

/-- The step at the index and the next one become one, and the one that is absorbed is removed. -/
def mergeAt (steps : List (RouteStep D)) (merge : ℕ × Side) : Option (List (RouteStep D)) :=
  match steps.drop merge.1 with
  | first :: second :: rest => some (steps.take merge.1 ++ merged merge.2 first second :: rest)
  | _ => none

def mergeAll (steps : List (RouteStep D)) (merges : List (ℕ × Side)) : Option (List (RouteStep D)) :=
  merges.foldlM mergeAt steps

end Steps

/-- The steps go from one location to another, each from the last location of the one before it. -/
def Covers {D : Type} (first : ℤ) : List (RouteStep D) → ℤ → Prop
  | [],last => first = last
  | step :: rest,last => step.geometry_begin = first ∧ Covers (step.geometry_end - 1) rest last

section Covers
variable {D : Type}

private theorem covers_append {first last : ℤ} {before after : List (RouteStep D)} :
    Covers first (before ++ after) last ↔ ∃ middle, Covers first before middle ∧ Covers middle after last := by
  induction before generalizing first with
  | nil => simp [Covers]
  | cons step before ih => simp [Covers,ih,and_assoc]

private theorem Covers.last_unique {first last last' : ℤ} {steps : List (RouteStep D)} (covers : Covers first steps last)
    (other : Covers first steps last') : last = last' := by
  induction steps generalizing first with
  | nil => exact covers.symm.trans other
  | cons step steps ih => exact ih covers.2 other.2

private theorem Covers.first_unique {first first' last : ℤ} {steps : List (RouteStep D)} (covers : Covers first steps last)
    (other : Covers first' steps last) : first = first' := by
  cases steps with
  | nil => exact covers.trans other.symm
  | cons step steps => exact covers.1.symm.trans other.1

private theorem covers_replaced {first last : ℤ} {before rest : List (RouteStep D)} {a b m : RouteStep D}
    (covers : Covers first (before ++ a :: b :: rest) last) : Covers first (before ++ m :: rest) last ↔
      m.geometry_begin = a.geometry_begin ∧ m.geometry_end = b.geometry_end := by
  obtain ⟨middle,front,beginA,-,back⟩ := covers_append.mp covers
  rw [covers_append]
  constructor
  · rintro ⟨middle',front',beginM,back'⟩
    have sameFront := front.last_unique front'
    have sameBack := back.first_unique back'
    omega
  · rintro ⟨sameBegin,sameEnd⟩
    exact ⟨middle,front,by rw [sameBegin,beginA],by rwa [sameEnd]⟩

end Covers

section Leg
variable {D : Type} [AddCommMonoid D]

/-- The steps after merges cover what the ones before have covered, with the same totals and intersections. The sums are
    exact; the code's sums of doubles may differ in the last bits as they are put together in another order. -/
structure SameLeg (first last : ℤ) (steps after : List (RouteStep D)) : Prop where
  covers : Covers first after last
  duration : (after.map (·.duration)).sum = (steps.map (·.duration)).sum
  distance : (after.map (·.distance)).sum = (steps.map (·.distance)).sum
  weight : (after.map (·.weight)).sum = (steps.map (·.weight)).sum
  intersections : after.flatMap intersections = steps.flatMap intersections

/-- What `MergeWith` needs: a step before ends where the other begins; a step after has the same range, and the
    intersections may be exchanged. -/
def Meets (side : Side) (first second : RouteStep D) : Prop :=
  match side with
  | .Before => second.geometry_end = first.geometry_begin + 1
  | .After => second.geometry_begin = first.geometry_begin ∧ second.geometry_end = first.geometry_end ∧
      intersections second ++ intersections first = intersections first ++ intersections second

private theorem intersections_addInFront (step preceeding_step : RouteStep D) :
    intersections (AddInFront step preceeding_step) = intersections preceeding_step ++ intersections step := by
  simp [intersections,AddInFront]

private theorem merged_sums (side : Side) (first second : RouteStep D) :
    (merged side first second).duration = first.duration + second.duration ∧
    (merged side first second).distance = first.distance + second.distance ∧
    (merged side first second).weight = first.weight + second.weight := by
  cases side <;> rw [merged,MergeWith] <;> split_ifs <;> simp [AddInFront,RouteStep.ElongateBy,add_comm]

private theorem merged_iff {side : Side} {first second : RouteStep D} (next : first.geometry_end = second.geometry_begin + 1) :
    ((merged side first second).geometry_begin = first.geometry_begin ∧
      (merged side first second).geometry_end = second.geometry_end ∧
      intersections (merged side first second) = intersections first ++ intersections second) ↔ Meets side first second := by
  cases side with
  | Before =>
    rw [merged,MergeWith,Meets]
    split_ifs with meets
    · simp [AddInFront,intersections,meets]
    · refine iff_of_false ?_ meets
      rintro ⟨sameBegin,sameEnd,-⟩
      simp only [RouteStep.ElongateBy] at sameBegin sameEnd
      omega
  | After =>
    rw [merged,MergeWith,if_pos next,Meets,intersections_addInFront]
    simp [AddInFront,eq_comm]

private theorem sameLeg_merge_iff (side : Side) {first last : ℤ} {before rest : List (RouteStep D)} {a b : RouteStep D}
    (covers : Covers first (before ++ a :: b :: rest) last) :
    SameLeg first last (before ++ a :: b :: rest) (before ++ merged side a b :: rest) ↔ Meets side a b := by
  obtain ⟨middle,-,beginA,beginB,-⟩ := covers_append.mp covers
  obtain ⟨durations,distances,weights⟩ := merged_sums side a b
  have next : a.geometry_end = b.geometry_begin + 1 := by omega
  rw [← merged_iff next]
  constructor
  · intro same
    have ends := (covers_replaced covers).mp same.covers
    have inner := same.intersections
    simp only [flatMap_append,flatMap_cons,← append_assoc,append_cancel_right_eq] at inner
    simp only [append_assoc,append_cancel_left_eq] at inner
    exact ⟨ends.1,ends.2,inner⟩
  · rintro ⟨sameBegin,sameEnd,inner⟩
    exact ⟨(covers_replaced covers).mpr ⟨sameBegin,sameEnd⟩,by simp [durations,add_assoc],by simp [distances,add_assoc],
      by simp [weights,add_assoc],by simp [inner]⟩

section Runs
variable {first last : ℤ} {steps middle after : List (RouteStep D)}

private theorem SameLeg.refl (covers : Covers first steps last) : SameLeg first last steps steps := ⟨covers,rfl,rfl,rfl,rfl⟩

private theorem SameLeg.trans (same : SameLeg first last steps middle) (next : SameLeg first last middle after) :
    SameLeg first last steps after :=
  ⟨next.covers,next.duration.trans same.duration,next.distance.trans same.distance,next.weight.trans same.weight,
    next.intersections.trans same.intersections⟩

private theorem SameLeg.between (same : SameLeg first last steps middle) (other : SameLeg first last steps after) :
    SameLeg first last middle after :=
  ⟨other.covers,other.duration.trans same.duration.symm,other.distance.trans same.distance.symm,
    other.weight.trans same.weight.symm,other.intersections.trans same.intersections.symm⟩

def MeetsAt (steps : List (RouteStep D)) (merge : ℕ × Side) : Prop :=
  ∀ a b rest, steps.drop merge.1 = a :: b :: rest → Meets merge.2 a b

variable {merge : ℕ × Side}

private theorem mergeAt_spec (merged : mergeAt steps merge = some after) :
    ∃ a b rest, steps.drop merge.1 = a :: b :: rest ∧ steps = steps.take merge.1 ++ a :: b :: rest ∧
      after = steps.take merge.1 ++ RouteSteps.merged merge.2 a b :: rest := by
  have parts := (take_append_drop merge.1 steps).symm
  rw [mergeAt] at merged
  split at merged
  · rename_i a b rest dropped
    rw [dropped] at parts
    exact ⟨a,b,rest,dropped,parts,(some.inj merged).symm⟩
  · cases merged

private theorem sameLeg_mergeAt_iff (covers : Covers first steps last)
    (merged : mergeAt steps merge = some after) : SameLeg first last steps after ↔ MeetsAt steps merge := by
  obtain ⟨a,b,rest,dropped,parts,rfl⟩ := mergeAt_spec merged
  rw [parts] at covers
  have one := sameLeg_merge_iff merge.2 covers
  rw [← parts] at one
  rw [one,MeetsAt]
  constructor
  · intro meets a' b' rest' dropped'
    rw [dropped] at dropped'
    injection dropped' with sameA more
    injection more with sameB
    exact sameA ▸ sameB ▸ meets
  · exact fun all => all a b rest dropped

private theorem mergeAll_concat {merges : List (ℕ × Side)} :
    mergeAll steps (merges ++ [merge]) = (mergeAll steps merges).bind (mergeAt · merge) := by
  rw [mergeAll,foldlM_append]
  simp [mergeAll]

/-- Every list of steps in a run is the same leg exactly where every merge is one that `MergeWith` does right. -/
theorem merges_keep_leg_iff (covers : Covers first steps last) (merges : List (ℕ × Side)) :
    (∀ done state, done <+: merges → mergeAll steps done = some state → SameLeg first last steps state) ↔
    (∀ done merge state after, done ++ [merge] <+: merges → mergeAll steps done = some state →
      mergeAt state merge = some after → MeetsAt state merge) := by
  constructor
  · intro all done merge state after inside reached merged
    have before := all done state ((prefix_append ..).trans inside) reached
    have next := all _ after inside (by rw [mergeAll_concat,reached]; exact merged)
    exact (sameLeg_mergeAt_iff before.covers merged).mp (before.between next)
  · intro meets done
    induction done using List.reverseRecOn with
    | nil =>
      intro state _ reached
      obtain rfl : steps = state := some.inj reached
      exact .refl covers
    | append_singleton done merge ih =>
      intro after inside reached
      rw [mergeAll_concat] at reached
      obtain ⟨state,before,merged⟩ := bind_eq_some_iff.mp reached
      have same := ih state ((prefix_append ..).trans inside) before
      exact same.trans ((sameLeg_mergeAt_iff same.covers merged).mpr (meets done merge state after inside before merged))

end Runs

end Leg

def stepOf (geometry_begin geometry_end : ℕ) : RouteStep ℕ :=
  ⟨0,1,1,1,1,getInvalidStepManeuver,geometry_begin,geometry_end,getInvalidIntersection,[]⟩

/-- Two steps of one location, which is where both sides agree. -/
theorem merges_keep_leg_one_point : Covers 7 [stepOf 7 8,stepOf 7 8] 7 ∧ ∀ done state, done <+: [(0,Side.Before)] →
    mergeAll [stepOf 7 8,stepOf 7 8] done = some state → SameLeg 7 7 [stepOf 7 8,stepOf 7 8] state := by
  have covers : Covers 7 [stepOf 7 8,stepOf 7 8] 7 := by simp [Covers,stepOf]
  refine ⟨covers,(merges_keep_leg_iff covers [(0,.Before)]).mpr fun done merge state after inside reached _ => ?_⟩
  obtain ⟨rfl,rfl⟩ : done = [] ∧ merge = (0,.Before) := by
    have short := inside.length_le
    cases done with
    | nil => simpa using inside
    | cons => simp at short
  obtain rfl : [stepOf 7 8,stepOf 7 8] = state := some.inj reached
  intro a b rest dropped
  obtain ⟨rfl,rfl,rfl⟩ : stepOf 7 8 = a ∧ stepOf 7 8 = b ∧ [] = rest := by simpa using dropped
  simp [Meets,stepOf]

/-- Of two steps that follow each other the first is to be extended by the second. -/
theorem extended_by_next : ¬∀ (first last : ℤ) (steps : List (RouteStep ℕ)) (merges : List (ℕ × Side)) (state : List (RouteStep ℕ)),
    Covers first steps last → (∀ a ∈ steps, ∀ b ∈ steps, a.mode = b.mode) → mergeAll steps merges = some state →
      SameLeg first last steps state := by
  intro all
  have covers : Covers 0 [stepOf 0 3,stepOf 2 5] 4 := by simp [Covers,stepOf]
  have same := all 0 4 [stepOf 0 3,stepOf 2 5] [(0,.After)] _ covers (by simp [stepOf]) rfl
  have wrong := same.covers.1
  simp [merged,MergeWith,AddInFront,stepOf] at wrong

end Osrm.RouteSteps
