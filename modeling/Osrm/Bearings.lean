import Osrm.Phantom
import Osrm.Rounding

/-!
`CheckInBounds` of `util/bearing.hpp`, which compares two bearings on the circle, and `CheckSegmentBearing` of
`engine/geospatial_query.hpp`, which filters the directions of a segment with it.
-/
namespace Osrm.Bearings
open Rounding Phantom

/-- What the source computes for `normalized_A` and `normalized_B`. -/
def normalized (bearing : ℤ) : ℤ := if bearing < 0 then bearing.tmod 360 + 360 else bearing.tmod 360

def CheckInBounds (A B range : ℤ) : Bool :=
  if range ≥ 180 then true
  else if range < 0 then false
  else
    let normalized_B := normalized B
    let normalized_A := normalized A
    if normalized_B - range < 0 then
      (normalized_B - range + 360 ≤ normalized_A && normalized_A < 360) ||
        (0 ≤ normalized_A && normalized_A ≤ normalized_B + range)
    else if normalized_B + range > 360 then
      (normalized_B - range ≤ normalized_A && normalized_A < 360) ||
        (0 ≤ normalized_A && normalized_A ≤ normalized_B + range - 360)
    else normalized_B - range ≤ normalized_A && normalized_A ≤ normalized_B + range

/-- On the circle `A` is no further than `range` from `B`. -/
def Within (A B range : ℤ) : Prop := ∃ k : ℤ, |A - B + 360 * k| ≤ range
def InBounds (A B range : ℤ) : Prop := range ≥ 180 ∨ range ≥ 0 ∧ Within A B range
/-- The interval around the normalised `B` ends at 360. -/
def EndsNorth (B range : ℤ) : Prop := 360 ∣ B + range ∧ (range = 0 → B < 0)
/-- North is around `B`, and `A` is the one of its names for which the intervals of the code leave it out. -/
def MissesNorth (A B range : ℤ) : Prop :=
  0 ≤ range ∧ range < 180 ∧ 360 ∣ A ∧ Within B 0 range ∧ (A < 0 ↔ ¬EndsNorth B range)

variable {A B range : ℤ}

private theorem Within.shift (within : Within A B range) (i j : ℤ) :
    Within (A + 360 * i) (B + 360 * j) range := by
  obtain ⟨k,close⟩ := within
  refine ⟨k - i + j,?_⟩
  rwa [show A + 360 * i - (B + 360 * j) + 360 * (k - i + j) = A - B + 360 * k by ring]

private theorem within_shift (A B range i j : ℤ) : Within (A + 360 * i) (B + 360 * j) range ↔ Within A B range := by
  refine ⟨fun within => ?_,fun within => within.shift i j⟩
  simpa [add_assoc,← mul_add] using within.shift (-i) (-j)

private theorem within_normalized {a b range : ℤ} (small : range < 180) (lowA : 0 ≤ a) (highA : a ≤ 360) (lowB : 0 ≤ b)
    (highB : b ≤ 360) : Within a b range ↔
      (-range ≤ a - b ∧ a - b ≤ range) ∨ 360 - range ≤ a - b ∨ a - b ≤ range - 360 := by
  constructor
  · rintro ⟨k,close⟩
    rw [abs_le] at close
    have cases : k = -1 ∨ k = 0 ∨ k = 1 := by omega
    omega
  · rintro (near | above | below)
    · exact ⟨0,abs_le.mpr (by omega)⟩
    · exact ⟨-1,abs_le.mpr (by omega)⟩
    · exact ⟨1,abs_le.mpr (by omega)⟩

private theorem normalized_spec (x : ℤ) : (∃ k, x = normalized x + 360 * k) ∧
    (0 ≤ x ∧ 0 ≤ normalized x ∧ normalized x < 360 ∨ x < 0 ∧ 0 < normalized x ∧ normalized x ≤ 360) := by
  have division := Int.mul_tdiv_add_tmod x 360
  rcases lt_or_ge x 0 with negative | positive
  · have low := Int.lt_tmod_of_pos x (show (0 : ℤ) < 360 by decide)
    have high := Int.tmod_nonneg (a := -x) 360 (by omega)
    rw [Int.neg_tmod] at high
    rw [normalized,if_pos negative]
    exact ⟨⟨x.tdiv 360 - 1,by omega⟩,by omega⟩
  · have low := Int.tmod_nonneg 360 positive
    have high := Int.tmod_lt_of_pos x (show (0 : ℤ) < 360 by decide)
    rw [normalized,if_neg (not_lt.mpr positive)]
    exact ⟨⟨x.tdiv 360,by omega⟩,by omega⟩

private theorem endsNorth_iff {B range : ℤ} (positive : 0 ≤ range) (small : range < 180) :
    EndsNorth B range ↔ normalized B + range = 360 := by
  obtain ⟨⟨k,whole⟩,bounds⟩ := normalized_spec B
  rw [EndsNorth]
  omega

private theorem within_north {B range : ℤ} (small : range < 180) :
    Within B 0 range ↔ normalized B ≤ range ∨ 360 - range ≤ normalized B := by
  obtain ⟨⟨k,whole⟩,bounds⟩ := normalized_spec B
  have shifted := within_shift (normalized B) 0 range k 0
  rw [mul_zero,add_zero,← whole] at shifted
  rw [shifted,within_normalized small (by omega) (by omega) le_rfl (by decide)]
  omega

private theorem within_iff (small : range < 180) : Within A B range ↔
    (-range ≤ normalized A - normalized B ∧ normalized A - normalized B ≤ range) ∨
      360 - range ≤ normalized A - normalized B ∨ normalized A - normalized B ≤ range - 360 := by
  obtain ⟨⟨i,wholeA⟩,boundsA⟩ := normalized_spec A
  obtain ⟨⟨j,wholeB⟩,boundsB⟩ := normalized_spec B
  have shifted := within_shift (normalized A) (normalized B) range i j
  rw [← wholeA,← wholeB] at shifted
  rw [shifted,within_normalized small (by omega) (by omega) (by omega) (by omega)]

private theorem missesNorth_iff (positive : 0 ≤ range) (small : range < 180) : MissesNorth A B range ↔
    (normalized A = 0 ∧ normalized B + range = 360) ∨
      (normalized A = 360 ∧ (normalized B ≤ range ∨ 360 < normalized B + range)) := by
  obtain ⟨⟨i,wholeA⟩,boundsA⟩ := normalized_spec A
  obtain ⟨⟨j,wholeB⟩,boundsB⟩ := normalized_spec B
  rw [MissesNorth,endsNorth_iff positive small,within_north small]
  omega

private theorem checkInBounds_iff (A B range : ℤ) :
    CheckInBounds A B range = true ↔ InBounds A B range ∧ ¬MissesNorth A B range := by
  rcases lt_or_ge range 180 with small | wide
  · rcases lt_or_ge range 0 with negative | positive
    · simp [CheckInBounds,InBounds,not_le.mpr small,negative,not_le.mpr negative]
    · obtain ⟨-,boundsA⟩ := normalized_spec A
      obtain ⟨-,boundsB⟩ := normalized_spec B
      rw [missesNorth_iff positive small]
      simp only [CheckInBounds,InBounds,ge_iff_le,not_le.mpr small,not_lt.mpr positive,positive,if_false,false_or,true_and,
        within_iff small]
      split_ifs <;> simp only [Bool.or_eq_true,Bool.and_eq_true,decide_eq_true_eq] <;> omega
  · simp [CheckInBounds,InBounds,MissesNorth,wide]

private theorem within_of_north (north : 360 ∣ A) (near : Within B 0 range) :
    Within A B range := by
  obtain ⟨k,close⟩ := near
  obtain ⟨i,rfl⟩ := north
  refine ⟨-k - i,?_⟩
  rwa [← abs_neg,show -(360 * i - B + 360 * (-k - i)) = B - 0 + 360 * k by ring]

/-- Multiples of 360 below and from zero on are compared differently whenever north is in the interval. -/
private theorem north_differs {B range : ℤ} (positive : 0 ≤ range) (small : range < 180) (near : Within B 0 range) :
    CheckInBounds 0 B range ≠ CheckInBounds (-360) B range := by
  have zero : CheckInBounds 0 B range = true ↔ ¬EndsNorth B range := by
    simp [checkInBounds_iff,InBounds,MissesNorth,positive,small,near,within_of_north (dvd_zero 360) near]
  have negative : CheckInBounds (-360) B range = true ↔ EndsNorth B range := by
    have north : (360 : ℤ) ∣ -360 := by decide
    simp [checkInBounds_iff,InBounds,MissesNorth,positive,small,near,within_of_north north near]
  intro equal
  rw [equal,negative] at zero
  exact iff_not_self zero

/-- The result is right for given bearings, and it is the same for all their names, up to the ones at north. -/
theorem circular_iff (A B range : ℤ) :
    ((CheckInBounds A B range = true ↔ InBounds A B range) ↔ ¬MissesNorth A B range) ∧
    ((∀ i j, CheckInBounds (A + 360 * i) (B + 360 * j) range = CheckInBounds A B range) ↔
      ¬(0 ≤ range ∧ range < 180 ∧ 360 ∣ A ∧ Within B 0 range)) := by
  refine ⟨?_,fun same => ?_,fun apart i j => ?_⟩
  · rw [checkInBounds_iff]
    refine ⟨fun right missed => ?_,fun found => by simp [found]⟩
    have within := within_of_north missed.2.2.1 missed.2.2.2.1
    exact (right.mpr (.inr ⟨missed.1,within⟩)).2 missed
  · rintro ⟨positive,small,⟨k,rfl⟩,near⟩
    have zero := same (-k) 0
    have negative := same (-k - 1) 0
    rw [mul_zero,add_zero,show 360 * k + 360 * -k = 0 by ring] at zero
    rw [mul_zero,add_zero,show 360 * k + 360 * (-k - 1) = -360 by ring] at negative
    exact north_differs positive small near (zero.trans negative.symm)
  · have shifted : InBounds (A + 360 * i) (B + 360 * j) range ↔ InBounds A B range := by rw [InBounds,InBounds,within_shift]
    have found (p q : ℤ) : ¬MissesNorth (A + 360 * p) (B + 360 * q) range := by
      rintro ⟨positive,small,north,near,-⟩
      have name := within_shift B 0 range q 0
      rw [mul_zero,add_zero] at name
      exact apart ⟨positive,small,(Int.dvd_add_left ⟨p,rfl⟩).mp north,name.mp near⟩
    have here := found 0 0
    simp only [mul_zero,add_zero] at here
    rw [Bool.eq_iff_iff,checkInBounds_iff,checkInBounds_iff,shifted]
    simp only [here,found i j]

/-- Ten degrees to the left of north reach north, but not by its usual name. -/
theorem ten_degrees_from_north : ¬∀ A B range : ℤ, CheckInBounds A B range = true ↔ InBounds A B range := by
  intro right
  have near : InBounds 0 350 10 := .inr ⟨by decide,1,by decide⟩
  exact absurd ((right 0 350 10).mpr near) (by decide)

structure Bearing where
  bearing : ℤ
  range : ℤ

def Bearing.IsValid (filter : Bearing) : Bool :=
  filter.bearing ≥ 0 && filter.bearing ≤ 360 && filter.range ≥ 0 && filter.range ≤ 180

/-- What `CheckSegmentBearing` answers for a segment of the given bearing and ids. -/
def CheckSegmentBearing (forward_edge_bearing : ℚ) (forward_segment_id reverse_segment_id : SegmentID)
    (filter_bearing : Bearing) : Bool × Bool :=
  let backward_edge_bearing :=
    if forward_edge_bearing + 180 > 360 then forward_edge_bearing - 180 else forward_edge_bearing + 180
  let forward_bearing_valid :=
    CheckInBounds (lround forward_edge_bearing) filter_bearing.bearing filter_bearing.range && forward_segment_id.enabled
  let backward_bearing_valid :=
    CheckInBounds (lround backward_edge_bearing) filter_bearing.bearing filter_bearing.range && reverse_segment_id.enabled
  (forward_bearing_valid,backward_bearing_valid)

private theorem missesNorth_of_valid (notNegative : 0 ≤ A) (lowB : 0 ≤ B) (highB : B ≤ 360) :
    MissesNorth A B range ↔ 0 < range ∧ range < 180 ∧ 360 ∣ A ∧ B + range = 360 := by
  by_cases small : 0 ≤ range ∧ range < 180
  · rw [MissesNorth,within_north small.2,endsNorth_iff small.1 small.2]
    obtain ⟨⟨j,wholeB⟩,boundsB⟩ := normalized_spec B
    omega
  · rw [MissesNorth]
    omega

/-- A direction passes a valid filter if it is enabled and its rounded bearing is in the bounds, but for north at their end. -/
theorem checkSegmentBearing_iff {bearing : ℚ} (forward reverse : SegmentID) {filter : Bearing} (low : 0 ≤ bearing)
    (valid : filter.IsValid = true) : (CheckSegmentBearing bearing forward reverse filter).1 = true ↔
      forward.enabled = true ∧ InBounds (lround bearing) filter.bearing filter.range ∧
        ¬(0 < filter.range ∧ filter.range < 180 ∧ 360 ∣ lround bearing ∧ filter.bearing + filter.range = 360) := by
  simp only [Bearing.IsValid,ge_iff_le,Bool.and_eq_true,decide_eq_true_eq] at valid
  have notNegative : 0 ≤ lround bearing := (le_lround_iff low).mpr (by push_cast; linarith)
  rw [← missesNorth_of_valid notNegative valid.1.1.1 valid.1.1.2,CheckSegmentBearing]
  simp only [Bool.and_eq_true,checkInBounds_iff]
  tauto

end Osrm.Bearings
