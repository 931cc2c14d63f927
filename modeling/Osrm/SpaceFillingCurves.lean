import Mathlib.Tactic

/-!
Self-similar curves through a square of `2 ^ n` by `2 ^ n` cells. A curve of depth `n + 1` goes through the four
quadrants in an order that its state gives, and in each it is a curve of depth `n` in another state.
-/
namespace Osrm.SpaceFillingCurves

/-- In each coordinate, whether the quadrant is the upper one. The corners of a square are named alike. -/
abbrev Quadrant := Bool × Bool

structure Curve (State : Type) where
  /-- The place of a quadrant in the order. -/
  digit : State → Quadrant → Fin 4
  /-- The state of the curve in the quadrant. -/
  next : State → Quadrant → State

namespace Curve
variable {State : Type} (curve : Curve State)

def position : ℕ → State → ℕ → ℕ → ℕ
  | 0, _, _, _ => 0
  | n + 1, s, x, y =>
    let quadrant := (decide (2 ^ n ≤ x),decide (2 ^ n ≤ y))
    curve.digit s quadrant * 4 ^ n + position n (curve.next s quadrant) (x % 2 ^ n) (y % 2 ^ n)

/-- From a cell in one quadrant one gets to a cell in another one when they are at these corners, side by side. -/
def Meet (quadrant corner quadrant' corner' : Quadrant) : Prop :=
  (quadrant.1 = quadrant'.1 ∧ corner.1 = corner'.1 ∧ quadrant.2 ≠ quadrant'.2 ∧ corner.2 = quadrant'.2 ∧ corner'.2 = quadrant.2) ∨
  (quadrant.2 = quadrant'.2 ∧ corner.2 = corner'.2 ∧ quadrant.1 ≠ quadrant'.1 ∧ corner.1 = quadrant'.1 ∧ corner'.1 = quadrant.1)

instance (quadrant corner quadrant' corner' : Quadrant) : Decidable (Meet quadrant corner quadrant' corner') :=
  inferInstanceAs (Decidable (_ ∨ _))

/-- The curve of each state begins in one corner and ends in another one, and it is not interrupted. -/
structure Continuous (first last : State → Quadrant) : Prop where
  digit_bijective : ∀ s, Function.Bijective (curve.digit s)
  digit_first : ∀ s, curve.digit s (first s) = 0
  first_next : ∀ s, first (curve.next s (first s)) = first s
  digit_last : ∀ s, curve.digit s (last s) = 3
  last_next : ∀ s, last (curve.next s (last s)) = last s
  meet : ∀ s quadrant quadrant', (curve.digit s quadrant : ℕ) + 1 = curve.digit s quadrant' →
    Meet quadrant (last (curve.next s quadrant)) quadrant' (first (curve.next s quadrant'))

def corner (n : ℕ) (upper : Bool) : ℕ := upper.toNat * (2 ^ n - 1)
def Beside (x y x' y' : ℕ) : Prop :=
  (x = x' ∧ (y + 1 = y' ∨ y' + 1 = y)) ∨ (y = y' ∧ (x + 1 = x' ∨ x' + 1 = x))

variable {curve} {n : ℕ} {s : State} {x y x' y' : ℕ} {first last : State → Quadrant}

private theorem halves (inside : x < 2 ^ (n + 1)) : ∃ (upper : Bool) (rest : ℕ), rest < 2 ^ n ∧ x = upper.toNat * 2 ^ n + rest := by
  rw [pow_succ] at inside
  rcases Nat.lt_or_ge x (2 ^ n) with lower | upper
  · exact ⟨false,x,lower,by simp⟩
  · exact ⟨true,x - 2 ^ n,by omega,by simp [upper]⟩

private theorem upper_of_halves {upper : Bool} (inside : x < 2 ^ n) : decide (2 ^ n ≤ upper.toNat * 2 ^ n + x) = upper := by
  cases upper with
  | false => simpa using inside
  | true => simp

private theorem rest_of_halves {upper : Bool} (inside : x < 2 ^ n) : (upper.toNat * 2 ^ n + x) % 2 ^ n = x := by
  rw [Nat.mul_add_mod_self_right,Nat.mod_eq_of_lt inside]

private theorem position_halves (quadrant : Quadrant) (insideX : x < 2 ^ n) (insideY : y < 2 ^ n) :
    curve.position (n + 1) s (quadrant.1.toNat * 2 ^ n + x) (quadrant.2.toNat * 2 ^ n + y) =
      curve.digit s quadrant * 4 ^ n + curve.position n (curve.next s quadrant) x y := by
  rw [position]
  simp only [upper_of_halves insideX,upper_of_halves insideY,rest_of_halves insideX,rest_of_halves insideY]

theorem position_lt (curve : Curve State) (n : ℕ) (s : State) (x y : ℕ) : curve.position n s x y < 4 ^ n := by
  induction n generalizing s x y with
  | zero => simp [position]
  | succ n ih =>
    rw [position]
    generalize (decide (2 ^ n ≤ x),decide (2 ^ n ≤ y)) = quadrant
    have rest := ih (curve.next s quadrant) (x % 2 ^ n) (y % 2 ^ n)
    have digit : (curve.digit s quadrant : ℕ) * 4 ^ n ≤ 3 * 4 ^ n := Nat.mul_le_mul_right _ (Nat.le_of_lt_succ (curve.digit s quadrant).isLt)
    rw [pow_succ]
    omega

private theorem digits_unique {b d d' r r' : ℕ} (small : r < b) (small' : r' < b) (same : d * b + r = d' * b + r') : d = d' ∧ r = r' := by
  have positive : 0 < b := Nat.zero_lt_of_lt small
  have quotient : d = d' := by
    have divided := congrArg (· / b) same
    simpa [Nat.mul_comm _ b,Nat.mul_add_div positive,Nat.div_eq_of_lt small,Nat.div_eq_of_lt small'] using divided
  subst quotient
  exact ⟨rfl,Nat.add_left_cancel same⟩

theorem Continuous.position_injective (continuous : curve.Continuous first last) (insideX : x < 2 ^ n) (insideY : y < 2 ^ n)
    (insideX' : x' < 2 ^ n) (insideY' : y' < 2 ^ n) (same : curve.position n s x y = curve.position n s x' y') : x = x' ∧ y = y' := by
  induction n generalizing s x y x' y' with
  | zero => constructor <;> omega
  | succ n ih =>
    obtain ⟨upperX,restX,smallX,rfl⟩ := halves insideX
    obtain ⟨upperY,restY,smallY,rfl⟩ := halves insideY
    obtain ⟨upperX',restX',smallX',rfl⟩ := halves insideX'
    obtain ⟨upperY',restY',smallY',rfl⟩ := halves insideY'
    rw [position_halves (upperX,upperY) smallX smallY,position_halves (upperX',upperY') smallX' smallY'] at same
    obtain ⟨digit,rest⟩ := digits_unique (position_lt ..) (position_lt ..) same
    have quadrant : (upperX,upperY) = (upperX',upperY') := (continuous.digit_bijective s).injective (Fin.ext digit)
    obtain ⟨rfl,rfl⟩ := Prod.mk.inj quadrant
    obtain ⟨rfl,rfl⟩ := ih smallX smallY smallX' smallY' rest
    exact ⟨rfl,rfl⟩

theorem Continuous.position_surjective (continuous : curve.Continuous first last) (n : ℕ) (s : State) {k : ℕ} (inside : k < 4 ^ n) :
    ∃ x y, x < 2 ^ n ∧ y < 2 ^ n ∧ curve.position n s x y = k := by
  induction n generalizing s k with
  | zero => exact ⟨0,0,by simp,by simp,by rw [position]; omega⟩
  | succ n ih =>
    have positive : 0 < 4 ^ n := Nat.pow_pos (by decide)
    have small : k / 4 ^ n < 4 := by
      rw [Nat.div_lt_iff_lt_mul positive,Nat.mul_comm,← pow_succ]
      exact inside
    obtain ⟨quadrant,digit⟩ := (continuous.digit_bijective s).surjective ⟨k / 4 ^ n,small⟩
    obtain ⟨x,y,insideX,insideY,rest⟩ := ih (curve.next s quadrant) (Nat.mod_lt k positive)
    refine ⟨quadrant.1.toNat * 2 ^ n + x,quadrant.2.toNat * 2 ^ n + y,?_,?_,?_⟩
    · cases quadrant.1 <;> simp [pow_succ] <;> omega
    · cases quadrant.2 <;> simp [pow_succ] <;> omega
    · rw [position_halves _ insideX insideY,digit,rest,Nat.mul_comm]
      exact Nat.div_add_mod k (4 ^ n)

private theorem corner_lt (n : ℕ) (upper : Bool) : corner n upper < 2 ^ n := by
  have positive : 0 < 2 ^ n := Nat.two_pow_pos n
  cases upper <;> simp [corner]

private theorem corner_succ (n : ℕ) (upper : Bool) : corner (n + 1) upper = upper.toNat * 2 ^ n + corner n upper := by
  have positive : 0 < 2 ^ n := Nat.two_pow_pos n
  cases upper with
  | false => simp [corner]
  | true =>
    simp only [corner,Bool.toNat_true,Nat.one_mul,pow_succ]
    omega

private theorem position_corner_succ (s : State) (place : Quadrant) :
    curve.position (n + 1) s (corner (n + 1) place.1) (corner (n + 1) place.2) =
      curve.digit s place * 4 ^ n + curve.position n (curve.next s place) (corner n place.1) (corner n place.2) := by
  rw [corner_succ,corner_succ]
  exact position_halves _ (corner_lt n _) (corner_lt n _)

private theorem Continuous.position_first (continuous : curve.Continuous first last) (n : ℕ) (s : State) :
    curve.position n s (corner n (first s).1) (corner n (first s).2) = 0 := by
  induction n generalizing s with
  | zero => rfl
  | succ n ih =>
    have rest := ih (curve.next s (first s))
    rw [continuous.first_next] at rest
    rw [position_corner_succ,continuous.digit_first,rest]
    simp

private theorem Continuous.position_last (continuous : curve.Continuous first last) (n : ℕ) (s : State) :
    curve.position n s (corner n (last s).1) (corner n (last s).2) + 1 = 4 ^ n := by
  induction n generalizing s with
  | zero => rfl
  | succ n ih =>
    have rest := ih (curve.next s (last s))
    rw [continuous.last_next] at rest
    rw [position_corner_succ,continuous.digit_last,Nat.add_assoc,rest,pow_succ]
    change 3 * 4 ^ n + 4 ^ n = 4 ^ n * 4
    omega

private theorem Continuous.first_unique (continuous : curve.Continuous first last) (insideX : x < 2 ^ n) (insideY : y < 2 ^ n)
    (begins : curve.position n s x y = 0) : x = corner n (first s).1 ∧ y = corner n (first s).2 :=
  continuous.position_injective insideX insideY (corner_lt n _) (corner_lt n _) (begins.trans (continuous.position_first n s).symm)

private theorem Continuous.last_unique (continuous : curve.Continuous first last) (insideX : x < 2 ^ n) (insideY : y < 2 ^ n)
    (ends : curve.position n s x y + 1 = 4 ^ n) : x = corner n (last s).1 ∧ y = corner n (last s).2 :=
  continuous.position_injective insideX insideY (corner_lt n _) (corner_lt n _)
    (Nat.succ.inj (ends.trans (continuous.position_last n s).symm))

private theorem Beside.add (beside : Beside x y x' y') (a b : ℕ) : Beside (a + x) (b + y) (a + x') (b + y') := by
  rcases beside with ⟨rfl,up | down⟩ | ⟨rfl,right | left⟩
  · exact .inl ⟨rfl,.inl (by omega)⟩
  · exact .inl ⟨rfl,.inr (by omega)⟩
  · exact .inr ⟨rfl,.inl (by omega)⟩
  · exact .inr ⟨rfl,.inr (by omega)⟩

private theorem cross {upper upper' : Bool} (different : upper ≠ upper') :
    upper.toNat * 2 ^ n + corner n upper' + 1 = upper'.toNat * 2 ^ n + corner n upper ∨
      upper'.toNat * 2 ^ n + corner n upper + 1 = upper.toNat * 2 ^ n + corner n upper' := by
  have positive : 0 < 2 ^ n := Nat.two_pow_pos n
  cases upper with
  | false =>
    obtain rfl : upper' = true := by simpa using different.symm
    left
    simp only [corner,Bool.toNat_true,Bool.toNat_false]
    omega
  | true =>
    obtain rfl : upper' = false := by simpa using different.symm
    right
    simp only [corner,Bool.toNat_true,Bool.toNat_false]
    omega

private theorem Meet.beside {quadrant place quadrant' place' : Quadrant} (meet : Meet quadrant place quadrant' place') :
    Beside (quadrant.1.toNat * 2 ^ n + corner n place.1) (quadrant.2.toNat * 2 ^ n + corner n place.2)
      (quadrant'.1.toNat * 2 ^ n + corner n place'.1) (quadrant'.2.toNat * 2 ^ n + corner n place'.2) := by
  rcases meet with ⟨column,same,different,leaves,enters⟩ | ⟨row,same,different,leaves,enters⟩
  · rw [column,same,leaves,enters]
    exact .inl ⟨rfl,cross different⟩
  · rw [row,same,leaves,enters]
    exact .inr ⟨rfl,cross different⟩

theorem Continuous.beside (continuous : curve.Continuous first last) (insideX : x < 2 ^ n) (insideY : y < 2 ^ n)
    (insideX' : x' < 2 ^ n) (insideY' : y' < 2 ^ n) (next : curve.position n s x y + 1 = curve.position n s x' y') : Beside x y x' y' := by
  induction n generalizing s x y x' y' with
  | zero => simp [position] at next
  | succ n ih =>
    obtain ⟨upperX,restX,smallX,rfl⟩ := halves insideX
    obtain ⟨upperY,restY,smallY,rfl⟩ := halves insideY
    obtain ⟨upperX',restX',smallX',rfl⟩ := halves insideX'
    obtain ⟨upperY',restY',smallY',rfl⟩ := halves insideY'
    rw [position_halves (upperX,upperY) smallX smallY,position_halves (upperX',upperY') smallX' smallY'] at next
    have below := position_lt curve n (curve.next s (upperX,upperY)) restX restY
    have below' := position_lt curve n (curve.next s (upperX',upperY')) restX' restY'
    by_cases within : curve.position n (curve.next s (upperX,upperY)) restX restY + 1 < 4 ^ n
    · -- the step stays in the quadrant
      obtain ⟨digit,rest⟩ := digits_unique within below' ((Nat.add_assoc ..).symm.trans next)
      have quadrant : (upperX,upperY) = (upperX',upperY') := (continuous.digit_bijective s).injective (Fin.ext digit)
      obtain ⟨rfl,rfl⟩ := Prod.mk.inj quadrant
      exact (ih smallX smallY smallX' smallY' rest).add _ _
    · -- the step leads from the last cell of a quadrant to the first one of another
      have ends : curve.position n (curve.next s (upperX,upperY)) restX restY + 1 = 4 ^ n := by omega
      have positive : 0 < 4 ^ n := Nat.pow_pos (by decide)
      obtain ⟨digit,begins⟩ := digits_unique (d := (curve.digit s (upperX,upperY) : ℕ) + 1) positive below'
        (by rw [← next,Nat.add_mul]; omega)
      obtain ⟨rfl,rfl⟩ := continuous.last_unique smallX smallY ends
      obtain ⟨rfl,rfl⟩ := continuous.first_unique smallX' smallY' begins.symm
      exact (continuous.meet s _ _ digit).beside

end Curve
end Osrm.SpaceFillingCurves
