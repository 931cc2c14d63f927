import Osrm.Hint
import Osrm.SpaceFillingCurves

/-!
`util/hilbert_value.hpp`. The code of a pair of numbers is computed from their bits, the highest ones first: two bits
and a state give two bits of the code and the next state. The automaton is packed into two constants.
-/
namespace Osrm.HilbertValue
open SpaceFillingCurves Rectangle Hint

def tableRow (state xi yi : ℕ) : ℕ := 4 * state ||| 2 * xi ||| yi
def appended (row : ℕ) : ℕ := (0x361E9CB4 >>> (2 * row)) &&& 3
def entered (row : ℕ) : ℕ := (0x8FE65831 >>> (2 * row)) &&& 3

structure Walk (w r : ℕ) where
  x : BitVec w
  y : BitVec w
  result : BitVec r
  state : ℕ
  deriving DecidableEq

section Loop
variable {w r : ℕ}

/-- The body of the loop. -/
def Walk.step (walk : Walk w r) : Walk w r :=
  let xi := ((walk.x >>> (w - 1)) &&& 1).toNat
  let yi := ((walk.y >>> (w - 1)) &&& 1).toNat
  let row := tableRow walk.state xi yi
  ⟨walk.x <<< 1,walk.y <<< 1,(walk.result <<< 2) ||| BitVec.ofNat r (appended row),entered row⟩

/-- `HilbertToLinear`, for coordinates of `w` bits of which the highest `N` are used, and codes of `r` bits. -/
def HilbertToLinear (N : ℕ) (r : ℕ) (x y : BitVec w) : BitVec r :=
  (Walk.step^[N] ⟨x,y,0,0⟩).result

end Loop

def GetHilbertCode (coordinate : Coordinate) : BitVec 64 :=
  let x := BitVec.ofInt 32 (coordinate.lon + 180000000)
  let y := BitVec.ofInt 32 (coordinate.lat + 90000000)
  HilbertToLinear 32 64 x y

example : HilbertToLinear 2 64 (3 <<< 30 : BitVec 32) (2 <<< 30) = 11 := by decide

private theorem appended_lt (row : ℕ) : appended row < 4 := Nat.lt_succ_of_le Nat.and_le_right
private theorem entered_lt (row : ℕ) : entered row < 4 := Nat.lt_succ_of_le Nat.and_le_right

def hilbert : Curve (Fin 4) where
  digit s quadrant := ⟨appended (tableRow s quadrant.1.toNat quadrant.2.toNat),appended_lt _⟩
  next s quadrant := ⟨entered (tableRow s quadrant.1.toNat quadrant.2.toNat),entered_lt _⟩
def firstCorner : Fin 4 → Quadrant
  | 0 | 1 => (false,false)
  | 2 | 3 => (true,true)
def lastCorner : Fin 4 → Quadrant
  | 0 | 3 => (true,false)
  | 1 | 2 => (false,true)

private theorem hilbert_continuous : hilbert.Continuous firstCorner lastCorner where
  digit_bijective := by decide
  digit_first := by decide
  first_next := by decide
  digit_last := by decide
  last_next := by decide
  meet := by decide

section Loop
variable {w r N : ℕ}

private theorem top_bit (positive : 0 < w) (x : BitVec w) : ((x >>> (w - 1)) &&& 1).toNat = (decide (2 ^ (w - 1) ≤ x.toNat)).toNat := by
  have one : (1 : BitVec w).toNat = 1 := by simp [Nat.mod_eq_of_lt (Nat.one_lt_two_pow positive.ne')]
  have split : 2 ^ w = 2 * 2 ^ (w - 1) := by rw [← pow_succ',Nat.sub_add_cancel positive]
  have below := x.isLt
  rw [BitVec.toNat_and,BitVec.toNat_ushiftRight,one,Nat.and_one_is_mod,Nat.shiftRight_eq_div_pow]
  by_cases upper : 2 ^ (w - 1) ≤ x.toNat
  · have quotient : x.toNat / 2 ^ (w - 1) = 1 := Nat.div_eq_of_lt_le (by omega) (by omega)
    simp [upper,quotient]
  · simp [upper,Nat.div_eq_of_lt (Nat.not_le.mp upper)]

private theorem top_half (few : N < w) (x : BitVec w) : decide (2 ^ (w - 1) ≤ x.toNat) = decide (2 ^ N ≤ x.toNat / 2 ^ (w - (N + 1))) := by
  rw [decide_eq_decide,Nat.le_div_iff_mul_le (Nat.two_pow_pos _),← pow_add,show N + (w - (N + 1)) = w - 1 by omega]

private theorem rest_bits (few : N < w) (x : BitVec w) : (x <<< 1).toNat / 2 ^ (w - N) = x.toNat / 2 ^ (w - (N + 1)) % 2 ^ N := by
  have whole : 2 ^ w = 2 ^ (w - N) * 2 ^ N := by rw [← pow_add,Nat.sub_add_cancel few.le]
  have half : 2 ^ (w - N) = 2 * 2 ^ (w - (N + 1)) := by rw [← pow_succ',show w - (N + 1) + 1 = w - N by omega]
  rw [BitVec.toNat_shiftLeft,Nat.shiftLeft_eq,pow_one,whole,Nat.mod_mul_right_div_self,half,Nat.mul_comm,
    Nat.mul_div_mul_left _ _ (by decide)]

private theorem append_bits (result : BitVec r) {bits : ℕ} (small : bits < 4) :
    (result <<< 2) ||| BitVec.ofNat r bits = BitVec.ofNat r (result.toNat * 4 + bits) := by
  have shifted : result <<< 2 = BitVec.ofNat r (result.toNat <<< 2) := rfl
  rw [shifted,← BitVec.ofNat_or,← Nat.shiftLeft_add_eq_or_of_lt (by simpa using small),Nat.shiftLeft_eq]

private theorem ofNat_shifted (m k j : ℕ) : BitVec.ofNat r ((BitVec.ofNat r m).toNat * k + j) = BitVec.ofNat r (m * k + j) := by
  apply BitVec.eq_of_toNat_eq
  simp [Nat.add_mod,Nat.mul_mod]

private theorem walk_result (few : N ≤ w) (walk : Walk w r) (s : Fin 4) (state : walk.state = s) :
    (Walk.step^[N] walk).result = BitVec.ofNat r
      (walk.result.toNat * 4 ^ N + hilbert.position N s (walk.x.toNat / 2 ^ (w - N)) (walk.y.toNat / 2 ^ (w - N))) := by
  induction N generalizing walk s with
  | zero => simp [Curve.position]
  | succ N ih =>
    have positive : 0 < w := Nat.zero_lt_of_lt few
    let quadrant : Quadrant := (decide (2 ^ (w - 1) ≤ walk.x.toNat),decide (2 ^ (w - 1) ≤ walk.y.toNat))
    have stepped : walk.step = ⟨walk.x <<< 1,walk.y <<< 1,(walk.result <<< 2) ||| BitVec.ofNat r (hilbert.digit s quadrant),
        hilbert.next s quadrant⟩ := by
      simp only [Walk.step,top_bit positive,state]
      rfl
    rw [Function.iterate_succ_apply,stepped,ih (Nat.le_of_lt few) _ (hilbert.next s quadrant) rfl]
    simp only [append_bits walk.result (hilbert.digit s quadrant).isLt,ofNat_shifted,rest_bits few]
    congr 1
    rw [Curve.position,← top_half few,← top_half few]
    ring

private theorem HilbertToLinear_eq (x y : BitVec 32) : HilbertToLinear 32 64 x y = BitVec.ofNat 64 (hilbert.position 32 0 x.toNat y.toNat) := by
  rw [HilbertToLinear,walk_result le_rfl ⟨x,y,0,0⟩ 0 rfl]
  simp

private theorem HilbertToLinear_toNat (x y : BitVec 32) : (HilbertToLinear 32 64 x y).toNat = hilbert.position 32 0 x.toNat y.toNat := by
  rw [HilbertToLinear_eq,BitVec.toNat_ofNat]
  exact Nat.mod_eq_of_lt (Curve.position_lt ..)

end Loop

private theorem HilbertToLinear_injective {x y x' y' : BitVec 32} (same : HilbertToLinear 32 64 x y = HilbertToLinear 32 64 x' y') :
    x = x' ∧ y = y' := by
  have places := congrArg BitVec.toNat same
  rw [HilbertToLinear_toNat,HilbertToLinear_toNat] at places
  obtain ⟨sameX,sameY⟩ := hilbert_continuous.position_injective x.isLt y.isLt x'.isLt y'.isLt places
  exact ⟨BitVec.eq_of_toNat_eq sameX,BitVec.eq_of_toNat_eq sameY⟩

private theorem HilbertToLinear_surjective (code : BitVec 64) : ∃ x y : BitVec 32, HilbertToLinear 32 64 x y = code := by
  obtain ⟨x,y,insideX,insideY,place⟩ := hilbert_continuous.position_surjective 32 0 code.isLt
  refine ⟨BitVec.ofNat 32 x,BitVec.ofNat 32 y,BitVec.eq_of_toNat_eq ?_⟩
  rw [HilbertToLinear_toNat,BitVec.toNat_ofNat,BitVec.toNat_ofNat,Nat.mod_eq_of_lt insideX,Nat.mod_eq_of_lt insideY,place]

private theorem ofInt_injective {a b : ℤ} (lowA : 0 ≤ a) (highA : a < 2 ^ 32) (lowB : 0 ≤ b) (highB : b < 2 ^ 32)
    (same : BitVec.ofInt 32 a = BitVec.ofInt 32 b) : a = b := by
  have values := congrArg BitVec.toNat same
  rw [BitVec.toNat_ofInt,BitVec.toNat_ofInt] at values
  omega

private theorem GetHilbertCode_injective {a b : Coordinate} (validA : isValidCoordinate a = true) (validB : isValidCoordinate b = true)
    (same : GetHilbertCode a = GetHilbertCode b) : a = b := by
  simp only [isValidCoordinate,Bool.not_eq_true',Bool.or_eq_false_iff,decide_eq_false_iff_not,not_lt] at validA validB
  obtain ⟨⟨⟨northA,southA⟩,eastA⟩,westA⟩ := validA
  obtain ⟨⟨⟨northB,southB⟩,eastB⟩,westB⟩ := validB
  obtain ⟨sameX,sameY⟩ := HilbertToLinear_injective same
  have lon := ofInt_injective (by omega) (by omega) (by omega) (by omega) sameX
  have lat := ofInt_injective (by omega) (by omega) (by omega) (by omega) sameY
  obtain ⟨lonA,latA⟩ := a
  obtain ⟨lonB,latB⟩ := b
  obtain rfl : lonA = lonB := by simpa using lon
  obtain rfl : latA = latB := by simpa using lat
  rfl

/-- The codes are those of a curve through all pairs of numbers, each next to the one before; different places differ. -/
theorem hilbert_codes :
    Function.Bijective (fun point : BitVec 32 × BitVec 32 => HilbertToLinear 32 64 point.1 point.2) ∧
      (∀ x y x' y' : BitVec 32, (HilbertToLinear 32 64 x y).toNat + 1 = (HilbertToLinear 32 64 x' y').toNat →
        Curve.Beside x.toNat y.toNat x'.toNat y'.toNat) ∧
      ∀ a b : Coordinate, isValidCoordinate a = true → isValidCoordinate b = true → GetHilbertCode a = GetHilbertCode b → a = b := by
  refine ⟨⟨?_,?_⟩,?_,?_⟩
  · rintro ⟨x,y⟩ ⟨x',y'⟩ same
    obtain ⟨rfl,rfl⟩ := HilbertToLinear_injective same
    rfl
  · intro code
    obtain ⟨x,y,found⟩ := HilbertToLinear_surjective code
    exact ⟨(x,y),found⟩
  · intro x y x' y' next
    rw [HilbertToLinear_toNat,HilbertToLinear_toNat] at next
    exact hilbert_continuous.beside x.isLt y.isLt x'.isLt y'.isLt next
  · intro a b validA validB same
    exact GetHilbertCode_injective validA validB same

end Osrm.HilbertValue
