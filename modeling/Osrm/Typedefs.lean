import Mathlib.Tactic

/-!
The scalar types of `util/typedefs.hpp`. Ids are natural numbers, weights and
durations are integers without the bounds of their machine types, and distances,
which the source keeps as floating-point numbers, are read as exact integers.
-/
namespace Osrm.Typedefs

abbrev NodeID := ℕ
abbrev EdgeID := ℕ
abbrev EdgeWeight := ℤ
abbrev EdgeDuration := ℤ
abbrev EdgeDistance := ℤ
def INVALID_EDGE_WEIGHT : EdgeWeight := 2147483647

def INVALID_EDGE_DURATION : EdgeDuration := 2147483647
def MAXIMAL_EDGE_DURATION : EdgeDuration := 2147483647
def MAXIMAL_EDGE_DISTANCE : EdgeDistance := (2 ^ 24 - 1) * 2 ^ 104
def INVALID_EDGE_DISTANCE : EdgeDistance := MAXIMAL_EDGE_DISTANCE
def SPECIAL_NODEID : NodeID := 4294967295

/-- The values of a signed 32-bit number. -/
def Fits32 (x : ℤ) : Prop := -2 ^ 31 ≤ x ∧ x < 2 ^ 31
instance (x : ℤ) : Decidable (Fits32 x) := inferInstanceAs (Decidable (_ ∧ _))

/-- A signed sum, which is undefined where it does not fit. -/
def add32 (x y : ℤ) : Option ℤ := if Fits32 (x + y) then some (x + y) else none
/-- What the machine keeps of a sum; the language leaves a signed sum that does not fit undefined. -/
def wrap32 (x : ℤ) : ℤ := x.bmod (2 ^ 32)

theorem wrap32_of_fits {x : ℤ} (fits : Fits32 x) : wrap32 x = x :=
  Int.bmod_eq_of_le (by have := fits.1; lia) (by have := fits.2; lia)
theorem zero_lt_invalid : 0 < INVALID_EDGE_WEIGHT := by decide

/-- `FORWARD_DIRECTION` and `REVERSE_DIRECTION`. -/
inductive Direction
  | FORWARD
  | REVERSE
  deriving DecidableEq, Repr

/-- The other direction. -/
def Direction.opposite : Direction → Direction
  | .FORWARD => .REVERSE
  | .REVERSE => .FORWARD

end Osrm.Typedefs
