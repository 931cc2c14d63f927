import Mathlib.Tactic

/-!
Several small numbers in one: fields of `k` bits, and the step that adds every field to its neighbour, after
which half as many fields of twice the width hold the same sum.
-/
namespace Osrm.Swar

/-- The sum of the `n` lowest fields of `k` bits. -/
def fieldSum (k : ℕ) : ℕ → ℕ → ℕ
  | 0, _ => 0
  | n + 1, x => x % 2 ^ k + fieldSum k n (x / 2 ^ k)
/-- Ones in every other field of `k` bits, `n` of them. -/
def mask (k : ℕ) : ℕ → ℕ
  | 0 => 0
  | n + 1 => 2 ^ k - 1 + 2 ^ (2 * k) * mask k n
def addNeighbours (k n x : ℕ) : ℕ := (x >>> k &&& mask k n) + (x &&& mask k n)

variable {k n : ℕ}

private theorem and_split (a b s : ℕ) : a &&& b = (a % 2 ^ s &&& b % 2 ^ s) + 2 ^ s * (a / 2 ^ s &&& b / 2 ^ s) := by
  rw [← Nat.and_mod_two_pow,← Nat.and_div_two_pow,Nat.mod_add_div]
private theorem two_pow_double (k : ℕ) : 2 ^ (2 * k) = 2 ^ k * 2 ^ k := by rw [two_mul,pow_add]

private theorem and_mask_succ (k n x : ℕ) : x &&& mask k (n + 1) = x % 2 ^ k + 2 ^ (2 * k) * (x / 2 ^ (2 * k) &&& mask k n) := by
  have positive : 0 < 2 ^ k := Nat.two_pow_pos k
  have le : 2 ^ k ≤ 2 ^ (2 * k) := Nat.pow_le_pow_right (by decide) (by omega)
  have low : mask k (n + 1) % 2 ^ (2 * k) = 2 ^ k - 1 := by
    rw [mask,Nat.add_mul_mod_self_left,Nat.mod_eq_of_lt (by omega)]
  have high : mask k (n + 1) / 2 ^ (2 * k) = mask k n := by
    rw [mask,Nat.add_mul_div_left _ _ (by omega),Nat.div_eq_of_lt (by omega),Nat.zero_add]
  rw [and_split x _ (2 * k),low,high,Nat.and_two_pow_sub_one_eq_mod,
    Nat.mod_mod_of_dvd _ (Nat.pow_dvd_pow 2 (by omega))]

private theorem addNeighbours_succ (k n x : ℕ) :
    addNeighbours k (n + 1) x = x / 2 ^ k % 2 ^ k + x % 2 ^ k + 2 ^ (2 * k) * addNeighbours k n (x / 2 ^ (2 * k)) := by
  have shifted : x / 2 ^ k / 2 ^ (2 * k) = x / 2 ^ (2 * k) / 2 ^ k := by
    rw [Nat.div_div_eq_div_mul,Nat.div_div_eq_div_mul,Nat.mul_comm]
  rw [addNeighbours,and_mask_succ,and_mask_succ,addNeighbours,Nat.shiftRight_eq_div_pow,Nat.shiftRight_eq_div_pow,shifted]
  ring

private theorem pair_lt (positive : 0 < k) (x : ℕ) : x / 2 ^ k % 2 ^ k + x % 2 ^ k < 2 ^ (2 * k) := by
  have two : 2 ≤ 2 ^ k := Nat.le_self_pow positive.ne' 2
  have first : x / 2 ^ k % 2 ^ k < 2 ^ k := Nat.mod_lt _ (by omega)
  have second : x % 2 ^ k < 2 ^ k := Nat.mod_lt _ (by omega)
  calc x / 2 ^ k % 2 ^ k + x % 2 ^ k < 2 * 2 ^ k := by omega
    _ ≤ 2 ^ k * 2 ^ k := Nat.mul_le_mul_right _ two
    _ = 2 ^ (2 * k) := (two_pow_double k).symm

theorem addNeighbours_lt (positive : 0 < k) (n x : ℕ) : addNeighbours k n x < 2 ^ (2 * k * n) := by
  induction n generalizing x with
  | zero => simp [addNeighbours,mask]
  | succ n ih =>
    have pair := pair_lt positive x
    have rest := ih (x / 2 ^ (2 * k))
    rw [addNeighbours_succ,Nat.mul_succ,pow_add,Nat.mul_comm (2 ^ (2 * k * n))]
    calc x / 2 ^ k % 2 ^ k + x % 2 ^ k + 2 ^ (2 * k) * addNeighbours k n (x / 2 ^ (2 * k))
        < 2 ^ (2 * k) * (addNeighbours k n (x / 2 ^ (2 * k)) + 1) := by rw [Nat.mul_succ]; omega
      _ ≤ 2 ^ (2 * k) * 2 ^ (2 * k * n) := Nat.mul_le_mul_left _ rest

theorem fieldSum_addNeighbours (positive : 0 < k) (n x : ℕ) :
    fieldSum (2 * k) n (addNeighbours k n x) = fieldSum k (2 * n) x := by
  induction n generalizing x with
  | zero => rfl
  | succ n ih =>
    have pair := pair_lt positive x
    have two : 2 * (n + 1) = 2 * n + 1 + 1 := by ring
    rw [fieldSum,addNeighbours_succ,Nat.add_mul_mod_self_left,Nat.mod_eq_of_lt pair,
      Nat.add_mul_div_left _ _ (Nat.two_pow_pos _),Nat.div_eq_of_lt pair,Nat.zero_add,ih,two,fieldSum,fieldSum,
      Nat.div_div_eq_div_mul,← two_pow_double]
    omega

theorem fieldSum_one {x : ℕ} (small : x < 2 ^ k) : fieldSum k 1 x = x := by
  rw [fieldSum,fieldSum,Nat.mod_eq_of_lt small,Nat.add_zero]

theorem fieldSum_ofDigits {digits : List ℕ} (small : ∀ digit ∈ digits, digit < 2 ^ k) (enough : digits.length ≤ n) :
    fieldSum k n (Nat.ofDigits (2 ^ k) digits) = digits.sum := by
  induction digits generalizing n with
  | nil =>
    clear enough
    induction n with
    | zero => rfl
    | succ n ih =>
      rw [Nat.ofDigits_nil,List.sum_nil] at ih ⊢
      rw [fieldSum,Nat.zero_mod,Nat.zero_div,ih,Nat.add_zero]
  | cons digit rest ih =>
    obtain ⟨m,rfl⟩ : ∃ m, n = m + 1 := ⟨n - 1,by rw [List.length_cons] at enough; omega⟩
    have first := small digit (by simp)
    rw [fieldSum,Nat.ofDigits_cons,Nat.add_mul_mod_self_left,Nat.mod_eq_of_lt first,
      Nat.add_mul_div_left _ _ (Nat.two_pow_pos k),Nat.div_eq_of_lt first,Nat.zero_add,List.sum_cons,
      ih (fun d member => small d (by simp [member])) (by simpa using enough)]

end Osrm.Swar
