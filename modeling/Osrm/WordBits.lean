import Mathlib.Tactic

/-!
A list of machine words read as one row of bits, the least bit of each word first.
-/
namespace Osrm.WordBits
open List

variable {w : ℕ}

def bit (words : List (BitVec w)) (k : ℕ) : Bool := (words.getD (k / w) 0).getLsbD (k % w)

variable {words : List (BitVec w)} {word : BitVec w} {i b k : ℕ}

theorem bit_at (inside : b < w) : bit words (i * w + b) = (words.getD i 0).getLsbD b := by
  rw [bit,Nat.mul_comm i w,Nat.mul_add_div (Nat.zero_lt_of_lt inside),Nat.mul_add_mod,Nat.div_eq_of_lt inside,
    Nat.mod_eq_of_lt inside,Nat.add_zero]

theorem bit_cons (positive : 0 < w) (word : BitVec w) (words : List (BitVec w)) (k : ℕ) :
    bit (word :: words) k = if k < w then word.getLsbD k else bit words (k - w) := by
  by_cases first : k < w
  · simp [bit,first,Nat.div_eq_of_lt first,Nat.mod_eq_of_lt first]
  · obtain ⟨j,rfl⟩ := Nat.exists_eq_add_of_le (Nat.not_lt.mp first)
    simp [bit,positive]

theorem bit_set (inside : i < words.length) (k : ℕ) :
    bit (words.set i word) k = if k / w = i then word.getLsbD (k % w) else bit words k := by
  rw [bit,getD_eq_getElem?_getD,getElem?_set]
  by_cases here : k / w = i
  · rw [if_pos here.symm,if_pos inside,if_pos here]
    rfl
  · rw [if_neg (Ne.symm here),if_neg here,bit,getD_eq_getElem?_getD]

/-- `std::vector::resize`: the words that fit, and zeros behind them. -/
def resize (words : List (BitVec w)) (length : ℕ) : List (BitVec w) :=
  words.take length ++ replicate (length - words.length) 0

theorem length_resize (words : List (BitVec w)) (length : ℕ) : (resize words length).length = length := by
  rw [resize,length_append,length_take,length_replicate]
  omega

theorem bit_resize {length : ℕ} (inside : k / w < length) : bit (resize words length) k = bit words k := by
  rw [bit,bit,resize,getD_eq_getElem?_getD,getD_eq_getElem?_getD]
  by_cases old : k / w < words.length
  · rw [getElem?_append_left (by rw [length_take]; omega),getElem?_take_of_lt inside]
  · rw [getElem?_append_right (by rw [length_take]; omega),getElem?_replicate,
      getElem?_eq_none (Nat.not_lt.mp old)]
    split <;> rfl

private theorem bit_beyond (beyond : words.length ≤ k / w) : bit words k = false := by
  rw [bit,getD_eq_getElem?_getD,getElem?_eq_none beyond]
  exact BitVec.getLsbD_zero

theorem bit_resize_of_le {length : ℕ} (grows : words.length ≤ length) (k : ℕ) : bit (resize words length) k = bit words k := by
  by_cases inside : k / w < length
  · exact bit_resize inside
  · have beyond : length ≤ k / w := Nat.not_lt.mp inside
    rw [bit_beyond (by rw [length_resize]; exact beyond),bit_beyond (grows.trans beyond)]

end Osrm.WordBits
