import Mathlib.Order.Monotone.Basic
import Osrm.Loops
import Osrm.Slices

/-!
Vectors that only grow at their end, in memory that is left for a larger buffer when it is full, and loops over a
range of such a vector that push into it. Once the elements have moved, reading through the range is undefined.
-/
namespace Osrm.GrowingVectors
open List Option
open Slices Loops

/-- How many places a full vector gets; always more than it had. -/
structure Growth where
  room : ℕ → ℕ
  more : ∀ size, size < room size

/-- Twice as many places. -/
def doubling : Growth := ⟨fun size => max 1 (2 * size),fun size => by omega⟩

namespace Growth
variable (growth : Growth)

/-- The capacity of a vector that was empty, after `size` calls of `push_back`. -/
def capacity : ℕ → ℕ
  | 0 => 0
  | size + 1 => if capacity size = size then growth.room size else capacity size
/-- From the one size to the other the elements stay where they are: each move makes the capacity larger. -/
def Stays (size later : ℕ) : Prop := growth.capacity size = growth.capacity later

instance (size later : ℕ) : Decidable (growth.Stays size later) := inferInstanceAs (Decidable (_ = _))

private theorem capacity_mono : Monotone growth.capacity := by
  refine monotone_nat_of_le_succ fun size => ?_
  rw [capacity]
  split
  case isTrue full => exact full.le.trans (growth.more size).le
  case isFalse => exact le_rfl

private theorem Stays.sooner {growth : Growth} {size middle later : ℕ} (stays : growth.Stays size later) (low : size ≤ middle)
    (high : middle ≤ later) : growth.Stays size middle :=
  (growth.capacity_mono low).antisymm ((growth.capacity_mono high).trans_eq (Eq.symm stays))

/-- An element is read through an iterator that was taken when the vector had this size. -/
def read {Item : Type} (size : ℕ) (vector : List Item) (i : ℕ) : Option Item :=
  if growth.Stays size vector.length then vector[i]? else none

/-- A range-based `for` over `count` elements from `i` on of a vector that the body changes. -/
def forRange {State Item : Type} (contents : State → List Item) (body : State → Item → Option State) (size : ℕ) :
    ℕ → ℕ → State → Option State
  | _, 0, s => some s
  | i, count + 1, s => do
    let item ← growth.read size (contents s) i
    let s ← body s item
    forRange contents body size (i + 1) count s

/-- `std::copy` of a range of a vector to its own end, by a `std::back_inserter`. -/
def copyBack {Item : Type} (vector : List Item) (first count : ℕ) : Option (List Item) :=
  growth.forRange (fun vector => vector) (fun vector item => some (vector ++ [item])) vector.length first count vector

end Growth

/-! ### Ranges -/

section Ranges
variable {State Item : Type} {growth : Growth} {contents : State → List Item} {step : State → Item → State}
  {holds : State → Item → Prop} {body : State → Item → Option State} {vector : List Item} {s : State} {size first count : ℕ}

private theorem slice_succ (inside : first < vector.length) :
    slice vector first (first + (count + 1)) = vector[first] :: slice vector (first + 1) (first + 1 + count) := by
  rw [← slice_append (Nat.le_add_right first 1) (by omega : first + 1 ≤ first + (count + 1)),
    show first + (count + 1) = first + 1 + count by omega,slice,Nat.add_sub_cancel_left,drop_eq_getElem_cons inside,take_succ_cons,
    take_zero]
  rfl

private theorem read_ends (inside : first < vector.length) (grown : vector <+: contents s) :
    Ends (growth.read size (contents s) first) (growth.Stays size (contents s).length) vector[first] := by
  intro other
  obtain ⟨rest,whole⟩ := grown
  rw [Growth.read,← whole,getElem?_append_left inside,getElem?_eq_getElem inside]
  split
  case isTrue stays =>
    rw [some.injEq,and_iff_right stays]
    exact eq_comm
  case isFalse moved => exact iff_of_false (by simp) fun both => moved both.1

/-- The loop reads the elements that the range had at first, as long as the vector has not moved when it reads. -/
theorem forRange_ends (good : State → Prop) (ends : ∀ s, good s → ∀ item, Ends (body s item) (holds s item) (step s item))
    (kept : ∀ s, good s → ∀ item, good (step s item)) (grows : ∀ s, good s → ∀ item, contents s <+: contents (step s item))
    (start : good s) (grown : vector <+: contents s) (inside : first + count ≤ vector.length) :
    Ends (growth.forRange contents body size first count s)
      (Fitting step (fun s item => growth.Stays size (contents s).length ∧ holds s item) s (slice vector first (first + count)))
      ((slice vector first (first + count)).foldl step s) := by
  induction count generalizing first s with
  | zero =>
    rw [slice,Nat.add_zero,Nat.sub_self,take_zero]
    exact .pure s
  | succ count ih =>
    have below : first < vector.length := by omega
    rw [slice_succ below]
    have rest := ih (kept s start vector[first]) (grown.trans (grows s start _)) (by omega : first + 1 + count ≤ _)
    exact ((read_ends below grown).bind ((ends s start _).bind rest)).congr and_assoc.symm

private theorem fitting_push (vector items : List Item) :
    Fitting (fun vector item => vector ++ [item]) (fun vector _ => growth.Stays size vector.length ∧ True) vector items ↔
      ∀ i < items.length, growth.Stays size (vector.length + i) := by
  induction items generalizing vector with
  | nil => simp [Fitting]
  | cons item rest ih =>
    have shift (i : ℕ) : vector.length + (i + 1) = (vector ++ [item]).length + i := by simp; omega
    rw [Fitting,ih,length_cons]
    constructor
    · rintro ⟨now,later⟩ i below
      cases i with
      | zero => exact now.1
      | succ i => exact shift i ▸ later i (by omega)
    · exact fun all => ⟨⟨all 0 (by omega),trivial⟩,fun i below => shift i ▸ all (i + 1) (by omega)⟩

/-- A copy reads its last element before the last push. -/
theorem copyBack_ends (inside : first + count ≤ vector.length) :
    Ends (growth.copyBack vector first count) (growth.Stays vector.length (vector.length + (count - 1)))
      (vector ++ slice vector first (first + count)) := by
  have copied := @forRange_ends _ _ growth (fun vector => vector) _ _ _ _ _ vector.length _ _ (fun _ => True)
    (fun (v : List Item) _ item => Ends.pure (v ++ [item])) (fun _ _ _ => trivial) (fun _ _ _ => prefix_append _ _) trivial
    (prefix_refl vector) inside
  rw [foldl_append_eq_append,← flatMap_def,flatMap_singleton'] at copied
  refine copied.congr ?_
  rw [fitting_push,length_slice inside,Nat.add_sub_cancel_left]
  constructor
  · intro all
    cases count with
    | zero => rfl
    | succ count => exact all count (by omega)
  · exact fun stays i below => stays.sooner (by omega) (by omega)

end Ranges

end Osrm.GrowingVectors
