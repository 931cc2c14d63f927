import Mathlib.Data.List.Lex
import Mathlib.Data.Finset.Card
import Mathlib.Data.List.Permutation
import Mathlib.Tactic.Common

/-!
`std::next_permutation`, which brings a list into the lexicographically next order of its elements. A search that starts with
the elements in ascending order so comes to all of their orders.
-/
namespace Osrm.NextPermutation
open List Option
variable {α : Type} [LinearOrder α] {a b : α} {l m rest swapped next : List α}

/-- The last element that is greater than the given one, and the list with the given one in its place. -/
def swapLast (a : α) : List α → Option (α × List α)
  | [] => none
  | b :: rest =>
    match swapLast a rest with
    | some (c,swapped) => some (c,b :: swapped)
    | none => if a < b then some (b,a :: rest) else none

/-- The next order. Behind the last element that is less than the one after it the rest is descending. -/
def next_permutation : List α → Option (List α)
  | [] => none
  | a :: rest =>
    match next_permutation rest with
    | some next => some (a :: next)
    | none => (swapLast a rest).map fun (b,swapped) => b :: swapped.reverse

private theorem swapLast_none : swapLast a l = none ↔ ∀ b ∈ l, b ≤ a := by
  induction l with
  | nil => simp [swapLast]
  | cons b rest ih =>
    rw [swapLast,forall_mem_cons,← ih]
    cases swapLast a rest with
    | some pair => simp
    | none => simp

private theorem swapLast_some (found : swapLast a l = some (b,swapped)) :
    ∃ front back, l = front ++ b :: back ∧ swapped = front ++ a :: back ∧ a < b ∧ ∀ c ∈ back, c ≤ a := by
  induction l generalizing swapped with
  | nil => simp [swapLast] at found
  | cons c rest ih =>
    rw [swapLast] at found
    cases later : swapLast a rest with
    | some pair =>
      obtain ⟨d,replaced⟩ := pair
      rw [later] at found
      simp only [some.injEq,Prod.mk.injEq] at found
      obtain ⟨rfl,rfl⟩ := found
      obtain ⟨front,back,rfl,rfl,less,few⟩ := ih later
      exact ⟨c :: front,back,rfl,rfl,less,few⟩
    | none =>
      rw [later] at found
      simp only [ite_none_right_eq_some,some.injEq,Prod.mk.injEq] at found
      obtain ⟨less,rfl,rfl⟩ := found
      exact ⟨[],rest,rfl,rfl,less,swapLast_none.mp later⟩

private theorem next_permutation_none : next_permutation l = none ↔ l.Pairwise (· ≥ ·) := by
  induction l with
  | nil => simp [next_permutation]
  | cons a rest ih =>
    rw [next_permutation,pairwise_cons,← ih]
    cases next_permutation rest with
    | some next => simp
    | none => simp [swapLast_none]

private theorem le_of_descending (descending : l.Pairwise (· ≥ ·)) (perm : m.Perm l) : m ≤ l := by
  induction l generalizing m with
  | nil => rw [perm.eq_nil]
  | cons a rest ih =>
    cases m with
    | nil => exact absurd perm.symm.eq_nil (cons_ne_nil _ _)
    | cons b m =>
      obtain ⟨greatest,rest_descending⟩ := pairwise_cons.mp descending
      refine not_lt.mp fun less => ?_
      have le : b ≤ a := by
        cases mem_cons.mp (perm.subset mem_cons_self) with
        | inl same => exact same.le
        | inr member => exact greatest b member
      rcases cons_lt_cons_iff.mp less with more | ⟨rfl,more⟩
      · exact absurd more (not_lt.mpr le)
      · exact absurd more (not_lt.mpr (ih rest_descending perm.cons_inv))

private theorem le_of_ascending (ascending : l.Pairwise (· ≤ ·)) (perm : m.Perm l) : l ≤ m := by
  induction l generalizing m with
  | nil => rw [perm.eq_nil]
  | cons a rest ih =>
    cases m with
    | nil => exact absurd perm.symm.eq_nil (cons_ne_nil _ _)
    | cons b m =>
      obtain ⟨least,rest_ascending⟩ := pairwise_cons.mp ascending
      refine not_lt.mp fun less => ?_
      have le : a ≤ b := by
        cases mem_cons.mp (perm.subset mem_cons_self) with
        | inl same => exact same.ge
        | inr member => exact least b member
      rcases cons_lt_cons_iff.mp less with more | ⟨rfl,more⟩
      · exact absurd more (not_lt.mpr le)
      · exact absurd more (not_lt.mpr (ih rest_ascending perm.cons_inv))

private theorem swapped_perm {α : Type} {a b : α} {front back : List α} : (b :: (front ++ a :: back).reverse).Perm (a :: (front ++ b :: back)) :=
  calc (b :: (front ++ a :: back).reverse).Perm (b :: (front ++ a :: back)) := (reverse_perm _).cons b
    _ |>.Perm (b :: a :: (front ++ back)) := perm_middle.cons b
    _ |>.Perm (a :: b :: (front ++ back)) := List.Perm.swap a b _
    _ |>.Perm (a :: (front ++ b :: back)) := perm_middle.symm.cons a

private theorem swapped_ascending {front back : List α} (descending : (front ++ b :: back).Pairwise (· ≥ ·)) (less : a < b)
    (few : ∀ c ∈ back, c ≤ a) : (front ++ a :: back).reverse.Pairwise (· ≤ ·) := by
  obtain ⟨front_descending,back_descending,above⟩ := pairwise_append.mp descending
  refine pairwise_reverse.mpr (pairwise_append.mpr ⟨front_descending,pairwise_cons.mpr ⟨few,back_descending.of_cons⟩,?_⟩)
  intro c inside d member
  cases mem_cons.mp member with
  | inl here => exact here ▸ less.le.trans (above c inside b mem_cons_self)
  | inr behind => exact above c inside d (mem_cons_of_mem _ behind)

private theorem next_permutation_some (found : next_permutation l = some next) :
    next.Perm l ∧ l < next ∧ ∀ m, m.Perm l → l < m → next ≤ m := by
  induction l generalizing next with
  | nil => simp [next_permutation] at found
  | cons a rest ih =>
    rw [next_permutation] at found
    cases later : next_permutation rest with
    | some rest' =>
      rw [later,some.injEq] at found
      subst found
      obtain ⟨perm,less,least⟩ := ih later
      refine ⟨perm.cons a,cons_lt_cons_iff.mpr (.inr ⟨rfl,less⟩),fun m other more => ?_⟩
      cases m with
      | nil => exact absurd other.symm.eq_nil (cons_ne_nil _ _)
      | cons c m =>
        rcases cons_lt_cons_iff.mp more with greater | ⟨rfl,greater⟩
        · exact (cons_lt_cons_iff.mpr (.inl greater)).le
        · exact cons_le_cons _ (least m other.cons_inv greater)
    | none =>
      rw [later,map_eq_some_iff] at found
      obtain ⟨⟨b,swapped⟩,exchanged,rfl⟩ := found
      have descending := next_permutation_none.mp later
      obtain ⟨front,back,rfl,rfl,less,few⟩ := swapLast_some exchanged
      refine ⟨swapped_perm,cons_lt_cons_iff.mpr (.inl less),fun m other more => ?_⟩
      cases m with
      | nil => exact absurd other.symm.eq_nil (cons_ne_nil _ _)
      | cons c m =>
        have greater : a < c := by
          rcases cons_lt_cons_iff.mp more with first | ⟨rfl,behind⟩
          · exact first
          · exact absurd behind (not_lt.mpr (le_of_descending descending other.cons_inv))
        have atLeast : b ≤ c := by
          have member := other.subset mem_cons_self
          rw [mem_cons,mem_append,mem_cons] at member
          rcases member with same | inside | same | behind
          · exact absurd same greater.ne'
          · exact (pairwise_append.mp descending).2.2 c inside b mem_cons_self
          · exact same.ge
          · exact absurd (few c behind) (not_le.mpr greater)
        rcases atLeast.lt_or_eq with above | rfl
        · exact (cons_lt_cons_iff.mpr (.inl above)).le
        · refine cons_le_cons _ (le_of_ascending (swapped_ascending descending less few) ?_)
          exact (other.trans swapped_perm.symm).cons_inv

/-- The orders from the given one to the last one. -/
def ordersFrom (l : List α) : List (List α) :=
  match _found : next_permutation l with
  | some next => l :: ordersFrom next
  | none => [l]
termination_by (l.permutations.toFinset.filter (l < ·)).card
decreasing_by
  obtain ⟨perm,less,_⟩ := next_permutation_some _found
  refine Finset.card_lt_card (Finset.ssubset_iff_of_subset ?_ |>.mpr ⟨next,?_,?_⟩)
  · intro m
    simp only [Finset.mem_filter,List.mem_toFinset,List.mem_permutations]
    exact fun ⟨other,more⟩ => ⟨other.trans perm,less.trans more⟩
  · simp [less,perm]
  · simp

private theorem mem_ordersFrom : m ∈ ordersFrom l ↔ m.Perm l ∧ l ≤ m := by
  fun_induction ordersFrom l with
  | case1 l next found ih =>
    obtain ⟨perm,less,least⟩ := next_permutation_some found
    rw [mem_cons,ih]
    constructor
    · rintro (rfl | ⟨other,le⟩)
      · exact ⟨Perm.refl _,le_rfl⟩
      · exact ⟨other.trans perm,less.le.trans le⟩
    · rintro ⟨other,le⟩
      rcases le.eq_or_lt with same | more
      · exact .inl same.symm
      · exact .inr ⟨other.trans perm.symm,least m other more⟩
  | case2 l found =>
    rw [mem_singleton]
    constructor
    · rintro rfl
      exact ⟨Perm.refl _,le_rfl⟩
    · rintro ⟨other,le⟩
      exact (le_of_descending (next_permutation_none.mp found) other).antisymm le

theorem mem_ordersFrom_ascending (ascending : l.Pairwise (· ≤ ·)) : m ∈ ordersFrom l ↔ m.Perm l := by
  rw [mem_ordersFrom]
  exact and_iff_left_of_imp (le_of_ascending ascending)

end Osrm.NextPermutation
