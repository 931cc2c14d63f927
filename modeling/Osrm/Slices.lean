import Mathlib.Data.List.Basic
import Mathlib.Data.List.Perm.Basic

/-!
Ranges of a list, given by the place of their first element and the one behind their last, as a pair of
iterators gives them, and lists in which such a range is replaced.
-/
namespace Osrm.Slices
open List
variable {α : Type}

/-- `[first,last)` of a list. -/
def slice (l : List α) (first last : ℕ) : List α := (l.drop first).take (last - first)
def replaceSlice (l : List α) (first last : ℕ) (new : List α) : List α := l.take first ++ new ++ l.drop last

variable {l new : List α} {first last middle i : ℕ}

theorem slice_getElem? (l : List α) (first last i : ℕ) : (slice l first last)[i]? = if i < last - first then l[first + i]? else none := by
  rw [slice,getElem?_take,getElem?_drop]

theorem length_slice (inside : last ≤ l.length) : (slice l first last).length = last - first := by
  rw [slice,length_take,length_drop]
  omega

theorem mem_slice {a : α} : a ∈ slice l first last ↔ ∃ i, first ≤ i ∧ i < last ∧ l[i]? = some a := by
  rw [mem_iff_getElem?]
  constructor
  · rintro ⟨i,found⟩
    rw [slice_getElem?] at found
    split at found
    · exact ⟨first + i,by omega,by omega,found⟩
    · simp at found
  · rintro ⟨i,low,high,found⟩
    refine ⟨i - first,?_⟩
    rw [slice_getElem?,if_pos (by omega),Nat.add_sub_cancel' low]
    exact found

theorem slice_sublist (l : List α) (first last : ℕ) : (slice l first last).Sublist l := (take_sublist ..).trans (drop_sublist ..)
theorem mem_of_slice {a : α} (member : a ∈ slice l first last) : a ∈ l := (slice_sublist l first last).subset member
theorem slice_map {β : Type} (g : α → β) (l : List α) (first last : ℕ) : slice (l.map g) first last = (slice l first last).map g := by
  rw [slice,slice,map_take,map_drop]

/-- Neighbouring slices make one. -/
theorem slice_append (low : first ≤ middle) (high : middle ≤ last) : slice l first middle ++ slice l middle last = slice l first last := by
  have parts : (l.drop first).take (last - first) =
      (l.drop first).take (middle - first) ++ ((l.drop first).drop (middle - first)).take (last - middle) := by
    rw [show last - first = (middle - first) + (last - middle) by omega,take_add]
  rw [slice,slice,slice,parts,drop_drop,Nat.add_sub_cancel' low]

theorem slice_take (low : first ≤ middle) (high : middle ≤ last) : (slice l first last).take (middle - first) = slice l first middle := by
  rw [slice,slice,take_take,Nat.min_eq_left (by omega)]
theorem slice_drop (low : first ≤ middle) : (slice l first last).drop (middle - first) = slice l middle last := by
  rw [slice,slice,drop_take,drop_drop,Nat.add_sub_cancel' low,Nat.sub_sub_sub_cancel_right low]

theorem slice_copied {x y : ℕ} (before rest : List α) (low : first ≤ x) (le : x ≤ y) (high : y ≤ last) (inside : last ≤ l.length) :
    slice (before ++ slice l first last ++ rest) (before.length + (x - first)) (before.length + (y - first)) = slice l x y := by
  have size := @length_slice _ l first last inside
  apply ext_getElem?
  intro i
  rw [slice_getElem?,slice_getElem?]
  by_cases below : i < y - x
  · rw [if_pos (by omega),if_pos below,getElem?_append_left (by rw [length_append]; omega),
      getElem?_append_right (by omega),slice_getElem?,if_pos (by omega)]
    congr 1
    omega
  · rw [if_neg (by omega),if_neg below]

theorem getD_set (inside : i < l.length) (a d : α) (j : ℕ) : (l.set i a).getD j d = if j = i then a else l.getD j d := by
  rw [getD_eq_getElem?_getD,getElem?_set]
  by_cases here : j = i
  · rw [if_pos here.symm,if_pos inside,if_pos here]
    rfl
  · rw [if_neg (Ne.symm here),if_neg here,getD_eq_getElem?_getD]

theorem replaceSlice_getElem? (inside : last ≤ l.length) (le : first ≤ last) (size : new.length = last - first) (i : ℕ) :
    (replaceSlice l first last new)[i]? = if first ≤ i ∧ i < last then new[i - first]? else l[i]? := by
  have front : (l.take first).length = first := by
    rw [length_take]
    omega
  rw [replaceSlice,append_assoc]
  rcases Nat.lt_or_ge i first with before | after
  · rw [getElem?_append_left (by omega),if_neg (by omega),getElem?_take_of_lt before]
  · rw [getElem?_append_right (by omega),front]
    rcases Nat.lt_or_ge i last with below | above
    · rw [getElem?_append_left (by omega),if_pos ⟨after,below⟩]
    · rw [getElem?_append_right (by omega),if_neg (by omega),getElem?_drop,size]
      congr 1
      omega

theorem slice_replaceSlice (inside : last ≤ l.length) (le : first ≤ last) (size : new.length = last - first) :
    slice (replaceSlice l first last new) first last = new := by
  apply ext_getElem?
  intro i
  rw [slice_getElem?,replaceSlice_getElem? inside le size]
  by_cases below : i < last - first
  · rw [if_pos below,if_pos (by omega),Nat.add_sub_cancel_left]
  · rw [if_neg below,getElem?_eq_none (by omega)]

theorem slice_replaceSlice_apart (inside : last ≤ l.length) (le : first ≤ last) (size : new.length = last - first) {first' last' : ℕ}
    (apart : last' ≤ first ∨ last ≤ first') : slice (replaceSlice l first last new) first' last' = slice l first' last' := by
  apply ext_getElem?
  intro i
  rw [slice_getElem?,slice_getElem?]
  by_cases below : i < last' - first'
  · rw [if_pos below,if_pos below,replaceSlice_getElem? inside le size,if_neg (by omega)]
  · rw [if_neg below,if_neg below]

theorem replaceSlice_slice (le : first ≤ last) : replaceSlice l first last (slice l first last) = l := by
  have rest : l.drop last = (l.drop first).drop (last - first) := by rw [drop_drop,Nat.add_sub_cancel' le]
  rw [replaceSlice,slice,rest,append_assoc,take_append_drop,take_append_drop]

/-- Permuting a slice permutes the list. -/
theorem replaceSlice_perm (le : first ≤ last) (same : new.Perm (slice l first last)) : (replaceSlice l first last new).Perm l := by
  calc replaceSlice l first last new
      = l.take first ++ new ++ l.drop last := rfl
    List.Perm _ (l.take first ++ slice l first last ++ l.drop last) := (same.append_left _).append_right _
    _ = l := replaceSlice_slice le

section Many
variable {ι : Type} (first last : ι → ℕ) (new : ι → List α → List α)

def replaceOne (l : List α) (item : ι) : List α :=
  replaceSlice l (first item) (last item) (new item (slice l (first item) (last item)))
def Apart (a b : ι) : Prop := last a ≤ first b ∨ last b ≤ first a

theorem foldl_replaceOne (size : ∀ item l, (new item l).length = l.length) (items : List ι) (l : List α)
    (inside : ∀ item ∈ items, first item ≤ last item ∧ last item ≤ l.length) (apart : items.Pairwise (Apart first last)) :
    (items.foldl (replaceOne first last new) l).length = l.length ∧
      (∀ item ∈ items, slice (items.foldl (replaceOne first last new) l) (first item) (last item) =
        new item (slice l (first item) (last item))) ∧
      ∀ i, (∀ item ∈ items, i < first item ∨ last item ≤ i) → (items.foldl (replaceOne first last new) l)[i]? = l[i]? := by
  induction items generalizing l with
  | nil => simp
  | cons item items ih =>
    obtain ⟨⟨le,room⟩,rest⟩ := forall_mem_cons.mp inside
    obtain ⟨alone,others⟩ := pairwise_cons.mp apart
    have fits : (new item (slice l (first item) (last item))).length = last item - first item := by rw [size,length_slice room]
    have length : (replaceOne first last new l item).length = l.length := by
      rw [replaceOne,replaceSlice,length_append,length_append,length_take,length_drop,fits]
      omega
    obtain ⟨kept,replaced,untouched⟩ := ih (replaceOne first last new l item) (by rwa [length]) others
    rw [foldl_cons]
    refine ⟨kept.trans length,forall_mem_cons.mpr ⟨?_,fun other member => ?_⟩,fun i outside => ?_⟩
    · rw [← slice_replaceSlice room le fits]
      apply ext_getElem?
      intro i
      rw [slice_getElem?,slice_getElem?]
      by_cases below : i < last item - first item
      · rw [if_pos below,if_pos below]
        refine untouched _ fun other member => ?_
        cases alone other member with
        | inl before => exact .inl (by omega)
        | inr after => exact .inr (by omega)
      · rw [if_neg below,if_neg below]
    · rw [replaced other member,replaceOne,slice_replaceSlice_apart room le fits]
      exact (alone other member).symm
    · obtain ⟨here,later⟩ := forall_mem_cons.mp outside
      rw [untouched i later,replaceOne,replaceSlice_getElem? room le fits,if_neg (by omega)]

end Many

/-- `std::stable_partition`. -/
def stablePartition (p : α → Bool) (l : List α) : List α := l.filter p ++ l.filter fun a => !p a

theorem stablePartition_perm (p : α → Bool) (l : List α) : (stablePartition p l).Perm l := filter_append_perm p l
@[simp] theorem length_stablePartition (p : α → Bool) (l : List α) : (stablePartition p l).length = l.length :=
  (stablePartition_perm p l).length_eq
theorem take_stablePartition (p : α → Bool) (l : List α) : (stablePartition p l).take (l.countP p) = l.filter p := by
  rw [countP_eq_length_filter,stablePartition,take_left]

theorem filter_getElem?_countP (p : α → Bool) {a : α} (found : l[i]? = some a) (holds : p a = true) :
    (l.filter p)[(l.take i).countP p]? = some a := by
  induction l generalizing i with
  | nil => simp at found
  | cons b l ih =>
    cases i with
    | zero =>
      obtain rfl : b = a := by simpa using found
      simp [holds]
    | succ i =>
      have later : (l.filter p)[(l.take i).countP p]? = some a := ih (by simpa using found)
      by_cases here : p b = true <;> simp [here,later]

theorem countP_take_eq {q : α → Bool} {r : ℕ → Bool} (room : i ≤ l.length) (agree : ∀ k < i, ∀ a, l[k]? = some a → q a = r k) :
    (l.take i).countP q = (List.range i).countP r := by
  induction i with
  | zero => rfl
  | succ i ih =>
    have before := ih (by omega) fun k below => agree k (by omega)
    have here := agree i (Nat.lt_succ_self i) _ (getElem?_eq_getElem (by omega))
    rw [take_add_one,getElem?_eq_getElem (by omega),range_succ,countP_append,countP_append,before]
    simp [countP_singleton,here]

/-- The list and the first place of a range after an element is appended; a range inside the list is copied first. -/
def appendTo (l : List α) (first size : ℕ) (a : α) : List α × ℕ :=
  if first + size ≠ l.length then (l ++ slice l first (first + size) ++ [a],l.length) else (l ++ [a],first)

section AppendTo
variable {size : ℕ} {a : α}

theorem appendTo_length (l : List α) (first size : ℕ) (a : α) : l.length ≤ (appendTo l first size a).1.length := by
  rw [appendTo]
  split
  · simp only [length_append]
    omega
  · simp

theorem appendTo_prefix (l : List α) (first size : ℕ) (a : α) : l <+: (appendTo l first size a).1 := by
  rw [appendTo]
  split
  · exact (prefix_append _ _).trans (prefix_append _ _)
  · exact prefix_append _ _

theorem appendTo_inside (inside : first + size ≤ l.length) :
    (appendTo l first size a).2 + (size + 1) ≤ (appendTo l first size a).1.length := by
  have copied := @length_slice _ l first _ inside
  rw [appendTo]
  split
  · simp only [length_append,length_singleton]
    omega
  · simp only [length_append,length_singleton]
    omega

private theorem slice_append_left (l new : List α) {first last : ℕ} (inside : last ≤ l.length) : slice (l ++ new) first last = slice l first last := by
  apply ext_getElem?
  intro i
  rw [slice_getElem?,slice_getElem?]
  split
  · rw [getElem?_append_left (by omega)]
  · rfl

theorem appendTo_own (inside : first + size ≤ l.length) :
    slice (appendTo l first size a).1 (appendTo l first size a).2 ((appendTo l first size a).2 + (size + 1)) =
      slice l first (first + size) ++ [a] := by
  have copied := @length_slice _ l first _ inside
  rw [Nat.add_sub_cancel_left] at copied
  rw [appendTo]
  split
  · rw [slice,append_assoc,drop_left]
    exact take_of_length_le (by rw [length_append,length_singleton]; omega)
  · rename_i ends
    have whole : first + size = l.length := not_not.mp ends
    rw [← slice_append (Nat.le_add_right first size) (by omega : first + size ≤ first + (size + 1)),slice_append_left l [a] inside,
      whole]
    congr 1
    rw [slice,drop_left]
    exact take_of_length_le (by simp; omega)

theorem appendTo_other {first' last' : ℕ} (inside : last' ≤ l.length) :
    slice (appendTo l first size a).1 first' last' = slice l first' last' := by
  rw [appendTo]
  split
  · rw [append_assoc]
    exact slice_append_left l _ inside
  · exact slice_append_left l _ inside

end AppendTo

end Osrm.Slices
