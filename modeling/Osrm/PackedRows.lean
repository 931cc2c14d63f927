import Mathlib.Tactic
import Osrm.Slices

/-!
Rows of different lengths that lie one behind another in one array, as in a graph of compressed rows: where a row
begins, which row an index belongs to, and what a loop over the indices of one row does to the array.
-/
namespace Osrm.PackedRows
open List
open Slices

variable {α β : Type} {row row' : ℕ → List α} {n k i j : ℕ}

def packed (row : ℕ → List α) (n : ℕ) : List α := (List.range n).flatMap row
def start (row : ℕ → List α) (k : ℕ) : ℕ := (packed row k).length
def behind (row : ℕ → List α) (k n : ℕ) : List α := (List.range' (k + 1) (n - (k + 1))).flatMap row

@[simp] theorem packed_zero (row : ℕ → List α) : packed row 0 = [] := rfl
theorem packed_succ (row : ℕ → List α) (k : ℕ) : packed row (k + 1) = packed row k ++ row k := by
  simp [packed,range_succ]
@[simp] theorem start_zero (row : ℕ → List α) : start row 0 = 0 := rfl
theorem start_succ (row : ℕ → List α) (k : ℕ) : start row (k + 1) = start row k + (row k).length := by
  simp [start,packed_succ]
theorem length_packed (row : ℕ → List α) (n : ℕ) : (packed row n).length = start row n := rfl

theorem packed_congr (same : ∀ k < n, row k = row' k) : packed row n = packed row' n := by
  induction n with
  | zero => rfl
  | succ n ih => rw [packed_succ,packed_succ,ih fun k less => same k (by omega),same n (by omega)]

theorem start_congr {row' : ℕ → List β} (same : ∀ k < n, (row k).length = (row' k).length) : start row n = start row' n := by
  induction n with
  | zero => rfl
  | succ n ih => rw [start_succ,start_succ,ih fun k less => same k (by omega),same n (by omega)]

theorem start_mono (row : ℕ → List α) (le : j ≤ k) : start row j ≤ start row k := by
  induction le with
  | refl => exact le_rfl
  | step _ ih =>
    rw [start_succ]
    omega

theorem start_add_lt (here : k < n) (inside : i < (row k).length) : start row k + i < start row n := by
  have next := start_succ row k
  have bound := start_mono row (show k + 1 ≤ n from here)
  omega

private theorem packed_eq (row : ℕ → List α) (here : k < n) : packed row n = packed row k ++ (row k ++ behind row k n) := by
  obtain ⟨m,rfl⟩ : ∃ m, n = k + 1 + m := ⟨n - (k + 1),by omega⟩
  induction m with
  | zero => simp [packed_succ,behind]
  | succ m ih =>
    have last : behind row k (k + 1 + (m + 1)) = behind row k (k + 1 + m) ++ row (k + 1 + m) := by
      have count : k + 1 + (m + 1) - (k + 1) = m + 1 := by omega
      have fewer : k + 1 + m - (k + 1) = m := by omega
      rw [behind,behind,count,fewer,range'_1_concat]
      simp
    rw [last,← Nat.add_assoc (k + 1),packed_succ,ih (by omega)]
    simp

theorem getElem?_packed (row : ℕ → List α) (here : k < n) (inside : i < (row k).length) : (packed row n)[start row k + i]? = (row k)[i]? := by
  rw [packed_eq row here,getElem?_append_right (by simp [start])]
  rw [show start row k + i - (packed row k).length = i from Nat.add_sub_cancel_left ..]
  exact getElem?_append_left inside

theorem exists_row (inside : j < start row n) : ∃ k < n, ∃ i < (row k).length, j = start row k + i := by
  induction n with
  | zero => simp at inside
  | succ n ih =>
    rw [start_succ] at inside
    by_cases earlier : j < start row n
    · obtain ⟨k,less,found⟩ := ih earlier
      exact ⟨k,by omega,found⟩
    · exact ⟨n,by omega,j - start row n,by omega,by omega⟩

theorem slice_packed (here : k < n) : slice (packed row n) (start row k) (start row (k + 1)) = row k := by
  apply ext_getElem?
  intro i
  rw [slice_getElem?,start_succ,Nat.add_sub_cancel_left]
  split
  · rename_i inside
    exact getElem?_packed row here inside
  · rename_i outside
    exact (getElem?_eq_none (Nat.not_lt.mp outside)).symm

private theorem packed_update (row : ℕ → List α) (here : k < n) (new : List α) :
    packed (Function.update row k new) n = packed row k ++ (new ++ behind row k n) := by
  rw [packed_eq _ here,Function.update_self]
  congr 1
  · exact packed_congr fun j less => Function.update_of_ne (by omega) ..
  · congr 1
    refine flatMap_congr fun j member => Function.update_of_ne ?_ ..
    have := (mem_range'_1.mp member).1
    omega

private theorem modify_length (f : α → α) (a : α) (before rest : List α) :
    (before ++ a :: rest).modify before.length f = before ++ f a :: rest := by
  induction before with
  | nil => rfl
  | cons b before ih => exact congrArg (List.cons b) ih

private theorem foldl_modify (f : α → α) (before middle rest : List α) :
    (List.range' before.length middle.length).foldl (fun l e => l.modify e f) (before ++ (middle ++ rest)) =
      before ++ (middle.map f ++ rest) := by
  induction middle generalizing before with
  | nil => rfl
  | cons a middle ih =>
    have first : (before ++ (a :: middle ++ rest)).modify before.length f = (before ++ [f a]) ++ (middle ++ rest) := by
      rw [cons_append,modify_length]
      simp
    rw [length_cons,range'_succ,foldl_cons,first]
    have later := ih (before ++ [f a])
    rw [length_append,length_singleton] at later
    rw [later]
    simp

theorem foldl_modify_row (f : α → α) (row : ℕ → List α) (here : k < n) :
    (List.range' (start row k) (row k).length).foldl (fun l e => l.modify e f) (packed row n) =
      packed (Function.update row k ((row k).map f)) n := by
  rw [packed_update row here,packed_eq row here]
  exact foldl_modify f ..

private theorem foldl_set (number : ℕ → α) (first : ℕ) (before middle rest : List α) :
    (List.range' before.length middle.length).foldl (fun s e => (s.1.set e (number s.2),s.2 + 1)) (before ++ (middle ++ rest),first) =
      (before ++ ((List.range' first middle.length).map number ++ rest),first + middle.length) := by
  induction middle generalizing before first with
  | nil => rfl
  | cons a middle ih =>
    have written : (before ++ (a :: middle ++ rest)).set before.length (number first) =
        (before ++ [number first]) ++ (middle ++ rest) := by
      rw [set_append_right _ _ le_rfl]
      simp
    rw [length_cons,range'_succ,foldl_cons,written]
    have later := ih (first + 1) (before ++ [number first])
    rw [length_append,length_singleton] at later
    rw [later,range'_succ]
    simp [Nat.add_comm,Nat.add_left_comm]

theorem foldl_set_row (number : ℕ → α) (first : ℕ) (row : ℕ → List α) (here : k < n) :
    (List.range' (start row k) (row k).length).foldl (fun s e => (s.1.set e (number s.2),s.2 + 1)) (packed row n,first) =
      (packed (Function.update row k ((List.range' first (row k).length).map number)) n,first + (row k).length) := by
  rw [packed_update row here,packed_eq row here]
  exact foldl_set number first ..

end Osrm.PackedRows
