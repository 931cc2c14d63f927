import Mathlib.Data.List.TakeWhile
import Mathlib.Data.List.Range
import Mathlib.Data.List.Induction

/-!
Lists that are scanned from the front for as long as a property holds, where nothing that has the
property comes after something that does not, and arrays of blocks of the same size.
-/
namespace Osrm.Scan
open List
variable {α β : Type}

theorem pairwise_iff_split {R : α → α → Prop} {l : List α} :
    l.Pairwise R ↔ ∀ before a after, l = before ++ a :: after → ∀ b ∈ before, R b a := by
  constructor
  · rintro pairwise before a after rfl b member
    exact (pairwise_append.mp pairwise).2.2 b member a (by simp)
  · intro all
    induction l using List.reverseRecOn with
    | nil => exact List.Pairwise.nil
    | append_singleton l a ih =>
      refine pairwise_append.mpr ⟨ih fun before b after same => ?_,pairwise_singleton _ _,?_⟩
      · exact all before b (after ++ [a]) (by simp [same])
      · intro b member c single
        exact mem_singleton.mp single ▸ all l a [] rfl b member

/-- Where it holds it held before. -/
def Falling (p : α → Bool) (l : List α) : Prop := l.Pairwise fun a b => p b = true → p a = true

variable {p : α → Bool} {l : List α}

theorem takeWhile_eq_filter (falling : Falling p l) : l.takeWhile p = l.filter p := by
  induction l with
  | nil => rfl
  | cons a l ih =>
    obtain ⟨first,rest⟩ := pairwise_cons.mp falling
    cases holds : p a with
    | true => rw [takeWhile_cons_of_pos holds,filter_cons_of_pos holds,ih rest]
    | false =>
      rw [takeWhile_cons_of_neg (by simp [holds]),filter_cons_of_neg (by simp [holds])]
      refine (filter_eq_nil_iff.mpr fun b member later => ?_).symm
      simp [first b member later] at holds

/-- On a falling list what is dropped is what is filtered. -/
theorem dropWhile_eq_filter (falling : Falling p l) : l.dropWhile p = l.filter fun a => !p a := by
  induction l with
  | nil => rfl
  | cons a l ih =>
    obtain ⟨first,rest⟩ := pairwise_cons.mp falling
    cases holds : p a with
    | true => rw [dropWhile_cons_of_pos holds,filter_cons_of_neg (by simp [holds]),ih rest]
    | false =>
      rw [dropWhile_cons_of_neg (by simp [holds]),filter_cons_of_pos (by simp [holds]),filter_eq_self.mpr]
      intro b member
      by_contra later
      simp [first b member (by simpa using later)] at holds

theorem length_takeWhile (falling : Falling p l) : (l.takeWhile p).length = l.countP p := by
  rw [takeWhile_eq_filter falling,countP_eq_length_filter]

theorem take_countP (falling : Falling p l) : l.take (l.countP p) = l.filter p := by
  rw [← length_takeWhile falling,← takeWhile_eq_filter falling]
  nth_rewrite 2 [← takeWhile_append_dropWhile (p := p) (l := l)]
  exact take_left

theorem drop_countP (falling : Falling p l) : l.drop (l.countP p) = l.filter fun a => !p a := by
  rw [← length_takeWhile falling,← dropWhile_eq_filter falling]
  nth_rewrite 2 [← takeWhile_append_dropWhile (p := p) (l := l)]
  exact drop_left

/-- A falling list holds up to its count. -/
theorem lt_countP_iff (falling : Falling p l) {i : ℕ} {a : α} (found : l[i]? = some a) : i < l.countP p ↔ p a = true := by
  constructor
  · intro before
    have member : a ∈ l.take (l.countP p) := mem_of_getElem? (by rw [getElem?_take_of_lt before,found])
    rw [take_countP falling] at member
    exact (mem_filter.mp member).2
  · intro holds
    by_contra after
    have member : a ∈ l.drop (l.countP p) := by
      refine mem_of_getElem? (i := i - l.countP p) ?_
      rw [getElem?_drop,Nat.add_sub_cancel' (by omega),found]
    rw [drop_countP falling] at member
    simp [holds] at member

theorem countP_or (l : List α) {p q r : α → Bool} (either : ∀ a, r a = true ↔ p a = true ∨ q a = true)
    (apart : ∀ a, p a = true → q a = true → False) : l.countP r = l.countP p + l.countP q := by
  induction l with
  | nil => rfl
  | cons a l ih =>
    have cases := either a
    have never := apart a
    simp only [countP_cons,ih]
    split_ifs <;> first | omega | simp_all

/-- The runs of elements that have a key in common. -/
def ranges [DecidableEq β] (key : α → β) : List α → List (List α)
  | [] => []
  | first :: rest =>
    (first :: rest.takeWhile fun a => key a == key first) :: ranges key (rest.dropWhile fun a => key a == key first)
termination_by l => l.length
decreasing_by
  have shorter : (rest.dropWhile fun a => key a == key first).length ≤ rest.length := (dropWhile_sublist _).length_le
  simp only [length_cons]
  omega

variable {key : α → ℕ}

theorem ranges_cut {first : α} {rest : List α} (sorted : (first :: rest).Pairwise fun a b => key a ≤ key b) :
    first :: rest = (first :: rest.takeWhile fun a => key a == key first) ++ rest.dropWhile (fun a => key a == key first) ∧
      (∀ a ∈ first :: rest.takeWhile fun a => key a == key first, key a = key first) ∧
      ∀ a ∈ rest.dropWhile fun a => key a == key first, key first < key a := by
  obtain ⟨least,order⟩ := pairwise_cons.mp sorted
  have falling : Falling (fun a => key a == key first) rest := by
    refine order.imp_of_mem fun {a b} member _ le same => ?_
    have := least a member
    simp only [beq_iff_eq] at same ⊢
    omega
  refine ⟨by rw [cons_append,takeWhile_append_dropWhile],fun a member => ?_,fun a member => ?_⟩
  · cases mem_cons.mp member with
    | inl here => rw [here]
    | inr taken => simpa using mem_takeWhile_imp taken
  · rw [dropWhile_eq_filter falling] at member
    obtain ⟨inside,other⟩ := mem_filter.mp member
    have := least a inside
    simp only [Bool.not_eq_true',beq_eq_false_iff_ne] at other
    omega

theorem falling_less (sorted : l.Pairwise fun a b => key a ≤ key b) (c : ℕ) : Falling (fun a => decide (key a < c)) l := by
  refine sorted.imp fun {a b} le less => ?_
  simp only [decide_eq_true_eq] at less ⊢
  omega

theorem falling_same (sorted : l.Pairwise fun a b => key a ≤ key b) (c : ℕ) :
    Falling (fun a => key a == c) (l.filter fun a => !decide (key a < c)) := by
  refine (sorted.filter _).imp_of_mem fun {a b} member _ le same => ?_
  have := (mem_filter.mp member).2
  simp only [Bool.not_eq_true',decide_eq_false_iff_not,beq_iff_eq] at this same ⊢
  omega

theorem same_not_less (key : α → ℕ) (c : ℕ) (a : α) : (key a == c && !decide (key a < c)) = (key a == c) := by
  rw [Bool.eq_iff_iff]
  simp only [Bool.and_eq_true,beq_iff_eq,Bool.not_eq_true',decide_eq_false_iff_not]
  omega

theorem take_drop_countP (sorted : l.Pairwise fun a b => key a ≤ key b) (c : ℕ) :
    (l.drop (l.countP (key · < c))).take (l.countP (key · == c)) = l.filter (key · == c) ∧
      l.countP (key · < c) + l.countP (key · == c) ≤ l.length := by
  have earlier := falling_less sorted c
  have here := falling_same sorted c
  have slice := take_countP here
  rw [countP_filter,filter_filter] at slice
  simp only [same_not_less] at slice
  rw [← drop_countP earlier] at slice
  refine ⟨slice,?_⟩
  have both := countP_or l (p := fun a => decide (key a < c)) (q := fun a => key a == c)
    (r := fun a => decide (key a < c) || key a == c) (fun a => by simp) fun a => by
      simp only [decide_eq_true_eq,beq_iff_eq]
      omega
  rw [← both]
  exact countP_le_length

theorem filter_mergeSort {le : α → α → Bool} (trans : ∀ a b c, le a b → le b c → le a c)
    (total : ∀ a b, (le a b || le b a) = true) (l : List α) (p : α → Bool) (level : ∀ a b, p a → p b → le a b) :
    (l.mergeSort le).filter p = l.filter p := by
  have ordered : (l.filter p).Pairwise fun a b => le a b := pairwise_filter.mpr (pairwise_of_forall level)
  have inside := (sublist_mergeSort trans total ordered filter_sublist).filter p
  rw [filter_filter] at inside
  simp only [Bool.and_self] at inside
  exact (inside.eq_of_length ((mergeSort_perm l le).filter p).length_eq.symm).symm

theorem mergeSort_refines {le : α → α → Bool} (trans : ∀ a b c, le a b → le b c → le a c) (total : ∀ a b, (le a b || le b a) = true)
    {l : List α} {before : α → α → Prop} (ordered : l.Pairwise before) :
    (l.mergeSort le).Pairwise fun a b => le a b = true ∧ (le b a = true → before a b) := by
  refine pairwise_iff_forall_sublist.mpr fun {a b} pair => ?_
  have le_ab := pairwise_iff_forall_sublist.mp (pairwise_mergeSort trans total l) pair
  refine ⟨le_ab,fun le_ba => ?_⟩
  have reflexive : ∀ c, le c c = true := fun c => by simpa using total c c
  have level : ∀ c d, (le a c && le c a) = true → (le a d && le d a) = true → le c d := by
    intro c d one two
    simp only [Bool.and_eq_true] at one two
    exact trans c a d one.2 two.1
  have alike := pair.filter fun c => le a c && le c a
  rw [filter_mergeSort trans total l _ level,filter_cons_of_pos (by simp [reflexive]),
    filter_cons_of_pos (by simp [le_ab,le_ba]),filter_nil] at alike
  exact pairwise_iff_forall_sublist.mp ordered (alike.trans filter_sublist)

theorem filter_mapIdx (f : ℕ → α → β) (p : β → Bool) (place : Option ℕ) (l : List α)
    (only : ∀ i a, l[i]? = some a → (p (f i a) = true ↔ place = some i)) :
    (l.mapIdx f).filter p = (place.bind fun i => l[i]?.map (f i)).toList := by
  induction l generalizing f place with
  | nil => cases place <;> rfl
  | cons a l ih =>
    rw [mapIdx_cons]
    cases place with
    | none =>
      rw [filter_cons_of_neg (by simp [only 0 a rfl])]
      exact ih _ none fun i b found => by simp [only (i + 1) b found]
    | some i =>
      cases i with
      | zero =>
        rw [filter_cons_of_pos ((only 0 a rfl).mpr rfl),ih _ none fun i b found => by simp [only (i + 1) b found]]
        rfl
      | succ i =>
        rw [filter_cons_of_neg (by simp [only 0 a rfl])]
        exact ih _ (some i) fun j b found => by simp [only (j + 1) b found]

theorem map_getElem?_range' (l : List α) (first count : ℕ) (inside : first + count ≤ l.length) :
    (List.range' first count).map (l[·]?) = ((l.drop first).take count).map some := by
  apply ext_getElem?
  intro i
  rw [getElem?_map,getElem?_map,getElem?_take,getElem?_drop]
  by_cases below : i < count
  · have there : first + i < l.length := by omega
    simp [below,there]
  · simp [below]

theorem dropLast_shift (f : ℕ → β) (n : ℕ) : (f 0 :: (List.range n).map fun i => f (i + 1)).dropLast = (List.range n).map f := by
  have front : (f 0 :: (List.range n).map fun i => f (i + 1)) = (List.range (n + 1)).map f := by
    simp [range_succ_eq_map]
  rw [front,range_succ,map_append]
  exact dropLast_concat

theorem getElem?_flatMap (g : ℕ → List α) (size count v i : ℕ) (sizes : ∀ n < count, (g n).length = size) (block : v < count)
    (inside : i < size) : ((List.range count).flatMap g)[v * size + i]? = (g v)[i]? := by
  have length : ∀ m ≤ count, ((List.range m).flatMap g).length = m * size := by
    intro m le
    induction m with
    | zero => simp
    | succ m ih =>
      rw [range_succ,flatMap_append,length_append,ih (by omega)]
      simp [sizes m le,Nat.succ_mul]
  induction count with
  | zero => omega
  | succ count ih =>
    rw [range_succ,flatMap_append]
    by_cases last : v = count
    · subst last
      rw [getElem?_append_right (by rw [length v (by omega)]; omega),length v (by omega)]
      simp
    · rw [getElem?_append_left]
      · exact ih (fun n less => sizes n (by omega)) (by omega) fun m le => length m (by omega)
      · rw [length count (by omega)]
        have : (v + 1) * size ≤ count * size := Nat.mul_le_mul_right size (by omega)
        rw [Nat.succ_mul] at this
        omega

end Osrm.Scan
