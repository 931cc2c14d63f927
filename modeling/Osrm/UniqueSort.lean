import Mathlib.Data.List.Destutter
import Mathlib.Order.Lattice
import Osrm.Scan

/-!
`std::sort`, which may leave elements that compare equal in any order, and `std::unique`, which keeps the first one of
neighbours that are the same. After a sort by a key one element is left for each key; which one it is depends on the sort.
-/
namespace Osrm.UniqueSort
open List
open Scan
variable {α K : Type} [LinearOrder K]

/-- What `std::sort` may return. -/
structure Sorts (less : α → α → Bool) (before after : List α) : Prop where
  perm : after.Perm before
  ordered : after.Pairwise fun a b => less b a = false

def unique (same : α → α → Bool) (l : List α) : List α := l.destutter fun a b => same a b = false

variable {less same : α → α → Bool} {before after l : List α} {key : α → K} {a b : α}

theorem sorts_mergeSort (trans : ∀ a b c, less b a = false → less c b = false → less c a = false)
    (total : ∀ a b, less b a = false ∨ less a b = false) (l : List α) : Sorts less l (l.mergeSort fun a b => !less b a) := by
  have le_trans : ∀ a b c, (!less b a) = true → (!less c b) = true → (!less c a) = true := by simpa using trans
  have le_total : ∀ a b, (!less b a || !less a b) = true := by simpa using total
  exact ⟨mergeSort_perm _ _,by simpa using pairwise_mergeSort le_trans le_total l⟩

theorem exists_sorts (trans : ∀ a b c, less b a = false → less c b = false → less c a = false)
    (total : ∀ a b, less b a = false ∨ less a b = false) (member : a ∈ before) :
    ∃ after, Sorts less before after ∧
      ∀ p : α → Bool, (∀ b c, p b = true → p c = true → less c b = false) → p a = true → after.find? p = some a := by
  have le_trans : ∀ a b c, (!less b a) = true → (!less c b) = true → (!less c a) = true := by simpa using trans
  have le_total : ∀ a b, (!less b a || !less a b) = true := by simpa using total
  obtain ⟨front,rest,rfl⟩ := append_of_mem member
  have sorted := sorts_mergeSort trans total (a :: (front ++ rest))
  refine ⟨(a :: (front ++ rest)).mergeSort fun a b => !less b a,?_,fun p level holds => ?_⟩
  · exact ⟨sorted.perm.trans perm_middle.symm,sorted.ordered⟩
  · rw [← head?_filter,filter_mergeSort le_trans le_total _ p (by simpa using level),filter_cons_of_pos holds]
    rfl

theorem unique_sublist (same : α → α → Bool) (l : List α) : (unique same l).Sublist l := destutter_sublist _ l

private theorem mem_destutter (same_iff : ∀ a b, same a b = true ↔ key a = key b) (sorted : (b :: l).Pairwise fun a b => key a ≤ key b) :
    a ∈ l.destutter' (fun a b => same a b = false) b ↔ (b :: l).find? (fun c => key c = key a) = some a := by
  have first : ∀ b (l : List α), (b :: l).find? (fun c => key c = key a) =
      if key b = key a then some b else l.find? (fun c => key c = key a) := by
    intro b l
    rw [find?_cons]
    split <;> simp_all
  induction l generalizing b with
  | nil =>
    rw [destutter'_nil,mem_singleton,first]
    split_ifs with here
    · simp [eq_comm]
    · simp only [find?_nil,reduceCtorEq,iff_false]
      rintro rfl
      exact here rfl
  | cons c l ih =>
    obtain ⟨least,rest⟩ := pairwise_cons.mp sorted
    cases alike : same b c with
    | true =>
      have shorter := ih (pairwise_cons.mpr ⟨fun d member => least d (mem_cons_of_mem _ member),rest.of_cons⟩)
      rw [destutter'_cons_neg _ (by simp [alike])]
      refine shorter.trans ?_
      rw [first,first,first,(same_iff b c).mp alike]
      split_ifs <;> rfl
    | false =>
      have less : key b < key c := (least c (by simp)).lt_of_ne fun equal => by simp [(same_iff b c).mpr equal] at alike
      rw [destutter'_cons_pos _ (by exact alike),mem_cons,first]
      refine (or_congr_right (ih rest)).trans ?_
      split_ifs with here
      · have none : (c :: l).find? (fun c => key c = key a) = none := by
          rw [find?_eq_none]
          intro d member
          have : key c ≤ key d := by
            cases mem_cons.mp member with
            | inl same => rw [same]
            | inr later => exact (pairwise_cons.mp rest).1 d later
          simpa [← here] using (less.trans_le this).ne'
        rw [none]
        simp [eq_comm]
      · refine or_iff_right ?_
        rintro rfl
        exact here rfl

/-- The first of the elements with its key is left. -/
theorem mem_unique (same_iff : ∀ a b, same a b = true ↔ key a = key b) (sorted : l.Pairwise fun a b => key a ≤ key b) :
    a ∈ unique same l ↔ l.find? (fun c => key c = key a) = some a := by
  cases l with
  | nil => simp [unique]
  | cons b l => exact mem_destutter same_iff sorted

theorem exists_mem_unique (same_iff : ∀ a b, same a b = true ↔ key a = key b) (sorted : l.Pairwise fun a b => key a ≤ key b)
    (member : a ∈ l) : ∃ b ∈ unique same l, key b = key a := by
  have some_first : (l.find? fun c => key c = key a).isSome = true := find?_isSome.mpr ⟨a,member,by simp⟩
  obtain ⟨b,found⟩ := Option.isSome_iff_exists.mp some_first
  have there : key b = key a := by simpa using find?_some found
  exact ⟨b,(mem_unique same_iff sorted).mpr (by rw [there]; exact found),there⟩

theorem unique_first {R : α → α → Prop} (refl : ∀ a, R a a) (related : l.Pairwise R)
    (same_iff : ∀ a b, same a b = true ↔ key a = key b) (sorted : l.Pairwise fun a b => key a ≤ key b) (left : a ∈ unique same l)
    (member : b ∈ l) (alike : key b = key a) : R a b := by
  obtain ⟨_,front,rest,rfl,none⟩ := find?_eq_some_iff_append.mp ((mem_unique same_iff sorted).mp left)
  rw [mem_append,mem_cons] at member
  rcases member with earlier | rfl | later
  · simpa [alike] using none b earlier
  · exact refl b
  · exact (pairwise_cons.mp (pairwise_append.mp related).2.1).1 b later

/-- The keys that are left are different. -/
theorem unique_keys (same_iff : ∀ a b, same a b = true ↔ key a = key b) (sorted : l.Pairwise fun a b => key a ≤ key b) :
    (unique same l).Pairwise fun a b => key a < key b := by
  have chain : (unique same l).IsChain fun a b => same a b = false := isChain_destutter _ l
  have ascending := (sorted.sublist (unique_sublist same l)).isChain
  have transitive : Trans (fun a b : α => key a < key b) (fun a b => key a < key b) (fun a b => key a < key b) := ⟨lt_trans⟩
  refine isChain_iff_pairwise.mp (isChain_iff_getElem.mpr fun i inside => ?_)
  refine (ascending.getElem i inside).lt_of_ne fun equal => ?_
  have apart := chain.getElem i inside
  rw [(same_iff _ _).mpr equal] at apart
  exact Bool.noConfusion apart

end Osrm.UniqueSort
