import Mathlib.Order.Lattice
import Mathlib.Data.List.Basic
import Mathlib.Data.List.Nodup
import Mathlib.Data.List.Induction
import Osrm.Scan

/-!
Looking up a list of elements in another one with an iterator that only moves forward: it goes on while it is at a
smaller element. In sorted lists everything is found.
-/
namespace Osrm.ForwardPass
open List
variable {α : Type} [LinearOrder α] {old sought : List α} {a : α}

/-- The iterator stands at the head of the old elements; it goes on to the first one that is not smaller. -/
def advance (old : List α) (a : α) : List α := old.dropWhile fun c => decide (c < a)
def unfound : List α → List α → List α
  | [], _ => []
  | a :: sought, old =>
    if (advance old a).head? = some a then unfound sought (advance old a) else a :: unfound sought (advance old a)

def remaining (sought old : List α) : List α := sought.foldl advance old
def Aligned (old sought : List α) : Prop :=
  (sought.Pairwise fun b a => a ∈ old → b < a) ∧ old.Pairwise fun c a => a ∈ sought → c < a

instance (old sought : List α) : Decidable (Aligned old sought) :=
  inferInstanceAs (Decidable ((sought.Pairwise fun b a => a ∈ old → b < a) ∧ old.Pairwise fun c a => a ∈ sought → c < a))

theorem advance_map {β : Type} (f : β → α) (p : β → Bool) (smaller : ∀ b, p b = true ↔ f b < a) (old : List β) :
    advance (old.map f) a = (old.dropWhile p).map f := by
  rw [advance,dropWhile_map]
  congr 2
  funext b
  rw [Bool.eq_iff_iff,smaller,Function.comp_apply,decide_eq_true_iff]

theorem unfound_sublist (sought old : List α) : (unfound sought old).Sublist sought := by
  induction sought generalizing old with
  | nil => exact Sublist.refl _
  | cons a sought ih =>
    rw [unfound]
    split
    · exact (ih _).cons a
    · exact (ih _).cons_cons a

@[simp] theorem remaining_concat (before old : List α) (a : α) :
    remaining (before ++ [a]) old = advance (remaining before old) a := by
  rw [remaining,foldl_concat]
  rfl

private theorem mem_unfound : a ∈ unfound sought old ↔
    ∃ before after, sought = before ++ a :: after ∧ (remaining (before ++ [a]) old).head? ≠ some a := by
  induction sought generalizing old with
  | nil => simp [unfound]
  | cons b sought ih =>
    have split : (∃ before after, b :: sought = before ++ a :: after ∧ (remaining (before ++ [a]) old).head? ≠ some a) ↔
        (b = a ∧ (advance old b).head? ≠ some b) ∨ a ∈ unfound sought (advance old b) := by
      rw [ih]
      constructor
      · rintro ⟨before,after,same,missing⟩
        cases before with
        | nil =>
          obtain ⟨rfl,rfl⟩ := List.cons.inj same
          exact .inl ⟨rfl,missing⟩
        | cons c before =>
          obtain ⟨rfl,rfl⟩ := List.cons.inj same
          exact .inr ⟨before,after,rfl,missing⟩
      · rintro (⟨rfl,missing⟩ | ⟨before,after,rfl,missing⟩)
        · exact ⟨[],sought,rfl,missing⟩
        · exact ⟨b :: before,after,rfl,missing⟩
    rw [split,unfound]
    by_cases found : (advance old b).head? = some b
    · rw [if_pos found]
      exact (or_iff_right fun both => both.2 found).symm
    · rw [if_neg found,mem_cons,eq_comm]
      exact or_congr_left (and_iff_left found).symm

/-- What the iterator has passed is smaller than something looked up, and nothing looked up is greater than what is next. -/
theorem remaining_spec (before old : List α) : ∃ passed, old = passed ++ remaining before old ∧
    (∀ c ∈ passed, ∃ b ∈ before, c < b) ∧ ∀ h, (remaining before old).head? = some h → ∀ b ∈ before, b ≤ h := by
  induction before using List.reverseRecOn with
  | nil => exact ⟨[],rfl,by simp,by simp⟩
  | append_singleton before a ih =>
    obtain ⟨passed,split,smaller,greatest⟩ := ih
    rw [remaining_concat,advance]
    have whole := takeWhile_append_dropWhile (p := fun c => decide (c < a)) (l := remaining before old)
    refine ⟨passed ++ (remaining before old).takeWhile fun c => decide (c < a),?_,?_,?_⟩
    · rw [append_assoc,whole,← split]
    · intro c member
      rcases mem_append.mp member with old | new
      · obtain ⟨b,inside,less⟩ := smaller c old
        exact ⟨b,mem_append_left _ inside,less⟩
      · exact ⟨a,by simp,by simpa using mem_takeWhile_imp new⟩
    · intro h first b member
      have stops : a ≤ h := by
        have := head?_dropWhile_not (fun c => decide (c < a)) (remaining before old)
        simpa [first] using this
      rcases mem_append.mp member with inside | new
      · -- Either the iterator has not moved, or it has passed something that is smaller than the new element.
        cases rest : remaining before old with
        | nil => simp [rest] at first
        | cons c rest' =>
          have bound := greatest c (by rw [rest]; rfl) b inside
          rw [rest] at first
          by_cases moves : c < a
          · exact bound.trans (moves.le.trans stops)
          · rw [dropWhile_cons_of_neg (by simpa using moves)] at first
            exact Option.some.inj first ▸ bound
      · exact mem_singleton.mp new ▸ stops

private theorem remaining_before (before first rest : List α) (bound : ∀ b ∈ before, b ≤ a) :
    ∃ first', first' ⊆ first ∧ remaining before (first ++ a :: rest) = first' ++ a :: rest := by
  induction before using List.reverseRecOn with
  | nil => exact ⟨first,Subset.refl _,rfl⟩
  | append_singleton before b ih =>
    obtain ⟨first',inside,here⟩ := ih fun c member => bound c (mem_append_left _ member)
    rw [remaining_concat,here,advance,dropWhile_append]
    have stops : (a :: rest).dropWhile (fun c => decide (c < b)) = a :: rest :=
      dropWhile_cons_of_neg (by simpa using bound b (by simp))
    rw [stops]
    split
    · exact ⟨[],nil_subset _,rfl⟩
    · exact ⟨_,Subset.trans (dropWhile_sublist _).subset inside,rfl⟩

theorem unfound_disjoint_iff (distinct : old.Nodup) (distinct' : sought.Nodup) :
    (∀ a ∈ unfound sought old, a ∉ old) ↔ Aligned old sought := by
  constructor
  · intro all
    have found {before after : List α} {a : α} (split : sought = before ++ a :: after) (member : a ∈ old) :
        (remaining (before ++ [a]) old).head? = some a := by
      by_contra missing
      exact all a (mem_unfound.mpr ⟨before,after,split,missing⟩) member
    have other {before after : List α} {a : α} (split : sought = before ++ a :: after) {b : α} (member : b ∈ before) : b ≠ a := by
      rintro rfl
      rw [split] at distinct'
      exact (nodup_append.mp distinct').2.2 b member b (by simp) rfl
    constructor
    · refine Scan.pairwise_iff_split.mpr fun before a after split b member common => ?_
      obtain ⟨-,-,-,greatest⟩ := remaining_spec (before ++ [a]) old
      exact lt_of_le_of_ne (greatest a (found split common) b (by simp [member])) (other split member)
    · refine Scan.pairwise_iff_split.mpr fun first a rest split c member common => ?_
      obtain ⟨before,after,split'⟩ := append_of_mem common
      have here := found split' (split ▸ by simp)
      obtain ⟨passed,whole,smaller,greatest⟩ := remaining_spec (before ++ [a]) old
      obtain ⟨tail,stands⟩ := head?_eq_some_iff.mp here
      rw [stands] at whole
      have alone : a ∉ passed ∧ a ∉ tail := by
        rw [whole] at distinct
        obtain ⟨-,behind,apart⟩ := nodup_append.mp distinct
        exact ⟨fun inside => apart a inside a (by simp) rfl,(nodup_cons.mp behind).1⟩
      obtain ⟨rfl,-,-⟩ := (append_cons_inj_of_notMem alone.1 alone.2).mp (whole.symm.trans split)
      obtain ⟨b,inside,less⟩ := smaller c member
      exact less.trans_le (greatest a here b inside)
  · rintro ⟨greater,behind⟩ a left common
    obtain ⟨before,after,split,missing⟩ := mem_unfound.mp left
    obtain ⟨first,rest,split'⟩ := append_of_mem common
    have below := Scan.pairwise_iff_split.mp greater before a after split
    have passed := Scan.pairwise_iff_split.mp behind first a rest split'
    apply missing
    obtain ⟨first',inside,here⟩ := remaining_before before first rest fun b member => (below b member common).le
    rw [remaining_concat,split',here,advance,dropWhile_append_of_pos,dropWhile_cons_of_neg (by simp),head?_cons]
    exact fun c member => decide_eq_true (passed c (inside member) (split ▸ by simp))

end Osrm.ForwardPass
