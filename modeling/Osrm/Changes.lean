import Mathlib.Data.Finset.Card
import Mathlib.Data.List.TakeWhile

/-!
Sequences whose equal elements stand together, numbered by how often the element has changed, and stable
sorts, which keep such groups together.
-/
namespace Osrm.Changes
open List
section Numbers
variable {β : Type} [DecidableEq β]

def changes (g : ℕ → β) : ℕ → ℕ
  | 0 => 0
  | i + 1 => if g i ≠ g (i + 1) then changes g i + 1 else changes g i
def Contiguous {β : Type} (g : ℕ → β) (n : ℕ) : Prop := ∀ i j k, i ≤ j → j ≤ k → k < n → g i = g k → g j = g i

variable {g : ℕ → β} {n i j a b c : ℕ}

private theorem changes_succ_le (g : ℕ → β) (i : ℕ) : changes g i ≤ changes g (i + 1) ∧ changes g (i + 1) ≤ changes g i + 1 := by
  rw [changes]
  split <;> omega

theorem changes_mono (g : ℕ → β) (le : i ≤ j) : changes g i ≤ changes g j := by
  induction j, le using Nat.le_induction with
  | base => exact le_rfl
  | succ j _ ih => exact ih.trans (changes_succ_le g j).1

theorem changes_between (g : ℕ → β) (le : a ≤ b) (low : changes g a ≤ c) (high : c ≤ changes g b) :
    ∃ i, a ≤ i ∧ i ≤ b ∧ changes g i = c := by
  induction b, le using Nat.le_induction with
  | base => exact ⟨a,le_rfl,le_rfl,le_antisymm low high⟩
  | succ b above ih =>
    by_cases reached : c ≤ changes g b
    · obtain ⟨i,after,before,same⟩ := ih reached
      exact ⟨i,after,before.trans (Nat.le_succ b),same⟩
    · have := (changes_succ_le g b).2
      exact ⟨b + 1,above.trans (Nat.le_succ b),le_rfl,by omega⟩

private theorem eq_of_changes_eq (le : i ≤ j) (same : changes g i = changes g j) : g i = g j := by
  induction j, le using Nat.le_induction with
  | base => rfl
  | succ j above ih =>
    have before := changes_mono g above
    have after := (changes_succ_le g j).1
    rw [ih (by omega)]
    by_contra other
    rw [changes,if_pos other] at same
    omega

private theorem changes_eq_of_const (le : i ≤ j) (const : ∀ m, i ≤ m → m ≤ j → g m = g i) : changes g i = changes g j := by
  induction j, le using Nat.le_induction with
  | base => rfl
  | succ j above ih =>
    have same : g j = g (j + 1) := (const j above (Nat.le_succ j)).trans (const (j + 1) (by omega) le_rfl).symm
    rw [changes,if_neg (by simpa using same)]
    exact ih fun m low high => const m low (by omega)

theorem changes_eq_iff (contiguous : Contiguous g n) (insideI : i < n) (insideJ : j < n) :
    changes g i = changes g j ↔ g i = g j := by
  wlog le : i ≤ j generalizing i j
  · rw [eq_comm,this insideJ insideI (by omega),eq_comm]
  constructor
  · exact eq_of_changes_eq le
  · intro same
    exact changes_eq_of_const le fun m low high => contiguous i m j low high insideJ same

private theorem changes_lt (le : i ≤ j) (other : g i ≠ g j) : changes g i < changes g j := by
  have := changes_mono g le
  have : changes g i ≠ changes g j := fun same => other (eq_of_changes_eq le same)
  omega

theorem card_image_le_of_coarser {ι γ : Type} [DecidableEq γ] (s : Finset ι) (f : ι → β) (h : ι → γ)
    (coarser : ∀ i ∈ s, ∀ j ∈ s, f i = f j → h i = h j) : (s.image h).card ≤ (s.image f).card := by
  have left : (s.image fun i => (f i,h i)).image Prod.fst = s.image f := by
    rw [Finset.image_image]
    rfl
  have right : (s.image fun i => (f i,h i)).image Prod.snd = s.image h := by
    rw [Finset.image_image]
    rfl
  have pairs : ∀ p ∈ s.image fun i => (f i,h i), ∃ i ∈ s, (f i,h i) = p := fun p => Finset.mem_image.mp
  have first : Set.InjOn Prod.fst ((s.image fun i => (f i,h i) : Finset (β × γ)) : Set (β × γ)) := by
    intro p one q two eq
    obtain ⟨i,insideI,rfl⟩ := pairs p one
    obtain ⟨j,insideJ,rfl⟩ := pairs q two
    exact Prod.ext eq (coarser i insideI j insideJ eq)
  rw [← left,← right,Finset.card_image_of_injOn first]
  exact Finset.card_image_le

theorem card_image_eq (contiguous : Contiguous g n) (positive : 0 < n) :
    ((Finset.range n).image g).card = changes g (n - 1) + 1 := by
  have numbers : (Finset.range n).image (changes g) = Finset.range (changes g (n - 1) + 1) := by
    ext c
    simp only [Finset.mem_image,Finset.mem_range]
    constructor
    · rintro ⟨i,inside,rfl⟩
      have := changes_mono g (show i ≤ n - 1 by omega)
      omega
    · intro below
      obtain ⟨i,_,inside,same⟩ := changes_between g (Nat.zero_le (n - 1)) (Nat.zero_le c) (Nat.le_of_lt_succ below)
      exact ⟨i,by omega,same⟩
  rw [← Finset.card_range (changes g (n - 1) + 1),← numbers]
  apply le_antisymm
  · apply card_image_le_of_coarser
    intro i insideI j insideJ
    exact (changes_eq_iff contiguous (Finset.mem_range.mp insideI) (Finset.mem_range.mp insideJ)).mp
  · apply card_image_le_of_coarser
    intro i insideI j insideJ
    exact (changes_eq_iff contiguous (Finset.mem_range.mp insideI) (Finset.mem_range.mp insideJ)).mpr

/-! The numbers of a finer sequence that occur within one element of a coarser one. -/

variable {γ : Type} [DecidableEq γ] {h : ℕ → γ} {k : ℕ}

theorem within_iff (contiguous : Contiguous h n) (coarser : ∀ i < n, ∀ j < n, g i = g j → h i = h j) (inside : b < n)
    (here : changes h a = c) (first : ∀ j < a, changes h j < c) (next : changes h b = c + 1) (last : ∀ j < b, changes h j < c + 1) :
    (changes g a ≤ k ∧ k < changes g b) ↔ ∃ i < n, changes h i = c ∧ changes g i = k := by
  constructor
  · rintro ⟨low,high⟩
    have le : a ≤ b := by
      by_contra beyond
      have := first b (by omega)
      omega
    obtain ⟨i,after,before,same⟩ := changes_between g le low high.le
    have less : i < b := by
      rcases Nat.eq_or_lt_of_le before with rfl | less
      · omega
      · exact less
    have above := changes_mono h after
    have below := last i less
    exact ⟨i,by omega,by omega,same⟩
  · rintro ⟨i,known,number,rfl⟩
    have after : a ≤ i := by
      by_contra earlier
      have := first i (by omega)
      omega
    have before : i < b := by
      by_contra later
      have := changes_mono h (show b ≤ i by omega)
      omega
    refine ⟨changes_mono g after,changes_lt before.le fun same => ?_⟩
    have := (changes_eq_iff contiguous known inside).mpr (coarser i known b inside same)
    omega

theorem within_last_iff (some_place : 0 < n) (here : changes h a = c) (first : ∀ j < a, changes h j < c) (last : changes h (n - 1) = c)
    (inside : a < n) : (changes g a ≤ k ∧ k < changes g (n - 1) + 1) ↔ ∃ i < n, changes h i = c ∧ changes g i = k := by
  constructor
  · rintro ⟨low,high⟩
    obtain ⟨i,after,before,same⟩ := changes_between g (show a ≤ n - 1 by omega) low (Nat.le_of_lt_succ high)
    have above := changes_mono h after
    have below := changes_mono h before
    exact ⟨i,by omega,by omega,same⟩
  · rintro ⟨i,known,number,rfl⟩
    have after : a ≤ i := by
      by_contra earlier
      have := first i (by omega)
      omega
    exact ⟨changes_mono g after,Nat.lt_succ_of_le (changes_mono g (by omega))⟩

end Numbers

section Sorts
variable {α β : Type}

def Grouped (f : α → β) (l : List α) : Prop := ∀ a b c, [a,b,c].Sublist l → f a = f c → f b = f a

theorem grouped_contiguous (f : α → β) (l : List α) (fallback : α) (grouped : Grouped f l) :
    Contiguous (fun i => f (l.getD i fallback)) l.length := by
  intro i j k le le' inside same
  rcases Nat.eq_or_lt_of_le le with rfl | less
  · rfl
  rcases Nat.eq_or_lt_of_le le' with rfl | less'
  · exact same.symm
  refine grouped _ _ (l.getD k fallback) ?_ same
  have places : [l.getD i fallback,l.getD j fallback,l.getD k fallback] =
      [(⟨i,by omega⟩ : Fin l.length),⟨j,by omega⟩,⟨k,inside⟩].map (l[·]) := by
    simp [getD_eq_getElem?_getD,inside,show i < l.length by omega,show j < l.length by omega]
  rw [places]
  apply map_getElem_sublist
  simp [less,less',less.trans less']

def sortBy (key : α → ℕ) (l : List α) : List α := l.mergeSort fun a b => decide (key a ≤ key b)

variable (key : α → ℕ) (l : List α)

theorem sortBy_perm : (sortBy key l).Perm l := mergeSort_perm l _

private theorem sortBy_pairwise : (sortBy key l).Pairwise fun a b => key a ≤ key b := by
  have sorted : (sortBy key l).Pairwise fun a b => decide (key a ≤ key b) = true :=
    pairwise_mergeSort (by simp; omega) (by simp; omega) l
  simpa using sorted

private theorem filter_sortBy (v : ℕ) : (sortBy key l).filter (key · == v) = l.filter (key · == v) := by
  have inside : (l.filter (key · == v)).Sublist (sortBy key l) := by
    apply sublist_mergeSort (by simp; omega) (by simp; omega)
    · apply pairwise_of_forall_mem_list
      intro a first b second
      simp only [mem_filter,beq_iff_eq] at first second
      simp [first.2,second.2]
    · exact filter_sublist
  have again := inside.filter (key · == v)
  rw [filter_filter] at again
  simp only [Bool.and_self] at again
  exact (again.eq_of_length ((sortBy_perm key l).filter _).length_eq.symm).symm

theorem grouped_sortBy : Grouped key (sortBy key l) := by
  intro a b c inside same
  have order := (sortBy_pairwise key l).sublist inside
  simp only [pairwise_cons,mem_cons,not_mem_nil,or_false,forall_eq_or_imp,forall_eq] at order
  omega

theorem grouped_sortBy_of_coarser (f : α → β) (grouped : Grouped f l) (coarser : ∀ a ∈ l, ∀ b ∈ l, f a = f b → key a = key b) :
    Grouped f (sortBy key l) := by
  intro a b c inside same
  have member : ∀ x ∈ [a,b,c], x ∈ l := fun x h => (sortBy_perm key l).mem_iff.mp (inside.subset h)
  have ends := coarser a (member a (by simp)) c (member c (by simp)) same
  have middle := grouped_sortBy key l a b c inside ends
  have kept := inside.filter (key · == key a)
  rw [filter_sortBy] at kept
  simp only [filter_cons,beq_self_eq_true,middle,← ends,filter_nil,if_true] at kept
  exact grouped a b c (kept.trans filter_sublist) same

end Sorts

end Osrm.Changes
