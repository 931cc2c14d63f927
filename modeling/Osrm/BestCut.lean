import Mathlib.Algebra.Order.Floor.Ring
import Mathlib.Data.Rat.Floor
import Mathlib.Tactic.Linarith

/-!
`bestMinCut` of `partitioner/inertial_flow.cpp`. The rounds enter the critical section in any order, and each leaves
the better one of its cut and the best cut so far.
-/
namespace Osrm.BestCut
open List

section Running
variable {α : Type} {beats : α → α → Prop} [DecidableRel beats] {best : α} {elements : List α}

def keep (beats : α → α → Prop) [DecidableRel beats] (best next : α) : α := if beats next best then next else best

theorem foldl_keep_mem (best : α) (elements : List α) : elements.foldl (keep beats) best ∈ best :: elements := by
  induction elements generalizing best with
  | nil => exact mem_singleton_self best
  | cons next elements ih =>
    rw [foldl_cons]
    have member := ih (keep beats best next)
    generalize elements.foldl (keep beats) (keep beats best next) = final at member
    rw [keep] at member
    split_ifs at member
    · exact mem_cons_of_mem _ member
    · simp only [mem_cons] at member ⊢
      tauto

private theorem foldl_keep_improves (trans : ∀ a b c, beats a b → beats b c → beats a c) (best : α) (elements : List α) :
    elements.foldl (keep beats) best = best ∨ beats (elements.foldl (keep beats) best) best := by
  induction elements generalizing best with
  | nil => exact .inl rfl
  | cons next elements ih =>
    rw [foldl_cons]
    have later := ih (keep beats best next)
    generalize elements.foldl (keep beats) (keep beats best next) = final at later
    rw [keep] at later
    by_cases better : beats next best
    · rw [if_pos better] at later
      cases later with
      | inl same => exact .inr (same ▸ better)
      | inr above => exact .inr (trans _ _ _ above better)
    · rwa [if_neg better] at later

/-- Nothing beats what is kept. -/
theorem foldl_keep_unbeaten (trans : ∀ a b c, beats a b → beats b c → beats a c) (irrefl : ∀ a, ¬ beats a a) (best : α)
    (elements : List α) : ∀ a ∈ best :: elements, ¬ beats a (elements.foldl (keep beats) best) := by
  induction elements generalizing best with
  | nil =>
    simp only [forall_mem_singleton]
    exact irrefl best
  | cons next elements ih =>
    rw [foldl_cons]
    have unbeaten := ih (keep beats best next)
    have improves := foldl_keep_improves trans (keep beats best next) elements
    generalize elements.foldl (keep beats) (keep beats best next) = final at unbeaten improves
    rw [keep] at unbeaten improves
    simp only [forall_mem_cons] at unbeaten ⊢
    by_cases better : beats next best
    · rw [if_pos better] at unbeaten improves
      exact ⟨fun still => unbeaten.1 (trans _ _ _ better still),unbeaten⟩
    · rw [if_neg better] at unbeaten improves
      refine ⟨unbeaten.1,?_,unbeaten.2⟩
      cases improves with
      | inl same => exact same ▸ better
      | inr above => exact fun still => better (trans _ _ _ still above)

theorem foldl_keep_of_unbeaten (unbeaten : ∀ a ∈ elements, ¬ beats a best) : elements.foldl (keep beats) best = best := by
  induction elements with
  | nil => rfl
  | cons next elements ih =>
    obtain ⟨first,later⟩ := forall_mem_cons.mp unbeaten
    rw [foldl_cons,keep,if_neg first,ih later]

end Running

/-- `DinicMaxFlow::MinCut` -/
structure MinCut where
  num_nodes_source : ℕ
  num_edges : ℕ
  flags : List Bool
  deriving DecidableEq, Repr

/-- The size of the view and the balance that is asked for; a penalty is in the range of `int`. -/
structure View where
  number_of_nodes : ℕ
  balance : ℚ
  positive : 0 < balance * (number_of_nodes / 2 : ℕ)
  in_range : number_of_nodes < 2 ^ 31 * (balance * (number_of_nodes / 2 : ℕ))

structure Cut (view : View) extends MinCut where
  side : num_nodes_source ≤ view.number_of_nodes
  few : num_edges < 2 ^ 32

section Rounds
variable (view : View)

def get_balance (num_nodes_source : ℕ) : ℚ :=
  let perfect_balance := view.number_of_nodes / 2
  let allowed_balance := view.balance * perfect_balance
  let bigger_side := max num_nodes_source (view.number_of_nodes - num_nodes_source)
  if bigger_side > allowed_balance then bigger_side / allowed_balance else 1

def balance_delta (num_nodes_source : ℕ) : ℕ := Int.natAbs ((view.number_of_nodes / 2 : ℕ) - num_nodes_source)

structure Shared where
  best : MinCut
  best_balance : ℤ
  deriving DecidableEq, Repr

/-- The critical section of a round. The balance loses its fraction when it is remembered. -/
def enter (shared : Shared) (cut : MinCut) : Shared :=
  let cut_balance := get_balance view cut.num_nodes_source
  if cut.num_edges * cut_balance < ((shared.best.num_edges * shared.best_balance) % 2 ^ 64 : ℤ) ∨
      cut.num_edges = shared.best.num_edges ∧ balance_delta view cut.num_nodes_source < balance_delta view shared.best.num_nodes_source then
    ⟨cut,⌊cut_balance⌋⟩
  else shared

/-- Before the first round the number of edges is -1; the other members are not set. -/
def initial (num_nodes_source : ℕ) (flags : List Bool) : Shared := ⟨⟨num_nodes_source,2 ^ 64 - 1,flags⟩,1⟩
/-- `bestMinCut`, for the order in which the rounds reach the critical section. -/
def bestMinCut (unset : ℕ × List Bool) (rounds : List (Cut view)) : MinCut :=
  ((rounds.map Cut.toMinCut).foldl (enter view) (initial unset.1 unset.2)).best

end Rounds

/-! ### Which cut is kept -/

section Penalty
variable {view : View} {s t : ℕ}

private theorem one_le_get_balance (s : ℕ) : 1 ≤ get_balance view s := by
  rw [get_balance]
  split_ifs with unbalanced
  · exact (one_le_div view.positive).mpr (le_of_lt unbalanced)
  · exact le_rfl

private theorem get_balance_lt (inside : s ≤ view.number_of_nodes) : get_balance view s < 2 ^ 31 := by
  have bigger : max s (view.number_of_nodes - s) ≤ view.number_of_nodes := by omega
  rw [get_balance]
  split_ifs
  · rw [div_lt_iff₀ view.positive]
    exact (Nat.cast_le.mpr bigger).trans_lt view.in_range
  · norm_num

private theorem get_balance_mono (inside : t ≤ view.number_of_nodes) (closer : balance_delta view s < balance_delta view t) :
    get_balance view s ≤ get_balance view t := by
  have bigger : max s (view.number_of_nodes - s) ≤ max t (view.number_of_nodes - t) := by
    unfold balance_delta at closer
    omega
  have cast : ((max s (view.number_of_nodes - s) : ℕ) : ℚ) ≤ (max t (view.number_of_nodes - t) : ℕ) := Nat.cast_le.mpr bigger
  by_cases unbalanced : ((max s (view.number_of_nodes - s) : ℕ) : ℚ) > view.balance * (view.number_of_nodes / 2 : ℕ)
  · rw [get_balance,get_balance,if_pos unbalanced,if_pos (unbalanced.trans_le cast)]
    exact div_le_div_of_nonneg_right cast view.positive.le
  · rw [get_balance,if_neg unbalanced]
    exact one_le_get_balance t

end Penalty

section Kept
variable {view : View} {cut other : Cut view}

def product (view : View) (cut : MinCut) : ℚ := cut.num_edges * get_balance view cut.num_nodes_source
def remembered (view : View) (cut : MinCut) : ℤ := cut.num_edges * ⌊get_balance view cut.num_nodes_source⌋

/-- A cut replaces another one: it is better by what is remembered, or has as many edges and is closer to the middle. -/
def Beats (cut other : Cut view) : Prop :=
  product view cut.toMinCut < remembered view other.toMinCut ∨
    cut.num_edges = other.num_edges ∧ balance_delta view cut.num_nodes_source < balance_delta view other.num_nodes_source

instance : DecidableRel (@Beats view) := fun cut other =>
  inferInstanceAs (Decidable (product view cut.toMinCut < remembered view other.toMinCut ∨
    cut.num_edges = other.num_edges ∧ balance_delta view cut.num_nodes_source < balance_delta view other.num_nodes_source))

private theorem remembered_le (cut : MinCut) : (remembered view cut : ℚ) ≤ product view cut := by
  unfold remembered product
  push_cast
  exact mul_le_mul_of_nonneg_left (Int.floor_le _) (Nat.cast_nonneg _)

private theorem product_le (even : cut.num_edges = other.num_edges)
    (closer : balance_delta view cut.num_nodes_source < balance_delta view other.num_nodes_source) :
    product view cut.toMinCut ≤ product view other.toMinCut := by
  rw [product,product,even]
  exact mul_le_mul_of_nonneg_left (get_balance_mono other.side closer) (Nat.cast_nonneg _)

private theorem remembered_mono (even : cut.num_edges = other.num_edges)
    (closer : balance_delta view cut.num_nodes_source < balance_delta view other.num_nodes_source) :
    remembered view cut.toMinCut ≤ remembered view other.toMinCut := by
  rw [remembered,remembered,even]
  exact mul_le_mul_of_nonneg_left (Int.floor_mono (get_balance_mono other.side closer)) (Int.natCast_nonneg _)

private theorem not_beats_self (cut : Cut view) : ¬ Beats cut cut := by
  rintro (better | ⟨-,closer⟩)
  · exact absurd better (not_lt.mpr (remembered_le _))
  · exact absurd closer (lt_irrefl _)

private theorem beats_trans (a b c : Cut view) (first : Beats a b) (second : Beats b c) : Beats a c := by
  cases first with
  | inl better =>
    cases second with
    | inl best => exact .inl (better.trans ((remembered_le _).trans_lt best))
    | inr tie => exact .inl (better.trans_le (Int.cast_le.mpr (remembered_mono tie.1 tie.2)))
  | inr tie =>
    cases second with
    | inl best => exact .inl ((product_le tie.1 tie.2).trans_lt best)
    | inr again => exact .inr ⟨tie.1.trans again.1,tie.2.trans again.2⟩

private theorem product_lt (cut : Cut view) : product view cut.toMinCut < 2 ^ 63 := by
  have edges : (cut.num_edges : ℚ) ≤ 2 ^ 32 := by exact_mod_cast cut.few.le
  calc product view cut.toMinCut ≤ 2 ^ 32 * get_balance view cut.num_nodes_source :=
        mul_le_mul_of_nonneg_right edges (zero_le_one.trans (one_le_get_balance _))
    _ < 2 ^ 32 * 2 ^ 31 := mul_lt_mul_of_pos_left (get_balance_lt cut.side) (by norm_num)
    _ = 2 ^ 63 := by norm_num

private theorem remembered_mod (cut : Cut view) : remembered view cut.toMinCut % 2 ^ 64 = remembered view cut.toMinCut := by
  have small := (remembered_le cut.toMinCut).trans_lt (product_lt cut)
  have integral : remembered view cut.toMinCut < 2 ^ 63 := by exact_mod_cast small
  refine Int.emod_eq_of_lt (mul_nonneg (Int.natCast_nonneg _) ?_) (by omega)
  exact Int.floor_nonneg.mpr (zero_le_one.trans (one_le_get_balance _))

def stored (cut : Cut view) : Shared := ⟨cut.toMinCut,⌊get_balance view cut.num_nodes_source⌋⟩

private theorem enter_initial (num_nodes_source : ℕ) (flags : List Bool) (cut : Cut view) :
    enter view (initial num_nodes_source flags) cut.toMinCut = stored cut := by
  have small := product_lt cut
  rw [product] at small
  rw [enter,if_pos]
  · rfl
  · refine .inl (small.trans ?_)
    norm_num [initial]

private theorem enter_stored (best cut : Cut view) : enter view (stored best) cut.toMinCut = stored (keep Beats best cut) := by
  have exact_product := remembered_mod best
  rw [remembered] at exact_product
  unfold enter
  simp only [stored,exact_product]
  by_cases better : Beats cut best
  · rw [keep,if_pos better]
    exact if_pos better
  · rw [keep,if_neg better]
    exact if_neg better

private theorem bestMinCut_cons (unset : ℕ × List Bool) (cut : Cut view) (rounds : List (Cut view)) :
    bestMinCut view unset (cut :: rounds) = (rounds.foldl (keep Beats) cut).toMinCut := by
  have folded : ∀ (rest : List (Cut view)) (best : Cut view),
      (rest.map Cut.toMinCut).foldl (enter view) (stored best) = stored (rest.foldl (keep Beats) best) := by
    intro rest
    induction rest with
    | nil => exact fun best => rfl
    | cons next rest ih =>
      intro best
      rw [map_cons,foldl_cons,enter_stored,ih,foldl_cons]
  rw [bestMinCut,map_cons,foldl_cons,enter_initial,folded]
  rfl

/-- The best cut wins whatever the schedule exactly when every cut that is not the best one is beaten by another one. -/
theorem best_cut_wins_iff (unset : ℕ × List Bool) (rounds : List (Cut view)) :
    (∀ order, order.Perm rounds → ∀ cut ∈ rounds, product view (bestMinCut view unset order) ≤ product view cut.toMinCut) ↔
    ∀ kept ∈ rounds, (∃ cut ∈ rounds, product view cut.toMinCut < product view kept.toMinCut) →
      ∃ other ∈ rounds, Beats other kept := by
  constructor
  · rintro wins kept member ⟨cut,present,smaller⟩
    by_contra alone
    obtain ⟨before,after,rfl⟩ := append_of_mem member
    -- the cut that nothing beats comes first
    have first := wins (kept :: (before ++ after)) perm_middle.symm cut present
    rw [bestMinCut_cons,foldl_keep_of_unbeaten] at first
    · exact absurd smaller (not_lt.mpr first)
    · intro other rest beats
      refine alone ⟨other,?_,beats⟩
      simp only [mem_append,mem_cons] at rest ⊢
      tauto
  · intro beaten order perm cut member
    by_contra worse
    cases order with
    | nil => exact absurd (perm.symm.subset member) not_mem_nil
    | cons first order =>
      rw [bestMinCut_cons] at worse
      have kept : order.foldl (keep Beats) first ∈ first :: order := foldl_keep_mem first order
      obtain ⟨other,present,beats⟩ := beaten _ (perm.subset kept) ⟨cut,member,not_le.mp worse⟩
      exact foldl_keep_unbeaten beats_trans not_beats_self first order other (perm.symm.subset present) beats

end Kept

def ten : View := ⟨10,1,by norm_num,by norm_num⟩
/-- Ten edges that separate nine nodes from one: the product is 18, and 10 is remembered. -/
def lopsided : Cut ten := ⟨⟨9,10,[]⟩,by decide,by decide⟩
def fair : Cut ten := ⟨⟨6,9,[]⟩,by decide,by decide⟩

private theorem get_balance_ten : get_balance ten 9 = 9 / 5 ∧ get_balance ten 6 = 6 / 5 := by
  constructor <;> norm_num [get_balance,ten]

/-- When the lopsided cut comes first, it stays. -/
theorem lopsided_cut_stays :
    ¬ ∀ cut ∈ [lopsided,fair], product ten (bestMinCut ten (0,[]) [lopsided,fair]) ≤ product ten cut.toMinCut := by
  have unbeaten : ¬ Beats fair lopsided := by
    norm_num [Beats,product,remembered,get_balance_ten,fair,lopsided]
  intro wins
  have smaller := wins fair (by simp)
  rw [bestMinCut_cons,foldl_cons,keep,if_neg unbeaten,foldl_nil] at smaller
  norm_num [product,get_balance_ten,fair,lopsided] at smaller

end Osrm.BestCut
