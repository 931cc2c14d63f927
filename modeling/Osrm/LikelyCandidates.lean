import Mathlib.Algebra.Order.Monoid.WithTop
import Mathlib.Algebra.Order.Group.Defs
import Osrm.HiddenMarkovModel
import Osrm.Stages

/-!
Log probabilities that are exact numbers. The step between two points leaves out transitions below the value that is
known; where none is above 0, every candidate nevertheless ends with the greatest value.
-/
namespace Osrm.LikelyCandidates
open List
open Loops HiddenMarkovModel Stages
variable {R : Type} [AddCommGroup R] [LinearOrder R]

/-- Numbers with the impossible value below them and the least finite one between it and them. -/
abbrev Exact (R : Type) : Type := WithBot (WithBot R)

omit [AddCommGroup R] in
private theorem decide_lt_trans (a b c : Exact R) (one : decide (a < b) = true) (two : decide (b < c) = true) : decide (a < c) = true :=
  decide_eq_true ((of_decide_eq_true one).trans (of_decide_eq_true two))
omit [AddCommGroup R] in
private theorem not_lt_bot_exact (a : Exact R) : decide (a < ⊥) = false := decide_eq_false not_lt_bot

private theorem not_lt_sum_exact (a e b c : Exact R) (below : decide (e < ((⊥ : WithBot R) : Exact R)) = true) :
    decide (c < a + e + b) = false := by
  have none : e = ⊥ := by simpa using of_decide_eq_true below
  rw [none,WithBot.add_bot,WithBot.bot_add]
  exact not_lt_bot_exact c

abbrev exactProbabilities (R : Type) [AddCommGroup R] [LinearOrder R] : LogProbabilities where
  Value := Exact R
  lt a b := decide (a < b)
  add a b := a + b
  IMPOSSIBLE_LOG_PROB := ⊥
  MINIMAL_LOG_PROB := ((⊥ : WithBot R) : Exact R)
  lt_trans := decide_lt_trans
  not_lt_impossible := not_lt_bot_exact
  not_lt_add := not_lt_sum_exact

/-- The log probabilities of a trace are numbers, those of its transitions at most 0. -/
structure Numbers (trace : Trace (exactProbabilities R)) : Prop where
  emission : ∀ t s, ∃ r : R, trace.emission t s = ((r : WithBot R) : Exact R)
  transition : ∀ prev s t s_prime cost, trace.transition prev s t s_prime = some cost →
    ∃ r : R, cost = ((r : WithBot R) : Exact R) ∧ r ≤ 0

def trellis (trace : Trace (exactProbabilities R)) : Trellis ℕ ℕ (Exact R) where
  choice t s := s < trace.size t
  value := trace.emission
  step := trace.transition

/-- What the candidates of `prev` that are not pruned give: their values, each with the emission and its transition. -/
def reaching (trace : Trace (exactProbabilities R)) (prev t : ℕ) (model : HMM (exactProbabilities R)) (s_prime : ℕ) : Set (Exact R) :=
  arrivals (trellis trace) prev (fun s => model.pruned prev s = false) (model.viterbi prev) t s_prime

/-- A point that was processed from `prev`. -/
structure Optimal (trace : Trace (exactProbabilities R)) (prev t : ℕ) (model : HMM (exactProbabilities R)) : Prop where
  greatest : ∀ s_prime < trace.size t, model.pruned t s_prime = false → IsGreatest (reaching trace prev t model s_prime) (model.viterbi t s_prime)
  parent : ∀ s_prime < trace.size t, model.pruned t s_prime = false → ∃ s cost, model.parents t s_prime = (prev,s) ∧
    s < trace.size prev ∧ model.pruned prev s = false ∧ trace.transition prev s t s_prime = some cost ∧
    model.viterbi t s_prime = model.viterbi prev s + trace.emission t s_prime + cost
  pruned : ∀ s_prime < trace.size t, model.pruned t s_prime = true ↔ reaching trace prev t model s_prime = ∅
  impossible : ∀ s_prime < trace.size t, model.pruned t s_prime = true → model.viterbi t s_prime = ⊥

variable {trace : Trace (exactProbabilities R)} {model model' before : HMM (exactProbabilities R)} {prev t s s_prime : ℕ}

private theorem reaching_sameAt (same : SameAt prev model model') (s_prime : ℕ) :
    reaching trace prev t model' s_prime = reaching trace prev t model s_prime := by
  unfold reaching
  rw [same.viterbi,same.pruned]

theorem Optimal.sameAt (optimal : Optimal trace prev t model) (first : SameAt prev model model') (second : SameAt t model model') :
    Optimal trace prev t model' := by
  refine ⟨?_,?_,?_,?_⟩
  · rw [second.viterbi,second.pruned]
    simp only [reaching_sameAt first]
    exact optimal.greatest
  · rw [second.viterbi,second.pruned,second.parents,first.viterbi,first.pruned]
    exact optimal.parent
  · rw [second.pruned]
    simp only [reaching_sameAt first]
    exact optimal.pruned
  · rw [second.viterbi,second.pruned]
    exact optimal.impossible

theorem Numbers.emission_ne_bot (numbers : Numbers trace) (t s : ℕ) : trace.emission t s ≠ ⊥ := by
  obtain ⟨r,known⟩ := numbers.emission t s
  rw [known]
  exact WithBot.coe_ne_bot

private theorem Numbers.emission_likely (numbers : Numbers trace) (t s : ℕ) :
    (exactProbabilities R).lt (trace.emission t s) (exactProbabilities R).MINIMAL_LOG_PROB = false := by
  obtain ⟨r,known⟩ := numbers.emission t s
  rw [known]
  exact decide_eq_false (not_lt_of_gt (WithBot.coe_lt_coe.mpr (WithBot.bot_lt_coe r)))

private theorem Numbers.transition_ne_bot (numbers : Numbers trace) {cost : Exact R} (found : trace.transition prev s t s_prime = some cost) :
    cost ≠ ⊥ := by
  obtain ⟨r,rfl,_⟩ := numbers.transition prev s t s_prime cost found
  exact WithBot.coe_ne_bot

private theorem Numbers.transition_nonpos (numbers : Numbers trace) {cost : Exact R} (found : trace.transition prev s t s_prime = some cost) :
    cost ≤ 0 := by
  obtain ⟨r,rfl,le⟩ := numbers.transition prev s t s_prime cost found
  exact WithBot.coe_le_coe.mpr (WithBot.coe_le_coe.mpr le)

/-! ### The loops over the candidates of two points -/

/-- The value with which a candidate of `prev` reaches one of `t`. -/
def new_value (trace : Trace (exactProbabilities R)) (model : HMM (exactProbabilities R)) (prev s t s_prime : ℕ) (cost : Exact R) : Exact R :=
  model.viterbi prev s + trace.emission t s_prime + cost

private theorem relaxCandidate_numbers [IsOrderedAddMonoid R] (numbers : Numbers trace) (model : HMM (exactProbabilities R)) (prev s t s_prime : ℕ) :
    relaxCandidate trace prev t s model s_prime = match trace.transition prev s t s_prime with
      | none => model
      | some cost =>
        if model.viterbi t s_prime < new_value trace model prev s t s_prime cost then
          improved model prev s t s_prime (new_value trace model prev s t s_prime cost)
        else model := by
  unfold relaxCandidate
  dsimp only
  cases found : trace.transition prev s t s_prime with
  | none => exact ite_self model
  | some cost =>
    have le : new_value trace model prev s t s_prime cost ≤ model.viterbi prev s + trace.emission t s_prime :=
      add_le_of_nonpos_right (numbers.transition_nonpos found)
    simp only [decide_eq_true_eq]
    by_cases skipped : model.viterbi prev s + trace.emission t s_prime < model.viterbi t s_prime
    · rw [if_pos skipped,if_neg (not_lt_of_gt (le.trans_lt skipped))]
    · rw [if_neg skipped]
      rfl

/-- What holds of `t` when some candidates of `prev` have been tried for some of its own. -/
structure Relaxed (trace : Trace (exactProbabilities R)) (prev t : ℕ) (seen : ℕ → ℕ → Prop) (before model : HMM (exactProbabilities R)) :
    Prop where
  same : SameAt prev before model
  most : ∀ s s_prime cost, seen s s_prime → before.pruned prev s = false → trace.transition prev s t s_prime = some cost →
    new_value trace before prev s t s_prime cost ≤ model.viterbi t s_prime
  parent : ∀ s_prime, model.pruned t s_prime = false → ∃ s cost, model.parents t s_prime = (prev,s) ∧ s < trace.size prev ∧
    before.pruned prev s = false ∧ trace.transition prev s t s_prime = some cost ∧
    model.viterbi t s_prime = new_value trace before prev s t s_prime cost
  impossible : ∀ s_prime, model.pruned t s_prime = true → model.viterbi t s_prime = ⊥

variable {seen seen' : ℕ → ℕ → Prop}

private theorem Relaxed.mono (relaxed : Relaxed trace prev t seen before model) (less : ∀ s s_prime, seen' s s_prime → seen s s_prime) :
    Relaxed trace prev t seen' before model :=
  ⟨relaxed.same,fun s s_prime cost member => relaxed.most s s_prime cost (less s s_prime member),relaxed.parent,relaxed.impossible⟩

private theorem relaxCandidate_relaxed [IsOrderedAddMonoid R] (numbers : Numbers trace) (other : prev ≠ t) (inside : s < trace.size prev)
    (live : before.pruned prev s = false) (relaxed : Relaxed trace prev t seen before model) (s_prime : ℕ) :
    Relaxed trace prev t (fun a b => seen a b ∨ a = s ∧ b = s_prime) before (relaxCandidate trace prev t s model s_prime) := by
  have value : ∀ cost, new_value trace model prev s t s_prime cost = new_value trace before prev s t s_prime cost := by
    intro cost
    rw [new_value,new_value,relaxed.same.viterbi]
  have same : SameAt prev before (relaxCandidate trace prev t s model s_prime) := relaxed.same.trans (relaxCandidate_sameAt other s_prime)
  rw [relaxCandidate_numbers numbers] at same ⊢
  cases found : trace.transition prev s t s_prime with
  | none =>
    refine ⟨relaxed.same,?_,relaxed.parent,relaxed.impossible⟩
    rintro a b cost (old | ⟨rfl,rfl⟩) alive possible
    · exact relaxed.most a b cost old alive possible
    · rw [found] at possible
      exact absurd possible (Option.some_ne_none cost).symm
  | some cost =>
    rw [found] at same
    simp only [value] at same ⊢
    by_cases better : model.viterbi t s_prime < new_value trace before prev s t s_prime cost
    · rw [if_pos better] at same ⊢
      obtain ⟨best,parents,_⟩ := improved_self model prev s t s_prime (new_value trace before prev s t s_prime cost)
      refine ⟨same,fun a b cost' member alive possible => ?_,fun b now => ?_,fun b now => ?_⟩
      · by_cases here : b = s_prime
        · subst here
          rw [best]
          rcases member with old | ⟨rfl,_⟩
          · exact (relaxed.most a b cost' old alive possible).trans better.le
          · rw [found] at possible
            exact (congrArg (new_value trace before prev a t b) (Option.some.inj possible)).ge
        · rw [(improved_other here).1]
          exact relaxed.most a b cost' (member.resolve_right fun both => here both.2) alive possible
      · by_cases here : b = s_prime
        · subst here
          exact ⟨s,cost,parents,inside,live,found,best⟩
        · rw [(improved_other here).2.2] at now
          rw [(improved_other here).1,(improved_other here).2.1]
          exact relaxed.parent b now
      · by_cases here : b = s_prime
        · rw [here,(improved_self model prev s t s_prime _).2.2] at now
          exact Bool.noConfusion now
        · rw [(improved_other here).2.2] at now
          rw [(improved_other here).1]
          exact relaxed.impossible b now
    · rw [if_neg better]
      refine ⟨relaxed.same,?_,relaxed.parent,relaxed.impossible⟩
      rintro a b cost' (old | ⟨rfl,rfl⟩) alive possible
      · exact relaxed.most a b cost' old alive possible
      · rw [found] at possible
        exact (congrArg (new_value trace before prev a t b) (Option.some.inj possible)).ge.trans (not_lt.mp better)

private theorem relaxPoint_relaxed [IsOrderedAddMonoid R] (numbers : Numbers trace) (other : prev ≠ t) (untouched : Untouched t before) :
    Relaxed trace prev t (fun s s_prime => s ∈ List.range (trace.size prev) ∧ before.pruned prev s = false ∧ s_prime < trace.size t) before
      (relaxPoint trace prev t before) := by
  unfold relaxPoint
  refine foldl_invariant (fun done model =>
    Relaxed trace prev t (fun s s_prime => s ∈ done ∧ before.pruned prev s = false ∧ s_prime < trace.size t) before model) _ ?_ before ?_
  · intro done model s member relaxed
    by_cases lost : model.pruned prev s = true
    · rw [if_pos lost]
      refine relaxed.mono fun a b now => ?_
      obtain ⟨here,alive,below⟩ := now
      cases mem_append.mp here with
      | inl old => exact ⟨old,alive,below⟩
      | inr last =>
        rw [relaxed.same.pruned,← mem_singleton.mp last,alive] at lost
        exact Bool.noConfusion lost
    · rw [if_neg lost]
      have inside : s < trace.size prev := mem_range.mp member
      have live : before.pruned prev s = false := by
        rw [← relaxed.same.pruned]
        simpa using lost
      have inner : Relaxed trace prev t (fun a b => (a ∈ done ∧ before.pruned prev a = false ∧ b < trace.size t) ∨
          a = s ∧ b ∈ List.range (trace.size t)) before ((List.range (trace.size t)).foldl (relaxCandidate trace prev t s) model) := by
        refine foldl_invariant (fun tried model => Relaxed trace prev t (fun a b => (a ∈ done ∧ before.pruned prev a = false ∧
          b < trace.size t) ∨ a = s ∧ b ∈ tried) before model) _ ?_ model (relaxed.mono fun a b now => ?_)
        · intro tried model s_prime _ relaxed
          refine (relaxCandidate_relaxed numbers other inside live relaxed s_prime).mono fun a b now => ?_
          rcases now with old | ⟨rfl,here⟩
          · exact .inl (.inl old)
          · cases mem_append.mp here with
            | inl old => exact .inl (.inr ⟨rfl,old⟩)
            | inr last => exact .inr ⟨rfl,mem_singleton.mp last⟩
        · exact now.resolve_right fun none => not_mem_nil none.2
      refine inner.mono fun a b now => ?_
      obtain ⟨here,alive,below⟩ := now
      cases mem_append.mp here with
      | inl old => exact .inl ⟨old,alive,below⟩
      | inr last => exact .inr ⟨mem_singleton.mp last,mem_range.mpr below⟩
  · refine ⟨SameAt.refl prev before,fun s s_prime cost none => absurd none.1 not_mem_nil,?_,fun s_prime _ => untouched.viterbi s_prime⟩
    intro s_prime live
    rw [untouched.pruned] at live
    exact Bool.noConfusion live

theorem relaxPoint_optimal [IsOrderedAddMonoid R] (numbers : Numbers trace) (other : prev ≠ t) (untouched : Untouched t before)
    (possible : ∀ s, before.pruned prev s = false → before.viterbi prev s ≠ ⊥) :
    Optimal trace prev t (relaxPoint trace prev t before) := by
  have relaxed := relaxPoint_relaxed numbers other untouched
  generalize relaxPoint trace prev t before = model at relaxed ⊢
  have same : ∀ s_prime, reaching trace prev t model s_prime = reaching trace prev t before s_prime := reaching_sameAt relaxed.same
  have most : ∀ s_prime < trace.size t, ∀ v ∈ reaching trace prev t before s_prime, v ≤ model.viterbi t s_prime := by
    rintro s_prime inside v ⟨s,cost,here,live,found,rfl⟩
    exact relaxed.most s s_prime cost ⟨mem_range.mpr here,live,inside⟩ live found
  have attained : ∀ s_prime, model.pruned t s_prime = false → model.viterbi t s_prime ∈ reaching trace prev t before s_prime := by
    intro s_prime live
    obtain ⟨s,cost,_,here,alive,found,value⟩ := relaxed.parent s_prime live
    exact ⟨s,cost,here,alive,found,value⟩
  refine ⟨?_,?_,?_,fun s_prime _ => relaxed.impossible s_prime⟩
  · intro s_prime inside live
    rw [same]
    exact ⟨attained s_prime live,fun v member => most s_prime inside v member⟩
  · intro s_prime _ live
    rw [relaxed.same.viterbi,relaxed.same.pruned]
    exact relaxed.parent s_prime live
  · intro s_prime inside
    rw [same,Set.eq_empty_iff_forall_notMem]
    constructor
    · intro lost v member
      have le := most s_prime inside v member
      rw [relaxed.impossible s_prime lost,le_bot_iff] at le
      obtain ⟨s,cost,_,live,found,value⟩ := member
      -- a sum is impossible only where one of its parts is
      rw [value,WithBot.add_eq_bot,WithBot.add_eq_bot] at le
      rcases le with (none | none) | none
      · exact possible s live none
      · exact numbers.emission_ne_bot t s_prime none
      · exact numbers.transition_ne_bot found none
    · intro nothing
      by_contra live
      exact nothing _ (attained s_prime (by simpa using live))

structure Starts (trace : Trace (exactProbabilities R)) (t : ℕ) (model : HMM (exactProbabilities R)) : Prop where
  viterbi : ∀ s < trace.size t, model.viterbi t s = trace.emission t s
  parent : ∀ s < trace.size t, model.parents t s = (t,s)
  pruned : ∀ s < trace.size t, model.pruned t s = false

theorem Starts.sameAt (starts : Starts trace t model) (same : SameAt t model model') : Starts trace t model' :=
  ⟨by rw [same.viterbi]; exact starts.viterbi,by rw [same.parents]; exact starts.parent,by rw [same.pruned]; exact starts.pruned⟩

private theorem initializePoint_starts (numbers : Numbers trace) (t : ℕ) (model : HMM (exactProbabilities R)) :
    Starts trace t (initializePoint trace t model) := by
  have made : ∀ s ∈ List.range (trace.size t), (initializePoint trace t model).viterbi t s = trace.emission t s ∧
      (initializePoint trace t model).parents t s = (t,s) ∧ (initializePoint trace t model).pruned t s = false := by
    unfold initializePoint
    refine foldl_invariant (fun done model => ∀ s ∈ done, model.viterbi t s = trace.emission t s ∧ model.parents t s = (t,s) ∧
      model.pruned t s = false) _ ?_ model (by simp)
    intro done model last _ known s member
    simp only [initializeCandidate,assign_apply,true_and]
    by_cases here : s = last
    · rw [if_pos here,if_pos here,if_pos here,here]
      exact ⟨rfl,rfl,numbers.emission_likely t last⟩
    · rw [if_neg here,if_neg here,if_neg here]
      exact known s ((mem_append.mp member).resolve_right fun new => here (mem_singleton.mp new))
  exact ⟨fun s inside => (made s (mem_range.mpr inside)).1,fun s inside => (made s (mem_range.mpr inside)).2.1,
    fun s inside => (made s (mem_range.mpr inside)).2.2⟩

omit [AddCommGroup R] [LinearOrder R] in
private theorem initializePoints_sameAt {P : LogProbabilities} {trace : Trace P} {l : List ℕ} {t : ℕ} (other : t ∉ l) (model : HMM P) :
    SameAt t model (initializePoints trace l model).1 := by
  induction l generalizing model with
  | nil => exact SameAt.refl t model
  | cons t' rest ih =>
    have same : SameAt t model (initializePoint trace t' model) := initializePoint_sameAt (ne_of_not_mem_cons other)
    rw [initializePoints]
    by_cases last : rest = []
    · rw [if_pos last]
      exact same
    · rw [if_neg last]
      cases broken : (initializePoint trace t' model).breakage t' with
      | false =>
        rw [if_neg Bool.false_ne_true]
        exact same
      | true =>
        rw [if_pos rfl]
        exact same.trans (ih (not_mem_of_not_mem_cons other) _)

theorem initialize_starts (numbers : Numbers trace) {k : ℕ} (untouched : ∀ t, k ≤ t → Untouched t model) :
    ∀ t, k ≤ t → (Initialize trace k model).1.breakage t = false → Starts trace t (Initialize trace k model).1 := by
  unfold Initialize
  generalize trace.candidates.length - k = c
  -- a later point is as it was
  have only : ∀ {k : ℕ} {model : HMM (exactProbabilities R)}, (∀ t, k ≤ t → Untouched t model) → ∀ t, k ≤ t →
      (initializePoint trace k model).breakage t = false → Starts trace t (initializePoint trace k model) := by
    intro k model untouched t above live
    by_cases here : t = k
    · subst here
      exact initializePoint_starts numbers t model
    · rw [((untouched t above).sameAt (initializePoint_sameAt here)).breakage] at live
      exact Bool.noConfusion live
  induction c generalizing k model with
  | zero =>
    intro t above live
    rw [show (initializePoints trace (List.range' k 0) model).1 = model from rfl,(untouched t above).breakage] at live
    exact Bool.noConfusion live
  | succ c ih =>
    rw [range'_succ,initializePoints]
    by_cases last : List.range' (k + 1) c = []
    · rw [if_pos last]
      exact only untouched
    · rw [if_neg last]
      cases broken : (initializePoint trace k model).breakage k with
      | false =>
        rw [if_neg Bool.false_ne_true]
        exact only untouched
      | true =>
        rw [if_pos rfl]
        have later : ∀ t, k + 1 ≤ t → Untouched t (initializePoint trace k model) :=
          fun t after => (untouched t (by omega)).sameAt (initializePoint_sameAt (by omega))
        intro t above live
        rcases Nat.eq_or_lt_of_le above with rfl | after
        · have same : SameAt k (initializePoint trace k model) (initializePoints trace (List.range' (k + 1) c) (initializePoint trace k model)).1 :=
            initializePoints_sameAt (by simp) _
          rw [same.breakage,broken] at live
          exact Bool.noConfusion live
        · exact ih later t after live

end Osrm.LikelyCandidates
