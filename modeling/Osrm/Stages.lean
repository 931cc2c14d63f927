import Mathlib.Algebra.Order.Monoid.Defs
import Mathlib.Order.Bounds.Basic

/-!
A choice is made at each stage of a chain. It has a value of its own, and so has each step from a choice to the next
one, where there is such a step at all.
-/
namespace Osrm.Stages
open List Option

structure Trellis (ι σ V : Type*) where
  choice : ι → σ → Prop
  value : ι → σ → V
  step : ι → σ → ι → σ → Option V

variable {ι σ V : Type*} [AddCommMonoid V] (trellis : Trellis ι σ V)

/-- The values of some choices and of the steps between them; a step that does not exist leaves no total. -/
def total : List (ι × σ) → Option V
  | [] => some 0
  | [a] => some (trellis.value a.1 a.2)
  | a :: a' :: rest =>
    (trellis.step a.1 a.2 a'.1 a'.2).bind fun cost => (total (a' :: rest)).map fun later => trellis.value a.1 a.2 + cost + later

def totals (chain : List ι) : Set V :=
  {v | ∃ points, points.map Prod.fst = chain ∧ (∀ a ∈ points, trellis.choice a.1 a.2) ∧ total trellis points = some v}
def totalsTo (chain : List ι) (t : ι) (s : σ) : Set V :=
  {v | ∃ points, points.map Prod.fst = chain ∧ (∀ a ∈ points, trellis.choice a.1 a.2) ∧ total trellis (points ++ [(t,s)]) = some v}
/-- What the choices of one stage, as far as they are alive, give for one choice of another stage. -/
def arrivals (t : ι) (live : σ → Prop) (best : σ → V) (t' : ι) (s' : σ) : Set V :=
  {v | ∃ s cost, trellis.choice t s ∧ live s ∧ trellis.step t s t' s' = some cost ∧ v = best s + trellis.value t' s' + cost}

variable {trellis} {chain : List ι} {t t' : ι} {s s' : σ} {v : V}

theorem total_concat (points : List (ι × σ)) (a a' : ι × σ) : total trellis (points ++ [a] ++ [a']) =
    (total trellis (points ++ [a])).bind fun v =>
      (trellis.step a.1 a.2 a'.1 a'.2).map fun cost => v + trellis.value a'.1 a'.2 + cost := by
  induction points with
  | nil =>
    cases here : trellis.step a.1 a.2 a'.1 a'.2 with
    | none => simp [total,here]
    | some cost => simp [total,here,add_right_comm]
  | cons first rest ih =>
    cases rest with
    | nil =>
      cases here : trellis.step first.1 first.2 a.1 a.2 with
      | none => simp [total,here]
      | some cost =>
        cases there : trellis.step a.1 a.2 a'.1 a'.2 with
        | none => simp [total,here,there]
        | some cost' => simp [total,here,there,add_assoc,add_comm,add_left_comm]
    | cons second rest =>
      simp only [cons_append] at ih ⊢
      rw [total,total,ih]
      cases here : trellis.step first.1 first.2 second.1 second.2 with
      | none => simp
      | some cost =>
        cases there : total trellis (second :: (rest ++ [a])) with
        | none => simp
        | some later =>
          cases last : trellis.step a.1 a.2 a'.1 a'.2 with
          | none => simp
          | some cost' => simp [add_assoc]

private theorem along_concat {points : List (ι × σ)} (along : points.map Prod.fst = chain ++ [t]) :
    ∃ before a, points = before ++ [a] ∧ before.map Prod.fst = chain ∧ a.1 = t := by
  obtain ⟨before,last,rfl,earlier,single⟩ := map_eq_append_iff.mp along
  obtain ⟨a,rfl,here⟩ := map_eq_singleton_iff.mp single
  exact ⟨before,a,rfl,earlier,here⟩

private theorem totalsTo_nil : totalsTo trellis [] t s = {trellis.value t s} := by
  ext v
  simp only [totalsTo,Set.mem_ofPred_eq,map_eq_nil_iff,Set.mem_singleton_iff]
  constructor
  · rintro ⟨points,rfl,_,known⟩
    simpa [total,eq_comm] using known
  · rintro rfl
    exact ⟨[],rfl,by simp,rfl⟩

private theorem mem_totalsTo_concat : v ∈ totalsTo trellis (chain ++ [t]) t' s' ↔
    ∃ s u cost, trellis.choice t s ∧ u ∈ totalsTo trellis chain t s ∧ trellis.step t s t' s' = some cost ∧
      v = u + trellis.value t' s' + cost := by
  constructor
  · rintro ⟨points,along,chosen,known⟩
    obtain ⟨before,a,rfl,rfl,rfl⟩ := along_concat along
    rw [total_concat,bind_eq_some_iff] at known
    obtain ⟨u,earlier,step⟩ := known
    obtain ⟨cost,possible,rfl⟩ := map_eq_some_iff.mp step
    have here := chosen a (by simp)
    exact ⟨a.2,u,cost,here,⟨before,rfl,fun a' member => chosen a' (mem_append_left _ member),earlier⟩,possible,rfl⟩
  · rintro ⟨s,u,cost,here,⟨points,rfl,chosen,known⟩,possible,rfl⟩
    refine ⟨points ++ [(t,s)],by simp,forall_mem_append.mpr ⟨chosen,by simpa using here⟩,?_⟩
    rw [total_concat,known,bind_some,possible,map_some]

private theorem mem_totals_concat : v ∈ totals trellis (chain ++ [t]) ↔ ∃ s, trellis.choice t s ∧ v ∈ totalsTo trellis chain t s := by
  constructor
  · rintro ⟨points,along,chosen,known⟩
    obtain ⟨before,a,rfl,rfl,rfl⟩ := along_concat along
    exact ⟨a.2,chosen a (by simp),before,rfl,fun a' member => chosen a' (mem_append_left _ member),known⟩
  · rintro ⟨s,here,points,rfl,chosen,known⟩
    exact ⟨points ++ [(t,s)],by simp,forall_mem_append.mpr ⟨chosen,by simpa using here⟩,known⟩

/-- The greatest total up to each choice of a stage that is alive; no choices lead to one that is not. -/
structure Table [Preorder V] (trellis : Trellis ι σ V) (chain : List ι) (t : ι) (live : σ → Prop) (best : σ → V) : Prop where
  dead : ∀ s, trellis.choice t s → ¬ live s → totalsTo trellis chain t s = ∅
  greatest : ∀ s, trellis.choice t s → live s → IsGreatest (totalsTo trellis chain t s) (best s)

section Tables
variable [PartialOrder V] {live live' : σ → Prop} {best best' : σ → V}

theorem Table.start (alive : ∀ s, trellis.choice t s → live s) (values : ∀ s, trellis.choice t s → best s = trellis.value t s) :
    Table trellis [] t live best := by
  refine ⟨fun s here dead => absurd (alive s here) dead,fun s here _ => ?_⟩
  rw [totalsTo_nil,values s here]
  exact isGreatest_singleton

theorem Table.next [IsOrderedAddMonoid V] (table : Table trellis chain t live best)
    (dead : ∀ s', trellis.choice t' s' → ¬ live' s' → arrivals trellis t live best t' s' = ∅)
    (greatest : ∀ s', trellis.choice t' s' → live' s' → IsGreatest (arrivals trellis t live best t' s') (best' s')) :
    Table trellis (chain ++ [t]) t' live' best' := by
  -- whatever leads to a choice, the greatest total of the stage before it does so too
  have arrives : ∀ s' v, v ∈ totalsTo trellis (chain ++ [t]) t' s' → ∃ u ∈ arrivals trellis t live best t' s', v ≤ u := by
    intro s' v member
    obtain ⟨s,u,cost,here,earlier,possible,rfl⟩ := mem_totalsTo_concat.mp member
    have alive : live s := by
      by_contra lost
      rw [table.dead s here lost] at earlier
      exact earlier
    refine ⟨_,⟨s,cost,here,alive,possible,rfl⟩,?_⟩
    have most := (table.greatest s here alive).2 earlier
    gcongr
  refine ⟨fun s' here lost => ?_,fun s' here alive => ⟨?_,?_⟩⟩
  · rw [Set.eq_empty_iff_forall_notMem]
    intro v member
    obtain ⟨u,arrived,_⟩ := arrives s' v member
    rw [dead s' here lost] at arrived
    exact arrived
  · obtain ⟨s,cost,before,alive,possible,same⟩ := (greatest s' here alive).1
    rw [same]
    exact mem_totalsTo_concat.mpr ⟨s,best s,cost,before,(table.greatest s before alive).1,possible,rfl⟩
  · intro v member
    obtain ⟨u,arrived,le⟩ := arrives s' v member
    exact le.trans ((greatest s' here alive).2 arrived)

theorem Table.whole (table : Table trellis chain t live best) (here : trellis.choice t s) (alive : live s)
    (most : ∀ s', trellis.choice t s' → live s' → best s' ≤ best s) : IsGreatest (totals trellis (chain ++ [t])) (best s) := by
  constructor
  · exact mem_totals_concat.mpr ⟨s,here,(table.greatest s here alive).1⟩
  · intro v member
    obtain ⟨s',there,known⟩ := mem_totals_concat.mp member
    have alive' : live s' := by
      by_contra lost
      rw [table.dead s' there lost] at known
      exact known
    exact ((table.greatest s' there alive').2 known).trans (most s' there alive')

end Tables

end Osrm.Stages
