import Osrm.Walks

/-!
Label-setting searches seen through their labels. A label is settled or pending;
a settled label was handed on along the arcs of its node. Following a walk from a
labelled node one then ends at a settled label of its end or meets a pending one
on the way, and neither is heavier than the walk so far.
-/
namespace Osrm.Labels
open Walks
universe u
variable {V : Type u} {A : Arcs V} {x y : V} {n : ℤ}

theorem frontier (Settled Pending : V → ℤ → Prop) (limit : ℤ) (positive : Positive A)
    (relaxed : ∀ x k, Settled x k → k ≤ limit → ∀ y w, A x y w → ∃ k' ≤ k + w, Settled y k' ∨ Pending y k')
    (walk : Walk A x y n) : ∀ o k, Settled x k ∨ Pending x k → k ≤ o → o + n ≤ limit →
      (∃ k ≤ o + n, Settled y k) ∨ ∃ z k m, Pending z k ∧ Walk A z y m ∧ k + m ≤ o + n := by
  induction walk with
  | nil x =>
    intro o k label le _
    rcases label with settled | pending
    · exact .inl ⟨k,by omega,settled⟩
    · exact .inr ⟨x,k,0,pending,.nil x,by omega⟩
  | @cons a b c w n arc rest ih =>
    intro o k label le bound
    rcases label with settled | pending
    · have tail := rest.nonneg positive
      have first := positive _ _ _ arc
      obtain ⟨k',le',label'⟩ := relaxed a k settled (by omega) b w arc
      simpa [add_assoc] using ih (o + w) k' label' (by omega) (by omega)
    · exact .inr ⟨a,k,w + n,pending,.cons arc rest,by omega⟩

/-- The same for a search that leaves a settled label alone once it knows a lighter one of the node. -/
theorem frontier_optimal (Settled Pending Sound : V → ℤ → Prop) (limit : ℤ) (positive : Positive A)
    (extend : ∀ x k y w, Sound x k → A x y w → Sound y (k + w))
    (relaxed : ∀ x k, Settled x k → k ≤ limit → (∃ k' < k, Sound x k') ∨
      ∀ y w, A x y w → ∃ k' ≤ k + w, Settled y k' ∨ Pending y k')
    (walk : Walk A x y n) : ∀ o k, Settled x k ∨ Pending x k → k ≤ o → o + n ≤ limit →
      (∀ k, Sound y k → o + n ≤ k) →
      (∃ k ≤ o + n, Settled y k) ∨ ∃ z k m, Pending z k ∧ Walk A z y m ∧ k + m ≤ o + n := by
  induction walk with
  | nil x =>
    intro o k label le _ _
    rcases label with settled | pending
    · exact .inl ⟨k,by omega,settled⟩
    · exact .inr ⟨x,k,0,pending,.nil x,by omega⟩
  | @cons a b c w n arc rest ih =>
    intro o k label le bound optimal
    have reach : ∀ {x y : V} {n k : ℤ}, Walk A x y n → Sound x k → Sound y (k + n) := by
      intro x y n k walk
      induction walk generalizing k with
      | nil => intro start; simpa using start
      | cons arc _ ih => intro start; simpa [add_assoc] using ih (extend _ _ _ _ start arc)
    rcases label with settled | pending
    · have tail := rest.nonneg positive
      have first := positive _ _ _ arc
      rcases relaxed a k settled (by omega) with ⟨k',less,lighter⟩ | handed
      · have := optimal _ (reach (.cons arc rest) lighter)
        omega
      · obtain ⟨k',le',label'⟩ := handed b w arc
        simpa [add_assoc] using ih (o + w) k' label' (by omega) (by omega)
          (fun k'' sound => by have := optimal k'' sound; omega)
    · exact .inr ⟨a,k,w + n,pending,.cons arc rest,by omega⟩

end Osrm.Labels
