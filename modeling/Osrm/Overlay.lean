import Osrm.Walks

/-!
Overlay graphs in the abstract. Some nodes are grouped into cells; an overlay drops the arcs inside the cells and
adds, between the nodes through which a walk can enter or leave a cell, arcs as heavy as the lightest way through the
cell.
-/
namespace Osrm.Overlay
open Walks
universe u
variable {V : Type u} {A clique : Arcs V} {inside : V → V → Prop} {visible : V → Prop}

def border (A : Arcs V) (inside : V → V → Prop) : Arcs V := fun u v w => A u v w ∧ ¬ inside u v
/-- The arcs that leave the insides and those of the cells. -/
def overlay (A clique : Arcs V) (inside : V → V → Prop) : Arcs V := fun u v w => border A inside u v w ∨ clique u v w

/-- What makes an overlay keep distances. A node of no cell is not `inside` itself. -/
structure Covers (A clique : Arcs V) (inside : V → V → Prop) (visible : V → Prop) : Prop where
  positive : Positive A
  symm : ∀ {x y}, inside x y → inside y x
  trans : ∀ {x y z}, inside x y → inside y z → inside x z
  ends : ∀ x y w, A x y w → ¬ inside x y → visible x ∧ visible y
  through : ∀ x y k, visible x → visible y → inside x y → x ≠ y → Walk (within (inside x) A) x y k →
    ∃ w ≤ k, clique x y w

theorem Covers.lift (covers : Covers A clique inside visible) {x y : V} {n : ℤ} (start : visible x)
    (final : visible y) (walk : Walk A x y n) : ∃ m ≤ n, Walk (overlay A clique inside) x y m := by
  suffices all : ∀ n, 0 ≤ n → ∀ x, visible x → Walk A x y n → ∃ m ≤ n, Walk (overlay A clique inside) x y m from
    all n (walk.nonneg covers.positive) x start walk
  clear walk start x n
  refine weight_induction ?_
  intro n _ ih x start walk
  by_cases grouped : inside x x
  · rcases walk.exit (P := inside x) grouped with ⟨last,stays⟩ | ⟨u,z,k,w,m,inCell,stays,leave,outside,tail,total⟩
    · by_cases same : x = y
      · subst same
        exact ⟨0,stays.nonneg covers.positive.within,.nil x⟩
      · obtain ⟨w,wLe,arc⟩ := covers.through x y n start final last same stays
        exact ⟨w,wLe,.single (.inr arc)⟩
    · have leaves : ¬ inside u z := fun bad => outside (covers.trans inCell bad)
      have wPos := covers.positive _ _ _ leave
      have kNonneg := stays.nonneg covers.positive.within
      obtain ⟨uSeen,zSeen⟩ := covers.ends u z w leave leaves
      obtain ⟨m',mLe,rest⟩ := ih m (tail.nonneg covers.positive) (by omega) z zSeen tail
      have onward : Walk (overlay A clique inside) u y (w + m') := .cons (.inl ⟨leave,leaves⟩) rest
      by_cases same : x = u
      · subst same
        exact ⟨w + m',by omega,onward⟩
      · obtain ⟨c,cLe,arc⟩ := covers.through x u k start uSeen inCell same stays
        exact ⟨c + (w + m'),by omega,.cons (.inr arc) onward⟩
  · cases walk with
    | nil => exact ⟨0,le_rfl,.nil _⟩
    | @cons _ z _ w m arc tail =>
      have leaves : ¬ inside x z := fun bad => grouped (covers.trans bad (covers.symm bad))
      have wPos := covers.positive _ _ _ arc
      obtain ⟨_,zSeen⟩ := covers.ends x z w arc leaves
      obtain ⟨m',mLe,rest⟩ := ih m (tail.nonneg covers.positive) (by omega) z zSeen tail
      exact ⟨w + m',by omega,.cons (.inl ⟨arc,leaves⟩) rest⟩

private theorem lower (sound : ∀ x y w, clique x y w → Walk A x y w) {x y : V} {n : ℤ}
    (walk : Walk (overlay A clique inside) x y n) : Walk A x y n :=
  walk.expand fun u v w arc => arc.elim (fun base => .single base.1) (sound u v w)

/-- Between visible nodes the overlay keeps distances. -/
theorem Covers.shortest_iff (covers : Covers A clique inside visible)
    (sound : ∀ x y w, clique x y w → Walk A x y w) {x y : V} (start : visible x) (final : visible y) (d : ℤ) :
    Shortest (overlay A clique inside) x y d ↔ Shortest A x y d :=
  shortest_congr (fun n walk => ⟨n,le_rfl,lower sound walk⟩) (fun _ walk => covers.lift start final walk) d

end Osrm.Overlay
