import Osrm.Walks

/-!
Ways through a graph whose arcs have costs of any kind that can be added, such as a weight together with a duration and a
distance. Where one of the costs is a weight the ways are walks.
-/
namespace Osrm.Trips
open Walks

/-- `Trip A x y c`: the arcs of some way from `x` to `y` cost `c` together. -/
inductive Trip {V M : Type} [AddMonoid M] (A : V → V → M → Prop) : V → V → M → Prop
  | nil (x : V) : Trip A x x 0
  | cons {x y z : V} {c c' : M} (arc : A x y c) (rest : Trip A y z c') : Trip A x z (c + c')

section trip
variable {V M : Type} [AddMonoid M] {A B : V → V → M → Prop} {x y z : V} {c c' : M}

theorem Trip.single (arc : A x y c) : Trip A x y c := by simpa using Trip.cons arc (.nil y)

theorem Trip.append (left : Trip A x y c) (right : Trip A y z c') : Trip A x z (c + c') := by
  induction left with
  | nil => simpa using right
  | cons arc _ ih => simpa [add_assoc] using Trip.cons arc (ih right)

theorem Trip.mono (arcs : ∀ x y c, A x y c → B x y c) (trip : Trip A x y c) : Trip B x y c := by
  induction trip with
  | nil => exact .nil _
  | cons arc _ ih => exact .cons (arcs _ _ _ arc) ih

theorem Trip.walk {W : Arcs V} (weight : M →+ ℤ) (arcs : ∀ x y c, A x y c → W x y (weight c)) (trip : Trip A x y c) :
    Walk W x y (weight c) := by
  induction trip with
  | nil => simpa using Walk.nil _
  | cons arc _ ih => simpa using Walk.cons (arcs _ _ _ arc) ih

end trip

end Osrm.Trips
