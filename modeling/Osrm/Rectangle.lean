import Mathlib.Tactic

/-!
`util::RectangleInt2D` and the coordinates it is made of. Coordinates are fixed-point numbers; their differences and
squares are taken without the bounds of the machine types.
-/
namespace Osrm.Rectangle

structure Coordinate where
  lon : ℤ
  lat : ℤ
  deriving DecidableEq, Repr

/-- `coordinate_calculation::squaredEuclideanDistance`. -/
def squaredEuclideanDistance (lhs rhs : Coordinate) : ℕ :=
  ((lhs.lon - rhs.lon) * (lhs.lon - rhs.lon) + (lhs.lat - rhs.lat) * (lhs.lat - rhs.lat)).toNat

structure RectangleInt2D where
  min_lon : ℤ
  max_lon : ℤ
  min_lat : ℤ
  max_lat : ℤ
  deriving DecidableEq, Repr

namespace RectangleInt2D

/-- The rectangle that `RectangleInt2D()` starts from, with the extreme values of the 32-bit numbers. -/
def empty : RectangleInt2D := ⟨2 ^ 31 - 1,-2 ^ 31,2 ^ 31 - 1,-2 ^ 31⟩

variable (rectangle other : RectangleInt2D)

def MergeBoundingBoxes : RectangleInt2D :=
  ⟨min rectangle.min_lon other.min_lon,max rectangle.max_lon other.max_lon,min rectangle.min_lat other.min_lat,
    max rectangle.max_lat other.max_lat⟩
def Intersects : Bool :=
  !(rectangle.max_lon < other.min_lon || rectangle.min_lon > other.max_lon || rectangle.max_lat < other.min_lat ||
    rectangle.min_lat > other.max_lat)
def Contains (location : Coordinate) : Bool :=
  location.lon ≥ rectangle.min_lon && location.lon ≤ rectangle.max_lon && location.lat ≥ rectangle.min_lat &&
    location.lat ≤ rectangle.max_lat

/-- `GetMinSquaredDist`; the side of the rectangle on which the location lies decides which point of it is closest. -/
def GetMinSquaredDist (location : Coordinate) : ℕ :=
  if rectangle.Contains location then 0
  else squaredEuclideanDistance location
    ⟨if location.lon > rectangle.max_lon then rectangle.max_lon
      else if location.lon < rectangle.min_lon then rectangle.min_lon else location.lon,
      if location.lat > rectangle.max_lat then rectangle.max_lat
      else if location.lat < rectangle.min_lat then rectangle.min_lat else location.lat⟩

def ofPoints (u v : Coordinate) : RectangleInt2D := ⟨min u.lon v.lon,max u.lon v.lon,min u.lat v.lat,max u.lat v.lat⟩

structure Within (inner outer : RectangleInt2D) : Prop where
  min_lon : outer.min_lon ≤ inner.min_lon
  max_lon : inner.max_lon ≤ outer.max_lon
  min_lat : outer.min_lat ≤ inner.min_lat
  max_lat : inner.max_lat ≤ outer.max_lat

def mergeAll (rectangles : List RectangleInt2D) : RectangleInt2D := rectangles.foldl MergeBoundingBoxes empty

variable {rectangle other} {inner outer : RectangleInt2D} {rectangles : List RectangleInt2D} {location p : Coordinate}

theorem Within.trans (one : Within inner other) (two : Within other outer) : Within inner outer :=
  ⟨two.min_lon.trans one.min_lon,one.max_lon.trans two.max_lon,two.min_lat.trans one.min_lat,one.max_lat.trans two.max_lat⟩

theorem within_mergeAll (member : inner ∈ rectangles) : Within inner (mergeAll rectangles) := by
  have grows : ∀ (l : List RectangleInt2D) (start : RectangleInt2D), Within start (l.foldl MergeBoundingBoxes start) := by
    intro l
    induction l with
    | nil => exact fun start => ⟨le_rfl,le_rfl,le_rfl,le_rfl⟩
    | cons r rest ih =>
      intro start
      have first : Within start (start.MergeBoundingBoxes r) :=
        ⟨min_le_left _ _,le_max_left _ _,min_le_left _ _,le_max_left _ _⟩
      exact first.trans (ih _)
  unfold mergeAll
  generalize empty = start
  induction rectangles generalizing start with
  | nil => simp at member
  | cons r rest ih =>
    rcases List.mem_cons.mp member with rfl | later
    · have first : Within inner (start.MergeBoundingBoxes inner) :=
        ⟨min_le_right _ _,le_max_right _ _,min_le_right _ _,le_max_right _ _⟩
      exact first.trans (grows rest _)
    · exact ih later _

theorem intersects_iff : rectangle.Intersects other = true ↔ other.min_lon ≤ rectangle.max_lon ∧
    rectangle.min_lon ≤ other.max_lon ∧ other.min_lat ≤ rectangle.max_lat ∧ rectangle.min_lat ≤ other.max_lat := by
  simp [Intersects,and_assoc]

theorem Within.intersects (lies : Within inner outer) (meets : inner.Intersects other = true) : outer.Intersects other = true := by
  obtain ⟨a,b,c,d⟩ := lies
  rw [intersects_iff] at meets ⊢
  lia

theorem contains_iff : rectangle.Contains p = true ↔
    rectangle.min_lon ≤ p.lon ∧ p.lon ≤ rectangle.max_lon ∧ rectangle.min_lat ≤ p.lat ∧ p.lat ≤ rectangle.max_lat := by
  simp [Contains,and_assoc]

theorem Within.contains (lies : Within inner outer) (inside : inner.Contains p = true) : outer.Contains p = true := by
  obtain ⟨a,b,c,d⟩ := lies
  rw [contains_iff] at inside ⊢
  lia

private theorem square_le {x y : ℤ} (order : 0 ≤ x ∧ x ≤ y ∨ y ≤ x ∧ x ≤ 0) : x * x ≤ y * y := by
  rcases order with ⟨low,high⟩ | ⟨low,high⟩
  · nlinarith
  · nlinarith

theorem minSquaredDist_le (inside : rectangle.Contains p = true) :
    rectangle.GetMinSquaredDist location ≤ squaredEuclideanDistance location p := by
  unfold GetMinSquaredDist
  split
  · exact Nat.zero_le _
  · obtain ⟨west,east,south,north⟩ := contains_iff.mp inside
    refine Int.toNat_le_toNat (add_le_add (square_le ?_) (square_le ?_))
    · dsimp only
      split
      · lia
      · split
        · lia
        · lia
    · dsimp only
      split
      · lia
      · split
        · lia
        · lia

end RectangleInt2D

end Osrm.Rectangle
