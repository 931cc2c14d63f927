import Mathlib.Tactic

/-!
`engine/douglas_peucker.cpp`. Of the points between two necessary ones the farthest becomes necessary when it is too
far from the segment between them. The ranges that are not done are on a stack.
-/
namespace Osrm.DouglasPeucker
open List

abbrev GeometryRange := ℕ × ℕ

section Code
variable {P C : Type} (fromWGS84 : P → C) (fastPerpendicularDistance : C → C → C → ℕ) (threshold : ℕ)

/-- The distance of a point from the segment between two others, by their indices. -/
def distanceAt (projected_coordinates : List C) (first second idx : ℕ) : Option ℕ := do
  let start ← projected_coordinates[first]?
  let target ← projected_coordinates[second]?
  let point ← projected_coordinates[idx]?
  return fastPerpendicularDistance start target point

/-- `max_distance` and `farthest_entry_index` once a distance is known. -/
def farther (idx distance : ℕ) (best : ℕ × ℕ) : ℕ × ℕ :=
  if distance > best.1 ∧ distance > threshold then (distance,idx) else best

/-- The sweep over a range from an index on, for less than so many rounds. -/
def sweep (projected_coordinates : List C) (pair : GeometryRange) : ℕ → ℕ → ℕ × ℕ → Option (ℕ × ℕ)
  | 0, _, _ => none
  | fuel + 1, idx, best =>
    if idx ≠ pair.2 then
      (distanceAt fastPerpendicularDistance projected_coordinates pair.1 pair.2 idx).bind fun distance =>
        sweep projected_coordinates pair fuel (idx + 1) (farther threshold idx distance best)
    else some best

/-- `is_necessary[idx] = true`. -/
def mark (is_necessary : List Bool) (idx : ℕ) : Option (List Bool) :=
  if idx < is_necessary.length then some (is_necessary.set idx true) else none
/-- The ranges on both sides of a point, the second one on top of the stack. -/
def divide (pair : GeometryRange) (farthest_entry_index : ℕ) (recursion_stack : List GeometryRange) : List GeometryRange :=
  let recursion_stack := if pair.1 < farthest_entry_index then (pair.1,farthest_entry_index) :: recursion_stack else recursion_stack
  if farthest_entry_index < pair.2 then (farthest_entry_index,pair.2) :: recursion_stack else recursion_stack

/-- The loop over the stack, for at most so many ranges. -/
def markLocations (rounds : ℕ) (projected_coordinates : List C) : ℕ → List Bool → List GeometryRange → Option (List Bool)
  | _, is_necessary, [] => some is_necessary
  | 0, _, _ :: _ => none
  | fuel + 1, is_necessary, pair :: recursion_stack =>
    (sweep fastPerpendicularDistance threshold projected_coordinates pair rounds (pair.1 + 1) (0,pair.2)).bind fun best =>
      if best.1 > threshold then
        (mark is_necessary best.2).bind fun is_necessary =>
          markLocations rounds projected_coordinates fuel is_necessary (divide pair best.2 recursion_stack)
      else markLocations rounds projected_coordinates fuel is_necessary recursion_stack

def necessary (is_necessary : List Bool) : List ℕ := (List.range is_necessary.length).filter fun idx => is_necessary.getD idx false

/-- `douglasPeucker`, for a zoom level with this threshold. -/
def douglasPeucker (fuel : ℕ) (coordinates : List P) : Option (List P) :=
  let size := coordinates.length
  if size < 2 then some []
  else
    let projected_coordinates := coordinates.map fromWGS84
    let is_necessary := ((replicate size false).set 0 true).set (size - 1) true
    (markLocations fastPerpendicularDistance threshold fuel projected_coordinates fuel is_necessary [(0,size - 1)]).bind fun is_necessary =>
      (necessary is_necessary).mapM fun idx => coordinates[idx]?

end Code

example : douglasPeucker id (fun a b p => (p - (a + b) / 2) + ((a + b) / 2 - p)) 3 20 [0,1,9,1,0] = some [0,9,0] := by decide

section Sweep
variable {C : Type} {fastPerpendicularDistance : C → C → C → ℕ} {threshold : ℕ} {projected_coordinates : List C} {pair : GeometryRange}

def distance (fastPerpendicularDistance : C → C → C → ℕ) (projected_coordinates : List C) (pair : GeometryRange) (idx : ℕ) : ℕ :=
  (distanceAt fastPerpendicularDistance projected_coordinates pair.1 pair.2 idx).getD 0

private theorem distanceAt_eq {idx : ℕ} (first : pair.1 < projected_coordinates.length) (second : pair.2 < projected_coordinates.length)
    (inside : idx < projected_coordinates.length) :
    distanceAt fastPerpendicularDistance projected_coordinates pair.1 pair.2 idx =
      some (distance fastPerpendicularDistance projected_coordinates pair idx) := by
  simp [distance,distanceAt,first,second,inside]

/-- What the sweep knows at an index: the point it has found is in the range and too far away, and none is farther. -/
structure Swept (fastPerpendicularDistance : C → C → C → ℕ) (threshold : ℕ) (projected_coordinates : List C) (pair : GeometryRange) (idx : ℕ)
    (best : ℕ × ℕ) : Prop where
  found : threshold < best.1 → pair.1 < best.2 ∧ best.2 < idx
  bound : ∀ k, pair.1 < k → k < idx → distance fastPerpendicularDistance projected_coordinates pair k ≤ max threshold best.1

private theorem Swept.next {idx : ℕ} {best : ℕ × ℕ} (swept : Swept fastPerpendicularDistance threshold projected_coordinates pair idx best)
    (after : pair.1 < idx) :
    Swept fastPerpendicularDistance threshold projected_coordinates pair (idx + 1)
      (farther threshold idx (distance fastPerpendicularDistance projected_coordinates pair idx) best) := by
  rw [farther]
  by_cases far : distance fastPerpendicularDistance projected_coordinates pair idx > best.1 ∧
      distance fastPerpendicularDistance projected_coordinates pair idx > threshold
  · rw [if_pos far]
    refine ⟨fun _ => ⟨after,Nat.lt_succ_self idx⟩,?_⟩
    intro k above below
    rcases Nat.lt_succ_iff_lt_or_eq.mp below with earlier | rfl
    · exact (swept.bound k above earlier).trans (max_le_max le_rfl far.1.le)
    · exact le_max_right ..
  · rw [if_neg far]
    refine ⟨fun exceeds => ⟨(swept.found exceeds).1,Nat.lt_succ_of_lt (swept.found exceeds).2⟩,?_⟩
    intro k above below
    rcases Nat.lt_succ_iff_lt_or_eq.mp below with earlier | rfl
    · exact swept.bound k above earlier
    · by_contra exceeds
      rw [not_le,max_lt_iff] at exceeds
      exact far ⟨exceeds.2,exceeds.1⟩

private theorem sweep_spec (second : pair.2 < projected_coordinates.length) {fuel idx : ℕ} {best : ℕ × ℕ} (after : pair.1 < idx) (before : idx ≤ pair.2)
    (enough : pair.2 < idx + fuel) (swept : Swept fastPerpendicularDistance threshold projected_coordinates pair idx best) :
    ∃ result, sweep fastPerpendicularDistance threshold projected_coordinates pair fuel idx best = some result ∧
      Swept fastPerpendicularDistance threshold projected_coordinates pair pair.2 result := by
  induction fuel generalizing idx best with
  | zero => omega
  | succ fuel ih =>
    rw [sweep]
    by_cases more : idx ≠ pair.2
    · have inside : idx < pair.2 := Nat.lt_of_le_of_ne before more
      rw [if_pos more,distanceAt_eq (by omega) second (by omega)]
      exact ih (Nat.lt_succ_of_lt after) inside (by omega) (swept.next after)
    · rw [if_neg more]
      rw [not_ne_iff] at more
      exact ⟨best,rfl,more ▸ swept⟩

end Sweep

/-! ### The stack -/

def Kept (is_necessary : List Bool) (idx : ℕ) : Prop := is_necessary[idx]? = some true

private theorem kept_set {is_necessary : List Bool} {idx : ℕ} (inside : idx < is_necessary.length) (k : ℕ) :
    Kept (is_necessary.set idx true) k ↔ k = idx ∨ Kept is_necessary k := by
  rw [Kept,Kept,getElem?_set]
  by_cases same : idx = k
  · simp [same ▸ inside,same]
  · simp [same,Ne.symm same]

structure Gap (is_necessary : List Bool) (pair : GeometryRange) : Prop where
  left : Kept is_necessary pair.1
  right : Kept is_necessary pair.2
  ordered : pair.1 < pair.2
  none_between : ∀ k, pair.1 < k → k < pair.2 → ¬ Kept is_necessary k

section Divide
variable {is_necessary : List Bool} {pair other : GeometryRange} {idx : ℕ}

private theorem Kept.inside (kept : Kept is_necessary idx) : idx < is_necessary.length := (List.getElem?_eq_some_iff.mp kept).1
private theorem Gap.inside (gap : Gap is_necessary pair) (below : idx ≤ pair.2) : idx < is_necessary.length := below.trans_lt gap.right.inside

private theorem Gap.front (gap : Gap is_necessary pair) (above : pair.1 < idx) (below : idx < pair.2) :
    Gap (is_necessary.set idx true) (pair.1,idx) := by
  have set := kept_set (gap.inside below.le)
  refine ⟨(set _).mpr (.inr gap.left),(set _).mpr (.inl rfl),above,?_⟩
  intro k low high kept
  rcases (set k).mp kept with rfl | old
  · exact lt_irrefl _ high
  · exact gap.none_between k low (high.trans below) old

private theorem Gap.back (gap : Gap is_necessary pair) (above : pair.1 < idx) (below : idx < pair.2) :
    Gap (is_necessary.set idx true) (idx,pair.2) := by
  have set := kept_set (gap.inside below.le)
  refine ⟨(set _).mpr (.inl rfl),(set _).mpr (.inr gap.right),below,?_⟩
  intro k low high kept
  rcases (set k).mp kept with rfl | old
  · exact lt_irrefl _ low
  · exact gap.none_between k (above.trans low) high old

private theorem Gap.unique (gap : Gap is_necessary pair) (gap' : Gap is_necessary other) (above : pair.1 < idx) (below : idx < pair.2)
    (above' : other.1 < idx) (below' : idx < other.2) : other = pair := by
  have left : other.1 = pair.1 := by
    rcases Nat.lt_trichotomy other.1 pair.1 with less | same | greater
    · exact absurd gap.left (gap'.none_between _ less (above.trans below'))
    · exact same
    · exact absurd gap'.left (gap.none_between _ greater (above'.trans below))
  have right : other.2 = pair.2 := by
    rcases Nat.lt_trichotomy other.2 pair.2 with less | same | greater
    · exact absurd gap'.right (gap.none_between _ (above.trans below') less)
    · exact same
    · exact absurd gap.right (gap'.none_between _ (above'.trans below) greater)
  exact Prod.ext left right

private theorem Gap.stays (gap : Gap is_necessary pair) (above : pair.1 < idx) (below : idx < pair.2) (gap' : Gap is_necessary other)
    (different : other ≠ pair) : Gap (is_necessary.set idx true) other := by
  have set := kept_set (gap.inside below.le)
  refine ⟨(set _).mpr (.inr gap'.left),(set _).mpr (.inr gap'.right),gap'.ordered,?_⟩
  intro k low high kept
  rcases (set k).mp kept with rfl | old
  · exact different (gap.unique gap' above below low high)
  · exact gap'.none_between k low high old

private theorem Gap.cases (gap : Gap is_necessary pair) (above : pair.1 < idx) (below : idx < pair.2)
    (gap' : Gap (is_necessary.set idx true) other) :
    other = (pair.1,idx) ∨ other = (idx,pair.2) ∨ (Gap is_necessary other ∧ other ≠ pair) := by
  have set := kept_set (gap.inside below.le)
  have between (k : ℕ) (low : other.1 < k) (high : k < other.2) : k ≠ idx ∧ ¬ Kept is_necessary k := by
    have free := gap'.none_between k low high
    rwa [set,not_or] at free
  obtain ⟨first,second⟩ := other
  rcases (set _).mp gap'.left with isLeft | left
  · simp only at isLeft
    subst isLeft
    right
    left
    refine Prod.ext rfl ?_
    rcases (set _).mp gap'.right with same | right
    · exact absurd gap'.ordered (Nat.not_lt.mpr (le_of_eq same))
    · rcases Nat.lt_trichotomy second pair.2 with less | same | greater
      · exact absurd right (gap.none_between _ (above.trans gap'.ordered) less)
      · exact same
      · exact absurd gap.right (between _ below greater).2
  · rcases (set _).mp gap'.right with isRight | right
    · simp only at isRight
      subst isRight
      left
      refine Prod.ext ?_ rfl
      rcases Nat.lt_trichotomy first pair.1 with less | same | greater
      · exact absurd gap.left (between _ less above).2
      · exact same
      · exact absurd left (gap.none_between _ greater (gap'.ordered.trans below))
    · right
      right
      refine ⟨⟨left,right,gap'.ordered,fun k low high => (between k low high).2⟩,?_⟩
      rintro rfl
      exact (between idx above below).1 rfl

end Divide

/-- The ranges on the stack are gaps, and every point in another gap is close. -/
structure Pending (close : GeometryRange → ℕ → Prop) (is_necessary : List Bool) (recursion_stack : List GeometryRange) : Prop where
  gaps : ∀ pair ∈ recursion_stack, Gap is_necessary pair
  nodup : recursion_stack.Nodup
  rest : ∀ pair, Gap is_necessary pair → pair ∈ recursion_stack ∨ ∀ k, pair.1 < k → k < pair.2 → close pair k

section Stack
variable {close : GeometryRange → ℕ → Prop} {is_necessary : List Bool} {recursion_stack : List GeometryRange} {pair : GeometryRange} {idx : ℕ}

private theorem Pending.done (pending : Pending close is_necessary (pair :: recursion_stack))
    (near : ∀ k, pair.1 < k → k < pair.2 → close pair k) : Pending close is_necessary recursion_stack := by
  refine ⟨fun other member => pending.gaps other (.tail _ member),pending.nodup.of_cons,?_⟩
  intro other gap
  rcases pending.rest other gap with member | all
  · rcases mem_cons.mp member with rfl | later
    · exact .inr near
    · exact .inl later
  · exact .inr all

private theorem divide_eq (above : pair.1 < idx) (below : idx < pair.2) :
    divide pair idx recursion_stack = (idx,pair.2) :: (pair.1,idx) :: recursion_stack := by
  simp [divide,above,below]

private theorem Pending.divide (pending : Pending close is_necessary (pair :: recursion_stack)) (above : pair.1 < idx) (below : idx < pair.2) :
    Pending close (is_necessary.set idx true) (divide pair idx recursion_stack) := by
  have gap := pending.gaps pair (.head _)
  have fresh : ¬ Kept is_necessary idx := gap.none_between idx above below
  have different (other : GeometryRange) (member : other ∈ recursion_stack) : other ≠ pair := by
    rintro rfl
    exact (nodup_cons.mp pending.nodup).1 member
  rw [divide_eq above below]
  refine ⟨?_,?_,?_⟩
  · intro other member
    rcases mem_cons.mp member with rfl | member
    · exact gap.back above below
    · rcases mem_cons.mp member with rfl | member
      · exact gap.front above below
      · exact gap.stays above below (pending.gaps other (.tail _ member)) (different other member)
  · rw [nodup_cons,nodup_cons,mem_cons,not_or]
    refine ⟨⟨?_,fun member => fresh (pending.gaps _ (.tail _ member)).left⟩,fun member => fresh (pending.gaps _ (.tail _ member)).right,
      pending.nodup.of_cons⟩
    intro same
    exact absurd (Prod.mk.inj same).1 above.ne'
  · intro other gap'
    rcases gap.cases above below gap' with rfl | rfl | ⟨old,other_ne⟩
    · exact .inl (.tail _ (.head _))
    · exact .inl (.head _)
    · rcases pending.rest other old with member | all
      · exact .inl (.tail _ (.tail _ ((mem_cons.mp member).resolve_left other_ne)))
      · exact .inr all

def weight (recursion_stack : List GeometryRange) : ℕ := (recursion_stack.map fun pair => 2 * (pair.2 - pair.1) - 1).sum

private theorem weight_divide (recursion_stack : List GeometryRange) (above : pair.1 < idx) (below : idx < pair.2) :
    weight (divide pair idx recursion_stack) < weight (pair :: recursion_stack) := by
  rw [divide_eq above below]
  simp only [weight,map_cons,sum_cons]
  omega

private theorem weight_tail (recursion_stack : List GeometryRange) (ordered : pair.1 < pair.2) : weight recursion_stack < weight (pair :: recursion_stack) := by
  simp only [weight,map_cons,sum_cons]
  omega

end Stack

/-! ### The simplified line -/

section Simplified
variable {P C : Type} {fromWGS84 : P → C} {fastPerpendicularDistance : C → C → C → ℕ} {threshold : ℕ} {projected_coordinates : List C}
  {is_necessary : List Bool} {recursion_stack : List GeometryRange}

def Near (fastPerpendicularDistance : C → C → C → ℕ) (threshold : ℕ) (projected_coordinates : List C) (pair : GeometryRange) (idx : ℕ) : Prop :=
  distance fastPerpendicularDistance projected_coordinates pair idx ≤ threshold

private theorem markLocations_spec (fastPerpendicularDistance : C → C → C → ℕ) (threshold : ℕ) (projected_coordinates : List C) {rounds fuel : ℕ}
    (length : is_necessary.length = projected_coordinates.length)
    (sweeps : projected_coordinates.length ≤ rounds) (enough : weight recursion_stack ≤ fuel)
    (pending : Pending (Near fastPerpendicularDistance threshold projected_coordinates) is_necessary recursion_stack) :
    ∃ result, markLocations fastPerpendicularDistance threshold rounds projected_coordinates fuel is_necessary recursion_stack = some result ∧
      result.length = projected_coordinates.length ∧ Pending (Near fastPerpendicularDistance threshold projected_coordinates) result [] ∧
      ∀ k, Kept is_necessary k → Kept result k := by
  induction fuel generalizing is_necessary recursion_stack with
  | zero =>
    cases recursion_stack with
    | nil => exact ⟨is_necessary,rfl,length,pending,fun _ => id⟩
    | cons pair recursion_stack =>
      have := weight_tail recursion_stack (pending.gaps pair (.head _)).ordered
      omega
  | succ fuel ih =>
    cases recursion_stack with
    | nil => exact ⟨is_necessary,rfl,length,pending,fun _ => id⟩
    | cons pair recursion_stack =>
      have gap := pending.gaps pair (.head _)
      have inside : pair.2 < projected_coordinates.length := length ▸ gap.right.inside
      have start : Swept fastPerpendicularDistance threshold projected_coordinates pair (pair.1 + 1) (0,pair.2) :=
        ⟨fun exceeds => absurd exceeds (Nat.not_lt_zero _),fun k above below => absurd above (Nat.not_lt.mpr (Nat.le_of_lt_succ below))⟩
      obtain ⟨best,swept,known⟩ := sweep_spec inside (Nat.lt_succ_self pair.1) gap.ordered (by omega : pair.2 < pair.1 + 1 + rounds) start
      rw [markLocations,swept,Option.bind_some]
      by_cases far : best.1 > threshold
      · obtain ⟨above,below⟩ := known.found far
        have marked : mark is_necessary best.2 = some (is_necessary.set best.2 true) := if_pos (gap.inside below.le)
        have less := weight_divide recursion_stack above below
        obtain ⟨result,ran,same,done,keeps⟩ := ih (length_set.trans length) (by omega)
          (pending.divide above below)
        rw [if_pos far,marked,Option.bind_some]
        exact ⟨result,ran,same,done,fun k kept => keeps k ((kept_set (gap.inside below.le) k).mpr (.inr kept))⟩
      · have less := weight_tail recursion_stack gap.ordered
        rw [if_neg far]
        refine ih length (by omega) (pending.done fun k above below => ?_)
        exact (known.bound k above below).trans (max_le le_rfl (Nat.not_lt.mp far))

private theorem pending_start (close : GeometryRange → ℕ → Prop) {size : ℕ} (two : 2 ≤ size) :
    Pending close (((replicate size false).set 0 true).set (size - 1) true) [(0,size - 1)] := by
  have kept (k : ℕ) : Kept (((replicate size false).set 0 true).set (size - 1) true) k ↔ k = size - 1 ∨ k = 0 := by
    have never : ¬ Kept (replicate size false) k := by
      rw [Kept,getElem?_replicate]
      split <;> simp
    rw [kept_set (by simp; omega),kept_set (by simp; omega)]
    simp [never]
  refine ⟨?_,nodup_singleton _,?_⟩
  · intro pair member
    obtain rfl := mem_singleton.mp member
    refine ⟨(kept _).mpr (.inr rfl),(kept _).mpr (.inl rfl),by simp; omega,?_⟩
    intro k above below found
    rcases (kept k).mp found with rfl | rfl
    · exact lt_irrefl _ below
    · exact lt_irrefl _ above
  · rintro ⟨first,second⟩ gap
    have ordered : first < second := gap.ordered
    have left := (kept first).mp gap.left
    have right := (kept second).mp gap.right
    rw [mem_singleton,Prod.mk.injEq]
    left
    omega

private theorem gap_around {first last idx : ℕ} (left : Kept is_necessary first) (right : Kept is_necessary last) (above : first ≤ idx)
    (below : idx ≤ last) (dropped : ¬ Kept is_necessary idx) : ∃ pair, Gap is_necessary pair ∧ pair.1 < idx ∧ idx < pair.2 := by
  classical
  have later : ∃ k, idx ≤ k ∧ Kept is_necessary k := ⟨last,below,right⟩
  have before := Nat.findGreatest_spec (P := Kept is_necessary) above left
  have behind := Nat.find_spec later
  have ne (k : ℕ) (kept : Kept is_necessary k) : k ≠ idx := fun same => dropped (same ▸ kept)
  have low : Nat.findGreatest (Kept is_necessary) idx < idx := Nat.lt_of_le_of_ne (Nat.findGreatest_le idx) (ne _ before)
  have high : idx < Nat.find later := Nat.lt_of_le_of_ne behind.1 (ne _ behind.2).symm
  refine ⟨(Nat.findGreatest (Kept is_necessary) idx,Nat.find later),⟨before,behind.2,low.trans high,?_⟩,low,high⟩
  intro k greater less kept
  rcases Nat.le_total k idx with le | ge
  · exact Nat.findGreatest_is_greatest greater le kept
  · exact Nat.find_min later less ⟨ge,kept⟩

private theorem mem_necessary {idx : ℕ} : idx ∈ necessary is_necessary ↔ Kept is_necessary idx := by
  rw [necessary,mem_filter,mem_range,Kept,getD_eq_getElem?_getD]
  constructor
  · rintro ⟨inside,kept⟩
    rw [getElem?_eq_getElem inside] at kept ⊢
    simpa using kept
  · intro kept
    exact ⟨(List.getElem?_eq_some_iff.mp kept).1,by rw [kept]; rfl⟩

private theorem mapM_getElem? (coordinates : List P) (indices : List ℕ) (inside : ∀ idx ∈ indices, idx < coordinates.length) :
    ∃ result, (indices.mapM fun idx => coordinates[idx]?) = some result ∧ result.map some = indices.map fun idx => coordinates[idx]? := by
  induction indices with
  | nil => exact ⟨[],rfl,rfl⟩
  | cons idx indices ih =>
    obtain ⟨rest,read,same⟩ := ih fun idx member => inside idx (.tail _ member)
    obtain ⟨point,here⟩ : ∃ point, coordinates[idx]? = some point := ⟨_,getElem?_eq_getElem (inside idx (.head _))⟩
    refine ⟨point :: rest,?_,?_⟩
    · simp [mapM_cons,here,read]
    · rw [map_cons,map_cons,same,here]

/-- The result has points at increasing indices, both ends among them; each dropped point is close to its segment. -/
structure Simplifies (fromWGS84 : P → C) (fastPerpendicularDistance : C → C → C → ℕ) (threshold : ℕ) (coordinates result : List P)
    (kept : List ℕ) : Prop where
  increasing : kept.Pairwise (· < ·)
  points : result.map some = kept.map fun idx => coordinates[idx]?
  first : 0 ∈ kept
  last : coordinates.length - 1 ∈ kept
  near : ∀ idx < coordinates.length, idx ∉ kept → ∃ before ∈ kept, ∃ behind ∈ kept, before < idx ∧ idx < behind ∧
    (∀ other ∈ kept, other ≤ before ∨ behind ≤ other) ∧ ∃ start target point,
      coordinates[before]? = some start ∧ coordinates[behind]? = some target ∧ coordinates[idx]? = some point ∧
        fastPerpendicularDistance (fromWGS84 start) (fromWGS84 target) (fromWGS84 point) ≤ threshold

/-- A line of at least two points is simplified, in at most two rounds for each point. -/
theorem douglasPeucker_simplifies (fromWGS84 : P → C) (fastPerpendicularDistance : C → C → C → ℕ) (threshold : ℕ) {coordinates : List P}
    (two : 2 ≤ coordinates.length) {fuel : ℕ} (enough : 2 * coordinates.length ≤ fuel) :
    ∃ result kept, douglasPeucker fromWGS84 fastPerpendicularDistance threshold fuel coordinates = some result ∧
      Simplifies fromWGS84 fastPerpendicularDistance threshold coordinates result kept := by
  have size : (coordinates.map fromWGS84).length = coordinates.length := length_map ..
  obtain ⟨is_necessary,ran,length,done,keeps⟩ := markLocations_spec fastPerpendicularDistance threshold (coordinates.map fromWGS84)
    (by simp) (show (coordinates.map fromWGS84).length ≤ fuel by omega)
    (show weight [(0,coordinates.length - 1)] ≤ fuel by simp [weight]; omega) (pending_start _ two)
  rw [size] at length
  obtain ⟨result,read,points⟩ := mapM_getElem? coordinates (necessary is_necessary)
    fun idx member => length ▸ (mem_necessary.mp member).inside
  have start : Gap _ (0,coordinates.length - 1) := (pending_start (fun _ _ => True) two).gaps _ (.head _)
  have first := keeps 0 start.left
  have last := keeps (coordinates.length - 1) start.right
  refine ⟨result,necessary is_necessary,?_,?_,points,mem_necessary.mpr first,mem_necessary.mpr last,?_⟩
  · rw [douglasPeucker,if_neg (Nat.not_lt.mpr two)]
    simp only [ran,Option.bind_some,read]
  · exact Pairwise.filter _ pairwise_lt_range
  · intro idx inside dropped
    obtain ⟨pair,gap,above,below⟩ := gap_around first last (Nat.zero_le idx) (Nat.le_sub_one_of_lt inside)
      fun kept => dropped (mem_necessary.mpr kept)
    have right := gap.right.inside
    rw [length] at right
    refine ⟨pair.1,mem_necessary.mpr gap.left,pair.2,mem_necessary.mpr gap.right,above,below,?_,?_⟩
    · intro other member
      by_contra inner
      rw [not_or,not_le,not_le] at inner
      exact gap.none_between other inner.1 inner.2 (mem_necessary.mp member)
    · have near := (done.rest pair gap).resolve_left not_mem_nil idx above below
      have left : pair.1 < coordinates.length := by omega
      refine ⟨coordinates[pair.1],coordinates[pair.2],coordinates[idx],getElem?_eq_getElem left,getElem?_eq_getElem right,
        getElem?_eq_getElem inside,?_⟩
      simpa [Near,distance,distanceAt,left,right,inside] using near

/-- On a line of numbers with the distance from the middle of the segment. -/
theorem douglasPeucker_simplifies_peak :
    ∃ result kept, douglasPeucker id (fun a b p => (p - (a + b) / 2) + ((a + b) / 2 - p)) 3 10 [0,1,9,1,0] = some result ∧
      Simplifies id (fun a b p => (p - (a + b) / 2) + ((a + b) / 2 - p)) 3 [0,1,9,1,0] result kept :=
  douglasPeucker_simplifies id _ 3 (by decide) (by decide)

end Simplified
end Osrm.DouglasPeucker
