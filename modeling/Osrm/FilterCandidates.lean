import Mathlib.Data.Prod.Lex
import Osrm.Phantom
import Osrm.UniqueSort

/-!
`filterCandidates` of `engine/plugins/match.cpp`. Of the candidates of a coordinate with the same segment ids the
nearest one is left, whatever its directions are; where no u-turn is possible it is split into its directions.
-/
namespace Osrm.FilterCandidates
open List
open Typedefs UniqueSort
open Phantom (PhantomNode SegmentID)
variable {C D : Type}

structure PhantomNodeWithDistance (D : Type) where
  phantom_node : PhantomNode
  distance : D

abbrev CandidateList (D : Type) := List (PhantomNodeWithDistance D)

namespace PhantomNodeWithDistance
variable (candidate : PhantomNodeWithDistance D)

def forward : SegmentID := candidate.phantom_node.forward_segment_id
def reverse : SegmentID := candidate.phantom_node.reverse_segment_id
/-- The ids of both directions of its segment, in the order in which they are compared. -/
def ids : NodeID ×ₗ NodeID := toLex (candidate.forward.id,candidate.reverse.id)
def bidirected : Bool := candidate.forward.enabled && candidate.reverse.enabled
def enables : Direction → NodeID → Bool
  | .FORWARD,id => candidate.forward.enabled && candidate.forward.id == id
  | .REVERSE,id => candidate.reverse.enabled && candidate.reverse.id == id
def reverse_node : PhantomNodeWithDistance D :=
  { candidate with phantom_node := { candidate.phantom_node with forward_segment_id := ⟨candidate.forward.id,false⟩ } }
def forward_node : PhantomNodeWithDistance D :=
  { candidate with phantom_node := { candidate.phantom_node with reverse_segment_id := ⟨candidate.reverse.id,false⟩ } }

end PhantomNodeWithDistance

open PhantomNodeWithDistance

def same_ids (lhs rhs : PhantomNodeWithDistance D) : Bool :=
  lhs.forward.id == rhs.forward.id && lhs.reverse.id == rhs.reverse.id

/-- Sharp turns indicate a possible u-turn; the angle is given. -/
def allow_uturn (computeAngle : C → C → C → ℚ) (coordinates : List C) (current_coordinate : ℕ) : Bool :=
  if current_coordinate < coordinates.length - 1 ∧ 0 < current_coordinate then
    match coordinates[current_coordinate - 1]?,coordinates[current_coordinate]?,coordinates[current_coordinate + 1]? with
    | some before,some here,some after => decide (computeAngle before here after ≤ 45) || decide (315 ≤ computeAngle before here after)
    | _,_,_ => false
  else false

/-- Candidates with both directions are split; the reverse ones come behind all others. -/
def splitCandidates (allow_uturn : Bool) (candidates : CandidateList D) : CandidateList D :=
  if allow_uturn then candidates
  else candidates.map (fun c => if c.bidirected then c.forward_node else c) ++ (candidates.filter bidirected).map reverse_node

private theorem ids_eq_iff {a b : PhantomNodeWithDistance D} : a.ids = b.ids ↔ a.forward.id = b.forward.id ∧ a.reverse.id = b.reverse.id := by
  rw [PhantomNodeWithDistance.ids,PhantomNodeWithDistance.ids,toLex_inj,Prod.mk.injEq]
private theorem same_ids_iff (a b : PhantomNodeWithDistance D) : same_ids a b = true ↔ a.ids = b.ids := by
  rw [ids_eq_iff,same_ids,Bool.and_eq_true,beq_iff_eq,beq_iff_eq]

variable {a b c : PhantomNodeWithDistance D} {candidates : CandidateList D} {direction : Direction} {id : NodeID} {uturn : Bool}

def part (uturn : Bool) (direction : Direction) (c : PhantomNodeWithDistance D) : PhantomNodeWithDistance D :=
  if uturn then c
  else if c.bidirected then (match direction with
    | .FORWARD => c.forward_node
    | .REVERSE => c.reverse_node)
  else c

@[simp] theorem part_distance (uturn : Bool) (direction : Direction) (c : PhantomNodeWithDistance D) :
    (part uturn direction c).distance = c.distance := by
  unfold part
  split_ifs
  · rfl
  · cases direction <;> rfl
  · rfl

private theorem part_single (single : c.bidirected = false) : part uturn direction c = c := by
  simp [part,single]

private theorem part_split (both : c.bidirected = true) :
    part false direction c = match direction with
      | .FORWARD => c.forward_node
      | .REVERSE => c.reverse_node := by
  unfold part
  rw [both]
  rfl

private theorem filter_splitCandidates (uturn : Bool) (direction : Direction) (id : NodeID) (l : CandidateList D) :
    ((splitCandidates uturn l).filter (·.enables direction id)).Perm ((l.filter (·.enables direction id)).map (part uturn direction)) := by
  cases uturn with
  | true =>
    rw [splitCandidates,if_pos rfl]
    exact .of_eq (map_id _).symm
  | false =>
    simp only [splitCandidates,Bool.false_eq_true,if_false]
    induction l with
    | nil => rfl
    | cons c l ih =>
      rw [filter_append] at ih
      cases both : c.bidirected with
      | false =>
        rw [map_cons,both,if_neg Bool.false_ne_true,filter_cons_of_neg (by simp [both]),cons_append,filter_cons,
          filter_cons,filter_append]
        split_ifs
        · rw [map_cons,part_single both]
          exact ih.cons c
        · exact ih
      | true =>
        rw [map_cons,both,if_pos rfl,filter_cons_of_pos both,map_cons,cons_append,filter_cons,filter_append,
          filter_cons,filter_cons]
        cases direction with
        | FORWARD =>
          have other : c.reverse_node.enables .FORWARD id = false := rfl
          have mine : c.forward_node.enables .FORWARD id = c.enables .FORWARD id := rfl
          rw [other,mine,if_neg Bool.false_ne_true]
          split_ifs
          · rw [map_cons,part_split both]
            exact ih.cons _
          · exact ih
        | REVERSE =>
          have other : c.forward_node.enables .REVERSE id = false := rfl
          have mine : c.reverse_node.enables .REVERSE id = c.enables .REVERSE id := rfl
          rw [other,mine,if_neg Bool.false_ne_true]
          split_ifs
          · rw [map_cons,part_split both]
            exact perm_middle.trans (ih.cons _)
          · exact ih

private theorem splitCandidates_bidirected (l : CandidateList D) : ∀ c ∈ splitCandidates false l, c.bidirected = false := by
  intro c member
  rw [splitCandidates,if_neg Bool.false_ne_true,mem_append,mem_map,mem_map] at member
  rcases member with ⟨old,_,rfl⟩ | ⟨old,_,rfl⟩
  · split_ifs with both
    · exact Bool.and_false _
    · simpa using both
  · rfl

def Paired (candidates : CandidateList D) : Prop :=
  ∀ a ∈ candidates, ∀ b ∈ candidates, a.forward.id = b.forward.id ↔ a.reverse.id = b.reverse.id

private theorem Paired.ids (paired : Paired candidates) (memberA : a ∈ candidates) (memberB : b ∈ candidates)
    (usesA : a.enables direction id = true) (usesB : b.enables direction id = true) : a.ids = b.ids := by
  rw [ids_eq_iff]
  have same := paired a memberA b memberB
  cases direction with
  | FORWARD =>
    simp only [enables,Bool.and_eq_true,beq_iff_eq] at usesA usesB
    have forward := usesA.2.trans usesB.2.symm
    exact ⟨forward,same.mp forward⟩
  | REVERSE =>
    simp only [enables,Bool.and_eq_true,beq_iff_eq] at usesA usesB
    have reverse := usesA.2.trans usesB.2.symm
    exact ⟨same.mpr reverse,reverse⟩

/-! ### One coordinate -/

variable [LinearOrder D]

/-- By the forward id, then by the reverse id and then by the distance. -/
def by_ids (lhs rhs : PhantomNodeWithDistance D) : Bool :=
  decide (lhs.forward.id < rhs.forward.id) ||
    (lhs.forward.id == rhs.forward.id && (decide (lhs.reverse.id < rhs.reverse.id) ||
      (lhs.reverse.id == rhs.reverse.id && decide (lhs.distance < rhs.distance))))

def by_distance (lhs rhs : PhantomNodeWithDistance D) : Bool := decide (lhs.distance < rhs.distance)

/-- The steps for one coordinate, with what the two sorts may make of the candidates. -/
structure Filtered (allow_uturn : Bool) (candidates sorted filtered : CandidateList D) : Prop where
  unified : Sorts by_ids candidates sorted
  ranked : Sorts by_distance (splitCandidates allow_uturn (unique same_ids sorted)) filtered

/-- The candidates of all coordinates, by the number of the coordinate. -/
def FiltersCandidates (computeAngle : C → C → C → ℚ) (coordinates : List C) (candidates_lists filtered : ℕ → CandidateList D) : Prop :=
  ∀ current_coordinate < coordinates.length, ∃ sorted,
    Filtered (allow_uturn computeAngle coordinates current_coordinate) (candidates_lists current_coordinate) sorted
      (filtered current_coordinate)

/-- Every directed segment is left at one candidate, at its least distance, and nothing else is. -/
structure KeepsSegments (allow_uturn : Bool) (candidates filtered : CandidateList D) : Prop where
  kept : ∀ direction id, (∃ c ∈ candidates, c.enables direction id = true) →
    ∃ left, filtered.filter (·.enables direction id) = [left] ∧
      (∃ c ∈ candidates, c.enables direction id = true ∧ c.distance = left.distance) ∧
      ∀ c ∈ candidates, c.enables direction id = true → left.distance ≤ c.distance
  split : allow_uturn = false → ∀ c ∈ filtered, c.bidirected = false
  nothing_else : ∀ c ∈ filtered, ∀ direction id, c.enables direction id = true → ∃ c' ∈ candidates, c'.enables direction id = true
  sorted : filtered.Pairwise fun a b => a.distance ≤ b.distance

/-- The nearest candidates of a segment have all directions that any candidate of it has. -/
def NearestHasAll (candidates : CandidateList D) : Prop :=
  ∀ a ∈ candidates, ∀ b ∈ candidates, a.ids = b.ids → (∀ c ∈ candidates, c.ids = b.ids → b.distance ≤ c.distance) →
    ∀ direction id, a.enables direction id = true → b.enables direction id = true

variable {sorted filtered : CandidateList D}

private theorem by_ids_iff : by_ids a b = true ↔ toLex (a.ids,a.distance) < toLex (b.ids,b.distance) := by
  simp only [by_ids,Prod.Lex.toLex_lt_toLex,PhantomNodeWithDistance.ids,toLex_inj,Prod.mk.injEq,Bool.or_eq_true,Bool.and_eq_true,
    decide_eq_true_eq,beq_iff_eq]
  tauto

private theorem not_by_ids_iff : by_ids b a = false ↔ toLex (a.ids,a.distance) ≤ toLex (b.ids,b.distance) := by
  rw [← Bool.not_eq_true,by_ids_iff,not_lt]

private theorem by_ids_trans (a b c : PhantomNodeWithDistance D) (one : by_ids b a = false) (two : by_ids c b = false) : by_ids c a = false := by
  rw [not_by_ids_iff] at *
  exact one.trans two

private theorem by_ids_total (a b : PhantomNodeWithDistance D) : by_ids b a = false ∨ by_ids a b = false := by
  rw [not_by_ids_iff,not_by_ids_iff]
  exact le_total _ _

private theorem by_distance_trans (a b c : PhantomNodeWithDistance D) (one : by_distance b a = false) (two : by_distance c b = false) :
    by_distance c a = false := by
  simp only [by_distance,decide_eq_false_iff_not,not_lt] at *
  exact one.trans two

private theorem by_distance_total (a b : PhantomNodeWithDistance D) : by_distance b a = false ∨ by_distance a b = false := by
  simpa [by_distance] using le_total a.distance b.distance

private theorem sorts_ids (sorts : Sorts by_ids candidates sorted) : sorted.Pairwise fun a b => a.ids ≤ b.ids := by
  refine sorts.ordered.imp fun order => ?_
  rw [not_by_ids_iff,Prod.Lex.toLex_le_toLex] at order
  exact order.elim le_of_lt fun same => same.1.le

private theorem sorts_nearest (sorts : Sorts by_ids candidates sorted) (left : a ∈ unique same_ids sorted) (member : b ∈ candidates)
    (same : b.ids = a.ids) : a.distance ≤ b.distance := by
  have before := unique_first (R := fun a b : PhantomNodeWithDistance D => a.ids = b.ids → a.distance ≤ b.distance) (fun _ _ => le_rfl)
    (sorts.ordered.imp fun order same => by
      rw [not_by_ids_iff,Prod.Lex.toLex_le_toLex] at order
      exact (order.resolve_left same.not_lt).2)
    same_ids_iff (sorts_ids sorts) left (sorts.perm.symm.subset member) same
  exact before same.symm

private theorem exists_filtered (uturn : Bool) (unified : Sorts by_ids candidates sorted) : ∃ filtered, Filtered uturn candidates sorted filtered :=
  ⟨_,unified,sorts_mergeSort by_distance_trans by_distance_total _⟩

private theorem filter_eq_singleton {α K : Type} {key : α → K} {l : List α} {p : α → Bool} {a : α} (distinct : (l.map key).Nodup) (member : a ∈ l)
    (holds : p a = true) (only : ∀ b ∈ l, p b = true → key b = key a) : l.filter p = [a] := by
  refine perm_singleton.mp ((perm_ext_iff_of_nodup ((distinct.of_map _).filter _) (nodup_singleton a)).mpr fun b => ?_)
  rw [mem_filter,mem_singleton]
  constructor
  · rintro ⟨inside,here⟩
    exact inj_on_of_nodup_map distinct inside member (only b inside here)
  · rintro rfl
    exact ⟨member,holds⟩

section Run
variable (run : Filtered uturn candidates sorted filtered)
include run

private theorem Filtered.left_perm : (filtered.filter (·.enables direction id)).Perm
    (((unique same_ids sorted).filter (·.enables direction id)).map (part uturn direction)) :=
  (run.ranked.perm.filter _).trans (filter_splitCandidates uturn direction id _)

private theorem Filtered.mem (member : c ∈ unique same_ids sorted) : c ∈ candidates :=
  run.unified.perm.subset ((unique_sublist _ sorted).subset member)

private theorem Filtered.distinct : ((unique same_ids sorted).map PhantomNodeWithDistance.ids).Nodup := by
  rw [List.Nodup,pairwise_map]
  exact (unique_keys same_ids_iff (sorts_ids run.unified)).imp fun less => less.ne

private theorem Filtered.nothing_else (member : c ∈ filtered) (uses : c.enables direction id = true) :
    ∃ c' ∈ candidates, c'.enables direction id = true := by
  have found := run.left_perm.subset (mem_filter.mpr ⟨member,uses⟩)
  obtain ⟨old,inside,_⟩ := mem_map.mp found
  obtain ⟨left,usesOld⟩ := mem_filter.mp inside
  exact ⟨old,run.mem left,usesOld⟩

private theorem Filtered.keepsSegments (paired : Paired candidates) (all : NearestHasAll candidates) : KeepsSegments uturn candidates filtered := by
  refine ⟨fun direction id used => ?_,fun split c member => ?_,fun c member direction id uses => run.nothing_else member uses,?_⟩
  · obtain ⟨a,memberA,usesA⟩ := used
    obtain ⟨b,left,same⟩ := exists_mem_unique same_ids_iff (sorts_ids run.unified) (run.unified.perm.symm.subset memberA)
    have memberB := run.mem left
    have nearest : ∀ c ∈ candidates, c.ids = b.ids → b.distance ≤ c.distance := fun c member there =>
      sorts_nearest run.unified left member there
    have usesB := all a memberA b memberB same.symm nearest direction id usesA
    have single : (unique same_ids sorted).filter (·.enables direction id) = [b] :=
      filter_eq_singleton run.distinct left usesB fun c member uses => paired.ids (run.mem member) memberB uses usesB
    refine ⟨part uturn direction b,?_,⟨b,memberB,usesB,(part_distance ..).symm⟩,fun c member uses => ?_⟩
    · have perm : (filtered.filter (·.enables direction id)).Perm _ := run.left_perm
      rw [single] at perm
      exact perm_singleton.mp perm
    · rw [part_distance]
      exact nearest c member (paired.ids member memberB uses usesB)
  · rw [split] at run
    exact splitCandidates_bidirected _ c (run.ranked.perm.subset member)
  · exact run.ranked.ordered.imp fun order => by simpa [by_distance] using order

end Run

private theorem exists_kept (member : b ∈ candidates) (nearest : ∀ c ∈ candidates, c.ids = b.ids → b.distance ≤ c.distance) :
    ∃ sorted, Sorts by_ids candidates sorted ∧ b ∈ unique same_ids sorted := by
  obtain ⟨sorted,sorts,front⟩ := exists_sorts by_ids_trans by_ids_total member
  refine ⟨sorted,sorts,?_⟩
  obtain ⟨k,left,there⟩ := exists_mem_unique same_ids_iff (sorts_ids sorts) (sorts.perm.symm.subset member)
  have known := sorts.perm.subset ((unique_sublist _ sorted).subset left)
  have distance : k.distance = b.distance := le_antisymm (sorts_nearest sorts left member there.symm) (nearest k known there)
  -- among those that are as near, the sort put this one in front
  have found := front (fun c => decide (c.ids = b.ids ∧ c.distance = b.distance)) (fun x y atX atY => by
    rw [decide_eq_true_eq] at atX atY
    rw [not_by_ids_iff,atX.1,atX.2,atY.1,atY.2]) (by simp)
  have first := (mem_unique same_ids_iff (sorts_ids sorts)).mp left
  obtain ⟨_,before,after,shape,none⟩ := find?_eq_some_iff_append.mp first
  have same : sorted.find? (fun c => decide (c.ids = b.ids ∧ c.distance = b.distance)) = some k := by
    refine find?_eq_some_iff_append.mpr ⟨by simp [there,distance],before,after,shape,fun c inside => ?_⟩
    have other := none c inside
    simp only [Bool.not_eq_true',decide_eq_false_iff_not,there] at other ⊢
    exact fun both => other both.1
  rw [found,Option.some.injEq] at same
  exact same ▸ left

private theorem nearestHasAll_of_keeps (paired : Paired candidates)
    (keeps : ∀ sorted filtered, Filtered uturn candidates sorted filtered → KeepsSegments uturn candidates filtered) :
    NearestHasAll candidates := by
  intro a memberA b memberB same nearest direction id uses
  obtain ⟨sorted,sorts,left⟩ := exists_kept memberB nearest
  obtain ⟨filtered,run⟩ := exists_filtered uturn sorts
  obtain ⟨c,single,_⟩ := (keeps sorted filtered run).kept direction id ⟨a,memberA,uses⟩
  have perm : (filtered.filter (·.enables direction id)).Perm _ := run.left_perm
  rw [single] at perm
  obtain ⟨x,inside,_⟩ := mem_map.mp (perm.subset (mem_singleton_self c))
  obtain ⟨leftX,usesX⟩ := mem_filter.mp inside
  have there := (paired.ids (run.mem leftX) memberA usesX uses).trans same
  rwa [← inj_on_of_nodup_map run.distinct leftX left there]

/-- Exactly where the nearest candidates of a segment have all its directions, no directed segment is lost. -/
theorem segments_kept_iff (computeAngle : C → C → C → ℚ) (coordinates : List C) (candidates_lists : ℕ → CandidateList D)
    (paired : ∀ i < coordinates.length, Paired (candidates_lists i)) :
    (∀ filtered, FiltersCandidates computeAngle coordinates candidates_lists filtered → ∀ i < coordinates.length,
        KeepsSegments (allow_uturn computeAngle coordinates i) (candidates_lists i) (filtered i)) ↔
      ∀ i < coordinates.length, NearestHasAll (candidates_lists i) := by
  constructor
  · intro keeps i inside
    suffices here : ∀ sorted filtered, Filtered (allow_uturn computeAngle coordinates i) (candidates_lists i) sorted filtered →
        KeepsSegments (allow_uturn computeAngle coordinates i) (candidates_lists i) filtered from
      nearestHasAll_of_keeps (paired i inside) here
    intro sorted filtered run
    -- the other coordinates are filtered in some way
    have others : ∀ j, ∃ filtered sorted, Filtered (allow_uturn computeAngle coordinates j) (candidates_lists j) sorted filtered := fun j => by
      obtain ⟨filtered,run⟩ := exists_filtered (allow_uturn computeAngle coordinates j)
        (sorts_mergeSort by_ids_trans by_ids_total (candidates_lists j))
      exact ⟨filtered,_,run⟩
    choose other known using others
    have kept := keeps (Function.update other i filtered) (fun j _ => by
      by_cases here : j = i
      · subst here
        rw [Function.update_self]
        exact ⟨sorted,run⟩
      · rw [Function.update_of_ne here]
        exact known j) i inside
    rwa [Function.update_self] at kept
  · intro all filtered run i inside
    obtain ⟨sorted,filters⟩ := run i inside
    exact filters.keepsSegments (paired i inside) (all i inside)

def segmentAt (forward reverse : Bool) : PhantomNode := ⟨⟨1,forward⟩,⟨2,reverse⟩,0,0,0,0,0,0,0,0,0,0,0,0,true,true,true,true⟩
def twoWays : CandidateList ℕ := [⟨segmentAt true false,7⟩,⟨segmentAt true true,4⟩]
/-- The nearest candidate may be used forward only, one that is farther away in the other direction only. -/
def oneWayEach : CandidateList ℕ := [⟨segmentAt true false,4⟩,⟨segmentAt false true,7⟩]

theorem segments_kept_twoWays : NearestHasAll twoWays ∧
    ∀ filtered, FiltersCandidates (fun _ _ _ => 0) [()] (fun _ => twoWays) filtered →
      ∀ i < [()].length, KeepsSegments (allow_uturn (fun _ _ _ => 0) [()] i) twoWays (filtered i) := by
  have all : NearestHasAll twoWays := by
    intro a memberA b memberB same nearest direction id uses
    simp only [twoWays,mem_cons,not_mem_nil,or_false] at memberA memberB
    rcases memberB with rfl | rfl
    · exact absurd (nearest ⟨segmentAt true true,4⟩ (by simp [twoWays]) rfl) (by decide)
    · rcases memberA with rfl | rfl
      · cases direction
        · exact uses
        · exact Bool.noConfusion uses
      · exact uses
  exact ⟨all,(segments_kept_iff (fun _ _ _ => 0) [()] (fun _ => twoWays) (fun _ _ => by unfold Paired; decide)).mpr fun _ _ => all⟩

/-- The reverse segment is lost. -/
theorem reverse_segment_lost : ¬∀ filtered, FiltersCandidates (fun _ _ _ => 0) [()] (fun _ => oneWayEach) filtered →
    ∀ i < [()].length, KeepsSegments (allow_uturn (fun _ _ _ => 0) [()] i) oneWayEach (filtered i) := by
  intro keeps
  have kept := keeps (fun _ => [⟨segmentAt true false,4⟩]) (fun i _ => ⟨oneWayEach,⟨.refl _,by decide⟩,?_⟩) 0 (by decide)
  · obtain ⟨left,found,_⟩ := kept.kept .REVERSE 2 ⟨⟨segmentAt false true,7⟩,by simp [oneWayEach],by decide⟩
    simp [segmentAt,enables,PhantomNodeWithDistance.reverse] at found
  · have none_split : splitCandidates (allow_uturn (fun _ _ _ => 0) [()] i) (unique same_ids oneWayEach) = [⟨segmentAt true false,4⟩] := by
      rw [allow_uturn,if_neg (by simp)]
      rfl
    exact ⟨by rw [none_split],pairwise_singleton _ _⟩

end Osrm.FilterCandidates
