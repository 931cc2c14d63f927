import Osrm.Annotation
import Osrm.RTreeQueries

/-!
What `engine/geospatial_query.hpp` makes of the segments that a search has found. The weights of a phantom node come
from two arrays in opposite orders, and still one grows and the other one falls where the location moves forward.
-/
namespace Osrm.GeospatialQuery
open List
open Typedefs Annotation
open Loops (foldl_invariant)
open Phantom (SegmentID)
open Rectangle (Coordinate)
open RTree (EdgeBasedNodeSegment)
open RTreeQueries (CandidateSegment)

/-! ### Positions on a segment -/

def GetForwardWeightPlusOffset (phantom : PhantomNode) : EdgeWeight := phantom.forward_weight_offset + phantom.forward_weight
def GetReverseWeightPlusOffset (phantom : PhantomNode) : EdgeWeight := phantom.reverse_weight_offset + phantom.reverse_weight
def GetForwardDuration (phantom : PhantomNode) : EdgeDuration := phantom.forward_duration + phantom.forward_duration_offset
def GetReverseDuration (phantom : PhantomNode) : EdgeDuration := phantom.reverse_duration + phantom.reverse_duration_offset

/-- A part of a geometry and how far along it a location is. -/
structure Position (parts : ℕ) where
  part : ℕ
  inside : part < parts
  ratio : ℚ
  nonneg : 0 ≤ ratio
  le_one : ratio ≤ 1

variable {parts : ℕ}

def Position.Before (p q : Position parts) : Prop := p.part < q.part ∨ p.part = q.part ∧ p.ratio ≤ q.ratio

private theorem ratio_zero_le_one : (0 : ℚ) ≤ 1 := zero_le_one
private theorem ratio_zero_le : (0 : ℚ) ≤ 0 := le_rfl
private theorem ratio_one_le : (1 : ℚ) ≤ 1 := le_rfl

def Position.ending (i : ℕ) (inside : i + 1 < parts) : Position parts := ⟨i,Nat.lt_of_succ_lt inside,1,ratio_zero_le_one,ratio_one_le⟩
def Position.beginning (i : ℕ) (inside : i < parts) : Position parts := ⟨i,inside,0,ratio_zero_le,ratio_zero_le_one⟩
def phantomAt (facade : Facade) (segment : EdgeBasedNodeSegment) (p : Position parts) : PhantomNode :=
  MakePhantomNode facade { segment with fwd_segment_position := p.part } (.ofRat (min 1 (max 0 p.ratio)) (by simp) (by simp))

/-- A value that grows from nothing to a total with the position, the same for both names of a joint. -/
structure Grows (total : ℤ) (value : Position parts → ℤ) : Prop where
  bounds : ∀ p, 0 ≤ value p ∧ value p ≤ total
  mono : ∀ p q, p.Before q → value p ≤ value q
  joint : ∀ i (inside : i + 1 < parts), value (.ending i inside) = value (.beginning (i + 1) inside)

structure Falls (total : ℤ) (value : Position parts → ℤ) : Prop where
  bounds : ∀ p, 0 ≤ value p ∧ value p ≤ total
  mono : ∀ p q, p.Before q → value q ≤ value p
  joint : ∀ i (inside : i + 1 < parts), value (.ending i inside) = value (.beginning (i + 1) inside)

def before (values : List ℤ) (p : Position parts) : ℤ := (values.take p.part).sum + ⌊(values.getD p.part 0 : ℚ) * p.ratio⌋

private theorem sum_take_succ (values : List ℤ) (i : ℕ) : (values.take (i + 1)).sum = (values.take i).sum + values.getD i 0 := by
  rw [take_add_one,sum_append,getD_eq_getElem?_getD]
  cases values[i]? <;> simp

variable {values : List ℤ}

private theorem sum_take_mono (nonneg : ∀ v ∈ values, 0 ≤ v) {i j : ℕ} (le : i ≤ j) :
    (values.take i).sum ≤ (values.take j).sum := by
  induction j, le using Nat.le_induction with
  | base => exact le_rfl
  | succ j _ ih =>
    rw [sum_take_succ]
    have : 0 ≤ values.getD j 0 := by
      rw [getD_eq_getElem?_getD]
      cases found : values[j]? with
      | none => exact le_rfl
      | some v => exact nonneg v (mem_of_getElem? found)
    omega

private theorem before_bounds (nonneg : ∀ v ∈ values, 0 ≤ v) (p : Position parts) :
    (values.take p.part).sum ≤ before values p ∧ before values p ≤ (values.take (p.part + 1)).sum := by
  have value : 0 ≤ values.getD p.part 0 := by
    have := sum_take_mono nonneg (Nat.le_succ p.part)
    rw [Nat.succ_eq_add_one,sum_take_succ] at this
    omega
  have low := (Ratio.ofRat p.ratio p.nonneg p.le_one).nonneg _ value
  have high := (Ratio.ofRat p.ratio p.nonneg p.le_one).le _ value
  rw [sum_take_succ,before]
  simp only [Ratio.ofRat] at low high
  omega

private theorem before_grows (nonneg : ∀ v ∈ values, 0 ≤ v) : Grows values.sum (fun p : Position parts => before values p) := by
  have whole : (values.take values.length).sum = values.sum := by rw [take_length]
  refine ⟨fun p => ⟨?_,?_⟩,?_,fun i inside => ?_⟩
  · exact (sum_take_mono nonneg (Nat.zero_le p.part)).trans (before_bounds nonneg p).1
  · refine (before_bounds nonneg p).2.trans ?_
    rcases Nat.le_total (p.part + 1) values.length with le | more
    · exact whole ▸ sum_take_mono nonneg le
    · rw [take_of_length_le more]
  · rintro p q (earlier | ⟨same,le⟩)
    · exact ((before_bounds nonneg p).2.trans (sum_take_mono nonneg earlier)).trans (before_bounds nonneg q).1
    · rw [before,before,same]
      have value : 0 ≤ values.getD q.part 0 := by
        have := sum_take_mono nonneg (Nat.le_succ q.part)
        rw [Nat.succ_eq_add_one,sum_take_succ] at this
        omega
      gcongr
  · simp [before,Position.ending,Position.beginning,sum_take_succ]

private theorem Grows.falls {total : ℤ} {value : Position parts → ℤ} (grows : Grows total value) : Falls total fun p => total - value p := by
  refine ⟨fun p => ?_,fun p q order => ?_,fun i inside => ?_⟩
  · have := grows.bounds p
    omega
  · have := grows.mono p q order
    omega
  · rw [grows.joint i inside]

private theorem behind_eq (size : values.length = parts) (p : Position parts) :
    (values.take (values.length - p.part - 1)).sum +
      (values.getD (values.length - p.part - 1) 0 - ⌊(values.getD (values.length - p.part - 1) 0 : ℚ) * p.ratio⌋) =
    values.sum - before values.reverse p := by
  have inside := p.inside
  have last : values.reverse.getD p.part 0 = values.getD (values.length - p.part - 1) 0 := by
    rw [getD_eq_getElem?_getD,getD_eq_getElem?_getD,getElem?_reverse (by omega)]
    congr 2
    omega
  have upTo := sum_take_succ values (values.length - p.part - 1)
  rw [show values.length - p.part - 1 + 1 = values.length - p.part by omega] at upTo
  have rest : (values.reverse.take p.part).sum = (values.drop (values.length - p.part)).sum := by
    rw [take_reverse,sum_reverse]
  have whole : (values.take (values.length - p.part)).sum + (values.drop (values.length - p.part)).sum = values.sum := by
    rw [← sum_append,take_append_drop]
  rw [before,last,rest]
  omega

/-- The values of a geometry in one direction: none is negative, and there is one for each part. -/
structure Values (parts : ℕ) (values : List ℤ) : Prop where
  size : values.length = parts
  nonneg : ∀ v ∈ values, 0 ≤ v
  small : values.sum < 2 ^ 31

variable {facade : Facade} {segment : EdgeBasedNodeSegment}

/-- What the constructor of `SegmentID` asserts. -/
def Made (segment_id : SegmentID) : Prop := segment_id.enabled = true → segment_id.id ≠ SPECIAL_SEGMENTID

/-- The forward values grow and the reverse values fall along a segment; so all sums fit the machine types. -/
theorem offsets_along_segment {geometry_id : ℕ} (geometry : geometry_id = (facade.GetGeometryIndex segment.forward_segment_id.id).id)
    (forward_made : Made segment.forward_segment_id) (reverse_made : Made segment.reverse_segment_id)
    (forward_weights : Values parts (facade.GetUncompressedForwardWeights geometry_id))
    (reverse_weights : Values parts (facade.GetUncompressedReverseWeights geometry_id))
    (forward_durations : Values parts (facade.GetUncompressedForwardDurations geometry_id))
    (reverse_durations : Values parts (facade.GetUncompressedReverseDurations geometry_id)) :
    (segment.forward_segment_id.enabled = true →
      Grows (facade.GetUncompressedForwardWeights geometry_id).sum
        (fun p : Position parts => GetForwardWeightPlusOffset (phantomAt facade segment p)) ∧
      Grows (facade.GetUncompressedForwardDurations geometry_id).sum
        (fun p : Position parts => GetForwardDuration (phantomAt facade segment p))) ∧
    (segment.reverse_segment_id.enabled = true →
      Falls (facade.GetUncompressedReverseWeights geometry_id).sum
        (fun p : Position parts => GetReverseWeightPlusOffset (phantomAt facade segment p)) ∧
      Falls (facade.GetUncompressedReverseDurations geometry_id).sum
        (fun p : Position parts => GetReverseDuration (phantomAt facade segment p))) := by
  subst geometry
  have clamped : ∀ p : Position parts, min 1 (max 0 p.ratio) = p.ratio := fun p => by
    rw [max_eq_right p.nonneg,min_eq_right p.le_one]
  have nonneg : ∀ {values : List ℤ}, Values parts values → ∀ v ∈ values.reverse, 0 ≤ v := fun known v member =>
    known.nonneg v (mem_reverse.mp member)
  refine ⟨fun enabled => ?_,fun enabled => ?_⟩
  · have valid := forward_made enabled
    constructor
    · convert before_grows forward_weights.nonneg using 2 with p
      simp only [GetForwardWeightPlusOffset,phantomAt,MakePhantomNode,if_pos valid,Ratio.ofRat,clamped,before]
    · convert before_grows forward_durations.nonneg using 2 with p
      simp only [GetForwardDuration,phantomAt,MakePhantomNode,if_pos valid,Ratio.ofRat,clamped,before]
      exact add_comm _ _
  · have valid := reverse_made enabled
    constructor
    · have falls := (@before_grows parts _ (nonneg reverse_weights)).falls
      rw [sum_reverse] at falls
      convert falls using 2 with p
      rw [← behind_eq reverse_weights.size p]
      simp only [GetReverseWeightPlusOffset,phantomAt,MakePhantomNode,if_pos valid,Ratio.ofRat,clamped]
    · have falls := (@before_grows parts _ (nonneg reverse_durations)).falls
      rw [sum_reverse] at falls
      convert falls using 2 with p
      rw [← behind_eq reverse_durations.size p]
      simp only [GetReverseDuration,phantomAt,MakePhantomNode,if_pos valid,Ratio.ofRat,clamped]
      exact add_comm _ _

/-- The offsets along the street of two parts. -/
theorem offsets_along_street :
    Grows 7 (fun p : Position 2 => GetForwardWeightPlusOffset (phantomAt twoParts firstPart p)) :=
  ((@offsets_along_segment _ twoParts firstPart _ rfl (by unfold Made; decide) (by unfold Made; decide)
    ⟨rfl,by decide,by decide⟩ ⟨rfl,by decide,by decide⟩ ⟨rfl,by decide,by decide⟩ ⟨rfl,by decide,by decide⟩).1 rfl).1

section Alternatives
variable (facade : Facade) (ratio : EdgeBasedNodeSegment → Ratio)

def sameSegment (data : EdgeBasedNodeSegment) (node : PhantomNode) : Bool :=
  data.forward_segment_id.id == node.forward_segment_id.id && data.reverse_segment_id.id == node.reverse_segment_id.id

/-- Whether a second candidate of a segment takes the place of the first one. -/
def replaces (candidate : PhantomNode) (data : EdgeBasedNodeSegment) : Bool :=
  if candidate.fwd_segment_position < data.fwd_segment_position then
    data.forward_segment_id.enabled && data.reverse_segment_id.enabled &&
      !(candidate.forward_segment_id.enabled && candidate.reverse_segment_id.enabled)
  else
    !candidate.forward_segment_id.enabled || !candidate.reverse_segment_id.enabled ||
      (data.forward_segment_id.enabled && data.reverse_segment_id.enabled)

def add_to_candidates (data : EdgeBasedNodeSegment) : List PhantomNode → List PhantomNode
  | [] => [MakePhantomNode facade data (ratio data)]
  | candidate :: rest =>
    if sameSegment data candidate then
      (if replaces candidate data then MakePhantomNode facade data (ratio data) else candidate) :: rest
    else candidate :: add_to_candidates data rest

/-- The ratios at which the input coordinate is projected on the parts are given. -/
def MakeAlternativeBigCandidates (nearest_coord : Coordinate) (results : List CandidateSegment) :
    List PhantomNode × List PhantomNode :=
  results.foldl (fun (nearest_phantoms,big_component_phantoms) segment =>
    if segment.fixed_projected_coordinate = nearest_coord then
      (add_to_candidates facade ratio segment.data nearest_phantoms,big_component_phantoms)
    else (nearest_phantoms,add_to_candidates facade ratio segment.data big_component_phantoms)) ([],[])

end Alternatives

def ids (data : EdgeBasedNodeSegment) : NodeID × NodeID := (data.forward_segment_id.id,data.reverse_segment_id.id)
def phantomIds (phantom : PhantomNode) : NodeID × NodeID := (phantom.forward_segment_id.id,phantom.reverse_segment_id.id)
def Bidirected (data : EdgeBasedNodeSegment) : Prop :=
  data.forward_segment_id.enabled = true ∧ data.reverse_segment_id.enabled = true

/-- The part to choose of a segment: with both directions enabled if there is any, of the smallest position. -/
def Choice (segments : List EdgeBasedNodeSegment) (data : EdgeBasedNodeSegment) : Prop :=
  data ∈ segments ∧
  ((Bidirected data ∧ ∀ other ∈ segments, ids other = ids data → Bidirected other →
      data.fwd_segment_position ≤ other.fwd_segment_position) ∨
    ∀ other ∈ segments, ids other = ids data → ¬Bidirected other ∧ data.fwd_segment_position ≤ other.fwd_segment_position)

/-- One phantom node for each segment, made of the part to choose. -/
structure Snapped (facade : Facade) (ratio : EdgeBasedNodeSegment → Ratio) (segments : List EdgeBasedNodeSegment)
    (candidates : List PhantomNode) : Prop where
  distinct : (candidates.map phantomIds).Nodup
  covers : ∀ pair, pair ∈ candidates.map phantomIds ↔ pair ∈ segments.map ids
  chosen : ∀ candidate ∈ candidates, ∃ data, Choice segments data ∧ candidate = MakePhantomNode facade data (ratio data)

def DistinctPositions (segments : List EdgeBasedNodeSegment) : Prop :=
  segments.Pairwise fun data other => ids data = ids other → data.fwd_segment_position ≠ other.fwd_segment_position

variable {ratio : EdgeBasedNodeSegment → Ratio} {data other : EdgeBasedNodeSegment} {candidates : List PhantomNode}
  {segments : List EdgeBasedNodeSegment}

section Made
variable (facade data) (r : Ratio)

@[simp] theorem made_forward : (MakePhantomNode facade data r).forward_segment_id = data.forward_segment_id := rfl
@[simp] theorem made_position : (MakePhantomNode facade data r).fwd_segment_position = data.fwd_segment_position := rfl
@[simp] theorem made_reverse : (MakePhantomNode facade data r).reverse_segment_id = data.reverse_segment_id := rfl
@[simp] theorem made_ids : phantomIds (MakePhantomNode facade data r) = ids data := rfl

end Made

private theorem sameSegment_iff {candidate : PhantomNode} : sameSegment data candidate = true ↔ phantomIds candidate = ids data := by
  rw [sameSegment,Bool.and_eq_true,beq_iff_eq,beq_iff_eq,phantomIds,ids,Prod.mk.injEq,eq_comm,@eq_comm _ data.reverse_segment_id.id]

def Better (data other : EdgeBasedNodeSegment) : Prop :=
  Bidirected data ∧ ¬Bidirected other ∨
    (Bidirected data ↔ Bidirected other) ∧ data.fwd_segment_position < other.fwd_segment_position

private theorem replaces_iff {r : Ratio} (apart : other.fwd_segment_position ≠ data.fwd_segment_position) :
    replaces (MakePhantomNode facade other r) data = true ↔ Better data other := by
  rcases apart.lt_or_gt with earlier | later
  · rw [replaces,if_pos (by simpa using earlier),Better,Bidirected,Bidirected]
    simp only [made_forward,made_reverse,Bool.and_eq_true,Bool.not_eq_true',earlier.not_gt,and_false,or_false]
    rw [← Bool.not_eq_true,Bool.and_eq_true]
  · rw [replaces,if_neg (by simpa using later.le),Better,Bidirected,Bidirected]
    simp only [made_forward,made_reverse,later,and_true,Bool.or_eq_true,Bool.not_eq_true',Bool.and_eq_true]
    rw [← Bool.not_eq_true,← Bool.not_eq_true]
    tauto

private theorem choice_iff (member : data ∈ segments) :
    Choice segments data ↔ ∀ other ∈ segments, ids other = ids data → ¬Better other data := by
  simp only [Choice,Better,member,true_and]
  by_cases both : Bidirected data
  · have never : ¬∀ other ∈ segments, ids other = ids data → ¬Bidirected other ∧ data.fwd_segment_position ≤ other.fwd_segment_position :=
      fun all => (all data member rfl).1 both
    simp only [both,never,true_and,or_false,not_true_eq_false,and_false,false_or,iff_true,not_and,not_lt]
  · simp only [both,false_and,false_or,not_false_eq_true,and_true,iff_false,not_or,not_and,not_lt]
    refine forall₃_congr fun other _ _ => ?_
    tauto

/-! ### One segment more -/

private theorem add_new (new : ids data ∉ candidates.map phantomIds) :
    add_to_candidates facade ratio data candidates = candidates ++ [MakePhantomNode facade data (ratio data)] := by
  induction candidates with
  | nil => rfl
  | cons candidate rest ih =>
    rw [map_cons,mem_cons,not_or] at new
    rw [add_to_candidates,if_neg (by rw [sameSegment_iff]; exact Ne.symm new.1),ih new.2,cons_append]

private theorem add_known (distinct : (candidates.map phantomIds).Nodup) (known : ids data ∈ candidates.map phantomIds) :
    add_to_candidates facade ratio data candidates = candidates.map fun candidate =>
      if sameSegment data candidate then (if replaces candidate data then MakePhantomNode facade data (ratio data) else candidate)
      else candidate := by
  induction candidates with
  | nil => simp at known
  | cons candidate rest ih =>
    rw [map_cons,nodup_cons] at distinct
    rw [map_cons,add_to_candidates]
    by_cases here : sameSegment data candidate = true
    · rw [if_pos here,if_pos here]
      rw [sameSegment_iff] at here
      congr 1
      nth_rewrite 1 [← map_id rest]
      refine map_congr_left fun later member => (if_neg ?_).symm
      rw [sameSegment_iff,← here]
      exact fun same => distinct.1 (same ▸ mem_map_of_mem member)
    · rw [if_neg here,if_neg here,ih distinct.2]
      rw [sameSegment_iff] at here
      exact (mem_cons.mp known).resolve_left (Ne.symm here)

private theorem add_ids (distinct : (candidates.map phantomIds).Nodup) :
    (add_to_candidates facade ratio data candidates).map phantomIds =
      if ids data ∈ candidates.map phantomIds then candidates.map phantomIds else candidates.map phantomIds ++ [ids data] := by
  by_cases known : ids data ∈ candidates.map phantomIds
  · rw [if_pos known,add_known distinct known,map_map]
    refine map_congr_left fun candidate _ => ?_
    rw [Function.comp_apply]
    split_ifs with same
    · rw [made_ids,sameSegment_iff.mp same]
    · rfl
    · rfl
  · rw [if_neg known,add_new known,map_append]
    rfl

variable {added : EdgeBasedNodeSegment}

private theorem Choice.add (choice : Choice segments data) (stays : ids added = ids data → ¬Better added data) :
    Choice (segments ++ [added]) data := by
  have member : data ∈ segments ++ [added] := mem_append_left _ choice.1
  rw [choice_iff member]
  rw [choice_iff choice.1] at choice
  intro other inside
  cases mem_append.mp inside with
  | inl old => exact choice other old
  | inr new =>
    rw [mem_singleton.mp new]
    exact stays

private theorem Better.trans {third : EdgeBasedNodeSegment} (one : Better data other) (two : Better other third) : Better data third := by
  unfold Better at *
  rcases one with ⟨both,_⟩ | ⟨same,less⟩ <;> rcases two with ⟨both',other⟩ | ⟨same',less'⟩
  · exact .inl ⟨both,other⟩
  · exact .inl ⟨both,by tauto⟩
  · exact .inl ⟨same.mpr both',other⟩
  · exact .inr ⟨same.trans same',less.trans less'⟩

private theorem Better.irrefl (data : EdgeBasedNodeSegment) : ¬Better data data := by
  rintro (⟨both,one_way⟩ | ⟨_,less⟩)
  · exact one_way both
  · exact lt_irrefl _ less

private theorem Choice.win (choice : Choice segments data) (same : ids added = ids data) (better : Better added data) :
    Choice (segments ++ [added]) added := by
  rw [choice_iff (by simp)]
  rw [choice_iff choice.1] at choice
  intro other inside there wins
  cases mem_append.mp inside with
  | inl old => exact choice other old (there.trans same) (wins.trans better)
  | inr new =>
    rw [mem_singleton.mp new] at wins
    exact Better.irrefl added wins

private theorem Snapped.add (snapped : Snapped facade ratio segments candidates)
    (apart : ∀ data ∈ segments, ids data = ids added → data.fwd_segment_position ≠ added.fwd_segment_position) :
    Snapped facade ratio (segments ++ [added]) (add_to_candidates facade ratio added candidates) := by
  have newIds : (add_to_candidates facade ratio added candidates).map phantomIds = _ := add_ids snapped.distinct
  by_cases known : ids added ∈ candidates.map phantomIds
  · rw [if_pos known] at newIds
    refine ⟨newIds ▸ snapped.distinct,fun pair => ?_,fun candidate member => ?_⟩
    · rw [newIds,snapped.covers,map_append,mem_append]
      refine ⟨.inl,fun either => either.elim id fun new => ?_⟩
      rw [mem_singleton.mp new]
      exact (snapped.covers _).mp known
    · rw [add_known snapped.distinct known] at member
      obtain ⟨old,inside,rfl⟩ := mem_map.mp member
      obtain ⟨data,choice,rfl⟩ := snapped.chosen old inside
      by_cases same : sameSegment added (MakePhantomNode facade data (ratio data)) = true
      · rw [if_pos same]
        rw [sameSegment_iff,made_ids] at same
        have decision : replaces (MakePhantomNode facade data (ratio data)) added = true ↔ Better added data :=
          replaces_iff (apart data choice.1 same)
        by_cases wins : Better added data
        · rw [if_pos (decision.mpr wins)]
          exact ⟨added,choice.win same.symm wins,rfl⟩
        · rw [if_neg (by rw [decision]; exact wins)]
          exact ⟨data,choice.add fun _ => wins,rfl⟩
      · rw [if_neg same]
        rw [sameSegment_iff,made_ids] at same
        exact ⟨data,choice.add fun there => absurd there.symm same,rfl⟩
  · rw [if_neg known] at newIds
    refine ⟨?_,fun pair => ?_,fun candidate member => ?_⟩
    · rw [newIds]
      exact nodup_append.mpr ⟨snapped.distinct,nodup_singleton _,by simpa using known⟩
    · rw [newIds,mem_append,map_append,mem_append,snapped.covers]
      rfl
    · have first := known
      rw [snapped.covers] at first
      rw [add_new known] at member
      cases mem_append.mp member with
      | inl old =>
        obtain ⟨data,choice,rfl⟩ := snapped.chosen candidate old
        exact ⟨data,choice.add fun there => absurd (there ▸ mem_map_of_mem choice.1) first,rfl⟩
      | inr new =>
        refine ⟨added,(choice_iff (by simp)).mpr fun other inside there => ?_,mem_singleton.mp new⟩
        cases mem_append.mp inside with
        | inl old => exact absurd (there ▸ mem_map_of_mem old) first
        | inr last =>
          rw [mem_singleton.mp last]
          exact Better.irrefl added

private theorem foldl_add (distinct : DistinctPositions segments) :
    Snapped facade ratio segments (segments.foldl (fun candidates data => add_to_candidates facade ratio data candidates) []) := by
  have all : ∀ done rest, segments = done ++ rest → Snapped facade ratio done
      (done.foldl (fun candidates data => add_to_candidates facade ratio data candidates) []) := by
    intro done
    induction done using List.reverseRecOn with
    | nil => exact fun _ _ => ⟨nodup_nil,by simp,by simp⟩
    | append_singleton done added ih =>
      intro rest whole
      rw [append_assoc] at whole
      rw [foldl_append]
      refine (ih _ whole).add fun data member same => ?_
      rw [DistinctPositions,whole] at distinct
      exact (pairwise_append.mp distinct).2.2 data member added (by simp) same
  exact all segments [] (append_nil _).symm

private theorem makeAlternativeBigCandidates_eq (nearest_coord : Coordinate) (results : List CandidateSegment) :
    MakeAlternativeBigCandidates facade ratio nearest_coord results =
      ((((results.filter (·.fixed_projected_coordinate = nearest_coord)).map (·.data)).foldl
          (fun candidates data => add_to_candidates facade ratio data candidates) []),
        (((results.filter (·.fixed_projected_coordinate ≠ nearest_coord)).map (·.data)).foldl
          (fun candidates data => add_to_candidates facade ratio data candidates) [])) := by
  induction results using List.reverseRecOn with
  | nil => rfl
  | append_singleton results segment ih =>
    rw [MakeAlternativeBigCandidates,foldl_append,← MakeAlternativeBigCandidates,ih]
    by_cases near : segment.fixed_projected_coordinate = nearest_coord
    · simp [near,filter_append]
    · simp [near,filter_append]

private theorem Better.total (apart : data.fwd_segment_position ≠ other.fwd_segment_position) : Better data other ∨ Better other data := by
  unfold Better
  have := apart.lt_or_gt
  tauto

private theorem Choice.unique (distinct : DistinctPositions segments) (choice : Choice segments data) (choice' : Choice segments other)
    (same : ids data = ids other) : data = other := by
  by_contra different
  have symmetric : Std.Symm fun data other : EdgeBasedNodeSegment =>
      ids data = ids other → data.fwd_segment_position ≠ other.fwd_segment_position :=
    ⟨fun _ _ apart there => (apart there.symm).symm⟩
  have apart := Pairwise.forall distinct choice.1 choice'.1 different same
  have unbeaten := (choice_iff choice.1).mp choice other choice'.1 same.symm
  have unbeaten' := (choice_iff choice'.1).mp choice' data choice.1 same
  exact (Better.total apart).elim unbeaten' unbeaten

private theorem Snapped.mem_iff (distinct : DistinctPositions segments) (snapped : Snapped facade ratio segments candidates)
    {candidate : PhantomNode} :
    candidate ∈ candidates ↔ ∃ data, Choice segments data ∧ candidate = MakePhantomNode facade data (ratio data) := by
  refine ⟨snapped.chosen candidate,?_⟩
  rintro ⟨data,choice,rfl⟩
  obtain ⟨candidate,member,there⟩ := mem_map.mp ((snapped.covers _).mpr (mem_map_of_mem choice.1))
  obtain ⟨other,choice',rfl⟩ := snapped.chosen candidate member
  rwa [choice.unique distinct choice' there.symm]

private theorem Snapped.perm {segments' : List EdgeBasedNodeSegment} {candidates' : List PhantomNode} (perm : segments.Perm segments')
    (distinct : DistinctPositions segments) (distinct' : DistinctPositions segments')
    (snapped : Snapped facade ratio segments candidates) (snapped' : Snapped facade ratio segments' candidates') :
    candidates.Perm candidates' := by
  refine (perm_ext_iff_of_nodup (snapped.distinct.of_map _) (snapped'.distinct.of_map _)).mpr fun candidate => ?_
  rw [snapped.mem_iff distinct,snapped'.mem_iff distinct']
  simp only [Choice,perm.mem_iff]

def segmentsAt (nearest_coord : Coordinate) (results : List CandidateSegment) : List EdgeBasedNodeSegment :=
  (results.filter (·.fixed_projected_coordinate = nearest_coord)).map (·.data)
def segmentsElsewhere (nearest_coord : Coordinate) (results : List CandidateSegment) : List EdgeBasedNodeSegment :=
  (results.filter (·.fixed_projected_coordinate ≠ nearest_coord)).map (·.data)

/-- One phantom node for each segment at the nearest location and one for each segment elsewhere, for any order. -/
theorem one_candidate_per_segment (facade : Facade) (ratio : EdgeBasedNodeSegment → Ratio) (nearest_coord : Coordinate)
    (results : List CandidateSegment) (distinct : DistinctPositions (results.map (·.data))) :
    (Snapped facade ratio (segmentsAt nearest_coord results) (MakeAlternativeBigCandidates facade ratio nearest_coord results).1 ∧
      Snapped facade ratio (segmentsElsewhere nearest_coord results)
        (MakeAlternativeBigCandidates facade ratio nearest_coord results).2) ∧
    ∀ results' : List CandidateSegment, results.Perm results' →
      (MakeAlternativeBigCandidates facade ratio nearest_coord results).1.Perm
        (MakeAlternativeBigCandidates facade ratio nearest_coord results').1 ∧
      (MakeAlternativeBigCandidates facade ratio nearest_coord results).2.Perm
        (MakeAlternativeBigCandidates facade ratio nearest_coord results').2 := by
  have parts : ∀ {results : List CandidateSegment}, DistinctPositions (results.map (·.data)) → ∀ p : CandidateSegment → Bool,
      DistinctPositions ((results.filter p).map (·.data)) :=
    fun distinct p => distinct.sublist (filter_sublist.map _)
  have snapped : ∀ {results : List CandidateSegment}, DistinctPositions (results.map (·.data)) →
      Snapped facade ratio (segmentsAt nearest_coord results) (MakeAlternativeBigCandidates facade ratio nearest_coord results).1 ∧
      Snapped facade ratio (segmentsElsewhere nearest_coord results)
        (MakeAlternativeBigCandidates facade ratio nearest_coord results).2 := fun distinct => by
    rw [makeAlternativeBigCandidates_eq]
    exact ⟨foldl_add (parts distinct _),foldl_add (parts distinct _)⟩
  refine ⟨snapped distinct,fun results' perm => ?_⟩
  have distinct' : DistinctPositions (results'.map (·.data)) :=
    (perm.map _).pairwise distinct fun apart there => (apart there.symm).symm
  exact ⟨((snapped distinct).1).perm ((perm.filter _).map _) (parts distinct _) (parts distinct' _) (snapped distinct').1,
    ((snapped distinct).2).perm ((perm.filter _).map _) (parts distinct _) (parts distinct' _) (snapped distinct').2⟩

/-- Two parts of the street, one of which may only be used in one direction, and a street that turns off. -/
theorem one_candidate_per_segment_street :
    Snapped twoParts (fun _ => beginning) [{ firstPart with reverse_segment_id := ⟨1,false⟩ },secondPart]
      (MakeAlternativeBigCandidates twoParts (fun _ => beginning) ⟨1,1⟩
        [⟨⟨1,1⟩,{ firstPart with reverse_segment_id := ⟨1,false⟩ }⟩,⟨⟨2,1⟩,turnedOff⟩,⟨⟨1,1⟩,secondPart⟩]).1 :=
  (one_candidate_per_segment twoParts (fun _ => beginning) ⟨1,1⟩
    [⟨⟨1,1⟩,{ firstPart with reverse_segment_id := ⟨1,false⟩ }⟩,⟨⟨2,1⟩,turnedOff⟩,⟨⟨1,1⟩,secondPart⟩]
    (by simp [DistinctPositions,ids,firstPart,secondPart,turnedOff])).1.1

end Osrm.GeospatialQuery
