import Osrm.Phantom
import Osrm.Rectangle
import Osrm.Scan

/-!
`engine::Hint`: segments that a client sends back instead of a search for a coordinate. What `Hint::IsValid` accepts
are phantom nodes with any values; the heaps of the searches take every node of the graph at most once.
-/
namespace Osrm.Hint
open List
open Typedefs Heap Phantom
open Rectangle (Coordinate)

/-- `Coordinate::IsValid`. -/
def isValidCoordinate (coordinate : Coordinate) : Bool :=
  !(decide (coordinate.lat > 90000000) || decide (coordinate.lat < -90000000) || decide (coordinate.lon > 180000000) ||
    decide (coordinate.lon < -180000000))

/-- `SegmentHint`; the locations of its phantom node are fields of their own. -/
structure SegmentHint where
  phantom : PhantomNode
  location : Coordinate
  input_location : Coordinate
  data_checksum : ℕ
  deriving DecidableEq, Repr

/-- `SegmentHint::IsValid`, with the checksum of the facade. -/
def SegmentHint.IsValid (seg_hint : SegmentHint) (new_input_coordinates : Coordinate) (GetCheckSum : ℕ) : Bool :=
  let is_same_input_coordinate := new_input_coordinates.lon == seg_hint.input_location.lon &&
    new_input_coordinates.lat == seg_hint.input_location.lat
  is_same_input_coordinate && isValidCoordinate seg_hint.location && GetCheckSum == seg_hint.data_checksum

/-- The loop of `Hint::IsValid`, with the sets of the segments that were seen. -/
def noDuplicates : List SegmentHint → List NodeID → List NodeID → Bool
  | [], _, _ => true
  | seg_hint :: segment_hints, forward_segments, reverse_segments =>
    !forward_segments.contains seg_hint.phantom.forward_segment_id.id &&
      !reverse_segments.contains seg_hint.phantom.reverse_segment_id.id &&
      noDuplicates segment_hints (seg_hint.phantom.forward_segment_id.id :: forward_segments)
        (seg_hint.phantom.reverse_segment_id.id :: reverse_segments)

/-- `Hint::IsValid`. -/
def IsValid (segment_hints : List SegmentHint) (new_input_coordinates : Coordinate) (GetCheckSum : ℕ) : Bool :=
  (segment_hints.all fun seg_hint => seg_hint.IsValid new_input_coordinates GetCheckSum) && noDuplicates segment_hints [] []

section Heaps
variable (heap : QueryHeap NodeID NodeID)

def insertSourceInForwardHeap (source : PhantomNode) : QueryHeap NodeID NodeID :=
  let heap := if source.IsValidForwardSource then
    heap.Insert source.forward_segment_id.id (0 - source.GetForwardWeightPlusOffset) source.forward_segment_id.id else heap
  if source.IsValidReverseSource then
    heap.Insert source.reverse_segment_id.id (0 - source.GetReverseWeightPlusOffset) source.reverse_segment_id.id
  else heap

def insertTargetInReverseHeap (target : PhantomNode) : QueryHeap NodeID NodeID :=
  let heap := if target.IsValidForwardTarget then
    heap.Insert target.forward_segment_id.id target.GetForwardWeightPlusOffset target.forward_segment_id.id else heap
  if target.IsValidReverseTarget then
    heap.Insert target.reverse_segment_id.id target.GetReverseWeightPlusOffset target.reverse_segment_id.id
  else heap

end Heaps

def insertNodesInHeaps (forward_heap reverse_heap : QueryHeap NodeID NodeID) (source_phantoms target_phantoms : PhantomNodeCandidates) :
    QueryHeap NodeID NodeID × QueryHeap NodeID NodeID :=
  (source_phantoms.foldl insertSourceInForwardHeap forward_heap,target_phantoms.foldl insertTargetInReverseHeap reverse_heap)
def parentOnly (id : NodeID) (_ : EdgeDuration) (_ : EdgeDistance) : NodeID := id

private theorem insertStarts_append {Data : Type} (data : NodeID → EdgeDuration → EdgeDistance → Data) (heap : QueryHeap NodeID Data)
    (starts rest : List Start) : insertStarts data heap (starts ++ rest) = insertStarts data (insertStarts data heap starts) rest :=
  foldl_append

private theorem insertNodesInHeaps_eq (forward_heap reverse_heap : QueryHeap NodeID NodeID)
    (source_phantoms target_phantoms : PhantomNodeCandidates) :
    insertNodesInHeaps forward_heap reverse_heap source_phantoms target_phantoms =
      (insertSourceInHeap parentOnly forward_heap source_phantoms,insertTargetInHeap parentOnly reverse_heap target_phantoms) := by
  have source (heap : QueryHeap NodeID NodeID) : source_phantoms.foldl insertSourceInForwardHeap heap =
      insertSourceInHeap parentOnly heap source_phantoms := by
    induction source_phantoms generalizing heap with
    | nil => rfl
    | cons source rest ih =>
      rw [foldl_cons,ih,insertSourceInHeap,insertSourceInHeap,sourceStarts,sourceStarts,flatMap_cons,insertStarts_append]
      congr 1
      rw [insertStarts_append,insertSourceInForwardHeap]
      split_ifs <;> rfl
  have target (heap : QueryHeap NodeID NodeID) : target_phantoms.foldl insertTargetInReverseHeap heap =
      insertTargetInHeap parentOnly heap target_phantoms := by
    induction target_phantoms generalizing heap with
    | nil => rfl
    | cons target rest ih =>
      rw [foldl_cons,ih,insertTargetInHeap,insertTargetInHeap,targetStarts,targetStarts,flatMap_cons,insertStarts_append]
      congr 1
      rw [insertStarts_append,insertTargetInReverseHeap]
      split_ifs <;> rfl
  exact Prod.ext (source forward_heap) (target reverse_heap)

/-- Every call of `Insert` is for a node of the graph that the heap has not had since it was cleared. -/
def InsertsSafely {Data : Type} (data : NodeID → EdgeDuration → EdgeDistance → Data) (number_of_nodes : ℕ) (starts : List Start) : Prop :=
  ∀ before start after, starts = before ++ start :: after →
    (insertStarts data QueryHeap.Clear before).WasInserted start.node = false ∧ start.node < number_of_nodes

section Safely
variable {Data : Type} {data : NodeID → EdgeDuration → EdgeDistance → Data} {number_of_nodes : ℕ} {starts : List Start}

private theorem wasInserted_iff (starts : List Start) (node : NodeID) :
    (insertStarts data QueryHeap.Clear starts).WasInserted node = false ↔ ∀ start ∈ starts, start.node ≠ node := by
  rw [QueryHeap.WasInserted,QueryHeap.GetHeapNodeIfWasInserted,isSome_find?,any_eq_false]
  constructor
  · intro absent start member same
    refine absent _ ((mem_insertStarts data).mpr (.inr ⟨start,member,rfl⟩)) ?_
    simpa using same
  · intro absent entry member
    rcases (mem_insertStarts data).mp member with old | ⟨start,inside,rfl⟩
    · simp [QueryHeap.Clear] at old
    · simpa using absent start inside

private theorem insertsSafely_iff : InsertsSafely data number_of_nodes starts ↔
    (starts.map (·.node)).Nodup ∧ ∀ start ∈ starts, start.node < number_of_nodes := by
  rw [List.Nodup,pairwise_map,Scan.pairwise_iff_split]
  constructor
  · intro safely
    refine ⟨fun before start after split => (wasInserted_iff before _).mp (safely before start after split).1,fun start member => ?_⟩
    obtain ⟨before,after,split⟩ := append_of_mem member
    exact (safely before start after split).2
  · rintro ⟨distinct,inside⟩ before start after split
    exact ⟨(wasInserted_iff before _).mpr (distinct before start after split),inside start (split ▸ by simp)⟩

end Safely

/-- The segments that are used forward, and those that are used in reverse. -/
def forwardIds (candidates : PhantomNodeCandidates) (use : PhantomNode → Bool) : List NodeID :=
  (candidates.filter use).map (·.forward_segment_id.id)
def reverseIds (candidates : PhantomNodeCandidates) (use : PhantomNode → Bool) : List NodeID :=
  (candidates.filter use).map (·.reverse_segment_id.id)
def Separate (number_of_nodes : ℕ) (forward reverse : List NodeID) : Prop :=
  (∀ id ∈ forward, id ∉ reverse) ∧ ∀ id ∈ forward ++ reverse, id < number_of_nodes

section Valid
variable {segment_hints : List SegmentHint} {new_input_coordinates : Coordinate} {GetCheckSum : ℕ} {candidates : PhantomNodeCandidates}

private theorem noDuplicates_iff (segment_hints : List SegmentHint) (forward_segments reverse_segments : List NodeID) :
    noDuplicates segment_hints forward_segments reverse_segments = true ↔
      ((segment_hints.map (·.phantom.forward_segment_id.id)).Nodup ∧
        ∀ seg_hint ∈ segment_hints, seg_hint.phantom.forward_segment_id.id ∉ forward_segments) ∧
      (segment_hints.map (·.phantom.reverse_segment_id.id)).Nodup ∧
        ∀ seg_hint ∈ segment_hints, seg_hint.phantom.reverse_segment_id.id ∉ reverse_segments := by
  induction segment_hints generalizing forward_segments reverse_segments with
  | nil => simp [noDuplicates]
  | cons seg_hint rest ih =>
    simp only [noDuplicates,ih,Bool.and_eq_true,Bool.not_eq_true',contains_eq_mem,decide_eq_false_iff_not,map_cons,
      nodup_cons,mem_map,mem_cons,not_or,forall_and,forall_eq_or_imp,not_exists,not_and]
    tauto

private theorem nodup_of_valid (accepted : IsValid segment_hints new_input_coordinates GetCheckSum = true) :
    ((segment_hints.map (·.phantom)).map (·.forward_segment_id.id)).Nodup ∧
      ((segment_hints.map (·.phantom)).map (·.reverse_segment_id.id)).Nodup := by
  obtain ⟨⟨forward,-⟩,reverse,-⟩ := (noDuplicates_iff segment_hints [] []).mp (Bool.and_eq_true_iff.mp accepted).2
  rw [map_map,map_map]
  exact ⟨forward,reverse⟩

private theorem flatMap_ite {α β : Type} (p : α → Bool) (f : α → β) (l : List α) :
    (l.flatMap fun a => if p a then [f a] else []) = (l.filter p).map f := by
  induction l with
  | nil => rfl
  | cons a l ih =>
    rw [flatMap_cons,ih,filter_cons]
    split <;> rfl

private theorem starts_perm {starts : List Start} {use use' : PhantomNode → Bool} {forward reverse : PhantomNode → Start}
    (same : starts = candidates.flatMap fun phantom => (if use phantom then [forward phantom] else []) ++
      if use' phantom then [reverse phantom] else [])
    (ids : ∀ phantom, (forward phantom).node = phantom.forward_segment_id.id ∧ (reverse phantom).node = phantom.reverse_segment_id.id) :
    (starts.map (·.node)).Perm (forwardIds candidates use ++ reverseIds candidates use') := by
  subst same
  have parts := ((flatMap_append_perm candidates (fun phantom => if use phantom then [forward phantom] else [])
    fun phantom => if use' phantom then [reverse phantom] else []).map (·.node)).symm
  refine parts.trans (Perm.of_eq ?_)
  rw [map_append,flatMap_ite,flatMap_ite,map_map,map_map,forwardIds,reverseIds]
  congr 1
  · exact map_congr_left fun phantom _ => (ids phantom).1
  · exact map_congr_left fun phantom _ => (ids phantom).2

private theorem safely_iff {Data : Type} (data : NodeID → EdgeDuration → EdgeDistance → Data) (number_of_nodes : ℕ) {starts : List Start}
    {use use' : PhantomNode → Bool} (perm : (starts.map (·.node)).Perm (forwardIds candidates use ++ reverseIds candidates use'))
    (forward : (candidates.map (·.forward_segment_id.id)).Nodup) (reverse : (candidates.map (·.reverse_segment_id.id)).Nodup) :
    InsertsSafely data number_of_nodes starts ↔ Separate number_of_nodes (forwardIds candidates use) (reverseIds candidates use') := by
  have forward' : (forwardIds candidates use).Nodup := forward.sublist ((filter_sublist).map _)
  have reverse' : (reverseIds candidates use').Nodup := reverse.sublist ((filter_sublist).map _)
  have inside : (∀ start ∈ starts, start.node < number_of_nodes) ↔
      ∀ id ∈ forwardIds candidates use ++ reverseIds candidates use', id < number_of_nodes := by
    simp only [← perm.mem_iff,mem_map,forall_exists_index,and_imp,forall_apply_eq_imp_iff₂]
  rw [insertsSafely_iff,perm.nodup_iff,inside,Separate,nodup_append']
  exact and_congr_left fun _ => ⟨fun parts id first second => parts.2.2 first second,fun apart => ⟨forward',reverse',fun id => apart id⟩⟩

end Valid

/-- The nodes of an accepted hint are inserted as the heaps ask exactly where forward and reverse ids are disjoint and known. -/
theorem accepted_hint_safe_iff {Data : Type} (data : NodeID → EdgeDuration → EdgeDistance → Data) (number_of_nodes : ℕ)
    (segment_hints : List SegmentHint) (new_input_coordinates : Coordinate) (GetCheckSum : ℕ)
    (accepted : IsValid segment_hints new_input_coordinates GetCheckSum = true) :
    let candidates := segment_hints.map (·.phantom)
    (InsertsSafely data number_of_nodes (sourceStarts candidates) ↔ Separate number_of_nodes
      (forwardIds candidates PhantomNode.IsValidForwardSource) (reverseIds candidates PhantomNode.IsValidReverseSource)) ∧
    (InsertsSafely data number_of_nodes (targetStarts candidates) ↔ Separate number_of_nodes
      (forwardIds candidates PhantomNode.IsValidForwardTarget) (reverseIds candidates PhantomNode.IsValidReverseTarget)) := by
  obtain ⟨forward,reverse⟩ := nodup_of_valid accepted
  exact ⟨safely_iff data number_of_nodes (starts_perm rfl fun _ => ⟨rfl,rfl⟩) forward reverse,
    safely_iff data number_of_nodes (starts_perm rfl fun _ => ⟨rfl,rfl⟩) forward reverse⟩

def bothWays (forward reverse : NodeID) : PhantomNode :=
  ⟨⟨forward,true⟩,⟨reverse,true⟩,1,1,0,0,1,1,0,0,1,1,0,0,true,true,true,true⟩

theorem two_way_hint_safe :
    let hint : SegmentHint := ⟨bothWays 3 4,⟨0,0⟩,⟨0,0⟩,17⟩
    IsValid [hint] ⟨0,0⟩ 17 = true ∧
      (InsertsSafely parentOnly 5 (sourceStarts [bothWays 3 4]) ↔ Separate 5 [3] [4]) ∧
      (InsertsSafely parentOnly 5 (targetStarts [bothWays 3 4]) ↔ Separate 5 [3] [4]) :=
  ⟨by decide,accepted_hint_safe_iff parentOnly 5 [⟨bothWays 3 4,⟨0,0⟩,⟨0,0⟩,17⟩] ⟨0,0⟩ 17 (by decide)⟩

/-- One segment id for both directions is accepted, and then inserted twice. -/
theorem one_id_twice :
    let hint : SegmentHint := ⟨bothWays 3 3,⟨0,0⟩,⟨0,0⟩,17⟩
    IsValid [hint] ⟨0,0⟩ 17 = true ∧ ¬ InsertsSafely parentOnly 5 (sourceStarts [hint.phantom]) := by
  refine ⟨by decide,fun safely => ?_⟩
  have second := safely [⟨3,-1,-1,-1⟩] ⟨3,-1,-1,-1⟩ [] rfl
  exact absurd second.1 (by decide)

end Osrm.Hint
