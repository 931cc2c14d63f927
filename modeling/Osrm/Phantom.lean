import Osrm.Typedefs
import Osrm.Heap

/-!
`engine::PhantomNode`, a location snapped to a segment, and the functions of
`routing_base` that put the segments of a list of candidates into a heap. A segment
of a source starts with its weight up to the location taken away; one of a target
starts with it.
-/
namespace Osrm.Phantom
open Typedefs Heap

structure SegmentID where
  id : NodeID
  enabled : Bool
  deriving DecidableEq, Repr

/-- `PhantomNode`, with the fields that the searches read. -/
structure PhantomNode where
  forward_segment_id : SegmentID
  reverse_segment_id : SegmentID
  forward_weight : EdgeWeight
  reverse_weight : EdgeWeight
  forward_weight_offset : EdgeWeight
  reverse_weight_offset : EdgeWeight
  forward_distance : EdgeDistance
  reverse_distance : EdgeDistance
  forward_distance_offset : EdgeDistance
  reverse_distance_offset : EdgeDistance
  forward_duration : EdgeDuration
  reverse_duration : EdgeDuration
  forward_duration_offset : EdgeDuration
  reverse_duration_offset : EdgeDuration
  is_valid_forward_source : Bool
  is_valid_forward_target : Bool
  is_valid_reverse_source : Bool
  is_valid_reverse_target : Bool
  deriving DecidableEq, Repr

abbrev PhantomNodeCandidates := List PhantomNode

namespace PhantomNode
variable (phantom : PhantomNode)

def GetForwardWeightPlusOffset : EdgeWeight := phantom.forward_weight_offset + phantom.forward_weight
def GetReverseWeightPlusOffset : EdgeWeight := phantom.reverse_weight_offset + phantom.reverse_weight
def GetForwardDuration : EdgeDuration := phantom.forward_duration + phantom.forward_duration_offset
def GetReverseDuration : EdgeDuration := phantom.reverse_duration + phantom.reverse_duration_offset
def GetForwardDistance : EdgeDistance := phantom.forward_distance + phantom.forward_distance_offset
def GetReverseDistance : EdgeDistance := phantom.reverse_distance + phantom.reverse_distance_offset
def IsValidForwardSource : Bool := phantom.forward_segment_id.enabled && phantom.is_valid_forward_source
def IsValidForwardTarget : Bool := phantom.forward_segment_id.enabled && phantom.is_valid_forward_target
def IsValidReverseSource : Bool := phantom.reverse_segment_id.enabled && phantom.is_valid_reverse_source
def IsValidReverseTarget : Bool := phantom.reverse_segment_id.enabled && phantom.is_valid_reverse_target

end PhantomNode

structure Start where
  node : NodeID
  weight : EdgeWeight
  duration : EdgeDuration
  distance : EdgeDistance

/-- The segments that `insertSourceInHeap` inserts, in its order. -/
def sourceStarts (candidates : PhantomNodeCandidates) : List Start :=
  candidates.flatMap fun phantom =>
    (if phantom.IsValidForwardSource then
      [⟨phantom.forward_segment_id.id,0 - phantom.GetForwardWeightPlusOffset,0 - phantom.GetForwardDuration,
        0 - phantom.GetForwardDistance⟩]
    else []) ++
    if phantom.IsValidReverseSource then
      [⟨phantom.reverse_segment_id.id,0 - phantom.GetReverseWeightPlusOffset,0 - phantom.GetReverseDuration,
        0 - phantom.GetReverseDistance⟩]
    else []

/-- The segments that `insertTargetInHeap` inserts, in its order. -/
def targetStarts (candidates : PhantomNodeCandidates) : List Start :=
  candidates.flatMap fun phantom =>
    (if phantom.IsValidForwardTarget then
      [⟨phantom.forward_segment_id.id,phantom.GetForwardWeightPlusOffset,phantom.GetForwardDuration,
        phantom.GetForwardDistance⟩]
    else []) ++
    if phantom.IsValidReverseTarget then
      [⟨phantom.reverse_segment_id.id,phantom.GetReverseWeightPlusOffset,phantom.GetReverseDuration,
        phantom.GetReverseDistance⟩]
    else []

variable {Data : Type} (data : NodeID → EdgeDuration → EdgeDistance → Data)

def insertStarts (heap : QueryHeap NodeID Data) (starts : List Start) : QueryHeap NodeID Data :=
  starts.foldl (fun heap s => heap.Insert s.node s.weight (data s.node s.duration s.distance)) heap

def insertSourceInHeap (heap : QueryHeap NodeID Data) (source_candidates : PhantomNodeCandidates) :
    QueryHeap NodeID Data := insertStarts data heap (sourceStarts source_candidates)
def insertTargetInHeap (heap : QueryHeap NodeID Data) (target_candidates : PhantomNodeCandidates) :
    QueryHeap NodeID Data := insertStarts data heap (targetStarts target_candidates)

theorem mem_insertStarts {heap : QueryHeap NodeID Data} {starts : List Start} {e : HeapNode NodeID Data} :
    e ∈ (insertStarts data heap starts).inserted_nodes ↔ e ∈ heap.inserted_nodes ∨
      ∃ s ∈ starts, e = ⟨s.node,s.weight,data s.node s.duration s.distance,false⟩ := by
  induction starts generalizing heap with
  | nil => simp [insertStarts]
  | cons s rest ih =>
    rw [show insertStarts data heap (s :: rest) =
      insertStarts data (heap.Insert s.node s.weight (data s.node s.duration s.distance)) rest from rfl,ih]
    simp only [QueryHeap.Insert,List.mem_cons,exists_eq_or_imp]
    tauto

end Osrm.Phantom
