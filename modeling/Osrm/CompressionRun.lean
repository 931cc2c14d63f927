import Mathlib.Data.List.Destutter
import Osrm.GraphCompressor

/-!
What compressing the node-based graph keeps. Every edge has a geometry at all times, its bucket or the single segment
that it is, and this geometry goes over original edges from the edge's source to its target (`Along`).
-/
namespace Osrm.CompressionRun
open List Option Function
open Typedefs
open CompressedGeometry
open SegmentData
open GraphCompressor
open CompressedEdgeContainer
open Updater (INVALID_SEGMENT_WEIGHT MAX_SEGMENT_WEIGHT)

variable {original graph after : NodeBasedDynamicGraph} {container : CompressedEdgeContainer} {a : Around}

def edgeSegment (graph : NodeBasedDynamicGraph) (e : EdgeID) : OnewayEdgeBucket :=
  singleSegment (graph.GetTarget e) (graph.GetEdgeData e).weight (graph.GetEdgeData e).duration

/-- The segment of a penalty at a node, if there is one. -/
inductive PenaltyAt (v : NodeID) : OnewayEdgeBucket → Prop
  | without : PenaltyAt v []
  | single (weight : EdgeWeight) (duration : EdgeDuration) : PenaltyAt v (singleSegment v weight duration)

/-- Segments along original edges: each edge's segment, and perhaps that of a penalty at its end. -/
inductive Along (original : NodeBasedDynamicGraph) : NodeID → NodeID → List EdgeID → OnewayEdgeBucket → Prop
  | last {e : EdgeID} {s : NodeID} (live : Live original e s) : Along original s (original.GetTarget e) [e] (edgeSegment original e)
  | step {e : EdgeID} {s t : NodeID} {route : List EdgeID} {penalty segments : OnewayEdgeBucket} (live : Live original e s)
      (at_end : PenaltyAt (original.GetTarget e) penalty) (rest : Along original (original.GetTarget e) t route segments) :
      Along original s t (e :: route) (edgeSegment original e ++ (penalty ++ segments))

private theorem pack_clip (value : ℤ) : pack (clip value) = clip value := by
  unfold pack clip
  have invalid : INVALID_SEGMENT_WEIGHT = 2 ^ 22 - 1 := rfl
  have largest : MAX_SEGMENT_WEIGHT = 2 ^ 22 - 2 := rfl
  split
  · rw [largest]
    rfl
  next fits =>
    rw [Clipped,not_or,invalid] at fits
    exact Int.emod_eq_of_lt (by lia) (by lia)

namespace Along
variable {s v t : NodeID} {route route' : List EdgeID} {segments segments' penalty : OnewayEdgeBucket}

private theorem join (first : Along original s v route segments) (at_v : PenaltyAt v penalty) (second : Along original v t route' segments') :
    Along original s t (route ++ route') (segments ++ (penalty ++ segments')) := by
  induction first with
  | last live => exact .step live at_v second
  | step live at_end rest ih =>
    have more := Along.step live at_end (ih at_v second)
    simpa [append_assoc] using more

private theorem last_node (along : Along original s t route segments) : ∃ node, segments.getLast? = some node ∧ node.node_id = t := by
  induction along with
  | last live => exact ⟨_,rfl,rfl⟩
  | step live at_end rest ih =>
    obtain ⟨node,last,target⟩ := ih
    refine ⟨node,?_,target⟩
    rw [← append_assoc,getLast?_append,last]
    rfl

private theorem first_node (valid : WellFormed original) (along : Along original s t route segments) :
    ∃ node rest, segments = node :: rest ∧ node.node_id ≠ s := by
  cases along with
  | last live => exact ⟨_,_,rfl,valid.no_loop _ _ live⟩
  | step live at_end rest => exact ⟨_,_,rfl,valid.no_loop _ _ live⟩

private theorem nodes (valid : WellFormed original) (along : Along original s t route segments) :
    (segments.map (·.node_id)).destutter (· ≠ ·) = route.map original.GetTarget := by
  induction along with
  | last live => simp [edgeSegment,singleSegment,destutter_singleton]
  | step live at_end rest ih =>
    obtain ⟨node,more,shape,ne⟩ := rest.first_node valid
    subst shape
    cases at_end with
    | without => simpa [edgeSegment,singleSegment,destutter_cons',destutter'_cons,ne.symm] using ih
    | single weight duration => simpa [edgeSegment,singleSegment,destutter_cons',destutter'_cons,ne.symm] using ih

private theorem packed (along : Along original s t route segments) :
    ∀ node ∈ segments, pack node.weight = node.weight ∧ pack node.duration = node.duration := by
  have single : ∀ (v : NodeID) (weight duration : ℤ), ∀ node ∈ singleSegment v weight duration,
      pack node.weight = node.weight ∧ pack node.duration = node.duration := by
    intro v weight duration node member
    rw [singleSegment,mem_singleton] at member
    subst member
    exact ⟨pack_clip weight,pack_clip duration⟩
  induction along with
  | last live => exact single _ _ _
  | step live at_end rest ih =>
    intro node member
    rcases mem_append.mp member with here | later
    · exact single _ _ _ node here
    · rcases mem_append.mp later with between | later
      · cases at_end with
        | without => simp at between
        | single weight duration => exact single _ _ _ node between
      · exact ih node later

end Along

/-! ### The invariant -/

def geometryOf (graph : NodeBasedDynamicGraph) (container : CompressedEdgeContainer) (e : EdgeID) : OnewayEdgeBucket :=
  geometry container e (graph.GetTarget e) (graph.GetEdgeData e).weight (graph.GetEdgeData e).duration
def sums (bucket : OnewayEdgeBucket) : EdgeWeight × EdgeDuration := ((bucket.map (·.weight)).sum,(bucket.map (·.duration)).sum)

@[simp]
theorem sums_append (first second : OnewayEdgeBucket) : sums (first ++ second) = sums first + sums second := by
  simp [sums]

private theorem sums_single {v : NodeID} {weight duration : ℤ} (fits : clips weight duration = 0) :
    sums (singleSegment v weight duration) = (weight,duration) := by
  unfold clips at fits
  have light : ¬Clipped weight := by
    intro clipped
    simp [clipped] at fits
  have short : ¬Clipped duration := by
    intro clipped
    simp [clipped] at fits
  simp [sums,singleSegment,clip,light,short]

structure Routes (original graph : NodeBasedDynamicGraph) (container : CompressedEdgeContainer) (route : EdgeID → List EdgeID) : Prop where
  along : ∀ e s, Live graph e s → Along original s (graph.GetTarget e) (route e) (geometryOf graph container e)
  single : ∀ e s, Live graph e s → container.GetBucketReference e = none → (route e).length = 1
  covered : ∀ e s, Live original e s → ∃ e' s', Live graph e' s' ∧ e ∈ route e'
  once : ∀ e e' s s' o, Live graph e s → Live graph e' s' → o ∈ route e → o ∈ route e' → e = e'

/-- Opposite edges go over the same nodes. -/
def Mirrored (graph : NodeBasedDynamicGraph) (container : CompressedEdgeContainer) : Prop :=
  ∀ e e' s, Live graph e s → Live graph e' (graph.GetTarget e) → graph.GetTarget e' = s →
    s :: (geometryOf graph container e).map (·.node_id) =
      (graph.GetTarget e :: (geometryOf graph container e').map (·.node_id)).reverse

structure Kept (original graph : NodeBasedDynamicGraph) (container : CompressedEdgeContainer) : Prop where
  valid : WellFormed graph
  owns : OwnsBuckets container
  filled : Filled container
  keys : ∀ e bucket, container.GetBucketReference e = some bucket → ∃ s, Live graph e s
  routes : ∃ route, Routes original graph container route
  sums : container.clipped_weights = 0 → ∀ e bucket, container.GetBucketReference e = some bucket →
    sums bucket = ((graph.GetEdgeData e).weight,(graph.GetEdgeData e).duration)
  mirrored : Mirrored graph container
  fresh : container.segment_data = none

private theorem Kept.start (valid : WellFormed original) : Kept original original empty := by
  obtain ⟨owns,nothing,_⟩ := empty_owns
  have single : ∀ e, geometryOf original empty e = edgeSegment original e := by
    intro e
    rw [geometryOf,geometry,nothing,getD_none,edgeSegment]
  have none : ∀ e bucket, ¬empty.GetBucketReference e = some bucket := by
    intro e bucket found
    rw [nothing] at found
    simp at found
  refine ⟨valid,owns,fun e bucket found => absurd found (none e bucket),fun e bucket found => absurd found (none e bucket),?_,
    fun _ e bucket found => absurd found (none e bucket),?_,?_⟩
  · refine ⟨fun e => [e],?_,fun _ _ _ _ => rfl,fun e s live => ⟨e,s,live,mem_singleton.mpr rfl⟩,?_⟩
    · intro e s live
      rw [single]
      exact .last live
    · intro e e' s s' o _ _ first second
      rw [mem_singleton] at first second
      exact first.symm.trans second
  · intro e e' s live live' back
    rw [single,single]
    simp [edgeSegment,singleSegment,back]
  · rw [empty,IncreaseFreeList_eq]

private theorem Kept.alike (kept : Kept original graph container) (alike : Alike graph after) : Kept original after container := by
  have same : ∀ e, geometryOf after container e = geometryOf graph container e := by
    intro e
    rw [geometryOf,geometryOf,alike.target,alike.weight,alike.duration]
  obtain ⟨route,routes⟩ := kept.routes
  constructor
  · have valid := kept.valid
    constructor
    · intro e s live
      rw [alike.number]
      exact valid.inside e s ((alike.live e s).mp live)
    · intro e s s' live live'
      exact valid.apart e s s' ((alike.live e s).mp live) ((alike.live e s').mp live')
    · intro e s live
      rw [alike.target]
      exact valid.no_loop e s ((alike.live e s).mp live)
    · intro e e' s live live' target
      rw [alike.target,alike.target] at target
      exact valid.simple e e' s ((alike.live e s).mp live) ((alike.live e' s).mp live') target
    · intro e s live
      obtain ⟨e',live',target⟩ := valid.opposite e s ((alike.live e s).mp live)
      refine ⟨e',?_,?_⟩
      · rw [alike.target]
        exact (alike.live e' _).mpr live'
      · rw [alike.target]
        exact target
  · exact kept.owns
  · exact kept.filled
  · intro e bucket found
    obtain ⟨s,live⟩ := kept.keys e bucket found
    exact ⟨s,(alike.live e s).mpr live⟩
  · refine ⟨route,?_,?_,?_,?_⟩
    · intro e s live
      rw [same,alike.target]
      exact routes.along e s ((alike.live e s).mp live)
    · intro e s live
      exact routes.single e s ((alike.live e s).mp live)
    · intro e s live
      obtain ⟨e',s',live',member⟩ := routes.covered e s live
      exact ⟨e',s',(alike.live e' s').mpr live',member⟩
    · intro e e' s s' o live live'
      exact routes.once e e' s s' o ((alike.live e s).mp live) ((alike.live e' s').mp live')
  · intro unclipped e bucket found
    rw [alike.weight,alike.duration]
    exact kept.sums unclipped e bucket found
  · intro e e' s live live' back
    rw [same,same,alike.target]
    rw [alike.target] at live' back
    exact kept.mirrored e e' s ((alike.live e s).mp live) ((alike.live e' _).mp live') back
  · exact kept.fresh

/-! ### A node is compressed -/

def penaltyOf (a : Around) (penalty : NodePenalty) : OnewayEdgeBucket := penaltySegment a.node_v penalty.weight penalty.duration

private theorem penaltyOf_at (a : Around) (penalty : NodePenalty) : PenaltyAt a.node_v (penaltyOf a penalty) := by
  unfold penaltyOf penaltySegment
  split
  · exact .single _ _
  · exact .without

private theorem sums_penaltyOf {penalty : NodePenalty}
    (fits : (if HasPenalty penalty.weight penalty.duration then clips penalty.weight penalty.duration else 0) = 0) :
    sums (penaltyOf a penalty) = penalty.added := by
  unfold penaltyOf penaltySegment NodePenalty.added
  by_cases has : HasPenalty penalty.weight penalty.duration
  · rw [if_pos has] at fits ⊢
    rw [if_pos has]
    exact sums_single fits
  · rw [if_neg has,if_neg has]
    rfl

/-- The geometries of both directions of a compressed node. -/
structure Stored (graph : NodeBasedDynamicGraph) (container stored : CompressedEdgeContainer) (a : Around)
    (forward reverse : NodePenalty) : Prop where
  owns : OwnsBuckets stored
  bucket_forward : stored.GetBucketReference a.forward_e1 =
    some (geometryOf graph container a.forward_e1 ++ (penaltyOf a forward ++ geometryOf graph container a.forward_e2))
  bucket_reverse : stored.GetBucketReference a.reverse_e1 =
    some (geometryOf graph container a.reverse_e1 ++ (penaltyOf a reverse ++ geometryOf graph container a.reverse_e2))
  removed_forward : stored.GetBucketReference a.forward_e2 = none
  removed_reverse : stored.GetBucketReference a.reverse_e2 = none
  others : ∀ e, e ≠ a.forward_e1 → e ≠ a.reverse_e1 → e ≠ a.forward_e2 → e ≠ a.reverse_e2 →
    stored.GetBucketReference e = container.GetBucketReference e
  unclipped : stored.clipped_weights = 0 → container.clipped_weights = 0 ∧
    (∀ e, e = a.forward_e1 ∨ e = a.forward_e2 ∨ e = a.reverse_e1 ∨ e = a.reverse_e2 →
      firstClips container e (graph.GetEdgeData e).weight (graph.GetEdgeData e).duration = 0) ∧
    ∀ penalty : NodePenalty, penalty = forward ∨ penalty = reverse →
      (if HasPenalty penalty.weight penalty.duration then clips penalty.weight penalty.duration else 0) = 0
  fresh : stored.segment_data = container.segment_data

variable {bucket : OnewayEdgeBucket}

private theorem filled_joined {first second : EdgeID} {stored : CompressedEdgeContainer}
    (filled : Filled container) (ne_nil : bucket ≠ [])
    (buckets : stored.GetBucketReference = Function.update (Function.update container.GetBucketReference first (some bucket)) second none) :
    Filled stored := by
  intro e found at_e
  rw [buckets] at at_e
  by_cases is_second : e = second
  · simp [is_second] at at_e
  · rw [update_of_ne is_second] at at_e
    by_cases is_first : e = first
    · rw [is_first,update_self,some_inj] at at_e
      rw [← at_e]
      exact ne_nil
    · rw [update_of_ne is_first] at at_e
      exact filled e found at_e

private theorem geometry_ne_nil (filled : Filled container) (e : EdgeID) (target : NodeID) (weight duration : ℤ) :
    geometry container e target weight duration ≠ [] := by
  unfold geometry
  cases found : container.GetBucketReference e with
  | none => simp [singleSegment]
  | some bucket => exact filled e bucket found

private theorem storeGeometries_spec (valid : WellFormed graph) (around : IsAround graph a) (owns : OwnsBuckets container)
    (filled : Filled container) (forward reverse : NodePenalty) :
    Stored graph container (storeGeometries container graph a forward reverse) a forward reverse ∧
      Filled (storeGeometries container graph a forward reverse) := by
  have e1 := around.e1_ne valid
  have apart := @IsAround.e1_ne_e2 _ _ around valid
  obtain ⟨middle,middle_eq⟩ : ∃ middle, container.CompressEdge a.forward_e1 a.forward_e2 a.node_v a.node_w
    (graph.GetEdgeData a.forward_e1).weight (graph.GetEdgeData a.forward_e2).weight (graph.GetEdgeData a.forward_e1).duration
    (graph.GetEdgeData a.forward_e2).duration forward.weight forward.duration = middle := ⟨_,rfl⟩
  obtain ⟨stored,stored_eq⟩ : ∃ stored, middle.CompressEdge a.reverse_e1 a.reverse_e2 a.node_v a.node_u
    (graph.GetEdgeData a.reverse_e1).weight (graph.GetEdgeData a.reverse_e2).weight (graph.GetEdgeData a.reverse_e1).duration
    (graph.GetEdgeData a.reverse_e2).duration reverse.weight reverse.duration = stored := ⟨_,rfl⟩
  have result : storeGeometries container graph a forward reverse = stored := by rw [← stored_eq,← middle_eq,storeGeometries]
  rw [result]
  obtain ⟨middle_owns,middle_buckets,middle_clipped⟩ :=
    CompressEdge_spec owns filled (apart (.inl rfl) (.inl rfl)) _ _ _ _ _ _ _ _ middle_eq
  have middle_filled : Filled middle := filled_joined filled (by simp [geometry_ne_nil filled]) middle_buckets
  obtain ⟨stored_owns,stored_buckets,stored_clipped⟩ :=
    CompressEdge_spec middle_owns middle_filled (apart (.inr rfl) (.inr rfl)) _ _ _ _ _ _ _ _ stored_eq
  have stored_filled : Filled stored := filled_joined middle_filled (by simp [geometry_ne_nil middle_filled]) stored_buckets
  -- the second call finds the buckets of its edges as they were
  have kept_reverse : ∀ e, e = a.reverse_e1 ∨ e = a.reverse_e2 → middle.GetBucketReference e = container.GetBucketReference e := by
    rintro e (rfl | rfl)
    · rw [middle_buckets,update_of_ne (apart (.inr rfl) (.inl rfl)),update_of_ne e1.symm]
    · rw [middle_buckets,update_of_ne around.different.symm,update_of_ne (apart (.inl rfl) (.inr rfl)).symm]
  refine ⟨?_,stored_filled⟩
  constructor
  · exact stored_owns
  · rw [stored_buckets,update_of_ne (apart (.inl rfl) (.inr rfl)),update_of_ne e1,middle_buckets,
      update_of_ne (apart (.inl rfl) (.inl rfl)),update_self,append_assoc]
    unfold geometryOf penaltyOf
    rw [around.forward_e1.2,around.forward_e2.2]
  · rw [stored_buckets,update_of_ne (apart (.inr rfl) (.inr rfl)),update_self,append_assoc]
    unfold geometryOf penaltyOf geometry
    rw [around.reverse_e1.2,around.reverse_e2.2,kept_reverse _ (.inl rfl),kept_reverse _ (.inr rfl)]
  · rw [stored_buckets,update_of_ne around.different,update_of_ne (apart (.inr rfl) (.inl rfl)).symm,middle_buckets,
      update_self]
  · rw [stored_buckets,update_self]
  · intro e not_forward not_reverse not_forward_e2 not_reverse_e2
    rw [stored_buckets,update_of_ne not_reverse_e2,update_of_ne not_reverse,middle_buckets,
      update_of_ne not_forward_e2,update_of_ne not_forward]
  · intro unclipped
    have first : firstClips middle a.reverse_e1 (graph.GetEdgeData a.reverse_e1).weight (graph.GetEdgeData a.reverse_e1).duration =
        firstClips container a.reverse_e1 (graph.GetEdgeData a.reverse_e1).weight (graph.GetEdgeData a.reverse_e1).duration := by
      rw [firstClips,firstClips,kept_reverse _ (.inl rfl)]
    have second : firstClips middle a.reverse_e2 (graph.GetEdgeData a.reverse_e2).weight (graph.GetEdgeData a.reverse_e2).duration =
        firstClips container a.reverse_e2 (graph.GetEdgeData a.reverse_e2).weight (graph.GetEdgeData a.reverse_e2).duration := by
      rw [firstClips,firstClips,kept_reverse _ (.inr rfl)]
    rw [unclipped,middle_clipped,first,second] at stored_clipped
    refine ⟨by omega,?_,?_⟩
    · rintro e (rfl | rfl | rfl | rfl)
      · omega
      · omega
      · omega
      · omega
    · rintro penalty (rfl | rfl)
      · omega
      · omega
  · rw [← stored_eq,CompressEdge_segment_data,← middle_eq,CompressEdge_segment_data]

section Step
variable {stored : CompressedEdgeContainer} {p q forward reverse : NodePenalty} (kept : Kept original graph container)
  (around : IsAround graph a) (merged : Merged graph after a p q) (store : Stored graph container stored a forward reverse)

include kept around in
private theorem untouched_ne {e : EdgeID} {s : NodeID} (live : Live graph e s) (elsewhere : s ≠ a.node_v) :
    e ≠ a.forward_e2 ∧ e ≠ a.reverse_e2 := by
  constructor
  · rintro rfl
    exact elsewhere (kept.valid.apart _ _ _ live around.forward_e2.1)
  · rintro rfl
    exact elsewhere (kept.valid.apart _ _ _ live around.reverse_e2.1)

include kept around store in
private theorem untouched_bucket {e : EdgeID} {s : NodeID} (untouched : Untouched graph after a e s) :
    stored.GetBucketReference e = container.GetBucketReference e := by
  obtain ⟨not_forward,not_reverse⟩ := untouched_ne kept around untouched.live untouched.elsewhere
  exact store.others e untouched.not_forward untouched.not_reverse not_forward not_reverse
include kept around store in
private theorem untouched_geometry {e : EdgeID} {s : NodeID} (untouched : Untouched graph after a e s) :
    geometryOf after stored e = geometryOf graph container e := by
  unfold geometryOf geometry
  rw [untouched_bucket kept around store untouched,untouched.target,untouched.data]
include store in
private theorem joined_forward : geometryOf after stored a.forward_e1 =
    geometryOf graph container a.forward_e1 ++ (penaltyOf a forward ++ geometryOf graph container a.forward_e2) := by
  rw [geometryOf,geometry,store.bucket_forward,getD_some]
include store in
private theorem joined_reverse : geometryOf after stored a.reverse_e1 =
    geometryOf graph container a.reverse_e1 ++ (penaltyOf a reverse ++ geometryOf graph container a.reverse_e2) := by
  rw [geometryOf,geometry,store.bucket_reverse,getD_some]

include kept around merged store in
private theorem stored_cases {e : EdgeID} (found : stored.GetBucketReference e = some bucket) :
    e = a.forward_e1 ∨ e = a.reverse_e1 ∨ ∃ s, Live after e s ∧ Untouched graph after a e s := by
  by_cases is_forward : e = a.forward_e1
  · exact .inl is_forward
  · by_cases is_reverse : e = a.reverse_e1
    · exact .inr (.inl is_reverse)
    · have not_forward : e ≠ a.forward_e2 := by
        rintro rfl
        simp [store.removed_forward] at found
      have not_reverse : e ≠ a.reverse_e2 := by
        rintro rfl
        simp [store.removed_reverse] at found
      rw [store.others e is_forward is_reverse not_forward not_reverse] at found
      obtain ⟨s,live⟩ := kept.keys e bucket found
      have elsewhere : s ≠ a.node_v := by
        rintro rfl
        exact ((around.both e).mp live).elim not_forward not_reverse
      have live_after : Live after e s := (merged.live e s).mpr ⟨live,elsewhere⟩
      rcases merged.cases kept.valid around live_after with ⟨same,_⟩ | ⟨same,_⟩ | untouched
      · exact absurd same is_forward
      · exact absurd same is_reverse
      · exact .inr (.inr ⟨s,live_after,untouched⟩)

include kept around merged store in
private theorem routes_step {route : EdgeID → List EdgeID} (routes : Routes original graph container route) :
    ∃ route, Routes original after stored route := by
  have e1 := around.e1_ne kept.valid
  obtain ⟨joined,joined_eq⟩ : ∃ joined, Function.update (Function.update route a.forward_e1 (route a.forward_e1 ++ route a.forward_e2))
    a.reverse_e1 (route a.reverse_e1 ++ route a.reverse_e2) = joined := ⟨_,rfl⟩
  have at_forward : joined a.forward_e1 = route a.forward_e1 ++ route a.forward_e2 := by simp [← joined_eq,e1]
  have at_reverse : joined a.reverse_e1 = route a.reverse_e1 ++ route a.reverse_e2 := by simp [← joined_eq]
  have at_others : ∀ e, e ≠ a.forward_e1 → e ≠ a.reverse_e1 → joined e = route e := by
    intro e not_forward not_reverse
    simp [← joined_eq,not_forward,not_reverse]
  refine ⟨joined,?_,?_,?_,?_⟩
  · intro e s live
    rcases merged.cases kept.valid around live with ⟨rfl,rfl⟩ | ⟨rfl,rfl⟩ | untouched
    · rw [joined_forward store,merged.target_forward,at_forward]
      have first := routes.along _ _ around.forward_e1.1
      have second := routes.along _ _ around.forward_e2.1
      rw [around.forward_e1.2] at first
      rw [around.forward_e2.2] at second
      exact first.join (penaltyOf_at a forward) second
    · rw [joined_reverse store,merged.target_reverse,at_reverse]
      have first := routes.along _ _ around.reverse_e1.1
      have second := routes.along _ _ around.reverse_e2.1
      rw [around.reverse_e1.2] at first
      rw [around.reverse_e2.2] at second
      exact first.join (penaltyOf_at a reverse) second
    · rw [untouched_geometry kept around store untouched,untouched.target,
        at_others e untouched.not_forward untouched.not_reverse]
      exact routes.along e s untouched.live
  · intro e s live none
    rcases merged.cases kept.valid around live with ⟨rfl,rfl⟩ | ⟨rfl,rfl⟩ | untouched
    · simp [store.bucket_forward] at none
    · simp [store.bucket_reverse] at none
    · rw [untouched_bucket kept around store untouched] at none
      rw [at_others e untouched.not_forward untouched.not_reverse]
      exact routes.single e s untouched.live none
  · intro o s live
    obtain ⟨e,s',live',member⟩ := routes.covered o s live
    have forward_covers : o ∈ route a.forward_e1 ∨ o ∈ route a.forward_e2 → o ∈ joined a.forward_e1 := by
      intro either
      rw [at_forward]
      exact mem_append.mpr either
    have reverse_covers : o ∈ route a.reverse_e1 ∨ o ∈ route a.reverse_e2 → o ∈ joined a.reverse_e1 := by
      intro either
      rw [at_reverse]
      exact mem_append.mpr either
    by_cases at_v : s' = a.node_v
    · subst at_v
      rcases (around.both e).mp live' with rfl | rfl
      · exact ⟨_,_,merged.live_forward kept.valid around,forward_covers (.inr member)⟩
      · exact ⟨_,_,merged.live_reverse kept.valid around,reverse_covers (.inr member)⟩
    · have live_after : Live after e s' := (merged.live e s').mpr ⟨live',at_v⟩
      refine ⟨e,s',live_after,?_⟩
      rcases merged.cases kept.valid around live_after with ⟨rfl,_⟩ | ⟨rfl,_⟩ | untouched
      · exact forward_covers (.inl member)
      · exact reverse_covers (.inl member)
      · rw [at_others e untouched.not_forward untouched.not_reverse]
        exact member
  · -- every original edge comes from an edge before the step, and that edge determines the edge after it
    have apart := @IsAround.e1_ne_e2 _ _ around kept.valid
    have came_from : ∀ e s o, Live after e s → o ∈ joined e → ∃ x sx, Live graph x sx ∧ o ∈ route x ∧
        (if x = a.forward_e2 then a.forward_e1 else if x = a.reverse_e2 then a.reverse_e1 else x) = e := by
      intro e s o live member
      rcases merged.cases kept.valid around live with ⟨rfl,rfl⟩ | ⟨rfl,rfl⟩ | untouched
      · rw [at_forward,mem_append] at member
        rcases member with first | second
        · refine ⟨_,_,around.forward_e1.1,first,?_⟩
          rw [if_neg (apart (.inl rfl) (.inl rfl)),if_neg (apart (.inl rfl) (.inr rfl))]
        · exact ⟨_,_,around.forward_e2.1,second,if_pos rfl⟩
      · rw [at_reverse,mem_append] at member
        rcases member with first | second
        · refine ⟨_,_,around.reverse_e1.1,first,?_⟩
          rw [if_neg (apart (.inr rfl) (.inl rfl)),if_neg (apart (.inr rfl) (.inr rfl))]
        · refine ⟨_,_,around.reverse_e2.1,second,?_⟩
          rw [if_neg around.different.symm,if_pos rfl]
      · rw [at_others e untouched.not_forward untouched.not_reverse] at member
        obtain ⟨not_forward,not_reverse⟩ := untouched_ne kept around untouched.live untouched.elsewhere
        refine ⟨e,s,untouched.live,member,?_⟩
        rw [if_neg not_forward,if_neg not_reverse]
    intro e e' s s' o live live' member member'
    obtain ⟨x,sx,live_x,member_x,rfl⟩ := came_from e s o live member
    obtain ⟨x',sx',live_x',member_x',rfl⟩ := came_from e' s' o live' member'
    rw [routes.once x x' sx sx' o live_x live_x' member_x member_x']

include kept in
private theorem sums_geometry {e : EdgeID} (unclipped : container.clipped_weights = 0)
    (fits : firstClips container e (graph.GetEdgeData e).weight (graph.GetEdgeData e).duration = 0) :
    sums (geometryOf graph container e) = ((graph.GetEdgeData e).weight,(graph.GetEdgeData e).duration) := by
  unfold geometryOf geometry
  cases found : container.GetBucketReference e with
  | none =>
    rw [firstClips,if_pos found] at fits
    exact sums_single fits
  | some bucket => exact kept.sums unclipped e bucket found

include kept around merged store in
private theorem sums_step (same_forward : forward.added = p.added) (same_reverse : reverse.added = q.added)
    (unclipped : stored.clipped_weights = 0) {e : EdgeID} (found : stored.GetBucketReference e = some bucket) :
    sums bucket = ((after.GetEdgeData e).weight,(after.GetEdgeData e).duration) := by
  obtain ⟨before,edges,penalties⟩ := store.unclipped unclipped
  rcases stored_cases kept around merged store found with rfl | rfl | ⟨s,_,untouched⟩
  · rw [store.bucket_forward,some_inj] at found
    rw [← found,sums_append,sums_append,sums_geometry kept before (edges _ (.inl rfl)),
      sums_geometry kept before (edges _ (.inr (.inl rfl))),sums_penaltyOf (penalties _ (.inl rfl)),same_forward,
      merged.weight_forward,merged.duration_forward]
    ext
    · simp only [Prod.fst_add]
      ring
    · simp only [Prod.snd_add]
      ring
  · rw [store.bucket_reverse,some_inj] at found
    rw [← found,sums_append,sums_append,sums_geometry kept before (edges _ (.inr (.inr (.inl rfl)))),
      sums_geometry kept before (edges _ (.inr (.inr (.inr rfl)))),sums_penaltyOf (penalties _ (.inr rfl)),same_reverse,
      merged.weight_reverse,merged.duration_reverse]
    ext
    · simp only [Prod.fst_add]
      ring
    · simp only [Prod.snd_add]
      ring
  · rw [untouched_bucket kept around store untouched] at found
    rw [untouched.data]
    exact kept.sums before e bucket found

private theorem mirror_join {u v w : NodeID} {A B C D P : List NodeID} (first : u :: A = (v :: D).reverse) (second : v :: B = (w :: C).reverse)
    (between : P = [] ∨ P = [v]) : u :: (A ++ (P ++ B)) = (w :: (C ++ (P ++ D))).reverse := by
  rw [reverse_cons] at first second
  have left : u :: (A ++ (P ++ B)) = D.reverse ++ [v] ++ (P ++ B) := by
    rw [← first]
    rfl
  have right : (w :: (C ++ (P ++ D))).reverse = D.reverse ++ P.reverse ++ (v :: B) := by
    rw [second]
    simp
  rw [left,right]
  rcases between with rfl | rfl
  · simp
  · simp

private theorem penaltyOf_nodes (a : Around) (penalty : NodePenalty) : (penaltyOf a penalty).map (·.node_id) =
    if HasPenalty penalty.weight penalty.duration then [a.node_v] else [] := by
  unfold penaltyOf penaltySegment
  split
  · rfl
  · rfl

include kept around merged store in
private theorem mirrored_step (even : HasPenalty forward.weight forward.duration ↔ HasPenalty reverse.weight reverse.duration)
    (valid : WellFormed after) : Mirrored after stored := by
  have first := kept.mirrored a.forward_e1 a.reverse_e2 a.node_u around.forward_e1.1
    (by rw [around.forward_e1.2]; exact around.reverse_e2.1) around.reverse_e2.2
  have second := kept.mirrored a.forward_e2 a.reverse_e1 a.node_v around.forward_e2.1
    (by rw [around.forward_e2.2]; exact around.reverse_e1.1) around.reverse_e1.2
  rw [around.forward_e1.2] at first
  rw [around.forward_e2.2] at second
  have same : (penaltyOf a forward).map (·.node_id) = (penaltyOf a reverse).map (·.node_id) := by
    rw [penaltyOf_nodes,penaltyOf_nodes]
    exact if_congr even rfl rfl
  have between : (penaltyOf a reverse).map (·.node_id) = [] ∨ (penaltyOf a reverse).map (·.node_id) = [a.node_v] := by
    rw [penaltyOf_nodes]
    split
    · exact .inr rfl
    · exact .inl rfl
  have joined : a.node_u :: (geometryOf after stored a.forward_e1).map (·.node_id) =
      (a.node_w :: (geometryOf after stored a.reverse_e1).map (·.node_id)).reverse := by
    rw [joined_forward store,joined_reverse store]
    simp only [map_append]
    rw [same]
    exact mirror_join first second between
  intro e e' s live live' back
  rcases merged.cases kept.valid around live with ⟨rfl,rfl⟩ | ⟨rfl,rfl⟩ | untouched
  · rw [merged.target_forward] at live' ⊢
    obtain rfl := valid.simple e' a.reverse_e1 _ live' (merged.live_reverse kept.valid around) (back.trans merged.target_reverse.symm)
    exact joined
  · rw [merged.target_reverse] at live' ⊢
    obtain rfl := valid.simple e' a.forward_e1 _ live' (merged.live_forward kept.valid around) (back.trans merged.target_forward.symm)
    rw [joined,reverse_reverse]
  · rw [untouched.target] at live' ⊢
    obtain ⟨x,live_x,target_x⟩ := kept.valid.opposite e s untouched.live
    have untouched_x := merged.back kept.valid around untouched.elsewhere live_x untouched.target_elsewhere target_x
    have live_after : Live after x (graph.GetTarget e) := (merged.live _ _).mpr ⟨live_x,untouched.target_elsewhere⟩
    obtain rfl := valid.simple e' x _ live' live_after (back.trans (untouched_x.target.trans target_x).symm)
    rw [untouched_geometry kept around store untouched,untouched_geometry kept around store untouched_x]
    exact kept.mirrored e e' s untouched.live live_x target_x

include kept around merged store in
private theorem Kept.step (filled : Filled stored) (apart : graph.FindEdgeInEitherDirection a.node_u a.node_w = none)
    (same_forward : forward.added = p.added) (same_reverse : reverse.added = q.added)
    (even : HasPenalty forward.weight forward.duration ↔ HasPenalty reverse.weight reverse.duration) : Kept original after stored := by
  have valid := merged.wellFormed kept.valid around apart
  obtain ⟨route,routes⟩ := kept.routes
  refine ⟨valid,store.owns,filled,?_,routes_step kept around merged store routes,?_,mirrored_step kept around merged store even valid,
    store.fresh.trans kept.fresh⟩
  · intro e bucket found
    rcases stored_cases kept around merged store found with rfl | rfl | ⟨s,live,_⟩
    · exact ⟨_,merged.live_forward kept.valid around⟩
    · exact ⟨_,merged.live_reverse kept.valid around⟩
    · exact ⟨s,live⟩
  · intro unclipped e bucket found
    exact sums_step kept around merged store same_forward same_reverse unclipped found

end Step

/-! ### Runs -/

private theorem set_dummy_penalty_added (penalty other : NodePenalty) : (set_dummy_penalty penalty other).added = penalty.added := by
  unfold set_dummy_penalty
  split
  next dummy =>
    have nothing : ¬HasPenalty penalty.weight penalty.duration := fun has => has.1 dummy.1
    rw [NodePenalty.added,NodePenalty.added,if_neg nothing]
    rfl
  next => rfl

/-- The node is compressed, and these are the edges around it. -/
structure Compresses (environment : Environment) (state : State) (node_v : NodeID) (a : Around) : Prop where
  degree : state.graph.GetOutDegree node_v = 2
  open_node : environment.barrier_nodes node_v = false
  via : environment.incompressible_via_nodes node_v = false
  found : around state.graph node_v = some a
  compatible : compatible environment state.graph a = true
  restricted : ((state.traffic_signals.HasSignal a.node_u a.node_v || state.traffic_signals.HasSignal a.node_w a.node_v) &&
    ((annotateAround environment state.graph a).GetEdgeData a.forward_e1).flags.restricted !=
      ((annotateAround environment state.graph a).GetEdgeData a.forward_e2).flags.restricted) = false

/-- The penalties and the sums of the weights and durations fit 32 bits. -/
structure Summable (graph : NodeBasedDynamicGraph) (a : Around) (forward reverse : NodePenalty) : Prop where
  penalties : ∀ penalty, penalty = forward ∨ penalty = reverse → Fits32 penalty.weight ∧ Fits32 penalty.duration
  sums_forward : SumsFit graph a.forward_e1 a.forward_e2 forward
  sums_reverse : SumsFit graph a.reverse_e1 a.reverse_e2 reverse

/-- Where the node is compressed, nothing overflows and the penalty is no mark, unless both directions or none have a signal. -/
structure Even (environment : Environment) (state : State) (node_v : NodeID) : Prop where
  fits : ∀ a, Compresses environment state node_v a → Summable state.graph a
    (nodePenalties environment state.traffic_signals a).1 (nodePenalties environment state.traffic_signals a).2
  even : ∀ a, Compresses environment state node_v a →
    state.traffic_signals.HasSignal a.node_u a.node_v = state.traffic_signals.HasSignal a.node_w a.node_v ∨
    truncate ((environment.ProcessTurn a.node_v).weight * environment.weight_multiplier) = INVALID_EDGE_WEIGHT ∨
    truncate ((environment.ProcessTurn a.node_v).duration * SECOND_TO_DECISECOND) ≠ MAXIMAL_EDGE_DURATION

private theorem even_penalties {environment : Environment} {turn : ExtractionTurn} {forward_signal reverse_signal : Bool}
    (even : forward_signal = reverse_signal ∨ truncate (turn.weight * environment.weight_multiplier) = INVALID_EDGE_WEIGHT ∨
      truncate (turn.duration * SECOND_TO_DECISECOND) ≠ MAXIMAL_EDGE_DURATION) {p q forward reverse : NodePenalty}
    (p_eq : directionPenalty environment turn forward_signal = p) (q_eq : directionPenalty environment turn reverse_signal = q)
    (forward_eq : set_dummy_penalty p q = forward) (reverse_eq : set_dummy_penalty q forward = reverse) :
    HasPenalty forward.weight forward.duration ↔ HasPenalty reverse.weight reverse.duration := by
  have zero_weight : (0 : EdgeWeight) ≠ INVALID_EDGE_WEIGHT := by decide
  have zero_duration : (0 : EdgeDuration) ≠ MAXIMAL_EDGE_DURATION := by decide
  by_cases invalid : truncate (turn.weight * environment.weight_multiplier) = INVALID_EDGE_WEIGHT
  · cases forward_signal <;> cases reverse_signal <;> subst p_eq q_eq forward_eq reverse_eq <;>
      simp [directionPenalty,set_dummy_penalty,HasPenalty,invalid]
  · cases forward_signal <;> cases reverse_signal <;> subst p_eq q_eq forward_eq reverse_eq <;>
      simp_all [directionPenalty,set_dummy_penalty,HasPenalty]

private theorem alike_find (alike : Alike graph after) (s t : NodeID) : after.FindEdge s t = graph.FindEdge s t := by
  unfold NodeBasedDynamicGraph.FindEdge NodeBasedDynamicGraph.BeginEdges NodeBasedDynamicGraph.GetOutDegree
  simp only [alike.nodes,alike.target]

private theorem alike_around (alike : Alike graph after) (around : IsAround graph a) : IsAround after a := by
  obtain ⟨forward_e2,reverse_e2,both,different,forward_e1,reverse_e1⟩ := around
  refine ⟨?_,?_,?_,different,?_,?_⟩
  · exact ⟨(alike.live _ _).mpr forward_e2.1,(alike.target _).trans forward_e2.2⟩
  · exact ⟨(alike.live _ _).mpr reverse_e2.1,(alike.target _).trans reverse_e2.2⟩
  · intro e
    exact (alike.live e _).trans (both e)
  · exact ⟨(alike.live _ _).mpr forward_e1.1,(alike.target _).trans forward_e1.2⟩
  · exact ⟨(alike.live _ _).mpr reverse_e1.1,(alike.target _).trans reverse_e1.2⟩

variable {environment : Environment} {state start : State}

private theorem compressNode_kept {node_v : NodeID} (kept : Kept original state.graph state.geometry_compressor)
    (even : Even environment state node_v) :
    Kept original (compressNode environment state node_v).graph (compressNode environment state node_v).geometry_compressor := by
  unfold compressNode
  by_cases degree : state.graph.GetOutDegree node_v = 2
  · rw [if_neg (not_not.mpr degree)]
    split
    · exact kept
    · rename_i open_node
      split
      · exact kept
      · rename_i via
        cases found : around state.graph node_v with
        | none => exact kept
        | some a =>
          obtain ⟨same_v,is_around⟩ := around_spec degree found
          have alike := annotateAround_alike environment state.graph a
          have annotated := kept.alike alike
          have around_annotated := alike_around alike is_around
          by_cases fits : compatible environment state.graph a
          · simp only [fits,if_true]
            split
            · exact annotated
            · rename_i unrestricted
              have compresses : Compresses environment state node_v a :=
                ⟨degree,by simpa using open_node,by simpa using via,found,fits,by simpa using unrestricted⟩
              have summable := even.fits a compresses
              have fit {edge1 edge2 : EdgeID} {penalty : NodePenalty} (fit : SumsFit state.graph edge1 edge2 penalty) :
                  SumsFit (annotateAround environment state.graph a) edge1 edge2 penalty := by
                obtain ⟨weight,duration,all_weight,all_duration⟩ := fit
                constructor <;> simpa only [alike.weight,alike.duration]
              have apart : state.graph.FindEdgeInEitherDirection a.node_u a.node_w = none := by
                simp only [compatible,Bool.and_eq_true] at fits
                exact isNone_iff_eq_none.mp fits.1.1
              have apart_annotated : (annotateAround environment state.graph a).FindEdgeInEitherDirection a.node_u a.node_w = none := by
                rw [← apart]
                unfold NodeBasedDynamicGraph.FindEdgeInEitherDirection
                rw [alike_find alike,alike_find alike]
              have degree_annotated : (annotateAround environment state.graph a).GetOutDegree a.node_v = 2 := by
                rw [same_v,← degree]
                exact congrArg (fun nodes : NodeID → DynamicNode => (nodes node_v).edges) alike.nodes
              have merged := mergeEdges_spec annotated.valid around_annotated degree_annotated (fit summable.sums_forward)
                (fit summable.sums_reverse)
              obtain ⟨store,filled⟩ := storeGeometries_spec annotated.valid around_annotated annotated.owns annotated.filled
                (set_dummy_penalty (nodePenalties environment state.traffic_signals a).1
                  (nodePenalties environment state.traffic_signals a).2)
                (set_dummy_penalty (nodePenalties environment state.traffic_signals a).2
                  (set_dummy_penalty (nodePenalties environment state.traffic_signals a).1
                    (nodePenalties environment state.traffic_signals a).2))
              exact annotated.step around_annotated merged store filled apart_annotated (set_dummy_penalty_added _ _)
                (set_dummy_penalty_added _ _) (even_penalties (even.even a compresses) rfl rfl rfl rfl)
          · simp only [fits]
            exact kept
  · rw [if_pos degree]
    exact kept

private theorem addUncompressed_kept {e : EdgeID} {s : NodeID} (kept : Kept original state.graph state.geometry_compressor)
    (live : Live state.graph e s) :
    Kept original (addUncompressed state e).graph (addUncompressed state e).geometry_compressor ∧
      (addUncompressed state e).geometry_compressor.GetBucketReference =
        Function.update state.geometry_compressor.GetBucketReference e (some (geometryOf state.graph state.geometry_compressor e)) := by
  obtain ⟨owns,buckets,clipped⟩ := firstSegment_spec kept.owns kept.filled e (state.graph.GetTarget e)
    (state.graph.GetEdgeData e).weight (state.graph.GetEdgeData e).duration
  have fresh := firstSegment_segment_data state.geometry_compressor e (state.graph.GetTarget e) (state.graph.GetEdgeData e).weight
    (state.graph.GetEdgeData e).duration
  change Kept original state.graph (state.geometry_compressor.firstSegment e (state.graph.GetTarget e)
    (state.graph.GetEdgeData e).weight (state.graph.GetEdgeData e).duration) ∧ (state.geometry_compressor.firstSegment e
    (state.graph.GetTarget e) (state.graph.GetEdgeData e).weight (state.graph.GetEdgeData e).duration).GetBucketReference = _
  generalize state.geometry_compressor.firstSegment e (state.graph.GetTarget e) (state.graph.GetEdgeData e).weight
    (state.graph.GetEdgeData e).duration = added at *
  have same : ∀ e', geometryOf state.graph added e' = geometryOf state.graph state.geometry_compressor e' := by
    intro e'
    by_cases here : e' = e
    · subst here
      rw [geometryOf,geometry,buckets,update_self,getD_some]
      rfl
    · rw [geometryOf,geometry,buckets,update_of_ne here]
      rfl
  obtain ⟨route,routes⟩ := kept.routes
  refine ⟨⟨kept.valid,owns,?_,?_,⟨route,?_,?_,routes.covered,routes.once⟩,?_,?_,fresh.trans kept.fresh⟩,buckets⟩
  · intro e' bucket found
    rw [buckets] at found
    by_cases here : e' = e
    · rw [here,update_self,some_inj] at found
      rw [← found]
      exact geometry_ne_nil kept.filled _ _ _ _
    · rw [update_of_ne here] at found
      exact kept.filled e' bucket found
  · intro e' bucket found
    rw [buckets] at found
    by_cases here : e' = e
    · subst here
      exact ⟨s,live⟩
    · rw [update_of_ne here] at found
      exact kept.keys e' bucket found
  · intro e' s' live'
    rw [same]
    exact routes.along e' s' live'
  · intro e' s' live' none
    rw [buckets] at none
    by_cases here : e' = e
    · simp [here] at none
    · rw [update_of_ne here] at none
      exact routes.single e' s' live' none
  · intro unclipped e' bucket found
    rw [unclipped] at clipped
    have before : state.geometry_compressor.clipped_weights = 0 := by omega
    rw [buckets] at found
    by_cases here : e' = e
    · rw [here,update_self,some_inj] at found
      rw [← found,here]
      exact sums_geometry kept before (by omega)
    · rw [update_of_ne here] at found
      exact kept.sums before e' bucket found
  · intro e' e'' s' live' live'' back
    rw [same,same]
    exact kept.mirrored e' e'' s' live' live'' back

/-- The states of the loops in which each step of the first one treats both directions alike and nothing overflows. -/
inductive Reached (environment : Environment) (start : State) : State → Prop
  | start : Reached environment start start
  | compress {state : State} {node_v : NodeID} (reached : Reached environment start state) (even : Even environment state node_v) :
      Reached environment start (compressNode environment state node_v)
  | add {state : State} {e : EdgeID} {s : NodeID} (reached : Reached environment start state) (live : Live state.graph e s) :
      Reached environment start (addUncompressed state e)

private theorem Reached.kept (valid : WellFormed start.graph) (new : start.geometry_compressor = empty)
    (reached : Reached environment start state) : Kept start.graph state.graph state.geometry_compressor := by
  induction reached with
  | start =>
    rw [new]
    exact .start valid
  | compress reached even ih => exact compressNode_kept ih even
  | add reached live ih => exact (addUncompressed_kept ih live).1

private theorem mem_allEdges (e : EdgeID) : e ∈ allEdges graph ↔ ∃ s < graph.number_of_nodes, Live graph e s := by
  unfold allEdges Live
  simp only [mem_flatMap,mem_range,mem_range'_1]
  rfl

private theorem addAll_reached (valid : WellFormed start.graph) (new : start.geometry_compressor = empty) (edges : List EdgeID)
    (reached : Reached environment start state) (live : ∀ e ∈ edges, ∃ s, Live state.graph e s) :
    Reached environment start (edges.foldl addUncompressed state) ∧ (edges.foldl addUncompressed state).graph = state.graph ∧
      ∀ e, e ∈ edges ∨ (state.geometry_compressor.GetBucketReference e).isSome →
        ((edges.foldl addUncompressed state).geometry_compressor.GetBucketReference e).isSome := by
  induction edges generalizing state with
  | nil => exact ⟨reached,rfl,fun e has => by simpa using has⟩
  | cons first edges ih =>
    obtain ⟨s,live_first⟩ := live first (by simp)
    obtain ⟨_,buckets⟩ := addUncompressed_kept (reached.kept valid new) live_first
    obtain ⟨all_reached,same,all_have⟩ := ih (reached.add live_first) (fun e member => live e (mem_cons_of_mem _ member))
    refine ⟨all_reached,same,?_⟩
    intro e has
    apply all_have e
    by_cases here : e = first
    · right
      rw [buckets,here,update_self]
      rfl
    · rw [buckets,update_of_ne here]
      rcases has with member | before
      · left
        exact (mem_cons.mp member).resolve_left here
      · exact .inr before

private theorem Compress_reached (valid : WellFormed start.graph) (new : start.geometry_compressor = empty)
    (even : ∀ k < start.graph.number_of_nodes, Even environment ((List.range k).foldl (compressNode environment) start) k) :
    Reached environment start (Compress environment start) ∧
      ∀ e s, Live (Compress environment start).graph e s →
        ((Compress environment start).geometry_compressor.GetBucketReference e).isSome := by
  have nodes : ∀ k ≤ start.graph.number_of_nodes, Reached environment start ((List.range k).foldl (compressNode environment) start) := by
    intro k
    induction k with
    | zero =>
      intro _
      exact .start
    | succ k ih =>
      intro more
      rw [range_succ,foldl_append]
      exact (ih (by omega)).compress (even k more)
  have compressed := nodes _ le_rfl
  have kept := compressed.kept valid new
  unfold Compress
  simp only
  generalize (List.range start.graph.number_of_nodes).foldl (compressNode environment) start = state at *
  obtain ⟨reached,same,have_buckets⟩ := addAll_reached valid new (allEdges state.graph) compressed (by
    intro e member
    obtain ⟨s,_,live⟩ := (mem_allEdges e).mp member
    exact ⟨s,live⟩)
  refine ⟨reached,?_⟩
  intro e s live
  rw [same] at live
  exact have_buckets e (.inl ((mem_allEdges e).mpr ⟨s,kept.valid.inside e s live,live⟩))

/-- Two edges with buckets that lead to each other's sources. -/
structure OppositePair (graph : NodeBasedDynamicGraph) (container : CompressedEdgeContainer) (pair : EdgeID × EdgeID) (s : NodeID) :
    Prop where
  live : Live graph pair.1 s
  back : Live graph pair.2 (graph.GetTarget pair.1) ∧ graph.GetTarget pair.2 = s
  buckets : (container.GetBucketReference pair.1).isSome ∧ (container.GetBucketReference pair.2).isSome

private theorem Kept.zippable (kept : Kept original graph container) {pair : EdgeID × EdgeID} {s : NodeID}
    (opposite : OppositePair graph container pair s) :
    ∃ forward_bucket reverse_bucket last_node first_node,
      Zippable container pair forward_bucket reverse_bucket last_node first_node ∧ last_node.node_id = graph.GetTarget pair.1 ∧
        first_node.node_id = s := by
  obtain ⟨route,routes⟩ := kept.routes
  obtain ⟨forward_bucket,forward⟩ := isSome_iff_exists.mp opposite.buckets.1
  obtain ⟨reverse_bucket,reverse⟩ := isSome_iff_exists.mp opposite.buckets.2
  have forward_along := routes.along _ _ opposite.live
  have reverse_along := routes.along _ _ opposite.back.1
  have mirrored := kept.mirrored _ _ _ opposite.live opposite.back.1 opposite.back.2
  rw [geometryOf,geometry,forward,getD_some] at forward_along mirrored
  rw [geometryOf,geometry,reverse,getD_some] at reverse_along mirrored
  obtain ⟨last_node,last,target⟩ := forward_along.last_node
  obtain ⟨first_node,first,source⟩ := reverse_along.last_node
  rw [opposite.back.2] at source
  refine ⟨forward_bucket,reverse_bucket,last_node,first_node,⟨forward,reverse,last,first,?_,?_⟩,target,source⟩
  · rw [source,target]
    exact mirrored
  · intro node member
    rcases mem_append.mp member with one | other
    · exact forward_along.packed node one
    · exact reverse_along.packed node other

/-- Buckets have the nodes along the original edges, ending at the targets, and opposite ones are read back as they are. -/
structure Lossless (original graph : NodeBasedDynamicGraph) (container : CompressedEdgeContainer) : Prop where
  kept : Kept original graph container
  nodes : ∃ route, Routes original graph container route ∧ ∀ e s bucket, Live graph e s → container.GetBucketReference e = some bucket →
    (bucket.map (·.node_id)).destutter (· ≠ ·) = (route e).map original.GetTarget ∧
      ∃ node, bucket.getLast? = some node ∧ node.node_id = graph.GetTarget e
  zipped : ∀ pairs : List (EdgeID × EdgeID), (∀ pair ∈ pairs, ∃ s, OppositePair graph container pair s) →
    ∃ zipped, zipAll container pairs = some zipped ∧ ∀ (k : ℕ) pair s, pairs[k]? = some pair → OppositePair graph container pair s →
      ∃ data forward_bucket reverse_bucket, ToSegmentData zipped = some data ∧
        container.GetBucketReference pair.1 = some forward_bucket ∧ container.GetBucketReference pair.2 = some reverse_bucket ∧
        ReadsBack data k s (graph.GetTarget pair.1) forward_bucket reverse_bucket

private theorem Kept.lossless (kept : Kept original graph container) (valid : WellFormed original) : Lossless original graph container := by
  refine ⟨kept,?_,?_⟩
  · obtain ⟨route,routes⟩ := kept.routes
    refine ⟨route,routes,?_⟩
    intro e s bucket live found
    have along := routes.along e s live
    rw [geometryOf,geometry,found,getD_some] at along
    exact ⟨along.nodes valid,along.last_node⟩
  · intro pairs opposite
    obtain ⟨zipped,zipped_eq,reads⟩ := zipAll_reads kept.fresh pairs (by
      intro pair member
      obtain ⟨s,here⟩ := opposite pair member
      obtain ⟨forward_bucket,reverse_bucket,last_node,first_node,zippable,_,_⟩ := kept.zippable here
      exact ⟨forward_bucket,reverse_bucket,last_node,first_node,zippable⟩)
    refine ⟨zipped,zipped_eq,?_⟩
    intro k pair s at_k here
    obtain ⟨data,forward_bucket,reverse_bucket,last_node,first_node,data_eq,zippable,back⟩ := reads k pair at_k
    obtain ⟨forward_bucket',reverse_bucket',last_node',first_node',zippable',target,source⟩ := kept.zippable here
    obtain rfl := some_inj.mp (zippable.forward.symm.trans zippable'.forward)
    obtain rfl := some_inj.mp (zippable.reverse.symm.trans zippable'.reverse)
    obtain rfl := some_inj.mp (zippable.last.symm.trans zippable'.last)
    obtain rfl := some_inj.mp (zippable.first.symm.trans zippable'.first)
    rw [target,source] at back
    exact ⟨data,forward_bucket,reverse_bucket,data_eq,zippable.forward,zippable.reverse,back⟩

/-- In states that are reached nothing is lost; with even nodes the run ends in one, where every edge has its bucket. -/
theorem compression_lossless (environment : Environment) (valid : WellFormed start.graph) (new : start.geometry_compressor = empty) :
    (∀ state, Reached environment start state → Lossless start.graph state.graph state.geometry_compressor) ∧
      ((∀ k < start.graph.number_of_nodes, Even environment ((List.range k).foldl (compressNode environment) start) k) →
        Reached environment start (Compress environment start) ∧ ∀ e s, Live (Compress environment start).graph e s →
          ((Compress environment start).geometry_compressor.GetBucketReference e).isSome) := by
  constructor
  · intro state reached
    exact (reached.kept valid new).lossless valid
  · exact Compress_reached valid new

def flags : NodeBasedEdgeClassification := ⟨true,true,false,false,false,true,false,0⟩

/-- A street over three nodes. -/
def street : NodeBasedDynamicGraph where
  number_of_nodes := 3
  number_of_edges := 4
  node_array n := if n = 0 then ⟨0,1⟩ else if n = 1 then ⟨1,2⟩ else if n = 2 then ⟨3,1⟩ else ⟨4,0⟩
  edge_list e :=
    if e = 0 then ⟨1,⟨5,5,5,false,flags,0⟩⟩ else if e = 1 then ⟨0,⟨5,5,5,false,flags,0⟩⟩
    else if e = 2 then ⟨2,⟨7,7,7,false,flags,0⟩⟩ else ⟨1,⟨7,7,7,false,flags,0⟩⟩

def streetState : State := ⟨street,⟨fun _ => false,fun segment => segment == (0,1)⟩,empty⟩
def profile (seconds : ℚ) : Environment := ⟨fun _ => false,fun _ => false,fun _ => ⟨0,0,0,0,false⟩,10,fun _ => ⟨seconds,1⟩⟩

private theorem street_live {e s : ℕ} : Live street e s ↔ (e = 0 ∧ s = 0) ∨ (e = 1 ∧ s = 1) ∨ (e = 2 ∧ s = 1) ∨ (e = 3 ∧ s = 2) := by
  unfold Live NodeBasedDynamicGraph.EndEdges NodeBasedDynamicGraph.BeginEdges street
  by_cases zero : s = 0
  · simp [zero]
  · by_cases one : s = 1
    · simp only [one]
      simp
      grind
    · by_cases two : s = 2
      · simp only [two]
        simp
        grind
      · simp [zero,one,two]

private theorem street_wellFormed : WellFormed street := by
  constructor
  · intro e s live
    rcases street_live.mp live with ⟨rfl,rfl⟩ | ⟨rfl,rfl⟩ | ⟨rfl,rfl⟩ | ⟨rfl,rfl⟩ <;> decide
  · intro e s s' live live'
    have := street_live.mp live
    have := street_live.mp live'
    grind
  · intro e s live
    rcases street_live.mp live with ⟨rfl,rfl⟩ | ⟨rfl,rfl⟩ | ⟨rfl,rfl⟩ | ⟨rfl,rfl⟩ <;> decide
  · intro e e' s live live' same
    rcases street_live.mp live with ⟨rfl,rfl⟩ | ⟨rfl,rfl⟩ | ⟨rfl,rfl⟩ | ⟨rfl,rfl⟩ <;>
      rcases street_live.mp live' with ⟨rfl,h⟩ | ⟨rfl,h⟩ | ⟨rfl,h⟩ | ⟨rfl,h⟩ <;>
      first | rfl | (exact absurd h (by decide)) | (exact absurd same (by decide))
  · intro e s live
    rcases street_live.mp live with ⟨rfl,rfl⟩ | ⟨rfl,rfl⟩ | ⟨rfl,rfl⟩ | ⟨rfl,rfl⟩
    · exact ⟨1,street_live.mpr (by decide),rfl⟩
    · exact ⟨0,street_live.mpr (by decide),rfl⟩
    · exact ⟨3,street_live.mpr (by decide),rfl⟩
    · exact ⟨2,street_live.mpr (by decide),rfl⟩

/-- With two seconds at the signal. -/
theorem compression_lossless_street :
    Lossless street (compressNode (profile 2) streetState 1).graph (compressNode (profile 2) streetState 1).geometry_compressor := by
  have even : Even (profile 2) streetState 1 := by
    have edges : around streetState.graph 1 = some ⟨2,1,0,3,1,0,2⟩ := rfl
    constructor
    · intro a compresses
      obtain rfl := some.inj (edges.symm.trans compresses.found)
      refine ⟨?_,⟨?_,?_,?_,?_⟩,⟨?_,?_,?_,?_⟩⟩
      · rintro penalty (rfl | rfl) <;> decide +kernel
      all_goals decide +kernel
    · intro a _
      right
      right
      change truncate (2 * SECOND_TO_DECISECOND) ≠ MAXIMAL_EDGE_DURATION
      decide +kernel
  exact (compression_lossless (profile 2) street_wellFormed rfl).1 _ (.compress .start even)

/-- The street compressed with a penalty that is, in tenths of a second, the value that means none. -/
def streetCompressed : State := Compress (profile (214748364 + 3 / 4)) streetState

/-- The geometries of the two directions then differ in length. -/
theorem compression_lossless_counterexample :
    WellFormed street ∧ ¬Mirrored streetCompressed.graph streetCompressed.geometry_compressor := by
  refine ⟨street_wellFormed,?_⟩
  intro mirrored
  have live : Live streetCompressed.graph 0 0 := by
    unfold Live
    decide +kernel
  have live' : Live streetCompressed.graph 3 (streetCompressed.graph.GetTarget 0) := by
    unfold Live
    decide +kernel
  have back : streetCompressed.graph.GetTarget 3 = 0 := by decide +kernel
  have contradiction := mirrored 0 3 0 live live' back
  revert contradiction
  decide +kernel

end Osrm.CompressionRun
