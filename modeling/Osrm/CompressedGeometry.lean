import Osrm.Packing
import Osrm.Updater

/-!
The geometries of compressed edges, `CompressedEdgeContainer`, and the zipped form of both directions,
`SegmentDataContainer`. The buckets of the geometries are taken from a free list and given back to it.
-/
namespace Osrm.CompressedGeometry
open List Option Function
open Typedefs
open Packing
open Updater (SegmentWeight SegmentDuration INVALID_SEGMENT_WEIGHT INVALID_SEGMENT_DURATION MAX_SEGMENT_WEIGHT
  MAX_SEGMENT_DURATION)

structure OnewayCompressedEdge where
  node_id : NodeID
  weight : SegmentWeight
  duration : SegmentDuration
  deriving DecidableEq, Repr

abbrev OnewayEdgeBucket := List OnewayCompressedEdge

structure SegmentDataContainer where
  index : List ℕ
  nodes : List NodeID
  fwd_weights : List SegmentWeight
  rev_weights : List SegmentWeight
  fwd_durations : List SegmentDuration
  rev_durations : List SegmentDuration
  fwd_datasources : List ℕ
  rev_datasources : List ℕ

/-- `CompressedEdgeContainer`; the back of the free list is the head of the list here. -/
structure CompressedEdgeContainer where
  free_list_maximum : ℕ
  clipped_weights : ℕ
  clipped_durations : ℕ
  m_compressed_oneway_geometries : List OnewayEdgeBucket
  m_free_list : List ℕ
  m_edge_id_to_list_index_map : EdgeID → Option ℕ
  m_forward_edge_id_to_zipped_index_map : EdgeID → Option ℕ
  m_reverse_edge_id_to_zipped_index_map : EdgeID → Option ℕ
  segment_data : Option SegmentDataContainer

namespace CompressedEdgeContainer
variable (container : CompressedEdgeContainer)

def pushFree : CompressedEdgeContainer :=
  { container with
    m_free_list := container.free_list_maximum :: container.m_free_list
    free_list_maximum := container.free_list_maximum + 1 }

def IncreaseFreeList : CompressedEdgeContainer :=
  (List.range 100).foldl (fun container _ => container.pushFree)
    { container with m_compressed_oneway_geometries := container.m_compressed_oneway_geometries ++ replicate 100 [] }
def empty : CompressedEdgeContainer :=
  IncreaseFreeList ⟨0,0,0,[],[],fun _ => none,fun _ => none,fun _ => none,none⟩
def HasEntryForID (edge_id : EdgeID) : Bool := (container.m_edge_id_to_list_index_map edge_id).isSome
def GetBucketReference (edge_id : EdgeID) : Option OnewayEdgeBucket :=
  (container.m_edge_id_to_list_index_map edge_id).bind fun index => container.m_compressed_oneway_geometries[index]?
/-- Too large for a segment; a negative number is large once it is cast to an unsigned one. -/
def Clipped (value : ℤ) : Prop := value < 0 ∨ INVALID_SEGMENT_WEIGHT ≤ value

instance (value : ℤ) : Decidable (Clipped value) := inferInstanceAs (Decidable (_ ∨ _))

def clip (value : ℤ) : ℤ := if Clipped value then MAX_SEGMENT_WEIGHT else value
def countClipped (value : ℤ) : CompressedEdgeContainer :=
  if Clipped value then { container with clipped_weights := container.clipped_weights + 1 } else container
def ClipWeight (weight : EdgeWeight) : SegmentWeight × CompressedEdgeContainer := (clip weight,container.countClipped weight)
def ClipDuration (duration : EdgeDuration) : SegmentDuration × CompressedEdgeContainer :=
  (clip duration,container.countClipped duration)

/-- The back of the free list goes to an edge. -/
def popFree (edge_id : EdgeID) : CompressedEdgeContainer :=
  match container.m_free_list with
  | [] => container
  | back :: rest =>
    { container with
      m_edge_id_to_list_index_map := Function.update container.m_edge_id_to_list_index_map edge_id (some back)
      m_free_list := rest }

def createEntry (edge_id : EdgeID) : CompressedEdgeContainer :=
  if container.HasEntryForID edge_id then container
  else if container.m_free_list.isEmpty then container.IncreaseFreeList.popFree edge_id
  else container.popFree edge_id

/-- A segment is put at the end of a bucket. -/
def emplaceBack (bucket_id : ℕ) (node_id : NodeID) (weight : EdgeWeight) (duration : EdgeDuration) : CompressedEdgeContainer :=
  let clipped := container.ClipWeight weight
  let also_clipped := clipped.2.ClipDuration duration
  { also_clipped.2 with
    m_compressed_oneway_geometries :=
      also_clipped.2.m_compressed_oneway_geometries.modify bucket_id (· ++ [⟨node_id,clipped.1,also_clipped.1⟩]) }

/-- An edge gets a bucket, and its first segment if the bucket is empty; both functions below begin so. -/
def firstSegment (edge_id : EdgeID) (node_id : NodeID) (weight : EdgeWeight) (duration : EdgeDuration) : CompressedEdgeContainer :=
  let container := container.createEntry edge_id
  let edge_bucket_id := (container.m_edge_id_to_list_index_map edge_id).getD 0
  let was_empty := (container.m_compressed_oneway_geometries.getD edge_bucket_id []).isEmpty
  if was_empty then container.emplaceBack edge_bucket_id node_id weight duration else container

/-- The bucket of the second edge goes to the end of the first one's, and its place to the free list. -/
def appendBucket (edge_bucket_id1 : ℕ) (edge_id_2 : EdgeID) (list_to_remove_index : ℕ) : CompressedEdgeContainer :=
  { container with
    m_compressed_oneway_geometries :=
      (container.m_compressed_oneway_geometries.modify edge_bucket_id1
        (· ++ container.m_compressed_oneway_geometries.getD list_to_remove_index [])).set list_to_remove_index []
    m_edge_id_to_list_index_map := Function.update container.m_edge_id_to_list_index_map edge_id_2 none
    m_free_list := list_to_remove_index :: container.m_free_list }

def CompressEdge (edge_id_1 edge_id_2 : EdgeID) (via_node_id target_node_id : NodeID) (weight1 weight2 : EdgeWeight)
    (duration1 duration2 : EdgeDuration) (node_weight_penalty : EdgeWeight) (node_duration_penalty : EdgeDuration) :
    CompressedEdgeContainer :=
  let container := container.firstSegment edge_id_1 via_node_id weight1 duration1
  let edge_bucket_id1 := (container.m_edge_id_to_list_index_map edge_id_1).getD 0
  let container :=
    if node_weight_penalty ≠ INVALID_EDGE_WEIGHT ∧ node_duration_penalty ≠ MAXIMAL_EDGE_DURATION then
      container.emplaceBack edge_bucket_id1 via_node_id node_weight_penalty node_duration_penalty
    else container
  match container.m_edge_id_to_list_index_map edge_id_2 with
  | some list_to_remove_index => container.appendBucket edge_bucket_id1 edge_id_2 list_to_remove_index
  | none => container.emplaceBack edge_bucket_id1 target_node_id weight2 duration2

def AddUncompressedEdge (edge_id : EdgeID) (target_node_id : NodeID) (weight : EdgeWeight) (duration : EdgeDuration) :
    CompressedEdgeContainer :=
  container.firstSegment edge_id target_node_id weight duration

end CompressedEdgeContainer
open CompressedEdgeContainer

/-! ### Owning buckets -/

/-- Every edge owns at most one bucket and owns it alone, and the buckets of the free list are empty and not owned. -/
structure OwnsBuckets (container : CompressedEdgeContainer) : Prop where
  size : container.m_compressed_oneway_geometries.length = container.free_list_maximum
  inside : ∀ edge_id index, container.m_edge_id_to_list_index_map edge_id = some index →
    index < container.m_compressed_oneway_geometries.length
  alone : ∀ edge_id other index, container.m_edge_id_to_list_index_map edge_id = some index →
    container.m_edge_id_to_list_index_map other = some index → edge_id = other
  owned : ∀ edge_id index, container.m_edge_id_to_list_index_map edge_id = some index → index ∉ container.m_free_list
  free : ∀ index ∈ container.m_free_list, container.m_compressed_oneway_geometries[index]? = some []
  nodup : container.m_free_list.Nodup

variable {container : CompressedEdgeContainer} {edge_id edge_id_1 edge_id_2 : EdgeID}

theorem IncreaseFreeList_eq (container : CompressedEdgeContainer) : container.IncreaseFreeList =
    { container with
      m_compressed_oneway_geometries := container.m_compressed_oneway_geometries ++ replicate 100 []
      m_free_list := (List.range' container.free_list_maximum 100).reverse ++ container.m_free_list
      free_list_maximum := container.free_list_maximum + 100 } := by
  have pushed : ∀ (n : ℕ) (container : CompressedEdgeContainer),
      (List.range n).foldl (fun container _ => container.pushFree) container =
        { container with
          m_free_list := (List.range' container.free_list_maximum n).reverse ++ container.m_free_list
          free_list_maximum := container.free_list_maximum + n } := by
    intro n container
    induction n with
    | zero => simp
    | succ n ih =>
      rw [range_succ,foldl_append,ih,range'_concat]
      simp [pushFree,Nat.add_assoc]
  rw [IncreaseFreeList,pushed]

private theorem IncreaseFreeList_spec (owns : OwnsBuckets container) :
    OwnsBuckets container.IncreaseFreeList ∧ container.IncreaseFreeList.m_free_list ≠ [] ∧
      container.IncreaseFreeList.m_edge_id_to_list_index_map = container.m_edge_id_to_list_index_map ∧
      (∀ index < container.m_compressed_oneway_geometries.length,
        container.IncreaseFreeList.m_compressed_oneway_geometries[index]? = container.m_compressed_oneway_geometries[index]?) ∧
      container.IncreaseFreeList.clipped_weights = container.clipped_weights := by
  rw [IncreaseFreeList_eq]
  have old : ∀ index ∈ container.m_free_list, index < container.free_list_maximum := by
    intro index listed
    rw [← owns.size]
    exact (List.getElem?_eq_some_iff.mp (owns.free index listed)).choose
  refine ⟨?_,by simp,rfl,fun index inside => getElem?_append_left inside,rfl⟩
  constructor
  · simp [owns.size]
  · intro edge_id index mapped
    rw [length_append]
    exact Nat.lt_add_right _ (owns.inside edge_id index mapped)
  · exact owns.alone
  · intro edge_id index mapped listed
    have inside := owns.inside edge_id index mapped
    rw [owns.size] at inside
    rcases mem_append.mp listed with new | listed
    · rw [mem_reverse,mem_range'_1] at new
      omega
    · exact owns.owned edge_id index mapped listed
  · intro index listed
    rcases mem_append.mp listed with new | listed
    · rw [mem_reverse,mem_range'_1] at new
      rw [getElem?_append_right (by rw [owns.size]; omega),getElem?_replicate,if_pos (by rw [owns.size]; omega)]
    · rw [getElem?_append_left (by rw [owns.size]; exact old index listed)]
      exact owns.free index listed
  · rw [nodup_append]
    refine ⟨nodup_reverse.mpr nodup_range',owns.nodup,?_⟩
    intro index new other listed same
    rw [mem_reverse,mem_range'_1] at new
    have := old other listed
    omega

theorem empty_owns : OwnsBuckets empty ∧ (∀ edge_id, empty.GetBucketReference edge_id = none) ∧ empty.clipped_weights = 0 := by
  have nothing : OwnsBuckets ⟨0,0,0,[],[],fun _ => none,fun _ => none,fun _ => none,none⟩ :=
    ⟨rfl,by simp,by simp,by simp,by simp,by simp⟩
  obtain ⟨owns,_,mapped,_,clipped⟩ := IncreaseFreeList_spec nothing
  refine ⟨owns,fun edge_id => ?_,clipped⟩
  rw [GetBucketReference,empty,mapped]
  rfl

private theorem OwnsBuckets.other_index (owns : OwnsBuckets container) {index other_index : ℕ} {other : EdgeID}
    (mapped : container.m_edge_id_to_list_index_map edge_id = some index)
    (other_mapped : container.m_edge_id_to_list_index_map other = some other_index) (ne : other ≠ edge_id) : index ≠ other_index := by
  rintro rfl
  exact ne (owns.alone other edge_id index other_mapped mapped)

private theorem OwnsBuckets.bucket (owns : OwnsBuckets container) {index : ℕ}
    (mapped : container.m_edge_id_to_list_index_map edge_id = some index) :
    ∃ bucket, container.m_compressed_oneway_geometries[index]? = some bucket ∧ container.GetBucketReference edge_id = some bucket := by
  have inside := owns.inside edge_id index mapped
  refine ⟨_,getElem?_eq_getElem inside,?_⟩
  rw [GetBucketReference,mapped,bind_some]
  exact getElem?_eq_getElem inside

private theorem mapped_of_bucket {bucket : OnewayEdgeBucket} (found : container.GetBucketReference edge_id = some bucket) :
    ∃ index, container.m_edge_id_to_list_index_map edge_id = some index ∧
      container.m_compressed_oneway_geometries[index]? = some bucket := by
  rw [GetBucketReference,bind_eq_some_iff] at found
  exact found

private theorem popFree_spec (owns : OwnsBuckets container) (filled : container.m_free_list ≠ []) :
    OwnsBuckets (container.popFree edge_id) ∧
      (container.popFree edge_id).GetBucketReference = Function.update container.GetBucketReference edge_id (some []) ∧
      (container.popFree edge_id).clipped_weights = container.clipped_weights := by
  obtain ⟨back,rest,free⟩ := exists_cons_of_ne_nil filled
  obtain ⟨map_eq,free_eq,buckets_eq,size_eq,clipped_eq⟩ :
      (container.popFree edge_id).m_edge_id_to_list_index_map =
        Function.update container.m_edge_id_to_list_index_map edge_id (some back) ∧
      (container.popFree edge_id).m_free_list = rest ∧
      (container.popFree edge_id).m_compressed_oneway_geometries = container.m_compressed_oneway_geometries ∧
      (container.popFree edge_id).free_list_maximum = container.free_list_maximum ∧
      (container.popFree edge_id).clipped_weights = container.clipped_weights := by
    rw [popFree,free]
    exact ⟨rfl,rfl,rfl,rfl,rfl⟩
  have fresh : ∀ other index, container.m_edge_id_to_list_index_map other = some index → index ≠ back ∧ index ∉ rest := by
    intro other index mapped
    have not_free := owns.owned other index mapped
    rw [free,mem_cons,not_or] at not_free
    exact not_free
  have empty_back := owns.free back (by simp [free])
  have once := owns.nodup
  rw [free,nodup_cons] at once
  refine ⟨?_,?_,clipped_eq⟩
  · constructor
    · rw [buckets_eq,size_eq]
      exact owns.size
    · intro other index mapped
      rw [buckets_eq]
      rw [map_eq] at mapped
      by_cases same : other = edge_id
      · rw [same,update_self,some_inj] at mapped
        rw [← mapped]
        exact (List.getElem?_eq_some_iff.mp empty_back).choose
      · rw [update_of_ne same] at mapped
        exact owns.inside other index mapped
    · intro first second index first_mapped second_mapped
      rw [map_eq] at first_mapped second_mapped
      by_cases first_new : first = edge_id
      · by_cases second_new : second = edge_id
        · rw [first_new,second_new]
        · rw [first_new,update_self,some_inj] at first_mapped
          rw [update_of_ne second_new] at second_mapped
          exact absurd first_mapped.symm (fresh second index second_mapped).1
      · rw [update_of_ne first_new] at first_mapped
        by_cases second_new : second = edge_id
        · rw [second_new,update_self,some_inj] at second_mapped
          exact absurd second_mapped.symm (fresh first index first_mapped).1
        · rw [update_of_ne second_new] at second_mapped
          exact owns.alone first second index first_mapped second_mapped
    · intro other index mapped
      rw [free_eq]
      rw [map_eq] at mapped
      by_cases same : other = edge_id
      · rw [same,update_self,some_inj] at mapped
        rw [← mapped]
        exact once.1
      · rw [update_of_ne same] at mapped
        exact (fresh other index mapped).2
    · intro index listed
      rw [free_eq] at listed
      rw [buckets_eq]
      exact owns.free index (by rw [free]; exact mem_cons_of_mem _ listed)
    · rw [free_eq]
      exact once.2
  · funext other
    rw [GetBucketReference,map_eq,buckets_eq]
    by_cases same : other = edge_id
    · rw [same,update_self,update_self]
      exact empty_back
    · rw [update_of_ne same,update_of_ne same]
      rfl

private theorem createEntry_spec (owns : OwnsBuckets container) (edge_id : EdgeID) :
    OwnsBuckets (container.createEntry edge_id) ∧ (container.createEntry edge_id).GetBucketReference =
        Function.update container.GetBucketReference edge_id (some ((container.GetBucketReference edge_id).getD [])) ∧
      (container.createEntry edge_id).clipped_weights = container.clipped_weights := by
  unfold createEntry
  by_cases present : container.HasEntryForID edge_id
  · obtain ⟨index,mapped⟩ := isSome_iff_exists.mp present
    obtain ⟨bucket,_,found⟩ := owns.bucket mapped
    rw [if_pos present]
    refine ⟨owns,?_,rfl⟩
    rw [found,getD_some,← found,update_eq_self]
  · have absent : container.m_edge_id_to_list_index_map edge_id = none := by
      simpa [HasEntryForID,isSome_iff_ne_none] using present
    have without : container.GetBucketReference edge_id = none := by rw [GetBucketReference,absent,bind_none]
    rw [if_neg present,without,getD_none]
    by_cases full : container.m_free_list.isEmpty
    · obtain ⟨grown_owns,filled,same_map,same_buckets,same_clipped⟩ := IncreaseFreeList_spec owns
      rw [if_pos full]
      generalize container.IncreaseFreeList = grown at *
      obtain ⟨popped,buckets,clipped⟩ := popFree_spec grown_owns filled
      refine ⟨popped,?_,clipped.trans same_clipped⟩
      rw [buckets]
      congr 1
      funext other
      rw [GetBucketReference,GetBucketReference,same_map]
      cases mapped : container.m_edge_id_to_list_index_map other with
      | none => rfl
      | some index => exact same_buckets index (owns.inside other index mapped)
    · rw [if_neg full]
      exact popFree_spec owns (by simpa using full)

def clips (weight duration : ℤ) : ℕ := (if Clipped weight then 1 else 0) + if Clipped duration then 1 else 0

private theorem emplaceBack_clipped (container : CompressedEdgeContainer) (index : ℕ) (node_id : NodeID) (weight : EdgeWeight)
    (duration : EdgeDuration) :
    (container.emplaceBack index node_id weight duration).clipped_weights = container.clipped_weights + clips weight duration := by
  simp only [emplaceBack,ClipWeight,ClipDuration,countClipped,clips]
  by_cases heavy : Clipped weight
  · by_cases long : Clipped duration
    · simp [heavy,long,Nat.add_assoc]
    · simp [heavy,long]
  · by_cases long : Clipped duration
    · simp [heavy,long]
    · simp [heavy,long]

private theorem emplaceBack_eq (container : CompressedEdgeContainer) (index : ℕ) (node_id : NodeID) (weight : EdgeWeight)
    (duration : EdgeDuration) : container.emplaceBack index node_id weight duration =
    { container with
      clipped_weights := container.clipped_weights + clips weight duration
      m_compressed_oneway_geometries := container.m_compressed_oneway_geometries.modify index
        (· ++ [⟨node_id,clip weight,clip duration⟩]) } := by
  rw [← emplaceBack_clipped container index node_id weight duration]
  simp only [emplaceBack,ClipWeight,ClipDuration,countClipped]
  by_cases heavy : Clipped weight
  · by_cases long : Clipped duration
    · simp [heavy,long]
    · simp [heavy,long]
  · by_cases long : Clipped duration
    · simp [heavy,long]
    · simp [heavy,long]

private theorem emplaceBack_spec (owns : OwnsBuckets container) {bucket : OnewayEdgeBucket}
    (found : container.GetBucketReference edge_id = some bucket) (node_id : NodeID) (weight : EdgeWeight) (duration : EdgeDuration) :
    OwnsBuckets (container.emplaceBack ((container.m_edge_id_to_list_index_map edge_id).getD 0) node_id weight duration) ∧
      (container.emplaceBack ((container.m_edge_id_to_list_index_map edge_id).getD 0) node_id weight duration).GetBucketReference =
        Function.update container.GetBucketReference edge_id (some (bucket ++ [⟨node_id,clip weight,clip duration⟩])) := by
  obtain ⟨index,mapped,at_index⟩ := mapped_of_bucket found
  rw [mapped,getD_some,emplaceBack_eq]
  have others : ∀ other ≠ index, (container.m_compressed_oneway_geometries.modify index
      (· ++ [⟨node_id,clip weight,clip duration⟩]))[other]? = container.m_compressed_oneway_geometries[other]? := by
    intro other ne
    simp [ne.symm]
  constructor
  · refine ⟨by simpa using owns.size,?_,owns.alone,owns.owned,?_,owns.nodup⟩
    · intro other other_index other_mapped
      rw [length_modify]
      exact owns.inside other other_index other_mapped
    · intro free listed
      have ne : free ≠ index := fun same => owns.owned edge_id index mapped (same ▸ listed)
      rw [others free ne]
      exact owns.free free listed
  · funext other
    by_cases same : other = edge_id
    · subst same
      rw [update_self,GetBucketReference]
      simp [mapped,at_index]
    · rw [update_of_ne same,GetBucketReference,GetBucketReference]
      cases other_mapped : container.m_edge_id_to_list_index_map other with
      | none => rfl
      | some other_index => exact others other_index (owns.other_index mapped other_mapped same).symm

@[simp]
private theorem emplaceBack_map (container : CompressedEdgeContainer) (index : ℕ) (node_id : NodeID) (weight : EdgeWeight)
    (duration : EdgeDuration) :
    (container.emplaceBack index node_id weight duration).m_edge_id_to_list_index_map = container.m_edge_id_to_list_index_map := by
  rw [emplaceBack_eq]

private theorem appendBucket_spec (owns : OwnsBuckets container) (ne : edge_id_1 ≠ edge_id_2) {first second : OnewayEdgeBucket}
    (found : container.GetBucketReference edge_id_1 = some first) {index : ℕ}
    (removed : container.m_edge_id_to_list_index_map edge_id_2 = some index)
    (at_removed : container.m_compressed_oneway_geometries[index]? = some second) :
    OwnsBuckets (container.appendBucket ((container.m_edge_id_to_list_index_map edge_id_1).getD 0) edge_id_2 index) ∧
      (container.appendBucket ((container.m_edge_id_to_list_index_map edge_id_1).getD 0) edge_id_2 index).GetBucketReference =
        Function.update (Function.update container.GetBucketReference edge_id_1 (some (first ++ second))) edge_id_2 none := by
  obtain ⟨index1,mapped,at_index⟩ := mapped_of_bucket found
  have apart : index ≠ index1 := owns.other_index removed mapped ne
  have inside := owns.inside edge_id_2 index removed
  rw [mapped,getD_some]
  generalize after : container.appendBucket index1 edge_id_2 index = result
  have map_eq : result.m_edge_id_to_list_index_map = Function.update container.m_edge_id_to_list_index_map edge_id_2 none := by
    rw [← after,appendBucket]
  have free_eq : result.m_free_list = index :: container.m_free_list := by rw [← after,appendBucket]
  have length_eq : result.m_compressed_oneway_geometries.length = container.m_compressed_oneway_geometries.length := by
    simp [← after,appendBucket]
  have others : ∀ other, other ≠ index → other ≠ index1 →
      result.m_compressed_oneway_geometries[other]? = container.m_compressed_oneway_geometries[other]? := by
    intro other not_removed not_first
    simp [← after,appendBucket,not_removed.symm,not_first.symm]
  have emptied : result.m_compressed_oneway_geometries[index]? = some [] := by
    simp [← after,appendBucket,inside]
  have joined : result.m_compressed_oneway_geometries[index1]? = some (first ++ second) := by
    simp [← after,appendBucket,apart,at_index,at_removed]
  constructor
  · constructor
    · rw [length_eq,owns.size,← after,appendBucket]
    · intro other other_index other_mapped
      rw [map_eq] at other_mapped
      rw [length_eq]
      by_cases same : other = edge_id_2
      · simp [same] at other_mapped
      · rw [update_of_ne same] at other_mapped
        exact owns.inside other other_index other_mapped
    · intro one other shared one_mapped other_mapped
      rw [map_eq] at one_mapped other_mapped
      by_cases one_removed : one = edge_id_2
      · simp [one_removed] at one_mapped
      · by_cases other_removed : other = edge_id_2
        · simp [other_removed] at other_mapped
        · rw [update_of_ne one_removed] at one_mapped
          rw [update_of_ne other_removed] at other_mapped
          exact owns.alone one other shared one_mapped other_mapped
    · intro other other_index other_mapped
      rw [map_eq] at other_mapped
      rw [free_eq,mem_cons,not_or]
      by_cases same : other = edge_id_2
      · simp [same] at other_mapped
      · rw [update_of_ne same] at other_mapped
        exact ⟨(owns.other_index removed other_mapped same).symm,owns.owned other other_index other_mapped⟩
    · intro listed listed_free
      rw [free_eq,mem_cons] at listed_free
      rcases listed_free with rfl | listed_free
      · exact emptied
      · rw [others listed (fun same => owns.owned _ _ removed (same ▸ listed_free))
          (fun same => owns.owned _ _ mapped (same ▸ listed_free))]
        exact owns.free listed listed_free
    · rw [free_eq,nodup_cons]
      exact ⟨owns.owned _ _ removed,owns.nodup⟩
  · funext other
    rw [GetBucketReference,map_eq]
    by_cases same : other = edge_id_2
    · rw [same,update_self,update_self,bind_none]
    · rw [update_of_ne same,update_of_ne same]
      by_cases first_edge : other = edge_id_1
      · rw [first_edge,update_self,mapped,bind_some]
        exact joined
      · rw [update_of_ne first_edge,GetBucketReference]
        cases other_mapped : container.m_edge_id_to_list_index_map other with
        | none => rfl
        | some other_index =>
          exact others other_index (owns.other_index removed other_mapped same).symm
            (owns.other_index mapped other_mapped first_edge).symm

/-! ### Operations on geometries -/

def Filled (container : CompressedEdgeContainer) : Prop :=
  ∀ edge_id bucket, container.GetBucketReference edge_id = some bucket → bucket ≠ []
def singleSegment (node_id : NodeID) (weight : EdgeWeight) (duration : EdgeDuration) : OnewayEdgeBucket :=
  [⟨node_id,clip weight,clip duration⟩]
def HasPenalty (node_weight_penalty : EdgeWeight) (node_duration_penalty : EdgeDuration) : Prop :=
  node_weight_penalty ≠ INVALID_EDGE_WEIGHT ∧ node_duration_penalty ≠ MAXIMAL_EDGE_DURATION

instance (node_weight_penalty : EdgeWeight) (node_duration_penalty : EdgeDuration) :
    Decidable (HasPenalty node_weight_penalty node_duration_penalty) :=
  inferInstanceAs (Decidable (_ ∧ _))

def penaltySegment (via_node_id : NodeID) (node_weight_penalty : EdgeWeight) (node_duration_penalty : EdgeDuration) :
    OnewayEdgeBucket :=
  if HasPenalty node_weight_penalty node_duration_penalty then singleSegment via_node_id node_weight_penalty node_duration_penalty else []
def geometry (container : CompressedEdgeContainer) (edge_id : EdgeID) (target : NodeID) (weight : EdgeWeight)
    (duration : EdgeDuration) : OnewayEdgeBucket :=
  (container.GetBucketReference edge_id).getD (singleSegment target weight duration)
def firstClips (container : CompressedEdgeContainer) (edge_id : EdgeID) (weight : EdgeWeight) (duration : EdgeDuration) : ℕ :=
  if container.GetBucketReference edge_id = none then clips weight duration else 0

theorem firstSegment_spec (owns : OwnsBuckets container) (filled : Filled container) (edge_id : EdgeID) (target : NodeID)
    (weight : EdgeWeight) (duration : EdgeDuration) :
    OwnsBuckets (container.firstSegment edge_id target weight duration) ∧
      (container.firstSegment edge_id target weight duration).GetBucketReference =
        Function.update container.GetBucketReference edge_id (some (geometry container edge_id target weight duration)) ∧
      (container.firstSegment edge_id target weight duration).clipped_weights =
        container.clipped_weights + firstClips container edge_id weight duration := by
  obtain ⟨created_owns,buckets,clipped⟩ := createEntry_spec owns edge_id
  unfold firstSegment
  generalize container.createEntry edge_id = created at *
  have found : created.GetBucketReference edge_id = some ((container.GetBucketReference edge_id).getD []) := by
    rw [buckets,update_self]
  obtain ⟨index,mapped,at_index⟩ := mapped_of_bucket found
  have reads : created.m_compressed_oneway_geometries.getD ((created.m_edge_id_to_list_index_map edge_id).getD 0) [] =
      (container.GetBucketReference edge_id).getD [] := by
    rw [mapped,getD_some,getD_eq_getElem?_getD,at_index,getD_some]
  simp only [reads]
  cases before : container.GetBucketReference edge_id with
  | none =>
    rw [before,getD_none] at found
    obtain ⟨pushed_owns,pushed⟩ := emplaceBack_spec created_owns found target weight duration
    rw [getD_none,isEmpty_nil,if_pos rfl]
    refine ⟨pushed_owns,?_,?_⟩
    · rw [pushed,buckets,update_idem,geometry,before]
      rfl
    · rw [emplaceBack_clipped,clipped,firstClips,if_pos before]
  | some bucket =>
    have not_empty := filled edge_id bucket before
    rw [getD_some,if_neg (by simpa using not_empty)]
    refine ⟨created_owns,?_,?_⟩
    · rw [buckets,geometry,before]
      rfl
    · rw [clipped,firstClips,if_neg (by simp [before]),Nat.add_zero]

theorem CompressEdge_spec (owns : OwnsBuckets container) (filled : Filled container) (ne : edge_id_1 ≠ edge_id_2)
    (via_node_id target_node_id : NodeID) (weight1 weight2 : EdgeWeight) (duration1 duration2 : EdgeDuration)
    (node_weight_penalty : EdgeWeight) (node_duration_penalty : EdgeDuration) {after : CompressedEdgeContainer}
    (after_eq : container.CompressEdge edge_id_1 edge_id_2 via_node_id target_node_id weight1 weight2 duration1 duration2
      node_weight_penalty node_duration_penalty = after) :
    OwnsBuckets after ∧
      after.GetBucketReference = Function.update (Function.update container.GetBucketReference edge_id_1
        (some (geometry container edge_id_1 via_node_id weight1 duration1 ++
          penaltySegment via_node_id node_weight_penalty node_duration_penalty ++
          geometry container edge_id_2 target_node_id weight2 duration2))) edge_id_2 none ∧
      after.clipped_weights = container.clipped_weights + firstClips container edge_id_1 weight1 duration1 +
        (if HasPenalty node_weight_penalty node_duration_penalty then clips node_weight_penalty node_duration_penalty else 0) +
        firstClips container edge_id_2 weight2 duration2 := by
  obtain ⟨begun_owns,begun_buckets,begun_clipped⟩ := firstSegment_spec owns filled edge_id_1 via_node_id weight1 duration1
  unfold CompressEdge at after_eq
  generalize container.firstSegment edge_id_1 via_node_id weight1 duration1 = begun at *
  have found : begun.GetBucketReference edge_id_1 = some (geometry container edge_id_1 via_node_id weight1 duration1) := by
    rw [begun_buckets,update_self]
  -- the container with the penalty
  obtain ⟨passed,passed_eq,passed_owns,passed_map,passed_buckets,passed_clipped⟩ : ∃ passed : CompressedEdgeContainer,
      (if node_weight_penalty ≠ INVALID_EDGE_WEIGHT ∧ node_duration_penalty ≠ MAXIMAL_EDGE_DURATION then
        begun.emplaceBack ((begun.m_edge_id_to_list_index_map edge_id_1).getD 0) via_node_id node_weight_penalty
          node_duration_penalty else begun) = passed ∧ OwnsBuckets passed ∧
      passed.m_edge_id_to_list_index_map = begun.m_edge_id_to_list_index_map ∧
      passed.GetBucketReference = Function.update container.GetBucketReference edge_id_1
        (some (geometry container edge_id_1 via_node_id weight1 duration1 ++
          penaltySegment via_node_id node_weight_penalty node_duration_penalty)) ∧
      passed.clipped_weights = begun.clipped_weights + (if HasPenalty node_weight_penalty node_duration_penalty then
        clips node_weight_penalty node_duration_penalty else 0) := by
    by_cases penalty : HasPenalty node_weight_penalty node_duration_penalty
    · obtain ⟨pushed_owns,pushed⟩ := emplaceBack_spec begun_owns found via_node_id node_weight_penalty node_duration_penalty
      refine ⟨_,if_pos penalty,pushed_owns,emplaceBack_map ..,?_,?_⟩
      · rw [pushed,begun_buckets,update_idem,penaltySegment,if_pos penalty,singleSegment]
      · rw [emplaceBack_clipped,if_pos penalty]
    · refine ⟨begun,if_neg penalty,begun_owns,rfl,?_,?_⟩
      · rw [begun_buckets,penaltySegment,if_neg penalty,append_nil]
      · rw [if_neg penalty,Nat.add_zero]
  simp only [passed_eq] at after_eq
  simp only [← passed_map] at after_eq
  have first : passed.GetBucketReference edge_id_1 = some (geometry container edge_id_1 via_node_id weight1 duration1 ++
      penaltySegment via_node_id node_weight_penalty node_duration_penalty) := by
    rw [passed_buckets,update_self]
  have second : passed.GetBucketReference edge_id_2 = container.GetBucketReference edge_id_2 := by
    rw [passed_buckets,update_of_ne ne.symm]
  have counted : passed.clipped_weights = container.clipped_weights + firstClips container edge_id_1 weight1 duration1 +
      (if HasPenalty node_weight_penalty node_duration_penalty then clips node_weight_penalty node_duration_penalty else 0) := by
    rw [passed_clipped,begun_clipped]
  cases mapped : passed.m_edge_id_to_list_index_map edge_id_2 with
  | none =>
    have absent : container.GetBucketReference edge_id_2 = none := by
      rw [← second,GetBucketReference,mapped,bind_none]
    have single : geometry container edge_id_2 target_node_id weight2 duration2 = singleSegment target_node_id weight2 duration2 := by
      rw [geometry,absent,getD_none]
    rw [mapped] at after_eq
    obtain ⟨pushed_owns,pushed⟩ := emplaceBack_spec passed_owns first target_node_id weight2 duration2
    subst after_eq
    refine ⟨pushed_owns,?_,?_⟩
    · rw [pushed,passed_buckets,update_idem,single,singleSegment]
      funext other
      by_cases same : other = edge_id_2
      · rw [same,update_self,update_of_ne ne.symm,absent]
      · rw [update_of_ne same]
    · rw [emplaceBack_clipped,counted]
      simp only [firstClips,absent,if_true]
  | some index =>
    obtain ⟨bucket,at_index,bucket_eq⟩ := passed_owns.bucket mapped
    have present : container.GetBucketReference edge_id_2 = some bucket := second.symm.trans bucket_eq
    have whole : geometry container edge_id_2 target_node_id weight2 duration2 = bucket := by
      rw [geometry,present,getD_some]
    rw [mapped] at after_eq
    obtain ⟨joined_owns,joined⟩ := appendBucket_spec passed_owns ne first mapped at_index
    subst after_eq
    refine ⟨joined_owns,?_,?_⟩
    · rw [joined,passed_buckets,update_idem,whole]
    · change passed.clipped_weights = _
      rw [counted]
      simp [firstClips,present]

private theorem emplaceBack_segment_data (container : CompressedEdgeContainer) (index : ℕ) (node_id : NodeID) (weight : EdgeWeight)
    (duration : EdgeDuration) : (container.emplaceBack index node_id weight duration).segment_data = container.segment_data := by
  rw [emplaceBack_eq]
private theorem popFree_segment_data (container : CompressedEdgeContainer) (edge_id : EdgeID) :
    (container.popFree edge_id).segment_data = container.segment_data := by
  unfold popFree
  cases container.m_free_list with
  | nil => rfl
  | cons back rest => rfl

theorem firstSegment_segment_data (container : CompressedEdgeContainer) (edge_id : EdgeID) (node_id : NodeID) (weight : EdgeWeight)
    (duration : EdgeDuration) : (container.firstSegment edge_id node_id weight duration).segment_data = container.segment_data := by
  have created : (container.createEntry edge_id).segment_data = container.segment_data := by
    unfold createEntry
    split
    · rfl
    · split
      · rw [popFree_segment_data,IncreaseFreeList_eq]
      · exact popFree_segment_data container edge_id
  unfold firstSegment
  simp only
  split
  · rw [emplaceBack_segment_data,created]
  · exact created

theorem CompressEdge_segment_data (container : CompressedEdgeContainer) (edge_id_1 edge_id_2 : EdgeID)
    (via_node_id target_node_id : NodeID) (weight1 weight2 : EdgeWeight) (duration1 duration2 : EdgeDuration)
    (node_weight_penalty : EdgeWeight) (node_duration_penalty : EdgeDuration) :
    (container.CompressEdge edge_id_1 edge_id_2 via_node_id target_node_id weight1 weight2 duration1 duration2 node_weight_penalty
      node_duration_penalty).segment_data = container.segment_data := by
  have begun := firstSegment_segment_data container edge_id_1 via_node_id weight1 duration1
  unfold CompressEdge
  generalize container.firstSegment edge_id_1 via_node_id weight1 duration1 = first at *
  simp only
  have passed : (if node_weight_penalty ≠ INVALID_EDGE_WEIGHT ∧ node_duration_penalty ≠ MAXIMAL_EDGE_DURATION then
      first.emplaceBack ((first.m_edge_id_to_list_index_map edge_id_1).getD 0) via_node_id node_weight_penalty node_duration_penalty
      else first).segment_data = container.segment_data := by
    split
    · rw [emplaceBack_segment_data,begun]
    · exact begun
  split
  · exact passed
  · rw [emplaceBack_segment_data]
    exact passed

end Osrm.CompressedGeometry
