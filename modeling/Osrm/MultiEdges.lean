import Mathlib.Data.Prod.Lex
import Osrm.Scan
import Osrm.Typedefs

/-!
`PrepareEdges` of `extractor/extraction_containers.cpp`, from the edges with their nodes and weights to the used
edges. The edges are turned to lead from the smaller node to the larger one and sorted by their ends.
-/
namespace Osrm.MultiEdges
open List
open Typedefs

abbrev NameID := ℕ
abbrev AnnotationID := ℕ

def EMPTY_NAMEID : NameID := 0
def MAXIMAL_EDGE_WEIGHT : EdgeWeight := 2147483647

/-- The flags of `NodeBasedEdgeClassification` that are read or written here. -/
structure NodeBasedEdgeClassification where
  forward : Bool
  backward : Bool
  is_split : Bool
  deriving DecidableEq, Repr

/-- `NodeBasedEdge` -/
structure NodeBasedEdge where
  source : NodeID
  target : NodeID
  weight : EdgeWeight
  duration : EdgeDuration
  distance : EdgeDistance
  annotation_data : AnnotationID
  flags : NodeBasedEdgeClassification
  deriving DecidableEq, Repr

/-- The names of the edges: the name of each annotation, and where its characters are. -/
structure Names where
  edge_annotation_data : List NameID
  name_data : List ℕ
  name_offsets : List ℕ

namespace Names
variable (names : Names)

def name_id (edge : NodeBasedEdge) : NameID := names.edge_annotation_data.getD edge.annotation_data EMPTY_NAMEID
def name (id : NameID) : List ℕ :=
  (names.name_data.take (names.name_offsets.getD (id + 1) 0)).drop (names.name_offsets.getD id 0)

end Names

/-- The comparison by which the edges are sorted. -/
def CmpEdgeByInternalSourceTargetAndName (names : Names) (lhs rhs : NodeBasedEdge) : Bool :=
  if lhs.source ≠ rhs.source then decide (lhs.source < rhs.source)
  else if lhs.source = SPECIAL_NODEID then false
  else if lhs.target ≠ rhs.target then decide (lhs.target < rhs.target)
  else if lhs.target = SPECIAL_NODEID then false
  else if names.name_id lhs = names.name_id rhs then false
  else if names.name_id lhs = EMPTY_NAMEID then false
  else if names.name_id rhs = EMPTY_NAMEID then true
  else decide (names.name (names.name_id lhs) < names.name (names.name_id rhs))

def orient (edge : NodeBasedEdge) : NodeBasedEdge :=
  if edge.source > edge.target then
    {edge with source := edge.target, target := edge.source, flags := {edge.flags with forward := edge.flags.backward, backward := edge.flags.forward}}
  else edge

def value (edge : NodeBasedEdge) : EdgeWeight ×ₗ EdgeDuration := toLex (edge.weight,edge.duration)

/-- The least value that was found and its place, where no place is the largest number. -/
structure Minimum where
  value : EdgeWeight ×ₗ EdgeDuration
  index : Option ℕ

/-- The search for the minimal edge, in one direction. -/
def minimum (usable : NodeBasedEdgeClassification → Bool) (group : List NodeBasedEdge) : Minimum :=
  group.zipIdx.foldl (fun least entry =>
    if usable entry.1.flags && decide (value entry.1 < least.value) then ⟨value entry.1,some entry.2⟩ else least)
    ⟨toLex (MAXIMAL_EDGE_WEIGHT,MAXIMAL_EDGE_DURATION),none⟩

/-- What becomes of an edge. -/
def keep (min_forward_idx min_backward_idx : Option ℕ) (i : ℕ) (edge : NodeBasedEdge) : NodeBasedEdge :=
  if min_backward_idx = min_forward_idx then
    if min_forward_idx = some i then {edge with flags := ⟨true,true,false⟩}
    else {edge with source := SPECIAL_NODEID, target := SPECIAL_NODEID}
  else if min_forward_idx = some i then {edge with flags := ⟨true,false,min_backward_idx.isSome⟩}
  else if min_backward_idx = some i then
    {edge with source := edge.target, target := edge.source, flags := ⟨true,false,min_forward_idx.isSome⟩}
  else {edge with source := SPECIAL_NODEID, target := SPECIAL_NODEID}

/-- One of the directions has a minimal edge. Else the source writes outside of the vector. -/
def resolvable (group : List NodeBasedEdge) : Bool :=
  (minimum (·.forward) group).index.isSome || (minimum (·.backward) group).index.isSome
def resolve (group : List NodeBasedEdge) : List NodeBasedEdge :=
  group.mapIdx (keep (minimum (·.forward) group).index (minimum (·.backward) group).index)
def sameEnds (edge other : NodeBasedEdge) : Bool := other.source == edge.source && other.target == edge.target

/-- The loop over the sorted edges, group by group. -/
def removeMultiEdges : List NodeBasedEdge → Option (List NodeBasedEdge)
  | [] => some []
  | edge :: edges =>
    -- only invalid edges left
    if edge.source = SPECIAL_NODEID then some (edge :: edges)
    else if edge.target = SPECIAL_NODEID then (removeMultiEdges edges).map (edge :: ·)
    else if resolvable (edge :: edges.takeWhile (sameEnds edge)) then
      (removeMultiEdges (edges.dropWhile (sameEnds edge))).map (resolve (edge :: edges.takeWhile (sameEnds edge)) ++ ·)
    else none
termination_by edges => edges.length
decreasing_by
  · exact Nat.lt_succ_self _
  · exact Nat.lt_succ_of_le (dropWhile_sublist _).length_le

def used (edge : NodeBasedEdge) : Bool := !(edge.source == SPECIAL_NODEID || edge.target == SPECIAL_NODEID)
/-- `used_edges`, of the sorted edges. -/
def used_edges (all_edges_list : List NodeBasedEdge) : Option (List NodeBasedEdge) :=
  (removeMultiEdges all_edges_list).map (·.filter used)

structure Sorted (names : Names) (edges all_edges_list : List NodeBasedEdge) : Prop where
  perm : all_edges_list.Perm (edges.map orient)
  ordered : all_edges_list.Pairwise fun a b => CmpEdgeByInternalSourceTargetAndName names b a = false

/-- The edge can be used from `u` to `v`. -/
def usableFrom (u v : NodeID) (edge : NodeBasedEdge) : Bool :=
  edge.source == u && edge.target == v && edge.flags.forward || edge.source == v && edge.target == u && edge.flags.backward

/-- Of the edges that can be used exactly one is left, the best of them, or none if there are none. -/
structure Best (edges : List NodeBasedEdge) (use : NodeBasedEdge → Bool) (left : List NodeBasedEdge) : Prop where
  none : (∀ edge ∈ edges, use edge = false) → left = []
  one : ∀ edge ∈ edges, use edge → ∃ best, left = [best] ∧ (∃ other ∈ edges, use other ∧ value other = value best) ∧
    ∀ other ∈ edges, use other → value best ≤ value other

section Group
variable {group edges all_edges_list : List NodeBasedEdge} {edge : NodeBasedEdge} {usable : NodeBasedEdgeClassification → Bool}
  {min_forward_idx min_backward_idx : Option ℕ} {u v : NodeID} {i : ℕ}

structure Least (usable : NodeBasedEdgeClassification → Bool) (group : List NodeBasedEdge) (least : Minimum) : Prop where
  below : ∀ edge ∈ group, usable edge.flags → least.value ≤ value edge
  found : least = ⟨toLex (MAXIMAL_EDGE_WEIGHT,MAXIMAL_EDGE_DURATION),none⟩ ∨
    ∃ i best, group[i]? = some best ∧ usable best.flags ∧ least = ⟨value best,some i⟩

private theorem minimum_least (usable : NodeBasedEdgeClassification → Bool) (group : List NodeBasedEdge) :
    Least usable group (minimum usable group) := by
  induction group using List.reverseRecOn with
  | nil => exact ⟨by simp,.inl rfl⟩
  | append_singleton group last ih =>
    have fold : minimum usable (group ++ [last]) =
        if usable last.flags && decide (value last < (minimum usable group).value) then ⟨value last,some group.length⟩
        else minimum usable group := by
      rw [minimum,zipIdx_append,foldl_append]
      simp [minimum]
    rw [fold]
    split_ifs with better
    · simp only [Bool.and_eq_true,decide_eq_true_eq] at better
      refine ⟨fun edge member use => ?_,.inr ⟨group.length,last,by simp,better.1,rfl⟩⟩
      rcases mem_append.mp member with before | here
      · exact better.2.le.trans (ih.below edge before use)
      · rw [mem_singleton.mp here]
    · simp only [Bool.and_eq_true,decide_eq_true_eq,not_and,not_lt] at better
      refine ⟨fun edge member use => ?_,ih.found.imp_right ?_⟩
      · rcases mem_append.mp member with before | here
        · exact ih.below edge before use
        · rw [mem_singleton.mp here] at use ⊢
          exact better use
      · rintro ⟨i,best,place,rest⟩
        refine ⟨i,best,?_,rest⟩
        rw [getElem?_append_left (List.getElem?_eq_some_iff.mp place).1,place]

@[simp] theorem value_keep : value (keep min_forward_idx min_backward_idx i edge) = value edge := by
  unfold keep
  split_ifs <;> rfl

private theorem best_of_minimum (below : ∀ edge ∈ group, value edge < toLex (MAXIMAL_EDGE_WEIGHT,MAXIMAL_EDGE_DURATION))
    (usable : NodeBasedEdgeClassification → Bool) :
    Best group (fun edge => usable edge.flags)
      ((minimum usable group).index.bind fun i => group[i]?.map (keep min_forward_idx min_backward_idx i)).toList := by
  obtain ⟨least,found | ⟨i,best,place,use,found⟩⟩ := minimum_least usable group
  · rw [found] at least ⊢
    exact ⟨fun _ => rfl,fun edge member use => absurd (least edge member use) (not_le.mpr (below edge member))⟩
  · rw [found] at least ⊢
    refine ⟨fun none => absurd use (by simp [none best (mem_of_getElem? place)]),fun _ _ _ => ?_⟩
    refine ⟨keep min_forward_idx min_backward_idx i best,by simp [place],⟨best,mem_of_getElem? place,use,value_keep.symm⟩,?_⟩
    rw [value_keep]
    exact least

private theorem usable_keep (apart : edge.source ≠ edge.target) (resolved : edge.source ≠ SPECIAL_NODEID ∧ edge.target ≠ SPECIAL_NODEID) :
    ((used (keep min_forward_idx min_backward_idx i edge) &&
        usableFrom edge.source edge.target (keep min_forward_idx min_backward_idx i edge)) = true ↔ min_forward_idx = some i) ∧
      ((used (keep min_forward_idx min_backward_idx i edge) &&
        usableFrom edge.target edge.source (keep min_forward_idx min_backward_idx i edge)) = true ↔ min_backward_idx = some i) := by
  unfold keep
  split_ifs with same forward forward backward
  · simp [used,usableFrom,resolved,same,forward]
  · simp [used,same,forward]
  · have other : ¬ min_backward_idx = some i := forward ▸ same
    simp [used,usableFrom,resolved,apart,forward,other]
  · simp [used,usableFrom,resolved,apart.symm,forward,backward]
  · simp [used,forward,backward]

private theorem ends_keep (use : (used (keep min_forward_idx min_backward_idx i edge) &&
    usableFrom u v (keep min_forward_idx min_backward_idx i edge)) = true) :
    u = edge.source ∧ v = edge.target ∨ u = edge.target ∧ v = edge.source := by
  unfold keep at use
  split_ifs at use <;> simp only [used,usableFrom,Bool.and_eq_true,Bool.or_eq_true,beq_iff_eq,Bool.not_eq_true'] at use <;> grind

private theorem resolve_best (apart : u ≠ v) (resolved : ∀ edge ∈ group, edge.source ≠ SPECIAL_NODEID ∧ edge.target ≠ SPECIAL_NODEID)
    (ends : ∀ edge ∈ group, edge.source = u ∧ edge.target = v) (below : ∀ edge ∈ group, value edge < toLex (MAXIMAL_EDGE_WEIGHT,MAXIMAL_EDGE_DURATION)) :
    Best group (·.flags.forward) ((resolve group).filter fun edge => used edge && usableFrom u v edge) ∧
      Best group (·.flags.backward) ((resolve group).filter fun edge => used edge && usableFrom v u edge) := by
  constructor
  · rw [resolve,Scan.filter_mapIdx _ _ (minimum (·.forward) group).index]
    · exact best_of_minimum below _
    · intro i edge found
      obtain ⟨rfl,rfl⟩ := ends edge (mem_of_getElem? found)
      exact (usable_keep apart (resolved edge (mem_of_getElem? found))).1
  · rw [resolve,Scan.filter_mapIdx _ _ (minimum (·.backward) group).index]
    · exact best_of_minimum below _
    · intro i edge found
      obtain ⟨rfl,rfl⟩ := ends edge (mem_of_getElem? found)
      exact (usable_keep apart (resolved edge (mem_of_getElem? found))).2

def key (edge : NodeBasedEdge) : ℕ ×ₗ ℕ := toLex (edge.source,edge.target)

private theorem key_le_of_not_less {names : Names} {a b : NodeBasedEdge} (resolved : b.source ≠ SPECIAL_NODEID ∧ b.target ≠ SPECIAL_NODEID)
    (order : CmpEdgeByInternalSourceTargetAndName names b a = false) : key a ≤ key b := by
  rw [CmpEdgeByInternalSourceTargetAndName] at order
  rw [key,key,Prod.Lex.toLex_le_toLex]
  by_cases source : b.source = a.source
  · rw [if_neg (not_not.mpr source),if_neg resolved.1] at order
    by_cases target : b.target = a.target
    · exact .inr ⟨source.symm,target.ge⟩
    · rw [if_pos target,decide_eq_false_iff_not] at order
      exact .inr ⟨source.symm,not_lt.mp order⟩
  · rw [if_pos source,decide_eq_false_iff_not] at order
    exact .inl (lt_of_le_of_ne (not_lt.mp order) (Ne.symm source))

private theorem sameEnds_iff {a b : NodeBasedEdge} : sameEnds a b = true ↔ key b = key a := by
  simp [sameEnds,key]

private theorem falling_sameEnds (ordered : (edge :: edges).Pairwise fun a b => key a ≤ key b) : Scan.Falling (sameEnds edge) edges := by
  obtain ⟨least,rest⟩ := pairwise_cons.mp ordered
  refine rest.imp_of_mem fun {a b} member _ le same => ?_
  rw [sameEnds_iff] at same ⊢
  exact le_antisymm (same ▸ le) (least a member)

private theorem resolvable_of_usable (here : edge ∈ group) (use : edge.flags.forward ∨ edge.flags.backward)
    (below : ∀ edge ∈ group, value edge < toLex (MAXIMAL_EDGE_WEIGHT,MAXIMAL_EDGE_DURATION)) : resolvable group = true := by
  have found (usable : NodeBasedEdgeClassification → Bool) (use : usable edge.flags = true) :
      (minimum usable group).index.isSome = true := by
    obtain ⟨least,found | ⟨i,best,place,-,found⟩⟩ := minimum_least usable group
    · rw [found] at least
      exact absurd (least edge here use) (not_le.mpr (below edge here))
    · rw [found]
      rfl
  rw [resolvable,Bool.or_eq_true]
  exact use.imp (found (·.forward)) (found (·.backward))

private theorem removeMultiEdges_some (usable : ∀ edge ∈ edges, edge.flags.forward ∨ edge.flags.backward)
    (below : ∀ edge ∈ edges, value edge < toLex (MAXIMAL_EDGE_WEIGHT,MAXIMAL_EDGE_DURATION)) :
    ∃ left, removeMultiEdges edges = some left := by
  induction edges using removeMultiEdges.induct with
  | case1 => exact ⟨[],by rw [removeMultiEdges]⟩
  | case2 edge edges special => exact ⟨_,by rw [removeMultiEdges,if_pos special]⟩
  | case3 edge edges source special ih =>
    obtain ⟨left,rest⟩ := ih (fun other later => usable other (mem_cons_of_mem _ later))
      fun other later => below other (mem_cons_of_mem _ later)
    exact ⟨_,by rw [removeMultiEdges,if_neg source,if_pos special,rest]; rfl⟩
  | case4 edge edges source target resolvable ih =>
    have inside (other : NodeBasedEdge) (later : other ∈ edges.dropWhile (sameEnds edge)) : other ∈ edge :: edges :=
      mem_cons_of_mem _ ((dropWhile_sublist _).mem later)
    obtain ⟨left,rest⟩ := ih (fun other later => usable other (inside other later)) fun other later => below other (inside other later)
    exact ⟨_,by rw [removeMultiEdges,if_neg source,if_neg target,if_pos resolvable,rest]; rfl⟩
  | case5 edge edges source target missing =>
    refine absurd (resolvable_of_usable mem_cons_self (usable edge mem_cons_self) fun other member => ?_) missing
    exact below other (((takeWhile_sublist _).cons_cons edge).mem member)

variable {left : List NodeBasedEdge}

private theorem filter_removeMultiEdges {a b : NodeID} (less : a < b) (pair : u = a ∧ v = b ∨ u = b ∧ v = a)
    (ordered : edges.Pairwise fun a b => key a ≤ key b) (oriented : ∀ edge ∈ edges, edge.source ≤ edge.target)
    (resolved : ∀ edge ∈ edges, edge.source ≠ SPECIAL_NODEID ∧ edge.target ≠ SPECIAL_NODEID)
    (run : removeMultiEdges edges = some left) :
    left.filter (fun edge => used edge && usableFrom u v edge) =
      (resolve (edges.filter fun edge => edge.source == a && edge.target == b)).filter fun edge => used edge && usableFrom u v edge := by
  induction edges using removeMultiEdges.induct generalizing left with
  | case1 =>
    rw [removeMultiEdges,Option.some.injEq] at run
    rw [← run]
    rfl
  | case2 edge edges special => exact absurd special (resolved edge mem_cons_self).1
  | case3 edge edges _ special => exact absurd special (resolved edge mem_cons_self).2
  | case5 edge edges source target missing => simp [removeMultiEdges,source,target,missing] at run
  | case4 edge edges source target resolvable ih =>
    have falling := falling_sameEnds ordered
    rw [removeMultiEdges,if_neg source,if_neg target,if_pos resolvable,Option.map_eq_some_iff] at run
    obtain ⟨later,rest,rfl⟩ := run
    rw [Scan.dropWhile_eq_filter falling] at ih rest
    rw [filter_append,Scan.takeWhile_eq_filter falling]
    rw [ih ((pairwise_cons.mp ordered).2.filter _)
      (fun other member => oriented other (mem_cons_of_mem _ (mem_of_mem_filter member)))
      (fun other member => resolved other (mem_cons_of_mem _ (mem_of_mem_filter member))) rest,filter_filter]
    by_cases here : edge.source = a ∧ edge.target = b
    · -- the group of the two nodes, after which they do not appear
      obtain ⟨rfl,rfl⟩ := here
      have none : (edges.filter fun other => other.source == edge.source && other.target == edge.target && !sameEnds edge other) = [] := by
        refine filter_eq_nil_iff.mpr fun other _ => ?_
        simp [sameEnds]
      rw [none,filter_cons_of_pos (by simp)]
      exact append_nil _
    · -- another group, of which nothing leads from the one node to the other
      have dropped : (resolve (edge :: edges.filter (sameEnds edge))).filter (fun other => used other && usableFrom u v other) = [] := by
        refine filter_eq_nil_iff.mpr fun other member use => here ?_
        obtain ⟨i,inside,rfl⟩ := mem_mapIdx.mp member
        have ends := ends_keep use
        have same : key (edge :: edges.filter (sameEnds edge))[i] = key edge := by
          rcases mem_cons.mp (getElem_mem inside) with first | later
          · rw [first]
          · exact sameEnds_iff.mp (mem_filter.mp later).2
        have first := oriented edge mem_cons_self
        simp only [key,EmbeddingLike.apply_eq_iff_eq,Prod.mk.injEq] at same
        rw [same.1,same.2] at ends
        grind
      rw [dropped,nil_append,filter_cons_of_neg (by simpa using here)]
      congr 2
      refine filter_congr fun other _ => ?_
      rw [Bool.eq_iff_iff]
      simp only [sameEnds,Bool.and_eq_true,beq_iff_eq,Bool.not_eq_true',Bool.and_eq_false_imp,beq_eq_false_iff_ne]
      grind

/-! ### Turned edges -/

private theorem orient_le : (orient edge).source ≤ (orient edge).target := by
  unfold orient
  split_ifs with turned
  · exact Nat.le_of_lt turned
  · exact Nat.not_lt.mp turned

@[simp] theorem value_orient : value (orient edge) = value edge := by
  unfold orient
  split_ifs <;> rfl

@[simp] theorem usableFrom_orient : usableFrom u v (orient edge) = usableFrom u v edge := by
  unfold orient
  split_ifs
  · simp only [usableFrom]
    rw [Bool.or_comm,Bool.and_comm (edge.target == u),Bool.and_comm (edge.target == v)]
  · rfl

private theorem orient_resolved (resolved : edge.source ≠ SPECIAL_NODEID ∧ edge.target ≠ SPECIAL_NODEID) :
    (orient edge).source ≠ SPECIAL_NODEID ∧ (orient edge).target ≠ SPECIAL_NODEID := by
  unfold orient
  split_ifs
  · exact resolved.symm
  · exact resolved

private theorem orient_usable (usable : edge.flags.forward ∨ edge.flags.backward) :
    (orient edge).flags.forward ∨ (orient edge).flags.backward := by
  unfold orient
  split_ifs
  · exact usable.symm
  · exact usable

private theorem usableFrom_oriented (less : u < v) (oriented : edge.source ≤ edge.target) :
    (usableFrom u v edge = true ↔ edge.source = u ∧ edge.target = v ∧ edge.flags.forward = true) ∧
      (usableFrom v u edge = true ↔ edge.source = u ∧ edge.target = v ∧ edge.flags.backward = true) := by
  simp only [usableFrom,Bool.or_eq_true,Bool.and_eq_true,beq_iff_eq]
  grind

private theorem Best.transfer {use other_use : NodeBasedEdge → Bool} (best : Best group use left)
    (into : ∀ edge ∈ edges, other_use edge → ∃ other ∈ group, use other ∧ value other = value edge)
    (back : ∀ edge ∈ group, use edge → ∃ other ∈ edges, other_use other ∧ value other = value edge) : Best edges other_use left := by
  constructor
  · intro none
    refine best.none fun edge member => ?_
    by_contra use
    obtain ⟨other,inside,other_usable,-⟩ := back edge member (Bool.not_eq_false _ ▸ use)
    rw [none other inside] at other_usable
    cases other_usable
  · intro edge member use
    obtain ⟨first,inside,first_usable,-⟩ := into edge member use
    obtain ⟨kept,same,⟨winner,of_group,wins,equal⟩,least⟩ := best.one first inside first_usable
    refine ⟨kept,same,?_,fun other member use => ?_⟩
    · obtain ⟨other,inside,use,same⟩ := back winner of_group wins
      exact ⟨other,inside,use,same.trans equal⟩
    · obtain ⟨image,inside,image_usable,same⟩ := into other member use
      exact same ▸ least image inside image_usable

private theorem Best.of_group {names : Names} {a b : NodeID} {use : NodeBasedEdge → Bool}
    (sorted : Sorted names edges all_edges_list)
    (between : ∀ edge ∈ all_edges_list, usableFrom u v edge = true ↔ edge.source = a ∧ edge.target = b ∧ use edge = true)
    (best : Best (all_edges_list.filter fun edge => edge.source == a && edge.target == b) use left) :
    Best edges (usableFrom u v) left := by
  refine best.transfer (fun edge member usable => ?_) fun edge member usable => ?_
  · have inside : orient edge ∈ all_edges_list := sorted.perm.mem_iff.mpr (mem_map_of_mem member)
    obtain ⟨source,target,used⟩ := (between _ inside).mp (usableFrom_orient.trans usable)
    exact ⟨orient edge,mem_filter.mpr ⟨inside,by simp [source,target]⟩,used,value_orient⟩
  · obtain ⟨inside,ends⟩ := mem_filter.mp member
    rw [Bool.and_eq_true,beq_iff_eq,beq_iff_eq] at ends
    obtain ⟨other,here,rfl⟩ := mem_map.mp (sorted.perm.mem_iff.mp inside)
    exact ⟨other,here,usableFrom_orient.symm.trans ((between _ inside).mpr ⟨ends.1,ends.2,usable⟩),value_orient.symm⟩

end Group

/-- For every two nodes exactly one of the edges usable from one to the other is kept, the best of them. -/
theorem best_edges_kept (names : Names) (edges all_edges_list : List NodeBasedEdge) (sorted : Sorted names edges all_edges_list)
    (resolved : ∀ edge ∈ edges, edge.source ≠ SPECIAL_NODEID ∧ edge.target ≠ SPECIAL_NODEID)
    (usable : ∀ edge ∈ edges, edge.flags.forward ∨ edge.flags.backward)
    (below : ∀ edge ∈ edges, edge.weight < MAXIMAL_EDGE_WEIGHT ∧ edge.duration < MAXIMAL_EDGE_DURATION) :
    ∃ kept, used_edges all_edges_list = some kept ∧
      ∀ u v, u ≠ v → Best edges (usableFrom u v) (kept.filter (usableFrom u v)) := by
  have turned (edge : NodeBasedEdge) : edge ∈ all_edges_list ↔ ∃ other ∈ edges, orient other = edge := by
    rw [sorted.perm.mem_iff,mem_map]
  have turned_resolved (edge : NodeBasedEdge) (member : edge ∈ all_edges_list) :
      edge.source ≠ SPECIAL_NODEID ∧ edge.target ≠ SPECIAL_NODEID := by
    obtain ⟨other,inside,rfl⟩ := (turned edge).mp member
    exact orient_resolved (resolved other inside)
  have turned_below (edge : NodeBasedEdge) (member : edge ∈ all_edges_list) :
      value edge < toLex (MAXIMAL_EDGE_WEIGHT,MAXIMAL_EDGE_DURATION) := by
    obtain ⟨other,inside,rfl⟩ := (turned edge).mp member
    rw [value_orient]
    exact Prod.Lex.toLex_lt_toLex.mpr (.inl (below other inside).1)
  have oriented (edge : NodeBasedEdge) (member : edge ∈ all_edges_list) : edge.source ≤ edge.target := by
    obtain ⟨other,-,rfl⟩ := (turned edge).mp member
    exact orient_le
  have ordered : all_edges_list.Pairwise fun a b => key a ≤ key b :=
    sorted.ordered.imp_of_mem fun _ member order => key_le_of_not_less (turned_resolved _ member) order
  obtain ⟨left,run⟩ := removeMultiEdges_some (fun edge member => by
    obtain ⟨other,inside,rfl⟩ := (turned edge).mp member
    exact orient_usable (usable other inside)) turned_below
  refine ⟨left.filter used,by rw [used_edges,run]; rfl,fun u v apart => ?_⟩
  rw [filter_filter]
  simp only [Bool.and_comm (usableFrom u v _)]
  rcases lt_or_gt_of_ne apart with less | less
  · rw [filter_removeMultiEdges less (.inl ⟨rfl,rfl⟩) ordered oriented turned_resolved run]
    refine Best.of_group sorted (fun edge member => (usableFrom_oriented less (oriented edge member)).1) (resolve_best apart ?_ ?_ ?_).1
    · exact fun edge member => turned_resolved edge (mem_of_mem_filter member)
    · exact fun edge member => by simpa using (mem_filter.mp member).2
    · exact fun edge member => turned_below edge (mem_of_mem_filter member)
  · rw [filter_removeMultiEdges less (.inr ⟨rfl,rfl⟩) ordered oriented turned_resolved run]
    refine Best.of_group sorted (fun edge member => (usableFrom_oriented less (oriented edge member)).2) (resolve_best apart.symm ?_ ?_ ?_).2
    · exact fun edge member => turned_resolved edge (mem_of_mem_filter member)
    · exact fun edge member => by simpa using (mem_filter.mp member).2
    · exact fun edge member => turned_below edge (mem_of_mem_filter member)

/-- Two edges between two nodes, one of them drawn backwards. -/
theorem best_edges_kept_pair : ∃ kept, used_edges [⟨1,2,5,7,3,0,⟨true,true,false⟩⟩,⟨1,2,5,6,3,0,⟨true,false,false⟩⟩] = some kept ∧
    ∀ u v, u ≠ v → Best [⟨2,1,5,6,3,0,⟨false,true,false⟩⟩,⟨1,2,5,7,3,0,⟨true,true,false⟩⟩] (usableFrom u v) (kept.filter (usableFrom u v)) :=
  best_edges_kept ⟨[0],[],[]⟩ _ _ ⟨List.Perm.swap _ _ _,by decide⟩ (by decide) (by decide) (by decide)

end Osrm.MultiEdges
