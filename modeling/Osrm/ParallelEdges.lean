import Osrm.ContractorAdaptors

/-!
Whether an edge of the contracted graph is one of those it was made from. Weight, duration and distance are the least
ones of the edges between the two nodes, each for itself, and the id is that of whichever is sorted to the front.
-/
namespace Osrm.ParallelEdges
open List
open Typedefs DynamicGraphs ContractorAdaptors
open Contractor (ContractorEdgeData)
open EdgeBasedGraph (EdgeBasedEdge)

structure Values where
  weight : EdgeWeight
  duration : EdgeDuration
  distance : EdgeDistance
  id : NodeID
  deriving DecidableEq, Repr

def values (data : ContractorEdgeData) : Values := ⟨data.weight,data.duration,data.distance,data.id⟩
def carried (input_edge : EdgeBasedEdge) : Values :=
  ⟨max input_edge.data.weight 1,input_edge.data.duration,input_edge.data.distance,input_edge.data.turn_id⟩
def between (s t : NodeID) (input_edge : EdgeBasedEdge) : Bool :=
  input_edge.data.weight != INVALID_EDGE_WEIGHT &&
    (input_edge.source == s && input_edge.target == t || input_edge.source == t && input_edge.target == s)

/-- The edge is not left out and it is usable from one node to the other. -/
def leads (s t : NodeID) (input_edge : EdgeBasedEdge) : Bool :=
  input_edge.data.weight != INVALID_EDGE_WEIGHT &&
    (input_edge.source == s && input_edge.target == t && input_edge.data.forward ||
      input_edge.source == t && input_edge.target == s && input_edge.data.backward)

def candidates (input_edge_list : List EdgeBasedEdge) (s t : NodeID) : List Values :=
  (input_edge_list.filter (leads s t)).map carried
def parallelIds (input_edge_list : List EdgeBasedEdge) (s t : NodeID) : List NodeID :=
  (input_edge_list.filter (between s t)).map (·.data.turn_id)
/-- All values are those of one edge that is usable from one node to the other, and no such edge is lighter. -/
def OneEdge (input_edge_list : List EdgeBasedEdge) (s t : NodeID) (x : Values) : Prop :=
  x ∈ candidates input_edge_list s t ∧ ∀ y ∈ candidates input_edge_list s t, x.weight ≤ y.weight

/-- An edge that has the least of everything. The bounds are those that the values have by their types. -/
structure Best (edges : List Values) (x : Values) : Prop where
  mem : x ∈ edges
  weight : x.weight ≤ INVALID_EDGE_WEIGHT ∧ ∀ y ∈ edges, x.weight ≤ y.weight
  duration : x.duration ≤ MAXIMAL_EDGE_DURATION ∧ ∀ y ∈ edges, x.duration ≤ y.duration
  distance : x.distance ≤ MAXIMAL_EDGE_DISTANCE ∧ ∀ y ∈ edges, x.distance ≤ y.distance

def leastOf (edges : List Values) : EdgeWeight := leastWeight (edges.map (·.weight))

/-- For each direction some edge has the least of everything and the id, the same one if both weigh the same. -/
def ConsistentWith (there back : List Values) (id : NodeID) : Prop :=
  (leastOf there ≠ INVALID_EDGE_WEIGHT → ∃ x, Best there x ∧ x.id = id ∧ (leastOf there = leastOf back → x ∈ back)) ∧
    (leastOf back ≠ INVALID_EDGE_WEIGHT → leastOf there ≠ leastOf back → ∃ x, Best back x ∧ x.id = id)
def Consistent (input_edge_list : List EdgeBasedEdge) (s t : NodeID) : Prop :=
  ∀ id ∈ parallelIds input_edge_list s t, ConsistentWith (candidates input_edge_list s t) (candidates input_edge_list t s) id
/-- What the code puts together: the least values of some edges, and an id. -/
def leastValues (edges : List Values) (id : NodeID) : Values :=
  ⟨leastOf edges,(edges.map (·.duration)).foldl (fun least value => min value least) MAXIMAL_EDGE_DURATION,
    (edges.map (·.distance)).foldl (fun least value => min value least) MAXIMAL_EDGE_DISTANCE,id⟩

section Least
variable {edges edges' : List Values} {x : Values} {id : NodeID}

private theorem foldl_min_eq {l : List ℤ} {start least : ℤ} (below : least ≤ start) (all : ∀ w ∈ l, least ≤ w) (member : least ∈ l) :
    l.foldl (fun least value => min value least) start = least := by
  obtain ⟨small,each,found⟩ := foldl_min l start
  refine le_antisymm (each least member) ?_
  rcases found with same | inside
  · exact below.trans same.ge
  · exact all _ inside

private theorem Best.eq (best : Best edges x) : x = leastValues edges x.id := by
  have least {f : Values → ℤ} {bound : ℤ} (below : f x ≤ bound ∧ ∀ y ∈ edges, f x ≤ f y) :
      (edges.map f).foldl (fun least value => min value least) bound = f x := by
    refine foldl_min_eq below.1 ?_ (mem_map_of_mem best.mem)
    intro w member
    obtain ⟨y,inside,rfl⟩ := mem_map.mp member
    exact below.2 y inside
  cases x with
  | mk weight duration distance id =>
    rw [leastValues,Values.mk.injEq]
    exact ⟨(least best.weight).symm,(least best.duration).symm,(least best.distance).symm,rfl⟩

private theorem leastValues_best (member : leastValues edges id ∈ edges) : Best edges (leastValues edges id) := by
  have least (f : Values → ℤ) (bound : ℤ) : (edges.map f).foldl (fun least value => min value least) bound ≤ bound ∧
      ∀ y ∈ edges, (edges.map f).foldl (fun least value => min value least) bound ≤ f y := by
    obtain ⟨small,each,-⟩ := foldl_min (edges.map f) bound
    exact ⟨small,fun y inside => each _ (mem_map_of_mem inside)⟩
  exact ⟨member,least _ _,least _ _,least _ _⟩

private theorem exists_best_iff {P : Values → Prop} : (∃ x, Best edges x ∧ x.id = id ∧ P x) ↔
    leastValues edges id ∈ edges ∧ P (leastValues edges id) := by
  constructor
  · rintro ⟨x,best,rfl,holds⟩
    rw [← best.eq]
    exact ⟨best.mem,holds⟩
  · rintro ⟨member,holds⟩
    exact ⟨_,leastValues_best member,rfl,holds⟩

private theorem leastValues_congr (same : ∀ x, x ∈ edges ↔ x ∈ edges') (id : NodeID) : leastValues edges id = leastValues edges' id := by
  have values (f : Values → ℤ) (w : ℤ) : w ∈ edges.map f ↔ w ∈ edges'.map f := by
    simp only [mem_map,same]
  rw [leastValues,leastValues,leastOf,leastOf,leastWeight_congr (values _),foldl_min_congr (values _),foldl_min_congr (values _)]

end Least

section Group
variable {group : List ContractorEdge} {edge first : ContractorEdge} {merging : Merging} {s t id : ℕ} {direction : Direction}

def usableValues (direction : Direction) (group : List ContractorEdge) : List Values :=
  (group.filter fun edge => usable direction edge.data).map fun edge => values edge.data

private theorem foldl_add (group : List ContractorEdge) (merging : Merging) : group.foldl Merging.add merging =
    ⟨(group.filter fun edge => usable .FORWARD edge.data).foldl lower merging.forward_edge,
      (group.filter fun edge => usable .REVERSE edge.data).foldl lower merging.reverse_edge⟩ := by
  induction group generalizing merging with
  | nil => rfl
  | cons edge group ih =>
    rw [foldl_cons,ih,Merging.add,filter_cons,filter_cons]
    by_cases forward : edge.data.forward = true <;> by_cases backward : edge.data.backward = true <;> simp [usable,forward,backward]

private theorem foldl_lower (group : List ContractorEdge) (least : ContractorEdge) :
    (group.foldl lower least).data.weight =
        (group.map (·.data.weight)).foldl (fun least value => min value least) least.data.weight ∧
      (group.foldl lower least).data.duration =
        (group.map (·.data.duration)).foldl (fun least value => min value least) least.data.duration ∧
      (group.foldl lower least).data.distance =
        (group.map (·.data.distance)).foldl (fun least value => min value least) least.data.distance ∧
      (group.foldl lower least).data.id = least.data.id ∧ (group.foldl lower least).data.forward = least.data.forward ∧
      (group.foldl lower least).data.backward = least.data.backward := by
  induction group generalizing least with
  | nil => exact ⟨rfl,rfl,rfl,rfl,rfl,rfl⟩
  | cons edge group ih => exact ih (lower least edge)

private theorem values_foldl_lower (direction : Direction) (group : List ContractorEdge) (s t id : ℕ) (forward : Bool) :
    values ((group.filter fun edge => usable direction edge.data).foldl lower (noEdge s t id forward)).data =
      leastValues (usableValues direction group) id := by
  obtain ⟨weight,duration,distance,same,-,-⟩ :=
    foldl_lower (group.filter fun edge => usable direction edge.data) (noEdge s t id forward)
  rw [values,weight,duration,distance,same,leastValues,leastOf,usableValues,map_map,map_map,map_map]
  rfl

private theorem edges_forall_iff {there back : Values → Prop} (forward : merging.forward_edge.data.forward = true)
    (notBackward : merging.forward_edge.data.backward = false) (notForward : merging.reverse_edge.data.forward = false)
    (backward : merging.reverse_edge.data.backward = true) :
    (∀ edge ∈ merging.edges, (edge.data.forward = true → there (values edge.data)) ∧ (edge.data.backward = true → back (values edge.data))) ↔
      (merging.forward_edge.data.weight ≠ INVALID_EDGE_WEIGHT → there (values merging.forward_edge.data) ∧
        (merging.forward_edge.data.weight = merging.reverse_edge.data.weight → back (values merging.forward_edge.data))) ∧
      (merging.reverse_edge.data.weight ≠ INVALID_EDGE_WEIGHT → merging.forward_edge.data.weight ≠ merging.reverse_edge.data.weight →
        back (values merging.reverse_edge.data)) := by
  rw [Merging.edges]
  split_ifs with even valid valid valid' valid'
  all_goals simp_all [values]

private theorem gather_forall_iff {there back : Values → Prop} (rest : List ContractorEdge) :
    (∀ edge ∈ gather s t (first :: rest), (edge.data.forward = true → there (values edge.data)) ∧
        (edge.data.backward = true → back (values edge.data))) ↔
      let onward := usableValues .FORWARD (first :: rest)
      let backward := usableValues .REVERSE (first :: rest)
      (leastOf onward ≠ INVALID_EDGE_WEIGHT → there (leastValues onward first.data.id) ∧
        (leastOf onward = leastOf backward → back (leastValues onward first.data.id))) ∧
      (leastOf backward ≠ INVALID_EDGE_WEIGHT → leastOf onward ≠ leastOf backward → back (leastValues backward first.data.id)) := by
  obtain ⟨weight,-,-,-,forward,notBackward⟩ :=
    foldl_lower ((first :: rest).filter fun edge => usable .FORWARD edge.data) (noEdge s t first.data.id true)
  obtain ⟨weight',-,-,-,notForward,backward⟩ :=
    foldl_lower ((first :: rest).filter fun edge => usable .REVERSE edge.data) (noEdge s t first.data.id false)
  have least (direction : Direction) : ((((first :: rest).filter fun edge => usable direction edge.data).map (·.data.weight)).foldl
      (fun least value => min value least) INVALID_EDGE_WEIGHT) = leastOf (usableValues direction (first :: rest)) := by
    rw [leastOf,usableValues,map_map,leastWeight]
    rfl
  rw [gather,foldl_add]
  refine (edges_forall_iff forward notBackward notForward backward).trans ?_
  dsimp only
  rw [values_foldl_lower .FORWARD,values_foldl_lower .REVERSE,weight,weight']
  rw [← least,← least]
  rfl

end Group

section Sorting
variable {input_edge_list : List EdgeBasedEdge} {group : List ContractorEdge} {edge : ContractorEdge} {s t id : NodeID} {x : Values}

/-- One way to sort, with the edges of an id in front of the others with the same ends. -/
def firstBefore (id : NodeID) (lhs rhs : ContractorEdge) : Bool :=
  decide (lhs.source < rhs.source ∨ lhs.source = rhs.source ∧
    (lhs.target < rhs.target ∨ lhs.target = rhs.target ∧ (lhs.data.id = id ∨ rhs.data.id ≠ id)))

private theorem firstSort_pairwise (id : NodeID) (edges : List ContractorEdge) :
    (edges.mergeSort (firstBefore id)).Pairwise fun a b => firstBefore id a b = true := by
  apply pairwise_mergeSort
  · intro a b c
    simp only [firstBefore,decide_eq_true_eq]
    grind
  · intro a b
    simp only [firstBefore,Bool.or_eq_true,decide_eq_true_eq]
    grind

private theorem firstSort_ordered (id : NodeID) (edges : List ContractorEdge) :
    (edges.mergeSort (firstBefore id)).Pairwise fun a b => less b a = false := by
  refine (firstSort_pairwise id edges).imp fun {a b} before => ?_
  simp only [firstBefore,decide_eq_true_eq] at before
  simp only [less,Bool.or_eq_false_iff,decide_eq_false_iff_not,Bool.and_eq_false_imp,beq_iff_eq]
  omega

def firstSort (id : NodeID) : ParallelSort :=
  ⟨fun edges => edges.mergeSort (firstBefore id),fun edges => mergeSort_perm edges _,firstSort_ordered id⟩

private theorem firstSort_first {edges rest : List ContractorEdge} {first : ContractorEdge}
    (group : ((firstSort id).sort edges).filter (sameEnds s t) = first :: rest) (member : id ∈ (first :: rest).map (·.data.id)) :
    first.data.id = id := by
  have sorted := (firstSort_pairwise id edges).filter (sameEnds s t)
  change (((firstSort id).sort edges).filter (sameEnds s t)).Pairwise _ at sorted
  have ends (edge : ContractorEdge) (inside : edge ∈ first :: rest) : edge.source = s ∧ edge.target = t :=
    sameEnds_iff.mp (mem_filter.mp (group ▸ inside)).2
  rw [group] at sorted
  obtain ⟨edge,inside,same⟩ := mem_map.mp member
  rcases mem_cons.mp inside with rfl | later
  · exact same
  · have before := (pairwise_cons.mp sorted).1 edge later
    have here := ends first (by simp)
    have there := ends edge inside
    simpa [firstBefore,here,there,same] using before

/-! ### What is stored -/

private theorem mem_ends : edge ∈ (input_edge_list.flatMap twoEdges).filter (sameEnds s t) ↔ ∃ input_edge ∈ input_edge_list,
    input_edge.data.weight ≠ INVALID_EDGE_WEIGHT ∧ ((input_edge.source = s ∧ input_edge.target = t ∧ edge = atSource input_edge) ∨
      (input_edge.source = t ∧ input_edge.target = s ∧ edge = atTarget input_edge)) := by
  rw [mem_filter,mem_twoEdges]
  constructor
  · rintro ⟨⟨input_edge,member,valid,rfl | rfl⟩,ends⟩
    · rw [sameEnds_iff] at ends
      exact ⟨input_edge,member,valid,.inl ⟨ends.1,ends.2,rfl⟩⟩
    · rw [sameEnds_iff] at ends
      exact ⟨input_edge,member,valid,.inr ⟨ends.2,ends.1,rfl⟩⟩
  · rintro ⟨input_edge,member,valid,⟨source,target,rfl⟩ | ⟨source,target,rfl⟩⟩
    · exact ⟨⟨input_edge,member,valid,.inl rfl⟩,sameEnds_iff.mpr ⟨source,target⟩⟩
    · exact ⟨⟨input_edge,member,valid,.inr rfl⟩,sameEnds_iff.mpr ⟨target,source⟩⟩

section Ends
variable (perm : group.Perm ((input_edge_list.flatMap twoEdges).filter (sameEnds s t)))
include perm

private theorem mem_forward : x ∈ usableValues .FORWARD group ↔ x ∈ candidates input_edge_list s t := by
  have ends (edge : ContractorEdge) : edge ∈ group ↔ _ := perm.mem_iff.trans mem_ends
  simp only [usableValues,candidates,mem_map,mem_filter,ends,leads,Bool.and_eq_true,Bool.or_eq_true,
    beq_iff_eq,bne_iff_ne]
  constructor
  · rintro ⟨edge,⟨⟨input_edge,member,valid,⟨source,target,rfl⟩ | ⟨source,target,rfl⟩⟩,usable⟩,rfl⟩
    · exact ⟨input_edge,⟨member,valid,.inl ⟨⟨source,target⟩,usable⟩⟩,rfl⟩
    · exact ⟨input_edge,⟨member,valid,.inr ⟨⟨source,target⟩,usable⟩⟩,rfl⟩
  · rintro ⟨input_edge,⟨member,valid,⟨⟨source,target⟩,usable⟩ | ⟨⟨source,target⟩,usable⟩⟩,rfl⟩
    · exact ⟨atSource input_edge,⟨⟨input_edge,member,valid,.inl ⟨source,target,rfl⟩⟩,usable⟩,rfl⟩
    · exact ⟨atTarget input_edge,⟨⟨input_edge,member,valid,.inr ⟨source,target,rfl⟩⟩,usable⟩,rfl⟩

private theorem mem_reverse : x ∈ usableValues .REVERSE group ↔ x ∈ candidates input_edge_list t s := by
  have ends (edge : ContractorEdge) : edge ∈ group ↔ _ := perm.mem_iff.trans mem_ends
  simp only [usableValues,candidates,mem_map,mem_filter,ends,leads,Bool.and_eq_true,Bool.or_eq_true,
    beq_iff_eq,bne_iff_ne]
  constructor
  · rintro ⟨edge,⟨⟨input_edge,member,valid,⟨source,target,rfl⟩ | ⟨source,target,rfl⟩⟩,usable⟩,rfl⟩
    · exact ⟨input_edge,⟨member,valid,.inr ⟨⟨source,target⟩,usable⟩⟩,rfl⟩
    · exact ⟨input_edge,⟨member,valid,.inl ⟨⟨source,target⟩,usable⟩⟩,rfl⟩
  · rintro ⟨input_edge,⟨member,valid,⟨⟨source,target⟩,usable⟩ | ⟨⟨source,target⟩,usable⟩⟩,rfl⟩
    · exact ⟨atTarget input_edge,⟨⟨input_edge,member,valid,.inr ⟨source,target,rfl⟩⟩,usable⟩,rfl⟩
    · exact ⟨atSource input_edge,⟨⟨input_edge,member,valid,.inl ⟨source,target,rfl⟩⟩,usable⟩,rfl⟩

private theorem mem_ids : id ∈ group.map (·.data.id) ↔ id ∈ parallelIds input_edge_list s t := by
  have ends (edge : ContractorEdge) : edge ∈ group ↔ _ := perm.mem_iff.trans mem_ends
  simp only [parallelIds,mem_map,ends,mem_filter,between,Bool.and_eq_true,Bool.or_eq_true,beq_iff_eq,bne_iff_ne]
  constructor
  · rintro ⟨edge,⟨input_edge,member,valid,⟨source,target,rfl⟩ | ⟨source,target,rfl⟩⟩,rfl⟩
    · exact ⟨input_edge,⟨member,valid,.inl ⟨source,target⟩⟩,rfl⟩
    · exact ⟨input_edge,⟨member,valid,.inr ⟨source,target⟩⟩,rfl⟩
  · rintro ⟨input_edge,⟨member,valid,⟨source,target⟩ | ⟨source,target⟩⟩,rfl⟩
    · exact ⟨_,⟨input_edge,member,valid,.inl ⟨source,target,rfl⟩⟩,rfl⟩
    · exact ⟨_,⟨input_edge,member,valid,.inr ⟨source,target,rfl⟩⟩,rfl⟩

end Ends

private theorem oneEdge_iff {edges : List Values} (even : leastOf edges = leastOf (candidates input_edge_list s t)) :
    OneEdge input_edge_list s t (leastValues edges id) ↔ leastValues edges id ∈ candidates input_edge_list s t := by
  refine and_iff_left_of_imp fun _ y member => ?_
  change leastOf edges ≤ y.weight
  rw [even]
  exact (foldl_min ((candidates input_edge_list s t).map (·.weight)) INVALID_EDGE_WEIGHT).2.1 _ (mem_map_of_mem member)

end Sorting

private theorem stored_forall_iff (parallel_sort : ParallelSort) (input_edge_list : List EdgeBasedEdge) {s t : NodeID} (apart : s ≠ t) :
    (∀ edge ∈ (contractorEdges parallel_sort input_edge_list).filter (sameEnds s t),
      (edge.data.forward = true → OneEdge input_edge_list s t (values edge.data)) ∧
        (edge.data.backward = true → OneEdge input_edge_list t s (values edge.data))) ↔
      ∀ first rest, (parallel_sort.sort (input_edge_list.flatMap twoEdges)).filter (sameEnds s t) = first :: rest →
        ConsistentWith (candidates input_edge_list s t) (candidates input_edge_list t s) first.data.id := by
  rw [contractorEdges_eq,merged_filter (parallel_sort.ordered _) apart]
  have perm := (parallel_sort.perm (input_edge_list.flatMap twoEdges)).filter (sameEnds s t)
  cases group : (parallel_sort.sort (input_edge_list.flatMap twoEdges)).filter (sameEnds s t) with
  | nil => simp [gather]
  | cons first rest =>
    rw [group] at perm
    have there : ∀ id, leastValues (usableValues .FORWARD (first :: rest)) id = leastValues (candidates input_edge_list s t) id :=
      leastValues_congr fun x => mem_forward perm
    have back : ∀ id, leastValues (usableValues .REVERSE (first :: rest)) id = leastValues (candidates input_edge_list t s) id :=
      leastValues_congr fun x => mem_reverse perm
    have thereWeight : leastOf (usableValues .FORWARD (first :: rest)) = leastOf (candidates input_edge_list s t) :=
      congrArg Values.weight (there 0)
    have backWeight : leastOf (usableValues .REVERSE (first :: rest)) = leastOf (candidates input_edge_list t s) :=
      congrArg Values.weight (back 0)
    rw [gather_forall_iff]
    simp only [there,back,thereWeight,backWeight]
    have onward : OneEdge input_edge_list s t (leastValues (candidates input_edge_list s t) first.data.id) ↔ _ := oneEdge_iff rfl
    have reverse : OneEdge input_edge_list t s (leastValues (candidates input_edge_list t s) first.data.id) ↔ _ := oneEdge_iff rfl
    have plain : (∃ x, Best (candidates input_edge_list t s) x ∧ x.id = first.data.id) ↔
        leastValues (candidates input_edge_list t s) first.data.id ∈ candidates input_edge_list t s := by
      simpa using @exists_best_iff (candidates input_edge_list t s) first.data.id fun _ => True
    have single (holds : ContractorEdge → Prop) : (∀ edge others, first :: rest = edge :: others → holds edge) ↔ holds first :=
      ⟨fun all => all first rest rfl,fun here edge others same => (List.cons.inj same).1 ▸ here⟩
    rw [single fun edge => ConsistentWith _ _ edge.data.id,ConsistentWith,exists_best_iff,plain,onward,reverse]
    refine and_congr_left fun _ => forall_congr' fun _ => and_congr_right fun _ => forall_congr' fun even => ?_
    exact oneEdge_iff even

/-- Every edge has the values of one lightest edge for each direction, whatever the sort, exactly where the edges between
    any two nodes are consistent. -/
theorem edges_of_one_edge_iff (number_of_nodes : ℕ) (input_edge_list : List EdgeBasedEdge) :
    (∀ (parallel_sort : ParallelSort) (uninitialized : ℕ → Edge ContractorEdgeData), ∀ u < number_of_nodes,
      ∀ edge ∈ (toContractorGraph parallel_sort uninitialized number_of_nodes input_edge_list).adjacent u,
        (edge.data.forward = true → OneEdge input_edge_list u edge.target (values edge.data)) ∧
        (edge.data.backward = true → OneEdge input_edge_list edge.target u (values edge.data))) ↔
      ∀ s < number_of_nodes, ∀ t, s ≠ t → Consistent input_edge_list s t := by
  constructor
  · intro all s here t apart id member
    have stored := (stored_forall_iff (firstSort id) input_edge_list apart).mp fun edge inside => by
      obtain ⟨kept,ends⟩ := mem_filter.mp inside
      obtain ⟨rfl,rfl⟩ := sameEnds_iff.mp ends
      refine all (firstSort id) (fun _ => edge.edge) edge.source here edge.edge ?_
      rw [adjacent_eq here]
      exact mem_map.mpr ⟨edge,mem_filter.mpr ⟨kept,beq_self_eq_true _⟩,rfl⟩
    have perm := ((firstSort id).perm (input_edge_list.flatMap twoEdges)).filter (sameEnds s t)
    have inside := (mem_ids perm).mpr member
    cases group : ((firstSort id).sort (input_edge_list.flatMap twoEdges)).filter (sameEnds s t) with
    | nil => simp [group] at inside
    | cons first rest =>
      rw [group] at inside
      exact firstSort_first group inside ▸ stored first rest group
  · intro consistent parallel_sort uninitialized u here edge member
    rw [adjacent_eq here] at member
    obtain ⟨kept,chosen,rfl⟩ := mem_map.mp member
    obtain ⟨inside,source⟩ := mem_filter.mp chosen
    rw [beq_iff_eq] at source
    subst source
    have merged_kept : kept ∈ merged (parallel_sort.sort (input_edge_list.flatMap twoEdges)) := by
      rwa [← contractorEdges_eq]
    have apart : kept.source ≠ kept.target := (mem_merged merged_kept).1
    refine (stored_forall_iff parallel_sort input_edge_list apart).mpr (fun first rest group => ?_) kept
      (mem_filter.mpr ⟨inside,sameEnds_iff.mpr ⟨rfl,rfl⟩⟩)
    refine consistent _ here _ apart _ ?_
    have perm := (parallel_sort.perm (input_edge_list.flatMap twoEdges)).filter (sameEnds kept.source kept.target)
    exact (mem_ids (group ▸ perm)).mp (by simp)

/-- The lighter of two parallel edges takes longer; the stored one has the weight of one and the duration of the other. -/
theorem mixed_edge :
    let input_edge_list : List EdgeBasedEdge := [⟨0,1,⟨7,1,5,9,true,false⟩⟩,⟨0,1,⟨8,2,5,4,true,false⟩⟩]
    ∀ (parallel_sort : ParallelSort) (uninitialized : ℕ → Edge ContractorEdgeData), ¬ ∀ u < 2,
      ∀ edge ∈ (toContractorGraph parallel_sort uninitialized 2 input_edge_list).adjacent u,
        (edge.data.forward = true → OneEdge input_edge_list u edge.target (values edge.data)) ∧
        (edge.data.backward = true → OneEdge input_edge_list edge.target u (values edge.data)) := by
  intro input_edge_list parallel_sort uninitialized all
  have perm := (parallel_sort.perm (input_edge_list.flatMap twoEdges)).filter (sameEnds 0 1)
  have kept := merged_filter (parallel_sort.ordered (input_edge_list.flatMap twoEdges)) zero_ne_one
  rw [← contractorEdges_eq] at kept
  have mixed : ∃ id, (⟨0,1,⟨1,4,5,id,1,false,true,false⟩⟩ : ContractorEdge) ∈ contractorEdges parallel_sort input_edge_list := by
    have two : (input_edge_list.flatMap twoEdges).filter (sameEnds 0 1) = [⟨0,1,⟨1,9,5,7,1,false,true,false⟩⟩,⟨0,1,⟨2,4,5,8,1,false,true,false⟩⟩] := by
      decide
    rw [two,perm_pair] at perm
    rcases perm with same | same
    · rw [same] at kept
      refine ⟨7,mem_of_mem_filter (p := sameEnds 0 1) ?_⟩
      rw [kept]
      decide
    · rw [same] at kept
      refine ⟨8,mem_of_mem_filter (p := sameEnds 0 1) ?_⟩
      rw [kept]
      decide
  obtain ⟨id,member⟩ := mixed
  have stored := (all 0 (by decide) ⟨1,⟨1,4,5,id,1,false,true,false⟩⟩ (by
    rw [adjacent_eq (by decide)]
    exact mem_map.mpr ⟨_,mem_filter.mpr ⟨member,rfl⟩,rfl⟩)).1 rfl
  have none : (⟨1,4,5,id⟩ : Values) ∉ candidates input_edge_list 0 1 := by
    simp [candidates,leads,carried,input_edge_list,INVALID_EDGE_WEIGHT]
  exact none stored.1

end Osrm.ParallelEdges
