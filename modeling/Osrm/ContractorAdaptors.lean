import Osrm.Contractor
import Osrm.DynamicGraphRuns
import Osrm.EdgeBasedGraph
import Osrm.QueryGraph

/-!
`contractor/graph_contractor_adaptors.hpp`: how the graph that is contracted is made from the edge-based edges. Every
edge is stored at both of its ends, with the flags exchanged at the second one.
-/
namespace Osrm.ContractorAdaptors
open List
open Typedefs DynamicGraphs
open Contractor (ContractorEdgeData)
open EdgeBasedGraph (EdgeBasedEdge)

abbrev ContractorEdge := InputEdge ContractorEdgeData
/-- The edge as it is stored at its source. -/
def atSource (input_edge : EdgeBasedEdge) : ContractorEdge :=
  ⟨input_edge.source,input_edge.target,⟨max input_edge.data.weight 1,input_edge.data.duration,input_edge.data.distance,
    input_edge.data.turn_id,1,false,input_edge.data.forward,input_edge.data.backward⟩⟩
/-- The edge as it is stored at its target. -/
def atTarget (input_edge : EdgeBasedEdge) : ContractorEdge :=
  ⟨input_edge.target,input_edge.source,⟨max input_edge.data.weight 1,input_edge.data.duration,input_edge.data.distance,
    input_edge.data.turn_id,1,false,input_edge.data.backward,input_edge.data.forward⟩⟩
def twoEdges (input_edge : EdgeBasedEdge) : List ContractorEdge :=
  if input_edge.data.weight = INVALID_EDGE_WEIGHT then [] else [atSource input_edge,atTarget input_edge]
/-- `InputEdge::operator<`. -/
def less (lhs rhs : ContractorEdge) : Bool :=
  decide (lhs.source < rhs.source) || lhs.source == rhs.source && decide (lhs.target < rhs.target)

/-- `tbb::parallel_sort`, which may order edges with the same ends in any way. -/
structure ParallelSort where
  sort : List ContractorEdge → List ContractorEdge
  perm : ∀ edges, (sort edges).Perm edges
  ordered : ∀ edges, (sort edges).Pairwise fun a b => less b a = false

def noEdge (source target id : ℕ) (forward : Bool) : ContractorEdge :=
  ⟨source,target,⟨INVALID_EDGE_WEIGHT,MAXIMAL_EDGE_DURATION,MAXIMAL_EDGE_DISTANCE,id,1,false,forward,!forward⟩⟩

/-- Taking the least values of two edges. -/
def lower (least edge : ContractorEdge) : ContractorEdge :=
  { least with data := { least.data with
      weight := min edge.data.weight least.data.weight
      duration := min edge.data.duration least.data.duration
      distance := min edge.data.distance least.data.distance } }

structure Merging where
  forward_edge : ContractorEdge
  reverse_edge : ContractorEdge

def Merging.add (merging : Merging) (edge : ContractorEdge) : Merging :=
  ⟨if edge.data.forward then lower merging.forward_edge edge else merging.forward_edge,
    if edge.data.backward then lower merging.reverse_edge edge else merging.reverse_edge⟩
def sameEnds (source target : ℕ) (edge : ContractorEdge) : Bool := edge.source == source && edge.target == target

/-- The loop over parallel edges, for at most so many rounds: where it ends and what it found. -/
def mergeParallel (edges : List ContractorEdge) (source target : ℕ) : ℕ → ℕ → Merging → ℕ × Merging
  | 0, i, merging => (i,merging)
  | fuel + 1, i, merging =>
    match edges[i]? with
    | some edge =>
      if sameEnds source target edge then mergeParallel edges source target fuel (i + 1) (merging.add edge) else (i,merging)
    | none => (i,merging)

/-- `edges[edge++] = new_edge`. -/
def write : List ContractorEdge × ℕ → ContractorEdge → List ContractorEdge × ℕ
  | (edges,edge),new_edge => (edges.set edge new_edge,edge + 1)

/-- The edges that are made of parallel ones. -/
def Merging.edges (merging : Merging) : List ContractorEdge :=
  if merging.forward_edge.data.weight = merging.reverse_edge.data.weight then
    if merging.forward_edge.data.weight ≠ INVALID_EDGE_WEIGHT then
      [{ merging.forward_edge with data := { merging.forward_edge.data with backward := true } }]
    else []
  else
    (if merging.forward_edge.data.weight ≠ INVALID_EDGE_WEIGHT then [merging.forward_edge] else []) ++
      if merging.reverse_edge.data.weight ≠ INVALID_EDGE_WEIGHT then [merging.reverse_edge] else []

/-- The outer loop, for at most so many rounds: the vector and how many edges were written. -/
def mergeEdges : ℕ → ℕ → List ContractorEdge × ℕ → List ContractorEdge × ℕ
  | 0, _, written => written
  | fuel + 1, i, (edges,edge) =>
    match edges[i]? with
    | none => (edges,edge)
    | some first =>
      if first.source = first.target then mergeEdges fuel (i + 1) (edges,edge)
      else
        let (i,merging) := mergeParallel edges first.source first.target (edges.length - i) i
          ⟨noEdge first.source first.target first.data.id true,noEdge first.source first.target first.data.id false⟩
        mergeEdges fuel i (merging.edges.foldl write (edges,edge))

section
variable (parallel_sort : ParallelSort)

def contractorEdges (input_edge_list : List EdgeBasedEdge) : List ContractorEdge :=
  let edges := parallel_sort.sort (input_edge_list.flatMap twoEdges)
  let (edges,edge) := mergeEdges edges.length 0 (edges,0)
  edges.take edge

def toContractorGraph (uninitialized : ℕ → Edge ContractorEdgeData) (number_of_nodes : ℕ)
    (input_edge_list : List EdgeBasedEdge) : DynamicGraph ContractorEdgeData :=
  .new uninitialized number_of_nodes (contractorEdges parallel_sort input_edge_list)

end

/-! ### The loop in place -/

section Loop
variable {edges : List ContractorEdge} {source target i edge fuel : ℕ} {merging : Merging}

private theorem mergeParallel_eq (enough : edges.length ≤ fuel + i) :
    mergeParallel edges source target fuel i merging =
      (i + ((edges.drop i).takeWhile (sameEnds source target)).length,
        ((edges.drop i).takeWhile (sameEnds source target)).foldl Merging.add merging) := by
  induction fuel generalizing i merging with
  | zero =>
    rw [drop_eq_nil_of_le (by omega)]
    rfl
  | succ fuel ih =>
    rw [mergeParallel]
    cases found : edges[i]? with
    | none =>
      rw [drop_eq_nil_of_le (List.getElem?_eq_none_iff.mp found)]
      rfl
    | some first =>
      obtain ⟨inside,rfl⟩ := List.getElem?_eq_some_iff.mp found
      rw [drop_eq_getElem_cons inside]
      by_cases same : sameEnds source target edges[i] = true
      · simp only [same,if_true,takeWhile_cons_of_pos same,length_cons,foldl_cons]
        rw [ih (by omega),Nat.add_right_comm,Nat.add_assoc]
      · simp only [same,if_false,Bool.false_eq_true]
        rw [takeWhile_cons_of_neg same]
        rfl

/-- What the loop writes, edge by edge of the sorted list. -/
def merged : List ContractorEdge → List ContractorEdge
  | [] => []
  | first :: rest =>
    if first.source = first.target then merged rest
    else
      (((first :: rest.takeWhile (sameEnds first.source first.target)).foldl Merging.add
        ⟨noEdge first.source first.target first.data.id true,noEdge first.source first.target first.data.id false⟩).edges) ++
        merged (rest.dropWhile (sameEnds first.source first.target))
termination_by l => l.length
decreasing_by
  · simp
  · have shorter := (dropWhile_sublist (l := rest) (sameEnds first.source first.target)).length_le
    simp only [length_cons]
    omega

private theorem edges_length_le (merging : Merging) : merging.edges.length ≤ 2 := by
  rw [Merging.edges]
  split_ifs <;> simp

private theorem edges_length_of_one (source target id : ℕ) (edge : ContractorEdge) :
    ((Merging.mk (noEdge source target id true) (noEdge source target id false)).add edge).edges.length ≤ 1 := by
  cases forward : edge.data.forward <;> cases backward : edge.data.backward <;>
    simp only [Merging.add,Merging.edges,lower,noEdge,forward,backward,if_true,if_false,Bool.false_eq_true] <;>
    split_ifs <;> simp_all

private theorem write_spec {out : List ContractorEdge} (inside : edge + out.length ≤ edges.length) :
    ∃ edges', out.foldl write (edges,edge) = (edges',edge + out.length) ∧ edges'.length = edges.length ∧
      edges'.take (edge + out.length) = edges.take edge ++ out ∧
      ∀ i, edge + out.length ≤ i → edges'.drop i = edges.drop i := by
  induction out generalizing edges edge with
  | nil => exact ⟨edges,rfl,rfl,by simp,fun _ _ => rfl⟩
  | cons new_edge out ih =>
    rw [length_cons] at inside
    obtain ⟨edges',written,length,front,back⟩ := @ih (edges.set edge new_edge) (edge + 1) (by rw [length_set]; omega)
    have place : edge + 1 + out.length = edge + (new_edge :: out).length := by rw [length_cons]; omega
    rw [place] at written front back
    refine ⟨edges',written,length.trans (length_set ..),?_,?_⟩
    · rw [front,take_set,take_succ_eq_append_getElem (by omega),set_append_right _ _ (by simp)]
      simp [Nat.min_eq_left (by omega : edge ≤ edges.length)]
    · intro i le
      rw [back i le,drop_set_of_lt (by rw [length_cons] at le; omega)]

private theorem mergeEdges_spec (enough : edges.length ≤ fuel + i) (behind : edge ≤ i) :
    (mergeEdges fuel i (edges,edge)).1.take (mergeEdges fuel i (edges,edge)).2 = edges.take edge ++ merged (edges.drop i) := by
  induction fuel generalizing edges i edge with
  | zero =>
    rw [drop_eq_nil_of_le (by omega),mergeEdges,merged,append_nil]
  | succ fuel ih =>
    rw [mergeEdges]
    cases found : edges[i]? with
    | none =>
      rw [drop_eq_nil_of_le (List.getElem?_eq_none_iff.mp found),merged,append_nil]
    | some first =>
      obtain ⟨inside,rfl⟩ := List.getElem?_eq_some_iff.mp found
      rw [drop_eq_getElem_cons inside,merged]
      by_cases loop : edges[i].source = edges[i].target
      · simp only [if_pos loop]
        exact ih (by omega) (by omega)
      · simp only [if_neg loop]
        rw [mergeParallel_eq (by omega),drop_eq_getElem_cons inside]
        have same : sameEnds edges[i].source edges[i].target edges[i] = true := by simp [sameEnds]
        rw [takeWhile_cons_of_pos same]
        have rest : edges.drop (i + (edges[i] :: (edges.drop (i + 1)).takeWhile (sameEnds edges[i].source edges[i].target)).length) =
            (edges.drop (i + 1)).dropWhile (sameEnds edges[i].source edges[i].target) := by
          have split := takeWhile_append_dropWhile (p := sameEnds edges[i].source edges[i].target) (l := edges.drop (i + 1))
          have tail := congrArg (List.drop ((edges.drop (i + 1)).takeWhile (sameEnds edges[i].source edges[i].target)).length) split
          rw [drop_left,drop_drop] at tail
          rw [tail,length_cons]
          congr 1
          omega
        have fits : i + (edges[i] :: (edges.drop (i + 1)).takeWhile (sameEnds edges[i].source edges[i].target)).length ≤ edges.length := by
          have shorter := (takeWhile_sublist (l := edges.drop (i + 1)) (sameEnds edges[i].source edges[i].target)).length_le
          rw [length_drop] at shorter
          rw [length_cons]
          omega
        generalize (edges.drop (i + 1)).takeWhile (sameEnds edges[i].source edges[i].target) = others at rest fits ⊢
        -- a single edge is replaced by one at most, several ones by two
        have fewer : ((edges[i] :: others).foldl Merging.add
            ⟨noEdge edges[i].source edges[i].target edges[i].data.id true,
              noEdge edges[i].source edges[i].target edges[i].data.id false⟩).edges.length ≤ (edges[i] :: others).length := by
          cases others with
          | nil => exact edges_length_of_one ..
          | cons second others => exact (edges_length_le _).trans (by simp)
        generalize ((edges[i] :: others).foldl Merging.add
          ⟨noEdge edges[i].source edges[i].target edges[i].data.id true,
            noEdge edges[i].source edges[i].target edges[i].data.id false⟩).edges = out at fewer ⊢
        obtain ⟨edges',written,length,front,back⟩ := write_spec (by omega : edge + out.length ≤ edges.length)
        rw [written,ih (by rw [length,length_cons]; omega) (by omega),front,back _ (by omega),rest,append_assoc]

end Loop

/-! ### What is left of parallel edges -/

def usable : Direction → ContractorEdgeData → Bool
  | .FORWARD, data => data.forward
  | .REVERSE, data => data.backward
def Merging.least (merging : Merging) : Direction → ContractorEdge
  | .FORWARD => merging.forward_edge
  | .REVERSE => merging.reverse_edge
def weights (direction : Direction) (source target : ℕ) (edges : List ContractorEdge) : List EdgeWeight :=
  (edges.filter fun edge => sameEnds source target edge && usable direction edge.data).map (·.data.weight)
def leastWeight (weights : List EdgeWeight) : EdgeWeight := weights.foldl (fun least weight => min weight least) INVALID_EDGE_WEIGHT

section Merged
variable {edges group rest : List ContractorEdge} {edge first : ContractorEdge} {merging : Merging} {source target a b id : ℕ}
  {direction : Direction} {w : EdgeWeight}

private theorem mem_weights : w ∈ weights direction source target edges ↔
    ∃ edge ∈ edges, sameEnds source target edge = true ∧ usable direction edge.data = true ∧ edge.data.weight = w := by
  simp only [weights,mem_map,mem_filter,Bool.and_eq_true]
  constructor
  · rintro ⟨edge,⟨member,same,usable⟩,rfl⟩
    exact ⟨edge,member,same,usable,rfl⟩
  · rintro ⟨edge,member,same,usable,rfl⟩
    exact ⟨edge,⟨member,same,usable⟩,rfl⟩

theorem sameEnds_iff : sameEnds source target edge = true ↔ edge.source = source ∧ edge.target = target := by
  simp [sameEnds]

theorem foldl_min (l : List EdgeWeight) (start : EdgeWeight) :
    l.foldl (fun least weight => min weight least) start ≤ start ∧
      (∀ w ∈ l, l.foldl (fun least weight => min weight least) start ≤ w) ∧
      (l.foldl (fun least weight => min weight least) start = start ∨ l.foldl (fun least weight => min weight least) start ∈ l) := by
  induction l generalizing start with
  | nil => simp
  | cons first l ih =>
    obtain ⟨below,all,found⟩ := ih (min first start)
    rw [foldl_cons]
    refine ⟨below.trans (min_le_right ..),?_,?_⟩
    · intro w member
      rcases mem_cons.mp member with rfl | later
      · exact below.trans (min_le_left ..)
      · exact all w later
    · rcases found with same | inside
      · rw [same]
        rcases min_choice first start with here | there
        · rw [here]
          exact .inr (mem_cons_self ..)
        · exact .inl there
      · exact .inr (.tail _ inside)

private theorem leastWeight_min? (l : List EdgeWeight) :
    (if leastWeight l ≠ INVALID_EDGE_WEIGHT then [leastWeight l] else []).min? = (l.filter fun w => w < INVALID_EDGE_WEIGHT).min? := by
  obtain ⟨below,all,found⟩ := foldl_min l INVALID_EDGE_WEIGHT
  rw [← leastWeight] at below all found
  by_cases valid : leastWeight l ≠ INVALID_EDGE_WEIGHT
  · have member : leastWeight l ∈ l.filter fun w => w < INVALID_EDGE_WEIGHT :=
      mem_filter.mpr ⟨found.resolve_left valid,by simpa using lt_of_le_of_ne below valid⟩
    rw [if_pos valid,min?_singleton,eq_comm,min?_eq_some_iff]
    exact ⟨member,fun w there => all w (mem_of_mem_filter there)⟩
  · have none : (l.filter fun w => w < INVALID_EDGE_WEIGHT) = [] := by
      rw [filter_eq_nil_iff]
      intro w member
      have least := all w member
      rw [not_not.mp valid] at least
      simpa using least
    rw [if_neg valid,none]

structure Gathered (merging : Merging) (source target : ℕ) (there back : EdgeWeight) : Prop where
  ends : ∀ direction, (merging.least direction).source = source ∧ (merging.least direction).target = target
  forward : merging.forward_edge.data.forward = true ∧ merging.forward_edge.data.backward = false
  reverse : merging.reverse_edge.data.forward = false ∧ merging.reverse_edge.data.backward = true
  shortcut : ∀ direction, (merging.least direction).data.shortcut = false
  found : merging.forward_edge.data.weight = there ∧ merging.reverse_edge.data.weight = back

private theorem gathered_start (source target id : ℕ) :
    Gathered ⟨noEdge source target id true,noEdge source target id false⟩ source target INVALID_EDGE_WEIGHT INVALID_EDGE_WEIGHT :=
  ⟨fun direction => by cases direction <;> exact ⟨rfl,rfl⟩,⟨rfl,rfl⟩,⟨rfl,rfl⟩,fun direction => by cases direction <;> rfl,⟨rfl,rfl⟩⟩

variable {there back : EdgeWeight}

private theorem Gathered.foldl (gathered : Gathered merging source target there back)
    (same : ∀ edge ∈ group, sameEnds source target edge = true) :
    Gathered (group.foldl Merging.add merging) source target
      ((weights .FORWARD source target group).foldl (fun least weight => min weight least) there)
      ((weights .REVERSE source target group).foldl (fun least weight => min weight least) back) := by
  induction group generalizing merging there back with
  | nil => exact gathered
  | cons edge group ih =>
    have here := same edge (.head _)
    have next : Gathered (merging.add edge) source target (if edge.data.forward then min edge.data.weight there else there)
        (if edge.data.backward then min edge.data.weight back else back) := by
      obtain ⟨ends,forward,reverse,shortcut,rfl,rfl⟩ := gathered
      refine ⟨?_,?_,?_,?_,?_⟩
      · intro direction
        have := ends direction
        cases direction <;> simp only [Merging.add,Merging.least] at this ⊢ <;> split <;> exact this
      · simp only [Merging.add]
        split <;> exact forward
      · simp only [Merging.add]
        split <;> exact reverse
      · intro direction
        have := shortcut direction
        cases direction <;> simp only [Merging.add,Merging.least] at this ⊢ <;> split <;> exact this
      · constructor <;> simp only [Merging.add] <;> split <;> rfl
    have folded := ih next fun edge member => same edge (.tail _ member)
    rw [foldl_cons]
    convert folded using 1
    · simp only [weights,filter_cons,here,Bool.true_and,usable]
      cases edge.data.forward <;> simp
    · simp only [weights,filter_cons,here,Bool.true_and,usable]
      cases edge.data.backward <;> simp

theorem Gathered.weights (gathered : Gathered merging source target there back) (direction : Direction) :
    weights direction source target merging.edges =
      if (merging.least direction).data.weight ≠ INVALID_EDGE_WEIGHT then [(merging.least direction).data.weight] else [] := by
  obtain ⟨ends,⟨forward,notBackward⟩,⟨notForward,backward⟩,-,-⟩ := gathered
  obtain ⟨sourceF,targetF⟩ := ends .FORWARD
  obtain ⟨sourceR,targetR⟩ := ends .REVERSE
  simp only [Merging.least] at sourceF targetF sourceR targetR
  cases direction with
  | FORWARD =>
    simp only [Merging.least,Merging.edges]
    split_ifs <;> simp_all [ContractorAdaptors.weights,sameEnds,usable]
  | REVERSE =>
    simp only [Merging.least,Merging.edges]
    split_ifs <;> simp_all [ContractorAdaptors.weights,sameEnds,usable]

private theorem Gathered.edges_ends (gathered : Gathered merging source target there back) (member : edge ∈ merging.edges) :
    edge.source = source ∧ edge.target = target ∧ edge.data.shortcut = false := by
  have forward := gathered.ends .FORWARD
  have reverse := gathered.ends .REVERSE
  have plain := gathered.shortcut .FORWARD
  have plain' := gathered.shortcut .REVERSE
  rw [Merging.edges] at member
  split_ifs at member <;> simp only [mem_singleton,mem_append,not_mem_nil,or_false,false_or] at member
  · rw [member]
    exact ⟨forward.1,forward.2,plain⟩
  · rcases member with rfl | rfl
    · exact ⟨forward.1,forward.2,plain⟩
    · exact ⟨reverse.1,reverse.2,plain'⟩
  · rw [member]
    exact ⟨forward.1,forward.2,plain⟩
  · rw [member]
    exact ⟨reverse.1,reverse.2,plain'⟩

private theorem Gathered.edges_weight (gathered : Gathered merging source target there back)
    (member : edge ∈ merging.edges) : edge.data.weight = there ∨ edge.data.weight = back := by
  obtain ⟨forward,reverse⟩ := gathered.found
  rw [Merging.edges] at member
  split_ifs at member <;> simp only [mem_singleton,mem_append,not_mem_nil,or_false,false_or] at member
  · rw [member]
    exact .inl forward
  · rcases member with rfl | rfl
    · exact .inl forward
    · exact .inr reverse
  · rw [member]
    exact .inl forward
  · rw [member]
    exact .inr reverse

private theorem gathered_first (first : ContractorEdge) (rest : List ContractorEdge) :
    let group := first :: rest.takeWhile (sameEnds first.source first.target)
    (∀ edge ∈ group, sameEnds first.source first.target edge = true) ∧
      Gathered (group.foldl Merging.add
          ⟨noEdge first.source first.target first.data.id true,noEdge first.source first.target first.data.id false⟩)
        first.source first.target (leastWeight (weights .FORWARD first.source first.target group))
        (leastWeight (weights .REVERSE first.source first.target group)) := by
  intro group
  have same : ∀ edge ∈ group, sameEnds first.source first.target edge = true := by
    intro edge member
    rcases mem_cons.mp member with rfl | taken
    · simp [sameEnds]
    · exact mem_takeWhile_imp taken
  exact ⟨same,(gathered_start ..).foldl same⟩

theorem mem_merged (member : edge ∈ merged edges) :
    edge.source ≠ edge.target ∧ edge.data.shortcut = false ∧ ∃ edge' ∈ edges, edge'.source = edge.source ∧ edge'.target = edge.target := by
  induction edges using merged.induct with
  | case1 =>
    rw [merged] at member
    cases member
  | case2 first rest loop ih =>
    rw [merged,if_pos loop] at member
    obtain ⟨apart,plain,edge',inside,ends⟩ := ih member
    exact ⟨apart,plain,edge',.tail _ inside,ends⟩
  | case3 first rest apart ih =>
    rw [merged,if_neg apart,mem_append] at member
    rcases member with here | later
    · obtain ⟨source,target,plain⟩ := (gathered_first first rest).2.edges_ends here
      exact ⟨by rw [source,target]; exact apart,plain,first,.head _,source.symm,target.symm⟩
    · obtain ⟨apart',plain,edge',inside,ends⟩ := ih later
      exact ⟨apart',plain,edge',.tail _ ((dropWhile_sublist _).subset inside),ends⟩

private theorem falling_sameEnds (sorted : (first :: rest).Pairwise fun a b => less b a = false) :
    Scan.Falling (sameEnds first.source first.target) rest := by
  obtain ⟨least,order⟩ := pairwise_cons.mp sorted
  refine order.imp_of_mem fun {a b} member _ le same => ?_
  have above := least a member
  rw [sameEnds_iff] at same ⊢
  simp only [less,Bool.or_eq_false_iff,decide_eq_false_iff_not,Bool.and_eq_false_imp,beq_iff_eq] at le above
  omega

theorem weights_filter : weights direction a b (edges.filter (sameEnds a b)) = weights direction a b edges := by
  rw [weights,filter_filter,weights]
  congr 1
  apply filter_congr
  intro edge _
  cases sameEnds a b edge <;> simp

def gather (source target : ℕ) : List ContractorEdge → List ContractorEdge
  | [] => []
  | first :: rest => ((first :: rest).foldl Merging.add
      ⟨noEdge source target first.data.id true,noEdge source target first.data.id false⟩).edges

theorem merged_filter (sorted : edges.Pairwise fun a b => less b a = false) (apart : a ≠ b) :
    (merged edges).filter (sameEnds a b) = gather a b (edges.filter (sameEnds a b)) := by
  induction edges using merged.induct with
  | case1 => rw [merged,filter_nil,gather]
  | case2 first rest loop ih =>
    have other : sameEnds a b first = false := by
      simp only [sameEnds,Bool.and_eq_false_imp,beq_iff_eq,beq_eq_false_iff_ne]
      omega
    rw [merged,if_pos loop,filter_cons_of_neg (by simp [other])]
    exact ih sorted.of_cons
  | case3 first rest notLoop ih =>
    obtain ⟨same,gathered⟩ := gathered_first first rest
    have falling := falling_sameEnds sorted
    have rest_sorted : (rest.dropWhile (sameEnds first.source first.target)).Pairwise fun a b => less b a = false :=
      sorted.of_cons.sublist (dropWhile_sublist _)
    rw [merged,if_neg notLoop,filter_append]
    by_cases here : a = first.source ∧ b = first.target
    · -- the first edges are those between the two nodes, and the rest has no more of them
      obtain ⟨rfl,rfl⟩ := here
      have gone : (merged (rest.dropWhile (sameEnds first.source first.target))).filter (sameEnds first.source first.target) = [] := by
        rw [filter_eq_nil_iff]
        intro edge member
        obtain ⟨-,-,edge',inside,source,target⟩ := mem_merged member
        rw [Scan.dropWhile_eq_filter falling] at inside
        have differs := (mem_filter.mp inside).2
        rw [Bool.not_eq_true',← Bool.not_eq_true,sameEnds_iff,source,target] at differs
        exact fun kept => differs (sameEnds_iff.mp kept)
      rw [gone,append_nil,filter_cons_of_pos (by simp [sameEnds]),← Scan.takeWhile_eq_filter falling]
      exact filter_eq_self.mpr fun edge member =>
        sameEnds_iff.mpr ⟨(gathered.edges_ends member).1,(gathered.edges_ends member).2.1⟩
    · have elsewhere {edge : ContractorEdge} (ends : edge.source = first.source ∧ edge.target = first.target) : ¬ sameEnds a b edge = true := by
        rw [sameEnds_iff]
        rintro ⟨source,target⟩
        exact here ⟨source.symm.trans ends.1,target.symm.trans ends.2⟩
      rw [filter_eq_nil_iff.mpr,nil_append,ih rest_sorted]
      · congr 1
        conv_rhs => rw [filter_cons_of_neg (elsewhere ⟨rfl,rfl⟩),
          ← takeWhile_append_dropWhile (p := sameEnds first.source first.target) (l := rest),filter_append]
        rw [filter_eq_nil_iff.mpr fun edge member => elsewhere (sameEnds_iff.mp (mem_takeWhile_imp member)),nil_append]
      · exact fun edge member => elsewhere ⟨(gathered.edges_ends member).1,(gathered.edges_ends member).2.1⟩

private theorem merged_between (sorted : edges.Pairwise fun a b => less b a = false) (apart : a ≠ b) :
    ∃ merging, Gathered merging a b (leastWeight (weights .FORWARD a b edges)) (leastWeight (weights .REVERSE a b edges)) ∧
      (merged edges).filter (sameEnds a b) = merging.edges := by
  have filtered (direction : Direction) : weights direction a b (edges.filter (sameEnds a b)) = weights direction a b edges := weights_filter
  rw [merged_filter sorted apart,← filtered .FORWARD,← filtered .REVERSE]
  have same : ∀ edge ∈ edges.filter (sameEnds a b), sameEnds a b edge = true := fun edge member => (mem_filter.mp member).2
  cases group : edges.filter (sameEnds a b) with
  | nil => exact ⟨_,gathered_start a b 0,rfl⟩
  | cons first rest => exact ⟨_,(gathered_start a b first.data.id).foldl (group ▸ same),rfl⟩

private theorem merged_weights (sorted : edges.Pairwise fun a b => less b a = false) (apart : a ≠ b) (direction : Direction) :
    (weights direction a b (merged edges)).min? = ((weights direction a b edges).filter fun w => w < INVALID_EDGE_WEIGHT).min? := by
  obtain ⟨merging,gathered,kept⟩ := merged_between sorted apart
  rw [← weights_filter,kept,gathered.weights direction,← leastWeight_min?]
  cases direction with
  | FORWARD => simp only [Merging.least,gathered.found.1]
  | REVERSE => simp only [Merging.least,gathered.found.2]

private theorem merged_sorted (sorted : edges.Pairwise fun a b => less b a = false) : DynamicGraph.SortedBySource (merged edges) := by
  induction edges using merged.induct with
  | case1 =>
    rw [merged]
    exact List.Pairwise.nil
  | case2 first rest loop ih =>
    rw [merged,if_pos loop]
    exact ih sorted.of_cons
  | case3 first rest notLoop ih =>
    obtain ⟨same,gathered⟩ := gathered_first first rest
    have rest_sorted : (rest.dropWhile (sameEnds first.source first.target)).Pairwise fun a b => less b a = false :=
      sorted.of_cons.sublist (dropWhile_sublist _)
    rw [merged,if_neg notLoop,DynamicGraph.SortedBySource,pairwise_append]
    refine ⟨?_,ih rest_sorted,?_⟩
    · apply pairwise_of_forall_mem_list
      intro edge member edge' member'
      rw [(gathered.edges_ends member).1,(gathered.edges_ends member').1]
    · intro edge member edge' member'
      obtain ⟨-,-,later,inside,source,-⟩ := mem_merged member'
      have above := (pairwise_cons.mp sorted).1 later ((dropWhile_sublist _).subset inside)
      rw [(gathered.edges_ends member).1,← source]
      simp only [less,Bool.or_eq_false_iff,decide_eq_false_iff_not] at above
      omega

end Merged

/-! ### The graph -/

section Graph
variable {parallel_sort : ParallelSort} {input_edge_list : List EdgeBasedEdge} {uninitialized : ℕ → Edge ContractorEdgeData}
  {number_of_nodes s t u : ℕ} {direction : Direction} {w : EdgeWeight}

/-- An edge can be used from one node to another, and its weight is valid. -/
def usableInput (s t : ℕ) (input_edge : EdgeBasedEdge) : Bool :=
  decide (input_edge.data.weight < INVALID_EDGE_WEIGHT) &&
    (input_edge.source == s && input_edge.target == t && input_edge.data.forward ||
      input_edge.source == t && input_edge.target == s && input_edge.data.backward)

def inputWeights (input_edge_list : List EdgeBasedEdge) (s t : ℕ) : List EdgeWeight :=
  (input_edge_list.filter (usableInput s t)).map fun input_edge => max input_edge.data.weight 1
/-- The weights of the edges stored at one node that lead to another one and are usable in a direction. -/
def storedWeights (graph : DynamicGraph ContractorEdgeData) (direction : Direction) (u v : ℕ) : List EdgeWeight :=
  ((graph.adjacent u).filter fun edge => edge.target == v && usable direction edge.data).map (·.data.weight)

/-- The loop over the sorted edges merges them by group. -/
theorem contractorEdges_eq : contractorEdges parallel_sort input_edge_list =
    merged (parallel_sort.sort (input_edge_list.flatMap twoEdges)) := by
  rw [contractorEdges]
  exact mergeEdges_spec le_rfl le_rfl

theorem adjacent_eq (here : u < number_of_nodes) :
    (toContractorGraph parallel_sort uninitialized number_of_nodes input_edge_list).adjacent u =
      ((contractorEdges parallel_sort input_edge_list).filter fun edge => edge.source == u).map InputEdge.edge := by
  refine DynamicGraph.new_adjacent uninitialized ?_ here
  rw [contractorEdges_eq]
  exact merged_sorted (parallel_sort.ordered _)

theorem storedWeights_eq (here : u < number_of_nodes) (v : ℕ) :
    storedWeights (toContractorGraph parallel_sort uninitialized number_of_nodes input_edge_list) direction u v =
      weights direction u v (contractorEdges parallel_sort input_edge_list) := by
  rw [storedWeights,adjacent_eq here,filter_map,map_map,filter_filter,weights]
  congr 1
  apply filter_congr
  intro edge _
  simp only [sameEnds,Function.comp,InputEdge.edge,Bool.and_comm,Bool.and_assoc]

private theorem min?_congr {l l' : List EdgeWeight} (same : ∀ w, w ∈ l ↔ w ∈ l') : l.min? = l'.min? := by
  cases least : l'.min? with
  | none =>
    rw [min?_eq_none_iff] at least ⊢
    rw [eq_nil_iff_forall_not_mem]
    intro w member
    have := (same w).mp member
    rw [least] at this
    cases this
  | some w =>
    rw [min?_eq_some_iff] at least ⊢
    exact ⟨(same w).mpr least.1,fun w' member => least.2 w' ((same w').mp member)⟩

variable {edge : ContractorEdge}

theorem mem_twoEdges : edge ∈ input_edge_list.flatMap twoEdges ↔
    ∃ input_edge ∈ input_edge_list, input_edge.data.weight ≠ INVALID_EDGE_WEIGHT ∧ (edge = atSource input_edge ∨ edge = atTarget input_edge) := by
  rw [mem_flatMap]
  apply exists_congr
  intro input_edge
  rw [twoEdges]
  by_cases invalid : input_edge.data.weight = INVALID_EDGE_WEIGHT
  · simp [invalid]
  · simp [invalid]

private theorem mem_forward : w ∈ (weights .FORWARD s t (input_edge_list.flatMap twoEdges)).filter (fun w => w < INVALID_EDGE_WEIGHT) ↔
    w ∈ inputWeights input_edge_list s t := by
  have one : (1 : EdgeWeight) < INVALID_EDGE_WEIGHT := by decide
  simp only [mem_filter,mem_weights,mem_twoEdges,inputWeights,mem_map,usableInput,decide_eq_true_eq,Bool.and_eq_true,
    Bool.or_eq_true,beq_iff_eq,sameEnds_iff]
  constructor
  · rintro ⟨⟨edge,⟨input_edge,member,-,rfl | rfl⟩,ends,usable,rfl⟩,valid⟩
    · exact ⟨input_edge,⟨member,(max_lt_iff.mp valid).1,.inl ⟨ends,usable⟩⟩,rfl⟩
    · exact ⟨input_edge,⟨member,(max_lt_iff.mp valid).1,.inr ⟨ends.symm,usable⟩⟩,rfl⟩
  · rintro ⟨input_edge,⟨member,valid,forward | backward⟩,rfl⟩
    · exact ⟨⟨atSource input_edge,⟨input_edge,member,valid.ne,.inl rfl⟩,forward.1,forward.2,rfl⟩,max_lt valid one⟩
    · exact ⟨⟨atTarget input_edge,⟨input_edge,member,valid.ne,.inr rfl⟩,backward.1.symm,backward.2,rfl⟩,max_lt valid one⟩

private theorem twoEdges_mirrored : w ∈ weights .REVERSE t s (input_edge_list.flatMap twoEdges) ↔ w ∈ weights .FORWARD s t (input_edge_list.flatMap twoEdges) := by
  simp only [mem_weights,mem_twoEdges,sameEnds_iff]
  constructor
  · rintro ⟨edge,⟨input_edge,member,valid,rfl | rfl⟩,ends,usable,rfl⟩
    · exact ⟨atTarget input_edge,⟨input_edge,member,valid,.inr rfl⟩,ends.symm,usable,rfl⟩
    · exact ⟨atSource input_edge,⟨input_edge,member,valid,.inl rfl⟩,ends.symm,usable,rfl⟩
  · rintro ⟨edge,⟨input_edge,member,valid,rfl | rfl⟩,ends,usable,rfl⟩
    · exact ⟨atTarget input_edge,⟨input_edge,member,valid,.inr rfl⟩,ends.symm,usable,rfl⟩
    · exact ⟨atSource input_edge,⟨input_edge,member,valid,.inl rfl⟩,ends.symm,usable,rfl⟩

theorem weights_contractorEdges (apart : s ≠ t) :
    (weights .FORWARD s t (contractorEdges parallel_sort input_edge_list)).min? = (inputWeights input_edge_list s t).min? ∧
      (weights .REVERSE t s (contractorEdges parallel_sort input_edge_list)).min? = (inputWeights input_edge_list s t).min? := by
  have sorted := parallel_sort.ordered (input_edge_list.flatMap twoEdges)
  have perm (direction : Direction) (a b : ℕ) (w : EdgeWeight) : w ∈ weights direction a b (parallel_sort.sort (input_edge_list.flatMap twoEdges)) ↔
      w ∈ weights direction a b (input_edge_list.flatMap twoEdges) := by
    simp only [mem_weights,(parallel_sort.perm (input_edge_list.flatMap twoEdges)).mem_iff]
  rw [contractorEdges_eq,merged_weights sorted apart,merged_weights sorted apart.symm]
  constructor
  · apply min?_congr
    intro w
    rw [mem_filter,perm]
    exact mem_filter.symm.trans mem_forward
  · apply min?_congr
    intro w
    rw [mem_filter,perm,twoEdges_mirrored]
    exact mem_filter.symm.trans mem_forward

/-- Building the graph keeps the cheapest connection in each direction, at both of its ends, and no eigenloop. -/
theorem cheapest_connections_kept (parallel_sort : ParallelSort) (uninitialized : ℕ → Edge ContractorEdgeData)
    (number_of_nodes : ℕ) (input_edge_list : List EdgeBasedEdge) :
    (∀ s < number_of_nodes, ∀ t < number_of_nodes, s ≠ t →
      (storedWeights (toContractorGraph parallel_sort uninitialized number_of_nodes input_edge_list) .FORWARD s t).min? =
          (inputWeights input_edge_list s t).min? ∧
        (storedWeights (toContractorGraph parallel_sort uninitialized number_of_nodes input_edge_list) .REVERSE t s).min? =
          (inputWeights input_edge_list s t).min?) ∧
      ∀ u < number_of_nodes, ∀ edge ∈ (toContractorGraph parallel_sort uninitialized number_of_nodes input_edge_list).adjacent u,
        edge.target ≠ u := by
  refine ⟨?_,?_⟩
  · intro s here t there apart
    rw [storedWeights_eq here,storedWeights_eq there]
    exact weights_contractorEdges apart
  · intro u here edge member
    rw [adjacent_eq here] at member
    obtain ⟨input,chosen,rfl⟩ := mem_map.mp member
    obtain ⟨kept,source⟩ := mem_filter.mp chosen
    rw [contractorEdges_eq] at kept
    rw [← beq_iff_eq.mp source]
    exact (mem_merged kept).1.symm

/-! ### As the contraction takes it -/

def contractorGraph (graph : DynamicGraph ContractorEdgeData) : Contractor.ContractorGraph :=
  ⟨graph.number_of_nodes,fun u => (graph.adjacent u).map fun edge => ⟨edge.target,edge.data⟩⟩

theorem foldl_min_congr {l l' : List ℤ} (same : ∀ w, w ∈ l ↔ w ∈ l') (start : ℤ) :
    l.foldl (fun least weight => min weight least) start = l'.foldl (fun least weight => min weight least) start := by
  have below {l l' : List ℤ} (sub : ∀ w ∈ l', w ∈ l) :
      l.foldl (fun least weight => min weight least) start ≤ l'.foldl (fun least weight => min weight least) start := by
    obtain ⟨small,all,-⟩ := foldl_min l start
    obtain ⟨-,-,found⟩ := foldl_min l' start
    rcases found with none | member
    · exact small.trans none.ge
    · exact all _ (sub _ member)
  exact le_antisymm (below fun w => (same w).mpr) (below fun w => (same w).mp)

theorem leastWeight_congr {l l' : List EdgeWeight} (same : ∀ w, w ∈ l ↔ w ∈ l') : leastWeight l = leastWeight l' :=
  foldl_min_congr same INVALID_EDGE_WEIGHT

private theorem Gathered.mirrored {merging merging' : Merging} {source target : ℕ} {there back : EdgeWeight}
    (gathered : Gathered merging source target there back) (opposite : Gathered merging' target source back there)
    (member : edge ∈ merging.edges) :
    ∃ edge' ∈ merging'.edges, edge'.data.weight = edge.data.weight ∧ edge'.data.forward = edge.data.backward ∧
      edge'.data.backward = edge.data.forward := by
  obtain ⟨-,⟨forward,notBackward⟩,⟨notForward,backward⟩,-,⟨rfl,rfl⟩⟩ := gathered
  obtain ⟨-,⟨forward',notBackward'⟩,⟨notForward',backward'⟩,-,⟨same,same'⟩⟩ := opposite
  rw [Merging.edges] at member
  by_cases equal : merging.forward_edge.data.weight = merging.reverse_edge.data.weight
  · rw [if_pos equal] at member
    by_cases valid : merging.forward_edge.data.weight ≠ INVALID_EDGE_WEIGHT
    · rw [if_pos valid,mem_singleton] at member
      rw [Merging.edges,if_pos (by rw [same,same',equal]),if_pos (by rw [same,← equal]; exact valid)]
      refine ⟨_,mem_singleton_self _,?_⟩
      rw [member]
      exact ⟨same.trans equal.symm,forward',forward.symm⟩
    · rw [if_neg valid] at member
      cases member
  · rw [if_neg equal,mem_append] at member
    have unequal : ¬ merging'.forward_edge.data.weight = merging'.reverse_edge.data.weight := by
      rw [same,same']
      exact Ne.symm equal
    rw [Merging.edges,if_neg unequal,same,same']
    rcases member with here | here
    · by_cases valid : merging.forward_edge.data.weight ≠ INVALID_EDGE_WEIGHT
      · rw [if_pos valid,mem_singleton] at here
        refine ⟨merging'.reverse_edge,mem_append_right _ (by rw [if_pos valid]; exact .head _),?_⟩
        rw [here]
        exact ⟨same',notForward'.trans notBackward.symm,backward'.trans forward.symm⟩
      · rw [if_neg valid] at here
        cases here
    · by_cases valid : merging.reverse_edge.data.weight ≠ INVALID_EDGE_WEIGHT
      · rw [if_pos valid,mem_singleton] at here
        refine ⟨merging'.forward_edge,mem_append_left _ (by rw [if_pos valid]; exact .head _),?_⟩
        rw [here]
        exact ⟨same,forward'.trans backward.symm,notBackward'.trans notForward.symm⟩
      · rw [if_neg valid] at here
        cases here

theorem contractorEdges_between (parallel_sort : ParallelSort) (input_edge_list : List EdgeBasedEdge) (apart : s ≠ t) : ∃ merging,
    Gathered merging s t (leastWeight (weights .FORWARD s t (input_edge_list.flatMap twoEdges)))
      (leastWeight (weights .FORWARD t s (input_edge_list.flatMap twoEdges))) ∧
      (contractorEdges parallel_sort input_edge_list).filter (sameEnds s t) = merging.edges := by
  obtain ⟨merging,gathered,kept⟩ := merged_between (parallel_sort.ordered (input_edge_list.flatMap twoEdges)) apart
  have perm (direction : Direction) (w : EdgeWeight) : w ∈ weights direction s t (parallel_sort.sort (input_edge_list.flatMap twoEdges)) ↔
      w ∈ weights direction s t (input_edge_list.flatMap twoEdges) := by
    simp only [mem_weights,(parallel_sort.perm (input_edge_list.flatMap twoEdges)).mem_iff]
  rw [leastWeight_congr (perm .FORWARD),leastWeight_congr fun w => (perm .REVERSE w).trans twoEdges_mirrored] at gathered
  exact ⟨merging,gathered,contractorEdges_eq ▸ kept⟩

private theorem one_le_leastWeight (s t : ℕ) : 1 ≤ leastWeight (weights .FORWARD s t (input_edge_list.flatMap twoEdges)) := by
  obtain ⟨-,-,found⟩ := foldl_min (weights .FORWARD s t (input_edge_list.flatMap twoEdges)) INVALID_EDGE_WEIGHT
  rcases found with none | member
  · exact (by decide : (1 : EdgeWeight) ≤ INVALID_EDGE_WEIGHT).trans none.ge
  · obtain ⟨edge,inside,-,-,weight⟩ := mem_weights.mp member
    obtain ⟨input_edge,-,-,rfl | rfl⟩ := mem_twoEdges.mp inside
    · exact (le_max_right ..).trans weight.le
    · exact (le_max_right ..).trans weight.le

private theorem contractorEdges_spec (member : edge ∈ contractorEdges parallel_sort input_edge_list) :
    1 ≤ edge.data.weight ∧ edge.data.shortcut = false ∧ (∃ input_edge ∈ input_edge_list,
      (edge.source = input_edge.source ∧ edge.target = input_edge.target) ∨ edge.source = input_edge.target ∧ edge.target = input_edge.source) ∧
      ∃ edge' ∈ contractorEdges parallel_sort input_edge_list, edge'.source = edge.target ∧ edge'.target = edge.source ∧
        edge'.data.weight = edge.data.weight ∧ edge'.data.forward = edge.data.backward ∧ edge'.data.backward = edge.data.forward := by
  obtain ⟨apart,plain,edge',inside,source,target⟩ := mem_merged (contractorEdges_eq ▸ member)
  obtain ⟨input_edge,given,-,made⟩ := mem_twoEdges.mp ((parallel_sort.perm _).mem_iff.mp inside)
  obtain ⟨merging,gathered,kept⟩ := contractorEdges_between parallel_sort input_edge_list apart
  obtain ⟨merging',opposite,kept'⟩ := contractorEdges_between parallel_sort input_edge_list apart.symm
  have here : edge ∈ merging.edges := kept ▸ mem_filter.mpr ⟨member,sameEnds_iff.mpr ⟨rfl,rfl⟩⟩
  refine ⟨?_,plain,⟨input_edge,given,?_⟩,?_⟩
  · rcases gathered.edges_weight here with forward | backward
    · exact (one_le_leastWeight _ _).trans forward.ge
    · exact (one_le_leastWeight _ _).trans backward.ge
  · rcases made with rfl | rfl
    · exact .inl ⟨source.symm,target.symm⟩
    · exact .inr ⟨source.symm,target.symm⟩
  · obtain ⟨edge',there,weight,forward,backward⟩ := gathered.mirrored opposite here
    obtain ⟨kept,ends⟩ := mem_filter.mp (kept' ▸ there)
    obtain ⟨source',target'⟩ := sameEnds_iff.mp ends
    exact ⟨edge',kept,source',target',weight,forward,backward⟩

theorem mem_contractorGraph {edge : Contractor.DynamicEdge}
    (member : edge ∈ (contractorGraph (toContractorGraph parallel_sort uninitialized number_of_nodes input_edge_list)).adjacent u) :
    u < number_of_nodes ∧ ∃ kept ∈ contractorEdges parallel_sort input_edge_list, kept.source = u ∧ edge = ⟨kept.target,kept.data⟩ := by
  obtain ⟨stored,inside,rfl⟩ := mem_map.mp member
  by_cases here : u < number_of_nodes
  · rw [adjacent_eq here] at inside
    obtain ⟨kept,chosen,rfl⟩ := mem_map.mp inside
    obtain ⟨there,source⟩ := mem_filter.mp chosen
    exact ⟨here,kept,there,beq_iff_eq.mp source,rfl⟩
  · -- no other node has a range
    have sorted : DynamicGraph.SortedBySource (contractorEdges parallel_sort input_edge_list) :=
      contractorEdges_eq ▸ merged_sorted (parallel_sort.ordered _)
    obtain ⟨edge_list,built,-,-⟩ := DynamicGraph.new_eq uninitialized sorted number_of_nodes
    rw [toContractorGraph,built,DynamicGraph.adjacent,DynamicGraph.BeginEdges,DynamicGraph.EndEdges,DynamicGraph.node,
      getD_eq_getElem?_getD,getElem?_eq_none (by simpa using here)] at inside
    simp [Slices.slice] at inside

private theorem contractorGraph_mem (here : u < number_of_nodes) {kept : ContractorEdge} (member : kept ∈ contractorEdges parallel_sort input_edge_list)
    (source : kept.source = u) :
    ⟨kept.target,kept.data⟩ ∈ (contractorGraph (toContractorGraph parallel_sort uninitialized number_of_nodes input_edge_list)).adjacent u := by
  refine mem_map.mpr ⟨kept.edge,?_,rfl⟩
  rw [adjacent_eq here]
  exact mem_map.mpr ⟨kept,mem_filter.mpr ⟨member,beq_iff_eq.mpr source⟩,rfl⟩

theorem toContractorGraph_input (parallel_sort : ParallelSort) (uninitialized : ℕ → Edge ContractorEdgeData)
    (nodes : ∀ input_edge ∈ input_edge_list, input_edge.source < number_of_nodes ∧ input_edge.target < number_of_nodes) :
    QueryGraph.Input (contractorGraph (toContractorGraph parallel_sort uninitialized number_of_nodes input_edge_list)) := by
  have count : (contractorGraph (toContractorGraph parallel_sort uninitialized number_of_nodes input_edge_list)).number_of_nodes =
      number_of_nodes := rfl
  have bounded {kept : ContractorEdge} (member : kept ∈ contractorEdges parallel_sort input_edge_list) :
      kept.source < number_of_nodes ∧ kept.target < number_of_nodes := by
    obtain ⟨-,-,⟨input_edge,given,ends | ends⟩,-⟩ := contractorEdges_spec member
    · rw [ends.1,ends.2]
      exact nodes input_edge given
    · rw [ends.1,ends.2]
      exact (nodes input_edge given).symm
  refine ⟨?_,?_,?_,?_⟩
  · intro u edge member
    obtain ⟨-,kept,inside,rfl,rfl⟩ := mem_contractorGraph member
    obtain ⟨-,-,-,opposite,there,source,target,weight,forward,backward⟩ := contractorEdges_spec inside
    exact ⟨⟨opposite.target,opposite.data⟩,contractorGraph_mem (bounded inside).2 there source,target,weight,forward,backward⟩
  · intro u edge member
    obtain ⟨-,kept,inside,-,rfl⟩ := mem_contractorGraph member
    exact (contractorEdges_spec inside).1
  · intro u edge member
    obtain ⟨-,kept,inside,-,rfl⟩ := mem_contractorGraph member
    exact (contractorEdges_spec inside).2.1
  · intro u edge member
    obtain ⟨here,kept,inside,-,rfl⟩ := mem_contractorGraph member
    exact ⟨here,(bounded inside).2⟩

end Graph

end Osrm.ContractorAdaptors
