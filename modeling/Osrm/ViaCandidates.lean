import Osrm.BestCut
import Osrm.Typedefs
import Osrm.UniqueSort

/-!
The via candidates of `routing_algorithms/alternative_path_mld.cpp`: of the records of a node one is left, then those
that are much heavier than the main route are dropped and the others are ranked.
-/
namespace Osrm.ViaCandidates
open List
open Typedefs UniqueSort
open BestCut (keep foldl_keep_mem foldl_keep_unbeaten)

structure WeightedViaNode where
  node : NodeID
  weight : EdgeWeight
  deriving DecidableEq, Repr

def by_node (lhs rhs : WeightedViaNode) : Bool := decide (lhs.node < rhs.node)
def by_weight (lhs rhs : WeightedViaNode) : Bool := decide (lhs.weight < rhs.weight)
/-- The weight of the main route, that of `std::min_element`. -/
def shortest_path_weight (first : WeightedViaNode) (rest : List WeightedViaNode) : EdgeWeight :=
  (rest.foldl (keep fun a b => by_weight a b = true) first).weight
def filterViaCandidatesByUniqueNodeIds (sorted : List WeightedViaNode) : List WeightedViaNode :=
  unique (fun lhs rhs => lhs.node == rhs.node) sorted
/-- The limit for a weight is `(1 + kAtMostLongerBy) * weight` in doubles; here it is any function of the weight. -/
def over_weight_limit (stretch_weight_limit : EdgeWeight → ℚ) (weight : EdgeWeight) (via : WeightedViaNode) : Bool :=
  decide (stretch_weight_limit weight < via.weight)
def filterViaCandidatesByStretch (stretch_weight_limit : EdgeWeight → ℚ) (weight : EdgeWeight)
    (candidate_vias : List WeightedViaNode) : List WeightedViaNode :=
  candidate_vias.filter fun via => !over_weight_limit stretch_weight_limit weight via

/-- The steps of `alternativePathSearch` to the ranked range, with what its two sorts may make of them. -/
structure Ranked (stretch_weight_limit : EdgeWeight → ℚ) (first : WeightedViaNode)
    (rest sorted ranked : List WeightedViaNode) : Prop where
  unified : Sorts by_node (first :: rest) sorted
  ranked : Sorts by_weight (filterViaCandidatesByStretch stretch_weight_limit (shortest_path_weight first rest)
    (filterViaCandidatesByUniqueNodeIds sorted)) ranked

/-- The first one of the range is of the main route, and the others are of other nodes, each with its least weight. -/
structure KeepsMain (candidate_vias ranked : List WeightedViaNode) : Prop where
  some_via : ranked ≠ []
  distinct : (ranked.map (·.node)).Nodup
  least : ∀ via ∈ ranked, via ∈ candidate_vias ∧ ∀ other ∈ candidate_vias, other.node = via.node → via.weight ≤ other.weight
  main : ∀ via, ranked.head? = some via → ∀ other ∈ candidate_vias, via.weight ≤ other.weight

/-- The main route is not over the limit, one of its nodes has no other weight, and a record under the limit is a least one. -/
structure Undisputed (stretch_weight_limit : EdgeWeight → ℚ) (first : WeightedViaNode) (rest : List WeightedViaNode) : Prop where
  within : ∀ node, over_weight_limit stretch_weight_limit (shortest_path_weight first rest) ⟨node,shortest_path_weight first rest⟩ = false
  main : ∃ via ∈ first :: rest, ∀ other ∈ first :: rest, other.node = via.node → other.weight = shortest_path_weight first rest
  agreed : ∀ via ∈ first :: rest, over_weight_limit stretch_weight_limit (shortest_path_weight first rest) via = false →
    ∀ other ∈ first :: rest, other.node = via.node → via.weight ≤ other.weight

variable {stretch_weight_limit : EdgeWeight → ℚ} {first via : WeightedViaNode} {rest sorted ranked candidate_vias : List WeightedViaNode}

private theorem shortest_path_weight_le : ∀ via ∈ first :: rest, shortest_path_weight first rest ≤ via.weight := by
  intro via member
  have trans : ∀ a b c, by_weight a b = true → by_weight b c = true → by_weight a c = true := fun a b c => by
    simp only [by_weight,decide_eq_true_eq]
    exact lt_trans
  have unbeaten := foldl_keep_unbeaten trans (fun a => by simp [by_weight]) first rest via member
  exact not_lt.mp fun less => unbeaten (decide_eq_true less)

private theorem exists_shortest (first : WeightedViaNode) (rest : List WeightedViaNode) :
    ∃ via ∈ first :: rest, via.weight = shortest_path_weight first rest :=
  ⟨_,foldl_keep_mem first rest,rfl⟩

private theorem same_node (lhs rhs : WeightedViaNode) : (lhs.node == rhs.node) = true ↔ lhs.node = rhs.node := beq_iff_eq

private theorem Sorts.nodes (sorts : Sorts by_node candidate_vias sorted) : sorted.Pairwise fun a b => a.node ≤ b.node :=
  sorts.ordered.imp fun order => by simpa [by_node] using order
private theorem Sorts.weights (sorts : Sorts by_weight candidate_vias ranked) : ranked.Pairwise fun a b => a.weight ≤ b.weight :=
  sorts.ordered.imp fun order => by simpa [by_weight] using order

private theorem Ranked.mem_iff (run : Ranked stretch_weight_limit first rest sorted ranked) :
    via ∈ ranked ↔ via ∈ filterViaCandidatesByUniqueNodeIds sorted ∧
      over_weight_limit stretch_weight_limit (shortest_path_weight first rest) via = false := by
  rw [run.ranked.perm.mem_iff,filterViaCandidatesByStretch,mem_filter,Bool.not_eq_true']

private theorem Ranked.mem (run : Ranked stretch_weight_limit first rest sorted ranked) (member : via ∈ ranked) : via ∈ first :: rest :=
  run.unified.perm.subset ((unique_sublist _ sorted).subset (run.mem_iff.mp member).1)

private theorem Ranked.distinct (run : Ranked stretch_weight_limit first rest sorted ranked) : (ranked.map (·.node)).Nodup := by
  have ascending := unique_keys same_node (Sorts.nodes run.unified)
  rw [(run.ranked.perm.map _).nodup_iff,List.Nodup,pairwise_map]
  exact (ascending.sublist filter_sublist).imp fun less => less.ne

private theorem Undisputed.keepsMain (undisputed : Undisputed stretch_weight_limit first rest)
    (run : Ranked stretch_weight_limit first rest sorted ranked) : KeepsMain (first :: rest) ranked := by
  obtain ⟨via,member,only⟩ := undisputed.main
  have inside := run.unified.perm.symm.subset member
  obtain ⟨kept,left,there⟩ := exists_mem_unique same_node (Sorts.nodes run.unified) inside
  have known := run.unified.perm.subset ((unique_sublist _ sorted).subset left)
  have weight := only kept known there
  have stays : kept ∈ ranked := by
    refine run.mem_iff.mpr ⟨left,?_⟩
    have within := undisputed.within kept.node
    rwa [← weight] at within ⊢
  refine ⟨ne_nil_of_mem stays,run.distinct,fun via member => ?_,fun via head other candidate => ?_⟩
  · exact ⟨run.mem member,undisputed.agreed via (run.mem member) (run.mem_iff.mp member).2⟩
  · obtain ⟨later,rfl⟩ := head?_eq_some_iff.mp head
    refine le_trans ?_ (shortest_path_weight_le other candidate)
    rw [← weight]
    cases mem_cons.mp stays with
    | inl same => rw [same]
    | inr after => exact (pairwise_cons.mp (Sorts.weights run.ranked)).1 kept after

private theorem by_node_total (a b : WeightedViaNode) : by_node b a = false ∨ by_node a b = false := by
  simpa [by_node] using le_total a.node b.node

private theorem by_node_trans (a b c : WeightedViaNode) (one : by_node b a = false) (two : by_node c b = false) : by_node c a = false := by
  simp only [by_node,decide_eq_false_iff_not,not_lt] at *
  exact one.trans two

private theorem by_weight_total (a b : WeightedViaNode) : by_weight b a = false ∨ by_weight a b = false := by
  simpa [by_weight] using le_total a.weight b.weight

private theorem by_weight_trans (a b c : WeightedViaNode) (one : by_weight b a = false) (two : by_weight c b = false) : by_weight c a = false := by
  simp only [by_weight,decide_eq_false_iff_not,not_lt] at *
  exact one.trans two

private theorem exists_ranked (stretch_weight_limit : EdgeWeight → ℚ) (unified : Sorts by_node (first :: rest) sorted) :
    ∃ ranked, Ranked stretch_weight_limit first rest sorted ranked :=
  ⟨_,unified,sorts_mergeSort by_weight_trans by_weight_total _⟩

private theorem exists_kept (member : via ∈ first :: rest) :
    ∃ sorted, Sorts by_node (first :: rest) sorted ∧ via ∈ filterViaCandidatesByUniqueNodeIds sorted := by
  obtain ⟨sorted,sorts,front⟩ := exists_sorts by_node_trans by_node_total member
  refine ⟨sorted,sorts,(mem_unique same_node (Sorts.nodes sorts)).mpr (front _ (fun a b same same' => ?_) (by simp))⟩
  simp only [decide_eq_true_eq] at same same'
  simp [by_node,same,same']

private theorem exists_heaviest (first : WeightedViaNode) (rest : List WeightedViaNode) : ∃ sorted, Sorts by_node (first :: rest) sorted ∧
    ∀ via ∈ filterViaCandidatesByUniqueNodeIds sorted, ∀ other ∈ first :: rest, other.node = via.node → other.weight ≤ via.weight := by
  let before (a b : WeightedViaNode) := decide (a.node < b.node ∨ a.node = b.node ∧ b.weight < a.weight)
  have trans : ∀ a b c, before b a = false → before c b = false → before c a = false := fun a b c => by
    simp only [before,decide_eq_false_iff_not]
    lia
  have total : ∀ a b, before b a = false ∨ before a b = false := fun a b => by
    simp only [before,decide_eq_false_iff_not]
    lia
  obtain ⟨perm,ordered⟩ := sorts_mergeSort trans total (first :: rest)
  generalize (first :: rest).mergeSort _ = sorted at perm ordered
  have nodes : Sorts by_node (first :: rest) sorted := ⟨perm,ordered.imp fun order => by
    simp only [before,decide_eq_false_iff_not,by_node] at order ⊢
    lia⟩
  refine ⟨sorted,nodes,fun via left other member same => ?_⟩
  have lighter := unique_first (R := fun a b : WeightedViaNode => a.node = b.node → b.weight ≤ a.weight) (fun _ _ => le_rfl)
    (ordered.imp fun order => by
      simp only [before,decide_eq_false_iff_not] at order
      lia) same_node (Sorts.nodes nodes) left (perm.symm.subset member) same
  exact lighter same.symm

private theorem undisputed_of_keepsMain
    (keeps : ∀ sorted ranked, Ranked stretch_weight_limit first rest sorted ranked → KeepsMain (first :: rest) ranked) :
    Undisputed stretch_weight_limit first rest := by
  -- the heaviest records are left of all nodes, and still the first one is of the main route
  obtain ⟨sorted,unified,heaviest⟩ := exists_heaviest first rest
  obtain ⟨ranked,run⟩ := exists_ranked stretch_weight_limit unified
  have kept := keeps sorted ranked run
  obtain ⟨via,later,shape⟩ := exists_cons_of_ne_nil kept.some_via
  have inside : via ∈ ranked := shape ▸ mem_cons_self
  have weight : via.weight = shortest_path_weight first rest := by
    obtain ⟨shortest,candidate,least⟩ := exists_shortest first rest
    refine le_antisymm ?_ (shortest_path_weight_le via (run.mem inside))
    rw [← least]
    exact kept.main via (by rw [shape]; rfl) shortest candidate
  have within := (run.mem_iff.mp inside).2
  refine ⟨fun node => ?_,⟨via,run.mem inside,fun other member same => ?_⟩,fun via member below other candidate same => ?_⟩
  · rw [← weight] at within ⊢
    exact within
  · refine le_antisymm ?_ (shortest_path_weight_le other member)
    rw [← weight]
    exact heaviest via (run.mem_iff.mp inside).1 other member same
  · obtain ⟨sorted,unified,left⟩ := exists_kept member
    obtain ⟨ranked,run⟩ := exists_ranked stretch_weight_limit unified
    exact ((keeps sorted ranked run).least via (run.mem_iff.mpr ⟨left,below⟩)).2 other candidate same

/-- Exactly where the records agree, every run keeps the main route and the alternatives start behind it. -/
theorem main_via_kept_iff (stretch_weight_limit : EdgeWeight → ℚ) (first : WeightedViaNode) (rest : List WeightedViaNode) :
    (∀ sorted ranked, Ranked stretch_weight_limit first rest sorted ranked → KeepsMain (first :: rest) ranked) ↔
      Undisputed stretch_weight_limit first rest :=
  ⟨undisputed_of_keepsMain,fun undisputed _ _ run => undisputed.keepsMain run⟩

/-- A node with two records, of which the heavier one is left and then dropped, so that no range remains. -/
theorem main_via_lost : ¬∀ sorted ranked, Ranked (fun weight => 5 / 4 * weight) ⟨1,10⟩ [⟨1,5⟩] sorted ranked →
    KeepsMain [⟨1,10⟩,⟨1,5⟩] ranked := by
  intro keeps
  refine (keeps [⟨1,10⟩,⟨1,5⟩] [] ⟨⟨.refl _,by decide⟩,?_⟩).some_via rfl
  have none : filterViaCandidatesByStretch (fun weight => 5 / 4 * weight) (shortest_path_weight ⟨1,10⟩ [⟨1,5⟩])
      (filterViaCandidatesByUniqueNodeIds [⟨1,10⟩,⟨1,5⟩]) = [] := by decide +kernel
  rw [none]
  exact ⟨.refl _,List.Pairwise.nil⟩

end Osrm.ViaCandidates
