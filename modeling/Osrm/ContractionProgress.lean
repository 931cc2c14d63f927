import Mathlib.Data.Prod.Lex
import Osrm.ContractGraph

/-!
Whether a round of `contractGraph` contracts a node at all. A node is passed over for a close node of lower priority,
and also for one of almost the same priority that `Bias` prefers.
-/
namespace Osrm.ContractionProgress
open List
open Typedefs Contractor NodeContraction ContractionRound ContractGraph

/-- The largest finite single-precision number, the priority of the nodes that may not be contracted. -/
def MAX_PRIORITY : ℚ := (2 ^ 24 - 1) * 2 ^ 104

variable {hash : NodeID → ℕ} {s s' : State} {assigned : NodeID → ℚ}

/-- The priorities in a round. The other nodes that an edge can reach are those that are kept in the core. -/
def prioritiesOf (s : State) (assigned : NodeID → ℚ) (u : NodeID) : ℚ :=
  if u ∈ s.remaining_nodes then assigned u else MAX_PRIORITY

/-- No remaining node yields to a close one by `Bias` while a little better, and none has the priority of the core. -/
structure Distinguished (hash : NodeID → ℕ) (s : State) (assigned : NodeID → ℚ) : Prop where
  finite : ∀ u ∈ s.remaining_nodes, assigned u < MAX_PRIORITY
  apart : ∀ u ∈ s.remaining_nodes, ∀ v, Near s.graph u v → prioritiesOf s assigned u < prioritiesOf s assigned v →
    prioritiesOf s assigned v - prioritiesOf s assigned u < epsilon →
    Bias hash (s.new_to_old_node_id u) (s.new_to_old_node_id v) = false

private theorem independent_of_not_yields {priorities : NodeID → ℚ} {new_to_old_node_id : NodeID → NodeID}
    {graph : ContractorGraph} {u : NodeID}
    (free : ∀ v, v ≠ u → Near graph u v → yieldsTo hash priorities new_to_old_node_id u v = false) :
    IsNodeIndependent hash priorities new_to_old_node_id graph u = true := by
  unfold IsNodeIndependent
  rw [if_neg]
  · apply all_eq_true.mpr
    intro x neighbour
    apply all_eq_true.mpr
    intro e member
    obtain ⟨other,there⟩ := mem_neighbours.mp neighbour
    by_cases back : e.target = u
    · simp [back]
    · simp [free e.target back (.inr ⟨x,other,there,e,member,rfl⟩)]
  · intro yields
    obtain ⟨e,member,bad⟩ := any_eq_true.mp yields
    simp only [Bool.and_eq_true,decide_eq_true_eq] at bad
    have := free e.target bad.1 (.inl ⟨e,member,rfl⟩)
    simp [this] at bad

/-- The nodes with the lowest priorities first and, among equal ones, those that `Bias` prefers. -/
private def rank (hash : NodeID → ℕ) (s : State) (assigned : NodeID → ℚ) (u : NodeID) : ℚ ×ₗ (ℕ ×ₗ ℕ)ᵒᵈ :=
  toLex (assigned u,OrderDual.toDual (toLex (hash (s.new_to_old_node_id u),s.new_to_old_node_id u)))

private theorem bias_eq_true {a b : NodeID} : Bias hash a b = true ↔ toLex (hash a,a) < toLex (hash b,b) := by
  unfold Bias
  rw [Prod.Lex.toLex_lt_toLex]
  by_cases same : hash a = hash b
  · simp [same]
  · simp [same]

private theorem exists_independent (some : s.remaining_nodes ≠ []) (distinguished : Distinguished hash s assigned) :
    ∃ node ∈ s.remaining_nodes, s.independent hash (prioritiesOf s assigned) node = true := by
  have nonempty : s.remaining_nodes.toFinset.Nonempty := by simpa using some
  obtain ⟨u,member,least⟩ := s.remaining_nodes.toFinset.exists_min_image (rank hash s assigned) nonempty
  rw [mem_toFinset] at member
  refine ⟨u,member,independent_of_not_yields ?_⟩
  intro v other near
  have own : prioritiesOf s assigned u = assigned u := if_pos member
  have below : prioritiesOf s assigned u ≤ prioritiesOf s assigned v ∧
      (prioritiesOf s assigned u = prioritiesOf s assigned v →
        Bias hash (s.new_to_old_node_id u) (s.new_to_old_node_id v) = false) := by
    by_cases remains : v ∈ s.remaining_nodes
    · have theirs : prioritiesOf s assigned v = assigned v := if_pos remains
      have order := least v (mem_toFinset.mpr remains)
      rw [rank,rank,Prod.Lex.toLex_le_toLex] at order
      rw [own,theirs]
      rcases order with less | ⟨same,bias⟩
      · exact ⟨less.le,fun same => absurd same less.ne⟩
      · refine ⟨same.le,fun _ => ?_⟩
        rw [← Bool.not_eq_true,bias_eq_true,not_lt]
        exact bias
    · have theirs : prioritiesOf s assigned v = MAX_PRIORITY := if_neg remains
      have less := distinguished.finite u member
      rw [own,theirs]
      exact ⟨less.le,fun same => absurd same less.ne⟩
  unfold yieldsTo
  rw [Bool.or_eq_false_iff,Bool.and_eq_false_iff,decide_eq_false_iff_not,decide_eq_false_iff_not,not_lt]
  refine ⟨below.1,?_⟩
  rcases below.1.lt_or_eq with less | same
  · by_cases close : prioritiesOf s assigned v - prioritiesOf s assigned u < epsilon
    · exact .inr (distinguished.apart u member v near less close)
    · left
      rw [abs_sub_comm,abs_of_pos (by linarith)]
      exact close
  · exact .inr (below.2 same)

/-! ### The loop -/

def isRound {s s' : State} : Step hash s s' → ℕ
  | .renumber _ => 0
  | .round _ _ _ => 1
def rounds : {s s' : State} → Run hash s s' → ℕ
  | _, _, .stop _ => 0
  | _, _, .step first rest => isRound first + rounds rest

/-- A round that the loop enters with priorities that tell the nodes apart. -/
def Steered (number_of_core_nodes : ℕ) {s s' : State} : Step hash s s' → Prop
  | .renumber _ => True
  | .round priorities _ _ => number_of_core_nodes < s.remaining_nodes.length ∧
      ∃ assigned, priorities = prioritiesOf s assigned ∧ Distinguished hash s assigned

private theorem Steered.fewer {number_of_core_nodes : ℕ} {s s' : State} {step : Step hash s s'}
    (steered : Steered number_of_core_nodes step) :
    isRound step + s'.remaining_nodes.length ≤ s.remaining_nodes.length := by
  cases step with
  | renumber reordering => simp [isRound,RenumberData]
  | round priorities node_weights run =>
    obtain ⟨enter,assigned,rfl,distinguished⟩ := steered
    have some : s.remaining_nodes ≠ [] := ne_nil_of_length_pos (by omega)
    obtain ⟨node,member,taken⟩ := exists_independent some distinguished
    have fewer : (s.remaining_nodes.filter fun node =>
        !s.independent hash (prioritiesOf s assigned) node).length < s.remaining_nodes.length :=
      length_filter_lt_length_iff_exists.mpr ⟨node,member,by simp [taken]⟩
    simp only [isRound]
    omega

/-- Where no two nodes are passed over for each other, a round contracts some node, and there are no more rounds than nodes. -/
theorem contractGraph_progress (hash : NodeID → ℕ) :
    (∀ s assigned, s.remaining_nodes ≠ [] → Distinguished hash s assigned →
      ∃ node ∈ s.remaining_nodes, s.independent hash (prioritiesOf s assigned) node = true) ∧
    ∀ (number_of_core_nodes : ℕ) (s s' : State) (run : Run hash s s'), run.All (Steered number_of_core_nodes) →
      rounds run + s'.remaining_nodes.length ≤ s.remaining_nodes.length := by
  refine ⟨fun s assigned => exists_independent,?_⟩
  intro number_of_core_nodes s s' run steered
  induction run with
  | stop => simp [rounds]
  | step first rest ih =>
    have one := Steered.fewer steered.1
    have others := ih steered.2
    rw [rounds]
    omega

def twoNodes : State :=
  .start ⟨2,fun u => [⟨1 - u,⟨1,1,1,0,1,false,true,true⟩⟩]⟩ [0,1]

private theorem twoNodes_near {u v : NodeID} (near : Near twoNodes.graph u v) : v ≤ 1 := by
  rcases near with ⟨e,member,rfl⟩ | ⟨x,_,_,e,member,rfl⟩
  · simp only [twoNodes,State.start,mem_singleton] at member
    rw [member]
    exact Nat.sub_le 1 u
  · simp only [twoNodes,State.start,mem_singleton] at member
    rw [member]
    exact Nat.sub_le 1 x

private theorem twoNodes_distinguished : Distinguished id twoNodes fun _ => 0 := by
  constructor
  · intro u _
    norm_num [MAX_PRIORITY]
  · intro u member v near less close
    have small := twoNodes_near near
    have remains : v ∈ twoNodes.remaining_nodes := by
      interval_cases v <;> decide
    simp [prioritiesOf,member,remains] at less

private theorem twoNodes_selected : twoNodes.selected id (prioritiesOf twoNodes fun _ => 0) = [1] := by decide +kernel
private theorem twoNodes_shortcuts (thread : ℕ) : ([(0,1)].foldl (contractTask twoNodes.graph)
    ((fun _ => 0 : NodeID → EdgeWeight),fun _ => [])).2 thread = [] := by
  have none : (ContractNode twoNodes.graph 1 fun _ => 0).2 = [] := by decide +kernel
  simp only [foldl_cons,foldl_nil,contractTask,none,append_nil,Function.update_eq_self]

/-- The second of two nodes with the same priority is taken, and the round that contracts it is one of at most two. -/
theorem contractGraph_progress_twoNodes :
    (∃ node ∈ twoNodes.remaining_nodes, twoNodes.independent id (prioritiesOf twoNodes fun _ => 0) node = true) ∧
      ∃ s' : State, ∃ run : Run id twoNodes s', rounds run = 1 ∧ rounds run + s'.remaining_nodes.length ≤ 2 := by
  let firstRound : RoundRun twoNodes.graph (fun _ => 0) (twoNodes.selected id (prioritiesOf twoNodes fun _ => 0)) :=
    { tasks := [(0,1)]
      tasks_selected := .of_eq twoNodes_selected.symm
      deletions := [1]
      deletions_selected := .of_eq twoNodes_selected.symm
      sorted := fun _ => []
      sorted_perm := fun thread => .of_eq (twoNodes_shortcuts thread).symm
      sorted_order := fun _ => .nil
      threads := [0]
      threads_distinct := by decide
      threads_all := by decide
      insertions := []
      insertions_edges := rfl }
  refine ⟨(contractGraph_progress id).1 twoNodes _ (by decide) twoNodes_distinguished,_,
    .step (.round (prioritiesOf twoNodes fun _ => 0) (fun _ => 0) firstRound) (.stop _),rfl,?_⟩
  exact (contractGraph_progress id).2 0 _ _ _ ⟨⟨by decide,_,rfl,twoNodes_distinguished⟩,trivial⟩

/-- Two nodes are passed over for each other, one by `Bias` and one because its priority is a little larger. -/
private theorem twoNodes_stuck {low high : NodeID} (pair : low + high = 1) (bias : Bias hash low high = true) :
    ¬ ∃ node ∈ twoNodes.remaining_nodes,
      twoNodes.independent hash (prioritiesOf twoNodes fun u => if u = high then epsilon / 2 else 0) node = true := by
  have near (u : NodeID) : Near twoNodes.graph u (1 - u) := .inl ⟨_,mem_singleton.mpr rfl,rfl⟩
  have remaining (u : NodeID) : u ∈ twoNodes.remaining_nodes ↔ u = low ∨ u = high := by
    simp only [twoNodes,State.start,mem_cons,not_mem_nil,or_false]
    lia
  have differ : low ≠ high := by lia
  have atLow : prioritiesOf twoNodes (fun u => if u = high then epsilon / 2 else 0) low = 0 := by
    simp [prioritiesOf,remaining,differ]
  have atHigh : prioritiesOf twoNodes (fun u => if u = high then epsilon / 2 else 0) high = epsilon / 2 := by
    simp [prioritiesOf,remaining]
  rintro ⟨node,member,taken⟩
  rcases (remaining node).mp member with rfl | rfl
  · have passed := independent_not_yields taken (near node) (by lia)
    have other : 1 - node = high := by lia
    rw [yieldsTo,other,atLow,atHigh] at passed
    simp only [twoNodes,State.start,Equiv.refl_apply,bias] at passed
    norm_num [epsilon] at passed
  · have passed := independent_not_yields taken (near node) (by lia)
    have other : 1 - node = low := by lia
    rw [yieldsTo,other,atLow,atHigh] at passed
    norm_num [epsilon] at passed

/-- Whatever the hash function is, a round can pass over all remaining nodes. -/
theorem contractGraph_progress_stuck : ¬ ∃ hash : NodeID → ℕ, ∀ (s : State) (assigned : NodeID → ℚ),
    s.remaining_nodes ≠ [] →
      ∃ node ∈ s.remaining_nodes, s.independent hash (prioritiesOf s assigned) node = true := by
  rintro ⟨hash,progress⟩
  rcases bias_total hash (by decide : (0 : NodeID) ≠ 1) with bias | bias
  · exact twoNodes_stuck rfl bias (progress twoNodes _ (by decide))
  · exact twoNodes_stuck rfl bias (progress twoNodes _ (by decide))

end Osrm.ContractionProgress
