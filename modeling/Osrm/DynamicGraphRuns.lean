import Osrm.DynamicGraphs

/-!
What a `util::DynamicGraph` keeps from its construction on: the edges that one sees at each node are those of a
multigraph on which the same operations were performed.
-/
namespace Osrm.DynamicGraphs
open List Option
open Typedefs Permutation Scan Slices

variable {Data : Type}

/-! ### Construction -/

def InputEdge.edge (input : InputEdge Data) : Edge Data := ⟨input.target,input.data⟩

namespace DynamicGraph

section Construction
variable {graph : List (InputEdge Data)} {node n : ℕ}

def SortedBySource (graph : List (InputEdge Data)) : Prop := graph.Pairwise fun a b => a.source ≤ b.source

def earlier (graph : List (InputEdge Data)) (n : ℕ) : ℕ := graph.countP fun input => input.source < n
def degree (graph : List (InputEdge Data)) (n : ℕ) : ℕ := graph.countP fun input => input.source == n

theorem earlier_succ (graph : List (InputEdge Data)) (n : ℕ) : earlier graph (n + 1) = earlier graph n + degree graph n := by
  apply countP_or
  · intro input
    simp only [decide_eq_true_eq,beq_iff_eq]
    exact Nat.lt_succ_iff_lt_or_eq
  · intro input less same
    simp only [decide_eq_true_eq,beq_iff_eq] at less same
    omega

private theorem earlier_mono {m n : ℕ} (le : m ≤ n) : earlier graph m ≤ earlier graph n := by
  apply countP_mono_left
  intro input _ less
  simp only [decide_eq_true_eq] at less ⊢
  omega

theorem endOfNode_eq (sorted : SortedBySource graph) (n : ℕ) : endOfNode graph n (earlier graph n) = earlier graph (n + 1) := by
  rw [endOfNode,earlier_succ,earlier,drop_countP (falling_less sorted n),length_takeWhile (falling_same sorted n),countP_filter]
  simp only [same_not_less]
  rfl

private theorem makeNodes_eq (sorted : SortedBySource graph) (nodes : ℕ) :
    makeNodes nodes graph = ((List.range nodes).map fun n => ⟨earlier graph n,degree graph n⟩,earlier graph nodes) := by
  have loop : (List.range nodes).foldl (fun state node =>
      (state.1 ++ [⟨state.2.2,endOfNode graph node state.2.1 - state.2.1⟩],endOfNode graph node state.2.1,
        state.2.2 + (endOfNode graph node state.2.1 - state.2.1))) (([] : List Node),0,0) =
      ((List.range nodes).map fun n => ⟨earlier graph n,degree graph n⟩,earlier graph nodes,earlier graph nodes) := by
    induction nodes with
    | zero => simp [earlier]
    | succ nodes ih =>
      rw [range_succ,foldl_append,ih]
      simp only [foldl_cons,foldl_nil,endOfNode_eq sorted,map_append,map_cons,map_nil]
      rw [earlier_succ,Nat.add_sub_cancel_left]
  exact congrArg (fun state : List Node × ℕ × ℕ => (state.1,state.2.2)) loop

private theorem writeEdges_spec {edge_list : List (Edge Data)} {first count : ℕ} (inside : first + count ≤ edge_list.length)
    (there : first + count ≤ graph.length) :
    ∃ edge_list', (List.range' first count).foldl (writeEdge graph) (edge_list,first) = (edge_list',first + count) ∧
      edge_list'.length = edge_list.length ∧ ∀ i, edge_list'[i]? =
        if first ≤ i ∧ i < first + count then graph[i]?.map InputEdge.edge else edge_list[i]? := by
  induction count with
  | zero => exact ⟨edge_list,rfl,rfl,fun i => by rw [if_neg (by omega)]⟩
  | succ count ih =>
    obtain ⟨edge_list',written,length,values⟩ := ih (by omega) (by omega)
    obtain ⟨input,found⟩ : ∃ input, graph[first + count]? = some input := ⟨_,getElem?_eq_getElem (by omega)⟩
    refine ⟨edge_list'.set (first + count) input.edge,?_,(length_set ..).trans length,?_⟩
    · rw [range'_1_concat,foldl_append,written]
      simp only [foldl_cons,foldl_nil,writeEdge,found]
      rfl
    · intro i
      by_cases last : i = first + count
      · rw [last,getElem?_set_self (by omega),if_pos (by omega),found]
        rfl
      · rw [getElem?_set_ne (Ne.symm last),values]
        by_cases low : first ≤ i ∧ i < first + count
        · rw [if_pos low,if_pos (by omega)]
        · rw [if_neg low,if_neg (by omega)]

theorem new_eq (uninitialized : ℕ → Edge Data) (sorted : SortedBySource graph) (nodes : ℕ) :
    ∃ edge_list : List (Edge Data), new uninitialized nodes graph =
        ⟨nodes,graph.length,(List.range nodes).map fun n => ⟨earlier graph n,degree graph n⟩,edge_list⟩ ∧
      edge_list.length = earlier graph nodes ∧ ∀ i < earlier graph nodes, edge_list[i]? = graph[i]?.map InputEdge.edge := by
  have loop (count : ℕ) (some : count ≤ nodes) : ∃ edge_list,
      ((List.range count).map fun n => (⟨earlier graph n,degree graph n⟩ : Node)).foldl (fun state node =>
        (List.range' node.first_edge node.edges).foldl (writeEdge graph) state)
          (resize [] uninitialized (earlier graph nodes),0) = (edge_list,earlier graph count) ∧
      edge_list.length = earlier graph nodes ∧ ∀ i < earlier graph count, edge_list[i]? = graph[i]?.map InputEdge.edge := by
    induction count with
    | zero =>
      have none : earlier graph 0 = 0 := by simp [earlier]
      exact ⟨_,by rw [none]; rfl,length_resize uninitialized (Nat.zero_le _),by omega⟩
    | succ count ih =>
      obtain ⟨edge_list,written,length,values⟩ := ih (by omega)
      have next := earlier_succ graph count
      have inside : earlier graph count + degree graph count ≤ edge_list.length := by
        rw [length,← next]
        exact earlier_mono some
      have there : earlier graph count + degree graph count ≤ graph.length := next ▸ countP_le_length
      obtain ⟨edge_list',written',length',values'⟩ := writeEdges_spec inside there
      refine ⟨edge_list',?_,length'.trans length,?_⟩
      · rw [range_succ,map_append,foldl_append,written,next]
        exact written'
      · intro i below
        rw [values']
        by_cases here : earlier graph count ≤ i
        · rw [if_pos ⟨here,next ▸ below⟩]
        · rw [if_neg (by omega)]
          exact values i (by omega)
  obtain ⟨edge_list,written,length,values⟩ := loop nodes le_rfl
  refine ⟨edge_list,?_,length,values⟩
  rw [new,makeNodes_eq sorted]
  simp only [written]

variable {nodes : ℕ}

theorem new_range (uninitialized : ℕ → Edge Data) (sorted : SortedBySource graph) (here : n < nodes) :
    (new uninitialized nodes graph).node n = ⟨earlier graph n,degree graph n⟩ := by
  obtain ⟨edge_list,built,-,-⟩ := new_eq uninitialized sorted nodes
  rw [built,DynamicGraph.node,getD_eq_getElem?_getD,getElem?_map,getElem?_range here]
  rfl

private theorem range_below (here : n < nodes) : earlier graph n + degree graph n ≤ earlier graph nodes := by
  rw [← earlier_succ]
  exact earlier_mono here

theorem new_adjacent (uninitialized : ℕ → Edge Data) (sorted : SortedBySource graph) (here : n < nodes) :
    (new uninitialized nodes graph).adjacent n = (graph.filter fun input => input.source == n).map InputEdge.edge := by
  have cut := (take_drop_countP sorted n).1
  have range := new_range uninitialized sorted here
  obtain ⟨edge_list,built,-,values⟩ := new_eq uninitialized sorted nodes
  rw [← cut,map_take,map_drop,adjacent,BeginEdges,EndEdges,range,built]
  apply ext_getElem?
  intro i
  rw [slice_getElem?,getElem?_take,getElem?_drop,getElem?_map,Nat.add_sub_cancel_left]
  by_cases below : i < degree graph n
  · have inside : earlier graph n + i < earlier graph nodes := (Nat.add_lt_add_left below _).trans_le (range_below here)
    rw [if_pos below,values _ inside]
    exact (if_pos below).symm
  · rw [if_neg below]
    exact (if_neg below).symm

theorem new_spec (uninitialized : ℕ → Edge Data) (sorted : SortedBySource graph) (bounded : nodes < 2 ^ 32)
    (targets : ∀ input ∈ graph, input.target < nodes) :
    (new uninitialized nodes graph).Sound ∧ (new uninitialized nodes graph).number_of_nodes = nodes := by
  have range (n : ℕ) (here : n < nodes) := new_range uninitialized sorted here
  have edges (n : ℕ) (here : n < nodes) := new_adjacent uninitialized sorted here
  obtain ⟨edge_list,built,length,-⟩ := new_eq uninitialized sorted nodes
  rw [built] at range edges ⊢
  refine ⟨⟨bounded,by simp,?_,?_,?_⟩,rfl⟩
  · intro n here
    rw [EndEdges,range n here,length]
    exact range_below here
  · intro n here edge member
    rw [edges n here] at member
    obtain ⟨input,chosen,rfl⟩ := mem_map.mp member
    exact targets input (mem_of_mem_filter chosen)
  · intro m there n here e inM inN
    rw [Owns,BeginEdges,EndEdges,range m there] at inM
    rw [Owns,BeginEdges,EndEdges,range n here] at inN
    simp only at inM inN
    rcases Nat.lt_trichotomy m n with less | same | greater
    · have ordered : earlier graph m + degree graph m ≤ earlier graph n := range_below less
      omega
    · exact same
    · have ordered : earlier graph n + degree graph n ≤ earlier graph m := range_below greater
      omega

end Construction
/-! ### Renumbering -/

section Renumbering

variable {old_to_new_node list : List ℕ} {index e j : ℕ}

/-- The numbers that were given so far are different; the slots without one are marked. -/
structure Numbers (list : List ℕ) (index : ℕ) : Prop where
  below : ∀ e j : ℕ, list[e]? = some j → j ≠ SPECIAL_EDGEID → j < index
  injective : ∀ e e' j : ℕ, list[e]? = some j → list[e']? = some j → j ≠ SPECIAL_EDGEID → e = e'
  counted : list.countP (fun j => decide (j ≠ SPECIAL_EDGEID)) = index

private theorem numbers_none (size : ℕ) : Numbers (replicate size SPECIAL_EDGEID) 0 := by
  have marked (e j : ℕ) (found : (replicate size SPECIAL_EDGEID)[e]? = some j) : j = SPECIAL_EDGEID :=
    eq_of_mem_replicate (mem_of_getElem? found)
  refine ⟨fun e j found other => absurd (marked e j found) other,fun e e' j found _ other => absurd (marked e j found) other,?_⟩
  rw [countP_replicate]
  simp

private theorem Numbers.le_length (numbers : Numbers list index) : index ≤ list.length := numbers.counted ▸ countP_le_length

private theorem Numbers.assign (numbers : Numbers list index) (few : list.length < SPECIAL_EDGEID) (marked : list[e]? = some SPECIAL_EDGEID) :
    Numbers (list.set e index) (index + 1) := by
  have other : index ≠ SPECIAL_EDGEID := Nat.ne_of_lt (numbers.le_length.trans_lt few)
  obtain ⟨inside,value⟩ := List.getElem?_eq_some_iff.mp marked
  refine ⟨?_,?_,?_⟩
  · intro e' j found special
    by_cases same : e = e'
    · subst same
      rw [getElem?_set_self inside] at found
      exact some.inj found ▸ Nat.lt_succ_self index
    · rw [getElem?_set_ne same] at found
      exact Nat.lt_succ_of_lt (numbers.below e' j found special)
  · intro a b j foundA foundB special
    rw [getElem?_set] at foundA foundB
    by_cases sameA : e = a
    · by_cases sameB : e = b
      · exact sameA.symm.trans sameB
      · rw [if_pos sameA,if_pos inside] at foundA
        rw [if_neg sameB] at foundB
        cases foundA
        exact absurd (numbers.below b index foundB special) (lt_irrefl _)
    · rw [if_neg sameA] at foundA
      by_cases sameB : e = b
      · rw [if_pos sameB,if_pos inside] at foundB
        cases foundB
        exact absurd (numbers.below a index foundA special) (lt_irrefl _)
      · rw [if_neg sameB] at foundB
        exact numbers.injective a b j foundA foundB special
  · rw [countP_set inside,value,numbers.counted]
    simp [other]

private theorem Numbers.bijective (numbers : Numbers list index) (all : ∀ e j : ℕ, list[e]? = some j → j ≠ SPECIAL_EDGEID) : Bijective list := by
  constructor
  · rw [nodup_iff_getElem?_ne_getElem?]
    intro e e' less inside same
    have found : list[e']? = some list[e'] := getElem?_eq_getElem inside
    exact absurd (numbers.injective e e' _ (same.trans found) found (all e' _ found)) (Nat.ne_of_lt less)
  · intro j member
    obtain ⟨e,found⟩ := mem_iff_getElem?.mp member
    exact (numbers.below e j found (all e j found)).trans_le numbers.le_length

def rename (old_to_new_node : List ℕ) (edge : Edge Data) : Edge Data := { edge with target := old_to_new_node.getD edge.target 0 }

/-- The edges of a range have the next numbers, and their targets are renumbered. -/
structure RenumberedRange (old_to_new_node : List ℕ) (state state' : Renumbering Data) (first count : ℕ) : Prop where
  node_array : state'.node_array = state.node_array
  slots : state'.edge_list.length = state.edge_list.length
  length : state'.old_to_new_edge.length = state.old_to_new_edge.length
  index : state'.new_edge_index = state.new_edge_index + count
  numbers : Numbers state'.old_to_new_edge state'.new_edge_index
  number : ∀ e, state'.old_to_new_edge[e]? =
    if first ≤ e ∧ e < first + count then some (state.new_edge_index + (e - first)) else state.old_to_new_edge[e]?
  edge : ∀ e, state'.edge_list[e]? =
    if first ≤ e ∧ e < first + count then state.edge_list[e]?.map (rename old_to_new_node) else state.edge_list[e]?

variable {state : Renumbering Data} {first count : ℕ}

private theorem renumberEdges_spec (numbers : Numbers state.old_to_new_edge state.new_edge_index)
    (few : state.old_to_new_edge.length < SPECIAL_EDGEID)
    (marked : ∀ e, first ≤ e → e < first + count → state.old_to_new_edge[e]? = some SPECIAL_EDGEID) :
    RenumberedRange old_to_new_node state ((List.range' first count).foldl (renumberEdge old_to_new_node) state) first count := by
  induction count with
  | zero => exact ⟨rfl,rfl,rfl,rfl,numbers,fun e => by rw [if_neg (by omega)]; rfl,fun e => by rw [if_neg (by omega)]; rfl⟩
  | succ count ih =>
    have before := ih fun e low high => marked e low (by omega)
    rw [range'_1_concat,foldl_append]
    generalize (List.range' first count).foldl (renumberEdge old_to_new_node) state = state' at before ⊢
    simp only [foldl_cons,foldl_nil,renumberEdge]
    have unset : state'.old_to_new_edge[first + count]? = some SPECIAL_EDGEID := by
      rw [before.number,if_neg (by omega)]
      exact marked _ (by omega) (by omega)
    have inside : first + count < state'.old_to_new_edge.length := (List.getElem?_eq_some_iff.mp unset).1
    refine ⟨before.node_array,(length_modify ..).trans before.slots,(length_set ..).trans before.length,?_,?_,?_,?_⟩
    · rw [before.index,Nat.add_assoc]
    · exact before.numbers.assign (before.length.trans_lt few) unset
    · intro e
      by_cases last : e = first + count
      · rw [last,getElem?_set_self inside,if_pos (by omega),before.index,Nat.add_sub_cancel_left]
      · rw [getElem?_set_ne (Ne.symm last),before.number]
        by_cases within : first ≤ e ∧ e < first + count
        · rw [if_pos within,if_pos (by omega)]
        · rw [if_neg within,if_neg (by omega)]
    · intro e
      rw [getElem?_modify,before.edge]
      by_cases last : first + count = e
      · subst last
        rw [if_neg (by omega),if_pos (by omega)]
        simp only [if_true]
        rfl
      · simp only [if_neg last,id_map']
        by_cases within : first ≤ e ∧ e < first + count
        · rw [if_pos within,if_pos (by omega)]
        · rw [if_neg within,if_neg (by omega)]

structure RenumberedNodes (old_to_new_node : List ℕ) (graph : DynamicGraph Data) (count : ℕ) (state : Renumbering Data) : Prop where
  nodes : state.node_array.length = graph.number_of_nodes
  slots : state.edge_list.length = graph.edge_list.length
  length : state.old_to_new_edge.length = graph.edge_list.length
  numbers : Numbers state.old_to_new_edge state.new_edge_index
  later : ∀ n, count ≤ n → state.node_array.getD n ⟨0,0⟩ = graph.node n
  done : ∀ n < count, ∃ first, state.node_array.getD n ⟨0,0⟩ = ⟨first,(graph.node n).edges⟩ ∧
    first + (graph.node n).edges ≤ state.new_edge_index ∧
    ∀ i < (graph.node n).edges, state.old_to_new_edge[graph.BeginEdges n + i]? = some (first + i) ∧
      state.edge_list[graph.BeginEdges n + i]? = graph.edge_list[graph.BeginEdges n + i]?.map (rename old_to_new_node)
  rest : ∀ e < graph.edge_list.length, (∀ n < count, ¬ graph.Owns n e) →
    state.old_to_new_edge[e]? = some SPECIAL_EDGEID ∧ state.edge_list[e]? = graph.edge_list[e]?

private theorem renumberNodes_spec {graph : DynamicGraph Data} (sound : graph.Sound) (few : graph.edge_list.length < SPECIAL_EDGEID)
    (inside : count ≤ graph.number_of_nodes) :
    RenumberedNodes old_to_new_node graph count ((List.range count).foldl (renumberNode old_to_new_node)
      ⟨graph.node_array,graph.edge_list,replicate graph.edge_list.length SPECIAL_EDGEID,0⟩) := by
  induction count with
  | zero =>
    refine ⟨sound.nodes,rfl,length_replicate,numbers_none _,fun n _ => rfl,fun n less => absurd less (Nat.not_lt_zero n),?_⟩
    intro e below _
    exact ⟨getElem?_replicate_of_lt below,rfl⟩
  | succ count ih =>
    have before := ih (by omega)
    rw [range_succ,foldl_append]
    generalize (List.range count).foldl (renumberNode old_to_new_node)
      ⟨graph.node_array,graph.edge_list,replicate graph.edge_list.length SPECIAL_EDGEID,0⟩ = state at before ⊢
    have fewNumbers : state.old_to_new_edge.length < SPECIAL_EDGEID := before.length.trans_lt few
    -- the range of this node is in no range before
    have fresh (e : ℕ) (owns : graph.Owns count e) : ∀ n < count, ¬ graph.Owns n e := fun n less owns' =>
      absurd (sound.apart n (by omega) count (by omega) e owns' owns) (Nat.ne_of_lt less)
    have below (e : ℕ) (owns : graph.Owns count e) : e < graph.edge_list.length := owns.2.trans_le (sound.inside count (by omega))
    have range := @renumberEdges_spec Data old_to_new_node state (graph.BeginEdges count) (graph.node count).edges before.numbers fewNumbers
      fun e low high => (before.rest e (below e ⟨low,high⟩) (fresh e ⟨low,high⟩)).1
    simp only [foldl_cons,foldl_nil,renumberNode,before.later count le_rfl]
    rw [BeginEdges] at range
    generalize (List.range' (graph.node count).first_edge (graph.node count).edges).foldl (renumberEdge old_to_new_node) state =
      state' at range ⊢
    have array : count < state'.node_array.length := by rw [range.node_array,before.nodes]; exact inside
    refine ⟨?_,range.slots.trans before.slots,range.length.trans before.length,range.numbers,?_,?_,?_⟩
    · rw [length_set,range.node_array,before.nodes]
    · intro n later
      rw [getD_eq_getElem?_getD,getElem?_set_ne (by omega),range.node_array,← getD_eq_getElem?_getD]
      exact before.later n (by omega)
    · intro n less
      by_cases last : n = count
      · subst last
        refine ⟨state.new_edge_index,by rw [getD_eq_getElem?_getD,getElem?_set_self array]; rfl,range.index.ge,?_⟩
        intro i inRange
        have owns : graph.Owns n (graph.BeginEdges n + i) := ⟨Nat.le_add_right ..,Nat.add_lt_add_left inRange _⟩
        rw [range.number,range.edge]
        rw [Owns,BeginEdges,EndEdges] at owns
        rw [BeginEdges,if_pos owns,if_pos owns,Nat.add_sub_cancel_left]
        exact ⟨rfl,congrArg (Option.map _) (before.rest _ (below _ owns) (fresh _ owns)).2⟩
      · obtain ⟨first,node,bound,edges⟩ := before.done n (by omega)
        refine ⟨first,?_,by rw [range.index]; omega,?_⟩
        · rw [getD_eq_getElem?_getD,getElem?_set_ne (Ne.symm last),range.node_array,← getD_eq_getElem?_getD,node]
        · intro i inRange
          have owns : graph.Owns n (graph.BeginEdges n + i) := ⟨Nat.le_add_right ..,Nat.add_lt_add_left inRange _⟩
          have outside : ¬ ((graph.node count).first_edge ≤ graph.BeginEdges n + i ∧
              graph.BeginEdges n + i < (graph.node count).first_edge + (graph.node count).edges) := fun both =>
            last (sound.apart n (by omega) count (by omega) _ owns both)
          rw [range.number,range.edge,if_neg outside,if_neg outside]
          exact edges i inRange
    · intro e low none
      have outside : ¬ ((graph.node count).first_edge ≤ e ∧ e < (graph.node count).first_edge + (graph.node count).edges) :=
        none count (Nat.lt_succ_self _)
      rw [range.number,range.edge,if_neg outside,if_neg outside]
      exact before.rest e low fun n less => none n (by omega)

private theorem renumberDummies_spec (numbers : Numbers state.old_to_new_edge state.new_edge_index)
    (few : state.old_to_new_edge.length < SPECIAL_EDGEID) (inside : count ≤ state.old_to_new_edge.length) :
    let state' := (List.range count).foldl renumberDummy state
    Numbers state'.old_to_new_edge state'.new_edge_index ∧ state'.old_to_new_edge.length = state.old_to_new_edge.length ∧
      state'.edge_list = state.edge_list ∧ state'.node_array = state.node_array ∧
      (∀ e j : ℕ, state.old_to_new_edge[e]? = some j → j ≠ SPECIAL_EDGEID → state'.old_to_new_edge[e]? = some j) ∧
      ∀ e < count, ∀ j : ℕ, state'.old_to_new_edge[e]? = some j → j ≠ SPECIAL_EDGEID := by
  induction count with
  | zero => exact ⟨numbers,rfl,rfl,rfl,fun e j found _ => found,fun e less => absurd less (Nat.not_lt_zero e)⟩
  | succ count ih =>
    obtain ⟨numbers',length,edges,nodes,kept,all⟩ := ih (by omega)
    rw [range_succ,foldl_append]
    generalize (List.range count).foldl renumberDummy state = state' at numbers' length edges nodes kept all ⊢
    simp only [foldl_cons,foldl_nil,renumberDummy]
    have there : count < state'.old_to_new_edge.length := by omega
    rw [getD_eq_getElem _ _ there]
    by_cases marked : state'.old_to_new_edge[count] = SPECIAL_EDGEID
    · rw [if_pos marked]
      have unset : state'.old_to_new_edge[count]? = some SPECIAL_EDGEID := by rw [getElem?_eq_getElem there,marked]
      refine ⟨numbers'.assign (length.trans_lt few) unset,(length_set ..).trans length,edges,nodes,?_,?_⟩
      · intro e j found special
        have same := kept e j found special
        rw [getElem?_set_ne]
        · exact same
        · rintro rfl
          exact special (some.inj (same.symm.trans unset))
      · intro e less j found
        by_cases last : count = e
        · subst last
          rw [getElem?_set_self there] at found
          rw [← some.inj found]
          exact Nat.ne_of_lt (numbers'.le_length.trans_lt (length.trans_lt few))
        · rw [getElem?_set_ne last] at found
          exact all e (by omega) j found
    · rw [if_neg marked]
      refine ⟨numbers',length,edges,nodes,kept,?_⟩
      intro e less j found
      by_cases last : e = count
      · subst last
        rw [getElem?_eq_getElem there] at found
        exact some.inj found ▸ marked
      · exact all e (by omega) j found

def permuteNodes (graph : DynamicGraph Data) (old_to_new_node : List ℕ) : DynamicGraph Data :=
  { graph with node_array := inplacePermutation graph.node_array old_to_new_node }

variable {graph : DynamicGraph Data} {u v : ℕ}

private theorem permuteNodes_node (sound : graph.Sound) (bijective : Bijective old_to_new_node) (length : old_to_new_node.length = graph.number_of_nodes)
    (here : u < graph.number_of_nodes) : (graph.permuteNodes old_to_new_node).node (old_to_new_node.getD u 0) = graph.node u := by
  have placed := inplacePermutation_getElem? bijective (sound.nodes.trans length.symm) (sound.nodes.symm ▸ here)
  rw [node,node,getD_eq_getElem?_getD,permuteNodes,placed,getD_eq_getElem?_getD]

private theorem permuteNodes_sound (sound : graph.Sound) (bijective : Bijective old_to_new_node)
    (length : old_to_new_node.length = graph.number_of_nodes) : (graph.permuteNodes old_to_new_node).Sound := by
  have old (v : ℕ) (there : v < graph.number_of_nodes) : ∃ u < graph.number_of_nodes, old_to_new_node.getD u 0 = v :=
    length ▸ bijective.surjective (length.symm ▸ there)
  refine ⟨sound.bounded,?_,?_,?_,?_⟩
  · exact (inplacePermutation_length bijective (sound.nodes.trans length.symm)).trans sound.nodes
  · intro v there
    obtain ⟨u,here,rfl⟩ := old v there
    rw [EndEdges,permuteNodes_node sound bijective length here]
    exact sound.inside u here
  · intro v there
    obtain ⟨u,here,rfl⟩ := old v there
    rw [adjacent,BeginEdges,EndEdges,permuteNodes_node sound bijective length here]
    exact sound.targets u here
  · intro v there w there' e inV inW
    obtain ⟨u,here,rfl⟩ := old v there
    obtain ⟨u',here',rfl⟩ := old w there'
    rw [Owns,BeginEdges,EndEdges,permuteNodes_node sound bijective length here] at inV
    rw [Owns,BeginEdges,EndEdges,permuteNodes_node sound bijective length here'] at inW
    rw [sound.apart u here u' here' e inV inW]

private theorem adjacent_eq_map {graph' : DynamicGraph Data} {change : Edge Data → Edge Data} {n first : ℕ}
    (node : graph'.node n = ⟨first,(graph.node n).edges⟩)
    (edges : ∀ i < (graph.node n).edges, graph'.edge_list[first + i]? = graph.edge_list[graph.BeginEdges n + i]?.map change) :
    graph'.adjacent n = (graph.adjacent n).map change := by
  apply ext_getElem?
  intro i
  rw [getElem?_map,adjacent,adjacent,slice_getElem?,slice_getElem?,BeginEdges,EndEdges,node,EndEdges,BeginEdges]
  simp only [Nat.add_sub_cancel_left]
  by_cases less : i < (graph.node n).edges
  · rw [if_pos less,if_pos less]
    exact edges i less
  · rw [if_neg less,if_neg less]
    rfl

private theorem renumberEdges_sound (sound : graph.Sound) (few : graph.edge_list.length < SPECIAL_EDGEID) (bijective : Bijective old_to_new_node)
    (length : old_to_new_node.length = graph.number_of_nodes) :
    let state := (List.range graph.number_of_nodes).foldl (renumberNode old_to_new_node)
      ⟨graph.node_array,graph.edge_list,replicate graph.edge_list.length SPECIAL_EDGEID,0⟩
    let state' := (List.range state.edge_list.length).foldl renumberDummy state
    let graph' : DynamicGraph Data := ⟨graph.number_of_nodes,state.new_edge_index,state'.node_array,
      (inplacePermutation state'.edge_list state'.old_to_new_edge).take state.new_edge_index⟩
    graph'.Sound ∧ ∀ n < graph.number_of_nodes, graph'.adjacent n = (graph.adjacent n).map (rename old_to_new_node) := by
  intro state state' graph'
  have nodes : RenumberedNodes old_to_new_node graph graph.number_of_nodes state := renumberNodes_spec sound few le_rfl
  have slots : state.old_to_new_edge.length = state.edge_list.length := nodes.length.trans nodes.slots.symm
  obtain ⟨numbers,sameLength,sameEdges,sameNodes,kept,all⟩ :=
    @renumberDummies_spec Data state state.edge_list.length nodes.numbers (nodes.length.trans_lt few) slots.ge
  have permutation : Bijective state'.old_to_new_edge := numbers.bijective fun e j found =>
    all e (by rw [← slots,← sameLength]; exact (List.getElem?_eq_some_iff.mp found).1) j found
  have same : state'.edge_list.length = state'.old_to_new_edge.length := by rw [sameEdges,sameLength,slots]
  -- the place of a numbered edge
  have placed (e j : ℕ) (number : state.old_to_new_edge[e]? = some j) (below : j < state.new_edge_index) :
      graph'.edge_list[j]? = state.edge_list[e]? := by
    have small : j < SPECIAL_EDGEID := below.trans_le (nodes.numbers.le_length.trans (nodes.length.trans_lt few).le)
    have now := kept e j number (Nat.ne_of_lt small)
    have inside : e < state'.edge_list.length := same ▸ (List.getElem?_eq_some_iff.mp now).1
    have moved := inplacePermutation_getElem? permutation same inside
    rw [getD_eq_getElem?_getD,now,getD_some] at moved
    exact (getElem?_take_of_lt below).trans (moved.trans (congrArg (fun edge_list => edge_list[e]?) sameEdges))
  have total : graph'.edge_list.length = state.new_edge_index := by
    have fits : state.new_edge_index ≤ state'.edge_list.length := by
      rw [sameEdges,← slots]
      exact nodes.numbers.le_length
    rw [length_take,inplacePermutation_length permutation same]
    exact Nat.min_eq_left fits
  have range (n : ℕ) (here : n < graph.number_of_nodes) : ∃ first, graph'.node n = ⟨first,(graph.node n).edges⟩ ∧
      first + (graph.node n).edges ≤ state.new_edge_index ∧ ∀ i < (graph.node n).edges,
        state.old_to_new_edge[graph.BeginEdges n + i]? = some (first + i) ∧
        graph'.edge_list[first + i]? = graph.edge_list[graph.BeginEdges n + i]?.map (rename old_to_new_node) := by
    obtain ⟨first,node,bound,edges⟩ := nodes.done n here
    refine ⟨first,?_,bound,?_⟩
    · rw [DynamicGraph.node,show graph'.node_array = _ from sameNodes]
      exact node
    · intro i less
      exact ⟨(edges i less).1,(placed _ _ (edges i less).1 (by omega)).trans (edges i less).2⟩
  have edges (n : ℕ) (here : n < graph.number_of_nodes) : graph'.adjacent n = (graph.adjacent n).map (rename old_to_new_node) := by
    obtain ⟨first,node,-,edges⟩ := range n here
    exact adjacent_eq_map node fun i less => (edges i less).2
  refine ⟨⟨sound.bounded,?_,?_,?_,?_⟩,edges⟩
  · exact (congrArg List.length sameNodes).trans nodes.nodes
  · intro n here
    obtain ⟨first,node,bound,-⟩ := range n here
    rw [EndEdges,node,total]
    exact bound
  · intro n here edge member
    rw [edges n here] at member
    obtain ⟨old,oldMember,rfl⟩ := mem_map.mp member
    exact length ▸ bijective.lt (length.symm ▸ sound.targets n here old oldMember)
  · intro m there n here e inM inN
    obtain ⟨first,node,bound,edgesM⟩ := range m there
    obtain ⟨first',node',-,edgesN⟩ := range n here
    rw [Owns,BeginEdges,EndEdges,node] at inM
    rw [Owns,BeginEdges,EndEdges,node'] at inN
    simp only at inM inN
    have numberM := (edgesM (e - first) (by omega)).1
    have numberN := (edgesN (e - first') (by omega)).1
    rw [Nat.add_sub_cancel' inM.1] at numberM
    rw [Nat.add_sub_cancel' inN.1] at numberN
    have small : e < SPECIAL_EDGEID :=
      inM.2.trans_le (bound.trans (nodes.numbers.le_length.trans (nodes.length.trans_lt few).le))
    have slot := nodes.numbers.injective _ _ e numberM numberN (Nat.ne_of_lt small)
    refine sound.apart m there n here (graph.BeginEdges m + (e - first)) ⟨Nat.le_add_right ..,Nat.add_lt_add_left (by omega) _⟩ ?_
    rw [slot]
    exact ⟨Nat.le_add_right ..,Nat.add_lt_add_left (by omega) _⟩

private theorem Renumber_spec (sound : graph.Sound) (few : graph.edge_list.length < 2 ^ 32 - 1) (bijective : Bijective old_to_new_node)
    (length : old_to_new_node.length = graph.number_of_nodes) :
    ∃ graph', graph.Renumber old_to_new_node = .ok graph' ∧ graph'.Sound ∧ graph'.number_of_nodes = graph.number_of_nodes ∧
      ∀ u < graph.number_of_nodes, graph'.adjacent (old_to_new_node.getD u 0) = (graph.adjacent u).map (rename old_to_new_node) := by
  have few' : graph.edge_list.length < SPECIAL_EDGEID := few
  obtain ⟨sound',edges⟩ := renumberEdges_sound (permuteNodes_sound sound bijective length) few' bijective length
  refine ⟨_,by rw [Renumber,if_neg (Nat.not_le.mpr few)]; rfl,sound',rfl,?_⟩
  intro u here
  have there : old_to_new_node.getD u 0 < graph.number_of_nodes := length ▸ bijective.lt (length.symm ▸ here)
  refine (edges _ there).trans (congrArg (List.map (rename old_to_new_node)) ?_)
  rw [adjacent,adjacent,BeginEdges,EndEdges,permuteNodes_node sound bijective length here]
  rfl

end Renumbering

/-! ### Runs -/

abbrev Multigraph (Data : Type) := ℕ → Multiset (Edge Data)

/-- What can be done with a graph. An insertion is given with what new slots of the array hold. -/
inductive Call (Data : Type)
  | InsertEdge (uninitialized : ℕ → Edge Data) (source target : ℕ) (data : Data)
  | DeleteEdge (source e : ℕ)
  | DeleteEdgesTo (source target : ℕ)
  | Renumber (old_to_new_node : List ℕ)

/-- The nodes of a call are in the graph, the edge it deletes is one of its source, and renumberings are permutations. -/
def Call.Valid (graph : DynamicGraph Data) : Call Data → Prop
  | .InsertEdge _ source target _ => source < graph.number_of_nodes ∧ target < graph.number_of_nodes
  | .DeleteEdge source e => source < graph.number_of_nodes ∧ graph.BeginEdges source ≤ e ∧ e < graph.EndEdges source
  | .DeleteEdgesTo source target => source < graph.number_of_nodes ∧ target < graph.number_of_nodes
  | .Renumber old_to_new_node => Bijective old_to_new_node ∧ old_to_new_node.length = graph.number_of_nodes

def perform (graph : DynamicGraph Data) : Call Data → Except String (DynamicGraph Data)
  | .InsertEdge uninitialized source target data => .ok (graph.InsertEdge uninitialized source target data).1
  | .DeleteEdge source e => .ok (graph.DeleteEdge source e)
  | .DeleteEdgesTo source target => .ok (graph.DeleteEdgesTo source target).1
  | .Renumber old_to_new_node => graph.Renumber old_to_new_node

/-- What a call does to a multigraph. The edge to delete is given by the slot it is in. -/
def Call.abstract [DecidableEq Data] (graph : DynamicGraph Data) (edges : Multigraph Data) : Call Data → Multigraph Data
  | .InsertEdge _ source target data => Function.update edges source (⟨target,data⟩ ::ₘ edges source)
  | .DeleteEdge source e =>
    match graph.edge_list[e]? with
    | some edge => Function.update edges source ((edges source).erase edge)
    | none => edges
  | .DeleteEdgesTo source target => Function.update edges source ((edges source).filter fun edge => edge.target ≠ target)
  | .Renumber old_to_new_node => fun n => (edges (old_to_new_node.idxOf n)).map (rename old_to_new_node)

/-- One sees the edges of the multigraph at each node, and the ranges of different nodes do not overlap. -/
structure Shows (graph : DynamicGraph Data) (edges : Multigraph Data) : Prop where
  edges : ∀ n < graph.number_of_nodes, (graph.adjacent n : Multiset (Edge Data)) = edges n
  apart : ∀ m < graph.number_of_nodes, ∀ n < graph.number_of_nodes, m ≠ n →
    ∀ e, graph.BeginEdges m ≤ e → e < graph.EndEdges m → ¬ (graph.BeginEdges n ≤ e ∧ e < graph.EndEdges n)

/-- At every moment the graph shows what the multigraph is, and a call fails only when there are too many slots. -/
def Faithful [DecidableEq Data] (graph : DynamicGraph Data) (edges : Multigraph Data) : List (Call Data) → Prop
  | [] => Shows graph edges
  | call :: calls => Shows graph edges ∧ (call.Valid graph →
      match graph.perform call with
      | .ok graph' => graph'.number_of_nodes = graph.number_of_nodes ∧ Faithful graph' (call.abstract graph edges) calls
      | .error _ => 2 ^ 32 - 1 ≤ graph.edge_list.length)

section Runs
variable [DecidableEq Data] {graph graph' : DynamicGraph Data} {edges : Multigraph Data} {call : Call Data} {u : ℕ}

omit [DecidableEq Data] in
private theorem Keeps.shown (keeps : Keeps graph graph' u) (shown : ∀ n < graph.number_of_nodes, (graph.adjacent n : Multiset (Edge Data)) = edges n)
    {now : Multiset (Edge Data)} (self : (graph'.adjacent u : Multiset (Edge Data)) = now) :
    ∀ n < graph'.number_of_nodes, (graph'.adjacent n : Multiset (Edge Data)) = Function.update edges u now n := by
  intro n here
  rw [keeps.nodes] at here
  by_cases this : n = u
  · rw [this,Function.update_self,self]
  · rw [Function.update_of_ne this,keeps.others n here this]
    exact shown n here

omit [DecidableEq Data] in
private theorem Sound.shows (sound : graph.Sound) (shown : ∀ n < graph.number_of_nodes, (graph.adjacent n : Multiset (Edge Data)) = edges n) :
    Shows graph edges :=
  ⟨shown,fun m there n here different e low high both => different (sound.apart m there n here e ⟨low,high⟩ both)⟩

theorem perform_spec (sound : graph.Sound) (shown : ∀ n < graph.number_of_nodes, (graph.adjacent n : Multiset (Edge Data)) = edges n)
    (valid : call.Valid graph) :
    match graph.perform call with
    | .ok graph' => graph'.number_of_nodes = graph.number_of_nodes ∧ graph'.Sound ∧
      ∀ n < graph'.number_of_nodes, (graph'.adjacent n : Multiset (Edge Data)) = call.abstract graph edges n
    | .error _ => 2 ^ 32 - 1 ≤ graph.edge_list.length := by
  cases call with
  | InsertEdge uninitialized source target data =>
    obtain ⟨keeps,inserted⟩ := InsertEdge_spec uninitialized sound valid.1 valid.2 data
    refine ⟨keeps.nodes,keeps.sound,keeps.shown shown ?_⟩
    rw [Multiset.coe_eq_coe.mpr inserted,← shown source valid.1]
    rfl
  | DeleteEdge source e =>
    obtain ⟨keeps,edge,found,deleted⟩ := DeleteEdge_spec sound valid.1 valid.2
    refine ⟨keeps.nodes,keeps.sound,?_⟩
    simp only [Call.abstract,found]
    refine keeps.shown shown ?_
    rw [← shown source valid.1,Multiset.coe_eq_coe.mpr deleted,← Multiset.cons_coe,Multiset.erase_cons_head]
  | DeleteEdgesTo source target =>
    obtain ⟨keeps,rest,-⟩ := DeleteEdgesTo_spec sound valid.1 target
    refine ⟨keeps.nodes,keeps.sound,keeps.shown shown ?_⟩
    rw [Multiset.coe_eq_coe.mpr rest,← shown source valid.1,Multiset.filter_coe]
  | Renumber old_to_new_node =>
    obtain ⟨bijective,length⟩ := valid
    by_cases few : graph.edge_list.length < 2 ^ 32 - 1
    · obtain ⟨graph',renumbered,sound',nodes,adjacent⟩ := Renumber_spec sound few bijective length
      simp only [perform,renumbered]
      refine ⟨nodes,sound',?_⟩
      intro n here
      obtain ⟨u,there,rfl⟩ := bijective.surjective (length.symm ▸ nodes ▸ here)
      have position : old_to_new_node.idxOf (old_to_new_node.getD u 0) = u := by
        rw [getD_eq_getElem _ _ there]
        exact bijective.nodup.idxOf_getElem u there
      rw [adjacent u (length ▸ there)]
      simp only [Call.abstract,position,← shown u (length ▸ there)]
      rfl
    · simp only [perform,Renumber,if_pos (Nat.not_lt.mp few)]
      exact Nat.not_lt.mp few

private theorem Sound.faithful (sound : graph.Sound) (shown : ∀ n < graph.number_of_nodes, (graph.adjacent n : Multiset (Edge Data)) = edges n)
    (calls : List (Call Data)) : Faithful graph edges calls := by
  induction calls generalizing graph edges with
  | nil => exact sound.shows shown
  | cons call calls ih =>
    refine ⟨sound.shows shown,fun valid => ?_⟩
    have after := perform_spec sound shown valid
    cases performed : graph.perform call with
    | ok graph' =>
      rw [performed] at after
      exact ⟨after.1,ih after.2.1 after.2.2⟩
    | error message =>
      rw [performed] at after
      exact after

/-- A graph built from sorted edges keeps showing their multigraph, whatever is done with it. -/
theorem graph_stays_faithful (uninitialized : ℕ → Edge Data) {nodes : ℕ} {input : List (InputEdge Data)} (bounded : nodes < 2 ^ 32)
    (sorted : SortedBySource input) (targets : ∀ edge ∈ input, edge.target < nodes) (calls : List (Call Data)) :
    Faithful (new uninitialized nodes input)
      (fun n => ((input.filter fun edge => edge.source == n).map InputEdge.edge : List (Edge Data))) calls := by
  obtain ⟨sound,count⟩ := new_spec uninitialized sorted bounded targets
  refine sound.faithful ?_ calls
  intro n here
  rw [new_adjacent uninitialized sorted (count ▸ here)]

def blank (_ : ℕ) : Edge Bool := ⟨0,true⟩

theorem graph_stays_faithful_small :
    Faithful (new blank 3 [⟨0,1,true⟩,⟨0,2,false⟩,⟨2,1,true⟩])
      (fun n => (([⟨0,1,true⟩,⟨0,2,false⟩,⟨2,1,true⟩].filter fun edge => edge.source == n).map InputEdge.edge : List (Edge Bool)))
      [.InsertEdge blank 1 0 true,.DeleteEdge 0 1,.InsertEdge blank 0 2 true,.DeleteEdgesTo 0 2,.Renumber [2,0,1]] :=
  graph_stays_faithful blank (by decide) (by simp [SortedBySource]) (by decide) _

end Runs

end DynamicGraph

end Osrm.DynamicGraphs
