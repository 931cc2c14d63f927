import Mathlib.Algebra.BigOperators.Group.Finset.Basic
import Osrm.DynamicGraphRuns
import Osrm.PackedRows

/-!
The number of edges that a `util::DynamicGraph` counts, with the graphs `Filter` returns, and the id that `InsertEdge`
returns. The id is computed once the new edge is counted; `Filter` copies the count of the graph it leaves edges out
of.
-/
namespace Osrm.DynamicGraphs
open List
open Permutation Slices PackedRows Typedefs

variable {Data : Type}

namespace DynamicGraph

def GetOutDegree (graph : DynamicGraph Data) (n : ℕ) : ℕ := (graph.node n).edges
def GetTarget (graph : DynamicGraph Data) (e : ℕ) : Option ℕ := graph.edge_list[e]?.map (·.target)
def GetEdgeData (graph : DynamicGraph Data) (e : ℕ) : Option Data := graph.edge_list[e]?.map (·.data)

/-- What `Filter` does for the next node, whose id is counted along. -/
def filterNode (filter : ℕ → Bool) (edge_list : List (Edge Data)) :
    List Node × List (Edge Data) × ℕ → Node → List Node × List (Edge Data) × ℕ
  | (node_array,other,node_id),node =>
    let first_edge := other.length
    if filter node_id then
      let other := other ++ (slice edge_list node.first_edge (node.first_edge + node.edges)).filter fun edge => filter edge.target
      (node_array ++ [⟨first_edge,other.length - first_edge⟩],other,node_id + 1)
    else (node_array ++ [⟨first_edge,0⟩],other,node_id + 1)

def Filter (graph : DynamicGraph Data) (filter : ℕ → Bool) : DynamicGraph Data :=
  let (node_array,edge_list,_) := graph.node_array.foldl (filterNode filter graph.edge_list) ([],[],0)
  ⟨graph.number_of_nodes,graph.number_of_edges,node_array,edge_list⟩

section Filter
variable {graph : DynamicGraph Data} {filter : ℕ → Bool} {u n : ℕ}

def kept (graph : DynamicGraph Data) (filter : ℕ → Bool) (u : ℕ) : List (Edge Data) :=
  if filter u then (graph.adjacent u).filter fun edge => filter edge.target else []

private theorem Filter_eq (sound : graph.Sound) (filter : ℕ → Bool) :
    graph.Filter filter = ⟨graph.number_of_nodes,graph.number_of_edges,
      (List.range graph.number_of_nodes).map fun u => ⟨start (graph.kept filter) u,(graph.kept filter u).length⟩,
      packed (graph.kept filter) graph.number_of_nodes⟩ := by
  have loop (count : ℕ) (within : count ≤ graph.number_of_nodes) :
      (graph.node_array.take count).foldl (filterNode filter graph.edge_list) ([],[],0) =
        ((List.range count).map fun u => ⟨start (graph.kept filter) u,(graph.kept filter u).length⟩,
          packed (graph.kept filter) count,count) := by
    induction count with
    | zero => rfl
    | succ count ih =>
      have inside : count < graph.node_array.length := sound.nodes.symm ▸ within
      have node : graph.node_array[count] = graph.node count := by
        rw [DynamicGraph.node,getD_eq_getElem _ _ inside]
      rw [← take_concat_get' _ _ inside,foldl_append,ih (by omega),node]
      simp only [foldl_cons,foldl_nil,filterNode,range_succ,map_append,map_cons,map_nil,packed_succ]
      cases chosen : filter count with
      | true => simp [kept,chosen,adjacent,BeginEdges,EndEdges,start]
      | false => simp [kept,chosen,start]
  have all := loop graph.number_of_nodes le_rfl
  rw [take_of_length_le sound.nodes.le] at all
  rw [Filter,all]

private theorem Filter_node (sound : graph.Sound) (filter : ℕ → Bool) (here : u < graph.number_of_nodes) :
    (graph.Filter filter).node u = ⟨start (graph.kept filter) u,(graph.kept filter u).length⟩ := by
  simp [Filter_eq sound,DynamicGraph.node,here]

private theorem Filter_adjacent (sound : graph.Sound) (filter : ℕ → Bool) (here : u < graph.number_of_nodes) :
    (graph.Filter filter).adjacent u = graph.kept filter u := by
  rw [adjacent,BeginEdges,EndEdges,Filter_node sound filter here,Filter_eq sound filter,← start_succ]
  exact slice_packed here

private theorem mem_kept {edge : Edge Data} (member : edge ∈ graph.kept filter u) : edge ∈ graph.adjacent u := by
  rw [kept] at member
  split at member
  · exact mem_of_mem_filter member
  · cases member

private theorem Filter_sound (sound : graph.Sound) (filter : ℕ → Bool) : (graph.Filter filter).Sound := by
  have nodes : (graph.Filter filter).number_of_nodes = graph.number_of_nodes := rfl
  have range (n : ℕ) (here : n < graph.number_of_nodes) : (graph.Filter filter).EndEdges n = start (graph.kept filter) (n + 1) := by
    rw [EndEdges,Filter_node sound filter here,start_succ]
  refine ⟨sound.bounded,by simp [Filter_eq sound],?_,?_,?_⟩
  · intro n here
    rw [range n here,Filter_eq sound filter]
    exact start_mono _ here
  · intro n here edge member
    rw [Filter_adjacent sound filter here] at member
    exact sound.targets n here edge (mem_kept member)
  · intro m there n here e inM inN
    rw [Owns,BeginEdges,range m there,Filter_node sound filter there] at inM
    rw [Owns,BeginEdges,range n here,Filter_node sound filter here] at inN
    rcases Nat.lt_trichotomy m n with less | same | greater
    · have ordered := start_mono (graph.kept filter) (show m + 1 ≤ n from less)
      simp only at inN
      omega
    · exact same
    · have ordered := start_mono (graph.kept filter) (show n + 1 ≤ m from greater)
      simp only at inM
      omega

end Filter

/-! ### The count -/

section Counted
variable {graph : DynamicGraph Data} {u n : ℕ}

/-- `GetNumberOfEdges` is the sum of the out-degrees. -/
def Counted (graph : DynamicGraph Data) : Prop :=
  graph.number_of_edges = ∑ n ∈ Finset.range graph.number_of_nodes, graph.GetOutDegree n

private theorem sum_changed (f f' : ℕ → ℕ) (here : u < n) (others : ∀ v < n, v ≠ u → f' v = f v) :
    ∑ v ∈ Finset.range n, f' v + f u = ∑ v ∈ Finset.range n, f v + f' u := by
  have inside : u ∈ Finset.range n := Finset.mem_range.mpr here
  have rest : ∑ v ∈ (Finset.range n).erase u, f' v = ∑ v ∈ (Finset.range n).erase u, f v := by
    refine Finset.sum_congr rfl fun v member => ?_
    obtain ⟨other,there⟩ := Finset.mem_erase.mp member
    exact others v (Finset.mem_range.mp there) other
  rw [← Finset.add_sum_erase _ f inside,← Finset.add_sum_erase _ f' inside,rest]
  omega

private theorem sum_set (sound : graph.Sound) (here : u < graph.number_of_nodes) (node : Node) (number_of_edges : ℕ)
    (edge_list : List (Edge Data)) :
    let graph' : DynamicGraph Data := ⟨graph.number_of_nodes,number_of_edges,graph.node_array.set u node,edge_list⟩
    ∑ n ∈ Finset.range graph.number_of_nodes, graph'.GetOutDegree n + graph.GetOutDegree u =
      ∑ n ∈ Finset.range graph.number_of_nodes, graph.GetOutDegree n + node.edges := by
  intro graph'
  have changed := sum_changed graph.GetOutDegree graph'.GetOutDegree here fun v _ other => by
    simp [GetOutDegree,graph',DynamicGraph.node,Ne.symm other]
  rw [changed]
  simp [GetOutDegree,graph',DynamicGraph.node,sound.nodes.symm ▸ here]

private theorem new_counted (uninitialized : ℕ → Edge Data) {nodes : ℕ} {input : List (InputEdge Data)} (sorted : SortedBySource input)
    (sources : ∀ edge ∈ input, edge.source < nodes) : (new uninitialized nodes input).Counted := by
  have sum (k : ℕ) : earlier input k = ∑ n ∈ Finset.range k, degree input n := by
    induction k with
    | zero => simp [earlier]
    | succ k ih => rw [earlier_succ,Finset.sum_range_succ,ih]
  have all : earlier input nodes = input.length :=
    countP_eq_length.mpr fun edge member => decide_eq_true (sources edge member)
  have degrees : ∑ n ∈ Finset.range nodes, (new uninitialized nodes input).GetOutDegree n = ∑ n ∈ Finset.range nodes, degree input n := by
    refine Finset.sum_congr rfl fun n member => ?_
    rw [GetOutDegree,new_range uninitialized sorted (Finset.mem_range.mp member)]
  obtain ⟨edge_list,built,-,-⟩ := new_eq uninitialized sorted nodes
  rw [built] at degrees
  rw [Counted,built,degrees,← sum,all]

private theorem InsertEdge_counted (sound : graph.Sound) (counted : graph.Counted) {source : ℕ} (here : source < graph.number_of_nodes)
    (uninitialized : ℕ → Edge Data) (target : ℕ) (data : Data) : (graph.InsertEdge uninitialized source target data).1.Counted := by
  have room := makeRoom_room sound here uninitialized
  rw [Counted] at counted ⊢
  rw [InsertEdge]
  generalize makeRoom uninitialized graph.edge_list (graph.node source) = made at room
  obtain ⟨edge_list,node⟩ := made
  have sum := sum_set sound here ⟨node.first_edge,node.edges + 1⟩ (graph.number_of_edges + 1)
    (edge_list.set (node.first_edge + node.edges) ⟨target,data⟩)
  have edges : node.edges = graph.GetOutDegree source := room.edges
  simp only at sum ⊢
  omega

private theorem DeleteEdge_counted (sound : graph.Sound) (counted : graph.Counted) {source e : ℕ} (here : source < graph.number_of_nodes)
    (owns : graph.Owns source e) : (graph.DeleteEdge source e).Counted := by
  have sum := sum_set sound here ⟨(graph.node source).first_edge,(graph.node source).edges - 1⟩ (graph.number_of_edges - 1)
    (fillGap graph.edge_list e ((graph.node source).first_edge + ((graph.node source).edges - 1)))
  have some : 0 < graph.GetOutDegree source := by
    have range := owns.1.trans_lt owns.2
    rw [BeginEdges,EndEdges] at range
    exact Nat.lt_add_right_iff_pos.mp range
  have bound : graph.GetOutDegree source ≤ ∑ n ∈ Finset.range graph.number_of_nodes, graph.GetOutDegree n :=
    Finset.single_le_sum (fun _ _ => Nat.zero_le _) (Finset.mem_range.mpr here)
  have edges : (graph.node source).edges = graph.GetOutDegree source := rfl
  rw [Counted] at counted ⊢
  rw [DeleteEdge]
  simp only at sum ⊢
  omega

private theorem DeleteEdgesTo_counted (sound : graph.Sound) (counted : graph.Counted) {source : ℕ} (here : source < graph.number_of_nodes)
    (target : ℕ) : (graph.DeleteEdgesTo source target).1.Counted := by
  have deleted := (DeleteEdgesTo_spec sound here target).2.2
  have few : (graph.DeleteEdgesTo source target).2 ≤ graph.GetOutDegree source := by
    rw [deleted,GetOutDegree]
    refine countP_le_length.trans_eq ?_
    rw [adjacent,length_slice (sound.inside source here),BeginEdges,EndEdges,Nat.add_sub_cancel_left]
  have bound : graph.GetOutDegree source ≤ ∑ n ∈ Finset.range graph.number_of_nodes, graph.GetOutDegree n :=
    Finset.single_le_sum (fun _ _ => Nat.zero_le _) (Finset.mem_range.mpr here)
  rw [DeleteEdgesTo] at few ⊢
  generalize deleteFrom target (graph.EndEdges source) (graph.node source).edges (graph.BeginEdges source) graph.edge_list 0 = result
    at few ⊢
  obtain ⟨edge_list,count⟩ := result
  have sum := sum_set sound here ⟨(graph.node source).first_edge,(graph.node source).edges - count⟩ (graph.number_of_edges - count) edge_list
  have edges : (graph.node source).edges = graph.GetOutDegree source := rfl
  rw [Counted] at counted ⊢
  simp only at sum few ⊢
  omega

private theorem renumberEdges_count (old_to_new_node l : List ℕ) (state : Renumbering Data) :
    (l.foldl (renumberEdge old_to_new_node) state).node_array = state.node_array ∧
      (l.foldl (renumberEdge old_to_new_node) state).new_edge_index = state.new_edge_index + l.length := by
  induction l generalizing state with
  | nil => exact ⟨rfl,rfl⟩
  | cons e l ih =>
    obtain ⟨nodes,index⟩ := ih (renumberEdge old_to_new_node state e)
    refine ⟨nodes,index.trans ?_⟩
    simp only [renumberEdge,length_cons]
    omega

private theorem renumberNodes_count (old_to_new_node : List ℕ) (state : Renumbering Data) (count : ℕ) :
    let state' := (List.range count).foldl (renumberNode old_to_new_node) state
    (∀ n, (state'.node_array.getD n ⟨0,0⟩).edges = (state.node_array.getD n ⟨0,0⟩).edges) ∧
      state'.new_edge_index = state.new_edge_index + ∑ n ∈ Finset.range count, (state.node_array.getD n ⟨0,0⟩).edges := by
  induction count with
  | zero => simp
  | succ count ih =>
    obtain ⟨edges,index⟩ := ih
    rw [range_succ,foldl_append]
    generalize (List.range count).foldl (renumberNode old_to_new_node) state = state' at edges index ⊢
    obtain ⟨nodes,counted⟩ := renumberEdges_count old_to_new_node
      (List.range' (state'.node_array.getD count ⟨0,0⟩).first_edge (state'.node_array.getD count ⟨0,0⟩).edges) state'
    simp only [foldl_cons,foldl_nil,renumberNode]
    generalize (List.range' (state'.node_array.getD count ⟨0,0⟩).first_edge (state'.node_array.getD count ⟨0,0⟩).edges).foldl
      (renumberEdge old_to_new_node) state' = next at nodes counted ⊢
    refine ⟨fun n => ?_,?_⟩
    · rw [← edges n,nodes,getD_eq_getElem?_getD,getElem?_set]
      by_cases this : count = n
      · subst this
        by_cases inside : count < state'.node_array.length
        · simp [inside]
        · simp [inside]
      · rw [if_neg this,← getD_eq_getElem?_getD]
    · rw [counted,length_range',index,edges count,Finset.sum_range_succ,Nat.add_assoc]

private theorem renumberDummies_nodes (state : Renumbering Data) (l : List ℕ) : (l.foldl renumberDummy state).node_array = state.node_array := by
  induction l generalizing state with
  | nil => rfl
  | cons e l ih =>
    rw [foldl_cons,ih,renumberDummy]
    split <;> rfl

private theorem Renumber_counted {graph' : DynamicGraph Data} {old_to_new_node : List ℕ} (renumbered : graph.Renumber old_to_new_node = .ok graph') :
    graph'.Counted := by
  rw [Renumber] at renumbered
  split at renumbered
  · cases renumbered
  · obtain ⟨edges,index⟩ := renumberNodes_count old_to_new_node ⟨inplacePermutation graph.node_array old_to_new_node,graph.edge_list,
      replicate graph.edge_list.length SPECIAL_EDGEID,0⟩ graph.number_of_nodes
    obtain rfl := Except.ok.inj renumbered
    rw [Counted]
    refine index.trans ?_
    rw [Nat.zero_add]
    refine Finset.sum_congr rfl fun n _ => ?_
    rw [← edges n,GetOutDegree,DynamicGraph.node]
    simp only [renumberDummies_nodes]

def KeepsAll (graph : DynamicGraph Data) (filter : ℕ → Bool) : Prop :=
  ∀ n < graph.number_of_nodes, ∀ edge ∈ graph.adjacent n, filter n = true ∧ filter edge.target = true

private theorem degree_eq (sound : graph.Sound) (here : n < graph.number_of_nodes) : graph.GetOutDegree n = (graph.adjacent n).length := by
  rw [GetOutDegree,adjacent,length_slice (sound.inside n here),BeginEdges,EndEdges,Nat.add_sub_cancel_left]

private theorem length_kept_le (graph : DynamicGraph Data) (filter : ℕ → Bool) (n : ℕ) :
    (graph.kept filter n).length ≤ (graph.adjacent n).length := by
  rw [kept]
  split
  · exact length_filter_le ..
  · exact Nat.zero_le _

private theorem length_kept_eq_iff (graph : DynamicGraph Data) (filter : ℕ → Bool) (n : ℕ) :
    (graph.kept filter n).length = (graph.adjacent n).length ↔
      ∀ edge ∈ graph.adjacent n, filter n = true ∧ filter edge.target = true := by
  rw [kept]
  cases chosen : filter n with
  | true => simp
  | false =>
    cases edges : graph.adjacent n with
    | nil => simp
    | cons edge rest =>
      refine iff_of_false (by simp) fun all => ?_
      simpa using all edge (.head rest)

private theorem Filter_counted_iff (sound : graph.Sound) (counted : graph.Counted) (filter : ℕ → Bool) :
    (graph.Filter filter).Counted ↔ graph.KeepsAll filter := by
  have nodes : (graph.Filter filter).number_of_nodes = graph.number_of_nodes := rfl
  have number : (graph.Filter filter).number_of_edges = graph.number_of_edges := rfl
  have degrees (n : ℕ) (member : n ∈ Finset.range graph.number_of_nodes) :
      (graph.Filter filter).GetOutDegree n = (graph.kept filter n).length := by
    rw [GetOutDegree,Filter_node sound filter (Finset.mem_range.mp member)]
  have before (n : ℕ) (member : n ∈ Finset.range graph.number_of_nodes) : graph.GetOutDegree n = (graph.adjacent n).length :=
    degree_eq sound (Finset.mem_range.mp member)
  rw [Counted,nodes,number,counted,Finset.sum_congr rfl degrees,Finset.sum_congr rfl before,eq_comm,
    Finset.sum_eq_sum_iff_of_le fun n _ => length_kept_le graph filter n]
  refine forall_congr' fun n => ?_
  rw [Finset.mem_range,length_kept_eq_iff]

end Counted

section Inserted
variable {graph : DynamicGraph Data} {source target : ℕ} {data : Data}

def Reads (graph : DynamicGraph Data) (e target : ℕ) (data : Data) : Prop :=
  graph.GetTarget e = some target ∧ graph.GetEdgeData e = some data

/-- The slot behind the one of a new edge, as long as the range of the node does not move. -/
def slotBehind (graph : DynamicGraph Data) (source : ℕ) : ℕ :=
  let node := graph.node source
  let one_beyond_last_of_node := node.edges + node.first_edge
  if one_beyond_last_of_node = graph.edge_list.length || !isDummy graph.edge_list one_beyond_last_of_node then
    if node.first_edge ≠ 0 && isDummy graph.edge_list (node.first_edge - 1) then one_beyond_last_of_node
    else graph.edge_list.length
  else one_beyond_last_of_node + 1

private theorem reads_iff {e : ℕ} : graph.Reads e target data ↔ graph.edge_list[e]? = some ⟨target,data⟩ := by
  rw [Reads,GetTarget,GetEdgeData]
  cases graph.edge_list[e]? with
  | none => simp
  | some edge =>
    cases edge with
    | mk target' data' => simp

private theorem isDummy_makeDummy {edge_list : List (Edge Data)} {e k : ℕ} (inside : k < edge_list.length)
    (either : k = e ∨ isDummy edge_list k = true) : isDummy (makeDummy edge_list e) k = true := by
  rw [isDummy,makeDummy,getElem?_modify,getElem?_eq_getElem inside]
  by_cases same : e = k
  · simp [same]
  · rcases either with rfl | dummy
    · exact absurd rfl same
    · simpa [isDummy,inside,same] using dummy

private theorem makeDummies_isDummy (edge_list : List (Edge Data)) (slots : List ℕ) (newFirstEdge : ℕ) {k : ℕ} (inside : k < edge_list.length)
    (either : (∃ i ∈ slots, k = newFirstEdge + i) ∨ isDummy edge_list k = true) :
    isDummy (slots.foldl (fun edge_list i => makeDummy edge_list (newFirstEdge + i)) edge_list) k = true := by
  induction slots generalizing edge_list with
  | nil => simpa using either
  | cons slot slots ih =>
    refine ih (makeDummy edge_list (newFirstEdge + slot)) (inside.trans_eq length_makeDummy.symm) ?_
    rcases either with ⟨i,member,rfl⟩ | dummy
    · rcases mem_cons.mp member with rfl | later
      · exact .inr (isDummy_makeDummy inside (.inl rfl))
      · exact .inl ⟨i,later,rfl⟩
    · exact .inr (isDummy_makeDummy inside (.inr dummy))

private theorem moveToEnd_behind (uninitialized : ℕ → Edge Data) (edge_list : List (Edge Data)) (node : Node)
    (range : node.first_edge + node.edges ≤ edge_list.length) :
    isDummy (moveToEnd uninitialized edge_list node).1 (edge_list.length + node.edges + 1) = true := by
  have spare : node.edges + 2 ≤ node.edges * 11 / 10 + 2 := by omega
  have length : (resize edge_list uninitialized (edge_list.length + (node.edges * 11 / 10 + 2))).length =
      edge_list.length + (node.edges * 11 / 10 + 2) := length_resize uninitialized (Nat.le_add_right ..)
  have moved := (moveEdges_spec (resize edge_list uninitialized (edge_list.length + (node.edges * 11 / 10 + 2))) range
    (by omega)).1
  refine makeDummies_isDummy _ _ _ ?_ (.inl ⟨node.edges + 1,?_,rfl⟩)
  · rw [moved,length]
    omega
  · exact mem_range'_1.mpr ⟨le_rfl,by omega⟩

private theorem makeRoom_behind (sound : graph.Sound) (here : source < graph.number_of_nodes) (uninitialized : ℕ → Edge Data) {edge : Edge Data}
    (real : edge.target < graph.number_of_nodes) :
    let made := makeRoom uninitialized graph.edge_list (graph.node source)
    made.1[made.2.first_edge + made.2.edges + 1]? = some edge ↔ graph.edge_list[graph.slotBehind source]? = some edge := by
  have inside : (graph.node source).first_edge + (graph.node source).edges ≤ graph.edge_list.length := sound.inside source here
  rw [makeRoom,slotBehind]
  simp only
  split
  · split
    · rename_i before
      simp only [ne_eq,decide_not,Bool.and_eq_true,Bool.not_eq_true',decide_eq_false_iff_not] at before
      have first := (List.getElem?_eq_some_iff.mp (isDummy_spec before.2).choose_spec.1).1
      simp only
      rw [copy_getElem? first (by omega),if_neg (by omega)]
      rw [show (graph.node source).first_edge - 1 + (graph.node source).edges + 1 =
        (graph.node source).edges + (graph.node source).first_edge by omega]
    · have dummy := moveToEnd_behind uninitialized graph.edge_list (graph.node source) inside
      refine iff_of_false (fun found => ?_) (by simp)
      obtain ⟨special,atSlot,target⟩ := isDummy_spec dummy
      obtain rfl := Option.some.inj (found.symm.trans atSlot)
      rw [target] at real
      exact absurd (Nat.le_of_lt_succ sound.bounded) (not_le.mpr real)
  · rw [Nat.add_comm (graph.node source).edges]

private theorem InsertEdge_reads_iff (sound : graph.Sound) (here : source < graph.number_of_nodes) (there : target < graph.number_of_nodes)
    (uninitialized : ℕ → Edge Data) (data : Data) :
    (graph.InsertEdge uninitialized source target data).1.Reads (graph.InsertEdge uninitialized source target data).2 target data ↔
      graph.edge_list[graph.slotBehind source]? = some ⟨target,data⟩ := by
  have behind := makeRoom_behind sound here uninitialized (show (Edge.mk target data).target < graph.number_of_nodes from there)
  refine Iff.trans ?_ behind
  rw [reads_iff,InsertEdge]
  simp only
  rw [getElem?_set_ne (by omega),Nat.add_assoc]

end Inserted

/-! ### Runs -/

/-- What can be done with a graph, also going on with the graph that `Filter` returns. -/
inductive Operation (Data : Type)
  | Change (call : Call Data)
  | Filter (filter : ℕ → Bool)

def Operation.Valid (graph : DynamicGraph Data) : Operation Data → Prop
  | .Change call => call.Valid graph
  | .Filter _ => True
/-- An operation that keeps the count: a `Filter` leaves no edge out. -/
def Operation.LeavesNone (graph : DynamicGraph Data) : Operation Data → Prop
  | .Change _ => True
  | .Filter filter => graph.KeepsAll filter
def operate (graph : DynamicGraph Data) : Operation Data → Except String (DynamicGraph Data)
  | .Change call => graph.perform call
  | .Filter filter => .ok (graph.Filter filter)

/-- The id that an insertion returns is that of the new edge. -/
def Operation.IdRight (graph : DynamicGraph Data) : Operation Data → Prop
  | .Change (.InsertEdge uninitialized source target data) =>
    (graph.InsertEdge uninitialized source target data).1.Reads (graph.InsertEdge uninitialized source target data).2 target data
  | _ => True

def Operation.Repeats (graph : DynamicGraph Data) : Operation Data → Prop
  | .Change (.InsertEdge _ source target data) => graph.edge_list[graph.slotBehind source]? = some ⟨target,data⟩
  | _ => True

/-- In a run of valid operations whose filters leave no edge out the count is right at every moment, and the id of each
    insertion is right exactly if it repeats an edge. -/
def Exact (graph : DynamicGraph Data) : List (Operation Data) → Prop
  | [] => graph.Counted
  | operation :: operations => graph.Counted ∧ (operation.Valid graph → operation.LeavesNone graph →
      (operation.IdRight graph ↔ operation.Repeats graph) ∧
      match graph.operate operation with
      | .ok graph' => Exact graph' operations
      | .error _ => 2 ^ 32 - 1 ≤ graph.edge_list.length)

section Runs
variable [DecidableEq Data] {graph graph' : DynamicGraph Data} {operation : Operation Data}

private theorem operate_spec (sound : graph.Sound) (counted : graph.Counted) (valid : operation.Valid graph) (none : operation.LeavesNone graph) :
    match graph.operate operation with
    | .ok graph' => graph'.Sound ∧ graph'.Counted
    | .error _ => 2 ^ 32 - 1 ≤ graph.edge_list.length := by
  cases operation with
  | Filter filter => exact ⟨Filter_sound sound filter,(Filter_counted_iff sound counted filter).mpr none⟩
  | Change call =>
    have after := perform_spec sound (fun n _ => (rfl : (graph.adjacent n : Multiset (Edge Data)) = graph.adjacent n)) valid
    cases performed : graph.perform call with
    | error message =>
      rw [performed] at after
      simp only [operate,performed]
      exact after
    | ok graph' =>
      rw [performed] at after
      simp only [operate,performed]
      refine ⟨after.2.1,?_⟩
      cases call with
      | InsertEdge uninitialized source target data =>
        obtain rfl := Except.ok.inj performed
        exact InsertEdge_counted sound counted valid.1 uninitialized target data
      | DeleteEdge source e =>
        obtain rfl := Except.ok.inj performed
        exact DeleteEdge_counted sound counted valid.1 valid.2
      | DeleteEdgesTo source target =>
        obtain rfl := Except.ok.inj performed
        exact DeleteEdgesTo_counted sound counted valid.1 target
      | Renumber old_to_new_node => exact Renumber_counted performed

omit [DecidableEq Data] in
private theorem idRight_iff (sound : graph.Sound) (valid : operation.Valid graph) : operation.IdRight graph ↔ operation.Repeats graph := by
  cases operation with
  | Filter filter => exact Iff.rfl
  | Change call =>
    cases call with
    | InsertEdge uninitialized source target data => exact InsertEdge_reads_iff sound valid.1 valid.2 uninitialized data
    | DeleteEdge source e => exact Iff.rfl
    | DeleteEdgesTo source target => exact Iff.rfl
    | Renumber old_to_new_node => exact Iff.rfl

private theorem Sound.exact (sound : graph.Sound) (counted : graph.Counted) (operations : List (Operation Data)) : graph.Exact operations := by
  induction operations generalizing graph with
  | nil => exact counted
  | cons operation operations ih =>
    refine ⟨counted,fun valid none => ⟨idRight_iff sound valid,?_⟩⟩
    have after := operate_spec sound counted valid none
    cases operated : graph.operate operation with
    | ok graph' =>
      rw [operated] at after
      exact ih after.1 after.2
    | error message =>
      rw [operated] at after
      exact after

/-- A graph built from sorted edges counts them and tells the ids of new ones as far as that is possible. -/
theorem bookkeeping_exact (uninitialized : ℕ → Edge Data) {nodes : ℕ} {input : List (InputEdge Data)} (bounded : nodes < 2 ^ 32)
    (sorted : SortedBySource input) (sources : ∀ edge ∈ input, edge.source < nodes) (targets : ∀ edge ∈ input, edge.target < nodes)
    (operations : List (Operation Data)) : (new uninitialized nodes input).Exact operations :=
  (new_spec uninitialized sorted bounded targets).1.exact (new_counted uninitialized sorted sources) operations

theorem bookkeeping_exact_small :
    (new blank 3 [⟨0,1,true⟩,⟨0,2,false⟩,⟨2,1,true⟩]).Exact
      [.Change (.DeleteEdge 0 1),.Filter fun _ => true,.Change (.InsertEdge blank 0 2 true),.Change (.Renumber [2,0,1])] :=
  bookkeeping_exact blank (by decide) (by simp [SortedBySource]) (by decide) (by decide) _

/-- Of two edges the filter leaves out both, and the graph still counts two; the id of a third one is that of a dummy. -/
theorem bookkeeping_off :
    ((new blank 2 [⟨0,1,true⟩,⟨1,0,true⟩]).Filter fun n => n == 0).number_of_edges = 2 ∧
      ((new blank 2 [⟨0,1,true⟩,⟨1,0,true⟩]).Filter fun n => n == 0).GetOutDegree 0 = 0 ∧
      ((new blank 2 [⟨0,1,true⟩,⟨1,0,true⟩]).Filter fun n => n == 0).GetOutDegree 1 = 0 ∧
      ((new blank 2 [⟨0,1,true⟩,⟨1,0,true⟩]).InsertEdge blank 0 1 false).2 = 4 ∧
      ((new blank 2 [⟨0,1,true⟩,⟨1,0,true⟩]).InsertEdge blank 0 1 false).1.GetTarget 4 = some SPECIAL_NODEID ∧
      ((new blank 2 [⟨0,1,true⟩,⟨1,0,true⟩]).InsertEdge blank 0 1 false).1.GetTarget 3 = some 1 := by
  refine ⟨?_,?_,?_,?_,?_,?_⟩ <;> decide

end Runs

end DynamicGraph

end Osrm.DynamicGraphs
