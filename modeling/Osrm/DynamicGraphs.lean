import Osrm.Permutation
import Osrm.Scan
import Osrm.Slices
import Osrm.Typedefs

/-!
`util/dynamic_graph.hpp`. The edges of all nodes are in one array, those of a node in a range of it; a slot that
belongs to no node is a dummy, whose target is no node.
-/
namespace Osrm.DynamicGraphs
open List
open Typedefs Permutation Scan Slices

def SPECIAL_EDGEID : ℕ := 4294967295

/-- `DynamicNode`. -/
structure Node where
  first_edge : ℕ
  edges : ℕ
  deriving DecidableEq, Repr

/-- `DynamicEdge`. -/
structure Edge (Data : Type) where
  target : ℕ
  data : Data
  deriving DecidableEq, Repr

structure InputEdge (Data : Type) where
  source : ℕ
  target : ℕ
  data : Data
  deriving DecidableEq, Repr

structure DynamicGraph (Data : Type) where
  number_of_nodes : ℕ
  number_of_edges : ℕ
  node_array : List Node
  edge_list : List (Edge Data)
  deriving DecidableEq, Repr

section Slots
variable {Data : Type} (edge_list : List (Edge Data))

def isDummy (edge : ℕ) : Bool := edge_list[edge]?.any fun e => e.target == SPECIAL_NODEID
def leadsTo (edge : ℕ) (target : ℕ) : Bool := edge_list[edge]?.any fun e => e.target == target
def makeDummy (edge : ℕ) : List (Edge Data) := edge_list.modify edge fun e => { e with target := SPECIAL_NODEID }

/-- `edge_list[i] = edge_list[j]`. -/
def copy (i j : ℕ) : List (Edge Data) :=
  match edge_list[j]? with
  | some e => edge_list.set i e
  | none => edge_list

def fillGap (e last : ℕ) : List (Edge Data) := makeDummy (copy edge_list e last) last
/-- `DeallocatingVector::resize`. -/
def resize (uninitialized : ℕ → Edge Data) (size : ℕ) : List (Edge Data) :=
  edge_list.take size ++ (List.range' edge_list.length (size - edge_list.length)).map uninitialized

end Slots

namespace DynamicGraph
variable {Data : Type}

def node (graph : DynamicGraph Data) (n : ℕ) : Node := graph.node_array.getD n ⟨0,0⟩

def BeginEdges (graph : DynamicGraph Data) (n : ℕ) : ℕ := (graph.node n).first_edge
def EndEdges (graph : DynamicGraph Data) (n : ℕ) : ℕ := (graph.node n).first_edge + (graph.node n).edges
/-- The edges that one sees from `BeginEdges` to `EndEdges`. -/
def adjacent (graph : DynamicGraph Data) (n : ℕ) : List (Edge Data) :=
  slice graph.edge_list (graph.BeginEdges n) (graph.EndEdges n)
def endOfNode (graph : List (InputEdge Data)) (node : ℕ) (edge : ℕ) : ℕ :=
  edge + ((graph.drop edge).takeWhile fun input => input.source == node).length

/-- The ranges of the nodes, and where the last one ends. -/
def makeNodes (nodes : ℕ) (graph : List (InputEdge Data)) : List Node × ℕ :=
  let (node_array,_,position) := (List.range nodes).foldl (fun (node_array,edge,position) node =>
    let last_edge := edge
    let edge := endOfNode graph node edge
    (node_array ++ [⟨position,edge - last_edge⟩],edge,position + (edge - last_edge))) ([],0,0)
  (node_array,position)

/-- `edge_list[i].target = graph[edge].target`, the same for the data, and `++edge`. -/
def writeEdge (graph : List (InputEdge Data)) : List (Edge Data) × ℕ → ℕ → List (Edge Data) × ℕ
  | (edge_list,edge),i =>
    match graph[edge]? with
    | some input => (edge_list.set i ⟨input.target,input.data⟩,edge + 1)
    | none => (edge_list,edge + 1)

/-- The constructor from a list of edges. -/
def new (uninitialized : ℕ → Edge Data) (nodes : ℕ) (graph : List (InputEdge Data)) : DynamicGraph Data :=
  let (node_array,position) := makeNodes nodes graph
  let (edge_list,_) := node_array.foldl (fun state node =>
    (List.range' node.first_edge node.edges).foldl (writeEdge graph) state) (resize [] uninitialized position,0)
  ⟨nodes,graph.length,node_array,edge_list⟩

/-- The range of a node at the end of the array, with slots to spare. The size is computed as `edges * 1.1 + 2`. -/
def moveToEnd (uninitialized : ℕ → Edge Data) (edge_list : List (Edge Data)) (node : Node) : List (Edge Data) × Node :=
  let newFirstEdge := edge_list.length
  let newSize := node.edges * 11 / 10 + 2
  let edge_list := resize edge_list uninitialized (edge_list.length + newSize)
  let edge_list := (List.range node.edges).foldl (fun edge_list i =>
    makeDummy (copy edge_list (newFirstEdge + i) (node.first_edge + i)) (node.first_edge + i)) edge_list
  let edge_list := (List.range' (node.edges + 1) (newSize - (node.edges + 1))).foldl (fun edge_list i =>
    makeDummy edge_list (newFirstEdge + i)) edge_list
  (edge_list,⟨newFirstEdge,node.edges⟩)

/-- The array and the range of a node when the slot behind the range is free. -/
def makeRoom (uninitialized : ℕ → Edge Data) (edge_list : List (Edge Data)) (node : Node) : List (Edge Data) × Node :=
  let one_beyond_last_of_node := node.edges + node.first_edge
  if one_beyond_last_of_node = edge_list.length || !isDummy edge_list one_beyond_last_of_node then
    if node.first_edge ≠ 0 && isDummy edge_list (node.first_edge - 1) then
      let first_edge := node.first_edge - 1
      (copy edge_list first_edge (first_edge + node.edges),⟨first_edge,node.edges⟩)
    else moveToEnd uninitialized edge_list node
  else (edge_list,node)

def InsertEdge (uninitialized : ℕ → Edge Data) (graph : DynamicGraph Data) (source target : ℕ) (data : Data) :
    DynamicGraph Data × ℕ :=
  let (edge_list,node) := makeRoom uninitialized graph.edge_list (graph.node source)
  ({ graph with
      number_of_edges := graph.number_of_edges + 1
      node_array := graph.node_array.set source ⟨node.first_edge,node.edges + 1⟩
      edge_list := edge_list.set (node.first_edge + node.edges) ⟨target,data⟩ },node.first_edge + (node.edges + 1))

def DeleteEdge (graph : DynamicGraph Data) (source : ℕ) (e : ℕ) : DynamicGraph Data :=
  let node := graph.node source
  { graph with
    number_of_edges := graph.number_of_edges - 1
    node_array := graph.node_array.set source ⟨node.first_edge,node.edges - 1⟩
    edge_list := fillGap graph.edge_list e (node.first_edge + (node.edges - 1)) }

/-- The inner loop of `DeleteEdgesTo`, for at most so many rounds. -/
def deleteHere (target : ℕ) (i iend : ℕ) : ℕ → List (Edge Data) → ℕ → List (Edge Data) × ℕ
  | 0, edge_list, deleted => (edge_list,deleted)
  | fuel + 1, edge_list, deleted =>
    let deleted := deleted + 1
    let edge_list := fillGap edge_list i (iend - deleted)
    if i < iend - deleted && leadsTo edge_list i target then deleteHere target i iend fuel edge_list deleted
    else (edge_list,deleted)

/-- The outer loop, from a slot on, for at most so many rounds. -/
def deleteFrom (target : ℕ) (iend : ℕ) : ℕ → ℕ → List (Edge Data) → ℕ → List (Edge Data) × ℕ
  | 0, _, edge_list, deleted => (edge_list,deleted)
  | fuel + 1, i, edge_list, deleted =>
    if i < iend - deleted then
      let (edge_list,deleted) :=
        if leadsTo edge_list i target then deleteHere target i iend (iend - deleted - i) edge_list deleted
        else (edge_list,deleted)
      deleteFrom target iend fuel (i + 1) edge_list deleted
    else (edge_list,deleted)

def DeleteEdgesTo (graph : DynamicGraph Data) (source target : ℕ) : DynamicGraph Data × ℕ :=
  let node := graph.node source
  let (edge_list,deleted) :=
    deleteFrom target (graph.EndEdges source) node.edges (graph.BeginEdges source) graph.edge_list 0
  ({ graph with
      number_of_edges := graph.number_of_edges - deleted
      node_array := graph.node_array.set source ⟨node.first_edge,node.edges - deleted⟩
      edge_list },deleted)

/-- What `Renumber` has done so far. -/
structure Renumbering (Data : Type) where
  node_array : List Node
  edge_list : List (Edge Data)
  old_to_new_edge : List ℕ
  new_edge_index : ℕ

def renumberEdge (old_to_new_node : List ℕ) (state : Renumbering Data) (edge : ℕ) : Renumbering Data :=
  { state with
    edge_list := state.edge_list.modify edge fun e => { e with target := old_to_new_node.getD e.target 0 }
    old_to_new_edge := state.old_to_new_edge.set edge state.new_edge_index
    new_edge_index := state.new_edge_index + 1 }

def renumberNode (old_to_new_node : List ℕ) (state : Renumbering Data) (n : ℕ) : Renumbering Data :=
  let new_first_edge := state.new_edge_index
  let node := state.node_array.getD n ⟨0,0⟩
  let state := (List.range' node.first_edge node.edges).foldl (renumberEdge old_to_new_node) state
  { state with node_array := state.node_array.set n ⟨new_first_edge,node.edges⟩ }

def renumberDummy (state : Renumbering Data) (edge : ℕ) : Renumbering Data :=
  if state.old_to_new_edge.getD edge 0 = SPECIAL_EDGEID then
    { state with
      old_to_new_edge := state.old_to_new_edge.set edge state.new_edge_index
      new_edge_index := state.new_edge_index + 1 }
  else state

/-- The place in the source is left out of the error. -/
def Renumber (graph : DynamicGraph Data) (old_to_new_node : List ℕ) : Except String (DynamicGraph Data) :=
  let node_array := inplacePermutation graph.node_array old_to_new_node
  if graph.edge_list.length ≥ 2 ^ 32 - 1 then .error "There are too many edges, OSRM only supports 2^32"
  else
    let state := (List.range graph.number_of_nodes).foldl (renumberNode old_to_new_node)
      ⟨node_array,graph.edge_list,replicate graph.edge_list.length SPECIAL_EDGEID,0⟩
    let number_of_valid_edges := state.new_edge_index
    let state := (List.range state.edge_list.length).foldl renumberDummy state
    let edge_list := inplacePermutation state.edge_list state.old_to_new_edge
    .ok ⟨graph.number_of_nodes,number_of_valid_edges,state.node_array,edge_list.take number_of_valid_edges⟩

end DynamicGraph

section Slots
variable {Data : Type} {edge_list : List (Edge Data)} {e i j k first last size : ℕ}

theorem length_makeDummy : (makeDummy edge_list e).length = edge_list.length := length_modify ..

private theorem makeDummy_getElem? (other : k ≠ e) : (makeDummy edge_list e)[k]? = edge_list[k]? := by
  rw [makeDummy,getElem?_modify]
  simp [Ne.symm other]

private theorem length_copy : (copy edge_list i j).length = edge_list.length := by
  rw [copy]
  split
  · exact length_set ..
  · rfl

theorem copy_getElem? (insideI : i < edge_list.length) (insideJ : j < edge_list.length) (k : ℕ) :
    (copy edge_list i j)[k]? = if k = i then edge_list[j]? else edge_list[k]? := by
  rw [copy,getElem?_eq_getElem insideJ]
  by_cases same : k = i
  · subst same
    simp [insideI]
  · rw [if_neg same]
    exact getElem?_set_ne (Ne.symm same)

private theorem length_fillGap : (fillGap edge_list e last).length = edge_list.length := by rw [fillGap,length_makeDummy,length_copy]

private theorem fillGap_getElem? (insideE : e < edge_list.length) (insideLast : last < edge_list.length) (before : k ≠ last) :
    (fillGap edge_list e last)[k]? = if k = e then edge_list[last]? else edge_list[k]? := by
  rw [fillGap,makeDummy_getElem? before,copy_getElem? insideE insideLast]

theorem length_resize (uninitialized : ℕ → Edge Data) (grows : edge_list.length ≤ size) :
    (resize edge_list uninitialized size).length = size := by
  rw [resize,length_append,length_take,length_map,length_range']
  omega

private theorem resize_getElem? (uninitialized : ℕ → Edge Data) (grows : edge_list.length ≤ size) (inside : k < edge_list.length) :
    (resize edge_list uninitialized size)[k]? = edge_list[k]? := by
  rw [resize,take_of_length_le grows,getElem?_append_left inside]

theorem isDummy_spec (dummy : isDummy edge_list e = true) :
    ∃ edge, edge_list[e]? = some edge ∧ edge.target = SPECIAL_NODEID := by
  rw [isDummy] at dummy
  cases found : edge_list[e]? with
  | none =>
    rw [found] at dummy
    cases dummy
  | some edge =>
    rw [found] at dummy
    exact ⟨edge,rfl,by simpa using dummy⟩

private theorem slice_congr {edge_list' : List (Edge Data)} (same : ∀ k, first ≤ k → k < last → edge_list'[k]? = edge_list[k]?) :
    slice edge_list' first last = slice edge_list first last := by
  apply ext_getElem?
  intro i
  rw [slice_getElem?,slice_getElem?]
  by_cases below : i < last - first
  · rw [if_pos below,if_pos below,same _ (by omega) (by omega)]
  · rw [if_neg below,if_neg below]

variable {edge : Edge Data}

private theorem slice_one (found : edge_list[i]? = some edge) : slice edge_list i (i + 1) = [edge] := by
  apply ext_getElem?
  intro k
  rw [slice_getElem?]
  by_cases zero : k = 0
  · subst zero
    simp [found]
  · rw [if_neg (by omega),getElem?_eq_none (by simp; omega)]

private theorem slice_snoc (before : first ≤ last) (found : edge_list[last]? = some edge) :
    slice edge_list first (last + 1) = slice edge_list first last ++ [edge] := by
  rw [← slice_append before (Nat.le_succ last),slice_one found]

private theorem slice_cons (before : first < last) (found : edge_list[first]? = some edge) :
    slice edge_list first last = edge :: slice edge_list (first + 1) last := by
  rw [← slice_append (Nat.le_succ first) before,slice_one found]
  rfl

private theorem fillGap_perm (low : first ≤ e) (high : e ≤ last) (inside : last < edge_list.length) :
    ∃ edge, edge_list[e]? = some edge ∧
      (slice edge_list first (last + 1)).Perm (edge :: slice (fillGap edge_list e last) first last) := by
  have insideE : e < edge_list.length := high.trans_lt inside
  obtain ⟨edge,found⟩ : ∃ edge, edge_list[e]? = some edge := ⟨_,getElem?_eq_getElem insideE⟩
  obtain ⟨moved,atLast⟩ : ∃ moved, edge_list[last]? = some moved := ⟨_,getElem?_eq_getElem inside⟩
  have kept (k : ℕ) (ne : k ≠ e) (ne' : k ≠ last) : (fillGap edge_list e last)[k]? = edge_list[k]? := by
    rw [fillGap_getElem? insideE inside ne',if_neg ne]
  refine ⟨edge,found,?_⟩
  have front : slice (fillGap edge_list e last) first e = slice edge_list first e :=
    slice_congr fun k _ below => kept k (by omega) (by omega)
  rcases Nat.lt_or_eq_of_le high with before | rfl
  · have back : slice (fillGap edge_list e last) (e + 1) last = slice edge_list (e + 1) last :=
      slice_congr fun k above below => kept k (by omega) (by omega)
    have gap : (fillGap edge_list e last)[e]? = some moved := by
      rw [fillGap_getElem? insideE inside (by omega),if_pos rfl,atLast]
    calc slice edge_list first (last + 1)
        = slice edge_list first e ++ edge :: slice edge_list (e + 1) last ++ [moved] := by
          rw [slice_snoc (low.trans high) atLast,← slice_append low high,slice_cons before found]
      List.Perm _ (edge :: (slice edge_list first e ++ moved :: slice edge_list (e + 1) last)) := by
          rw [append_assoc,cons_append]
          refine perm_middle.trans (.cons edge (.append_left _ ?_))
          exact perm_append_singleton ..
      _ = edge :: slice (fillGap edge_list e last) first last := by
          rw [← slice_append low high,front,slice_cons before gap,back]
  · rw [slice_snoc low found,front]
    exact perm_append_singleton ..

end Slots

namespace DynamicGraph
section
variable {Data : Type} {graph graph' : DynamicGraph Data} {u v n e : ℕ}

def Owns (graph : DynamicGraph Data) (n : ℕ) (e : ℕ) : Prop := graph.BeginEdges n ≤ e ∧ e < graph.EndEdges n

/-- The ranges are in the array, their edges lead to nodes, and no slot is in two of them. -/
structure Sound (graph : DynamicGraph Data) : Prop where
  bounded : graph.number_of_nodes < 2 ^ 32
  nodes : graph.node_array.length = graph.number_of_nodes
  inside : ∀ n < graph.number_of_nodes, graph.EndEdges n ≤ graph.edge_list.length
  targets : ∀ n < graph.number_of_nodes, ∀ edge ∈ graph.adjacent n, edge.target < graph.number_of_nodes
  apart : ∀ m < graph.number_of_nodes, ∀ n < graph.number_of_nodes, ∀ e, graph.Owns m e → graph.Owns n e → m = n

private theorem Sound.edge_at (sound : graph.Sound) (here : n < graph.number_of_nodes) (owns : graph.Owns n e) :
    ∃ edge, graph.edge_list[e]? = some edge ∧ edge.target < graph.number_of_nodes := by
  have inside : e < graph.edge_list.length := owns.2.trans_le (sound.inside n here)
  refine ⟨_,getElem?_eq_getElem inside,?_⟩
  exact sound.targets n here _ (mem_slice.mpr ⟨e,owns.1,owns.2,getElem?_eq_getElem inside⟩)

private theorem Sound.not_dummy (sound : graph.Sound) (here : n < graph.number_of_nodes) (owns : graph.Owns n e) :
    isDummy graph.edge_list e = false := by
  cases dummy : isDummy graph.edge_list e with
  | false => rfl
  | true =>
    obtain ⟨edge,found,special⟩ := isDummy_spec dummy
    obtain ⟨edge',found',target⟩ := sound.edge_at here owns
    obtain rfl := Option.some.inj (found.symm.trans found')
    rw [special] at target
    exact absurd (Nat.le_of_lt_succ sound.bounded) (not_le.mpr target)

/-- The graph has a new range for one node, and the slots of the others are as they were. -/
structure Changed (graph graph' : DynamicGraph Data) (u : ℕ) (node : Node) : Prop where
  nodes : graph'.number_of_nodes = graph.number_of_nodes
  node_array : graph'.node_array = graph.node_array.set u node
  grows : graph.edge_list.length ≤ graph'.edge_list.length
  fits : node.first_edge + node.edges ≤ graph'.edge_list.length
  kept : ∀ v < graph.number_of_nodes, v ≠ u → ∀ e, graph.Owns v e → graph'.edge_list[e]? = graph.edge_list[e]?
  free : ∀ v < graph.number_of_nodes, v ≠ u → ∀ e, graph.Owns v e → ¬ (node.first_edge ≤ e ∧ e < node.first_edge + node.edges)
  targets : ∀ edge ∈ slice graph'.edge_list node.first_edge (node.first_edge + node.edges), edge.target < graph.number_of_nodes

variable {node : Node}

private theorem Changed.node_self (sound : graph.Sound) (here : u < graph.number_of_nodes) (changed : Changed graph graph' u node) :
    graph'.node u = node := by
  rw [DynamicGraph.node,changed.node_array,getD_eq_getElem?_getD,getElem?_set_self (sound.nodes.symm ▸ here)]
  rfl

private theorem Changed.node_other (changed : Changed graph graph' u node) (other : v ≠ u) : graph'.node v = graph.node v := by
  rw [DynamicGraph.node,changed.node_array,getD_eq_getElem?_getD,getElem?_set_ne (Ne.symm other),DynamicGraph.node,
    getD_eq_getElem?_getD]

private theorem Changed.adjacent_self (sound : graph.Sound) (here : u < graph.number_of_nodes) (changed : Changed graph graph' u node) :
    graph'.adjacent u = slice graph'.edge_list node.first_edge (node.first_edge + node.edges) := by
  rw [adjacent,BeginEdges,EndEdges,changed.node_self sound here]

private theorem Changed.adjacent_other (changed : Changed graph graph' u node) (there : v < graph.number_of_nodes) (other : v ≠ u) :
    graph'.adjacent v = graph.adjacent v := by
  rw [adjacent,adjacent,BeginEdges,EndEdges,changed.node_other other]
  exact slice_congr fun k low high => changed.kept v there other k ⟨low,high⟩

private theorem Changed.sound (sound : graph.Sound) (here : u < graph.number_of_nodes) (changed : Changed graph graph' u node) :
    graph'.Sound := by
  have self := changed.node_self sound here
  have owns (v e : ℕ) (other : v ≠ u) (owned : graph'.Owns v e) : graph.Owns v e := by
    rw [Owns,BeginEdges,EndEdges,changed.node_other other] at owned
    exact owned
  have owned (e : ℕ) (owned : graph'.Owns u e) : node.first_edge ≤ e ∧ e < node.first_edge + node.edges := by
    rw [Owns,BeginEdges,EndEdges,self] at owned
    exact owned
  refine ⟨changed.nodes ▸ sound.bounded,by rw [changed.node_array,length_set,changed.nodes,sound.nodes],?_,?_,?_⟩
  · intro v there
    rw [changed.nodes] at there
    rw [EndEdges]
    by_cases this : v = u
    · rw [this,self]
      exact changed.fits
    · rw [changed.node_other this]
      exact (sound.inside v there).trans changed.grows
  · intro v there
    rw [changed.nodes] at there ⊢
    by_cases this : v = u
    · rw [this,changed.adjacent_self sound here]
      exact changed.targets
    · rw [changed.adjacent_other there this]
      exact sound.targets v there
  · intro v there w there' e inV inW
    rw [changed.nodes] at there there'
    by_cases thisV : v = u
    · subst thisV
      by_contra different
      exact changed.free w there' (Ne.symm different) e (owns w e (Ne.symm different) inW) (owned e inV)
    · by_cases thisW : w = u
      · subst thisW
        exact absurd (owned e inW) (changed.free v there thisV e (owns v e thisV inV))
      · exact sound.apart v there w there' e (owns v e thisV inV) (owns w e thisW inW)

/-! ### One edge more or less -/

/-- A range of a node that has a free slot behind it, with the array it is in. -/
structure Room (graph : DynamicGraph Data) (u : ℕ) (edge_list : List (Edge Data)) (node : Node) : Prop where
  edges : node.edges = (graph.node u).edges
  grows : graph.edge_list.length ≤ edge_list.length
  fits : node.first_edge + node.edges < edge_list.length
  kept : ∀ v < graph.number_of_nodes, v ≠ u → ∀ e, graph.Owns v e → edge_list[e]? = graph.edge_list[e]?
  free : ∀ v < graph.number_of_nodes, v ≠ u → ∀ e, graph.Owns v e → ¬ (node.first_edge ≤ e ∧ e < node.first_edge + node.edges + 1)
  same : (slice edge_list node.first_edge (node.first_edge + node.edges)).Perm (graph.adjacent u)

private theorem room_behind (sound : graph.Sound) (here : u < graph.number_of_nodes)
    (dummy : isDummy graph.edge_list ((graph.node u).first_edge + (graph.node u).edges) = true) :
    Room graph u graph.edge_list (graph.node u) := by
  obtain ⟨edge,found,-⟩ := isDummy_spec dummy
  refine ⟨rfl,le_rfl,(List.getElem?_eq_some_iff.mp found).1,fun _ _ _ _ _ => rfl,?_,Perm.refl _⟩
  intro v there other e owns range
  by_cases last : e = (graph.node u).first_edge + (graph.node u).edges
  · have filled := sound.not_dummy there owns
    rw [last,dummy] at filled
    cases filled
  · exact other (sound.apart v there u here e owns ⟨range.1,by rw [EndEdges]; omega⟩)

private theorem room_before (sound : graph.Sound) (here : u < graph.number_of_nodes) (positive : (graph.node u).first_edge ≠ 0)
    (dummy : isDummy graph.edge_list ((graph.node u).first_edge - 1) = true) :
    Room graph u (copy graph.edge_list ((graph.node u).first_edge - 1) ((graph.node u).first_edge - 1 + (graph.node u).edges))
      ⟨(graph.node u).first_edge - 1,(graph.node u).edges⟩ := by
  obtain ⟨edge,found,-⟩ := isDummy_spec dummy
  have first := (List.getElem?_eq_some_iff.mp found).1
  have inside : (graph.node u).first_edge + (graph.node u).edges ≤ graph.edge_list.length := sound.inside u here
  have last : (graph.node u).first_edge - 1 + (graph.node u).edges < graph.edge_list.length := by omega
  refine ⟨rfl,length_copy.ge,by rw [length_copy]; exact last,?_,?_,?_⟩
  · intro v there other e owns
    rw [copy_getElem? first last,if_neg]
    rintro rfl
    have filled := sound.not_dummy there owns
    rw [dummy] at filled
    cases filled
  · intro v there other e owns range
    by_cases before : e = (graph.node u).first_edge - 1
    · have filled := sound.not_dummy there owns
      rw [before,dummy] at filled
      cases filled
    · simp only at range
      exact other (sound.apart v there u here e owns ⟨by rw [BeginEdges]; omega,by rw [EndEdges]; omega⟩)
  · rw [adjacent,BeginEdges,EndEdges]
    simp only
    have reads := copy_getElem? first last
    generalize (graph.node u).first_edge = first_edge at positive first inside last reads ⊢
    generalize (graph.node u).edges = edges at inside last reads ⊢
    cases edges with
    | zero =>
      simp only [Nat.add_zero,slice,Nat.sub_self,take_zero]
      exact Perm.refl _
    | succ edges =>
      obtain ⟨moved,atLast⟩ : ∃ moved, graph.edge_list[first_edge - 1 + (edges + 1)]? = some moved := ⟨_,getElem?_eq_getElem last⟩
      have front := reads (first_edge - 1)
      rw [if_pos rfl,atLast] at front
      have rest : slice (copy graph.edge_list (first_edge - 1) (first_edge - 1 + (edges + 1))) (first_edge - 1 + 1) (first_edge + edges) =
          slice graph.edge_list (first_edge - 1 + 1) (first_edge + edges) := by
        apply slice_congr
        intro k low high
        rw [reads,if_neg (by omega)]
      rw [show first_edge - 1 + (edges + 1) = first_edge + edges by omega] at front rest atLast ⊢
      rw [slice_cons (by omega) front,rest,← Nat.add_assoc,slice_snoc (by omega) atLast,Nat.sub_add_cancel (by omega)]
      exact (perm_append_singleton ..).symm

theorem moveEdges_spec (edge_list : List (Edge Data)) {first_edge newFirstEdge count : ℕ} (before : first_edge + count ≤ newFirstEdge)
    (inside : newFirstEdge + count ≤ edge_list.length) :
    let moved := (List.range count).foldl (fun edge_list i =>
      makeDummy (copy edge_list (newFirstEdge + i) (first_edge + i)) (first_edge + i)) edge_list
    moved.length = edge_list.length ∧ (∀ i < count, moved[newFirstEdge + i]? = edge_list[first_edge + i]?) ∧
      ∀ e < newFirstEdge, ¬ (first_edge ≤ e ∧ e < first_edge + count) → moved[e]? = edge_list[e]? := by
  induction count with
  | zero => simp
  | succ count ih =>
    obtain ⟨length,moved,kept⟩ := ih (by omega) (by omega)
    simp only [range_succ,foldl_append,foldl_cons,foldl_nil] at length moved kept ⊢
    generalize (List.range count).foldl (fun edge_list i =>
      makeDummy (copy edge_list (newFirstEdge + i) (first_edge + i)) (first_edge + i)) edge_list = edge_list' at length moved kept ⊢
    have reads := @copy_getElem? Data edge_list' (newFirstEdge + count) (first_edge + count) (by omega) (by omega)
    refine ⟨by rw [length_makeDummy,length_copy,length],?_,?_⟩
    · intro i less
      rw [makeDummy_getElem? (by omega),reads]
      by_cases last : i = count
      · rw [if_pos (by omega),last]
        exact kept _ (by omega) (by omega)
      · rw [if_neg (by omega)]
        exact moved i (by omega)
    · intro e low outside
      rw [makeDummy_getElem? (by omega),reads,if_neg (by omega)]
      exact kept e low (by omega)

private theorem makeDummies_spec (edge_list : List (Edge Data)) (slots : List ℕ) (newFirstEdge : ℕ) :
    let cleared := slots.foldl (fun edge_list i => makeDummy edge_list (newFirstEdge + i)) edge_list
    cleared.length = edge_list.length ∧ ∀ e, (∀ i ∈ slots, e ≠ newFirstEdge + i) → cleared[e]? = edge_list[e]? := by
  induction slots generalizing edge_list with
  | nil => simp
  | cons slot slots ih =>
    obtain ⟨length,kept⟩ := ih (makeDummy edge_list (newFirstEdge + slot))
    refine ⟨length.trans length_makeDummy,?_⟩
    intro e others
    rw [foldl_cons,kept e fun i member => others i (.tail _ member)]
    exact makeDummy_getElem? (others slot (.head _))

private theorem room_at_end (sound : graph.Sound) (here : u < graph.number_of_nodes) (uninitialized : ℕ → Edge Data) :
    Room graph u (moveToEnd uninitialized graph.edge_list (graph.node u)).1 (moveToEnd uninitialized graph.edge_list (graph.node u)).2 := by
  have inside : (graph.node u).first_edge + (graph.node u).edges ≤ graph.edge_list.length := sound.inside u here
  let newSize := (graph.node u).edges * 11 / 10 + 2
  have spare : (graph.node u).edges + 2 ≤ newSize := by
    have grown : (graph.node u).edges ≤ (graph.node u).edges * 11 / 10 := by omega
    exact Nat.add_le_add_right grown 2
  let grown := resize graph.edge_list uninitialized (graph.edge_list.length + newSize)
  have length : grown.length = graph.edge_list.length + newSize := length_resize uninitialized (Nat.le_add_right ..)
  have old (e : ℕ) (low : e < graph.edge_list.length) : grown[e]? = graph.edge_list[e]? :=
    resize_getElem? uninitialized (Nat.le_add_right ..) low
  obtain ⟨movedLength,moved,kept⟩ := moveEdges_spec grown inside (by omega)
  obtain ⟨clearedLength,cleared⟩ := makeDummies_spec
    ((List.range (graph.node u).edges).foldl (fun edge_list i =>
      makeDummy (copy edge_list (graph.edge_list.length + i) ((graph.node u).first_edge + i)) ((graph.node u).first_edge + i)) grown)
    (List.range' ((graph.node u).edges + 1) (newSize - ((graph.node u).edges + 1))) graph.edge_list.length
  have early (e : ℕ) (low : e < graph.edge_list.length + (graph.node u).edges) :
      ∀ i ∈ List.range' ((graph.node u).edges + 1) (newSize - ((graph.node u).edges + 1)), e ≠ graph.edge_list.length + i := by
    intro i member
    have := (mem_range'_1.mp member).1
    omega
  have room : graph.edge_list.length + (graph.node u).edges < (moveToEnd uninitialized graph.edge_list (graph.node u)).1.length := by
    refine Nat.lt_of_lt_of_eq ?_ (clearedLength.trans (movedLength.trans length)).symm
    omega
  refine ⟨rfl,Nat.le_of_lt (Nat.lt_of_le_of_lt (Nat.le_add_right ..) room),room,?_,?_,?_⟩
  · intro v there other e owns
    have low : e < graph.edge_list.length := owns.2.trans_le (sound.inside v there)
    refine (cleared e (early e (by omega))).trans ((kept e low ?_).trans (old e low))
    intro range
    exact other (sound.apart v there u here e owns range)
  · rintro v there - e owns ⟨low,-⟩
    have := owns.2.trans_le (sound.inside v there)
    exact absurd low (Nat.not_le.mpr this)
  · refine Perm.of_eq (ext_getElem? fun i => ?_)
    rw [adjacent,slice_getElem?,slice_getElem?,BeginEdges,EndEdges]
    simp only [moveToEnd,Nat.add_sub_cancel_left]
    by_cases below : i < (graph.node u).edges
    · rw [if_pos below,if_pos below]
      refine (cleared _ (early _ (by omega))).trans ((moved i below).trans (old _ (by omega)))
    · rw [if_neg below,if_neg below]

theorem makeRoom_room (sound : graph.Sound) (here : u < graph.number_of_nodes) (uninitialized : ℕ → Edge Data) :
    Room graph u (makeRoom uninitialized graph.edge_list (graph.node u)).1 (makeRoom uninitialized graph.edge_list (graph.node u)).2 := by
  rw [makeRoom]
  by_cases taken : ((graph.node u).edges + (graph.node u).first_edge = graph.edge_list.length ||
      !isDummy graph.edge_list ((graph.node u).edges + (graph.node u).first_edge)) = true
  · rw [if_pos taken]
    by_cases before : ((graph.node u).first_edge ≠ 0 && isDummy graph.edge_list ((graph.node u).first_edge - 1)) = true
    · rw [if_pos before]
      simp only [ne_eq,decide_not,Bool.and_eq_true,Bool.not_eq_true',decide_eq_false_iff_not] at before
      exact room_before sound here before.1 before.2
    · rw [if_neg before]
      exact room_at_end sound here uninitialized
  · rw [if_neg taken]
    simp only [Bool.or_eq_true,decide_eq_true_eq,Bool.not_eq_true',not_or,Bool.not_eq_false] at taken
    exact room_behind sound here (Nat.add_comm .. ▸ taken.2)

/-- What an operation on the edges of one node leaves: the edges of the others. -/
structure Keeps (graph graph' : DynamicGraph Data) (u : ℕ) : Prop where
  sound : graph'.Sound
  nodes : graph'.number_of_nodes = graph.number_of_nodes
  others : ∀ v < graph.number_of_nodes, v ≠ u → graph'.adjacent v = graph.adjacent v

private theorem Changed.keeps (sound : graph.Sound) (here : u < graph.number_of_nodes) (changed : Changed graph graph' u node) :
    Keeps graph graph' u :=
  ⟨changed.sound sound here,changed.nodes,fun _ there other => changed.adjacent_other there other⟩

private theorem Room.write (sound : graph.Sound) (here : u < graph.number_of_nodes) {edge_list : List (Edge Data)} (room : Room graph u edge_list node)
    {edge : Edge Data} (target : edge.target < graph.number_of_nodes) (number_of_edges : ℕ) :
    let graph' : DynamicGraph Data := ⟨graph.number_of_nodes,number_of_edges,graph.node_array.set u ⟨node.first_edge,node.edges + 1⟩,
      edge_list.set (node.first_edge + node.edges) edge⟩
    Keeps graph graph' u ∧ (graph'.adjacent u).Perm (edge :: graph.adjacent u) := by
  intro graph'
  have written : slice graph'.edge_list node.first_edge (node.first_edge + (node.edges + 1)) =
      slice edge_list node.first_edge (node.first_edge + node.edges) ++ [edge] := by
    rw [← Nat.add_assoc,slice_snoc (Nat.le_add_right ..) (getElem?_set_self room.fits)]
    congr 1
    exact slice_congr fun k _ below => getElem?_set_ne (Nat.ne_of_gt below)
  have changed : Changed graph graph' u ⟨node.first_edge,node.edges + 1⟩ := by
    refine ⟨rfl,rfl,?_,?_,?_,room.free,?_⟩
    · rw [length_set]
      exact room.grows
    · rw [length_set]
      exact room.fits
    · intro v there other e owns
      have apart : node.first_edge + node.edges ≠ e := fun same =>
        room.free v there other e owns ⟨same ▸ Nat.le_add_right ..,same ▸ Nat.lt_succ_self _⟩
      exact (getElem?_set_ne apart).trans (room.kept v there other e owns)
    · intro edge' member
      simp only [written,mem_append,mem_singleton] at member
      rcases member with old | rfl
      · exact sound.targets u here edge' (room.same.mem_iff.mp old)
      · exact target
  refine ⟨changed.keeps sound here,?_⟩
  rw [changed.adjacent_self sound here,written]
  exact (perm_append_singleton ..).trans (room.same.cons edge)

theorem InsertEdge_spec (uninitialized : ℕ → Edge Data) (sound : graph.Sound) {source target : ℕ} (here : source < graph.number_of_nodes)
    (there : target < graph.number_of_nodes) (data : Data) :
    Keeps graph (graph.InsertEdge uninitialized source target data).1 source ∧
      ((graph.InsertEdge uninitialized source target data).1.adjacent source).Perm (⟨target,data⟩ :: graph.adjacent source) :=
  (makeRoom_room sound here uninitialized).write sound here there _

private theorem changed_within (sound : graph.Sound) (here : u < graph.number_of_nodes) (edge_list : List (Edge Data)) {edges : ℕ}
    (length : edge_list.length = graph.edge_list.length) (fewer : edges ≤ (graph.node u).edges)
    (kept : ∀ e, ¬ graph.Owns u e → edge_list[e]? = graph.edge_list[e]?)
    (members : ∀ edge ∈ slice edge_list (graph.BeginEdges u) (graph.BeginEdges u + edges), edge ∈ graph.adjacent u) (number_of_edges : ℕ) :
    Changed graph ⟨graph.number_of_nodes,number_of_edges,graph.node_array.set u ⟨graph.BeginEdges u,edges⟩,edge_list⟩ u
      ⟨graph.BeginEdges u,edges⟩ := by
  have inside := sound.inside u here
  have range : graph.BeginEdges u + edges ≤ graph.EndEdges u := Nat.add_le_add_left fewer _
  refine ⟨rfl,rfl,length.ge,(range.trans inside).trans length.ge,?_,?_,fun edge member => sound.targets u here edge (members edge member)⟩
  · intro v there other e owns
    exact kept e fun both => other (sound.apart v there u here e owns both)
  · intro v there other e owns within
    exact other (sound.apart v there u here e owns ⟨within.1,within.2.trans_le range⟩)

theorem DeleteEdge_spec (sound : graph.Sound) {source : ℕ} (here : source < graph.number_of_nodes) (owns : graph.Owns source e) :
    Keeps graph (graph.DeleteEdge source e) source ∧ ∃ edge, graph.edge_list[e]? = some edge ∧
      (graph.adjacent source).Perm (edge :: (graph.DeleteEdge source e).adjacent source) := by
  have inside := sound.inside source here
  have some : (graph.node source).edges - 1 + 1 = (graph.node source).edges := by
    have := owns.1.trans_lt owns.2
    rw [BeginEdges,EndEdges] at this
    omega
  have last : graph.BeginEdges source + ((graph.node source).edges - 1) + 1 = graph.EndEdges source := by
    rw [Nat.add_assoc,some]
    rfl
  have before : e ≤ graph.BeginEdges source + ((graph.node source).edges - 1) := Nat.le_of_lt_succ (owns.2.trans_eq last.symm)
  have insideLast : graph.BeginEdges source + ((graph.node source).edges - 1) < graph.edge_list.length := Nat.lt_of_lt_of_le (by omega) inside
  obtain ⟨edge,found,permutation⟩ := fillGap_perm owns.1 before insideLast
  rw [last] at permutation
  have changed := changed_within sound here
    (fillGap graph.edge_list e (graph.BeginEdges source + ((graph.node source).edges - 1)))
    length_fillGap (Nat.sub_le (graph.node source).edges 1) (fun k notOwned => ?_)
    (fun edge' member => permutation.symm.subset (.tail _ member)) (graph.number_of_edges - 1)
  · refine ⟨changed.keeps sound here,edge,found,?_⟩
    rw [show (graph.DeleteEdge source e).adjacent source = _ from changed.adjacent_self sound here]
    exact permutation
  · have notLast : k ≠ graph.BeginEdges source + ((graph.node source).edges - 1) := by
      rintro rfl
      exact notOwned ⟨Nat.le_add_right ..,by omega⟩
    rw [fillGap_getElem? (before.trans_lt insideLast) insideLast notLast,if_neg]
    rintro rfl
    exact notOwned owns

/-- While edges to a target are deleted: slots outside are as they were, and none before `i` leads to the target. -/
structure Deleting (original edge_list : List (Edge Data)) (target : ℕ) (first iend i deleted : ℕ) : Prop where
  length : edge_list.length = original.length
  low : first ≤ i
  high : first + deleted ≤ iend
  kept : ∀ e, ¬ (first ≤ e ∧ e < iend) → edge_list[e]? = original[e]?
  removed : ∃ removed, removed.length = deleted ∧ (∀ edge ∈ removed, edge.target = target) ∧
    (slice original first iend).Perm (removed ++ slice edge_list first (iend - deleted))
  passed : ∀ e, first ≤ e → e < i → e < iend - deleted → leadsTo edge_list e target = false

variable {original edge_list : List (Edge Data)} {target : ℕ} {first iend i deleted fuel : ℕ}

private theorem leadsTo_eq_true : leadsTo edge_list e target = true ↔ ∃ edge, edge_list[e]? = some edge ∧ edge.target = target := by
  rw [leadsTo]
  cases edge_list[e]? <;> simp

private theorem leadsTo_congr {edge_list' : List (Edge Data)} (same : edge_list'[e]? = edge_list[e]?) :
    leadsTo edge_list' e target = leadsTo edge_list e target := by
  rw [leadsTo,leadsTo,same]

private theorem Deleting.fill (deleting : Deleting original edge_list target first iend i deleted) (inside : iend ≤ original.length)
    (before : i < iend - deleted) (leads : leadsTo edge_list i target = true) :
    Deleting original (fillGap edge_list i (iend - (deleted + 1))) target first iend i (deleted + 1) := by
  have low := deleting.low
  have last : iend - (deleted + 1) + 1 = iend - deleted := by omega
  have insideLast : iend - (deleted + 1) < edge_list.length := by rw [deleting.length]; omega
  have insideI : i < edge_list.length := by rw [deleting.length]; omega
  obtain ⟨edge,found,permutation⟩ := fillGap_perm deleting.low (by omega) insideLast
  rw [last] at permutation
  obtain ⟨edge',found',led⟩ := leadsTo_eq_true.mp leads
  obtain rfl := Option.some.inj (found.symm.trans found')
  obtain ⟨removed,count,toTarget,all⟩ := deleting.removed
  refine ⟨length_fillGap.trans deleting.length,deleting.low,by omega,?_,⟨removed ++ [edge],?_,?_,?_⟩,?_⟩
  · intro e outside
    rw [fillGap_getElem? insideI insideLast (by omega),if_neg (by omega)]
    exact deleting.kept e outside
  · rw [length_append,count,length_singleton]
  · intro edge' member
    rcases mem_append.mp member with old | new
    · exact toTarget edge' old
    · rw [mem_singleton.mp new,led]
  · rw [append_assoc,singleton_append]
    exact all.trans (permutation.append_left removed)
  · intro e above below fewer
    have same : (fillGap edge_list i (iend - (deleted + 1)))[e]? = edge_list[e]? := by
      rw [fillGap_getElem? insideI insideLast (by omega),if_neg (by omega)]
    rw [leadsTo_congr same]
    exact deleting.passed e above below (by omega)

private theorem deleteHere_spec (deleting : Deleting original edge_list target first iend i deleted) (inside : iend ≤ original.length)
    (before : i < iend - deleted) (leads : leadsTo edge_list i target = true) (enough : iend - deleted - i ≤ fuel) :
    Deleting original (deleteHere target i iend fuel edge_list deleted).1 target first iend (i + 1)
      (deleteHere target i iend fuel edge_list deleted).2 := by
  induction fuel generalizing edge_list deleted with
  | zero => omega
  | succ fuel ih =>
    have next := deleting.fill inside before leads
    rw [deleteHere]
    by_cases again : (i < iend - (deleted + 1) && leadsTo (fillGap edge_list i (iend - (deleted + 1))) i target) = true
    · simp only [again,if_true]
      simp only [Bool.and_eq_true,decide_eq_true_eq] at again
      exact ih next again.1 again.2 (by omega)
    · simp only [again,if_false,Bool.false_eq_true]
      refine ⟨next.length,Nat.le_succ_of_le next.low,next.high,next.kept,next.removed,?_⟩
      intro e above below fewer
      rcases Nat.lt_succ_iff_lt_or_eq.mp below with earlier | rfl
      · exact next.passed e above earlier fewer
      · simpa [fewer] using again

private theorem le_deleteHere (target : ℕ) (i iend fuel : ℕ) (edge_list : List (Edge Data)) (deleted : ℕ) :
    deleted ≤ (deleteHere target i iend fuel edge_list deleted).2 := by
  induction fuel generalizing edge_list deleted with
  | zero => exact le_rfl
  | succ fuel ih =>
    rw [deleteHere]
    split
    · exact Nat.le_of_succ_le (ih _ _)
    · exact Nat.le_succ _

private theorem deleteFrom_spec (fuel : ℕ) (deleting : Deleting original edge_list target first iend i deleted) (inside : iend ≤ original.length)
    (enough : iend ≤ fuel + i + deleted) :
    ∃ i', Deleting original (deleteFrom target iend fuel i edge_list deleted).1 target first iend i'
        (deleteFrom target iend fuel i edge_list deleted).2 ∧ iend ≤ i' + (deleteFrom target iend fuel i edge_list deleted).2 := by
  induction fuel generalizing edge_list i deleted with
  | zero => exact ⟨i,deleting,by rw [Nat.zero_add] at enough; exact enough⟩
  | succ fuel ih =>
    rw [deleteFrom]
    by_cases before : i < iend - deleted
    · rw [if_pos before]
      by_cases leads : leadsTo edge_list i target = true
      · simp only [leads,if_true]
        have next := deleteHere_spec deleting inside before leads le_rfl
        have more := le_deleteHere target i iend (iend - deleted - i) edge_list deleted
        exact ih next (by omega)
      · simp only [leads,if_false,Bool.false_eq_true]
        refine ih ⟨deleting.length,Nat.le_succ_of_le deleting.low,deleting.high,deleting.kept,deleting.removed,?_⟩ (by omega)
        intro e above below fewer
        rcases Nat.lt_succ_iff_lt_or_eq.mp below with earlier | rfl
        · exact deleting.passed e above earlier fewer
        · simpa using leads
    · rw [if_neg before]
      exact ⟨i,deleting,by omega⟩

private theorem Deleting.finish (deleting : Deleting original edge_list target first iend i deleted) (finished : iend ≤ i + deleted) :
    (slice edge_list first (iend - deleted)).Perm ((slice original first iend).filter fun edge => edge.target ≠ target) ∧
      deleted = (slice original first iend).countP fun edge => edge.target = target := by
  obtain ⟨removed,count,toTarget,all⟩ := deleting.removed
  have others : ∀ edge ∈ slice edge_list first (iend - deleted), edge.target ≠ target := by
    intro edge member led
    obtain ⟨e,above,below,found⟩ := mem_slice.mp member
    have stays := deleting.passed e above (by omega) below
    rw [leadsTo_eq_true.mpr ⟨edge,found,led⟩] at stays
    cases stays
  constructor
  · have filtered := all.filter fun edge => decide (edge.target ≠ target)
    have none : removed.filter (fun edge => decide (edge.target ≠ target)) = [] :=
      filter_eq_nil_iff.mpr fun edge member => by simp [toTarget edge member]
    have rest : (slice edge_list first (iend - deleted)).filter (fun edge => decide (edge.target ≠ target)) =
        slice edge_list first (iend - deleted) := filter_eq_self.mpr fun edge member => by simp [others edge member]
    rw [filter_append,none,nil_append,rest] at filtered
    exact filtered.symm
  · have counted := all.countP_eq fun edge => decide (edge.target = target)
    have those : removed.countP (fun edge => decide (edge.target = target)) = removed.length :=
      countP_eq_length.mpr fun edge member => by simp [toTarget edge member]
    have rest : (slice edge_list first (iend - deleted)).countP (fun edge => decide (edge.target = target)) = 0 :=
      countP_eq_zero.mpr fun edge member => by simp [others edge member]
    rw [counted,countP_append,those,rest,count]
    rfl

/-- The edges to the target go, the others stay. -/
theorem DeleteEdgesTo_spec (sound : graph.Sound) {source : ℕ} (here : source < graph.number_of_nodes) (target : ℕ) :
    Keeps graph (graph.DeleteEdgesTo source target).1 source ∧
      ((graph.DeleteEdgesTo source target).1.adjacent source).Perm ((graph.adjacent source).filter fun edge => edge.target ≠ target) ∧
      (graph.DeleteEdgesTo source target).2 = (graph.adjacent source).countP fun edge => edge.target = target := by
  have inside := sound.inside source here
  have range : graph.EndEdges source = graph.BeginEdges source + (graph.node source).edges := rfl
  have start : Deleting graph.edge_list graph.edge_list target (graph.BeginEdges source) (graph.EndEdges source) (graph.BeginEdges source) 0 := by
    refine ⟨rfl,le_rfl,Nat.le_add_right ..,fun _ _ => rfl,⟨[],rfl,by simp,Perm.refl _⟩,?_⟩
    intro e above below
    omega
  obtain ⟨i,deleting,finished⟩ := deleteFrom_spec (graph.node source).edges start inside (by omega)
  obtain ⟨rest,count⟩ := deleting.finish finished
  rw [DeleteEdgesTo]
  generalize deleteFrom target (graph.EndEdges source) (graph.node source).edges (graph.BeginEdges source) graph.edge_list 0 = result
    at deleting rest count ⊢
  obtain ⟨edge_list,deleted⟩ := result
  have left : graph.EndEdges source - deleted = graph.BeginEdges source + ((graph.node source).edges - deleted) := by
    have high := deleting.high
    omega
  rw [left] at rest
  have changed := changed_within sound here edge_list deleting.length (Nat.sub_le _ deleted) deleting.kept
    (fun edge member => mem_of_mem_filter (rest.subset member)) (graph.number_of_edges - deleted)
  refine ⟨changed.keeps sound here,?_,count⟩
  have now := changed.adjacent_self sound here
  exact (Perm.of_eq now).trans rest

end
end DynamicGraph

end Osrm.DynamicGraphs
