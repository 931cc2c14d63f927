import Osrm.DynamicGraphRuns
import Osrm.PackedRows

/-!
`util/static_graph.hpp`. The edges of a node lie behind those of the node before, and an array tells where they begin.
`Renumber` copies it for the new order, gives each edge its new target and moves the edges at the end.
-/
namespace Osrm.StaticGraphs
open List
open Permutation Slices Scan PackedRows DynamicGraphs DynamicGraphs.DynamicGraph

variable {Data : Type}

abbrev EdgeArrayEntry := DynamicGraphs.Edge

/-- `node_array` has the `first_edge` of each node and one entry more. -/
structure StaticGraph (Data : Type) where
  number_of_nodes : ℕ
  number_of_edges : ℕ
  node_array : List ℕ
  edge_array : List (EdgeArrayEntry Data)
  deriving DecidableEq, Repr

def edgeToEntry (from_ : InputEdge Data) : EdgeArrayEntry Data := ⟨from_.target,from_.data⟩

/-- The search for the edges that are not of a node any more is that of `DynamicGraph`. -/
def InitializeFromSortedEdgeRange (nodes : ℕ) (edges : List (InputEdge Data)) : StaticGraph Data :=
  let (node_array,_) := (List.range nodes).foldl (fun (node_array,iter) node =>
    let iter := endOfNode edges node iter
    (node_array ++ [iter],iter)) ([0],0)
  ⟨nodes,edges.length,node_array,edges.map edgeToEntry⟩

/-- The next value of an `int`. -/
def increment (i : ℤ) : ℤ := (i + 1).bmod (2 ^ 32)
/-- The `EdgeID` that an `int` is converted to. -/
def toEdgeID (i : ℤ) : ℕ := (i % 2 ^ 32).toNat

/-- What `Renumber` has done so far. -/
structure Renumbering (Data : Type) where
  new_node_array : List ℕ
  new_edge_index : ℤ
  old_to_new_edge : List ℕ
  edge_array : List (EdgeArrayEntry Data)

def renumberEdge (old_to_new_node : List ℕ) (state : Renumbering Data) (edge : ℕ) : Renumbering Data :=
  { state with
    edge_array := state.edge_array.modify edge fun e => { e with target := old_to_new_node.getD e.target 0 }
    old_to_new_edge := state.old_to_new_edge.set edge (toEdgeID state.new_edge_index)
    new_edge_index := increment state.new_edge_index }

namespace StaticGraph

def BeginEdges (graph : StaticGraph Data) (n : ℕ) : ℕ := graph.node_array.getD n 0
def EndEdges (graph : StaticGraph Data) (n : ℕ) : ℕ := graph.node_array.getD (n + 1) 0
def GetOutDegree (graph : StaticGraph Data) (n : ℕ) : ℕ := graph.EndEdges n - graph.BeginEdges n
def GetAdjacentEdgeRange (graph : StaticGraph Data) (node : ℕ) : List ℕ :=
  List.range' (graph.BeginEdges node) (graph.EndEdges node - graph.BeginEdges node)

def GetTarget (graph : StaticGraph Data) (e : ℕ) : Option ℕ := graph.edge_array[e]?.map (·.target)
def GetEdgeData (graph : StaticGraph Data) (e : ℕ) : Option Data := graph.edge_array[e]?.map (·.data)
def adjacent (graph : StaticGraph Data) (node : ℕ) : List (Option ℕ × Option Data) :=
  (graph.GetAdjacentEdgeRange node).map fun e => (graph.GetTarget e,graph.GetEdgeData e)

def renumberNode (graph : StaticGraph Data) (old_to_new_node new_to_old_node : List ℕ) (state : Renumbering Data) (node : ℕ) :
    Renumbering Data :=
  let new_first_edge := state.new_edge_index
  let state := (graph.GetAdjacentEdgeRange (new_to_old_node.getD node 0)).foldl (renumberEdge old_to_new_node) state
  { state with new_node_array := state.new_node_array.set node (toEdgeID new_first_edge) }

def Renumber (graph : StaticGraph Data) (old_to_new_node : List ℕ) : StaticGraph Data :=
  let new_to_old_node := (List.range graph.number_of_nodes).foldl (fun new_to_old_node node =>
    new_to_old_node.set (old_to_new_node.getD node 0) node) (replicate graph.number_of_nodes 0)
  let state := (List.range graph.number_of_nodes).foldl (graph.renumberNode old_to_new_node new_to_old_node)
    ⟨replicate graph.node_array.length 0,0,replicate graph.edge_array.length SPECIAL_EDGEID,graph.edge_array⟩
  { graph with
    node_array := state.new_node_array.set (state.new_node_array.length - 1) (toEdgeID state.new_edge_index)
    edge_array := inplacePermutation state.edge_array state.old_to_new_edge }

def pack (n : ℕ) (row : ℕ → List (EdgeArrayEntry Data)) : StaticGraph Data :=
  ⟨n,start row n,(List.range (n + 1)).map (start row),packed row n⟩

section Packed
variable {row row' : ℕ → List (EdgeArrayEntry Data)} {n u i : ℕ}

private theorem pack_congr (same : ∀ u < n, row u = row' u) : pack n row = pack n row' := by
  have starts : (List.range (n + 1)).map (start row) = (List.range (n + 1)).map (start row') := by
    refine map_congr_left fun k member => start_congr fun u less => congrArg List.length (same u ?_)
    have := mem_range.mp member
    omega
  rw [pack,pack,starts,packed_congr same,start_congr fun u less => congrArg List.length (same u less)]

theorem pack_BeginEdges (row : ℕ → List (EdgeArrayEntry Data)) (here : u ≤ n) : (pack n row).BeginEdges u = start row u := by
  have inside : u < n + 1 := by omega
  simp [BeginEdges,pack,getD_eq_getElem?_getD,inside]

theorem pack_EndEdges (row : ℕ → List (EdgeArrayEntry Data)) (here : u < n) : (pack n row).EndEdges u = start row (u + 1) :=
  pack_BeginEdges row here

theorem pack_GetAdjacentEdgeRange (row : ℕ → List (EdgeArrayEntry Data)) (here : u < n) :
    (pack n row).GetAdjacentEdgeRange u = List.range' (start row u) (row u).length := by
  rw [GetAdjacentEdgeRange,pack_BeginEdges row (by omega),pack_EndEdges row here,start_succ,Nat.add_sub_cancel_left]

theorem pack_edge (here : u < n) (inside : i < (row u).length) : (pack n row).edge_array[start row u + i]? = (row u)[i]? :=
  getElem?_packed row here inside

private theorem pack_adjacent (row : ℕ → List (EdgeArrayEntry Data)) (here : u < n) :
    (pack n row).adjacent u = (row u).map fun e => (some e.target,some e.data) := by
  rw [adjacent,pack_GetAdjacentEdgeRange row here]
  apply ext_getElem (by simp)
  intro i inRange inRow
  have inside : i < (row u).length := by simpa using inRow
  have found := (pack_edge here inside).trans (getElem?_eq_getElem inside)
  simp [GetTarget,GetEdgeData,found]

end Packed

section Construction
variable {edges : List (InputEdge Data)} {nodes : ℕ}

def edgesOf (edges : List (InputEdge Data)) (u : ℕ) : List (EdgeArrayEntry Data) :=
  (edges.filter fun edge => edge.source == u).map edgeToEntry

theorem length_edgesOf (edges : List (InputEdge Data)) (u : ℕ) : (edgesOf edges u).length = degree edges u := by
  rw [edgesOf,length_map,← countP_eq_length_filter,degree]

theorem start_edgesOf (edges : List (InputEdge Data)) (u : ℕ) : start (edgesOf edges) u = earlier edges u := by
  induction u with
  | zero => simp [earlier]
  | succ u ih => rw [start_succ,ih,length_edgesOf,earlier_succ]

private theorem packed_edgesOf (sorted : SortedBySource edges) (u : ℕ) :
    packed (edgesOf edges) u = (edges.map edgeToEntry).take (earlier edges u) := by
  induction u with
  | zero => simp [earlier]
  | succ u ih =>
    have cut := (take_drop_countP sorted u).1
    rw [packed_succ,ih,earlier_succ,take_add,edgesOf,← cut,map_take,map_drop]
    rfl

/-- A graph is built from sorted edges that connect nodes, fewer than an id can tell apart. -/
structure Input (nodes : ℕ) (edges : List (InputEdge Data)) : Prop where
  sorted : SortedBySource edges
  sources : ∀ edge ∈ edges, edge.source < nodes
  targets : ∀ edge ∈ edges, edge.target < nodes
  fits : edges.length < 2 ^ 32

private theorem Input.earlier_nodes (input : Input nodes edges) : earlier edges nodes = edges.length :=
  countP_eq_length.mpr fun edge member => decide_eq_true (input.sources edge member)

theorem Input.eq_pack (input : Input nodes edges) : InitializeFromSortedEdgeRange nodes edges = pack nodes (edgesOf edges) := by
  have loop (count : ℕ) : (List.range count).foldl (fun state node =>
      (state.1 ++ [endOfNode edges node state.2],endOfNode edges node state.2)) ([0],0) =
        ((List.range (count + 1)).map (start (edgesOf edges)),start (edgesOf edges) count) := by
    induction count with
    | zero => rfl
    | succ count ih =>
      rw [range_succ,foldl_append,ih,range_succ (n := count + 1),map_append]
      simp only [foldl_cons,foldl_nil,start_edgesOf,endOfNode_eq input.sorted,map_cons,map_nil]
  have all : start (edgesOf edges) nodes = edges.length := (start_edgesOf edges nodes).trans input.earlier_nodes
  have edge_array : packed (edgesOf edges) nodes = edges.map edgeToEntry := by
    rw [packed_edgesOf input.sorted,input.earlier_nodes]
    exact take_of_length_le (by simp)
  rw [pack,all,edge_array]
  exact congrArg (fun state : List ℕ × ℕ => StaticGraph.mk nodes edges.length state.1 (edges.map edgeToEntry)) (loop nodes)

end Construction

/-! ### The new graph -/

section Renumbered
variable {old_to_new_node : List ℕ} {row : ℕ → List (EdgeArrayEntry Data)} {n k u : ℕ} {state : Renumbering Data}

def oldNode (old_to_new_node : List ℕ) (node : ℕ) : ℕ := (orderingToPermutation old_to_new_node).getD node 0
def renumbered (old_to_new_node : List ℕ) (row : ℕ → List (EdgeArrayEntry Data)) (node : ℕ) : List (EdgeArrayEntry Data) :=
  (row (oldNode old_to_new_node node)).map (rename old_to_new_node)

theorem oldNode_new (bijective : Bijective old_to_new_node) (here : u < old_to_new_node.length) :
    oldNode old_to_new_node (old_to_new_node.getD u 0) = u := by
  rw [oldNode,getD_eq_getElem?_getD,orderingToPermutation_ordering bijective here]
  rfl

theorem new_oldNode (bijective : Bijective old_to_new_node) (there : k < old_to_new_node.length) :
    oldNode old_to_new_node k < old_to_new_node.length ∧ old_to_new_node.getD (oldNode old_to_new_node k) 0 = k := by
  obtain ⟨u,here,rfl⟩ := bijective.surjective there
  rw [oldNode_new bijective here]
  exact ⟨here,rfl⟩

theorem renumbered_new (row : ℕ → List (EdgeArrayEntry Data)) (bijective : Bijective old_to_new_node) (here : u < old_to_new_node.length) :
    renumbered old_to_new_node row (old_to_new_node.getD u 0) = (row u).map (rename old_to_new_node) := by
  rw [renumbered,oldNode_new bijective here]

private theorem start_renumbered (row : ℕ → List (EdgeArrayEntry Data)) (bijective : Bijective old_to_new_node) (length : old_to_new_node.length = n) :
    start (renumbered old_to_new_node row) n = start row n := by
  subst length
  have sum (f : ℕ → List (EdgeArrayEntry Data)) (m : ℕ) : start f m = ((List.range m).map fun k => (f k).length).sum := by
    rw [start,packed,length_flatMap]
  have order : ((List.range old_to_new_node.length).map (oldNode old_to_new_node)).Perm (List.range old_to_new_node.length) := by
    have all := (orderingToPermutation_bijective bijective).perm_range
    rw [orderingToPermutation_length bijective] at all
    refine (Perm.of_eq ?_).trans all
    apply ext_getElem
    · simp [orderingToPermutation_length bijective]
    · intro i inMap inside
      simp [oldNode,inside]
  rw [sum,sum]
  have lengths := (order.map fun u => (row u).length).sum_eq
  rw [map_map] at lengths
  refine Eq.trans (congrArg List.sum (map_congr_left fun k _ => ?_)) lengths
  simp [renumbered]

private theorem increment_bmod (c : ℕ) : increment ((c : ℤ).bmod (2 ^ 32)) = ((c + 1 : ℕ) : ℤ).bmod (2 ^ 32) := by
  rw [increment,Int.bmod_add_bmod,Nat.cast_succ]

private theorem toEdgeID_bmod {c : ℕ} (fits : c < 2 ^ 32) : toEdgeID ((c : ℤ).bmod (2 ^ 32)) = c := by
  have same : (c : ℤ).bmod (2 ^ 32) % 2 ^ 32 = c % 2 ^ 32 := Int.bmod_emod
  rw [toEdgeID,same]
  omega

/-- `old_to_new_edge[edge] = new_edge_index++`. -/
def number (numbers : List ℕ × ℤ) (edge : ℕ) : List ℕ × ℤ := (numbers.1.set edge (toEdgeID numbers.2),increment numbers.2)

private theorem renumberEdges_eq (state : Renumbering Data) (l : List ℕ) :
    l.foldl (renumberEdge old_to_new_node) state =
      ⟨state.new_node_array,(l.foldl number (state.old_to_new_edge,state.new_edge_index)).2,
        (l.foldl number (state.old_to_new_edge,state.new_edge_index)).1,
        l.foldl (fun edges e => edges.modify e (rename old_to_new_node)) state.edge_array⟩ := by
  induction l generalizing state with
  | nil => rfl
  | cons e l ih =>
    rw [foldl_cons,ih]
    rfl

private theorem number_row (marks : ℕ → List ℕ) (c : ℕ) (here : u < n) (fits : c + (marks u).length ≤ 2 ^ 32) :
    (List.range' (start marks u) (marks u).length).foldl number (packed marks n,(c : ℤ).bmod (2 ^ 32)) =
      (packed (Function.update marks u (List.range' c (marks u).length)) n,((c + (marks u).length : ℕ) : ℤ).bmod (2 ^ 32)) := by
  have counted := foldl_set_row (fun c : ℕ => toEdgeID ((c : ℤ).bmod (2 ^ 32))) c marks here
  have numbers : (List.range' c (marks u).length).map (fun c : ℕ => toEdgeID ((c : ℤ).bmod (2 ^ 32))) =
      List.range' c (marks u).length := by
    refine (map_congr_left fun c' member => ?_).trans (map_id _)
    have := mem_range'_1.mp member
    exact toEdgeID_bmod (by omega)
  rw [numbers] at counted
  refine (foldl_hom (fun s : List ℕ × ℕ => (s.1,(s.2 : ℤ).bmod (2 ^ 32))) fun s e => ?_).trans
    (congrArg (fun s : List ℕ × ℕ => (s.1,(s.2 : ℤ).bmod (2 ^ 32))) counted)
  rw [number,increment_bmod]

/-- The marks of the edges: the new ids of those of nodes whose new numbers are small. -/
def marks (old_to_new_node : List ℕ) (row : ℕ → List (EdgeArrayEntry Data)) (k u : ℕ) : List ℕ :=
  if old_to_new_node.getD u 0 < k then
    List.range' (start (renumbered old_to_new_node row) (old_to_new_node.getD u 0)) (row u).length
  else replicate (row u).length SPECIAL_EDGEID

/-- The edges, of which those of nodes whose new numbers are small lead to the new targets. -/
def changed (old_to_new_node : List ℕ) (row : ℕ → List (EdgeArrayEntry Data)) (k u : ℕ) : List (EdgeArrayEntry Data) :=
  if old_to_new_node.getD u 0 < k then (row u).map (rename old_to_new_node) else row u

private theorem length_marks (k u : ℕ) : (marks old_to_new_node row k u).length = (row u).length := by
  rw [marks]
  split <;> simp

private theorem length_changed (k u : ℕ) : (changed old_to_new_node row k u).length = (row u).length := by
  rw [changed]
  split <;> simp

structure Renumbered (old_to_new_node : List ℕ) (row : ℕ → List (EdgeArrayEntry Data)) (n k : ℕ) (state : Renumbering Data) :
    Prop where
  nodes : state.new_node_array = (List.range k).map (start (renumbered old_to_new_node row)) ++ replicate (n + 1 - k) 0
  index : state.new_edge_index = (start (renumbered old_to_new_node row) k : ℤ).bmod (2 ^ 32)
  numbers : state.old_to_new_edge = packed (marks old_to_new_node row k) n
  edges : state.edge_array = packed (changed old_to_new_node row k) n

private theorem update_done {α : Type} {f : ℕ → ℕ → List α} {new : List α} (bijective : Bijective old_to_new_node)
    (length : old_to_new_node.length = n) (done : f (k + 1) (oldNode old_to_new_node k) = new)
    (others : ∀ u, old_to_new_node.getD u 0 ≠ k → f (k + 1) u = f k u) :
    packed (Function.update (f k) (oldNode old_to_new_node k) new) n = packed (f (k + 1)) n := by
  refine packed_congr fun u here => ?_
  by_cases this : u = oldNode old_to_new_node k
  · rw [this,Function.update_self,done]
  · rw [Function.update_of_ne this,others]
    intro same
    exact this (same ▸ (oldNode_new bijective (length.symm ▸ here)).symm)

private theorem lt_succ_iff_of_ne (other : u ≠ k) : u < k + 1 ↔ u < k := by omega

private theorem Renumbered.step (bijective : Bijective old_to_new_node) (length : old_to_new_node.length = n)
    (fits : start row n < 2 ^ 32) {new_to_old_node : List ℕ} (new_to_old : new_to_old_node.getD k 0 = oldNode old_to_new_node k)
    (there : k < n) (loop : Renumbered old_to_new_node row n k state) :
    Renumbered old_to_new_node row n (k + 1) ((pack n row).renumberNode old_to_new_node new_to_old_node state k) := by
  obtain ⟨here,back⟩ := new_oldNode bijective (length.symm ▸ there)
  rw [length] at here
  have small : start (renumbered old_to_new_node row) (k + 1) < 2 ^ 32 := by
    have bound := start_mono (renumbered old_to_new_node row) (show k + 1 ≤ n from there)
    rw [start_renumbered row bijective length] at bound
    omega
  have next := start_succ (renumbered old_to_new_node row) k
  rw [show (renumbered old_to_new_node row k).length = (row (oldNode old_to_new_node k)).length from length_map ..] at next
  -- the ids of the edges of the node
  have numbered := number_row (marks old_to_new_node row k) (start (renumbered old_to_new_node row) k) here
    (by rw [length_marks]; omega)
  rw [start_congr fun v _ => length_marks k v,length_marks,← next] at numbered
  -- the targets of the edges of the node
  have moved := foldl_modify_row (rename old_to_new_node) (changed old_to_new_node row k) here
  rw [start_congr fun v _ => length_changed k v,length_changed] at moved
  rw [renumberNode,new_to_old,pack_GetAdjacentEdgeRange row here,renumberEdges_eq,loop.numbers,loop.index,loop.edges,numbered,moved]
  constructor
  · obtain ⟨rest,left⟩ : ∃ rest, n + 1 - k = rest + 1 := ⟨n - k,by omega⟩
    simp only
    rw [toEdgeID_bmod (by omega),loop.nodes,left,show n + 1 - (k + 1) = rest by omega]
    simp [range_succ,replicate_succ]
  · simp only
  · refine update_done bijective length ?_ fun u other => ?_
    · rw [marks,back,if_pos (Nat.lt_succ_self k)]
    · simp only [marks,lt_succ_iff_of_ne other]
  · refine update_done bijective length ?_ fun u other => ?_
    · rw [changed,changed,back,if_pos (Nat.lt_succ_self k),if_neg (lt_irrefl k)]
    · simp only [changed,lt_succ_iff_of_ne other]

private theorem Renumbered.loop (bijective : Bijective old_to_new_node) (length : old_to_new_node.length = n)
    (fits : start row n < 2 ^ 32) {new_to_old_node : List ℕ}
    (new_to_old : ∀ k < n, new_to_old_node.getD k 0 = oldNode old_to_new_node k) (within : k ≤ n) :
    Renumbered old_to_new_node row n k ((List.range k).foldl ((pack n row).renumberNode old_to_new_node new_to_old_node)
      ⟨replicate (n + 1) 0,0,replicate (start row n) SPECIAL_EDGEID,packed row n⟩) := by
  induction k with
  | zero =>
    refine ⟨rfl,by simp,?_,?_⟩
    · have unmarked : marks old_to_new_node row 0 = fun u => replicate (row u).length SPECIAL_EDGEID := rfl
      rw [unmarked]
      have total : start (fun u => replicate (row u).length SPECIAL_EDGEID) n = start row n :=
        start_congr fun u _ => length_replicate
      refine (eq_replicate_iff.mpr ⟨total,fun mark member => ?_⟩).symm
      obtain ⟨u,_,inRow⟩ := mem_flatMap.mp member
      exact eq_of_mem_replicate inRow
    · rfl
  | succ k ih =>
    rw [range_succ,foldl_append]
    exact (ih (by omega)).step bijective length fits (new_to_old k (by omega)) (by omega)

private theorem exists_number (bijective : Bijective old_to_new_node) (length : old_to_new_node.length = n) {j : ℕ}
    (inside : j < start row n) :
    ∃ u < n, ∃ i < (row u).length, j = start (renumbered old_to_new_node row) (old_to_new_node.getD u 0) + i ∧
      (packed (marks old_to_new_node row n) n)[start row u + i]? = some j := by
  rw [← start_renumbered row bijective length] at inside
  obtain ⟨k,there,i,place,rfl⟩ := exists_row inside
  obtain ⟨here,back⟩ := new_oldNode bijective (length.symm ▸ there)
  rw [length] at here
  rw [renumbered,length_map] at place
  have marked : marks old_to_new_node row n (oldNode old_to_new_node k) =
      List.range' (start (renumbered old_to_new_node row) k) (row (oldNode old_to_new_node k)).length := by
    rw [marks,back,if_pos there]
  have found := getElem?_packed (marks old_to_new_node row n) here (i := i) (by rw [length_marks]; exact place)
  rw [start_congr fun v _ => length_marks n v,marked,getElem?_range' place,Nat.one_mul] at found
  exact ⟨_,here,i,place,by rw [back],found⟩

private theorem marks_bijective (row : ℕ → List (EdgeArrayEntry Data)) (bijective : Bijective old_to_new_node) (length : old_to_new_node.length = n) :
    Bijective (packed (marks old_to_new_node row n) n) := by
  refine Bijective.of_all fun j inside => ?_
  rw [length_packed,start_congr fun v _ => length_marks n v] at inside
  obtain ⟨u,_,i,_,_,found⟩ := exists_number bijective length inside
  exact mem_of_getElem? found

private theorem inplacePermutation_packed (row : ℕ → List (EdgeArrayEntry Data)) (bijective : Bijective old_to_new_node)
    (length : old_to_new_node.length = n) :
    inplacePermutation (packed (changed old_to_new_node row n) n) (packed (marks old_to_new_node row n) n) =
      packed (renumbered old_to_new_node row) n := by
  have permutes := marks_bijective row bijective length
  have total : (packed (changed old_to_new_node row n) n).length = start row n := start_congr fun v _ => length_changed n v
  have marked : (packed (marks old_to_new_node row n) n).length = start row n := start_congr fun v _ => length_marks n v
  apply ext_getElem?
  intro j
  by_cases inside : j < start row n
  · obtain ⟨u,here,i,place,rfl,found⟩ := exists_number bijective length inside
    have there : old_to_new_node.getD u 0 < n := length ▸ bijective.lt (length.symm ▸ here)
    have before : start row u + i < (packed (changed old_to_new_node row n) n).length := total ▸ start_add_lt here place
    have moved := inplacePermutation_getElem? permutes (total.trans marked.symm) before
    rw [getD_eq_getElem?_getD,found,Option.getD_some] at moved
    have renamed : changed old_to_new_node row n u = (row u).map (rename old_to_new_node) := by rw [changed,if_pos there]
    have old := getElem?_packed (changed old_to_new_node row n) here (i := i) (by rw [length_changed]; exact place)
    rw [start_congr fun v _ => length_changed n v,renamed] at old
    have new := renumbered_new row bijective (length.symm ▸ here)
    rw [moved,old,getElem?_packed _ there (by rw [new,length_map]; exact place),new]
  · rw [getElem?_eq_none,getElem?_eq_none]
    · rw [length_packed,start_renumbered row bijective length]
      omega
    · rw [inplacePermutation_length permutes (total.trans marked.symm),total]
      omega

theorem Renumber_pack (bijective : Bijective old_to_new_node) (length : old_to_new_node.length = n) (fits : start row n < 2 ^ 32) :
    (pack n row).Renumber old_to_new_node = pack n (renumbered old_to_new_node row) := by
  have loop := Renumbered.loop bijective length fits (fun k _ => rfl : ∀ k < n,
    (orderingToPermutation old_to_new_node).getD k 0 = oldNode old_to_new_node k) le_rfl
  have same := inplacePermutation_packed row bijective length
  have total := start_renumbered row bijective length
  have small := toEdgeID_bmod (total.trans_lt fits)
  subst length
  have ordering : (List.range (pack old_to_new_node.length row).number_of_nodes).foldl (fun new_to_old_node node =>
      new_to_old_node.set (old_to_new_node.getD node 0) node) (replicate (pack old_to_new_node.length row).number_of_nodes 0) =
    orderingToPermutation old_to_new_node := rfl
  have entries : (pack old_to_new_node.length row).node_array.length = old_to_new_node.length + 1 := by simp [pack]
  rw [Renumber,ordering,entries,pack,pack]
  simp only [length_packed]
  rw [← pack]
  generalize (List.range old_to_new_node.length).foldl _ _ = state at loop ⊢
  rw [loop.nodes,loop.index,loop.numbers,loop.edges,small,same]
  simp [range_succ,total]

end Renumbered

structure Inverse (old_to_new new_to_old : List ℕ) : Prop where
  length : new_to_old.length = old_to_new.length
  back : ∀ u < old_to_new.length, new_to_old.getD (old_to_new.getD u 0) 0 = u

section Inverse
variable {old_to_new new_to_old : List ℕ} {row : ℕ → List (EdgeArrayEntry Data)} {nodes : ℕ} {edges : List (InputEdge Data)}

private theorem Inverse.bijective (inverse : Inverse old_to_new new_to_old) (bijective : Bijective old_to_new) : Bijective new_to_old := by
  refine Bijective.of_all fun u inside => ?_
  rw [inverse.length] at inside
  have there := bijective.lt inside
  rw [← inverse.length] at there
  have found := inverse.back u inside
  rw [getD_eq_getElem _ _ there] at found
  exact mem_of_getElem found

private theorem Inverse.rename_rename (inverse : Inverse old_to_new new_to_old) {e : EdgeArrayEntry Data}
    (target : e.target < old_to_new.length) : rename new_to_old (rename old_to_new e) = e := by
  rw [rename,rename]
  simp only [inverse.back e.target target]

private theorem Inverse.renumbered_renumbered (inverse : Inverse old_to_new new_to_old) (bijective : Bijective old_to_new) {u : ℕ}
    (here : u < old_to_new.length) (targets : ∀ e ∈ row u, e.target < old_to_new.length) :
    renumbered new_to_old (renumbered old_to_new row) u = row u := by
  have there : old_to_new.getD u 0 < new_to_old.length := inverse.length.symm ▸ bijective.lt here
  have again := renumbered_new (renumbered old_to_new row) (inverse.bijective bijective) there
  rw [inverse.back u here,renumbered_new row bijective here,map_map] at again
  refine again.trans ((map_congr_left fun e member => ?_).trans (map_id _))
  exact inverse.rename_rename (targets e member)

private theorem Input.targets_edgesOf (input : Input nodes edges) (u : ℕ) : ∀ e ∈ edgesOf edges u, e.target < nodes := by
  intro e member
  obtain ⟨edge,chosen,rfl⟩ := mem_map.mp member
  exact input.targets edge (mem_of_mem_filter chosen)

theorem Input.start_lt (input : Input nodes edges) : start (edgesOf edges) nodes < 2 ^ 32 := by
  rw [start_edgesOf,input.earlier_nodes]
  exact input.fits

/-- A renumbered graph has the edges of each node, in their order, at the new node with new targets, and is the same again
    when it is renumbered back. The elements of an array go where they are mapped, in loops that end. -/
theorem Renumber_isomorphism {α : Type} (input : Input nodes edges) (bijective : Bijective old_to_new)
    (length : old_to_new.length = nodes) (inverse : Inverse old_to_new new_to_old) {values : List α} {order : List ℕ}
    (permutes : Bijective order) (size : values.length = order.length) :
    let graph := InitializeFromSortedEdgeRange nodes edges
    (∀ u < nodes, (graph.Renumber old_to_new).adjacent (old_to_new.getD u 0) =
        (graph.adjacent u).map fun (target,data) => (target.map fun v => old_to_new.getD v 0,data)) ∧
      (graph.Renumber old_to_new).Renumber new_to_old = graph ∧
      ∀ fuel ≥ values.length, ∃ moved, inplacePermutationWithin fuel values order = some moved ∧ moved.length = values.length ∧
        ∀ i < values.length, moved[order.getD i 0]? = values[i]? := by
  have once := Renumber_pack bijective length input.start_lt
  simp only [input.eq_pack,once]
  refine ⟨?_,?_,?_⟩
  · intro u here
    have there : old_to_new.getD u 0 < nodes := length ▸ bijective.lt (length.symm ▸ here)
    rw [pack_adjacent _ there,pack_adjacent _ here,renumbered_new _ bijective (length.symm ▸ here),map_map,map_map]
    rfl
  · have total := start_renumbered (edgesOf edges) bijective length
    rw [Renumber_pack (inverse.bijective bijective) (inverse.length.trans length) (total.trans_lt input.start_lt)]
    refine pack_congr fun u here => inverse.renumbered_renumbered bijective (length.symm ▸ here) ?_
    rw [length]
    exact input.targets_edgesOf u
  · intro fuel enough
    exact ⟨_,inplacePermutationWithin_eq permutes size enough,inplacePermutation_length permutes size,
      fun i inside => inplacePermutation_getElem? permutes size inside⟩

/-- Three nodes, the one in the middle without edges. -/
theorem Renumber_isomorphism_three :
    let graph := InitializeFromSortedEdgeRange 3 [⟨0,1,'a'⟩,⟨0,2,'b'⟩,⟨2,0,'c'⟩]
    (∀ u < 3, (graph.Renumber [2,0,1]).adjacent ([2,0,1].getD u 0) =
        (graph.adjacent u).map fun (target,data) => (target.map fun v => [2,0,1].getD v 0,data)) ∧
      (graph.Renumber [2,0,1]).Renumber [1,2,0] = graph ∧
      ∀ fuel ≥ 4, ∃ moved, inplacePermutationWithin fuel ['a','b','c','d'] [1,2,0,3] = some moved ∧ moved.length = 4 ∧
        ∀ i < 4, moved[[1,2,0,3].getD i 0]? = ['a','b','c','d'][i]? := by
  have input : Input 3 [⟨0,1,'a'⟩,⟨0,2,'b'⟩,⟨2,0,'c'⟩] := ⟨by simp [SortedBySource],by decide,by decide,by decide⟩
  have bijective : Bijective [2,0,1] := ⟨by decide,by decide⟩
  have inverse : Inverse [2,0,1] [1,2,0] := ⟨rfl,by decide⟩
  have permutes : Bijective [1,2,0,3] := ⟨by decide,by decide⟩
  have size : ['a','b','c','d'].length = [1,2,0,3].length := rfl
  exact Renumber_isomorphism input bijective rfl inverse permutes size

end Inverse

end StaticGraph

end Osrm.StaticGraphs
