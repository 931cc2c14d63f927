import Osrm.StaticGraphs

/-!
`util/filtered_graph.hpp` over a `StaticGraph`, and `util/filtered_integer_range.hpp`. A bit for each edge tells whether
the edge is visible. Renumbering the graph moves its edges, but leaves the bits where they are.
-/
namespace Osrm.FilteredGraphs
open List
open Permutation PackedRows DynamicGraphs DynamicGraphs.DynamicGraph StaticGraphs
open StaticGraphs.StaticGraph

variable {Data : Type}

section Ranges
variable {filter : List Bool} {first last value fuel : ℕ}

/-- Where the loop stops that goes on while the end is not reached and the filter excludes the value. -/
def skip (filter : List Bool) (last value : ℕ) : ℕ :=
  value + ((List.range' value (last - value)).takeWhile fun value => !filter.getD value false).length
def iterate (filter : List Bool) (last : ℕ) : ℕ → ℕ → List ℕ
  | 0, _ => []
  | fuel + 1, value => if value = last then [] else value :: iterate filter last fuel (skip filter last (value + 1))
/-- `filtered_range`, as the values one sees. -/
def filtered_range (first last : ℕ) (filter : List Bool) : List ℕ := iterate filter last (last - first) (skip filter last first)

private theorem skip_last (filter : List Bool) (last : ℕ) : skip filter last last = last := by simp [skip]

private theorem skip_step (filter : List Bool) (before : value < last) :
    skip filter last value = if filter.getD value false then value else skip filter last (value + 1) := by
  obtain ⟨count,left⟩ : ∃ count, last - value = count + 1 := ⟨last - value - 1,by omega⟩
  have rest : last - (value + 1) = count := by omega
  rw [skip,skip,left,rest,range'_succ,takeWhile_cons]
  cases shown : filter.getD value false with
  | true => simp
  | false =>
    simp only [Bool.not_false,if_true,length_cons,Bool.false_eq_true,if_false]
    omega

private theorem iterate_skip (filter : List Bool) (count : ℕ) (value fuel : ℕ) (enough : count ≤ fuel) :
    iterate filter (value + count) fuel (skip filter (value + count) value) =
      (List.range' value count).filter fun value => filter.getD value false := by
  induction count generalizing value fuel with
  | zero =>
    rw [Nat.add_zero,skip_last]
    cases fuel <;> simp [iterate]
  | succ count ih =>
    have before : value < value + (count + 1) := by omega
    have shift : value + (count + 1) = value + 1 + count := by omega
    rw [skip_step filter before,range'_succ,filter_cons]
    cases shown : filter.getD value false with
    | true =>
      obtain ⟨fuel,rfl⟩ : ∃ more, fuel = more + 1 := ⟨fuel - 1,by omega⟩
      simp only [if_true,iterate]
      rw [if_neg (by omega),shift,ih (value + 1) fuel (by omega)]
    | false =>
      simp only [Bool.false_eq_true,if_false]
      rw [shift]
      exact ih (value + 1) fuel (by omega)

private theorem filtered_range_eq (filter : List Bool) (first count : ℕ) :
    filtered_range first (first + count) filter = (List.range' first count).filter fun value => filter.getD value false := by
  rw [filtered_range,Nat.add_sub_cancel_left]
  exact iterate_skip filter count first count le_rfl

end Ranges

/-- `FilteredGraphImpl<StaticGraph<Data>>`. -/
structure FilteredGraph (Data : Type) where
  graph : StaticGraph Data
  edge_filter : List Bool

namespace FilteredGraph

def GetAdjacentEdgeRange (filtered : FilteredGraph Data) (n : ℕ) : List ℕ :=
  filtered_range (filtered.graph.BeginEdges n) (filtered.graph.EndEdges n) filtered.edge_filter
def GetOutDegree (filtered : FilteredGraph Data) (n : ℕ) : ℕ :=
  (filtered.graph.GetAdjacentEdgeRange n).countP fun edge => filtered.edge_filter.getD edge false
def Renumber (filtered : FilteredGraph Data) (old_to_new_node : List ℕ) : FilteredGraph Data :=
  { filtered with graph := filtered.graph.Renumber old_to_new_node }
/-- The edges that are visible at a node: which ones of the node they are, their targets and data. -/
def visible (filtered : FilteredGraph Data) (n : ℕ) : List (ℕ × Option ℕ × Option Data) :=
  (filtered.GetAdjacentEdgeRange n).map fun edge =>
    (edge - filtered.graph.BeginEdges n,filtered.graph.GetTarget edge,filtered.graph.GetEdgeData edge)

section Visible
variable {row : ℕ → List (EdgeArrayEntry Data)} {filter : List Bool} {n u : ℕ}

def shownFrom (filter : List Bool) (first count : ℕ) : List ℕ := (List.range count).filter fun i => filter.getD (first + i) false

private theorem filter_range' (filter : List Bool) (first count : ℕ) :
    ((List.range' first count).filter fun edge => filter.getD edge false) = (shownFrom filter first count).map (first + ·) := by
  rw [range'_eq_map_range,filter_map,shownFrom]
  rfl

private theorem pack_range (filter : List Bool) (here : u < n) :
    (FilteredGraph.mk (pack n row) filter).GetAdjacentEdgeRange u =
      (shownFrom filter (start row u) (row u).length).map (start row u + ·) := by
  rw [GetAdjacentEdgeRange,pack_BeginEdges row (by omega),pack_EndEdges row here,start_succ,filtered_range_eq,filter_range']

private theorem pack_degree (filter : List Bool) (here : u < n) :
    (FilteredGraph.mk (pack n row) filter).GetOutDegree u = (shownFrom filter (start row u) (row u).length).length := by
  rw [GetOutDegree,pack_GetAdjacentEdgeRange row here,countP_eq_length_filter,filter_range',length_map]

private theorem pack_visible (filter : List Bool) (here : u < n) :
    (FilteredGraph.mk (pack n row) filter).visible u = (shownFrom filter (start row u) (row u).length).map fun i =>
      (i,(row u)[i]?.map (·.target),(row u)[i]?.map (·.data)) := by
  rw [visible,pack_range filter here,map_map]
  refine map_congr_left fun i member => ?_
  have inside : i < (row u).length := mem_range.mp (mem_of_mem_filter member)
  simp only [Function.comp_apply,pack_BeginEdges row here.le,Nat.add_sub_cancel_left]
  rw [StaticGraph.GetTarget,StaticGraph.GetEdgeData,pack_edge here inside]

private theorem shownFrom_eq_iff (filter : List Bool) (first first' count : ℕ) :
    shownFrom filter first' count = shownFrom filter first count ↔
      ∀ i < count, filter.getD (first' + i) false = filter.getD (first + i) false := by
  constructor
  · intro same i inside
    have both : i ∈ shownFrom filter first' count ↔ i ∈ shownFrom filter first count := by rw [same]
    simp only [shownFrom,mem_filter,mem_range,inside,true_and] at both
    exact Bool.eq_iff_iff.mpr both
  · intro agree
    refine filter_congr fun i member => agree i (mem_range.mp member)

end Visible

section Renumbering
variable {nodes : ℕ} {edges : List (InputEdge Data)} {edge_filter : List Bool} {old_to_new_node : List ℕ} {u k : ℕ}

/-- How many edges begin at nodes that come before a node once they are renumbered. -/
def earlierNew (edges : List (InputEdge Data)) (old_to_new_node : List ℕ) (k : ℕ) : ℕ :=
  edges.countP fun edge => old_to_new_node.getD edge.source 0 < k

private theorem start_renumbered_eq (sources : ∀ edge ∈ edges, edge.source < old_to_new_node.length) (bijective : Bijective old_to_new_node)
    (within : k ≤ old_to_new_node.length) :
    start (renumbered old_to_new_node (edgesOf edges)) k = earlierNew edges old_to_new_node k := by
  induction k with
  | zero => simp [earlierNew]
  | succ k ih =>
    obtain ⟨here,back⟩ := new_oldNode bijective (show k < old_to_new_node.length from within)
    have same : edges.countP (fun edge => old_to_new_node.getD edge.source 0 == k) = degree edges (oldNode old_to_new_node k) := by
      refine countP_congr fun edge member => ?_
      simp only [beq_iff_eq]
      constructor
      · intro new
        rw [← new,oldNode_new bijective (sources edge member)]
      · intro old
        rw [old,back]
    have next : earlierNew edges old_to_new_node (k + 1) = earlierNew edges old_to_new_node k +
        edges.countP fun edge => old_to_new_node.getD edge.source 0 == k := by
      apply Scan.countP_or
      · intro edge
        simp only [decide_eq_true_eq,beq_iff_eq]
        exact Nat.lt_succ_iff_lt_or_eq
      · intro edge less equal
        simp only [decide_eq_true_eq,beq_iff_eq] at less equal
        omega
    rw [start_succ,ih (by omega),next,same,renumbered,length_map,length_edgesOf]

/-- A graph that is built from edges, with a bit for each of them. -/
structure Input (nodes : ℕ) (edges : List (InputEdge Data)) (edge_filter : List Bool) : Prop extends StaticGraphs.StaticGraph.Input nodes edges where
  bits : edge_filter.length = edges.length

/-- Renumbering keeps all edges visible exactly if the bits at their new ids agree with the old ones. -/
theorem Renumber_visible_iff (input : Input nodes edges edge_filter) (bijective : Bijective old_to_new_node)
    (length : old_to_new_node.length = nodes) :
    let filtered := FilteredGraph.mk (InitializeFromSortedEdgeRange nodes edges) edge_filter
    (∀ u < nodes, (filtered.Renumber old_to_new_node).visible (old_to_new_node.getD u 0) =
        ((filtered.visible u).map fun (i,target,data) => (i,target.map fun v => old_to_new_node.getD v 0,data)) ∧
      (filtered.Renumber old_to_new_node).GetOutDegree (old_to_new_node.getD u 0) = filtered.GetOutDegree u) ↔
    ∀ u < nodes, ∀ i < degree edges u, edge_filter.getD (earlierNew edges old_to_new_node (old_to_new_node.getD u 0) + i) false =
      edge_filter.getD (earlier edges u + i) false := by
  subst length
  simp only [Renumber,input.eq_pack,Renumber_pack bijective rfl input.start_lt]
  refine forall₂_congr fun u here => ?_
  have there := bijective.lt here
  have sizes : (renumbered old_to_new_node (edgesOf edges) (old_to_new_node.getD u 0)).length = (edgesOf edges u).length := by
    rw [renumbered_new _ bijective here,length_map]
  rw [pack_visible edge_filter there,pack_visible edge_filter here,pack_degree edge_filter there,pack_degree edge_filter here,sizes,
    start_renumbered_eq input.sources bijective there.le,start_edgesOf,length_edgesOf,← shownFrom_eq_iff,map_map,
    renumbered_new _ bijective here]
  constructor
  · rintro ⟨shown,-⟩
    have places := congrArg (List.map Prod.fst) shown
    simpa [map_map,Function.comp_def] using places
  · intro same
    rw [same]
    refine ⟨map_congr_left fun i _ => ?_,rfl⟩
    simp [rename,Function.comp_def]

theorem Renumber_visible_iff_two :
    let filtered := FilteredGraph.mk (InitializeFromSortedEdgeRange 2 [⟨0,1,'a'⟩,⟨1,0,'b'⟩]) [true,false]
    (∀ u < 2, (filtered.Renumber [1,0]).visible ([1,0].getD u 0) =
        ((filtered.visible u).map fun (i,target,data) => (i,target.map fun v => [1,0].getD v 0,data)) ∧
      (filtered.Renumber [1,0]).GetOutDegree ([1,0].getD u 0) = filtered.GetOutDegree u) ↔
    ∀ u < 2, ∀ i < degree [⟨0,1,'a'⟩,⟨1,0,'b'⟩] u,
      [true,false].getD (earlierNew [⟨0,1,'a'⟩,⟨1,0,'b'⟩] [1,0] ([1,0].getD u 0) + i) false =
        [true,false].getD (earlier [⟨0,1,'a'⟩,⟨1,0,'b'⟩] u + i) false := by
  have input : Input 2 [⟨0,1,'a'⟩,⟨1,0,'b'⟩] [true,false] :=
    ⟨⟨by simp [SortedBySource],by decide,by decide,by decide⟩,rfl⟩
  have bijective : Bijective [1,0] := ⟨by decide,by decide⟩
  exact Renumber_visible_iff input bijective rfl

/-- Of two nodes the first has a visible edge and the second a hidden one. After a swap the first one is hidden. -/
theorem Renumber_hides_edge :
    let filtered := FilteredGraph.mk (InitializeFromSortedEdgeRange 2 [⟨0,1,'a'⟩,⟨1,0,'b'⟩]) [true,false]
    filtered.visible 0 = [(0,some 1,some 'a')] ∧ filtered.GetOutDegree 0 = 1 ∧
      (filtered.Renumber [1,0]).visible 1 = [] ∧ (filtered.Renumber [1,0]).GetOutDegree 1 = 0 := by
  refine ⟨?_,?_,?_,?_⟩ <;> decide

end Renumbering

end FilteredGraph

end Osrm.FilteredGraphs
