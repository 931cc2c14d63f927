import Osrm.LevelGraph
import Osrm.Overlay

/-!
`partitioner::CellStorage` and the views of its cells. A cell lists the boundary nodes through which a way inside it
can start and those in which it can end; a metric holds a value for every pair of them, row by row. The values of
different cells lie apart, so a metric is modelled cell by cell.
-/
namespace Osrm.CellStorage
open List
open Typedefs Walks Osrm.Partition EdgeBasedGraph LevelGraph Overlay

/-- `CellMetric`: the values of a cell of a level. -/
structure CellMetric where
  weights : LevelID → CellID → ℕ → EdgeWeight
  durations : LevelID → CellID → ℕ → EdgeDuration
  distances : LevelID → CellID → ℕ → EdgeDistance

/-- `CellImpl`, the view of a cell. -/
structure Cell where
  source_boundary : List NodeID
  destination_boundary : List NodeID
  weights : ℕ → EdgeWeight
  durations : ℕ → EdgeDuration
  distances : ℕ → EdgeDistance

namespace Cell
variable (cell : Cell)

/-- The row of a source; a node that is none has an empty one. -/
def GetOutRange (values : ℕ → ℤ) (node : NodeID) : List ℤ :=
  match cell.source_boundary.idxOf? node with
  | none => []
  | some row => (List.range cell.destination_boundary.length).map fun column =>
      values (cell.destination_boundary.length * row + column)

/-- The column of a destination; a node that is none has an empty one. -/
def GetInRange (values : ℕ → ℤ) (node : NodeID) : List ℤ :=
  match cell.destination_boundary.idxOf? node with
  | none => []
  | some column => (List.range cell.source_boundary.length).map fun row =>
      values (column + cell.destination_boundary.length * row)

def GetOutWeight (node : NodeID) : List EdgeWeight := cell.GetOutRange cell.weights node
def GetInWeight (node : NodeID) : List EdgeWeight := cell.GetInRange cell.weights node
def GetOutDuration (node : NodeID) : List EdgeDuration := cell.GetOutRange cell.durations node
def GetOutDistance (node : NodeID) : List EdgeDistance := cell.GetOutRange cell.distances node
def Entry (values : ℕ → ℤ) (x y : NodeID) (value : ℤ) : Prop :=
  ∃ row column, cell.source_boundary[row]? = some x ∧ cell.destination_boundary[column]? = some y ∧
    values (cell.destination_boundary.length * row + column) = value

end Cell

section storage
variable {P : MultiLevelPartition} (graph : MultiLevelGraph P)

/-- An edge leads to another cell. -/
def is_boundary_node (level : LevelID) (node : NodeID) : Bool :=
  (graph.GetAdjacentEdgeRange node).any fun edge => P.GetCell level edge.1.target != P.GetCell level node
def is_source_node (level : LevelID) (node : NodeID) : Bool :=
  (graph.GetAdjacentEdgeRange node).any fun edge =>
    P.GetCell level edge.1.target == P.GetCell level node && edge.1.data.forward
def is_destination_node (level : LevelID) (node : NodeID) : Bool :=
  (graph.GetAdjacentEdgeRange node).any fun edge =>
    P.GetCell level edge.1.target == P.GetCell level node && edge.1.data.backward

/-- The sources of a cell, sorted by their ids. -/
def source_boundary (level : LevelID) (id : CellID) : List NodeID :=
  (List.range graph.number_of_nodes).filter fun node =>
    P.GetCell level node == id && is_boundary_node graph level node && is_source_node graph level node
/-- The destinations of a cell; a boundary node without edges in the cell is kept among them. -/
def destination_boundary (level : LevelID) (id : CellID) : List NodeID :=
  (List.range graph.number_of_nodes).filter fun node =>
    P.GetCell level node == id && is_boundary_node graph level node &&
      (is_destination_node graph level node || !is_source_node graph level node && !is_destination_node graph level node)

def MakeMetric : CellMetric :=
  ⟨fun _ _ _ => INVALID_EDGE_WEIGHT,fun _ _ _ => MAXIMAL_EDGE_DURATION,fun _ _ _ => INVALID_EDGE_DISTANCE⟩
def GetCell (metric : CellMetric) (level : LevelID) (id : CellID) : Cell :=
  ⟨source_boundary graph level id,destination_boundary graph level id,metric.weights level id,metric.durations level id,
    metric.distances level id⟩

end storage

section range
variable {cell : Cell} {values : ℕ → ℤ} {x y : NodeID} {value : ℤ}

private theorem idxOf_iff {l : List NodeID} (distinct : l.Nodup) {x : NodeID} {i : ℕ} :
    l.idxOf? x = some i ↔ l[i]? = some x := by
  rw [idxOf?_eq_some_iff]
  constructor
  · rintro ⟨below,same,_⟩
    simpa [getElem?_eq_getElem below] using same
  · intro found
    obtain ⟨below,same⟩ := List.getElem?_eq_some_iff.mp found
    refine ⟨below,by simpa using same,fun j less => ?_⟩
    intro again
    have again' : l[j] = l[i] := by simpa [same] using again
    have := distinct.getElem_inj_iff.mp again'
    lia

private theorem mem_zip_range {l : List NodeID} {f : ℕ → ℤ} :
    (value,y) ∈ ((List.range l.length).map f).zip l ↔ ∃ j, l[j]? = some y ∧ f j = value := by
  constructor
  · intro member
    obtain ⟨j,at_⟩ := mem_iff_getElem?.mp member
    obtain ⟨one,two⟩ := getElem?_zip_eq_some.mp at_
    have below := (List.getElem?_eq_some_iff.mp two).1
    exact ⟨j,two,by simpa [getElem?_range below] using one⟩
  · rintro ⟨j,two,rfl⟩
    have below := (List.getElem?_eq_some_iff.mp two).1
    exact mem_iff_getElem?.mpr ⟨j,getElem?_zip_eq_some.mpr ⟨by simp [getElem?_range below],two⟩⟩

theorem outRange_of_source (distinct : cell.source_boundary.Nodup) {row : ℕ} (source : cell.source_boundary[row]? = some x) :
    cell.GetOutRange values x = (List.range cell.destination_boundary.length).map fun column =>
      values (cell.destination_boundary.length * row + column) := by
  rw [Cell.GetOutRange,(idxOf_iff distinct).mpr source]

theorem mem_outRange (distinct : cell.source_boundary.Nodup) :
    (value,y) ∈ (cell.GetOutRange values x).zip cell.destination_boundary ↔ cell.Entry values x y value := by
  cases found : cell.source_boundary.idxOf? x with
  | none =>
    have missing := idxOf?_eq_none_iff.mp found
    simp only [Cell.GetOutRange,found,zip_nil_left,not_mem_nil,false_iff]
    rintro ⟨row,_,source,_⟩
    exact missing (mem_of_getElem? source)
  | some row =>
    have source := (idxOf_iff distinct).mp found
    rw [outRange_of_source distinct source,mem_zip_range]
    constructor
    · rintro ⟨column,destination,rfl⟩
      exact ⟨row,column,source,destination,rfl⟩
    · rintro ⟨row',column,source',destination,rfl⟩
      obtain rfl : row = row' := Option.some.inj (found.symm.trans ((idxOf_iff distinct).mpr source'))
      exact ⟨column,destination,rfl⟩

theorem mem_inRange (distinct : cell.destination_boundary.Nodup) :
    (value,x) ∈ (cell.GetInRange values y).zip cell.source_boundary ↔ cell.Entry values x y value := by
  unfold Cell.GetInRange
  cases found : cell.destination_boundary.idxOf? y with
  | none =>
    have missing := idxOf?_eq_none_iff.mp found
    simp only [zip_nil_left,not_mem_nil,false_iff]
    rintro ⟨_,column,_,destination,_⟩
    exact missing (mem_of_getElem? destination)
  | some column =>
    have destination := (idxOf_iff distinct).mp found
    rw [mem_zip_range]
    constructor
    · rintro ⟨row,source,rfl⟩
      exact ⟨row,column,source,destination,by rw [Nat.add_comm]⟩
    · rintro ⟨row,column',source,destination',rfl⟩
      obtain rfl : column = column' := Option.some.inj (found.symm.trans ((idxOf_iff distinct).mpr destination'))
      exact ⟨row,source,by rw [Nat.add_comm]⟩

private theorem entry_exists (source : x ∈ cell.source_boundary) (destination : y ∈ cell.destination_boundary) :
    ∃ value, cell.Entry values x y value := by
  obtain ⟨row,atRow⟩ := mem_iff_getElem?.mp source
  obtain ⟨column,atColumn⟩ := mem_iff_getElem?.mp destination
  exact ⟨_,row,column,atRow,atColumn,rfl⟩

end range

section boundary
variable {P : MultiLevelPartition} {graph : MultiLevelGraph P} {level : LevelID} {id : CellID} {x y : NodeID}
  {weigh : EdgeBasedEdge → ℤ} {w : ℤ}

theorem source_boundary_nodup : (source_boundary graph level id).Nodup := nodup_range.filter _
theorem destination_boundary_nodup : (destination_boundary graph level id).Nodup := nodup_range.filter _

private theorem boundary_iff : is_boundary_node graph level x = true ↔
    ∃ edge ∈ graph.GetAdjacentEdgeRange x, P.GetCell level edge.1.target ≠ P.GetCell level x := by
  simp [is_boundary_node]

private theorem adjacent_lt {edge : EdgeBasedEdge × EdgeID} (member : edge ∈ graph.GetAdjacentEdgeRange x) :
    x < graph.number_of_nodes := by
  obtain ⟨found,rfl⟩ := (graph.mem_adjacent).mp member
  exact (graph.bounded _ (mem_of_getElem? found)).1

private theorem mem_source (boundary : is_boundary_node graph level x = true) (arc : graph.arcs weigh .FORWARD x y w)
    (same : P.GetCell level y = P.GetCell level x) : x ∈ source_boundary graph level (P.GetCell level x) := by
  obtain ⟨edge,member,rfl,usable,_⟩ := arc
  have starts : is_source_node graph level x = true :=
    any_eq_true.mpr ⟨edge,member,by simpa [same,EdgeData.usable] using usable⟩
  simp [source_boundary,boundary,starts,adjacent_lt member]

private theorem mem_destination (mirrored : graph.Mirrored) (boundary : is_boundary_node graph level y = true)
    (arc : graph.arcs weigh .FORWARD x y w) (same : P.GetCell level x = P.GetCell level y) :
    y ∈ destination_boundary graph level (P.GetCell level y) := by
  obtain ⟨forward,inside,toY,usable,_⟩ := arc
  obtain ⟨_,edge,member,rfl,usable',_⟩ := (mirrored x y).mp ⟨0,forward,inside,toY,usable,rfl⟩
  have ends : is_destination_node graph level y = true :=
    any_eq_true.mpr ⟨edge,member,by simpa [same,EdgeData.usable] using usable'⟩
  simp [destination_boundary,boundary,ends,adjacent_lt member]

/-- Sources are boundary nodes of their cell. -/
theorem source_cell (source : x ∈ source_boundary graph level id) :
    P.GetCell level x = id ∧ is_boundary_node graph level x = true := by
  simp only [source_boundary,mem_filter,Bool.and_eq_true,beq_iff_eq] at source
  exact source.2.1

theorem destination_cell (destination : y ∈ destination_boundary graph level id) :
    P.GetCell level y = id ∧ is_boundary_node graph level y = true := by
  simp only [destination_boundary,mem_filter,Bool.and_eq_true,beq_iff_eq] at destination
  exact destination.2.1

theorem source_lt (source : x ∈ source_boundary graph level id) : x < graph.number_of_nodes :=
  mem_range.mp (mem_of_mem_filter source)
theorem destination_lt (destination : y ∈ destination_boundary graph level id) : y < graph.number_of_nodes :=
  mem_range.mp (mem_of_mem_filter destination)

private theorem boundary_of_arc (mirrored : graph.Mirrored) (arc : graph.arcs weigh .FORWARD x y w)
    (apart : P.GetCell level x ≠ P.GetCell level y) :
    is_boundary_node graph level x = true ∧ is_boundary_node graph level y = true := by
  obtain ⟨forward,inside,toY,usable,_⟩ := arc
  obtain ⟨_,edge,member,toX,_⟩ := (mirrored x y).mp ⟨0,forward,inside,toY,usable,rfl⟩
  exact ⟨boundary_iff.mpr ⟨forward,inside,by rw [toY]; exact apart.symm⟩,
    boundary_iff.mpr ⟨edge,member,by rw [toX]; exact apart⟩⟩

private theorem boundary_below (low : 1 ≤ level) (high : level + 1 < P.GetNumberOfLevels)
    (boundary : is_boundary_node graph (level + 1) x = true) : is_boundary_node graph level x = true := by
  obtain ⟨edge,member,apart⟩ := boundary_iff.mp boundary
  exact boundary_iff.mpr ⟨edge,member,fun same => apart (P.nested level low high _ _ same)⟩

end boundary

/-! ### The overlay of an exact metric -/

def inCell (P : MultiLevelPartition) (allowed : NodeID → Bool) (level : LevelID) (id : CellID) (x : NodeID) : Prop :=
  P.GetCell level x = id ∧ allowed x = true
/-- The weight of a shortest way inside a set of nodes; where there is none it is marked as invalid. -/
def Measures (A : Arcs NodeID) (S : NodeID → Prop) (x y : NodeID) (w : EdgeWeight) : Prop :=
  (w = INVALID_EDGE_WEIGHT ↔ ¬ (S x ∧ S y ∧ Reachable (within S A) x y)) ∧
    (w ≠ INVALID_EDGE_WEIGHT → Shortest (within S A) x y w)

section overlay
variable {P : MultiLevelPartition} (graph : MultiLevelGraph P) (A : Arcs NodeID) (allowed : NodeID → Bool)
  (metric : CellMetric)

def ExactAt (level : LevelID) : Prop := ∀ id x y w,
  (GetCell graph metric level id).Entry (metric.weights level id) x y w → Measures A (inCell P allowed level id) x y w
def Exact : Prop := ∀ level, 1 ≤ level → level < P.GetNumberOfLevels → ExactAt graph A allowed metric level

/-- The nodes of a search and the levels on which it looks at them. -/
structure Layered (P : MultiLevelPartition) (allowed : NodeID → Bool) (level : NodeID → LevelID) (S : NodeID → Prop) :
    Prop where
  coherent : ∀ x y, P.GetHighestDifferentLevel x y < level x → level y = level x
  bounded : ∀ x, S x → level x < P.GetNumberOfLevels
  whole : ∀ x y, S x → P.GetHighestDifferentLevel x y < level x → (S y ↔ allowed y = true)
  usable : ∀ x, S x → allowed x = true

def ExactFor (level : NodeID → LevelID) (S : NodeID → Prop) : Prop :=
  ∀ x, S x → 1 ≤ level x → ExactAt graph A allowed metric (level x)
/-- Both nodes are in the cell of the first on its level. -/
def inside (P : MultiLevelPartition) (level : NodeID → LevelID) (x y : NodeID) : Prop :=
  P.GetHighestDifferentLevel x y < level x
/-- The arcs through the cells. -/
def cliqueArcs (level : NodeID → LevelID) (S : NodeID → Prop) : Arcs NodeID := fun x y w =>
  S x ∧ 1 ≤ level x ∧ x ≠ y ∧ w ≠ INVALID_EDGE_WEIGHT ∧
    (GetCell graph metric (level x) (P.GetCell (level x) x)).Entry (metric.weights (level x) (P.GetCell (level x) x)) x y w
/-- The nodes that a search on these levels goes over. -/
def visible (level : NodeID → LevelID) (x : NodeID) : Prop := level x = 0 ∨ is_boundary_node graph (level x) x = true

variable {graph A allowed metric} {level : NodeID → LevelID} {S : NodeID → Prop} {x y z : NodeID} {a b w : ℤ}
  {weigh : EdgeBasedEdge → ℤ}

private theorem boundary_of_visible (seen : visible graph level x) (low : 1 ≤ level x) :
    is_boundary_node graph (level x) x = true := by
  rcases seen with ground | boundary
  · lia
  · exact boundary

private theorem visible_of_arc (mirrored : graph.Mirrored) (bounded : level x < P.GetNumberOfLevels)
    (arc : graph.arcs weigh .FORWARD x y w ∨ graph.arcs weigh .FORWARD y x w) (apart : ¬ inside P level x y) :
    visible graph level x := by
  by_cases ground : level x = 0
  · exact .inl ground
  · have cells : P.GetCell (level x) x ≠ P.GetCell (level x) y :=
      fun same => apart ((P.highest_lt_iff (by lia) bounded).mpr same)
    rcases arc with out | back
    · exact .inr (boundary_of_arc mirrored out cells).1
    · exact .inr (boundary_of_arc mirrored back cells.symm).2

theorem layered_cell {l : LevelID} (low : 1 ≤ l) (high : l < P.GetNumberOfLevels) (id : CellID) :
    Layered P allowed (fun _ => l - 1) (inCell P allowed l id) where
  coherent _ _ _ := rfl
  bounded _ _ := by lia
  whole x y known near := by
    have cells := (P.highest_lt_iff low high).mp (near.trans (by lia))
    exact ⟨fun here => here.2,fun may => ⟨cells.symm.trans known.1,may⟩⟩
  usable x known := known.2

theorem visible_cell {l : LevelID} (low : 1 ≤ l) (high : l < P.GetNumberOfLevels)
    (boundary : is_boundary_node graph l x = true) : visible graph (fun _ => l - 1) x := by
  by_cases ground : l - 1 = 0
  · exact .inl ground
  · refine .inr (boundary_below (by lia) (by lia) ?_)
    rwa [Nat.sub_add_cancel low]

namespace Layered
variable (layered : Layered P allowed level S)
include layered

theorem inside_symm (here : inside P level x y) : inside P level y x := by
  unfold inside at here ⊢
  rw [layered.coherent x y here,P.highest_comm]
  exact here

private theorem inside_trans (one : inside P level x y) (two : inside P level y z) : inside P level x z := by
  have same := layered.coherent x y one
  unfold inside at one two ⊢
  rw [same] at two
  exact P.highest_trans one two

theorem exactFor (exact : Exact graph A allowed metric) : ExactFor graph A allowed metric level S :=
  fun x known low => exact (level x) low (layered.bounded x known)

theorem mem_cell (low : 1 ≤ level x) (known : S x) : inCell P allowed (level x) (P.GetCell (level x) x) z ↔
    inside P level x z ∧ S z := by
  have same := P.highest_lt_iff (x := x) (y := z) low (layered.bounded x known)
  constructor
  · rintro ⟨cell,may⟩
    have near := same.mpr cell.symm
    exact ⟨near,(layered.whole x z known near).mpr may⟩
  · rintro ⟨near,kept⟩
    exact ⟨(same.mp near).symm,layered.usable z kept⟩

private theorem within_cell (low : 1 ≤ level x) (known : S x) :
    within (inCell P allowed (level x) (P.GetCell (level x) x)) A = within (inside P level x) (within S A) := by
  funext u v w
  simp only [within,layered.mem_cell low known,eq_iff_iff]
  tauto

/-- The arcs of an exact cell are shortest ways in it. -/
theorem clique_spec (exact : ExactFor graph A allowed metric level S) (arc : cliqueArcs graph metric level S x y w) :
    S x ∧ S y ∧ x ≠ y ∧ inside P level x y ∧ Shortest (within (inside P level x) (within S A)) x y w := by
  obtain ⟨known,low,apart,valid,entry⟩ := arc
  obtain ⟨row,column,_,destination,_⟩ := id entry
  obtain ⟨cell,_⟩ := destination_cell (mem_of_getElem? destination)
  obtain ⟨invalid,shortest⟩ := exact x known low _ x y w entry
  have near : inside P level x y := (P.highest_lt_iff low (layered.bounded x known)).mpr cell.symm
  have reached : inCell P allowed (level x) (P.GetCell (level x) x) y := by
    by_contra missing
    exact valid (invalid.mpr fun both => missing both.2.1)
  rw [← layered.within_cell low known]
  exact ⟨known,((layered.mem_cell low known).mp reached).2,apart,near,shortest valid⟩

theorem clique_triangle (exact : ExactFor graph A allowed metric level S) (one : cliqueArcs graph metric level S x y a)
    (two : cliqueArcs graph metric level S y z b) (apart : z ≠ x) :
    ∃ c ≤ a + b, cliqueArcs graph metric level S x z c := by
  obtain ⟨known,knownY,_,near,first⟩ := layered.clique_spec exact one
  obtain ⟨_,knownZ,_,nearZ,second⟩ := layered.clique_spec exact two
  obtain ⟨_,low,_,_,row,_,source,_⟩ := id one
  obtain ⟨_,_,_,_,_,column,_,destination,_⟩ := id two
  have levels := layered.coherent x y near
  have cells := (P.highest_lt_iff low (layered.bounded x known)).mp near
  rw [levels,← cells] at destination
  obtain ⟨c,entry⟩ := @entry_exists _ (metric.weights (level x) (P.GetCell (level x) x)) _ _
    (mem_of_getElem? source) (mem_of_getElem? destination)
  have move : ∀ u v w, within (inside P level y) (within S A) u v w → within (inside P level x) (within S A) u v w :=
    within_mono fun u => layered.inside_trans near
  have walk := first.1.append (second.1.mono move)
  rw [← layered.within_cell low known] at walk
  obtain ⟨invalid,shortest⟩ := exact x known low _ x z c entry
  have valid : c ≠ INVALID_EDGE_WEIGHT := fun bad => invalid.mp bad
    ⟨(layered.mem_cell low known).mpr ⟨layered.inside_trans near (layered.inside_symm near),known⟩,
      (layered.mem_cell low known).mpr ⟨layered.inside_trans near nearZ,knownZ⟩,_,walk⟩
  exact ⟨c,(shortest valid).2 _ walk,known,low,apart.symm,valid,entry⟩

/-- Cells with exact values cover the ways through them. -/
theorem covers (exact : ExactFor graph (graph.arcs weigh .FORWARD) allowed metric level S) (mirrored : graph.Mirrored)
    (positive : Positive (graph.arcs weigh .FORWARD)) :
    Covers (within S (graph.arcs weigh .FORWARD)) (cliqueArcs graph metric level S) (inside P level) (visible graph level) := by
  refine ⟨positive.within,layered.inside_symm,layered.inside_trans,?_,?_⟩
  · rintro x y w ⟨knownX,knownY,arc⟩ apart
    exact ⟨visible_of_arc mirrored (layered.bounded x knownX) (.inl arc) apart,
      visible_of_arc mirrored (layered.bounded y knownY) (.inr arc) fun back => apart (layered.inside_symm back)⟩
  · intro x y k seenX seenY near apart walk
    have levels := layered.coherent x y near
    have low : 1 ≤ level x := Nat.one_le_iff_ne_zero.mpr fun ground => by
      rw [inside,ground] at near
      exact Nat.not_lt_zero _ near
    obtain ⟨knownX,knownY⟩ : S x ∧ S y := by
      rcases (walk.mono fun u v w arc => arc.2.2).within_ends with same | both
      · exact absurd same apart
      · exact both
    have bound := layered.bounded x knownX
    have cells := (P.highest_lt_iff low bound).mp near
    have boundaryX := boundary_of_visible seenX low
    have boundaryY := boundary_of_visible seenY (by lia)
    rw [levels] at boundaryY
    have source : x ∈ source_boundary graph (level x) (P.GetCell (level x) x) := by
      cases id walk with
      | nil => exact absurd rfl apart
      | cons arc _ => exact mem_source boundaryX arc.2.2.2.2 ((P.highest_lt_iff low bound).mp arc.2.1).symm
    have destination : y ∈ destination_boundary graph (level x) (P.GetCell (level x) x) := by
      rcases walk.last with ⟨same,_⟩ | ⟨u,w,m,_,arc,_⟩
      · exact absurd same apart
      · have cellU := (P.highest_lt_iff low bound).mp arc.1
        rw [cells]
        exact mem_destination mirrored boundaryY arc.2.2.2.2 (cellU.symm.trans cells)
    obtain ⟨w,entry⟩ := @entry_exists (GetCell graph metric (level x) (P.GetCell (level x) x))
      (metric.weights (level x) (P.GetCell (level x) x)) _ _ source destination
    obtain ⟨invalid,shortest⟩ := exact x knownX low _ x y w entry
    rw [← layered.within_cell low knownX] at walk
    have valid : w ≠ INVALID_EDGE_WEIGHT := fun bad => invalid.mp bad
      ⟨(layered.mem_cell low knownX).mpr ⟨layered.inside_trans near (layered.inside_symm near),knownX⟩,
        (layered.mem_cell low knownX).mpr ⟨near,knownY⟩,_,walk⟩
    exact ⟨w,(shortest valid).2 _ walk,knownX,low,apart,valid,entry⟩

theorem clique_walk (exact : ExactFor graph A allowed metric level S) (x y : NodeID) (w : ℤ)
    (arc : cliqueArcs graph metric level S x y w) : Walk (within S A) x y w :=
  (layered.clique_spec exact arc).2.2.2.2.1.of_within

end Layered

end overlay

/-- The middle two of four nodes share a cell. -/
def rowPartition : MultiLevelPartition where
  level_data := ⟨2,[0,2],[3],MakeBitToLevel [0,2] 2⟩
  number_of_nodes := 4
  partition node := if node = 0 then 0 else if node < 3 then 1 else if node = 3 then 2 else 3
  lidx_to_num_cells := [3]
  made := rfl
  packed node := by
    simp only
    split_ifs <;> decide
  nested l low high := by
    simp only at high
    lia
  counted l low high node below := by
    simp only at high
    obtain rfl : l = 1 := by lia
    interval_cases node <;> decide

def road (source target : NodeID) : EdgeBasedEdge := ⟨source,target,⟨0,1,1,1,true,true⟩⟩

def rowGraph : MultiLevelGraph rowPartition where
  number_of_nodes := 4
  edges := [road 0 1,road 1 2,road 1 0,road 2 1,road 2 3,road 3 2]
  sorted := by decide +kernel
  bounded := by decide

theorem rowGraph_arcs {weigh : EdgeBasedEdge → ℤ} {direction : Direction} {u v : NodeID} {w : ℤ}
    (one : ∀ a b, weigh (road a b) = 1) : rowGraph.arcs weigh direction u v w ↔
      w = 1 ∧ u < 4 ∧ v < 4 ∧ (v = u + 1 ∨ u = v + 1) := by
  rw [rowGraph.arcs_iff]
  have usable : ∀ a b, (road a b).data.usable direction = true := fun a b => by cases direction <;> rfl
  constructor
  · rintro ⟨e,member,rfl,rfl,_,rfl⟩
    simp only [rowGraph,mem_cons,not_mem_nil,or_false] at member
    rcases member with rfl | rfl | rfl | rfl | rfl | rfl <;> exact ⟨one _ _,by decide⟩
  · rintro ⟨rfl,lowU,lowV,near⟩
    refine ⟨road u v,?_,rfl,rfl,usable u v,one u v⟩
    rcases near with rfl | rfl
    · interval_cases u <;> simp [rowGraph] at lowV ⊢
    · interval_cases v <;> simp [rowGraph] at lowU ⊢

end Osrm.CellStorage
