import Osrm.CellStorage
import Osrm.CliqueSearch
import Osrm.Trips

/-!
`customizer::CellCustomizer`. The metric of the cells is computed level by level: for every source of a cell a search
finds its ways to the destinations of the cell.
-/
namespace Osrm.CellCustomizer
open List
open Typedefs Walks Trips Heap Osrm.Partition EdgeBasedGraph LevelGraph CellStorage
open Overlay

structure HeapData where
  from_clique : Bool
  duration : EdgeDuration
  distance : EdgeDistance
  deriving DecidableEq, Repr

abbrev Heap := QueryHeap NodeID HeapData
/-- The comparison of weights, durations and distances by `std::tie`. -/
def tied (weight : EdgeWeight) (data : HeapData) (weight' : EdgeWeight) (data' : HeapData) : Bool :=
  weight < weight' || weight == weight' && (data.duration < data'.duration ||
    data.duration == data'.duration && data.distance < data'.distance)

section search
variable {P : MultiLevelPartition} (graph : MultiLevelGraph P) (allowed_nodes : NodeID → Bool) (metric : CellMetric)
  (level : LevelID)

/-- The loop over a row. At a destination that is not allowed only the iterator of the weights goes on. -/
def subcellCandidates (heapNode : HeapNode NodeID HeapData) :
    List EdgeWeight → List NodeID → List EdgeDuration → List EdgeDistance → List (QueryHeap.Candidate NodeID HeapData)
  | subcell_weight :: weights,other :: destinations,subcell_duration :: durations,subcell_distance :: distances =>
    if subcell_weight != INVALID_EDGE_WEIGHT then
      if !allowed_nodes other then
        subcellCandidates heapNode weights (other :: destinations) (subcell_duration :: durations) (subcell_distance :: distances)
      else
        ⟨other,heapNode.weight + subcell_weight,
          fun _ => ⟨true,heapNode.data.duration + subcell_duration,heapNode.data.distance + subcell_distance⟩⟩ ::
          subcellCandidates heapNode weights destinations durations distances
    else subcellCandidates heapNode weights destinations durations distances
  | _,_,_,_ => []

/-- The labels that are handed on along edges of the cell; above the first level along those between sub-cells. -/
def baseCandidates (heapNode : HeapNode NodeID HeapData) : List (QueryHeap.Candidate NodeID HeapData) :=
  (graph.GetInternalEdgeRange level heapNode.node).filterMap fun edge =>
    if allowed_nodes edge.1.target && edge.1.data.forward &&
        (level == 1 || P.GetCell (level - 1) heapNode.node != P.GetCell (level - 1) edge.1.target) then
      some ⟨edge.1.target,heapNode.weight + edge.1.data.weight,
        fun _ => ⟨false,heapNode.data.duration + edge.1.data.duration,heapNode.data.distance + edge.1.data.distance⟩⟩
    else none

/-- The labels that are handed on through the sub-cell. -/
def cliqueCandidates (heapNode : HeapNode NodeID HeapData) : List (QueryHeap.Candidate NodeID HeapData) :=
  let subcell := GetCell graph metric (level - 1) (P.GetCell (level - 1) heapNode.node)
  subcellCandidates allowed_nodes heapNode (subcell.GetOutWeight heapNode.node) subcell.destination_boundary
    (subcell.GetOutDuration heapNode.node) (subcell.GetOutDistance heapNode.node)

def relaxCandidates (heapNode : HeapNode NodeID HeapData) : List (QueryHeap.Candidate NodeID HeapData) :=
  (if level != 1 && !heapNode.data.from_clique then cliqueCandidates graph allowed_nodes metric level heapNode else []) ++
    baseCandidates graph allowed_nodes level heapNode
def RelaxNode (heapNode : HeapNode NodeID HeapData) (heap : Heap) : Heap :=
  heap.insertOrUpdateAll tied (relaxCandidates graph allowed_nodes metric level heapNode)

structure SearchState where
  heap : Heap
  destinations_set : Finset NodeID

def running (s : SearchState) : Bool := !s.heap.Empty && s.destinations_set != ∅
def searchStep (s : SearchState) : SearchState :=
  match s.heap.DeleteMin with
  | none => s
  | some (heapNode,rest) => ⟨RelaxNode graph allowed_nodes metric level heapNode rest,s.destinations_set.erase heapNode.node⟩

def startState (source : NodeID) (destinations : List NodeID) : SearchState :=
  ⟨QueryHeap.Clear.Insert source 0 ⟨false,0,0⟩,(destinations.filter fun destination => allowed_nodes destination).toFinset⟩
/-- The heap after the search space of a source was explored; `none` if the fuel does not suffice. -/
def explored (fuel : ℕ) (source : NodeID) (destinations : List NodeID) : Option Heap :=
  (Loops.whileLoop running (searchStep graph allowed_nodes metric level) fuel (startState allowed_nodes source destinations)).map (·.heap)

end search

structure Values where
  weights : ℕ → EdgeWeight
  durations : ℕ → EdgeDuration
  distances : ℕ → EdgeDistance

def writeRange (values : ℕ → ℤ) (position : ℕ) : List ℤ → ℕ → ℤ
  | [] => values
  | value :: rest => writeRange (Function.update values position value) (position + 1) rest
def cellValues (metric : CellMetric) (level : LevelID) (id : CellID) : Values :=
  ⟨metric.weights level id,metric.durations level id,metric.distances level id⟩
def setValues (metric : CellMetric) (level : LevelID) (id : CellID) (values : Values) : CellMetric :=
  ⟨Function.update metric.weights level (Function.update (metric.weights level) id values.weights),
    Function.update metric.durations level (Function.update (metric.durations level) id values.durations),
    Function.update metric.distances level (Function.update (metric.distances level) id values.distances)⟩

section customize
variable {P : MultiLevelPartition} (graph : MultiLevelGraph P) (allowed_nodes : NodeID → Bool) (fuel : ℕ)

/-- What is written for the destinations: the keys and the data of those that were inserted. -/
def writeRow (heap : Heap) (destinations : List NodeID) (position : ℕ) (values : Values) : Values :=
  ⟨writeRange values.weights position (destinations.map fun destination =>
      ((heap.GetHeapNodeIfWasInserted destination).map (·.weight)).getD INVALID_EDGE_WEIGHT),
    writeRange values.durations position (destinations.map fun destination =>
      ((heap.GetHeapNodeIfWasInserted destination).map (·.data.duration)).getD MAXIMAL_EDGE_DURATION),
    writeRange values.distances position (destinations.map fun destination =>
      ((heap.GetHeapNodeIfWasInserted destination).map (·.data.distance)).getD INVALID_EDGE_DISTANCE)⟩

def customizeSource (metric : CellMetric) (level : LevelID) (id : CellID) (values : Values) (source : NodeID) : Option Values :=
  let destinations := destination_boundary graph level id
  if !allowed_nodes source then some values
  else (explored graph allowed_nodes metric level fuel source destinations).map fun heap =>
    writeRow heap destinations (destinations.length * (source_boundary graph level id).idxOf source) values

/-- `Customize` for a cell. It reads the metric of the level below and writes the values of the cell. -/
def CustomizeCell (level : LevelID) (metric : CellMetric) (id : CellID) : Option CellMetric :=
  ((source_boundary graph level id).foldlM (customizeSource graph allowed_nodes fuel metric level id)
    (cellValues metric level id)).map (setValues metric level id)
def CustomizeLevel (order : LevelID → List CellID) (metric : CellMetric) (level : LevelID) : Option CellMetric :=
  (order level).foldlM (CustomizeCell graph allowed_nodes fuel level) metric
def Customize (order : LevelID → List CellID) (metric : CellMetric) : Option CellMetric :=
  (List.range' 1 (P.GetNumberOfLevels - 1)).foldlM (CustomizeLevel graph allowed_nodes fuel order) metric

end customize

section spec
variable {P : MultiLevelPartition} (graph : MultiLevelGraph P) (allowed_nodes : NodeID → Bool)

def weightArcs : Arcs NodeID := graph.arcs (·.data.weight) .FORWARD
def costArcs : NodeID → NodeID → ℤ × ℤ × ℤ → Prop := fun x y c =>
  ∃ edge ∈ graph.GetAdjacentEdgeRange x, edge.1.target = y ∧ edge.1.data.forward = true ∧
    c = (edge.1.data.weight,edge.1.data.duration,edge.1.data.distance)

/-- The weight is that of a shortest way inside the cell, and the duration and the distance are those of such a way. -/
structure Fitting (level : LevelID) (id : CellID) (x y : NodeID) (weight : EdgeWeight) (duration : EdgeDuration)
    (distance : EdgeDistance) : Prop where
  measures : Measures (weightArcs graph) (inCell P allowed_nodes level id) x y weight
  belongs : weight ≠ INVALID_EDGE_WEIGHT → Trip (fun u v c => inCell P allowed_nodes level id u ∧
    inCell P allowed_nodes level id v ∧ costArcs graph u v c) x y (weight,duration,distance)
  unreachable : weight = INVALID_EDGE_WEIGHT → duration = MAXIMAL_EDGE_DURATION ∧ distance = INVALID_EDGE_DISTANCE

def FittingRow (level : LevelID) (id : CellID) (row : ℕ) (x : NodeID) (values : Values) : Prop :=
  ∀ column y, (destination_boundary graph level id)[column]? = some y →
    Fitting graph allowed_nodes level id x y (values.weights ((destination_boundary graph level id).length * row + column))
      (values.durations ((destination_boundary graph level id).length * row + column))
      (values.distances ((destination_boundary graph level id).length * row + column))

def FittingCell (metric : CellMetric) (level : LevelID) (id : CellID) : Prop :=
  ∀ row x, (source_boundary graph level id)[row]? = some x →
    FittingRow graph allowed_nodes level id row x (cellValues metric level id)
def FittingLevel (metric : CellMetric) (level : LevelID) : Prop := ∀ id, FittingCell graph allowed_nodes metric level id

/-- Two sets of values that agree in a row. -/
def SameRow (width row : ℕ) (values values' : Values) : Prop := ∀ column < width,
  values'.weights (width * row + column) = values.weights (width * row + column) ∧
    values'.durations (width * row + column) = values.durations (width * row + column) ∧
    values'.distances (width * row + column) = values.distances (width * row + column)

variable {graph allowed_nodes} {metric metric' : CellMetric} {level : LevelID} {id : CellID}

theorem FittingRow.congr {row : ℕ} {x : NodeID} {values values' : Values}
    (same : SameRow (destination_boundary graph level id).length row values values')
    (fitting : FittingRow graph allowed_nodes level id row x values) : FittingRow graph allowed_nodes level id row x values' := by
  intro column y destination
  obtain ⟨weight,duration,distance⟩ := same column (List.getElem?_eq_some_iff.mp destination).1
  rw [weight,duration,distance]
  exact fitting column y destination

theorem FittingCell.congr (same : cellValues metric' level id = cellValues metric level id)
    (fitting : FittingCell graph allowed_nodes metric level id) : FittingCell graph allowed_nodes metric' level id := by
  intro row x source
  rw [same]
  exact fitting row x source

theorem FittingLevel.exactAt (fitting : FittingLevel graph allowed_nodes metric level) :
    ExactAt graph (weightArcs graph) allowed_nodes metric level := by
  rintro id x y w ⟨row,column,source,destination,rfl⟩
  exact (fitting id row x source column y destination).measures

end spec

/-! ### The candidates of a step -/

private theorem subcellCandidates_eq {allowed_nodes : NodeID → Bool} {heapNode : HeapNode NodeID HeapData} {weights durations distances : List ℤ}
    {destinations : List NodeID}
    (usable : ∀ entry ∈ weights.zip destinations, entry.1 ≠ INVALID_EDGE_WEIGHT → allowed_nodes entry.2 = true) :
    subcellCandidates allowed_nodes heapNode weights destinations durations distances =
      (weights.zip (destinations.zip (durations.zip distances))).filterMap fun (weight,other,duration,distance) =>
        if weight != INVALID_EDGE_WEIGHT then
          some ⟨other,heapNode.weight + weight,fun _ => ⟨true,heapNode.data.duration + duration,heapNode.data.distance + distance⟩⟩
        else none := by
  induction weights generalizing destinations durations distances with
  | nil => rw [subcellCandidates.eq_def]; rfl
  | cons weight weights ih =>
    cases destinations with
    | nil => rfl
    | cons other destinations =>
      cases durations with
      | nil => rfl
      | cons duration durations =>
        cases distances with
        | nil => rfl
        | cons distance distances =>
          have first := usable (weight,other) (by simp)
          have rest := @ih durations distances destinations fun entry member => usable entry (mem_cons_of_mem _ member)
          rw [subcellCandidates]
          by_cases valid : weight = INVALID_EDGE_WEIGHT
          · simp [valid,rest]
          · simp [valid,first valid,rest]

section idle
variable {Node Data : Type} [DecidableEq Node] {less : ℤ → Data → ℤ → Data → Bool} {heap : QueryHeap Node Data}
  {c : QueryHeap.Candidate Node Data} {cs : List (QueryHeap.Candidate Node Data)} {e : HeapNode Node Data}

private theorem find_write {node : Node} {weight : ℤ} {data : Data} {l : List (HeapNode Node Data)} (apart : e.node ≠ node)
    (found : l.find? (fun e' => e'.node = e.node) = some e) :
    (QueryHeap.write node weight data l).find? (fun e' => e'.node = e.node) = some e := by
  induction l with
  | nil => cases found
  | cons first older ih =>
    rw [QueryHeap.write]
    by_cases here : first.node = node
    · have other : first.node ≠ e.node := fun same => apart (same.symm.trans here)
      rw [if_pos here]
      simpa [other] using found
    · rw [if_neg here]
      by_cases same : first.node = e.node
      · simpa [same] using found
      · simp only [same,decide_false,Bool.false_eq_true,not_false_eq_true,find?_cons_of_neg] at found ⊢
        exact ih found

private theorem find_insertOrUpdate (apart : e.node ≠ c.node) (found : heap.GetHeapNodeIfWasInserted e.node = some e) :
    (heap.insertOrUpdate less c).GetHeapNodeIfWasInserted e.node = some e := by
  unfold QueryHeap.insertOrUpdate
  split
  · simpa [QueryHeap.GetHeapNodeIfWasInserted,QueryHeap.Insert,apart.symm] using found
  · split
    · exact find_write apart found
    · exact found

private theorem insertOrUpdateAll_filter (found : heap.GetHeapNodeIfWasInserted e.node = some e)
    (idle : ∀ c ∈ cs, e.node = c.node → ∀ old, less c.weight (c.data old) e.weight e.data = false) :
    heap.insertOrUpdateAll less cs = heap.insertOrUpdateAll less (cs.filter fun c => e.node ≠ c.node) := by
  induction cs generalizing heap with
  | nil => rfl
  | cons c rest ih =>
    have later := fun c' inside => idle c' (mem_cons_of_mem _ inside)
    by_cases same : e.node = c.node
    · have kept : heap.insertOrUpdate less c = heap := by
        rw [QueryHeap.insertOrUpdate,← same,found]
        simp [idle c (by simp) same]
      have others : (c :: rest).filter (fun c => e.node ≠ c.node) = rest.filter fun c => e.node ≠ c.node := by simp [same]
      rw [others,← ih found later,QueryHeap.insertOrUpdateAll,foldl_cons,kept]
      rfl
    · have others : (c :: rest).filter (fun c => e.node ≠ c.node) = c :: rest.filter fun c => e.node ≠ c.node := by simp [same]
      rw [others]
      exact ih (find_insertOrUpdate same found) later

end idle

section step
variable {P : MultiLevelPartition} (graph : MultiLevelGraph P) (allowed_nodes : NodeID → Bool) (metric : CellMetric)
  (level : LevelID) (id : CellID) (s : NodeID)

def cellCosts : NodeID → NodeID → ℤ × ℤ × ℤ → Prop := fun u v c =>
  inCell P allowed_nodes level id u ∧ inCell P allowed_nodes level id v ∧ costArcs graph u v c
abbrev cellArcs : Arcs NodeID := within (inCell P allowed_nodes level id) (weightArcs graph)
abbrev throughArcs : Arcs NodeID := cliqueArcs graph metric (fun _ => level - 1) (inCell P allowed_nodes level id)
abbrev overlayArcs : Arcs NodeID :=
  overlay (cellArcs graph allowed_nodes level id) (throughArcs graph allowed_nodes metric level id) (inside P fun _ => level - 1)

/-- What the search in a cell keeps up. -/
def overlaid : CliqueSearch.Overlaid NodeID HeapData where
  border := border (cellArcs graph allowed_nodes level id) (inside P fun _ => level - 1)
  clique := throughArcs graph allowed_nodes metric level id
  fromClique d := d.from_clique
  Source x o := x = s ∧ o = 0
  Sound x k := inCell P allowed_nodes level id x ∧ Walk (overlayArcs graph allowed_nodes metric level id) s x k
  Mark x k d := Trip (cellCosts graph allowed_nodes level id) s x (k,d.duration,d.distance)
  Root x k d := x = s ∧ k = 0 ∧ d = ⟨false,0,0⟩
  Link p d' x d w := (d.from_clique = true ∧ d'.from_clique = false ∧ throughArcs graph allowed_nodes metric level id p x w ∨
      d.from_clique = false ∧ border (cellArcs graph allowed_nodes level id) (inside P fun _ => level - 1) p x w) ∧
    Trip (cellCosts graph allowed_nodes level id) p x (w,d.duration - d'.duration,d.distance - d'.distance)

/-- What the search in a cell relies on: the level below is done. -/
structure Ready : Prop where
  mirrored : graph.Mirrored
  positive : Positive (weightArcs graph)
  low : 1 ≤ level
  high : level < P.GetNumberOfLevels
  below : 2 ≤ level → FittingLevel graph allowed_nodes metric (level - 1)

variable {graph allowed_nodes metric level id s} (ready : Ready graph allowed_nodes metric level)
include ready

private theorem Ready.layered : Layered P allowed_nodes (fun _ => level - 1) (inCell P allowed_nodes level id) :=
  layered_cell ready.low ready.high id
private theorem Ready.exactFor : ExactFor graph (weightArcs graph) allowed_nodes metric (fun _ => level - 1) (inCell P allowed_nodes level id) :=
  fun _ _ above => (ready.below (by lia)).exactAt

variable {x y : NodeID}

private theorem Ready.arcs {w : ℤ} (arc : (overlaid graph allowed_nodes metric level id s).arcs x y w) :
    inCell P allowed_nodes level id x ∧ inCell P allowed_nodes level id y ∧ 0 < w := by
  rcases arc with ⟨⟨here,there,base⟩,_⟩ | through
  · exact ⟨here,there,ready.positive _ _ _ base⟩
  · obtain ⟨here,there,apart,_,shortest⟩ := ready.layered.clique_spec ready.exactFor through
    refine ⟨here,there,?_⟩
    by_contra low
    exact apart (shortest.1.eq_of_nonpos ready.positive.within.within (by lia))

private theorem Ready.lawful : (overlaid graph allowed_nodes metric level id s).Lawful := by
  have link_arc : ∀ {p d' x d w}, (overlaid graph allowed_nodes metric level id s).Link p d' x d w →
      (overlaid graph allowed_nodes metric level id s).arcs p x w := by
    rintro p d' x d w ⟨⟨_,_,through⟩ | ⟨_,outer⟩,_⟩
    · exact .inr through
    · exact .inl outer
  refine ⟨fun x y w arc => (ready.arcs arc).2.2,?_,?_,link_arc,?_,?_,?_⟩
  · exact fun one two apart => ready.layered.clique_triangle ready.exactFor one two apart
  · rintro x k d ⟨_,_,rfl⟩
    rfl
  · rintro p d' x d w ⟨⟨_,plain,through⟩ | ⟨other,_⟩,_⟩ reached
    · exact ⟨through,plain⟩
    · exact absurd (other.symm.trans reached) (by decide)
  · rintro p k d' x d w ⟨_,walk⟩ link
    exact ⟨(ready.arcs (link_arc link)).2.1,walk.snoc (link_arc link)⟩
  · rintro p k d' x d w trip ⟨_,onward⟩
    have whole : Trip (cellCosts graph allowed_nodes level id) s x (k + w,d.duration,d.distance) := by
      simpa using Trip.append trip onward
    exact whole

variable {heapNode : HeapNode NodeID HeapData} {c : QueryHeap.Candidate NodeID HeapData}

private theorem Ready.mem_clique (above : 2 ≤ level) :
    let subcell_id := P.GetCell (level - 1) heapNode.node
    let destinations := destination_boundary graph (level - 1) subcell_id
    c ∈ cliqueCandidates graph allowed_nodes metric level heapNode ↔
      ∃ row column y, (source_boundary graph (level - 1) subcell_id)[row]? = some heapNode.node ∧ destinations[column]? = some y ∧
        metric.weights (level - 1) subcell_id (destinations.length * row + column) ≠ INVALID_EDGE_WEIGHT ∧
        c = ⟨y,heapNode.weight + metric.weights (level - 1) subcell_id (destinations.length * row + column),
          fun _ => ⟨true,heapNode.data.duration + metric.durations (level - 1) subcell_id (destinations.length * row + column),
            heapNode.data.distance + metric.distances (level - 1) subcell_id (destinations.length * row + column)⟩⟩ := by
  intro subcell_id destinations
  set subcell := GetCell graph metric (level - 1) subcell_id
  have fitting := ready.below above subcell_id
  have usable : ∀ entry ∈ (subcell.GetOutWeight heapNode.node).zip subcell.destination_boundary,
      entry.1 ≠ INVALID_EDGE_WEIGHT → allowed_nodes entry.2 = true := by
    rintro ⟨w,y⟩ member valid
    obtain ⟨row,column,source,destination,rfl⟩ := (mem_outRange source_boundary_nodup).mp member
    have measures := (fitting row _ source column y destination).measures
    by_contra forbidden
    exact valid (measures.1.mpr fun both => forbidden both.2.1.2)
  have at_column {row column : ℕ} {y : NodeID} (source : (source_boundary graph (level - 1) subcell_id)[row]? = some heapNode.node)
      (destination : destinations[column]? = some y) (values : ℕ → ℤ) :
      (subcell.GetOutRange values heapNode.node)[column]? = some (values (destinations.length * row + column)) := by
    have here : (List.range destinations.length)[column]? = some column := getElem?_range (List.getElem?_eq_some_iff.mp destination).1
    rw [outRange_of_source source_boundary_nodup source,getElem?_map]
    exact congrArg _ here
  rw [cliqueCandidates,subcellCandidates_eq usable,mem_filterMap]
  constructor
  · rintro ⟨⟨w,y,d,t⟩,member,made⟩
    obtain ⟨column,found⟩ := mem_iff_getElem?.mp member
    obtain ⟨one,others⟩ := getElem?_zip_eq_some.mp found
    obtain ⟨two,rest⟩ := getElem?_zip_eq_some.mp others
    obtain ⟨three,four⟩ := getElem?_zip_eq_some.mp rest
    obtain ⟨row,_,source,_⟩ := (mem_outRange source_boundary_nodup).mp
      (mem_iff_getElem?.mpr ⟨column,getElem?_zip_eq_some.mpr ⟨one,two⟩⟩)
    cases (at_column source two _).symm.trans one
    cases (at_column source two _).symm.trans three
    cases (at_column source two _).symm.trans four
    simp only at made
    split at made
    · rename_i valid
      exact ⟨row,column,y,source,two,by simpa using valid,(Option.some.inj made).symm⟩
    · cases made
  · rintro ⟨row,column,y,source,destination,valid,rfl⟩
    refine ⟨(_,y,_,_),mem_iff_getElem?.mpr ⟨column,getElem?_zip_eq_some.mpr ⟨at_column source destination _,
      getElem?_zip_eq_some.mpr ⟨destination,
        getElem?_zip_eq_some.mpr ⟨at_column source destination _,at_column source destination _⟩⟩⟩⟩,?_⟩
    simp only [subcell,GetCell]
    rw [if_pos (by simpa using valid)]

private theorem Ready.trip_nonneg {level' : LevelID} {id' : CellID} {w d t : ℤ}
    (trip : Trip (cellCosts graph allowed_nodes level' id') x y (w,d,t)) : 0 ≤ w := by
  have walk : Walk (weightArcs graph) x y w := trip.walk (AddMonoidHom.fst ℤ (ℤ × ℤ)) (by
    rintro u v c ⟨_,_,edge,member,target,forward,rfl⟩
    exact ⟨edge,member,target,forward,rfl⟩)
  exact walk.nonneg ready.positive

private theorem Ready.trip_zero {level' : LevelID} {id' : CellID} {d t : ℤ}
    (trip : Trip (cellCosts graph allowed_nodes level' id') x y (0,d,t)) : d = 0 ∧ t = 0 := by
  generalize whole : ((0,d,t) : ℤ × ℤ × ℤ) = costs at trip
  cases trip with
  | nil =>
    cases whole
    exact ⟨rfl,rfl⟩
  | @cons _ y _ c c' arc rest =>
    obtain ⟨w,d',t'⟩ := c'
    have more := ready.trip_nonneg rest
    obtain ⟨_,_,edge,member,target,forward,rfl⟩ := arc
    have first := ready.positive _ _ _ ⟨edge,member,target,forward,rfl⟩
    have sum : 0 = edge.1.data.weight + w := congrArg Prod.fst whole
    lia

private theorem Ready.trip_cell (above : 2 ≤ level) {c : ℤ × ℤ × ℤ} (known : inCell P allowed_nodes level id x)
    (trip : Trip (cellCosts graph allowed_nodes (level - 1) (P.GetCell (level - 1) x)) x y c) :
    Trip (cellCosts graph allowed_nodes level id) x y c := by
  have low : 1 ≤ level - 1 := by lia
  have kept (z : NodeID) (here : inCell P allowed_nodes (level - 1) (P.GetCell (level - 1) x) z) : inCell P allowed_nodes level id z :=
    ((ready.layered.mem_cell low known).mp here).2
  exact trip.mono fun u v c arc => ⟨kept u arc.1,kept v arc.2.1,arc.2.2⟩

private theorem Ready.clique_link (above : 2 ≤ level) (known : inCell P allowed_nodes level id heapNode.node)
    (plain : heapNode.data.from_clique = false)
    (member : c ∈ cliqueCandidates graph allowed_nodes metric level heapNode) :
    if heapNode.node = c.node then ∀ old, tied c.weight (c.data old) heapNode.weight heapNode.data = false
    else ∃ w, c.weight = heapNode.weight + w ∧
      ∀ old, (overlaid graph allowed_nodes metric level id s).Link heapNode.node heapNode.data c.node (c.data old) w := by
  obtain ⟨row,column,y,source,destination,valid,rfl⟩ := (ready.mem_clique above).mp member
  have fitting := ready.below above _ row _ source column y destination
  have trip := ready.trip_cell above known (fitting.belongs valid)
  split_ifs with same
  · -- a way from the node to itself weighs nothing
    simp only at same
    subst same
    intro old
    have least := (fitting.measures.2 valid).2 0 (.nil _)
    have zero := le_antisymm least (ready.trip_nonneg trip)
    simp only [cellValues] at zero trip
    rw [zero] at trip
    obtain ⟨duration,distance⟩ := ready.trip_zero trip
    simp [tied,zero,duration,distance]
  · refine ⟨_,rfl,fun old => ⟨.inl ⟨rfl,plain,known,by lia,same,valid,row,column,source,destination,rfl⟩,?_⟩⟩
    simpa [cellValues] using trip

private theorem Ready.base_link (known : inCell P allowed_nodes level id heapNode.node)
    (member : c ∈ baseCandidates graph allowed_nodes level heapNode) : ∃ w, c.weight = heapNode.weight + w ∧
      ∀ old, (overlaid graph allowed_nodes metric level id s).Link heapNode.node heapNode.data c.node (c.data old) w := by
  obtain ⟨edge,range,made⟩ := mem_filterMap.mp member
  split at made
  · rename_i holds
    simp only [Bool.and_eq_true,Bool.or_eq_true,beq_iff_eq,bne_iff_ne,ne_eq] at holds
    cases made
    obtain ⟨adjacent,near⟩ := graph.mem_internal.mp range
    have arc : weightArcs graph heapNode.node edge.1.target edge.1.data.weight := ⟨edge,adjacent,rfl,holds.1.2,rfl⟩
    have cells := (P.highest_lt_iff ready.low ready.high).mp near
    have there : inCell P allowed_nodes level id edge.1.target := ⟨cells.symm.trans known.1,holds.1.1⟩
    refine ⟨_,rfl,fun old => ⟨.inr ⟨rfl,⟨known,there,arc⟩,?_⟩,?_⟩⟩
    · intro close
      rw [inside] at close
      rcases holds.2 with first | apart
      · rw [first] at close
        exact Nat.not_lt_zero _ close
      · have high := ready.high
        exact apart ((P.highest_lt_iff (by lia) (by lia)).mp close)
    · refine Trip.single ⟨known,there,edge,adjacent,rfl,holds.1.2,?_⟩
      simp
  · cases made

private theorem Ready.base_covers {y : NodeID} {w : ℤ} (arc : (overlaid graph allowed_nodes metric level id s).border heapNode.node y w) :
    ∃ c ∈ baseCandidates graph allowed_nodes level heapNode, c.node = y ∧ c.weight = heapNode.weight + w := by
  obtain ⟨⟨here,there,edge,adjacent,rfl,usable,rfl⟩,apart⟩ := arc
  have near : P.GetHighestDifferentLevel heapNode.node edge.1.target < level :=
    (P.highest_lt_iff ready.low ready.high).mpr (here.1.trans there.1.symm)
  have across : level = 1 ∨ ¬ P.GetCell (level - 1) heapNode.node = P.GetCell (level - 1) edge.1.target := by
    by_cases first : level = 1
    · exact .inl first
    · have low := ready.low
      have high := ready.high
      exact .inr fun same => apart ((P.highest_lt_iff (by lia) (by lia)).mpr same)
  refine ⟨_,mem_filterMap.mpr ⟨edge,graph.mem_internal.mpr ⟨adjacent,near⟩,if_pos ?_⟩,rfl,rfl⟩
  have forward : edge.1.data.forward = true := usable
  simp only [there.2,forward,Bool.and_self,Bool.true_and,Bool.or_eq_true,beq_iff_eq,bne_iff_ne,ne_eq]
  exact across

private theorem Ready.clique_covers {y : NodeID} {w : ℤ} (arc : (overlaid graph allowed_nodes metric level id s).clique heapNode.node y w) :
    level ≠ 1 ∧ heapNode.node ≠ y ∧
      ∃ c ∈ cliqueCandidates graph allowed_nodes metric level heapNode, c.node = y ∧ c.weight = heapNode.weight + w := by
  obtain ⟨_,above,apart,valid,row,column,source,destination,rfl⟩ := arc
  exact ⟨by lia,apart,_,(ready.mem_clique (by lia)).mpr ⟨row,column,y,source,destination,valid,rfl⟩,rfl,rfl⟩

omit ready in
private theorem tied_byWeight : ByWeight tied := by
  intro w d w' d'
  simp only [tied,Bool.or_eq_true,Bool.and_eq_true,Bool.or_eq_false_iff,Bool.and_eq_false_iff,decide_eq_true_eq,
    decide_eq_false_iff_not,beq_iff_eq,beq_eq_false_iff_ne]
  lia

private theorem Ready.relax_step {heap rest : Heap} {limit : ℤ}
    (inv : Search.Invariant (overlaid graph allowed_nodes metric level id s).direction heap limit)
    (distinct : (heap.inserted_nodes.map (·.node)).Nodup) (popped : heap.DeleteMin = some (heapNode,rest)) :
    (∃ cs, Extends cs rest (RelaxNode graph allowed_nodes metric level heapNode rest)) ∧
      Search.Invariant (overlaid graph allowed_nodes metric level id s).direction
        (RelaxNode graph allowed_nodes metric level heapNode rest) limit := by
  have spec := deleteMin_spec popped
  have known : inCell P allowed_nodes level id heapNode.node := (inv.sound heapNode spec.member).1
  have lawful : (overlaid graph allowed_nodes metric level id s).Lawful := ready.lawful
  have entry : rest.GetHeapNodeIfWasInserted heapNode.node = some { heapNode with removed := true } :=
    find_unique (e := { heapNode with removed := true }) (spec.nodes ▸ distinct) spec.settled
  -- the node itself is among the destinations of its sub-cell, and is left as it is
  generalize through_eq : (if level != 1 && !heapNode.data.from_clique then
    cliqueCandidates graph allowed_nodes metric level heapNode else []) = through
  have through_link : ∀ c ∈ through, if heapNode.node = c.node then
      ∀ old, tied c.weight (c.data old) heapNode.weight heapNode.data = false
      else ∃ w, c.weight = heapNode.weight + w ∧
        ∀ old, (overlaid graph allowed_nodes metric level id s).Link heapNode.node heapNode.data c.node (c.data old) w := by
    intro c member
    rw [← through_eq] at member
    split at member
    · rename_i holds
      simp only [Bool.and_eq_true,bne_iff_ne,ne_eq,Bool.not_eq_true'] at holds
      have low := ready.low
      exact ready.clique_link (by lia) known holds.2 member
    · cases member
  have same : RelaxNode graph allowed_nodes metric level heapNode rest =
      rest.insertOrUpdateAll tied (through.filter (fun c => heapNode.node ≠ c.node) ++ baseCandidates graph allowed_nodes level heapNode) := by
    have filtered := @insertOrUpdateAll_filter _ _ _ tied rest through { heapNode with removed := true } entry
      fun c member here => by
        have linked := through_link c member
        rwa [if_pos (show heapNode.node = c.node from here)] at linked
    rw [RelaxNode,relaxCandidates]
    simp only [QueryHeap.insertOrUpdateAll,foldl_append] at filtered ⊢
    rw [← filtered,← through_eq]
  have link : ∀ c ∈ through.filter (fun c => heapNode.node ≠ c.node) ++ baseCandidates graph allowed_nodes level heapNode,
      ∃ w, c.weight = heapNode.weight + w ∧
        ∀ old, (overlaid graph allowed_nodes metric level id s).Link heapNode.node heapNode.data c.node (c.data old) w := by
    intro c member
    rcases mem_append.mp member with inner | outer
    · obtain ⟨member,apart⟩ := mem_filter.mp inner
      have linked := through_link c member
      rwa [if_neg (by simpa using apart)] at linked
    · exact ready.base_link known outer
  have ext := insertOrUpdateAll_extends tied_byWeight _ (Search.settled_le inv spec) (by
    intro c member
    obtain ⟨w,weight,linked⟩ := link c member
    have := lawful.positive _ _ _ (lawful.arc (linked none))
    lia)
  rw [same]
  refine ⟨⟨_,ext⟩,CliqueSearch.step lawful inv spec ext le_rfl link ?_ ?_⟩
  · intro y w arc
    obtain ⟨c,member,node,weight⟩ := ready.base_covers arc
    exact ⟨c,mem_append_right _ member,node,weight.le⟩
  · intro plain y w arc
    have plain' : heapNode.data.from_clique = false := plain
    obtain ⟨upper,apart,c,member,node,weight⟩ := ready.clique_covers arc
    refine ⟨c,mem_append_left _ (mem_filter.mpr ⟨?_,by simpa [node] using apart⟩),node,weight.le⟩
    rw [← through_eq,if_pos (by simp [upper,plain'])]
    exact member

omit ready in
private theorem relax_work {heap : Heap} : work (List.range graph.number_of_nodes) (RelaxNode graph allowed_nodes metric level heapNode heap) ≤
    work (List.range graph.number_of_nodes) heap := by
  refine work_insertOrUpdateAll _ fun c member => mem_range.mpr ?_
  rcases mem_append.mp member with through | outer
  · split at through
    · -- the destinations that are left are always the last ones of the sub-cell
      have labelled : ∀ weights destinations durations distances,
          c ∈ subcellCandidates allowed_nodes heapNode weights destinations durations distances → c.node ∈ destinations := by
        intro weights destinations durations distances member
        fun_induction subcellCandidates allowed_nodes heapNode weights destinations durations distances with
        | case1 weight weights other destinations duration durations distance distances _ _ ih => exact ih member
        | case2 weight weights other destinations duration durations distance distances _ _ ih =>
          rcases mem_cons.mp member with rfl | later
          · exact mem_cons_self
          · exact mem_cons_of_mem _ (ih later)
        | case3 weight weights other destinations duration durations distance distances _ ih =>
          exact mem_cons_of_mem _ (ih member)
        | case4 => cases member
      exact destination_lt (labelled _ _ _ _ through)
    · cases through
  · obtain ⟨edge,range,made⟩ := mem_filterMap.mp outer
    split at made
    · cases made
      obtain ⟨found,_⟩ := graph.mem_adjacent.mp (graph.mem_internal.mp range).1
      exact (graph.bounded _ (mem_of_getElem? found)).2
    · cases made

end step

/-! ### The search of a source -/

section explore
variable {P : MultiLevelPartition} {graph : MultiLevelGraph P} {allowed_nodes : NodeID → Bool} {metric : CellMetric}
  {level : LevelID} {id : CellID} {s y : NodeID}

variable (graph allowed_nodes metric level id s) in
/-- What the loop keeps up: a destination that was taken out of the set is settled. -/
structure Exploring (targets : Finset NodeID) (state : SearchState) : Prop where
  inv : ∀ limit, Search.Invariant (overlaid graph allowed_nodes metric level id s).direction state.heap limit
  distinct : (state.heap.inserted_nodes.map (·.node)).Nodup
  targets : ∀ y ∈ targets, y ∈ state.destinations_set ∨ ∃ k d, Search.settled state.heap y k d

variable {targets : Finset NodeID} {state : SearchState} (ready : Ready graph allowed_nodes metric level)
include ready

private theorem Exploring.step (exploring : Exploring graph allowed_nodes metric level id s targets state) (more : running state = true) :
    Exploring graph allowed_nodes metric level id s targets (searchStep graph allowed_nodes metric level state) ∧
      work (List.range graph.number_of_nodes) (searchStep graph allowed_nodes metric level state).heap <
        work (List.range graph.number_of_nodes) state.heap := by
  have filled : state.heap.Empty = false := by
    rw [running,Bool.and_eq_true,Bool.not_eq_true'] at more
    exact more.1
  obtain ⟨heapNode,rest,popped⟩ := deleteMin_of_not_empty filled
  have spec := deleteMin_spec popped
  obtain ⟨⟨cs,ext⟩,_⟩ := ready.relax_step (exploring.inv 0) exploring.distinct popped
  rw [searchStep,popped]
  simp only
  constructor
  · refine ⟨fun limit => (ready.relax_step (exploring.inv limit) exploring.distinct popped).2,ext.distinct (spec.nodes ▸ exploring.distinct),?_⟩
    intro y wanted
    by_cases here : y = heapNode.node
    · subst here
      exact .inr ⟨_,_,ext.settled _ spec.settled rfl⟩
    · refine (exploring.targets y wanted).imp (fun member => Finset.mem_erase.mpr ⟨here,member⟩) ?_
      rintro ⟨k,d,gone⟩
      exact ⟨k,d,ext.settled _ (Search.settled_pop spec gone) rfl⟩
  · have less := @work_pop _ _ _ _ _ (List.range graph.number_of_nodes) _ popped
    have same := @relax_work P graph allowed_nodes metric level heapNode rest
    lia

private theorem Exploring.shortest (exploring : Exploring graph allowed_nodes metric level id s targets state) {k : ℤ} {d : HeapData}
    (gone : Search.settled state.heap y k d) :
    Shortest (overlayArcs graph allowed_nodes metric level id) s y k := by
  have positive : Positive (overlaid graph allowed_nodes metric level id s).direction.arcs := fun _ _ _ arc => (ready.arcs arc).2.2
  refine ⟨((exploring.inv 0).sound _ gone).2,fun n walk => ?_⟩
  rcases (exploring.inv n).frontier positive (fun _ _ skipped => skipped) ⟨rfl,rfl⟩ walk (by lia) with
    ⟨k',le,d',gone'⟩ | ⟨e,member,alive,m,rest,total⟩
  · have same := inj_on_of_nodup_map exploring.distinct gone gone' rfl
    obtain ⟨_,rfl,_⟩ := HeapNode.mk.inj same
    lia
  · have order := (exploring.inv 0).ordered _ gone rfl e member alive
    have low := rest.nonneg positive
    simp only at order
    lia

private theorem Exploring.reached (exploring : Exploring graph allowed_nodes metric level id s targets state) (done : state.heap.Empty = true)
    {n : ℤ} (walk : Walk (overlayArcs graph allowed_nodes metric level id) s y n) :
    ∃ k d, Search.settled state.heap y k d := by
  have positive : Positive (overlaid graph allowed_nodes metric level id s).direction.arcs := fun _ _ _ arc => (ready.arcs arc).2.2
  rcases (exploring.inv n).frontier positive (fun _ _ skipped => skipped) ⟨rfl,rfl⟩ walk (by lia) with
    ⟨k,_,d,gone⟩ | ⟨e,member,alive,_⟩
  · exact ⟨k,d,gone⟩
  · have removed := empty_iff.mp done e member
    rw [alive] at removed
    cases removed

theorem explored_spec (known : inCell P allowed_nodes level id s) (destinations : List NodeID) : ∃ final, (∀ fuel ≥ 2 * graph.number_of_nodes + 1,
        explored graph allowed_nodes metric level fuel s destinations = some final.heap) ∧
      Exploring graph allowed_nodes metric level id s (destinations.filter fun y => allowed_nodes y).toFinset final ∧ running final = false := by
  have entry : ∀ e ∈ (startState allowed_nodes s destinations).heap.inserted_nodes, e = ⟨s,0,⟨false,0,0⟩,false⟩ := by
    simp [startState,QueryHeap.Insert,QueryHeap.Clear]
  have start : Exploring graph allowed_nodes metric level id s (destinations.filter fun y => allowed_nodes y).toFinset
      (startState allowed_nodes s destinations) := by
    refine ⟨fun limit => Search.Invariant.start ?_ ?_ ?_ ?_,by simp [startState,QueryHeap.Insert,QueryHeap.Clear],fun y wanted => .inl wanted⟩
    · rintro x o ⟨rfl,rfl⟩
      exact ⟨⟨x,0,⟨false,0,0⟩,false⟩,by simp [startState,QueryHeap.Insert],rfl,le_rfl⟩
    · intro e member
      rw [entry e member]
    · intro e member
      rw [entry e member]
      exact ⟨known,.nil s⟩
    · intro e member
      rw [entry e member]
      exact ⟨.nil s,.inl ⟨rfl,rfl,rfl⟩⟩
  have bounded : work (List.range graph.number_of_nodes) (startState allowed_nodes s destinations).heap ≤ 2 * graph.number_of_nodes + 1 := by
    have missing := countP_le_length (l := List.range graph.number_of_nodes)
      (p := fun x => !(startState allowed_nodes s destinations).heap.WasInserted x)
    have size : (startState allowed_nodes s destinations).heap.Size = 1 := by
      simp [startState,QueryHeap.Size,QueryHeap.Insert,QueryHeap.Clear]
    rw [length_range] at missing
    rw [work,size]
    lia
  obtain ⟨final,ran,exploring,stopped⟩ := Loops.whileLoop_total
    (Exploring graph allowed_nodes metric level id s (destinations.filter fun y => allowed_nodes y).toFinset)
    (fun state => work (List.range graph.number_of_nodes) state.heap) (fun state holds more => (holds.step ready more).1)
    (fun state holds more => (holds.step ready more).2) _ _ start le_rfl
  refine ⟨final,fun fuel enough => ?_,exploring,stopped⟩
  rw [explored,Loops.whileLoop_mono ran (bounded.trans enough)]
  rfl

theorem Exploring.fitting
    (light : ∀ d, Shortest (cellArcs graph allowed_nodes level id) s y d → d < INVALID_EDGE_WEIGHT)
    (source : s ∈ source_boundary graph level id) (destination : y ∈ destination_boundary graph level id)
    (known : inCell P allowed_nodes level id s) {destinations : List NodeID} (listed : y ∈ destinations)
    (exploring : Exploring graph allowed_nodes metric level id s (destinations.filter fun y => allowed_nodes y).toFinset state)
    (stopped : running state = false) : Fitting graph allowed_nodes level id s y
      (((state.heap.GetHeapNodeIfWasInserted y).map (·.weight)).getD INVALID_EDGE_WEIGHT)
      (((state.heap.GetHeapNodeIfWasInserted y).map (·.data.duration)).getD MAXIMAL_EDGE_DURATION)
      (((state.heap.GetHeapNodeIfWasInserted y).map (·.data.distance)).getD INVALID_EDGE_DISTANCE) := by
  have covers : Covers (cellArcs graph allowed_nodes level id) (throughArcs graph allowed_nodes metric level id)
      (inside P fun _ => level - 1) (visible graph fun _ => level - 1) := ready.layered.covers ready.exactFor ready.mirrored ready.positive
  have seenS : visible graph (fun _ => level - 1) s := visible_cell ready.low ready.high (source_cell source).2
  have seenY : visible graph (fun _ => level - 1) y := visible_cell ready.low ready.high (destination_cell destination).2
  have done (may : allowed_nodes y = true) : (∃ k d, Search.settled state.heap y k d) ∨ state.heap.Empty = true := by
    rcases exploring.targets y (by simp [listed,may]) with waiting | settled
    · refine .inr ?_
      rw [running,Bool.and_eq_false_iff,Bool.not_eq_false',bne_eq_false_iff_eq] at stopped
      refine stopped.resolve_right fun none_left => ?_
      rw [none_left] at waiting
      exact Finset.notMem_empty y waiting
    · exact .inl settled
  cases found : state.heap.GetHeapNodeIfWasInserted y with
  | none =>
    refine ⟨⟨⟨fun _ => ?_,fun _ => rfl⟩,fun bad => absurd rfl bad⟩,fun bad => absurd rfl bad,fun _ => ⟨rfl,rfl⟩⟩
    rintro ⟨_,may,n,walk⟩
    obtain ⟨m,_,lifted⟩ := covers.lift seenS seenY walk
    have settled : ∃ k d, Search.settled state.heap y k d := (done may.2).elim (fun settled => settled)
      fun empty => exploring.reached ready empty lifted
    obtain ⟨k,d,gone⟩ := settled
    exact find_none found _ gone rfl
  | some e =>
    obtain ⟨member,rfl⟩ := find_some found
    have sound : inCell P allowed_nodes level id e.node := ((exploring.inv 0).sound e member).1
    have gone : Search.settled state.heap e.node e.weight e.data := by
      have removed : e.removed = true := by
        rcases done sound.2 with ⟨k,d,settled⟩ | empty
        · rw [inj_on_of_nodup_map exploring.distinct member settled rfl]
        · exact empty_iff.mp empty e member
      rw [Search.settled,← removed]
      exact member
    have shortest := (covers.shortest_iff (ready.layered.clique_walk ready.exactFor) seenS seenY e.weight).mp
      (exploring.shortest ready gone)
    have valid : e.weight ≠ INVALID_EDGE_WEIGHT := (light _ shortest).ne
    exact ⟨⟨⟨fun bad => absurd bad valid,fun none_there => absurd ⟨known,sound,_,shortest.1⟩ none_there⟩,fun _ => shortest⟩,
      fun _ => ((exploring.inv 0).good e member).1,fun bad => absurd bad valid⟩

end explore

end Osrm.CellCustomizer
