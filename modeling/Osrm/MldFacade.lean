import Osrm.CellStorage
import Osrm.CliqueSearch
import Osrm.Phantom

/-!
What the searches of `routing_base_mld` read: the facade with its graph, its partition and its metric, the level on
which a search looks at a node, and the labels that `relaxOutgoingEdges` hands on.
-/
namespace Osrm.MldFacade
open List
open Typedefs Walks Heap Osrm.Partition EdgeBasedGraph LevelGraph CellStorage Overlay
open Phantom

structure DataFacade (P : MultiLevelPartition) where
  graph : MultiLevelGraph P
  metric : CellMetric
  GetNodeWeight : NodeID → EdgeWeight
  GetWeightPenaltyForEdgeID : NodeID → EdgeWeight
  ExcludeNode : NodeID → Bool

/-! ### Query levels -/

/-- The arguments of a search: the candidates of its ends, or the level and the cell it is restricted to. -/
inductive Args
  | candidates (source_phantoms target_phantoms : PhantomNodeCandidates)
  | cell (level : LevelID) (parent : CellID)

section level
variable (P : MultiLevelPartition)

def segmentLevel (node : NodeID) (source target : SegmentID) : LevelID :=
  if source.enabled && target.enabled then P.GetQueryLevel source.id target.id node else INVALID_LEVEL_ID

/-- `getNodeQueryLevel` for the two ends of a route. -/
def getEndpointsQueryLevel (node : NodeID) (source target : PhantomNode) : LevelID :=
  min (min (segmentLevel P node source.forward_segment_id target.forward_segment_id)
      (segmentLevel P node source.forward_segment_id target.reverse_segment_id))
    (min (segmentLevel P node source.reverse_segment_id target.forward_segment_id)
      (segmentLevel P node source.reverse_segment_id target.reverse_segment_id))

/-- `getNodeQueryLevel`; two ends are candidates of which there is one each. -/
def getNodeQueryLevel (node : NodeID) : Args → LevelID
  | .candidates source_phantoms target_phantoms =>
    source_phantoms.foldl (fun level_1 source =>
      min level_1 (target_phantoms.foldl (fun level_2 target =>
        min level_2 (getEndpointsQueryLevel P node source target)) level_1)) INVALID_LEVEL_ID
  | .cell level _ => level

def checkParentCellRestriction (cell : CellID) : Args → Bool
  | .candidates _ _ => true
  | .cell _ parent => cell == parent

end level

def Segment (phantom : PhantomNode) (node : NodeID) : Prop :=
  ∃ segment ∈ [phantom.forward_segment_id,phantom.reverse_segment_id], segment.enabled = true ∧ segment.id = node
/-- The nodes near which a search looks at single edges: the segments of the ends that can be combined. -/
def Terminal (source_phantoms target_phantoms : PhantomNodeCandidates) (node : NodeID) : Prop :=
  ∃ source ∈ source_phantoms, ∃ target ∈ target_phantoms, ∃ a b, Segment source a ∧ Segment target b ∧ (node = a ∨ node = b)

section level
variable {P : MultiLevelPartition} {node : NodeID} {l : LevelID} {source_phantoms target_phantoms : PhantomNodeCandidates}

private theorem le_segmentLevel {source target : SegmentID} : l ≤ segmentLevel P node source target ↔
    if source.enabled = true ∧ target.enabled = true then
      l ≤ P.GetHighestDifferentLevel source.id node ∧ l ≤ P.GetHighestDifferentLevel target.id node
    else l ≤ INVALID_LEVEL_ID := by
  unfold segmentLevel
  by_cases both : source.enabled = true ∧ target.enabled = true
  · simp [both,PartitionData.GetQueryLevel]
  · rw [if_neg both,if_neg (by simpa using both)]

private theorem le_foldl_min {α : Type} {f : α → LevelID} {l : LevelID} {items : List α} {start : LevelID} :
    l ≤ items.foldl (fun level item => min level (f item)) start ↔ l ≤ start ∧ ∀ item ∈ items, l ≤ f item := by
  induction items generalizing start with
  | nil => simp
  | cons item rest ih =>
    rw [foldl_cons,ih,le_min_iff]
    simp [and_assoc]

private theorem le_foldl_levels {α β : Type} {f : α → β → LevelID} {outer : List α} {inner : List β} {start : LevelID} :
    l ≤ outer.foldl (fun one a => min one (inner.foldl (fun two b => min two (f a b)) one)) start ↔
      l ≤ start ∧ ∀ a ∈ outer, ∀ b ∈ inner, l ≤ f a b := by
  induction outer generalizing start with
  | nil => simp
  | cons a rest ih =>
    rw [foldl_cons,ih,le_min_iff,le_foldl_min]
    simp only [mem_cons,forall_eq_or_imp]
    tauto

private theorem le_queryLevel (low : l ≤ INVALID_LEVEL_ID) : l ≤ getNodeQueryLevel P node (.candidates source_phantoms target_phantoms) ↔
    ∀ terminal, Terminal source_phantoms target_phantoms terminal → l ≤ P.GetHighestDifferentLevel terminal node := by
  rw [getNodeQueryLevel,le_foldl_levels]
  constructor
  · rintro ⟨_,all⟩ terminal ⟨source,inS,target,inT,a,b,⟨one,memberOne,enabledOne,rfl⟩,⟨two,memberTwo,enabledTwo,rfl⟩,same⟩
    have pair : l ≤ segmentLevel P node one two := by
      have := all source inS target inT
      simp only [getEndpointsQueryLevel,le_min_iff] at this
      simp only [mem_cons,not_mem_nil,or_false] at memberOne memberTwo
      rcases memberOne with rfl | rfl <;> rcases memberTwo with rfl | rfl
      · exact this.1.1
      · exact this.1.2
      · exact this.2.1
      · exact this.2.2
    rw [le_segmentLevel,if_pos ⟨enabledOne,enabledTwo⟩] at pair
    rcases same with rfl | rfl
    · exact pair.1
    · exact pair.2
  · intro all
    refine ⟨low,fun source inS target inT => ?_⟩
    have pair : ∀ one ∈ [source.forward_segment_id,source.reverse_segment_id],
        ∀ two ∈ [target.forward_segment_id,target.reverse_segment_id], l ≤ segmentLevel P node one two := by
      intro one memberOne two memberTwo
      rw [le_segmentLevel]
      split
      · rename_i both
        have known : ∀ τ, τ = one.id ∨ τ = two.id → l ≤ P.GetHighestDifferentLevel τ node := fun τ same =>
          all τ ⟨source,inS,target,inT,_,_,⟨one,memberOne,both.1,rfl⟩,⟨two,memberTwo,both.2,rfl⟩,same⟩
        exact ⟨known _ (.inl rfl),known _ (.inr rfl)⟩
      · exact low
    simp only [getEndpointsQueryLevel,le_min_iff]
    exact ⟨⟨pair _ (by simp) _ (by simp),pair _ (by simp) _ (by simp)⟩,
      ⟨pair _ (by simp) _ (by simp),pair _ (by simp) _ (by simp)⟩⟩

private theorem coherent_of_terminals {level : NodeID → LevelID} {T : NodeID → Prop} (bounded : ∀ x, level x ≤ INVALID_LEVEL_ID)
    (spec : ∀ x l, l ≤ INVALID_LEVEL_ID → (l ≤ level x ↔ ∀ τ, T τ → l ≤ P.GetHighestDifferentLevel τ x)) (x y : NodeID)
    (near : P.GetHighestDifferentLevel x y < level x) : level y = level x := by
  have far : ∀ τ, T τ → P.GetHighestDifferentLevel τ y = P.GetHighestDifferentLevel τ x := fun τ known =>
    P.highest_eq (near.trans_le ((spec x (level x) (bounded x)).mp le_rfl τ known))
  apply le_antisymm
  · exact (spec x _ (bounded y)).mpr fun τ known => far τ known ▸ (spec y _ (bounded y)).mp le_rfl τ known
  · exact (spec y _ (bounded x)).mpr fun τ known => (far τ known).symm ▸ (spec x _ (bounded x)).mp le_rfl τ known

private theorem queryLevel_le : getNodeQueryLevel P node (.candidates source_phantoms target_phantoms) ≤ INVALID_LEVEL_ID :=
  (le_foldl_levels.mp (le_refl (getNodeQueryLevel P node (.candidates source_phantoms target_phantoms)))).1

/-- At the ends a search goes over roads only. -/
theorem queryLevel_terminal (terminal : Terminal source_phantoms target_phantoms node) :
    getNodeQueryLevel P node (.candidates source_phantoms target_phantoms) = 0 := by
  have := (le_queryLevel queryLevel_le).mp (le_refl (getNodeQueryLevel P node (.candidates source_phantoms target_phantoms)))
    node terminal
  simpa using this

private theorem layered_candidates (allowed : NodeID → Bool) {terminal : NodeID}
    (known : Terminal source_phantoms target_phantoms terminal) :
    Layered P allowed (fun x => getNodeQueryLevel P x (.candidates source_phantoms target_phantoms))
      (fun x => allowed x = true) where
  coherent := coherent_of_terminals (fun _ => queryLevel_le) fun _ _ low => le_queryLevel low
  bounded _ _ := ((le_queryLevel queryLevel_le).mp le_rfl terminal known).trans_lt P.highest_lt
  whole _ _ _ _ := Iff.rfl
  usable _ known := known

end level

/-! ### Relaxing -/

structure HeapData where
  parent : NodeID
  from_clique_arc : Bool
  deriving DecidableEq, Repr

abbrev Heap := QueryHeap NodeID HeapData

section relax
variable {P : MultiLevelPartition} (facade : DataFacade P)

/-- The labels that are handed on through the cell. -/
def cliqueCandidates (direction : Direction) (level : LevelID) (heapNode : HeapNode NodeID HeapData) :
    List (QueryHeap.Candidate NodeID HeapData) :=
  let cell := CellStorage.GetCell facade.graph facade.metric level (P.GetCell level heapNode.node)
  (match direction with
    | .FORWARD => (cell.GetOutWeight heapNode.node).zip cell.destination_boundary
    | .REVERSE => (cell.GetInWeight heapNode.node).zip cell.source_boundary).filterMap fun (shortcut_weight,other) =>
      if shortcut_weight != INVALID_EDGE_WEIGHT && heapNode.node != other then
        some ⟨other,heapNode.weight + shortcut_weight,fun _ => ⟨heapNode.node,true⟩⟩
      else none

/-- The labels that are handed on along boundary edges. -/
def borderCandidates (direction : Direction) (level : LevelID) (args : Args) (heapNode : HeapNode NodeID HeapData) :
    List (QueryHeap.Candidate NodeID HeapData) :=
  (facade.graph.GetBorderEdgeRange level heapNode.node).filterMap fun edge =>
    if edge.1.data.usable direction && !facade.ExcludeNode edge.1.target &&
        checkParentCellRestriction (P.GetCell (level + 1) edge.1.target) args then
      some ⟨edge.1.target,
        heapNode.weight + relaxWeight facade.GetNodeWeight facade.GetWeightPenaltyForEdgeID direction edge.1,
        fun _ => ⟨heapNode.node,false⟩⟩
    else none

def relaxCandidates (direction : Direction) (args : Args) (heapNode : HeapNode NodeID HeapData) :
    List (QueryHeap.Candidate NodeID HeapData) :=
  let level := getNodeQueryLevel P heapNode.node args
  (if level ≥ 1 && !heapNode.data.from_clique_arc then cliqueCandidates facade direction level heapNode else []) ++
    borderCandidates facade direction level args heapNode

def relaxOutgoingEdges (direction : Direction) (args : Args) (heapNode : HeapNode NodeID HeapData) (forward_heap : Heap) :
    Heap :=
  forward_heap.insertOrUpdateAll lighter (relaxCandidates facade direction args heapNode)
def DataFacade.arcs : Arcs NodeID :=
  facade.graph.arcs (relaxWeight facade.GetNodeWeight facade.GetWeightPenaltyForEdgeID .FORWARD) .FORWARD
/-- The roads without the excluded nodes. -/
def DataFacade.routes : Arcs NodeID := within (fun x => (!facade.ExcludeNode x) = true) facade.arcs

/-- What the searches rely on: every edge is stored at both ends and weighs the same for both directions, weights are
    positive, and the metric is exact. -/
structure DataFacade.Customized : Prop where
  mirrored : ∀ u v w, facade.arcs u v w ↔
    facade.graph.arcs (relaxWeight facade.GetNodeWeight facade.GetWeightPenaltyForEdgeID .REVERSE) .REVERSE v u w
  positive : Positive facade.arcs
  exact : Exact facade.graph facade.arcs (fun x => !facade.ExcludeNode x) facade.metric

structure Searches (args : Args) (S : NodeID → Prop) : Prop where
  layered : Layered P (fun x => !facade.ExcludeNode x) (fun x => getNodeQueryLevel P x args) S
  restricted : ∀ x y, S x → (S y ↔ facade.ExcludeNode y = false ∧
    checkParentCellRestriction (P.GetCell (getNodeQueryLevel P x args + 1) y) args = true)

variable {facade} {args : Args} {S : NodeID → Prop} {heapNode : HeapNode NodeID HeapData} {x y : NodeID} {w : ℤ}

theorem searches_candidates {source_phantoms target_phantoms : PhantomNodeCandidates} {terminal : NodeID}
    (known : Terminal source_phantoms target_phantoms terminal) :
    Searches facade (.candidates source_phantoms target_phantoms) fun x => (!facade.ExcludeNode x) = true :=
  ⟨layered_candidates _ known,fun x y _ => by simp [checkParentCellRestriction]⟩

theorem searches_cell {l : LevelID} (low : 1 ≤ l) (high : l < P.GetNumberOfLevels) (id : CellID) :
    Searches facade (.cell (l - 1) id) (inCell P (fun x => !facade.ExcludeNode x) l id) :=
  ⟨layered_cell low high id,fun x y _ => by
    simp [inCell,checkParentCellRestriction,getNodeQueryLevel,Nat.sub_add_cancel low,and_comm]⟩

theorem DataFacade.Customized.flags (customized : facade.Customized) : facade.graph.Mirrored := by
  intro u v
  constructor
  · rintro ⟨_,edge,member,target,usable,_⟩
    obtain ⟨edge',member',target',usable',_⟩ := (customized.mirrored u v _).mp ⟨edge,member,target,usable,rfl⟩
    exact ⟨0,edge',member',target',usable',rfl⟩
  · rintro ⟨_,edge,member,target,usable,_⟩
    obtain ⟨edge',member',target',usable',_⟩ := (customized.mirrored u v _).mpr ⟨edge,member,target,usable,rfl⟩
    exact ⟨0,edge',member',target',usable',rfl⟩

variable (facade args S) in
def borderArcs : Direction → Arcs NodeID
  | .FORWARD => border (within S facade.arcs) (inside P fun x => getNodeQueryLevel P x args)
  | .REVERSE => reverse (border (within S facade.arcs) (inside P fun x => getNodeQueryLevel P x args))

variable (facade args S) in
def shortcutArcs : Direction → Arcs NodeID
  | .FORWARD => cliqueArcs facade.graph facade.metric (fun x => getNodeQueryLevel P x args) S
  | .REVERSE => reverse (cliqueArcs facade.graph facade.metric (fun x => getNodeQueryLevel P x args) S)

variable {direction : Direction} (customized : facade.Customized) (searches : Searches facade args S)
include customized searches

private theorem borderArcs_iff (known : S x) : borderArcs facade args S direction x y w ↔
    S y ∧ ∃ edge ∈ facade.graph.GetBorderEdgeRange (getNodeQueryLevel P x args) x,
      edge.1.target = y ∧ edge.1.data.usable direction = true ∧
        relaxWeight facade.GetNodeWeight facade.GetWeightPenaltyForEdgeID direction edge.1 = w := by
  have far : ¬ inside P (fun x => getNodeQueryLevel P x args) x y ↔
      getNodeQueryLevel P x args ≤ P.GetHighestDifferentLevel x y := not_lt
  cases direction with
  | FORWARD =>
    constructor
    · rintro ⟨⟨_,there,edge,member,rfl,usable,rfl⟩,apart⟩
      exact ⟨there,edge,(facade.graph.mem_border).mpr ⟨member,far.mp apart⟩,rfl,usable,rfl⟩
    · rintro ⟨there,edge,member,rfl,usable,rfl⟩
      obtain ⟨adjacent,level⟩ := (facade.graph.mem_border).mp member
      exact ⟨⟨known,there,edge,adjacent,rfl,usable,rfl⟩,far.mpr level⟩
  | REVERSE =>
    constructor
    · rintro ⟨⟨there,_,arc⟩,apart⟩
      obtain ⟨edge,member,rfl,usable,rfl⟩ := (customized.mirrored _ _ _).mp arc
      have level := far.mp fun near => apart (searches.layered.inside_symm near)
      exact ⟨there,edge,(facade.graph.mem_border).mpr ⟨member,level⟩,rfl,usable,rfl⟩
    · rintro ⟨there,edge,member,rfl,usable,rfl⟩
      obtain ⟨adjacent,level⟩ := (facade.graph.mem_border).mp member
      exact ⟨⟨there,known,(customized.mirrored _ _ _).mpr ⟨edge,adjacent,rfl,usable,rfl⟩⟩,
        fun near => far.mpr level (searches.layered.inside_symm near)⟩

private theorem mem_borderCandidates (known : S heapNode.node) {c : QueryHeap.Candidate NodeID HeapData}
    (member : c ∈ borderCandidates facade direction (getNodeQueryLevel P heapNode.node args) args heapNode) :
    ∃ w, borderArcs facade args S direction heapNode.node c.node w ∧ c.weight = heapNode.weight + w ∧
      ∀ old, c.data old = ⟨heapNode.node,false⟩ := by
  obtain ⟨edge,range,made⟩ := mem_filterMap.mp member
  split at made
  · rename_i holds
    simp only [Bool.and_eq_true,Bool.not_eq_true'] at holds
    cases made
    have there := (searches.restricted heapNode.node edge.1.target known).mpr ⟨holds.1.2,holds.2⟩
    exact ⟨_,(borderArcs_iff customized searches known).mpr ⟨there,edge,range,rfl,holds.1.1,rfl⟩,rfl,fun _ => rfl⟩
  · simp at made

private theorem borderCandidates_mem (known : S heapNode.node)
    (arc : borderArcs facade args S direction heapNode.node y w) :
    ∃ c ∈ borderCandidates facade direction (getNodeQueryLevel P heapNode.node args) args heapNode,
      c.node = y ∧ c.weight = heapNode.weight + w := by
  obtain ⟨there,edge,range,rfl,usable,rfl⟩ := (borderArcs_iff customized searches known).mp arc
  obtain ⟨kept,parent⟩ := (searches.restricted heapNode.node edge.1.target known).mp there
  exact ⟨_,mem_filterMap.mpr ⟨edge,range,by rw [if_pos]; simp [usable,kept,parent]⟩,rfl,rfl⟩

private theorem shortcutArcs_iff (known : S x) (low : 1 ≤ getNodeQueryLevel P x args) :
    shortcutArcs facade args S direction x y w ↔ x ≠ y ∧ w ≠ INVALID_EDGE_WEIGHT ∧
      (CellStorage.GetCell facade.graph facade.metric (getNodeQueryLevel P x args)
        (P.GetCell (getNodeQueryLevel P x args) x)).Entry
        (facade.metric.weights (getNodeQueryLevel P x args)
          (P.GetCell (getNodeQueryLevel P x args) x))
        (match direction with | .FORWARD => x | .REVERSE => y)
        (match direction with | .FORWARD => y | .REVERSE => x) w := by
  have bound := searches.layered.bounded _ known
  cases direction with
  | FORWARD =>
    constructor
    · rintro ⟨_,_,apart,valid,entry⟩
      exact ⟨apart,valid,entry⟩
    · rintro ⟨apart,valid,entry⟩
      exact ⟨known,low,apart,valid,entry⟩
  | REVERSE =>
    constructor
    · intro arc
      obtain ⟨_,_,apart,near,_⟩ := searches.layered.clique_spec (searches.layered.exactFor customized.exact) arc
      obtain ⟨_,lowY,_,valid,entry⟩ := arc
      have levels := searches.layered.coherent _ _ near
      beta_reduce at lowY entry levels
      have cells := (P.highest_lt_iff lowY (by rw [← levels]; exact bound)).mp near
      rw [← levels] at entry cells
      rw [cells] at entry
      exact ⟨apart.symm,valid,entry⟩
    · rintro ⟨apart,valid,entry⟩
      obtain ⟨row,_,source,_⟩ := id entry
      obtain ⟨cell,_⟩ := source_cell (mem_of_getElem? source)
      have near := (P.highest_lt_iff low bound).mpr cell.symm
      have levels := searches.layered.coherent _ _ near
      have reached : S y := by
        obtain ⟨invalid,_⟩ := customized.exact _ low bound _ _ _ _ entry
        by_contra missing
        exact valid (invalid.mpr fun both => missing ((searches.layered.mem_cell low known).mp both.1).2)
      refine ⟨reached,by beta_reduce; rw [levels]; exact low,apart.symm,valid,?_⟩
      beta_reduce
      rw [levels,cell]
      exact entry

omit customized searches in
private theorem cliqueRange_iff {other : NodeID} {w : ℤ} {level : LevelID} {id : CellID} {node : NodeID} :
    (w,other) ∈ (match direction with
      | .FORWARD => ((CellStorage.GetCell facade.graph facade.metric level id).GetOutWeight node).zip
          (CellStorage.GetCell facade.graph facade.metric level id).destination_boundary
      | .REVERSE => ((CellStorage.GetCell facade.graph facade.metric level id).GetInWeight node).zip
          (CellStorage.GetCell facade.graph facade.metric level id).source_boundary) ↔
      (CellStorage.GetCell facade.graph facade.metric level id).Entry (facade.metric.weights level id)
        (match direction with | .FORWARD => node | .REVERSE => other)
        (match direction with | .FORWARD => other | .REVERSE => node) w := by
  cases direction with
  | FORWARD => exact mem_outRange source_boundary_nodup
  | REVERSE => exact mem_inRange destination_boundary_nodup

private theorem mem_cliqueCandidates (known : S heapNode.node) (low : 1 ≤ getNodeQueryLevel P heapNode.node args)
    {c : QueryHeap.Candidate NodeID HeapData}
    (member : c ∈ cliqueCandidates facade direction (getNodeQueryLevel P heapNode.node args) heapNode) :
    ∃ w, shortcutArcs facade args S direction heapNode.node c.node w ∧ c.weight = heapNode.weight + w ∧
      ∀ old, c.data old = ⟨heapNode.node,true⟩ := by
  obtain ⟨⟨shortcut_weight,other⟩,range,made⟩ := mem_filterMap.mp member
  simp only at made
  split at made
  · rename_i holds
    cases made
    simp only [Bool.and_eq_true,bne_iff_ne,ne_eq] at holds
    exact ⟨shortcut_weight,(shortcutArcs_iff customized searches known low).mpr
      ⟨holds.2,holds.1,cliqueRange_iff.mp range⟩,rfl,fun _ => rfl⟩
  · simp at made

private theorem cliqueCandidates_mem (known : S heapNode.node) (low : 1 ≤ getNodeQueryLevel P heapNode.node args)
    (arc : shortcutArcs facade args S direction heapNode.node y w) :
    ∃ c ∈ cliqueCandidates facade direction (getNodeQueryLevel P heapNode.node args) heapNode,
      c.node = y ∧ c.weight = heapNode.weight + w := by
  obtain ⟨apart,valid,entry⟩ := (shortcutArcs_iff customized searches known low).mp arc
  exact ⟨⟨y,heapNode.weight + w,fun _ => ⟨heapNode.node,true⟩⟩,
    mem_filterMap.mpr ⟨(w,y),cliqueRange_iff.mpr entry,by simp [apart,valid]⟩,rfl,rfl⟩

omit customized searches in
variable (facade args S) in
/-- What a direction keeps up: labels stand for ways through the overlay, and entries name their parents and the kind of arc. -/
def overlaid (direction : Direction) (s : NodeID) : CliqueSearch.Overlaid NodeID HeapData where
  border := borderArcs facade args S direction
  clique := shortcutArcs facade args S direction
  fromClique d := d.from_clique_arc
  Source x o := x = s ∧ o = 0
  Sound x k := S x ∧ Walk (fun x y w => borderArcs facade args S direction x y w ∨
    shortcutArcs facade args S direction x y w) s x k
  Mark _ _ _ := True
  Root x k d := x = s ∧ k = 0 ∧ d = ⟨s,false⟩
  Link p d' x d w := d.parent = p ∧
    (d.from_clique_arc = true ∧ d'.from_clique_arc = false ∧ shortcutArcs facade args S direction p x w ∨
      d.from_clique_arc = false ∧ borderArcs facade args S direction p x w)

theorem overlaid_arcs {s x : NodeID} (arc : (overlaid facade args S direction s).arcs x y w) : S x ∧ S y ∧ 0 < w := by
  have proper : ∀ u v w, cliqueArcs facade.graph facade.metric (fun x => getNodeQueryLevel P x args) S u v w →
      S u ∧ S v ∧ 0 < w := by
    intro u v w through
    obtain ⟨knownU,knownV,apart,_,shortest⟩ := searches.layered.clique_spec (searches.layered.exactFor customized.exact) through
    refine ⟨knownU,knownV,?_⟩
    by_contra low
    exact apart (shortest.1.eq_of_nonpos customized.positive.within.within (by lia))
  cases direction with
  | FORWARD =>
    rcases arc with ⟨⟨here,there,base⟩,_⟩ | through
    · exact ⟨here,there,customized.positive _ _ _ base⟩
    · exact proper _ _ _ through
  | REVERSE =>
    rcases arc with ⟨⟨there,here,base⟩,_⟩ | through
    · exact ⟨here,there,customized.positive _ _ _ base⟩
    · obtain ⟨there,here,low⟩ := proper _ _ _ through
      exact ⟨here,there,low⟩

theorem overlaid_lawful (s : NodeID) : (overlaid facade args S direction s).Lawful := by
  have link_arc : ∀ {p d' x d w}, (overlaid facade args S direction s).Link p d' x d w →
      (overlaid facade args S direction s).arcs p x w := by
    rintro p d' x d w ⟨_,⟨_,_,through⟩ | ⟨_,outer⟩⟩
    · exact .inr through
    · exact .inl outer
  refine ⟨fun x y w arc => (overlaid_arcs customized searches arc).2.2,?_,?_,link_arc,?_,?_,?_⟩
  · intro x y z a b one two apart
    cases direction with
    | FORWARD => exact searches.layered.clique_triangle (searches.layered.exactFor customized.exact) one two apart
    | REVERSE =>
      obtain ⟨c,cLe,direct⟩ := searches.layered.clique_triangle (searches.layered.exactFor customized.exact) two one apart.symm
      exact ⟨c,by lia,direct⟩
  · rintro x k d ⟨_,_,rfl⟩
    rfl
  · rintro p d' x d w ⟨_,⟨_,plain,through⟩ | ⟨other,_⟩⟩ reached
    · exact ⟨through,plain⟩
    · exact absurd (other.symm.trans reached) (by decide)
  · rintro p k d' x d w ⟨_,walk⟩ link
    exact ⟨(overlaid_arcs customized searches (link_arc link)).2.1,walk.snoc (link_arc link)⟩
  · exact fun _ _ => trivial

theorem relax_step {s : NodeID} {heap rest : Heap} {limit : ℤ}
    (inv : Search.Invariant (overlaid facade args S direction s).direction heap limit)
    (popped : heap.DeleteMin = some (heapNode,rest)) :
    Extends (relaxCandidates facade direction args heapNode) rest (relaxOutgoingEdges facade direction args heapNode rest) ∧
      Search.Invariant (overlaid facade args S direction s).direction
        (relaxOutgoingEdges facade direction args heapNode rest) limit := by
  have spec := deleteMin_spec popped
  have lawful : (overlaid facade args S direction s).Lawful := overlaid_lawful customized searches s
  have known : S heapNode.node := (inv.sound heapNode spec.member).1
  have link : ∀ c ∈ relaxCandidates facade direction args heapNode, ∃ w, c.weight = heapNode.weight + w ∧
      ∀ old, (overlaid facade args S direction s).Link heapNode.node heapNode.data c.node (c.data old) w := by
    intro c member
    rcases mem_append.mp member with through | outer
    · split at through
      · rename_i holds
        simp only [ge_iff_le,Bool.and_eq_true,decide_eq_true_eq,Bool.not_eq_true'] at holds
        obtain ⟨w,arc,weight,data⟩ := mem_cliqueCandidates customized searches known holds.1 through
        exact ⟨w,weight,fun old => ⟨by rw [data],.inl ⟨by rw [data],holds.2,arc⟩⟩⟩
      · simp at through
    · obtain ⟨w,arc,weight,data⟩ := mem_borderCandidates customized searches known outer
      exact ⟨w,weight,fun old => ⟨by rw [data],.inr ⟨by rw [data],arc⟩⟩⟩
  have ext := insertOrUpdateAll_extends (@lighter_byWeight HeapData) (relaxCandidates facade direction args heapNode)
    (Search.settled_le inv spec) (by
      intro c member
      obtain ⟨w,weight,linked⟩ := link c member
      have := lawful.positive _ _ _ (lawful.arc (linked none))
      lia)
  refine ⟨ext,CliqueSearch.step lawful inv spec ext le_rfl link ?_ ?_⟩
  · intro y w arc
    obtain ⟨c,member,node,weight⟩ := borderCandidates_mem customized searches known arc
    exact ⟨c,mem_append_right _ member,node,weight.le⟩
  · intro plain y w arc
    have low : 1 ≤ getNodeQueryLevel P heapNode.node args := by
      cases direction with
      | FORWARD => exact arc.2.1
      | REVERSE =>
        have near := (searches.layered.clique_spec (searches.layered.exactFor customized.exact) arc).2.2.2.1
        rw [show getNodeQueryLevel P heapNode.node args = getNodeQueryLevel P y args from
          searches.layered.coherent _ _ near]
        exact arc.2.1
    obtain ⟨c,member,node,weight⟩ := cliqueCandidates_mem customized searches known low arc
    have plain' : heapNode.data.from_clique_arc = false := plain
    exact ⟨c,mem_append_left _ (by rw [if_pos]; exact member; simp [low,plain']),node,weight.le⟩

omit customized searches in
theorem relax_work {heap : Heap} : work (List.range facade.graph.number_of_nodes)
    (relaxOutgoingEdges facade direction args heapNode heap) ≤ work (List.range facade.graph.number_of_nodes) heap := by
  refine work_insertOrUpdateAll _ fun c member => ?_
  rw [mem_range]
  rcases mem_append.mp member with through | outer
  · split at through
    · obtain ⟨⟨shortcut_weight,other⟩,range,made⟩ := mem_filterMap.mp through
      simp only at made
      split at made
      · cases made
        obtain ⟨row,column,source,destination,_⟩ := cliqueRange_iff.mp range
        cases direction with
        | FORWARD => exact destination_lt (mem_of_getElem? destination)
        | REVERSE => exact source_lt (mem_of_getElem? source)
      · simp at made
    · simp at through
  · obtain ⟨edge,range,made⟩ := mem_filterMap.mp outer
    split at made
    · cases made
      obtain ⟨found,_⟩ := (facade.graph.mem_adjacent).mp ((facade.graph.mem_border).mp range).1
      exact (facade.graph.bounded _ (mem_of_getElem? found)).2
    · simp at made

end relax

end Osrm.MldFacade
