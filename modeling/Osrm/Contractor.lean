import Osrm.Typedefs
import Osrm.Walks

/-!
`ContractorGraph`, a `util::DynamicGraph` of `ContractorEdgeData`, as far as the contractor uses it. The edges of a
node are a list in the order of its edge range.
-/
namespace Osrm.Contractor
open List
open Typedefs Walks

/-- `ContractorEdgeData`; `id` is the middle node of a shortcut and the turn of any
    other edge. -/
structure ContractorEdgeData where
  weight : EdgeWeight
  duration : EdgeDuration
  distance : EdgeDistance
  id : NodeID
  originalEdges : ℕ
  shortcut : Bool
  forward : Bool
  backward : Bool
  deriving DecidableEq, Repr

/-- `DynamicEdge`, an edge as its source node stores it. -/
structure DynamicEdge where
  target : NodeID
  data : ContractorEdgeData
  deriving DecidableEq, Repr

/-- `ContractorEdge`, an edge that waits to be inserted. -/
structure ContractorEdge where
  source : NodeID
  target : NodeID
  data : ContractorEdgeData
  deriving DecidableEq, Repr

structure ContractorGraph where
  number_of_nodes : ℕ
  adjacent : NodeID → List DynamicEdge

namespace ContractorGraph

def setEdges (graph : ContractorGraph) (node : NodeID) (edges : List DynamicEdge) : ContractorGraph :=
  { graph with adjacent := Function.update graph.adjacent node edges }
def moveLastToFront (edges : List DynamicEdge) : List DynamicEdge := edges.getLast?.toList ++ edges.dropLast
def InsertEdge (graph : ContractorGraph) (inFront : Bool) (source target : NodeID) (data : ContractorEdgeData) :
    ContractorGraph :=
  let edges := graph.adjacent source
  graph.setEdges source ((if inFront then moveLastToFront edges else edges) ++ [⟨target,data⟩])

/-- The loop of `DeleteEdgesTo` from one position on; `fuel` is the length of the range. -/
def deleteTo (target : NodeID) : ℕ → List DynamicEdge → List DynamicEdge
  | 0, edges => edges
  | _ + 1, [] => []
  | fuel + 1, e :: rest =>
    if e.target = target then deleteTo target fuel (rest.getLast?.toList ++ rest.dropLast)
    else e :: deleteTo target fuel rest

def DeleteEdgesTo (graph : ContractorGraph) (source target : NodeID) : ContractorGraph :=
  let edges := graph.adjacent source
  graph.setEdges source (deleteTo target edges.length edges)
/-- `FindEdge`, as the data of the edge it finds. -/
def FindEdge (graph : ContractorGraph) (source target : NodeID) : Option ContractorEdgeData :=
  ((graph.adjacent source).find? (fun e => e.target = target)).map (·.data)
/-- Writing to the data of the edge that `FindEdge` finds. -/
def overwrite (target : NodeID) (data : ContractorEdgeData) : List DynamicEdge → List DynamicEdge
  | [] => []
  | e :: rest => if e.target = target then ⟨target,data⟩ :: rest else e :: overwrite target data rest

/-- The body of the loop of `contractGraph` that inserts the new edges. -/
def insertShortcut (graph : ContractorGraph) (inFront : Bool) (edge : ContractorEdge) : ContractorGraph :=
  match graph.FindEdge edge.source edge.target with
  | some current_data =>
    if current_data.shortcut && edge.data.forward == current_data.forward &&
        edge.data.backward == current_data.backward then
      if edge.data.weight < current_data.weight then
        graph.setEdges edge.source (overwrite edge.target edge.data (graph.adjacent edge.source))
      else graph
    else graph.InsertEdge inFront edge.source edge.target edge.data
  | none => graph.InsertEdge inFront edge.source edge.target edge.data

def insertShortcuts (graph : ContractorGraph) (edges : List (Bool × ContractorEdge)) : ContractorGraph :=
  edges.foldl (fun graph edge => graph.insertShortcut edge.1 edge.2) graph

end ContractorGraph

/-- The arcs that the edges stored at their tail offer. -/
def forwardArcs (graph : ContractorGraph) : Arcs NodeID :=
  fun u v w => ∃ e ∈ graph.adjacent u, e.target = v ∧ e.data.forward = true ∧ e.data.weight = w
/-- The edges stored at their head: `backwardArcs graph v u w` stands for an arc from
    `u` to `v`. -/
def backwardArcs (graph : ContractorGraph) : Arcs NodeID :=
  fun v u w => ∃ e ∈ graph.adjacent v, e.target = u ∧ e.data.backward = true ∧ e.data.weight = w
def usableArcs (graph : ContractorGraph) : Arcs NodeID :=
  fun u v w => forwardArcs graph u v w ∨ backwardArcs graph v u w
def Mirrored (graph : ContractorGraph) : Prop :=
  ∀ u, ∀ e ∈ graph.adjacent u, ∃ e' ∈ graph.adjacent e.target, e'.target = u ∧
    e'.data.weight = e.data.weight ∧ e'.data.forward = e.data.backward ∧ e'.data.backward = e.data.forward

theorem mirrored_usable {graph : ContractorGraph} (mirrored : Mirrored graph) : usableArcs graph = forwardArcs graph := by
  funext u v w
  refine propext ⟨?_,.inl⟩
  rintro (forward | ⟨e,member,rfl,backward,rfl⟩)
  · exact forward
  · obtain ⟨e',member',target,weight,forward,_⟩ := mirrored v e member
    exact ⟨e',member',target,forward.trans backward,weight⟩

open ContractorGraph

@[simp] theorem setEdges_same (graph : ContractorGraph) (node : NodeID) (edges : List DynamicEdge) :
    (graph.setEdges node edges).adjacent node = edges := by simp [setEdges]

theorem setEdges_other (graph : ContractorGraph) {node other : NodeID} (differ : other ≠ node)
    (edges : List DynamicEdge) : (graph.setEdges node edges).adjacent other = graph.adjacent other := by
  simp [setEdges,differ]

private theorem mem_moveLastToFront {e : DynamicEdge} {edges : List DynamicEdge} :
    e ∈ moveLastToFront edges ↔ e ∈ edges := by
  induction edges using List.reverseRecOn with
  | nil => simp [moveLastToFront]
  | append_singleton rest last _ => simp [moveLastToFront,or_comm]

theorem mem_deleteTo {target : NodeID} {e : DynamicEdge} (fuel : ℕ) (edges : List DynamicEdge)
    (enough : edges.length ≤ fuel) : e ∈ deleteTo target fuel edges ↔ e ∈ edges ∧ e.target ≠ target := by
  induction fuel generalizing edges with
  | zero =>
    obtain rfl : edges = [] := length_eq_zero_iff.mp (by omega)
    simp [deleteTo]
  | succ fuel ih =>
    cases edges with
    | nil => simp [deleteTo]
    | cons a rest =>
      simp only [length_cons] at enough
      rw [deleteTo]
      split
      · rename_i same
        have shorter : (rest.getLast?.toList ++ rest.dropLast).length ≤ fuel := by
          cases rest with
          | nil => simp
          | cons b more => simp [getLast?_cons] at enough ⊢; omega
        rw [ih _ shorter]
        have moved : e ∈ rest.getLast?.toList ++ rest.dropLast ↔ e ∈ rest := mem_moveLastToFront
        rw [moved,mem_cons]
        constructor
        · rintro ⟨inside,differ⟩
          exact ⟨.inr inside,differ⟩
        · rintro ⟨rfl | inside,differ⟩
          · exact absurd same differ
          · exact ⟨inside,differ⟩
      · rename_i differ
        simp only [mem_cons,ih rest (by omega)]
        constructor
        · rintro (rfl | ⟨inside,other⟩)
          · exact ⟨.inl rfl,differ⟩
          · exact ⟨.inr inside,other⟩
        · rintro ⟨rfl | inside,other⟩
          · exact .inl rfl
          · exact .inr ⟨inside,other⟩

def Serves (e' e : DynamicEdge) : Prop :=
  e'.target = e.target ∧ e'.data.forward = e.data.forward ∧ e'.data.backward = e.data.backward ∧
    e'.data.weight ≤ e.data.weight

private theorem Serves.refl (e : DynamicEdge) : Serves e e := ⟨rfl,rfl,rfl,le_rfl⟩
private theorem Serves.trans {a b c : DynamicEdge} (one : Serves a b) (two : Serves b c) : Serves a c :=
  ⟨one.1.trans two.1,one.2.1.trans two.2.1,one.2.2.1.trans two.2.2.1,one.2.2.2.trans two.2.2.2⟩

def ContractorEdge.stored (edge : ContractorEdge) : DynamicEdge := ⟨edge.target,edge.data⟩

/-- The graph with edges added. -/
structure Inserted (edges : List ContractorEdge) (graph after : ContractorGraph) : Prop where
  nodes : after.number_of_nodes = graph.number_of_nodes
  new_or_old : ∀ u, ∀ e ∈ after.adjacent u, e ∈ graph.adjacent u ∨
    ∃ edge ∈ edges, edge.source = u ∧ e = edge.stored
  kept : ∀ u, ∀ e ∈ graph.adjacent u, ∃ e' ∈ after.adjacent u, Serves e' e
  covered : ∀ edge ∈ edges, ∃ e' ∈ after.adjacent edge.source, Serves e' edge.stored
  untouched : ∀ u, (∀ edge ∈ edges, edge.source ≠ u) → after.adjacent u = graph.adjacent u

private theorem insertEdge_inserted (graph : ContractorGraph) (inFront : Bool) (edge : ContractorEdge) :
    Inserted [edge] graph (graph.InsertEdge inFront edge.source edge.target edge.data) := by
  have entries : ∀ e, e ∈ (graph.InsertEdge inFront edge.source edge.target edge.data).adjacent edge.source ↔
      e ∈ graph.adjacent edge.source ∨ e = edge.stored := by
    intro e
    cases inFront <;> simp [InsertEdge,mem_moveLastToFront,ContractorEdge.stored]
  have other : ∀ u, u ≠ edge.source →
      (graph.InsertEdge inFront edge.source edge.target edge.data).adjacent u = graph.adjacent u :=
    fun u differ => setEdges_other graph differ _
  refine ⟨rfl,?_,?_,?_,fun u free => other u (free edge (by simp)).symm⟩
  · intro u e inside
    by_cases same : u = edge.source
    · subst same
      exact ((entries e).mp inside).imp_right fun new => ⟨edge,by simp,rfl,new⟩
    · exact .inl (other u same ▸ inside)
  · intro u e inside
    by_cases same : u = edge.source
    · subst same
      exact ⟨e,(entries e).mpr (.inl inside),.refl e⟩
    · exact ⟨e,(other u same).symm ▸ inside,.refl e⟩
  · intro edge' only
    obtain rfl : edge' = edge := by simpa using only
    exact ⟨edge'.stored,(entries _).mpr (.inr rfl),.refl _⟩

private theorem overwrite_split {target : NodeID} {data : ContractorEdgeData} {edges : List DynamicEdge}
    {current : ContractorEdgeData}
    (found : (edges.find? (fun e => e.target = target)).map (·.data) = some current) :
    ∃ before after, edges = before ++ ⟨target,current⟩ :: after ∧
      overwrite target data edges = before ++ ⟨target,data⟩ :: after := by
  induction edges with
  | nil => simp at found
  | cons e rest ih =>
    rw [overwrite]
    by_cases same : e.target = target
    · have : e.data = current := by simpa [same] using found
      subst same this
      exact ⟨[],rest,rfl,by simp⟩
    · obtain ⟨before,after,split,written⟩ := ih (by simpa [same] using found)
      exact ⟨e :: before,after,by simp [split],by simp [same,written]⟩

private theorem insertShortcut_inserted (graph : ContractorGraph) (inFront : Bool) (edge : ContractorEdge) :
    Inserted [edge] graph (graph.insertShortcut inFront edge) := by
  unfold insertShortcut
  split
  · rename_i current found
    split
    · rename_i same
      simp only [Bool.and_eq_true,beq_iff_eq] at same
      obtain ⟨before,after,entries,written⟩ :
          ∃ before after, graph.adjacent edge.source = before ++ ⟨edge.target,current⟩ :: after ∧
            overwrite edge.target edge.data (graph.adjacent edge.source) = before ++ edge.stored :: after :=
        overwrite_split found
      split
      · rename_i lighter
        have new : (graph.setEdges edge.source
            (overwrite edge.target edge.data (graph.adjacent edge.source))).adjacent edge.source =
            before ++ edge.stored :: after := by rw [setEdges_same,written]
        refine ⟨rfl,?_,?_,?_,fun u free => setEdges_other graph (free edge (by simp)).symm _⟩
        · intro u e inside
          by_cases here : u = edge.source
          · subst here
            rw [new,mem_append,mem_cons] at inside
            rw [entries,mem_append,mem_cons]
            rcases inside with first | rfl | last
            · exact .inl (.inl first)
            · exact .inr ⟨edge,by simp,rfl,rfl⟩
            · exact .inl (.inr (.inr last))
          · rw [setEdges_other graph here] at inside
            exact .inl inside
        · intro u e inside
          by_cases here : u = edge.source
          · subst here
            rw [entries,mem_append,mem_cons] at inside
            rw [new]
            rcases inside with first | rfl | last
            · exact ⟨e,by simp [first],.refl e⟩
            · exact ⟨edge.stored,by simp,rfl,same.1.2,same.2,lighter.le⟩
            · exact ⟨e,by simp [last],.refl e⟩
          · rw [setEdges_other graph here]
            exact ⟨e,inside,.refl e⟩
        · intro edge' only
          obtain rfl : edge' = edge := by simpa using only
          exact ⟨edge'.stored,by rw [new]; simp,.refl _⟩
      · rename_i heavier
        refine ⟨rfl,fun u e inside => .inl inside,fun u e inside => ⟨e,inside,.refl e⟩,?_,fun u _ => rfl⟩
        intro edge' only
        obtain rfl : edge' = edge := by simpa using only
        exact ⟨⟨edge'.target,current⟩,by simp [entries],rfl,same.1.2.symm,same.2.symm,not_lt.mp heavier⟩
    · exact insertEdge_inserted graph inFront edge
  · exact insertEdge_inserted graph inFront edge

theorem insertShortcuts_inserted (graph : ContractorGraph) (edges : List (Bool × ContractorEdge)) :
    Inserted (edges.map Prod.snd) graph (graph.insertShortcuts edges) := by
  induction edges generalizing graph with
  | nil => exact ⟨rfl,fun u e inside => .inl inside,fun u e inside => ⟨e,inside,.refl e⟩,by simp,fun u _ => rfl⟩
  | cons edge rest ih =>
    have first := insertShortcut_inserted graph edge.1 edge.2
    have more := ih (graph.insertShortcut edge.1 edge.2)
    refine ⟨more.nodes.trans first.nodes,?_,?_,?_,?_⟩
    · intro u e inside
      rcases more.new_or_old u e inside with old | ⟨other,member,new⟩
      · rcases first.new_or_old u e old with older | ⟨other,member,new⟩
        · exact .inl older
        · exact .inr ⟨other,by simpa using .inl (by simpa using member),new⟩
      · exact .inr ⟨other,by simpa using .inr (by simpa using member),new⟩
    · intro u e inside
      obtain ⟨e',inside',serves⟩ := first.kept u e inside
      obtain ⟨e'',inside'',serves'⟩ := more.kept u e' inside'
      exact ⟨e'',inside'',serves'.trans serves⟩
    · intro other member
      rcases mem_cons.mp member with rfl | later
      · obtain ⟨e',inside',serves⟩ := first.covered edge.2 (by simp)
        obtain ⟨e'',inside'',serves'⟩ := more.kept _ e' inside'
        exact ⟨e'',inside'',serves'.trans serves⟩
      · exact more.covered other later
    · intro u free
      rw [insertShortcuts,foldl_cons]
      exact (more.untouched u fun other member => free other (mem_cons_of_mem _ member)).trans
        (first.untouched u fun other member => free other (by simpa using .inl (mem_singleton.mp member)))

end Osrm.Contractor
