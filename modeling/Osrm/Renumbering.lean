import Osrm.ContractionRound

/-!
`RenumberGraph`. The contractor renumbers the nodes once while it runs, so that the
remaining nodes get the low ids, and undoes this at the end. A renumbering is a
permutation of the ids; everything a round does carries over to the renumbered graph.
-/
namespace Osrm.Renumbering
open Typedefs Walks Contractor NodeContraction ContractionRound

variable (old_to_new : Equiv.Perm NodeID)

def renumberData (data : ContractorEdgeData) : ContractorEdgeData :=
  { data with id := if data.shortcut then old_to_new data.id else data.id }
def renumberEdge (e : DynamicEdge) : DynamicEdge := ⟨old_to_new e.target,renumberData old_to_new e.data⟩
def renumberInsertion (e : ContractorEdge) : ContractorEdge :=
  ⟨old_to_new e.source,old_to_new e.target,renumberData old_to_new e.data⟩
def RenumberGraph (graph : ContractorGraph) : ContractorGraph where
  number_of_nodes := graph.number_of_nodes
  adjacent := fun u => (graph.adjacent (old_to_new.symm u)).map (renumberEdge old_to_new)

variable {old_to_new} {graph result : ContractorGraph} {alive : NodeID → Prop} {selected : List NodeID}
  {pool edges : List ContractorEdge} {u v s t : NodeID} {w : ℤ} {e : DynamicEdge} {P : NodeID → Prop}

theorem renumberGraph_trans (first second : Equiv.Perm NodeID) (graph : ContractorGraph) :
    RenumberGraph second (RenumberGraph first graph) = RenumberGraph (first.trans second) graph := by
  have edge : renumberEdge second ∘ renumberEdge first = renumberEdge (first.trans second) := by
    funext e
    obtain ⟨target,data⟩ := e
    cases shortcut : data.shortcut <;> simp [renumberEdge,renumberData,shortcut]
  simp [RenumberGraph,edge]

theorem renumberGraph_refl (graph : ContractorGraph) : RenumberGraph (Equiv.refl _) graph = graph := by
  have edge : renumberEdge (Equiv.refl _) = id := by
    funext e
    obtain ⟨target,data⟩ := e
    cases shortcut : data.shortcut <;> simp [renumberEdge,renumberData]
  simp [RenumberGraph,edge]

private theorem mem_renumberGraph : e ∈ (RenumberGraph old_to_new graph).adjacent (old_to_new u) ↔
    ∃ e' ∈ graph.adjacent u, renumberEdge old_to_new e' = e := by
  simp [RenumberGraph]

private theorem renumbered (member : e ∈ graph.adjacent u) :
    renumberEdge old_to_new e ∈ (RenumberGraph old_to_new graph).adjacent (old_to_new u) :=
  mem_renumberGraph.mpr ⟨e,member,rfl⟩

private theorem forwardArcs_renumber :
    forwardArcs (RenumberGraph old_to_new graph) (old_to_new u) (old_to_new v) w ↔ forwardArcs graph u v w := by
  constructor
  · rintro ⟨e,member,target,forward,weight⟩
    obtain ⟨e',member',rfl⟩ := mem_renumberGraph.mp member
    exact ⟨e',member',old_to_new.injective target,forward,weight⟩
  · rintro ⟨e,member,target,forward,weight⟩
    exact ⟨_,renumbered member,congrArg old_to_new target,forward,weight⟩

private theorem backwardArcs_renumber :
    backwardArcs (RenumberGraph old_to_new graph) (old_to_new u) (old_to_new v) w ↔ backwardArcs graph u v w := by
  constructor
  · rintro ⟨e,member,target,backward,weight⟩
    obtain ⟨e',member',rfl⟩ := mem_renumberGraph.mp member
    exact ⟨e',member',old_to_new.injective target,backward,weight⟩
  · rintro ⟨e,member,target,backward,weight⟩
    exact ⟨_,renumbered member,congrArg old_to_new target,backward,weight⟩

private theorem adjacent_renumber :
    Adjacent (RenumberGraph old_to_new graph) (old_to_new u) (old_to_new v) ↔ Adjacent graph u v := by
  constructor
  · rintro ⟨e,member,target⟩
    obtain ⟨e',member',rfl⟩ := mem_renumberGraph.mp member
    exact ⟨e',member',old_to_new.injective target⟩
  · rintro ⟨e,member,target⟩
    exact ⟨_,renumbered member,congrArg old_to_new target⟩

private theorem through_renumber :
    Through (RenumberGraph old_to_new graph) (old_to_new v) (old_to_new s) (old_to_new t) w ↔ Through graph v s t w := by
  simp only [Through,backwardArcs_renumber,forwardArcs_renumber,ne_eq,EmbeddingLike.apply_eq_iff_eq]

private theorem consistent_renumber (consistent : Consistent graph alive) :
    Consistent (RenumberGraph old_to_new graph) (fun u => alive (old_to_new.symm u)) := by
  refine ⟨?_,?_,?_,?_,?_⟩
  · intro u living e member
    obtain ⟨u,rfl⟩ := old_to_new.surjective u
    obtain ⟨e',member',rfl⟩ := mem_renumberGraph.mp member
    simpa [renumberEdge] using consistent.closed u (by simpa using living) e' member'
  · intro u living e member
    obtain ⟨u,rfl⟩ := old_to_new.surjective u
    obtain ⟨e',member',rfl⟩ := mem_renumberGraph.mp member
    exact consistent.positive u (by simpa using living) e' member'
  · intro u v living adjacent
    obtain ⟨u,rfl⟩ := old_to_new.surjective u
    obtain ⟨v,rfl⟩ := old_to_new.surjective v
    exact adjacent_renumber.mpr (consistent.symmetric u v (by simpa using living) (adjacent_renumber.mp adjacent))
  · intro u v w living arc
    obtain ⟨u,rfl⟩ := old_to_new.surjective u
    obtain ⟨v,rfl⟩ := old_to_new.surjective v
    obtain ⟨w',wLe,back⟩ := consistent.forward u v w (by simpa using living) (forwardArcs_renumber.mp arc)
    exact ⟨w',wLe,backwardArcs_renumber.mpr back⟩
  · intro u v w living arc
    obtain ⟨u,rfl⟩ := old_to_new.surjective u
    obtain ⟨v,rfl⟩ := old_to_new.surjective v
    obtain ⟨w',wLe,back⟩ := consistent.backward u v w (by simpa using living) (backwardArcs_renumber.mp arc)
    exact ⟨w',wLe,forwardArcs_renumber.mpr back⟩

theorem consistent_of_renumber (consistent : Consistent (RenumberGraph old_to_new graph) alive) :
    Consistent graph (fun u => alive (old_to_new u)) := by
  have back := @consistent_renumber old_to_new.symm _ _ consistent
  rw [renumberGraph_trans,Equiv.self_trans_symm,renumberGraph_refl] at back
  simpa using back

theorem offers_renumber {forward : Bool} :
    Offers (edges.map (renumberInsertion old_to_new)) forward (old_to_new s) (old_to_new t) w ↔
      Offers edges forward s t w := by
  constructor
  · rintro ⟨e,member,source,target,weight,set⟩
    obtain ⟨e',member',rfl⟩ := List.mem_map.mp member
    exact ⟨e',member',old_to_new.injective source,old_to_new.injective target,weight,set⟩
  · rintro ⟨e,member,source,target,weight,set⟩
    exact ⟨_,List.mem_map_of_mem member,congrArg old_to_new source,congrArg old_to_new target,weight,set⟩

private theorem emitted_renumber (emitted : Emitted graph v edges) :
    Emitted (RenumberGraph old_to_new graph) (old_to_new v) (edges.map (renumberInsertion old_to_new)) := by
  refine ⟨?_,?_,?_,?_,?_⟩
  · intro e member
    obtain ⟨e',member',rfl⟩ := List.mem_map.mp member
    obtain ⟨shortcut,id⟩ := emitted.shortcut e' member'
    exact ⟨shortcut,by simp [renumberInsertion,renumberData,shortcut,id]⟩
  · intro e member
    obtain ⟨e',member',rfl⟩ := List.mem_map.mp member
    exact emitted.usable e' member'
  · intro s t w offers
    obtain ⟨s,rfl⟩ := old_to_new.surjective s
    obtain ⟨t,rfl⟩ := old_to_new.surjective t
    exact through_renumber.mpr (emitted.sound (offers_renumber.mp offers))
  · intro s t w
    obtain ⟨s,rfl⟩ := old_to_new.surjective s
    obtain ⟨t,rfl⟩ := old_to_new.surjective t
    rw [offers_renumber,offers_renumber]
    exact emitted.mirrored
  · intro s t w through
    obtain ⟨s,rfl⟩ := old_to_new.surjective s
    obtain ⟨t,rfl⟩ := old_to_new.surjective t
    refine (emitted.bypass (through_renumber.mp through)).imp offers_renumber.mpr ?_
    rintro ⟨k,kLe,around⟩
    refine ⟨k,kLe,around.map old_to_new ?_⟩
    rintro x y w ⟨awayX,awayY,arc⟩
    exact ⟨old_to_new.injective.ne awayX,old_to_new.injective.ne awayY,forwardArcs_renumber.mpr arc⟩

private theorem serves_renumber {e' : DynamicEdge} (serves : Serves e' e) :
    Serves (renumberEdge old_to_new e') (renumberEdge old_to_new e) :=
  ⟨congrArg old_to_new serves.1,serves.2⟩

theorem contracted_renumber (contracted : Contracted graph result alive selected pool) :
    Contracted (RenumberGraph old_to_new graph) (RenumberGraph old_to_new result) (fun u => alive (old_to_new.symm u))
      (selected.map old_to_new) (pool.map (renumberInsertion old_to_new)) := by
  have chosen : ∀ u, old_to_new u ∈ selected.map old_to_new ↔ u ∈ selected := by simp
  have sub : ∀ {edges more : List ContractorEdge}, edges ⊆ more →
      edges.map (renumberInsertion old_to_new) ⊆ more.map (renumberInsertion old_to_new) :=
    fun sub => List.map_subset _ sub
  refine ⟨contracted.nodes,⟨?_,?_⟩,?_,?_,?_,?_⟩
  · intro e member
    obtain ⟨e',member',rfl⟩ := List.mem_map.mp member
    obtain ⟨v,taken,edges,emitted,made,inside⟩ := contracted.shortcuts.made e' member'
    exact ⟨old_to_new v,(chosen v).mpr taken,_,emitted_renumber emitted,List.mem_map_of_mem made,sub inside⟩
  · intro v taken
    obtain ⟨v,known,rfl⟩ := List.mem_map.mp taken
    obtain ⟨edges,emitted,inside⟩ := contracted.shortcuts.all v known
    exact ⟨_,emitted_renumber emitted,sub inside⟩
  · intro u gone
    obtain ⟨u,rfl⟩ := old_to_new.surjective u
    rw [chosen,Equiv.symm_apply_apply] at gone
    simp [RenumberGraph,contracted.frozen u gone]
  · intro u living free e member
    obtain ⟨u,rfl⟩ := old_to_new.surjective u
    rw [chosen] at free
    obtain ⟨e',member',rfl⟩ := mem_renumberGraph.mp member
    rcases contracted.new_or_old u (by simpa using living) free e' member' with ⟨old,stays⟩ | ⟨edge,new,rfl,rfl⟩
    · exact .inl ⟨renumbered old,fun bad => stays ((chosen _).mp bad)⟩
    · exact .inr ⟨_,List.mem_map_of_mem new,rfl,rfl⟩
  · intro u living free e member stays
    obtain ⟨u,rfl⟩ := old_to_new.surjective u
    rw [chosen] at free
    obtain ⟨e',member',rfl⟩ := mem_renumberGraph.mp member
    obtain ⟨e'',member'',serves⟩ := contracted.kept u (by simpa using living) free e' member'
      fun bad => stays ((chosen _).mpr bad)
    exact ⟨_,renumbered member'',serves_renumber serves⟩
  · intro edge member
    obtain ⟨edge',member',rfl⟩ := List.mem_map.mp member
    obtain ⟨e,inside,serves⟩ := contracted.covered edge' member'
    exact ⟨_,renumbered inside,serves_renumber serves⟩

private theorem near_renumber : Near (RenumberGraph old_to_new graph) (old_to_new u) (old_to_new v) ↔ Near graph u v := by
  unfold Near
  rw [adjacent_renumber]
  refine or_congr_right ⟨?_,?_⟩
  · rintro ⟨x,differ,first,second⟩
    obtain ⟨x,rfl⟩ := old_to_new.surjective x
    exact ⟨x,fun same => differ (congrArg old_to_new same),adjacent_renumber.mp first,adjacent_renumber.mp second⟩
  · rintro ⟨x,differ,first,second⟩
    exact ⟨old_to_new x,old_to_new.injective.ne differ,adjacent_renumber.mpr first,adjacent_renumber.mpr second⟩

theorem independent_renumber (independent : Independent graph alive selected) :
    Independent (RenumberGraph old_to_new graph) (fun u => alive (old_to_new.symm u)) (selected.map old_to_new) := by
  refine ⟨?_,?_⟩
  · intro v taken
    obtain ⟨v,known,rfl⟩ := List.mem_map.mp taken
    simpa using independent.alive v known
  · intro u takenU v takenV near
    obtain ⟨u,knownU,rfl⟩ := List.mem_map.mp takenU
    obtain ⟨v,knownV,rfl⟩ := List.mem_map.mp takenV
    exact congrArg old_to_new (independent.apart u knownU v knownV (near_renumber.mp near))

end Osrm.Renumbering
