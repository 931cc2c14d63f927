import Osrm.DinicPaths

/-!
`DinicMaxFlow::operator()` finds a minimum cut. The flow is feasible between all augmentations, every blocking flow makes it larger,
and when no sink has a level, the nodes with a level leave no capacity.
-/
namespace Osrm.DinicMaxFlow
open List Option Function
open Typedefs Loops RecursiveBisection UnitFlows

def BisectionGraphView.pairs (view : BisectionGraphView) : Finset (NodeID × NodeID) :=
  (Finset.range view.NumberOfNodes ×ˢ Finset.range view.NumberOfNodes).filter fun p => p.2 ∈ view.targets p.1
def flowPairs (view : BisectionGraphView) (flow : FlowEdges) : Finset (NodeID × NodeID) :=
  (Finset.range view.NumberOfNodes ×ˢ Finset.range view.NumberOfNodes).filter fun p => p.2 ∈ flow p.1

variable {view : BisectionGraphView} {source_nodes sink_nodes : List NodeID} {flow : FlowEdges} {u v : NodeID}

private theorem mem_pairs : (u,v) ∈ view.pairs ↔ (u < view.NumberOfNodes ∧ v < view.NumberOfNodes) ∧ v ∈ view.targets u := by
  rw [BisectionGraphView.pairs,Finset.mem_filter,Finset.mem_product,Finset.mem_range,Finset.mem_range]
private theorem mem_flowPairs : (u,v) ∈ flowPairs view flow ↔ (u < view.NumberOfNodes ∧ v < view.NumberOfNodes) ∧ v ∈ flow u := by
  rw [flowPairs,Finset.mem_filter,Finset.mem_product,Finset.mem_range,Finset.mem_range]

private theorem flowPairs_augment_one (inside_u : u < view.NumberOfNodes) (inside_v : v < view.NumberOfNodes) :
    flowPairs view (augment_one flow u v) = send (flowPairs view flow) u v := by
  ext ⟨a,b⟩
  rw [mem_flowPairs,augment_one,send]
  by_cases against : u ∈ flow v
  · rw [if_pos against,if_pos (mem_flowPairs.mpr ⟨⟨inside_v,inside_u⟩,against⟩),Finset.mem_erase,mem_flowPairs]
    by_cases here : a = v
    · subst here
      rw [update_self,Finset.mem_erase]
      simp only [ne_eq,Prod.mk.injEq]
      tauto
    · rw [update_of_ne here]
      simp only [ne_eq,Prod.mk.injEq]
      tauto
  · rw [if_neg against,if_neg fun member => against (mem_flowPairs.mp member).2,Finset.mem_insert,mem_flowPairs,Prod.mk.injEq]
    by_cases here : a = u
    · subst here
      rw [update_self,Finset.mem_insert]
      constructor
      · tauto
      · rintro (⟨-,rfl⟩ | old)
        · exact ⟨⟨inside_u,inside_v⟩,.inl rfl⟩
        · exact ⟨old.1,.inr old.2⟩
    · rw [update_of_ne here]
      tauto

private theorem flowPairs_augment_flow (path : List NodeID) (inside : ∀ x ∈ path, x < view.NumberOfNodes) :
    flowPairs view (augment_flow flow path) = sendAlong (flowPairs view flow) path := by
  induction path generalizing flow with
  | nil => rfl
  | cons u path ih =>
    cases path with
    | nil => rfl
    | cons v path =>
      obtain ⟨inside_u,rest⟩ := forall_mem_cons.mp inside
      rw [augment_flow,sendAlong,ih rest,flowPairs_augment_one inside_u (rest v mem_cons_self)]

def FlowValue (view : BisectionGraphView) (source_nodes sink_nodes : List NodeID) (flow : FlowEdges) (value : ℕ) : Prop :=
  Feasible view.pairs source_nodes.toFinset sink_nodes.toFinset (flowPairs view flow) value

private theorem pairs_symmetric (symmetric : view.Symmetric) (u v : NodeID) (member : (u,v) ∈ view.pairs) : (v,u) ∈ view.pairs := by
  obtain ⟨⟨inside_u,inside_v⟩,edge⟩ := mem_pairs.mp member
  exact mem_pairs.mpr ⟨⟨inside_v,inside_u⟩,symmetric u inside_u v edge⟩

private theorem FlowValue.augment {value : ℕ} {sink : NodeID} {path : List NodeID} (feasible : FlowValue view source_nodes sink_nodes flow value)
    (symmetric : view.Symmetric) (at_sink : sink ∈ sink_nodes) (augmenting : Augmenting view source_nodes flow sink path) :
    FlowValue view source_nodes sink_nodes (augment_flow flow path) (value + 1) := by
  obtain ⟨⟨u,rest,rfl,source⟩,last,nodup,inside,edges,capacity⟩ := augmenting
  rw [FlowValue,flowPairs_augment_flow _ inside]
  refine Feasible.sendAlong feasible (mem_toFinset.mpr source) nodup ?_ ?_ ?_
  · refine edges.imp_of_mem_imp fun a b at_a at_b edge => pairs_symmetric symmetric b a ?_
    exact mem_pairs.mpr ⟨⟨inside b at_b,inside a at_a⟩,edge⟩
  · exact capacity.imp fun a b free member => free (mem_flowPairs.mp member).2
  · rw [getLast?_eq_some_getLast (cons_ne_nil u rest)] at last
    rw [some.inj last]
    exact mem_toFinset.mpr at_sink

section Blocking
variable {levels : LevelGraph} {value : ℕ} {sink : NodeID}

/-- What holds between two paths. Until the first path is found, nothing is changed. -/
structure Blocked (view : BisectionGraphView) (source_nodes sink_nodes : List NodeID) (flow : FlowEdges) (levels : LevelGraph) (value : ℕ)
    (s : Blocking) : Prop where
  feasible : FlowValue view source_nodes sink_nodes s.flow (value + s.flow_increase)
  lowered : Lowered source_nodes s.levels
  progress : 0 < s.flow_increase ∨ s.flow = flow ∧ s.levels = levels

structure Pursued (view : BisectionGraphView) (source_nodes sink_nodes : List NodeID) (flow : FlowEdges) (levels : LevelGraph)
    (value : ℕ) (sink : NodeID) (s : Blocking) : Prop where
  blocked : Blocked view source_nodes sink_nodes flow levels value s
  running : s.finished = false → s.levels sink ≠ INVALID_LEVEL
  ends : s.finished = true → 0 < s.flow_increase

def capacity (view : BisectionGraphView) (source_nodes : List NodeID) : ℕ := (cut view.pairs source_nodes.toFinset).card

private theorem FlowValue.le_capacity (feasible : FlowValue view source_nodes sink_nodes flow value) (disjoint : ∀ x ∈ source_nodes, x ∉ sink_nodes) :
    value ≤ capacity view source_nodes := by
  refine Feasible.le_cut feasible ⟨fun _ member => member,fun t at_t member => ?_⟩
  exact disjoint t (mem_toFinset.mp member) (mem_toFinset.mp at_t)

def blockingWork (view : BisectionGraphView) (source_nodes : List NodeID) (value : ℕ) (s : Blocking) : ℕ :=
  if s.finished then 0 else capacity view source_nodes + 1 - (value + s.flow_increase)

private theorem augmentPath_total (symmetric : view.Symmetric) (sink_inside : ∀ x ∈ sink_nodes, x < view.NumberOfNodes)
    (disjoint : ∀ x ∈ source_nodes, x ∉ sink_nodes) (leads : Leads view source_nodes flow levels) (at_sink : sink ∈ sink_nodes)
    (s : Blocking) (pursued : Pursued view source_nodes sink_nodes flow levels value sink s) (more : s.finished = false) :
    ∃ fuel next, (∀ more ≥ fuel, augmentPath view source_nodes sink more s = some next) ∧
      Pursued view source_nodes sink_nodes flow levels value sink next ∧
      blockingWork view source_nodes value next < blockingWork view source_nodes value s := by
  obtain ⟨⟨feasible,lowered,progress⟩,running,-⟩ := pursued
  have no_source : sink ∉ source_nodes := fun member => disjoint sink member at_sink
  obtain ⟨fuel,path,levels',ran,lowered',augmenting,found⟩ :=
    @path_total view source_nodes s.flow sink s.levels lowered (sink_inside sink at_sink) (running more) no_source
  have bound := feasible.le_capacity disjoint
  cases augmenting with
  | inl empty =>
    -- no path to this sink: either some unit was sent before, or the levels lead to a source
    have before : 0 < s.flow_increase := by
      refine progress.resolve_right fun same => ?_
      rw [same.1,same.2] at found
      exact found leads empty
    refine ⟨fuel,{ s with levels := levels',finished := true },fun more enough => ?_,⟨⟨feasible,lowered',.inl before⟩,by simp,?_⟩,?_⟩
    · rw [augmentPath,ran more enough,map_some,if_pos empty]
    · exact fun _ => before
    · rw [blockingWork,blockingWork,more,if_pos rfl,if_neg Bool.false_ne_true]
      omega
  | inr found =>
    obtain ⟨augmenting,valid⟩ := found
    have nonempty : path ≠ [] := by
      obtain ⟨u,rest,rfl,-⟩ := augmenting.source
      exact cons_ne_nil _ _
    have feasible' := feasible.augment symmetric at_sink augmenting
    have bound' := feasible'.le_capacity disjoint
    refine ⟨fuel,{ s with flow := augment_flow s.flow path,levels := levels',flow_increase := s.flow_increase + 1 },fun more enough => ?_,
      ⟨⟨feasible',lowered',.inl (Nat.succ_pos _)⟩,fun _ => valid,fun _ => Nat.succ_pos _⟩,?_⟩
    · rw [augmentPath,ran more enough,map_some,if_neg nonempty]
    · rw [blockingWork,blockingWork]
      dsimp only
      rw [more,if_neg Bool.false_ne_true,if_neg Bool.false_ne_true]
      omega

private theorem augment_all_paths_total (symmetric : view.Symmetric) (sink_inside : ∀ x ∈ sink_nodes, x < view.NumberOfNodes)
    (disjoint : ∀ x ∈ source_nodes, x ∉ sink_nodes) (leads : Leads view source_nodes flow levels) (at_sink : sink ∈ sink_nodes)
    {s : Blocking} (blocked : Blocked view source_nodes sink_nodes flow levels value s) :
    ∃ fuel next, (∀ more ≥ fuel, augment_all_paths view source_nodes more s sink = some next) ∧
      Blocked view source_nodes sink_nodes flow levels value next ∧ (next = s ∧ s.levels sink = INVALID_LEVEL ∨ 0 < next.flow_increase) := by
  by_cases invalid : s.levels sink = INVALID_LEVEL
  · exact ⟨0,s,fun more _ => by rw [augment_all_paths,if_pos invalid],blocked,.inl ⟨rfl,invalid⟩⟩
  · obtain ⟨fuel,final,ran,pursued,stopped⟩ := @whileLoopM_total _ (fun s : Blocking => !s.finished) (augmentPath view source_nodes sink)
      (Pursued view source_nodes sink_nodes flow levels value sink) (blockingWork view source_nodes value)
      (fun s pursued more => augmentPath_total symmetric sink_inside disjoint leads at_sink s pursued (by simpa using more))
      { s with finished := false } ⟨⟨blocked.feasible,blocked.lowered,blocked.progress⟩,fun _ => invalid,by simp⟩
    refine ⟨fuel,final,fun more enough => ?_,pursued.blocked,.inr (pursued.ends (by simpa using stopped))⟩
    rw [augment_all_paths,if_neg invalid]
    exact ran more enough more enough

private theorem blockingFlow_total (symmetric : view.Symmetric) (sink_inside : ∀ x ∈ sink_nodes, x < view.NumberOfNodes)
    (disjoint : ∀ x ∈ source_nodes, x ∉ sink_nodes) (leads : Leads view source_nodes flow levels) (lowered : Lowered source_nodes levels)
    (feasible : FlowValue view source_nodes sink_nodes flow value) {border_sink_nodes : List NodeID}
    (sub : ∀ x ∈ border_sink_nodes, x ∈ sink_nodes) (reached : ∃ x ∈ border_sink_nodes, levels x ≠ INVALID_LEVEL) :
    ∃ fuel final, (∀ more ≥ fuel, BlockingFlow view source_nodes flow levels border_sink_nodes more = some final) ∧
      FlowValue view source_nodes sink_nodes final.flow (value + final.flow_increase) ∧ 0 < final.flow_increase := by
  obtain ⟨fuel,final,ran,blocked,each⟩ := @foldlM_total _ _ (fun done s => Blocked view source_nodes sink_nodes flow levels value s ∧
      ∀ x ∈ done, levels x ≠ INVALID_LEVEL → 0 < s.flow_increase) (augment_all_paths view source_nodes) border_sink_nodes
    (fun done s x member inv => by
      obtain ⟨blocked,each⟩ := inv
      obtain ⟨fuel,next,ran,blocked',increase⟩ := augment_all_paths_total symmetric sink_inside disjoint leads (sub x member) blocked
      refine ⟨fuel,next,ran,blocked',fun y at_y valid => ?_⟩
      cases increase with
      | inr more => exact more
      | inl unchanged =>
        obtain ⟨rfl,invalid⟩ := unchanged
        cases mem_append.mp at_y with
        | inl earlier => exact each y earlier valid
        | inr last =>
          refine blocked.progress.resolve_right fun same => valid ?_
          rw [mem_singleton.mp last,← same.2]
          exact invalid)
    ⟨flow,levels,0,false⟩ ⟨⟨feasible,lowered,.inr ⟨rfl,rfl⟩⟩,by simp⟩
  obtain ⟨x,member,valid⟩ := reached
  exact ⟨fuel,final,ran,blocked.feasible,each x member valid⟩

end Blocking

def MinCut.source_side (cut : MinCut) : Finset NodeID := (Finset.range cut.flags.length).filter fun nid => cut.flags.getD nid false = true

structure IsMinimumCut (view : BisectionGraphView) (source_nodes sink_nodes : List NodeID) (cut : MinCut) : Prop where
  flags_length : cut.flags.length = view.NumberOfNodes
  separates : Separates source_nodes.toFinset sink_nodes.toFinset cut.source_side
  edges : cut.num_edges = (UnitFlows.cut view.pairs cut.source_side).card
  minimum : ∀ side, Separates source_nodes.toFinset sink_nodes.toFinset side → cut.num_edges ≤ (UnitFlows.cut view.pairs side).card
  nodes : cut.num_nodes_source = cut.flags.count true

variable {levels : LevelGraph}

private theorem markSources_apply (nodes : List NodeID) (levels : LevelGraph) (x : NodeID) :
    markSources nodes levels x = if x ∈ nodes then 0 else levels x := by
  induction nodes generalizing levels with
  | nil => simp [markSources]
  | cons node nodes ih =>
    rw [markSources,foldl_cons,← markSources,ih]
    by_cases here : x = node
    · subst here
      simp
    · simp [here]

private theorem mem_source_side (value : ℕ) {x : NodeID} :
    x ∈ (MakeCut view (markSources source_nodes levels) value).source_side ↔
      x < view.NumberOfNodes ∧ (x ∈ source_nodes ∨ levels x ≠ INVALID_LEVEL) := by
  rw [MinCut.source_side,Finset.mem_filter,Finset.mem_range,MakeCut,length_map,length_range]
  refine and_congr_right fun inside => ?_
  rw [getD_eq_getElem?_getD,getElem?_map,getElem?_range inside,map_some,getD_some,markSources_apply,
    is_valid_level]
  by_cases member : x ∈ source_nodes
  · simp [member,INVALID_LEVEL]
  · simp [member]

private theorem Levelled.lowered (levelled : Levelled view source_nodes sink_nodes flow ⟨levels,[]⟩) : Lowered source_nodes levels :=
  ⟨levelled.range,levelled.zero_source⟩

private theorem Levelled.leads (levelled : Levelled view source_nodes sink_nodes flow ⟨levels,[]⟩) (symmetric : view.Symmetric) :
    Leads view source_nodes flow levels := by
  intro y _ valid no_source
  obtain ⟨x,valid',-,edge,capacity,next⟩ := levelled.parent y valid no_source
  exact ⟨x,symmetric x (levelled.inside x valid') y edge,capacity,next⟩

private theorem makeCut_minimum (symmetric : view.Symmetric) (source_inside : ∀ x ∈ source_nodes, x < view.NumberOfNodes) (disjoint : ∀ x ∈ source_nodes, x ∉ sink_nodes) {value : ℕ}
    (feasible : FlowValue view source_nodes sink_nodes flow value) (levelled : Levelled view source_nodes sink_nodes flow ⟨levels,[]⟩)
    (separated : ∀ x ∈ sink_nodes.filter (hasNeighborNotIn view sink_nodes), levels x = INVALID_LEVEL) :
    IsMinimumCut view source_nodes sink_nodes
      (MakeCut view (markSources source_nodes levels) value) := by
  -- a sink with a level would be on the border, because the node before it is no sink
  have no_sink : ∀ t ∈ sink_nodes, levels t = INVALID_LEVEL := by
    intro t at_t
    by_contra valid
    obtain ⟨x,valid',no_sink,edge,-⟩ := levelled.parent t valid fun member => disjoint t member at_t
    refine valid (separated t (mem_filter.mpr ⟨at_t,hasNeighborNotIn_iff.mpr ⟨x,?_,no_sink⟩⟩))
    exact symmetric x (levelled.inside x valid') t edge
  have separates : Separates source_nodes.toFinset sink_nodes.toFinset
      (MakeCut view (markSources source_nodes levels) value).source_side := by
    refine ⟨fun x member => ?_,fun t member at_side => ?_⟩
    · have source := mem_toFinset.mp member
      exact (mem_source_side value).mpr ⟨source_inside x source,.inl source⟩
    · have sink := mem_toFinset.mp member
      cases ((mem_source_side value).mp at_side).2 with
      | inl source => exact disjoint t source sink
      | inr valid => exact valid (no_sink t sink)
  have saturated : crossing view.pairs
      (MakeCut view (markSources source_nodes levels) value).source_side ⊆ flowPairs view flow := by
    rintro ⟨x,y⟩ member
    obtain ⟨pair,near,far⟩ := mem_crossing.mp member
    obtain ⟨⟨inside_x,inside_y⟩,edge⟩ := mem_pairs.mp pair
    obtain ⟨-,side⟩ := (mem_source_side value).mp near
    have outside : ¬ (y ∈ source_nodes ∨ levels y ≠ INVALID_LEVEL) := fun inside => far ((mem_source_side value).mpr ⟨inside_y,inside⟩)
    rw [not_or,not_not] at outside
    -- a source with a neighbor on the other side is on the border and has the level zero
    have border : x ∈ source_nodes → Border view source_nodes x := fun source => ⟨source,y,edge,outside.1⟩
    have valid : levels x ≠ INVALID_LEVEL := by
      cases side with
      | inr valid => exact valid
      | inl source =>
        have zero := (levelled.border x (border source)).1
        dsimp only at zero
        rw [zero,INVALID_LEVEL]
        omega
    have not_sink : x ∉ sink_nodes := fun sink => valid (no_sink x sink)
    cases levelled.relaxed x valid not_sink border with
    | inl queued => simp at queued
    | inr each =>
      cases each y edge with
      | inl full => exact mem_flowPairs.mpr ⟨⟨inside_x,inside_y⟩,full⟩
      | inr given => exact absurd outside.2 given
  obtain ⟨equal,minimum⟩ := Feasible.minimum feasible (pairs_symmetric symmetric) separates saturated
  refine ⟨?_,separates,equal,minimum,?_⟩
  · rw [MakeCut,length_map,length_range]
  · rw [MakeCut]
    dsimp only
    rw [List.count,countP_map]
    exact countP_congr fun x _ => by simp

structure Progressing (view : BisectionGraphView) (source_nodes sink_nodes : List NodeID) (s : Progress) : Prop where
  feasible : FlowValue view source_nodes sink_nodes s.flow s.flow_value
  cut : ∀ cut, s.cut = some cut → IsMinimumCut view source_nodes sink_nodes cut

def roundsLeft (view : BisectionGraphView) (source_nodes : List NodeID) (s : Progress) : ℕ :=
  if s.cut.isSome then 0 else capacity view source_nodes + 1 - s.flow_value

private theorem separate_total (symmetric : view.Symmetric) (source_inside : ∀ x ∈ source_nodes, x < view.NumberOfNodes)
    (sink_inside : ∀ x ∈ sink_nodes, x < view.NumberOfNodes) (disjoint : ∀ x ∈ source_nodes, x ∉ sink_nodes) (s : Progress)
    (progressing : Progressing view source_nodes sink_nodes s) (more : s.cut = none) :
    ∃ fuel next, (∀ more ≥ fuel, separate view source_nodes sink_nodes more s = some next) ∧
      Progressing view source_nodes sink_nodes next ∧ roundsLeft view source_nodes next < roundsLeft view source_nodes s := by
  have feasible := progressing.feasible
  have bound := feasible.le_capacity disjoint
  obtain ⟨fuel,levels,computed,levelled⟩ := levels_total symmetric source_inside sink_nodes s.flow
  by_cases separated : ∀ x ∈ sink_nodes.filter (hasNeighborNotIn view sink_nodes), levels x = INVALID_LEVEL
  · have all : ((sink_nodes.filter (hasNeighborNotIn view sink_nodes)).all fun node => levels node == INVALID_LEVEL) = true := by
      rw [List.all_eq_true]
      exact fun x member => beq_iff_eq.mpr (separated x member)
    have minimum := makeCut_minimum symmetric source_inside disjoint feasible levelled separated
    refine ⟨fuel,{ s with cut := some (MakeCut view (markSources source_nodes levels) s.flow_value) },
      fun more enough => ?_,⟨feasible,fun cut same => some.inj same ▸ minimum⟩,?_⟩
    · rw [separate]
      simp only [computed more enough,bind_eq_bind,bind_some,all,if_true]
    · rw [roundsLeft,roundsLeft,more]
      simp only [isSome_some,isSome_none,if_true,Bool.false_eq_true,if_false]
      omega
  · have some_level : ((sink_nodes.filter (hasNeighborNotIn view sink_nodes)).all fun node => levels node == INVALID_LEVEL) = false := by
      rw [Bool.eq_false_iff,Ne,List.all_eq_true]
      exact fun every => separated fun x member => beq_iff_eq.mp (every x member)
    have reached : ∃ x ∈ sink_nodes.filter (hasNeighborNotIn view sink_nodes), levels x ≠ INVALID_LEVEL := by
      simpa only [not_forall,exists_prop] using separated
    obtain ⟨fuel',blocking,ran,feasible',increase⟩ := blockingFlow_total symmetric sink_inside disjoint (levelled.leads symmetric)
      levelled.lowered feasible (fun x member => mem_of_mem_filter member) reached
    have bound' := feasible'.le_capacity disjoint
    refine ⟨max fuel fuel',{ s with flow := blocking.flow,flow_value := s.flow_value + blocking.flow_increase },fun more enough => ?_,
      ⟨feasible',fun cut same => ?_⟩,?_⟩
    · rw [separate]
      simp only [computed more (by omega),ran more (by omega),bind_eq_bind,bind_some,some_level,Bool.false_eq_true,if_false]
    · dsimp only at same
      rw [more] at same
      simp at same
    · rw [roundsLeft,roundsLeft]
      dsimp only
      rw [more]
      simp only [isSome_none,Bool.false_eq_true,if_false]
      omega

/-- The algorithm ends with a minimum cut between the sources and the sinks. -/
theorem dinic_minimum_cut (symmetric : view.Symmetric) (source_inside : ∀ x ∈ source_nodes, x < view.NumberOfNodes)
    (sink_inside : ∀ x ∈ sink_nodes, x < view.NumberOfNodes) (disjoint : ∀ x ∈ source_nodes, x ∉ sink_nodes) :
    ∃ fuel cut, (∀ more ≥ fuel, minimumCut view source_nodes sink_nodes more = some cut) ∧
      IsMinimumCut view source_nodes sink_nodes cut := by
  have start : FlowValue view source_nodes sink_nodes (fun _ => ∅) 0 := by
    have empty : flowPairs view (fun _ => ∅) = ∅ := by simp [flowPairs]
    rw [FlowValue,empty]
    exact feasible_empty ..
  obtain ⟨fuel,final,ran,progressing,stopped⟩ := @whileLoopM_total _ (fun s : Progress => s.cut.isNone)
    (separate view source_nodes sink_nodes) (Progressing view source_nodes sink_nodes) (roundsLeft view source_nodes)
    (fun s progressing more => separate_total symmetric source_inside sink_inside disjoint s progressing (by simpa using more))
    ⟨fun _ => ∅,0,none⟩ ⟨start,by simp⟩
  obtain ⟨cut,same⟩ : ∃ cut, final.cut = some cut := by
    rwa [isNone_eq_false_iff,isSome_iff_exists] at stopped
  refine ⟨fuel,cut,fun more enough => ?_,progressing.cut cut same⟩
  rw [minimumCut,ran more enough more enough,bind_some,same]

/-- A ring of five nodes with a chord. -/
def chordView : BisectionGraphView :=
  ⟨makeBisectionGraph [⟨0,0⟩,⟨0,1⟩,⟨1,1⟩,⟨2,1⟩,⟨2,0⟩] [⟨⟨1⟩,0⟩,⟨⟨4⟩,0⟩,⟨⟨0⟩,1⟩,⟨⟨2⟩,1⟩,⟨⟨4⟩,1⟩,⟨⟨1⟩,2⟩,⟨⟨3⟩,2⟩,⟨⟨2⟩,3⟩,⟨⟨4⟩,3⟩,
    ⟨⟨0⟩,4⟩,⟨⟨1⟩,4⟩,⟨⟨3⟩,4⟩],0,5,by decide,by unfold BisectionGraph.Closed; decide,by decide⟩

theorem chord_minimum_cut : ∃ fuel cut, (∀ more ≥ fuel, minimumCut chordView [0,1] [3] more = some cut) ∧
    IsMinimumCut chordView [0,1] [3] cut :=
  dinic_minimum_cut (by unfold BisectionGraphView.Symmetric; decide) (by decide) (by decide) (by decide)

end Osrm.DinicMaxFlow
