import Osrm.DinicLevels

/-!
The paths of `DinicMaxFlow::GetAugmentingPath`. A path goes down the levels one by one and has capacity all the way from its source
to the sink. Where every node has a node below it, as after the levels were computed, a path is found.
-/
namespace Osrm.DinicMaxFlow
open List Function
open Typedefs Loops RecursiveBisection

variable {view : BisectionGraphView} {source_nodes : List NodeID} {flow : FlowEdges} {sink : NodeID}

/-- What is left of the levels after nodes were given up. -/
structure Lowered (source_nodes : List NodeID) (levels : LevelGraph) : Prop where
  range : ∀ x, levels x ≤ INVALID_LEVEL
  zero_source : ∀ x, levels x = 0 → x ∈ source_nodes

/-- One step of a path, found backwards: capacity to the other node, one level below it. -/
def Down (view : BisectionGraphView) (flow : FlowEdges) (levels : LevelGraph) (a b : NodeID) : Prop :=
  a ∈ view.targets b ∧ b ∉ flow a ∧ levels a + 1 = levels b

variable {levels : LevelGraph}

private theorem Lowered.down_iff (lowered : Lowered source_nodes levels) {a b : NodeID} (no_source : b ∉ source_nodes) :
    (levels a + 1) % 2 ^ 32 = levels b ↔ levels a + 1 = levels b := by
  have range_a := lowered.range a
  have range_b := lowered.range b
  have positive : levels b ≠ 0 := fun zero => no_source (lowered.zero_source b zero)
  rw [INVALID_LEVEL] at range_a range_b
  omega

structure Searching (view : BisectionGraphView) (source_nodes : List NodeID) (flow : FlowEdges) (sink : NodeID) (s : PathSearch) :
    Prop where
  lowered : Lowered source_nodes s.levels
  chain : s.path.IsChain (Down view flow s.levels)
  valid : ∀ x ∈ s.path, x < view.NumberOfNodes ∧ s.levels x ≠ INVALID_LEVEL
  last : s.path = [] ∨ s.path.getLast? = some sink
  frames : s.found = false → List.Forall₂ (fun edges x => edges ⊆ view.targets x ∧ x ∉ source_nodes) s.dfs_stack s.path
  source : s.found = true → ∃ x rest, s.path = x :: rest ∧ x ∈ source_nodes

variable {path : List NodeID}

private theorem nodup_of_down (chain : path.IsChain (Down view flow levels)) : path.Nodup := by
  have ascending : path.IsChain fun a b => levels a < levels b := chain.imp fun a b down => by
    have := down.2.2
    omega
  have trans : IsTrans NodeID fun a b => levels a < levels b := ⟨fun a b c => Nat.lt_trans⟩
  exact (isChain_iff_pairwise.mp ascending).imp fun less same => by
    rw [same] at less
    omega

/-- How many steps the search may still take. -/
def pathWork (view : BisectionGraphView) (s : PathSearch) : ℕ :=
  (s.dfs_stack.map fun edges => edges.length + 1).sum +
    ∑ x ∈ (Finset.range view.NumberOfNodes).filter (fun x => s.levels x ≠ INVALID_LEVEL ∧ x ∉ s.path), ((view.targets x).length + 2)

variable {s : PathSearch}

private theorem pathWork_push {target : NodeID} (inside : target < view.NumberOfNodes)
    (given : levels target ≠ INVALID_LEVEL) (fresh : target ∉ path) :
    ∑ x ∈ (Finset.range view.NumberOfNodes).filter (fun x => levels x ≠ INVALID_LEVEL ∧ x ∉ target :: path),
        ((view.targets x).length + 2) + ((view.targets target).length + 2) =
      ∑ x ∈ (Finset.range view.NumberOfNodes).filter (fun x => levels x ≠ INVALID_LEVEL ∧ x ∉ path), ((view.targets x).length + 2) := by
  have fewer : (Finset.range view.NumberOfNodes).filter (fun x => levels x ≠ INVALID_LEVEL ∧ x ∉ target :: path) =
      ((Finset.range view.NumberOfNodes).filter fun x => levels x ≠ INVALID_LEVEL ∧ x ∉ path).erase target := by
    ext x
    simp only [Finset.mem_erase,Finset.mem_filter,mem_cons,not_or]
    tauto
  rw [fewer]
  exact Finset.sum_erase_add _ _ (Finset.mem_filter.mpr ⟨Finset.mem_range.mpr inside,given,fresh⟩)

private theorem pathWork_give_up {back : NodeID} :
    (Finset.range view.NumberOfNodes).filter (fun x => Function.update levels back INVALID_LEVEL x ≠ INVALID_LEVEL ∧ x ∉ path) =
      (Finset.range view.NumberOfNodes).filter fun x => levels x ≠ INVALID_LEVEL ∧ x ∉ back :: path := by
  ext x
  by_cases here : x = back
  · subst here
    simp
  · simp [here,update_of_ne]

structure Searched (view : BisectionGraphView) (source_nodes : List NodeID) (flow : FlowEdges) (sink : NodeID) (s s' : PathSearch) :
    Prop where
  searching : Searching view source_nodes flow sink s'
  less : pathWork view s' < pathWork view s

private theorem searched_push {target back : NodeID} {edges path : List NodeID} {dfs_stack : List (List NodeID)} {found : Bool}
    (pushed : List (List NodeID)) (searching : Searching view source_nodes flow sink s) (at_path : s.path = back :: path)
    (at_stack : s.dfs_stack = (target :: edges) :: dfs_stack) (inside : target < view.NumberOfNodes)
    (down : Down view flow s.levels target back)
    (frames : found = false → List.Forall₂ (fun edges x => edges ⊆ view.targets x ∧ x ∉ source_nodes) (pushed ++ edges :: dfs_stack)
      (target :: back :: path))
    (source : found = true → target ∈ source_nodes)
    (small : (pushed.map fun edges => edges.length + 1).sum ≤ (view.targets target).length + 1) :
    Searched view source_nodes flow sink s ⟨s.levels,target :: back :: path,pushed ++ edges :: dfs_stack,found⟩ := by
  have chain := searching.chain
  have valid := searching.valid
  rw [at_path] at chain valid
  have chain' : (target :: back :: path).IsChain (Down view flow s.levels) := isChain_cons_cons.mpr ⟨down,chain⟩
  have given : s.levels target ≠ INVALID_LEVEL := by
    have next := down.2.2
    have range := searching.lowered.range back
    omega
  have fresh : target ∉ back :: path := (nodup_cons.mp (nodup_of_down chain')).1
  refine ⟨⟨searching.lowered,chain',forall_mem_cons.mpr ⟨⟨inside,given⟩,valid⟩,.inr ?_,frames,fun reached => ⟨_,_,rfl,source reached⟩⟩,?_⟩
  · have last := searching.last
    rw [at_path] at last
    rw [getLast?_cons_cons]
    exact last.resolve_left (cons_ne_nil _ _)
  · have total := pathWork_push inside given fresh
    rw [pathWork,pathWork,at_path,at_stack,← total]
    simp only [map_append,sum_append,map_cons,sum_cons,length_cons]
    omega

private theorem searched_give_up {back : NodeID} {dfs_stack : List (List NodeID)}
    (searching : Searching view source_nodes flow sink ⟨levels,back :: path,[] :: dfs_stack,false⟩)
    (rest : List.Forall₂ (fun edges x => edges ⊆ view.targets x ∧ x ∉ source_nodes) dfs_stack path) :
    Searched view source_nodes flow sink ⟨levels,back :: path,[] :: dfs_stack,false⟩
      ⟨Function.update levels back INVALID_LEVEL,path,dfs_stack,false⟩ := by
  have chain := searching.chain
  have fresh : back ∉ path := (nodup_cons.mp (nodup_of_down chain)).1
  have other : ∀ x ∈ path, Function.update levels back INVALID_LEVEL x = levels x := by
    intro x member
    have ne : x ≠ back := fun here => fresh (here ▸ member)
    exact update_of_ne ne ..
  refine ⟨⟨⟨fun x => ?_,fun x zero => ?_⟩,?_,fun x member => ?_,?_,fun _ => rest,fun reached => absurd reached (by simp)⟩,?_⟩
  · dsimp only
    by_cases here : x = back
    · rw [here,update_self]
    · rw [update_of_ne here]
      exact searching.lowered.range x
  · dsimp only at zero
    by_cases here : x = back
    · rw [here,update_self,INVALID_LEVEL] at zero
      omega
    · rw [update_of_ne here] at zero
      exact searching.lowered.zero_source x zero
  · refine (isChain_cons.mp chain).2.imp_of_mem_imp fun a b at_a at_b down => ?_
    rw [Down] at down ⊢
    dsimp only at down ⊢
    rwa [other a at_a,other b at_b]
  · dsimp only
    rw [other x member]
    exact searching.valid x (mem_cons_of_mem _ member)
  · cases path with
    | nil => exact .inl rfl
    | cons next path =>
      have last := searching.last.resolve_left (cons_ne_nil _ _)
      rw [getLast?_cons_cons] at last
      exact .inr last
  · rw [pathWork,pathWork]
    dsimp only
    rw [pathWork_give_up]
    simp only [map_cons,sum_cons,length_nil]
    omega

private theorem searched (searching : Searching view source_nodes flow sink s) (running : s.found = false) (more : s.dfs_stack ≠ []) :
    Searched view source_nodes flow sink s (pathStep view source_nodes flow s) := by
  obtain ⟨levels,path,dfs_stack,found⟩ := s
  dsimp only at running more
  subst running
  have frames := searching.frames rfl
  dsimp only at frames
  cases frames with
  | nil => exact absurd rfl more
  | @cons edges back dfs_stack path top rest =>
    obtain ⟨sub,no_source⟩ := top
    cases edges with
    | cons target edges =>
      have edge := sub mem_cons_self
      have inside := view.targets_lt (searching.valid back mem_cons_self).1 edge
      have sub' : edges ⊆ view.targets back := fun x member => sub (mem_cons_of_mem _ member)
      have down_iff := @Lowered.down_iff _ _ searching.lowered target back no_source
      dsimp only at down_iff
      rw [pathStep]
      dsimp only
      split_ifs with step source
      · exact searched_push [] searching rfl rfl inside ⟨edge,step.1,down_iff.mp step.2⟩ (by simp) (fun _ => source) (by simp)
      · refine searched_push [view.targets target] searching rfl rfl inside ⟨edge,step.1,down_iff.mp step.2⟩ (fun _ => ?_)
          (by simp) (by simp)
        exact .cons ⟨fun x member => member,source⟩ (.cons ⟨sub',no_source⟩ rest)
      · refine ⟨{ searching with frames := fun _ => .cons ⟨sub',no_source⟩ rest },?_⟩
        rw [pathWork,pathWork]
        simp only [map_cons,sum_cons,length_cons]
        omega
    | nil =>
      exact searched_give_up searching rest

/-- Every node with a level, but a source, has a neighbor one level below it with capacity to it. -/
def Leads (view : BisectionGraphView) (source_nodes : List NodeID) (flow : FlowEdges) (levels : LevelGraph) : Prop :=
  ∀ y < view.NumberOfNodes, levels y ≠ INVALID_LEVEL → y ∉ source_nodes → ∃ x, Down view flow levels x y
/-- No node was given up, and the last one has an edge left that leads on. -/
def Ahead (view : BisectionGraphView) (flow : FlowEdges) (levels : LevelGraph) (s : PathSearch) : Prop :=
  s.found = true ∨ s.levels = levels ∧ ∃ back path edges dfs_stack, s.path = back :: path ∧ s.dfs_stack = edges :: dfs_stack ∧
    ∃ x ∈ edges, Down view flow levels x back

private theorem ahead_step (leads : Leads view source_nodes flow levels) (searching : Searching view source_nodes flow sink s)
    (running : s.found = false) (ahead : Ahead view flow levels s) : Ahead view flow levels (pathStep view source_nodes flow s) := by
  obtain ⟨levels',path,dfs_stack,found⟩ := s
  dsimp only at running
  subst running
  cases ahead with
  | inl reached => exact absurd reached Bool.false_ne_true
  | inr ahead =>
    obtain ⟨same,back,path',edges,dfs_stack',at_path,at_stack,x,member,down⟩ := ahead
    dsimp only at same at_path at_stack
    subst same at_path at_stack
    have frames := searching.frames rfl
    dsimp only at frames
    obtain ⟨⟨sub,no_source⟩,rest⟩ := forall₂_cons.mp frames
    cases edges with
    | nil => simp at member
    | cons target edges =>
      have inside := view.targets_lt (searching.valid back mem_cons_self).1 (sub mem_cons_self)
      have down_iff := @Lowered.down_iff _ _ searching.lowered target back no_source
      dsimp only at down_iff
      rw [pathStep]
      dsimp only
      split_ifs with step source
      · exact .inl rfl
      · have next := down_iff.mp step.2
        have given : levels' target ≠ INVALID_LEVEL := by
          have range := searching.lowered.range back
          dsimp only at range
          omega
        obtain ⟨y,down'⟩ := leads target inside given source
        exact .inr ⟨rfl,target,_,_,_,rfl,rfl,y,down'.1,down'⟩
      · refine .inr ⟨rfl,back,_,edges,_,rfl,rfl,x,?_,down⟩
        cases mem_cons.mp member with
        | inl here => exact absurd ⟨here ▸ down.2.1,down_iff.mpr (here ▸ down.2.2)⟩ step
        | inr later => exact later

/-- A path along which one more unit can be sent from a source to the sink. -/
structure Augmenting (view : BisectionGraphView) (source_nodes : List NodeID) (flow : FlowEdges) (sink : NodeID) (path : List NodeID) :
    Prop where
  source : ∃ u rest, path = u :: rest ∧ u ∈ source_nodes
  last : path.getLast? = some sink
  nodup : path.Nodup
  inside : ∀ x ∈ path, x < view.NumberOfNodes
  edges : path.IsChain fun a b => a ∈ view.targets b
  capacity : path.IsChain fun a b => b ∉ flow a

theorem path_total (lowered : Lowered source_nodes levels) (inside : sink < view.NumberOfNodes)
    (given : levels sink ≠ INVALID_LEVEL) (no_source : sink ∉ source_nodes) :
    ∃ fuel path levels', (∀ more ≥ fuel, GetAugmentingPath view source_nodes levels sink flow more = some (path,levels')) ∧
      Lowered source_nodes levels' ∧ (path = [] ∨ Augmenting view source_nodes flow sink path ∧ levels' sink ≠ INVALID_LEVEL) ∧
      (Leads view source_nodes flow levels → path ≠ []) := by
  have start : Searching view source_nodes flow sink ⟨levels,[sink],[view.targets sink],false⟩ :=
    ⟨lowered,isChain_singleton _,by simp [inside,given],.inr rfl,fun _ => .cons ⟨fun _ member => member,no_source⟩ .nil,by simp⟩
  have ahead : Leads view source_nodes flow levels → Ahead view flow levels ⟨levels,[sink],[view.targets sink],false⟩ := by
    intro leads
    obtain ⟨x,down⟩ := leads sink inside given no_source
    exact .inr ⟨rfl,sink,[],_,[],rfl,rfl,x,down.1,down⟩
  have cond : ∀ s : PathSearch, (!s.found && !s.dfs_stack.isEmpty) = true → s.found = false ∧ s.dfs_stack ≠ [] := by
    intro s more
    simpa using more
  obtain ⟨final,ran,⟨searching,ahead'⟩,stopped⟩ := @whileLoop_total _ (fun s : PathSearch => !s.found && !s.dfs_stack.isEmpty)
    (pathStep view source_nodes flow)
    (fun s => Searching view source_nodes flow sink s ∧ (Leads view source_nodes flow levels → Ahead view flow levels s)) (pathWork view)
    (fun s inv more => ⟨(searched inv.1 (cond s more).1 (cond s more).2).searching,
      fun leads => ahead_step leads inv.1 (cond s more).1 (inv.2 leads)⟩)
    (fun s inv more => (searched inv.1 (cond s more).1 (cond s more).2).less) _ _ ⟨start,ahead⟩ le_rfl
  refine ⟨pathWork view ⟨levels,[sink],[view.targets sink],false⟩,final.path,final.levels,fun more enough => ?_,searching.lowered,?_,
    fun leads => ?_⟩
  · rw [GetAugmentingPath,whileLoop_mono ran enough,Option.map_some]
  · cases reached : final.found with
    | true =>
      obtain ⟨u,rest,at_path,source⟩ := searching.source reached
      have chain := searching.chain
      have last := searching.last.resolve_left (at_path ▸ cons_ne_nil _ _)
      refine .inr ⟨⟨⟨u,rest,at_path,source⟩,last,nodup_of_down chain,fun x member => (searching.valid x member).1,
        chain.imp fun _ _ down => down.1,chain.imp fun _ _ down => down.2.1⟩,?_⟩
      exact (searching.valid sink (mem_of_getLast? last)).2
    | false =>
      have empty : final.dfs_stack = [] := by simpa [reached] using stopped
      have frames := searching.frames reached
      rw [empty] at frames
      exact .inl (forall₂_nil_left_iff.mp frames)
  · cases ahead' leads with
    | inl reached =>
      obtain ⟨u,rest,at_path,-⟩ := searching.source reached
      rw [at_path]
      exact cons_ne_nil _ _
    | inr before =>
      obtain ⟨-,back,path,-,-,at_path,-⟩ := before
      rw [at_path]
      exact cons_ne_nil _ _

end Osrm.DinicMaxFlow
