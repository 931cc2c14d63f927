import Osrm.Renumbering

/-!
`contractGraph`: rounds of contraction until only the core is left, with a
renumbering in between, and what holds of the graph after any number of them. The
priorities of the nodes and the weights of the loops at them only steer the
contraction; a round may start with any.
-/
namespace Osrm.ContractGraph
open Typedefs Walks Contractor NodeContraction ContractionRound Renumbering
open Contraction

/-- What `contractGraph` works on between two rounds. -/
structure State where
  graph : ContractorGraph
  new_to_old_node_id : Equiv.Perm NodeID
  remaining_nodes : List NodeID

/-- The numbering of `RenumberData`: the remaining nodes in the order of their list, then the others by id. -/
structure Reordering (s : State) where
  current_to_new_node_id : Equiv.Perm NodeID
  low : s.remaining_nodes.map current_to_new_node_id = List.range s.remaining_nodes.length
  high : ∀ u v, u ∉ s.remaining_nodes → v ∉ s.remaining_nodes → u < v → v < s.graph.number_of_nodes →
    current_to_new_node_id u < current_to_new_node_id v
  outside : ∀ u, s.graph.number_of_nodes ≤ u → current_to_new_node_id u = u

def RenumberData (s : State) (reordering : Reordering s) : State where
  graph := RenumberGraph reordering.current_to_new_node_id s.graph
  new_to_old_node_id := reordering.current_to_new_node_id.symm.trans s.new_to_old_node_id
  remaining_nodes := s.remaining_nodes.map reordering.current_to_new_node_id

def State.independent (s : State) (hash : NodeID → ℕ) (priorities : NodeID → ℚ) (node : NodeID) : Bool :=
  IsNodeIndependent hash priorities s.new_to_old_node_id s.graph node
def State.selected (s : State) (hash : NodeID → ℕ) (priorities : NodeID → ℚ) : List NodeID :=
  s.remaining_nodes.filter (s.independent hash priorities)

/-- A round, or a renumbering. -/
inductive Step (hash : NodeID → ℕ) (s : State) : State → Type
  | renumber (reordering : Reordering s) : Step hash s (RenumberData s reordering)
  | round (priorities : NodeID → ℚ) (node_weights : NodeID → EdgeWeight)
      (run : RoundRun s.graph node_weights (s.selected hash priorities)) :
      Step hash s ⟨run.result,s.new_to_old_node_id,
        s.remaining_nodes.filter fun node => !s.independent hash priorities node⟩

inductive Run (hash : NodeID → ℕ) : State → State → Type
  | stop (s : State) : Run hash s s
  | step {s s' s'' : State} (first : Step hash s s') (rest : Run hash s' s'') : Run hash s s''

def State.start (graph : ContractorGraph) (remaining_nodes : List NodeID) : State :=
  ⟨graph,Equiv.refl _,remaining_nodes⟩
/-- The graph that `contractGraph` leaves, with the ids it was given. -/
def State.result (s : State) : ContractorGraph := RenumberGraph s.new_to_old_node_id s.graph
def State.core (s : State) : List NodeID := s.remaining_nodes.map s.new_to_old_node_id

variable {hash : NodeID → ℕ} {s s' : State}

/-- No shortcut of a round leaves 32 bits. -/
def Step.Fits : Step hash s s' → Prop
  | .renumber _ => True
  | .round priorities _ _ => ∀ v ∈ s.selected hash priorities, NodeContraction.Fits s.graph v
/-- `ContractNode` makes no shortcut of this weight when it contracts `v`. The ends have the ids that were given. -/
def State.Drops (s : State) (v a b : NodeID) (w : EdgeWeight) : Prop :=
  ∃ node_weights, ¬ Offers (ContractNode s.graph v node_weights).2 true (s.new_to_old_node_id.symm a)
    (s.new_to_old_node_id.symm b) w

/-- Where no shortcut is made for edges that are a shortest way inside `P`, there is another one inside `P`. -/
def Step.Detours (P : NodeID → Prop) : Step hash s s' → Prop
  | .renumber _ => True
  | .round priorities _ _ => ∀ v ∈ s.selected hash priorities, ∀ a b w, P a → P b →
      Through s.result (s.new_to_old_node_id v) a b w → (∀ k, Walk (within P (forwardArcs s.result)) a b k → w ≤ k) →
      s.Drops v a b w → Aside (within P (forwardArcs s.result)) (s.new_to_old_node_id v) a b w

/-- Every step of the run is so. -/
def Run.All (p : ∀ {s s' : State}, Step hash s s' → Prop) {s s' : State} : Run hash s s' → Prop
  | .stop _ => True
  | .step first rest => p first ∧ rest.All p

private theorem Run.invariant (p : ∀ {s s' : State}, Step hash s s' → Prop) (Inv : State → Prop)
    (keeps : ∀ {s s' : State} (step : Step hash s s'), p step → Inv s → Inv s') {s s' : State} (run : Run hash s s')
    (all : run.All p) (start : Inv s) : Inv s' := by
  induction run with
  | stop => exact start
  | step first rest ih => exact ih all.2 (keeps first all.1 start)

private theorem Run.all_and {p q : ∀ {s s' : State}, Step hash s s' → Prop} {s s' : State} (run : Run hash s s')
    (one : run.All p) (two : run.All q) : run.All fun step => p step ∧ q step := by
  induction run with
  | stop => trivial
  | step first rest ih => exact ⟨⟨one.1,two.1⟩,ih one.2 two.2⟩

/-! ### The hierarchy that grows -/

/-- An edge at `u` that stands for two edges at a node that is contracted. -/
structure Shortcut (graph : ContractorGraph) (dead : NodeID → Prop) (u : NodeID) (e : DynamicEdge) : Prop where
  shortcut : e.data.shortcut = true
  middle : dead e.data.id
  forward : e.data.forward = true → Through graph e.data.id u e.target e.data.weight
  backward : e.data.backward = true → Through graph e.data.id e.target u e.data.weight

def upArcs (graph : ContractorGraph) (dead : NodeID → Prop) : Arcs NodeID :=
  fun u v w => dead u ∧ forwardArcs graph u v w
def downArcs (graph : ContractorGraph) (dead : NodeID → Prop) : Arcs NodeID :=
  fun u v w => dead u ∧ backwardArcs graph u v w

/-- What holds after any rounds from the nodes of `base` and the edges of `original`, seen from `P`. -/
structure Hierarchy (original : ContractorGraph) (base P : NodeID → Prop) (graph : ContractorGraph)
    (alive : NodeID → Prop) : Prop where
  nodes : graph.number_of_nodes = original.number_of_nodes
  based : ∀ u, alive u → base u
  consistent : Consistent graph alive
  inside : ∀ u, ∀ e ∈ graph.adjacent u, base u ∧ base e.target
  positive : ∀ u, ∀ e ∈ graph.adjacent u, 0 < e.data.weight
  edges : ∀ u, ∀ e ∈ graph.adjacent u, e ∈ original.adjacent u ∨ Shortcut graph (fun v => base v ∧ ¬ alive v) u e
  oneWay : ∀ u v, base u ∧ ¬ alive u → base v ∧ ¬ alive v → u ≠ v → Adjacent graph u v → ¬ Adjacent graph v u
  upDown : UpDown (within P (forwardArcs original)) (within P (upArcs graph fun v => base v ∧ ¬ alive v))
    (within P (downArcs graph fun v => base v ∧ ¬ alive v)) (within P (within alive (forwardArcs graph)))

variable {original graph result : ContractorGraph} {base P alive : NodeID → Prop} {selected : List NodeID}
  {pool : List ContractorEdge} {u v : NodeID} {w : ℤ}

private theorem Hierarchy.start (consistent : Consistent original base)
    (inside : ∀ u, ∀ e ∈ original.adjacent u, base u ∧ base e.target) : Hierarchy original base P original base := by
  have all : within base (forwardArcs original) = forwardArcs original := by
    funext u v w
    refine propext ⟨fun arc => arc.2.2,fun arc => ?_⟩
    obtain ⟨e,member,rfl,set⟩ := arc
    exact ⟨(inside u e member).1,(inside u e member).2,e,member,rfl,set⟩
  refine ⟨rfl,fun _ => id,consistent,inside,?_,fun u e member => .inl member,?_,?_⟩
  · exact fun u e member => consistent.positive u (inside u e member).1 e member
  · exact fun u v gone => absurd gone.1 gone.2
  · rw [all]
    exact .start _ _ _

private theorem through_frozen {m : NodeID} (same : result.adjacent m = graph.adjacent m) {a b : NodeID}
    (through : Through graph m a b w) : Through result m a b w := by
  simpa only [Through,forwardArcs,backwardArcs,same] using through

private theorem Hierarchy.round (hierarchy : Hierarchy original base P graph alive)
    (contracted : Contracted graph result alive selected pool) (independent : Independent graph alive selected)
    (answered : ContractionRound.Answered graph P selected pool) :
    Hierarchy original base P result (fun u => alive u ∧ u ∉ selected) := by
  have consistent := hierarchy.consistent
  have next := contracted.consistent consistent independent
  have frozen : ∀ u, ¬ (alive u ∧ u ∉ selected) → result.adjacent u = graph.adjacent u := by
    intro u gone
    exact contracted.frozen u (by tauto)
  have buried : ∀ {u}, base u ∧ ¬ alive u → base u ∧ ¬ (alive u ∧ u ∉ selected) := fun gone => ⟨gone.1,fun bad => gone.2 bad.1⟩
  have taken : ∀ {v}, v ∈ selected → base v ∧ ¬ (alive v ∧ v ∉ selected) :=
    fun member => ⟨hierarchy.based _ (independent.alive _ member),fun bad => bad.2 member⟩
  have arcs : ∀ {u v w}, ¬ (alive u ∧ u ∉ selected) → (forwardArcs result u v w ↔ forwardArcs graph u v w) ∧
      (backwardArcs result u v w ↔ backwardArcs graph u v w) := by
    intro u v w gone
    simp only [forwardArcs,backwardArcs,frozen u gone,and_self]
  refine ⟨contracted.nodes.trans hierarchy.nodes,fun u living => hierarchy.based u living.1,next,?_,?_,?_,?_,?_⟩
  · intro u e member
    by_cases living : alive u ∧ u ∉ selected
    · exact ⟨hierarchy.based u living.1,hierarchy.based _ (next.closed u living e member).1⟩
    · exact hierarchy.inside u e (frozen u living ▸ member)
  · intro u e member
    by_cases living : alive u ∧ u ∉ selected
    · exact next.positive u living e member
    · exact hierarchy.positive u e (frozen u living ▸ member)
  · have keep : ∀ u, ∀ e ∈ graph.adjacent u, e ∈ original.adjacent u ∨
        Shortcut result (fun v => base v ∧ ¬ (alive v ∧ v ∉ selected)) u e := by
      intro u e member
      refine (hierarchy.edges u e member).imp_right fun made => ?_
      have still := frozen e.data.id (buried made.middle).2
      exact ⟨made.shortcut,buried made.middle,fun set => through_frozen still (made.forward set),
        fun set => through_frozen still (made.backward set)⟩
    intro u e member
    by_cases living : alive u ∧ u ∉ selected
    · rcases contracted.new_or_old u living.1 living.2 e member with ⟨old,_⟩ | ⟨edge,new,rfl,rfl⟩
      · exact keep u e old
      · obtain ⟨v,chosen,edges,emitted,made,_⟩ := contracted.shortcuts.made edge new
        obtain ⟨shortcut,rfl⟩ := emitted.shortcut edge made
        have still := frozen edge.data.id (taken chosen).2
        refine .inr ⟨shortcut,taken chosen,fun set => ?_,fun set => ?_⟩
        · exact through_frozen still (emitted.sound ⟨edge,made,rfl,rfl,rfl,set⟩)
        · exact through_frozen still (emitted.sound (emitted.mirrored.mp ⟨edge,made,rfl,rfl,rfl,set⟩))
    · exact keep u e (frozen u living ▸ member)
  · -- an edge leads from an older node to a newer one, never back
    intro u v goneU goneV differ there back
    unfold Adjacent at there back
    rw [frozen u goneU.2] at there
    rw [frozen v goneV.2] at back
    by_cases oldU : alive u
    · obtain ⟨e,member,rfl⟩ := there
      have oldV := consistent.closed u oldU e member
      have takenU : u ∈ selected := by by_contra free; exact goneU.2 ⟨oldU,free⟩
      have takenV : e.target ∈ selected := by by_contra free; exact goneV.2 ⟨oldV,free⟩
      exact differ (independent.apart u takenU e.target takenV (.inl ⟨e,member,rfl⟩))
    · by_cases oldV : alive v
      · obtain ⟨e,member,rfl⟩ := back
        exact oldU (consistent.closed v oldV e member)
      · exact hierarchy.oneWay u v ⟨goneU.1,oldU⟩ ⟨goneV.1,oldV⟩ differ there back
  · suffices stepped : UpDown (within P (forwardArcs original))
        (within P (upArcs result fun v => base v ∧ ¬ (alive v ∧ v ∉ selected)))
        (within P (downArcs result fun v => base v ∧ ¬ (alive v ∧ v ∉ selected)))
        (within (· ∉ selected) (within P (within alive (forwardArcs result)))) by
      intro s t n walk
      obtain ⟨x,y,a,b,m,up,down,core,total⟩ := stepped s t n walk
      refine ⟨x,y,a,b,m,up,down,core.mono ?_,total⟩
      rintro u v w ⟨freeU,freeV,insideU,insideV,livingU,livingV,arc⟩
      exact ⟨insideU,insideV,⟨livingU,freeU⟩,⟨livingV,freeV⟩,arc⟩
    refine hierarchy.upDown.step (contracted.round consistent independent answered) ?_ ?_ ?_ ?_
    · rintro u v w ⟨insideU,insideV,gone,arc⟩
      exact ⟨insideU,insideV,buried gone,(arcs (buried gone).2).1.mpr arc⟩
    · rintro u v w ⟨insideU,insideV,gone,arc⟩
      exact ⟨insideU,insideV,buried gone,(arcs (buried gone).2).2.mpr arc⟩
    · rintro v u w chosen differ ⟨insideV,insideU,_,_,arc⟩
      exact ⟨w,le_rfl,insideV,insideU,taken chosen,(arcs (taken chosen).2).1.mpr arc⟩
    · rintro v u w chosen differ ⟨insideU,insideV,livingU,_,arc⟩
      obtain ⟨w',wLe,back⟩ := consistent.forward u v w livingU arc
      exact ⟨w',wLe,insideV,insideU,taken chosen,(arcs (taken chosen).2).2.mpr back⟩

theorem Hierarchy.sound (hierarchy : Hierarchy original base P graph alive) (consistent : Consistent original base)
    (inP : ∀ v, base v → ¬ alive v → P v) (insideU : P u) (insideV : P v) (arc : usableArcs graph u v w) :
    ∃ m ≤ w, Walk (within P (forwardArcs original)) u v m := by
  have positive : ∀ {u v w}, usableArcs graph u v w → 0 < w := by
    rintro u v w (⟨e,member,_,_,rfl⟩ | ⟨e,member,_,_,rfl⟩)
    · exact hierarchy.positive u e member
    · exact hierarchy.positive v e member
  suffices all : ∀ w, 0 ≤ w → ∀ u v, P u → P v → usableArcs graph u v w →
      ∃ m ≤ w, Walk (within P (forwardArcs original)) u v m from
    all w (positive arc).le u v insideU insideV arc
  refine weight_induction fun w _ ih u v insideU insideV arc => ?_
  have split : ∀ m, base m ∧ ¬ alive m → Through graph m u v w →
      ∃ m ≤ w, Walk (within P (forwardArcs original)) u v m := by
    rintro m gone ⟨a,b,first,second,_,_,rfl⟩
    have aPos := positive (.inr first)
    have bPos := positive (.inl second)
    have insideM := inP m gone.1 gone.2
    obtain ⟨k,kLe,one⟩ := ih a aPos.le (by omega) u m insideU insideM (.inr first)
    obtain ⟨l,lLe,two⟩ := ih b bPos.le (by omega) m v insideM insideV (.inl second)
    exact ⟨k + l,by omega,one.append two⟩
  rcases arc with ⟨e,member,rfl,forward,rfl⟩ | ⟨e,member,rfl,backward,rfl⟩
  · rcases hierarchy.edges u e member with old | made
    · exact ⟨_,le_rfl,.single ⟨insideU,insideV,e,old,rfl,forward,rfl⟩⟩
    · exact split e.data.id made.middle (made.forward forward)
  · rcases hierarchy.edges v e member with old | made
    · obtain ⟨w',wLe,arc⟩ := consistent.backward e.target v _ (hierarchy.inside v e member).1
        ⟨e,old,rfl,backward,rfl⟩
      exact ⟨w',wLe,.single ⟨insideU,insideV,arc⟩⟩
    · exact split e.data.id made.middle (made.backward backward)

structure Valid (original : ContractorGraph) (contractable : List NodeID) (base P : NodeID → Prop) (s : State) : Prop where
  known : ∀ u ∈ s.core, u ∈ contractable
  hierarchy : Hierarchy original base P s.result (fun u => base u ∧ (u ∈ contractable → u ∈ s.core))

variable {contractable : List NodeID}

private theorem valid_renumber (reordering : Reordering s) (valid : Valid original contractable base P s) :
    Valid original contractable base P (RenumberData s reordering) := by
  have whole : reordering.current_to_new_node_id.trans
      (reordering.current_to_new_node_id.symm.trans s.new_to_old_node_id) = s.new_to_old_node_id := by
    ext u
    simp
  have result : (RenumberData s reordering).result = s.result := by
    rw [State.result,RenumberData,renumberGraph_trans,whole,State.result]
  have core : (RenumberData s reordering).core = s.core := by
    simp [State.core,RenumberData,Function.comp_def]
  exact ⟨by rw [core]; exact valid.known,by rw [result,core]; exact valid.hierarchy⟩

private theorem valid_round (based : ∀ u ∈ contractable, base u) {priorities : NodeID → ℚ}
    {node_weights : NodeID → EdgeWeight} (run : RoundRun s.graph node_weights (s.selected hash priorities))
    (fits : ∀ v ∈ s.selected hash priorities, NodeContraction.Fits s.graph v)
    (answers : Pool s.result ((s.selected hash priorities).map s.new_to_old_node_id)
        ((run.insertions.map Prod.snd).map (renumberInsertion s.new_to_old_node_id)) →
      Answered s.result P ((s.selected hash priorities).map s.new_to_old_node_id)
        ((run.insertions.map Prod.snd).map (renumberInsertion s.new_to_old_node_id)))
    (valid : Valid original contractable base P s) :
    Valid original contractable base P ⟨run.result,s.new_to_old_node_id,
      s.remaining_nodes.filter fun node => !s.independent hash priorities node⟩ := by
  have core : ∀ u, u ∈ s.remaining_nodes → s.new_to_old_node_id u ∈ s.core := fun u member => List.mem_map_of_mem member
  have consistent := consistent_of_renumber valid.hierarchy.consistent
  have independent : Independent s.graph _ (s.selected hash priorities) :=
    consistent.independent s.new_to_old_node_id.injective fun v member =>
      ⟨based _ (valid.known _ (core v member)),fun _ => core v member⟩
  have contracted := @contracted_renumber s.new_to_old_node_id _ _ _ _ _ (run.contracted consistent independent fits)
  have apart := @independent_renumber s.new_to_old_node_id _ _ _ independent
  simp only [Equiv.apply_symm_apply] at contracted apart
  have next := valid.hierarchy.round contracted apart (answers contracted.shortcuts)
  have left : ∀ u, u ∈ (s.remaining_nodes.filter fun node => !s.independent hash priorities node).map
      s.new_to_old_node_id ↔ u ∈ s.core ∧ u ∉ (s.selected hash priorities).map s.new_to_old_node_id := by
    intro u
    obtain ⟨u,rfl⟩ := s.new_to_old_node_id.surjective u
    simp [State.core,State.selected]
    tauto
  have same : (fun u => (base u ∧ (u ∈ contractable → u ∈ s.core)) ∧
      u ∉ (s.selected hash priorities).map s.new_to_old_node_id) = fun u => base u ∧ (u ∈ contractable →
        u ∈ (s.remaining_nodes.filter fun node => !s.independent hash priorities node).map s.new_to_old_node_id) := by
    funext u
    have inside : u ∈ (s.selected hash priorities).map s.new_to_old_node_id → u ∈ contractable := by
      intro chosen
      obtain ⟨v,member,rfl⟩ := List.mem_map.mp chosen
      exact valid.known _ (core v (List.mem_filter.mp member).1)
    rw [left u]
    refine propext ⟨?_,?_⟩
    · rintro ⟨⟨inBase,waits⟩,free⟩
      exact ⟨inBase,fun member => ⟨waits member,free⟩⟩
    · rintro ⟨inBase,waits⟩
      exact ⟨⟨inBase,fun member => (waits member).1⟩,fun chosen => (waits (inside chosen)).2 chosen⟩
  rw [same] at next
  exact ⟨fun u member => valid.known u ((left u).mp member).1,next⟩

private theorem detours_answer {priorities : NodeID → ℚ} {node_weights : NodeID → EdgeWeight}
    (run : RoundRun s.graph node_weights (s.selected hash priorities))
    (fits : ∀ v ∈ s.selected hash priorities, NodeContraction.Fits s.graph v)
    (detours : (Step.round priorities node_weights run).Detours P) :
    Answered s.result P ((s.selected hash priorities).map s.new_to_old_node_id)
      ((run.insertions.map Prod.snd).map (renumberInsertion s.new_to_old_node_id)) := by
  intro v taken a b w insideA insideB _ through best
  obtain ⟨v,member,rfl⟩ := List.mem_map.mp taken
  obtain ⟨weights,sub⟩ := run.contracts fits member
  by_cases offers : Offers (ContractNode s.graph v weights).2 true (s.new_to_old_node_id.symm a)
      (s.new_to_old_node_id.symm b) w
  · refine .inl (Offers.mono (List.map_subset _ sub) ?_)
    simpa using (@offers_renumber s.new_to_old_node_id _ _ _ _ _).mpr offers
  · exact .inr (detours v member a b w insideA insideB through best ⟨weights,offers⟩)

private theorem valid_start (consistent : Consistent original base)
    (inside : ∀ u, ∀ e ∈ original.adjacent u, base u ∧ base e.target) :
    Valid original contractable base P (.start original contractable) := by
  have start : (State.start original contractable).result = original := renumberGraph_refl original
  have core : (State.start original contractable).core = contractable := by simp [State.core,State.start]
  refine ⟨by rw [core]; exact fun _ => id,?_⟩
  rw [start,core]
  simpa using Hierarchy.start consistent inside

theorem Run.valid_within (consistent : Consistent original base)
    (inside : ∀ u, ∀ e ∈ original.adjacent u, base u ∧ base e.target) (based : ∀ u ∈ contractable, base u)
    (run : Run hash (.start original contractable) s) (fits : run.All Step.Fits) (detours : run.All (Step.Detours P)) :
    Valid original contractable base P s := by
  refine run.invariant (fun step => step.Fits ∧ step.Detours P) _ ?_ (run.all_and fits detours) ?_
  · intro s s' step holds valid
    cases step with
    | renumber reordering => exact valid_renumber reordering valid
    | round priorities node_weights round =>
      exact valid_round based round holds.1 (fun _ => detours_answer round holds.1 holds.2) valid
  · exact valid_start consistent inside

theorem Run.valid (consistent : Consistent original base)
    (inside : ∀ u, ∀ e ∈ original.adjacent u, base u ∧ base e.target) (based : ∀ u ∈ contractable, base u)
    (run : Run hash (.start original contractable) s) (fits : run.All Step.Fits) :
    Valid original contractable base (fun _ => True) s := by
  refine run.invariant Step.Fits _ ?_ fits (valid_start consistent inside)
  intro s s' step holds valid
  cases step with
  | renumber reordering => exact valid_renumber reordering valid
  | round priorities node_weights round => exact valid_round based round holds Pool.answered valid

end Osrm.ContractGraph
