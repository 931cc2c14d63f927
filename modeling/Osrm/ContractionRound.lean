import Osrm.NodeContraction
import Osrm.Contraction

/-!
One round of the loop of `contractGraph`: the independent nodes are chosen, each is contracted against the old graph,
the edges to them are deleted, and the shortcuts that the threads collected are inserted.
-/
namespace Osrm.ContractionRound
open List
open Typedefs Walks Contractor NodeContraction

/-- `std::numeric_limits<float>::epsilon()`. -/
def epsilon : ℚ := 1 / 2 ^ 23
def Bias (fast_hash : NodeID → ℕ) (a b : NodeID) : Bool :=
  if fast_hash a ≠ fast_hash b then fast_hash a < fast_hash b else a < b

/-- The two reasons for which a node is not taken while `target` is close to it. -/
def yieldsTo (hash : NodeID → ℕ) (priorities : NodeID → ℚ) (new_to_old_node_id : NodeID → NodeID)
    (node target : NodeID) : Bool :=
  priorities node > priorities target ||
    (|priorities node - priorities target| < epsilon && Bias hash (new_to_old_node_id node) (new_to_old_node_id target))

def neighbours (graph : ContractorGraph) (node : NodeID) : List NodeID :=
  ((((graph.adjacent node).map (·.target)).filter (· ≠ node)).insertionSort (· ≤ ·)).dedup

def IsNodeIndependent (hash : NodeID → ℕ) (priorities : NodeID → ℚ) (new_to_old_node_id : NodeID → NodeID)
    (graph : ContractorGraph) (node : NodeID) : Bool :=
  if (graph.adjacent node).any fun e => e.target ≠ node && yieldsTo hash priorities new_to_old_node_id node e.target then
    false
  else
    (neighbours graph node).all fun u => (graph.adjacent u).all fun e =>
      e.target = node || !yieldsTo hash priorities new_to_old_node_id node e.target

def DeleteIncomingEdges (graph : ContractorGraph) (node : NodeID) : ContractorGraph :=
  (neighbours graph node).foldl (fun graph u => graph.DeleteEdgesTo u node) graph

/-- A thread contracts a node: the loop weights and the lists of the threads. -/
def contractTask (graph : ContractorGraph) (s : (NodeID → EdgeWeight) × (ℕ → List ContractorEdge)) (task : ℕ × NodeID) :
    (NodeID → EdgeWeight) × (ℕ → List ContractorEdge) :=
  let contracted := ContractNode graph task.2 s.1
  (contracted.1,Function.update s.2 task.1 (s.2 task.1 ++ contracted.2))

def edgeBefore (a b : ContractorEdge) : Bool := a.source < b.source || (a.source == b.source && a.target < b.target)

/-- A round that contracts `selected`, with everything the source leaves open. -/
structure RoundRun (graph : ContractorGraph) (node_weights : NodeID → EdgeWeight) (selected : List NodeID) where
  /-- The threads and the nodes they contract, in the order in which this happens. -/
  tasks : List (ℕ × NodeID)
  tasks_selected : (tasks.map Prod.snd).Perm selected
  /-- The order in which the edges to the contracted nodes are deleted. -/
  deletions : List NodeID
  deletions_selected : deletions.Perm selected
  /-- The list of each thread once it is sorted. -/
  sorted : ℕ → List ContractorEdge
  sorted_perm : ∀ thread, (sorted thread).Perm ((tasks.foldl (contractTask graph) (node_weights,fun _ => [])).2 thread)
  sorted_order : ∀ thread, (sorted thread).Pairwise fun a b => edgeBefore b a = false
  /-- The order in which the lists of the threads are read. -/
  threads : List ℕ
  threads_distinct : threads.Nodup
  threads_all : ∀ task ∈ tasks, task.1 ∈ threads
  /-- The new edges, each with the layout that it meets. -/
  insertions : List (Bool × ContractorEdge)
  insertions_edges : insertions.map Prod.snd = threads.flatMap sorted

variable {graph : ContractorGraph} {node_weights : NodeID → EdgeWeight} {selected : List NodeID}

def RoundRun.result (run : RoundRun graph node_weights selected) : ContractorGraph :=
  (run.deletions.foldl DeleteIncomingEdges graph).insertShortcuts run.insertions

theorem mem_neighbours {node u : NodeID} :
    u ∈ neighbours graph node ↔ u ≠ node ∧ ∃ e ∈ graph.adjacent node, e.target = u := by
  simp [neighbours]
  tauto

/-- Some edge stored at `u` has its other end at `v`. -/
def Adjacent (graph : ContractorGraph) (u v : NodeID) : Prop := ∃ e ∈ graph.adjacent u, e.target = v
/-- At most two edges lead from `u` to `v`. -/
def Near (graph : ContractorGraph) (u v : NodeID) : Prop :=
  Adjacent graph u v ∨ ∃ x, x ≠ u ∧ Adjacent graph u x ∧ Adjacent graph x v

variable {hash : NodeID → ℕ} {priorities : NodeID → ℚ} {new_to_old_node_id : NodeID → NodeID} {u v x y : NodeID}

theorem bias_total (hash : NodeID → ℕ) (differ : u ≠ v) : Bias hash u v = true ∨ Bias hash v u = true := by
  unfold Bias
  by_cases same : hash u = hash v
  · simp [same,lt_or_gt_of_ne differ]
  · simp [same,Ne.symm same,lt_or_gt_of_ne same]

theorem independent_not_yields (taken : IsNodeIndependent hash priorities new_to_old_node_id graph u = true)
    (near : Near graph u v) (differ : v ≠ u) : yieldsTo hash priorities new_to_old_node_id u v = false := by
  unfold IsNodeIndependent at taken
  split at taken
  · simp at taken
  · rename_i first
    rcases near with ⟨e,member,rfl⟩ | ⟨x,other,⟨e,member,rfl⟩,e',member',rfl⟩
    · by_contra yields
      exact first (any_eq_true.mpr ⟨e,member,by simp [differ,yields]⟩)
    · have second := all_eq_true.mp taken e.target (mem_neighbours.mpr ⟨other,e,member,rfl⟩)
      have third := all_eq_true.mp second e' member'
      simpa [differ] using third

private theorem yields_total (hash : NodeID → ℕ) (priorities : NodeID → ℚ)
    (injective : Function.Injective new_to_old_node_id) (differ : u ≠ v) :
    yieldsTo hash priorities new_to_old_node_id u v = true ∨ yieldsTo hash priorities new_to_old_node_id v u = true := by
  unfold yieldsTo
  rcases lt_trichotomy (priorities u) (priorities v) with less | same | more
  · simp [less]
  · rcases bias_total hash (injective.ne differ) with bias | bias
    · left
      simp [same,bias,epsilon]
    · right
      simp [same,bias,epsilon]
  · simp [more]

private theorem independent_apart (injective : Function.Injective new_to_old_node_id)
    (one : IsNodeIndependent hash priorities new_to_old_node_id graph u = true)
    (two : IsNodeIndependent hash priorities new_to_old_node_id graph v = true)
    (there : Near graph u v) (back : Near graph v u) : u = v := by
  by_contra differ
  have first := independent_not_yields one there (Ne.symm differ)
  have second := independent_not_yields two back differ
  rcases yields_total hash priorities injective differ with yields | yields
  · simp [first] at yields
  · simp [second] at yields

/-- What the rounds keep up: edges of remaining nodes lead to such nodes and have a counterpart no heavier at the other end. -/
structure Consistent (graph : ContractorGraph) (alive : NodeID → Prop) : Prop where
  closed : ∀ u, alive u → ∀ e ∈ graph.adjacent u, alive e.target
  positive : ∀ u, alive u → ∀ e ∈ graph.adjacent u, 0 < e.data.weight
  symmetric : ∀ u v, alive u → Adjacent graph u v → Adjacent graph v u
  forward : ∀ u v w, alive u → forwardArcs graph u v w → ∃ w' ≤ w, backwardArcs graph v u w'
  backward : ∀ u v w, alive v → backwardArcs graph v u w → ∃ w' ≤ w, forwardArcs graph u v w'

structure Independent (graph : ContractorGraph) (alive : NodeID → Prop) (selected : List NodeID) : Prop where
  alive : ∀ v ∈ selected, alive v
  apart : ∀ u ∈ selected, ∀ v ∈ selected, Near graph u v → u = v

variable {alive : NodeID → Prop} {remaining : List NodeID}

private theorem Consistent.near_symm (consistent : Consistent graph alive) (living : alive u) (near : Near graph u v)
    (differ : u ≠ v) : Near graph v u := by
  rcases near with direct | ⟨x,_,first,second⟩
  · exact .inl (consistent.symmetric u v living direct)
  · obtain ⟨e,member,rfl⟩ := first
    have middle := consistent.closed u living e member
    have back := consistent.symmetric e.target v middle second
    by_cases same : e.target = v
    · subst same
      exact .inl (consistent.symmetric u e.target living ⟨e,member,rfl⟩)
    · exact .inr ⟨e.target,same,back,consistent.symmetric u e.target living ⟨e,member,rfl⟩⟩

theorem Consistent.independent (consistent : Consistent graph alive)
    (injective : Function.Injective new_to_old_node_id) (living : ∀ v ∈ remaining, alive v) :
    Independent graph alive (remaining.filter (IsNodeIndependent hash priorities new_to_old_node_id graph)) := by
  refine ⟨fun v member => living v (mem_filter.mp member).1,?_⟩
  intro u memberU v memberV near
  obtain ⟨inU,takenU⟩ := mem_filter.mp memberU
  obtain ⟨inV,takenV⟩ := mem_filter.mp memberV
  by_contra differ
  exact differ (independent_apart injective takenU takenV near (consistent.near_symm (living u inU) near differ))

variable {e : DynamicEdge}

private theorem deleteEdgesTo_mem :
    e ∈ (graph.DeleteEdgesTo x v).adjacent u ↔ e ∈ graph.adjacent u ∧ (u = x → e.target ≠ v) := by
  by_cases same : u = x
  · subst same
    simp [ContractorGraph.DeleteEdgesTo,mem_deleteTo]
  · simp [ContractorGraph.DeleteEdgesTo,setEdges_other graph same,same]

private theorem foldl_deleteEdgesTo_mem (sources : List NodeID) :
    e ∈ (sources.foldl (fun graph u => graph.DeleteEdgesTo u v) graph).adjacent u ↔
      e ∈ graph.adjacent u ∧ (u ∈ sources → e.target ≠ v) := by
  induction sources generalizing graph with
  | nil => simp
  | cons x rest ih =>
    rw [foldl_cons,ih,deleteEdgesTo_mem,mem_cons]
    tauto

private theorem foldl_deleteEdgesTo_other (sources : List NodeID) (free : u ∉ sources) :
    (sources.foldl (fun graph u => graph.DeleteEdgesTo u v) graph).adjacent u = graph.adjacent u := by
  induction sources generalizing graph with
  | nil => rfl
  | cons x rest ih =>
    rw [mem_cons,not_or] at free
    rw [foldl_cons,ih free.2]
    exact setEdges_other graph free.1 _

private theorem foldl_deleteEdgesTo_nodes (sources : List NodeID) :
    (sources.foldl (fun graph u => graph.DeleteEdgesTo u v) graph).number_of_nodes = graph.number_of_nodes := by
  induction sources generalizing graph with
  | nil => rfl
  | cons x rest ih => rw [foldl_cons,ih]; rfl

/-- What deleting the edges to nodes that are not neighbours of each other does. -/
private structure Deleted (graph after : ContractorGraph) (removed : List NodeID) : Prop where
  nodes : after.number_of_nodes = graph.number_of_nodes
  edges : ∀ u e, e ∈ after.adjacent u ↔
    e ∈ graph.adjacent u ∧ ∀ v ∈ removed, u ∈ neighbours graph v → e.target ≠ v
  untouched : ∀ u, (∀ v ∈ removed, u ∉ neighbours graph v) → after.adjacent u = graph.adjacent u

private theorem deleteIncomingEdges_deleted (removed : List NodeID)
    (strangers : ∀ u ∈ removed, ∀ v ∈ removed, u ∉ neighbours graph v) :
    Deleted graph (removed.foldl DeleteIncomingEdges graph) removed := by
  induction removed generalizing graph with
  | nil => exact ⟨rfl,by simp,fun u _ => rfl⟩
  | cons v rest ih =>
    have first : ∀ u, u ∉ neighbours graph v → (DeleteIncomingEdges graph v).adjacent u = graph.adjacent u :=
      fun u free => foldl_deleteEdgesTo_other _ free
    -- the nodes that are still to be deleted keep their edges, hence their neighbours
    have same : ∀ x ∈ rest, neighbours (DeleteIncomingEdges graph v) x = neighbours graph x := by
      intro x member
      unfold neighbours
      rw [first x (strangers x (mem_cons_of_mem _ member) v (by simp))]
    have deeper := @ih (DeleteIncomingEdges graph v) (fun x member y member' => by
      rw [same y member']
      exact strangers x (mem_cons_of_mem _ member) y (mem_cons_of_mem _ member'))
    refine ⟨deeper.nodes.trans (foldl_deleteEdgesTo_nodes _),?_,?_⟩
    · intro u e
      have middle : e ∈ (DeleteIncomingEdges graph v).adjacent u ↔
          e ∈ graph.adjacent u ∧ (u ∈ neighbours graph v → e.target ≠ v) := foldl_deleteEdgesTo_mem _
      have later : (∀ x ∈ rest, u ∈ neighbours (DeleteIncomingEdges graph v) x → e.target ≠ x) ↔
          ∀ x ∈ rest, u ∈ neighbours graph x → e.target ≠ x :=
        forall₂_congr fun x member => by rw [same x member]
      rw [foldl_cons,deeper.edges,middle,later,forall_mem_cons,and_assoc]
    · intro u free
      rw [foldl_cons,deeper.untouched u ?_,first u (free v (by simp))]
      intro x member
      rw [same x member]
      exact free x (mem_cons_of_mem _ member)

/-- The edges that a round inserts: for each contracted node what it emits. -/
structure Pool (graph : ContractorGraph) (selected : List NodeID) (pool : List ContractorEdge) : Prop where
  made : ∀ e ∈ pool, ∃ v ∈ selected, ∃ edges, Emitted graph v edges ∧ e ∈ edges ∧ edges ⊆ pool
  all : ∀ v ∈ selected, ∃ edges, Emitted graph v edges ∧ edges ⊆ pool

private structure Collecting (graph : ContractorGraph) (tasks : List (ℕ × NodeID)) (lists : ℕ → List ContractorEdge) :
    Prop where
  known : ∀ thread, ∀ e ∈ lists thread, ∃ task ∈ tasks, ∃ edges, Emitted graph task.2 edges ∧ e ∈ edges ∧
    edges ⊆ lists task.1
  all : ∀ task ∈ tasks, ∃ weights, (ContractNode graph task.2 weights).2 ⊆ lists task.1

private theorem contractTask_collecting {done : List (ℕ × NodeID)} {task : ℕ × NodeID}
    {s : (NodeID → EdgeWeight) × (ℕ → List ContractorEdge)} (fits : Fits graph task.2)
    (before : Collecting graph done s.2) : Collecting graph (done ++ [task]) (contractTask graph s task).2 := by
  have emitted := contractNode_emitted fits s.1
  have grows : ∀ thread, s.2 thread ⊆ (contractTask graph s task).2 thread := by
    intro thread e member
    by_cases same : thread = task.1
    · subst same
      simp [contractTask,member]
    · simpa [contractTask,same] using member
  have fresh : (ContractNode graph task.2 s.1).2 ⊆ (contractTask graph s task).2 task.1 := by
    intro e member
    simp [contractTask,member]
  have split : ∀ thread, ∀ e ∈ (contractTask graph s task).2 thread,
      e ∈ s.2 thread ∨ thread = task.1 ∧ e ∈ (ContractNode graph task.2 s.1).2 := by
    intro thread e member
    by_cases same : thread = task.1
    · subst same
      simpa [contractTask] using member
    · exact .inl (by simpa [contractTask,same] using member)
  refine ⟨?_,?_⟩
  · intro thread e member
    rcases split thread e member with old | ⟨_,new⟩
    · obtain ⟨task',inside,edges,valid,made,sub⟩ := before.known thread e old
      exact ⟨task',by simp [inside],edges,valid,made,Subset.trans sub (grows _)⟩
    · exact ⟨task,by simp,_,emitted,new,fresh⟩
  · intro task' inside
    rcases mem_append.mp inside with old | new
    · obtain ⟨weights,sub⟩ := before.all task' old
      exact ⟨weights,Subset.trans sub (grows _)⟩
    · cases mem_singleton.mp new
      exact ⟨s.1,fresh⟩

private theorem contractTasks_collecting (tasks done : List (ℕ × NodeID))
    (s : (NodeID → EdgeWeight) × (ℕ → List ContractorEdge)) (fits : ∀ task ∈ tasks, Fits graph task.2)
    (before : Collecting graph done s.2) : Collecting graph (done ++ tasks) (tasks.foldl (contractTask graph) s).2 := by
  induction tasks generalizing done s with
  | nil => simpa using before
  | cons task rest ih =>
    have next := contractTask_collecting (fits task (by simp)) before
    simpa using ih (done ++ [task]) _ (fun task' inside => fits task' (mem_cons_of_mem _ inside)) next

private theorem RoundRun.collecting (run : RoundRun graph node_weights selected) (fits : ∀ v ∈ selected, Fits graph v) :
    Collecting graph run.tasks (run.tasks.foldl (contractTask graph) (node_weights,fun _ => [])).2 := by
  have chosen : ∀ task ∈ run.tasks, task.2 ∈ selected :=
    fun task inside => run.tasks_selected.mem_iff.mp (mem_map_of_mem inside)
  simpa using contractTasks_collecting run.tasks [] (node_weights,fun _ => [])
    (fun task inside => fits task.2 (chosen task inside)) ⟨by simp,by simp⟩

private theorem RoundRun.inserts (run : RoundRun graph node_weights selected) {task : ℕ × NodeID}
    (known : task ∈ run.tasks) : (run.tasks.foldl (contractTask graph) (node_weights,fun _ => [])).2 task.1 ⊆
      run.insertions.map Prod.snd := by
  intro e listed
  rw [run.insertions_edges,mem_flatMap]
  exact ⟨task.1,run.threads_all task known,(run.sorted_perm task.1).mem_iff.mpr listed⟩

/-- Each selected node is contracted, and all that `ContractNode` emits for it is inserted. -/
theorem RoundRun.contracts (run : RoundRun graph node_weights selected) (fits : ∀ v ∈ selected, Fits graph v)
    (member : v ∈ selected) : ∃ weights, (ContractNode graph v weights).2 ⊆ run.insertions.map Prod.snd := by
  obtain ⟨task,known,rfl⟩ := mem_map.mp (run.tasks_selected.mem_iff.mpr member)
  obtain ⟨weights,sub⟩ := (run.collecting fits).all task known
  exact ⟨weights,Subset.trans sub (run.inserts known)⟩

private theorem RoundRun.pool (run : RoundRun graph node_weights selected) (fits : ∀ v ∈ selected, Fits graph v) :
    Pool graph selected (run.insertions.map Prod.snd) := by
  refine ⟨?_,?_⟩
  · intro e member
    rw [run.insertions_edges,mem_flatMap] at member
    obtain ⟨thread,_,listed⟩ := member
    obtain ⟨task,known,edges,valid,made,sub⟩ :=
      (run.collecting fits).known thread e ((run.sorted_perm thread).mem_iff.mp listed)
    exact ⟨task.2,run.tasks_selected.mem_iff.mp (mem_map_of_mem known),edges,valid,made,
      Subset.trans sub (run.inserts known)⟩
  · intro v member
    obtain ⟨weights,sub⟩ := run.contracts fits member
    exact ⟨_,contractNode_emitted (fits v member) weights,sub⟩

/-! ### The round as a whole -/

/-- What a round does: contracted nodes keep their edges, the others lose the edges to them and gain shortcuts. -/
structure Contracted (graph result : ContractorGraph) (alive : NodeID → Prop) (selected : List NodeID)
    (pool : List ContractorEdge) : Prop where
  nodes : result.number_of_nodes = graph.number_of_nodes
  shortcuts : Pool graph selected pool
  frozen : ∀ u, ¬ alive u ∨ u ∈ selected → result.adjacent u = graph.adjacent u
  new_or_old : ∀ u, alive u → u ∉ selected → ∀ e ∈ result.adjacent u,
    (e ∈ graph.adjacent u ∧ e.target ∉ selected) ∨ ∃ edge ∈ pool, edge.source = u ∧ e = edge.stored
  kept : ∀ u, alive u → u ∉ selected → ∀ e ∈ graph.adjacent u, e.target ∉ selected →
    ∃ e' ∈ result.adjacent u, Serves e' e
  covered : ∀ edge ∈ pool, ∃ e' ∈ result.adjacent edge.source, Serves e' edge.stored

private theorem emitted_ends {edges : List ContractorEdge} {edge : ContractorEdge} (emitted : Emitted graph v edges)
    (member : edge ∈ edges) : edge.source ∈ neighbours graph v ∧ edge.target ∈ neighbours graph v := by
  have ends : ∀ {s t w}, Through graph v s t w → s ∈ neighbours graph v ∧ t ∈ neighbours graph v := by
    rintro s t w ⟨a,b,⟨e,inside,target,_⟩,⟨e',inside',target',_⟩,away,other,_⟩
    exact ⟨mem_neighbours.mpr ⟨away,e,inside,target⟩,mem_neighbours.mpr ⟨other,e',inside',target'⟩⟩
  obtain ⟨forward,set⟩ := emitted.usable edge member
  have offered : Offers edges forward edge.source edge.target edge.data.weight := ⟨edge,member,rfl,rfl,rfl,set⟩
  cases forward with
  | true => exact ends (emitted.sound offered)
  | false => exact (ends (emitted.sound (emitted.mirrored.mp offered))).symm

private theorem Independent.neighbour (independent : Independent graph alive selected) (consistent : Consistent graph alive)
    (taken : v ∈ selected) (next : u ∈ neighbours graph v) : alive u ∧ u ∉ selected := by
  obtain ⟨differ,e,member,rfl⟩ := mem_neighbours.mp next
  refine ⟨consistent.closed v (independent.alive v taken) e member,fun bad => differ ?_⟩
  exact (independent.apart v taken e.target bad (.inl ⟨e,member,rfl⟩)).symm

theorem RoundRun.contracted (run : RoundRun graph node_weights selected) (consistent : Consistent graph alive)
    (independent : Independent graph alive selected) (fits : ∀ v ∈ selected, Fits graph v) :
    Contracted graph run.result alive selected (run.insertions.map Prod.snd) := by
  have pool := run.pool fits
  have known : ∀ v, v ∈ run.deletions ↔ v ∈ selected := fun v => run.deletions_selected.mem_iff
  have deleted := deleteIncomingEdges_deleted run.deletions fun u taken v taken' next =>
    (independent.neighbour consistent ((known v).mp taken') next).2 ((known u).mp taken)
  have inserted := insertShortcuts_inserted (run.deletions.foldl DeleteIncomingEdges graph) run.insertions
  have source : ∀ edge ∈ run.insertions.map Prod.snd, alive edge.source ∧ edge.source ∉ selected := by
    intro edge member
    obtain ⟨v,taken,edges,emitted,made,_⟩ := pool.made edge member
    exact independent.neighbour consistent taken (emitted_ends emitted made).1
  have left : ∀ u, alive u → u ∉ selected → ∀ e, e ∈ (run.deletions.foldl DeleteIncomingEdges graph).adjacent u ↔
      e ∈ graph.adjacent u ∧ e.target ∉ selected := by
    intro u living free e
    rw [deleted.edges]
    refine and_congr_right fun member => ⟨fun lost taken => ?_,fun stays v taken _ same => ?_⟩
    · have back := consistent.symmetric u e.target living ⟨e,member,rfl⟩
      exact lost e.target ((known _).mpr taken) (mem_neighbours.mpr ⟨fun same => free (same ▸ taken),back⟩) rfl
    · exact stays (same ▸ (known v).mp taken)
  refine ⟨inserted.nodes.trans deleted.nodes,pool,?_,?_,?_,inserted.covered⟩
  · intro u gone
    have fixed : ∀ v ∈ run.deletions, u ∉ neighbours graph v := by
      intro v taken next
      have living := independent.neighbour consistent ((known v).mp taken) next
      exact gone.elim (fun dead => dead living.1) fun taken => living.2 taken
    have quiet : ∀ edge ∈ run.insertions.map Prod.snd, edge.source ≠ u := by
      rintro edge member rfl
      exact gone.elim (fun dead => dead (source edge member).1) fun taken => (source edge member).2 taken
    exact (inserted.untouched u quiet).trans (deleted.untouched u fixed)
  · intro u living free e member
    exact (inserted.new_or_old u e member).imp_left (left u living free e).mp
  · intro u living free e member stays
    exact inserted.kept u e ((left u living free e).mpr ⟨member,stays⟩)

variable {result : ContractorGraph} {pool : List ContractorEdge} {w : EdgeWeight}

private theorem Contracted.offered (contracted : Contracted graph result alive selected pool)
    {edges : List ContractorEdge} (sub : edges ⊆ pool) {forward : Bool} {s t : NodeID}
    (offers : Offers edges forward s t w) :
    ∃ e ∈ result.adjacent s, e.target = t ∧ flag forward e.data = true ∧ e.data.weight ≤ w := by
  obtain ⟨edge,member,rfl,rfl,rfl,set⟩ := offers
  obtain ⟨e,inside,target,forward',backward',weight⟩ := contracted.covered edge (sub member)
  refine ⟨e,inside,target,?_,weight⟩
  cases forward
  · exact backward'.trans set
  · exact forward'.trans set

private theorem Contracted.forward_cases (contracted : Contracted graph result alive selected pool)
    (living : alive u) (free : u ∉ selected) (arc : forwardArcs result u x w) :
    (forwardArcs graph u x w ∧ x ∉ selected) ∨ ∃ v ∈ selected, ∃ edges, Emitted graph v edges ∧ edges ⊆ pool ∧
      Offers edges true u x w := by
  obtain ⟨e,member,rfl,forward,rfl⟩ := arc
  rcases contracted.new_or_old u living free e member with ⟨old,stays⟩ | ⟨edge,new,rfl,rfl⟩
  · exact .inl ⟨⟨e,old,rfl,forward,rfl⟩,stays⟩
  · obtain ⟨v,taken,edges,emitted,made,sub⟩ := contracted.shortcuts.made edge new
    exact .inr ⟨v,taken,edges,emitted,sub,edge,made,rfl,rfl,rfl,forward⟩

private theorem Contracted.backward_cases (contracted : Contracted graph result alive selected pool)
    (living : alive u) (free : u ∉ selected) (arc : backwardArcs result u x w) :
    (backwardArcs graph u x w ∧ x ∉ selected) ∨ ∃ v ∈ selected, ∃ edges, Emitted graph v edges ∧ edges ⊆ pool ∧
      Offers edges false u x w := by
  obtain ⟨e,member,rfl,backward,rfl⟩ := arc
  rcases contracted.new_or_old u living free e member with ⟨old,stays⟩ | ⟨edge,new,rfl,rfl⟩
  · exact .inl ⟨⟨e,old,rfl,backward,rfl⟩,stays⟩
  · obtain ⟨v,taken,edges,emitted,made,sub⟩ := contracted.shortcuts.made edge new
    exact .inr ⟨v,taken,edges,emitted,sub,edge,made,rfl,rfl,rfl,backward⟩

private theorem Consistent.through (consistent : Consistent graph alive) {s t : NodeID} (living : alive v)
    (through : Through graph v s t w) :
    ∃ a b, within alive (forwardArcs graph) s v a ∧ within alive (forwardArcs graph) v t b ∧ a + b ≤ w := by
  obtain ⟨a,b,incoming,outgoing,_,_,rfl⟩ := through
  have inward : alive s := by
    obtain ⟨e,member,rfl,_⟩ := incoming
    exact consistent.closed v living e member
  have outward : alive t := by
    obtain ⟨e,member,rfl,_⟩ := outgoing
    exact consistent.closed v living e member
  obtain ⟨a',aLe,arc⟩ := consistent.backward s v a living incoming
  exact ⟨a',b,⟨inward,living,arc⟩,⟨living,outward,outgoing⟩,by omega⟩

/-- Every shortest way inside `P` over a contracted node is answered by a new edge or by another walk in `P`. -/
def Answered (graph : ContractorGraph) (P : NodeID → Prop) (selected : List NodeID) (pool : List ContractorEdge) : Prop :=
  ∀ v ∈ selected, ∀ s t w, P s → P t → s ≠ t → Through graph v s t w →
    (∀ k, Walk (within P (forwardArcs graph)) s t k → w ≤ k) →
    Offers pool true s t w ∨ Contraction.Aside (within P (forwardArcs graph)) v s t w

theorem Offers.mono {edges more : List ContractorEdge} {forward : Bool} {s t : NodeID}
    (sub : edges ⊆ more) (offers : Offers edges forward s t w) : Offers more forward s t w := by
  obtain ⟨e,member,rest⟩ := offers
  exact ⟨e,sub member,rest⟩

theorem Pool.answered (shortcuts : Pool graph selected pool) : Answered graph (fun _ => True) selected pool := by
  intro v taken s t w _ _ differ through _
  obtain ⟨edges,emitted,sub⟩ := shortcuts.all v taken
  rw [within_univ]
  exact (emitted.bypass through).imp (Offers.mono sub) fun ⟨_,le,around⟩ => .of_around around differ le

variable {P : NodeID → Prop}

private theorem Consistent.next (consistent : Consistent graph alive) {w : ℤ} (living : alive u)
    (arc : forwardArcs graph u x w) : alive x := by
  obtain ⟨e,member,rfl,_⟩ := arc
  exact consistent.closed u living e member

/-- A walk that starts at a remaining node keeps to the remaining nodes. -/
private theorem Consistent.stays (consistent : Consistent graph alive) {n : ℤ} (living : alive u)
    (walk : Walk (within P (forwardArcs graph)) u x n) :
    alive x ∧ Walk (within P (within alive (forwardArcs graph))) u x n := by
  induction walk with
  | nil => exact ⟨living,.nil _⟩
  | cons arc _ ih =>
    obtain ⟨here,there,arc⟩ := arc
    have next := consistent.next living arc
    exact ⟨(ih next).1,.cons ⟨here,there,living,next,arc⟩ (ih next).2⟩

theorem Contracted.round (contracted : Contracted graph result alive selected pool)
    (consistent : Consistent graph alive) (independent : Independent graph alive selected)
    (answered : Answered graph P selected pool) :
    Contraction.Round (within P (within alive (forwardArcs graph))) (within P (within alive (forwardArcs result)))
      (· ∈ selected) := by
  have near : ∀ {x y w}, forwardArcs graph x y w → Adjacent graph x y := by
    rintro x y w ⟨e,member,target,_⟩
    exact ⟨e,member,target⟩
  refine ⟨?_,?_,?_,?_,?_,?_⟩
  · rintro u v w ⟨_,_,living,_,e,member,_,_,rfl⟩
    exact consistent.positive u living e member
  · rintro u v w freeU freeV ⟨insideU,insideV,living,living',e,member,rfl,forward,rfl⟩
    obtain ⟨e',member',target,forward',_,weight⟩ := contracted.kept u living freeU e member freeV
    exact ⟨e'.data.weight,weight,insideU,insideV,living,living',e',member',target,forward'.trans forward,rfl⟩
  · rintro u v w takenU takenV ⟨_,_,_,_,arc⟩
    exact independent.apart u takenU v takenV (.inl (near arc))
  · rintro s v x a b takenV takenX freeS ⟨_,_,livingS,livingV,one⟩ ⟨_,_,_,livingX,two⟩
    by_contra differ
    have back := consistent.symmetric s v livingS (near one)
    have close : Near graph v x := .inr ⟨s,fun same => freeS (same ▸ takenV),back,near two⟩
    exact differ (independent.apart v takenV x takenX close).symm
  · rintro t v x a b takenV takenX freeT ⟨_,_,_,_,one⟩ ⟨_,_,livingX,_,two⟩
    have back := consistent.symmetric x t livingX (near two)
    have close : Near graph v x := .inr ⟨t,fun same => freeT (same ▸ takenV),near one,back⟩
    exact (independent.apart v takenV x takenX close).symm
  · rintro v s t a b takenV freeS freeT differ ⟨insideS,_,livingS,livingV,one⟩ ⟨_,insideT,_,livingT,two⟩ best
    obtain ⟨a',aLe,incoming⟩ := consistent.forward s v a livingS one
    have through : Through graph v s t (a' + b) := ⟨a',b,incoming,two,fun same => freeS (same ▸ takenV),
      fun same => freeT (same ▸ takenV),rfl⟩
    rcases answered v takenV s t _ insideS insideT differ through fun k walk =>
        (Int.add_le_add_right aLe b).trans (best k (consistent.stays livingS walk).2) with
      offers | ⟨x,c,k,aside,le,⟨⟨_,insideX,first⟩,later⟩ | ⟨earlier,insideX,_,last⟩⟩
    · obtain ⟨e,member,target,forward,weight⟩ := contracted.offered (Subset.refl _) offers
      exact .inl ⟨e.data.weight,by lia,insideS,insideT,livingS,livingT,e,member,target,forward,rfl⟩
    · have livingX := consistent.next livingS first
      obtain ⟨_,later⟩ := consistent.stays livingX later
      exact .inr ⟨x,c,k,aside,by lia,.inl ⟨⟨insideS,insideX,livingS,livingX,first⟩,later⟩⟩
    · obtain ⟨livingX,earlier⟩ := consistent.stays livingS earlier
      exact .inr ⟨x,c,k,aside,by lia,.inr ⟨earlier,insideX,insideT,livingX,livingT,last⟩⟩

theorem Contracted.consistent (contracted : Contracted graph result alive selected pool)
    (consistent : Consistent graph alive) (independent : Independent graph alive selected) :
    Consistent result (fun u => alive u ∧ u ∉ selected) := by
  have stored : ∀ edge ∈ pool, ∃ v ∈ selected, ∃ edges, Emitted graph v edges ∧ edge ∈ edges ∧ edges ⊆ pool :=
    contracted.shortcuts.made
  have mirror : ∀ {edges forward s t w}, edges ⊆ pool → (∃ v, Emitted graph v edges) → Offers edges forward s t w →
      ∃ e ∈ result.adjacent t, e.target = s ∧ flag (!forward) e.data = true ∧ e.data.weight ≤ w := by
    rintro edges forward s t w sub ⟨v,emitted⟩ offers
    cases forward with
    | true => exact contracted.offered sub (emitted.mirrored.mpr offers)
    | false => exact contracted.offered sub (emitted.mirrored.mp offers)
  refine ⟨?_,?_,?_,?_,?_⟩
  · rintro u ⟨living,free⟩ e member
    rcases contracted.new_or_old u living free e member with ⟨old,stays⟩ | ⟨edge,new,_,rfl⟩
    · exact ⟨consistent.closed u living e old,stays⟩
    · obtain ⟨v,taken,edges,emitted,made,_⟩ := stored edge new
      exact independent.neighbour consistent taken (emitted_ends emitted made).2
  · rintro u ⟨living,free⟩ e member
    rcases contracted.new_or_old u living free e member with ⟨old,_⟩ | ⟨edge,new,_,rfl⟩
    · exact consistent.positive u living e old
    · obtain ⟨v,taken,edges,emitted,made,_⟩ := stored edge new
      have heavy : ∀ {s t w}, Through graph v s t w → 0 < w := by
        rintro s t w ⟨a,b,⟨e,inside,_,_,rfl⟩,⟨e',inside',_,_,rfl⟩,_,_,rfl⟩
        have one := consistent.positive v (independent.alive v taken) e inside
        have two := consistent.positive v (independent.alive v taken) e' inside'
        lia
      obtain ⟨forward,set⟩ := emitted.usable edge made
      have offered : Offers edges forward edge.source edge.target edge.data.weight := ⟨edge,made,rfl,rfl,rfl,set⟩
      cases forward with
      | true => exact heavy (emitted.sound offered)
      | false => exact heavy (emitted.sound (emitted.mirrored.mp offered))
  · rintro u x ⟨living,free⟩ ⟨e,member,rfl⟩
    rcases contracted.new_or_old u living free e member with ⟨old,stays⟩ | ⟨edge,new,rfl,rfl⟩
    · obtain ⟨e',member',target⟩ := consistent.symmetric u e.target living ⟨e,old,rfl⟩
      obtain ⟨e'',member'',serves⟩ := contracted.kept e.target (consistent.closed u living e old) stays e' member'
        (target ▸ free)
      exact ⟨e'',member'',serves.1.trans target⟩
    · obtain ⟨v,taken,edges,emitted,made,sub⟩ := stored edge new
      obtain ⟨forward,set⟩ := emitted.usable edge made
      obtain ⟨e',member',target,_⟩ := mirror sub ⟨v,emitted⟩ ⟨edge,made,rfl,rfl,rfl,set⟩
      exact ⟨e',member',target⟩
  · rintro u x w ⟨living,free⟩ arc
    rcases contracted.forward_cases living free arc with ⟨old,stays⟩ | ⟨v,taken,edges,emitted,sub,offers⟩
    · have living' : alive x := by
        obtain ⟨e,member,rfl,_⟩ := old
        exact consistent.closed u living e member
      obtain ⟨w',wLe,e,member,target,backward,rfl⟩ := consistent.forward u x w living old
      obtain ⟨e',member',target',_,backward',weight⟩ := contracted.kept x living' stays e member (target ▸ free)
      exact ⟨e'.data.weight,weight.trans wLe,e',member',target'.trans target,backward'.trans backward,rfl⟩
    · obtain ⟨e,member,target,backward,weight⟩ := mirror sub ⟨v,emitted⟩ offers
      exact ⟨e.data.weight,weight,e,member,target,backward,rfl⟩
  · rintro u x w ⟨living,free⟩ arc
    rcases contracted.backward_cases living free arc with ⟨old,stays⟩ | ⟨v,taken,edges,emitted,sub,offers⟩
    · have living' : alive u := by
        obtain ⟨e,member,rfl,_⟩ := old
        exact consistent.closed x living e member
      obtain ⟨w',wLe,e,member,target,forward,rfl⟩ := consistent.backward u x w living old
      obtain ⟨e',member',target',forward',_,weight⟩ := contracted.kept u living' stays e member (target ▸ free)
      exact ⟨e'.data.weight,weight.trans wLe,e',member',target'.trans target,forward'.trans forward,rfl⟩
    · obtain ⟨e,member,target,forward,weight⟩ := mirror sub ⟨v,emitted⟩ offers
      exact ⟨e.data.weight,weight,e,member,target,forward,rfl⟩

def notAfter (a b : ContractorEdge) : Prop := edgeBefore b a = false

instance : DecidableRel notAfter := fun a b => inferInstanceAs (Decidable (edgeBefore b a = false))

instance : IsTrans ContractorEdge notAfter where
  trans a b c one two := by
    simp [notAfter,edgeBefore] at *
    lia

instance : Std.Total notAfter where
  total a b := by
    simp [notAfter,edgeBefore]
    lia

/-- The round in which a single thread does everything in order and every edge is
    inserted behind the others. -/
def RoundRun.sequential (graph : ContractorGraph) (node_weights : NodeID → EdgeWeight) (selected : List NodeID) :
    RoundRun graph node_weights selected where
  tasks := selected.map (0,·)
  tasks_selected := by simp [Function.comp_def]
  deletions := selected
  deletions_selected := .refl _
  sorted := fun thread =>
    (((selected.map (0,·)).foldl (contractTask graph) (node_weights,fun _ => [])).2 thread).insertionSort notAfter
  sorted_perm := fun _ => perm_insertionSort _ _
  sorted_order := fun _ => pairwise_insertionSort notAfter _
  threads := [0]
  threads_distinct := by simp
  threads_all := by simp
  insertions :=
    ((((selected.map (0,·)).foldl (contractTask graph) (node_weights,fun _ => [])).2 0).insertionSort notAfter).map (false,·)
  insertions_edges := by simp [Function.comp_def]

/-! ### Distances -/

private theorem Consistent.usable (consistent : Consistent graph alive) {n : ℤ}
    (walk : Walk (within alive (usableArcs graph)) u x n) : ∃ m ≤ n, Walk (within alive (forwardArcs graph)) u x m := by
  refine walk.lift ?_
  rintro u v w ⟨livingU,livingV,forward | backward⟩
  · exact ⟨w,le_rfl,.single ⟨livingU,livingV,forward⟩⟩
  · obtain ⟨w',wLe,arc⟩ := consistent.backward u v w livingV backward
    exact ⟨w',wLe,.single ⟨livingU,livingV,arc⟩⟩

private theorem Contracted.sound (contracted : Contracted graph result alive selected pool)
    (consistent : Consistent graph alive) (independent : Independent graph alive selected) {n : ℤ}
    (walk : Walk (within (fun u => alive u ∧ u ∉ selected) (forwardArcs result)) u x n) :
    ∃ m ≤ n, Walk (within alive (forwardArcs graph)) u x m := by
  refine walk.lift ?_
  rintro u v w ⟨⟨livingU,freeU⟩,⟨livingV,_⟩,arc⟩
  rcases contracted.forward_cases livingU freeU arc with ⟨old,_⟩ | ⟨c,taken,edges,emitted,_,offers⟩
  · exact ⟨w,le_rfl,.single ⟨livingU,livingV,old⟩⟩
  · obtain ⟨a,b,one,two,le⟩ := consistent.through (independent.alive c taken) (emitted.sound offers)
    exact ⟨a + b,le,(Walk.single one).snoc two⟩

private theorem Contracted.shortest_iff (contracted : Contracted graph result alive selected pool)
    (consistent : Consistent graph alive) (independent : Independent graph alive selected)
    (freeU : u ∉ selected) (freeX : x ∉ selected) (d : ℤ) :
    Shortest (within (fun u => alive u ∧ u ∉ selected) (usableArcs result)) u x d ↔
      Shortest (within alive (usableArcs graph)) u x d := by
  have next := contracted.consistent consistent independent
  have include_ : ∀ {graph : ContractorGraph} {P : NodeID → Prop} {m : ℤ}, Walk (within P (forwardArcs graph)) u x m →
      Walk (within P (usableArcs graph)) u x m :=
    fun walk => walk.mono fun _ _ _ arc => ⟨arc.1,arc.2.1,.inl arc.2.2⟩
  refine shortest_congr ?_ ?_ d
  · intro n walk
    obtain ⟨m,mLe,forward⟩ := next.usable walk
    obtain ⟨k,kLe,old⟩ := contracted.sound consistent independent forward
    exact ⟨k,kLe.trans mLe,include_ old⟩
  · intro n walk
    obtain ⟨m,mLe,forward⟩ := consistent.usable walk
    have round := contracted.round consistent independent contracted.shortcuts.answered
    rw [within_univ,within_univ] at round
    obtain ⟨k,kLe,new⟩ := round.preserves freeU freeX forward
    exact ⟨k,kLe.trans mLe,include_ (new.mono fun _ _ _ arc => ⟨⟨arc.2.2.1,arc.1⟩,⟨arc.2.2.2.1,arc.2.1⟩,arc.2.2.2.2⟩)⟩

theorem mirrored_consistent (mirrored : Mirrored graph) (heavy : ∀ u, ∀ e ∈ graph.adjacent u, 1 ≤ e.data.weight) :
    Consistent graph (fun _ => True) := by
  refine ⟨fun _ _ _ _ => trivial,?_,?_,?_,?_⟩
  · intro u _ e member
    have := heavy u e member
    lia
  · rintro u v _ ⟨e,member,rfl⟩
    obtain ⟨e',member',target,_⟩ := mirrored u e member
    exact ⟨e',member',target⟩
  · rintro u v w _ ⟨e,member,rfl,forward,rfl⟩
    obtain ⟨e',member',target,weight,_,backward⟩ := mirrored u e member
    exact ⟨e.data.weight,le_rfl,e',member',target,backward.trans forward,weight⟩
  · rintro u v w _ ⟨e,member,rfl,backward,rfl⟩
    obtain ⟨e',member',target,weight,forward,_⟩ := mirrored v e member
    exact ⟨e.data.weight,le_rfl,e',member',target,forward.trans backward,weight⟩

/-- Contracting independent nodes keeps the distances between the others, whatever the schedule. -/
theorem round_preserves_distances (graph : ContractorGraph) (node_weights : NodeID → EdgeWeight) (hash : NodeID → ℕ)
    (priorities : NodeID → ℚ) (new_to_old_node_id : NodeID → NodeID) (remaining : List NodeID)
    (mirrored : Mirrored graph) (heavy : ∀ u, ∀ e ∈ graph.adjacent u, 1 ≤ e.data.weight)
    (injective : Function.Injective new_to_old_node_id) (selected : List NodeID)
    (accepted : selected = remaining.filter (IsNodeIndependent hash priorities new_to_old_node_id graph))
    (fits : ∀ v ∈ selected, Fits graph v) (run : RoundRun graph node_weights selected) (u x : NodeID)
    (freeU : u ∉ selected) (freeX : x ∉ selected) (d : ℤ) :
    Shortest (within (· ∉ selected) (usableArcs run.result)) u x d ↔ Shortest (usableArcs graph) u x d := by
  have consistent := mirrored_consistent mirrored heavy
  have independent : Independent graph (fun _ => True) selected :=
    accepted ▸ consistent.independent injective fun _ _ => trivial
  have contracted := run.contracted consistent independent fits
  have remains : (fun u : NodeID => True ∧ u ∉ selected) = (· ∉ selected) := by
    funext a
    simp
  have same := contracted.shortest_iff consistent independent freeU freeX d
  rwa [within_univ,remains] at same

def street (target : NodeID) : DynamicEdge := ⟨target,1,1,1,0,1,false,true,true⟩
def row : ContractorGraph where
  number_of_nodes := 3
  adjacent := fun u => if u = 0 then [street 1] else if u = 1 then [street 0,street 2] else if u = 2 then [street 1] else []

theorem row_edge {u : NodeID} (member : e ∈ row.adjacent u) :
    (u = 0 ∧ e = street 1) ∨ (u = 1 ∧ e = street 0) ∨ (u = 1 ∧ e = street 2) ∨ (u = 2 ∧ e = street 1) := by
  unfold row at member
  dsimp only at member
  split_ifs at member <;> simp_all

private theorem row_arc {u v : NodeID} {w : ℤ} (arc : forwardArcs row u v w) : w = 1 ∧ v ≤ u + 1 := by
  obtain ⟨e,member,rfl,_,rfl⟩ := arc
  rcases row_edge member with ⟨rfl,rfl⟩ | ⟨rfl,rfl⟩ | ⟨rfl,rfl⟩ | ⟨rfl,rfl⟩ <;> decide
private theorem row_walk {u v : NodeID} {n : ℤ} (walk : Walk (forwardArcs row) u v n) : (v : ℤ) ≤ u + n := by
  induction walk with
  | nil => omega
  | cons arc _ ih => have := row_arc arc; lia

theorem row_distance : Shortest (forwardArcs row) 0 2 2 := by
  have one : forwardArcs row 0 1 1 := ⟨street 1,by decide,rfl,rfl,rfl⟩
  have two : forwardArcs row 1 2 1 := ⟨street 2,by decide,rfl,rfl,rfl⟩
  refine ⟨(Walk.single one).snoc two,fun n walk => ?_⟩
  have := row_walk walk
  lia

theorem row_mirrored : Mirrored row := by
  intro u e member
  rcases row_edge member with ⟨rfl,rfl⟩ | ⟨rfl,rfl⟩ | ⟨rfl,rfl⟩ | ⟨rfl,rfl⟩
  · exact ⟨street 0,by decide,by decide⟩
  · exact ⟨street 1,by decide,by decide⟩
  · exact ⟨street 1,by decide,by decide⟩
  · exact ⟨street 2,by decide,by decide⟩

theorem row_heavy : ∀ u, ∀ e ∈ row.adjacent u, 1 ≤ e.data.weight := by
  intro u e member
  rcases row_edge member with ⟨rfl,rfl⟩ | ⟨rfl,rfl⟩ | ⟨rfl,rfl⟩ | ⟨rfl,rfl⟩ <;> decide

theorem row_fits (v : NodeID) : Fits row v := by
  intro in_edge out_edge pair
  rcases row_edge pair.incoming with ⟨rfl,rfl⟩ | ⟨rfl,rfl⟩ | ⟨rfl,rfl⟩ | ⟨rfl,rfl⟩ <;>
    rcases row_edge pair.outgoing with ⟨_,rfl⟩ | ⟨_,rfl⟩ | ⟨_,rfl⟩ | ⟨_,rfl⟩ <;> decide

/-- Contracting the middle of three nodes keeps the distance between the other two. -/
theorem round_preserves_distances_row :
    Shortest (within (· ∉ [1]) (usableArcs (RoundRun.sequential row (fun _ => 0) [1]).result)) 0 2 2 := by
  refine (round_preserves_distances row (fun _ => 0) id (fun u => if u = 1 then 0 else 1) id [0,1,2] row_mirrored
    row_heavy Function.injective_id [1] (by decide +kernel) (fun v _ => row_fits v) _ 0 2 (by decide) (by decide) 2).mpr ?_
  rw [mirrored_usable row_mirrored]
  exact row_distance

end Osrm.ContractionRound
