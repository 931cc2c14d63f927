import Osrm.DinicMaxFlow

/-!
The levels of `DinicMaxFlow::ComputeLevelGraph`. Every node with a level that is no source was reached with capacity
from one level below, and every node that is no sink passed its level on where it has capacity.
-/
namespace Osrm.DinicMaxFlow
open List Function
open Typedefs Loops RecursiveBisection

namespace BisectionGraphView
variable (view : BisectionGraphView)

def Symmetric : Prop := ∀ u < view.NumberOfNodes, ∀ v ∈ view.targets u, u ∈ view.targets v

theorem targets_lt {u v : NodeID} (inside : u < view.NumberOfNodes) (edge : v ∈ view.targets u) : v < view.NumberOfNodes := by
  obtain ⟨e,member,rfl⟩ := mem_map.mp edge
  exact view.closed _ (mem_of_getElem? (slice_nodes view.bisection_graph view.room inside)) e member

end BisectionGraphView

variable {view : BisectionGraphView} {source_nodes sink_nodes : List NodeID} {flow : FlowEdges}

theorem hasNeighborNotIn_iff {nodes : List NodeID} {nid : NodeID} :
    hasNeighborNotIn view nodes nid = true ↔ ∃ target ∈ view.targets nid, target ∉ nodes := by
  rw [hasNeighborNotIn,any_eq_true]
  simp

def Border (view : BisectionGraphView) (source_nodes : List NodeID) (x : NodeID) : Prop :=
  x ∈ source_nodes ∧ ∃ target ∈ view.targets x, target ∉ source_nodes

structure Levelled (view : BisectionGraphView) (source_nodes sink_nodes : List NodeID) (flow : FlowEdges) (s : LevelSearch) : Prop where
  range : ∀ x, s.levels x ≤ INVALID_LEVEL
  inside : ∀ x, s.levels x ≠ INVALID_LEVEL → x < view.NumberOfNodes
  source_zero : ∀ x ∈ source_nodes, s.levels x ≠ INVALID_LEVEL → s.levels x = 0
  zero_source : ∀ x, s.levels x = 0 → x ∈ source_nodes
  border : ∀ x, Border view source_nodes x → s.levels x = 0 ∧ ∀ t ∈ view.targets x, t ∈ source_nodes → s.levels t = 0
  parent : ∀ y, s.levels y ≠ INVALID_LEVEL → y ∉ source_nodes → ∃ x, s.levels x ≠ INVALID_LEVEL ∧ x ∉ sink_nodes ∧
    y ∈ view.targets x ∧ y ∉ flow x ∧ s.levels x + 1 = s.levels y
  sorted : s.level_queue.Pairwise fun a b => s.levels a ≤ s.levels b
  queued : ∀ q ∈ s.level_queue, s.levels q ≠ INVALID_LEVEL ∧ (q ∈ source_nodes → Border view source_nodes q)
  span : ∀ q ∈ s.level_queue, ∀ x, s.levels x ≠ INVALID_LEVEL → s.levels x ≤ s.levels q + 1
  relaxed : ∀ x, s.levels x ≠ INVALID_LEVEL → x ∉ sink_nodes → (x ∈ source_nodes → Border view source_nodes x) →
    x ∈ s.level_queue ∨ ∀ t ∈ view.targets x, t ∈ flow x ∨ s.levels t ≠ INVALID_LEVEL

variable {s : LevelSearch}

private theorem Levelled.levels_below (levelled : Levelled view source_nodes sink_nodes flow s) {x : NodeID}
    (valid : s.levels x ≠ INVALID_LEVEL) : ∀ k ≤ s.levels x, ∃ y, s.levels y ≠ INVALID_LEVEL ∧ s.levels y = k := by
  induction level : s.levels x generalizing x with
  | zero =>
    intro k below
    exact ⟨x,valid,by omega⟩
  | succ l ih =>
    intro k below
    by_cases top : k = l + 1
    · exact ⟨x,valid,by omega⟩
    · have other : x ∉ source_nodes := fun member => by
        have := levelled.source_zero x member valid
        omega
      obtain ⟨p,valid',-,-,-,next⟩ := levelled.parent x valid other
      exact ih valid' (by omega) k (by omega)

private theorem Levelled.level_lt (levelled : Levelled view source_nodes sink_nodes flow s) {x t : NodeID} (valid : s.levels x ≠ INVALID_LEVEL)
    (inside : t < view.NumberOfNodes) (invalid : s.levels t = INVALID_LEVEL) : s.levels x + 1 < INVALID_LEVEL := by
  have image : Finset.range (s.levels x + 1) ⊆ ((Finset.range view.NumberOfNodes).erase t).image s.levels := by
    intro k member
    obtain ⟨y,valid',same⟩ := levelled.levels_below valid k (by have := Finset.mem_range.mp member; omega)
    refine Finset.mem_image.mpr ⟨y,Finset.mem_erase.mpr ⟨fun here => ?_,Finset.mem_range.mpr (levelled.inside y valid')⟩,same⟩
    exact valid' (here ▸ invalid)
  have count : s.levels x + 1 ≤ view.NumberOfNodes - 1 := by
    calc s.levels x + 1 = (Finset.range (s.levels x + 1)).card := (Finset.card_range _).symm
      _ ≤ (((Finset.range view.NumberOfNodes).erase t).image s.levels).card := Finset.card_le_card image
      _ ≤ ((Finset.range view.NumberOfNodes).erase t).card := Finset.card_image_le
      _ = view.NumberOfNodes - 1 := by rw [Finset.card_erase_of_mem (Finset.mem_range.mpr inside),Finset.card_range]
  have small : view.NumberOfNodes ≤ 4294967295 := view.small
  rw [INVALID_LEVEL]
  omega

variable {rest : List NodeID}

private theorem Levelled.front_le (levelled : Levelled view source_nodes sink_nodes flow s) {front : NodeID}
    (first : s.level_queue = front :: rest) : ∀ q ∈ s.level_queue, s.levels front ≤ s.levels q := by
  intro q member
  have sorted := levelled.sorted
  rw [first] at sorted member
  cases mem_cons.mp member with
  | inl here => rw [here]
  | inr later => exact (pairwise_cons.mp sorted).1 q later

private theorem zero_valid {level : ℕ} (zero : level = 0) : level ≠ INVALID_LEVEL := by
  rw [zero,INVALID_LEVEL]
  omega

private theorem Levelled.no_source (levelled : Levelled view source_nodes sink_nodes flow s) (symmetric : view.Symmetric) {front t : NodeID}
    (at_front : front ∈ s.level_queue) (edge : t ∈ view.targets front) (invalid : s.levels t = INVALID_LEVEL) : t ∉ source_nodes := by
  obtain ⟨valid,source⟩ := levelled.queued front at_front
  intro member
  by_cases at_source : front ∈ source_nodes
  · exact zero_valid ((levelled.border front (source at_source)).2 t edge member) invalid
  · have border : Border view source_nodes t := ⟨member,front,symmetric front (levelled.inside front valid) t edge,at_source⟩
    exact zero_valid (levelled.border t border).1 invalid

private theorem Levelled.give {s' : LevelSearch} {front t : NodeID}
    (levelled : Levelled view source_nodes sink_nodes flow s) (symmetric : view.Symmetric) (first : s.level_queue = front :: rest)
    (not_sink : front ∉ sink_nodes) (edge : t ∈ view.targets front) (capacity : t ∉ flow front) (invalid : s.levels t = INVALID_LEVEL)
    (new : s'.levels t = s.levels front + 1) (other : ∀ x, x ≠ t → s'.levels x = s.levels x)
    (queue : s'.level_queue = s.level_queue ++ [t]) : Levelled view source_nodes sink_nodes flow s' := by
  have at_front : front ∈ s.level_queue := first ▸ mem_cons_self
  have valid := (levelled.queued front at_front).1
  have inside := levelled.inside front valid
  have below := levelled.level_lt valid (view.targets_lt inside edge) invalid
  have old : ∀ x, s.levels x ≠ INVALID_LEVEL → s'.levels x = s.levels x := fun x given => other x fun here => given (here ▸ invalid)
  have kept : ∀ x, s.levels x ≠ INVALID_LEVEL → s'.levels x ≠ INVALID_LEVEL := fun x given => (old x given).symm ▸ given
  have either : ∀ x, s'.levels x ≠ INVALID_LEVEL → x = t ∨ s.levels x ≠ INVALID_LEVEL := by
    intro x given
    by_cases here : x = t
    · exact .inl here
    · rw [other x here] at given
      exact .inr given
  have no_source := levelled.no_source symmetric at_front edge invalid
  have lowest := levelled.front_le first
  constructor
  · intro x
    by_cases here : x = t
    · rw [here,new]
      omega
    · rw [other x here]
      exact levelled.range x
  · intro x given
    cases either x given with
    | inl here => exact here ▸ view.targets_lt inside edge
    | inr before => exact levelled.inside x before
  · intro x member given
    cases either x given with
    | inl here => exact absurd (here ▸ member) no_source
    | inr before =>
      rw [old x before]
      exact levelled.source_zero x member before
  · intro x zero
    by_cases here : x = t
    · rw [here,new] at zero
      omega
    · rw [other x here] at zero
      exact levelled.zero_source x zero
  · intro x border
    obtain ⟨zero,near⟩ := levelled.border x border
    refine ⟨(old x (zero_valid zero)).trans zero,fun y edge' member => ?_⟩
    have low := near y edge' member
    exact (old y (zero_valid low)).trans low
  · intro y given outside
    cases either y given with
    | inl here =>
      subst here
      exact ⟨front,kept front valid,not_sink,edge,capacity,by rw [old front valid,new]⟩
    | inr before =>
      obtain ⟨x,valid',not_sink',edge',capacity',next⟩ := levelled.parent y before outside
      exact ⟨x,kept x valid',not_sink',edge',capacity',by rw [old x valid',old y before,next]⟩
  · rw [queue]
    refine pairwise_append.mpr ⟨levelled.sorted.imp_of_mem fun at_a at_b le => ?_,pairwise_singleton ..,?_⟩
    · rwa [old _ (levelled.queued _ at_a).1,old _ (levelled.queued _ at_b).1]
    · intro q member q' at_t
      have valid_q := (levelled.queued q member).1
      rw [mem_singleton.mp at_t,new,old q valid_q]
      exact levelled.span front at_front q valid_q
  · rw [queue]
    intro q member
    cases mem_append.mp member with
    | inl before => exact ⟨kept q (levelled.queued q before).1,(levelled.queued q before).2⟩
    | inr last =>
      rw [mem_singleton.mp last]
      refine ⟨?_,fun at_source => absurd at_source no_source⟩
      rw [new]
      omega
  · rw [queue]
    intro q member x given
    have low : s.levels front ≤ s'.levels q := by
      cases mem_append.mp member with
      | inl before => exact (lowest q before).trans (old q (levelled.queued q before).1).ge
      | inr last =>
        rw [mem_singleton.mp last,new]
        omega
    cases either x given with
    | inl here =>
      rw [here,new]
      omega
    | inr before =>
      have := levelled.span front at_front x before
      rw [old x before]
      omega
  · rw [queue]
    intro x given no_sink border
    cases either x given with
    | inl here => exact .inl (here ▸ mem_append_right _ mem_cons_self)
    | inr before =>
      refine (levelled.relaxed x before no_sink border).imp (mem_append_left _) fun each y edge' => ?_
      exact (each y edge').imp_right (kept y)

/-- While the front of the queue is relaxed; the targets that are done have a level or no capacity. -/
structure Relaxing (view : BisectionGraphView) (source_nodes sink_nodes : List NodeID) (flow : FlowEdges) (front level : ℕ)
    (rest done : List NodeID) (s : LevelSearch) : Prop where
  levelled : Levelled view source_nodes sink_nodes flow s
  queue : ∃ pushed, s.level_queue = front :: (rest ++ pushed)
  level : s.levels front = level
  targets : ∀ t ∈ done, t ∈ flow front ∨ s.levels t ≠ INVALID_LEVEL

private theorem Relaxing.step (symmetric : view.Symmetric) {front level : ℕ} {rest done : List NodeID} {t : NodeID}
    (relaxing : Relaxing view source_nodes sink_nodes flow front level rest done s) (edge : t ∈ view.targets front)
    (not_sink : front ∉ sink_nodes) :
    Relaxing view source_nodes sink_nodes flow front level rest (done ++ [t])
      (relaxEdge flow front ((level + 1) % 2 ^ 32) s t) := by
  obtain ⟨levelled,⟨pushed,queue⟩,same,targets⟩ := relaxing
  have at_front : front ∈ s.level_queue := queue ▸ mem_cons_self
  have valid := (levelled.queued front at_front).1
  have inside := levelled.inside front valid
  -- a target without a level gets one, and a target with a level has one that is low enough
  have low : s.levels t = INVALID_LEVEL → (level + 1) % 2 ^ 32 = level + 1 ∧ level + 1 < INVALID_LEVEL := by
    intro invalid
    have below := levelled.level_lt valid (view.targets_lt inside edge) invalid
    rw [same] at below
    refine ⟨Nat.mod_eq_of_lt ?_,below⟩
    rw [INVALID_LEVEL] at below
    omega
  have high : s.levels t ≠ INVALID_LEVEL → s.levels t ≤ (level + 1) % 2 ^ 32 := by
    intro given
    have span := levelled.span front at_front t given
    have range := levelled.range front
    rw [INVALID_LEVEL] at valid range
    have level_eq : (level + 1) % 2 ^ 32 = level + 1 := Nat.mod_eq_of_lt (by omega)
    rw [level_eq]
    omega
  rw [relaxEdge]
  split_ifs with full higher
  · exact ⟨levelled,⟨pushed,queue⟩,same,forall_mem_concat targets (.inl full)⟩
  · have invalid : s.levels t = INVALID_LEVEL := by
      by_contra given
      have := high given
      omega
    obtain ⟨level_eq,below⟩ := low invalid
    rw [level_eq]
    have new : Function.update s.levels t (level + 1) t = level + 1 := update_self ..
    have old : ∀ x, x ≠ t → Function.update s.levels t (level + 1) x = s.levels x := fun x ne => update_of_ne ne ..
    have levelled' : Levelled view source_nodes sink_nodes flow ⟨Function.update s.levels t (level + 1),s.level_queue ++ [t]⟩ :=
      levelled.give symmetric queue not_sink edge full invalid (same ▸ new) old rfl
    have kept : ∀ x, s.levels x ≠ INVALID_LEVEL → Function.update s.levels t (level + 1) x ≠ INVALID_LEVEL := by
      intro x given
      rwa [old x fun here => given (here ▸ invalid)]
    refine ⟨levelled',⟨pushed ++ [t],by simp [queue]⟩,?_,forall_mem_concat (fun x member => (targets x member).imp_right (kept x)) (.inr ?_)⟩
    · exact (old front fun here => valid (here ▸ invalid)).trans same
    · show Function.update s.levels t (level + 1) t ≠ INVALID_LEVEL
      rw [new]
      omega
  · refine ⟨levelled,⟨pushed,queue⟩,same,forall_mem_concat targets (.inr fun invalid => ?_)⟩
    obtain ⟨level_eq,below⟩ := low invalid
    omega

private theorem Levelled.pop (levelled : Levelled view source_nodes sink_nodes flow s) {front : NodeID}
    (first : s.level_queue = front :: rest)
    (done : front ∉ sink_nodes → ∀ t ∈ view.targets front, t ∈ flow front ∨ s.levels t ≠ INVALID_LEVEL) :
    Levelled view source_nodes sink_nodes flow { s with level_queue := rest } := by
  have sorted := levelled.sorted
  rw [first] at sorted
  have sub : ∀ q ∈ rest, q ∈ s.level_queue := fun q member => first ▸ mem_cons_of_mem _ member
  refine { levelled with
    sorted := (pairwise_cons.mp sorted).2
    queued := fun q member => levelled.queued q (sub q member)
    span := fun q member => levelled.span q (sub q member)
    relaxed := fun x given no_sink border => ?_ }
  cases levelled.relaxed x given no_sink border with
  | inr each => exact .inr each
  | inl member =>
    rw [first] at member
    cases mem_cons.mp member with
    | inl here =>
      subst here
      exact .inr (done no_sink)
    | inr later => exact .inl later

private theorem relaxFront_levelled (symmetric : view.Symmetric) (levelled : Levelled view source_nodes sink_nodes flow s) :
    Levelled view source_nodes sink_nodes flow (relaxFront view sink_nodes flow s) := by
  rw [relaxFront]
  cases first : s.level_queue with
  | nil => exact levelled
  | cons front rest =>
    dsimp only
    rw [relax_node]
    split_ifs with sink
    · rw [first]
      exact levelled.pop first fun no_sink => absurd sink no_sink
    · have relaxing := foldl_invariant (Relaxing view source_nodes sink_nodes flow front (s.levels front) rest) (view.targets front)
        (fun done s' t edge relaxing => relaxing.step symmetric edge sink) s ⟨levelled,⟨[],by simp [first]⟩,rfl,by simp⟩
      obtain ⟨levelled',⟨pushed,queue⟩,-,targets⟩ := relaxing
      rw [queue]
      exact levelled'.pop queue fun _ => targets

def levelWork (view : BisectionGraphView) (s : LevelSearch) : ℕ :=
  2 * ∑ x ∈ Finset.range view.NumberOfNodes, s.levels x + s.level_queue.length

private theorem relaxEdge_work (flow : FlowEdges) (front level : ℕ) {t : NodeID} (inside : t < view.NumberOfNodes) (s : LevelSearch) :
    levelWork view (relaxEdge flow front level s t) ≤ levelWork view s := by
  rw [relaxEdge]
  split_ifs with full higher
  · exact le_rfl
  · have lower : ∑ x ∈ Finset.range view.NumberOfNodes, Function.update s.levels t level x <
        ∑ x ∈ Finset.range view.NumberOfNodes, s.levels x := by
      refine Finset.sum_lt_sum (fun x _ => ?_) ⟨t,Finset.mem_range.mpr inside,?_⟩
      · by_cases here : x = t
        · rw [here,update_self]
          exact higher.le
        · rw [update_of_ne here]
      · rw [update_self]
        exact higher
    rw [levelWork,levelWork,length_append,length_singleton]
    dsimp only
    lia
  · exact le_rfl

private theorem relaxFront_work (levelled : Levelled view source_nodes sink_nodes flow s) (more : s.level_queue ≠ []) :
    levelWork view (relaxFront view sink_nodes flow s) < levelWork view s := by
  obtain ⟨front,rest,first⟩ := exists_cons_of_ne_nil more
  have inside := levelled.inside front (levelled.queued front (first ▸ mem_cons_self)).1
  have kept : levelWork view (relax_node view sink_nodes flow s front) ≤ levelWork view s ∧
      (relax_node view sink_nodes flow s front).level_queue ≠ [] := by
    rw [relax_node]
    split_ifs
    · exact ⟨le_rfl,more⟩
    · refine foldl_invariant (fun _ s' => levelWork view s' ≤ levelWork view s ∧ s'.level_queue ≠ []) (view.targets front)
        (fun _ s' t edge kept => ⟨(relaxEdge_work flow front _ (view.targets_lt inside edge) s').trans kept.1,?_⟩) s ⟨le_rfl,more⟩
      rw [relaxEdge]
      split_ifs
      · exact kept.2
      · simp
      · exact kept.2
  rw [relaxFront,first]
  dsimp only
  generalize relax_node view sink_nodes flow s front = relaxed at kept
  obtain ⟨le,nonempty⟩ := kept
  have positive := length_pos_of_ne_nil nonempty
  rw [levelWork] at le ⊢
  rw [length_tail]
  dsimp only
  omega

/-! ### The beginning of the search -/

private theorem foldl_zero (nodes : List NodeID) (levels : LevelGraph) (targets : List NodeID) (x : NodeID) :
    targets.foldl (fun levels target => if target ∈ nodes then Function.update levels target 0 else levels) levels x =
      if x ∈ targets ∧ x ∈ nodes then 0 else levels x := by
  induction targets generalizing levels with
  | nil => simp
  | cons target targets ih =>
    rw [foldl_cons,ih]
    by_cases member : target ∈ nodes
    · rw [if_pos member]
      by_cases here : x = target
      · subst here
        simp [member]
      · simp [here]
    · rw [if_neg member]
      by_cases here : x = target
      · subst here
        simp [member]
      · simp [here]

structure Enqueued (view : BisectionGraphView) (source_nodes done : List NodeID) (s : LevelSearch) : Prop where
  queue : s.level_queue = done
  two : ∀ x, s.levels x = 0 ∨ s.levels x = INVALID_LEVEL
  zero_source : ∀ x, s.levels x = 0 → x ∈ source_nodes
  near : ∀ x ∈ done, s.levels x = 0 ∧ ∀ t ∈ view.targets x, t ∈ source_nodes → s.levels t = 0

private theorem Enqueued.step {done : List NodeID} {node_id : NodeID} (enqueued : Enqueued view source_nodes done s)
    (source : node_id ∈ source_nodes) : Enqueued view source_nodes (done ++ [node_id]) (enqueueSource view source_nodes s node_id) := by
  obtain ⟨queue,two,zero_source,near⟩ := enqueued
  have levels : ∀ x, (enqueueSource view source_nodes s node_id).levels x =
      if x = node_id ∨ x ∈ view.targets node_id ∧ x ∈ source_nodes then 0 else s.levels x := by
    intro x
    rw [enqueueSource]
    dsimp only
    rw [foldl_zero]
    by_cases here : x = node_id
    · simp [here]
    · simp [here]
  have kept : ∀ x, s.levels x = 0 → (enqueueSource view source_nodes s node_id).levels x = 0 := by
    intro x zero
    rw [levels,zero,ite_self]
  refine ⟨?_,fun x => ?_,fun x zero => ?_,fun x member => ?_⟩
  · rw [← queue]
    rfl
  · rw [levels]
    split_ifs
    · exact .inl rfl
    · exact two x
  · rw [levels] at zero
    split_ifs at zero with marked
    · cases marked with
      | inl here => exact here ▸ source
      | inr near' => exact near'.2
    · exact zero_source x zero
  · cases mem_append.mp member with
    | inl earlier =>
      obtain ⟨zero,around⟩ := near x earlier
      exact ⟨kept x zero,fun t edge at_t => kept t (around t edge at_t)⟩
    | inr last =>
      obtain rfl := mem_singleton.mp last
      refine ⟨?_,fun t edge at_t => ?_⟩
      · rw [levels,if_pos (.inl rfl)]
      · rw [levels,if_pos (.inr ⟨edge,at_t⟩)]

private theorem mem_border {x : NodeID} :
    x ∈ source_nodes.filter (hasNeighborNotIn view source_nodes) ↔ Border view source_nodes x := by
  rw [mem_filter,hasNeighborNotIn_iff]
  rfl

private theorem Enqueued.levelled (inside : ∀ x ∈ source_nodes, x < view.NumberOfNodes)
    (enqueued : Enqueued view source_nodes (source_nodes.filter (hasNeighborNotIn view source_nodes)) s) :
    Levelled view source_nodes sink_nodes flow s := by
  obtain ⟨queue,two,zero_source,near⟩ := enqueued
  have zero : ∀ x, s.levels x ≠ INVALID_LEVEL → s.levels x = 0 := fun x given => (two x).resolve_right given
  have at_queue : ∀ x ∈ s.level_queue, Border view source_nodes x ∧ s.levels x = 0 := by
    intro x member
    rw [queue] at member
    exact ⟨mem_border.mp member,(near x member).1⟩
  constructor
  · intro x
    cases two x with
    | inl low => omega
    | inr high => exact high.le
  · exact fun x given => inside x (zero_source x (zero x given))
  · exact fun x _ given => zero x given
  · exact zero_source
  · exact fun x border => near x (mem_border.mpr border)
  · exact fun y given outside => absurd (zero_source y (zero y given)) outside
  · refine pairwise_of_forall_mem_list fun a at_a b at_b => ?_
    rw [(at_queue a at_a).2,(at_queue b at_b).2]
  · intro q member
    obtain ⟨border,low⟩ := at_queue q member
    exact ⟨zero_valid low,fun _ => border⟩
  · intro q member x given
    rw [zero x given]
    omega
  · intro x given _ border
    rw [queue]
    exact .inl (mem_border.mpr (border (zero_source x (zero x given))))

theorem levels_total (symmetric : view.Symmetric) (inside : ∀ x ∈ source_nodes, x < view.NumberOfNodes) (sink_nodes : List NodeID)
    (flow : FlowEdges) :
    ∃ fuel levels, (∀ more ≥ fuel, ComputeLevelGraph view source_nodes sink_nodes
        (source_nodes.filter (hasNeighborNotIn view source_nodes)) flow more = some levels) ∧
      Levelled view source_nodes sink_nodes flow ⟨levels,[]⟩ := by
  have enqueued := foldl_invariant (Enqueued view source_nodes) (source_nodes.filter (hasNeighborNotIn view source_nodes))
    (fun done s node_id member enqueued => enqueued.step (mem_of_mem_filter member)) ⟨fun _ => INVALID_LEVEL,[]⟩
    ⟨rfl,fun _ => .inr rfl,fun x zero => by simp [INVALID_LEVEL] at zero,by simp⟩
  obtain ⟨begun,begun_eq⟩ : ∃ begun, begun = (source_nodes.filter (hasNeighborNotIn view source_nodes)).foldl
    (enqueueSource view source_nodes) ⟨fun _ => INVALID_LEVEL,[]⟩ := ⟨_,rfl⟩
  rw [← begun_eq] at enqueued
  have start : Levelled view source_nodes sink_nodes flow begun := enqueued.levelled inside
  obtain ⟨final,ran,levelled,stopped⟩ := @whileLoop_total _ (fun s : LevelSearch => !s.level_queue.isEmpty)
    (relaxFront view sink_nodes flow) (Levelled view source_nodes sink_nodes flow) (levelWork view)
    (fun s levelled _ => relaxFront_levelled symmetric levelled) (fun s levelled more => relaxFront_work levelled (by simpa using more))
    (levelWork view begun) begun start le_rfl
  have empty : final.level_queue = [] := by simpa using stopped
  refine ⟨levelWork view begun,final.levels,fun more enough => ?_,?_⟩
  · rw [ComputeLevelGraph,← begun_eq,whileLoop_mono ran enough,Option.map_some]
  · rw [← empty]
    exact levelled

end Osrm.DinicMaxFlow
