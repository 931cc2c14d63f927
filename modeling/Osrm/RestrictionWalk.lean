import Osrm.RestrictionTransfers
import Osrm.SuffixTrie

/-!
A walk through the restriction graph, as `extractor/way_restriction_map.cpp` follows it: along the edge for the next
node, or else to the start node of the new edge of the walk.
-/
namespace Osrm.TurnRestrictions
open List Option
open Typedefs Slices SuffixTrie Permutation
open BisectionPartition (StdPartition)

variable {OpeningHours : Type}

namespace RestrictionGraph
variable (rg : RestrictionGraph OpeningHours)

def target (id : RestrictionID) (to_node : NodeID) : Option RestrictionID :=
  ((rg.GetEdges id).find? fun edge => edge.node_based_to == to_node).map (·.target)
/-- From one edge of a walk to the next one, `from_node` to `to_node`. -/
def move (state : Option RestrictionID) (from_node to_node : NodeID) : Option RestrictionID :=
  (state.bind fun id => rg.target id to_node).or (rg.start_edge_to_node (from_node,to_node))
def follow (walk : List NodeID) : Option RestrictionID :=
  (pairs walk).foldl (fun state edge => rg.move state edge.1 edge.2) none
def restrictionsAt : Option RestrictionID → List (Pointer OpeningHours)
  | some id => rg.GetRestrictions id
  | none => []

/-- `RemapIfRestrictionStart`, with the number of edge based nodes last. -/
def RemapIfRestrictionStart (edge_based_node node_based_from node_based_via node_based_to number_of_edge_based_nodes : NodeID) : NodeID :=
  match rg.start_edge_to_node (node_based_from,node_based_via) with
  | none => edge_based_node
  | some start_node =>
    match rg.target start_node node_based_to with
    | some target => number_of_edge_based_nodes - rg.num_via_nodes + target
    | none => edge_based_node

/-- `RemapIfRestrictionVia`; the via nodes are the last ones of the edge based nodes. -/
def RemapIfRestrictionVia (edge_based_target_node edge_based_via_node node_based_to number_of_edge_based_nodes : NodeID) : NodeID :=
  let duplicated_node_id := edge_based_via_node + rg.num_via_nodes - number_of_edge_based_nodes
  match rg.target duplicated_node_id node_based_to with
  | some target => number_of_edge_based_nodes - rg.num_via_nodes + target
  | none => edge_based_target_node

/-- The edge based node of the last edge of a walk: the duplicated node of a via node, or else the one of the edge. -/
def duplicateOr (edge_based_node number_of_edge_based_nodes : NodeID) : Option RestrictionID → NodeID
  | some id => if id < rg.num_via_nodes then number_of_edge_based_nodes - rg.num_via_nodes + id else edge_based_node
  | none => edge_based_node

end RestrictionGraph

/-- The restrictions that are active at the end of a walk: it ends with their from and via ways. -/
def Active (restrictions : List (Pointer OpeningHours)) (walk : List NodeID) (p : Pointer OpeningHours) : Prop :=
  p ∈ restrictions ∧ pathOf p <:+ walk
/-- No turn of the walk is forbidden by an unconditional restriction that is active there. -/
def Permitted (restrictions : List (Pointer OpeningHours)) (walk : List NodeID) : Prop :=
  ∀ w a, w ++ [a] <+: walk → ∀ p, Active restrictions w p → p.1.IsUnconditional = true → p.1.IsTurnRestricted a = false

private theorem Permitted.of_prefix {restrictions : List (Pointer OpeningHours)} {walk walk' : List NodeID}
    (permitted : Permitted restrictions walk') (begins : walk <+: walk') : Permitted restrictions walk :=
  fun w a inner => permitted w a (inner.trans begins)

private theorem pairs_concat (u : List NodeID) (b c : NodeID) : pairs (u ++ [b] ++ [c]) = pairs (u ++ [b]) ++ [(b,c)] := by
  induction u with
  | nil => rfl
  | cons a u ih =>
    cases u with
    | nil => rfl
    | cons d u => exact congrArg (List.cons (a,d)) ih

private theorem follow_concat (rg : RestrictionGraph OpeningHours) (u : List NodeID) (b c : NodeID) :
    rg.follow (u ++ [b] ++ [c]) = rg.move (rg.follow (u ++ [b])) b c := by
  rw [RestrictionGraph.follow,pairs_concat,foldl_append]
  rfl

section WayRestrictionMap
variable {rg : RestrictionGraph OpeningHours} {state : Option RestrictionID} {a b c : NodeID} {id : RestrictionID}

/-- All edges lead to via nodes and no start node is one, as the numbers of the via nodes tell. -/
structure ViaTargets (rg : RestrictionGraph OpeningHours) : Prop where
  targets : ∀ id, ∀ edge ∈ rg.GetEdges id, edge.target < rg.num_via_nodes
  starts : ∀ key id, rg.start_edge_to_node key = some id → rg.num_via_nodes ≤ id

private theorem ViaTargets.target_lt (via : ViaTargets rg) {target : RestrictionID} (found : rg.target id c = some target) :
    target < rg.num_via_nodes := by
  obtain ⟨edge,first,rfl⟩ := map_eq_some_iff.mp found
  exact via.targets id edge (mem_of_find?_eq_some first)

private theorem ViaTargets.duplicateOr_start (via : ViaTargets rg) (plain number : NodeID) :
    rg.duplicateOr plain number (rg.start_edge_to_node (b,c)) = plain := by
  cases start : rg.start_edge_to_node (b,c) with
  | none => rfl
  | some id => exact if_neg (Nat.not_lt.mpr (via.starts _ id start))

private theorem ViaTargets.remap_via (via : ViaTargets rg) (plain number : NodeID) (enough : rg.num_via_nodes ≤ number) :
    rg.RemapIfRestrictionVia plain (number - rg.num_via_nodes + id) c number = rg.duplicateOr plain number (rg.move (some id) b c) := by
  have number_id (via_nodes number id : ℕ) (enough : via_nodes ≤ number) : number - via_nodes + id + via_nodes - number = id := by omega
  rw [RestrictionGraph.RemapIfRestrictionVia,number_id _ _ _ enough,RestrictionGraph.move,bind_some]
  cases found : rg.target id c with
  | none => exact (via.duplicateOr_start plain number).symm
  | some target => exact (if_pos (via.target_lt found)).symm

private theorem ViaTargets.move_start (via : ViaTargets rg) (high : ∀ id, rg.move state a b = some id → rg.num_via_nodes ≤ id) :
    rg.move state a b = rg.start_edge_to_node (a,b) := by
  rw [RestrictionGraph.move]
  cases found : state.bind fun id => rg.target id b with
  | none => rfl
  | some target =>
    obtain ⟨id,-,leads⟩ := bind_eq_some_iff.mp found
    refine absurd (high target ?_) (Nat.not_le.mpr (via.target_lt leads))
    rw [RestrictionGraph.move,found]
    rfl

private theorem ViaTargets.remap_start (via : ViaTargets rg) (high : ∀ id, rg.move state a b = some id → rg.num_via_nodes ≤ id)
    (plain number : NodeID) :
    rg.RemapIfRestrictionStart plain a b c number = rg.duplicateOr plain number (rg.move (rg.move state a b) b c) := by
  rw [via.move_start high,RestrictionGraph.RemapIfRestrictionStart,RestrictionGraph.move]
  cases rg.start_edge_to_node (a,b) with
  | none => exact (via.duplicateOr_start plain number).symm
  | some id =>
    dsimp only [bind_some]
    cases found : rg.target id c with
    | none => exact (via.duplicateOr_start plain number).symm
    | some target => exact (if_pos (via.target_lt found)).symm

end WayRestrictionMap

section Walk
variable {known : List (Pointer OpeningHours)} {names : List (List NodeID)} {rg : RestrictionGraph OpeningHours}
variable {walk w : List NodeID} {id target : RestrictionID} {a b : NodeID} {state : Option RestrictionID}

private theorem PathNames.trie (paths : PathNames known names) : Trie (· ∈ names) 2 where
  some_letter := one_le_two
  long := paths.long
  init := paths.init

/-- The path of the node that a walk is at is the longest one that the walk ends with. -/
def Reached (names : List (List NodeID)) (walk : List NodeID) : Option RestrictionID → Prop
  | none => At (· ∈ names) walk none
  | some id => ∃ w, names[id]? = some w ∧ At (· ∈ names) walk (some w)

private theorem PathNames.reached_short (paths : PathNames known names) (short : walk.length < 2) : Reached names walk none :=
  fun v member ends => absurd (ends.length_le.trans_lt short) (Nat.not_lt.mpr (paths.long v member))

private theorem Linked.target_reached (linked : Linked known names (fun _ => True) rg) (paths : PathNames known names)
    (named : names[id]? = some w) (longest : Longest (· ∈ names) walk w) (found : rg.target id a = some target) :
    Reached names (walk ++ [a]) (some target) := by
  obtain ⟨edge,first,rfl⟩ := map_eq_some_iff.mp found
  obtain rfl : edge.node_based_to = a := by simpa using find?_some first
  obtain ⟨s,ends,enough,next,greatest⟩ := linked.leads id w named edge (mem_of_find?_eq_some first)
  exact ⟨_,next,longest.extend paths.trie enough (mem_of_getElem? next) ends fun v further ends' => greatest v ends' further⟩

private theorem Linked.target_none (linked : Linked known names (fun _ => True) rg) (named : names[id]? = some w) (ends : w <:+ walk)
    (permitted : Permitted known (walk ++ [a])) (absent : rg.target id a = none) {s : List NodeID} (ends' : s <:+ w) (member : s ∈ names) :
    s ++ [a] ∉ names := by
  intro next
  have free : ∀ p ∈ known, pathOf p = w → p.1.IsUnconditional = true → p.1.IsTurnRestricted a = false :=
    fun p inside same => permitted walk a (prefix_refl _) p ⟨inside,same ▸ ends⟩
  obtain ⟨edge,there,label⟩ := linked.complete id w named trivial s a ends' member next free
  have other := find?_eq_none.mp (map_eq_none_iff.mp absent) edge there
  exact other (beq_iff_eq.mpr label)

private theorem Linked.start_reached (linked : Linked known names (fun _ => True) rg) {u : List NodeID}
    (short : ∀ v ∈ names, v <:+ u ++ [b] ++ [a] → v.length = 2) :
    Reached names (u ++ [b] ++ [a]) (rg.start_edge_to_node (b,a)) := by
  have edge_ends : [b,a] <:+ u ++ [b] ++ [a] := ⟨u,by simp⟩
  cases start : rg.start_edge_to_node (b,a) with
  | none =>
    intro v member ends
    have same : v = [b,a] := by
      refine (suffix_of_suffix_length_le ends edge_ends ?_).eq_of_length ?_
      · rw [short v member ends]
        rfl
      · exact short v member ends
    obtain ⟨id,named⟩ := mem_iff_getElem?.mp (same ▸ member)
    rw [← linked.start,start] at named
    simp at named
  | some id =>
    have named := (linked.start b a id).mp start
    exact ⟨_,named,mem_of_getElem? named,edge_ends,fun v member ends => (short v member ends).le⟩

private theorem Linked.move_reached (linked : Linked known names (fun _ => True) rg) (paths : PathNames known names) {u : List NodeID}
    (reached : Reached names (u ++ [b]) state) (permitted : Permitted known (u ++ [b] ++ [a])) :
    Reached names (u ++ [b] ++ [a]) (rg.move state b a) := by
  cases state with
  | none =>
    have nowhere : At (· ∈ names) (u ++ [b]) none := reached
    exact linked.start_reached fun v member => length_of_stuck paths.trie nowhere (fun word same => absurd same (by simp)) member
  | some id =>
    obtain ⟨w,named,longest⟩ := reached
    rw [RestrictionGraph.move,bind_some]
    cases found : rg.target id a with
    | some target => exact linked.target_reached paths named longest found
    | none =>
      refine linked.start_reached fun v member => ?_
      have here : At (· ∈ names) (u ++ [b]) (some w) := longest
      refine length_of_stuck paths.trie here ?_ member
      intro word same stem ends enough next
      cases same
      exact linked.target_none named longest.ends permitted found ends (paths.init stem a next enough) next

private theorem Linked.follow_reached (linked : Linked known names (fun _ => True) rg) (paths : PathNames known names)
    (permitted : Permitted known walk) : Reached names walk (rg.follow walk) := by
  induction walk using List.reverseRecOn with
  | nil => exact paths.reached_short (by simp)
  | append_singleton walk a ih =>
    rcases eq_nil_or_concat' walk with rfl | ⟨u,b,rfl⟩
    · exact paths.reached_short (by simp)
    · rw [follow_concat]
      exact linked.move_reached paths (ih (permitted.of_prefix (prefix_append _ _))) permitted

private theorem Attached.restrictionsAt_iff (attached : Attached known names (fun _ => True) rg) (paths : PathNames known names)
    (reached : Reached names walk state) (p : Pointer OpeningHours) : p ∈ rg.restrictionsAt state ↔ Active known walk p := by
  cases state with
  | none => exact iff_of_false not_mem_nil fun active => reached _ (paths.paths p active.1) active.2
  | some id =>
    obtain ⟨w,named,longest⟩ := reached
    constructor
    · intro member
      obtain ⟨inside,ends⟩ := attached.sound id w named p member
      exact ⟨inside,ends.trans longest.ends⟩
    · rintro ⟨inside,ends⟩
      exact attached.endings id w named trivial p inside ((longest.suffix_iff (paths.paths p inside)).mp ends)

private theorem Linked.move_named (linked : Linked known names (fun _ => True) rg) (here : ∀ id, state = some id → ∃ w, names[id]? = some w)
    (moved : rg.move state b a = some target) : ∃ w, names[target]? = some w := by
  rcases or_eq_some_iff.mp moved with found | ⟨-,start⟩
  · obtain ⟨id,rfl,leads⟩ := bind_eq_some_iff.mp found
    obtain ⟨w,named⟩ := here id rfl
    obtain ⟨edge,first,rfl⟩ := map_eq_some_iff.mp leads
    obtain ⟨s,-,-,next,-⟩ := linked.leads id w named edge (mem_of_find?_eq_some first)
    exact ⟨_,next⟩
  · exact ⟨_,(linked.start b a target).mp start⟩

end Walk

/-! ### Renumbering -/

/-- The same graph with other ids, those of the via nodes in front. -/
structure Renumbered (f : RestrictionID → RestrictionID) (rg rg' : RestrictionGraph OpeningHours) : Prop where
  size : rg'.nodes.length = rg.nodes.length
  onto : ∀ id' < rg.nodes.length, ∃ id < rg.nodes.length, f id = id'
  starts : ∀ key, rg'.start_edge_to_node key = (rg.start_edge_to_node key).map f
  vias : ∀ id', (∃ key, (key,id') ∈ rg'.via_edge_to_node) ↔ ∃ id, is_via_node rg id = true ∧ f id = id'
  edges : ∀ id < rg.nodes.length, rg'.GetEdges (f id) = (rg.GetEdges id).map fun edge => { edge with target := f edge.target }
  restrictions : ∀ id < rg.nodes.length, rg'.GetRestrictions (f id) = rg.GetRestrictions id
  front : ∀ id < rg.nodes.length, f id < rg'.num_via_nodes ↔ is_via_node rg id = true

section Renumbering
variable {rg rg' : RestrictionGraph OpeningHours} {f : RestrictionID → RestrictionID} {id : RestrictionID}

private theorem partition_front (std : StdPartition) (p : NodeID → Bool) (l : List NodeID) {i : ℕ} {a : NodeID} (there : (std.run p l)[i]? = some a) :
    i < l.countP p ↔ p a = true := by
  obtain ⟨front,back,run,all,none⟩ := std.parts p l
  have count : l.countP p = front.length := by
    rw [← (std.perm p l).countP_eq,run,countP_append,countP_eq_length.mpr all,
      countP_eq_zero.mpr fun b member => by simp [none b member],add_zero]
  rw [run] at there
  rw [count]
  by_cases low : i < front.length
  · rw [getElem?_append_left low] at there
    exact iff_of_true low (all a (mem_of_getElem? there))
  · rw [getElem?_append_right (not_lt.mp low)] at there
    exact iff_of_false low (by simp [none a (mem_of_getElem? there)])

private theorem is_via_node_iff (rg : RestrictionGraph OpeningHours) (id : RestrictionID) :
    is_via_node rg id = true ↔ ∃ key, (key,id) ∈ rg.via_edge_to_node := by
  simp [is_via_node]

private theorem renumber_keyed (std : StdPartition) (rg : RestrictionGraph OpeningHours) : ∃ f, Renumbered f rg (renumber std rg) ∧
    (renumber std rg).via_edge_to_node = rg.via_edge_to_node.map (fun entry => (entry.1,f entry.2)) ∧
    ∀ id < rg.nodes.length, ∀ id' < rg.nodes.length, f id = f id' → id = id' := by
  have shuffled := std.perm (is_via_node rg) (List.range rg.nodes.length)
  have length : (std.run (is_via_node rg) (List.range rg.nodes.length)).length = rg.nodes.length := by
    rw [shuffled.length_eq,length_range]
  have bijective : Bijective (std.run (is_via_node rg) (List.range rg.nodes.length)) := by
    refine ⟨shuffled.nodup_iff.mpr nodup_range,fun i member => ?_⟩
    rw [length]
    exact mem_range.mp (shuffled.mem_iff.mp member)
  have permutation := orderingToPermutation_bijective bijective
  have length' := (orderingToPermutation_length bijective).trans length
  have moved {id : RestrictionID} (inside : id < rg.nodes.length) := inplacePermutation_getElem? permutation length'.symm inside
  refine ⟨fun id => (orderingToPermutation (std.run (is_via_node rg) (List.range rg.nodes.length))).getD id 0,
    ⟨?_,?_,?_,?_,?_,?_,?_⟩,rfl,?_⟩
  · exact inplacePermutation_length permutation length'.symm
  · intro id' inside
    obtain ⟨id,below,found⟩ := permutation.surjective (length'.symm ▸ inside)
    exact ⟨id,length' ▸ below,found⟩
  · exact fun key => rfl
  · intro id'
    constructor
    · rintro ⟨key,member⟩
      obtain ⟨entry,old,same⟩ := mem_map.mp member
      obtain ⟨rfl,rfl⟩ := Prod.mk.inj same
      exact ⟨entry.2,(is_via_node_iff rg entry.2).mpr ⟨entry.1,old⟩,rfl⟩
    · rintro ⟨id,via,rfl⟩
      obtain ⟨key,old⟩ := (is_via_node_iff rg id).mp via
      exact ⟨key,mem_map.mpr ⟨(key,id),old,rfl⟩⟩
  · intro id inside
    simp only [RestrictionGraph.GetEdges,renumber,moved inside]
    cases rg.nodes[id]? with
    | none => rfl
    | some node => exact slice_map _ _ _ _
  · intro id inside
    simp only [RestrictionGraph.GetRestrictions,renumber,moved inside]
  · intro id inside
    obtain ⟨i,below,rfl⟩ := bijective.surjective (length.symm ▸ inside)
    have place := orderingToPermutation_ordering bijective below
    have there : (std.run (is_via_node rg) (List.range rg.nodes.length))[i]? =
        some ((std.run (is_via_node rg) (List.range rg.nodes.length)).getD i 0) := by
      rw [getElem?_eq_getElem below,getD_eq_getElem _ _ below]
    rw [getD_eq_getElem?_getD,place,getD_some]
    exact partition_front std _ _ there
  · exact fun id inside id' inside' => permutation.injective (length'.symm ▸ inside) (length'.symm ▸ inside')

private theorem renumber_spec (std : StdPartition) (rg : RestrictionGraph OpeningHours) : ∃ f, Renumbered f rg (renumber std rg) := by
  obtain ⟨f,renumbered,_⟩ := renumber_keyed std rg
  exact ⟨f,renumbered⟩

namespace Renumbered

private theorem target_eq (renumbered : Renumbered f rg rg') (inside : id < rg.nodes.length) (to_node : NodeID) :
    rg'.target (f id) to_node = (rg.target id to_node).map f := by
  rw [RestrictionGraph.target,RestrictionGraph.target,renumbered.edges id inside,find?_map,Option.map_map,Option.map_map]
  rfl

variable {known : List (Pointer OpeningHours)} {names : List (List NodeID)}

private theorem follow_eq (renumbered : Renumbered f rg rg') (linked : Linked known names (fun _ => True) rg) (walk : List NodeID) :
    rg'.follow walk = (rg.follow walk).map f ∧ ∀ id, rg.follow walk = some id → ∃ w, names[id]? = some w := by
  rw [RestrictionGraph.follow,RestrictionGraph.follow]
  generalize pairs walk = steps
  induction steps using List.reverseRecOn with
  | nil => exact ⟨rfl,fun id none => by simp at none⟩
  | append_singleton steps edge ih =>
    rw [foldl_concat,foldl_concat]
    obtain ⟨same,here⟩ := ih
    refine ⟨?_,fun id moved => linked.move_named here moved⟩
    rw [same,RestrictionGraph.move,RestrictionGraph.move,renumbered.starts,map_or]
    cases state : steps.foldl (fun state edge => rg.move state edge.1 edge.2) none with
    | none => rfl
    | some id =>
      obtain ⟨w,named⟩ := here id state
      rw [map_some,bind_some,bind_some,renumbered.target_eq (linked.inside named)]

private theorem restrictionsAt_eq (renumbered : Renumbered f rg rg') (linked : Linked known names (fun _ => True) rg) (walk : List NodeID) :
    rg'.restrictionsAt (rg'.follow walk) = rg.restrictionsAt (rg.follow walk) := by
  obtain ⟨same,here⟩ := renumbered.follow_eq linked walk
  rw [same]
  cases state : rg.follow walk with
  | none => rfl
  | some id =>
    obtain ⟨w,named⟩ := here id state
    exact renumbered.restrictions id (linked.inside named)

private theorem labels (renumbered : Renumbered f rg rg') (linked : Linked known names (fun _ => True) rg) (id' : RestrictionID) :
    ((rg'.GetEdges id').map (·.node_based_to)).Nodup := by
  rcases Nat.lt_or_ge id' rg.nodes.length with inside | beyond
  · obtain ⟨id,below,rfl⟩ := renumbered.onto id' inside
    rw [renumbered.edges id below,List.map_map]
    exact linked.labels id
  · rw [RestrictionGraph.GetEdges,getElem?_eq_none (renumbered.size.le.trans beyond)]
    exact nodup_nil

private theorem once_iff (renumbered : Renumbered f rg rg') :
    (∀ id', (rg'.GetRestrictions id').Nodup) ↔ ∀ id, (rg.GetRestrictions id).Nodup := by
  have beyond_none {graph : RestrictionGraph OpeningHours} (id : RestrictionID) (beyond : graph.nodes.length ≤ id) :
      (graph.GetRestrictions id).Nodup := by
    rw [RestrictionGraph.GetRestrictions,getElem?_eq_none beyond]
    exact nodup_nil
  constructor
  · intro once id
    rcases Nat.lt_or_ge id rg.nodes.length with inside | beyond
    · exact renumbered.restrictions id inside ▸ once (f id)
    · exact beyond_none id beyond
  · intro once id'
    rcases Nat.lt_or_ge id' rg.nodes.length with inside | beyond
    · obtain ⟨id,below,rfl⟩ := renumbered.onto id' inside
      exact (renumbered.restrictions id below).symm ▸ once id
    · exact beyond_none id' (renumbered.size.le.trans beyond)

private theorem via_iff (renumbered : Renumbered f rg rg') (linked : Linked known names (fun _ => True) rg)
    (room : rg'.num_via_nodes ≤ rg.nodes.length) (id' : RestrictionID) :
    (∃ key, (key,id') ∈ rg'.via_edge_to_node) ↔ id' < rg'.num_via_nodes := by
  rw [renumbered.vias]
  constructor
  · rintro ⟨id,via,rfl⟩
    obtain ⟨w,named,-⟩ := (linked.via id).mp ((is_via_node_iff rg id).mp via)
    exact (renumbered.front id (linked.inside named)).mpr via
  · intro low
    obtain ⟨id,below,rfl⟩ := renumbered.onto id' (low.trans_le room)
    exact ⟨id,(renumbered.front id below).mp low,rfl⟩

private theorem viaTargets (renumbered : Renumbered f rg rg') (linked : Linked known names (fun _ => True) rg) : ViaTargets rg' := by
  constructor
  · intro id' edge' member'
    rcases Nat.lt_or_ge id' rg.nodes.length with inside | beyond
    · obtain ⟨id,below,rfl⟩ := renumbered.onto id' inside
      rw [renumbered.edges id below] at member'
      obtain ⟨edge,member,rfl⟩ := mem_map.mp member'
      obtain ⟨w,named⟩ : ∃ w, names[id]? = some w := ⟨_,getElem?_eq_getElem (linked.size ▸ below)⟩
      obtain ⟨s,-,enough,next,-⟩ := linked.leads id w named edge member
      have long : 3 ≤ (s ++ [edge.node_based_to]).length := by
        rw [length_append,length_singleton]
        omega
      exact (renumbered.front _ (linked.inside next)).mpr ((is_via_node_iff rg _).mpr ((linked.via _).mpr ⟨_,next,long⟩))
    · rw [RestrictionGraph.GetEdges,getElem?_eq_none (renumbered.size.le.trans beyond)] at member'
      exact absurd member' not_mem_nil
  · intro key id' start
    rw [renumbered.starts] at start
    obtain ⟨id,old,rfl⟩ := map_eq_some_iff.mp start
    have named := (linked.start key.1 key.2 id).mp old
    rw [← Nat.not_lt,renumbered.front id (linked.inside named),is_via_node_iff,linked.via]
    rintro ⟨w,named',long⟩
    obtain rfl := some.inj (named.symm.trans named')
    simp at long

end Renumbered
end Renumbering

private theorem zipIdx_nodup {α : Type} (l : List α) : l.zipIdx.Nodup := by
  apply Nodup.of_map Prod.snd
  rw [zipIdx_map_snd]
  exact nodup_range'

/-- The way restriction map follows the walks: from the node of a walk it goes to that of the walk with one node more;
    `plain` is the edge based node of the new edge. -/
theorem remap_follows (std : StdPartition) (turn_restrictions : List (TurnRestriction OpeningHours)) (u : List NodeID)
    (a b c plain number : NodeID) :
    let rg := constructRestrictionGraph std turn_restrictions
    rg.num_via_nodes ≤ number →
    (∀ id, rg.follow (u ++ [a] ++ [b]) = some id → id < rg.num_via_nodes →
      rg.RemapIfRestrictionVia plain (number - rg.num_via_nodes + id) c number =
        rg.duplicateOr plain number (rg.follow (u ++ [a] ++ [b] ++ [c]))) ∧
    ((∀ id, rg.follow (u ++ [a] ++ [b]) = some id → rg.num_via_nodes ≤ id) →
      rg.RemapIfRestrictionStart plain a b c number = rg.duplicateOr plain number (rg.follow (u ++ [a] ++ [b] ++ [c]))) := by
  intro rg enough
  obtain ⟨_,paths,visiting⟩ := built turn_restrictions.zipIdx
  have linked := visiting.linkedAll paths
  obtain ⟨_,renumbered⟩ := renumber_spec std
    (buildTransfers (buildPaths RestrictionGraph.empty turn_restrictions.zipIdx) turn_restrictions.zipIdx)
  have via : ViaTargets rg := renumbered.viaTargets linked
  rw [follow_concat rg (u ++ [a]) b c]
  constructor
  · intro id here _
    rw [here]
    exact via.remap_via plain number enough
  · rw [follow_concat]
    exact fun high => via.remap_start high plain number

/-- On the graph of the lists a walk that takes no forbidden turn is at the node whose restrictions are the active ones. No
    two edges of a node are for the same next node, and the via nodes are in front. -/
theorem restriction_graph_tracks (std : StdPartition) (turn_restrictions : List (TurnRestriction OpeningHours)) :
    let rg := constructRestrictionGraph std turn_restrictions
    (∀ walk, Permitted turn_restrictions.zipIdx walk →
      ∀ p, p ∈ rg.restrictionsAt (rg.follow walk) ↔ Active turn_restrictions.zipIdx walk p) ∧
    (∀ id, ((rg.GetEdges id).map (·.node_based_to)).Nodup) ∧
    ∀ id, (∃ key, (key,id) ∈ rg.via_edge_to_node) ↔ id < rg.num_via_nodes := by
  obtain ⟨names,paths,visiting⟩ := built turn_restrictions.zipIdx
  have linked := visiting.linkedAll paths
  have attached := visiting.attachedAll paths
  obtain ⟨f,renumbered⟩ := renumber_spec std
    (buildTransfers (buildPaths RestrictionGraph.empty turn_restrictions.zipIdx) turn_restrictions.zipIdx)
  refine ⟨fun walk permitted p => ?_,renumbered.labels linked,renumbered.via_iff linked ?_⟩
  · rw [constructRestrictionGraph,renumbered.restrictionsAt_eq linked]
    exact attached.restrictionsAt_iff paths (linked.follow_reached paths permitted) p
  · exact countP_le_length.trans length_range.le

/-- No node has a restriction twice exactly where no visit takes over from a node that was visited before and has a
    restriction of a shorter path. -/
theorem restrictions_once_iff (std : StdPartition) (turn_restrictions : List (TurnRestriction OpeningHours)) :
    (∀ id, ((constructRestrictionGraph std turn_restrictions).GetRestrictions id).Nodup) ↔
      Unrepeated turn_restrictions.zipIdx (visits turn_restrictions.zipIdx) := by
  obtain ⟨_,_,visiting⟩ := built turn_restrictions.zipIdx
  obtain ⟨f,renumbered⟩ := renumber_spec std
    (buildTransfers (buildPaths RestrictionGraph.empty turn_restrictions.zipIdx) turn_restrictions.zipIdx)
  rw [← visiting.once (zipIdx_nodup turn_restrictions)]
  exact renumbered.once_iff

/-- The example that the header explains the graph with. -/
example : let restrictions : List (TurnRestriction ℕ) := [⟨.ViaWayPath 0 [1,3] 4 (by simp),false,[]⟩,
      ⟨.ViaWayPath 0 [1,2] 3 (by simp),true,[]⟩,⟨.ViaWayPath 1 [2,3] 5 (by simp),true,[]⟩,⟨.ViaNodePath 1 2 6,false,[]⟩,
      ⟨.ViaWayPath 4 [1,3] 6 (by simp),false,[]⟩]
    Unrepeated restrictions.zipIdx (visits restrictions.zipIdx) := by decide

end Osrm.TurnRestrictions
