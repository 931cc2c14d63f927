import Osrm.Typedefs

/-!
`find_via_way_path` of `extractor/extraction_containers.cpp`: the nodes of a turn restriction over ways. Each way may be
passed in either direction, and the direction is taken from the first end that fits.
-/
namespace Osrm.ViaWays
open List Option
open Typedefs

abbrev OSMNodeID := ℕ
abbrev OSMWayID := ℕ
def SPECIAL_OSM_NODEID : OSMNodeID := 18446744073709551615

/-- `NodesOfWay`; its accessors assert that there is a segment. -/
structure NodesOfWay where
  way_id : OSMWayID
  node_ids : List OSMNodeID
  some_segment : 1 < node_ids.length

namespace NodesOfWay
variable (way : NodesOfWay)

def first_segment_source_id : OSMNodeID := way.node_ids.get ⟨0,Nat.zero_lt_of_lt way.some_segment⟩
def first_segment_target_id : OSMNodeID := way.node_ids.get ⟨1,way.some_segment⟩
def last_segment_source_id : OSMNodeID :=
  way.node_ids.get ⟨way.node_ids.length - 2,Nat.sub_lt (Nat.zero_lt_of_lt way.some_segment) Nat.two_pos⟩
def last_segment_target_id : OSMNodeID :=
  way.node_ids.get ⟨way.node_ids.length - 1,Nat.sub_lt (Nat.zero_lt_of_lt way.some_segment) Nat.one_pos⟩
def directions : List (List OSMNodeID) := [way.node_ids,way.node_ids.reverse]

end NodesOfWay

/-- `ViaWayPath`, where a path that is not connected has no via node. -/
structure ViaWayPath where
  from_node : ℕ
  via : List ℕ
  to_node : ℕ
  deriving DecidableEq, Repr

def unconnected : ViaWayPath := ⟨SPECIAL_NODEID,[],SPECIAL_NODEID⟩

/-- The node before the turn, the node of the turn and the node after it. -/
def find_turn_nodes (from_way via : NodesOfWay) (intersection_node : OSMNodeID) : OSMNodeID × OSMNodeID × OSMNodeID :=
  let first := intersection_node == SPECIAL_OSM_NODEID || intersection_node == from_way.first_segment_source_id
  let last := intersection_node == SPECIAL_OSM_NODEID || intersection_node == from_way.last_segment_target_id
  if first && from_way.first_segment_source_id == via.first_segment_source_id then
    (from_way.first_segment_target_id,via.first_segment_source_id,via.first_segment_target_id)
  else if first && from_way.first_segment_source_id == via.last_segment_target_id then
    (from_way.first_segment_target_id,via.last_segment_target_id,via.last_segment_source_id)
  else if last && from_way.last_segment_target_id == via.first_segment_source_id then
    (from_way.last_segment_source_id,via.first_segment_source_id,via.first_segment_target_id)
  else if last && from_way.last_segment_target_id == via.last_segment_target_id then
    (from_way.last_segment_source_id,via.last_segment_target_id,via.last_segment_source_id)
  else (SPECIAL_OSM_NODEID,SPECIAL_OSM_NODEID,SPECIAL_OSM_NODEID)

variable (to_internal_node : OSMNodeID → NodeID)

/-- The loop over the via ways, with the via nodes so far and the node at which the next way has to start. -/
def viaNodes (via : List NodeID) (next_connection : OSMNodeID) : List NodesOfWay → Option (List NodeID × OSMNodeID)
  | [] => some (via,next_connection)
  | via_way :: via_ways =>
    if next_connection == via_way.first_segment_source_id then
      viaNodes (via ++ via_way.node_ids.tail.map to_internal_node) via_way.last_segment_target_id via_ways
    else if next_connection == via_way.last_segment_target_id then
      viaNodes (via ++ via_way.node_ids.reverse.tail.map to_internal_node) via_way.first_segment_source_id via_ways
    else none

/-- The node of the to way behind the connection. -/
def toNode (next_connection : OSMNodeID) (to_way : NodesOfWay) : Option NodeID :=
  if next_connection == to_way.first_segment_source_id then some (to_internal_node to_way.first_segment_target_id)
  else if next_connection == to_way.last_segment_target_id then some (to_internal_node to_way.last_segment_source_id)
  else none

def find_via_way_path (from_way : NodesOfWay) (via_ways : List NodesOfWay) (some_via : via_ways ≠ []) (to_way : NodesOfWay) :
    ViaWayPath :=
  let turn := find_turn_nodes from_way (via_ways.head some_via) SPECIAL_OSM_NODEID
  if turn.2.1 == SPECIAL_OSM_NODEID then unconnected
  else match viaNodes to_internal_node [to_internal_node turn.2.1] turn.2.1 via_ways with
    | none => unconnected
    | some (via,next_connection) =>
      match toNode to_internal_node next_connection to_way with
      | none => unconnected
      | some to_node => ⟨to_internal_node turn.1,via,to_node⟩

def ViaWayPath.internal (path : ViaWayPath) : ViaWayPath :=
  ⟨to_internal_node path.from_node,path.via.map to_internal_node,to_internal_node path.to_node⟩

/-! ### Paths through the ways -/

/-- From a node all the ways can be passed, one after the other, by these nodes and up to the last one. -/
inductive Leads : OSMNodeID → List NodesOfWay → List OSMNodeID → OSMNodeID → Prop
  | done (node : OSMNodeID) : Leads node [] [] node
  | along {node middle finish : OSMNodeID} {way : NodesOfWay} {ways : List NodesOfWay} {nodes more : List OSMNodeID}
      (passed : node :: nodes ∈ way.directions) (last : (node :: nodes).getLast? = some middle)
      (rest : Leads middle ways more finish) : Leads node (way :: ways) (nodes ++ more) finish

def Leaves (way : NodesOfWay) (node finish : OSMNodeID) : Prop := ∃ before, before ++ [node,finish] ∈ way.directions
def Enters (way : NodesOfWay) (start node : OSMNodeID) : Prop := ∃ after, start :: node :: after ∈ way.directions
/-- A path out of the from way, along every via way completely and in order, and one node into the to way. -/
def IsRoute (from_way : NodesOfWay) (via_ways : List NodesOfWay) (to_way : NodesOfWay) (path : ViaWayPath) : Prop :=
  ∃ start nodes finish, Leaves from_way path.from_node start ∧ Leads start via_ways nodes finish ∧ path.via = start :: nodes ∧
    Enters to_way finish path.to_node
def AlongWay (ways : List NodesOfWay) (left right : OSMNodeID) : Prop :=
  ∃ way ∈ ways, ∃ nodes ∈ way.directions, [left,right] <:+: nodes
def Reaches (start : OSMNodeID) (via_ways : List NodesOfWay) (to_way : NodesOfWay) : Prop :=
  ∃ nodes finish node, Leads start via_ways nodes finish ∧ Enters to_way finish node

/-- The first end of the from way, if it is one of the first via way, and else the last. -/
def sharedEnd (from_way first_via : NodesOfWay) : OSMNodeID :=
  if from_way.first_segment_source_id = first_via.first_segment_source_id ∨
      from_way.first_segment_source_id = first_via.last_segment_target_id then from_way.first_segment_source_id
  else from_way.last_segment_target_id

section Ways
variable {way from_way first_via to_way : NodesOfWay} {via_ways : List NodesOfWay} {node start finish : OSMNodeID}
  {nodes : List OSMNodeID}

private theorem mem_directions : nodes ∈ way.directions ↔ nodes = way.node_ids ∨ nodes = way.node_ids.reverse := by
  simp [NodesOfWay.directions]
private theorem reverse_mem_directions : nodes.reverse ∈ way.directions ↔ nodes ∈ way.directions := by
  rw [mem_directions,mem_directions,reverse_eq_iff,reverse_inj,or_comm]

private theorem exists_segments (way : NodesOfWay) :
    (∃ after, way.node_ids = way.first_segment_source_id :: way.first_segment_target_id :: after) ∧
      ∃ before, way.node_ids.reverse = way.last_segment_target_id :: way.last_segment_source_id :: before := by
  obtain ⟨way_id,node_ids,some_segment⟩ := way
  constructor
  · match node_ids, some_segment with
    | first :: second :: after, _ => exact ⟨after,rfl⟩
  · refine ⟨node_ids.reverse.drop 2,?_⟩
    have long : 1 < node_ids.reverse.length := by simpa using some_segment
    have cut := drop_eq_getElem_cons (Nat.zero_lt_of_lt long)
    rw [drop_zero,drop_eq_getElem_cons long] at cut
    rw [cut,getElem_reverse,getElem_reverse]
    rfl

private theorem along_iff : start :: nodes ∈ way.directions ↔
    start = way.first_segment_source_id ∧ nodes = way.node_ids.tail ∨
      start = way.last_segment_target_id ∧ nodes = way.node_ids.reverse.tail := by
  obtain ⟨⟨after,forward⟩,before,backward⟩ := exists_segments way
  rw [mem_directions,backward,forward,List.cons.injEq,List.cons.injEq]
  rfl

private theorem enters_iff : Enters way start node ↔
    start = way.first_segment_source_id ∧ node = way.first_segment_target_id ∨
      start = way.last_segment_target_id ∧ node = way.last_segment_source_id := by
  obtain ⟨⟨after,forward⟩,before,backward⟩ := exists_segments way
  simp only [Enters,along_iff]
  rw [backward,forward]
  simp only [tail_cons,List.cons.injEq]
  constructor
  · rintro ⟨rest,⟨here,next,-⟩ | ⟨here,next,-⟩⟩
    · exact .inl ⟨here,next⟩
    · exact .inr ⟨here,next⟩
  · rintro (⟨here,next⟩ | ⟨here,next⟩)
    · exact ⟨after,.inl ⟨here,next,rfl⟩⟩
    · exact ⟨before,.inr ⟨here,next,rfl⟩⟩

private theorem leaves_iff_enters : Leaves way node start ↔ Enters way start node := by
  constructor
  · rintro ⟨before,passed⟩
    exact ⟨before.reverse,reverse_mem_directions.mp (by simpa using passed)⟩
  · rintro ⟨after,passed⟩
    exact ⟨after.reverse,reverse_mem_directions.mp (by simpa using passed)⟩

private theorem passes_iff : start :: nodes ∈ way.directions ∧ (start :: nodes).getLast? = some finish ↔
    start = way.first_segment_source_id ∧ nodes = way.node_ids.tail ∧ finish = way.last_segment_target_id ∨
      start = way.last_segment_target_id ∧ nodes = way.node_ids.reverse.tail ∧ finish = way.first_segment_source_id := by
  obtain ⟨⟨after,forward⟩,before,backward⟩ := exists_segments way
  have last : way.node_ids.getLast? = some way.last_segment_target_id := by
    rw [← head?_reverse,backward,head?_cons]
  have first : way.node_ids.reverse.getLast? = some way.first_segment_source_id := by
    rw [getLast?_reverse,forward,head?_cons]
  have whole : way.first_segment_source_id :: way.node_ids.tail = way.node_ids := by rw [forward,tail_cons]
  have reversed : way.last_segment_target_id :: way.node_ids.reverse.tail = way.node_ids.reverse := by
    rw [backward,tail_cons]
  rw [along_iff]
  constructor
  · rintro ⟨⟨rfl,rfl⟩ | ⟨rfl,rfl⟩,final⟩
    · rw [whole,last,some.injEq] at final
      exact .inl ⟨rfl,rfl,final.symm⟩
    · rw [reversed,first,some.injEq] at final
      exact .inr ⟨rfl,rfl,final.symm⟩
  · rintro (⟨rfl,rfl,rfl⟩ | ⟨rfl,rfl,rfl⟩)
    · exact ⟨.inl ⟨rfl,rfl⟩,by rw [whole,last]⟩
    · exact ⟨.inr ⟨rfl,rfl⟩,by rw [reversed,first]⟩

private theorem isEnd_of_leads (leads : Leads start (way :: via_ways) nodes finish) :
    start = way.first_segment_source_id ∨ start = way.last_segment_target_id := by
  cases leads with
  | along passed last rest => exact (along_iff.mp passed).imp And.left And.left

/-- What the loop can say: nodes along the ways and the only node to which they lead, or that there is none. -/
def Follows (via : List NodeID) (start : OSMNodeID) (via_ways : List NodesOfWay) : Option (List NodeID × OSMNodeID) → Prop
  | some (result,next_connection) =>
    (∃ nodes, Leads start via_ways nodes next_connection ∧ result = via ++ nodes.map to_internal_node) ∧
      ∀ nodes finish, Leads start via_ways nodes finish → finish = next_connection
  | none => ∀ nodes finish, ¬ Leads start via_ways nodes finish

variable {to_internal_node} in
private theorem Follows.step {via : List NodeID} {middle : OSMNodeID} {result : Option (List NodeID × OSMNodeID)}
    (passed : start :: nodes ∈ way.directions) (last : (start :: nodes).getLast? = some middle)
    (only : ∀ others other, start :: others ∈ way.directions ∧ (start :: others).getLast? = some other → other = middle)
    (rest : Follows to_internal_node (via ++ nodes.map to_internal_node) middle via_ways result) :
    Follows to_internal_node via start (way :: via_ways) result := by
  cases result with
  | some found =>
    obtain ⟨⟨more,leads,same⟩,unique⟩ := rest
    refine ⟨⟨nodes ++ more,.along passed last leads,by rw [same,map_append,append_assoc]⟩,?_⟩
    rintro _ finish leads
    cases leads with
    | along other_passed other_last leads =>
      rw [only _ _ ⟨other_passed,other_last⟩] at leads
      exact unique _ _ leads
  | none =>
    rintro _ finish leads
    cases leads with
    | along other_passed other_last leads =>
      rw [only _ _ ⟨other_passed,other_last⟩] at leads
      exact rest _ _ leads

private theorem viaNodes_follows (via : List NodeID) (start : OSMNodeID) (via_ways : List NodesOfWay) :
    Follows to_internal_node via start via_ways (viaNodes to_internal_node via start via_ways) := by
  induction via_ways generalizing via start with
  | nil => exact ⟨⟨[],.done start,by simp⟩,fun _ _ leads => by cases leads; rfl⟩
  | cons way via_ways ih =>
    rw [viaNodes]
    by_cases first : start = way.first_segment_source_id
    · obtain ⟨passed,last⟩ := passes_iff.mpr (.inl ⟨first,rfl,rfl⟩)
      rw [if_pos (beq_iff_eq.mpr first)]
      refine Follows.step passed last (fun others other passes => ?_) (ih _ _)
      rcases passes_iff.mp passes with ⟨-,-,same⟩ | ⟨here,-,same⟩
      · exact same
      · exact same.trans (first.symm.trans here)
    rw [if_neg (by simpa using first)]
    by_cases final : start = way.last_segment_target_id
    · obtain ⟨passed,last⟩ := passes_iff.mpr (.inr ⟨final,rfl,rfl⟩)
      rw [if_pos (beq_iff_eq.mpr final)]
      refine Follows.step passed last (fun others other passes => ?_) (ih _ _)
      rcases passes_iff.mp passes with ⟨here,-,-⟩ | ⟨-,-,same⟩
      · exact absurd here first
      · exact same
    · rw [if_neg (by simpa using final)]
      exact fun nodes finish leads => (isEnd_of_leads leads).elim first final

private theorem toNode_spec (finish : OSMNodeID) (to_way : NodesOfWay) :
    match toNode to_internal_node finish to_way with
    | some to_node => ∃ node, Enters to_way finish node ∧ to_node = to_internal_node node
    | none => ∀ node, ¬ Enters to_way finish node := by
  rw [toNode]
  split
  · rename_i found
    split at found
    · rename_i first
      exact ⟨_,enters_iff.mpr (.inl ⟨beq_iff_eq.mp first,rfl⟩),(some.inj found).symm⟩
    split at found
    · rename_i last
      exact ⟨_,enters_iff.mpr (.inr ⟨beq_iff_eq.mp last,rfl⟩),(some.inj found).symm⟩
    · cases found
  · rename_i missing
    split at missing
    · cases missing
    split at missing
    · cases missing
    · rename_i first last
      intro node enters
      rcases enters_iff.mp enters with ⟨here,-⟩ | ⟨here,-⟩
      · exact first (beq_iff_eq.mpr here)
      · exact last (beq_iff_eq.mpr here)

private theorem find_turn_nodes_shared (shared : sharedEnd from_way first_via = first_via.first_segment_source_id ∨
    sharedEnd from_way first_via = first_via.last_segment_target_id) :
    (find_turn_nodes from_way first_via SPECIAL_OSM_NODEID).2.1 = sharedEnd from_way first_via ∧
      Leaves from_way (find_turn_nodes from_way first_via SPECIAL_OSM_NODEID).1 (sharedEnd from_way first_via) := by
  simp only [find_turn_nodes,BEq.rfl,Bool.true_or,Bool.true_and,beq_iff_eq,leaves_iff_enters]
  by_cases first : from_way.first_segment_source_id = first_via.first_segment_source_id
  · rw [if_pos first,sharedEnd,if_pos (.inl first)]
    exact ⟨first.symm,enters_iff.mpr (.inl ⟨rfl,rfl⟩)⟩
  rw [if_neg first]
  by_cases last : from_way.first_segment_source_id = first_via.last_segment_target_id
  · rw [if_pos last,sharedEnd,if_pos (.inr last)]
    exact ⟨last.symm,enters_iff.mpr (.inl ⟨rfl,rfl⟩)⟩
  rw [if_neg last]
  have final : sharedEnd from_way first_via = from_way.last_segment_target_id := if_neg (not_or.mpr ⟨first,last⟩)
  rw [final] at shared ⊢
  by_cases here : from_way.last_segment_target_id = first_via.first_segment_source_id
  · rw [if_pos here]
    exact ⟨here.symm,enters_iff.mpr (.inr ⟨rfl,rfl⟩)⟩
  · have there := shared.resolve_left here
    rw [if_neg here,if_pos there]
    exact ⟨there.symm,enters_iff.mpr (.inr ⟨rfl,rfl⟩)⟩

private theorem find_turn_nodes_apart (apart : ¬ (sharedEnd from_way first_via = first_via.first_segment_source_id ∨
    sharedEnd from_way first_via = first_via.last_segment_target_id)) :
    (find_turn_nodes from_way first_via SPECIAL_OSM_NODEID).2.1 = SPECIAL_OSM_NODEID := by
  rw [sharedEnd] at apart
  split_ifs at apart with shared
  · exact absurd shared apart
  · simp only [not_or] at shared apart
    simp [find_turn_nodes,shared.1,shared.2,apart.1,apart.2]

private theorem find_via_way_path_spec (from_way first_via to_way : NodesOfWay) (via_ways : List NodesOfWay) :
    ((sharedEnd from_way first_via ≠ SPECIAL_OSM_NODEID ∧ Reaches (sharedEnd from_way first_via) (first_via :: via_ways) to_way) →
      ∃ path, IsRoute from_way (first_via :: via_ways) to_way path ∧
        find_via_way_path to_internal_node from_way (first_via :: via_ways) (cons_ne_nil _ _) to_way =
          path.internal to_internal_node) ∧
    (¬ (sharedEnd from_way first_via ≠ SPECIAL_OSM_NODEID ∧ Reaches (sharedEnd from_way first_via) (first_via :: via_ways) to_way) →
      find_via_way_path to_internal_node from_way (first_via :: via_ways) (cons_ne_nil _ _) to_way = unconnected) := by
  simp only [find_via_way_path,head_cons,beq_iff_eq]
  by_cases shared : sharedEnd from_way first_via = first_via.first_segment_source_id ∨
      sharedEnd from_way first_via = first_via.last_segment_target_id
  swap
  · rw [if_pos (find_turn_nodes_apart shared)]
    refine ⟨?_,fun _ => rfl⟩
    rintro ⟨-,nodes,finish,node,leads,-⟩
    exact absurd (isEnd_of_leads leads) shared
  obtain ⟨turn,leaves⟩ := find_turn_nodes_shared shared
  rw [turn]
  by_cases special : sharedEnd from_way first_via = SPECIAL_OSM_NODEID
  · rw [if_pos special]
    exact ⟨fun both => absurd special both.1,fun _ => rfl⟩
  rw [if_neg special]
  have follows := viaNodes_follows to_internal_node
    [to_internal_node (sharedEnd from_way first_via)] (sharedEnd from_way first_via) (first_via :: via_ways)
  cases found : viaNodes to_internal_node [to_internal_node (sharedEnd from_way first_via)] (sharedEnd from_way first_via)
      (first_via :: via_ways) with
  | none =>
    rw [found] at follows
    refine ⟨?_,fun _ => rfl⟩
    rintro ⟨-,nodes,finish,node,leads,-⟩
    exact absurd leads (follows nodes finish)
  | some result =>
    rw [found] at follows
    obtain ⟨⟨nodes,leads,same⟩,unique⟩ := follows
    have enters := toNode_spec to_internal_node result.2 to_way
    cases entered : toNode to_internal_node result.2 to_way with
    | none =>
      rw [entered] at enters
      simp only [entered,implies_true,and_true]
      rintro ⟨-,others,finish,node,other_leads,inside⟩
      exact absurd (unique others finish other_leads ▸ inside) (enters node)
    | some to_node =>
      rw [entered] at enters
      simp only [entered]
      obtain ⟨node,inside,rfl⟩ := enters
      refine ⟨fun _ => ?_,fun none => absurd ⟨special,nodes,result.2,node,leads,inside⟩ none⟩
      refine ⟨⟨_,sharedEnd from_way first_via :: nodes,node⟩,⟨_,nodes,result.2,leaves,leads,rfl,inside⟩,?_⟩
      rw [same]
      rfl

private theorem exists_isRoute_iff : (∃ path, IsRoute from_way via_ways to_way path) ↔
    Reaches from_way.first_segment_source_id via_ways to_way ∨ Reaches from_way.last_segment_target_id via_ways to_way := by
  constructor
  · rintro ⟨path,start,nodes,finish,leaves,leads,-,enters⟩
    rcases enters_iff.mp (leaves_iff_enters.mp leaves) with ⟨rfl,-⟩ | ⟨rfl,-⟩
    · exact .inl ⟨nodes,finish,_,leads,enters⟩
    · exact .inr ⟨nodes,finish,_,leads,enters⟩
  · rintro (⟨nodes,finish,node,leads,enters⟩ | ⟨nodes,finish,node,leads,enters⟩)
    · exact ⟨⟨_,_,node⟩,_,nodes,finish,leaves_iff_enters.mpr (enters_iff.mpr (.inl ⟨rfl,rfl⟩)),leads,rfl,enters⟩
    · exact ⟨⟨_,_,node⟩,_,nodes,finish,leaves_iff_enters.mpr (enters_iff.mpr (.inr ⟨rfl,rfl⟩)),leads,rfl,enters⟩

private theorem isChain_directions {ways : List NodesOfWay} (passed : nodes ∈ way.directions) (inside : way ∈ ways) :
    nodes.IsChain (AlongWay ways) :=
  (isChain_isInfix nodes).imp fun _ _ neighbours => ⟨way,inside,nodes,passed,neighbours⟩

private theorem Leads.isChain {ways : List NodesOfWay} (leads : Leads start via_ways nodes finish) (inside : ∀ way ∈ via_ways, way ∈ ways) :
    (start :: nodes).IsChain (AlongWay ways) ∧ (start :: nodes).getLast? = some finish := by
  induction leads with
  | done node => exact ⟨isChain_singleton node,rfl⟩
  | along passed last rest ih =>
    obtain ⟨chain,final⟩ := ih fun way member => inside way (mem_cons_of_mem _ member)
    have first := isChain_directions passed (inside _ mem_cons_self)
    obtain ⟨front,split⟩ := getLast?_eq_some_iff.mp last
    rw [← cons_append,split,append_assoc,singleton_append]
    refine ⟨isChain_split.mpr ⟨split ▸ first,chain⟩,?_⟩
    rw [getLast?_append_of_ne_nil _ (cons_ne_nil _ _),final]

private theorem IsRoute.isChain {path : ViaWayPath} (route : IsRoute from_way via_ways to_way path) :
    (path.from_node :: path.via ++ [path.to_node]).IsChain (AlongWay (from_way :: via_ways ++ [to_way])) := by
  obtain ⟨start,nodes,finish,⟨before,left⟩,leads,via,after,entered⟩ := route
  obtain ⟨chain,final⟩ := leads.isChain fun way member => mem_append_left [to_way] (mem_cons_of_mem from_way member)
  rw [via]
  refine isChain_cons.mpr ⟨?_,?_⟩
  · intro first head
    cases head
    exact ⟨from_way,by simp,_,left,suffix_append before _ |>.isInfix⟩
  · refine isChain_append.mpr ⟨chain,isChain_singleton _,fun last inside next member => ?_⟩
    rw [final] at inside
    cases inside
    cases member
    exact ⟨to_way,by simp,_,entered,(prefix_append [finish,path.to_node] after).isInfix⟩

end Ways

/-- A path through the ways is found exactly when there is one, if and only if whenever there is one, there is one from the
    end of the from way that is tried first, and this end is not the special id. -/
theorem via_way_path_iff (from_way first_via to_way : NodesOfWay) (via_ways : List NodesOfWay) :
    (((∃ path, IsRoute from_way (first_via :: via_ways) to_way path) →
        ∃ path, IsRoute from_way (first_via :: via_ways) to_way path ∧
          (path.from_node :: path.via ++ [path.to_node]).IsChain (AlongWay (from_way :: (first_via :: via_ways) ++ [to_way])) ∧
          find_via_way_path to_internal_node from_way (first_via :: via_ways) (cons_ne_nil _ _) to_way =
            path.internal to_internal_node) ∧
      ((¬ ∃ path, IsRoute from_way (first_via :: via_ways) to_way path) →
        find_via_way_path to_internal_node from_way (first_via :: via_ways) (cons_ne_nil _ _) to_way = unconnected)) ↔
      (Reaches from_way.first_segment_source_id (first_via :: via_ways) to_way ∨
        Reaches from_way.last_segment_target_id (first_via :: via_ways) to_way →
        sharedEnd from_way first_via ≠ SPECIAL_OSM_NODEID ∧ Reaches (sharedEnd from_way first_via) (first_via :: via_ways) to_way) := by
  obtain ⟨found,missing⟩ := find_via_way_path_spec to_internal_node from_way first_via to_way via_ways
  rw [exists_isRoute_iff]
  constructor
  · rintro ⟨resolved,-⟩ reaches
    by_contra apart
    obtain ⟨path,⟨start,nodes,finish,-,-,via,-⟩,-,same⟩ := resolved reaches
    rw [missing apart] at same
    have empty := congrArg ViaWayPath.via same
    simp [unconnected,ViaWayPath.internal,via] at empty
  · intro first
    refine ⟨fun reaches => ?_,fun none => missing fun both => none ?_⟩
    · obtain ⟨path,route,same⟩ := found (first reaches)
      exact ⟨path,route,route.isChain,same⟩
    · have shared := both.2
      rw [sharedEnd] at shared
      split_ifs at shared
      · exact .inl shared
      · exact .inr shared

/-- A via way that joins both ends of the from way, where the to way begins at the end that is tried first. -/
theorem route_missed :
    IsRoute ⟨1,[1,2],by decide⟩ [⟨2,[1,3,2],by decide⟩] ⟨3,[1,4],by decide⟩ ⟨1,[2,3,1],4⟩ ∧
      find_via_way_path id ⟨1,[1,2],by decide⟩ [⟨2,[1,3,2],by decide⟩] (cons_ne_nil _ _) ⟨3,[1,4],by decide⟩ = unconnected := by
  have passed : Leads 2 [⟨2,[1,3,2],by decide⟩] ([3,1] ++ []) 1 := .along (by decide) rfl (.done 1)
  exact ⟨⟨2,[3,1],1,⟨[],by decide⟩,passed,rfl,[],by decide⟩,by decide⟩

end Osrm.ViaWays
