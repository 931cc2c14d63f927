import Osrm.BisectionPartition
import Osrm.Permutation
import Osrm.Slices
import Osrm.Typedefs

/-!
`extractor/restriction_graph.cpp`: one prefix tree for the paths of all turn restrictions, with transfers from a path
to another one whose beginning it ends with. Edges and restrictions are ranges of two vectors that all nodes share,
here lists: a range is read as it was when it was taken. `RestrictionVectors` has the vectors and refines this module
where nothing moves.
-/
namespace Osrm.TurnRestrictions
open List
open Typedefs Slices Permutation
open BisectionPartition (StdPartition)

abbrev RestrictionID := ℕ
abbrev EdgeKey := NodeID × NodeID

/-- `TurnPath`. A path over ways has a via node, as `FirstVia` asserts. -/
inductive TurnPath
  | ViaNodePath (from_node via to_node : NodeID)
  | ViaWayPath (from_node : NodeID) (via : List NodeID) (to_node : NodeID) (some_via : via ≠ [])

namespace TurnPath

def From : TurnPath → NodeID
  | ViaNodePath from_node _ _ => from_node
  | ViaWayPath from_node _ _ _ => from_node
def To : TurnPath → NodeID
  | ViaNodePath _ _ to_node => to_node
  | ViaWayPath _ _ to_node _ => to_node
def FirstVia : TurnPath → NodeID
  | ViaNodePath _ via _ => via
  | ViaWayPath _ via _ some_via => via.head some_via

end TurnPath

/-- `TurnRestriction`; of the opening hours it is only read whether there are some. -/
structure TurnRestriction (OpeningHours : Type) where
  turn_path : TurnPath
  is_only : Bool
  condition : List OpeningHours

variable {OpeningHours : Type}

namespace TurnRestriction
variable (restriction : TurnRestriction OpeningHours)

def IsTurnRestricted (to_node : NodeID) : Bool :=
  if restriction.is_only then restriction.turn_path.To != to_node else restriction.turn_path.To == to_node
def IsUnconditional : Bool := restriction.condition.isEmpty

end TurnRestriction

/-- A pointer to an element of the vector of restrictions: the element and its place. -/
abbrev Pointer (OpeningHours : Type) := TurnRestriction OpeningHours × ℕ

structure RestrictionEdge where
  node_based_to : NodeID
  target : RestrictionID
  is_transfer : Bool
  deriving DecidableEq, Repr

structure RestrictionNode where
  restrictions_begin_idx : ℕ
  num_restrictions : ℕ
  edges_begin_idx : ℕ
  num_edges : ℕ
  deriving DecidableEq, Repr

structure RestrictionGraph (OpeningHours : Type) where
  start_edge_to_node : EdgeKey → Option RestrictionID
  via_edge_to_node : List (EdgeKey × RestrictionID)
  nodes : List RestrictionNode
  edges : List RestrictionEdge
  restrictions : List (Pointer OpeningHours)
  num_via_nodes : ℕ

namespace RestrictionGraph

def empty : RestrictionGraph OpeningHours := ⟨fun _ => none,[],[],[],[],0⟩

variable (rg : RestrictionGraph OpeningHours) (id : RestrictionID)

def GetEdges : List RestrictionEdge :=
  match rg.nodes[id]? with
  | none => []
  | some node => slice rg.edges node.edges_begin_idx (node.edges_begin_idx + node.num_edges)

def GetRestrictions : List (Pointer OpeningHours) :=
  match rg.nodes[id]? with
  | none => []
  | some node => slice rg.restrictions node.restrictions_begin_idx (node.restrictions_begin_idx + node.num_restrictions)

/-- On lists; the copy of the range cannot be cut short. -/
def insertEdge (edge : RestrictionEdge) : RestrictionGraph OpeningHours :=
  match rg.nodes[id]? with
  | none => rg
  | some node =>
    let appended := appendTo rg.edges node.edges_begin_idx node.num_edges edge
    { rg with
      edges := appended.1
      nodes := rg.nodes.set id { node with edges_begin_idx := appended.2, num_edges := node.num_edges + 1 } }

/-- On lists, as `insertEdge`. -/
def insertRestriction (restriction : Pointer OpeningHours) : RestrictionGraph OpeningHours :=
  match rg.nodes[id]? with
  | none => rg
  | some node =>
    let appended := appendTo rg.restrictions node.restrictions_begin_idx node.num_restrictions restriction
    { rg with
      restrictions := appended.1
      nodes := rg.nodes.set id { node with restrictions_begin_idx := appended.2, num_restrictions := node.num_restrictions + 1 } }

def newNode : RestrictionNode := ⟨rg.restrictions.length,0,rg.edges.length,0⟩

def getOrInsertStartNode (from_node to_node : NodeID) : RestrictionGraph OpeningHours × RestrictionID :=
  match rg.start_edge_to_node (from_node,to_node) with
  | some start_node => (rg,start_node)
  | none =>
    ({ rg with
      nodes := rg.nodes ++ [rg.newNode]
      start_edge_to_node := Function.update rg.start_edge_to_node (from_node,to_node) (some rg.nodes.length) },rg.nodes.length)

def insertViaNode (from_node to_node : NodeID) : RestrictionGraph OpeningHours × RestrictionID :=
  ({ rg with
    nodes := rg.nodes ++ [rg.newNode]
    via_edge_to_node := rg.via_edge_to_node ++ [((from_node,to_node),rg.nodes.length)] },rg.nodes.length)

end RestrictionGraph

open RestrictionGraph (insertEdge insertRestriction getOrInsertStartNode insertViaNode)

/-- `pathBuilder`: the prefix tree. -/
structure pathBuilder (OpeningHours : Type) where
  rg : RestrictionGraph OpeningHours
  cur_node : RestrictionID

namespace pathBuilder
variable (builder : pathBuilder OpeningHours)

def start (rg : RestrictionGraph OpeningHours) (from_node to_node : NodeID) : pathBuilder OpeningHours :=
  let started := getOrInsertStartNode rg from_node to_node
  ⟨started.1,started.2⟩

def next (from_node to_node : NodeID) : pathBuilder OpeningHours :=
  match (builder.rg.GetEdges builder.cur_node).find? fun edge => edge.node_based_to == to_node with
  | some edge => { builder with cur_node := edge.target }
  | none =>
    let inserted := insertViaNode builder.rg from_node to_node
    ⟨insertEdge inserted.1 builder.cur_node ⟨to_node,inserted.2,false⟩,inserted.2⟩

def finish (restriction : Pointer OpeningHours) : pathBuilder OpeningHours :=
  { builder with rg := insertRestriction builder.rg builder.cur_node restriction }

end pathBuilder

/-- `transferBuilder`: the transfers, and the restrictions of the paths that a path ends with. -/
structure transferBuilder (OpeningHours : Type) where
  rg : RestrictionGraph OpeningHours
  suffix_nodes : List RestrictionID
  cur_node : RestrictionID

/-- The body of the loop over the edges of a suffix node. -/
def add_edge_transfer (cur_node : RestrictionID) (rg : RestrictionGraph OpeningHours) (suffix_edge : RestrictionEdge) :
    RestrictionGraph OpeningHours :=
  if suffix_edge.is_transfer then rg
  else
    let is_restricted := (rg.GetRestrictions cur_node).any fun restriction =>
      restriction.1.IsTurnRestricted suffix_edge.node_based_to && restriction.1.IsUnconditional
    if is_restricted then rg
    else
      let can_transfer := (rg.GetEdges cur_node).all fun edge => edge.node_based_to != suffix_edge.node_based_to
      if can_transfer then insertEdge rg cur_node ⟨suffix_edge.node_based_to,suffix_edge.target,true⟩ else rg

/-- On lists; the edges are those the suffix node had before the loop. -/
def add_suffix_transfer (cur_node : RestrictionID) (rg : RestrictionGraph OpeningHours) (suffix_node : RestrictionID) :
    RestrictionGraph OpeningHours :=
  (rg.GetEdges suffix_node).foldl (add_edge_transfer cur_node) rg
/-- On lists, as `add_suffix_transfer`. -/
def add_suffix_restrictions (cur_node : RestrictionID) (rg : RestrictionGraph OpeningHours) (suffix_node : RestrictionID) :
    RestrictionGraph OpeningHours :=
  (rg.GetRestrictions suffix_node).foldl (fun rg restriction => insertRestriction rg cur_node restriction) rg

namespace transferBuilder
variable (builder : transferBuilder OpeningHours)

def start (rg : RestrictionGraph OpeningHours) (from_node to_node : NodeID) : transferBuilder OpeningHours :=
  let started := getOrInsertStartNode rg from_node to_node
  ⟨started.1,[],started.2⟩
def next_suffixes (from_node to_node : NodeID) : List RestrictionID :=
  let longer := builder.suffix_nodes.filterMap fun suffix_node =>
    ((builder.rg.GetEdges suffix_node).find? fun edge => edge.node_based_to == to_node && !edge.is_transfer).map (·.target)
  longer ++ (builder.rg.start_edge_to_node (from_node,to_node)).toList

def next (from_node to_node : NodeID) : transferBuilder OpeningHours :=
  match (builder.rg.GetEdges builder.cur_node).find? fun edge => edge.node_based_to == to_node with
  | none => builder
  | some edge =>
    let cur_node := edge.target
    let suffix_nodes := builder.next_suffixes from_node to_node
    let rg := suffix_nodes.foldl (add_suffix_transfer cur_node) builder.rg
    ⟨suffix_nodes.foldl (add_suffix_restrictions cur_node) rg,suffix_nodes,cur_node⟩

end transferBuilder

/-- `util::for_each_pair`. -/
def pairs (nodes : List NodeID) : List (NodeID × NodeID) := nodes.zip nodes.tail

/-- What a restriction is run through: a builder that has started at its first edge, and its via way path. -/
def viaPairs (restriction : Pointer OpeningHours) : List (NodeID × NodeID) :=
  match restriction.1.turn_path with
  | .ViaNodePath _ _ _ => []
  | .ViaWayPath _ via _ _ => pairs via

/-- `buildGraph<pathBuilder>`. -/
def buildPaths (rg : RestrictionGraph OpeningHours) (restrictions : List (Pointer OpeningHours)) : RestrictionGraph OpeningHours :=
  restrictions.foldl (fun rg restriction =>
    let builder := pathBuilder.start rg restriction.1.turn_path.From restriction.1.turn_path.FirstVia
    (((viaPairs restriction).foldl (fun builder edge => builder.next edge.1 edge.2) builder).finish restriction).rg) rg

/-- `buildGraph<transferBuilder>`. -/
def buildTransfers (rg : RestrictionGraph OpeningHours) (restrictions : List (Pointer OpeningHours)) : RestrictionGraph OpeningHours :=
  restrictions.foldl (fun rg restriction =>
    let builder := transferBuilder.start rg restriction.1.turn_path.From restriction.1.turn_path.FirstVia
    ((viaPairs restriction).foldl (fun builder edge => builder.next edge.1 edge.2) builder).rg) rg

def is_via_node (rg : RestrictionGraph OpeningHours) (id : RestrictionID) : Bool :=
  rg.via_edge_to_node.any fun entry => entry.2 == id

/-- Via nodes come to the front. -/
def renumber (std : StdPartition) (rg : RestrictionGraph OpeningHours) : RestrictionGraph OpeningHours :=
  let ordering := std.run (is_via_node rg) (List.range rg.nodes.length)
  let permutation := orderingToPermutation ordering
  { start_edge_to_node := fun key => (rg.start_edge_to_node key).map fun id => permutation.getD id 0
    via_edge_to_node := rg.via_edge_to_node.map fun entry => (entry.1,permutation.getD entry.2 0)
    nodes := inplacePermutation rg.nodes permutation
    edges := rg.edges.map fun edge => { edge with target := permutation.getD edge.target 0 }
    restrictions := rg.restrictions
    num_via_nodes := (List.range rg.nodes.length).countP (is_via_node rg) }

/-- The graph of the lists. -/
def constructRestrictionGraph (std : StdPartition) (turn_restrictions : List (TurnRestriction OpeningHours)) :
    RestrictionGraph OpeningHours :=
  let rg := buildPaths RestrictionGraph.empty turn_restrictions.zipIdx
  renumber std (buildTransfers rg turn_restrictions.zipIdx)

/-! ### Edges and restrictions of a node -/

structure InRange (rg : RestrictionGraph OpeningHours) : Prop where
  edges : ∀ node ∈ rg.nodes, node.edges_begin_idx + node.num_edges ≤ rg.edges.length
  restrictions : ∀ node ∈ rg.nodes, node.restrictions_begin_idx + node.num_restrictions ≤ rg.restrictions.length

section Views
variable {rg : RestrictionGraph OpeningHours} {id id' : RestrictionID} {edge : RestrictionEdge} {restriction : Pointer OpeningHours}

theorem insertEdge_eq (inside : id < rg.nodes.length) : ∃ node ∈ rg.nodes, rg.nodes[id]? = some node ∧
    insertEdge rg id edge = { rg with
      edges := (appendTo rg.edges node.edges_begin_idx node.num_edges edge).1
      nodes := rg.nodes.set id { node with
        edges_begin_idx := (appendTo rg.edges node.edges_begin_idx node.num_edges edge).2
        num_edges := node.num_edges + 1 } } := by
  have found := getElem?_eq_getElem inside
  refine ⟨rg.nodes[id],getElem_mem inside,found,?_⟩
  simp only [insertEdge,found]

theorem insertRestriction_eq (inside : id < rg.nodes.length) : ∃ node ∈ rg.nodes, rg.nodes[id]? = some node ∧
    insertRestriction rg id restriction = { rg with
      restrictions := (appendTo rg.restrictions node.restrictions_begin_idx node.num_restrictions restriction).1
      nodes := rg.nodes.set id { node with
        restrictions_begin_idx := (appendTo rg.restrictions node.restrictions_begin_idx node.num_restrictions restriction).2
        num_restrictions := node.num_restrictions + 1 } } := by
  have found := getElem?_eq_getElem inside
  refine ⟨rg.nodes[id],getElem_mem inside,found,?_⟩
  simp only [insertRestriction,found]

/-- An edge that is inserted is behind the edges its node had, and changes nothing else. -/
structure EdgeInserted (rg : RestrictionGraph OpeningHours) (id : RestrictionID) (edge : RestrictionEdge)
    (rg' : RestrictionGraph OpeningHours) : Prop where
  inRange : InRange rg'
  length : rg'.nodes.length = rg.nodes.length
  edges : ∀ id', rg'.GetEdges id' = if id' = id then rg.GetEdges id ++ [edge] else rg.GetEdges id'
  restrictions : ∀ id', rg'.GetRestrictions id' = rg.GetRestrictions id'
  starts : rg'.start_edge_to_node = rg.start_edge_to_node
  vias : rg'.via_edge_to_node = rg.via_edge_to_node

private theorem view_set {Item : Type} (view : RestrictionNode → List Item) {nodes : List RestrictionNode} {node changed : RestrictionNode}
    (found : nodes[id]? = some node) (same : view changed = view node) (id' : RestrictionID) :
    (match (nodes.set id changed)[id']? with | none => [] | some node => view node) =
      match nodes[id']? with | none => [] | some node => view node := by
  rw [getElem?_set]
  by_cases here : id = id'
  · subst here
    obtain ⟨inside,-⟩ := List.getElem?_eq_some_iff.mp found
    rw [if_pos rfl,if_pos inside,found]
    exact same
  · rw [if_neg here]

private theorem view_concat {Item : Type} (view : RestrictionNode → List Item) (nodes : List RestrictionNode) {node : RestrictionNode}
    (empty : view node = []) (id : RestrictionID) :
    (match (nodes ++ [node])[id]? with | none => [] | some node => view node) =
      match nodes[id]? with | none => [] | some node => view node := by
  rcases Nat.lt_trichotomy id nodes.length with old | rfl | beyond
  · rw [getElem?_append_left old]
  · rw [getElem?_concat_length,getElem?_eq_none le_rfl]
    exact empty
  · rw [getElem?_eq_none (by rw [length_append,length_singleton]; omega),getElem?_eq_none beyond.le]

theorem insertEdge_spec (inRange : InRange rg) (inside : id < rg.nodes.length) (edge : RestrictionEdge) :
    EdgeInserted rg id edge (insertEdge rg id edge) := by
  obtain ⟨node,member,found,inserted⟩ := @insertEdge_eq _ rg id edge inside
  have bound := inRange.edges node member
  rw [inserted]
  refine ⟨⟨?_,?_⟩,length_set,?_,?_,rfl,rfl⟩
  · intro other otherMember
    rcases mem_or_eq_of_mem_set otherMember with old | rfl
    · exact (inRange.edges other old).trans (appendTo_length ..)
    · exact appendTo_inside bound
  · intro other otherMember
    rcases mem_or_eq_of_mem_set otherMember with old | rfl
    · exact inRange.restrictions other old
    · exact inRange.restrictions node member
  · intro id'
    rw [RestrictionGraph.GetEdges,getElem?_set]
    by_cases same : id = id'
    · subst same
      simp only [if_pos,inside,RestrictionGraph.GetEdges,found]
      exact appendTo_own bound
    · rw [if_neg same,if_neg (Ne.symm same),RestrictionGraph.GetEdges]
      cases there : rg.nodes[id']? with
      | none => rfl
      | some other => exact appendTo_other (inRange.edges other (mem_of_getElem? there))
  · exact view_set (fun node => slice rg.restrictions node.restrictions_begin_idx (node.restrictions_begin_idx + node.num_restrictions))
      found rfl

theorem insertEdge_vias (rg : RestrictionGraph OpeningHours) (id : RestrictionID) (edge : RestrictionEdge) :
    (insertEdge rg id edge).via_edge_to_node = rg.via_edge_to_node := by
  rw [insertEdge]
  split <;> rfl

theorem insertRestriction_vias (rg : RestrictionGraph OpeningHours) (id : RestrictionID) (restriction : Pointer OpeningHours) :
    (insertRestriction rg id restriction).via_edge_to_node = rg.via_edge_to_node := by
  rw [insertRestriction]
  split <;> rfl

theorem getOrInsertStartNode_vias (rg : RestrictionGraph OpeningHours) (from_node to_node : NodeID) :
    (getOrInsertStartNode rg from_node to_node).1.via_edge_to_node = rg.via_edge_to_node := by
  rw [getOrInsertStartNode]
  split <;> rfl

/-- Restrictions that are inserted are behind those their node had, and change nothing else. -/
structure RestrictionsInserted (rg : RestrictionGraph OpeningHours) (id : RestrictionID) (restrictions : List (Pointer OpeningHours))
    (rg' : RestrictionGraph OpeningHours) : Prop where
  inRange : InRange rg'
  length : rg'.nodes.length = rg.nodes.length
  edges : ∀ id', rg'.GetEdges id' = rg.GetEdges id'
  restrictions : ∀ id', rg'.GetRestrictions id' =
    if id' = id then rg.GetRestrictions id ++ restrictions else rg.GetRestrictions id'
  starts : rg'.start_edge_to_node = rg.start_edge_to_node
  vias : rg'.via_edge_to_node = rg.via_edge_to_node

theorem insertRestriction_spec (inRange : InRange rg) (inside : id < rg.nodes.length) (restriction : Pointer OpeningHours) :
    RestrictionsInserted rg id [restriction] (insertRestriction rg id restriction) := by
  obtain ⟨node,member,found,inserted⟩ := @insertRestriction_eq _ rg id restriction inside
  have bound := inRange.restrictions node member
  rw [inserted]
  refine ⟨⟨?_,?_⟩,length_set,?_,?_,rfl,rfl⟩
  · intro other otherMember
    rcases mem_or_eq_of_mem_set otherMember with old | rfl
    · exact inRange.edges other old
    · exact inRange.edges node member
  · intro other otherMember
    rcases mem_or_eq_of_mem_set otherMember with old | rfl
    · exact (inRange.restrictions other old).trans (appendTo_length ..)
    · exact appendTo_inside bound
  · exact view_set (fun node => slice rg.edges node.edges_begin_idx (node.edges_begin_idx + node.num_edges)) found rfl
  · intro id'
    rw [RestrictionGraph.GetRestrictions,getElem?_set]
    by_cases same : id = id'
    · subst same
      simp only [if_pos,inside,RestrictionGraph.GetRestrictions,found]
      exact appendTo_own bound
    · rw [if_neg same,if_neg (Ne.symm same),RestrictionGraph.GetRestrictions]
      cases there : rg.nodes[id']? with
      | none => rfl
      | some other => exact appendTo_other (inRange.restrictions other (mem_of_getElem? there))

/-- A graph with one node more, which has no edges and no restrictions. -/
structure NodeAdded (rg rg' : RestrictionGraph OpeningHours) : Prop where
  nodes : rg'.nodes = rg.nodes ++ [rg.newNode]
  edges : rg'.edges = rg.edges
  restrictions : rg'.restrictions = rg.restrictions

variable {rg' : RestrictionGraph OpeningHours}

theorem NodeAdded.inRange (added : NodeAdded rg rg') (inRange : InRange rg) : InRange rg' := by
  constructor
  · intro node member
    rw [added.nodes] at member
    rw [added.edges]
    rcases mem_append.mp member with old | new
    · exact inRange.edges node old
    · cases mem_singleton.mp new
      exact le_rfl
  · intro node member
    rw [added.nodes] at member
    rw [added.restrictions]
    rcases mem_append.mp member with old | new
    · exact inRange.restrictions node old
    · cases mem_singleton.mp new
      exact le_rfl

private theorem NodeAdded.GetEdges (added : NodeAdded rg rg') (id : RestrictionID) : rg'.GetEdges id = rg.GetEdges id := by
  rw [RestrictionGraph.GetEdges,RestrictionGraph.GetEdges,added.nodes,added.edges]
  exact view_concat (fun node => slice rg.edges node.edges_begin_idx (node.edges_begin_idx + node.num_edges)) _
    (by simp [RestrictionGraph.newNode,slice]) id

private theorem NodeAdded.GetRestrictions (added : NodeAdded rg rg') (id : RestrictionID) :
    rg'.GetRestrictions id = rg.GetRestrictions id := by
  rw [RestrictionGraph.GetRestrictions,RestrictionGraph.GetRestrictions,added.nodes,added.restrictions]
  exact view_concat (fun node => slice rg.restrictions node.restrictions_begin_idx (node.restrictions_begin_idx + node.num_restrictions)) _
    (by simp [RestrictionGraph.newNode,slice]) id

end Views

/-! ### The prefix tree -/

def TurnPath.fromAndVia : TurnPath → List NodeID
  | ViaNodePath from_node via _ => [from_node,via]
  | ViaWayPath from_node via _ _ => from_node :: via
/-- The from and via ways of a restriction. -/
def pathOf (restriction : Pointer OpeningHours) : List NodeID := restriction.1.turn_path.fromAndVia

/-- The prefix tree of the known paths, named by `names`; the restrictions in `finished` stand at their ends. -/
structure PrefixTree (known finished : List (Pointer OpeningHours)) (names : List (List NodeID))
    (rg : RestrictionGraph OpeningHours) : Prop where
  inRange : InRange rg
  size : rg.nodes.length = names.length
  distinct : names.Nodup
  long : ∀ w ∈ names, 2 ≤ w.length
  init : ∀ w a, w ++ [a] ∈ names → 2 ≤ w.length → w ∈ names
  used : ∀ w ∈ names, ∃ p ∈ known, w <+: pathOf p
  paths : ∀ p ∈ finished, pathOf p ∈ names
  start : ∀ a b id, rg.start_edge_to_node (a,b) = some id ↔ names[id]? = some [a,b]
  via : ∀ id, (∃ key, (key,id) ∈ rg.via_edge_to_node) ↔ ∃ w, names[id]? = some w ∧ 3 ≤ w.length
  edges : ∀ id w, names[id]? = some w → ∀ edge, edge ∈ rg.GetEdges id ↔
    edge.is_transfer = false ∧ names[edge.target]? = some (w ++ [edge.node_based_to])
  labels : ∀ id, ((rg.GetEdges id).map (·.node_based_to)).Nodup
  attached : ∀ id w, names[id]? = some w → ∀ p, p ∈ rg.GetRestrictions id ↔ p ∈ finished ∧ pathOf p = w
  once : finished.Nodup → ∀ id, (rg.GetRestrictions id).Nodup

private theorem getElem?_concat_iff {α : Type} {l : List α} {a b : α} {i : ℕ} :
    (l ++ [a])[i]? = some b ↔ l[i]? = some b ∨ (i = l.length ∧ b = a) := by
  rcases Nat.lt_trichotomy i l.length with old | rfl | beyond
  · rw [getElem?_append_left old]
    simp [Nat.ne_of_lt old]
  · rw [getElem?_concat_length]
    simp [eq_comm]
  · rw [getElem?_eq_none (by simp; omega),getElem?_eq_none beyond.le]
    simp [Nat.ne_of_gt beyond]

namespace PrefixTree
variable {known finished : List (Pointer OpeningHours)} {names : List (List NodeID)} {rg rg' : RestrictionGraph OpeningHours}
variable {w v : List NodeID} {id id' : RestrictionID} {a : NodeID} {p : Pointer OpeningHours}

theorem inside (tree : PrefixTree known finished names rg) (named : names[id]? = some w) : id < rg.nodes.length :=
  tree.size ▸ (List.getElem?_eq_some_iff.mp named).1
private theorem same_id (tree : PrefixTree known finished names rg) (named : names[id]? = some w) (named' : names[id']? = some w) : id = id' :=
  (getElem?_inj (List.getElem?_eq_some_iff.mp named).1 tree.distinct).mp (named.trans named'.symm)

private theorem add (tree : PrefixTree known finished names rg) (fresh : v ∉ names) (long : 2 ≤ v.length)
    (init : ∀ w a, v = w ++ [a] → 2 ≤ w.length → w ∈ names) (used : ∃ p ∈ known, v <+: pathOf p) (inRange : InRange rg')
    (size : rg'.nodes.length = names.length + 1)
    (edges : ∀ id w, names[id]? = some w → ∀ edge, edge ∈ rg'.GetEdges id ↔ edge ∈ rg.GetEdges id ∨
      (v = w ++ [edge.node_based_to] ∧ edge.target = names.length ∧ edge.is_transfer = false))
    (alone : rg'.GetEdges names.length = []) (labels : ∀ id, ((rg'.GetEdges id).map (·.node_based_to)).Nodup)
    (restrictions : ∀ id, rg'.GetRestrictions id = rg.GetRestrictions id)
    (start : ∀ a b id, rg'.start_edge_to_node (a,b) = some id ↔ rg.start_edge_to_node (a,b) = some id ∨ (id = names.length ∧ [a,b] = v))
    (via : ∀ id, (∃ key, (key,id) ∈ rg'.via_edge_to_node) ↔ (∃ key, (key,id) ∈ rg.via_edge_to_node) ∨ (id = names.length ∧ 3 ≤ v.length)) :
    PrefixTree known finished (names ++ [v]) rg' where
  inRange := inRange
  size := by rw [size,length_append,length_singleton]
  distinct := nodup_append.mpr ⟨tree.distinct,nodup_singleton v,fun w member other single => by
    rintro rfl
    exact fresh (mem_singleton.mp single ▸ member)⟩
  long w member := by
    rcases mem_append.mp member with old | new
    · exact tree.long w old
    · exact mem_singleton.mp new ▸ long
  init w a member enough := by
    apply mem_append_left
    rcases mem_append.mp member with old | new
    · exact tree.init w a old enough
    · exact init w a (mem_singleton.mp new).symm enough
  used w member := by
    rcases mem_append.mp member with old | new
    · exact tree.used w old
    · exact mem_singleton.mp new ▸ used
  paths p member := mem_append_left _ (tree.paths p member)
  start a b id := by rw [start,tree.start,getElem?_concat_iff]
  via id := by
    rw [via,tree.via]
    simp only [getElem?_concat_iff,or_and_right,exists_or,and_assoc]
    simp
  edges id w named edge := by
    rw [getElem?_concat_iff]
    rcases getElem?_concat_iff.mp named with old | ⟨rfl,rfl⟩
    · rw [edges id w old,tree.edges id w old,and_or_left]
      apply or_congr_right
      constructor
      · rintro ⟨same,new,kind⟩
        exact ⟨kind,new,same.symm⟩
      · rintro ⟨kind,new,same⟩
        exact ⟨same.symm,new,kind⟩
    · rw [alone]
      refine iff_of_false not_mem_nil ?_
      rintro ⟨-,old | ⟨-,same⟩⟩
      · exact fresh (tree.init _ _ (mem_of_getElem? old) long)
      · simp at same
  labels := labels
  attached id w named p := by
    rw [restrictions]
    rcases getElem?_concat_iff.mp named with old | ⟨rfl,rfl⟩
    · exact tree.attached id w old p
    · have none : rg.GetRestrictions names.length = [] := by
        rw [RestrictionGraph.GetRestrictions,getElem?_eq_none tree.size.le]
      rw [none]
      refine iff_of_false not_mem_nil ?_
      rintro ⟨member,rfl⟩
      exact fresh (tree.paths p member)
  once distinct id := by
    rw [restrictions]
    exact tree.once distinct id

private theorem length_concat_ne (enough : 2 ≤ w.length) (a b c : NodeID) : [a,b] ≠ w ++ [c] := by
  intro same
  have lengths := congrArg List.length same
  rw [length_append] at lengths
  simp only [length_cons,length_nil] at lengths
  omega

theorem getOrInsertStartNode (tree : PrefixTree known finished names rg) {from_node to_node : NodeID}
    (used : ∃ p ∈ known, [from_node,to_node] <+: pathOf p) : ∃ names', names <+: names' ∧
      PrefixTree known finished names' (rg.getOrInsertStartNode from_node to_node).1 ∧
      names'[(rg.getOrInsertStartNode from_node to_node).2]? = some [from_node,to_node] := by
  rw [RestrictionGraph.getOrInsertStartNode]
  cases known_start : rg.start_edge_to_node (from_node,to_node) with
  | some id => exact ⟨names,prefix_refl _,tree,(tree.start _ _ id).mp known_start⟩
  | none =>
    have fresh : [from_node,to_node] ∉ names := by
      intro member
      obtain ⟨id,named⟩ := mem_iff_getElem?.mp member
      rw [← tree.start,known_start] at named
      simp at named
    have added : NodeAdded rg { rg with
        nodes := rg.nodes ++ [rg.newNode]
        start_edge_to_node := Function.update rg.start_edge_to_node (from_node,to_node) (some rg.nodes.length) } := ⟨rfl,rfl,rfl⟩
    refine ⟨names ++ [[from_node,to_node]],prefix_append _ _,?_,by rw [tree.size,getElem?_concat_length]⟩
    refine tree.add fresh le_rfl ?_ used (added.inRange tree.inRange) ?_ ?_ ?_ ?_ ?_ ?_ ?_
    · exact fun w a same enough => absurd same (length_concat_ne enough _ _ _)
    · rw [length_append,tree.size,length_singleton]
    · intro id w named edge
      rw [added.GetEdges]
      have enough := tree.long w (mem_of_getElem? named)
      exact (or_iff_left fun both => length_concat_ne enough _ _ _ both.1).symm
    · rw [added.GetEdges,RestrictionGraph.GetEdges,getElem?_eq_none tree.size.le]
    · intro id
      rw [added.GetEdges]
      exact tree.labels id
    · exact added.GetRestrictions
    · intro a b id
      simp only [Function.update_apply,Prod.mk.injEq,tree.size]
      by_cases same : a = from_node ∧ b = to_node
      · obtain ⟨rfl,rfl⟩ := same
        simp [known_start,eq_comm]
      · rw [if_neg same]
        refine (or_iff_left ?_).symm
        rintro ⟨-,equal⟩
        exact same (by simpa using equal)
    · intro id
      simp

private theorem insertVia (tree : PrefixTree known finished names rg) (named : names[id]? = some w) {to_node : NodeID}
    (fresh : w ++ [to_node] ∉ names) (used : ∃ p ∈ known, w ++ [to_node] <+: pathOf p) (from_node : NodeID) :
    PrefixTree known finished (names ++ [w ++ [to_node]])
      (insertEdge (insertViaNode rg from_node to_node).1 id ⟨to_node,names.length,false⟩) := by
  have enough := tree.long w (mem_of_getElem? named)
  have added : NodeAdded rg (insertViaNode rg from_node to_node).1 := ⟨rfl,rfl,rfl⟩
  have size : (insertViaNode rg from_node to_node).1.nodes.length = names.length + 1 := by
    rw [added.nodes,length_append,tree.size,length_singleton]
  have inserted := insertEdge_spec (added.inRange tree.inRange)
    (by rw [size,← tree.size]; exact Nat.lt_succ_of_lt (tree.inside named) : id < _) ⟨to_node,names.length,false⟩
  have edges (id' : RestrictionID) : (insertEdge (insertViaNode rg from_node to_node).1 id ⟨to_node,names.length,false⟩).GetEdges id' =
      if id' = id then rg.GetEdges id ++ [⟨to_node,names.length,false⟩] else rg.GetEdges id' := by
    rw [inserted.edges,added.GetEdges,added.GetEdges]
  refine tree.add fresh ?_ ?_ used inserted.inRange (inserted.length.trans size) ?_ ?_ ?_ ?_ ?_ ?_
  · rw [length_append]
    omega
  · intro w' a same _
    obtain ⟨rfl,-⟩ := append_inj' same rfl
    exact mem_of_getElem? named
  · intro id' w' named' edge
    rw [edges]
    by_cases here : id' = id
    · subst here
      obtain rfl : w = w' := Option.some.inj (named.symm.trans named')
      rw [if_pos rfl,mem_append,mem_singleton]
      apply or_congr_right
      constructor
      · rintro rfl
        exact ⟨rfl,rfl,rfl⟩
      · rintro ⟨same,target,kind⟩
        obtain ⟨-,label⟩ := append_inj' same rfl
        cases edge
        simp_all
    · rw [if_neg here]
      refine (or_iff_left ?_).symm
      rintro ⟨same,-⟩
      obtain ⟨rfl,-⟩ := append_inj' same rfl
      exact here (tree.same_id named' named)
  · have other : names.length ≠ id := fun equal => lt_irrefl names.length (by
      have below := tree.inside named
      rwa [← equal,tree.size] at below)
    rw [edges,if_neg other,RestrictionGraph.GetEdges,getElem?_eq_none tree.size.le]
  · intro id'
    rw [edges]
    split
    · rw [map_append,nodup_append]
      refine ⟨tree.labels _,nodup_singleton _,?_⟩
      intro label member other single same
      obtain ⟨edge,inside,rfl⟩ := mem_map.mp member
      have child := ((tree.edges id w named edge).mp inside).2
      rw [same,mem_singleton.mp single] at child
      exact fresh (mem_of_getElem? child)
    · exact tree.labels id'
  · intro id'
    rw [inserted.restrictions,added.GetRestrictions]
  · intro a b id'
    rw [inserted.starts]
    exact (or_iff_left fun both => length_concat_ne enough a b to_node both.2).symm
  · intro id'
    rw [inserted.vias]
    have three : 3 ≤ (w ++ [to_node]).length := by
      rw [length_append,length_singleton]
      omega
    simp only [RestrictionGraph.insertViaNode,mem_append,mem_singleton,Prod.mk.injEq,exists_or,tree.size,three,and_true]
    apply or_congr_right
    simp

theorem next (builder : pathBuilder OpeningHours) (tree : PrefixTree known finished names builder.rg)
    (named : names[builder.cur_node]? = some w) (from_node to_node : NodeID) (used : ∃ p ∈ known, w ++ [to_node] <+: pathOf p) :
    ∃ names', names <+: names' ∧ PrefixTree known finished names' (builder.next from_node to_node).rg ∧
      names'[(builder.next from_node to_node).cur_node]? = some (w ++ [to_node]) := by
  rw [pathBuilder.next]
  cases found : (builder.rg.GetEdges builder.cur_node).find? fun edge => edge.node_based_to == to_node with
  | some edge =>
    have label : edge.node_based_to = to_node := by simpa using find?_some found
    have child := ((tree.edges _ w named edge).mp (mem_of_find?_eq_some found)).2
    exact ⟨names,prefix_refl _,tree,label ▸ child⟩
  | none =>
    have no_label : ∀ edge ∈ builder.rg.GetEdges builder.cur_node, edge.node_based_to ≠ to_node := by
      simpa using find?_eq_none.mp found
    have fresh : w ++ [to_node] ∉ names := by
      intro member
      obtain ⟨id,there⟩ := mem_iff_getElem?.mp member
      exact no_label ⟨to_node,id,false⟩ ((tree.edges _ w named _).mpr ⟨rfl,there⟩) rfl
    have new : (insertViaNode builder.rg from_node to_node).2 = names.length := tree.size
    simp only [new]
    exact ⟨names ++ [w ++ [to_node]],prefix_append _ _,tree.insertVia named fresh used from_node,getElem?_concat_length⟩

private theorem finish (tree : PrefixTree known finished names rg) (named : names[id]? = some (pathOf p)) :
    PrefixTree known (finished ++ [p]) names (insertRestriction rg id p) := by
  have inserted := insertRestriction_spec tree.inRange (tree.inside named) p
  refine ⟨inserted.inRange,inserted.length.trans tree.size,tree.distinct,tree.long,tree.init,tree.used,?_,?_,?_,?_,?_,?_,?_⟩
  · intro q member
    rcases mem_append.mp member with old | new
    · exact tree.paths q old
    · exact mem_singleton.mp new ▸ mem_of_getElem? named
  · rw [inserted.starts]
    exact tree.start
  · rw [inserted.vias]
    exact tree.via
  · intro id' w named'
    rw [inserted.edges]
    exact tree.edges id' w named'
  · intro id'
    rw [inserted.edges]
    exact tree.labels id'
  · intro id' w named' q
    rw [inserted.restrictions,mem_append,mem_singleton,or_and_right]
    by_cases here : id' = id
    · subst here
      obtain rfl : pathOf p = w := Option.some.inj (named.symm.trans named')
      rw [if_pos rfl,mem_append,mem_singleton,tree.attached id' _ named']
      apply or_congr_right
      exact (and_iff_left_of_imp fun same => same ▸ rfl).symm
    · rw [if_neg here,tree.attached id' w named']
      refine (or_iff_left ?_).symm
      rintro ⟨rfl,rfl⟩
      exact here (tree.same_id named' named)
  · intro distinct id'
    obtain ⟨before,-,new⟩ := nodup_append.mp distinct
    rw [inserted.restrictions]
    split
    · refine nodup_append.mpr ⟨tree.once before id,nodup_singleton p,?_⟩
      exact fun q member => new q ((tree.attached id _ named q).mp member).1
    · exact tree.once before id'

def Keyed (names : List (List NodeID)) (rg : RestrictionGraph OpeningHours) : Prop :=
  ∀ key id, (key,id) ∈ rg.via_edge_to_node → ∃ s, names[id]? = some (s ++ [key.1] ++ [key.2])

theorem Keyed.grow {names' : List (List NodeID)} (keyed : Keyed names rg) (grown : names <+: names')
    (same : rg'.via_edge_to_node = rg.via_edge_to_node) : Keyed names' rg' := by
  intro key id member
  obtain ⟨s,named⟩ := keyed key id (same ▸ member)
  obtain ⟨more,rfl⟩ := grown
  exact ⟨s,(getElem?_append_left (List.getElem?_eq_some_iff.mp named).1).trans named⟩

private theorem Keyed.next {names' : List (List NodeID)} {builder : pathBuilder OpeningHours} (keyed : Keyed names builder.rg)
    (grown : names <+: names') {b : NodeID} (reached : names'[(builder.next a b).cur_node]? = some (w ++ [a] ++ [b])) :
    Keyed names' (builder.next a b).rg := by
  rw [pathBuilder.next] at reached ⊢
  split at reached
  · exact keyed.grow grown rfl
  · intro key id member
    have vias := insertEdge_vias (insertViaNode builder.rg a b).1 builder.cur_node ⟨b,(insertViaNode builder.rg a b).2,false⟩
    rcases mem_append.mp (vias ▸ member) with old | new
    · exact keyed.grow grown rfl key id old
    · cases mem_singleton.mp new
      exact ⟨w,reached⟩

theorem nexts (rest : List NodeID) (b : NodeID) (builder : pathBuilder OpeningHours) (tree : PrefixTree known finished names builder.rg)
    (named : names[builder.cur_node]? = some (w ++ [b])) (used : ∃ p ∈ known, w ++ [b] ++ rest <+: pathOf p) (keyed : Keyed names builder.rg) :
    ∃ names', names <+: names' ∧
      PrefixTree known finished names' ((pairs (b :: rest)).foldl (fun builder edge => builder.next edge.1 edge.2) builder).rg ∧
      names'[((pairs (b :: rest)).foldl (fun builder edge => builder.next edge.1 edge.2) builder).cur_node]? = some (w ++ [b] ++ rest) ∧
      Keyed names' ((pairs (b :: rest)).foldl (fun builder edge => builder.next edge.1 edge.2) builder).rg := by
  induction rest generalizing b builder names w with
  | nil => exact ⟨names,prefix_refl _,tree,by rw [append_nil]; exact named,keyed⟩
  | cons c rest ih =>
    obtain ⟨p,member,begins⟩ := used
    rw [append_cons] at begins
    obtain ⟨names',grown,tree',named'⟩ := tree.next builder named b c ⟨p,member,(prefix_append _ _).trans begins⟩
    obtain ⟨names'',grown',final,reached,keyed'⟩ :=
      ih c (builder.next b c) tree' named' ⟨p,member,begins⟩ (keyed.next grown named')
    exact ⟨names'',grown.trans grown',final,append_cons (w ++ [b]) c rest ▸ reached,keyed'⟩

end PrefixTree

/-- A path is its first two nodes and the others. -/
theorem path_split (p : Pointer OpeningHours) : ∃ rest, pathOf p = [p.1.turn_path.From,p.1.turn_path.FirstVia] ++ rest ∧
    viaPairs p = pairs (p.1.turn_path.FirstVia :: rest) := by
  rw [pathOf,viaPairs]
  cases p.1.turn_path with
  | ViaNodePath from_node via to_node => exact ⟨[],rfl,rfl⟩
  | ViaWayPath from_node via to_node some_via =>
    have split : via = via.head some_via :: via.tail := (cons_head_tail some_via).symm
    refine ⟨via.tail,congrArg (from_node :: ·) split,congrArg pairs split⟩

theorem PrefixTree.empty (known : List (Pointer OpeningHours)) : PrefixTree known [] [] (RestrictionGraph.empty : RestrictionGraph OpeningHours) where
  inRange := ⟨by simp [RestrictionGraph.empty],by simp [RestrictionGraph.empty]⟩
  size := rfl
  distinct := nodup_nil
  long := by simp
  init := by simp
  used := by simp
  paths := by simp
  start := by simp [RestrictionGraph.empty]
  via := by simp [RestrictionGraph.empty]
  edges := by simp
  labels := by simp [RestrictionGraph.GetEdges,RestrictionGraph.empty]
  attached := by simp
  once := by simp [RestrictionGraph.GetRestrictions,RestrictionGraph.empty]

theorem buildPaths_tree {known finished restrictions : List (Pointer OpeningHours)} {names : List (List NodeID)}
    {rg : RestrictionGraph OpeningHours} (tree : PrefixTree known finished names rg) (inside : ∀ p ∈ restrictions, p ∈ known)
    (keyed : PrefixTree.Keyed names rg) : ∃ names', PrefixTree known (finished ++ restrictions) names' (buildPaths rg restrictions) ∧
      PrefixTree.Keyed names' (buildPaths rg restrictions) := by
  induction restrictions generalizing finished names rg with
  | nil => exact ⟨names,by rw [append_nil]; exact tree,keyed⟩
  | cons p restrictions ih =>
    obtain ⟨rest,path,via⟩ := path_split p
    have member := inside p (by simp)
    obtain ⟨names',grown,started,named⟩ := tree.getOrInsertStartNode ⟨p,member,path ▸ prefix_append _ _⟩
    obtain ⟨names'',-,walked,reached,keyed'⟩ := PrefixTree.nexts (w := [_]) rest _ (pathBuilder.start rg _ _) started named
      ⟨p,member,path ▸ prefix_refl _⟩ (keyed.grow grown (getOrInsertStartNode_vias rg _ _))
    rw [← via] at walked reached keyed'
    rw [singleton_append,← path] at reached
    have next := ih (walked.finish reached) (fun q later => inside q (mem_cons_of_mem _ later))
      (keyed'.grow (prefix_refl _) (insertRestriction_vias _ _ _))
    rwa [append_assoc] at next

end Osrm.TurnRestrictions
