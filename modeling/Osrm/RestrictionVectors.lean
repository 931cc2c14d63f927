import Osrm.GrowingVectors
import Osrm.RestrictionWalk

/-!
The restriction graph as the code builds it: ranges of the vectors `edges` and `restrictions`, of a node in
`insertEdge` and `insertRestriction` and of a suffix node in the transfers, are read while the same vectors grow.
Nothing reserves room.
-/
namespace Osrm.RestrictionVectors
open List Option
open Typedefs Slices Loops GrowingVectors TurnRestrictions
open BisectionPartition (StdPartition)

variable {OpeningHours Item : Type}

section Code
variable (growth : Growth)

/-- What `insertEdge` and `insertRestriction` do to their vector, and where the range of the node then begins. -/
def appendTo (vector : List Item) (begin_idx size : ℕ) (item : Item) : Option (List Item × ℕ) :=
  if begin_idx + size ≠ vector.length then do
    let copied ← growth.copyBack vector begin_idx size
    some (copied ++ [item],vector.length)
  else some (vector ++ [item],begin_idx)

def insertEdge (rg : RestrictionGraph OpeningHours) (id : RestrictionID) (edge : RestrictionEdge) : Option (RestrictionGraph OpeningHours) := do
  let node ← rg.nodes[id]?
  let appended ← appendTo growth rg.edges node.edges_begin_idx node.num_edges edge
  some { rg with
    edges := appended.1
    nodes := rg.nodes.set id { node with edges_begin_idx := appended.2, num_edges := node.num_edges + 1 } }

def insertRestriction (rg : RestrictionGraph OpeningHours) (id : RestrictionID) (restriction : Pointer OpeningHours) :
    Option (RestrictionGraph OpeningHours) := do
  let node ← rg.nodes[id]?
  let appended ← appendTo growth rg.restrictions node.restrictions_begin_idx node.num_restrictions restriction
  some { rg with
    restrictions := appended.1
    nodes := rg.nodes.set id { node with restrictions_begin_idx := appended.2, num_restrictions := node.num_restrictions + 1 } }

def pathBuilder.next (builder : pathBuilder OpeningHours) (from_node to_node : NodeID) : Option (pathBuilder OpeningHours) :=
  match (builder.rg.GetEdges builder.cur_node).find? fun edge => edge.node_based_to == to_node with
  | some edge => some { builder with cur_node := edge.target }
  | none => do
    let inserted := builder.rg.insertViaNode from_node to_node
    let rg ← insertEdge growth inserted.1 builder.cur_node ⟨to_node,inserted.2,false⟩
    some ⟨rg,inserted.2⟩

/-- The body of the loop over the edges of a suffix node. -/
def add_edge_transfer (cur_node : RestrictionID) (rg : RestrictionGraph OpeningHours) (suffix_edge : RestrictionEdge) :
    Option (RestrictionGraph OpeningHours) :=
  if suffix_edge.is_transfer then some rg
  else
    let is_restricted := (rg.GetRestrictions cur_node).any fun restriction =>
      restriction.1.IsTurnRestricted suffix_edge.node_based_to && restriction.1.IsUnconditional
    if is_restricted then some rg
    else
      let can_transfer := (rg.GetEdges cur_node).all fun edge => edge.node_based_to != suffix_edge.node_based_to
      if can_transfer then insertEdge growth rg cur_node ⟨suffix_edge.node_based_to,suffix_edge.target,true⟩ else some rg

def add_suffix_transfer (cur_node : RestrictionID) (rg : RestrictionGraph OpeningHours) (suffix_node : RestrictionID) :
    Option (RestrictionGraph OpeningHours) := do
  let node ← rg.nodes[suffix_node]?
  growth.forRange RestrictionGraph.edges (add_edge_transfer growth cur_node) rg.edges.length node.edges_begin_idx node.num_edges rg

/-- The loop over the restrictions of a suffix node. -/
def add_suffix_restrictions (cur_node : RestrictionID) (rg : RestrictionGraph OpeningHours) (suffix_node : RestrictionID) :
    Option (RestrictionGraph OpeningHours) := do
  let node ← rg.nodes[suffix_node]?
  growth.forRange RestrictionGraph.restrictions (fun rg restriction => insertRestriction growth rg cur_node restriction)
    rg.restrictions.length node.restrictions_begin_idx node.num_restrictions rg

/-- Of the edge that is looked for first it is only known that it exists: the iterator is not tested. -/
def transferBuilder.next (builder : transferBuilder OpeningHours) (from_node to_node : NodeID) : Option (transferBuilder OpeningHours) := do
  let edge ← (builder.rg.GetEdges builder.cur_node).find? fun edge => edge.node_based_to == to_node
  let suffix_nodes := builder.next_suffixes from_node to_node
  let rg ← suffix_nodes.foldlM (add_suffix_transfer growth edge.target) builder.rg
  let rg ← suffix_nodes.foldlM (add_suffix_restrictions growth edge.target) rg
  some ⟨rg,suffix_nodes,edge.target⟩

/-- `run_builder` for the path builder. -/
def buildPath (rg : RestrictionGraph OpeningHours) (restriction : Pointer OpeningHours) : Option (RestrictionGraph OpeningHours) := do
  let builder ← (viaPairs restriction).foldlM (fun builder edge => pathBuilder.next growth builder edge.1 edge.2)
    (TurnRestrictions.pathBuilder.start rg restriction.1.turn_path.From restriction.1.turn_path.FirstVia)
  insertRestriction growth builder.rg builder.cur_node restriction

/-- `run_builder` for the transfer builder. -/
def buildTransfer (rg : RestrictionGraph OpeningHours) (restriction : Pointer OpeningHours) : Option (RestrictionGraph OpeningHours) := do
  let builder ← (viaPairs restriction).foldlM (fun builder edge => transferBuilder.next growth builder edge.1 edge.2)
    (TurnRestrictions.transferBuilder.start rg restriction.1.turn_path.From restriction.1.turn_path.FirstVia)
  some builder.rg

/-- There is no graph where an element is read from a buffer that its vector has left: that is undefined behaviour. -/
def constructRestrictionGraph (std : StdPartition) (turn_restrictions : List (TurnRestriction OpeningHours)) :
    Option (RestrictionGraph OpeningHours) := do
  let rg ← turn_restrictions.zipIdx.foldlM (buildPath growth) RestrictionGraph.empty
  let rg ← turn_restrictions.zipIdx.foldlM (buildTransfer growth) rg
  some (renumber std rg)

end Code

/-! ### Where nothing moves under a range that is read -/

section Room
variable (growth : Growth) (rg : RestrictionGraph OpeningHours)

/-- The edges of the node are the last ones, or they are copied before the vector moves. -/
def EdgeRoom (id : RestrictionID) : Prop :=
  ∀ node ∈ rg.nodes[id]?, node.edges_begin_idx + node.num_edges = rg.edges.length ∨
    growth.Stays rg.edges.length (rg.edges.length + (node.num_edges - 1))
def RestrictionRoom (id : RestrictionID) : Prop :=
  ∀ node ∈ rg.nodes[id]?, node.restrictions_begin_idx + node.num_restrictions = rg.restrictions.length ∨
    growth.Stays rg.restrictions.length (rg.restrictions.length + (node.num_restrictions - 1))
/-- The transfer along the edge of a suffix node is made. -/
def Transfers (cur_node : RestrictionID) (edge : RestrictionEdge) : Prop :=
  edge.is_transfer = false ∧ forbidden rg cur_node edge.node_based_to = false ∧
    ∀ other ∈ rg.GetEdges cur_node, other.node_based_to ≠ edge.node_based_to

/-- Each edge of the suffix node is read before the edges move, and each transfer that is made has room. -/
def TransferRoom (cur_node suffix_node : RestrictionID) : Prop :=
  Fitting (TurnRestrictions.add_edge_transfer cur_node)
    (fun now edge => growth.Stays rg.edges.length now.edges.length ∧ (Transfers now cur_node edge → EdgeRoom growth now cur_node))
    rg (rg.GetEdges suffix_node)

def AnnotateRoom (cur_node suffix_node : RestrictionID) : Prop :=
  Fitting (fun now restriction => now.insertRestriction cur_node restriction)
    (fun now _ => growth.Stays rg.restrictions.length now.restrictions.length ∧ RestrictionRoom growth now cur_node)
    rg (rg.GetRestrictions suffix_node)

/-- A step of the path builder; it inserts an edge if the path is new. -/
def StepRoom (builder : pathBuilder OpeningHours) (edge : NodeID × NodeID) : Prop :=
  (∀ other ∈ builder.rg.GetEdges builder.cur_node, other.node_based_to ≠ edge.2) → EdgeRoom growth builder.rg builder.cur_node

/-- A step of the transfer builder, to the node that the edge leads to. -/
def VisitRoom (builder : transferBuilder OpeningHours) (edge : NodeID × NodeID) : Prop :=
  let next := builder.next edge.1 edge.2
  Fitting (TurnRestrictions.add_suffix_transfer next.cur_node) (fun now => TransferRoom growth now next.cur_node) builder.rg
      next.suffix_nodes ∧
    Fitting (TurnRestrictions.add_suffix_restrictions next.cur_node) (fun now => AnnotateRoom growth now next.cur_node)
      (next.suffix_nodes.foldl (TurnRestrictions.add_suffix_transfer next.cur_node) builder.rg) next.suffix_nodes

def PathRoom (restriction : Pointer OpeningHours) : Prop :=
  let start := TurnRestrictions.pathBuilder.start rg restriction.1.turn_path.From restriction.1.turn_path.FirstVia
  let last := (viaPairs restriction).foldl (fun builder edge => builder.next edge.1 edge.2) start
  Fitting (fun builder edge => builder.next edge.1 edge.2) (StepRoom growth) start (viaPairs restriction) ∧
    RestrictionRoom growth last.rg last.cur_node

def VisitsRoom (restriction : Pointer OpeningHours) : Prop :=
  Fitting (fun builder edge => builder.next edge.1 edge.2) (VisitRoom growth)
    (TurnRestrictions.transferBuilder.start rg restriction.1.turn_path.From restriction.1.turn_path.FirstVia) (viaPairs restriction)

/-- In the state before each step of both builders there is room for what the step copies and reads. -/
def Roomy (turn_restrictions : List (TurnRestriction OpeningHours)) : Prop :=
  Fitting (fun rg restriction => buildPaths rg [restriction]) (PathRoom growth) RestrictionGraph.empty turn_restrictions.zipIdx ∧
    Fitting (fun rg restriction => buildTransfers rg [restriction]) (VisitsRoom growth)
      (buildPaths RestrictionGraph.empty turn_restrictions.zipIdx) turn_restrictions.zipIdx

end Room

/-! ### The steps -/

section Steps
variable {growth : Growth} {rg : RestrictionGraph OpeningHours} {id cur_node suffix_node : RestrictionID}

private theorem appendTo_ends {vector : List Item} {begin_idx size : ℕ} (inside : begin_idx + size ≤ vector.length) (item : Item) :
    Ends (appendTo growth vector begin_idx size item)
      (begin_idx + size = vector.length ∨ growth.Stays vector.length (vector.length + (size - 1)))
      (Slices.appendTo vector begin_idx size item) := by
  rw [appendTo,Slices.appendTo]
  split
  case isTrue apart =>
    exact ((copyBack_ends inside).map _).congr (or_iff_right apart).symm
  case isFalse last => exact (Ends.pure _).congr (iff_of_true trivial (.inl (not_not.mp last)))

private theorem insertEdge_ends (inRange : InRange rg) (inside : id < rg.nodes.length) (edge : RestrictionEdge) :
    Ends (insertEdge growth rg id edge) (EdgeRoom growth rg id) (rg.insertEdge id edge) := by
  have found := getElem?_eq_getElem inside
  have appended := @appendTo_ends _ growth _ _ _ (inRange.edges _ (getElem_mem inside)) edge
  simp only [insertEdge,RestrictionGraph.insertEdge,EdgeRoom,found,bind_eq_bind,bind_some,mem_some,forall_eq']
  exact appended.map _

private theorem insertRestriction_ends (inRange : InRange rg) (inside : id < rg.nodes.length) (restriction : Pointer OpeningHours) :
    Ends (insertRestriction growth rg id restriction) (RestrictionRoom growth rg id) (rg.insertRestriction id restriction) := by
  have found := getElem?_eq_getElem inside
  have appended := @appendTo_ends _ growth _ _ _ (inRange.restrictions _ (getElem_mem inside)) restriction
  simp only [insertRestriction,RestrictionGraph.insertRestriction,RestrictionRoom,found,bind_eq_bind,bind_some,mem_some,forall_eq']
  exact appended.map _

/-- The ranges of all nodes are inside their vectors. -/
def Sized (number : ℕ) (rg : RestrictionGraph OpeningHours) : Prop := InRange rg ∧ rg.nodes.length = number

variable {number : ℕ}

private theorem Sized.insertEdge (sized : Sized number rg) (inside : id < number) (edge : RestrictionEdge) :
    Sized number (rg.insertEdge id edge) ∧ rg.edges <+: (rg.insertEdge id edge).edges := by
  obtain ⟨inRange,rfl⟩ := sized
  have inserted := insertEdge_spec inRange inside edge
  obtain ⟨node,-,-,same⟩ := @insertEdge_eq _ _ _ edge inside
  refine ⟨⟨inserted.inRange,inserted.length⟩,?_⟩
  rw [same]
  exact appendTo_prefix ..

private theorem Sized.insertRestriction (sized : Sized number rg) (inside : id < number) (restriction : Pointer OpeningHours) :
    Sized number (rg.insertRestriction id restriction) ∧ rg.restrictions <+: (rg.insertRestriction id restriction).restrictions := by
  obtain ⟨inRange,rfl⟩ := sized
  have inserted := insertRestriction_spec inRange inside restriction
  obtain ⟨node,-,-,same⟩ := @insertRestriction_eq _ _ _ restriction inside
  refine ⟨⟨inserted.inRange,inserted.length⟩,?_⟩
  rw [same]
  exact appendTo_prefix ..

private theorem add_edge_transfer_cases (cur_node : RestrictionID) (rg : RestrictionGraph OpeningHours) (edge : RestrictionEdge) :
    (Transfers rg cur_node edge ∧
      (∀ growth, add_edge_transfer growth cur_node rg edge = insertEdge growth rg cur_node ⟨edge.node_based_to,edge.target,true⟩) ∧
      TurnRestrictions.add_edge_transfer cur_node rg edge = rg.insertEdge cur_node ⟨edge.node_based_to,edge.target,true⟩) ∨
    (¬ Transfers rg cur_node edge ∧ (∀ growth, add_edge_transfer growth cur_node rg edge = some rg) ∧
      TurnRestrictions.add_edge_transfer cur_node rg edge = rg) := by
  simp only [add_edge_transfer,TurnRestrictions.add_edge_transfer,Transfers,forbidden]
  split_ifs with transfer restricted can_transfer
  · exact .inr ⟨fun both => by simp [transfer] at both,fun _ => rfl,rfl⟩
  · exact .inr ⟨fun both => by simp [restricted] at both,fun _ => rfl,rfl⟩
  · exact .inl ⟨⟨by simpa using transfer,by simpa using restricted,by simpa using can_transfer⟩,fun _ => rfl,rfl⟩
  · exact .inr ⟨fun both => can_transfer (by simpa using both.2.2),fun _ => rfl,rfl⟩

private theorem Sized.add_edge_transfer (sized : Sized number rg) (inside : cur_node < number) (edge : RestrictionEdge) :
    Sized number (TurnRestrictions.add_edge_transfer cur_node rg edge) ∧
      rg.edges <+: (TurnRestrictions.add_edge_transfer cur_node rg edge).edges := by
  obtain ⟨-,-,same⟩ | ⟨-,-,same⟩ := add_edge_transfer_cases cur_node rg edge
  · exact same ▸ sized.insertEdge inside _
  · exact same.symm ▸ ⟨sized,prefix_refl _⟩

private theorem add_edge_transfer_ends (sized : Sized number rg) (inside : cur_node < number) (edge : RestrictionEdge) :
    Ends (add_edge_transfer growth cur_node rg edge) (Transfers rg cur_node edge → EdgeRoom growth rg cur_node)
      (TurnRestrictions.add_edge_transfer cur_node rg edge) := by
  obtain ⟨inRange,rfl⟩ := sized
  obtain ⟨made,runs,same⟩ | ⟨not_made,runs,same⟩ := add_edge_transfer_cases cur_node rg edge
  · rw [runs,same]
    exact (insertEdge_ends inRange inside _).congr ⟨fun room _ => room,fun room => room made⟩
  · rw [runs,same]
    exact (Ends.pure rg).congr (iff_of_true trivial fun made => absurd made not_made)

private theorem add_suffix_transfer_ends (sized : Sized number rg) (inside : cur_node < number) (known : suffix_node < number) :
    Ends (add_suffix_transfer growth cur_node rg suffix_node) (TransferRoom growth rg cur_node suffix_node)
      (TurnRestrictions.add_suffix_transfer cur_node rg suffix_node) := by
  have found := getElem?_eq_getElem (sized.2.symm ▸ known : suffix_node < rg.nodes.length)
  simp only [add_suffix_transfer,TurnRestrictions.add_suffix_transfer,TransferRoom,RestrictionGraph.GetEdges,found,bind_eq_bind,bind_some]
  exact forRange_ends (Sized number) (fun _ sized edge => add_edge_transfer_ends sized inside edge)
    (fun _ sized edge => (sized.add_edge_transfer inside edge).1) (fun _ sized edge => (sized.add_edge_transfer inside edge).2) sized
    (prefix_refl _) (sized.1.edges _ (getElem_mem _))

private theorem add_suffix_restrictions_ends (sized : Sized number rg) (inside : cur_node < number) (known : suffix_node < number) :
    Ends (add_suffix_restrictions growth cur_node rg suffix_node) (AnnotateRoom growth rg cur_node suffix_node)
      (TurnRestrictions.add_suffix_restrictions cur_node rg suffix_node) := by
  have found := getElem?_eq_getElem (sized.2.symm ▸ known : suffix_node < rg.nodes.length)
  simp only [add_suffix_restrictions,TurnRestrictions.add_suffix_restrictions,AnnotateRoom,RestrictionGraph.GetRestrictions,found,
    bind_eq_bind,bind_some]
  exact forRange_ends (Sized number) (fun _ sized => insertRestriction_ends sized.1 (sized.2.symm ▸ inside))
    (fun _ sized restriction => (sized.insertRestriction inside restriction).1)
    (fun _ sized restriction => (sized.insertRestriction inside restriction).2) sized (prefix_refl _) (sized.1.restrictions _ (getElem_mem _))

private theorem Sized.foldl {f : RestrictionGraph OpeningHours → Item → RestrictionGraph OpeningHours} (items : List Item)
    (kept : ∀ rg, Sized number rg → ∀ item, Sized number (f rg item)) (sized : Sized number rg) : Sized number (items.foldl f rg) := by
  induction items generalizing rg with
  | nil => exact sized
  | cons item rest ih => exact ih (kept rg sized item)

private theorem Sized.add_suffix_transfer (sized : Sized number rg) (inside : cur_node < number) (suffix_node : RestrictionID) :
    Sized number (TurnRestrictions.add_suffix_transfer cur_node rg suffix_node) :=
  sized.foldl _ fun _ sized edge => (sized.add_edge_transfer inside edge).1

private theorem Sized.add_suffix_restrictions (sized : Sized number rg) (inside : cur_node < number) (suffix_node : RestrictionID) :
    Sized number (TurnRestrictions.add_suffix_restrictions cur_node rg suffix_node) :=
  sized.foldl _ fun _ sized restriction => (sized.insertRestriction inside restriction).1

end Steps

/-! ### The builders -/

section Builders
variable {growth : Growth} {rg : RestrictionGraph OpeningHours} {known finished : List (Pointer OpeningHours)} {names done : List (List NodeID)}
  {w u : List NodeID} {a : NodeID}

private theorem pathBuilder.next_ends (builder : pathBuilder OpeningHours) (tree : PrefixTree known finished names builder.rg)
    (named : names[builder.cur_node]? = some w) (from_node to_node : NodeID) :
    Ends (pathBuilder.next growth builder from_node to_node) (StepRoom growth builder (from_node,to_node)) (builder.next from_node to_node) := by
  rw [pathBuilder.next,TurnRestrictions.pathBuilder.next]
  cases found : (builder.rg.GetEdges builder.cur_node).find? fun edge => edge.node_based_to == to_node with
  | some edge =>
    refine (Ends.pure _).congr (iff_of_true trivial fun absent => absurd ?_ (absent edge (mem_of_find?_eq_some found)))
    simpa using find?_some found
  | none =>
    have absent : ∀ edge ∈ builder.rg.GetEdges builder.cur_node, edge.node_based_to ≠ to_node := by simpa using find?_eq_none.mp found
    have added : NodeAdded builder.rg (builder.rg.insertViaNode from_node to_node).1 := ⟨rfl,rfl,rfl⟩
    have inside := tree.inside named
    have inserted := @insertEdge_ends _ growth _ _ (added.inRange tree.inRange)
      (by rw [added.nodes,length_append]; exact Nat.lt_add_right _ inside)
      ⟨to_node,(builder.rg.insertViaNode from_node to_node).2,false⟩
    refine (inserted.map fun rg => (⟨rg,(builder.rg.insertViaNode from_node to_node).2⟩ : TurnRestrictions.pathBuilder OpeningHours)).congr ?_
    rw [StepRoom,forall_prop_of_true absent,EdgeRoom,EdgeRoom,added.nodes,added.edges,getElem?_append_left inside]

private theorem nexts_ends (rest : List NodeID) (b : NodeID) (builder : pathBuilder OpeningHours) (tree : PrefixTree known finished names builder.rg)
    (named : names[builder.cur_node]? = some (w ++ [b])) (used : ∃ p ∈ known, w ++ [b] ++ rest <+: pathOf p) :
    Ends ((pairs (b :: rest)).foldlM (fun builder edge => pathBuilder.next growth builder edge.1 edge.2) builder)
      (Fitting (fun builder edge => builder.next edge.1 edge.2) (StepRoom growth) builder (pairs (b :: rest)))
      ((pairs (b :: rest)).foldl (fun builder edge => builder.next edge.1 edge.2) builder) := by
  induction rest generalizing b builder names w with
  | nil => exact .pure builder
  | cons c rest ih =>
    obtain ⟨p,member,begins⟩ := used
    rw [append_cons] at begins
    obtain ⟨names',-,tree',named'⟩ := tree.next builder named b c ⟨p,member,(prefix_append _ _).trans begins⟩
    exact (pathBuilder.next_ends builder tree named b c).bind (ih c (builder.next b c) tree' named' ⟨p,member,begins⟩)

private theorem buildPath_ends (tree : PrefixTree known finished names rg) (keyed : PrefixTree.Keyed names rg) {p : Pointer OpeningHours}
    (member : p ∈ known) : Ends (buildPath growth rg p) (PathRoom growth rg p) (buildPaths rg [p]) := by
  obtain ⟨rest,path,via⟩ := path_split p
  obtain ⟨names',grown,started,named⟩ := tree.getOrInsertStartNode ⟨p,member,path ▸ prefix_append _ _⟩
  have used : ∃ p' ∈ known, [p.1.turn_path.From] ++ [p.1.turn_path.FirstVia] ++ rest <+: pathOf p' := ⟨p,member,path ▸ prefix_refl _⟩
  obtain ⟨names'',-,walked,reached,-⟩ := PrefixTree.nexts (w := [_]) rest _ (TurnRestrictions.pathBuilder.start rg _ _) started named used
    (keyed.grow grown (getOrInsertStartNode_vias rg _ _))
  have steps := @nexts_ends _ growth _ _ _ [_] rest _ (TurnRestrictions.pathBuilder.start rg _ _) started named used
  have last := @insertRestriction_ends _ growth _ _ walked.inRange (walked.inside reached) p
  rw [← via] at steps last
  exact steps.bind last

private theorem buildPaths_ends (turn_restrictions : List (Pointer OpeningHours)) :
    Ends (turn_restrictions.foldlM (buildPath growth) RestrictionGraph.empty)
      (Fitting (fun rg restriction => buildPaths rg [restriction]) (PathRoom growth) RestrictionGraph.empty turn_restrictions)
      (buildPaths RestrictionGraph.empty turn_restrictions) := by
  refine foldlM_ends (fun rg => ∃ finished names, PrefixTree turn_restrictions finished names rg ∧ PrefixTree.Keyed names rg)
    turn_restrictions ?_ ?_ ⟨[],[],.empty _,fun key id member => absurd member not_mem_nil⟩
  · rintro rg ⟨finished,names,tree,keyed⟩ p member
    exact buildPath_ends tree keyed member
  · rintro rg ⟨finished,names,tree,keyed⟩ p member
    obtain ⟨names',tree',keyed'⟩ := buildPaths_tree tree (fun q single => mem_singleton.mp single ▸ member) keyed
    exact ⟨_,names',tree',keyed'⟩

private theorem transferBuilder.next_ends (builder : transferBuilder OpeningHours) (visiting : Visiting known names done builder.rg)
    (paths : PathNames known names) (enough : 1 ≤ u.length) (named : names[builder.cur_node]? = some (u ++ [a]))
    (suffixes : Suffixes names (u ++ [a]) builder.suffix_nodes) (b : NodeID) (next : u ++ [a] ++ [b] ∈ names) :
    Ends (transferBuilder.next growth builder a b) (VisitRoom growth builder (a,b)) (builder.next a b) := by
  obtain ⟨target,there⟩ := mem_iff_getElem?.mp next
  have tree_edge := (visiting.linked.edges builder.cur_node _ named ⟨b,target,false⟩ rfl).mpr there
  obtain ⟨edge,found⟩ : ∃ edge, ((builder.rg.GetEdges builder.cur_node).find? fun edge => edge.node_based_to == b) = some edge :=
    Option.isSome_iff_exists.mp (find?_isSome.mpr ⟨_,tree_edge,by simp⟩)
  have shape : builder.next a b = ⟨(builder.next_suffixes a b).foldl (TurnRestrictions.add_suffix_restrictions edge.target)
      ((builder.next_suffixes a b).foldl (TurnRestrictions.add_suffix_transfer edge.target) builder.rg),
      builder.next_suffixes a b,edge.target⟩ := by rw [TurnRestrictions.transferBuilder.next,found]
  obtain ⟨-,reached,endings⟩ := visiting.next builder paths enough named suffixes b next
  rw [VisitRoom]
  rw [shape] at reached endings ⊢
  have inside := visiting.linked.inside reached
  have known_suffix : ∀ id ∈ builder.next_suffixes a b, id < builder.rg.nodes.length := by
    intro id member
    obtain ⟨s,named_s,-⟩ := endings.named id member
    exact visiting.linked.inside named_s
  have sized : Sized builder.rg.nodes.length builder.rg := ⟨visiting.linked.inRange,rfl⟩
  have transfers := foldlM_ends (Sized builder.rg.nodes.length) (builder.next_suffixes a b)
    (fun _ sized id member => @add_suffix_transfer_ends _ growth _ _ _ _ sized inside (known_suffix id member))
    (fun _ sized id _ => sized.add_suffix_transfer inside id) sized
  have annotations := foldlM_ends (Sized builder.rg.nodes.length) (builder.next_suffixes a b)
    (fun _ sized id member => @add_suffix_restrictions_ends _ growth _ _ _ _ sized inside (known_suffix id member))
    (fun _ sized id _ => sized.add_suffix_restrictions inside id)
    (sized.foldl (builder.next_suffixes a b) fun _ sized id => sized.add_suffix_transfer inside id)
  rw [transferBuilder.next,found]
  exact transfers.bind (annotations.map _)

private theorem visits_end (paths : PathNames known names) (rest : List NodeID) (b : NodeID) (builder : transferBuilder OpeningHours)
    (visiting : Visiting known names done builder.rg) (enough : 1 ≤ u.length) (named : names[builder.cur_node]? = some (u ++ [b]))
    (suffixes : Suffixes names (u ++ [b]) builder.suffix_nodes) (whole : u ++ [b] ++ rest ∈ names) :
    Ends ((pairs (b :: rest)).foldlM (fun builder edge => transferBuilder.next growth builder edge.1 edge.2) builder)
      (Fitting (fun builder edge => builder.next edge.1 edge.2) (VisitRoom growth) builder (pairs (b :: rest)))
      ((pairs (b :: rest)).foldl (fun builder edge => builder.next edge.1 edge.2) builder) := by
  induction rest generalizing u b builder done with
  | nil => exact .pure builder
  | cons c rest ih =>
    rw [append_cons] at whole
    have next : u ++ [b] ++ [c] ∈ names := by
      apply paths.of_prefix whole (prefix_append _ _)
      simp only [length_append,length_singleton]
      omega
    obtain ⟨visiting',named',suffixes'⟩ := visiting.next builder paths enough named suffixes c next
    exact (transferBuilder.next_ends builder visiting paths enough named suffixes c next).bind
      (ih c (builder.next b c) visiting' (by simp) named' suffixes' whole)

private theorem buildTransfer_ends (visiting : Visiting known names done rg) (paths : PathNames known names) {p : Pointer OpeningHours}
    (member : p ∈ known) : Ends (buildTransfer growth rg p) (VisitsRoom growth rg p) (buildTransfers rg [p]) := by
  obtain ⟨rest,path,via⟩ := path_split p
  have whole := paths.paths p member
  have first_edge := paths.of_prefix whole (path ▸ prefix_append _ _) le_rfl
  obtain ⟨id,named⟩ := mem_iff_getElem?.mp first_edge
  have started : rg.getOrInsertStartNode p.1.turn_path.From p.1.turn_path.FirstVia = (rg,id) := by
    rw [RestrictionGraph.getOrInsertStartNode,(visiting.linked.start _ _ id).mpr named]
  have start : TurnRestrictions.transferBuilder.start rg p.1.turn_path.From p.1.turn_path.FirstVia = ⟨rg,[],id⟩ := by
    rw [TurnRestrictions.transferBuilder.start,started]
  rw [path] at whole
  have walked := @visits_end _ growth _ _ _ [_] paths rest p.1.turn_path.FirstVia ⟨rg,[],id⟩ visiting le_rfl named
    (Suffixes.start paths _ _) whole
  rw [← via,← start] at walked
  exact walked.map _

private theorem buildTransfers_end (visiting : Visiting known names done rg) (paths : PathNames known names) :
    Ends (known.foldlM (buildTransfer growth) rg)
      (Fitting (fun rg restriction => buildTransfers rg [restriction]) (VisitsRoom growth) rg known) (buildTransfers rg known) := by
  refine foldlM_ends (fun rg => ∃ done, Visiting known names done rg) known ?_ ?_ ⟨done,visiting⟩
  · rintro rg ⟨done,visiting⟩ p member
    exact buildTransfer_ends visiting paths member
  · rintro rg ⟨done,visiting⟩ p member
    exact ⟨_,buildTransfers_visits visiting paths fun q single => mem_singleton.mp single ▸ member⟩

/-- There is a graph, the one of the lists, if and only if there is room in every step. -/
theorem constructRestrictionGraph_ends (growth : Growth) (std : StdPartition) (turn_restrictions : List (TurnRestriction OpeningHours)) :
    Ends (constructRestrictionGraph growth std turn_restrictions) (Roomy growth turn_restrictions)
      (TurnRestrictions.constructRestrictionGraph std turn_restrictions) := by
  obtain ⟨names,tree,-⟩ := buildPaths_tree (PrefixTree.empty turn_restrictions.zipIdx) (fun p member => member)
    (fun key id member => absurd member not_mem_nil)
  rw [nil_append] at tree
  exact (buildPaths_ends turn_restrictions.zipIdx).bind ((buildTransfers_end tree.visiting tree.pathNames).map (renumber std))

end Builders

/-- The graph tracks the active restrictions if and only if nothing is read behind a move: a walk that takes no forbidden
    turn is then at the node whose restrictions are the active ones, no two edges of a node are for the same next node, and
    the via nodes are in front. -/
theorem tracks_iff_roomy (growth : Growth) (std : StdPartition) (turn_restrictions : List (TurnRestriction OpeningHours)) :
    (∃ rg, constructRestrictionGraph growth std turn_restrictions = some rg ∧
      (∀ walk, Permitted turn_restrictions.zipIdx walk →
        ∀ p, p ∈ rg.restrictionsAt (rg.follow walk) ↔ Active turn_restrictions.zipIdx walk p) ∧
      (∀ id, ((rg.GetEdges id).map (·.node_based_to)).Nodup) ∧
      ∀ id, (∃ key, (key,id) ∈ rg.via_edge_to_node) ↔ id < rg.num_via_nodes) ↔
    Roomy growth turn_restrictions :=
  ((constructRestrictionGraph_ends growth std turn_restrictions).some_iff _).trans
    (and_iff_left (restriction_graph_tracks std turn_restrictions))

/-- Two restrictions of an ending are copied behind a third one, into a vector of four that is full. -/
def fullVector : List (TurnRestriction ℕ) :=
  [⟨.ViaNodePath 1 2 7,false,[]⟩,⟨.ViaNodePath 1 2 8,false,[]⟩,⟨.ViaWayPath 0 [1,2] 5 (by simp),false,[]⟩,⟨.ViaNodePath 20 21 22,false,[]⟩]

/-- The first of the two is inserted, and the second one is read behind the move. -/
theorem tracks_iff_roomy_counterexample :
    ¬ ∃ rg, constructRestrictionGraph doubling Osrm.BisectionPartition.stablePartition fullVector = some rg ∧
      (∀ walk, Permitted fullVector.zipIdx walk →
        ∀ p, p ∈ rg.restrictionsAt (rg.follow walk) ↔ Active fullVector.zipIdx walk p) ∧
      (∀ id, ((rg.GetEdges id).map (·.node_based_to)).Nodup) ∧
      ∀ id, (∃ key, (key,id) ∈ rg.via_edge_to_node) ↔ id < rg.num_via_nodes := by
  have undefined : constructRestrictionGraph doubling Osrm.BisectionPartition.stablePartition fullVector = none := rfl
  rintro ⟨rg,built,-⟩
  rw [undefined] at built
  cases built

/-- No node has a restriction twice if and only if nothing is read behind a move, and no visit takes over from a node that
    was visited before and has a restriction of a shorter path. -/
theorem restrictions_once_iff_roomy (growth : Growth) (std : StdPartition) (turn_restrictions : List (TurnRestriction OpeningHours)) :
    (∃ rg, constructRestrictionGraph growth std turn_restrictions = some rg ∧ ∀ id, (rg.GetRestrictions id).Nodup) ↔
      Roomy growth turn_restrictions ∧ Unrepeated turn_restrictions.zipIdx (visits turn_restrictions.zipIdx) := by
  rw [(constructRestrictionGraph_ends growth std turn_restrictions).some_iff,restrictions_once_iff]

def sharedEnding : List (TurnRestriction ℕ) :=
  [⟨.ViaWayPath 0 [1,2] 5 (by simp),false,[]⟩,⟨.ViaWayPath 0 [1,2] 6 (by simp),false,[]⟩,⟨.ViaNodePath 1 2 7,false,[]⟩]

/-- Nothing moves under a range here, but each of the two visits of the shared node adds the third restriction. -/
theorem restriction_twice : sharedEnding.Nodup ∧ ∃ rg,
    constructRestrictionGraph doubling Osrm.BisectionPartition.stablePartition sharedEnding = some rg ∧
      ¬ ∀ id, (rg.GetRestrictions id).Nodup := by
  have ends := constructRestrictionGraph_ends doubling Osrm.BisectionPartition.stablePartition sharedEnding
  obtain ⟨rg,built⟩ := isSome_iff_exists.mp
    (by decide +kernel : (constructRestrictionGraph doubling Osrm.BisectionPartition.stablePartition sharedEnding).isSome = true)
  obtain ⟨-,rfl⟩ := (ends rg).mp built
  refine ⟨Nodup.of_map (·.turn_path.To) (by decide),_,built,fun once => ?_⟩
  have at_shared : (TurnRestrictions.constructRestrictionGraph Osrm.BisectionPartition.stablePartition sharedEnding).GetRestrictions 0 =
      [(sharedEnding[0],0),(sharedEnding[1],1),(sharedEnding[2],2),(sharedEnding[2],2)] := rfl
  have distinct := once 0
  rw [at_shared] at distinct
  simp at distinct

/-- The example that the header explains the graph with has room. -/
example : (constructRestrictionGraph doubling Osrm.BisectionPartition.stablePartition
    ([⟨.ViaWayPath 0 [1,3] 4 (by simp),false,[]⟩,⟨.ViaWayPath 0 [1,2] 3 (by simp),true,[]⟩,⟨.ViaWayPath 1 [2,3] 5 (by simp),true,[]⟩,
      ⟨.ViaNodePath 1 2 6,false,[]⟩,⟨.ViaWayPath 4 [1,3] 6 (by simp),false,[]⟩] : List (TurnRestriction ℕ))).isSome = true := by decide +kernel

end Osrm.RestrictionVectors
