import Osrm.TurnRestrictions

/-!
The transfers of the restriction graph. At a node of the prefix tree the second builder knows the nodes of all shorter
paths that its path ends with, the longest first; it takes over their restrictions and the edges whose turns it has no
edge for.
-/
namespace Osrm.TurnRestrictions
open List
open Typedefs
open RestrictionGraph (insertEdge insertRestriction getOrInsertStartNode)

variable {OpeningHours : Type}

def forbidden (rg : RestrictionGraph OpeningHours) (id : RestrictionID) (to_node : NodeID) : Bool :=
  (rg.GetRestrictions id).any fun restriction => restriction.1.IsTurnRestricted to_node && restriction.1.IsUnconditional

/-- What the paths of the nodes are: those of the restrictions and their beginnings. -/
structure PathNames (known : List (Pointer OpeningHours)) (names : List (List NodeID)) : Prop where
  distinct : names.Nodup
  long : ∀ w ∈ names, 2 ≤ w.length
  init : ∀ w a, w ++ [a] ∈ names → 2 ≤ w.length → w ∈ names
  used : ∀ w ∈ names, ∃ p ∈ known, w <+: pathOf p
  paths : ∀ p ∈ known, pathOf p ∈ names

/-- The prefix tree with transfers. An edge leads to the longest ending that has a node; a node of a visited path has an
    edge wherever some ending goes on, unless a restriction of this very path forbids the turn. -/
structure Linked (known : List (Pointer OpeningHours)) (names : List (List NodeID)) (visited : List NodeID → Prop)
    (rg : RestrictionGraph OpeningHours) : Prop where
  inRange : InRange rg
  size : rg.nodes.length = names.length
  start : ∀ a b id, rg.start_edge_to_node (a,b) = some id ↔ names[id]? = some [a,b]
  via : ∀ id, (∃ key, (key,id) ∈ rg.via_edge_to_node) ↔ ∃ w, names[id]? = some w ∧ 3 ≤ w.length
  edges : ∀ id w, names[id]? = some w → ∀ edge, edge.is_transfer = false →
    (edge ∈ rg.GetEdges id ↔ names[edge.target]? = some (w ++ [edge.node_based_to]))
  labels : ∀ id, ((rg.GetEdges id).map (·.node_based_to)).Nodup
  leads : ∀ id w, names[id]? = some w → ∀ edge ∈ rg.GetEdges id, ∃ s, s <:+ w ∧ 2 ≤ s.length ∧
    names[edge.target]? = some (s ++ [edge.node_based_to]) ∧
    ∀ v, v <:+ w → v ++ [edge.node_based_to] ∈ names → v.length ≤ s.length
  complete : ∀ id w, names[id]? = some w → visited w → ∀ s a, s <:+ w → s ∈ names → s ++ [a] ∈ names →
    (∀ p ∈ known, pathOf p = w → p.1.IsUnconditional = true → p.1.IsTurnRestricted a = false) →
    ∃ edge ∈ rg.GetEdges id, edge.node_based_to = a

/-- The restrictions of the nodes. Before the visit they are those of the path, after it those of all its endings. -/
structure Attached (known : List (Pointer OpeningHours)) (names : List (List NodeID)) (visited : List NodeID → Prop)
    (rg : RestrictionGraph OpeningHours) : Prop where
  own : ∀ id, ∀ p ∈ known, names[id]? = some (pathOf p) → p ∈ rg.GetRestrictions id
  sound : ∀ id w, names[id]? = some w → ∀ p ∈ rg.GetRestrictions id, p ∈ known ∧ pathOf p <:+ w
  fresh : ∀ id w, names[id]? = some w → ¬ visited w → ∀ p ∈ rg.GetRestrictions id, pathOf p = w
  endings : ∀ id w, names[id]? = some w → visited w → ∀ p ∈ known, pathOf p <:+ w → p ∈ rg.GetRestrictions id

section FirstPass
variable {known : List (Pointer OpeningHours)} {names : List (List NodeID)} {rg : RestrictionGraph OpeningHours}

theorem PrefixTree.pathNames (tree : PrefixTree known known names rg) : PathNames known names where
  distinct := tree.distinct
  long := tree.long
  init := tree.init
  used := tree.used
  paths := tree.paths

private theorem PrefixTree.linked (tree : PrefixTree known known names rg) : Linked known names (fun w => w.length ≤ 2) rg where
  inRange := tree.inRange
  size := tree.size
  start := tree.start
  via := tree.via
  edges id w named edge kind := by
    rw [tree.edges id w named]
    exact and_iff_right kind
  labels := tree.labels
  leads id w named edge member := by
    refine ⟨w,suffix_refl w,tree.long w (mem_of_getElem? named),((tree.edges id w named edge).mp member).2,?_⟩
    exact fun v ends _ => ends.length_le
  complete id w named short s a ends known_s next _ := by
    obtain rfl : s = w := ends.eq_of_length_le (short.trans (tree.long s known_s))
    obtain ⟨target,there⟩ := mem_iff_getElem?.mp next
    exact ⟨⟨a,target,false⟩,(tree.edges id s named _).mpr ⟨rfl,there⟩,rfl⟩

private theorem PrefixTree.attachedAlone (tree : PrefixTree known known names rg) : Attached known names (fun w => w.length ≤ 2) rg where
  own id p member named := (tree.attached id _ named p).mpr ⟨member,rfl⟩
  sound id w named p member := by
    obtain ⟨inside,rfl⟩ := (tree.attached id w named p).mp member
    exact ⟨inside,suffix_refl _⟩
  fresh id w named _ p member := ((tree.attached id w named p).mp member).2
  endings id w named short p member ends := by
    have same := ends.eq_of_length_le (short.trans (tree.long _ (tree.paths p member)))
    exact (tree.attached id w named p).mpr ⟨member,same⟩

end FirstPass

namespace PathNames
variable {known : List (Pointer OpeningHours)} {names : List (List NodeID)} {w v : List NodeID} {id id' : RestrictionID}

private theorem same_id (paths : PathNames known names) (named : names[id]? = some w) (named' : names[id']? = some w) : id = id' :=
  (getElem?_inj (List.getElem?_eq_some_iff.mp named).1 paths.distinct).mp (named.trans named'.symm)

theorem of_prefix (paths : PathNames known names) (member : v ∈ names) (begins : w <+: v) (enough : 2 ≤ w.length) : w ∈ names := by
  obtain ⟨rest,rfl⟩ := begins
  induction rest using List.reverseRecOn with
  | nil => rwa [append_nil] at member
  | append_singleton rest a ih =>
    rw [← append_assoc] at member
    refine ih (paths.init _ a member ?_)
    rw [length_append]
    omega

end PathNames

/-! ### Transfers to one node -/

structure Extends (cur_node : RestrictionID) (rg rg' : RestrictionGraph OpeningHours) : Prop where
  restrictions : ∀ id, rg'.GetRestrictions id = rg.GetRestrictions id
  others : ∀ id, id ≠ cur_node → rg'.GetEdges id = rg.GetEdges id
  more : rg.GetEdges cur_node ⊆ rg'.GetEdges cur_node

/-- Where the ending goes on, the node has an edge, unless the turn is forbidden at it. -/
def Covered (names : List (List NodeID)) (rg : RestrictionGraph OpeningHours) (cur_node : RestrictionID) (s : List NodeID) : Prop :=
  ∀ a, s ++ [a] ∈ names → forbidden rg cur_node a = false → ∃ edge ∈ rg.GetEdges cur_node, edge.node_based_to = a

section Transfers
variable {known : List (Pointer OpeningHours)} {names : List (List NodeID)} {visited : List NodeID → Prop}
variable {rg rg' rg'' : RestrictionGraph OpeningHours} {cur_node : RestrictionID} {w s : List NodeID} {edge : RestrictionEdge}

private theorem Extends.refl (cur_node : RestrictionID) (rg : RestrictionGraph OpeningHours) : Extends cur_node rg rg :=
  ⟨fun _ => rfl,fun _ _ => rfl,Subset.refl _⟩

private theorem Extends.trans (first : Extends cur_node rg rg') (second : Extends cur_node rg' rg'') : Extends cur_node rg rg'' where
  restrictions id := (second.restrictions id).trans (first.restrictions id)
  others id other := (second.others id other).trans (first.others id other)
  more := Subset.trans first.more second.more

private theorem Extends.forbidden_eq (grown : Extends cur_node rg rg') (a : NodeID) : forbidden rg' cur_node a = forbidden rg cur_node a := by
  rw [forbidden,forbidden,grown.restrictions]

private theorem Extends.covered (grown : Extends cur_node rg rg') (covered : Covered names rg cur_node s) : Covered names rg' cur_node s := by
  intro a next free
  rw [grown.forbidden_eq] at free
  obtain ⟨edge,member,label⟩ := covered a next free
  exact ⟨edge,grown.more member,label⟩

private theorem Extends.attached (grown : Extends cur_node rg rg') (attached : Attached known names visited rg) :
    Attached known names visited rg' := by
  constructor
  · intro id p member named
    rw [grown.restrictions]
    exact attached.own id p member named
  · intro id w named
    rw [grown.restrictions]
    exact attached.sound id w named
  · intro id w named
    rw [grown.restrictions]
    exact attached.fresh id w named
  · intro id w named
    rw [grown.restrictions]
    exact attached.endings id w named

namespace Linked

theorem inside (linked : Linked known names visited rg) (named : names[cur_node]? = some w) : cur_node < rg.nodes.length :=
  linked.size ▸ (List.getElem?_eq_some_iff.mp named).1

private theorem insertTransfer (linked : Linked known names visited rg) (named : names[cur_node]? = some w) {target : RestrictionID}
    (ends : s <:+ w) (enough : 2 ≤ s.length) (leads : names[target]? = some (s ++ [a]))
    (greatest : ∀ v, v <:+ w → v ++ [a] ∈ names → v.length ≤ s.length) (absent : ∀ edge ∈ rg.GetEdges cur_node, edge.node_based_to ≠ a) :
    Linked known names visited (insertEdge rg cur_node ⟨a,target,true⟩) ∧
      Extends cur_node rg (insertEdge rg cur_node ⟨a,target,true⟩) := by
  have inserted := insertEdge_spec linked.inRange (linked.inside named) ⟨a,target,true⟩
  have grows (id : RestrictionID) : rg.GetEdges id ⊆ (insertEdge rg cur_node ⟨a,target,true⟩).GetEdges id := by
    rw [inserted.edges]
    split
    case isTrue here =>
      rw [here]
      exact subset_append_left _ _
    case isFalse => exact Subset.refl _
  have known_edge {id : RestrictionID} {edge : RestrictionEdge} (member : edge ∈ (insertEdge rg cur_node ⟨a,target,true⟩).GetEdges id) :
      edge ∈ rg.GetEdges id ∨ (id = cur_node ∧ edge = ⟨a,target,true⟩) := by
    rw [inserted.edges] at member
    split at member
    case isTrue here =>
      rcases mem_append.mp member with old | new
      · exact .inl (here ▸ old)
      · exact .inr ⟨here,mem_singleton.mp new⟩
    case isFalse => exact .inl member
  constructor
  · refine ⟨inserted.inRange,inserted.length.trans linked.size,?_,?_,?_,?_,?_,?_⟩
    · rw [inserted.starts]
      exact linked.start
    · rw [inserted.vias]
      exact linked.via
    · intro id v named' edge kind
      rw [← linked.edges id v named' edge kind]
      refine ⟨fun member => ?_,fun member => grows id member⟩
      rcases known_edge member with old | ⟨-,rfl⟩
      · exact old
      · exact absurd kind (by simp)
    · intro id
      rw [inserted.edges]
      split
      case isTrue =>
        rw [map_append,nodup_append]
        refine ⟨linked.labels _,nodup_singleton _,?_⟩
        intro label member other single same
        obtain ⟨edge,inside,rfl⟩ := mem_map.mp member
        exact absent edge inside (same.trans (mem_singleton.mp single))
      case isFalse => exact linked.labels id
    · intro id v named' edge member
      rcases known_edge member with old | ⟨rfl,rfl⟩
      · exact linked.leads id v named' edge old
      · obtain rfl : w = v := Option.some.inj (named.symm.trans named')
        exact ⟨s,ends,enough,leads,greatest⟩
    · intro id v named' done t b ends' known_t next free
      obtain ⟨edge,member,label⟩ := linked.complete id v named' done t b ends' known_t next free
      exact ⟨edge,grows id member,label⟩
  · refine ⟨inserted.restrictions,?_,grows cur_node⟩
    intro id other
    rw [inserted.edges,if_neg other]

private theorem covered_self (linked : Linked known names visited rg) (named : names[cur_node]? = some w) : Covered names rg cur_node w := by
  intro a next _
  obtain ⟨target,there⟩ := mem_iff_getElem?.mp next
  exact ⟨⟨a,target,false⟩,(linked.edges cur_node w named _ rfl).mpr there,rfl⟩

private theorem add_edge (linked : Linked known names visited rg) (paths : PathNames known names) (named : names[cur_node]? = some w)
    (ends : s <:+ w) (enough : 2 ≤ s.length) (leads : edge.is_transfer = false → names[edge.target]? = some (s ++ [edge.node_based_to]))
    (longer : ∀ v, v <:+ w → v ∈ names → s.length < v.length → Covered names rg cur_node v) :
    Linked known names visited (add_edge_transfer cur_node rg edge) ∧ Extends cur_node rg (add_edge_transfer cur_node rg edge) ∧
      (edge.is_transfer = false → forbidden rg cur_node edge.node_based_to = false →
        ∃ found ∈ (add_edge_transfer cur_node rg edge).GetEdges cur_node, found.node_based_to = edge.node_based_to) := by
  have kept : Linked known names visited rg ∧ Extends cur_node rg rg := ⟨linked,.refl _ _⟩
  rw [add_edge_transfer]
  by_cases transfer : edge.is_transfer = true
  · rw [if_pos transfer]
    exact ⟨kept.1,kept.2,fun tree_edge => by simp [transfer] at tree_edge⟩
  rw [if_neg transfer]
  rw [Bool.not_eq_true] at transfer
  by_cases restricted : forbidden rg cur_node edge.node_based_to = true
  · rw [if_pos (by exact restricted)]
    exact ⟨kept.1,kept.2,fun _ free => by simp [restricted] at free⟩
  rw [if_neg (by exact restricted)]
  rw [Bool.not_eq_true] at restricted
  by_cases can_transfer : (rg.GetEdges cur_node).all fun other => other.node_based_to != edge.node_based_to
  · rw [if_pos can_transfer]
    have absent : ∀ other ∈ rg.GetEdges cur_node, other.node_based_to ≠ edge.node_based_to := by simpa using can_transfer
    have greatest : ∀ v, v <:+ w → v ++ [edge.node_based_to] ∈ names → v.length ≤ s.length := by
      intro v ends' next
      by_contra more
      rw [not_le] at more
      have member := paths.init v _ next (enough.trans more.le)
      obtain ⟨other,inside,label⟩ := longer v ends' member more _ next restricted
      exact absent other inside label
    obtain ⟨linked',grown⟩ := linked.insertTransfer named ends enough (leads transfer) greatest absent
    refine ⟨linked',grown,fun _ _ => ?_⟩
    have inserted := insertEdge_spec linked.inRange (linked.inside named) ⟨edge.node_based_to,edge.target,true⟩
    refine ⟨⟨edge.node_based_to,edge.target,true⟩,?_,rfl⟩
    rw [inserted.edges,if_pos rfl]
    exact mem_append_right _ (mem_singleton_self _)
  · rw [if_neg can_transfer]
    refine ⟨kept.1,kept.2,fun _ _ => ?_⟩
    simpa using can_transfer

private theorem add_edges (linked : Linked known names visited rg) (paths : PathNames known names) (named : names[cur_node]? = some w)
    (ends : s <:+ w) (enough : 2 ≤ s.length) (edges : List RestrictionEdge)
    (leads : ∀ edge ∈ edges, edge.is_transfer = false → names[edge.target]? = some (s ++ [edge.node_based_to]))
    (longer : ∀ v, v <:+ w → v ∈ names → s.length < v.length → Covered names rg cur_node v) :
    Linked known names visited (edges.foldl (add_edge_transfer cur_node) rg) ∧
      Extends cur_node rg (edges.foldl (add_edge_transfer cur_node) rg) ∧
      ∀ edge ∈ edges, edge.is_transfer = false → forbidden rg cur_node edge.node_based_to = false →
        ∃ found ∈ (edges.foldl (add_edge_transfer cur_node) rg).GetEdges cur_node, found.node_based_to = edge.node_based_to := by
  induction edges generalizing rg with
  | nil => exact ⟨linked,.refl _ _,fun edge member => absurd member not_mem_nil⟩
  | cons edge edges ih =>
    obtain ⟨linked',grown,found⟩ := linked.add_edge paths named ends enough (leads edge (by simp)) longer
    obtain ⟨final,grown',rest⟩ := ih linked' (fun other later => leads other (mem_cons_of_mem _ later))
      fun v ends' member more => grown.covered (longer v ends' member more)
    refine ⟨final,grown.trans grown',fun other member kind free => ?_⟩
    rcases mem_cons.mp member with rfl | later
    · obtain ⟨there,inside,label⟩ := found kind free
      exact ⟨there,grown'.more inside,label⟩
    · exact rest other later kind ((grown.forbidden_eq _).trans free)

end Linked

/-- What the builder knows at a node: the nodes of the endings of its path, the longest first. -/
structure Suffixes (names : List (List NodeID)) (w : List NodeID) (suffix_nodes : List RestrictionID) : Prop where
  named : ∀ id ∈ suffix_nodes, ∃ s, names[id]? = some s ∧ s <:+ w ∧ s ≠ w
  all : ∀ s ∈ names, s <:+ w → s ≠ w → ∃ id ∈ suffix_nodes, names[id]? = some s
  shorter : suffix_nodes.Pairwise fun i j => ∀ s t, names[i]? = some s → names[j]? = some t → t.length < s.length

variable {suffix_nodes : List RestrictionID}

private theorem Linked.add_suffixes (linked : Linked known names visited rg) (paths : PathNames known names) (named : names[cur_node]? = some w)
    (inner : ∀ id ∈ suffix_nodes, ∃ s, names[id]? = some s ∧ s <:+ w ∧ s ≠ w)
    (shorter : suffix_nodes.Pairwise fun i j => ∀ s t, names[i]? = some s → names[j]? = some t → t.length < s.length)
    (covered : ∀ s ∈ names, s <:+ w → (∃ id ∈ suffix_nodes, names[id]? = some s) ∨ Covered names rg cur_node s) :
    Linked known names visited (suffix_nodes.foldl (add_suffix_transfer cur_node) rg) ∧
      Extends cur_node rg (suffix_nodes.foldl (add_suffix_transfer cur_node) rg) ∧
      ∀ s ∈ names, s <:+ w → Covered names (suffix_nodes.foldl (add_suffix_transfer cur_node) rg) cur_node s := by
  induction suffix_nodes generalizing rg with
  | nil =>
    refine ⟨linked,.refl _ _,fun s member ends => ?_⟩
    rcases covered s member ends with ⟨id,inside,-⟩ | here
    · exact absurd inside not_mem_nil
    · exact here
  | cons suffix_node suffix_nodes ih =>
    obtain ⟨s,named_s,ends,-⟩ := inner suffix_node (by simp)
    obtain ⟨below,shorter⟩ := pairwise_cons.mp shorter
    have longer : ∀ v, v <:+ w → v ∈ names → s.length < v.length → Covered names rg cur_node v := by
      intro v ends' member more
      rcases covered v member ends' with ⟨id,inside,named_v⟩ | here
      · exfalso
        rcases mem_cons.mp inside with rfl | later
        · obtain rfl : s = v := Option.some.inj (named_s.symm.trans named_v)
          exact lt_irrefl _ more
        · exact lt_asymm more (below id later s v named_s named_v)
      · exact here
    have leads : ∀ edge ∈ rg.GetEdges suffix_node, edge.is_transfer = false → names[edge.target]? = some (s ++ [edge.node_based_to]) :=
      fun edge member kind => (linked.edges suffix_node s named_s edge kind).mp member
    obtain ⟨linked',grown,found⟩ := linked.add_edges paths named ends (paths.long s (mem_of_getElem? named_s))
      (rg.GetEdges suffix_node) leads longer
    have own : Covered names (add_suffix_transfer cur_node rg suffix_node) cur_node s := by
      intro a next free
      obtain ⟨target,there⟩ := mem_iff_getElem?.mp next
      have member := (linked.edges suffix_node s named_s ⟨a,target,false⟩ rfl).mpr there
      exact found _ member rfl ((grown.forbidden_eq a).symm.trans free)
    obtain ⟨final,grown',done⟩ := ih linked' (fun id later => inner id (mem_cons_of_mem _ later)) shorter (by
      intro v member ends'
      rcases covered v member ends' with ⟨id,inside,named_v⟩ | here
      · rcases mem_cons.mp inside with rfl | later
        · obtain rfl : s = v := Option.some.inj (named_s.symm.trans named_v)
          exact .inr own
        · exact .inl ⟨id,later,named_v⟩
      · exact .inr (grown.covered here))
    exact ⟨final,grown.trans grown',done⟩

private theorem Linked.visit (linked : Linked known names visited rg) (attached : Attached known names visited rg)
    (paths : PathNames known names) (named : names[cur_node]? = some w) (suffixes : Suffixes names w suffix_nodes) :
    Linked known names (fun v => visited v ∨ v = w) (suffix_nodes.foldl (add_suffix_transfer cur_node) rg) ∧
      Extends cur_node rg (suffix_nodes.foldl (add_suffix_transfer cur_node) rg) := by
  have covered : ∀ s ∈ names, s <:+ w → (∃ id ∈ suffix_nodes, names[id]? = some s) ∨ Covered names rg cur_node s := by
    intro s member ends
    by_cases whole : s = w
    · exact .inr (whole ▸ linked.covered_self named)
    · exact .inl (suffixes.all s member ends whole)
  obtain ⟨linked',grown,done⟩ := linked.add_suffixes paths named suffixes.named suffixes.shorter covered
  refine ⟨⟨linked'.inRange,linked'.size,linked'.start,linked'.via,linked'.edges,linked'.labels,linked'.leads,?_⟩,grown⟩
  intro id v named' seen s a ends member next free
  by_cases before : visited v
  · exact linked'.complete id v named' before s a ends member next free
  · -- A first visit finds the restrictions of the path alone.
    obtain rfl := seen.resolve_left before
    obtain rfl := paths.same_id named named'
    apply done s member ends a next
    rw [grown.forbidden_eq,forbidden,any_eq_false]
    intro p there
    have inside := (attached.sound cur_node v named p there).1
    have same := attached.fresh cur_node v named before p there
    rw [Bool.and_eq_true,not_and_or]
    by_cases unconditional : p.1.IsUnconditional = true
    · exact .inl (by simp [free p inside same unconditional])
    · exact .inr unconditional

private theorem RestrictionsInserted.refl (inRange : InRange rg) (id : RestrictionID) : RestrictionsInserted rg id [] rg :=
  ⟨inRange,rfl,fun _ => rfl,fun id' => by rw [append_nil]; exact (ite_eq_right_iff.mpr (congrArg _ ·.symm)).symm,rfl,rfl⟩

private theorem RestrictionsInserted.trans {first second : List (Pointer OpeningHours)} (before : RestrictionsInserted rg cur_node first rg')
    (after : RestrictionsInserted rg' cur_node second rg'') : RestrictionsInserted rg cur_node (first ++ second) rg'' where
  inRange := after.inRange
  length := after.length.trans before.length
  edges id' := (after.edges id').trans (before.edges id')
  restrictions id' := by
    rw [after.restrictions,before.restrictions,before.restrictions,if_pos rfl,append_assoc]
    split <;> rfl
  starts := after.starts.trans before.starts
  vias := after.vias.trans before.vias

private theorem insertRestrictions_spec (inRange : InRange rg) (inside : cur_node < rg.nodes.length) (restrictions : List (Pointer OpeningHours)) :
    RestrictionsInserted rg cur_node restrictions
      (restrictions.foldl (fun rg restriction => insertRestriction rg cur_node restriction) rg) := by
  induction restrictions generalizing rg with
  | nil => exact .refl inRange cur_node
  | cons restriction restrictions ih =>
    have one := insertRestriction_spec inRange inside restriction
    exact one.trans (ih one.inRange (one.length.symm ▸ inside))

private theorem add_suffix_restrictions_spec (inRange : InRange rg) (inside : cur_node < rg.nodes.length) (other : cur_node ∉ suffix_nodes) :
    RestrictionsInserted rg cur_node (suffix_nodes.flatMap rg.GetRestrictions)
      (suffix_nodes.foldl (add_suffix_restrictions cur_node) rg) := by
  induction suffix_nodes generalizing rg with
  | nil => exact .refl inRange cur_node
  | cons suffix_node suffix_nodes ih =>
    rw [mem_cons,not_or] at other
    have one : RestrictionsInserted rg cur_node (rg.GetRestrictions suffix_node) (add_suffix_restrictions cur_node rg suffix_node) :=
      insertRestrictions_spec inRange inside _
    have rest := ih one.inRange (one.length.symm ▸ inside) other.2
    have same : suffix_nodes.flatMap (add_suffix_restrictions cur_node rg suffix_node).GetRestrictions =
        suffix_nodes.flatMap rg.GetRestrictions := by
      apply flatMap_congr
      intro id member
      rw [one.restrictions,if_neg (by rintro rfl; exact other.2 member)]
    rw [same] at rest
    exact one.trans rest

private theorem Linked.annotate {id : RestrictionID} {restrictions : List (Pointer OpeningHours)} (linked : Linked known names visited rg)
    (inserted : RestrictionsInserted rg id restrictions rg') : Linked known names visited rg' := by
  have edges : rg'.GetEdges = rg.GetEdges := funext inserted.edges
  refine ⟨inserted.inRange,inserted.length.trans linked.size,?_,?_,?_,?_,?_,?_⟩
  · exact inserted.starts ▸ linked.start
  · exact inserted.vias ▸ linked.via
  · exact edges ▸ linked.edges
  · exact edges ▸ linked.labels
  · exact edges ▸ linked.leads
  · exact edges ▸ linked.complete

private theorem Attached.visit (attached : Attached known names visited rg) (paths : PathNames known names) (named : names[cur_node]? = some w)
    (suffixes : Suffixes names w suffix_nodes)
    (inserted : RestrictionsInserted rg cur_node (suffix_nodes.flatMap rg.GetRestrictions) rg') :
    Attached known names (fun v => visited v ∨ v = w) rg' := by
  have kept (id : RestrictionID) : rg.GetRestrictions id ⊆ rg'.GetRestrictions id := by
    rw [inserted.restrictions]
    split
    case isTrue here =>
      rw [here]
      exact subset_append_left _ _
    case isFalse => exact Subset.refl _
  constructor
  · exact fun id p member named' => kept id (attached.own id p member named')
  · intro id v named' p member
    rw [inserted.restrictions] at member
    split at member
    case isFalse => exact attached.sound id v named' p member
    case isTrue here =>
      subst here
      obtain rfl : w = v := Option.some.inj (named.symm.trans named')
      rcases mem_append.mp member with old | new
      · exact attached.sound id w named p old
      · obtain ⟨suffix_node,inside,there⟩ := mem_flatMap.mp new
        obtain ⟨s,named_s,ends,-⟩ := suffixes.named suffix_node inside
        obtain ⟨known_p,ends_p⟩ := attached.sound suffix_node s named_s p there
        exact ⟨known_p,ends_p.trans ends⟩
  · intro id v named' unseen p member
    obtain ⟨before,other⟩ := not_or.mp unseen
    rw [inserted.restrictions,if_neg (by rintro rfl; exact other (Option.some.inj (named'.symm.trans named)))] at member
    exact attached.fresh id v named' before p member
  · intro id v named' seen p member ends
    by_cases before : visited v
    · exact kept id (attached.endings id v named' before p member ends)
    · obtain rfl := seen.resolve_left before
      obtain rfl := paths.same_id named named'
      by_cases whole : pathOf p = v
      · exact kept cur_node (attached.own cur_node p member (whole ▸ named))
      · obtain ⟨suffix_node,inside,named_p⟩ := suffixes.all (pathOf p) (paths.paths p member) ends whole
        rw [inserted.restrictions,if_pos rfl]
        exact mem_append_right _ (mem_flatMap.mpr ⟨suffix_node,inside,attached.own suffix_node p member named_p⟩)

/-- The nodes that the second builder visits, by their paths, once for each restriction whose path begins so. -/
def visits (restrictions : List (Pointer OpeningHours)) : List (List NodeID) :=
  restrictions.flatMap fun p => (pathOf p).inits.drop 3
/-- No visited node has a restriction of a shorter path when a later visit takes over what it has. -/
def Unrepeated (known : List (Pointer OpeningHours)) (visited : List (List NodeID)) : Prop :=
  visited.Pairwise fun s w => s <:+ w → ∀ p ∈ known, pathOf p <:+ s → pathOf p = s

instance (known : List (Pointer OpeningHours)) (visited : List (List NodeID)) : Decidable (Unrepeated known visited) :=
  inferInstanceAs (Decidable (visited.Pairwise fun s w => s <:+ w → ∀ p ∈ known, pathOf p <:+ s → pathOf p = s))

def Done (done : List (List NodeID)) (w : List NodeID) : Prop := w.length ≤ 2 ∨ w ∈ done

private theorem done_concat (done : List (List NodeID)) (w : List NodeID) : Done (done ++ [w]) = fun v => Done done v ∨ v = w := by
  funext v
  rw [Done,Done,mem_append,mem_singleton,or_assoc]

private theorem done_nil : Done [] = fun w => w.length ≤ 2 := by
  funext w
  rw [Done]
  simp

private theorem unrepeated_concat (known : List (Pointer OpeningHours)) (done : List (List NodeID)) (w : List NodeID) :
    Unrepeated known (done ++ [w]) ↔
      Unrepeated known done ∧ ∀ s ∈ done, s <:+ w → ∀ p ∈ known, pathOf p <:+ s → pathOf p = s := by
  rw [Unrepeated,pairwise_append]
  simp [Unrepeated]

section Visit
variable {done : List (List NodeID)} (attached : Attached known names (Done done) rg) (paths : PathNames known names)
include attached paths

private theorem Attached.own_path (clean : ∀ s ∈ done, s <:+ w → ∀ p ∈ known, pathOf p <:+ s → pathOf p = s) {id : RestrictionID}
    {s : List NodeID} (named : names[id]? = some s) (ends : s <:+ w) {p : Pointer OpeningHours} (member : p ∈ rg.GetRestrictions id) :
    pathOf p = s := by
  by_cases seen : Done done s
  · obtain ⟨known_p,inner⟩ := attached.sound id s named p member
    rcases seen with short | before
    · exact inner.eq_of_length_le (short.trans (paths.long _ (paths.paths p known_p)))
    · exact clean s before ends p known_p inner
  · exact attached.fresh id s named seen p member

variable (named : names[cur_node]? = some w) (suffixes : Suffixes names w suffix_nodes)
include named suffixes

private theorem Attached.visit_once (once : ∀ id, (rg.GetRestrictions id).Nodup)
    (clean : ∀ s ∈ done, s <:+ w → ∀ p ∈ known, pathOf p <:+ s → pathOf p = s) :
    (rg.GetRestrictions cur_node ++ suffix_nodes.flatMap rg.GetRestrictions).Nodup := by
  refine nodup_append.mpr ⟨once cur_node,nodup_flatMap.mpr ⟨fun id _ => once id,?_⟩,?_⟩
  · refine suffixes.shorter.imp_of_mem ?_
    intro i j memberI memberJ shorter p there there'
    obtain ⟨s,named_s,ends,-⟩ := suffixes.named i memberI
    obtain ⟨t,named_t,-,-⟩ := suffixes.named j memberJ
    have whole := attached.own_path paths clean named_s ends there
    have inner := (attached.sound j t named_t p there').2
    rw [whole] at inner
    exact absurd inner.length_le (not_le.mpr (shorter s t named_s named_t))
  · rintro p own _ taken rfl
    obtain ⟨i,member,there⟩ := mem_flatMap.mp taken
    obtain ⟨s,named_s,ends,other⟩ := suffixes.named i member
    have whole := attached.own_path paths clean named (suffix_refl w) own
    have inner := (attached.sound i s named_s p there).2
    rw [whole] at inner
    exact other (ends.eq_of_length_le inner.length_le)

private theorem Attached.visit_repeats (names_done : ∀ s ∈ done, s ∈ names)
    (once : (rg.GetRestrictions cur_node ++ suffix_nodes.flatMap rg.GetRestrictions).Nodup) :
    ∀ s ∈ done, s <:+ w → ∀ p ∈ known, pathOf p <:+ s → pathOf p = s := by
  intro s before ends p member inner
  by_contra other
  have proper : pathOf p ≠ w := fun whole => other (inner.eq_of_length_le (whole ▸ ends.length_le))
  obtain ⟨i,inside,named_p⟩ := suffixes.all (pathOf p) (paths.paths p member) (inner.trans ends) proper
  have there := attached.own i p member named_p
  obtain ⟨-,distinct,disjoint⟩ := nodup_append.mp once
  by_cases again : s = w
  · subst again
    have here := attached.endings cur_node s named (.inr before) p member inner
    exact disjoint p here p (mem_flatMap.mpr ⟨i,inside,there⟩) rfl
  · obtain ⟨j,inside',named_s⟩ := suffixes.all s (names_done s before) ends again
    have here := attached.endings j s named_s (.inr before) p member inner
    have two_nodes : i ≠ j := fun same => other (Option.some.inj (named_p.symm.trans (same ▸ named_s)))
    have symmetric : Std.Symm (Function.onFun List.Disjoint rg.GetRestrictions) := ⟨fun _ _ apart => apart.symm⟩
    have apart := (nodup_flatMap.mp distinct).2.forall inside inside' two_nodes
    exact apart there here

end Visit

/-! ### The walk of the builder -/

theorem Suffixes.start (paths : PathNames known names) (a b : NodeID) : Suffixes names [a,b] [] where
  named _ member := absurd member not_mem_nil
  all s member ends other := absurd (ends.eq_of_length_le (paths.long s member)) other
  shorter := List.Pairwise.nil

private theorem Linked.find_tree_edge (linked : Linked known names visited rg) (paths : PathNames known names) {id target : RestrictionID}
    (named : names[id]? = some s) (a : NodeID) :
    ((rg.GetEdges id).find? fun edge => edge.node_based_to == a && !edge.is_transfer).map (·.target) = some target ↔
      names[target]? = some (s ++ [a]) := by
  have leads {edge : RestrictionEdge} (found : (rg.GetEdges id).find? (fun edge => edge.node_based_to == a && !edge.is_transfer) = some edge) :
      names[edge.target]? = some (s ++ [a]) := by
    have good := find?_some found
    simp only [Bool.and_eq_true,beq_iff_eq,Bool.not_eq_true'] at good
    exact good.1 ▸ (linked.edges id s named edge good.2).mp (mem_of_find?_eq_some found)
  constructor
  · intro same
    obtain ⟨edge,found,rfl⟩ := Option.map_eq_some_iff.mp same
    exact leads found
  · intro next
    have member := (linked.edges id s named ⟨a,target,false⟩ rfl).mpr next
    cases found : (rg.GetEdges id).find? fun edge => edge.node_based_to == a && !edge.is_transfer with
    | none => simpa using find?_eq_none.mp found _ member
    | some edge => exact congrArg some (paths.same_id (leads found) next)

variable {u : List NodeID}

private theorem Suffixes.next (builder : transferBuilder OpeningHours) (linked : Linked known names visited builder.rg)
    (paths : PathNames known names) {a : NodeID} (enough : 1 ≤ u.length)
    (suffixes : Suffixes names (u ++ [a]) builder.suffix_nodes) (b : NodeID) :
    Suffixes names (u ++ [a] ++ [b]) (builder.next_suffixes a b) := by
  have longer (id' : RestrictionID) : (id' ∈ builder.suffix_nodes.filterMap fun suffix_node =>
        ((builder.rg.GetEdges suffix_node).find? fun edge => edge.node_based_to == b && !edge.is_transfer).map (·.target)) ↔
      ∃ id ∈ builder.suffix_nodes, ∃ s, names[id]? = some s ∧ names[id']? = some (s ++ [b]) := by
    rw [mem_filterMap]
    apply exists_congr
    intro id
    apply and_congr_right
    intro member
    obtain ⟨s,named,-⟩ := suffixes.named id member
    rw [linked.find_tree_edge paths named b]
    refine ⟨fun there => ⟨s,named,there⟩,?_⟩
    rintro ⟨s',named',there⟩
    rwa [Option.some.inj (named.symm.trans named')]
  have start (id' : RestrictionID) : id' ∈ (builder.rg.start_edge_to_node (a,b)).toList ↔ names[id']? = some [a,b] := by
    rw [Option.mem_toList,linked.start]
  constructor
  · intro id' member
    rcases mem_append.mp member with old | new
    · obtain ⟨id,inside,s,named,there⟩ := (longer id').mp old
      obtain ⟨s',named',ends,other⟩ := suffixes.named id inside
      obtain rfl : s = s' := Option.some.inj (named.symm.trans named')
      refine ⟨s ++ [b],there,suffix_concat_iff.mpr (.inr ⟨s,rfl,ends⟩),fun same => other ?_⟩
      exact append_cancel_right same
    · refine ⟨[a,b],(start id').mp new,?_,fun same => ?_⟩
      · rw [append_assoc]
        exact suffix_append u [a,b]
      · have lengths := congrArg List.length same
        simp only [length_append,length_cons,length_nil] at lengths
        omega
  · intro s' member ends other
    rcases suffix_concat_iff.mp ends with rfl | ⟨s,rfl,inner⟩
    · exact absurd (paths.long [] member) (by simp)
    obtain ⟨id',there⟩ := mem_iff_getElem?.mp member
    refine ⟨id',?_,there⟩
    by_cases short : s.length = 1
    · obtain ⟨c,rfl⟩ := length_eq_one_iff.mp short
      obtain rfl : c = a := by
        rcases suffix_concat_iff.mp inner with none | ⟨stem,same,-⟩
        · simp at none
        · cases stem with
          | nil => simpa using same
          | cons d stem => simp at same
      exact mem_append_right _ ((start id').mpr there)
    · have long := paths.long _ member
      rw [length_append,length_singleton] at long
      have known_s := paths.init s b member (by omega)
      obtain ⟨id,inside,named⟩ := suffixes.all s known_s inner fun same => other (by rw [same])
      exact mem_append_left _ ((longer id').mpr ⟨id,inside,s,named,there⟩)
  · rw [transferBuilder.next_suffixes,pairwise_append]
    refine ⟨?_,?_,?_⟩
    · rw [pairwise_filterMap]
      refine suffixes.shorter.imp_of_mem ?_
      intro i j memberI memberJ less i' targetI j' targetJ s' t' named_s' named_t'
      obtain ⟨s,named_s,-⟩ := suffixes.named i memberI
      obtain ⟨t,named_t,-⟩ := suffixes.named j memberJ
      have there_s := (linked.find_tree_edge paths named_s b).mp targetI
      have there_t := (linked.find_tree_edge paths named_t b).mp targetJ
      obtain rfl := Option.some.inj (there_s.symm.trans named_s')
      obtain rfl := Option.some.inj (there_t.symm.trans named_t')
      rw [length_append,length_append]
      exact Nat.add_lt_add_right (less s t named_s named_t) _
    · cases builder.rg.start_edge_to_node (a,b) with
      | none => exact List.Pairwise.nil
      | some _ => exact pairwise_singleton _ _
    · intro i memberI j memberJ s' t' named_s' named_t'
      obtain ⟨_,-,s,named,there⟩ := (longer i).mp memberI
      obtain rfl := Option.some.inj (there.symm.trans named_s')
      obtain rfl := Option.some.inj (((start j).mp memberJ).symm.trans named_t')
      have long := paths.long s (mem_of_getElem? named)
      rw [length_append]
      exact Nat.lt_succ_of_le long

private theorem transferBuilder.next_visits (builder : transferBuilder OpeningHours) (linked : Linked known names visited builder.rg)
    (attached : Attached known names visited builder.rg) (paths : PathNames known names) {a : NodeID}
    (enough : 1 ≤ u.length) (named : names[builder.cur_node]? = some (u ++ [a]))
    (suffixes : Suffixes names (u ++ [a]) builder.suffix_nodes) (b : NodeID) (next : u ++ [a] ++ [b] ∈ names) :
    Linked known names (fun v => visited v ∨ v = u ++ [a] ++ [b]) (builder.next a b).rg ∧
      Attached known names (fun v => visited v ∨ v = u ++ [a] ++ [b]) (builder.next a b).rg ∧
      names[(builder.next a b).cur_node]? = some (u ++ [a] ++ [b]) ∧
      Suffixes names (u ++ [a] ++ [b]) (builder.next a b).suffix_nodes ∧
      ∀ id, (builder.next a b).rg.GetRestrictions id =
        if id = (builder.next a b).cur_node then
          builder.rg.GetRestrictions id ++ (builder.next a b).suffix_nodes.flatMap builder.rg.GetRestrictions
        else builder.rg.GetRestrictions id := by
  obtain ⟨target,there⟩ := mem_iff_getElem?.mp next
  have tree_edge := (linked.edges builder.cur_node _ named ⟨b,target,false⟩ rfl).mpr there
  rw [transferBuilder.next]
  cases found : (builder.rg.GetEdges builder.cur_node).find? fun edge => edge.node_based_to == b with
  | none => simpa using find?_eq_none.mp found _ tree_edge
  | some edge =>
    have label : edge.node_based_to = b := by simpa using find?_some found
    obtain rfl : edge = ⟨b,target,false⟩ :=
      inj_on_of_nodup_map (linked.labels builder.cur_node) (mem_of_find?_eq_some found) tree_edge label
    have suffixes' := suffixes.next builder linked paths enough b
    obtain ⟨linked',grown⟩ := linked.visit attached paths there suffixes'
    have attached' := grown.attached attached
    have other : target ∉ builder.next_suffixes a b := by
      intro member
      obtain ⟨s,named_s,-,other⟩ := suffixes'.named target member
      exact other (Option.some.inj (named_s.symm.trans there))
    have inserted := add_suffix_restrictions_spec linked'.inRange (linked'.inside there) other
    refine ⟨linked'.annotate inserted,attached'.visit paths there suffixes' inserted,there,suffixes',fun id => ?_⟩
    have same := funext grown.restrictions
    rw [inserted.restrictions,same]
    exact if_ctx_congr Iff.rfl (fun here => here ▸ rfl) fun _ => rfl

/-- The second builder has visited these nodes, in this order. -/
structure Visiting (known : List (Pointer OpeningHours)) (names done : List (List NodeID)) (rg : RestrictionGraph OpeningHours) : Prop where
  linked : Linked known names (Done done) rg
  attached : Attached known names (Done done) rg
  inside : ∀ w ∈ done, w ∈ names
  once : known.Nodup → ((∀ id, (rg.GetRestrictions id).Nodup) ↔ Unrepeated known done)

theorem Visiting.next {done : List (List NodeID)} (builder : transferBuilder OpeningHours) (visiting : Visiting known names done builder.rg)
    (paths : PathNames known names) {a : NodeID} (enough : 1 ≤ u.length)
    (named : names[builder.cur_node]? = some (u ++ [a])) (suffixes : Suffixes names (u ++ [a]) builder.suffix_nodes) (b : NodeID)
    (next : u ++ [a] ++ [b] ∈ names) :
    Visiting known names (done ++ [u ++ [a] ++ [b]]) (builder.next a b).rg ∧
      names[(builder.next a b).cur_node]? = some (u ++ [a] ++ [b]) ∧
      Suffixes names (u ++ [a] ++ [b]) (builder.next a b).suffix_nodes := by
  obtain ⟨linked,attached,named',suffixes',restrictions⟩ :=
    builder.next_visits visiting.linked visiting.attached paths enough named suffixes b next
  rw [← done_concat] at linked attached
  refine ⟨⟨linked,attached,?_,?_⟩,named',suffixes'⟩
  · intro w member
    rcases mem_append.mp member with old | new
    · exact visiting.inside w old
    · exact mem_singleton.mp new ▸ next
  · intro distinct
    rw [unrepeated_concat,← visiting.once distinct]
    constructor
    · intro once
      constructor
      · intro id
        have after := once id
        rw [restrictions] at after
        split at after
        · exact (nodup_append.mp after).1
        · exact after
      · have after := once (builder.next a b).cur_node
        rw [restrictions,if_pos rfl] at after
        exact visiting.attached.visit_repeats paths named' suffixes' visiting.inside after
    · rintro ⟨once,clean⟩ id
      rw [restrictions]
      split
      case isTrue here => exact here ▸ visiting.attached.visit_once paths named' suffixes' once clean
      case isFalse => exact once id

private theorem beginnings_cons (w : List NodeID) (c : NodeID) (rest : List NodeID) :
    (c :: rest).inits.tail.map (w ++ ·) = (w ++ [c]) :: rest.inits.tail.map (w ++ [c] ++ ·) := by
  cases rest <;> simp

private theorem Visiting.nexts (paths : PathNames known names) (rest : List NodeID) {done : List (List NodeID)} (b : NodeID)
    (builder : transferBuilder OpeningHours) (visiting : Visiting known names done builder.rg) (enough : 1 ≤ u.length)
    (named : names[builder.cur_node]? = some (u ++ [b])) (suffixes : Suffixes names (u ++ [b]) builder.suffix_nodes)
    (whole : u ++ [b] ++ rest ∈ names) :
    Visiting known names (done ++ rest.inits.tail.map (u ++ [b] ++ ·))
      ((pairs (b :: rest)).foldl (fun builder edge => builder.next edge.1 edge.2) builder).rg := by
  induction rest generalizing u b builder done with
  | nil => simpa [pairs] using visiting
  | cons c rest ih =>
    rw [append_cons] at whole
    have next : u ++ [b] ++ [c] ∈ names := by
      apply paths.of_prefix whole (prefix_append _ _)
      simp only [length_append,length_singleton]
      omega
    obtain ⟨visiting',named',suffixes'⟩ := visiting.next builder paths enough named suffixes c next
    have final := ih c (builder.next b c) visiting' (by simp) named' suffixes' whole
    rwa [append_assoc,singleton_append,← beginnings_cons] at final

theorem buildTransfers_visits {restrictions : List (Pointer OpeningHours)} {done : List (List NodeID)}
    (visiting : Visiting known names done rg) (paths : PathNames known names) (inside : ∀ p ∈ restrictions, p ∈ known) :
    Visiting known names (done ++ visits restrictions) (buildTransfers rg restrictions) := by
  induction restrictions generalizing rg done with
  | nil => simpa [visits,buildTransfers] using visiting
  | cons p restrictions ih =>
    obtain ⟨rest,path,via⟩ := path_split p
    have whole := paths.paths p (inside p (by simp))
    have first_edge := paths.of_prefix whole (path ▸ prefix_append _ _) le_rfl
    obtain ⟨id,named⟩ := mem_iff_getElem?.mp first_edge
    have started : rg.getOrInsertStartNode p.1.turn_path.From p.1.turn_path.FirstVia = (rg,id) := by
      rw [RestrictionGraph.getOrInsertStartNode,(visiting.linked.start _ _ id).mpr named]
    have builder : transferBuilder.start rg p.1.turn_path.From p.1.turn_path.FirstVia = ⟨rg,[],id⟩ := by
      rw [transferBuilder.start,started]
    have beginnings : (pathOf p).inits.drop 3 = rest.inits.tail.map ([p.1.turn_path.From] ++ [p.1.turn_path.FirstVia] ++ ·) := by
      rw [path,inits_append]
      rfl
    rw [path] at whole
    have walked := Visiting.nexts (u := [p.1.turn_path.From]) paths rest p.1.turn_path.FirstVia ⟨rg,[],id⟩ visiting le_rfl named
      (Suffixes.start paths _ _) whole
    have final := ih walked fun q later => inside q (mem_cons_of_mem _ later)
    rw [← beginnings,append_assoc] at final
    simp only [buildTransfers,foldl_cons,builder,via]
    exact final

theorem PrefixTree.visiting (tree : PrefixTree known known names rg) : Visiting known names [] rg where
  linked := done_nil ▸ tree.linked
  attached := done_nil ▸ tree.attachedAlone
  inside := by simp
  once distinct := iff_of_true (tree.once distinct) List.Pairwise.nil

private theorem foldl_keeps {State Item View : Type} (view : State → View) {f : State → Item → State} (keeps : ∀ s a, view (f s a) = view s)
    (l : List Item) (s : State) : view (l.foldl f s) = view s := by
  induction l generalizing s with
  | nil => rfl
  | cons a l ih => exact (ih (f s a)).trans (keeps s a)

private theorem next_vias (builder : transferBuilder OpeningHours) (a b : NodeID) :
    (builder.next a b).rg.via_edge_to_node = builder.rg.via_edge_to_node := by
  rw [transferBuilder.next]
  split
  · rfl
  · refine (foldl_keeps RestrictionGraph.via_edge_to_node (fun rg id => ?_) _ _).trans
      (foldl_keeps RestrictionGraph.via_edge_to_node (fun rg id => ?_) _ _)
    · exact foldl_keeps RestrictionGraph.via_edge_to_node (fun rg restriction => insertRestriction_vias rg _ restriction) _ _
    · refine foldl_keeps RestrictionGraph.via_edge_to_node (fun rg edge => ?_) _ _
      simp only [add_edge_transfer]
      split_ifs
      all_goals first | rfl | exact insertEdge_vias rg _ _

private theorem buildTransfers_vias (rg : RestrictionGraph OpeningHours) (restrictions : List (Pointer OpeningHours)) :
    (buildTransfers rg restrictions).via_edge_to_node = rg.via_edge_to_node := by
  refine foldl_keeps RestrictionGraph.via_edge_to_node (fun rg p => ?_) restrictions rg
  have walked := foldl_keeps (fun builder : transferBuilder OpeningHours => builder.rg.via_edge_to_node)
    (fun builder (edge : NodeID × NodeID) => next_vias builder edge.1 edge.2) (viaPairs p)
    (transferBuilder.start rg p.1.turn_path.From p.1.turn_path.FirstVia)
  exact walked.trans (getOrInsertStartNode_vias rg _ _)

private theorem built_keyed (restrictions : List (Pointer OpeningHours)) : ∃ names : List (List NodeID), PathNames restrictions names ∧
    Visiting restrictions names (visits restrictions) (buildTransfers (buildPaths RestrictionGraph.empty restrictions) restrictions) ∧
    PrefixTree.Keyed names (buildTransfers (buildPaths RestrictionGraph.empty restrictions) restrictions) := by
  obtain ⟨names,tree,keyed⟩ := buildPaths_tree (PrefixTree.empty restrictions) (fun p member => member)
    (fun key id member => absurd member not_mem_nil)
  rw [nil_append] at tree
  exact ⟨names,tree.pathNames,buildTransfers_visits tree.visiting tree.pathNames fun p member => member,
    keyed.grow (prefix_refl _) (buildTransfers_vias _ _)⟩

theorem built (restrictions : List (Pointer OpeningHours)) : ∃ names : List (List NodeID), PathNames restrictions names ∧
    Visiting restrictions names (visits restrictions) (buildTransfers (buildPaths RestrictionGraph.empty restrictions) restrictions) := by
  obtain ⟨names,paths,visiting,_⟩ := built_keyed restrictions
  exact ⟨names,paths,visiting⟩

private theorem PathNames.done (paths : PathNames known names) (member : w ∈ names) : Done (visits known) w := by
  obtain ⟨p,inside,begins⟩ := paths.used w member
  rcases Nat.lt_or_ge 2 w.length with long | short
  · refine .inr (mem_flatMap.mpr ⟨p,inside,?_⟩)
    have bound : w.length - 3 < ((pathOf p).inits.drop 3).length := by
      have shorter := begins.length_le
      rw [length_drop,length_inits]
      omega
    refine mem_iff_getElem.mpr ⟨w.length - 3,bound,?_⟩
    rw [getElem_drop,getElem_inits,Nat.add_sub_cancel' long]
    exact (prefix_iff_eq_take.mp begins).symm
  · exact .inl short

theorem Visiting.linkedAll (visiting : Visiting known names (visits known) rg) (paths : PathNames known names) :
    Linked known names (fun _ => True) rg := by
  have linked := visiting.linked
  refine ⟨linked.inRange,linked.size,linked.start,linked.via,linked.edges,linked.labels,linked.leads,?_⟩
  exact fun id w named _ => linked.complete id w named (paths.done (mem_of_getElem? named))

theorem Visiting.attachedAll (visiting : Visiting known names (visits known) rg) (paths : PathNames known names) :
    Attached known names (fun _ => True) rg where
  own := visiting.attached.own
  sound := visiting.attached.sound
  fresh _ _ _ unseen := absurd trivial unseen
  endings id w named _ := visiting.attached.endings id w named (paths.done (mem_of_getElem? named))

end Transfers

end Osrm.TurnRestrictions
