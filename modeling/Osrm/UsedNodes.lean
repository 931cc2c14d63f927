import Osrm.Rectangle
import Osrm.Typedefs
import Osrm.UniqueSort
import Mathlib.Data.Finset.Card

/-!
`PrepareNodes` of `extractor/extraction_containers.cpp`: the ids of the nodes that are used and that exist, which give
every node its internal id.
-/
namespace Osrm.UsedNodes
open List
open Typedefs UniqueSort
open Rectangle (Coordinate)

abbrev OSMNodeID := ℕ

structure QueryNode where
  location : Coordinate
  node_id : OSMNodeID
  deriving DecidableEq, Repr

inductive Failure
  | too_many_nodes
  | non_existing_node (node_id : OSMNodeID)
  deriving DecidableEq, Repr

/-- The loop that keeps the ids of nodes, with both positions, and the list resized at its end. -/
def intersect (used_node_id_list : List OSMNodeID) (ref_iter used_nodes_iter : ℕ) : List QueryNode → List OSMNodeID
  | [] => used_node_id_list.take used_nodes_iter
  | node :: nodes =>
    if inside : ref_iter < used_node_id_list.length then
      if node.node_id < used_node_id_list[ref_iter] then intersect used_node_id_list ref_iter used_nodes_iter nodes
      else if node.node_id > used_node_id_list[ref_iter] then
        intersect used_node_id_list (ref_iter + 1) used_nodes_iter (node :: nodes)
      else
        intersect (used_node_id_list.set used_nodes_iter used_node_id_list[ref_iter]) (ref_iter + 1) (used_nodes_iter + 1) nodes
    else used_node_id_list.take used_nodes_iter
termination_by nodes => nodes.length + (used_node_id_list.length - ref_iter)
decreasing_by
  · simp
  · simp; omega
  · simp; omega

/-- The loop that looks up the nodes. -/
def confirm : List OSMNodeID → List QueryNode → Except Failure (List QueryNode)
  | [],_ => .ok []
  | node_id :: ids,nodes =>
    match nodes.dropWhile (fun node => node_id > node.node_id) with
    | [] => .error (.non_existing_node node_id)
    | node :: rest =>
      if node_id < node.node_id then .error (.non_existing_node node_id) else (confirm ids rest).map (node :: ·)

structure Prepared where
  used_node_id_list : List OSMNodeID
  all_nodes_list : List QueryNode
  used_nodes : List QueryNode
  max_internal_node_id : ℕ

/-- Of the sorted lists. The special id is the largest number of its type. -/
def PrepareNodes (used_node_id_list : List OSMNodeID) (all_nodes_list : List QueryNode) : Except Failure Prepared := do
  let used_node_id_list := unique (fun a b => a == b) used_node_id_list
  let used_node_id_list := intersect used_node_id_list 0 0 all_nodes_list
  if used_node_id_list.length > SPECIAL_NODEID then .error .too_many_nodes
  else
    let used_nodes ← confirm used_node_id_list all_nodes_list
    return ⟨used_node_id_list,all_nodes_list,used_nodes,used_node_id_list.length⟩

def lessID (left right : OSMNodeID) : Bool := left < right
def lessNode (left right : QueryNode) : Bool := left.node_id < right.node_id
def existing (used : List OSMNodeID) (nodes : List QueryNode) : Finset OSMNodeID :=
  used.toFinset ∩ (nodes.map (·.node_id)).toFinset
def rank (used : List OSMNodeID) (nodes : List QueryNode) (node_id : OSMNodeID) : NodeID :=
  ((existing used nodes).filter (· < node_id)).card

section Sorted
variable {α : Type} {l : List α} {a : α}

private theorem dropWhile_of_mem (key : α → ℕ) (sorted : l.Pairwise fun a b => key a < key b) (member : a ∈ l) :
    ∃ rest, l.dropWhile (fun b => key b < key a) = a :: rest ∧ ∀ b ∈ l, key a < key b → b ∈ rest := by
  induction l with
  | nil => cases member
  | cons b l ih =>
    obtain ⟨least,later⟩ := pairwise_cons.mp sorted
    cases member with
    | head =>
      refine ⟨l,dropWhile_cons_of_neg (by simp),fun c inList above => ?_⟩
      cases inList with
      | head => exact absurd above (lt_irrefl _)
      | tail _ behind => exact behind
    | tail _ behind =>
      obtain ⟨rest,found,more⟩ := ih later behind
      refine ⟨rest,by rw [dropWhile_cons_of_pos (by simpa using least a behind),found],fun c inList above => ?_⟩
      cases inList with
      | head => exact absurd above (least a behind).le.not_gt
      | tail _ next => exact more c next above

end Sorted

section Intersect
variable {nodes : List QueryNode} {ids : List OSMNodeID}

private theorem intersect_eq (ids : List OSMNodeID) (ref_iter used_nodes_iter : ℕ)
    (sortedNodes : nodes.Pairwise fun a b => a.node_id < b.node_id)
    (sorted : (ids.drop ref_iter).Pairwise (· < ·)) (behind : used_nodes_iter ≤ ref_iter) (inside : used_nodes_iter ≤ ids.length) :
    intersect ids ref_iter used_nodes_iter nodes =
      ids.take used_nodes_iter ++ (ids.drop ref_iter).filter (fun id => id ∈ nodes.map (·.node_id)) := by
  fun_induction intersect ids ref_iter used_nodes_iter nodes with
  | case1 => simp
  | case2 ids ref_iter used_nodes_iter node nodes there less ih =>
    rw [ih sortedNodes.of_cons sorted behind inside]
    congr 1
    refine filter_congr fun id member => ?_
    have above : ids[ref_iter] ≤ id := by
      rw [drop_eq_getElem_cons there] at sorted member
      rcases mem_cons.mp member with rfl | later
      · exact le_rfl
      · exact ((pairwise_cons.mp sorted).1 id later).le
    have other : id ≠ node.node_id := (less.trans_le above).ne'
    simp [other]
  | case3 ids ref_iter used_nodes_iter node nodes there notLess more ih =>
    rw [drop_eq_getElem_cons there] at sorted ⊢
    rw [ih sortedNodes sorted.of_cons (by omega) inside,filter_cons_of_neg]
    rw [decide_eq_true_eq]
    intro member
    obtain ⟨other,found,same⟩ := mem_map.mp member
    rcases mem_cons.mp found with rfl | later
    · exact more.ne' same
    · have := (pairwise_cons.mp sortedNodes).1 other later
      lia
  | case4 ids ref_iter used_nodes_iter node nodes there notLess notMore ih =>
    have same : node.node_id = ids[ref_iter] := le_antisymm (not_lt.mp notMore) (not_lt.mp notLess)
    have unread : (ids.set used_nodes_iter ids[ref_iter]).drop (ref_iter + 1) = ids.drop (ref_iter + 1) :=
      drop_set_of_lt (by omega)
    have written : (ids.set used_nodes_iter ids[ref_iter]).take (used_nodes_iter + 1) = ids.take used_nodes_iter ++ [ids[ref_iter]] := by
      rw [take_add_one,take_set_of_le le_rfl,getElem?_set_self (by omega)]
      rfl
    rw [drop_eq_getElem_cons there] at sorted ⊢
    rw [ih sortedNodes.of_cons (by rw [unread]; exact sorted.of_cons) (by omega) (by rw [length_set]; omega),unread,written,
      filter_cons_of_pos (by simp [same]),append_assoc,singleton_append]
    congr 2
    refine filter_congr fun id member => ?_
    have above := (pairwise_cons.mp sorted).1 id member
    have other : id ≠ node.node_id := by rw [same]; exact above.ne'
    simp [other]
  | case5 ids ref_iter used_nodes_iter node nodes outside =>
    rw [drop_eq_nil_of_le (by omega)]
    simp

private theorem confirm_spec (sortedNodes : nodes.Pairwise fun a b => a.node_id < b.node_id) (sorted : ids.Pairwise (· < ·))
    (found : ∀ id ∈ ids, id ∈ nodes.map (·.node_id)) :
    ∃ used_nodes, confirm ids nodes = .ok used_nodes ∧ used_nodes.map (·.node_id) = ids ∧ ∀ node ∈ used_nodes, node ∈ nodes := by
  induction ids generalizing nodes with
  | nil => exact ⟨[],rfl,rfl,by simp⟩
  | cons id ids ih =>
    obtain ⟨least,later⟩ := pairwise_cons.mp sorted
    obtain ⟨node,inNodes,rfl⟩ := mem_map.mp (found id (.head _))
    obtain ⟨rest,dropped,behind⟩ := dropWhile_of_mem (·.node_id) sortedNodes inNodes
    have suffix : (node :: rest).Sublist nodes := dropped ▸ dropWhile_sublist _
    obtain ⟨used_nodes,confirmed,same,members⟩ := ih (sortedNodes.sublist suffix).of_cons later fun id inIds => by
      obtain ⟨other,there,rfl⟩ := mem_map.mp (found id (.tail _ inIds))
      exact mem_map_of_mem (behind other there (least _ inIds))
    refine ⟨node :: used_nodes,?_,by rw [map_cons,same],fun other member => ?_⟩
    · simp [confirm,dropped,confirmed,Except.map]
    · rcases mem_cons.mp member with rfl | further
      · exact inNodes
      · exact suffix.subset (.tail _ (members other further))

end Intersect

section Ids
variable {used ids sorted_ids : List OSMNodeID} {nodes sorted_nodes : List QueryNode} {node_id : OSMNodeID}

private theorem unique_ids (sorts : Sorts lessID used sorted_ids) :
    (unique (fun a b => a == b) sorted_ids).Pairwise (· < ·) ∧
      ∀ id, id ∈ unique (fun a b => a == b) sorted_ids ↔ id ∈ used := by
  have sorted : sorted_ids.Pairwise fun a b => a ≤ b := sorts.ordered.imp fun level => by simpa [lessID] using level
  have same_iff (a b : OSMNodeID) : (a == b) = true ↔ a = b := beq_iff_eq
  refine ⟨@unique_keys _ _ _ _ _ (fun id : OSMNodeID => id) same_iff sorted,fun id => ?_⟩
  rw [← sorts.perm.mem_iff]
  constructor
  · exact fun left => (unique_sublist _ _).subset left
  · intro member
    obtain ⟨_,left,rfl⟩ := @exists_mem_unique _ _ _ _ _ (fun id : OSMNodeID => id) _ same_iff sorted member
    exact left

theorem sorted_nodes_strict (distinct : (nodes.map (·.node_id)).Nodup) (sorts : Sorts lessNode nodes sorted_nodes) :
    sorted_nodes.Pairwise fun a b => a.node_id < b.node_id := by
  have nodup : (sorted_nodes.map (·.node_id)).Nodup := (sorts.perm.map _).nodup_iff.mpr distinct
  have apart : sorted_nodes.Pairwise fun a b => a.node_id ≠ b.node_id := pairwise_map.mp nodup
  refine (sorts.ordered.and apart).imp fun both => lt_of_le_of_ne ?_ both.2
  simpa [lessNode] using both.1

theorem mem_existing : node_id ∈ existing used nodes ↔ node_id ∈ used ∧ node_id ∈ nodes.map (·.node_id) := by
  simp [existing]

structure Ranked (used : List OSMNodeID) (nodes : List QueryNode) (ids : List OSMNodeID) : Prop where
  sorted : ids.Pairwise (· < ·)
  mem_iff : ∀ id, id ∈ ids ↔ id ∈ existing used nodes

theorem Ranked.length_eq (ranked : Ranked used nodes ids) : ids.length = (existing used nodes).card := by
  have nodup : ids.Nodup := ranked.sorted.imp fun less => less.ne
  rw [← toFinset_card_of_nodup nodup]
  congr 1
  ext id
  rw [mem_toFinset,ranked.mem_iff]

theorem Ranked.length_takeWhile (ranked : Ranked used nodes ids) (id : OSMNodeID) :
    (ids.takeWhile (· < id)).length = rank used nodes id := by
  have falling : Scan.Falling (fun other : OSMNodeID => other < id) ids :=
    ranked.sorted.imp fun {a b} less below => by
      rw [decide_eq_true_eq] at below ⊢
      exact less.trans below
  have nodup : (ids.filter (· < id)).Nodup := (ranked.sorted.imp fun less => less.ne).filter _
  rw [Scan.takeWhile_eq_filter falling,← toFinset_card_of_nodup nodup,rank]
  congr 1
  ext other
  simp [ranked.mem_iff]

theorem Ranked.getElem?_rank (ranked : Ranked used nodes ids) (member : node_id ∈ existing used nodes) :
    ids[rank used nodes node_id]? = some node_id := by
  have inIds := (ranked.mem_iff node_id).mpr member
  obtain ⟨rest,dropped,-⟩ := dropWhile_of_mem (fun id : OSMNodeID => id) ranked.sorted inIds
  have parts := takeWhile_append_dropWhile (p := fun id => decide (id < node_id)) (l := ids)
  rw [dropped] at parts
  rw [← ranked.length_takeWhile]
  generalize ids.takeWhile _ = passed at parts
  rw [← parts,getElem?_append_right le_rfl,Nat.sub_self]
  rfl

theorem rank_lt_iff {other : OSMNodeID} (member : node_id ∈ existing used nodes) (inOther : other ∈ existing used nodes) :
    rank used nodes node_id < rank used nodes other ↔ node_id < other := by
  have mono {a b : OSMNodeID} (inside : a ∈ existing used nodes) (less : a < b) : rank used nodes a < rank used nodes b := by
    refine Finset.card_lt_card ⟨fun c => ?_,fun all => ?_⟩
    · simp only [Finset.mem_filter]
      exact fun below => ⟨below.1,below.2.trans less⟩
    · have self := all (Finset.mem_filter.mpr ⟨inside,less⟩)
      exact lt_irrefl a (Finset.mem_filter.mp self).2
  constructor
  · intro less
    by_contra notLess
    rcases (not_lt.mp notLess).lt_or_eq with greater | rfl
    · exact lt_asymm less (mono inOther greater)
    · exact lt_irrefl _ less
  · exact mono member

/-- What is left of the ids, and the nodes with these ids in their order; or there are more of them than numbers. -/
structure IsPrepared (used : List OSMNodeID) (nodes sorted_nodes : List QueryNode) (prepared : Prepared) : Prop where
  fits : (existing used nodes).card ≤ SPECIAL_NODEID
  ranked : Ranked used nodes prepared.used_node_id_list
  all_nodes : prepared.all_nodes_list = sorted_nodes
  ids : prepared.used_nodes.map (·.node_id) = prepared.used_node_id_list
  exist : ∀ node ∈ prepared.used_nodes, node ∈ nodes
  max_internal : prepared.max_internal_node_id = (existing used nodes).card

theorem prepareNodes_spec (distinct : (nodes.map (·.node_id)).Nodup) (sortsIds : Sorts lessID used sorted_ids)
    (sortsNodes : Sorts lessNode nodes sorted_nodes) :
    match PrepareNodes sorted_ids sorted_nodes with
    | .ok prepared => IsPrepared used nodes sorted_nodes prepared
    | .error failure => failure = .too_many_nodes ∧ SPECIAL_NODEID < (existing used nodes).card := by
  obtain ⟨sorted,members⟩ := unique_ids sortsIds
  have sortedNodes := sorted_nodes_strict distinct sortsNodes
  have left := intersect_eq (unique (fun a b => a == b) sorted_ids) 0 0 sortedNodes (by simpa using sorted) le_rfl (Nat.zero_le _)
  rw [take_zero,nil_append,drop_zero] at left
  have ranked : Ranked used nodes (intersect (unique (fun a b => a == b) sorted_ids) 0 0 sorted_nodes) := by
    rw [left]
    refine ⟨sorted.filter _,fun id => ?_⟩
    rw [mem_filter,members,mem_existing,decide_eq_true_eq,(sortsNodes.perm.map (·.node_id)).mem_iff]
  obtain ⟨used_nodes,confirmed,same,inNodes⟩ := confirm_spec sortedNodes ranked.sorted fun id member => by
    rw [(sortsNodes.perm.map (·.node_id)).mem_iff]
    exact (mem_existing.mp ((ranked.mem_iff id).mp member)).2
  rw [PrepareNodes]
  simp only [ranked.length_eq,confirmed]
  by_cases many : (existing used nodes).card > SPECIAL_NODEID
  · rw [if_pos many]
    exact ⟨rfl,many⟩
  · rw [if_neg many]
    exact ⟨not_lt.mp many,ranked,rfl,same,fun node member => sortsNodes.perm.mem_iff.mp (inNodes node member),rfl⟩

end Ids

end Osrm.UsedNodes
