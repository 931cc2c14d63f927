import Mathlib.Combinatorics.SimpleGraph.Basic
import Mathlib.Data.Sym.Sym2
import Mathlib.Logic.Relation
import Osrm.Typedefs

/-!
`extractor/turn_path_compressor.cpp`: the paths of turn restrictions and maneuver overrides follow the compression of
the graph, which takes out nodes of degree two.
-/
namespace Osrm.TurnPaths
open List Option
open Typedefs

/-- `TurnPath` -/
inductive TurnPath
  | ViaNodePath (from_node via to_node : NodeID)
  | ViaWayPath (from_node : NodeID) (via : List NodeID) (to_node : NodeID)
  deriving DecidableEq, Repr

namespace TurnPath

def From : TurnPath → NodeID
  | ViaNodePath from_node _ _ => from_node
  | ViaWayPath from_node _ _ => from_node
def To : TurnPath → NodeID
  | ViaNodePath _ _ to_node => to_node
  | ViaWayPath _ _ to_node => to_node
def via : TurnPath → List NodeID
  | ViaNodePath _ via _ => [via]
  | ViaWayPath _ via _ => via
def tracked : TurnPath → List NodeID
  | ViaNodePath _ _ _ => []
  | ViaWayPath _ via _ => via
def Valid : TurnPath → Bool
  | ViaNodePath from_node via to_node => from_node != SPECIAL_NODEID && to_node != SPECIAL_NODEID && via != SPECIAL_NODEID
  | ViaWayPath from_node via to_node =>
    from_node != SPECIAL_NODEID && to_node != SPECIAL_NODEID && decide (2 ≤ via.length) && via.all fun node => node != SPECIAL_NODEID

def nodes (path : TurnPath) : List NodeID := path.From :: path.via ++ [path.To]

end TurnPath

/-- `TurnPathCompressor`, with the paths that it changes. -/
structure TurnPathCompressor where
  turn_paths : List TurnPath
  starts : List (NodeID × ℕ)
  vias : List (NodeID × ℕ)
  ends : List (NodeID × ℕ)
  deriving DecidableEq, Repr

def index (keys : TurnPath → List NodeID) (turn_paths : List TurnPath) : List (NodeID × ℕ) :=
  turn_paths.zipIdx.flatMap fun entry => (keys entry.1).map fun node => (node,entry.2)
/-- The constructor. -/
def bind (restrictions maneuver_overrides : List TurnPath) : TurnPathCompressor :=
  let turn_paths := restrictions ++ maneuver_overrides
  ⟨turn_paths,index (fun path => [path.From]) turn_paths,index (·.tracked) turn_paths,index (fun path => [path.To]) turn_paths⟩
def equal_range (entries : List (NodeID × ℕ)) (node : NodeID) : List ℕ := (entries.filter fun entry => entry.1 == node).map (·.2)
def erase (entries : List (NodeID × ℕ)) (node : NodeID) : List (NodeID × ℕ) := entries.filter fun entry => entry.1 != node
def for_each (ptrs : List ℕ) (update : TurnPath → TurnPath) (turn_paths : List TurnPath) : List TurnPath :=
  ptrs.foldl (fun turn_paths ptr => turn_paths.modify ptr update) turn_paths
def reinsert (entries : List (NodeID × ℕ)) (key : TurnPath → NodeID) (turn_paths : List TurnPath) (ptrs : List ℕ) : List (NodeID × ℕ) :=
  entries ++ ptrs.filterMap fun ptr => turn_paths[ptr]?.map fun path => (key path,ptr)

/-- A path that starts at the compressed node starts at the other neighbour than the one to which it goes on. -/
def update_start (from_node to_node : NodeID) : TurnPath → TurnPath
  | .ViaNodePath _ via path_to =>
    if via = to_node then .ViaNodePath from_node via path_to else .ViaNodePath to_node via path_to
  | .ViaWayPath _ via path_to =>
    if via.head? = some to_node then .ViaWayPath from_node via path_to else .ViaWayPath to_node via path_to

def update_end (from_node to_node : NodeID) : TurnPath → TurnPath
  | .ViaNodePath path_from via _ =>
    if via = from_node then .ViaNodePath path_from via to_node else .ViaNodePath path_from via from_node
  | .ViaWayPath path_from via _ =>
    if via.getLast? = some from_node then .ViaWayPath path_from via to_node else .ViaWayPath path_from via from_node

def update_via (via_node : NodeID) : TurnPath → TurnPath
  | .ViaNodePath path_from via path_to => .ViaNodePath path_from via path_to
  | .ViaWayPath path_from via path_to => .ViaWayPath path_from (via.filter fun node => node != via_node) path_to

/-- `TurnPathCompressor::Compress` -/
def TurnPathCompressor.Compress (compressor : TurnPathCompressor) (from_node via_node to_node : NodeID) : TurnPathCompressor :=
  let start_ptrs := equal_range compressor.starts via_node
  let started := for_each start_ptrs (update_start from_node to_node) compressor.turn_paths
  let starts := reinsert (erase compressor.starts via_node) TurnPath.From started start_ptrs
  let end_ptrs := equal_range compressor.ends via_node
  let ended := for_each end_ptrs (update_end from_node to_node) started
  let ends := reinsert (erase compressor.ends via_node) TurnPath.To ended end_ptrs
  let turn_paths := for_each (equal_range compressor.vias via_node) (update_via via_node) ended
  ⟨turn_paths,starts,erase compressor.vias via_node,ends⟩

/-- A graph under compression: between two nodes the segments that their edge contains, none if there is no edge. -/
structure CompressedGraph where
  segments : Sym2 NodeID → Set (Sym2 NodeID)
  loopless : ∀ node, segments s(node,node) = ∅

namespace CompressedGraph

def Adjacent (graph : CompressedGraph) (left right : NodeID) : Prop := (graph.segments s(left,right)).Nonempty

def original (graph : SimpleGraph NodeID) : CompressedGraph where
  segments edge := {segment | segment = edge ∧ edge ∈ graph.edgeSet}
  loopless node := by
    ext segment
    simp

/-- The edges of a node are replaced by one between its two neighbours. -/
def compress (graph : CompressedGraph) (from_node via_node to_node : NodeID) : CompressedGraph where
  segments edge := {segment | via_node ∉ edge ∧ segment ∈ graph.segments edge ∨
    from_node ≠ to_node ∧ edge = s(from_node,to_node) ∧
      (segment ∈ graph.segments s(from_node,via_node) ∨ segment ∈ graph.segments s(via_node,to_node))}
  loopless node := by
    ext segment
    simp only [graph.loopless,Set.mem_empty_iff_false,and_false,false_or,Set.mem_ofPred_eq,iff_false]
    rintro ⟨apart,loop,-⟩
    have ends := Sym2.eq_iff.mp loop
    rcases ends with ⟨rfl,rfl⟩ | ⟨rfl,rfl⟩ <;> exact apart rfl

end CompressedGraph

/-! ### The indices -/

section Indices
variable {turn_paths : List TurnPath} {entries : List (NodeID × ℕ)} {node : NodeID} {key : TurnPath → NodeID}
  {keys : TurnPath → List NodeID} {update : TurnPath → TurnPath}

/-- The indices have an entry for each start, each end and each tracked via node, at the place of its path. -/
structure Agree (compressor : TurnPathCompressor) : Prop where
  starts : compressor.starts.Perm (index (fun path => [path.From]) compressor.turn_paths)
  vias : compressor.vias.Perm (index (·.tracked) compressor.turn_paths)
  ends : compressor.ends.Perm (index (fun path => [path.To]) compressor.turn_paths)

private theorem for_each_getElem? (ptrs : List ℕ) (update : TurnPath → TurnPath) (turn_paths : List TurnPath) (i : ℕ) :
    (for_each ptrs update turn_paths)[i]? = turn_paths[i]?.map update^[ptrs.count i] := by
  induction ptrs generalizing turn_paths with
  | nil => simp [for_each]
  | cons ptr ptrs ih =>
    rw [for_each,foldl_cons,← for_each,ih,getElem?_modify,count_cons]
    by_cases same : ptr = i
    · simp [same,Function.comp_def]
    · simp [same]

private theorem index_single (key : TurnPath → NodeID) (turn_paths : List TurnPath) :
    index (fun path => [key path]) turn_paths = turn_paths.zipIdx.map fun entry => (key entry.1,entry.2) := by
  rw [index,map_eq_flatMap]
  rfl

private theorem index_map (keys : TurnPath → List NodeID) (change : TurnPath → TurnPath) (turn_paths : List TurnPath) :
    index keys (turn_paths.map change) = index (fun path => keys (change path)) turn_paths := by
  rw [index,index,zipIdx_map,flatMap_map]
  rfl

private theorem mem_index {i : ℕ} : (node,i) ∈ index keys turn_paths ↔ ∃ path, turn_paths[i]? = some path ∧ node ∈ keys path := by
  simp only [index,mem_flatMap,List.mem_map,Prod.mk.injEq]
  constructor
  · rintro ⟨⟨path,place⟩,member,_,inside,rfl,rfl⟩
    exact ⟨path,mem_zipIdx_iff_getElem?.mp member,inside⟩
  · rintro ⟨path,found,inside⟩
    exact ⟨(path,i),mem_zipIdx_iff_getElem?.mpr found,node,inside,rfl,rfl⟩

private theorem mem_equal_range {i : ℕ} (agree : entries.Perm (index keys turn_paths)) :
    i ∈ equal_range entries node ↔ ∃ path, turn_paths[i]? = some path ∧ node ∈ keys path := by
  rw [← mem_index,← agree.mem_iff,equal_range]
  simp [List.mem_map,mem_filter]

private theorem equal_range_perm (agree : entries.Perm (index (fun path => [key path]) turn_paths)) :
    (equal_range entries node).Perm ((turn_paths.zipIdx.filter fun entry => key entry.1 == node).map (·.2)) := by
  have listed := (agree.filter fun entry => entry.1 == node).map (·.2)
  rw [index_single,List.filter_map,List.map_map] at listed
  exact listed

private theorem for_each_equal_range (agree : entries.Perm (index (fun path => [key path]) turn_paths)) :
    for_each (equal_range entries node) update turn_paths = turn_paths.map fun path => if key path = node then update path else path := by
  have once : (equal_range entries node).Nodup := by
    rw [(equal_range_perm agree).nodup_iff]
    refine (filter_sublist.map _).nodup ?_
    rw [zipIdx_map_snd]
    exact nodup_range'
  apply ext_getElem?
  intro i
  rw [for_each_getElem?,getElem?_map]
  cases found : turn_paths[i]? with
  | none => rfl
  | some path =>
    have listed : i ∈ equal_range entries node ↔ key path = node := by
      rw [mem_equal_range agree]
      simp [found,eq_comm]
    by_cases here : key path = node
    · rw [count_eq_one_of_mem once (listed.mpr here),map_some,map_some,if_pos here]
      rfl
    · rw [count_eq_zero_of_not_mem (listed.not.mpr here),map_some,map_some,if_neg here]
      rfl

private theorem reinsert_perm (node : NodeID) (update : TurnPath → TurnPath) (agree : entries.Perm (index (fun path => [key path]) turn_paths)) :
    (reinsert (erase entries node) key (turn_paths.map fun path => if key path = node then update path else path)
      (equal_range entries node)).Perm
      (index (fun path => [key path]) (turn_paths.map fun path => if key path = node then update path else path)) := by
  generalize moved : (fun path => if key path = node then update path else path) = change
  have others : (erase entries node).Perm
      ((turn_paths.zipIdx.filter fun entry => !(key entry.1 == node)).map fun entry => (key (change entry.1),entry.2)) := by
    have kept := agree.filter fun entry => entry.1 != node
    rw [index_single,List.filter_map] at kept
    refine kept.trans (Perm.of_eq (map_congr_left fun entry member => ?_))
    have other : key entry.1 ≠ node := by simpa using (mem_filter.mp member).2
    rw [← moved]
    simp only [if_neg other]
  have back : ((equal_range entries node).filterMap fun ptr => (turn_paths.map change)[ptr]?.map fun path => (key path,ptr)).Perm
      ((turn_paths.zipIdx.filter fun entry => key entry.1 == node).map fun entry => (key (change entry.1),entry.2)) := by
    refine ((equal_range_perm agree).filterMap _).trans (Perm.of_eq ?_)
    rw [filterMap_map]
    refine (filterMap_congr fun entry member => ?_).trans (congrFun filterMap_eq_map _)
    have found : turn_paths[entry.2]? = some entry.1 := mem_zipIdx_iff_getElem?.mp (mem_of_mem_filter member)
    simp [getElem?_map,found]
  rw [index_map,index_single fun path => key (change path)]
  refine (others.append back).trans ?_
  rw [← map_append]
  exact (perm_append_comm.trans (filter_append_perm _ _)).map _

private theorem tracked_update_via (path : TurnPath) : (update_via node path).tracked = path.tracked.filter fun other => other != node := by
  cases path <;> rfl

private theorem update_via_eq_self {path : TurnPath} (absent : node ∉ path.tracked) : update_via node path = path := by
  cases path with
  | ViaNodePath => rfl
  | ViaWayPath from_node via to_node =>
    rw [update_via,filter_eq_self.mpr]
    intro other member
    simpa using fun same : other = node => absent (same ▸ member)

private theorem for_each_vias (agree : entries.Perm (index (·.tracked) turn_paths)) :
    for_each (equal_range entries node) (update_via node) turn_paths = turn_paths.map (update_via node) := by
  have again (count : ℕ) (path : TurnPath) : (update_via node)^[count + 1] path = update_via node path := by
    induction count with
    | zero => rfl
    | succ count ih =>
      rw [Function.iterate_succ_apply',ih]
      exact update_via_eq_self (by simp [tracked_update_via])
  apply ext_getElem?
  intro i
  rw [for_each_getElem?,getElem?_map]
  cases found : turn_paths[i]? with
  | none => rfl
  | some path =>
    rw [map_some,map_some]
    by_cases listed : i ∈ equal_range entries node
    · obtain ⟨count,same⟩ := Nat.exists_eq_succ_of_ne_zero (count_pos_iff.mpr listed).ne'
      rw [same,again]
    · have absent : node ∉ path.tracked := fun inside => listed ((mem_equal_range agree).mpr ⟨path,found,inside⟩)
      rw [count_eq_zero_of_not_mem listed,update_via_eq_self absent]
      rfl

private theorem erase_perm (agree : entries.Perm (index (·.tracked) turn_paths)) :
    (erase entries node).Perm (index (·.tracked) (turn_paths.map (update_via node))) := by
  have kept := agree.filter fun entry => entry.1 != node
  refine kept.trans (Perm.of_eq ?_)
  rw [index_map,index,index,filter_flatMap]
  simp only [List.filter_map,tracked_update_via]
  rfl

section Updates
variable {from_node via_node to_node : NodeID} (path : TurnPath)

@[simp] theorem To_update_start : (update_start from_node to_node path).To = path.To := by
  cases path <;> simp only [update_start] <;> split_ifs <;> rfl
@[simp] theorem via_update_start : (update_start from_node to_node path).via = path.via := by
  cases path <;> simp only [update_start] <;> split_ifs <;> rfl
@[simp] theorem tracked_update_start : (update_start from_node to_node path).tracked = path.tracked := by
  cases path <;> simp only [update_start] <;> split_ifs <;> rfl
@[simp] theorem From_update_end : (update_end from_node to_node path).From = path.From := by
  cases path <;> simp only [update_end] <;> split_ifs <;> rfl
@[simp] theorem via_update_end : (update_end from_node to_node path).via = path.via := by
  cases path <;> simp only [update_end] <;> split_ifs <;> rfl
@[simp] theorem tracked_update_end : (update_end from_node to_node path).tracked = path.tracked := by
  cases path <;> simp only [update_end] <;> split_ifs <;> rfl
@[simp] theorem From_update_via : (update_via via_node path).From = path.From := by cases path <;> rfl
@[simp] theorem To_update_via : (update_via via_node path).To = path.To := by cases path <;> rfl

private theorem From_update_start : (update_start from_node to_node path).From =
    if path.via.head? = some to_node then from_node else to_node := by
  cases path with
  | ViaNodePath path_from via path_to =>
    simp only [update_start,TurnPath.via,head?_cons,some.injEq]
    split_ifs <;> rfl
  | ViaWayPath path_from via path_to =>
    simp only [update_start,TurnPath.via]
    split_ifs with same <;> simp [TurnPath.From,same]

private theorem To_update_end : (update_end from_node to_node path).To =
    if path.via.getLast? = some from_node then to_node else from_node := by
  cases path with
  | ViaNodePath path_from via path_to =>
    simp only [update_end,TurnPath.via,getLast?_singleton,some.injEq]
    split_ifs <;> rfl
  | ViaWayPath path_from via path_to =>
    simp only [update_end,TurnPath.via]
    split_ifs with same <;> simp [TurnPath.To,same]

end Updates

/-- What becomes of a path. -/
def follow (from_node via_node to_node : NodeID) (path : TurnPath) : TurnPath :=
  let started := if path.From = via_node then update_start from_node to_node path else path
  let ended := if started.To = via_node then update_end from_node to_node started else started
  update_via via_node ended

private theorem Compress_agree {compressor : TurnPathCompressor} (from_node via_node to_node : NodeID) (agree : Agree compressor) :
    (compressor.Compress from_node via_node to_node).turn_paths = compressor.turn_paths.map (follow from_node via_node to_node) ∧
      Agree (compressor.Compress from_node via_node to_node) := by
  let start (path : TurnPath) := if path.From = via_node then update_start from_node to_node path else path
  let finish (path : TurnPath) := if path.To = via_node then update_end from_node to_node path else path
  have start_To (path : TurnPath) : (start path).To = path.To := by
    dsimp only [start]
    split_ifs <;> simp
  have start_tracked (path : TurnPath) : (start path).tracked = path.tracked := by
    dsimp only [start]
    split_ifs <;> simp
  have finish_From (path : TurnPath) : (finish path).From = path.From := by
    dsimp only [finish]
    split_ifs <;> simp
  have finish_tracked (path : TurnPath) : (finish path).tracked = path.tracked := by
    dsimp only [finish]
    split_ifs <;> simp
  have started : for_each (equal_range compressor.starts via_node) (update_start from_node to_node) compressor.turn_paths =
      compressor.turn_paths.map start := for_each_equal_range agree.starts
  have ends : compressor.ends.Perm (index (fun path => [path.To]) (compressor.turn_paths.map start)) := by
    rw [index_map]
    simpa only [start_To] using agree.ends
  have ended : for_each (equal_range compressor.ends via_node) (update_end from_node to_node) (compressor.turn_paths.map start) =
      (compressor.turn_paths.map start).map finish := for_each_equal_range ends
  have vias : compressor.vias.Perm (index (·.tracked) ((compressor.turn_paths.map start).map finish)) := by
    rw [index_map,index_map]
    simpa only [start_tracked,finish_tracked] using agree.vias
  have starts_moved := reinsert_perm via_node (update_start from_node to_node) agree.starts
  have ends_moved := reinsert_perm via_node (update_end from_node to_node) ends
  rw [TurnPathCompressor.Compress]
  simp only [started,ended,for_each_vias vias]
  refine ⟨by simp only [List.map_map]; rfl,?_,erase_perm vias,?_⟩
  · refine starts_moved.trans (Perm.of_eq ?_)
    rw [index_map _ (update_via via_node),index_map _ finish]
    simp only [From_update_via,finish_From]
    rfl
  · refine ends_moved.trans (Perm.of_eq ?_)
    rw [index_map _ (update_via via_node)]
    simp only [To_update_via]
    rfl

end Indices

/-! ### One compression -/

/-- A node of degree two, whose two neighbours are not adjacent to each other. -/
structure Compressible (graph : CompressedGraph) (from_node via_node to_node : NodeID) : Prop where
  apart : from_node ≠ to_node
  neighbours : ∀ node, graph.Adjacent via_node node ↔ node = from_node ∨ node = to_node
  not_adjacent : ¬ graph.Adjacent from_node to_node

def Holds (path : TurnPath) (node : NodeID) : Prop := path.via.head? = some node ∨ path.via.getLast? = some node
def DoublesBack (path : TurnPath) (node : NodeID) : Prop := ∃ other, [other,node,other] <:+: path.via

def firstEdge (path : TurnPath) : Sym2 NodeID := s(path.From,path.via.headD path.To)
def lastEdge (path : TurnPath) : Sym2 NodeID := s(path.via.getLastD path.From,path.To)

/-- The path goes along the edges of the graph, and its ends contain those of the original. -/
structure Follows (graph : CompressedGraph) (original path : TurnPath) : Prop where
  some_via : path.via ≠ []
  connected : path.nodes.IsChain graph.Adjacent
  first : firstEdge original ∈ graph.segments (firstEdge path)
  last : lastEdge original ∈ graph.segments (lastEdge path)

section Compression
variable {graph : CompressedGraph} {from_node via_node to_node left right : NodeID} {path original : TurnPath} {nodes : List NodeID}

private theorem adjacent_comm : graph.Adjacent left right ↔ graph.Adjacent right left := by
  rw [CompressedGraph.Adjacent,CompressedGraph.Adjacent,Sym2.eq_swap]

private theorem ne_of_adjacent (adjacent : graph.Adjacent left right) : left ≠ right := by
  rintro rfl
  rw [CompressedGraph.Adjacent,graph.loopless] at adjacent
  exact Set.not_nonempty_empty adjacent

private theorem segments_compress_of_ne (not_left : left ≠ via_node) (not_right : right ≠ via_node) :
    graph.segments s(left,right) ⊆ (graph.compress from_node via_node to_node).segments s(left,right) := by
  intro segment inside
  exact .inl ⟨by simp [not_left.symm,not_right.symm],inside⟩

private theorem adjacent_compress_of_ne (adjacent : graph.Adjacent left right) (not_left : left ≠ via_node) (not_right : right ≠ via_node) :
    (graph.compress from_node via_node to_node).Adjacent left right :=
  adjacent.mono (segments_compress_of_ne not_left not_right)

namespace Compressible
variable (compressible : Compressible graph from_node via_node to_node)
include compressible

private theorem segments_from : graph.segments s(from_node,via_node) ⊆
    (graph.compress from_node via_node to_node).segments s(from_node,to_node) :=
  fun _ inside => .inr ⟨compressible.apart,rfl,.inl inside⟩

private theorem segments_to : graph.segments s(via_node,to_node) ⊆
    (graph.compress from_node via_node to_node).segments s(from_node,to_node) :=
  fun _ inside => .inr ⟨compressible.apart,rfl,.inr inside⟩

private theorem adjacent_neighbours (first : graph.Adjacent via_node left) (second : graph.Adjacent via_node right) (different : left ≠ right) :
    (graph.compress from_node via_node to_node).Adjacent left right := by
  have joined : (graph.compress from_node via_node to_node).Adjacent from_node to_node :=
    ((compressible.neighbours to_node).mpr (.inr rfl)).mono compressible.segments_to
  rcases (compressible.neighbours left).mp first with rfl | rfl <;> rcases (compressible.neighbours right).mp second with rfl | rfl
  · exact absurd rfl different
  · exact joined
  · exact adjacent_comm.mp joined
  · exact absurd rfl different

private theorem isChain_filter (chain : nodes.IsChain graph.Adjacent) (first : nodes.head? ≠ some via_node) (last : nodes.getLast? ≠ some via_node)
    (forth : ∀ other, ¬ [other,via_node,other] <:+: nodes) :
    (nodes.filter fun node => node != via_node).IsChain (graph.compress from_node via_node to_node).Adjacent := by
  induction length : nodes.length using Nat.strong_induction_on generalizing nodes with
  | _ length_nodes ih =>
    match nodes with
    | [] => exact .nil
    | [node] =>
      have other : node ≠ via_node := fun same => first (congrArg some same)
      rw [filter_cons_of_pos (by simpa using other),filter_nil]
      exact isChain_singleton node
    | left :: right :: rest =>
      have not_left : left ≠ via_node := fun same => first (congrArg some same)
      obtain ⟨step,chain⟩ := isChain_cons_cons.mp chain
      rw [filter_cons_of_pos (by simpa using not_left)]
      by_cases here : right = via_node
      · -- the walk goes through the node, and on to the other neighbour
        subst here
        match rest with
        | [] => exact absurd rfl last
        | next :: rest =>
          obtain ⟨onward,chain⟩ := isChain_cons_cons.mp chain
          have not_next : next ≠ right := (ne_of_adjacent onward).symm
          have different : left ≠ next := by
            rintro rfl
            exact forth left ⟨[],rest,rfl⟩
          have tail := ih (next :: rest).length (by simp [← length]) chain (by simpa using not_next) (by simpa using last)
            (fun other inside => forth other (inside.trans ⟨[left,right],[],by simp⟩)) rfl
          rw [filter_cons_of_neg (by simp)]
          rw [filter_cons_of_pos (by simpa using not_next)] at tail ⊢
          exact isChain_cons_cons.mpr ⟨compressible.adjacent_neighbours (adjacent_comm.mp step) onward different,tail⟩
      · have tail := ih (right :: rest).length (by simp [← length]) chain (by simpa using here) (by simpa using last)
          (fun other inside => forth other (inside.trans ⟨[left],[],by simp⟩)) rfl
        rw [filter_cons_of_pos (by simpa using here)] at tail ⊢
        exact isChain_cons_cons.mpr ⟨adjacent_compress_of_ne step not_left here,tail⟩

end Compressible

private theorem filter_ends {h l : NodeID} (first : nodes.head? = some h) (last : nodes.getLast? = some l) (not_first : h ≠ via_node)
    (not_last : l ≠ via_node) :
    (nodes.filter fun node => node != via_node).head? = some h ∧ (nodes.filter fun node => node != via_node).getLast? = some l := by
  constructor
  · obtain ⟨rest,rfl⟩ := head?_eq_some_iff.mp first
    rw [filter_cons_of_pos (by simpa using not_first),head?_cons]
  · obtain ⟨front,rfl⟩ := getLast?_eq_some_iff.mp last
    rw [filter_append,filter_cons_of_pos (by simpa using not_last),filter_nil,getLast?_concat]

private theorem isChain_nodes {h l : NodeID} (first : path.via.head? = some h) (last : path.via.getLast? = some l) :
    path.nodes.IsChain graph.Adjacent ↔
      graph.Adjacent path.From h ∧ path.via.IsChain graph.Adjacent ∧ graph.Adjacent l path.To := by
  rw [TurnPath.nodes,cons_append,isChain_cons,isChain_append]
  have head : (path.via ++ [path.To]).head? = some h := by
    rw [head?_append,first]
    rfl
  simp [head,last]

private theorem firstEdge_eq {h : NodeID} (first : path.via.head? = some h) : firstEdge path = s(path.From,h) := by
  rw [firstEdge,headD_eq_head?_getD,first,getD_some]
private theorem lastEdge_eq {l : NodeID} (last : path.via.getLast? = some l) : lastEdge path = s(l,path.To) := by
  rw [lastEdge,getLastD_eq_getLast?,last,getD_some]

private theorem From_follow {h : NodeID} (first : path.via.head? = some h) : (follow from_node via_node to_node path).From =
    if path.From = via_node then if h = to_node then from_node else to_node else path.From := by
  simp only [follow]
  split_ifs <;> simp_all [From_update_start]

private theorem To_follow {l : NodeID} (last : path.via.getLast? = some l) : (follow from_node via_node to_node path).To =
    if path.To = via_node then if l = from_node then to_node else from_node else path.To := by
  simp only [follow]
  split_ifs <;> simp_all [To_update_end]

private theorem via_update_via (first : path.via.head? ≠ some via_node) :
    (update_via via_node path).via = path.via.filter fun node => node != via_node := by
  cases path with
  | ViaNodePath path_from via path_to =>
    have other : via ≠ via_node := fun same => first (congrArg some same)
    have kept : [via].filter (fun node => node != via_node) = [via] := by simp [other]
    exact kept.symm
  | ViaWayPath path_from via path_to => rfl

private theorem via_follow (first : path.via.head? ≠ some via_node) :
    (follow from_node via_node to_node path).via = path.via.filter fun node => node != via_node := by
  simp only [follow]
  split_ifs <;> rw [via_update_via] <;> simp [first]

private theorem segments_moved (compressible : Compressible graph from_node via_node to_node) (adjacent : graph.Adjacent via_node left) :
    graph.segments s(via_node,left) ⊆
      (graph.compress from_node via_node to_node).segments s(if left = to_node then from_node else to_node,left) := by
  rcases (compressible.neighbours left).mp adjacent with rfl | rfl
  · rw [if_neg compressible.apart,Sym2.eq_swap,Sym2.eq_swap (a := to_node)]
    exact compressible.segments_from
  · rw [if_pos rfl]
    exact compressible.segments_to

private theorem Follows.compressed (follows : Follows graph original path) (compressible : Compressible graph from_node via_node to_node)
    (free : ¬ Holds path via_node) (forth : ¬ DoublesBack path via_node) :
    Follows (graph.compress from_node via_node to_node) original (follow from_node via_node to_node path) := by
  obtain ⟨not_first,not_last⟩ := not_or.mp free
  obtain ⟨h,first⟩ := ne_none_iff_exists'.mp (head?_eq_none_iff.not.mpr follows.some_via)
  obtain ⟨l,last⟩ := ne_none_iff_exists'.mp (getLast?_eq_none_iff.not.mpr follows.some_via)
  have h_ne : h ≠ via_node := fun same => not_first (same ▸ first)
  have l_ne : l ≠ via_node := fun same => not_last (same ▸ last)
  have via_left : (follow from_node via_node to_node path).via = path.via.filter fun node => node != via_node := via_follow not_first
  obtain ⟨left_first,left_last⟩ := filter_ends first last h_ne l_ne
  rw [← via_left] at left_first left_last
  obtain ⟨enters,walk,leaves⟩ := (isChain_nodes first last).mp follows.connected
  have first_inside : graph.segments s(path.From,h) ⊆
      (graph.compress from_node via_node to_node).segments s((follow from_node via_node to_node path).From,h) := by
    rw [From_follow first]
    by_cases here : path.From = via_node
    · rw [if_pos here,here]
      exact segments_moved compressible (here ▸ enters)
    · rw [if_neg here]
      exact segments_compress_of_ne here h_ne
  have last_inside : graph.segments s(l,path.To) ⊆
      (graph.compress from_node via_node to_node).segments s(l,(follow from_node via_node to_node path).To) := by
    rw [To_follow last]
    by_cases here : path.To = via_node
    · rw [if_pos here,here]
      have back : graph.Adjacent via_node l := adjacent_comm.mp (here ▸ leaves)
      have moved := segments_moved compressible back
      have other : (if l = from_node then to_node else from_node) = if l = to_node then from_node else to_node := by
        rcases (compressible.neighbours l).mp back with rfl | rfl
        · rw [if_pos rfl,if_neg compressible.apart]
        · rw [if_pos rfl,if_neg compressible.apart.symm]
      rw [other,Sym2.eq_swap,Sym2.eq_swap (a := l)]
      exact moved
    · rw [if_neg here]
      exact segments_compress_of_ne l_ne here
  constructor
  · intro empty
    rw [empty] at left_first
    cases left_first
  · refine (isChain_nodes left_first left_last).mpr ⟨enters.mono first_inside,?_,leaves.mono last_inside⟩
    rw [via_left]
    exact compressible.isChain_filter walk not_first not_last fun other inside => forth ⟨other,inside⟩
  · rw [firstEdge_eq left_first]
    exact first_inside (firstEdge_eq first ▸ follows.first)
  · rw [lastEdge_eq left_last]
    exact last_inside (lastEdge_eq last ▸ follows.last)

private theorem broken_of_doublesBack (connected : path.nodes.IsChain graph.Adjacent) (first : path.via.head? ≠ some via_node)
    (back : DoublesBack path via_node) :
    ¬ (follow from_node via_node to_node path).nodes.IsChain (graph.compress from_node via_node to_node).Adjacent := by
  obtain ⟨other,before,after,split⟩ := back
  intro chain
  have inside : path.via <:+: path.nodes := ⟨[path.From],[path.To],rfl⟩
  have step : graph.Adjacent via_node other := by
    have walk := connected.infix inside
    rw [← split,append_assoc] at walk
    exact (isChain_cons_cons.mp (isChain_cons_cons.mp (walk.right_of_append)).2).1
  have different : other ≠ via_node := (ne_of_adjacent step).symm
  have still : [other,other] <:+: (follow from_node via_node to_node path).via := by
    rw [via_follow first,← split]
    refine ⟨before.filter fun node => node != via_node,after.filter fun node => node != via_node,?_⟩
    simp [filter_append,different]
  have loop := chain.infix (still.trans ⟨[_],[_],rfl⟩)
  exact ne_of_adjacent (isChain_pair.mp loop) rfl

end Compression

structure State where
  graph : CompressedGraph
  compressor : TurnPathCompressor

def begin (graph : SimpleGraph NodeID) (restrictions maneuver_overrides : List TurnPath) : State :=
  ⟨.original graph,bind restrictions maneuver_overrides⟩

/-- A node that no path holds is compressed in the graph and in the paths, none of which doubles back at it. -/
def Step (before after : State) : Prop :=
  ∃ from_node via_node to_node, Compressible before.graph from_node via_node to_node ∧
    (∀ path ∈ before.compressor.turn_paths, ¬ Holds path via_node ∧ ¬ DoublesBack path via_node) ∧
    after = ⟨before.graph.compress from_node via_node to_node,before.compressor.Compress from_node via_node to_node⟩

section Runs
variable {graph : SimpleGraph NodeID} {restrictions maneuver_overrides : List TurnPath}

private theorem mem_segments_original {left right : NodeID} (adjacent : graph.Adj left right) :
    s(left,right) ∈ (CompressedGraph.original graph).segments s(left,right) := ⟨rfl,adjacent⟩
private theorem adjacent_original {left right : NodeID} : (CompressedGraph.original graph).Adjacent left right ↔ graph.Adj left right :=
  ⟨fun ⟨_,_,member⟩ => member,fun adjacent => ⟨_,mem_segments_original adjacent⟩⟩

private theorem some_via_of_valid {path : TurnPath} (valid : path.Valid = true) : path.via ≠ [] := by
  cases path with
  | ViaNodePath => exact cons_ne_nil _ _
  | ViaWayPath path_from via path_to =>
    rintro rfl
    simp [TurnPath.Valid] at valid

private theorem follows_original {path : TurnPath} (valid : path.Valid = true) (connected : path.nodes.IsChain graph.Adj) :
    Follows (.original graph) path path := by
  have some_via := some_via_of_valid valid
  have walk : path.nodes.IsChain (CompressedGraph.original graph).Adjacent := connected.imp fun _ _ => adjacent_original.mpr
  obtain ⟨h,first⟩ := ne_none_iff_exists'.mp (head?_eq_none_iff.not.mpr some_via)
  obtain ⟨l,last⟩ := ne_none_iff_exists'.mp (getLast?_eq_none_iff.not.mpr some_via)
  obtain ⟨enters,-,leaves⟩ := (isChain_nodes first last).mp walk
  refine ⟨some_via,walk,?_,?_⟩
  · rw [firstEdge_eq first]
    exact mem_segments_original (adjacent_original.mp enters)
  · rw [lastEdge_eq last]
    exact mem_segments_original (adjacent_original.mp leaves)

end Runs

/-- Each path goes along edges of the graph, from the one with its first segment to that with its last, and the indices
    have its nodes. -/
structure Kept (originals : List TurnPath) (state : State) : Prop where
  follow : List.Forall₂ (Follows state.graph) originals state.compressor.turn_paths
  agree : Agree state.compressor

private theorem Kept.step {originals : List TurnPath} {before after : State} (kept : Kept originals before) (step : Step before after) :
    Kept originals after := by
  obtain ⟨from_node,via_node,to_node,compressible,free,rfl⟩ := step
  obtain ⟨paths,agree⟩ := Compress_agree from_node via_node to_node kept.agree
  refine ⟨?_,agree⟩
  have each := ((forall₂_and_left _ _).mpr ⟨free,kept.follow.flip⟩).flip
  rw [paths]
  refine forall₂_map_right_iff.mpr (each.imp fun original path both => ?_)
  exact both.2.compressed compressible both.1.1 both.1.2

/-- As long as no path doubles back at a compressed node, all paths stay paths in every state that is reached. -/
theorem turn_paths_stay_paths (graph : SimpleGraph NodeID) (restrictions maneuver_overrides : List TurnPath)
    (paths : ∀ path ∈ restrictions ++ maneuver_overrides, path.Valid = true ∧ path.nodes.IsChain graph.Adj) (state : State)
    (run : Relation.ReflTransGen Step (begin graph restrictions maneuver_overrides) state) :
    Kept (restrictions ++ maneuver_overrides) state := by
  induction run with
  | refl =>
    refine ⟨forall₂_same.mpr fun path member => ?_,⟨.refl _,.refl _,.refl _⟩⟩
    exact follows_original (paths path member).1 (paths path member).2
  | tail _ step ih => exact ih.step step

def row : SimpleGraph NodeID := SimpleGraph.fromEdgeSet {s(0,1),s(1,2),s(2,3)}

private theorem compressible_row : Compressible (.original row) 1 2 3 := by
  refine ⟨by decide,fun node => ?_,?_⟩
  · rw [adjacent_original,row,SimpleGraph.fromEdgeSet_adj]
    simp only [Set.mem_insert_iff,Set.mem_singleton_iff,Sym2.eq_iff]
    grind
  · rw [adjacent_original,row,SimpleGraph.fromEdgeSet_adj]
    simp

/-- The end of a path is moved. -/
theorem turn_path_stays_path : Kept [.ViaNodePath 0 1 2] ⟨(CompressedGraph.original row).compress 1 2 3,(bind [.ViaNodePath 0 1 2] []).Compress 1 2 3⟩ := by
  refine turn_paths_stay_paths row [.ViaNodePath 0 1 2] [] ?_ _ (.single ⟨1,2,3,compressible_row,?_,rfl⟩)
  · intro path member
    cases mem_singleton.mp member
    refine ⟨by decide,?_⟩
    simp [TurnPath.nodes,TurnPath.From,TurnPath.via,TurnPath.To,row]
  · intro path member
    cases mem_singleton.mp member
    refine ⟨by simp [Holds,TurnPath.via],?_⟩
    rintro ⟨other,inside⟩
    have short : 3 ≤ 1 := inside.length_le
    exact absurd short (by decide)

/-- A path that doubles back at the node 2: after the compression it goes from the node 1 to itself. -/
theorem turn_path_breaks : (TurnPath.ViaWayPath 0 [1,2,1] 0).Valid = true ∧
    (TurnPath.ViaWayPath 0 [1,2,1] 0).nodes.IsChain row.Adj ∧ Compressible (.original row) 1 2 3 ∧ ¬ Holds (.ViaWayPath 0 [1,2,1] 0) 2 ∧
    ((bind [.ViaWayPath 0 [1,2,1] 0] []).Compress 1 2 3).turn_paths = [.ViaWayPath 0 [1,1] 0] ∧
    ¬ (TurnPath.ViaWayPath 0 [1,1] 0).nodes.IsChain ((CompressedGraph.original row).compress 1 2 3).Adjacent := by
  refine ⟨by decide,?_,compressible_row,by simp [Holds,TurnPath.via],by decide,?_⟩
  · simp [TurnPath.nodes,TurnPath.From,TurnPath.via,TurnPath.To,row]
  · intro chain
    have loop := (isChain_cons_cons.mp (isChain_cons_cons.mp chain).2).1
    exact ne_of_adjacent loop rfl

end Osrm.TurnPaths
