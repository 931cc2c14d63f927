import Mathlib.Algebra.BigOperators.Group.Finset.Basic
import Osrm.Loops
import Osrm.StrongComponents
import Osrm.Typedefs

/-!
`TarjanSCC::Run` of `util/tarjan_scc.hpp`. The recursion is a stack of frames. A frame is looked at before those of
the nodes behind its edges and, if it found its node, once more after them.
-/
namespace Osrm.TarjanScc
open List Option Function
open Typedefs Loops StrongComponents

structure Graph where
  GetNumberOfNodes : ℕ
  GetAdjacentEdgeRange : NodeID → List EdgeID
  GetTarget : EdgeID → NodeID
  inside : ∀ node < GetNumberOfNodes, ∀ edge ∈ GetAdjacentEdgeRange node, GetTarget edge < GetNumberOfNodes
  small : GetNumberOfNodes ≤ SPECIAL_NODEID

namespace Graph

def targets (graph : Graph) (v : NodeID) : List NodeID := (graph.GetAdjacentEdgeRange v).map graph.GetTarget
def Adjacent (graph : Graph) (v w : NodeID) : Prop := w ∈ graph.targets v

end Graph

structure TarjanStackFrame where
  v : NodeID
  parent : NodeID
  deriving DecidableEq, Repr

structure TarjanNode where
  index : ℕ
  low_link : ℕ
  on_stack : Bool
  deriving DecidableEq, Repr

/-- The variables of `Run` and the members it fills. The last pushed element of a stack is the first one. -/
structure Search where
  recursion_stack : List TarjanStackFrame
  tarjan_stack : List NodeID
  tarjan_node_list : NodeID → TarjanNode
  component_index : ℕ
  index : ℕ
  processing_node_before_recursion : NodeID → Bool
  components_index : NodeID → ℕ
  component_size_vector : List ℕ

/-- The body of the loop over the edges of a node, for the target of an edge. -/
def scanEdge (v : NodeID) (s : Search) (vprime : NodeID) : Search :=
  if SPECIAL_NODEID = (s.tarjan_node_list vprime).index then { s with recursion_stack := ⟨vprime,v⟩ :: s.recursion_stack }
  else if (s.tarjan_node_list vprime).on_stack ∧ (s.tarjan_node_list vprime).index < (s.tarjan_node_list v).low_link then
    { s with
      tarjan_node_list := Function.update s.tarjan_node_list v
        { s.tarjan_node_list v with low_link := (s.tarjan_node_list vprime).index } }
  else s

/-- The loop that takes a component from the stack and counts its nodes. It goes down to `v`. -/
def popComponent (v : NodeID) : List NodeID → Search × ℕ → Search × ℕ
  | [],r => r
  | vprime :: rest,(s,size_of_current_component) =>
    let s := { s with
      tarjan_stack := rest
      tarjan_node_list := Function.update s.tarjan_node_list vprime { s.tarjan_node_list vprime with on_stack := false }
      components_index := Function.update s.components_index vprime s.component_index }
    if v = vprime then (s,size_of_current_component + 1) else popComponent v rest (s,size_of_current_component + 1)

/-- What is done before the recursion. The frame stays on the stack. -/
def enter (graph : Graph) (s : Search) (v : NodeID) : Search :=
  (graph.targets v).foldl (scanEdge v) { s with
    processing_node_before_recursion := Function.update s.processing_node_before_recursion v false
    tarjan_node_list := Function.update s.tarjan_node_list v ⟨s.index,s.index,true⟩
    tarjan_stack := v :: s.tarjan_stack
    index := s.index + 1 }

/-- After the recursion the low link of a node travels to its parent. -/
def pass (s : Search) (u v : NodeID) : Search :=
  { s with
    processing_node_before_recursion := Function.update s.processing_node_before_recursion v true
    tarjan_node_list := Function.update s.tarjan_node_list u { s.tarjan_node_list u with
      low_link := min (s.tarjan_node_list u).low_link (s.tarjan_node_list v).low_link } }

/-- What is done after the recursion. -/
def leave (s : Search) (u v : NodeID) : Search :=
  let s := pass s u v
  if (s.tarjan_node_list v).low_link = (s.tarjan_node_list v).index then
    let r := popComponent v s.tarjan_stack (s,0)
    { r.1 with component_size_vector := r.1.component_size_vector ++ [r.2],component_index := r.1.component_index + 1 }
  else s

/-- The body of the loop over the frames. -/
def step (graph : Graph) (s : Search) : Search :=
  match s.recursion_stack with
  | [] => s
  | currentFrame :: rest =>
    let before_recursion := s.processing_node_before_recursion currentFrame.v
    if before_recursion ∧ (s.tarjan_node_list currentFrame.v).index ≠ SPECIAL_NODEID then { s with recursion_stack := rest }
    else if before_recursion then enter graph s currentFrame.v
    else leave { s with recursion_stack := rest } currentFrame.parent currentFrame.v

/-- The body of the loop over the nodes. -/
def runNode (graph : Graph) (fuel : ℕ) (s : Search) (node : NodeID) : Option Search :=
  whileLoop (fun s => !s.recursion_stack.isEmpty) (step graph) fuel
    (if SPECIAL_NODEID = s.components_index node then { s with recursion_stack := ⟨node,node⟩ :: s.recursion_stack } else s)

def startSearch : Search where
  recursion_stack := []
  tarjan_stack := []
  tarjan_node_list := fun _ => ⟨SPECIAL_NODEID,SPECIAL_NODEID,false⟩
  component_index := 0
  index := 0
  processing_node_before_recursion := fun _ => true
  components_index := fun _ => SPECIAL_NODEID
  component_size_vector := []

structure TarjanSCC where
  components_index : NodeID → ℕ
  component_size_vector : List ℕ
  size_one_counter : ℕ

namespace TarjanSCC

def GetNumberOfComponents (scc : TarjanSCC) : ℕ := scc.component_size_vector.length
def GetSizeOneCount (scc : TarjanSCC) : ℕ := scc.size_one_counter
def GetComponentSize (scc : TarjanSCC) (component_id : ℕ) : ℕ := scc.component_size_vector.getD component_id 0
def GetComponentID (scc : TarjanSCC) (node : NodeID) : ℕ := scc.components_index node

end TarjanSCC

def Run (graph : Graph) (fuel : ℕ) : Option TarjanSCC :=
  ((List.range graph.GetNumberOfNodes).foldlM (runNode graph fuel) startSearch).map fun s =>
    ⟨s.components_index,s.component_size_vector,s.component_size_vector.countP fun value => value == 1⟩

/-- What the loop over the edges of a node did to the state. -/
structure Scanned (v : NodeID) (targets : List NodeID) (s scanned : Search) (pushed : List TarjanStackFrame) (low : ℕ) : Prop where
  state : scanned = { s with
    recursion_stack := pushed ++ s.recursion_stack
    tarjan_node_list := Function.update s.tarjan_node_list v { s.tarjan_node_list v with low_link := low } }
  parents : ∀ frame ∈ pushed, frame.parent = v ∧ frame.v ∈ targets ∧ (s.tarjan_node_list frame.v).index = SPECIAL_NODEID
  all : ∀ w ∈ targets, (s.tarjan_node_list w).index ≠ SPECIAL_NODEID ∨ ⟨w,v⟩ ∈ pushed
  few : pushed.length ≤ targets.length
  le : low ≤ (s.tarjan_node_list v).low_link
  least : ∀ w ∈ targets, (s.tarjan_node_list w).index ≠ SPECIAL_NODEID → (s.tarjan_node_list w).on_stack = true →
    low ≤ (s.tarjan_node_list w).index
  reached : low = (s.tarjan_node_list v).low_link ∨
    ∃ w ∈ targets, (s.tarjan_node_list w).on_stack = true ∧ low = (s.tarjan_node_list w).index

private theorem scanned_nil (v : NodeID) (s : Search) : Scanned v [] s s [] (s.tarjan_node_list v).low_link := by
  refine ⟨?_,by simp,by simp,Nat.le_refl _,Nat.le_refl _,by simp,.inl rfl⟩
  rw [update_eq_self]
  rfl

private theorem Scanned.next {v w : NodeID} {targets : List NodeID} {s scanned : Search} {pushed : List TarjanStackFrame} {low : ℕ}
    (before : Scanned v targets s scanned pushed low) :
    ∃ pushed' low', Scanned v (targets ++ [w]) s (scanEdge v scanned w) pushed' low' := by
  obtain ⟨rfl,parents,all,few,le,least,reached⟩ := before
  -- the loop reads what was there before it, apart from the low link of its own node
  have same : ∀ x, ((Function.update s.tarjan_node_list v { s.tarjan_node_list v with low_link := low }) x).index =
        (s.tarjan_node_list x).index ∧
      ((Function.update s.tarjan_node_list v { s.tarjan_node_list v with low_link := low }) x).on_stack =
        (s.tarjan_node_list x).on_stack := by
    intro x
    by_cases here : x = v
    · subst here
      rw [update_self]
      exact ⟨rfl,rfl⟩
    · rw [update_of_ne here]
      exact ⟨rfl,rfl⟩
  have parents' : ∀ frame ∈ pushed, frame.parent = v ∧ frame.v ∈ targets ++ [w] ∧ (s.tarjan_node_list frame.v).index = SPECIAL_NODEID :=
    fun frame member => ⟨(parents frame member).1,mem_append_left _ (parents frame member).2.1,(parents frame member).2.2⟩
  rw [scanEdge]
  simp only [(same w).1,(same w).2,update_self]
  split_ifs with unseen lower
  · refine ⟨⟨w,v⟩ :: pushed,low,rfl,forall_mem_cons.mpr ⟨⟨rfl,by simp,unseen.symm⟩,parents'⟩,?_,?_,le,?_,?_⟩
    · refine forall_mem_concat (fun x member => ?_) (.inr mem_cons_self)
      exact (all x member).imp_right (mem_cons_of_mem _)
    · rw [length_cons,length_append]
      exact Nat.succ_le_succ few
    · exact forall_mem_concat least fun seen => absurd unseen.symm seen
    · exact reached.imp_right fun ⟨x,member,found⟩ => ⟨x,mem_append_left _ member,found⟩
  · refine ⟨pushed,(s.tarjan_node_list w).index,?_,parents',?_,?_,by omega,?_,?_⟩
    · simp
    · exact forall_mem_concat all (.inl fun equal => unseen equal.symm)
    · rw [length_append]
      omega
    · exact forall_mem_concat (fun x member seen stacked => (Nat.le_of_lt lower.2).trans (least x member seen stacked)) fun _ _ => Nat.le_refl _
    · exact .inr ⟨w,by simp,lower.1,rfl⟩
  · refine ⟨pushed,low,rfl,parents',?_,?_,le,?_,?_⟩
    · exact forall_mem_concat all (.inl fun equal => unseen equal.symm)
    · rw [length_append]
      omega
    · exact forall_mem_concat least fun _ stacked => Nat.le_of_not_lt fun less => lower ⟨stacked,less⟩
    · exact reached.imp_right fun ⟨x,member,found⟩ => ⟨x,mem_append_left _ member,found⟩

private theorem foldl_scanEdge (v : NodeID) (targets : List NodeID) (s : Search) :
    ∃ pushed low, Scanned v targets s (targets.foldl (scanEdge v) s) pushed low := by
  induction targets using List.reverseRecOn with
  | nil => exact ⟨_,_,scanned_nil v s⟩
  | append_singleton targets w ih =>
    obtain ⟨pushed,low,scanned⟩ := ih
    rw [foldl_append]
    exact scanned.next

/-- The state after the nodes of a component, those above its root and the root, are taken from the stack. -/
def popped (above below : List NodeID) (v : NodeID) (s : Search) : Search :=
  { s with
    tarjan_stack := below
    tarjan_node_list := fun x =>
      if x ∈ above ∨ x = v then { s.tarjan_node_list x with on_stack := false } else s.tarjan_node_list x
    components_index := fun x => if x ∈ above ∨ x = v then s.component_index else s.components_index x }

private theorem update_eq_ite {β : Type} {f g : NodeID → β} {w : NodeID} : Function.update f w (g w) = fun x => if x = w then g x else f x := by
  funext x
  rw [update_apply]
  split_ifs with same
  · rw [same]
  · rfl

private theorem popComponent_eq {above : List NodeID} {v : NodeID} (fresh : v ∉ above) (below : List NodeID) (s : Search) (size : ℕ) :
    popComponent v (above ++ v :: below) (s,size) = (popped above below v s,size + (above.length + 1)) := by
  induction above generalizing s size with
  | nil =>
    rw [nil_append,popComponent,if_pos rfl]
    simp only [popped,not_mem_nil,false_or,length_nil]
    congr 2
    · exact @update_eq_ite _ _ (fun x => { s.tarjan_node_list x with on_stack := false }) v
    · exact @update_eq_ite _ _ (fun _ => s.component_index) v
  | cons w above ih =>
    have ne : v ≠ w := fun same => fresh (same ▸ mem_cons_self)
    rw [cons_append,popComponent,if_neg ne,ih fun member => fresh (mem_cons_of_mem _ member)]
    refine Prod.ext ?_ (by rw [length_cons]; omega)
    simp only [popped,mem_cons]
    congr 1
    · funext x
      by_cases here : x = w
      · subst here
        simp
      · simp [here,update_of_ne]
    · funext x
      by_cases here : x = w
      · subst here
        simp
      · simp [here,update_of_ne]

/-- The frames for some open nodes, from the last one entered. Above the frame of an open node are only frames it pushed and
    those of the open nodes after it; only its topmost frame is looked at while it is open. -/
inductive Frames (graph : Graph) : List TarjanStackFrame → List NodeID → Prop
  | nil : Frames graph [] []
  | root (r : NodeID) : Frames graph [⟨r,r⟩] []
  | pending {frames : List TarjanStackFrame} {opened : List NodeID} {w g : NodeID} (rest : Frames graph frames (g :: opened))
    (edge : graph.Adjacent g w) (fresh : w ∉ g :: opened) : Frames graph (⟨w,g⟩ :: frames) (g :: opened)
  | opened {frames : List TarjanStackFrame} {opened : List NodeID} {v p : NodeID} (rest : Frames graph frames opened)
    (parent : opened = [] ∧ frames = [] ∧ p = v ∨ opened.head? = some p) (fresh : v ∉ opened) :
    Frames graph (⟨v,p⟩ :: frames) (v :: opened)

variable {graph : Graph} {frames : List TarjanStackFrame}

private theorem Frames.parent_mem {opened : List NodeID} (shape : Frames graph frames opened) :
    ∀ frame ∈ frames, frame.parent ∈ opened ∨ frame.parent = frame.v := by
  induction shape with
  | nil => simp
  | root r => simp
  | pending rest edge fresh ih => exact forall_mem_cons.mpr ⟨.inl mem_cons_self,ih⟩
  | opened rest parent fresh ih =>
    refine forall_mem_cons.mpr ⟨?_,fun frame member => (ih frame member).imp_left (mem_cons_of_mem _)⟩
    cases parent with
    | inl bottom => exact .inr bottom.2.2
    | inr top => exact .inl (mem_cons_of_mem _ (mem_of_mem_head? (by rw [top]; exact rfl)))

private theorem Frames.push {frames pushed : List TarjanStackFrame} {v : NodeID} {opened : List NodeID}
    (shape : Frames graph frames (v :: opened))
    (each : ∀ frame ∈ pushed, frame.parent = v ∧ graph.Adjacent v frame.v ∧ frame.v ∉ v :: opened) :
    Frames graph (pushed ++ frames) (v :: opened) := by
  induction pushed with
  | nil => exact shape
  | cons frame pushed ih =>
    obtain ⟨⟨parent,edge,fresh⟩,others⟩ := forall_mem_cons.mp each
    obtain ⟨w,g⟩ := frame
    dsimp only at parent edge fresh
    subst parent
    exact .pending (ih others) edge fresh

private theorem Frames.enter {opened : List NodeID} {v p : NodeID}
    (shape : Frames graph (⟨v,p⟩ :: frames) opened) (fresh : v ∉ opened) : Frames graph (⟨v,p⟩ :: frames) (v :: opened) := by
  cases shape with
  | root => exact .opened .nil (.inl ⟨rfl,rfl,rfl⟩) fresh
  | pending rest edge _ => exact .opened rest (.inr rfl) fresh
  | opened => simp at fresh

private theorem Frames.skip {opened : List NodeID} {v p : NodeID}
    (shape : Frames graph (⟨v,p⟩ :: frames) opened) (fresh : v ∉ opened) : Frames graph frames opened := by
  cases shape with
  | root => exact .nil
  | pending rest _ _ => exact rest
  | opened => simp at fresh

private theorem Frames.leave {opened : List NodeID} {v p : NodeID}
    (shape : Frames graph (⟨v,p⟩ :: frames) opened) (open_v : v ∈ opened) :
    ∃ others, opened = v :: others ∧ Frames graph frames others ∧
      (others = [] ∧ frames = [] ∧ p = v ∨ others.head? = some p) := by
  cases shape with
  | root => simp at open_v
  | pending _ _ fresh => exact absurd open_v fresh
  | opened rest parent _ => exact ⟨_,rfl,rest,parent⟩

private theorem Frames.edge {opened : List NodeID} {v p g : NodeID}
    (shape : Frames graph (⟨v,p⟩ :: frames) (g :: opened)) (fresh : v ∉ g :: opened) : graph.Adjacent g v := by
  cases shape with
  | pending _ edge _ => exact edge
  | opened => simp at fresh

namespace Search

def indexOf (s : Search) (x : NodeID) : ℕ := (s.tarjan_node_list x).index
def lowOf (s : Search) (x : NodeID) : ℕ := (s.tarjan_node_list x).low_link
def Done (s : Search) (x : NodeID) : Prop := s.indexOf x ≠ SPECIAL_NODEID ∧ (s.tarjan_node_list x).on_stack = false

end Search

structure Inv (graph : Graph) (s : Search) (opened : List NodeID) : Prop where
  valid : Valid graph.Adjacent s.indexOf s.lowOf s.tarjan_stack opened s.Done
  labelled : Labelled graph.Adjacent s.Done s.components_index s.component_index
  unlabelled : ∀ x, ¬ s.Done x → s.components_index x = SPECIAL_NODEID
  frames : Frames graph s.recursion_stack opened
  flags : ∀ x, s.processing_node_before_recursion x = false ↔ x ∈ opened
  on_stack : ∀ x, (s.tarjan_node_list x).on_stack = true ↔ x ∈ s.tarjan_stack
  stacked : ∀ x ∈ s.tarjan_stack, s.indexOf x ≠ SPECIAL_NODEID
  count : s.index = ((Finset.range graph.GetNumberOfNodes).filter fun x => s.indexOf x ≠ SPECIAL_NODEID).card
  found : ∀ x, s.indexOf x ≠ SPECIAL_NODEID → x < graph.GetNumberOfNodes ∧ s.indexOf x < s.index
  waiting : ∀ g ∈ opened, ∀ w, graph.Adjacent g w → s.indexOf w ≠ SPECIAL_NODEID ∨ ⟨w,g⟩ ∈ s.recursion_stack
  frames_inside : ∀ frame ∈ s.recursion_stack, frame.v < graph.GetNumberOfNodes
  sizes_length : s.component_size_vector.length = s.component_index
  sizes : ∀ c < s.component_index, ∃ members : List NodeID, members.Nodup ∧
    (∀ x, x ∈ members ↔ s.Done x ∧ s.components_index x = c) ∧ s.component_size_vector[c]? = some members.length

variable {s : Search} {opened : List NodeID}

private theorem inv_start (graph : Graph) : Inv graph startSearch [] := by
  have undone : ∀ x, ¬ startSearch.Done x := fun x done => done.1 rfl
  refine ⟨valid_nil _ _ _ fun x _ done => absurd done (undone x),⟨?_,?_,?_⟩,fun _ _ => rfl,.nil,?_,?_,?_,?_,?_,?_,?_,rfl,?_⟩
  · exact fun x done => absurd done (undone x)
  · exact fun x _ done => absurd done (undone x)
  all_goals simp [startSearch,Search.indexOf]

private theorem Inv.index_lt (inv : Inv graph s opened) {v : NodeID} (inside : v < graph.GetNumberOfNodes)
    (unseen : s.indexOf v = SPECIAL_NODEID) : s.index < graph.GetNumberOfNodes := by
  rw [inv.count]
  conv => rhs; rw [← Finset.card_range graph.GetNumberOfNodes]
  exact Finset.card_lt_card (Finset.filter_ssubset.mpr ⟨v,Finset.mem_range.mpr inside,fun seen => seen unseen⟩)

private theorem Inv.stack_undone (inv : Inv graph s opened) {x : NodeID} (seen : s.indexOf x ≠ SPECIAL_NODEID) :
    x ∈ s.tarjan_stack ∨ s.Done x := by
  cases stacked : (s.tarjan_node_list x).on_stack with
  | true => exact .inl ((inv.on_stack x).mp stacked)
  | false => exact .inr ⟨seen,stacked⟩

private theorem Inv.skip (inv : Inv graph s opened) {v p : NodeID} {rest : List TarjanStackFrame} (top : s.recursion_stack = ⟨v,p⟩ :: rest)
    (shut : v ∉ opened) (seen : s.indexOf v ≠ SPECIAL_NODEID) : Inv graph { s with recursion_stack := rest } opened := by
  have frames := inv.frames
  rw [top] at frames
  refine { inv with frames := frames.skip shut,waiting := fun g at_g w edge => ?_,frames_inside := fun frame member => ?_ }
  · cases inv.waiting g at_g w edge with
    | inl found => exact .inl found
    | inr pending =>
      rw [top] at pending
      cases mem_cons.mp pending with
      | inl here =>
        have same : w = v := congrArg TarjanStackFrame.v here
        exact .inl (same ▸ seen)
      | inr later => exact .inr later
  · exact inv.frames_inside frame (top ▸ mem_cons_of_mem _ member)

/-! ### A node is entered -/

/-- What `enter` did to the state, when the node was not found before. -/
structure Entered (graph : Graph) (s : Search) (v : NodeID) (entered : Search) (pushed : List TarjanStackFrame) (low : ℕ) : Prop where
  state : entered = { s with
    recursion_stack := pushed ++ s.recursion_stack
    processing_node_before_recursion := Function.update s.processing_node_before_recursion v false
    tarjan_node_list := Function.update s.tarjan_node_list v ⟨s.index,low,true⟩
    tarjan_stack := v :: s.tarjan_stack
    index := s.index + 1 }
  parents : ∀ frame ∈ pushed, frame.parent = v ∧ graph.Adjacent v frame.v ∧ frame.v ≠ v ∧ s.indexOf frame.v = SPECIAL_NODEID
  all : ∀ w, graph.Adjacent v w → w = v ∨ s.indexOf w ≠ SPECIAL_NODEID ∨ ⟨w,v⟩ ∈ pushed
  few : pushed.length ≤ (graph.targets v).length
  le : low ≤ s.index
  least : ∀ w, graph.Adjacent v w → w ≠ v → s.indexOf w ≠ SPECIAL_NODEID → (s.tarjan_node_list w).on_stack = true → low ≤ s.indexOf w
  reached : low = s.index ∨ ∃ w, graph.Adjacent v w ∧ w ≠ v ∧ (s.tarjan_node_list w).on_stack = true ∧ low = s.indexOf w

private theorem entered (graph : Graph) (s : Search) (v : NodeID) (small : s.index ≠ SPECIAL_NODEID) :
    ∃ pushed low, Entered graph s v (enter graph s v) pushed low := by
  obtain ⟨pushed,low,state,parents,all,few,le,least,reached⟩ := foldl_scanEdge v (graph.targets v) { s with
    processing_node_before_recursion := Function.update s.processing_node_before_recursion v false
    tarjan_node_list := Function.update s.tarjan_node_list v ⟨s.index,s.index,true⟩
    tarjan_stack := v :: s.tarjan_stack
    index := s.index + 1 }
  dsimp only at state parents all le least reached
  have own : Function.update s.tarjan_node_list v ⟨s.index,s.index,true⟩ v = ⟨s.index,s.index,true⟩ := update_self ..
  have other : ∀ w, w ≠ v → Function.update s.tarjan_node_list v ⟨s.index,s.index,true⟩ w = s.tarjan_node_list w :=
    fun w ne => update_of_ne ne ..
  rw [own,update_idem] at state
  rw [own] at le reached
  refine ⟨pushed,low,state,fun frame member => ?_,fun w edge => ?_,few,le,fun w edge ne seen stacked => ?_,?_⟩
  · obtain ⟨parent,edge,unseen⟩ := parents frame member
    have ne : frame.v ≠ v := by
      intro same
      rw [same,own] at unseen
      exact small unseen
    rw [other _ ne] at unseen
    exact ⟨parent,edge,ne,unseen⟩
  · by_cases same : w = v
    · exact .inl same
    · have either := all w edge
      rw [other w same] at either
      exact .inr either
  · have bound := least w edge
    rw [other w ne] at bound
    exact bound seen stacked
  · cases reached with
    | inl whole => exact .inl whole
    | inr found =>
      obtain ⟨w,edge,stacked,same⟩ := found
      by_cases here : w = v
      · rw [here,own] at same
        exact .inl same
      · rw [other w here] at stacked same
        exact .inr ⟨w,edge,here,stacked,same⟩

section Enter
variable {s' : Search} {v p : NodeID} {rest pushed : List TarjanStackFrame} {low : ℕ}

private theorem Entered.own (entered : Entered graph s v s' pushed low) : s'.tarjan_node_list v = ⟨s.index,low,true⟩ := by
  rw [entered.state]
  exact update_self ..

private theorem Entered.other (entered : Entered graph s v s' pushed low) {x : NodeID} (ne : x ≠ v) :
    s'.tarjan_node_list x = s.tarjan_node_list x := by
  rw [entered.state]
  exact update_of_ne ne ..

private theorem Entered.done_same (entered : Entered graph s v s' pushed low) (unseen : s.indexOf v = SPECIAL_NODEID) : s'.Done = s.Done := by
  funext x
  by_cases same : x = v
  · subst same
    have shut : ¬ s'.Done x := fun done => by
      have off := done.2
      rw [entered.own] at off
      simp at off
    exact propext ⟨fun done => absurd done shut,fun done => absurd unseen done.1⟩
  · rw [Search.Done,Search.Done,Search.indexOf,Search.indexOf,entered.other same]

private theorem Inv.path_to_top (inv : Inv graph s opened) (top : s.recursion_stack = ⟨v,p⟩ :: rest) (shut : v ∉ opened) :
    ∀ g ∈ opened, Relation.ReflTransGen graph.Adjacent g v := by
  intro g at_g
  have frames := inv.frames
  rw [top] at frames
  cases opened with
  | nil => simp at at_g
  | cons parent opened =>
    refine (inv.valid.down g at_g parent (inv.valid.opened_stack parent mem_cons_self) ?_).tail (frames.edge shut)
    cases mem_cons.mp at_g with
    | inl here => rw [here]
    | inr later => exact Nat.le_of_lt (inv.valid.last g later)

private theorem Entered.valid (entered : Entered graph s v s' pushed low) (inv : Inv graph s opened) (top : s.recursion_stack = ⟨v,p⟩ :: rest)
    (shut : v ∉ opened) (unseen : s.indexOf v = SPECIAL_NODEID) :
    Valid graph.Adjacent s'.indexOf s'.lowOf s'.tarjan_stack (v :: opened) s'.Done := by
  have fresh : v ∉ s.tarjan_stack := fun member => inv.stacked v member unseen
  have undone : ¬ s.Done v := fun done => done.1 unseen
  have elsewhere : ∀ x ∈ s.tarjan_stack, x ≠ v := fun x member same => fresh (same ▸ member)
  have own := entered.own
  have other : ∀ x, x ≠ v → s'.tarjan_node_list x = s.tarjan_node_list x := fun x ne => entered.other ne
  have done_same := entered.done_same unseen
  obtain ⟨state,_,_,_,le,least,reached⟩ := entered
  have index_own : s'.indexOf v = s.index := congrArg TarjanNode.index own
  have index_other : ∀ x, x ≠ v → s'.indexOf x = s.indexOf x := fun x ne => congrArg TarjanNode.index (other x ne)
  have low_own : s'.lowOf v = low := congrArg TarjanNode.low_link own
  have stack : s'.tarjan_stack = v :: s.tarjan_stack := by rw [state]
  rw [stack,done_same]
  refine inv.valid.find fresh undone (fun x member => index_other x (elsewhere x member))
    (fun x member => congrArg TarjanNode.low_link (other x (elsewhere x member))) ?_ (inv.path_to_top top shut) ?_ ?_ ?_
  · exact fun x member => index_own ▸ (inv.found x (inv.stacked x member)).2
  · rw [low_own]
    intro w member edge
    cases mem_cons.mp member with
    | inl here => rwa [here,index_own]
    | inr old =>
      rw [index_other w (elsewhere w old)]
      exact least w edge (elsewhere w old) (inv.stacked w old) ((inv.on_stack w).mpr old)
  · rwa [low_own,index_own]
  · rw [low_own]
    cases reached with
    | inl whole => exact ⟨v,mem_cons_self,by rw [whole,index_own],.refl⟩
    | inr at_w =>
      obtain ⟨w,edge,ne,stacked,same⟩ := at_w
      exact ⟨w,mem_cons_of_mem _ ((inv.on_stack w).mp stacked),by rw [same,index_other w ne],.single edge⟩

private theorem Entered.inv (entered : Entered graph s v s' pushed low) (inv : Inv graph s opened) (top : s.recursion_stack = ⟨v,p⟩ :: rest)
    (shut : v ∉ opened) (unseen : s.indexOf v = SPECIAL_NODEID) (small : s.index ≠ SPECIAL_NODEID) : Inv graph s' (v :: opened) := by
  have inside : v < graph.GetNumberOfNodes := inv.frames_inside ⟨v,p⟩ (top ▸ mem_cons_self)
  have elsewhere : ∀ x ∈ s.tarjan_stack, x ≠ v := fun x member same => inv.stacked v (same ▸ member) unseen
  have own := entered.own
  have other : ∀ x, x ≠ v → s'.tarjan_node_list x = s.tarjan_node_list x := fun x ne => entered.other ne
  have done_same := entered.done_same unseen
  have valid := entered.valid inv top shut unseen
  obtain ⟨state,parents,all,_,_,_,_⟩ := entered
  have index_own : s'.indexOf v = s.index := congrArg TarjanNode.index own
  have index_other : ∀ x, x ≠ v → s'.indexOf x = s.indexOf x := fun x ne => congrArg TarjanNode.index (other x ne)
  have frames := inv.frames
  rw [top] at frames
  constructor
  · exact valid
  · rw [done_same,state]
    exact inv.labelled
  · rw [done_same,state]
    exact inv.unlabelled
  · rw [state]
    refine Frames.push (top ▸ frames.enter shut) fun frame member => ?_
    obtain ⟨parent,edge,ne,unfound⟩ := parents frame member
    refine ⟨parent,edge,fun at_frame => ?_⟩
    cases mem_cons.mp at_frame with
    | inl here => exact ne here
    | inr later => exact inv.stacked _ (inv.valid.opened_stack _ later) unfound
  · intro x
    rw [state]
    by_cases same : x = v
    · subst same
      simp
    · simp only [update_of_ne same,mem_cons,same,false_or]
      exact inv.flags x
  · intro x
    by_cases same : x = v
    · subst same
      rw [own,state]
      simp
    · rw [other x same,inv.on_stack x,state]
      simp [same]
  · intro x member
    rw [state] at member
    cases mem_cons.mp member with
    | inl here =>
      rw [here,index_own]
      exact small
    | inr old =>
      rw [index_other x (elsewhere x old)]
      exact inv.stacked x old
  · have more : ((Finset.range graph.GetNumberOfNodes).filter fun x => s'.indexOf x ≠ SPECIAL_NODEID) =
        insert v ((Finset.range graph.GetNumberOfNodes).filter fun x => s.indexOf x ≠ SPECIAL_NODEID) := by
      ext x
      rw [Finset.mem_insert,Finset.mem_filter,Finset.mem_filter]
      by_cases same : x = v
      · subst same
        simp [inside,index_own,small]
      · simp [same,index_other x same]
    rw [more,Finset.card_insert_of_notMem (by simp [unseen]),← inv.count,state]
  · intro x seen
    have index : s'.index = s.index + 1 := by rw [state]
    by_cases same : x = v
    · subst same
      exact ⟨inside,by omega⟩
    · rw [index_other x same] at seen ⊢
      have := inv.found x seen
      exact ⟨this.1,by omega⟩
  · have stack : s'.recursion_stack = pushed ++ s.recursion_stack := by rw [state]
    rw [stack]
    intro g at_g w edge
    by_cases here : w = v
    · rw [here,index_own]
      exact .inl small
    · rw [index_other w here]
      cases mem_cons.mp at_g with
      | inl new =>
        subst new
        cases all w edge with
        | inl same => exact absurd same here
        | inr either => exact either.imp_right (mem_append_left _)
      | inr later => exact (inv.waiting g later w edge).imp_right (mem_append_right _)
  · intro frame member
    rw [state] at member
    cases mem_append.mp member with
    | inl new =>
      obtain ⟨edge,at_edge,same⟩ := mem_map.mp (parents frame new).2.1
      exact same ▸ graph.inside v inside edge at_edge
    | inr old => exact inv.frames_inside frame old
  · rw [state]
    exact inv.sizes_length
  · rw [done_same,state]
    exact inv.sizes

end Enter

/-! ### A node is left -/

section Pass
variable (s : Search) (u v x : NodeID)

private theorem pass_node : (pass s u v).tarjan_node_list x =
    { s.tarjan_node_list x with low_link := if x = u then min (s.lowOf u) (s.lowOf v) else s.lowOf x } := by
  by_cases same : x = u
  · subst same
    rw [if_pos rfl]
    exact update_self ..
  · rw [if_neg same]
    exact update_of_ne same ..

private theorem pass_indexOf : (pass s u v).indexOf = s.indexOf := by
  funext x
  rw [Search.indexOf,pass_node]
  rfl

private theorem pass_on_stack : ((pass s u v).tarjan_node_list x).on_stack = (s.tarjan_node_list x).on_stack := by rw [pass_node]

private theorem pass_done : (pass s u v).Done = s.Done := by
  funext x
  rw [Search.Done,Search.Done,pass_indexOf,pass_on_stack]

private theorem pass_lowOf : (pass s u v).lowOf x = if x = u then min (s.lowOf u) (s.lowOf v) else s.lowOf x := by
  rw [Search.lowOf,pass_node]

private theorem pass_root : ((pass s u v).tarjan_node_list v).low_link = ((pass s u v).tarjan_node_list v).index ↔ s.lowOf v = s.indexOf v := by
  rw [pass_node]
  dsimp only
  split_ifs with same
  · rw [← same,Nat.min_self]
    exact Iff.rfl
  · exact Iff.rfl

end Pass

section Leave
variable {v p : NodeID} {rest : List TarjanStackFrame} {others : List NodeID}

private theorem Inv.edges_found (inv : Inv graph s (v :: others)) (top : s.recursion_stack = ⟨v,p⟩ :: rest) (shape : Frames graph rest others)
    (w : NodeID) (edge : graph.Adjacent v w) : w ∈ s.tarjan_stack ∨ s.Done w := by
  have seen : s.indexOf v ≠ SPECIAL_NODEID := inv.stacked v (inv.valid.opened_stack v mem_cons_self)
  cases inv.waiting v mem_cons_self w edge with
  | inl found => exact inv.stack_undone found
  | inr pending =>
    rw [top] at pending
    have same : w = v := by
      cases mem_cons.mp pending with
      | inl here => exact congrArg TarjanStackFrame.v here
      | inr later =>
        cases shape.parent_mem _ later with
        | inl open_v => exact absurd open_v inv.valid.fresh
        | inr own => exact own.symm
    exact inv.stack_undone (same ▸ seen)

private theorem Inv.waiting_rest (inv : Inv graph s (v :: others)) (top : s.recursion_stack = ⟨v,p⟩ :: rest) :
    ∀ g ∈ others, ∀ w, graph.Adjacent g w → s.indexOf w ≠ SPECIAL_NODEID ∨ ⟨w,g⟩ ∈ rest := by
  intro g at_g w edge
  cases inv.waiting g (mem_cons_of_mem _ at_g) w edge with
  | inl found => exact .inl found
  | inr pending =>
    rw [top] at pending
    cases mem_cons.mp pending with
    | inl here =>
      have same : w = v := congrArg TarjanStackFrame.v here
      exact .inl (same ▸ inv.stacked v (inv.valid.opened_stack v mem_cons_self))
    | inr later => exact .inr later

private theorem Inv.flags_rest (inv : Inv graph s (v :: others)) (x : NodeID) :
    Function.update s.processing_node_before_recursion v true x = false ↔ x ∈ others := by
  by_cases same : x = v
  · subst same
    simp [inv.valid.fresh]
  · rw [update_of_ne same,inv.flags x]
    simp [same]

private theorem Inv.pass (inv : Inv graph s (v :: p :: others)) (top : s.recursion_stack = ⟨v,p⟩ :: rest)
    (shape : Frames graph rest (p :: others)) (reaches : s.lowOf v < s.indexOf v) :
    Inv graph (TarjanScc.pass { s with recursion_stack := rest } p v) (p :: others) := by
  have index := pass_indexOf { s with recursion_stack := rest } p v
  have low := pass_lowOf { s with recursion_stack := rest } p v
  have stacked := pass_on_stack { s with recursion_stack := rest } p v
  have done := pass_done { s with recursion_stack := rest } p v
  constructor
  · rw [index,done]
    exact inv.valid.leave reaches (inv.edges_found top shape) (fun x ne => by rw [low,if_neg ne]; rfl) (by rw [low,if_pos rfl]; rfl)
  · rw [done]
    exact inv.labelled
  · rw [done]
    exact inv.unlabelled
  · exact shape
  · exact inv.flags_rest
  · intro x
    rw [stacked]
    exact inv.on_stack x
  · rw [index]
    exact inv.stacked
  · rw [index]
    exact inv.count
  · rw [index]
    exact inv.found
  · rw [index]
    exact inv.waiting_rest top
  · exact fun frame member => inv.frames_inside frame (top ▸ mem_cons_of_mem _ member)
  · exact inv.sizes_length
  · rw [done]
    exact inv.sizes

def taken (above below : List NodeID) (v : NodeID) (s : Search) : Search :=
  { popped above below v s with
    component_size_vector := s.component_size_vector ++ [above.length + 1]
    component_index := s.component_index + 1 }

private theorem taken_node (above below : List NodeID) (v : NodeID) (s : Search) (x : NodeID) :
    (taken above below v s).tarjan_node_list x =
      if x ∈ above ∨ x = v then { s.tarjan_node_list x with on_stack := false } else s.tarjan_node_list x := rfl

private theorem taken_indexOf (above below : List NodeID) (v : NodeID) (s : Search) : (taken above below v s).indexOf = s.indexOf := by
  funext x
  rw [Search.indexOf,taken_node]
  split_ifs <;> rfl

private theorem taken_lowOf (above below : List NodeID) (v : NodeID) (s : Search) : (taken above below v s).lowOf = s.lowOf := by
  funext x
  rw [Search.lowOf,taken_node]
  split_ifs <;> rfl

private theorem leave_of_root {above below : List NodeID} {u : NodeID} (root : s.lowOf v = s.indexOf v)
    (stack : s.tarjan_stack = above ++ v :: below) (fresh : v ∉ above) : leave s u v = taken above below v (pass s u v) := by
  have stack' : (pass s u v).tarjan_stack = above ++ v :: below := stack
  rw [leave]
  dsimp only
  rw [if_pos ((pass_root ..).mpr root),stack',popComponent_eq fresh,Nat.zero_add]
  rfl

private theorem leave_of_not_root {u : NodeID} (root : s.lowOf v ≠ s.indexOf v) : leave s u v = pass s u v := by
  rw [leave]
  dsimp only
  rw [if_neg fun same => root ((pass_root ..).mp same)]

private theorem sizes_concat {sizes : List ℕ} {count : ℕ} {done done' : NodeID → Prop} {label label' : NodeID → ℕ} {members : List NodeID}
    (length : sizes.length = count)
    (each : ∀ c < count, ∃ members : List NodeID, members.Nodup ∧ (∀ x, x ∈ members ↔ done x ∧ label x = c) ∧ sizes[c]? = some members.length)
    (nodup : members.Nodup) (apart : ∀ x ∈ members, ¬ done x) (below : ∀ x, done x → label x < count)
    (more : ∀ x, done' x ↔ x ∈ members ∨ done x) (labels : ∀ x, label' x = if x ∈ members then count else label x) :
    ∀ c < count + 1, ∃ members' : List NodeID, members'.Nodup ∧ (∀ x, x ∈ members' ↔ done' x ∧ label' x = c) ∧
      (sizes ++ [members.length])[c]? = some members'.length := by
  intro c bound
  cases Nat.lt_succ_iff_lt_or_eq.mp bound with
  | inl earlier =>
    obtain ⟨old,distinct,own,size⟩ := each c earlier
    refine ⟨old,distinct,fun x => ?_,by rw [getElem?_append_left (length ▸ earlier),size]⟩
    rw [own x,more,labels]
    by_cases inside : x ∈ members
    · simp only [inside,if_true,true_or,true_and,apart x inside,false_and,false_iff]
      exact Nat.ne_of_gt earlier
    · simp only [inside,if_false,false_or]
  | inr last =>
    refine ⟨members,nodup,fun x => ?_,by rw [last,← length,getElem?_concat_length]⟩
    rw [more,labels]
    by_cases inside : x ∈ members
    · simp only [inside,if_true,true_or,true_and,true_iff]
      exact last.symm
    · simp only [inside,if_false,false_or,false_iff,not_and]
      intro complete same
      have := below x complete
      omega

private theorem Inv.take {above below : List NodeID} (inv : Inv graph s (v :: others)) (top : s.recursion_stack = ⟨v,p⟩ :: rest)
    (shape : Frames graph rest others) (parent : others = [] ∧ rest = [] ∧ p = v ∨ others.head? = some p)
    (root : s.lowOf v = s.indexOf v) (stack : s.tarjan_stack = above ++ v :: below) :
    Inv graph (taken above below v (TarjanScc.pass { s with recursion_stack := rest } p v)) others := by
  have valid := inv.valid
  have all := inv.edges_found top shape
  have at_stack := inv.on_stack
  rw [stack] at valid all at_stack
  have component := valid.component root all
  have region_stack : ∀ x, x ∈ above ∨ x = v → x ∈ above ++ v :: below := fun x inside => valid.region_mem inside
  have index : (taken above below v (TarjanScc.pass { s with recursion_stack := rest } p v)).indexOf = s.indexOf := by
    rw [taken_indexOf,pass_indexOf]
    rfl
  have low : ∀ g ∈ others, (taken above below v (TarjanScc.pass { s with recursion_stack := rest } p v)).lowOf g = s.lowOf g := by
    intro g at_g
    rw [taken_lowOf,pass_lowOf]
    split_ifs with same
    · have le := inv.valid.low_le g (mem_cons_of_mem _ at_g)
      have less := inv.valid.last g at_g
      rw [← root] at less
      subst same
      exact Nat.min_eq_left (le.trans less.le)
    · rfl
  have on_stack : ∀ x, ((taken above below v (TarjanScc.pass { s with recursion_stack := rest } p v)).tarjan_node_list x).on_stack =
      if x ∈ above ∨ x = v then false else (s.tarjan_node_list x).on_stack := by
    intro x
    rw [taken_node,pass_node]
    split_ifs <;> rfl
  have done : ∀ x, (taken above below v (TarjanScc.pass { s with recursion_stack := rest } p v)).Done x ↔
      (x ∈ above ∨ x = v) ∨ s.Done x := by
    intro x
    rw [Search.Done,index,on_stack]
    by_cases inside : x ∈ above ∨ x = v
    · have seen := inv.stacked x (stack ▸ region_stack x inside)
      simp only [inside,if_true,true_or,iff_true]
      exact ⟨seen,trivial⟩
    · simp only [inside,if_false,false_or]
      exact Iff.rfl
  have label : ∀ x, (taken above below v (TarjanScc.pass { s with recursion_stack := rest } p v)).components_index x =
      if x ∈ above ∨ x = v then s.component_index else s.components_index x := fun _ => rfl
  have apart : ∀ x, x ∈ above ∨ x = v → ¬ s.Done x := fun x inside => valid.apart x (region_stack x inside)
  obtain ⟨sorted,tail,separate⟩ := pairwise_append.mp valid.sorted
  have before : ∀ x ∈ below, s.indexOf x < s.indexOf v := (pairwise_cons.mp tail).1
  constructor
  · rw [index]
    exact valid.take root all low done
  · exact inv.labelled.take component apart done (fun x inside => by rw [label,if_pos inside]) fun x outside => by rw [label,if_neg outside]
  · intro x undone
    rw [done,not_or] at undone
    rw [label,if_neg undone.1]
    exact inv.unlabelled x undone.2
  · exact shape
  · exact inv.flags_rest
  · intro x
    rw [on_stack]
    split_ifs with inside
    · have high := (valid.root_inside x (region_stack x inside)).mpr inside
      refine ⟨False.elim,fun at_below => ?_⟩
      have := before x at_below
      omega
    · rw [at_stack x,mem_append,mem_cons]
      rw [not_or] at inside
      simp only [inside.1,inside.2,false_or]
      exact Iff.rfl
  · intro x member
    rw [index]
    exact inv.stacked x (stack ▸ mem_append_right _ (mem_cons_of_mem _ member))
  · rw [index]
    exact inv.count
  · rw [index]
    exact inv.found
  · rw [index]
    exact inv.waiting_rest top
  · exact fun frame member => inv.frames_inside frame (top ▸ mem_cons_of_mem _ member)
  · show (s.component_size_vector ++ [above.length + 1]).length = s.component_index + 1
    rw [length_append,inv.sizes_length]
    rfl
  · have nodup : (above ++ [v]).Nodup := by
      refine nodup_append.mpr ⟨sorted.imp fun less same => ?_,nodup_singleton v,fun x at_x y at_y same => ?_⟩
      · rw [same] at less
        omega
      · have := separate x at_x v mem_cons_self
        rw [same,mem_singleton.mp at_y] at this
        omega
    have region : ∀ x, x ∈ above ++ [v] ↔ x ∈ above ∨ x = v := fun x => by rw [mem_append,mem_singleton]
    have sizes := sizes_concat inv.sizes_length inv.sizes nodup (fun x inside => apart x ((region x).mp inside)) inv.labelled.below
      (fun x => (done x).trans (or_congr_left (region x).symm)) fun x => (label x).trans (if_congr (region x).symm rfl rfl)
    rw [length_append] at sizes
    exact sizes

end Leave

/-! ### The loops -/

def Search.Noticed (s : Search) (x : NodeID) : Prop := s.indexOf x ≠ SPECIAL_NODEID ∨ ∃ frame ∈ s.recursion_stack, frame.v = x
def work (graph : Graph) (s : Search) : ℕ :=
  s.recursion_stack.length +
    ∑ v ∈ (Finset.range graph.GetNumberOfNodes).filter (fun v => s.indexOf v = SPECIAL_NODEID), ((graph.targets v).length + 1)

structure Stepped (graph : Graph) (s s' : Search) : Prop where
  inv : ∃ opened, Inv graph s' opened
  less : work graph s' < work graph s
  noticed : ∀ x, s.Noticed x → s'.Noticed x

private theorem stepped_of_rest {s' : Search} {v p : NodeID} {rest : List TarjanStackFrame} {opened : List NodeID}
    (top : s.recursion_stack = ⟨v,p⟩ :: rest) (seen : s.indexOf v ≠ SPECIAL_NODEID) (inv : Inv graph s' opened)
    (frames : s'.recursion_stack = rest) (index : s'.indexOf = s.indexOf) : Stepped graph s s' := by
  refine ⟨⟨opened,inv⟩,?_,fun x noticed => ?_⟩
  · rw [work,work,frames,index,top,length_cons]
    omega
  · rw [Search.Noticed,frames,index]
    cases noticed with
    | inl found => exact .inl found
    | inr waiting =>
      obtain ⟨frame,member,same⟩ := waiting
      rw [top] at member
      cases mem_cons.mp member with
      | inl here =>
        subst here
        exact .inl (same ▸ seen)
      | inr later => exact .inr ⟨frame,later,same⟩

private theorem stepped_of_enter {v p : NodeID} {rest : List TarjanStackFrame} (inv : Inv graph s opened)
    (top : s.recursion_stack = ⟨v,p⟩ :: rest) (shut : v ∉ opened) (unseen : s.indexOf v = SPECIAL_NODEID) :
    Stepped graph s (enter graph s v) := by
  have inside : v < graph.GetNumberOfNodes := inv.frames_inside ⟨v,p⟩ (top ▸ mem_cons_self)
  have small : s.index ≠ SPECIAL_NODEID := by
    have := inv.index_lt inside unseen
    have := graph.small
    omega
  obtain ⟨pushed,low,entered⟩ := entered graph s v small
  have frames : (enter graph s v).recursion_stack = pushed ++ s.recursion_stack := by rw [entered.state]
  have index : ∀ x, (enter graph s v).indexOf x = if x = v then s.index else s.indexOf x := by
    intro x
    split_ifs with same
    · rw [same,Search.indexOf,entered.own]
    · rw [Search.indexOf,entered.other same]
      rfl
  refine ⟨⟨_,entered.inv inv top shut unseen small⟩,?_,fun x noticed => ?_⟩
  · have fewer : (Finset.range graph.GetNumberOfNodes).filter (fun x => (enter graph s v).indexOf x = SPECIAL_NODEID) =
        ((Finset.range graph.GetNumberOfNodes).filter fun x => s.indexOf x = SPECIAL_NODEID).erase v := by
      ext x
      rw [Finset.mem_erase,Finset.mem_filter,Finset.mem_filter,index]
      by_cases same : x = v
      · simp [same,small]
      · simp [same]
    have member : v ∈ (Finset.range graph.GetNumberOfNodes).filter fun x => s.indexOf x = SPECIAL_NODEID :=
      Finset.mem_filter.mpr ⟨Finset.mem_range.mpr inside,unseen⟩
    have total := Finset.add_sum_erase _ (fun v => (graph.targets v).length + 1) member
    have few := entered.few
    rw [work,work,fewer,frames,length_append]
    omega
  · cases noticed with
    | inl found =>
      refine .inl ?_
      rw [index]
      split_ifs
      · exact small
      · exact found
    | inr waiting =>
      obtain ⟨frame,member,same⟩ := waiting
      exact .inr ⟨frame,frames ▸ mem_append_right _ member,same⟩

private theorem stepped (inv : Inv graph s opened) (more : s.recursion_stack ≠ []) : Stepped graph s (step graph s) := by
  obtain ⟨⟨v,p⟩,rest,top⟩ := exists_cons_of_ne_nil more
  have frames := inv.frames
  rw [top] at frames
  rw [step,top]
  dsimp only
  cases flag : s.processing_node_before_recursion v with
  | true =>
    have shut : v ∉ opened := fun member => by simp [(inv.flags v).mpr member] at flag
    by_cases seen : s.indexOf v = SPECIAL_NODEID
    · rw [if_neg fun both => both.2 seen,if_pos rfl]
      exact stepped_of_enter inv top shut seen
    · rw [if_pos ⟨rfl,seen⟩]
      exact stepped_of_rest top seen (inv.skip top shut seen) rfl rfl
  | false =>
    rw [if_neg fun both => Bool.false_ne_true both.1,if_neg Bool.false_ne_true]
    obtain ⟨others,rfl,shape,parent⟩ := frames.leave ((inv.flags v).mp flag)
    have at_v := inv.valid.opened_stack v mem_cons_self
    have seen := inv.stacked v at_v
    by_cases root : s.lowOf v = s.indexOf v
    · obtain ⟨above,below,stack⟩ := append_of_mem at_v
      have fresh : v ∉ above := by
        intro member
        have sorted := inv.valid.sorted
        rw [stack] at sorted
        have := (pairwise_append.mp sorted).2.2 v member v mem_cons_self
        omega
      rw [leave_of_root (s := { s with recursion_stack := rest }) root stack fresh]
      refine stepped_of_rest top seen (inv.take top shape parent root stack) rfl ?_
      rw [taken_indexOf,pass_indexOf]
      rfl
    · rw [leave_of_not_root (s := { s with recursion_stack := rest }) root]
      have reaches : s.lowOf v < s.indexOf v := Nat.lt_of_le_of_ne (inv.valid.low_le v mem_cons_self) root
      cases others with
      | nil => exact absurd inv.valid.first_low root
      | cons parent' others =>
        have same : parent' = p := by
          cases parent with
          | inl bottom => exact absurd bottom.1 (cons_ne_nil _ _)
          | inr top => exact some.inj top
        subst same
        exact stepped_of_rest top seen (inv.pass top shape reaches) rfl (pass_indexOf ..)

/-- What holds between two rounds of the loop over the nodes. -/
structure Between (graph : Graph) (nodes : List NodeID) (s : Search) : Prop where
  inv : Inv graph s []
  idle : s.recursion_stack = []
  found : ∀ x ∈ nodes, s.indexOf x ≠ SPECIAL_NODEID

private theorem runNode_total {nodes : List NodeID} {node : NodeID} (between : Between graph nodes s) (inside : node < graph.GetNumberOfNodes) :
    ∃ fuel next, (∀ more ≥ fuel, runNode graph more s node = some next) ∧ Between graph (nodes ++ [node]) next := by
  obtain ⟨inv,idle,found⟩ := between
  obtain ⟨begun,begin_eq⟩ : ∃ begun, begun =
      if SPECIAL_NODEID = s.components_index node then { s with recursion_stack := ⟨node,node⟩ :: s.recursion_stack } else s := ⟨_,rfl⟩
  have start : (∃ opened, Inv graph begun opened) ∧ ∀ x ∈ nodes ++ [node], begun.Noticed x := by
    rw [begin_eq]
    split_ifs with unlabelled
    · have frames : Frames graph (⟨node,node⟩ :: s.recursion_stack) [] := idle ▸ .root node
      refine ⟨⟨[],{ inv with frames := frames,waiting := by simp,frames_inside := ?_ }⟩,fun x member => ?_⟩
      · exact forall_mem_cons.mpr ⟨inside,inv.frames_inside⟩
      · exact forall_mem_concat (fun x member => .inl (found x member)) (.inr ⟨_,mem_cons_self,rfl⟩) x member
    · refine ⟨⟨[],inv⟩,forall_mem_concat (fun x member => .inl (found x member)) (.inl fun unseen => ?_)⟩
      exact unlabelled (inv.unlabelled node fun done => done.1 unseen).symm
  obtain ⟨final,ran,⟨⟨opened,inv'⟩,noticed⟩,stopped⟩ := @whileLoop_total _ (fun s : Search => !s.recursion_stack.isEmpty)
    (step graph) (fun s => (∃ opened, Inv graph s opened) ∧ ∀ x ∈ nodes ++ [node], s.Noticed x) (work graph)
    (fun s ⟨⟨opened,inv⟩,noticed⟩ more =>
      have round := stepped inv (by simpa using more)
      ⟨round.inv,fun x member => round.noticed x (noticed x member)⟩)
    (fun s ⟨⟨opened,inv⟩,_⟩ more => (stepped inv (by simpa using more)).less) (work graph begun) begun start le_rfl
  have empty : final.recursion_stack = [] := by simpa using stopped
  refine ⟨work graph begun,final,fun more enough => ?_,?_⟩
  · rw [runNode,← begin_eq]
    exact whileLoop_mono ran enough
  · have shape := inv'.frames
    rw [empty] at shape
    cases shape with
    | nil =>
      refine ⟨inv',empty,fun x member => (noticed x member).resolve_right ?_⟩
      rw [empty]
      simp

structure Components (graph : Graph) (scc : TarjanSCC) : Prop where
  same : ∀ u < graph.GetNumberOfNodes, ∀ v < graph.GetNumberOfNodes,
    scc.GetComponentID u = scc.GetComponentID v ↔ Mutual graph.Adjacent u v
  ids : ∀ c, (∃ v < graph.GetNumberOfNodes, scc.GetComponentID v = c) ↔ c < scc.GetNumberOfComponents
  sizes : ∀ c < scc.GetNumberOfComponents,
    scc.GetComponentSize c = (List.range graph.GetNumberOfNodes).countP fun v => scc.GetComponentID v = c
  size_one : scc.GetSizeOneCount = (List.range scc.GetNumberOfComponents).countP fun c => scc.GetComponentSize c = 1

private theorem Between.components (between : Between graph (List.range graph.GetNumberOfNodes) s) :
    Components graph ⟨s.components_index,s.component_size_vector,s.component_size_vector.countP fun value => value == 1⟩ := by
  obtain ⟨inv,-,found⟩ := between
  have empty : s.tarjan_stack = [] := inv.valid.stack_nil
  have done : ∀ x < graph.GetNumberOfNodes, s.Done x := by
    intro x inside
    cases inv.stack_undone (found x (mem_range.mpr inside)) with
    | inl stacked =>
      rw [empty] at stacked
      simp at stacked
    | inr complete => exact complete
  have inside : ∀ x, s.Done x → x < graph.GetNumberOfNodes := fun x complete => (inv.found x complete.1).1
  constructor
  · exact fun u at_u v at_v => inv.labelled.same u v (done u at_u) (done v at_v)
  · intro c
    rw [TarjanSCC.GetNumberOfComponents,inv.sizes_length]
    constructor
    · rintro ⟨v,at_v,same⟩
      exact same ▸ inv.labelled.below v (done v at_v)
    · intro below
      obtain ⟨v,complete,same⟩ := inv.labelled.used c below
      exact ⟨v,inside v complete,same⟩
  · intro c below
    rw [TarjanSCC.GetNumberOfComponents,inv.sizes_length] at below
    obtain ⟨members,nodup,each,size⟩ := inv.sizes c below
    have perm : members.Perm ((List.range graph.GetNumberOfNodes).filter fun v => s.components_index v = c) := by
      refine (perm_ext_iff_of_nodup nodup (nodup_range.filter _)).mpr fun x => ?_
      rw [each x,mem_filter,mem_range,decide_eq_true_eq]
      exact ⟨fun ⟨complete,same⟩ => ⟨inside x complete,same⟩,fun ⟨at_x,same⟩ => ⟨done x at_x,same⟩⟩
    rw [TarjanSCC.GetComponentSize,getD_eq_getElem?_getD,size,getD_some,perm.length_eq,countP_eq_length_filter]
    rfl
  · have listed : s.component_size_vector = (List.range s.component_size_vector.length).map fun c => s.component_size_vector.getD c 0 := by
      apply ext_getElem?
      intro c
      rw [getElem?_map]
      by_cases below : c < s.component_size_vector.length
      · rw [getElem?_range below,map_some,getD_eq_getElem?_getD,getElem?_eq_getElem below,getD_some]
      · rw [getElem?_eq_none (by omega),getElem?_eq_none (by simpa using below),map_none]
    rw [TarjanSCC.GetSizeOneCount,TarjanSCC.GetNumberOfComponents]
    dsimp only
    conv => lhs; rw [listed]
    rw [countP_map]
    rfl

/-- The search ends, and has found the strongly connected components of the graph. -/
theorem run_finds_components (graph : Graph) :
    ∃ fuel scc, (∀ more ≥ fuel, Run graph more = some scc) ∧ Components graph scc := by
  obtain ⟨fuel,final,ran,between⟩ := @foldlM_total _ _ (Between graph) (runNode graph) (List.range graph.GetNumberOfNodes)
    (fun nodes s node member between => runNode_total between (mem_range.mp member)) startSearch
    ⟨inv_start graph,rfl,by simp⟩
  refine ⟨fuel,_,fun more enough => ?_,between.components⟩
  rw [Run,ran more enough,map_some]

end Osrm.TarjanScc
