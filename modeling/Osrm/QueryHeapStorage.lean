import Osrm.Slices
import Osrm.Typedefs

/-!
`util/query_heap.hpp` with its index storages. A storage remembers for each node the position it was last inserted at,
maybe in an earlier run: a node counts as inserted only if the vector has the same node there.
-/
namespace Osrm.QueryHeapStorage
open List Option Function
open Typedefs

abbrev Key := ℕ
/-- `std::numeric_limits<Key>::max()`, also the number that no node has. -/
def KEY_MAX : ℕ := 2 ^ 32 - 1

/-- What a heap asks of its storage: a stored position is read back until another is stored or the storage is cleared. -/
structure IndexStorage where
  State : Type
  valid : NodeID → Prop
  store : State → NodeID → Key → State
  peek_index : State → NodeID → Key
  Clear : State → State
  peek_store : ∀ state node key node', valid node → valid node' →
    peek_index (store state node key) node' = if node' = node then key else peek_index state node'

/-- `ArrayStorage` for a number of nodes; clearing it does nothing. -/
def ArrayStorage.State (size : ℕ) : Type := { positions : List Key // positions.length = size }

private theorem ArrayStorage.length_set {size : ℕ} (state : ArrayStorage.State size) (node : NodeID) (key : Key) :
    (state.1.set node key).length = size := by rw [List.length_set,state.2]

def ArrayStorage.store {size : ℕ} (state : ArrayStorage.State size) (node : NodeID) (key : Key) : ArrayStorage.State size :=
  ⟨state.1.set node key,ArrayStorage.length_set state node key⟩
def ArrayStorage.peek_index {size : ℕ} (state : ArrayStorage.State size) (node : NodeID) : Key := state.1.getD node 0

private theorem ArrayStorage.peek_store {size : ℕ} (state : ArrayStorage.State size) (node : NodeID) (key : Key) (node' : NodeID)
    (inside : node < size) (_ : node' < size) :
    peek_index (store state node key) node' = if node' = node then key else peek_index state node' := by
  rw [peek_index,store]
  exact Slices.getD_set (state.2.symm ▸ inside) key 0 node'

def ArrayStorage (size : ℕ) : IndexStorage :=
  ⟨ArrayStorage.State size,fun node => node < size,ArrayStorage.store,ArrayStorage.peek_index,id,ArrayStorage.peek_store⟩
/-- `UnorderedMapStorage`; a missing key reads as the greatest one. -/
def UnorderedMapStorage.store (nodes : NodeID → Option Key) (node : NodeID) (key : Key) : NodeID → Option Key :=
  Function.update nodes node (some key)
def UnorderedMapStorage.peek_index (nodes : NodeID → Option Key) (node : NodeID) : Key := (nodes node).getD KEY_MAX

private theorem UnorderedMapStorage.peek_store (nodes : NodeID → Option Key) (node : NodeID) (key : Key) (node' : NodeID)
    (_ : True) (_ : True) : peek_index (store nodes node key) node' = if node' = node then key else peek_index nodes node' := by
  by_cases same : node' = node
  · subst same
    rw [if_pos rfl,peek_index,store,update_self]
    rfl
  · rw [if_neg same,peek_index,store,update_of_ne same,peek_index]

def UnorderedMapStorage : IndexStorage :=
  ⟨NodeID → Option Key,fun _ => True,UnorderedMapStorage.store,UnorderedMapStorage.peek_index,fun _ _ => none,
    UnorderedMapStorage.peek_store⟩

section TwoLevel
variable (base overlay : IndexStorage) (number_of_overlay_nodes : ℕ)

def TwoLevelStorage.valid (node : NodeID) : Prop :=
  if node < number_of_overlay_nodes then overlay.valid node else base.valid node
def TwoLevelStorage.store (state : base.State × overlay.State) (node : NodeID) (key : Key) : base.State × overlay.State :=
  if node < number_of_overlay_nodes then (state.1,overlay.store state.2 node key) else (base.store state.1 node key,state.2)
def TwoLevelStorage.peek_index (state : base.State × overlay.State) (node : NodeID) : Key :=
  if node < number_of_overlay_nodes then overlay.peek_index state.2 node else base.peek_index state.1 node

private theorem TwoLevelStorage.peek_store (state : base.State × overlay.State) (node : NodeID) (key : Key) (node' : NodeID)
    (validNode : valid base overlay number_of_overlay_nodes node) (validNode' : valid base overlay number_of_overlay_nodes node') :
    peek_index base overlay number_of_overlay_nodes (store base overlay number_of_overlay_nodes state node key) node' =
      if node' = node then key else peek_index base overlay number_of_overlay_nodes state node' := by
  unfold valid at validNode validNode'
  unfold peek_index store
  by_cases low : node < number_of_overlay_nodes
  · rw [if_pos low] at validNode ⊢
    by_cases low' : node' < number_of_overlay_nodes
    · rw [if_pos low'] at validNode' ⊢
      rw [if_pos low',overlay.peek_store _ _ _ _ validNode validNode']
    · have different : node' ≠ node := fun same => low' (same ▸ low)
      rw [if_neg low',if_neg low',if_neg different]
  · rw [if_neg low] at validNode ⊢
    by_cases low' : node' < number_of_overlay_nodes
    · have different : node' ≠ node := fun same => low (same ▸ low')
      rw [if_pos low',if_pos low',if_neg different]
    · rw [if_neg low'] at validNode' ⊢
      rw [if_neg low',base.peek_store _ _ _ _ validNode validNode']

/-- `TwoLevelStorage`: an overlay for the low ids and a base for the others. -/
def TwoLevelStorage : IndexStorage :=
  ⟨base.State × overlay.State,TwoLevelStorage.valid base overlay number_of_overlay_nodes,
    TwoLevelStorage.store base overlay number_of_overlay_nodes,TwoLevelStorage.peek_index base overlay number_of_overlay_nodes,
    fun state => (base.Clear state.1,overlay.Clear state.2),TwoLevelStorage.peek_store base overlay number_of_overlay_nodes⟩

end TwoLevel

/-! ### The heap -/

section Heap
variable {Weight Data : Type} [LinearOrder Weight]

structure HeapData (Weight : Type) where
  weight : Weight
  index : Key
  deriving DecidableEq, Repr

/-- `operator>`. -/
def HeapData.gt (self other : HeapData Weight) : Bool :=
  if self.weight = other.weight then self.index > other.index else self.weight > other.weight

/-- The top of the d-ary heap; no two elements have the same index, so its arrangement does not matter. -/
def top : List (HeapData Weight) → Option (HeapData Weight)
  | [] => none
  | element :: rest =>
    match top rest with
    | none => some element
    | some least => if least.gt element then some element else some least

/-- `increase`, of the element that a handle stands for. -/
def increase (heap : List (HeapData Weight)) (handle : Key) (data : HeapData Weight) : List (HeapData Weight) :=
  heap.map fun element => if element.index = handle then data else element

/-- A node that was inserted. Its handle is the index of the element, `none` the end of the heap. -/
structure HeapNode (Weight Data : Type) where
  handle : Option Key
  node : NodeID
  weight : Weight
  data : Data
  deriving DecidableEq, Repr

structure QueryHeap (S : IndexStorage) (Weight Data : Type) where
  inserted_nodes : List (HeapNode Weight Data)
  heap : List (HeapData Weight)
  node_index : S.State

namespace QueryHeap
variable {S : IndexStorage}

def Clear (self : QueryHeap S Weight Data) : QueryHeap S Weight Data := ⟨[],[],S.Clear self.node_index⟩
def new (node_index : S.State) : QueryHeap S Weight Data := Clear ⟨[],[],node_index⟩
def Size (self : QueryHeap S Weight Data) : ℕ := self.heap.length
def Empty (self : QueryHeap S Weight Data) : Bool := 0 == self.Size
def Insert (self : QueryHeap S Weight Data) (node : NodeID) (weight : Weight) (data : Data) : QueryHeap S Weight Data :=
  let index := self.inserted_nodes.length % 2 ^ 32
  ⟨self.inserted_nodes ++ [⟨some index,node,weight,data⟩],self.heap ++ [⟨weight,index⟩],S.store self.node_index node index⟩
/-- The entry at the position stored for a node, as `getHeapNode`, `GetData` and `GetKey` read it. -/
def getHeapNode (self : QueryHeap S Weight Data) (node : NodeID) : Option (HeapNode Weight Data) :=
  self.inserted_nodes[S.peek_index self.node_index node]?
def GetData (self : QueryHeap S Weight Data) (node : NodeID) : Option Data := (self.getHeapNode node).map (·.data)
def GetKey (self : QueryHeap S Weight Data) (node : NodeID) : Option Weight := (self.getHeapNode node).map (·.weight)
def WasRemoved (self : QueryHeap S Weight Data) (node : NodeID) : Option Bool :=
  (self.getHeapNode node).map fun reference => reference.handle == none
def WasInserted (self : QueryHeap S Weight Data) (node : NodeID) : Option Bool :=
  let index := S.peek_index self.node_index node
  if index ≥ self.inserted_nodes.length % 2 ^ 32 then some false
  else (self.inserted_nodes[index]?).map fun reference => reference.node == node

/-- `GetHeapNodeIfWasInserted`, as the position of the entry. -/
def GetHeapNodeIfWasInserted (self : QueryHeap S Weight Data) (node : NodeID) : Option Key :=
  let index := S.peek_index self.node_index node
  match self.inserted_nodes[index]? with
  | none => none
  | some reference =>
    if index ≥ self.inserted_nodes.length % 2 ^ 32 ∨ reference.node ≠ node then none else some index

def Min (self : QueryHeap S Weight Data) : Option NodeID := do
  let least ← top self.heap
  let reference ← self.inserted_nodes[least.index]?
  return reference.node

def MinKey (self : QueryHeap S Weight Data) : Option Weight := (top self.heap).map (·.weight)
def setNode (self : QueryHeap S Weight Data) (index : Key) (reference : HeapNode Weight Data) : QueryHeap S Weight Data :=
  { self with inserted_nodes := self.inserted_nodes.set index reference }

/-- `DeleteMinGetHeapNode`; `DeleteMin` returns the node of the same entry. -/
def DeleteMin (self : QueryHeap S Weight Data) : Option (QueryHeap S Weight Data × HeapNode Weight Data) := do
  let least ← top self.heap
  let reference ← self.inserted_nodes[least.index]?
  let removed := { reference with handle := none }
  return (setNode { self with heap := self.heap.erase least } least.index removed,removed)

def DeleteAll (self : QueryHeap S Weight Data) : QueryHeap S Weight Data :=
  { self with inserted_nodes := self.inserted_nodes.map fun reference => { reference with handle := none }, heap := [] }
/-- Assigning to the data that `GetData` returns. -/
def SetData (self : QueryHeap S Weight Data) (node : NodeID) (data : Data) : Option (QueryHeap S Weight Data) := do
  let reference ← self.getHeapNode node
  return self.setNode (S.peek_index self.node_index node) { reference with data }

def DecreaseKey (self : QueryHeap S Weight Data) (node : NodeID) (weight : Weight) : Option (QueryHeap S Weight Data) := do
  let index := S.peek_index self.node_index node
  let reference ← self.inserted_nodes[index]?
  let handle ← reference.handle
  return setNode { self with heap := increase self.heap handle ⟨weight,index⟩ } index { reference with weight }

/-- `DecreaseKey` of an entry, after a client has written a weight and data to it. -/
def DecreaseKeyOfNode (self : QueryHeap S Weight Data) (index : Key) (weight : Weight) (data : Data) :
    Option (QueryHeap S Weight Data) := do
  let reference ← self.inserted_nodes[index]?
  let handle ← reference.handle
  let element ← self.heap.find? fun element => element.index = handle
  return setNode { self with heap := increase self.heap handle ⟨weight,element.index⟩ } index { reference with weight,data }

end QueryHeap

structure Label (Weight Data : Type) where
  weight : Weight
  data : Data
  removed : Bool
  deriving DecidableEq, Repr

/-- The nodes inserted since the last `Clear`, with their latest weights and data. -/
abbrev PriorityMap (Weight Data : Type) := NodeID → Option (Label Weight Data)

inductive Op (Weight Data : Type)
  | Insert (node : NodeID) (weight : Weight) (data : Data)
  | SetData (node : NodeID) (data : Data)
  | DecreaseKey (node : NodeID) (weight : Weight)
  | DecreaseKeyOfNode (node : NodeID) (weight : Weight) (data : Data)
  | DeleteMin
  | DeleteAll
  | Clear
  | WasInserted (node : NodeID)
  | WasRemoved (node : NodeID)
  | GetKey (node : NodeID)
  | GetData (node : NodeID)
  | Min
  | MinKey
  | Empty

inductive Result (Weight Data : Type)
  | done
  | node (node : NodeID)
  | weight (weight : Weight)
  | data (data : Data)
  | answer (answer : Bool)

def HeapNode.label (n : HeapNode Weight Data) : Label Weight Data := ⟨n.weight,n.data,n.handle.isNone⟩

namespace PriorityMap

def Present (map : PriorityMap Weight Data) (node : NodeID) (label : Label Weight Data) : Prop :=
  map node = some label ∧ label.removed = false
def Least (map : PriorityMap Weight Data) (node : NodeID) (label : Label Weight Data) : Prop :=
  map.Present node label ∧ ∀ node' label', map.Present node' label' → label.weight ≤ label'.weight

/-- The preconditions of the operations. -/
def Pre (map : PriorityMap Weight Data) (valid : NodeID → Prop) : Op Weight Data → Prop
  | .Insert node _ _ => valid node ∧ node < KEY_MAX ∧ map node = none
  | .SetData node _ | .WasRemoved node | .GetKey node | .GetData node => map node ≠ none
  | .DecreaseKey node weight | .DecreaseKeyOfNode node weight _ => ∃ label, map.Present node label ∧ weight ≤ label.weight
  | .WasInserted node => valid node
  | .DeleteMin | .Min | .MinKey => ∃ node label, map.Present node label
  | .DeleteAll | .Clear | .Empty => True

/-- What the operations return. -/
def Right (map : PriorityMap Weight Data) : Op Weight Data → Result Weight Data → Prop
  | .WasInserted node,result => result = .answer (map node).isSome
  | .WasRemoved node,result => ∃ label, map node = some label ∧ result = .answer label.removed
  | .GetKey node,result => ∃ label, map node = some label ∧ result = .weight label.weight
  | .GetData node,result => ∃ label, map node = some label ∧ result = .data label.data
  | .DeleteMin,result | .Min,result => ∃ node label, map.Least node label ∧ result = .node node
  | .MinKey,result => ∃ node label, map.Least node label ∧ result = .weight label.weight
  | .Empty,result => ∃ answer, result = .answer answer ∧ (answer = true ↔ ∀ node label, ¬ map.Present node label)
  | .Insert _ _ _,result | .SetData _ _,result | .DecreaseKey _ _,result | .DecreaseKeyOfNode _ _ _,result
  | .DeleteAll,result | .Clear,result => result = .done

/-- The map after an operation; the node that `DeleteMin` took out is known from its result. -/
def after (map : PriorityMap Weight Data) : Op Weight Data → Result Weight Data → PriorityMap Weight Data
  | .Insert node weight data,_ => Function.update map node (some ⟨weight,data,false⟩)
  | .SetData node data,_ => Function.update map node ((map node).map fun label => { label with data })
  | .DecreaseKey node weight,_ => Function.update map node ((map node).map fun label => { label with weight })
  | .DecreaseKeyOfNode node weight data,_ => Function.update map node ((map node).map fun label => { label with weight,data })
  | .DeleteMin,.node node => Function.update map node ((map node).map fun label => { label with removed := true })
  | .DeleteAll,_ => fun node => (map node).map fun label => { label with removed := true }
  | .Clear,_ => fun _ => none
  | _,_ => map

end PriorityMap

namespace QueryHeap
variable {S S' : IndexStorage}

/-- The heap after an operation and the result; nothing where the source accesses what is not there. -/
def perform (self : QueryHeap S Weight Data) : Op Weight Data → Option (QueryHeap S Weight Data × Result Weight Data)
  | .Insert node weight data => some (self.Insert node weight data,.done)
  | .SetData node data => (self.SetData node data).map fun self => (self,.done)
  | .DecreaseKey node weight => (self.DecreaseKey node weight).map fun self => (self,.done)
  | .DecreaseKeyOfNode node weight data => do
    let index ← self.GetHeapNodeIfWasInserted node
    let self ← self.DecreaseKeyOfNode index weight data
    return (self,.done)
  | .DeleteMin => self.DeleteMin.map fun (self,removed) => (self,.node removed.node)
  | .DeleteAll => some (self.DeleteAll,.done)
  | .Clear => some (self.Clear,.done)
  | .WasInserted node => (self.WasInserted node).map fun answer => (self,.answer answer)
  | .WasRemoved node => (self.WasRemoved node).map fun answer => (self,.answer answer)
  | .GetKey node => (self.GetKey node).map fun weight => (self,.weight weight)
  | .GetData node => (self.GetData node).map fun data => (self,.data data)
  | .Min => self.Min.map fun node => (self,.node node)
  | .MinKey => self.MinKey.map fun weight => (self,.weight weight)
  | .Empty => some (self,.answer self.Empty)

/-- Two heaps return the same results, those of a priority map, as long as the preconditions hold. -/
def Agree (self : QueryHeap S Weight Data) (self' : QueryHeap S' Weight Data) (map : PriorityMap Weight Data) :
    List (Op Weight Data) → Prop
  | [] => True
  | op :: ops => map.Pre S.valid op → map.Pre S'.valid op → ∃ next next' result,
      self.perform op = some (next,result) ∧ self'.perform op = some (next',result) ∧ map.Right op result ∧
        Agree next next' (map.after op result) ops

section Top
variable {heap : List (HeapData Weight)} {least : HeapData Weight}

private theorem top_none (none_left : top heap = none) : heap = [] := by
  cases heap with
  | nil => rfl
  | cons element rest =>
    rw [top] at none_left
    split at none_left
    · cases none_left
    · split at none_left <;> cases none_left

private theorem weight_le_of_gt_false {element other : HeapData Weight} (notGreater : ¬ element.gt other = true) : element.weight ≤ other.weight := by
  rw [HeapData.gt] at notGreater
  split at notGreater
  · rename_i same
    exact same.le
  · simpa using notGreater

private theorem weight_le_of_gt {element other : HeapData Weight} (greater : element.gt other = true) : other.weight ≤ element.weight := by
  rw [HeapData.gt] at greater
  split at greater
  · rename_i same
    exact same.ge
  · exact (by simpa using greater : other.weight < element.weight).le

private theorem top_spec (found : top heap = some least) : least ∈ heap ∧ ∀ element ∈ heap, least.weight ≤ element.weight := by
  induction heap generalizing least with
  | nil => cases found
  | cons first rest ih =>
    rw [top] at found
    split at found
    · rename_i none_left
      cases found
      rw [top_none none_left]
      simp
    · rename_i least' found'
      obtain ⟨member,bound⟩ := ih found'
      split at found
      · rename_i greater
        cases found
        refine ⟨mem_cons_self,?_⟩
        intro element inHeap
        cases mem_cons.mp inHeap with
        | inl same => exact same ▸ le_rfl
        | inr later => exact (weight_le_of_gt greater).trans (bound element later)
      · rename_i notGreater
        cases found
        refine ⟨mem_cons_of_mem _ member,?_⟩
        intro element inHeap
        cases mem_cons.mp inHeap with
        | inl same => exact same ▸ weight_le_of_gt_false notGreater
        | inr later => exact bound element later

end Top

/-! ### The entries and the map -/

section Core
variable {inserted_nodes : List (HeapNode Weight Data)} {heap heap' : List (HeapData Weight)} {map : PriorityMap Weight Data}
  {i : ℕ} {n n' : HeapNode Weight Data} {node : NodeID} {label : Label Weight Data}

/-- The entries are those of the map, and the elements of the heap those of the entries with a handle. -/
structure Core (inserted_nodes : List (HeapNode Weight Data)) (heap : List (HeapData Weight)) (map : PriorityMap Weight Data) :
    Prop where
  nodes : (inserted_nodes.map (·.node)).Nodup
  small : ∀ n ∈ inserted_nodes, n.node < KEY_MAX
  handles : ∀ (i : ℕ) n, inserted_nodes[i]? = some n → n.handle = none ∨ n.handle = some i
  elements : ∀ e, e ∈ heap ↔ ∃ n, inserted_nodes[e.index]? = some n ∧ n.handle = some e.index ∧ n.weight = e.weight
  indices : (heap.map (·.index)).Nodup
  known : ∀ n ∈ inserted_nodes, map n.node = some n.label
  only : ∀ node label, map node = some label → ∃ n ∈ inserted_nodes, n.node = node

structure Stored (S : IndexStorage) (node_index : S.State) (inserted_nodes : List (HeapNode Weight Data)) : Prop where
  valid : ∀ n ∈ inserted_nodes, S.valid n.node
  positions : ∀ (i : ℕ) n, inserted_nodes[i]? = some n → S.peek_index node_index n.node = i

omit [LinearOrder Weight] in
private theorem Core.length_lt (core : Core inserted_nodes heap map) : inserted_nodes.length < 2 ^ 32 := by
  have subset : inserted_nodes.map (·.node) ⊆ List.range KEY_MAX := by
    intro node member
    obtain ⟨n,inNodes,rfl⟩ := mem_map.mp member
    exact mem_range.mpr (core.small n inNodes)
  have length := (core.nodes.subperm subset).length_le
  rw [length_map,length_range] at length
  have less : KEY_MAX < 2 ^ 32 := by decide
  omega

omit [LinearOrder Weight] in
private theorem Core.length_mod (core : Core inserted_nodes heap map) : inserted_nodes.length % 2 ^ 32 = inserted_nodes.length :=
  Nat.mod_eq_of_lt core.length_lt

omit [LinearOrder Weight] in
private theorem Core.same_place (core : Core inserted_nodes heap map) {j : ℕ} (at_i : inserted_nodes[i]? = some n)
    (at_j : inserted_nodes[j]? = some n') (same : n.node = n'.node) : i = j := by
  have nodeI : (inserted_nodes.map (·.node))[i]? = some n.node := by rw [getElem?_map,at_i]; rfl
  have nodeJ : (inserted_nodes.map (·.node))[j]? = some n'.node := by rw [getElem?_map,at_j]; rfl
  exact (getElem?_inj (List.getElem?_eq_some_iff.mp nodeI).1 core.nodes).mp (nodeI.trans (same ▸ nodeJ.symm))

omit [LinearOrder Weight] in
private theorem Core.entry (core : Core inserted_nodes heap map) (known : map node = some label) :
    ∃ (i : ℕ) (n : HeapNode Weight Data), inserted_nodes[i]? = some n ∧ n.node = node ∧ label = n.label := by
  obtain ⟨n,member,rfl⟩ := core.only node label known
  obtain ⟨i,at_i⟩ := mem_iff_getElem?.mp member
  exact ⟨i,n,at_i,rfl,some.inj (known.symm.trans (core.known n member))⟩

omit [LinearOrder Weight] in
private theorem map_node_set (at_i : inserted_nodes[i]? = some n) (sameNode : n'.node = n.node) :
    (inserted_nodes.set i n').map (·.node) = inserted_nodes.map (·.node) := by
  apply ext_getElem?
  intro j
  rw [getElem?_map,getElem?_map,getElem?_set]
  by_cases here : i = j
  · subst here
    rw [if_pos rfl,if_pos (List.getElem?_eq_some_iff.mp at_i).1,at_i]
    simp [sameNode]
  · rw [if_neg here]

omit [LinearOrder Weight] in
private theorem getElem?_set_cases {j : ℕ} {m : HeapNode Weight Data} (found : (inserted_nodes.set i n')[j]? = some m) :
    (j = i ∧ m = n') ∨ (j ≠ i ∧ inserted_nodes[j]? = some m) := by
  rw [getElem?_set] at found
  by_cases here : i = j
  · rw [if_pos here] at found
    split at found
    · exact .inl ⟨here.symm,(some.inj found).symm⟩
    · cases found
  · rw [if_neg here] at found
    exact .inr ⟨Ne.symm here,found⟩

omit [LinearOrder Weight] in
private theorem getElem?_set_here (at_i : inserted_nodes[i]? = some n) : (inserted_nodes.set i n')[i]? = some n' := by
  rw [getElem?_set,if_pos rfl,if_pos (List.getElem?_eq_some_iff.mp at_i).1]

omit [LinearOrder Weight] in
private theorem Core.update (core : Core inserted_nodes heap map) (at_i : inserted_nodes[i]? = some n) (n' : HeapNode Weight Data)
    (heap' : List (HeapData Weight)) (sameNode : n'.node = n.node) (handle : n'.handle = none ∨ n'.handle = some i)
    (elements : ∀ e, e ∈ heap' ↔ if e.index = i then n'.handle = some i ∧ n'.weight = e.weight else e ∈ heap)
    (indices : (heap'.map (·.index)).Nodup) :
    Core (inserted_nodes.set i n') heap' (Function.update map n.node (some n'.label)) := by
  have member := mem_of_getElem? at_i
  refine ⟨by rw [map_node_set at_i sameNode]; exact core.nodes,?_,?_,?_,indices,?_,?_⟩
  · intro m inSet
    rcases mem_or_eq_of_mem_set inSet with old | rfl
    · exact core.small m old
    · exact sameNode ▸ core.small n member
  · intro j m found
    rcases getElem?_set_cases found with ⟨rfl,rfl⟩ | ⟨-,old⟩
    · exact handle
    · exact core.handles j m old
  · intro e
    rw [elements e]
    by_cases here : e.index = i
    · rw [if_pos here,here,getElem?_set_here at_i]
      simp
    · rw [if_neg here,core.elements e,getElem?_set_ne (Ne.symm here)]
  · intro m inSet
    obtain ⟨j,found⟩ := mem_iff_getElem?.mp inSet
    rcases getElem?_set_cases found with ⟨rfl,rfl⟩ | ⟨other,old⟩
    · rw [sameNode,update_self]
    · have different : m.node ≠ n.node := fun same => other (core.same_place old at_i same)
      rw [update_of_ne different]
      exact core.known m (mem_of_getElem? old)
  · intro node label known
    by_cases same : node = n.node
    · exact ⟨n',mem_of_getElem? (getElem?_set_here at_i),sameNode.trans same.symm⟩
    · rw [update_of_ne same] at known
      obtain ⟨m,old,rfl⟩ := core.only node label known
      obtain ⟨j,at_j⟩ := mem_iff_getElem?.mp old
      have other : j ≠ i := by
        rintro rfl
        exact same (congrArg (·.node) (some.inj (at_j.symm.trans at_i)))
      exact ⟨m,mem_of_getElem? ((getElem?_set_ne other.symm).trans at_j),rfl⟩

variable {node_index : S.State}

omit [LinearOrder Weight] in
private theorem Stored.update (stored : Stored S node_index inserted_nodes) (at_i : inserted_nodes[i]? = some n)
    (sameNode : n'.node = n.node) : Stored S node_index (inserted_nodes.set i n') := by
  constructor
  · intro m inSet
    rcases mem_or_eq_of_mem_set inSet with old | rfl
    · exact stored.valid m old
    · exact sameNode ▸ stored.valid n (mem_of_getElem? at_i)
  · intro j m found
    rcases getElem?_set_cases found with ⟨rfl,rfl⟩ | ⟨-,old⟩
    · exact sameNode ▸ stored.positions j n at_i
    · exact stored.positions j m old

omit [LinearOrder Weight] in
private theorem Core.increase_elements (core : Core inserted_nodes heap map) (at_i : inserted_nodes[i]? = some n)
    (handle : n.handle = some i) (weight : Weight) (e : HeapData Weight) :
    e ∈ increase heap i ⟨weight,i⟩ ↔ if e.index = i then n.handle = some i ∧ weight = e.weight else e ∈ heap := by
  rw [increase,List.mem_map]
  by_cases here : e.index = i
  · rw [if_pos here]
    constructor
    · rintro ⟨element,-,same⟩
      by_cases touched : element.index = i
      · rw [if_pos touched] at same
        exact ⟨handle,congrArg (·.weight) same⟩
      · rw [if_neg touched] at same
        exact absurd (same ▸ here) touched
    · rintro ⟨-,rfl⟩
      exact ⟨⟨n.weight,i⟩,(core.elements _).mpr ⟨n,at_i,handle,rfl⟩,by rw [if_pos rfl,← here]⟩
  · rw [if_neg here]
    constructor
    · rintro ⟨element,member,same⟩
      by_cases touched : element.index = i
      · rw [if_pos touched] at same
        exact absurd (congrArg (·.index) same).symm here
      · rw [if_neg touched] at same
        exact same ▸ member
    · exact fun member => ⟨e,member,if_neg here⟩

omit [LinearOrder Weight] in
private theorem increase_indices (heap : List (HeapData Weight)) (i : ℕ) (weight : Weight) :
    (increase heap i ⟨weight,i⟩).map (·.index) = heap.map (·.index) := by
  rw [increase,List.map_map]
  apply map_congr_left
  intro element _
  by_cases touched : element.index = i
  · simp [touched]
  · simp [touched]

private theorem Core.erase_elements (core : Core inserted_nodes heap map) {least : HeapData Weight} (member : least ∈ heap)
    (e : HeapData Weight) : e ∈ heap.erase least ↔ e.index ≠ least.index ∧ e ∈ heap := by
  rw [(Nodup.of_map _ core.indices).mem_erase_iff]
  constructor
  · rintro ⟨different,inHeap⟩
    exact ⟨fun same => different (inj_on_of_nodup_map core.indices inHeap member same),inHeap⟩
  · rintro ⟨different,inHeap⟩
    exact ⟨fun same => different (congrArg (·.index) same),inHeap⟩

private theorem Core.top_least (core : Core inserted_nodes heap map) {least : HeapData Weight} (found : top heap = some least) :
    ∃ n, inserted_nodes[least.index]? = some n ∧ n.handle = some least.index ∧ n.weight = least.weight ∧
      map.Least n.node n.label := by
  obtain ⟨member,bound⟩ := top_spec found
  obtain ⟨n,at_i,handle,weight⟩ := (core.elements least).mp member
  refine ⟨n,at_i,handle,weight,⟨core.known n (mem_of_getElem? at_i),by simp [HeapNode.label,handle]⟩,?_⟩
  rintro node label ⟨known,present⟩
  obtain ⟨j,m,at_j,-,rfl⟩ := core.entry known
  have live : m.handle = some j := by
    refine (core.handles j m at_j).resolve_left fun gone => ?_
    simp [HeapNode.label,gone] at present
  have inHeap : (⟨m.weight,j⟩ : HeapData Weight) ∈ heap := (core.elements _).mpr ⟨m,at_j,live,rfl⟩
  exact weight.le.trans (bound _ inHeap)

omit [LinearOrder Weight] in
private theorem Core.present (core : Core inserted_nodes heap map) (present : map.Present node label) :
    ∃ (i : ℕ) (n : HeapNode Weight Data), inserted_nodes[i]? = some n ∧ n.handle = some i ∧ n.node = node ∧ label = n.label := by
  obtain ⟨known,live⟩ := present
  obtain ⟨i,n,at_i,isNode,rfl⟩ := core.entry known
  refine ⟨i,n,at_i,(core.handles i n at_i).resolve_left fun gone => ?_,isNode,rfl⟩
  simp [HeapNode.label,gone] at live

private theorem Core.exists_top (core : Core inserted_nodes heap map) (some_present : ∃ node label, map.Present node label) :
    ∃ least, top heap = some least := by
  obtain ⟨node,label,present⟩ := some_present
  obtain ⟨i,n,at_i,handle,-⟩ := core.present present
  have inHeap : (⟨n.weight,i⟩ : HeapData Weight) ∈ heap := (core.elements _).mpr ⟨n,at_i,handle,rfl⟩
  cases found : top heap with
  | some least => exact ⟨least,rfl⟩
  | none =>
    rw [top_none found] at inHeap
    cases inHeap

/-- An operation on these entries and elements has the right result and does the same with every storage. -/
def Steps (inserted_nodes : List (HeapNode Weight Data)) (heap : List (HeapData Weight)) (map : PriorityMap Weight Data)
    (op : Op Weight Data) : Prop :=
  ∃ inserted_nodes' heap' result, map.Right op result ∧ Core inserted_nodes' heap' (map.after op result) ∧
    ∀ (S : IndexStorage) (node_index : S.State), Stored S node_index inserted_nodes → map.Pre S.valid op →
      ∃ node_index', perform (⟨inserted_nodes,heap,node_index⟩ : QueryHeap S Weight Data) op =
        some (⟨inserted_nodes',heap',node_index'⟩,result) ∧ Stored S node_index' inserted_nodes'

variable {op : Op Weight Data}

private theorem Core.query (core : Core inserted_nodes heap map) (result : Result Weight Data)
    (right : map.Right op result) (same : map.after op result = map)
    (performs : ∀ (S : IndexStorage) (node_index : S.State), Stored S node_index inserted_nodes → map.Pre S.valid op →
      perform (⟨inserted_nodes,heap,node_index⟩ : QueryHeap S Weight Data) op = some (⟨inserted_nodes,heap,node_index⟩,result)) :
    Steps inserted_nodes heap map op :=
  ⟨inserted_nodes,heap,result,right,same.symm ▸ core,fun S node_index stored pre =>
    ⟨node_index,performs S node_index stored pre,stored⟩⟩

omit [LinearOrder Weight] in
private theorem Stored.getHeapNode_eq (stored : Stored S node_index inserted_nodes) (at_i : inserted_nodes[i]? = some n) :
    getHeapNode (⟨inserted_nodes,heap,node_index⟩ : QueryHeap S Weight Data) n.node = some n := by
  rw [getHeapNode,stored.positions i n at_i,at_i]

omit [LinearOrder Weight] in
private theorem WasInserted_eq (core : Core inserted_nodes heap map) (stored : Stored S node_index inserted_nodes) (node : NodeID) :
    WasInserted (⟨inserted_nodes,heap,node_index⟩ : QueryHeap S Weight Data) node = some (map node).isSome := by
  simp only [WasInserted,core.length_mod]
  cases known : map node with
  | some label =>
    obtain ⟨i,n,at_i,rfl,-⟩ := core.entry known
    have inside := (List.getElem?_eq_some_iff.mp at_i).1
    rw [stored.positions i n at_i,if_neg (not_le.mpr inside),at_i]
    simp
  | none =>
    by_cases outside : inserted_nodes.length ≤ S.peek_index node_index node
    · rw [if_pos outside]
      rfl
    · -- a position that is left over belongs to another node
      rw [if_neg outside,getElem?_eq_getElem (not_le.mp outside)]
      have other : inserted_nodes[S.peek_index node_index node].node ≠ node := by
        intro same
        have entry := core.known _ (getElem_mem (not_le.mp outside))
        rw [same,known] at entry
        cases entry
      simp [other]

variable {valid : NodeID → Prop} {weight : Weight}

private theorem Core.Insert (core : Core inserted_nodes heap map) {data : Data}
    (pre : map.Pre valid (.Insert node weight data)) : Steps inserted_nodes heap map (.Insert node weight data) := by
  obtain ⟨-,small,fresh⟩ := pre
  have other (m : HeapNode Weight Data) (member : m ∈ inserted_nodes) : m.node ≠ node := by
    intro same
    have entry := core.known m member
    rw [same,fresh] at entry
    cases entry
  have place {j : ℕ} {m : HeapNode Weight Data} (found : (inserted_nodes ++ [⟨some inserted_nodes.length,node,weight,data⟩])[j]? = some m) :
      inserted_nodes[j]? = some m ∨ (j = inserted_nodes.length ∧ m = ⟨some inserted_nodes.length,node,weight,data⟩) := by
    rcases Nat.lt_or_ge j inserted_nodes.length with before | after
    · rw [getElem?_append_left before] at found
      exact .inl found
    · rw [getElem?_append_right after] at found
      have last := mem_singleton.mp (mem_of_getElem? found)
      have inside := (List.getElem?_eq_some_iff.mp found).1
      exact .inr ⟨by simp at inside; omega,last⟩
  refine ⟨inserted_nodes ++ [⟨some inserted_nodes.length,node,weight,data⟩],heap ++ [⟨weight,inserted_nodes.length⟩],.done,rfl,?_,?_⟩
  · refine ⟨?_,?_,?_,?_,?_,?_,?_⟩
    · rw [map_append,nodup_append]
      refine ⟨core.nodes,by simp,?_⟩
      intro a inNodes b last
      obtain ⟨m,member,rfl⟩ := mem_map.mp inNodes
      rw [map_singleton,mem_singleton] at last
      exact last ▸ other m member
    · intro m member
      rcases mem_append.mp member with old | new
      · exact core.small m old
      · exact mem_singleton.mp new ▸ small
    · intro j m found
      rcases place found with old | ⟨rfl,rfl⟩
      · exact core.handles j m old
      · exact .inr rfl
    · intro e
      rw [mem_append,core.elements e,mem_singleton]
      constructor
      · rintro (⟨m,found,rest⟩ | rfl)
        · exact ⟨m,(getElem?_append_left (List.getElem?_eq_some_iff.mp found).1).trans found,rest⟩
        · exact ⟨_,getElem?_concat_length,rfl,rfl⟩
      · rintro ⟨m,found,handle,same⟩
        rcases place found with old | ⟨index,rfl⟩
        · exact .inl ⟨m,old,handle,same⟩
        · right
          cases e
          simp_all
    · rw [map_append,nodup_append]
      refine ⟨core.indices,by simp,?_⟩
      intro a inHeap b last
      obtain ⟨e,member,rfl⟩ := mem_map.mp inHeap
      obtain ⟨m,found,-⟩ := (core.elements e).mp member
      rw [map_singleton,mem_singleton] at last
      exact last ▸ (List.getElem?_eq_some_iff.mp found).1.ne
    · intro m member
      rcases mem_append.mp member with old | new
      · simp only [PriorityMap.after,update_of_ne (other m old)]
        exact core.known m old
      · cases mem_singleton.mp new
        simp [PriorityMap.after,HeapNode.label]
    · intro node' label known
      by_cases same : node' = node
      · exact ⟨_,mem_append_right _ (mem_singleton.mpr rfl),same.symm⟩
      · simp only [PriorityMap.after,update_of_ne same] at known
        obtain ⟨m,member,rfl⟩ := core.only node' label known
        exact ⟨m,mem_append_left _ member,rfl⟩
  · rintro S node_index stored ⟨validNode,-⟩
    refine ⟨S.store node_index node inserted_nodes.length,?_,?_,?_⟩
    · simp only [perform,QueryHeap.Insert,core.length_mod]
    · intro m member
      rcases mem_append.mp member with old | new
      · exact stored.valid m old
      · exact mem_singleton.mp new ▸ validNode
    · intro j m found
      rcases place found with old | ⟨rfl,rfl⟩
      · have member := mem_of_getElem? old
        rw [S.peek_store _ _ _ _ validNode (stored.valid m member),if_neg (other m member)]
        exact stored.positions j m old
      · rw [S.peek_store _ _ _ _ validNode validNode,if_pos rfl]

private theorem Core.SetData (core : Core inserted_nodes heap map) {data : Data}
    (pre : map.Pre valid (.SetData node data)) : Steps inserted_nodes heap map (.SetData node data) := by
  obtain ⟨label,known⟩ := ne_none_iff_exists'.mp pre
  obtain ⟨i,n,at_i,rfl,rfl⟩ := core.entry known
  refine ⟨inserted_nodes.set i { n with data },heap,.done,rfl,?_,?_⟩
  · have updated := core.update at_i { n with data } heap rfl (core.handles i n at_i) (fun e => ?_) core.indices
    · simpa [PriorityMap.after,known,HeapNode.label] using updated
    · by_cases here : e.index = i
      · rw [if_pos here,core.elements e,here,at_i]
        simp
      · rw [if_neg here]
  · intro S node_index stored _
    refine ⟨node_index,?_,stored.update at_i rfl⟩
    simp only [perform,QueryHeap.SetData,stored.getHeapNode_eq at_i,stored.positions i n at_i,setNode,bind,Option.bind,pure,Option.map]

omit [LinearOrder Weight] in
private theorem Core.decreased (core : Core inserted_nodes heap map) (at_i : inserted_nodes[i]? = some n) (handle : n.handle = some i)
    (weight : Weight) (data : Data) :
    Core (inserted_nodes.set i { n with weight,data }) (increase heap i ⟨weight,i⟩)
      (Function.update map n.node ((map n.node).map fun label => { label with weight,data })) := by
  have updated := core.update at_i { n with weight,data } _ rfl (.inr handle) (core.increase_elements at_i handle weight)
    (increase_indices heap i weight ▸ core.indices)
  rw [core.known n (mem_of_getElem? at_i)]
  exact updated

private theorem Core.DecreaseKey (core : Core inserted_nodes heap map)
    (pre : map.Pre valid (.DecreaseKey node weight)) : Steps inserted_nodes heap map (.DecreaseKey node weight) := by
  obtain ⟨label,present,-⟩ := pre
  obtain ⟨i,n,at_i,handle,rfl,rfl⟩ := core.present present
  refine ⟨inserted_nodes.set i { n with weight },increase heap i ⟨weight,i⟩,.done,rfl,?_,?_⟩
  · have updated := core.decreased at_i handle weight n.data
    rw [core.known n (mem_of_getElem? at_i)] at updated
    simp only [PriorityMap.after,core.known n (mem_of_getElem? at_i)]
    exact updated
  · intro S node_index stored _
    refine ⟨node_index,?_,stored.update at_i rfl⟩
    simp only [perform,QueryHeap.DecreaseKey,stored.positions i n at_i,at_i,handle,setNode,bind,Option.bind,pure,Option.map]

private theorem Core.DecreaseKeyOfNode (core : Core inserted_nodes heap map) {data : Data}
    (pre : map.Pre valid (.DecreaseKeyOfNode node weight data)) :
    Steps inserted_nodes heap map (.DecreaseKeyOfNode node weight data) := by
  obtain ⟨label,present,-⟩ := pre
  obtain ⟨i,n,at_i,handle,rfl,rfl⟩ := core.present present
  refine ⟨inserted_nodes.set i { n with weight,data },increase heap i ⟨weight,i⟩,.done,rfl,core.decreased at_i handle weight data,?_⟩
  intro S node_index stored _
  have inside := (List.getElem?_eq_some_iff.mp at_i).1
  have inHeap : (⟨n.weight,i⟩ : HeapData Weight) ∈ heap := (core.elements _).mpr ⟨n,at_i,handle,rfl⟩
  obtain ⟨element,found⟩ : ∃ element, heap.find? (fun element => element.index = i) = some element := by
    rw [← isSome_iff_exists,find?_isSome]
    exact ⟨_,inHeap,by simp⟩
  have index : element.index = i := by simpa using find?_some found
  refine ⟨node_index,?_,stored.update at_i rfl⟩
  have place : GetHeapNodeIfWasInserted (⟨inserted_nodes,heap,node_index⟩ : QueryHeap S Weight Data) n.node = some i := by
    simp only [GetHeapNodeIfWasInserted,stored.positions i n at_i,at_i,core.length_mod]
    rw [if_neg (by simpa using inside)]
  simp only [perform,place,QueryHeap.DecreaseKeyOfNode,at_i,handle,found,index,setNode,bind,Option.bind,pure]

private theorem Core.DeleteMin (core : Core inserted_nodes heap map) (pre : map.Pre valid .DeleteMin) :
    Steps inserted_nodes heap map .DeleteMin := by
  obtain ⟨least,found⟩ := core.exists_top pre
  obtain ⟨n,at_i,handle,weight,isLeast⟩ := core.top_least found
  refine ⟨inserted_nodes.set least.index { n with handle := none },heap.erase least,.node n.node,⟨n.node,n.label,isLeast,rfl⟩,?_,?_⟩
  · have updated := core.update at_i { n with handle := none } (heap.erase least) rfl (.inl rfl) (fun e => ?_)
      (core.indices.sublist (erase_sublist.map _))
    · simp only [PriorityMap.after,core.known n (mem_of_getElem? at_i)]
      exact updated
    · rw [core.erase_elements (top_spec found).1]
      by_cases here : e.index = least.index
      · simp [here]
      · simp [here]
  · intro S node_index stored _
    refine ⟨node_index,?_,stored.update at_i rfl⟩
    simp only [perform,QueryHeap.DeleteMin,found,at_i,setNode,bind,Option.bind,pure,Option.map]

private theorem Core.DeleteAll (core : Core inserted_nodes heap map) : Steps inserted_nodes heap map .DeleteAll := by
  have place {j : ℕ} {m : HeapNode Weight Data}
      (found : (inserted_nodes.map fun reference => { reference with handle := none })[j]? = some m) :
      ∃ old, inserted_nodes[j]? = some old ∧ { old with handle := none } = m := by
    rw [getElem?_map] at found
    exact map_eq_some_iff.mp found
  have nodes : (inserted_nodes.map fun reference => { reference with handle := none }).map (·.node) = inserted_nodes.map (·.node) := by
    rw [List.map_map]
    rfl
  refine ⟨inserted_nodes.map fun reference => { reference with handle := none },[],.done,rfl,?_,?_⟩
  · refine ⟨nodes ▸ core.nodes,?_,?_,?_,by simp,?_,?_⟩
    · intro m member
      obtain ⟨old,inNodes,rfl⟩ := mem_map.mp member
      exact core.small old inNodes
    · intro j m found
      obtain ⟨old,-,rfl⟩ := place found
      exact .inl rfl
    · intro e
      refine iff_of_false (by simp) ?_
      rintro ⟨m,found,handle,-⟩
      obtain ⟨old,-,rfl⟩ := place found
      cases handle
    · intro m member
      obtain ⟨old,inNodes,rfl⟩ := mem_map.mp member
      simp [PriorityMap.after,core.known old inNodes,HeapNode.label]
    · intro node label known
      obtain ⟨old,knownOld,-⟩ := map_eq_some_iff.mp known
      obtain ⟨m,member,rfl⟩ := core.only node old knownOld
      exact ⟨_,mem_map_of_mem member,rfl⟩
  · intro S node_index stored _
    refine ⟨node_index,rfl,?_,?_⟩
    · intro m member
      obtain ⟨old,inNodes,rfl⟩ := mem_map.mp member
      exact stored.valid old inNodes
    · intro j m found
      obtain ⟨old,at_j,rfl⟩ := place found
      exact stored.positions j old at_j

omit [LinearOrder Weight] in
private theorem core_empty : Core ([] : List (HeapNode Weight Data)) [] fun _ => none :=
  ⟨by simp,by simp,by simp,by simp,by simp,by simp,by simp⟩
omit [LinearOrder Weight] in
private theorem stored_empty (node_index : S.State) : Stored S node_index ([] : List (HeapNode Weight Data)) := ⟨by simp,by simp⟩

private theorem Core.read (core : Core inserted_nodes heap map) (known : map node = some label)
    (result : Result Weight Data) (right : map.Right op result) (same : map.after op result = map)
    (performs : ∀ (S : IndexStorage) (node_index : S.State) (n : HeapNode Weight Data), n.label = label →
      getHeapNode (⟨inserted_nodes,heap,node_index⟩ : QueryHeap S Weight Data) node = some n →
      perform (⟨inserted_nodes,heap,node_index⟩ : QueryHeap S Weight Data) op = some (⟨inserted_nodes,heap,node_index⟩,result)) :
    Steps inserted_nodes heap map op := by
  obtain ⟨i,n,at_i,rfl,rfl⟩ := core.entry known
  exact core.query result right same fun S node_index stored _ => performs S node_index n rfl (stored.getHeapNode_eq at_i)

private theorem Core.step (core : Core inserted_nodes heap map) (pre : map.Pre valid op) :
    Steps inserted_nodes heap map op := by
  cases op with
  | Insert node weight data => exact core.Insert pre
  | SetData node data => exact core.SetData pre
  | DecreaseKey node weight => exact core.DecreaseKey pre
  | DecreaseKeyOfNode node weight data => exact core.DecreaseKeyOfNode pre
  | DeleteMin => exact core.DeleteMin pre
  | DeleteAll => exact core.DeleteAll
  | Clear =>
    exact ⟨[],[],.done,rfl,core_empty,fun S node_index _ _ => ⟨S.Clear node_index,rfl,stored_empty _⟩⟩
  | WasInserted node =>
    refine core.query (.answer (map node).isSome) rfl rfl ?_
    intro S node_index stored _
    simp only [perform,WasInserted_eq core stored,map_some]
  | WasRemoved node =>
    obtain ⟨label,known⟩ := ne_none_iff_exists'.mp pre
    refine core.read known (.answer label.removed) ⟨label,known,rfl⟩ rfl ?_
    rintro S node_index n rfl found
    simp only [perform,QueryHeap.WasRemoved,found,map_some,HeapNode.label]
    cases n.handle <;> rfl
  | GetKey node =>
    obtain ⟨label,known⟩ := ne_none_iff_exists'.mp pre
    refine core.read known (.weight label.weight) ⟨label,known,rfl⟩ rfl ?_
    rintro S node_index n rfl found
    simp only [perform,QueryHeap.GetKey,found,map_some,HeapNode.label]
  | GetData node =>
    obtain ⟨label,known⟩ := ne_none_iff_exists'.mp pre
    refine core.read known (.data label.data) ⟨label,known,rfl⟩ rfl ?_
    rintro S node_index n rfl found
    simp only [perform,QueryHeap.GetData,found,map_some,HeapNode.label]
  | Min =>
    obtain ⟨least,found⟩ := core.exists_top pre
    obtain ⟨n,at_i,-,-,isLeast⟩ := core.top_least found
    refine core.query (.node n.node) ⟨n.node,n.label,isLeast,rfl⟩ rfl ?_
    intro S node_index _ _
    simp only [perform,QueryHeap.Min,found,at_i,bind,Option.bind,pure,Option.map]
  | MinKey =>
    obtain ⟨least,found⟩ := core.exists_top pre
    obtain ⟨n,-,-,weight,isLeast⟩ := core.top_least found
    refine core.query (.weight n.weight) ⟨n.node,n.label,isLeast,rfl⟩ rfl ?_
    intro S node_index _ _
    simp only [perform,QueryHeap.MinKey,found,map_some,weight]
  | Empty =>
    refine core.query (.answer (0 == heap.length)) ⟨_,rfl,?_⟩ rfl fun S node_index _ _ => rfl
    constructor
    · intro none node label present
      obtain ⟨i,n,at_i,handle,-⟩ := core.present present
      have inHeap : (⟨n.weight,i⟩ : HeapData Weight) ∈ heap := (core.elements _).mpr ⟨n,at_i,handle,rfl⟩
      have positive := length_pos_of_mem inHeap
      have zero : 0 = heap.length := by simpa using none
      omega
    · intro absent
      cases heap with
      | nil => rfl
      | cons e rest =>
        obtain ⟨n,at_i,handle,-⟩ := (core.elements e).mp mem_cons_self
        refine absurd ⟨core.known n (mem_of_getElem? at_i),?_⟩ (absent n.node n.label)
        simp [HeapNode.label,handle]

end Core

private theorem Core.agree {inserted_nodes : List (HeapNode Weight Data)} {heap : List (HeapData Weight)} {map : PriorityMap Weight Data}
    (core : Core inserted_nodes heap map) {node_index : S.State} {node_index' : S'.State}
    (stored : Stored S node_index inserted_nodes) (stored' : Stored S' node_index' inserted_nodes) (ops : List (Op Weight Data)) :
    Agree (⟨inserted_nodes,heap,node_index⟩ : QueryHeap S Weight Data) (⟨inserted_nodes,heap,node_index'⟩ : QueryHeap S' Weight Data)
      map ops := by
  induction ops generalizing inserted_nodes heap map node_index node_index' with
  | nil => exact trivial
  | cons op ops ih =>
    intro pre pre'
    obtain ⟨nodes,elements,result,right,next,performs⟩ := core.step pre
    obtain ⟨index,done,kept⟩ := performs S node_index stored pre
    obtain ⟨index',done',kept'⟩ := performs S' node_index' stored' pre'
    exact ⟨_,_,result,done,done',right,ih next kept kept'⟩

/-- A heap with any storage, whatever that held before, is a priority map, and two of them return the same. -/
theorem storages_interchangeable (S S' : IndexStorage) (node_index : S.State) (node_index' : S'.State)
    (ops : List (Op Weight Data)) :
    Agree (new node_index : QueryHeap S Weight Data) (new node_index' : QueryHeap S' Weight Data) (fun _ => none) ops :=
  core_empty.agree (stored_empty _) (stored_empty _) ops

end QueryHeap

end Heap

end Osrm.QueryHeapStorage
