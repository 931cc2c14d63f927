import Mathlib.Tactic

/-!
`util::QueryHeap`. Every node that was ever inserted stays in `inserted_nodes`, one taken out without its handle. The
d-ary heap orders its elements by weight and then by insertion index, so taking out the minimum is deterministic.
-/
namespace Osrm.Heap
open List

/-- `HeapNode`. `removed` is set where the source replaces the handle by the end iterator. -/
structure HeapNode (Node Data : Type) where
  node : Node
  weight : ℤ
  data : Data
  removed : Bool
  deriving DecidableEq, Repr

/-- `QueryHeap`; `inserted_nodes` is listed from the newest entry to the oldest. -/
structure QueryHeap (Node Data : Type) where
  inserted_nodes : List (HeapNode Node Data)
  deriving DecidableEq, Repr

variable {Node Data : Type}

/-- The pending entry of least weight, the oldest among equals, and the entries
    once it is marked as removed. -/
def popMin : List (HeapNode Node Data) → Option (HeapNode Node Data × List (HeapNode Node Data))
  | [] => none
  | e :: older =>
    match popMin older with
    | none => if e.removed then none else some (e,{ e with removed := true } :: older)
    | some (least,rest) =>
      if !e.removed && e.weight < least.weight then some (e,{ e with removed := true } :: older)
      else some (least,e :: rest)

namespace QueryHeap

def Clear : QueryHeap Node Data := ⟨[]⟩
/-- `Insert`; it does not ask whether the node was inserted before. -/
def Insert (heap : QueryHeap Node Data) (node : Node) (weight : ℤ) (data : Data) : QueryHeap Node Data :=
  ⟨⟨node,weight,data,false⟩ :: heap.inserted_nodes⟩
/-- `Size`, the number of elements that still have a handle. -/
def Size (heap : QueryHeap Node Data) : ℕ := heap.inserted_nodes.countP (fun e => !e.removed)
def Empty (heap : QueryHeap Node Data) : Bool := heap.Size == 0
/-- `DeleteMinGetHeapNode`; `DeleteMin` returns the same node. -/
def DeleteMin (heap : QueryHeap Node Data) : Option (HeapNode Node Data × QueryHeap Node Data) :=
  (popMin heap.inserted_nodes).map fun (least,rest) => (least,⟨rest⟩)
/-- `MinKey`, which the source only asks of a heap that is not empty. -/
def MinKey (heap : QueryHeap Node Data) : ℤ := (heap.DeleteMin.map fun (least,_) => least.weight).getD 0
def DeleteAll (heap : QueryHeap Node Data) : QueryHeap Node Data :=
  ⟨heap.inserted_nodes.map fun e => { e with removed := true }⟩

variable [DecidableEq Node]

/-- `GetHeapNodeIfWasInserted`; the index of a node is the one of its last insertion. -/
def GetHeapNodeIfWasInserted (heap : QueryHeap Node Data) (node : Node) : Option (HeapNode Node Data) :=
  heap.inserted_nodes.find? (fun e => e.node = node)
def WasInserted (heap : QueryHeap Node Data) (node : Node) : Bool := (heap.GetHeapNodeIfWasInserted node).isSome
/-- `GetKey`, which the source only asks of an inserted node. -/
def GetKey (heap : QueryHeap Node Data) (node : Node) : ℤ :=
  ((heap.GetHeapNodeIfWasInserted node).map (·.weight)).getD 0

/-- Writing the weight and the data of the last entry of a node. -/
def write (node : Node) (weight : ℤ) (data : Data) : List (HeapNode Node Data) → List (HeapNode Node Data)
  | [] => []
  | e :: older => if e.node = node then { e with weight,data } :: older else e :: write node weight data older
/-- `DecreaseKey` together with the assignments to the heap node that come with it. -/
def DecreaseKey (heap : QueryHeap Node Data) (node : Node) (weight : ℤ) (data : Data) : QueryHeap Node Data :=
  ⟨write node weight data heap.inserted_nodes⟩

/-- A node about to be labelled: the new weight and the new data, which may keep part of the old. -/
structure Candidate (Node Data : Type) where
  node : Node
  weight : ℤ
  data : Option Data → Data

/-- The step of every search: insert a new node, and lower the label of another if `less` says so. -/
def insertOrUpdate (less : ℤ → Data → ℤ → Data → Bool) (heap : QueryHeap Node Data) (c : Candidate Node Data) :
    QueryHeap Node Data :=
  match heap.GetHeapNodeIfWasInserted c.node with
  | none => heap.Insert c.node c.weight (c.data none)
  | some toHeapNode =>
    if less c.weight (c.data (some toHeapNode.data)) toHeapNode.weight toHeapNode.data then
      heap.DecreaseKey c.node c.weight (c.data (some toHeapNode.data))
    else heap

def insertOrUpdateAll (less : ℤ → Data → ℤ → Data → Bool) (heap : QueryHeap Node Data)
    (candidates : List (Candidate Node Data)) : QueryHeap Node Data :=
  candidates.foldl (insertOrUpdate less) heap

end QueryHeap

section pop
variable {l rest : List (HeapNode Node Data)} {least : HeapNode Node Data}

private theorem popMin_none (none_left : popMin l = none) : ∀ e ∈ l, e.removed = true := by
  induction l with
  | nil => simp
  | cons e older ih =>
    rw [popMin] at none_left
    split at none_left
    · rename_i none_older
      split at none_left
      · rename_i gone
        intro e' member
        rcases mem_cons.mp member with rfl | later
        · exact gone
        · exact ih none_older e' later
      · simp at none_left
    · split at none_left <;> simp at none_left

private theorem popMin_spec (popped : popMin l = some (least,rest)) :
    least.removed = false ∧ (∀ e ∈ l, e.removed = false → least.weight ≤ e.weight) ∧
      ∃ newer older, l = newer ++ least :: older ∧ rest = newer ++ { least with removed := true } :: older := by
  induction l generalizing least rest with
  | nil => simp [popMin] at popped
  | cons e older ih =>
    rw [popMin] at popped
    split at popped
    · rename_i none_older
      split at popped
      · simp at popped
      · rename_i pending
        obtain ⟨rfl,rfl⟩ := by simpa using popped
        refine ⟨by simpa using pending,?_,[],older,rfl,rfl⟩
        intro e' member alive
        rcases mem_cons.mp member with rfl | later
        · exact le_rfl
        · exact absurd alive (by simpa using popMin_none none_older e' later)
    · rename_i m r found
      obtain ⟨alive,least_older,newer,tail,split_older,split_rest⟩ := ih found
      split at popped
      · rename_i better
        obtain ⟨rfl,rfl⟩ := by simpa using popped
        simp only [Bool.and_eq_true,Bool.not_eq_true',decide_eq_true_eq] at better
        refine ⟨better.1,?_,[],older,rfl,rfl⟩
        intro e' member alive'
        rcases mem_cons.mp member with rfl | later
        · exact le_rfl
        · have := least_older e' later alive'
          omega
      · rename_i worse
        obtain ⟨rfl,rfl⟩ := by simpa using popped
        refine ⟨alive,?_,e :: newer,tail,by simp [split_older],by simp [split_rest]⟩
        intro e' member alive'
        rcases mem_cons.mp member with rfl | later
        · simp only [Bool.and_eq_true,Bool.not_eq_true',decide_eq_true_eq,not_and,not_lt] at worse
          exact worse alive'
        · exact least_older e' later alive'

end pop

/-- What `DeleteMin` does. -/
structure Popped (heap after : QueryHeap Node Data) (least : HeapNode Node Data) : Prop where
  member : least ∈ heap.inserted_nodes
  pending : least.removed = false
  least_le : ∀ e ∈ heap.inserted_nodes, e.removed = false → least.weight ≤ e.weight
  settled : { least with removed := true } ∈ after.inserted_nodes
  new_or_old : ∀ e ∈ after.inserted_nodes, e = { least with removed := true } ∨ e ∈ heap.inserted_nodes
  old_kept : ∀ e ∈ heap.inserted_nodes, e = least ∨ e ∈ after.inserted_nodes
  nodes : after.inserted_nodes.map (·.node) = heap.inserted_nodes.map (·.node)
  size : after.Size + 1 = heap.Size

/-- What `DeleteMin` takes is the least one left. -/
theorem deleteMin_spec {heap after : QueryHeap Node Data} {least : HeapNode Node Data}
    (popped : heap.DeleteMin = some (least,after)) : Popped heap after least := by
  simp only [QueryHeap.DeleteMin,Option.map_eq_some_iff,Prod.exists,Prod.mk.injEq] at popped
  obtain ⟨m,rest,found,rfl,rfl⟩ := popped
  obtain ⟨pending,smallest,newer,older,before,rfl⟩ := popMin_spec found
  refine ⟨by simp [before],pending,smallest,by simp,?_,?_,by simp [before],?_⟩
  · intro e member
    simp only [before,mem_append,mem_cons] at member ⊢
    tauto
  · intro e member
    simp only [before,mem_append,mem_cons] at member ⊢
    tauto
  · simp [QueryHeap.Size,before,pending]
    omega

private theorem deleteMin_none {heap : QueryHeap Node Data} (none_left : heap.DeleteMin = none) :
    ∀ e ∈ heap.inserted_nodes, e.removed = true :=
  popMin_none (by simpa [QueryHeap.DeleteMin] using none_left)

theorem empty_iff {heap : QueryHeap Node Data} :
    heap.Empty = true ↔ ∀ e ∈ heap.inserted_nodes, e.removed = true := by
  simp [QueryHeap.Empty,QueryHeap.Size,countP_eq_zero]

/-- `DeleteMin` finds something while something is left. -/
theorem deleteMin_of_not_empty {heap : QueryHeap Node Data} (filled : heap.Empty = false) :
    ∃ least after, heap.DeleteMin = some (least,after) := by
  cases popped : heap.DeleteMin with
  | none => simp [empty_iff.mpr (deleteMin_none popped)] at filled
  | some pair => exact ⟨pair.1,pair.2,rfl⟩

private theorem minKey_of_deleteMin {heap after : QueryHeap Node Data} {least : HeapNode Node Data}
    (popped : heap.DeleteMin = some (least,after)) : heap.MinKey = least.weight := by
  simp [QueryHeap.MinKey,popped]

variable {e : HeapNode Node Data}

theorem minKey_le {heap : QueryHeap Node Data} (member : e ∈ heap.inserted_nodes)
    (alive : e.removed = false) : heap.MinKey ≤ e.weight := by
  cases popped : heap.DeleteMin with
  | none => simp [deleteMin_none popped e member] at alive
  | some pair =>
    rw [minKey_of_deleteMin popped]
    exact (deleteMin_spec popped).least_le e member alive

/-! ### Insertions and decreased keys -/

section update
variable {heap after later : QueryHeap Node Data}

def ByWeight (less : ℤ → Data → ℤ → Data → Bool) : Prop :=
  ∀ w d w' d', (less w d w' d' = true → w ≤ w') ∧ (less w d w' d' = false → w' ≤ w)
def lighter {Data : Type} (w : ℤ) (_ : Data) (w' : ℤ) (_ : Data) : Bool := w < w'

theorem lighter_byWeight {Data : Type} : ByWeight (@lighter Data) := by
  intro w d w' d'
  simp only [lighter,decide_eq_true_eq,decide_eq_false_iff_not]
  omega

/-- What `insertOrUpdate` steps do: settled entries stay, pending ones get lighter, and candidates have labels no heavier. -/
structure Extends (candidates : List (QueryHeap.Candidate Node Data)) (heap after : QueryHeap Node Data) : Prop where
  new_or_old : ∀ e ∈ after.inserted_nodes, e ∈ heap.inserted_nodes ∨
    (e.removed = false ∧ ∃ c ∈ candidates, ∃ old, e.node = c.node ∧ e.weight = c.weight ∧ e.data = c.data old)
  settled : ∀ e ∈ heap.inserted_nodes, e.removed = true → e ∈ after.inserted_nodes
  pending : ∀ e ∈ heap.inserted_nodes, e.removed = false →
    ∃ e' ∈ after.inserted_nodes, e'.node = e.node ∧ e'.removed = false ∧ e'.weight ≤ e.weight
  covers : ∀ c ∈ candidates, ∃ e ∈ after.inserted_nodes, e.node = c.node ∧ e.weight ≤ c.weight
  distinct : (heap.inserted_nodes.map (·.node)).Nodup → (after.inserted_nodes.map (·.node)).Nodup

theorem Extends.refl (heap : QueryHeap Node Data) : Extends [] heap heap :=
  ⟨fun e member => .inl member,fun e member _ => member,fun e member alive => ⟨e,member,rfl,alive,le_rfl⟩,
    by simp,id⟩

variable {cs : List (QueryHeap.Candidate Node Data)}

theorem Extends.label (ext : Extends cs heap after) (member : e ∈ heap.inserted_nodes) :
    ∃ e' ∈ after.inserted_nodes, e'.node = e.node ∧ e'.weight ≤ e.weight := by
  cases gone : e.removed with
  | true => exact ⟨e,ext.settled e member gone,rfl,le_rfl⟩
  | false =>
    obtain ⟨e',member',same,_,lighter⟩ := ext.pending e member gone
    exact ⟨e',member',same,lighter⟩

private theorem Extends.trans {cs ds : List (QueryHeap.Candidate Node Data)} (one : Extends cs heap after)
    (two : Extends ds after later) : Extends (cs ++ ds) heap later := by
  refine ⟨?_,?_,?_,?_,fun distinct => two.distinct (one.distinct distinct)⟩
  · intro e member
    rcases two.new_or_old e member with old | ⟨alive,c,inside,from_c⟩
    · rcases one.new_or_old e old with older | ⟨alive,c,inside,from_c⟩
      · exact .inl older
      · exact .inr ⟨alive,c,mem_append_left _ inside,from_c⟩
    · exact .inr ⟨alive,c,mem_append_right _ inside,from_c⟩
  · exact fun e member gone => two.settled e (one.settled e member gone) gone
  · intro e member alive
    obtain ⟨e',member',same,alive',lighter⟩ := one.pending e member alive
    obtain ⟨e'',member'',same',alive'',lighter'⟩ := two.pending e' member' alive'
    exact ⟨e'',member'',same'.trans same,alive'',lighter'.trans lighter⟩
  · intro c inside
    rcases mem_append.mp inside with left | right
    · obtain ⟨e,member,same,lighter⟩ := one.covers c left
      obtain ⟨e',member',same',lighter'⟩ := two.label member
      exact ⟨e',member',same'.trans same,lighter'.trans lighter⟩
    · exact two.covers c right

variable [DecidableEq Node] {node : Node}

theorem find_some (found : heap.GetHeapNodeIfWasInserted node = some e) :
    e ∈ heap.inserted_nodes ∧ e.node = node :=
  ⟨mem_of_find?_eq_some found,by simpa using find?_some found⟩

theorem find_none (found : heap.GetHeapNodeIfWasInserted node = none) :
    ∀ e ∈ heap.inserted_nodes, e.node ≠ node := by
  simpa [QueryHeap.GetHeapNodeIfWasInserted] using found

private theorem find_of_mem (member : e ∈ heap.inserted_nodes) :
    ∃ e', heap.GetHeapNodeIfWasInserted e.node = some e' := by
  cases found : heap.GetHeapNodeIfWasInserted e.node with
  | none => exact absurd rfl (find_none found e member)
  | some e' => exact ⟨e',rfl⟩

/-- A node is found by its id. -/
theorem find_unique (distinct : (heap.inserted_nodes.map (·.node)).Nodup)
    (member : e ∈ heap.inserted_nodes) : heap.GetHeapNodeIfWasInserted e.node = some e := by
  obtain ⟨e',found⟩ := find_of_mem member
  obtain ⟨member',same⟩ := find_some found
  rw [found,inj_on_of_nodup_map distinct member' member same]

private theorem write_nodes (node : Node) (weight : ℤ) (data : Data) (l : List (HeapNode Node Data)) :
    (QueryHeap.write node weight data l).map (·.node) = l.map (·.node) := by
  induction l with
  | nil => rfl
  | cons e older ih =>
    rw [QueryHeap.write]
    split
    · rfl
    · simp [ih]

private theorem write_split {weight : ℤ} {data : Data} {l : List (HeapNode Node Data)} (found : l.find? (fun e => e.node = node) = some e) :
    ∃ newer older, l = newer ++ e :: older ∧
      QueryHeap.write node weight data l = newer ++ { e with weight,data } :: older := by
  induction l with
  | nil => simp at found
  | cons a older ih =>
    rw [QueryHeap.write]
    by_cases same : a.node = node
    · have : a = e := by simpa [same] using found
      subst this
      exact ⟨[],older,rfl,by simp [same]⟩
    · obtain ⟨newer,tail,before,written⟩ := ih (by simpa [same] using found)
      exact ⟨a :: newer,tail,by simp [before],by simp [same,written]⟩

variable {less : ℤ → Data → ℤ → Data → Bool}

private theorem insertOrUpdate_extends (byWeight : ByWeight less) (c : QueryHeap.Candidate Node Data)
    (above : ∀ e ∈ heap.inserted_nodes, e.removed = true → e.weight < c.weight) :
    Extends [c] heap (heap.insertOrUpdate less c) := by
  unfold QueryHeap.insertOrUpdate
  split
  · rename_i absent
    refine ⟨?_,?_,?_,?_,?_⟩
    · intro e member
      rcases mem_cons.mp member with rfl | old
      · exact .inr ⟨rfl,c,by simp,none,rfl,rfl,rfl⟩
      · exact .inl old
    · exact fun e member _ => mem_cons_of_mem _ member
    · exact fun e member alive => ⟨e,mem_cons_of_mem _ member,rfl,alive,le_rfl⟩
    · simp [QueryHeap.Insert]
    · intro distinct
      simpa [QueryHeap.Insert] using And.intro (find_none absent) distinct
  · rename_i old found
    obtain ⟨member,same⟩ := find_some found
    by_cases better : less c.weight (c.data (some old.data)) old.weight old.data = true
    · have lighter := (byWeight _ _ _ _).1 better
      have alive : old.removed = false := by
        by_contra gone
        have := above old member (by simpa using gone)
        omega
      obtain ⟨newer,older,before,written⟩ :
          ∃ newer older, heap.inserted_nodes = newer ++ old :: older ∧
            (heap.DecreaseKey c.node c.weight (c.data (some old.data))).inserted_nodes =
              newer ++ { old with weight := c.weight,data := c.data (some old.data) } :: older :=
        write_split found
      simp only [better,if_true]
      refine ⟨?_,?_,?_,?_,?_⟩
      · intro e inside
        simp only [written,before,mem_append,mem_cons] at inside ⊢
        rcases inside with newest | rfl | oldest
        · exact .inl (.inl newest)
        · exact .inr ⟨alive,c,by simp,some old.data,same,rfl,rfl⟩
        · exact .inl (.inr (.inr oldest))
      · intro e inside gone
        simp only [written,before,mem_append,mem_cons] at inside ⊢
        rcases inside with newest | rfl | oldest
        · exact .inl newest
        · simp [alive] at gone
        · exact .inr (.inr oldest)
      · intro e inside pending
        simp only [written,before,mem_append,mem_cons] at inside ⊢
        rcases inside with newest | rfl | oldest
        · exact ⟨e,.inl newest,rfl,pending,le_rfl⟩
        · exact ⟨_,.inr (.inl rfl),rfl,pending,lighter⟩
        · exact ⟨e,.inr (.inr oldest),rfl,pending,le_rfl⟩
      · intro c' only
        obtain rfl : c' = c := by simpa using only
        exact ⟨{ old with weight := c'.weight,data := c'.data (some old.data) },by rw [written]; simp,same,le_rfl⟩
      · intro distinct
        simpa [QueryHeap.DecreaseKey,write_nodes] using distinct
    · have heavier := (byWeight _ _ _ _).2 (by simpa using better)
      simp only [better]
      refine ⟨fun e inside => .inl inside,fun e inside _ => inside,
        fun e inside alive => ⟨e,inside,rfl,alive,le_rfl⟩,?_,id⟩
      intro c' only
      obtain rfl : c' = c := by simpa using only
      exact ⟨old,member,same,heavier⟩

private theorem mem_insertOrUpdate {c : QueryHeap.Candidate Node Data} (member : e ∈ (heap.insertOrUpdate less c).inserted_nodes) :
    e ∈ heap.inserted_nodes ∨ e.node = c.node ∧ e.weight = c.weight ∧ ∃ old, e.data = c.data old := by
  unfold QueryHeap.insertOrUpdate at member
  split at member
  · rcases mem_cons.mp member with rfl | old
    · exact .inr ⟨rfl,rfl,_,rfl⟩
    · exact .inl old
  · rename_i old found
    split at member
    · obtain ⟨newer,older,before,written⟩ :
          ∃ newer older, heap.inserted_nodes = newer ++ old :: older ∧
            (heap.DecreaseKey c.node c.weight (c.data (some old.data))).inserted_nodes =
              newer ++ { old with weight := c.weight,data := c.data (some old.data) } :: older :=
        write_split found
      rw [written,mem_append,mem_cons] at member
      rw [before,mem_append,mem_cons]
      rcases member with newest | rfl | oldest
      · exact .inl (.inl newest)
      · exact .inr ⟨(find_some found).2,rfl,_,rfl⟩
      · exact .inl (.inr (.inr oldest))
    · exact .inl member

theorem mem_insertOrUpdateAll (member : e ∈ (heap.insertOrUpdateAll less cs).inserted_nodes) :
    e ∈ heap.inserted_nodes ∨ ∃ c ∈ cs, e.node = c.node ∧ e.weight = c.weight ∧ ∃ old, e.data = c.data old := by
  induction cs generalizing heap with
  | nil => exact .inl member
  | cons c rest ih =>
    rcases ih member with old | ⟨c',inside,new⟩
    · rcases mem_insertOrUpdate old with older | new
      · exact .inl older
      · exact .inr ⟨c,by simp,new⟩
    · exact .inr ⟨c',mem_cons_of_mem _ inside,new⟩

/-- Candidates above the settled ones extend the heap. -/
theorem insertOrUpdateAll_extends (byWeight : ByWeight less) (cs : List (QueryHeap.Candidate Node Data))
    {bound : ℤ} (settled : ∀ e ∈ heap.inserted_nodes, e.removed = true → e.weight ≤ bound)
    (above : ∀ c ∈ cs, bound < c.weight) : Extends cs heap (heap.insertOrUpdateAll less cs) := by
  induction cs generalizing heap with
  | nil => exact .refl heap
  | cons c rest ih =>
    have first : Extends [c] heap (heap.insertOrUpdate less c) := by
      refine insertOrUpdate_extends byWeight c fun e member gone => ?_
      have := settled e member gone
      have := above c (by simp)
      omega
    refine first.trans (ih ?_ fun c' inside => above c' (mem_cons_of_mem _ inside))
    intro e member gone
    rcases first.new_or_old e member with old | ⟨alive,_⟩
    · exact settled e old gone
    · simp [alive] at gone

/-! ### The work that is left -/

/-- A bound on the minima that can still be taken out: one for an entry that waits, two for a new node. -/
def work (nodes : List Node) (heap : QueryHeap Node Data) : ℕ :=
  2 * (nodes.countP fun x => !heap.WasInserted x) + heap.Size

theorem wasInserted_iff : heap.WasInserted node = true ↔ node ∈ heap.inserted_nodes.map (·.node) := by
  simp [QueryHeap.WasInserted,QueryHeap.GetHeapNodeIfWasInserted]

private theorem wasInserted_congr (same : after.inserted_nodes.map (·.node) = heap.inserted_nodes.map (·.node))
    (node : Node) : after.WasInserted node = heap.WasInserted node := by
  rw [Bool.eq_iff_iff,wasInserted_iff,wasInserted_iff,same]

theorem wasInserted_insertOrUpdateAll
    (old : heap.WasInserted node = true) : (heap.insertOrUpdateAll less cs).WasInserted node = true := by
  induction cs generalizing heap with
  | nil => exact old
  | cons c rest ih =>
    refine ih ?_
    rw [wasInserted_iff] at old ⊢
    unfold QueryHeap.insertOrUpdate
    split
    · exact mem_cons_of_mem _ old
    · split
      · simpa [QueryHeap.DecreaseKey,write_nodes] using old
      · exact old

theorem wasInserted_pop {least : HeapNode Node Data} (popped : heap.DeleteMin = some (least,after)) (node : Node) :
    after.WasInserted node = heap.WasInserted node :=
  wasInserted_congr (deleteMin_spec popped).nodes node

theorem getKey_entry (old : heap.WasInserted node = true) :
    ∃ e ∈ heap.inserted_nodes, e.node = node ∧ heap.GetKey node = e.weight := by
  obtain ⟨e,found⟩ := Option.isSome_iff_exists.mp old
  exact ⟨e,(find_some found).1,(find_some found).2,by simp [QueryHeap.GetKey,found]⟩

variable {nodes : List Node}

/-- Taking out the minimum does one unit of work. -/
theorem work_pop {least : HeapNode Node Data} (popped : heap.DeleteMin = some (least,after)) :
    work nodes after + 1 = work nodes heap := by
  have spec := deleteMin_spec popped
  have size := spec.size
  simp only [work,wasInserted_congr spec.nodes]
  omega

theorem work_deleteAll : work nodes heap.DeleteAll ≤ work nodes heap := by
  have same : ∀ x, heap.DeleteAll.WasInserted x = heap.WasInserted x :=
    wasInserted_congr (by simp [QueryHeap.DeleteAll,Function.comp_def])
  have none_left : heap.DeleteAll.Size = 0 := by simp [QueryHeap.Size,QueryHeap.DeleteAll,Function.comp_def]
  simp only [work,same,none_left]
  omega

private theorem size_write {weight : ℤ} {data : Data} (l : List (HeapNode Node Data)) :
    (QueryHeap.write node weight data l).countP (fun e => !e.removed) = l.countP (fun e => !e.removed) := by
  induction l with
  | nil => rfl
  | cons e older ih =>
    rw [QueryHeap.write]
    split
    · simp [countP_cons]
    · simp [countP_cons,ih]

private theorem wasInserted_insert (node x : Node) (weight : ℤ) (data : Data) :
    (heap.Insert node weight data).WasInserted x = (decide (node = x) || heap.WasInserted x) := by
  rw [Bool.eq_iff_iff,Bool.or_eq_true,decide_eq_true_iff,wasInserted_iff,wasInserted_iff]
  simp only [QueryHeap.Insert,map_cons,mem_cons]
  exact or_congr_left eq_comm

private theorem missing_insert {weight : ℤ} {data : Data} (known : node ∈ nodes) (absent : heap.WasInserted node = false) :
    (nodes.countP fun x => !(heap.Insert node weight data).WasInserted x) + 1 ≤
      nodes.countP fun x => !heap.WasInserted x := by
  induction nodes with
  | nil => simp at known
  | cons a rest ih =>
    have shrink : (rest.countP fun x => !(heap.Insert node weight data).WasInserted x) ≤
        rest.countP fun x => !heap.WasInserted x := by
      refine countP_mono_left fun x _ missing => ?_
      simp only [wasInserted_insert,Bool.not_or,Bool.and_eq_true] at missing
      exact missing.2
    by_cases same : node = a
    · subst same
      simp only [countP_cons,wasInserted_insert,absent]
      simp only [wasInserted_insert] at shrink
      simp
      simpa using shrink
    · have deeper := ih (by simpa [same] using known)
      simp only [countP_cons,wasInserted_insert,same,decide_false,Bool.false_or]
      simp only [wasInserted_insert] at deeper
      split <;> omega

private theorem work_insertOrUpdate (c : QueryHeap.Candidate Node Data) (known : c.node ∈ nodes) :
    work nodes (heap.insertOrUpdate less c) ≤ work nodes heap := by
  unfold QueryHeap.insertOrUpdate
  split
  · rename_i absent
    have fewer : (nodes.countP fun x => !(heap.Insert c.node c.weight (c.data none)).WasInserted x) + 1 ≤
        nodes.countP fun x => !heap.WasInserted x :=
      missing_insert known (by simpa [QueryHeap.WasInserted] using absent)
    have size : (heap.Insert c.node c.weight (c.data none)).Size = heap.Size + 1 := by
      simp [QueryHeap.Size,QueryHeap.Insert]
    simp only [work,size]
    omega
  · split
    · rename_i old _ _
      have same : ∀ x, (heap.DecreaseKey c.node c.weight (c.data (some old.data))).WasInserted x = heap.WasInserted x :=
        fun x => wasInserted_congr (by simp [QueryHeap.DecreaseKey,write_nodes]) x
      have size : (heap.DecreaseKey c.node c.weight (c.data (some old.data))).Size = heap.Size := size_write _
      simp [work,same,size]
    · exact le_rfl

/-- Insertions and decreases make no new work. -/
theorem work_insertOrUpdateAll (cs : List (QueryHeap.Candidate Node Data))
    (known : ∀ c ∈ cs, c.node ∈ nodes) : work nodes (heap.insertOrUpdateAll less cs) ≤ work nodes heap := by
  induction cs generalizing heap with
  | nil => exact le_rfl
  | cons c rest ih =>
    have deeper : work nodes ((heap.insertOrUpdate less c).insertOrUpdateAll less rest) ≤ _ :=
      ih fun c' inside => known c' (mem_cons_of_mem _ inside)
    exact deeper.trans (work_insertOrUpdate c (known c (by simp)))

end update

end Osrm.Heap
