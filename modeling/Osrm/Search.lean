import Osrm.Heap
import Osrm.Labels
import Osrm.Loops

/-!
The invariant of one direction of a search that works on a `QueryHeap`. What counts as an arc, which labels mean
something, when a node may be skipped and what the entries record are parameters.
-/
namespace Osrm.Search
open Walks Heap

structure Direction (Node Data : Type) where
  /-- The arcs along which labels are handed on. -/
  arcs : Arcs Node
  /-- The labels the heap starts with. -/
  Source : Node → ℤ → Prop
  /-- A label that stands for some way to the node. -/
  Sound : Node → ℤ → Prop
  /-- A settled label that need not be handed on. -/
  Skipped : Node → ℤ → Prop
  /-- What an entry records, given the entries that are settled. -/
  Good : (Node → ℤ → Data → Prop) → Node → ℤ → Data → Prop
  good_mono : ∀ {S T : Node → ℤ → Data → Prop}, (∀ x k d, S x k d → T x k d) →
    ∀ {x k d}, Good S x k d → Good T x k d

variable {Node Data : Type}

/-- Taken out with this label. -/
def settled (heap : QueryHeap Node Data) (x : Node) (k : ℤ) (d : Data) : Prop :=
  (⟨x,k,d,true⟩ : HeapNode Node Data) ∈ heap.inserted_nodes

/-- The invariant of a direction. Labels above `limit` are of no interest any more. -/
structure Invariant (D : Direction Node Data) (heap : QueryHeap Node Data) (limit : ℤ) : Prop where
  ordered : ∀ e ∈ heap.inserted_nodes, e.removed = true →
    ∀ e' ∈ heap.inserted_nodes, e'.removed = false → e.weight ≤ e'.weight
  source : ∀ x o, D.Source x o → ∃ e ∈ heap.inserted_nodes, e.node = x ∧ e.weight ≤ o
  sound : ∀ e ∈ heap.inserted_nodes, D.Sound e.node e.weight
  relaxed : ∀ e ∈ heap.inserted_nodes, e.removed = true → e.weight ≤ limit →
    D.Skipped e.node e.weight ∨
      ∀ y w, D.arcs e.node y w → ∃ e' ∈ heap.inserted_nodes, e'.node = y ∧ e'.weight ≤ e.weight + w
  good : ∀ e ∈ heap.inserted_nodes, D.Good (settled heap) e.node e.weight e.data

variable {D : Direction Node Data} {heap rest after : QueryHeap Node Data} {least : HeapNode Node Data}
  {cs : List (QueryHeap.Candidate Node Data)} {limit limit' : ℤ}

theorem Invariant.lower (inv : Invariant D heap limit) (le : limit' ≤ limit) : Invariant D heap limit' :=
  ⟨inv.ordered,inv.source,inv.sound,fun e member gone below => inv.relaxed e member gone (below.trans le),inv.good⟩

theorem Invariant.start (source : ∀ x o, D.Source x o → ∃ e ∈ heap.inserted_nodes, e.node = x ∧ e.weight ≤ o)
    (pending : ∀ e ∈ heap.inserted_nodes, e.removed = false)
    (sound : ∀ e ∈ heap.inserted_nodes, D.Sound e.node e.weight)
    (good : ∀ e ∈ heap.inserted_nodes, D.Good (settled heap) e.node e.weight e.data) :
    Invariant D heap limit := by
  have none_gone : ∀ e ∈ heap.inserted_nodes, e.removed ≠ true := by
    intro e member gone
    simp [pending e member] at gone
  exact ⟨fun e member gone => absurd gone (none_gone e member),source,sound,
    fun e member gone => absurd gone (none_gone e member),good⟩

theorem settled_pop (popped : Popped heap rest least) {x : Node} {k : ℤ} {d : Data}
    (old : settled heap x k d) : settled rest x k d := by
  rcases popped.old_kept _ old with same | kept
  · have := popped.pending
    rw [← same] at this
    simp at this
  · exact kept

theorem label_pop (popped : Popped heap rest least) {e : HeapNode Node Data}
    (member : e ∈ heap.inserted_nodes) : ∃ e' ∈ rest.inserted_nodes, e'.node = e.node ∧ e'.weight = e.weight := by
  rcases popped.old_kept e member with rfl | kept
  · exact ⟨_,popped.settled,rfl,rfl⟩
  · exact ⟨e,kept,rfl,rfl⟩

/-- What is settled is not above the minimum. -/
theorem settled_le (inv : Invariant D heap limit) (popped : Popped heap rest least) :
    ∀ e ∈ rest.inserted_nodes, e.removed = true → e.weight ≤ least.weight := by
  intro e member gone
  rcases popped.new_or_old e member with rfl | old
  · exact le_rfl
  · exact inv.ordered e old gone least popped.member popped.pending

private theorem pending_ge (popped : Popped heap rest least) :
    ∀ e ∈ rest.inserted_nodes, e.removed = false → least.weight ≤ e.weight := by
  intro e member alive
  rcases popped.new_or_old e member with rfl | old
  · simp at alive
  · exact popped.least_le e old alive

theorem Invariant.step (inv : Invariant D heap limit) (popped : Popped heap rest least)
    (ext : Extends cs rest after) (le : limit' ≤ limit)
    (above : ∀ c ∈ cs, least.weight < c.weight) (sound : ∀ c ∈ cs, D.Sound c.node c.weight)
    (good : ∀ c ∈ cs, ∀ old, D.Good (settled rest) c.node c.weight (c.data old))
    (covered : least.weight ≤ limit' → D.Skipped least.node least.weight ∨ ∀ y w, D.arcs least.node y w →
      (∃ c ∈ cs, c.node = y ∧ c.weight ≤ least.weight + w) ∨
        ∃ e ∈ rest.inserted_nodes, e.node = y ∧ e.weight ≤ least.weight + w) :
    Invariant D after limit' := by
  have keeps : ∀ x k d, settled rest x k d → settled after x k d :=
    fun x k d old => ext.settled _ old rfl
  have back : ∀ e ∈ after.inserted_nodes, e.removed = true → e ∈ rest.inserted_nodes := by
    intro e member gone
    rcases ext.new_or_old e member with old | ⟨alive,_⟩
    · exact old
    · simp [alive] at gone
  refine ⟨?_,?_,?_,?_,?_⟩
  · intro e member gone e' member' alive
    have low := settled_le inv popped e (back e member gone) gone
    rcases ext.new_or_old e' member' with old | ⟨_,c,inside,_,_,weight,_⟩
    · exact low.trans (pending_ge popped e' old alive)
    · have := above c inside
      omega
  · intro x o start
    obtain ⟨e,member,node,weight⟩ := inv.source x o start
    obtain ⟨e',member',node',weight'⟩ := label_pop popped member
    obtain ⟨e'',member'',node'',weight''⟩ := ext.label member'
    exact ⟨e'',member'',by rw [node'',node',node],by omega⟩
  · intro e member
    rcases ext.new_or_old e member with old | ⟨_,c,inside,_,node,weight,_⟩
    · rcases popped.new_or_old e old with rfl | older
      · exact inv.sound least popped.member
      · exact inv.sound e older
    · rw [node,weight]
      exact sound c inside
  · intro e member gone below
    rcases popped.new_or_old e (back e member gone) with rfl | old
    · refine (covered below).imp_right fun arcs y w arc => ?_
      rcases arcs y w arc with ⟨c,inside,node,weight⟩ | ⟨e',member',node,weight⟩
      · obtain ⟨e',member',node',weight'⟩ := ext.covers c inside
        exact ⟨e',member',node'.trans node,weight'.trans weight⟩
      · obtain ⟨e'',member'',node'',weight''⟩ := ext.label member'
        exact ⟨e'',member'',node''.trans node,weight''.trans weight⟩
    · refine (inv.relaxed e old gone (below.trans le)).imp_right fun arcs y w arc => ?_
      obtain ⟨e',member',node,weight⟩ := arcs y w arc
      obtain ⟨e'',member'',node'',weight''⟩ := label_pop popped member'
      obtain ⟨e3,member3,node3,weight3⟩ := ext.label member''
      exact ⟨e3,member3,by rw [node3,node'',node],by omega⟩
  · intro e member
    rcases ext.new_or_old e member with old | ⟨_,c,inside,old,node,weight,data⟩
    · rcases popped.new_or_old e old with rfl | older
      · exact D.good_mono (fun x k d s => keeps _ _ _ (settled_pop popped s)) (inv.good least popped.member)
      · exact D.good_mono (fun x k d s => keeps _ _ _ (settled_pop popped s)) (inv.good e older)
    · rw [node,weight,data]
      exact D.good_mono keeps (good c inside old)

theorem Invariant.deleteAll (inv : Invariant D heap limit) (le : limit' ≤ limit)
    (above : ∀ e ∈ heap.inserted_nodes, e.removed = false → limit' < e.weight) :
    Invariant D heap.DeleteAll limit' := by
  have entry : ∀ e ∈ heap.DeleteAll.inserted_nodes, e.removed = true ∧
      ∃ e' ∈ heap.inserted_nodes, e'.node = e.node ∧ e'.weight = e.weight ∧ e'.data = e.data := by
    intro e member
    obtain ⟨e',member',rfl⟩ := List.mem_map.mp member
    exact ⟨rfl,e',member',rfl,rfl,rfl⟩
  have back : ∀ e ∈ heap.inserted_nodes, { e with removed := true } ∈ heap.DeleteAll.inserted_nodes :=
    fun e member => List.mem_map_of_mem member
  refine ⟨?_,?_,?_,?_,?_⟩
  · intro e _ _ e' member' alive
    simp [(entry e' member').1] at alive
  · intro x o start
    obtain ⟨e,member,node,weight⟩ := inv.source x o start
    exact ⟨_,back e member,node,weight⟩
  · intro e member
    obtain ⟨_,e',member',node,weight,_⟩ := entry e member
    rw [← node,← weight]
    exact inv.sound e' member'
  · intro e member _ below
    obtain ⟨_,e',member',node,weight,_⟩ := entry e member
    cases gone : e'.removed with
    | false => have := above e' member' gone; omega
    | true =>
      have old := inv.relaxed e' member' gone (by omega)
      rw [node,weight] at old
      refine old.imp_right fun arcs y w arc => ?_
      obtain ⟨e'',member'',node'',weight''⟩ := arcs y w arc
      exact ⟨_,back e'' member'',node'',weight''⟩
  · intro e member
    obtain ⟨_,e',member',node,weight,data⟩ := entry e member
    rw [← node,← weight,← data]
    exact D.good_mono (fun x k d s => back _ s) (inv.good e' member')

private theorem label_cases {e : HeapNode Node Data} {x : Node} {k : ℤ} (member : e ∈ heap.inserted_nodes)
    (node : e.node = x) (weight : e.weight = k) :
    (∃ d, settled heap x k d) ∨ ∃ e' ∈ heap.inserted_nodes, e'.removed = false ∧ e'.node = x ∧ e'.weight = k := by
  cases gone : e.removed with
  | false => exact .inr ⟨e,member,gone,node,weight⟩
  | true =>
    obtain ⟨en,ew,ed,er⟩ := e
    simp only at node weight gone
    subst node weight gone
    exact .inl ⟨ed,member⟩

theorem Invariant.frontier (inv : Invariant D heap limit) (positive : Positive D.arcs)
    (skip : ∀ x k, D.Skipped x k → False) {x y : Node} {o n : ℤ} (start : D.Source x o)
    (walk : Walk D.arcs x y n) (below : o + n ≤ limit) :
    (∃ k ≤ o + n, ∃ d, settled heap y k d) ∨
      ∃ e ∈ heap.inserted_nodes, e.removed = false ∧ ∃ m, Walk D.arcs e.node y m ∧ e.weight + m ≤ o + n := by
  obtain ⟨e,member,node,weight⟩ := inv.source x o start
  have found := Labels.frontier (fun x k => ∃ d, settled heap x k d)
    (fun x k => ∃ e ∈ heap.inserted_nodes, e.removed = false ∧ e.node = x ∧ e.weight = k) limit positive (by
      rintro x k ⟨d,old⟩ le y w arc
      rcases inv.relaxed _ old rfl le with skipped | arcs
      · exact (skip _ _ skipped).elim
      · obtain ⟨e',member',node',weight'⟩ := arcs y w arc
        exact ⟨e'.weight,weight',label_cases member' node' rfl⟩) walk o e.weight
    (label_cases member node rfl) weight below
  rcases found with done | ⟨z,k,m,⟨e',member',alive,rfl,rfl⟩,tail,total⟩
  · exact .inl done
  · exact .inr ⟨e',member',alive,m,tail,total⟩

theorem Invariant.frontier_optimal (inv : Invariant D heap limit) (positive : Positive D.arcs)
    (skip : ∀ x k, D.Skipped x k → ∃ k' < k, D.Sound x k')
    (extend : ∀ x k y w, D.Sound x k → D.arcs x y w → D.Sound y (k + w))
    {x y : Node} {o n : ℤ} (start : D.Source x o) (walk : Walk D.arcs x y n) (below : o + n ≤ limit)
    (optimal : ∀ k, D.Sound y k → o + n ≤ k) :
    (∃ k ≤ o + n, ∃ d, settled heap y k d) ∨
      ∃ e ∈ heap.inserted_nodes, e.removed = false ∧ ∃ m, Walk D.arcs e.node y m ∧ e.weight + m ≤ o + n := by
  obtain ⟨e,member,node,weight⟩ := inv.source x o start
  have found := Labels.frontier_optimal (fun x k => ∃ d, settled heap x k d)
    (fun x k => ∃ e ∈ heap.inserted_nodes, e.removed = false ∧ e.node = x ∧ e.weight = k)
    D.Sound limit positive extend (by
      rintro x k ⟨d,old⟩ le
      refine (inv.relaxed _ old rfl le).imp (skip x k) fun arcs y w arc => ?_
      obtain ⟨e',member',node',weight'⟩ := arcs y w arc
      exact ⟨e'.weight,weight',label_cases member' node' rfl⟩) walk o e.weight
    (label_cases member node rfl) weight below optimal
  rcases found with done | ⟨z,k,m,⟨e',member',alive,rfl,rfl⟩,tail,total⟩
  · exact .inl done
  · exact .inr ⟨e',member',alive,m,tail,total⟩

section explore
variable {σ : Type} [DecidableEq Node] {nodes : List Node} {heap : QueryHeap Node Data}
  {relax : HeapNode Node Data → QueryHeap Node Data → QueryHeap Node Data} {visit : σ → HeapNode Node Data → σ}
  {step : QueryHeap Node Data × σ → QueryHeap Node Data × σ}

/-- What `relax` does to a heap from which the minimum was taken out. -/
structure Relaxes (D : Direction Node Data) (nodes : List Node)
    (relax : HeapNode Node Data → QueryHeap Node Data → QueryHeap Node Data) : Prop where
  keeps : ∀ heap least rest limit, Invariant D heap limit → heap.DeleteMin = some (least,rest) →
    Invariant D (relax least rest) limit
  settled : ∀ heap least rest limit, Invariant D heap limit → heap.DeleteMin = some (least,rest) →
    ∀ e ∈ (relax least rest).inserted_nodes, e.removed = true → e ∈ rest.inserted_nodes
  work : ∀ least rest, work nodes (relax least rest) ≤ work nodes rest

/-- The entries taken out so far, in their order, explain what the search has done. -/
private structure Explored (D : Direction Node Data) (visit : σ → HeapNode Node Data → σ) (start : σ)
    (visited : List (HeapNode Node Data)) (s : QueryHeap Node Data × σ) : Prop where
  inv : ∀ limit, Invariant D s.1 limit
  result : s.2 = visited.foldl visit start
  sound : ∀ e ∈ visited, D.Sound e.node e.weight
  all : ∀ x k d, settled s.1 x k d → ∃ e ∈ visited, e.node = x ∧ e.weight = k ∧ e.data = d

private theorem explored_step {start : σ} {visited : List (HeapNode Node Data)} {acc : σ}
    {least : HeapNode Node Data} {rest : QueryHeap Node Data} (relaxes : Relaxes D nodes relax)
    (explored : Explored D visit start visited (heap,acc))
    (popped : heap.DeleteMin = some (least,rest)) :
    Explored D visit start (visited ++ [least]) (relax least rest,visit acc least) := by
  have spec := deleteMin_spec popped
  refine ⟨fun limit => relaxes.keeps heap least rest limit (explored.inv limit) popped,?_,?_,?_⟩
  · simp [← show acc = visited.foldl visit start from explored.result]
  · intro e member
    rcases List.mem_append.mp member with old | new
    · exact explored.sound e old
    · obtain rfl := List.mem_singleton.mp new
      exact (explored.inv 0).sound e spec.member
  · intro x k d gone
    have kept := relaxes.settled heap least rest 0 (explored.inv 0) popped _ gone rfl
    rcases spec.new_or_old _ kept with same | old
    · refine ⟨least,by simp,?_⟩
      obtain ⟨rfl,rfl,rfl,_⟩ := HeapNode.mk.inj same
      exact ⟨rfl,rfl,rfl⟩
    · obtain ⟨e,member,here⟩ := explored.all x k d old
      exact ⟨e,List.mem_append_left _ member,here⟩

/-- Such a search ends; its entries stand for ways, and it took out everything that is settled. -/
theorem explore (relaxes : Relaxes D nodes relax)
    (shape : ∀ heap acc least rest, heap.DeleteMin = some (least,rest) →
      step (heap,acc) = (relax least rest,visit acc least))
    (inv : ∀ limit, Invariant D heap limit) (pending : ∀ e ∈ heap.inserted_nodes, e.removed = false) (acc : σ) :
    ∃ fuel final, ∃ visited : List (HeapNode Node Data), (∀ more ≥ fuel, Loops.whileLoop (fun s : QueryHeap Node Data × σ => !s.1.Empty) step more
        (heap,acc) = some (final,visited.foldl visit acc)) ∧ final.Empty = true ∧ (∀ limit, Invariant D final limit) ∧
      (∀ e ∈ visited, D.Sound e.node e.weight) ∧
      ∀ x k d, settled final x k d → ∃ e ∈ visited, e.node = x ∧ e.weight = k ∧ e.data = d := by
  have start : Explored D visit acc [] (heap,acc) :=
    ⟨inv,rfl,by simp,fun x k d gone => by simpa using pending _ gone⟩
  have body : ∀ s : QueryHeap Node Data × σ, (∃ visited, Explored D visit acc visited s) → (!s.1.Empty) = true →
      (∃ visited, Explored D visit acc visited (step s)) ∧ work nodes (step s).1 < work nodes s.1 := by
    rintro ⟨heap,now⟩ ⟨visited,explored⟩ running
    have filled : heap.Empty = false := by simpa using running
    obtain ⟨least,rest,popped⟩ := deleteMin_of_not_empty filled
    have less := @work_pop _ _ _ _ _ nodes _ popped
    have same := relaxes.work least rest
    rw [shape heap now least rest popped]
    exact ⟨⟨_,explored_step relaxes explored popped⟩,by simp only; omega⟩
  obtain ⟨⟨final,result⟩,ran,⟨visited,explored⟩,stopped⟩ := Loops.whileLoop_total
    (fun s => ∃ visited, Explored D visit acc visited s) (fun s => work nodes s.1)
    (fun s holds running => (body s holds running).1) (fun s holds running => (body s holds running).2)
    (work nodes heap) (heap,acc) ⟨[],start⟩ le_rfl
  refine ⟨work nodes heap,final,visited,fun more enough => ?_,by simpa using stopped,explored.inv,explored.sound,explored.all⟩
  rw [Loops.whileLoop_mono ran enough]
  exact congrArg _ (congrArg _ explored.result)

end explore

end Osrm.Search
