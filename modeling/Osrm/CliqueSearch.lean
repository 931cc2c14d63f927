import Osrm.Search

/-!
Searches of an overlay that do not follow two arcs through a cell in a row. Where the arcs
through the cells obey the triangle inequality, a node that was reached by one of them need not
hand its label on to the other nodes of the cell: the node before it has done so already.
-/
namespace Osrm.CliqueSearch
open Walks Heap Search

structure Overlaid (Node Data : Type) where
  /-- The arcs between the cells. -/
  border : Arcs Node
  /-- The arcs through the cells. -/
  clique : Arcs Node
  /-- The entry was made for an arc through a cell. -/
  fromClique : Data → Bool
  Source : Node → ℤ → Prop
  Sound : Node → ℤ → Prop
  /-- What an entry means by itself. -/
  Mark : Node → ℤ → Data → Prop
  /-- The entries the heap starts with. -/
  Root : Node → ℤ → Data → Prop
  /-- An entry and the one it was made from. -/
  Link : Node → Data → Node → Data → ℤ → Prop

variable {Node Data : Type}

def Overlaid.arcs (O : Overlaid Node Data) : Arcs Node := fun x y w => O.border x y w ∨ O.clique x y w

def Overlaid.direction (O : Overlaid Node Data) : Direction Node Data where
  arcs := O.arcs
  Source := O.Source
  Sound := O.Sound
  Skipped _ _ := False
  Good S x k d := O.Mark x k d ∧ (O.Root x k d ∨ ∃ p k' d' w, S p k' d' ∧ k = k' + w ∧ O.Link p d' x d w)
  good_mono more := by
    rintro x k d ⟨mark,root | ⟨p,k',d',w,settled,rest⟩⟩
    · exact ⟨mark,.inl root⟩
    · exact ⟨mark,.inr ⟨p,k',d',w,more _ _ _ settled,rest⟩⟩

structure Overlaid.Lawful (O : Overlaid Node Data) : Prop where
  positive : Positive O.arcs
  triangle : ∀ {x y z a b}, O.clique x y a → O.clique y z b → z ≠ x → ∃ c ≤ a + b, O.clique x z c
  root : ∀ {x k d}, O.Root x k d → O.fromClique d = false
  arc : ∀ {p d' x d w}, O.Link p d' x d w → O.arcs p x w
  plain : ∀ {p d' x d w}, O.Link p d' x d w → O.fromClique d = true → O.clique p x w ∧ O.fromClique d' = false
  sound : ∀ {p k d' x d w}, O.Sound p k → O.Link p d' x d w → O.Sound x (k + w)
  mark : ∀ {p k d' x d w}, O.Mark p k d' → O.Link p d' x d w → O.Mark x (k + w) d

variable {O : Overlaid Node Data} {heap rest after : QueryHeap Node Data} {least : HeapNode Node Data}
  {cs : List (QueryHeap.Candidate Node Data)} {limit limit' : ℤ}

private theorem clique_covered (lawful : O.Lawful) (inv : Invariant O.direction heap limit)
    (popped : Popped heap rest least) (reached : O.fromClique least.data = true) (below : least.weight ≤ limit)
    {y : Node} {w : ℤ} (arc : O.clique least.node y w) :
    ∃ e ∈ rest.inserted_nodes, e.node = y ∧ e.weight ≤ least.weight + w := by
  have wPos := lawful.positive _ _ _ (.inr arc)
  obtain ⟨_,root | ⟨p,k,d,a,settled,total,link⟩⟩ := inv.good least popped.member
  · simp [lawful.root root] at reached
  · obtain ⟨first,_⟩ := lawful.plain link reached
    have aPos := lawful.positive _ _ _ (.inr first)
    by_cases back : y = p
    · exact ⟨_,settled_pop popped settled,back.symm,by simp only; omega⟩
    · obtain ⟨c,cLe,direct⟩ := lawful.triangle first arc back
      rcases inv.relaxed _ settled rfl (by simp only; omega) with skipped | handed
      · exact skipped.elim
      · obtain ⟨e,member,node,weight⟩ := handed y c (.inr direct)
        obtain ⟨e',member',node',weight'⟩ := label_pop popped member
        exact ⟨e',member',node'.trans node,by simp only at weight; omega⟩

/-- Settling a node keeps the invariant. -/
theorem step (lawful : O.Lawful) (inv : Invariant O.direction heap limit) (popped : Popped heap rest least)
    (ext : Extends cs rest after) (le : limit' ≤ limit)
    (link : ∀ c ∈ cs, ∃ w, c.weight = least.weight + w ∧ ∀ old, O.Link least.node least.data c.node (c.data old) w)
    (border : ∀ y w, O.border least.node y w → ∃ c ∈ cs, c.node = y ∧ c.weight ≤ least.weight + w)
    (clique : O.fromClique least.data = false → ∀ y w, O.clique least.node y w →
      ∃ c ∈ cs, c.node = y ∧ c.weight ≤ least.weight + w) :
    Invariant O.direction after limit' := by
  refine inv.step popped ext le ?_ ?_ ?_ ?_
  · intro c inside
    obtain ⟨w,weight,linked⟩ := link c inside
    have := lawful.positive _ _ _ (lawful.arc (linked none))
    omega
  · intro c inside
    obtain ⟨w,weight,linked⟩ := link c inside
    rw [weight]
    exact lawful.sound (inv.sound least popped.member) (linked none)
  · intro c inside old
    obtain ⟨w,weight,linked⟩ := link c inside
    have mark := lawful.mark (inv.good least popped.member).1 (linked old)
    rw [weight]
    exact ⟨mark,.inr ⟨least.node,least.weight,least.data,w,popped.settled,rfl,linked old⟩⟩
  · intro below
    refine .inr fun y w arc => ?_
    rcases arc with outer | through
    · exact .inl (border y w outer)
    · cases reached : O.fromClique least.data with
      | false => exact .inl (clique reached y w through)
      | true => exact .inr (clique_covered lawful inv popped reached (below.trans le) through)

end Osrm.CliqueSearch
