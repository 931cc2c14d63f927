import Mathlib.Data.List.Basic
import Mathlib.Logic.Relation
import Mathlib.Order.Lattice

/-!
Strongly connected components from one depth-first search. The vertices that are found lie on a stack in the order
they were found in; some of them are still open, the others are left.
-/
namespace Osrm.StrongComponents
open List
open Relation
variable {V : Type*}

def Mutual (edge : V → V → Prop) (u v : V) : Prop := ReflTransGen edge u v ∧ ReflTransGen edge v u

variable {edge : V → V → Prop} {u v w : V}

private theorem Mutual.refl (v : V) : Mutual edge v v := ⟨.refl,.refl⟩
private theorem Mutual.symm (both : Mutual edge u v) : Mutual edge v u := ⟨both.2,both.1⟩
private theorem Mutual.trans (first : Mutual edge u v) (second : Mutual edge v w) : Mutual edge u w :=
  ⟨first.1.trans second.1,second.2.trans first.2⟩

private theorem stays_inside {inside : V → Prop} (closed : ∀ x w, inside x → edge x w → inside w) (path : ReflTransGen edge u v)
    (start : inside u) : inside v := by
  induction path with
  | refl => exact start
  | tail _ step ih => exact closed _ _ ih step

/-- What holds during the search. The stack and the open vertices are listed from the last one found. -/
structure Valid (edge : V → V → Prop) (index low : V → ℕ) (stack opened : List V) (done : V → Prop) : Prop where
  sorted : stack.Pairwise fun a b => index b < index a
  opened_sorted : opened.Pairwise fun a b => index b < index a
  opened_stack : ∀ g ∈ opened, g ∈ stack
  apart : ∀ x ∈ stack, ¬ done x
  closed : ∀ x w, done x → edge x w → done w
  finished : ∀ x ∈ stack, x ∉ opened → ∀ w, edge x w → w ∈ stack ∨ done w
  up : ∀ x ∈ stack, ∃ g ∈ opened, index g ≤ index x ∧ ReflTransGen edge x g
  down : ∀ g ∈ opened, ∀ x ∈ stack, index g ≤ index x → ReflTransGen edge g x
  low_le : ∀ g ∈ opened, low g ≤ index g
  low_sound : ∀ g ∈ opened, ∃ z ∈ stack, low g = index z ∧ ReflTransGen edge g z
  low_complete : ∀ g ∈ opened, ∀ x ∈ stack, index g ≤ index x → (∀ g' ∈ opened, index g' ≤ index x → index g' ≤ index g) →
    ∀ w ∈ stack, edge x w → low g ≤ index w

theorem valid_nil (edge : V → V → Prop) (index low : V → ℕ) {done : V → Prop} (closed : ∀ x w, done x → edge x w → done w) :
    Valid edge index low [] [] done :=
  ⟨.nil,.nil,by simp,by simp,closed,by simp,by simp,by simp,by simp,by simp,by simp⟩

section Search
variable {index low : V → ℕ} {stack opened : List V} {done : V → Prop}

theorem Valid.stack_nil (valid : Valid edge index low stack [] done) : stack = [] := by
  refine eq_nil_iff_forall_not_mem.mpr fun x member => ?_
  obtain ⟨g,absurd,-⟩ := valid.up x member
  simp at absurd

theorem Valid.find (valid : Valid edge index low stack opened done) {index' low' : V → ℕ} (fresh : v ∉ stack) (undone : ¬ done v)
    (index_same : ∀ x ∈ stack, index' x = index x) (low_same : ∀ x ∈ stack, low' x = low x)
    (later : ∀ x ∈ stack, index x < index' v) (path : ∀ g ∈ opened, ReflTransGen edge g v)
    (least : ∀ w ∈ v :: stack, edge v w → low' v ≤ index' w) (le : low' v ≤ index' v)
    (sound : ∃ z ∈ v :: stack, low' v = index' z ∧ ReflTransGen edge v z) :
    Valid edge index' low' (v :: stack) (v :: opened) done := by
  have older : ∀ g ∈ opened, index' g = index g := fun g member => index_same g (valid.opened_stack g member)
  constructor
  · refine pairwise_cons.mpr ⟨fun x member => index_same x member ▸ later x member,?_⟩
    exact valid.sorted.imp_of_mem fun at_a at_b less => by rwa [index_same _ at_a,index_same _ at_b]
  · refine pairwise_cons.mpr ⟨fun g member => older g member ▸ later g (valid.opened_stack g member),?_⟩
    exact valid.opened_sorted.imp_of_mem fun at_a at_b less => by rwa [older _ at_a,older _ at_b]
  · exact forall_mem_cons.mpr ⟨mem_cons_self,fun g member => mem_cons_of_mem _ (valid.opened_stack g member)⟩
  · exact forall_mem_cons.mpr ⟨undone,valid.apart⟩
  · exact valid.closed
  · intro x member still w step
    cases mem_cons.mp member with
    | inl same => exact absurd (same ▸ mem_cons_self) still
    | inr old =>
      cases valid.finished x old (fun at_x => still (mem_cons_of_mem _ at_x)) w step with
      | inl at_w => exact .inl (mem_cons_of_mem _ at_w)
      | inr ended => exact .inr ended
  · intro x member
    cases mem_cons.mp member with
    | inl same => exact ⟨v,mem_cons_self,same ▸ Nat.le_refl _,same ▸ .refl⟩
    | inr old =>
      obtain ⟨g,at_g,below,reach⟩ := valid.up x old
      exact ⟨g,mem_cons_of_mem _ at_g,by rwa [older g at_g,index_same x old],reach⟩
  · intro g at_g x member below
    cases mem_cons.mp at_g with
    | inl new =>
      subst new
      cases mem_cons.mp member with
      | inl same => exact same ▸ .refl
      | inr old =>
        have := later x old
        rw [index_same x old] at below
        omega
    | inr at_g =>
      cases mem_cons.mp member with
      | inl same => exact same ▸ path g at_g
      | inr old =>
        rw [older g at_g,index_same x old] at below
        exact valid.down g at_g x old below
  · intro g at_g
    cases mem_cons.mp at_g with
    | inl new => exact new ▸ le
    | inr at_g =>
      rw [low_same g (valid.opened_stack g at_g),older g at_g]
      exact valid.low_le g at_g
  · intro g at_g
    cases mem_cons.mp at_g with
    | inl new => exact new ▸ sound
    | inr at_g =>
      obtain ⟨z,at_z,same,reach⟩ := valid.low_sound g at_g
      exact ⟨z,mem_cons_of_mem _ at_z,by rw [low_same g (valid.opened_stack g at_g),index_same z at_z,same],reach⟩
  · intro g at_g x member below last w at_w step
    cases mem_cons.mp member with
    | inl same =>
      -- the last open vertex that is not after the new one is the new one
      subst same
      cases mem_cons.mp at_g with
      | inl new => exact new ▸ least w at_w step
      | inr at_g =>
        have := last x mem_cons_self (Nat.le_refl _)
        have := later g (valid.opened_stack g at_g)
        rw [older g at_g] at *
        omega
    | inr old =>
      cases mem_cons.mp at_g with
      | inl new =>
        subst new
        have := later x old
        rw [index_same x old] at below
        omega
      | inr at_g =>
        have at_g' := valid.opened_stack g at_g
        rw [low_same g at_g']
        cases mem_cons.mp at_w with
        | inl new =>
          have := valid.low_le g at_g
          have := later g at_g'
          rw [new]
          omega
        | inr at_w =>
          rw [older g at_g,index_same x old] at below
          rw [index_same w at_w]
          refine valid.low_complete g at_g x old below (fun g' at_g' before => ?_) w at_w step
          have bound := last g' (mem_cons_of_mem _ at_g')
          rw [older g' at_g',index_same x old,older g at_g] at bound
          exact bound before

theorem Valid.last (valid : Valid edge index low stack (v :: opened) done) : ∀ g ∈ opened, index g < index v :=
  (pairwise_cons.mp valid.opened_sorted).1

theorem Valid.fresh (valid : Valid edge index low stack (v :: opened) done) : v ∉ opened := by
  intro member
  have := valid.last v member
  omega

private theorem Valid.finished_last (valid : Valid edge index low stack (v :: opened) done) (all : ∀ w, edge v w → w ∈ stack ∨ done w) :
    ∀ x ∈ stack, x ∉ opened → ∀ w, edge x w → w ∈ stack ∨ done w := by
  intro x member shut w step
  by_cases same : x = v
  · exact all w (same ▸ step)
  · refine valid.finished x member (fun at_x => ?_) w step
    cases mem_cons.mp at_x with
    | inl here => exact same here
    | inr later => exact shut later

theorem Valid.first_low (valid : Valid edge index low stack [v] done) : low v = index v := by
  obtain ⟨z,at_z,same,-⟩ := valid.low_sound v mem_cons_self
  obtain ⟨g,at_g,below,-⟩ := valid.up z at_z
  have le := valid.low_le v mem_cons_self
  rw [mem_singleton.mp at_g] at below
  omega

theorem Valid.leave {p : V} (valid : Valid edge index low stack (v :: p :: opened) done) {low' : V → ℕ}
    (reaches : low v < index v) (all : ∀ w, edge v w → w ∈ stack ∨ done w) (low_same : ∀ x, x ≠ p → low' x = low x)
    (passed : low' p = min (low p) (low v)) : Valid edge index low' stack (p :: opened) done := by
  have less : ∀ g ∈ p :: opened, low' g ≤ low g := by
    intro g _
    by_cases same : g = p
    · rw [same,passed]
      exact Nat.min_le_left ..
    · rw [low_same g same]
  have at_v : v ∈ stack := valid.opened_stack v mem_cons_self
  have before := valid.last
  have reach_v : ∀ g ∈ p :: opened, ReflTransGen edge g v := fun g at_g =>
    valid.down g (mem_cons_of_mem _ at_g) v at_v (Nat.le_of_lt (before g at_g))
  constructor
  · exact valid.sorted
  · exact (pairwise_cons.mp valid.opened_sorted).2
  · exact fun g at_g => valid.opened_stack g (mem_cons_of_mem _ at_g)
  · exact valid.apart
  · exact valid.closed
  · intro x member shut w step
    exact valid.finished_last all x member shut w step
  · intro x member
    obtain ⟨g,at_g,below,path⟩ := valid.up x member
    cases mem_cons.mp at_g with
    | inr later => exact ⟨g,later,below,path⟩
    | inl here =>
      -- the vertex that is left reaches one below itself, and from there an open one
      subst here
      obtain ⟨z,at_z,same,onward⟩ := valid.low_sound g mem_cons_self
      obtain ⟨g',at_g',below',path'⟩ := valid.up z at_z
      cases mem_cons.mp at_g' with
      | inl again =>
        subst again
        omega
      | inr later => exact ⟨g',later,by omega,path.trans (onward.trans path')⟩
  · exact fun g at_g => valid.down g (mem_cons_of_mem _ at_g)
  · exact fun g at_g => (less g at_g).trans (valid.low_le g (mem_cons_of_mem _ at_g))
  · intro g at_g
    obtain ⟨z,at_z,same,path⟩ := valid.low_sound g (mem_cons_of_mem _ at_g)
    by_cases parent : g = p
    · subst parent
      cases Nat.le_total (low g) (low v) with
      | inl lower => exact ⟨z,at_z,by rw [passed,Nat.min_eq_left lower,same],path⟩
      | inr higher =>
        obtain ⟨z',at_z',same',path'⟩ := valid.low_sound v mem_cons_self
        exact ⟨z',at_z',by rw [passed,Nat.min_eq_right higher,same'],(reach_v g at_g).trans path'⟩
    · exact ⟨z,at_z,by rw [low_same g parent,same],path⟩
  · intro g at_g x member below greatest w at_w step
    by_cases inner : index v ≤ index x
    · -- the region of the vertex that is left becomes part of the region of the one before it
      have top := greatest p mem_cons_self ((Nat.le_of_lt (before p mem_cons_self)).trans inner)
      have parent : g = p := by
        cases mem_cons.mp at_g with
        | inl here => exact here
        | inr later =>
          have := (pairwise_cons.mp (pairwise_cons.mp valid.opened_sorted).2).1 g later
          omega
      have own := valid.low_complete v mem_cons_self x member inner
        (forall_mem_cons.mpr ⟨fun _ => Nat.le_refl _,fun g' at_g' _ => Nat.le_of_lt (before g' at_g')⟩) w at_w step
      rw [parent,passed]
      exact (Nat.min_le_right ..).trans own
    · refine (less g at_g).trans (valid.low_complete g (mem_cons_of_mem _ at_g) x member below ?_ w at_w step)
      exact forall_mem_cons.mpr ⟨fun le => absurd le inner,greatest⟩

variable {above below : List V}

theorem Valid.root_inside (valid : Valid edge index low (above ++ v :: below) opened done) :
    ∀ x, x ∈ above ++ v :: below → (index v ≤ index x ↔ x ∈ above ∨ x = v) := by
  obtain ⟨-,tail,parts⟩ := pairwise_append.mp valid.sorted
  have after : ∀ x ∈ above, index v < index x := fun x at_x => parts x at_x v mem_cons_self
  have before : ∀ x ∈ below, index x < index v := (pairwise_cons.mp tail).1
  intro x member
  constructor
  · intro le
    cases mem_append.mp member with
    | inl high => exact .inl high
    | inr rest =>
      cases mem_cons.mp rest with
      | inl here => exact .inr here
      | inr low =>
        have := before x low
        omega
  · rintro (high | here)
    · exact Nat.le_of_lt (after x high)
    · rw [here]

theorem Valid.region_mem (valid : Valid edge index low (above ++ v :: below) (v :: opened) done) {x : V} (inside : x ∈ above ∨ x = v) :
    x ∈ above ++ v :: below := by
  cases inside with
  | inl high => exact mem_append_left _ high
  | inr here => exact here ▸ valid.opened_stack v mem_cons_self

private theorem Valid.region_closed (valid : Valid edge index low (above ++ v :: below) (v :: opened) done) (root : low v = index v)
    (all : ∀ w, edge v w → w ∈ above ++ v :: below ∨ done w) (x w : V) (inside : (x ∈ above ∨ x = v) ∨ done x) (step : edge x w) :
    (w ∈ above ∨ w = v) ∨ done w := by
  have inner := valid.root_inside
  cases inside with
  | inr ended => exact .inr (valid.closed x w ended step)
  | inl inside =>
    have member := valid.region_mem inside
    have le := (inner x member).mpr inside
    have next : w ∈ above ++ v :: below ∨ done w := by
      refine valid.finished_last all x member (fun later => ?_) w step
      have := valid.last x later
      omega
    cases next with
    | inr ended => exact .inr ended
    | inl at_w =>
      have bound := valid.low_complete v mem_cons_self x member le
        (forall_mem_cons.mpr ⟨fun _ => Nat.le_refl _,fun g' at_g' _ => Nat.le_of_lt (valid.last g' at_g')⟩) w at_w step
      exact .inl ((inner w at_w).mp (root ▸ bound))

theorem Valid.component (valid : Valid edge index low (above ++ v :: below) (v :: opened) done) (root : low v = index v)
    (all : ∀ w, edge v w → w ∈ above ++ v :: below ∨ done w) (y : V) : Mutual edge v y ↔ y ∈ above ∨ y = v := by
  have inner := valid.root_inside
  have at_v := valid.opened_stack v mem_cons_self
  have closed := valid.region_closed root all
  constructor
  · rintro ⟨there,back⟩
    cases stays_inside closed there (.inl (.inr rfl)) with
    | inl inside => exact inside
    | inr ended => exact absurd (stays_inside valid.closed back ended) (valid.apart v at_v)
  · intro inside
    have member := valid.region_mem inside
    refine ⟨valid.down v mem_cons_self y member ((inner y member).mpr inside),?_⟩
    obtain ⟨g,at_g,-,path⟩ := valid.up y member
    cases mem_cons.mp at_g with
    | inl here => exact here ▸ path
    | inr later =>
      have at_stack := valid.opened_stack g at_g
      cases stays_inside closed path (.inl inside) with
      | inl low =>
        have := (inner g at_stack).mpr low
        have := valid.last g later
        omega
      | inr ended => exact absurd ended (valid.apart g at_stack)

theorem Valid.take (valid : Valid edge index low (above ++ v :: below) (v :: opened) done) (root : low v = index v)
    (all : ∀ w, edge v w → w ∈ above ++ v :: below ∨ done w) {low' : V → ℕ} {done' : V → Prop}
    (low_same : ∀ g ∈ opened, low' g = low g) (taken : ∀ x, done' x ↔ (x ∈ above ∨ x = v) ∨ done x) :
    Valid edge index low' below opened done' := by
  obtain ⟨-,tail,-⟩ := pairwise_append.mp valid.sorted
  have before : ∀ x ∈ below, index x < index v := (pairwise_cons.mp tail).1
  have deep : ∀ x ∈ below, x ∈ above ++ v :: below := fun x at_x => mem_append_right _ (mem_cons_of_mem _ at_x)
  have left : ∀ x ∈ above ++ v :: below, x ∈ below ∨ x ∈ above ∨ x = v := by
    intro x member
    simp only [mem_append,mem_cons] at member
    tauto
  have sunk : ∀ x ∈ above ++ v :: below, index x < index v → x ∈ below := by
    intro x member less
    cases left x member with
    | inl low => exact low
    | inr inside =>
      have := (valid.root_inside x member).mpr inside
      omega
  have at_below : ∀ g ∈ opened, g ∈ below := fun g at_g =>
    sunk g (valid.opened_stack g (mem_cons_of_mem _ at_g)) (valid.last g at_g)
  constructor
  · exact (pairwise_cons.mp tail).2
  · exact (pairwise_cons.mp valid.opened_sorted).2
  · exact at_below
  · intro x member complete
    cases (taken x).mp complete with
    | inl inside =>
      have := (valid.root_inside x (deep x member)).mpr inside
      have := before x member
      omega
    | inr ended => exact valid.apart x (deep x member) ended
  · intro x w complete step
    exact (taken w).mpr (valid.region_closed root all x w ((taken x).mp complete) step)
  · intro x member shut w step
    have still : x ∉ v :: opened := by
      intro at_x
      cases mem_cons.mp at_x with
      | inl here =>
        have := before x member
        rw [here] at this
        omega
      | inr later => exact shut later
    cases valid.finished x (deep x member) still w step with
    | inl at_w =>
      cases left w at_w with
      | inl low => exact .inl low
      | inr inside => exact .inr ((taken w).mpr (.inl inside))
    | inr ended => exact .inr ((taken w).mpr (.inr ended))
  · intro x member
    obtain ⟨g,at_g,le,path⟩ := valid.up x (deep x member)
    cases mem_cons.mp at_g with
    | inl here =>
      have := before x member
      rw [here] at le
      omega
    | inr later => exact ⟨g,later,le,path⟩
  · exact fun g at_g x member => valid.down g (mem_cons_of_mem _ at_g) x (deep x member)
  · intro g at_g
    rw [low_same g at_g]
    exact valid.low_le g (mem_cons_of_mem _ at_g)
  · intro g at_g
    obtain ⟨z,at_z,same,path⟩ := valid.low_sound g (mem_cons_of_mem _ at_g)
    have := valid.low_le g (mem_cons_of_mem _ at_g)
    have := valid.last g at_g
    exact ⟨z,sunk z at_z (by omega),by rw [low_same g at_g,same],path⟩
  · intro g at_g x member le greatest w at_w step
    rw [low_same g at_g]
    refine valid.low_complete g (mem_cons_of_mem _ at_g) x (deep x member) le ?_ w (deep w at_w) step
    refine forall_mem_cons.mpr ⟨fun le => ?_,greatest⟩
    have := before x member
    omega

end Search

/-- The complete vertices have the labels below some number, one for each component. -/
structure Labelled (edge : V → V → Prop) (done : V → Prop) (label : V → ℕ) (count : ℕ) : Prop where
  below : ∀ x, done x → label x < count
  same : ∀ x y, done x → done y → (label x = label y ↔ Mutual edge x y)
  used : ∀ c < count, ∃ x, done x ∧ label x = c

theorem Labelled.take {done done' region : V → Prop} {label label' : V → ℕ} {count : ℕ} (labelled : Labelled edge done label count)
    (component : ∀ y, Mutual edge v y ↔ region y) (apart : ∀ x, region x → ¬ done x) (taken : ∀ x, done' x ↔ region x ∨ done x)
    (new : ∀ x, region x → label' x = count) (old : ∀ x, ¬ region x → label' x = label x) :
    Labelled edge done' label' (count + 1) := by
  have kept : ∀ x, done x → label' x = label x := fun x ended => old x fun inside => apart x inside ended
  have foreign : ∀ x y, region x → done y → ¬ Mutual edge x y := fun x y inside ended both =>
    apart y ((component y).mp (((component x).mpr inside).trans both)) ended
  constructor
  · intro x complete
    cases (taken x).mp complete with
    | inl inside => exact (new x inside).symm ▸ Nat.lt_succ_self count
    | inr ended => exact kept x ended ▸ Nat.lt_succ_of_lt (labelled.below x ended)
  · intro x y complete complete'
    cases (taken x).mp complete with
    | inl inside =>
      cases (taken y).mp complete' with
      | inl inside' =>
        have both := ((component x).mpr inside).symm.trans ((component y).mpr inside')
        simp only [new x inside,new y inside',both]
      | inr ended =>
        have less := labelled.below y ended
        rw [new x inside,kept y ended]
        exact ⟨fun equal => by omega,fun both => absurd both (foreign x y inside ended)⟩
    | inr ended =>
      cases (taken y).mp complete' with
      | inl inside =>
        have less := labelled.below x ended
        rw [new y inside,kept x ended]
        exact ⟨fun equal => by omega,fun both => absurd both.symm (foreign y x inside ended)⟩
      | inr ended' =>
        rw [kept x ended,kept y ended']
        exact labelled.same x y ended ended'
  · intro c below
    cases Nat.lt_succ_iff_lt_or_eq.mp below with
    | inl earlier =>
      obtain ⟨x,ended,same⟩ := labelled.used c earlier
      exact ⟨x,(taken x).mpr (.inr ended),(kept x ended).trans same⟩
    | inr last =>
      have inside := (component v).mp (Mutual.refl v)
      exact ⟨v,(taken v).mpr (.inl inside),(new v inside).trans last.symm⟩

end Osrm.StrongComponents
