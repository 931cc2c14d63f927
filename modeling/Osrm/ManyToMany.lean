import Osrm.Typedefs
import Osrm.Loops

/-!
What the table searches share: the buckets that the searches from the targets leave at
the nodes they settle, their order and lookup, and the tables that are filled in.
-/
namespace Osrm.ManyToMany
open List
open Typedefs

structure NodeBucket where
  middle_node : NodeID
  parent_node : NodeID
  column_index : ℕ
  from_clique_arc : Bool
  weight : EdgeWeight
  duration : EdgeDuration
  distance : EdgeDistance
  deriving DecidableEq, Repr

/-- `NodeBucket::operator<`. -/
def NodeBucket.before (lhs rhs : NodeBucket) : Bool :=
  lhs.middle_node < rhs.middle_node || (lhs.middle_node == rhs.middle_node && lhs.column_index < rhs.column_index)

/-- What `std::sort` promises; it may arrange equal buckets freely. -/
structure Sorts (sort : List NodeBucket → List NodeBucket) : Prop where
  perm : ∀ l, (sort l).Perm l
  sorted : ∀ l, (sort l).Pairwise fun a b => b.before a = false

/-- `std::equal_range` with `NodeBucket::Compare`: what is neither before nor behind the node. -/
def equalRange (buckets : List NodeBucket) (node : NodeID) : List NodeBucket :=
  (buckets.dropWhile fun b => b.middle_node < node).takeWhile fun b => !(node < b.middle_node)

/-- In sorted buckets the range has those of the node. -/
theorem mem_equalRange {buckets : List NodeBucket} {node : NodeID} {b : NodeBucket}
    (sorted : buckets.Pairwise fun a b => b.before a = false) :
    b ∈ equalRange buckets node ↔ b ∈ buckets ∧ b.middle_node = node := by
  have sortedNodes : buckets.Pairwise fun a b => a.middle_node ≤ b.middle_node := by
    refine sorted.imp fun {a b} later => ?_
    simp only [NodeBucket.before,Bool.or_eq_false_iff,decide_eq_false_iff_not] at later
    exact Nat.le_of_not_lt later.1
  have matching : ∀ {l : List NodeBucket}, l.Pairwise (fun a b => a.middle_node ≤ b.middle_node) →
      (∀ a ∈ l, node ≤ a.middle_node) →
      (b ∈ l.takeWhile (fun b => !(node < b.middle_node)) ↔ b ∈ l ∧ b.middle_node = node) := by
    intro l
    induction l with
    | nil => simp
    | cons a rest ih =>
      intro ordered low
      obtain ⟨first,tail⟩ := pairwise_cons.mp ordered
      have aLow := low a (by simp)
      by_cases behind : node < a.middle_node
      · have none_left : b ∈ a :: rest → b.middle_node ≠ node := by
          intro member
          rcases mem_cons.mp member with rfl | later
          · exact behind.ne'
          · exact (behind.trans_le (first b later)).ne'
        simp only [takeWhile_cons,behind,decide_true,Bool.not_true]
        simpa using none_left
      · have here : a.middle_node = node := by lia
        rw [takeWhile_cons_of_pos (by simpa using behind),mem_cons,mem_cons,
          ih tail fun c inside => low c (mem_cons_of_mem _ inside)]
        constructor
        · rintro (rfl | ⟨later,same⟩)
          · exact ⟨.inl rfl,here⟩
          · exact ⟨.inr later,same⟩
        · rintro ⟨rfl | later,same⟩
          · exact .inl rfl
          · exact .inr ⟨later,same⟩
  unfold equalRange
  induction buckets with
  | nil => simp
  | cons a rest ih =>
    by_cases ahead : a.middle_node < node
    · rw [dropWhile_cons_of_pos (by simpa using ahead)]
      refine (ih sorted.tail sortedNodes.tail).trans ⟨fun found => ⟨mem_cons_of_mem _ found.1,found.2⟩,?_⟩
      rintro ⟨member,same⟩
      rcases mem_cons.mp member with rfl | later
      · exact absurd same ahead.ne
      · exact ⟨later,same⟩
    · rw [dropWhile_cons_of_neg (by simpa using ahead)]
      refine matching sortedNodes fun c member => ?_
      rcases mem_cons.mp member with rfl | later
      · exact Nat.le_of_not_lt ahead
      · exact (Nat.le_of_not_lt ahead).trans ((pairwise_cons.mp sortedNodes).1 c later)

structure Tables where
  weights_table : List EdgeWeight
  durations_table : List EdgeDuration
  distances_table : List EdgeDistance
  middle_nodes_table : List NodeID
  deriving DecidableEq, Repr

/-- The tables before anything was found; without `calculate_distance` there is no table of distances. -/
def Tables.start (number_of_entries : ℕ) (calculate_distance : Bool) : Tables :=
  ⟨replicate number_of_entries INVALID_EDGE_WEIGHT,replicate number_of_entries MAXIMAL_EDGE_DURATION,
    replicate (if calculate_distance then number_of_entries else 0) MAXIMAL_EDGE_DISTANCE,
    replicate number_of_entries SPECIAL_NODEID⟩

/-- Writing an entry of every table; a write to a table of distances that is not there is lost. -/
def Tables.write (tables : Tables) (index : ℕ) (weight : EdgeWeight) (duration : EdgeDuration)
    (distance : EdgeDistance) (middle : NodeID) : Tables :=
  ⟨tables.weights_table.set index weight,tables.durations_table.set index duration,
    tables.distances_table.set index distance,tables.middle_nodes_table.set index middle⟩

def Tables.weight (tables : Tables) (index : ℕ) : EdgeWeight := tables.weights_table.getD index INVALID_EDGE_WEIGHT
def Tables.duration (tables : Tables) (index : ℕ) : EdgeDuration := tables.durations_table.getD index 0
def Tables.middle (tables : Tables) (index : ℕ) : NodeID := tables.middle_nodes_table.getD index SPECIAL_NODEID
/-- The distance of an entry; without a table of distances this is the variable `nulldistance`. -/
def Tables.distance (tables : Tables) (index : ℕ) : EdgeDistance := tables.distances_table.getD index 0

@[simp] theorem Tables.length_write (tables : Tables) (i : ℕ) (w : EdgeWeight) (d : EdgeDuration) (x : EdgeDistance)
    (m : NodeID) : (tables.write i w d x m).weights_table.length = tables.weights_table.length := by
  simp [Tables.write]

theorem Tables.weight_write (tables : Tables) {i : ℕ} (inside : i < tables.weights_table.length) (w : EdgeWeight)
    (d : EdgeDuration) (x : EdgeDistance) (m : NodeID) : (tables.write i w d x m).weight i = w := by
  simp [Tables.write,Tables.weight,inside]

theorem Tables.weight_write_ne (tables : Tables) {i j : ℕ} (other : i ≠ j) (w : EdgeWeight) (d : EdgeDuration)
    (x : EdgeDistance) (m : NodeID) : (tables.write i w d x m).weight j = tables.weight j := by
  simp [Tables.write,Tables.weight,getElem?_set_ne other]

/-- `new` is `old` or one of the possible values, and no more than `old` and than the promised values. -/
structure Lowered (old new : ℤ) (Possible Promised : ℤ → Prop) : Prop where
  le : new ≤ old
  origin : new = old ∨ Possible new
  bound : ∀ v, Promised v → new ≤ v

theorem Lowered.refl (old : ℤ) {Possible Promised : ℤ → Prop} (none_there : ∀ v, ¬ Promised v) :
    Lowered old old Possible Promised :=
  ⟨le_rfl,.inl rfl,fun v offer => absurd offer (none_there v)⟩

theorem Lowered.snoc {α : Type} {old middle new : ℤ} {possible promised : α → ℤ → Prop} {done : List α} {a : α}
    (before : Lowered old middle (fun v => ∃ a ∈ done, possible a v) (fun v => ∃ a ∈ done, promised a v))
    (step : Lowered middle new (possible a) (promised a)) :
    Lowered old new (fun v => ∃ b ∈ done ++ [a], possible b v) (fun v => ∃ b ∈ done ++ [a], promised b v) := by
  refine ⟨step.le.trans before.le,?_,?_⟩
  · rcases step.origin with same | here
    · rw [same]
      refine before.origin.imp_right ?_
      rintro ⟨b,inside,offer⟩
      exact ⟨b,mem_append_left _ inside,offer⟩
    · exact .inr ⟨a,by simp,here⟩
  · rintro v ⟨b,inside,offer⟩
    rcases mem_append.mp inside with earlier | here
    · exact step.le.trans (before.bound v ⟨b,earlier,offer⟩)
    · cases mem_singleton.mp here
      exact step.bound v offer

theorem foldl_lowered {α : Type} (offer : α → ℤ → Prop) {step : Tables → α → Tables} {i : ℕ} (l : List α)
    (tables : Tables) (body : ∀ t : Tables, t.weights_table.length = tables.weights_table.length → ∀ a ∈ l,
      (step t a).weights_table.length = t.weights_table.length ∧
        Lowered (t.weight i) ((step t a).weight i) (offer a) (offer a)) :
    (l.foldl step tables).weights_table.length = tables.weights_table.length ∧
      Lowered (tables.weight i) ((l.foldl step tables).weight i) (fun v => ∃ a ∈ l, offer a v)
        (fun v => ∃ a ∈ l, offer a v) := by
  refine Loops.foldl_invariant (fun done (t : Tables) => t.weights_table.length = tables.weights_table.length ∧
    Lowered (tables.weight i) (t.weight i) (fun v => ∃ a ∈ done, offer a v) (fun v => ∃ a ∈ done, offer a v))
    l ?_ tables ⟨rfl,.refl _ (by simp)⟩
  rintro done t a member ⟨size,before⟩
  obtain ⟨same,lowered⟩ := body t size a member
  exact ⟨same.trans size,before.snoc lowered⟩

end Osrm.ManyToMany
