import Osrm.CellCustomizer

/-!
What `customizer::CellCustomizer` computes as a whole: rows of a cell one after the other, cells of a level in any
order, levels from the lowest to the highest. Then every value is that of a shortest way inside its cell.
-/
namespace Osrm.CustomizedCells
open List
open Typedefs Walks Heap Osrm.Partition EdgeBasedGraph LevelGraph CellStorage Overlay
open CellCustomizer

/-! ### Rows, cells and levels -/

private theorem writeRange_outside {values : ℕ → ℤ} {position : ℕ} {l : List ℤ} {i : ℕ} (outside : i < position ∨ position + l.length ≤ i) :
    writeRange values position l i = values i := by
  induction l generalizing values position with
  | nil => rfl
  | cons value rest ih =>
    rw [length_cons] at outside
    rw [writeRange,ih (by lia)]
    exact Function.update_of_ne (by lia) _ _

private theorem writeRange_inside {values : ℕ → ℤ} {position : ℕ} {l : List ℤ} {j : ℕ} {value : ℤ} (there : l[j]? = some value) :
    writeRange values position l (position + j) = value := by
  induction l generalizing values position j with
  | nil => cases there
  | cons first rest ih =>
    rw [writeRange]
    cases j with
    | zero =>
      obtain rfl : first = value := by simpa using there
      rw [writeRange_outside (.inl (by lia))]
      exact Function.update_self ..
    | succ j =>
      have later : rest[j]? = some value := by simpa using there
      have moved := @ih (Function.update values position first) (position + 1) j later
      rw [← moved]
      congr 1
      lia

section rows
variable {P : MultiLevelPartition} {graph : MultiLevelGraph P} {allowed_nodes : NodeID → Bool} {metric : CellMetric}
  {level : LevelID} {id : CellID} {values values' : Values} {x : NodeID} {row : ℕ}

private theorem writeRow_apart {heap : Heap} {destinations : List NodeID} {row' : ℕ} (apart : row' ≠ row) :
    SameRow destinations.length row' values (writeRow heap destinations (destinations.length * row) values) := by
  intro column below
  have outside : destinations.length * row' + column < destinations.length * row ∨
      destinations.length * row + destinations.length ≤ destinations.length * row' + column := by
    rcases Nat.lt_or_gt_of_ne apart with less | more
    · have step := Nat.mul_le_mul_left destinations.length (Nat.succ_le_of_lt less)
      rw [Nat.mul_succ] at step
      exact .inl (by lia)
    · have step := Nat.mul_le_mul_left destinations.length (Nat.succ_le_of_lt more)
      rw [Nat.mul_succ] at step
      exact .inr (by lia)
  exact ⟨writeRange_outside (by simpa using outside),writeRange_outside (by simpa using outside),
    writeRange_outside (by simpa using outside)⟩

/-- The row of a source that is not allowed is never written. -/
def Skippable (graph : MultiLevelGraph P) (allowed_nodes : NodeID → Bool) (level : LevelID) (id : CellID) (values : Values) : Prop :=
  ∀ x ∈ source_boundary graph level id, allowed_nodes x = false →
    FittingRow graph allowed_nodes level id ((source_boundary graph level id).idxOf x) x values

private theorem skippable_start : Skippable graph allowed_nodes level id (cellValues MakeMetric level id) := by
  intro x _ forbidden column y _
  refine ⟨⟨⟨fun _ => ?_,fun _ => rfl⟩,fun bad => absurd rfl bad⟩,fun bad => absurd rfl bad,fun _ => ⟨rfl,rfl⟩⟩
  rintro ⟨⟨_,may⟩,_⟩
  rw [forbidden] at may
  cases may

private theorem customizeSource_spec (ready : Ready graph allowed_nodes metric level)
    (light : ∀ x y d, Shortest (within (inCell P allowed_nodes level id) (weightArcs graph)) x y d → d < INVALID_EDGE_WEIGHT)
    (source : x ∈ source_boundary graph level id) (skippable : Skippable graph allowed_nodes level id values) :
    ∃ values', (∀ fuel ≥ 2 * graph.number_of_nodes + 1,
        customizeSource graph allowed_nodes fuel metric level id values x = some values') ∧
      FittingRow graph allowed_nodes level id ((source_boundary graph level id).idxOf x) x values' ∧
      ∀ row ≠ (source_boundary graph level id).idxOf x, SameRow (destination_boundary graph level id).length row values values' := by
  cases may : allowed_nodes x with
  | false =>
    refine ⟨values,fun fuel _ => ?_,skippable x source may,fun row _ column _ => ⟨rfl,rfl,rfl⟩⟩
    simp [customizeSource,may]
  | true =>
    have known : inCell P allowed_nodes level id x := ⟨(source_cell source).1,may⟩
    obtain ⟨final,runs,exploring,stopped⟩ := explored_spec ready known (destination_boundary graph level id)
    refine ⟨_,fun fuel enough => by simp only [customizeSource,may,runs fuel enough]; rfl,?_,fun row apart => writeRow_apart apart⟩
    intro column y destination
    have fits := exploring.fitting ready (light x y) source (mem_of_getElem? destination) known
      (mem_of_getElem? destination) stopped
    have written (f : NodeID → ℤ) : ((destination_boundary graph level id).map f)[column]? = some (f y) := by
      rw [getElem?_map,destination]
      rfl
    simp only [writeRow,writeRange_inside (written _)]
    exact fits

private theorem CustomizeCell_spec (ready : Ready graph allowed_nodes metric level)
    (light : ∀ x y d, Shortest (within (inCell P allowed_nodes level id) (weightArcs graph)) x y d → d < INVALID_EDGE_WEIGHT)
    (skippable : Skippable graph allowed_nodes level id (cellValues metric level id)) :
    ∃ fuel values, (∀ more ≥ fuel, CustomizeCell graph allowed_nodes more level metric id = some (setValues metric level id values)) ∧
      ∀ x ∈ source_boundary graph level id,
        FittingRow graph allowed_nodes level id ((source_boundary graph level id).idxOf x) x values := by
  obtain ⟨fuel,values,runs,fitting,_⟩ := Loops.foldlM_total
    (fun done values => (∀ x ∈ done, FittingRow graph allowed_nodes level id ((source_boundary graph level id).idxOf x) x values) ∧
      (∀ x ∈ done, x ∈ source_boundary graph level id) ∧ Skippable graph allowed_nodes level id values)
    (source_boundary graph level id) (fun done values a source ⟨fitting,known,skips⟩ => by
      obtain ⟨values',runs,new,kept⟩ := customizeSource_spec ready light source skips
      have keep (x : NodeID) (source : x ∈ source_boundary graph level id)
          (old : FittingRow graph allowed_nodes level id ((source_boundary graph level id).idxOf x) x values) :
          FittingRow graph allowed_nodes level id ((source_boundary graph level id).idxOf x) x values' := by
        by_cases same : x = a
        · exact same ▸ new
        · exact old.congr (kept _ fun index => same ((idxOf_inj source).mp index))
      exact ⟨_,values',runs,Loops.forall_mem_concat (fun x member => keep x (known x member) (fitting x member)) new,
        Loops.forall_mem_concat known source,fun x source forbidden => keep x source (skips x source forbidden)⟩)
    (cellValues metric level id) ⟨by simp,by simp,skippable⟩
  refine ⟨fuel,values,fun more enough => ?_,fitting⟩
  rw [CustomizeCell,runs more enough]
  rfl

@[simp] theorem cellValues_set {values : Values} : cellValues (setValues metric level id values) level id = values := by
  simp [cellValues,setValues]

private theorem cellValues_other {level' : LevelID} {id' : CellID} (other : level' ≠ level ∨ id' ≠ id) :
    cellValues (setValues metric level id values) level' id' = cellValues metric level' id' := by
  by_cases same : level' = level
  · subst same
    have apart : id' ≠ id := other.resolve_left fun differs => differs rfl
    simp [cellValues,setValues,apart]
  · simp [cellValues,setValues,same]

private theorem fittingCell_of_rows
    (rows : ∀ x ∈ source_boundary graph level id,
      FittingRow graph allowed_nodes level id ((source_boundary graph level id).idxOf x) x (cellValues metric level id)) :
    FittingCell graph allowed_nodes metric level id := by
  intro row x source
  obtain ⟨below,rfl⟩ := List.getElem?_eq_some_iff.mp source
  have fitting := rows _ (getElem_mem below)
  rwa [source_boundary_nodup.idxOf_getElem] at fitting

private theorem CustomizeLevel_spec {order : LevelID → List CellID} (ready : Ready graph allowed_nodes metric level)
    (light : ∀ id x y d, Shortest (within (inCell P allowed_nodes level id) (weightArcs graph)) x y d → d < INVALID_EDGE_WEIGHT)
    (skippable : ∀ id, Skippable graph allowed_nodes level id (cellValues metric level id)) :
    ∃ fuel metric', (∀ more ≥ fuel, CustomizeLevel graph allowed_nodes more order metric level = some metric') ∧
      (∀ id ∈ order level, FittingCell graph allowed_nodes metric' level id) ∧
      ∀ level' ≠ level, ∀ id, cellValues metric' level' id = cellValues metric level' id := by
  obtain ⟨fuel,metric',runs,fitting,_,others⟩ := Loops.foldlM_total
    (fun done metric' => (∀ id ∈ done, FittingCell graph allowed_nodes metric' level id) ∧
      (∀ id, Skippable graph allowed_nodes level id (cellValues metric' level id)) ∧
      ∀ level' ≠ level, ∀ id, cellValues metric' level' id = cellValues metric level' id)
    (order level) (fun done metric₁ id _ ⟨fitting,skips,others⟩ => by
      have low := ready.low
      have ready₁ : Ready graph allowed_nodes metric₁ level := ⟨ready.mirrored,ready.positive,ready.low,ready.high,
        fun above id' => (ready.below above id').congr (others (level - 1) (by lia) id')⟩
      obtain ⟨fuel,values,runs,rows⟩ := CustomizeCell_spec ready₁ (light id) (skips id)
      have new : FittingCell graph allowed_nodes (setValues metric₁ level id values) level id :=
        fittingCell_of_rows (by simpa using rows)
      refine ⟨fuel,_,runs,?_,?_,?_⟩
      · refine Loops.forall_mem_concat (fun id' member => ?_) new
        by_cases same : id' = id
        · exact same ▸ new
        · exact (fitting id' member).congr (cellValues_other (.inr same))
      · intro id'
        by_cases same : id' = id
        · subst same
          rw [cellValues_set]
          exact fun x source _ => rows x source
        · rw [cellValues_other (.inr same)]
          exact skips id'
      · intro level' apart id'
        rw [cellValues_other (.inl apart)]
        exact others level' apart id') metric ⟨by simp,skippable,fun _ _ _ => rfl⟩
  exact ⟨fuel,metric',runs,fitting,others⟩

theorem levels_spec {order : LevelID → List CellID} (mirrored : graph.Mirrored) (positive : Positive (weightArcs graph))
    (nodes : graph.number_of_nodes ≤ P.number_of_nodes)
    (every : ∀ level, 1 ≤ level → level < P.GetNumberOfLevels → ∀ id < P.GetNumberOfCells level, id ∈ order level)
    (light : ∀ level, 1 ≤ level → level < P.GetNumberOfLevels → ∀ id x y d,
      Shortest (within (inCell P allowed_nodes level id) (weightArcs graph)) x y d → d < INVALID_EDGE_WEIGHT)
    (count : ℕ) (few : count < P.GetNumberOfLevels) :
    ∃ fuel metric, (∀ more ≥ fuel, (List.range' 1 count).foldlM (CustomizeLevel graph allowed_nodes more order) MakeMetric = some metric) ∧
      (∀ level, 1 ≤ level → level ≤ count → FittingLevel graph allowed_nodes metric level) ∧
      ∀ level > count, ∀ id, Skippable graph allowed_nodes level id (cellValues metric level id) := by
  induction count with
  | zero => exact ⟨0,MakeMetric,fun _ _ => rfl,fun level low high => by lia,fun level _ id => skippable_start⟩
  | succ count ih =>
    obtain ⟨fuel,metric,runs,fitting,skippable⟩ := ih (by lia)
    have ready : Ready graph allowed_nodes metric (count + 1) :=
      ⟨mirrored,positive,by lia,few,fun above => fitting count (by lia) le_rfl⟩
    obtain ⟨fuel',metric',runs',cells,others⟩ :=
      CustomizeLevel_spec ready (light (count + 1) (by lia) few) (skippable (count + 1) (by lia))
    refine ⟨max fuel fuel',metric',fun more enough => ?_,fun level low high id => ?_,fun level above id => ?_⟩
    · rw [range'_1_concat,foldlM_append,runs more (by lia)]
      rw [Nat.add_comm 1 count]
      simpa using runs' more (by lia)
    · rcases Nat.lt_or_ge count level with last | earlier
      · obtain rfl : level = count + 1 := by lia
        intro row x source
        have member := mem_of_getElem? source
        have known : id ∈ order (count + 1) := by
          rw [← (source_cell member).1]
          exact every _ low few _ (P.counted _ low few x ((source_lt member).trans_le nodes))
        exact cells id known row x source
      · exact (fitting level low earlier id).congr (others level (by lia) id)
    · rw [others level (by lia)]
      exact skippable level (by lia) id

end rows

/-- Once all cells are customized, each level in any order, the values are those of shortest ways inside the cells. Sums
    are taken to fit 32 bits, and distances are exact. -/
theorem Customize_exact {P : MultiLevelPartition} (graph : MultiLevelGraph P) (allowed_nodes : NodeID → Bool)
    (order : LevelID → List CellID) (mirrored : graph.Mirrored) (positive : Positive (weightArcs graph))
    (nodes : graph.number_of_nodes ≤ P.number_of_nodes)
    (every : ∀ level, 1 ≤ level → level < P.GetNumberOfLevels → ∀ id < P.GetNumberOfCells level, id ∈ order level)
    (light : ∀ level, 1 ≤ level → level < P.GetNumberOfLevels → ∀ id x y d,
      Shortest (within (inCell P allowed_nodes level id) (weightArcs graph)) x y d → d < INVALID_EDGE_WEIGHT) :
    ∃ fuel metric, (∀ more ≥ fuel, Customize graph allowed_nodes more order MakeMetric = some metric) ∧
      ∀ level, 1 ≤ level → level < P.GetNumberOfLevels → FittingLevel graph allowed_nodes metric level := by
  have some_level := P.highest_lt (x := 0) (y := 0)
  obtain ⟨fuel,metric,runs,fitting,_⟩ := levels_spec mirrored positive nodes every light (P.GetNumberOfLevels - 1) (by lia)
  exact ⟨fuel,metric,runs,fun level low high => fitting level low (by lia)⟩

def street (source target : NodeID) (forward : Bool) : EdgeBasedEdge := ⟨source,target,⟨0,1,1,1,forward,!forward⟩⟩

def streetGraph : MultiLevelGraph rowPartition where
  number_of_nodes := 4
  edges := [street 0 1 true,street 1 2 true,street 1 0 false,street 2 1 false,street 2 3 true,street 3 2 false]
  sorted := by decide +kernel
  bounded := by decide

private theorem streetGraph_arcs {direction : Direction} {weigh : EdgeBasedEdge → ℤ} {c : ℤ} (same : ∀ a b forward, weigh (street a b forward) = c)
    {u v : NodeID} {w : ℤ} : streetGraph.arcs weigh direction u v w ↔
      w = c ∧ match direction with | .FORWARD => u < 3 ∧ v = u + 1 | .REVERSE => v < 3 ∧ u = v + 1 := by
  rw [streetGraph.arcs_iff]
  constructor
  · rintro ⟨e,member,rfl,rfl,usable,rfl⟩
    simp only [streetGraph,mem_cons,not_mem_nil,or_false] at member
    cases direction <;> rcases member with rfl | rfl | rfl | rfl | rfl | rfl <;>
      exact ⟨same _ _ _,by revert usable; simp [street,EdgeData.usable]⟩
  · rintro ⟨rfl,near⟩
    cases direction with
    | FORWARD =>
      obtain ⟨below,rfl⟩ := near
      refine ⟨street u (u + 1) true,?_,rfl,rfl,rfl,same _ _ _⟩
      interval_cases u <;> simp [streetGraph]
    | REVERSE =>
      obtain ⟨below,rfl⟩ := near
      refine ⟨street (v + 1) v false,?_,rfl,rfl,rfl,same _ _ _⟩
      interval_cases v <;> simp [streetGraph]

/-- The middle cell of the way, customized after the last one. -/
theorem Customize_exact_row : ∃ fuel metric, (∀ more ≥ fuel, Customize streetGraph (fun _ => true) more (fun _ => [2,0,1]) MakeMetric =
    some metric) ∧ FittingLevel streetGraph (fun _ => true) metric 1 := by
  have arcs {u v : NodeID} {w : ℤ} (arc : weightArcs streetGraph u v w) : w = 1 ∧ u < 3 ∧ v = u + 1 :=
    (streetGraph_arcs fun _ _ _ => rfl).mp arc
  have along {S : NodeID → Prop} {x y : NodeID} {n : ℤ} (walk : Walk (within S (weightArcs streetGraph)) x y n) :
      (y : ℤ) = x + n ∧ (x = y ∨ y < 4) := by
    induction walk with
    | nil => simp
    | cons arc _ ih => have := arcs arc.2.2; lia
  have one_level (level : LevelID) (low : 1 ≤ level) (high : level < rowPartition.GetNumberOfLevels) : level = 1 := by
    have : level < 2 := high
    lia
  obtain ⟨fuel,metric,runs,fitting⟩ := Customize_exact streetGraph (fun _ => true) (fun _ => [2,0,1])
    (fun u v => exists_congr fun w => by rw [streetGraph_arcs fun _ _ _ => rfl,streetGraph_arcs fun _ _ _ => rfl])
    (fun u v w arc => by have := arcs arc; lia) (by decide) (fun level low high => by rw [one_level level low high]; decide)
    fun level _ _ id x y d shortest => by have := along shortest.1; simp only [INVALID_EDGE_WEIGHT]; lia
  exact ⟨fuel,metric,runs,fitting 1 (by decide) (by decide)⟩

end Osrm.CustomizedCells
