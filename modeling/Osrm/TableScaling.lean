import Osrm.Rounding
import Osrm.Typedefs
import Mathlib.NumberTheory.LucasLehmer

/-!
The last part of `TablePlugin::HandleRequest`: missing entries are estimated from the distance as the crow flies, and
durations are scaled. Whether one leaves the range is foreseen from a quotient of integers.
-/
namespace Osrm.TableScaling
open List
open Typedefs Rounding

def INVALID_FALLBACK_SPEED : ℚ := MAXIMAL_EDGE_DISTANCE

inductive FallbackCoordinateType
  | Input
  | Snapped
  deriving DecidableEq, Repr

structure TableParameters where
  sources : List ℕ
  destinations : List ℕ
  fallback_speed : ℚ
  fallback_coordinate_type : FallbackCoordinateType
  scale_factor : ℚ

/-- The locations of the first of the candidates for a coordinate. -/
structure PhantomNodeCandidates (Coordinate : Type) where
  input_location : Coordinate
  location : Coordinate

/-- `result_tables_pair` and `estimated_pairs`. -/
structure Tables where
  durations : List EdgeDuration
  distances : List ℚ
  estimated_pairs : List (ℕ × ℕ)

section Scan
variable {Coordinate : Type} (greatCircleDistance : Coordinate → Coordinate → ℚ)
  (snapped_phantoms : List (PhantomNodeCandidates Coordinate)) (unset : PhantomNodeCandidates Coordinate)
  (params : TableParameters) (num_sources num_destinations : ℕ)

def distanceEstimate (row column : ℕ) : ℚ :=
  let source := snapped_phantoms.getD (if params.sources.isEmpty then row else params.sources.getD row 0) unset
  let destination :=
    snapped_phantoms.getD (if params.destinations.isEmpty then column else params.destinations.getD column 0) unset
  match params.fallback_coordinate_type with
  | .Input => greatCircleDistance source.input_location destination.input_location
  | .Snapped => greatCircleDistance source.location destination.location

/-- The first half of the body of the loop. -/
def estimateCell (tables : Tables) (row column : ℕ) : Tables :=
  let table_index := row * num_destinations + column
  if params.fallback_speed ≠ INVALID_FALLBACK_SPEED ∧ params.fallback_speed > 0 ∧
      tables.durations.getD table_index 0 = MAXIMAL_EDGE_DURATION then
    let distance_estimate := distanceEstimate greatCircleDistance snapped_phantoms unset params row column
    { durations := tables.durations.set table_index (truncated (distance_estimate / params.fallback_speed))
      distances := if tables.distances.isEmpty then tables.distances else tables.distances.set table_index distance_estimate
      estimated_pairs := tables.estimated_pairs ++ [(row,column)] }
  else tables

/-- The second half. -/
def scaleCell (tables : Tables) (row column : ℕ) : Tables :=
  let table_index := row * num_destinations + column
  let duration := tables.durations.getD table_index 0
  if params.scale_factor > 0 ∧ params.scale_factor ≠ 1 ∧ duration ≠ MAXIMAL_EDGE_DURATION ∧ duration ≠ 0 then
    let diff := MAXIMAL_EDGE_DURATION.tdiv duration
    if params.scale_factor ≥ diff then
      { tables with durations := tables.durations.set table_index (MAXIMAL_EDGE_DURATION - 1) }
    else
      { tables with durations := tables.durations.set table_index (lround (duration * params.scale_factor)) }
  else tables

def scanCell (tables : Tables) (row column : ℕ) : Tables :=
  scaleCell params num_destinations
    (estimateCell greatCircleDistance snapped_phantoms unset params num_destinations tables row column) row column
def scanRow (tables : Tables) (row : ℕ) : Tables :=
  (List.range num_destinations).foldl (fun tables column =>
    scanCell greatCircleDistance snapped_phantoms unset params num_destinations tables row column) tables

/-- From the results of the search on. -/
def scanTable (tables : Tables) : Tables :=
  if params.fallback_speed ≠ INVALID_FALLBACK_SPEED ∨ params.scale_factor ≠ 1 then
    (List.range num_sources).foldl
      (scanRow greatCircleDistance snapped_phantoms unset params num_destinations) tables
  else tables

end Scan

/-- The duration an entry is scaled to. -/
def scaled (scale_factor : ℚ) (duration : EdgeDuration) : EdgeDuration :=
  if scale_factor > 0 ∧ scale_factor ≠ 1 ∧ duration ≠ MAXIMAL_EDGE_DURATION ∧ duration ≠ 0 then
    if scale_factor ≥ MAXIMAL_EDGE_DURATION.tdiv duration then MAXIMAL_EDGE_DURATION - 1
    else lround (duration * scale_factor)
  else duration

def saturated (scale_factor : ℚ) (duration : EdgeDuration) : EdgeDuration :=
  if duration = MAXIMAL_EDGE_DURATION then duration
  else min (lround (duration * scale_factor)) (MAXIMAL_EDGE_DURATION - 1)

/-- The quotient is reached by the factor although the product stays in the range, or the factor of the duration 1 is within
    half of the mark. -/
def Misjudged (scale_factor : ℚ) (duration : EdgeDuration) : Prop :=
  duration ≠ 0 ∧ duration ≠ MAXIMAL_EDGE_DURATION ∧ scale_factor ≠ 1 ∧
    (((MAXIMAL_EDGE_DURATION / duration : ℤ) : ℚ) ≤ scale_factor ∧ duration * scale_factor < MAXIMAL_EDGE_DURATION - 3 / 2 ∨
      duration = 1 ∧ MAXIMAL_EDGE_DURATION - 1 / 2 ≤ scale_factor ∧ scale_factor < MAXIMAL_EDGE_DURATION)

section Cells
variable {α : Type} (f : ℕ → ℕ → α → α) (columns : ℕ)

private theorem set_getD (g : α → α) (l : List α) (i : ℕ) (unset : α) : l.set i (g (l.getD i unset)) = l.modify i g := by
  refine ext_getElem? fun j => ?_
  rw [getElem?_set,getElem?_modify]
  by_cases inside : i < l.length
  · by_cases same : i = j
    · subst same
      simp [inside]
    · simp [same]
  · have outside : l[i]? = none := getElem?_eq_none (by omega)
    by_cases same : i = j
    · subst same
      simp [inside]
    · simp [same]

private theorem set_getD_self (l : List α) (i : ℕ) (unset : α) : l.set i (l.getD i unset) = l := by
  have same := set_getD id l i unset
  rwa [modify_id] at same

private def modifyRow (n : ℕ) (l : List α) (row : ℕ) : List α :=
  (List.range n).foldl (fun l column => l.modify (row * columns + column) (f row column)) l

private theorem modifyRow_getElem? (n : ℕ) (l : List α) (row i : ℕ) : (modifyRow f columns n l row)[i]? =
      if row * columns ≤ i ∧ i < row * columns + n then l[i]?.map (f row (i - row * columns)) else l[i]? := by
  induction n with
  | zero => simp [modifyRow]
  | succ n ih =>
    rw [modifyRow,range_succ,foldl_append,foldl_cons,foldl_nil,← modifyRow,getElem?_modify,ih]
    by_cases last : row * columns + n = i
    · subst last
      simp
    · simp only [last,if_false,Option.map_eq_map,Option.map_id']
      exact if_congr (by omega) rfl rfl

private theorem foldl_modify_cells (rows : ℕ) (l : List α) (i : ℕ) :
    ((List.range rows).foldl (modifyRow f columns columns) l)[i]? =
      if i < rows * columns then l[i]?.map (f (i / columns) (i % columns)) else l[i]? := by
  induction rows with
  | zero => simp
  | succ rows ih =>
    rw [range_succ,foldl_append,foldl_cons,foldl_nil,modifyRow_getElem?,ih,add_mul,one_mul]
    by_cases new : rows * columns ≤ i ∧ i < rows * columns + columns
    · obtain ⟨low,high⟩ := new
      have quotient : i / columns = rows := Nat.div_eq_of_lt_le low (by rwa [add_mul,one_mul])
      have division := Nat.div_add_mod i columns
      rw [quotient,mul_comm] at division
      rw [if_pos ⟨low,high⟩,if_neg (by omega),if_pos high,quotient,show i - rows * columns = i % columns by omega]
    · rw [if_neg new]
      exact if_congr (by omega) rfl rfl

end Cells

section Scan
variable {Coordinate : Type} (greatCircleDistance : Coordinate → Coordinate → ℚ)
  (snapped_phantoms : List (PhantomNodeCandidates Coordinate)) (unset : PhantomNodeCandidates Coordinate)
  (params : TableParameters) (num_sources num_destinations : ℕ)

/-- The entry that is scaled: an estimate where the search has found nothing and estimates are asked for. -/
def estimated (row column : ℕ) (duration : EdgeDuration) : EdgeDuration :=
  if params.fallback_speed ≠ INVALID_FALLBACK_SPEED ∧ params.fallback_speed > 0 ∧ duration = MAXIMAL_EDGE_DURATION then
    truncated (distanceEstimate greatCircleDistance snapped_phantoms unset params row column / params.fallback_speed)
  else duration

def estimatedTable (durations : List EdgeDuration) : List EdgeDuration :=
  durations.mapIdx fun i duration => estimated greatCircleDistance snapped_phantoms unset params (i / num_destinations)
    (i % num_destinations) duration

private theorem estimateCell_durations (tables : Tables) (row column : ℕ) :
    (estimateCell greatCircleDistance snapped_phantoms unset params num_destinations tables row column).durations =
      tables.durations.modify (row * num_destinations + column)
        (estimated greatCircleDistance snapped_phantoms unset params row column) := by
  rw [← set_getD _ _ _ 0]
  by_cases missing : params.fallback_speed ≠ INVALID_FALLBACK_SPEED ∧ params.fallback_speed > 0 ∧
      tables.durations.getD (row * num_destinations + column) 0 = MAXIMAL_EDGE_DURATION
  · rw [estimateCell,if_pos missing,estimated,if_pos missing]
  · rw [estimateCell,if_neg missing,estimated,if_neg missing,set_getD_self]

private theorem scaleCell_durations (tables : Tables) (row column : ℕ) :
    (scaleCell params num_destinations tables row column).durations =
      tables.durations.modify (row * num_destinations + column) (scaled params.scale_factor) := by
  rw [← set_getD _ _ _ 0,scaleCell,scaled]
  dsimp only
  split_ifs
  · rfl
  · rfl
  · rw [set_getD_self]

private def cell (row column : ℕ) (duration : EdgeDuration) : EdgeDuration :=
  scaled params.scale_factor (estimated greatCircleDistance snapped_phantoms unset params row column duration)

private theorem scanCell_durations (tables : Tables) (row column : ℕ) :
    (scanCell greatCircleDistance snapped_phantoms unset params num_destinations tables row column).durations =
      tables.durations.modify (row * num_destinations + column)
        (cell greatCircleDistance snapped_phantoms unset params row column) := by
  rw [scanCell,scaleCell_durations,estimateCell_durations,modify_modify_eq]
  rfl

private theorem scanRow_durations (tables : Tables) (row : ℕ) :
    (scanRow greatCircleDistance snapped_phantoms unset params num_destinations tables row).durations =
      modifyRow (cell greatCircleDistance snapped_phantoms unset params) num_destinations num_destinations tables.durations row :=
  (foldl_hom Tables.durations fun _ _ => (scanCell_durations ..).symm).symm

private theorem scanTable_durations {tables : Tables} (size : tables.durations.length = num_sources * num_destinations) :
    (scanTable greatCircleDistance snapped_phantoms unset params num_sources num_destinations tables).durations =
      (estimatedTable greatCircleDistance snapped_phantoms unset params num_destinations tables.durations).map
        (scaled params.scale_factor) := by
  by_cases asked : params.fallback_speed ≠ INVALID_FALLBACK_SPEED ∨ params.scale_factor ≠ 1
  · rw [scanTable,if_pos asked,← foldl_hom Tables.durations fun _ _ => (scanRow_durations ..).symm]
    refine ext_getElem? fun i => ?_
    rw [foldl_modify_cells,getElem?_map,estimatedTable,getElem?_mapIdx]
    split_ifs with inside
    · rw [Option.map_map]
      rfl
    · simp [getElem?_eq_none (show tables.durations.length ≤ i by omega)]
  · push Not at asked
    have same : scaled 1 = id := funext fun duration => by simp [scaled]
    rw [scanTable,if_neg (by simp [asked]),asked.2,same,map_id]
    refine ext_getElem? fun i => ?_
    simp [estimatedTable,estimated,asked]

end Scan

section Entry
variable {scale_factor : ℚ} {duration : EdgeDuration}

private theorem maximal_prime : Nat.Prime 2147483647 := lucas_lehmer_sufficiency 31 (by simp) (by norm_num)

private theorem quotient_below (low : 1 < duration) (high : duration < MAXIMAL_EDGE_DURATION) :
    duration * (MAXIMAL_EDGE_DURATION / duration) ≤ MAXIMAL_EDGE_DURATION - 1 := by
  have division := Int.mul_ediv_add_emod MAXIMAL_EDGE_DURATION duration
  have remainder := Int.emod_nonneg MAXIMAL_EDGE_DURATION (show duration ≠ 0 by lia)
  have rest : MAXIMAL_EDGE_DURATION % duration ≠ 0 := by
    intro exact
    have divides : duration.toNat ∣ 2147483647 := by
      have := Int.dvd_of_emod_eq_zero exact
      rw [MAXIMAL_EDGE_DURATION] at this
      zify
      rwa [Int.toNat_of_nonneg (by lia)]
    rw [MAXIMAL_EDGE_DURATION] at high
    rcases (Nat.dvd_prime maximal_prime).mp divides with one | all <;> lia
  lia

private theorem scaled_eq_of_reached (low : 0 < duration) (high : duration < MAXIMAL_EDGE_DURATION) (positive : 0 < scale_factor)
    (other : scale_factor ≠ 1) (reached : ((MAXIMAL_EDGE_DURATION / duration : ℤ) : ℚ) ≤ scale_factor) :
    scaled scale_factor duration = saturated scale_factor duration ↔
      (MAXIMAL_EDGE_DURATION : ℚ) - 3 / 2 ≤ duration * scale_factor := by
  have product : 0 ≤ (duration : ℚ) * scale_factor := mul_nonneg (by exact_mod_cast low.le) positive.le
  have quotient : scale_factor ≥ (MAXIMAL_EDGE_DURATION.tdiv duration : ℤ) := by
    rwa [Int.tdiv_eq_ediv_of_nonneg (by decide)]
  rw [scaled,if_pos ⟨positive,other,high.ne,low.ne'⟩,if_pos quotient,saturated,if_neg high.ne,eq_comm,min_eq_right_iff,
    le_lround_iff product]
  push_cast
  constructor <;> intro bound <;> linarith

private theorem scaled_eq_of_below (low : 0 < duration) (high : duration < MAXIMAL_EDGE_DURATION) (positive : 0 < scale_factor)
    (other : scale_factor ≠ 1) (below : scale_factor < ((MAXIMAL_EDGE_DURATION / duration : ℤ) : ℚ)) :
    scaled scale_factor duration = saturated scale_factor duration ↔
      duration * scale_factor < (MAXIMAL_EDGE_DURATION : ℚ) - 1 / 2 := by
  have product : 0 ≤ (duration : ℚ) * scale_factor := mul_nonneg (by exact_mod_cast low.le) positive.le
  have quotient : ¬scale_factor ≥ (MAXIMAL_EDGE_DURATION.tdiv duration : ℤ) := by
    rwa [Int.tdiv_eq_ediv_of_nonneg (by decide),ge_iff_le,not_le]
  rw [scaled,if_pos ⟨positive,other,high.ne,low.ne'⟩,if_neg quotient,saturated,if_neg high.ne,eq_comm,min_eq_left_iff,
    Int.le_sub_one_iff,lround_lt_iff product]
  constructor <;> intro bound <;> linarith

private theorem scaled_eq_iff (low : 0 ≤ duration) (high : duration ≤ MAXIMAL_EDGE_DURATION) (positive : 0 < scale_factor) :
    scaled scale_factor duration = saturated scale_factor duration ↔ ¬Misjudged scale_factor duration := by
  rcases eq_or_ne duration MAXIMAL_EDGE_DURATION with rfl | reachable
  · simp [scaled,saturated,Misjudged]
  rcases eq_or_ne duration 0 with rfl | moves
  · have zero : lround (0 : ℚ) = 0 := by simpa using lround_intCast (K := ℚ) 0
    simp [scaled,saturated,Misjudged,zero,MAXIMAL_EDGE_DURATION]
  rcases eq_or_ne scale_factor 1 with rfl | other
  · simpa [scaled,saturated,Misjudged,reachable] using Int.le_sub_one_of_lt (lt_of_le_of_ne high reachable)
  have small : duration < MAXIMAL_EDGE_DURATION := lt_of_le_of_ne high reachable
  have some : 0 < duration := lt_of_le_of_ne low moves.symm
  simp only [Misjudged,ne_eq,moves,reachable,other,not_false_eq_true,true_and]
  rcases le_or_gt ((MAXIMAL_EDGE_DURATION / duration : ℤ) : ℚ) scale_factor with reached | below
  · rw [scaled_eq_of_reached some small positive other reached]
    constructor
    · rintro enough (⟨-,short⟩ | ⟨rfl,-,short⟩)
      · linarith
      · rw [Int.ediv_one] at reached
        linarith
    · intro judged
      by_contra short
      exact judged (.inl ⟨reached,not_le.mp short⟩)
  · rw [scaled_eq_of_below some small positive other below]
    rcases eq_or_ne duration 1 with rfl | more
    · rw [Int.ediv_one] at below
      simp [below,below.not_ge,lt_sub_iff_add_lt]
    · have exact := quotient_below (by lia) small
      have bound : (duration : ℚ) * (MAXIMAL_EDGE_DURATION / duration : ℤ) ≤ MAXIMAL_EDGE_DURATION - 1 := by exact_mod_cast exact
      have product : (duration : ℚ) * scale_factor < duration * (MAXIMAL_EDGE_DURATION / duration : ℤ) :=
        mul_lt_mul_of_pos_left below (by exact_mod_cast some)
      simp only [below.not_ge,more,false_and,or_self,not_false_eq_true,iff_true]
      linarith

private theorem saturated_reachable (reachable : duration ≠ MAXIMAL_EDGE_DURATION) :
    saturated scale_factor duration < MAXIMAL_EDGE_DURATION := by
  rw [saturated,if_neg reachable]
  exact (min_le_right _ _).trans_lt (sub_one_lt _)

private theorem saturated_mono (positive : 0 < scale_factor) {other : EdgeDuration} (low : 0 ≤ duration)
    (less : duration ≤ other) (high : other ≤ MAXIMAL_EDGE_DURATION) :
    saturated scale_factor duration ≤ saturated scale_factor other := by
  rcases eq_or_ne other MAXIMAL_EDGE_DURATION with rfl | reachable
  · rcases eq_or_ne duration MAXIMAL_EDGE_DURATION with rfl | below
    · rfl
    · rw [show saturated scale_factor MAXIMAL_EDGE_DURATION = MAXIMAL_EDGE_DURATION by simp [saturated]]
      exact (saturated_reachable below).le
  · have below : duration ≠ MAXIMAL_EDGE_DURATION := by lia
    rw [saturated,if_neg below,saturated,if_neg reachable]
    have products : (duration : ℚ) * scale_factor ≤ other * scale_factor :=
      mul_le_mul_of_nonneg_right (by exact_mod_cast less) positive.le
    exact min_le_min_right _ (lround_mono (mul_nonneg (by exact_mod_cast low) positive.le) products)

end Entry

/-- What is promised of the scaled table: no entry becomes a mark, and longer ways stay longer. -/
structure Saturates (scale_factor : ℚ) (durations result : List EdgeDuration) : Prop where
  entries : result = durations.map (saturated scale_factor)
  reachable : ∀ (i : ℕ) (duration : EdgeDuration), durations[i]? = some duration → duration ≠ MAXIMAL_EDGE_DURATION →
    result[i]? ≠ some MAXIMAL_EDGE_DURATION
  ordered : ∀ (i j : ℕ) (a b c d : EdgeDuration), durations[i]? = some a → durations[j]? = some b → a ≤ b →
    result[i]? = some c → result[j]? = some d → c ≤ d

private theorem saturates_of_entries {scale_factor : ℚ} {durations : List EdgeDuration} (positive : 0 < scale_factor)
    (range : ∀ duration ∈ durations, 0 ≤ duration ∧ duration ≤ MAXIMAL_EDGE_DURATION) :
    Saturates scale_factor durations (durations.map (saturated scale_factor)) where
  entries := rfl
  reachable i duration found other := by
    simpa [found] using (@saturated_reachable scale_factor duration other).ne
  ordered i j a b c d foundA foundB less foundC foundD := by
    simp only [getElem?_map,foundA,foundB,Option.map_some,Option.some.injEq] at foundC foundD
    subst foundC foundD
    exact saturated_mono positive (range a (mem_of_getElem? foundA)).1 less (range b (mem_of_getElem? foundB)).2

section Request
variable {Coordinate : Type} (greatCircleDistance : Coordinate → Coordinate → ℚ)
  (snapped_phantoms : List (PhantomNodeCandidates Coordinate)) (unset : PhantomNodeCandidates Coordinate)
  (params : TableParameters) (num_sources num_destinations : ℕ)

private theorem estimatedTable_of_invalid (invalid : params.fallback_speed = INVALID_FALLBACK_SPEED) (durations : List EdgeDuration) :
    estimatedTable greatCircleDistance snapped_phantoms unset params num_destinations durations = durations := by
  refine ext_getElem? fun i => ?_
  simp [estimatedTable,estimated,invalid]

/-- A table is scaled as promised exactly if none of its entries is misjudged. -/
theorem scanTable_saturates_iff {tables : Tables} (size : tables.durations.length = num_sources * num_destinations)
    (positive : 0 < params.scale_factor)
    (range : ∀ duration ∈ estimatedTable greatCircleDistance snapped_phantoms unset params num_destinations tables.durations,
      0 ≤ duration ∧ duration ≤ MAXIMAL_EDGE_DURATION) :
    (Saturates params.scale_factor
        (estimatedTable greatCircleDistance snapped_phantoms unset params num_destinations tables.durations)
        (scanTable greatCircleDistance snapped_phantoms unset params num_sources num_destinations tables).durations ↔
      ∀ duration ∈ estimatedTable greatCircleDistance snapped_phantoms unset params num_destinations tables.durations,
        ¬Misjudged params.scale_factor duration) ∧
    (params.fallback_speed = INVALID_FALLBACK_SPEED →
      estimatedTable greatCircleDistance snapped_phantoms unset params num_destinations tables.durations =
        tables.durations) := by
  refine ⟨?_,fun invalid => estimatedTable_of_invalid _ _ _ _ _ invalid _⟩
  rw [scanTable_durations _ _ _ _ _ _ size]
  constructor
  · intro saturates duration member
    rw [← scaled_eq_iff (range duration member).1 (range duration member).2 positive]
    exact map_inj_left.mp saturates.entries duration member
  · intro judged
    have entries := map_inj_left.mpr fun duration member =>
      (scaled_eq_iff (range duration member).1 (range duration member).2 positive).mpr (judged duration member)
    rw [entries]
    exact saturates_of_entries positive range

end Request

def scalingBy (scale_factor : ℚ) : TableParameters := ⟨[],[],INVALID_FALLBACK_SPEED,.Input,scale_factor⟩

private theorem scaling_one (scale_factor : ℚ) (duration : EdgeDuration) :
    (scanTable (fun _ _ => 0) [] ⟨0,0⟩ (scalingBy scale_factor) 1 1 ⟨[duration],[],[]⟩ : Tables).durations =
      [scaled scale_factor duration] := by
  rw [scanTable_durations _ _ _ _ 1 1 rfl,estimatedTable_of_invalid _ _ _ _ _ rfl]
  rfl

/-- Half of the range is to become three quarters of it, but it is taken to leave the range. -/
theorem three_halves_of_half : ¬∀ (scale_factor : ℚ) (durations : List EdgeDuration), 0 < scale_factor →
    (∀ duration ∈ durations, 0 ≤ duration ∧ duration ≤ MAXIMAL_EDGE_DURATION) →
    Saturates scale_factor durations
      (scanTable (fun _ _ => 0) [] ⟨0,0⟩ (scalingBy scale_factor) 1 durations.length ⟨durations,[],[]⟩ : Tables).durations := by
  intro right
  have entries := (right (3 / 2) [2 ^ 30] (by norm_num) (by simp [MAXIMAL_EDGE_DURATION])).entries
  rw [length_singleton,scaling_one] at entries
  exact absurd entries (by decide +kernel)

theorem scanTable_saturates_half : Saturates (1 / 2)
    (estimatedTable (fun _ _ => 0) [] ⟨0,0⟩ (scalingBy (1 / 2)) 1 [5,MAXIMAL_EDGE_DURATION])
    (scanTable (fun _ _ => 0) [] ⟨0,0⟩ (scalingBy (1 / 2)) 2 1 ⟨[5,MAXIMAL_EDGE_DURATION],[],[]⟩).durations := by
  have same := estimatedTable_of_invalid (fun _ _ => (0 : ℚ)) [] ⟨0,0⟩ (scalingBy (1 / 2)) 1 rfl [5,MAXIMAL_EDGE_DURATION]
  have positive : 0 < (scalingBy (1 / 2)).scale_factor := by norm_num [scalingBy]
  refine (scanTable_saturates_iff (fun _ _ => (0 : ℚ)) [] ⟨0,0⟩ (scalingBy (1 / 2)) 2 1
    (show (⟨[5,MAXIMAL_EDGE_DURATION],[],[]⟩ : Tables).durations.length = 2 * 1 from rfl) positive ?_).1.mpr ?_
  · rw [same]
    simp [MAXIMAL_EDGE_DURATION]
  · rw [same]
    intro duration member
    rcases mem_pair.mp member with rfl | rfl
    · norm_num [Misjudged,scalingBy,MAXIMAL_EDGE_DURATION]
    · simp [Misjudged]

end Osrm.TableScaling
