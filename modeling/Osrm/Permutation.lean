import Mathlib.Tactic
import Mathlib.Data.List.GetD
import Mathlib.Data.List.Perm.Subperm
import Osrm.Loops
import Osrm.Slices

/-!
`util/permutation.hpp`. An ordering lists the old ids in their new order, the permutation
made from it maps each old id to its new one, and `inplacePermutation` moves the elements
of a vector along the cycles of the permutation.
-/
namespace Osrm.Permutation
open List Option

variable {α : Type}

def orderingToPermutation (ordering : List ℕ) : List ℕ :=
  (List.range ordering.length).foldl (fun permutation index => permutation.set (ordering.getD index 0) index)
    (replicate ordering.length 0)

/-- The vector `inplacePermutation` works on, with the marks of the elements already moved. -/
structure Moving (α : Type) where
  values : List α
  was_replaced : List Bool

/-- The loop over one cycle. The fuel is the length of the vector, which no cycle exceeds. -/
def followCycle (old_to_new : List ℕ) (index : ℕ) : ℕ → ℕ → α → Moving α → Moving α
  | 0, _, _, state => state
  | fuel + 1, old_index, buffer, state =>
    let new_index := old_to_new.getD old_index 0
    let was_replaced := state.was_replaced.set old_index true
    let values := state.values.set new_index buffer
    if new_index ≠ index then
      followCycle old_to_new index fuel new_index (state.values.getD new_index buffer) ⟨values,was_replaced⟩
    else ⟨values,was_replaced⟩

def permuteFrom (old_to_new : List ℕ) (state : Moving α) (index : ℕ) : Moving α :=
  if state.was_replaced.getD index false then state
  else if old_to_new.getD index 0 = index then { state with was_replaced := state.was_replaced.set index true }
  else match state.values[index]? with
    | some buffer => followCycle old_to_new index state.values.length index buffer state
    | none => state

def inplacePermutation (values : List α) (old_to_new : List ℕ) : List α :=
  ((List.range values.length).foldl (permuteFrom old_to_new) ⟨values,replicate values.length false⟩).values

/-- A list that maps the ids below its length to these ids, no two to the same one. -/
structure Bijective (old_to_new : List ℕ) : Prop where
  nodup : old_to_new.Nodup
  below : ∀ i ∈ old_to_new, i < old_to_new.length

namespace Bijective

variable {old_to_new : List ℕ} {i j : ℕ}

theorem lt (bijective : Bijective old_to_new) (inside : i < old_to_new.length) :
    old_to_new.getD i 0 < old_to_new.length := by
  rw [getD_eq_getElem _ _ inside]
  exact bijective.below _ (getElem_mem inside)

theorem injective (bijective : Bijective old_to_new) (insideI : i < old_to_new.length)
    (insideJ : j < old_to_new.length) (same : old_to_new.getD i 0 = old_to_new.getD j 0) : i = j := by
  rw [getD_eq_getElem _ _ insideI,getD_eq_getElem _ _ insideJ] at same
  exact bijective.nodup.getElem_inj_iff.mp same

theorem perm_range (bijective : Bijective old_to_new) : old_to_new.Perm (List.range old_to_new.length) := by
  have subset : old_to_new ⊆ List.range old_to_new.length := by
    intro i member
    exact mem_range.mpr (bijective.below i member)
  exact (bijective.nodup.subperm subset).perm_of_length_le (by simp)

theorem surjective (bijective : Bijective old_to_new) (inside : j < old_to_new.length) :
    ∃ i < old_to_new.length, old_to_new.getD i 0 = j := by
  obtain ⟨i,insideI,found⟩ := mem_iff_getElem.mp (bijective.perm_range.mem_iff.mpr (mem_range.mpr inside))
  exact ⟨i,insideI,by rw [getD_eq_getElem _ _ insideI,found]⟩

theorem of_all (all : ∀ j < old_to_new.length, j ∈ old_to_new) : Bijective old_to_new := by
  have subset : List.range old_to_new.length ⊆ old_to_new := fun j member => all j (mem_range.mp member)
  have permutation : (List.range old_to_new.length).Perm old_to_new :=
    (nodup_range.subperm subset).perm_of_length_le (by simp)
  exact ⟨permutation.nodup_iff.mp nodup_range,fun i member => mem_range.mp (permutation.mem_iff.mpr member)⟩

end Bijective

section Ordering

variable {ordering : List ℕ}

private theorem ordering_written (bijective : Bijective ordering) (count : ℕ) (bound : count ≤ ordering.length) :
    let permutation := (List.range count).foldl
      (fun permutation index => permutation.set (ordering.getD index 0) index) (replicate ordering.length 0)
    permutation.length = ordering.length ∧ ∀ i < count, permutation[ordering.getD i 0]? = some i := by
  induction count with
  | zero => simp
  | succ count ih =>
    obtain ⟨length,written⟩ := ih (by omega)
    simp only [range_succ,foldl_append,foldl_cons,foldl_nil,length_set]
    refine ⟨length,?_⟩
    intro i less
    rw [getElem?_set]
    by_cases last : i = count
    · subst last
      rw [if_pos rfl,if_pos (length.symm ▸ bijective.lt (by omega))]
    · have different : ordering.getD count 0 ≠ ordering.getD i 0 := by
        intro same
        exact last (bijective.injective (by omega) (by omega) same).symm
      rw [if_neg different]
      exact written i (by omega)

theorem orderingToPermutation_length (bijective : Bijective ordering) :
    (orderingToPermutation ordering).length = ordering.length :=
  (ordering_written bijective ordering.length le_rfl).1

/-- The permutation is the inverse of the ordering. -/
theorem orderingToPermutation_ordering (bijective : Bijective ordering) {i : ℕ} (inside : i < ordering.length) :
    (orderingToPermutation ordering)[ordering.getD i 0]? = some i :=
  (ordering_written bijective ordering.length le_rfl).2 i inside

theorem orderingToPermutation_bijective (bijective : Bijective ordering) :
    Bijective (orderingToPermutation ordering) := by
  have length := orderingToPermutation_length bijective
  have value (j : ℕ) (inside : j < ordering.length) :
      ∃ i < ordering.length, ordering.getD i 0 = j ∧ (orderingToPermutation ordering)[j]? = some i := by
    obtain ⟨i,insideI,rfl⟩ := bijective.surjective inside
    exact ⟨i,insideI,rfl,orderingToPermutation_ordering bijective insideI⟩
  constructor
  · rw [nodup_iff_getElem?_ne_getElem?]
    intro j k less inside same
    obtain ⟨i,-,atJ,valueJ⟩ := value j (by omega)
    obtain ⟨i',-,atK,valueK⟩ := value k (by omega)
    rw [valueJ,valueK,some.injEq] at same
    subst same
    omega
  · intro i member
    obtain ⟨j,inside,found⟩ := mem_iff_getElem.mp member
    obtain ⟨i',insideI,-,valueJ⟩ := value j (by omega)
    rw [getElem?_eq_getElem inside,found,some.injEq] at valueJ
    omega

end Ordering

section Inplace

variable {old_to_new : List ℕ} {values : List α} {state : Moving α} {index old_index fuel : ℕ} {buffer : α}

def Moving.Marked (state : Moving α) (i : ℕ) : Prop := state.was_replaced.getD i false = true

/-- The marks are a union of cycles, their elements have been moved and the others have not. -/
structure Moved (old_to_new : List ℕ) (values : List α) (state : Moving α) : Prop where
  length : state.values.length = old_to_new.length
  marks : state.was_replaced.length = old_to_new.length
  placed : ∀ i < old_to_new.length, state.Marked i → state.values[old_to_new.getD i 0]? = values[i]?
  kept : ∀ i < old_to_new.length, ¬ state.Marked i → state.values[i]? = values[i]?
  closed : ∀ i < old_to_new.length, state.Marked (old_to_new.getD i 0) ↔ state.Marked i

/-- Inside a cycle that begins at `index`, up to `old_index`, whose element is in the buffer. -/
structure Following (old_to_new : List ℕ) (values : List α) (index old_index : ℕ) (buffer : α)
    (state : Moving α) : Prop where
  length : state.values.length = old_to_new.length
  marks : state.was_replaced.length = old_to_new.length
  inside : old_index < old_to_new.length
  fresh : ¬ state.Marked old_index
  buffered : values[old_index]? = some buffer
  placed : ∀ i < old_to_new.length, state.Marked i → state.values[old_to_new.getD i 0]? = values[i]?
  kept : ∀ i < old_to_new.length, ¬ state.Marked i → i ≠ old_index → state.values[i]? = values[i]?
  closed : ∀ i < old_to_new.length, old_to_new.getD i 0 ≠ index →
    (state.Marked (old_to_new.getD i 0) ∨ old_to_new.getD i 0 = old_index ↔ state.Marked i)
  first : state.Marked index ∨ index = old_index

private theorem marked_set (inside : old_index < state.was_replaced.length) (moved : List α) (i : ℕ) :
    (Moving.mk moved (state.was_replaced.set old_index true)).Marked i ↔ i = old_index ∨ state.Marked i := by
  unfold Moving.Marked
  rw [Slices.getD_set inside]
  by_cases same : i = old_index
  · simp [same]
  · simp [same]

private theorem Following.insideMarks (following : Following old_to_new values index old_index buffer state) :
    old_index < state.was_replaced.length := following.marks.symm ▸ following.inside

private theorem Following.fewer (following : Following old_to_new values index old_index buffer state) :
    (state.was_replaced.set old_index true).count false < state.was_replaced.count false := by
  have fresh := following.fresh
  rw [Moving.Marked,getD_eq_getElem _ _ following.insideMarks,Bool.not_eq_true] at fresh
  have some : 0 < state.was_replaced.count false :=
    count_pos_iff.mpr (fresh ▸ getElem_mem following.insideMarks)
  rw [count_set following.insideMarks,fresh]
  have moved : (if (true == false) = true then 1 else 0) = 0 := rfl
  simp only [beq_self_eq_true,if_true,moved]
  omega

private theorem Following.placed_set (bijective : Bijective old_to_new)
    (following : Following old_to_new values index old_index buffer state) (i : ℕ) (inside : i < old_to_new.length)
    (marked : i = old_index ∨ state.Marked i) :
    (state.values.set (old_to_new.getD old_index 0) buffer)[old_to_new.getD i 0]? = values[i]? := by
  rw [getElem?_set]
  by_cases same : i = old_index
  · subst same
    rw [if_pos rfl,if_pos (following.length.symm ▸ bijective.lt inside),following.buffered]
  · rw [if_neg (fun equal => same (bijective.injective following.inside inside equal).symm)]
    exact following.placed i inside (marked.resolve_left same)

private theorem Following.step (bijective : Bijective old_to_new)
    (following : Following old_to_new values index old_index buffer state)
    (goesOn : old_to_new.getD old_index 0 ≠ index) :
    Following old_to_new values index (old_to_new.getD old_index 0)
      (state.values.getD (old_to_new.getD old_index 0) buffer)
      ⟨state.values.set (old_to_new.getD old_index 0) buffer,state.was_replaced.set old_index true⟩ := by
  have inside := bijective.lt following.inside
  have markedSet := marked_set following.insideMarks (state.values.set (old_to_new.getD old_index 0) buffer)
  have unvisited := (not_congr (following.closed old_index following.inside goesOn)).mpr following.fresh
  push Not at unvisited
  have original := following.kept _ inside unvisited.1 unvisited.2
  refine ⟨by simp [following.length],by simp [following.marks],inside,?_,?_,?_,?_,?_,?_⟩
  · rw [markedSet]
    exact fun marked => marked.elim unvisited.2 unvisited.1
  · have insideValues := following.length.symm ▸ inside
    rw [← original,getElem?_eq_getElem insideValues,getD_eq_getElem _ _ insideValues]
  · intro i insideI marked
    exact following.placed_set bijective i insideI ((markedSet i).mp marked)
  · intro i insideI unmarked different
    rw [markedSet] at unmarked
    push Not at unmarked
    rw [getElem?_set_ne different.symm]
    exact following.kept i insideI unmarked.2 unmarked.1
  · intro i insideI other
    have before := following.closed i insideI other
    have last : old_to_new.getD i 0 = old_to_new.getD old_index 0 ↔ i = old_index :=
      ⟨bijective.injective insideI following.inside,fun same => same ▸ rfl⟩
    rw [markedSet,markedSet,last,← before]
    tauto
  · rw [markedSet]
    exact .inl (following.first.symm)

private theorem Following.finish (bijective : Bijective old_to_new)
    (following : Following old_to_new values index old_index buffer state)
    (back : old_to_new.getD old_index 0 = index) :
    Moved old_to_new values
      ⟨state.values.set (old_to_new.getD old_index 0) buffer,state.was_replaced.set old_index true⟩ := by
  have markedSet := marked_set following.insideMarks (state.values.set (old_to_new.getD old_index 0) buffer)
  refine ⟨by simp [following.length],by simp [following.marks],?_,?_,?_⟩
  · intro i inside marked
    exact following.placed_set bijective i inside ((markedSet i).mp marked)
  · intro i inside unmarked
    rw [markedSet] at unmarked
    push Not at unmarked
    have different : old_to_new.getD old_index 0 ≠ i := by
      rw [back]
      rintro rfl
      exact following.first.elim unmarked.2 unmarked.1
    rw [getElem?_set_ne different]
    exact following.kept i inside unmarked.2 unmarked.1
  · intro i inside
    rw [markedSet,markedSet]
    by_cases other : old_to_new.getD i 0 = index
    · have last := bijective.injective inside following.inside (other.trans back.symm)
      rw [other]
      exact iff_of_true following.first.symm (.inl last)
    · have earlier : i ≠ old_index := fun same => other (same ▸ back)
      rw [or_comm,following.closed i inside other]
      simp [earlier]

private theorem followCycle_moved (bijective : Bijective old_to_new)
    (following : Following old_to_new values index old_index buffer state)
    (enough : state.was_replaced.count false ≤ fuel) :
    Moved old_to_new values (followCycle old_to_new index fuel old_index buffer state) ∧
      (followCycle old_to_new index fuel old_index buffer state).Marked old_index ∧
      ∀ i, state.Marked i → (followCycle old_to_new index fuel old_index buffer state).Marked i := by
  induction fuel generalizing old_index buffer state with
  | zero => exact absurd following.fewer (by omega)
  | succ fuel ih =>
    have markedSet := marked_set following.insideMarks (state.values.set (old_to_new.getD old_index 0) buffer)
    have fewer := following.fewer
    rw [followCycle]
    by_cases back : old_to_new.getD old_index 0 = index
    · simp only [back,ne_eq,not_true_eq_false,if_false]
      rw [← back]
      exact ⟨following.finish bijective back,(markedSet _).mpr (.inl rfl),fun i marked => (markedSet i).mpr (.inr marked)⟩
    · simp only [back,ne_eq,not_false_eq_true,if_true]
      have next := following.step bijective back
      obtain ⟨moved,-,keeps⟩ := ih next (by simp only; omega)
      exact ⟨moved,keeps _ ((markedSet _).mpr (.inl rfl)),fun i marked => keeps i ((markedSet i).mpr (.inr marked))⟩

private theorem Moved.following (moved : Moved old_to_new values state) (inside : index < old_to_new.length)
    (fresh : ¬ state.Marked index) (buffered : values[index]? = some buffer) :
    Following old_to_new values index index buffer state := by
  refine ⟨moved.length,moved.marks,inside,fresh,buffered,moved.placed,fun i insideI unmarked _ => moved.kept i insideI unmarked,
    ?_,.inr rfl⟩
  intro i insideI other
  rw [moved.closed i insideI]
  exact or_iff_left other

private theorem permuteFrom_moved (bijective : Bijective old_to_new)
    (moved : Moved old_to_new values state) (inside : index < old_to_new.length) :
    Moved old_to_new values (permuteFrom old_to_new state index) ∧
      (permuteFrom old_to_new state index).Marked index ∧
      ∀ i, state.Marked i → (permuteFrom old_to_new state index).Marked i := by
  unfold permuteFrom
  by_cases marked : state.was_replaced.getD index false = true
  · rw [if_pos marked]
    exact ⟨moved,marked,fun _ => id⟩
  · rw [if_neg marked]
    have markedSet := marked_set (moved.marks.symm ▸ inside : index < state.was_replaced.length)
    by_cases fixed : old_to_new.getD index 0 = index
    · rw [if_pos fixed]
      refine ⟨⟨moved.length,by simp [moved.marks],?_,?_,?_⟩,(markedSet _ _).mpr (.inl rfl),
        fun i earlier => (markedSet _ _).mpr (.inr earlier)⟩
      · intro i insideI now
        rcases (markedSet _ _).mp now with rfl | earlier
        · rw [fixed]
          exact moved.kept i insideI marked
        · exact moved.placed i insideI earlier
      · intro i insideI unmarked
        exact moved.kept i insideI fun earlier => unmarked ((markedSet _ _).mpr (.inr earlier))
      · intro i insideI
        have only : old_to_new.getD i 0 = index ↔ i = index := by
          constructor
          · intro same
            exact bijective.injective insideI inside (same.trans fixed.symm)
          · rintro rfl
            exact fixed
        rw [markedSet,markedSet,moved.closed i insideI,only]
    · rw [if_neg fixed]
      have original := moved.kept index inside marked
      rw [getElem?_eq_getElem (moved.length.symm ▸ inside)] at original ⊢
      refine followCycle_moved bijective (moved.following inside marked original.symm) ?_
      rw [moved.length,← moved.marks]
      exact count_le_length

private theorem permuted (bijective : Bijective old_to_new) (length : values.length = old_to_new.length) (count : ℕ)
    (bound : count ≤ old_to_new.length) :
    Moved old_to_new values ((List.range count).foldl (permuteFrom old_to_new) ⟨values,replicate values.length false⟩) ∧
      ∀ i < count, ((List.range count).foldl (permuteFrom old_to_new) ⟨values,replicate values.length false⟩).Marked i := by
  induction count with
  | zero =>
    have unmarked (i : ℕ) : ¬ (Moving.mk values (replicate values.length false)).Marked i := by
      simp only [Moving.Marked,getD_eq_getElem?_getD,getElem?_replicate]
      split <;> simp
    refine ⟨⟨length,by simp [length],?_,fun _ _ _ => rfl,?_⟩,by simp⟩
    · intro i _ marked
      exact absurd marked (unmarked i)
    · intro i _
      exact iff_of_false (unmarked _) (unmarked _)
  | succ count ih =>
    obtain ⟨moved,marked⟩ := ih (by omega)
    obtain ⟨next,now,keeps⟩ := permuteFrom_moved bijective moved (by omega : count < _)
    simp only [range_succ,foldl_append,foldl_cons,foldl_nil]
    refine ⟨next,?_⟩
    intro i less
    rcases Nat.lt_succ_iff_lt_or_eq.mp less with earlier | rfl
    · exact keeps i (marked i earlier)
    · exact now

theorem inplacePermutation_length (bijective : Bijective old_to_new) (length : values.length = old_to_new.length) :
    (inplacePermutation values old_to_new).length = values.length :=
  (permuted bijective length values.length length.le).1.length.trans length.symm

/-- Every value is where its index is mapped. -/
theorem inplacePermutation_getElem? (bijective : Bijective old_to_new) (length : values.length = old_to_new.length)
    {i : ℕ} (inside : i < values.length) :
    (inplacePermutation values old_to_new)[old_to_new.getD i 0]? = values[i]? := by
  obtain ⟨moved,marked⟩ := permuted bijective length values.length length.le
  exact moved.placed i (by omega) (marked i inside)

structure Cycle (α : Type) where
  old_index : ℕ
  new_index : ℕ
  buffer : α
  state : Moving α

/-- The body of the loop over a cycle and its `old_index = new_index, new_index = old_to_new[new_index]`. -/
def Cycle.next (old_to_new : List ℕ) (cycle : Cycle α) : Cycle α where
  old_index := cycle.new_index
  new_index := old_to_new.getD cycle.new_index 0
  buffer := cycle.state.values.getD cycle.new_index cycle.buffer
  state := ⟨cycle.state.values.set cycle.new_index cycle.buffer,cycle.state.was_replaced.set cycle.old_index true⟩

def Cycle.close (index : ℕ) (cycle : Cycle α) : Moving α :=
  ⟨cycle.state.values.set index cycle.buffer,cycle.state.was_replaced.set cycle.old_index true⟩
/-- The whole cycle, with at most so many rounds of the loop. -/
def followCycleWithin (old_to_new : List ℕ) (index fuel old_index : ℕ) (buffer : α) (state : Moving α) : Option (Moving α) :=
  (Loops.whileLoop (fun cycle => cycle.new_index != index) (Cycle.next old_to_new) fuel
    ⟨old_index,old_to_new.getD old_index 0,buffer,state⟩).map (Cycle.close index)

def permuteFromWithin (fuel : ℕ) (old_to_new : List ℕ) (state : Moving α) (index : ℕ) : Option (Moving α) :=
  if state.was_replaced.getD index false then some state
  else if old_to_new.getD index 0 = index then some { state with was_replaced := state.was_replaced.set index true }
  else match state.values[index]? with
    | some buffer => followCycleWithin old_to_new index fuel index buffer state
    | none => some state

/-- `inplacePermutation` when each of its loops takes at most so many rounds. -/
def inplacePermutationWithin (fuel : ℕ) (values : List α) (old_to_new : List ℕ) : Option (List α) :=
  ((List.range values.length).foldlM (permuteFromWithin fuel old_to_new) ⟨values,replicate values.length false⟩).map
    (·.values)

private theorem followCycleWithin_eq (bijective : Bijective old_to_new)
    (following : Following old_to_new values index old_index buffer state) (enough : state.was_replaced.count false ≤ fuel) :
    followCycleWithin old_to_new index fuel old_index buffer state = some (followCycle old_to_new index fuel old_index buffer state) := by
  induction fuel generalizing old_index buffer state with
  | zero => exact absurd following.fewer (by omega)
  | succ fuel ih =>
    rw [followCycleWithin,Loops.whileLoop,followCycle]
    by_cases back : old_to_new.getD old_index 0 = index
    · simp only [back,bne_self_eq_false,ne_eq,not_true_eq_false,if_false,Bool.false_eq_true]
      rfl
    · have goesOn : (old_to_new.getD old_index 0 != index) = true := by simpa using back
      have fewer := following.fewer
      simp only [goesOn,back,ne_eq,not_false_eq_true,if_true]
      exact ih (following.step bijective back) (by simp only; omega)

private theorem permuteFromWithin_eq (bijective : Bijective old_to_new) (moved : Moved old_to_new values state)
    (inside : index < old_to_new.length) (enough : old_to_new.length ≤ fuel) :
    permuteFromWithin fuel old_to_new state index = some (permuteFrom old_to_new state index) := by
  unfold permuteFromWithin permuteFrom
  by_cases marked : state.was_replaced.getD index false = true
  · rw [if_pos marked,if_pos marked]
  · rw [if_neg marked,if_neg marked]
    by_cases fixed : old_to_new.getD index 0 = index
    · rw [if_pos fixed,if_pos fixed]
    · rw [if_neg fixed,if_neg fixed]
      have insideValues : index < state.values.length := moved.length.symm ▸ inside
      have original := moved.kept index inside marked
      rw [getElem?_eq_getElem insideValues] at original ⊢
      have following := moved.following inside marked original.symm
      have unmarked : state.was_replaced.count false ≤ state.values.length := by
        rw [moved.length,← moved.marks]
        exact count_le_length
      have ended := followCycleWithin_eq bijective following unmarked
      obtain ⟨last,ran,closed⟩ := map_eq_some_iff.mp ended
      simp only
      rw [followCycleWithin,Loops.whileLoop_mono ran (by rw [moved.length]; exact enough),← closed]
      rfl

theorem inplacePermutationWithin_eq (bijective : Bijective old_to_new) (length : values.length = old_to_new.length)
    (enough : values.length ≤ fuel) :
    inplacePermutationWithin fuel values old_to_new = some (inplacePermutation values old_to_new) := by
  have loop (count : ℕ) (bound : count ≤ old_to_new.length) :
      (List.range count).foldlM (permuteFromWithin fuel old_to_new) ⟨values,replicate values.length false⟩ =
        some ((List.range count).foldl (permuteFrom old_to_new) ⟨values,replicate values.length false⟩) := by
    induction count with
    | zero => rfl
    | succ count ih =>
      have moved := (permuted bijective length count (by omega)).1
      rw [range_succ,foldlM_append,ih (by omega),foldl_append]
      simp only [bind_eq_bind,bind_some,foldlM_cons,foldlM_nil,foldl_cons,foldl_nil]
      rw [permuteFromWithin_eq bijective moved (by omega) (by omega)]
      rfl
  rw [inplacePermutationWithin,loop values.length length.le]
  rfl

end Inplace

end Osrm.Permutation
