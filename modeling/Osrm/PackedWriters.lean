import Mathlib.Logic.Relation
import Osrm.PackedVectors

/-!
`PackedVector::set_value`, called by several threads at once. Each of the two words of an element is loaded, computed
anew and exchanged if it is still the one that was loaded; any call may take the next step.
-/
namespace Osrm.PackedWriters
open Option
open WordBits PackedVectors

inductive Half
  | lower
  | upper
  deriving DecidableEq, Repr

inductive Point
  | load
  | compute (local_word : Word)
  | compare_and_swap (local_word new_word : Word)
  deriving DecidableEq, Repr

inductive Progress
  | loop (half : Half) (point : Point)
  | finished
  deriving DecidableEq, Repr

section Steps
variable (Bits : ℕ)

def Half.word (internal_index : InternalIndex) : Half → ℕ
  | .lower => internal_index.lower_word
  | .upper => internal_index.lower_word + 1
def Half.new_word (internal_index : InternalIndex) (value local_word : Word) : Half → Word
  | .lower => new_lower_word Bits internal_index value local_word
  | .upper => new_upper_word Bits internal_index value local_word
def Half.next : Half → Progress
  | .lower => .loop .upper .load
  | .upper => .finished

/-- One step of a call, with the words after it. -/
def advance (internal_index : InternalIndex) (value : Word) (vec : List Word) : Progress → Option (List Word × Progress)
  | .loop half .load => vec[half.word internal_index]?.map fun word => (vec,.loop half (.compute word))
  | .loop half (.compute local_word) =>
    some (vec,.loop half (.compare_and_swap local_word (half.new_word Bits internal_index value local_word)))
  | .loop half (.compare_and_swap local_word new_word) => vec[half.word internal_index]?.map fun word =>
    if word = local_word then (vec.set (half.word internal_index) new_word,half.next) else (vec,.loop half .load)
  | .finished => none

structure State (Caller : Type) where
  vector : PackedVector
  progress : Caller → Progress

variable {Caller : Type}

def State.start (vector : PackedVector) : State Caller := ⟨vector,fun _ => .loop .lower .load⟩

variable [DecidableEq Caller] (index : Caller → ℕ) (value : Caller → Word)

def State.step (state : State Caller) (caller : Caller) : Option (State Caller) :=
  (advance Bits (get_internal_index Bits (index caller)) (value caller) state.vector.vec (state.progress caller)).map
    fun (vec,progress) => ⟨{ state.vector with vec },Function.update state.progress caller progress⟩
def Step (state state' : State Caller) : Prop := ∃ caller, state.step Bits index value caller = some state'
/-- The state after the calls took steps in this order; a step that is not possible is left out. -/
def State.follow (state : State Caller) (callers : List Caller) : State Caller :=
  callers.foldl (fun state caller => (state.step Bits index value caller).getD state) state

end Steps

section Words
variable {Bits index k : ℕ} {word value : Word} {half : Half}

private theorem new_word_bit (small : Bits < 64) (here : k / 64 = half.word (get_internal_index Bits index)) :
    (half.new_word Bits (get_internal_index Bits index) value word).getLsbD (k % 64) =
      if Covers Bits index k then value.getLsbD (k - index * Bits) else word.getLsbD (k % 64) := by
  have inside : k % 64 < 64 := Nat.mod_lt _ (by decide)
  have place : k / 64 * 64 + k % 64 = k := by omega
  cases half with
  | lower =>
    rw [Half.word] at here
    rw [Half.new_word,new_lower_word_bit small inside,← here,place]
  | upper =>
    rw [Half.word] at here
    rw [Half.new_word,new_upper_word_bit small inside,← here,place]

end Words

/-! ### What the steps keep -/

def Written (internal_index : InternalIndex) (k : ℕ) : Progress → Prop
  | .loop .lower _ => False
  | .loop .upper _ => k / 64 = internal_index.lower_word
  | .finished => True

/-- A new word was computed from the word that was loaded. -/
def Computed (Bits : ℕ) (internal_index : InternalIndex) (value : Word) : Progress → Prop
  | .loop half (.compare_and_swap local_word new_word) => new_word = half.new_word Bits internal_index value local_word
  | .loop _ .load | .loop _ (.compute _) | .finished => True

section Calls
variable {Bits : ℕ} {Caller : Type} [DecidableEq Caller] {index : Caller → ℕ} {value : Caller → Word} {vector : PackedVector}
  {state state' : State Caller}

/-- The bits of an element whose word is written are those of its value, and all other bits are what they were. -/
structure Correct (Bits : ℕ) (index : Caller → ℕ) (value : Caller → Word) (vector : PackedVector) (state : State Caller) : Prop where
  length : state.vector.vec.length = vector.vec.length
  computed : ∀ caller, Computed Bits (get_internal_index Bits (index caller)) (value caller) (state.progress caller)
  written : ∀ caller k, Covers Bits (index caller) k → Written (get_internal_index Bits (index caller)) k (state.progress caller) →
    bit state.vector.vec k = (value caller).getLsbD (k - index caller * Bits)
  kept : ∀ k, (∀ caller, Covers Bits (index caller) k → ¬ Written (get_internal_index Bits (index caller)) k (state.progress caller)) →
    bit state.vector.vec k = bit vector.vec k

omit [DecidableEq Caller] in
private theorem correct_start : Correct Bits index value vector (State.start vector) :=
  ⟨rfl,fun _ => trivial,fun _ _ _ written => written.elim,fun _ _ => rfl⟩

private theorem written_next (small : Bits < 64) {index k : ℕ} (covers : Covers Bits index k) {half : Half} {point : Point} :
    Written (get_internal_index Bits index) k half.next ↔
      k / 64 = half.word (get_internal_index Bits index) ∨ Written (get_internal_index Bits index) k (.loop half point) := by
  cases half with
  | lower => simp only [Half.next,Half.word,Written,or_false]
  | upper =>
    simp only [Half.next,Half.word,Written,true_iff]
    exact (covers.word small).symm

private theorem advance_cases {internal_index : InternalIndex} {value : Word} {vec vec' : List Word} {progress progress' : Progress}
    (computed : Computed Bits internal_index value progress)
    (advanced : advance Bits internal_index value vec progress = some (vec',progress')) :
    (vec' = vec ∧ Computed Bits internal_index value progress' ∧
      ∀ k, Written internal_index k progress' ↔ Written internal_index k progress) ∨
    ∃ half point, progress = .loop half point ∧ half.word internal_index < vec.length ∧ progress' = half.next ∧
      vec' = vec.set (half.word internal_index)
        (half.new_word Bits internal_index value (vec.getD (half.word internal_index) 0)) := by
  cases progress with
  | finished => cases advanced
  | loop half point =>
    cases point with
    | load =>
      obtain ⟨word,-,same⟩ := map_eq_some_iff.mp advanced
      obtain ⟨rfl,rfl⟩ := Prod.mk.inj same
      exact .inl ⟨rfl,trivial,fun k => by cases half <;> rfl⟩
    | compute local_word =>
      obtain ⟨rfl,rfl⟩ := Prod.mk.inj (some.inj advanced)
      exact .inl ⟨rfl,rfl,fun k => by cases half <;> rfl⟩
    | compare_and_swap local_word new_word =>
      obtain ⟨word,current,same⟩ := map_eq_some_iff.mp advanced
      obtain ⟨inside,-⟩ := List.getElem?_eq_some_iff.mp current
      by_cases unchanged : word = local_word
      · -- the word is the one that the new word was computed from
        rw [if_pos unchanged] at same
        obtain ⟨rfl,rfl⟩ := Prod.mk.inj same
        refine .inr ⟨half,_,rfl,inside,rfl,?_⟩
        rw [List.getD_eq_getElem?_getD,current,getD_some,unchanged,show new_word = _ from computed]
      · rw [if_neg unchanged] at same
        obtain ⟨rfl,rfl⟩ := Prod.mk.inj same
        exact .inl ⟨rfl,trivial,fun k => by cases half <;> rfl⟩

private theorem step_spec {caller : Caller} (stepped : state.step Bits index value caller = some state') :
    advance Bits (get_internal_index Bits (index caller)) (value caller) state.vector.vec (state.progress caller) =
        some (state'.vector.vec,state'.progress caller) ∧
      ∀ other, other ≠ caller → state'.progress other = state.progress other := by
  obtain ⟨⟨vec,progress⟩,advanced,rfl⟩ := map_eq_some_iff.mp stepped
  refine ⟨?_,fun other ne => Function.update_of_ne ne ..⟩
  rw [advanced]
  exact congrArg (fun point => some (vec,point)) (Function.update_self caller progress state.progress).symm

omit [DecidableEq Caller] in
private theorem Correct.stay (correct : Correct Bits index value vector state) (words : state'.vector.vec = state.vector.vec)
    (computed : ∀ caller, Computed Bits (get_internal_index Bits (index caller)) (value caller) (state'.progress caller))
    (same : ∀ caller k, Written (get_internal_index Bits (index caller)) k (state'.progress caller) ↔
      Written (get_internal_index Bits (index caller)) k (state.progress caller)) : Correct Bits index value vector state' := by
  refine ⟨by rw [words,correct.length],computed,?_,?_⟩
  · intro caller k covers done
    rw [words]
    exact correct.written caller k covers ((same caller k).mp done)
  · intro k free
    rw [words]
    exact correct.kept k fun caller covers done => free caller covers ((same caller k).mpr done)

private theorem Correct.leave (distinct : Function.Injective index) (correct : Correct Bits index value vector state) (word : ℕ)
    (length : state'.vector.vec.length = state.vector.vec.length)
    (computed : ∀ caller, Computed Bits (get_internal_index Bits (index caller)) (value caller) (state'.progress caller))
    {caller : Caller}
    (bits : ∀ k, bit state'.vector.vec k =
      if k / 64 = word ∧ Covers Bits (index caller) k then (value caller).getLsbD (k - index caller * Bits) else bit state.vector.vec k)
    (own : ∀ k, Covers Bits (index caller) k → (Written (get_internal_index Bits (index caller)) k (state'.progress caller) ↔
      k / 64 = word ∨ Written (get_internal_index Bits (index caller)) k (state.progress caller)))
    (others : ∀ other, other ≠ caller → state'.progress other = state.progress other) : Correct Bits index value vector state' := by
  refine ⟨length.trans correct.length,computed,?_,?_⟩
  · intro other k covers done
    rw [bits]
    by_cases this : other = caller
    · subst this
      by_cases here : k / 64 = word
      · rw [if_pos ⟨here,covers⟩]
      · rw [if_neg fun both => here both.1]
        exact correct.written other k covers (((own k covers).mp done).resolve_left here)
    · rw [others other this] at done
      rw [if_neg fun both => this (distinct (covers.unique both.2))]
      exact correct.written other k covers done
  · intro k free
    rw [bits,if_neg fun both => free caller both.2 ((own k both.2).mpr (.inl both.1))]
    apply correct.kept k
    intro other covers done
    refine free other covers ?_
    by_cases this : other = caller
    · subst this
      exact (own k covers).mpr (.inr done)
    · rw [others other this]
      exact done

private theorem Correct.step (small : Bits < 64) (distinct : Function.Injective index) (correct : Correct Bits index value vector state)
    (step : Step Bits index value state state') : Correct Bits index value vector state' := by
  obtain ⟨caller,stepped⟩ := step
  obtain ⟨advanced,others⟩ := step_spec stepped
  -- what holds of the call that takes the step and of what the others stood at holds of all
  have all {holds : Caller → Progress → Prop} (own : holds caller (state'.progress caller))
      (rest : ∀ other, holds other (state.progress other)) (other : Caller) : holds other (state'.progress other) := by
    by_cases this : other = caller
    · exact this ▸ own
    · exact (others other this).symm ▸ rest other
  rcases advance_cases (correct.computed caller) advanced with ⟨words,computed,same⟩ | ⟨half,point,stood,inside,next,words⟩
  · apply correct.stay words (all computed correct.computed)
    intro other k
    by_cases this : other = caller
    · exact this ▸ same k
    · rw [others other this]
  · refine correct.leave distinct (half.word (get_internal_index Bits (index caller))) (by rw [words,List.length_set])
      (all ?_ correct.computed) ?_ ?_ others
    · rw [next]
      cases half <;> trivial
    · intro k
      rw [words,bit_set inside]
      by_cases here : k / 64 = half.word (get_internal_index Bits (index caller))
      · rw [if_pos here,new_word_bit small here,bit,here]
        simp only [true_and]
      · rw [if_neg here,if_neg fun both => here both.1]
    · intro k covers
      rw [next,stood]
      exact written_next small covers

private theorem Correct.run (small : Bits < 64) (distinct : Function.Injective index)
    (run : Relation.ReflTransGen (Step Bits index value) (State.start vector) state) : Correct Bits index value vector state := by
  induction run with
  | refl => exact correct_start
  | tail _ step ih => exact ih.step small distinct step

/-- In whatever order calls take their steps, in the end each element has its value and every other one is unchanged. -/
theorem writes_never_lost (small : Bits ≤ 63) (readable : vector.Readable Bits)
    (distinct : Function.Injective index) (inside : ∀ caller, index caller < vector.num_elements)
    (run : Relation.ReflTransGen (Step Bits index value) (State.start vector) state)
    (finished : ∀ caller, state.progress caller = .finished) :
    (∀ caller, state.vector.get Bits (index caller) = some (BitVec.ofNat 64 ((value caller).toNat % 2 ^ Bits))) ∧
      ∀ other < vector.num_elements, (∀ caller, index caller ≠ other) → state.vector.get Bits other = vector.get Bits other := by
  have narrow : Bits < 64 := Nat.lt_succ_of_le small
  have correct := Correct.run narrow distinct run
  have room (i : ℕ) (within : i < vector.num_elements) : state.vector.Room Bits i := by
    rw [PackedVector.Room,correct.length]
    exact readable i within
  refine ⟨?_,?_⟩
  · intro caller
    rw [PackedVector.get_eq narrow (room _ (inside caller))]
    congr 2
    apply PackedVector.element_eq_value
    intro k covers
    apply correct.written caller k covers
    rw [finished caller]
    trivial
  · intro other within untouched
    rw [PackedVector.get_eq narrow (room other within),PackedVector.get_eq narrow (readable other within)]
    congr 2
    apply PackedVector.element_congr
    intro j below
    apply correct.kept
    intro caller covers _
    exact untouched caller (covers.unique (PackedVector.covers_add other below))

private theorem follow_reaches (state : State Caller) (callers : List Caller) :
    Relation.ReflTransGen (Step Bits index value) state (state.follow Bits index value callers) := by
  induction callers generalizing state with
  | nil => exact .refl
  | cons caller callers ih =>
    have first : Relation.ReflTransGen (Step Bits index value) state ((state.step Bits index value caller).getD state) := by
      cases stepped : state.step Bits index value caller with
      | none => exact .refl
      | some next => exact .single ⟨caller,stepped⟩
    exact first.trans (ih _)

/-- Two calls on neighbouring elements of 33 bits, which share a word: the second finds it changed and tries again. -/
def contended : State Bool :=
  (State.start (PackedVector.empty.resize 33 2)).follow 33 (fun caller => if caller then 0 else 1)
    (fun caller => if caller then 5 else 0x1ffffffff#64)
    [true,false,true,false,true,false,false,false,false,true,true,true,false,false,false]

theorem writes_never_lost_contended : (∀ caller : Bool, contended.vector.get 33 (if caller then 0 else 1) =
      some (BitVec.ofNat 64 ((if caller then 5 else 0x1ffffffff#64 : Word).toNat % 2 ^ 33))) ∧
    ∀ other < 2, (∀ caller : Bool, (if caller then 0 else 1) ≠ other) →
      contended.vector.get 33 other = (PackedVector.empty.resize 33 2).get 33 other := by
  refine writes_never_lost (by decide) (PackedVector.readable_resize (by decide) _ 2) ?_ ?_ (follow_reaches _ _) ?_
  · decide
  · decide
  · decide +kernel

end Calls

end Osrm.PackedWriters
