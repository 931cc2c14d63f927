import Mathlib.Data.List.GetD
import Osrm.WordBits

/-!
`util/packed_vector.hpp`. The elements of a packed vector have `Bits` bits each and stand one behind the other in
64-bit words.
-/
namespace Osrm.PackedVectors
open List
open WordBits

abbrev Word := BitVec 64

def WORD_BITS : ℕ := 64
def BLOCK_ELEMENTS : ℕ := WORD_BITS

section Tables
variable (Bits : ℕ)

def BLOCK_WORDS : ℕ := Bits * BLOCK_ELEMENTS / WORD_BITS
/-- The loop that fills a table: an entry for every element of a block, from the offset of its first bit. -/
def initialize_table {α : Type} (entry : ℕ → α) : List α :=
  ((List.range BLOCK_ELEMENTS).foldl (fun (offset,table) _ => (offset + Bits,table ++ [entry offset])) (0,[])).2
def mask : Word := ((1 : Word) <<< Bits) - 1
def lower_mask : List Word := initialize_table Bits fun offset => mask Bits <<< (offset % WORD_BITS)
def upper_mask : List Word := initialize_table Bits fun offset =>
  let local_offset := offset % WORD_BITS
  if local_offset + Bits > WORD_BITS then mask Bits >>> (WORD_BITS - local_offset) else 0
def lower_offset : List ℕ := initialize_table Bits fun offset => offset % WORD_BITS
def upper_offset : List ℕ := initialize_table Bits fun offset =>
  let local_offset := offset % WORD_BITS
  if local_offset + Bits > WORD_BITS then WORD_BITS - local_offset else Bits
def word_offset : List ℕ := initialize_table Bits fun offset => offset / WORD_BITS

end Tables

def get_lower_half_value (word mask : Word) (offset : ℕ) : Word := (word &&& mask) >>> offset
def get_upper_half_value (word mask : Word) (offset : ℕ) : Word := (word &&& mask) <<< offset
def set_lower_value (word mask : Word) (offset : ℕ) (value : Word) : Word := (word &&& ~~~mask) ||| ((value <<< offset) &&& mask)
def set_upper_value (word mask : Word) (offset : ℕ) (value : Word) : Word := (word &&& ~~~mask) ||| ((value >>> offset) &&& mask)

/-- The word with the lower part of an element, and the element of the block. -/
structure InternalIndex where
  lower_word : ℕ
  element : ℕ
  deriving DecidableEq, Repr

def get_internal_index (Bits index : ℕ) : InternalIndex :=
  let block_offset := BLOCK_WORDS Bits * (index / BLOCK_ELEMENTS)
  let element_index := index % BLOCK_ELEMENTS
  ⟨block_offset + (word_offset Bits).getD element_index 0,element_index⟩

/-- What `set_value` makes of the lower word. -/
def new_lower_word (Bits : ℕ) (internal_index : InternalIndex) (value local_lower_word : Word) : Word :=
  set_lower_value local_lower_word ((lower_mask Bits).getD internal_index.element 0)
    ((lower_offset Bits).getD internal_index.element 0) value
/-- What `set_value` makes of the upper word. -/
def new_upper_word (Bits : ℕ) (internal_index : InternalIndex) (value local_upper_word : Word) : Word :=
  set_upper_value local_upper_word ((upper_mask Bits).getD internal_index.element 0)
    ((upper_offset Bits).getD internal_index.element 0) value

structure PackedVector where
  vec : List Word
  num_elements : ℕ
  deriving DecidableEq, Repr

namespace PackedVector

def empty : PackedVector := ⟨[],0⟩

section Operations
variable (Bits : ℕ)

def get_value (self : PackedVector) (internal_index : InternalIndex) : Option Word := do
  let lower_word ← self.vec[internal_index.lower_word]?
  let upper_word ← self.vec[internal_index.lower_word + 1]?
  return get_lower_half_value lower_word ((lower_mask Bits).getD internal_index.element 0)
      ((lower_offset Bits).getD internal_index.element 0) |||
    get_upper_half_value upper_word ((upper_mask Bits).getD internal_index.element 0)
      ((upper_offset Bits).getD internal_index.element 0)

/-- `set_value`, when nobody else writes: each of the two loops succeeds at once. -/
def set_value (self : PackedVector) (internal_index : InternalIndex) (value : Word) : Option PackedVector := do
  let lower_word ← self.vec[internal_index.lower_word]?
  let upper_word ← self.vec[internal_index.lower_word + 1]?
  let vec := self.vec.set internal_index.lower_word (new_lower_word Bits internal_index value lower_word)
  return { self with vec := vec.set (internal_index.lower_word + 1) (new_upper_word Bits internal_index value upper_word) }

/-- `operator[]` and the conversion of the reference it returns. -/
def get (self : PackedVector) (index : ℕ) : Option Word := self.get_value Bits (get_internal_index Bits index)
/-- `operator[]` and an assignment to the reference it returns. -/
def assign (self : PackedVector) (index : ℕ) (value : Word) : Option PackedVector :=
  self.set_value Bits (get_internal_index Bits index) value
def allocate_blocks (self : PackedVector) (num_blocks : ℕ) : PackedVector :=
  { self with vec := WordBits.resize self.vec (self.vec.length + num_blocks * BLOCK_WORDS Bits) }

/-- The loop of `push_back`, for at most so many rounds. -/
def allocateFor (lower_word : ℕ) : ℕ → PackedVector → PackedVector
  | 0, self => self
  | fuel + 1, self =>
    if lower_word + 1 ≥ self.vec.length then allocateFor lower_word fuel (self.allocate_blocks Bits 1) else self

def push_back (self : PackedVector) (value : Word) : Option PackedVector := do
  let internal_index := get_internal_index Bits self.num_elements
  let self := allocateFor Bits internal_index.lower_word (internal_index.lower_word + 2) self
  let self ← self.set_value Bits internal_index value
  return { self with num_elements := self.num_elements + 1 }

def resize (self : PackedVector) (elements : ℕ) : PackedVector :=
  let num_blocks := (elements + BLOCK_ELEMENTS - 1) / BLOCK_ELEMENTS
  ⟨WordBits.resize self.vec (num_blocks * BLOCK_WORDS Bits + 1),elements⟩

end Operations

end PackedVector

section Tables
variable {Bits : ℕ}

private theorem initialize_table_getElem? {α : Type} (entry : ℕ → α) (e : ℕ) :
    (initialize_table Bits entry)[e]? = if e < 64 then some (entry (e * Bits)) else none := by
  have filled (count : ℕ) :
      (List.range count).foldl (fun (offset,table) _ => (offset + Bits,table ++ [entry offset])) (0,([] : List α)) =
        (count * Bits,(List.range count).map fun e => entry (e * Bits)) := by
    induction count with
    | zero => simp
    | succ count ih =>
      rw [range_succ,foldl_append,ih]
      simp [Nat.succ_mul]
  rw [initialize_table,filled,getElem?_map,BLOCK_ELEMENTS,WORD_BITS]
  by_cases inside : e < 64
  · rw [getElem?_range inside,if_pos inside]
    rfl
  · rw [getElem?_eq_none (by simpa using inside),if_neg inside]
    rfl

theorem initialize_table_getD {α : Type} (entry : ℕ → α) (default : α) {e : ℕ} (inside : e < 64) :
    (initialize_table Bits entry).getD e default = entry (e * Bits) := by
  rw [getD_eq_getElem?_getD,initialize_table_getElem?,if_pos inside]
  rfl

private theorem mask_bit (small : Bits < 64) (j : ℕ) : (mask Bits).getLsbD j = decide (j < Bits) := by
  have value : (mask Bits).toNat = 2 ^ Bits - 1 := by
    have power : 2 ^ Bits < 2 ^ 64 := Nat.pow_lt_pow_right (by decide) small
    have positive : 0 < 2 ^ Bits := Nat.two_pow_pos Bits
    have one : ((1 : Word) <<< Bits).toNat = 2 ^ Bits := by
      rw [BitVec.toNat_shiftLeft,Nat.shiftLeft_eq,BitVec.ofNat_eq_ofNat,BitVec.toNat_ofNat,Nat.mod_eq_of_lt (by decide : 1 < 2 ^ 64),
        Nat.one_mul,Nat.mod_eq_of_lt power]
    rw [mask,BitVec.toNat_sub_of_le]
    · rw [one]
      rfl
    · rw [BitVec.le_def,one]
      exact positive
  rw [BitVec.getLsbD,value,Nat.testBit_two_pow_sub_one]

def Covers (Bits index k : ℕ) : Prop := index * Bits ≤ k ∧ k < (index + 1) * Bits

instance (Bits index k : ℕ) : Decidable (Covers Bits index k) := inferInstanceAs (Decidable (_ ∧ _))

def localOffset (Bits index : ℕ) : ℕ := index % 64 * Bits % 64

private theorem localOffset_lt (Bits index : ℕ) : localOffset Bits index < 64 := Nat.mod_lt _ (by decide)

private theorem lower_word_eq (Bits index : ℕ) :
    (get_internal_index Bits index).lower_word = Bits * (index / 64) + index % 64 * Bits / 64 := by
  have words : BLOCK_WORDS Bits = Bits := Nat.mul_div_cancel Bits (by decide)
  have entry : (word_offset Bits).getD (index % 64) 0 = index % 64 * Bits / 64 :=
    initialize_table_getD _ _ (Nat.mod_lt _ (by decide))
  simp only [get_internal_index,words,BLOCK_ELEMENTS,WORD_BITS,entry]

private theorem first_bit (Bits index : ℕ) : (get_internal_index Bits index).lower_word * 64 + localOffset Bits index = index * Bits := by
  rw [lower_word_eq,localOffset]
  calc (Bits * (index / 64) + index % 64 * Bits / 64) * 64 + index % 64 * Bits % 64
      = Bits * (index / 64) * 64 + (64 * (index % 64 * Bits / 64) + index % 64 * Bits % 64) := by ring
    _ = Bits * (index / 64) * 64 + index % 64 * Bits := by rw [Nat.div_add_mod]
    _ = (64 * (index / 64) + index % 64) * Bits := by ring
    _ = index * Bits := by rw [Nat.div_add_mod]

private theorem lower_mask_eq (Bits index : ℕ) :
    (lower_mask Bits).getD (get_internal_index Bits index).element 0 = mask Bits <<< localOffset Bits index :=
  initialize_table_getD _ _ (Nat.mod_lt _ (by decide))

private theorem lower_offset_eq (Bits index : ℕ) :
    (lower_offset Bits).getD (get_internal_index Bits index).element 0 = localOffset Bits index :=
  initialize_table_getD _ _ (Nat.mod_lt _ (by decide))

private theorem upper_mask_eq (Bits index : ℕ) :
    (upper_mask Bits).getD (get_internal_index Bits index).element 0 =
      if localOffset Bits index + Bits > 64 then mask Bits >>> (64 - localOffset Bits index) else 0 :=
  initialize_table_getD _ _ (Nat.mod_lt _ (by decide))

private theorem upper_offset_eq (Bits index : ℕ) :
    (upper_offset Bits).getD (get_internal_index Bits index).element 0 =
      if localOffset Bits index + Bits > 64 then 64 - localOffset Bits index else Bits :=
  initialize_table_getD _ _ (Nat.mod_lt _ (by decide))

theorem Covers.word (small : Bits < 64) {index k : ℕ} (covers : Covers Bits index k) :
    k / 64 = (get_internal_index Bits index).lower_word ∨ k / 64 = (get_internal_index Bits index).lower_word + 1 := by
  obtain ⟨low,high⟩ := covers
  have first := first_bit Bits index
  have inside := localOffset_lt Bits index
  rw [Nat.add_mul,Nat.one_mul] at high
  omega

theorem Covers.unique {index index' k : ℕ} (covers : Covers Bits index k) (covers' : Covers Bits index' k) : index = index' := by
  rcases Nat.lt_trichotomy index index' with less | same | greater
  · have ordered := Nat.mul_le_mul_right Bits (Nat.succ_le_of_lt less)
    exact absurd (covers.2.trans_le (ordered.trans covers'.1)) (lt_irrefl _)
  · exact same
  · have ordered := Nat.mul_le_mul_right Bits (Nat.succ_le_of_lt greater)
    exact absurd (covers'.2.trans_le (ordered.trans covers.1)) (lt_irrefl _)

end Tables

section Words
variable {Bits index b : ℕ} {word value : Word}

theorem new_lower_word_bit (small : Bits < 64) (inside : b < 64) :
    (new_lower_word Bits (get_internal_index Bits index) value word).getLsbD b =
      if Covers Bits index ((get_internal_index Bits index).lower_word * 64 + b)
      then value.getLsbD ((get_internal_index Bits index).lower_word * 64 + b - index * Bits) else word.getLsbD b := by
  have first := first_bit Bits index
  rw [new_lower_word,lower_mask_eq,lower_offset_eq,set_lower_value]
  generalize get_internal_index Bits index = internal_index at first ⊢
  generalize localOffset Bits index = local_offset at first ⊢
  simp only [BitVec.getLsbD_or,BitVec.getLsbD_and,BitVec.getLsbD_not,BitVec.getLsbD_shiftLeft,mask_bit small,inside,decide_true,
    Bool.true_and]
  by_cases covers : Covers Bits index (internal_index.lower_word * 64 + b)
  · obtain ⟨low,high⟩ := covers
    rw [Nat.add_mul,Nat.one_mul] at high
    have place : internal_index.lower_word * 64 + b - index * Bits = b - local_offset := by omega
    have above : ¬ b < local_offset := by omega
    have below : b - local_offset < Bits := by omega
    rw [if_pos ⟨low,by rw [Nat.add_mul,Nat.one_mul]; exact high⟩,place]
    simp [above,below]
  · rw [if_neg covers]
    have outside : b < local_offset ∨ ¬ b - local_offset < Bits := by
      by_contra within
      push Not at within
      refine covers ⟨by omega,?_⟩
      rw [Nat.add_mul,Nat.one_mul]
      omega
    rcases outside with before | behind
    · simp [before]
    · simp [behind]

theorem new_upper_word_bit (small : Bits < 64) (inside : b < 64) :
    (new_upper_word Bits (get_internal_index Bits index) value word).getLsbD b =
      if Covers Bits index (((get_internal_index Bits index).lower_word + 1) * 64 + b)
      then value.getLsbD (((get_internal_index Bits index).lower_word + 1) * 64 + b - index * Bits) else word.getLsbD b := by
  have first := first_bit Bits index
  have begins := localOffset_lt Bits index
  rw [new_upper_word,upper_mask_eq,upper_offset_eq,set_upper_value]
  generalize get_internal_index Bits index = internal_index at first ⊢
  generalize localOffset Bits index = local_offset at first begins ⊢
  have outside (above : local_offset + Bits ≤ 64 + b) : ¬ Covers Bits index ((internal_index.lower_word + 1) * 64 + b) := by
    rintro ⟨-,high⟩
    rw [Nat.add_mul index,Nat.one_mul] at high
    omega
  by_cases straddles : local_offset + Bits > 64
  · rw [if_pos straddles,if_pos straddles]
    simp only [BitVec.getLsbD_or,BitVec.getLsbD_and,BitVec.getLsbD_not,BitVec.getLsbD_ushiftRight,mask_bit small,inside,decide_true,
      Bool.true_and]
    by_cases below : 64 - local_offset + b < Bits
    · have covers : Covers Bits index ((internal_index.lower_word + 1) * 64 + b) := by
        refine ⟨by omega,?_⟩
        rw [Nat.add_mul index,Nat.one_mul]
        omega
      have place : (internal_index.lower_word + 1) * 64 + b - index * Bits = 64 - local_offset + b := by omega
      rw [if_pos covers,place]
      simp [below]
    · rw [if_neg (outside (by omega))]
      simp [below]
  · rw [if_neg straddles,if_neg straddles,if_neg (outside (by omega))]
    simp only [BitVec.getLsbD_or,BitVec.getLsbD_and,BitVec.getLsbD_not,BitVec.ofNat_eq_ofNat,BitVec.getLsbD_zero,inside,decide_true,
      Bool.not_false,Bool.and_true,Bool.and_false,Bool.or_false]

private theorem halves_bit (small : Bits < 64) {vec : List Word} {j : ℕ} (inside : j < 64) :
    (get_lower_half_value (vec.getD (get_internal_index Bits index).lower_word 0)
        ((lower_mask Bits).getD (get_internal_index Bits index).element 0)
        ((lower_offset Bits).getD (get_internal_index Bits index).element 0) |||
      get_upper_half_value (vec.getD ((get_internal_index Bits index).lower_word + 1) 0)
        ((upper_mask Bits).getD (get_internal_index Bits index).element 0)
        ((upper_offset Bits).getD (get_internal_index Bits index).element 0)).getLsbD j =
      (decide (j < Bits) && bit vec (index * Bits + j)) := by
  have first := first_bit Bits index
  have begins := localOffset_lt Bits index
  rw [lower_mask_eq,lower_offset_eq,upper_mask_eq,upper_offset_eq,get_lower_half_value,get_upper_half_value]
  generalize get_internal_index Bits index = internal_index at first ⊢
  generalize localOffset Bits index = local_offset at first begins ⊢
  simp only [BitVec.getLsbD_or,BitVec.getLsbD_and,BitVec.getLsbD_ushiftRight,BitVec.getLsbD_shiftLeft,mask_bit small,inside,decide_true,
    Bool.true_and]
  rcases Nat.lt_or_ge (local_offset + j) 64 with lower | upper
  · -- the bit is in the lower word
    have place : index * Bits + j = internal_index.lower_word * 64 + (local_offset + j) := by omega
    rw [place,bit_at lower]
    by_cases straddles : local_offset + Bits > 64
    · have before : j < 64 - local_offset := by omega
      simp [straddles,before,lower,Bool.and_comm]
    · simp [straddles,lower,Bool.and_comm]
  · -- the bit is in the upper word
    have place : index * Bits + j = (internal_index.lower_word + 1) * 64 + (local_offset + j - 64) := by omega
    rw [place,bit_at (by omega)]
    have notLower : ¬ local_offset + j < 64 := by omega
    by_cases straddles : local_offset + Bits > 64
    · have behind : ¬ j < 64 - local_offset := by omega
      have offset : j - (64 - local_offset) = local_offset + j - 64 := by omega
      have back : 64 - local_offset + (local_offset + j - 64) = j := by omega
      simp [straddles,notLower,behind,offset,back,mask_bit small,Bool.and_comm]
    · have beyond : ¬ j < Bits := by omega
      simp [straddles,notLower,beyond]

end Words

/-! ### Reading and writing elements -/

namespace PackedVector
section
variable {Bits index : ℕ} {self : PackedVector} {value : Word}

def Room (Bits : ℕ) (self : PackedVector) (index : ℕ) : Prop := (get_internal_index Bits index).lower_word + 1 < self.vec.length

theorem Room.upper (room : self.Room Bits index) : (get_internal_index Bits index).lower_word + 1 < self.vec.length := room
private theorem Room.lower (room : self.Room Bits index) : (get_internal_index Bits index).lower_word < self.vec.length :=
  Nat.lt_of_succ_lt room
theorem getElem?_eq_getD {words : List Word} {i : ℕ} (inside : i < words.length) : words[i]? = some (words.getD i 0) := by
  rw [getElem?_eq_getElem inside,getD_eq_getElem _ _ inside]

theorem set_value_eq {internal_index : InternalIndex} {lower_word upper_word : Word}
    (lower : self.vec[internal_index.lower_word]? = some lower_word) (upper : self.vec[internal_index.lower_word + 1]? = some upper_word) :
    self.set_value Bits internal_index value =
      some ⟨(self.vec.set internal_index.lower_word (new_lower_word Bits internal_index value lower_word)).set
        (internal_index.lower_word + 1) (new_upper_word Bits internal_index value upper_word),self.num_elements⟩ := by
  rw [set_value,lower,upper]
  rfl

/-- The integer whose bits stand from `index * Bits` on. -/
def element (Bits : ℕ) (self : PackedVector) (index : ℕ) : ℕ := Nat.ofBits fun j : Fin Bits => bit self.vec (index * Bits + j)

private theorem element_lt (Bits : ℕ) (self : PackedVector) (index : ℕ) : self.element Bits index < 2 ^ Bits := Nat.ofBits_lt_two_pow _

theorem element_congr {self' : PackedVector} {index' : ℕ}
    (same : ∀ j < Bits, bit self.vec (index * Bits + j) = bit self'.vec (index' * Bits + j)) :
    self.element Bits index = self'.element Bits index' :=
  congrArg Nat.ofBits (funext fun j => same j j.isLt)

/-- What is read is the element. -/
theorem get_eq (small : Bits < 64) (room : self.Room Bits index) :
    self.get Bits index = some (BitVec.ofNat 64 (self.element Bits index)) := by
  rw [get,get_value,getElem?_eq_getD room.lower,getElem?_eq_getD room.upper]
  apply congrArg some
  apply BitVec.eq_of_getLsbD_eq
  intro j inside
  rw [halves_bit small inside,BitVec.getLsbD_ofNat,element,Nat.testBit_ofBits]
  by_cases below : j < Bits
  · simp [below,inside]
  · simp [below]

private theorem assign_spec (small : Bits < 64) (room : self.Room Bits index) (value : Word) :
    ∃ self', self.assign Bits index value = some self' ∧ self'.vec.length = self.vec.length ∧ self'.num_elements = self.num_elements ∧
      ∀ k, bit self'.vec k = if Covers Bits index k then value.getLsbD (k - index * Bits) else bit self.vec k := by
  refine ⟨_,set_value_eq (getElem?_eq_getD room.lower) (getElem?_eq_getD room.upper),?_,rfl,?_⟩
  · rw [length_set,length_set]
  intro k
  have inside : k % 64 < 64 := Nat.mod_lt _ (by decide)
  rw [bit_set (by rw [length_set]; exact room.upper),bit_set room.lower]
  by_cases upper : k / 64 = (get_internal_index Bits index).lower_word + 1
  · have place : ((get_internal_index Bits index).lower_word + 1) * 64 + k % 64 = k := by omega
    rw [if_pos upper,new_upper_word_bit small inside,place,bit,upper]
  · rw [if_neg upper]
    by_cases lower : k / 64 = (get_internal_index Bits index).lower_word
    · have place : (get_internal_index Bits index).lower_word * 64 + k % 64 = k := by omega
      rw [if_pos lower,new_lower_word_bit small inside,place,bit,lower]
    · have outside : ¬ Covers Bits index k := fun covers => (covers.word small).elim lower upper
      rw [if_neg lower,if_neg outside]

theorem covers_add {j : ℕ} (index : ℕ) (below : j < Bits) : Covers Bits index (index * Bits + j) :=
  ⟨Nat.le_add_right ..,by rw [Nat.add_mul,Nat.one_mul]; omega⟩

theorem element_eq_value (bits : ∀ k, Covers Bits index k → bit self.vec k = value.getLsbD (k - index * Bits)) :
    self.element Bits index = value.toNat % 2 ^ Bits := by
  rw [element,← Nat.ofBits_testBit]
  apply congrArg Nat.ofBits
  funext j
  rw [bits _ (covers_add index j.isLt),Nat.add_sub_cancel_left]
  rfl

private theorem assign_element (small : Bits < 64) (room : self.Room Bits index) (value : Word) :
    ∃ self', self.assign Bits index value = some self' ∧ self'.vec.length = self.vec.length ∧ self'.num_elements = self.num_elements ∧
      ∀ other, self'.element Bits other = if other = index then value.toNat % 2 ^ Bits else self.element Bits other := by
  obtain ⟨self',assigned,words,count,bits⟩ := assign_spec small room value
  refine ⟨self',assigned,words,count,?_⟩
  intro other
  by_cases same : other = index
  · subst same
    rw [if_pos rfl]
    apply element_eq_value
    intro k covers
    rw [bits,if_pos covers]
  · rw [if_neg same]
    apply element_congr
    intro j below
    rw [bits,if_neg fun both => same ((covers_add other below).unique both)]

private theorem allocateFor_spec (positive : 0 < Bits) {lower_word fuel : ℕ} (enough : lower_word + 1 < self.vec.length + fuel) :
    lower_word + 1 < (allocateFor Bits lower_word fuel self).vec.length ∧
      self.vec.length ≤ (allocateFor Bits lower_word fuel self).vec.length ∧
      (allocateFor Bits lower_word fuel self).num_elements = self.num_elements ∧
      ∀ k, bit (allocateFor Bits lower_word fuel self).vec k = bit self.vec k := by
  induction fuel generalizing self with
  | zero => exact ⟨enough,le_rfl,rfl,fun _ => rfl⟩
  | succ fuel ih =>
    rw [allocateFor]
    by_cases short : lower_word + 1 ≥ self.vec.length
    · have words : BLOCK_WORDS Bits = Bits := Nat.mul_div_cancel Bits (by decide)
      have length : (self.allocate_blocks Bits 1).vec.length = self.vec.length + Bits := by
        rw [allocate_blocks,length_resize,words,Nat.one_mul]
      obtain ⟨room,grows,count,bits⟩ := @ih (self.allocate_blocks Bits 1) (by rw [length]; omega)
      rw [if_pos short]
      refine ⟨room,by rw [length] at grows; omega,count,?_⟩
      intro k
      rw [bits,allocate_blocks,bit_resize_of_le (Nat.le_add_right ..)]
    · rw [if_neg short]
      exact ⟨Nat.not_le.mp short,le_rfl,rfl,fun _ => rfl⟩

def contents (Bits : ℕ) (self : PackedVector) : List ℕ := (List.range self.num_elements).map (self.element Bits)
def Readable (Bits : ℕ) (self : PackedVector) : Prop := ∀ index < self.num_elements, self.Room Bits index

private theorem length_contents (Bits : ℕ) (self : PackedVector) : (self.contents Bits).length = self.num_elements := by
  rw [contents,length_map,length_range]

private theorem contents_getElem? (inside : index < self.num_elements) : (self.contents Bits)[index]? = some (self.element Bits index) := by
  rw [contents,getElem?_map,getElem?_range inside]
  rfl

private theorem Readable.push_back (readable : self.Readable Bits) (positive : 0 < Bits) (small : Bits < 64) (value : Word) :
    ∃ self', self.push_back Bits value = some self' ∧ self'.Readable Bits ∧
      self'.contents Bits = self.contents Bits ++ [value.toNat % 2 ^ Bits] := by
  obtain ⟨room,grows,count,bits⟩ := @allocateFor_spec Bits self positive (get_internal_index Bits self.num_elements).lower_word
    ((get_internal_index Bits self.num_elements).lower_word + 2) (by omega)
  obtain ⟨self',assigned,words,count',elements⟩ := assign_element small room value
  refine ⟨{ self' with num_elements := self.num_elements + 1 },?_,?_,?_⟩
  · rw [assign] at assigned
    rw [PackedVector.push_back]
    simp only [assigned,count',count,Option.bind_eq_bind,Option.bind_some,Option.pure_def]
  · intro index inside
    change (get_internal_index Bits index).lower_word + 1 < self'.vec.length
    rw [words]
    rcases Nat.lt_succ_iff_lt_or_eq.mp inside with old | rfl
    · exact (readable index old).upper.trans_le grows
    · exact room
  · rw [contents,contents,range_succ,map_append]
    congr 1
    · apply map_congr_left
      intro index old
      have other : index ≠ self.num_elements := Nat.ne_of_lt (mem_range.mp old)
      refine (elements index).trans ((if_neg other).trans ?_)
      exact element_congr fun j _ => bits _
    · exact congrArg (fun integer => [integer]) ((elements self.num_elements).trans (if_pos rfl))

theorem Readable.assign (readable : self.Readable Bits) (small : Bits < 64) (inside : index < self.num_elements) (value : Word) :
    ∃ self', self.assign Bits index value = some self' ∧ self'.Readable Bits ∧
      self'.contents Bits = (self.contents Bits).set index (value.toNat % 2 ^ Bits) := by
  obtain ⟨self',assigned,words,count,elements⟩ := assign_element small (readable index inside) value
  refine ⟨self',assigned,?_,?_⟩
  · intro other within
    rw [Room,words]
    exact readable other (count ▸ within)
  · apply ext_getElem?
    intro other
    rw [getElem?_set,length_contents]
    by_cases within : other < self.num_elements
    · rw [contents_getElem? (count.symm ▸ within),elements,contents_getElem? within]
      by_cases same : other = index
      · rw [if_pos same,if_pos same.symm,if_pos inside]
      · rw [if_neg same,if_neg (Ne.symm same)]
    · have outside : self.num_elements ≤ other := Nat.not_lt.mp within
      have other_ne : index ≠ other := Nat.ne_of_lt (inside.trans_le outside)
      rw [if_neg other_ne,getElem?_eq_none (by rw [length_contents,count]; exact outside),
        getElem?_eq_none (by rw [length_contents]; exact outside)]

theorem readable_resize (positive : 0 < Bits) (self : PackedVector) (elements : ℕ) : (self.resize Bits elements).Readable Bits := by
  intro index inside
  have words : BLOCK_WORDS Bits = Bits := Nat.mul_div_cancel Bits (by decide)
  have inside : index < elements := inside
  have block : index / 64 + 1 ≤ (elements + 64 - 1) / 64 := by omega
  have within : index % 64 * Bits / 64 < Bits := by
    apply Nat.div_lt_of_lt_mul
    exact Nat.mul_lt_mul_of_pos_right (Nat.mod_lt _ (by decide)) positive
  rw [Room,PackedVector.resize,length_resize,lower_word_eq,words,BLOCK_ELEMENTS,WORD_BITS]
  calc Bits * (index / 64) + index % 64 * Bits / 64 + 1
      < Bits * (index / 64) + Bits + 1 := by omega
    _ = (index / 64 + 1) * Bits + 1 := by ring
    _ ≤ (elements + 64 - 1) / 64 * Bits + 1 := Nat.add_le_add_right (Nat.mul_le_mul_right Bits block) 1

private theorem contents_resize (positive : 0 < Bits) (small : Bits < 64) (self : PackedVector) (elements : ℕ) :
    (self.resize Bits elements).contents Bits =
      (self.contents Bits).take elements ++ ((self.resize Bits elements).contents Bits).drop self.num_elements := by
  have kept : ((self.resize Bits elements).contents Bits).take self.num_elements = (self.contents Bits).take elements := by
    rw [contents,contents,← map_take,← map_take,take_range,take_range,Nat.min_comm]
    apply map_congr_left
    intro index inside
    have inside : index < elements := (Nat.lt_min.mp (mem_range.mp inside)).1
    have room := readable_resize positive self elements index inside
    apply element_congr
    intro j below
    have within : (index * Bits + j) / 64 < (self.resize Bits elements).vec.length := by
      rcases (covers_add index below).word small with lower | upper
      · rw [lower]
        exact room.lower
      · rw [upper]
        exact room.upper
    rw [PackedVector.resize,length_resize] at within
    exact bit_resize within
  rw [← kept,take_append_drop]

end
end PackedVector

/-! ### Calls on several vectors -/

/-- What can be done with the vectors. Reading and assigning go through `operator[]`. -/
inductive Call (Name : Type)
  | push_back (name : Name) (value : Word)
  | resize (name : Name) (elements : ℕ)
  | assign (name : Name) (index : ℕ) (value : Word)
  | read (name : Name) (index : ℕ)
  | size (name : Name)
  | swap (name other : Name)
  deriving DecidableEq, Repr

section Runs
variable {Name : Type} [DecidableEq Name] (Bits : ℕ)

/-- The vectors after a call and the integer it returns; nothing if it reads or writes beyond the words. -/
def perform (vectors : Name → PackedVector) : Call Name → Option ((Name → PackedVector) × Option ℕ)
  | .push_back name value =>
    ((vectors name).push_back Bits value).map fun vector => (Function.update vectors name vector,none)
  | .resize name elements => some (Function.update vectors name ((vectors name).resize Bits elements),none)
  | .assign name index value =>
    ((vectors name).assign Bits index value).map fun vector => (Function.update vectors name vector,none)
  | .read name index => ((vectors name).get Bits index).map fun value => (vectors,some value.toNat)
  | .size name => some (vectors,some (vectors name).num_elements)
  | .swap name other => some (Function.update (Function.update vectors name (vectors other)) other (vectors name),none)

def InRange (lists : Name → List ℕ) : Call Name → Prop
  | .assign name index _ | .read name index => index < (lists name).length
  | .push_back .. | .resize .. | .size _ | .swap .. => True

/-- What plain lists of integers modulo `2 ^ Bits` do and return. Growing a list adds any such integers. -/
def Plain (lists lists' : Name → List ℕ) (result : Option ℕ) : Call Name → Prop
  | .push_back name value =>
    lists' = Function.update lists name (lists name ++ [value.toNat % 2 ^ Bits]) ∧ result = none
  | .resize name elements => ∃ added, (∀ integer ∈ added, integer < 2 ^ Bits) ∧ added.length = elements - (lists name).length ∧
      lists' = Function.update lists name ((lists name).take elements ++ added) ∧ result = none
  | .assign name index value =>
    lists' = Function.update lists name ((lists name).set index (value.toNat % 2 ^ Bits)) ∧ result = none
  | .read name index => lists' = lists ∧ result = (lists name)[index]?
  | .size name => lists' = lists ∧ result = some (lists name).length
  | .swap name other =>
    lists' = Function.update (Function.update lists name (lists other)) other (lists name) ∧ result = none

/-- The vectors do what plain lists do, as long as the indices are in range. -/
def Faithful (vectors : Name → PackedVector) (lists : Name → List ℕ) : List (Call Name) → Prop
  | [] => True
  | call :: calls => InRange lists call → ∃ vectors' lists' result, perform Bits vectors call = some (vectors',result) ∧
      Plain Bits lists lists' result call ∧ Faithful vectors' lists' calls

variable {Bits} {vectors : Name → PackedVector} {name other : Name} {call : Call Name}

def listsOf (Bits : ℕ) (vectors : Name → PackedVector) : Name → List ℕ := fun name => (vectors name).contents Bits

private theorem listsOf_update (vectors : Name → PackedVector) (name : Name) (vector : PackedVector) :
    listsOf Bits (Function.update vectors name vector) = Function.update (listsOf Bits vectors) name (vector.contents Bits) :=
  Function.comp_update (PackedVector.contents Bits) vectors name vector

private theorem readable_update (readable : ∀ name, (vectors name).Readable Bits) {vector : PackedVector} (new : vector.Readable Bits)
    (name other : Name) : (Function.update vectors name vector other).Readable Bits := by
  rw [Function.update_apply]
  by_cases same : other = name
  · rw [if_pos same]
    exact new
  · rw [if_neg same]
    exact readable other

private theorem perform_spec (positive : 0 < Bits) (small : Bits < 64) (readable : ∀ name, (vectors name).Readable Bits)
    (inRange : InRange (listsOf Bits vectors) call) :
    ∃ vectors' result, perform Bits vectors call = some (vectors',result) ∧
      Plain Bits (listsOf Bits vectors) (listsOf Bits vectors') result call ∧ ∀ name, (vectors' name).Readable Bits := by
  cases call with
  | push_back name value =>
    obtain ⟨vector,pushed,new,contents⟩ := (readable name).push_back positive small value
    refine ⟨Function.update vectors name vector,none,by rw [perform,pushed]; rfl,⟨?_,rfl⟩,readable_update readable new name⟩
    rw [listsOf_update,contents]
    rfl
  | resize name elements =>
    let vector := (vectors name).resize Bits elements
    refine ⟨Function.update vectors name vector,none,rfl,?_,
      readable_update readable (PackedVector.readable_resize positive _ _) name⟩
    refine ⟨(vector.contents Bits).drop (vectors name).num_elements,?_,?_,?_,rfl⟩
    · intro integer added
      obtain ⟨index,-,rfl⟩ := mem_map.mp (mem_of_mem_drop added)
      exact vector.element_lt Bits index
    · rw [length_drop,vector.length_contents,listsOf,PackedVector.length_contents]
      rfl
    · rw [listsOf_update]
      exact congrArg (Function.update (listsOf Bits vectors) name) (PackedVector.contents_resize positive small _ _)
  | assign name index value =>
    have inside : index < (vectors name).num_elements := (PackedVector.length_contents Bits (vectors name)) ▸ inRange
    obtain ⟨vector,assigned,new,contents⟩ := (readable name).assign small inside value
    refine ⟨Function.update vectors name vector,none,by rw [perform,assigned]; rfl,⟨?_,rfl⟩,readable_update readable new name⟩
    rw [listsOf_update,contents]
    rfl
  | read name index =>
    have inside : index < (vectors name).num_elements := (PackedVector.length_contents Bits (vectors name)) ▸ inRange
    have below : (vectors name).element Bits index < 2 ^ 64 :=
      ((vectors name).element_lt Bits index).trans (Nat.pow_lt_pow_right (by decide) small)
    refine ⟨vectors,_,by rw [perform,PackedVector.get_eq small (readable name index inside)]; rfl,⟨rfl,?_⟩,readable⟩
    rw [listsOf,PackedVector.contents_getElem? inside,BitVec.toNat_ofNat,Nat.mod_eq_of_lt below]
  | size name => exact ⟨vectors,_,rfl,⟨rfl,congrArg some (PackedVector.length_contents Bits (vectors name)).symm⟩,readable⟩
  | swap name other =>
    refine ⟨_,none,rfl,⟨?_,rfl⟩,readable_update (readable_update readable (readable other) name) (readable name) other⟩
    rw [listsOf_update,listsOf_update]
    rfl

private theorem faithful_of_readable (positive : 0 < Bits) (small : Bits < 64) (calls : List (Call Name))
    (readable : ∀ name, (vectors name).Readable Bits) : Faithful Bits vectors (listsOf Bits vectors) calls := by
  induction calls generalizing vectors with
  | nil => trivial
  | cons call calls ih =>
    intro inRange
    obtain ⟨vectors',result,performed,plain,readable'⟩ := perform_spec positive small readable inRange
    exact ⟨vectors',_,result,performed,plain,ih readable'⟩

/-- Every width makes a packed vector a list of integers of that width. -/
theorem packed_vectors_are_lists (Bits : ℕ) (positive : 1 ≤ Bits) (small : Bits ≤ 63) (calls : List (Call Name)) :
    Faithful Bits (fun _ : Name => PackedVector.empty) (fun _ => []) calls :=
  faithful_of_readable positive (Nat.lt_succ_of_le small) calls fun _ index inside => absurd inside (Nat.not_lt_zero index)

theorem packed_vectors_are_lists_straddling : Faithful 33 (fun _ : Bool => PackedVector.empty) (fun _ => [])
    [.push_back true 1,.push_back true 0x1ffffffff#64,.assign true 0 0x400000005#64,.swap true false,.read false 1] :=
  packed_vectors_are_lists 33 (by decide) (by decide) _

end Runs

end Osrm.PackedVectors
