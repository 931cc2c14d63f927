import Mathlib.Tactic
import Osrm.Swar

/-!
The block policies of `util/indexed_data.hpp`. A block holds `BLOCK_SIZE + 1` items: a prefix from which the lengths
of all but the last can be read, and the characters of the items.
-/
namespace Osrm.GroupBlocks
open List
open Swar

/-- What an unsigned integer of `w` bits holds. -/
def unsigned (w : ℕ) (x : ℤ) : ℕ := (x % 2 ^ w).toNat

/-- An exception, or a write behind the end of a vector, which has no defined meaning. -/
inductive Failure
  | exception (what : String)
  | write_past_end
  deriving DecidableEq, Repr

/-- `GroupBlockPolicy`. A range of offsets is the list of them, with the last one; an iterator to the values is
    its place. Reading gives `none` when a byte is read that is not there. -/
structure GroupBlockPolicy where
  BlockReference : Type
  zero : BlockReference
  offset : BlockReference → ℕ
  BLOCK_SIZE : ℕ
  WriteBlockReference : List ℕ → ℕ → Except Failure (BlockReference × ℕ)
  WriteBlockPrefix : List ℕ → Except Failure (List UInt8)
  ReadRefrencedBlock : BlockReference → ℕ → List UInt8 → ℕ → ℕ → Option (ℕ × ℕ)

/-- `data_length` for every pair of neighbours in a range of offsets. -/
def data_lengths : List ℕ → List ℕ
  | curr :: next :: rest => unsigned 32 ((next : ℤ) - curr) :: data_lengths (next :: rest)
  | _ => []

namespace VariableGroupBlock

structure BlockReference where
  offset : ℕ
  descriptor : BitVec 32
  deriving DecidableEq, Repr

def log256 (value : ℕ) : ℕ := if value = 0 then 0 else if value < 0x100 then 1 else if value < 0x10000 then 2 else 3
def lowBytes : ℕ → ℕ → List UInt8
  | 0, _ => []
  | count + 1, value => UInt8.ofNat value :: lowBytes count (value / 256)

/-- The places of the data and of the length, both advanced. -/
def var_advance (values : List UInt8) (data length byte_length : ℕ) : Option (ℕ × ℕ) :=
  if byte_length = 0 then some (data,length)
  else if byte_length = 1 then do
    let first ← values[length]?
    return (data + first.toNat,length + 1)
  else if byte_length = 2 then do
    let first ← values[length]?
    let second ← values[length + 1]?
    return (data + first.toNat + second.toNat <<< 8,length + 2)
  else do
    let first ← values[length]?
    let second ← values[length + 1]?
    let third ← values[length + 2]?
    return (data + first.toNat + second.toNat <<< 8 + third.toNat <<< 16,length + 3)

/-- Summation of 16 2-bit values using SWAR. -/
def sum2bits (value : BitVec 32) : BitVec 32 :=
  let value := (value >>> 2 &&& 0x33333333#32) + (value &&& 0x33333333#32)
  let value := (value >>> 4 &&& 0x0f0f0f0f#32) + (value &&& 0x0f0f0f0f#32)
  let value := (value >>> 8 &&& 0x00ff00ff#32) + (value &&& 0x00ff00ff#32)
  (value >>> 16 &&& 0x0000ffff#32) + (value &&& 0x0000ffff#32)

/-- The descriptor and the length of the prefix. The loop goes from the last length to the first one. -/
def writeDescriptor : List ℕ → Except Failure (BitVec 32 × ℕ)
  | [] => .ok (0,0)
  | data_length :: rest => do
    let (descriptor,prefix_length) ← writeDescriptor rest
    if 0x1000000 ≤ data_length then .error (.exception s!"too large data length {data_length}")
    else
      let byte_length := log256 data_length
      .ok (descriptor <<< 2 ||| BitVec.ofNat 32 byte_length,prefix_length + byte_length)

def WriteBlockReference (offsets : List ℕ) (data_offset : ℕ) : Except Failure (BlockReference × ℕ) := do
  let (descriptor,prefix_length) ← writeDescriptor (data_lengths offsets)
  return (⟨unsigned 32 data_offset,descriptor⟩,unsigned 64 (data_offset + prefix_length))
def writePrefix (lengths : List ℕ) : List UInt8 :=
  lengths.flatMap fun data_length => lowBytes (log256 data_length) data_length
def WriteBlockPrefix (offsets : List ℕ) : Except Failure (List UInt8) := .ok (writePrefix (data_lengths offsets))

/-- The loop that skips the items in front of the one that is read. -/
def skip (values : List UInt8) : ℕ → BitVec 32 → ℕ → ℕ → Option (BitVec 32 × ℕ × ℕ)
  | 0, descriptor, first, var_lengths => some (descriptor,first,var_lengths)
  | count + 1, descriptor, first, var_lengths => do
    let (first,var_lengths) ← var_advance values first var_lengths (descriptor &&& 0x3#32).toNat
    skip values count (descriptor >>> 2) first var_lengths

def ReadRefrencedBlock (N : ℕ) (reference : BlockReference) (local_index : ℕ) (values : List UInt8) (first last : ℕ) :
    Option (ℕ × ℕ) := do
  let (descriptor,first,var_lengths) ← skip values local_index reference.descriptor
    (first + (sum2bits reference.descriptor).toNat) first
  if local_index < N then
    let (last,_) ← var_advance values first var_lengths (descriptor &&& 0x3#32).toNat
    return (first,last)
  else return (first,last)

end VariableGroupBlock

/-- `VariableGroupBlock<N>`. -/
def VariableGroupBlock (N : ℕ) : GroupBlockPolicy where
  BlockReference := VariableGroupBlock.BlockReference
  zero := ⟨0,0⟩
  offset := VariableGroupBlock.BlockReference.offset
  BLOCK_SIZE := N
  WriteBlockReference := VariableGroupBlock.WriteBlockReference
  WriteBlockPrefix := VariableGroupBlock.WriteBlockPrefix
  ReadRefrencedBlock := VariableGroupBlock.ReadRefrencedBlock N

namespace FixedGroupBlock

structure BlockReference where
  offset : ℕ
  deriving DecidableEq, Repr

def WriteBlockReference (N : ℕ) (_ : List ℕ) (data_offset : ℕ) : Except Failure (BlockReference × ℕ) :=
  .ok (⟨unsigned 32 data_offset⟩,unsigned 64 (data_offset + N))
def MAX_LENGTH : ℕ := 255

/-- The loop that writes the lengths. -/
def writePrefix : List ℕ → Except Failure (List UInt8)
  | [] => .ok []
  | data_length :: rest =>
    if MAX_LENGTH < data_length then .error (.exception s!"too large data length {data_length} > {MAX_LENGTH}")
    else do
      let written ← writePrefix rest
      return UInt8.ofNat data_length :: written

/-- The prefix is an array of `N` bytes that starts as zeros. -/
def WriteBlockPrefix (N : ℕ) (offsets : List ℕ) : Except Failure (List UInt8) := do
  let written ← writePrefix (data_lengths offsets)
  if N < written.length then .error .write_past_end
  else return written ++ replicate (N - written.length) 0

/-- The loop that skips the items in front of the one that is read. -/
def skip (values : List UInt8) : ℕ → ℕ → ℕ → Option (ℕ × ℕ)
  | 0, first, fixed_lengths => some (first,fixed_lengths)
  | count + 1, first, fixed_lengths => do
    let length ← values[fixed_lengths]?
    skip values count (first + length.toNat) (fixed_lengths + 1)

def ReadRefrencedBlock (N : ℕ) (_ : BlockReference) (local_index : ℕ) (values : List UInt8) (first last : ℕ) :
    Option (ℕ × ℕ) := do
  let (first,fixed_lengths) ← skip values local_index (first + N) first
  if local_index < N then
    let length ← values[fixed_lengths]?
    return (first,first + length.toNat)
  else return (first,last)

end FixedGroupBlock

/-- `FixedGroupBlock<N>`. -/
def FixedGroupBlock (N : ℕ) : GroupBlockPolicy where
  BlockReference := FixedGroupBlock.BlockReference
  zero := ⟨0⟩
  offset := FixedGroupBlock.BlockReference.offset
  BLOCK_SIZE := N
  WriteBlockReference := FixedGroupBlock.WriteBlockReference N
  WriteBlockPrefix := FixedGroupBlock.WriteBlockPrefix N
  ReadRefrencedBlock := FixedGroupBlock.ReadRefrencedBlock N

/-! ### What the index relies on -/

/-- A policy takes the lengths it admits and reads what it wrote: the places where an item begins and ends, behind a prefix
    whose length is in the reference; not where the last item of a full block ends. -/
structure Lawful (policy : GroupBlockPolicy) (admits : ℕ → Prop) : Prop where
  small : ∀ length, admits length → length < 2 ^ 32
  written : ∀ offsets, (data_lengths offsets).length ≤ policy.BLOCK_SIZE →
    (∀ length ∈ data_lengths offsets, admits length) → ∃ written, policy.WriteBlockPrefix offsets = .ok written ∧
      ∀ data_offset, ∃ reference,
      policy.WriteBlockReference offsets data_offset = .ok (reference,unsigned 64 (data_offset + written.length : ℕ)) ∧
      policy.offset reference = unsigned 32 data_offset ∧
      ∀ values first last index, written <+: values.drop first → index ≤ policy.BLOCK_SIZE →
        policy.ReadRefrencedBlock reference index values first last =
          some (first + written.length + ((data_lengths offsets).take index).sum,
            if index < policy.BLOCK_SIZE then first + written.length + ((data_lengths offsets).take (index + 1)).sum else last)

theorem unsigned_natCast {w x : ℕ} (small : x < 2 ^ w) : unsigned w x = x := by
  have below : (x : ℤ) < 2 ^ w := by exact_mod_cast small
  rw [unsigned,Int.emod_eq_of_lt (Int.natCast_nonneg x) below,Int.toNat_natCast]

private theorem read_cons {byte : UInt8} {rest values : List UInt8} {place : ℕ} (there : byte :: rest <+: values.drop place) :
    values[place]? = some byte ∧ rest <+: values.drop (place + 1) := by
  obtain ⟨behind,all⟩ := there
  constructor
  · have head : (values.drop place)[0]? = some byte := by rw [← all]; rfl
    rwa [getElem?_drop,Nat.add_zero] at head
  · exact ⟨behind,by rw [← drop_drop,← all]; rfl⟩

private theorem toNat_byte (value : ℕ) : (UInt8.ofNat value).toNat = value % 256 := UInt8.toNat_ofNat'

namespace VariableGroupBlock
variable {values : List UInt8} {lengths : List ℕ} {descriptor : BitVec 32} {length place : ℕ}

private theorem log256_lt (value : ℕ) : log256 value < 2 ^ 2 := by
  rw [log256]
  split_ifs <;> decide

private theorem length_lowBytes (count value : ℕ) : (lowBytes count value).length = count := by
  induction count generalizing value with
  | zero => rfl
  | succ count ih => rw [lowBytes,length_cons,ih]

private theorem var_advance_log256 {rest : List UInt8} (data : ℕ) (small : length < 0x1000000)
    (there : lowBytes (log256 length) length ++ rest <+: values.drop place) :
    var_advance values data place (log256 length) = some (data + length,place + log256 length) ∧
      rest <+: values.drop (place + log256 length) := by
  rw [log256] at there ⊢
  split_ifs at there ⊢ with zero one two
  · subst zero
    exact ⟨rfl,there⟩
  · obtain ⟨first,there⟩ := read_cons there
    refine ⟨?_,there⟩
    simp [var_advance,first,Nat.mod_eq_of_lt one]
  · obtain ⟨first,there⟩ := read_cons there
    obtain ⟨second,there⟩ := read_cons there
    refine ⟨?_,there⟩
    have value : length % 256 + length / 256 % 256 * 2 ^ 8 = length := by omega
    simp [var_advance,first,second,Nat.shiftLeft_eq]
    omega
  · obtain ⟨first,there⟩ := read_cons there
    obtain ⟨second,there⟩ := read_cons there
    obtain ⟨third,there⟩ := read_cons there
    refine ⟨?_,there⟩
    simp [var_advance,first,second,third,Nat.shiftLeft_eq]
    omega

/-! The descriptor is a number whose digits to the base four are the sizes of the lengths. -/

private theorem toNat_addNeighbours {k n : ℕ} (value bits : BitVec 32) (positive : 0 < k) (wide : 2 * k * n = 32)
    (isMask : bits.toNat = mask k n) :
    ((value >>> k &&& bits) + (value &&& bits)).toNat = addNeighbours k n value.toNat := by
  have below := addNeighbours_lt positive n value.toNat
  rw [wide] at below
  rw [BitVec.toNat_add,BitVec.toNat_and,BitVec.toNat_and,BitVec.toNat_ushiftRight,isMask]
  exact Nat.mod_eq_of_lt below

private theorem toNat_sum2bits (value : BitVec 32) : (sum2bits value).toNat = fieldSum 2 16 value.toNat := by
  rw [sum2bits]
  have last : ∀ v : BitVec 32, fieldSum 32 1 v.toNat = v.toNat := fun v => fieldSum_one v.isLt
  rw [← last,toNat_addNeighbours (n := 1) _ _ (by decide) (by decide) (by decide),
    fieldSum_addNeighbours (k := 16) (by decide),
    toNat_addNeighbours (n := 2) _ _ (by decide) (by decide) (by decide),
    fieldSum_addNeighbours (k := 8) (by decide),
    toNat_addNeighbours (n := 4) _ _ (by decide) (by decide) (by decide),
    fieldSum_addNeighbours (k := 4) (by decide),
    toNat_addNeighbours (n := 8) _ _ (by decide) (by decide) (by decide),
    fieldSum_addNeighbours (k := 2) (by decide)]

def classes (lengths : List ℕ) : ℕ := Nat.ofDigits (2 ^ 2) (lengths.map log256)

private theorem classes_cons (length : ℕ) (lengths : List ℕ) : classes (length :: lengths) = log256 length + 2 ^ 2 * classes lengths := by
  rw [classes,map_cons,Nat.ofDigits_cons]
  rfl

private theorem classes_lt (lengths : List ℕ) : classes lengths < 4 ^ lengths.length := by
  have below := Nat.ofDigits_lt_base_pow_length (b := 4) (l := lengths.map log256) (by decide)
    (by simpa using fun length _ => log256_lt length)
  rwa [length_map] at below

private theorem writeDescriptor_ok (short : lengths.length ≤ 16) (small : ∀ length ∈ lengths, length < 0x1000000) :
    ∃ descriptor, writeDescriptor lengths = .ok (descriptor,(lengths.map log256).sum) ∧ descriptor.toNat = classes lengths := by
  induction lengths with
  | nil => exact ⟨0,rfl,rfl⟩
  | cons length lengths ih =>
    rw [length_cons] at short
    obtain ⟨descriptor,written,digits⟩ := ih (by omega) (fun l member => small l (by simp [member]))
    have fits := small length (by simp)
    refine ⟨descriptor <<< 2 ||| BitVec.ofNat 32 (log256 length),?_,?_⟩
    · simp only [writeDescriptor,written,bind,Except.bind]
      rw [if_neg (by omega),map_cons,sum_cons,Nat.add_comm]
    · have room : classes lengths < 4 ^ 15 := (classes_lt lengths).trans_le (Nat.pow_le_pow_right (by decide) (by omega))
      have small := log256_lt length
      rw [BitVec.toNat_or,BitVec.toNat_shiftLeft,BitVec.toNat_ofNat,digits,Nat.shiftLeft_eq,Nat.mul_comm,
        Nat.mod_eq_of_lt (by omega),Nat.mod_eq_of_lt (by omega),← Nat.two_pow_add_eq_or_of_lt small,classes_cons,
        Nat.add_comm]

private theorem sum2bits_classes (digits : descriptor.toNat = classes lengths) (short : lengths.length ≤ 16) :
    (sum2bits descriptor).toNat = (lengths.map log256).sum := by
  rw [toNat_sum2bits,digits,classes]
  exact fieldSum_ofDigits (by simpa using fun length _ => log256_lt length) (by simpa using short)

private theorem length_writePrefix (lengths : List ℕ) : (writePrefix lengths).length = (lengths.map log256).sum := by
  rw [writePrefix,length_flatMap]
  simp only [length_lowBytes]

private theorem step (data : ℕ) (digits : descriptor.toNat = classes lengths) (small : ∀ length ∈ lengths, length < 0x1000000)
    (there : writePrefix lengths <+: values.drop place) : ∃ next,
      var_advance values data place (descriptor &&& 0x3#32).toNat = some (data + (lengths.take 1).sum,next) ∧
      (descriptor >>> 2).toNat = classes lengths.tail ∧ writePrefix lengths.tail <+: values.drop next := by
  have low : (descriptor &&& 0x3#32).toNat = classes lengths % 2 ^ 2 := by
    rw [BitVec.toNat_and,digits]
    exact Nat.and_two_pow_sub_one_eq_mod _ 2
  have high : (descriptor >>> 2).toNat = classes lengths / 2 ^ 2 := by
    rw [BitVec.toNat_ushiftRight,digits,Nat.shiftRight_eq_div_pow]
  cases lengths with
  | nil => exact ⟨place,by rw [low]; rfl,by rw [high]; rfl,there⟩
  | cons length lengths =>
    have digit := log256_lt length
    rw [classes_cons] at low high
    obtain ⟨read,rest⟩ := var_advance_log256 data (small length (by simp)) there
    refine ⟨_,?_,?_,rest⟩
    · rw [low,Nat.add_mul_mod_self_left,Nat.mod_eq_of_lt digit,read]
      simp
    · rw [high,Nat.add_mul_div_left _ _ (by decide),Nat.div_eq_of_lt digit,Nat.zero_add,tail_cons]

private theorem skip_eq (data : ℕ) (digits : descriptor.toNat = classes lengths) (small : ∀ length ∈ lengths, length < 0x1000000)
    (there : writePrefix lengths <+: values.drop place) (count : ℕ) : ∃ descriptor' next,
      skip values count descriptor data place = some (descriptor',data + (lengths.take count).sum,next) ∧
      descriptor'.toNat = classes (lengths.drop count) ∧ writePrefix (lengths.drop count) <+: values.drop next := by
  induction count generalizing lengths descriptor data place with
  | zero => exact ⟨descriptor,place,by simp [skip],digits,there⟩
  | succ count ih =>
    obtain ⟨next,read,digits,there⟩ := step data digits small there
    obtain ⟨descriptor',final,ran,digits,there⟩ := ih (data + (lengths.take 1).sum) digits
      (fun l member => small l (mem_of_mem_tail member)) there
    refine ⟨descriptor',final,?_,?_,?_⟩
    · simp only [skip,read,bind,Option.bind,ran]
      cases lengths <;> simp [Nat.add_assoc]
    · rwa [drop_tail] at digits
    · rwa [drop_tail] at there

theorem lawful {N : ℕ} (small : N ≤ 16) : Lawful (GroupBlocks.VariableGroupBlock N) (· < 0x1000000) where
  small _ below := below.trans (by decide)
  written offsets short admitted := by
    have short : (data_lengths offsets).length ≤ 16 := short.trans small
    obtain ⟨descriptor,written,digits⟩ := writeDescriptor_ok short admitted
    have size := length_writePrefix (data_lengths offsets)
    refine ⟨writePrefix (data_lengths offsets),rfl,fun data_offset => ⟨⟨unsigned 32 data_offset,descriptor⟩,?_,rfl,?_⟩⟩
    · change WriteBlockReference offsets data_offset = _
      simp only [WriteBlockReference,written,bind,Except.bind,pure,Except.pure,size]
      push_cast
      rfl
    · intro values first last index there _
      obtain ⟨descriptor',next,ran,digits',there⟩ := skip_eq (first + (sum2bits descriptor).toNat) digits admitted
        there index
      obtain ⟨_,read,-⟩ := step (first + (sum2bits descriptor).toNat + ((data_lengths offsets).take index).sum)
        digits' (fun l member => admitted l (mem_of_mem_drop member)) there
      change ReadRefrencedBlock N _ index values first last = some (_,if index < N then _ else _)
      simp only [ReadRefrencedBlock,ran,bind,Option.bind,pure]
      rw [size,← sum2bits_classes digits short]
      split
      · rw [read,take_add,sum_append,← Nat.add_assoc]
      · rfl

end VariableGroupBlock

namespace FixedGroupBlock
variable {values : List UInt8} {lengths : List ℕ} {place : ℕ}

private theorem writePrefix_ok (small : ∀ length ∈ lengths, length ≤ MAX_LENGTH) :
    writePrefix lengths = .ok (lengths.map UInt8.ofNat) := by
  induction lengths with
  | nil => rfl
  | cons length lengths ih =>
    have fits := small length (by simp)
    rw [writePrefix,if_neg (by omega),ih fun l member => small l (by simp [member])]
    rfl

private theorem skip_eq {bytes : List UInt8} (data : ℕ) (there : bytes <+: values.drop place) {count : ℕ}
    (inside : count ≤ bytes.length) :
    skip values count data place = some (data + ((bytes.take count).map UInt8.toNat).sum,place + count) ∧
      bytes.drop count <+: values.drop (place + count) := by
  induction count generalizing bytes data place with
  | zero => exact ⟨by simp [skip],there⟩
  | succ count ih =>
    cases bytes with
    | nil => simp at inside
    | cons byte bytes =>
      obtain ⟨first,there⟩ := read_cons there
      obtain ⟨ran,rest⟩ := ih (data + byte.toNat) there (by simpa using inside)
      rw [Nat.add_assoc place,Nat.add_comm 1] at ran rest
      refine ⟨?_,rest⟩
      simp only [skip,first,bind,Option.bind,ran,take_succ_cons,map_cons,sum_cons,Nat.add_assoc]

private theorem sum_bytes (small : ∀ length ∈ lengths, length ≤ MAX_LENGTH) (zeros count : ℕ) :
    (((lengths.map UInt8.ofNat ++ replicate zeros 0).take count).map UInt8.toNat).sum = (lengths.take count).sum := by
  induction lengths generalizing count with
  | nil => simp [take_replicate]
  | cons length lengths ih =>
    have fits : length ≤ 255 := small length (by simp)
    cases count with
    | zero => rfl
    | succ count =>
      have rest := ih (fun l member => small l (by simp [member])) count
      simp only [map_cons,cons_append,take_succ_cons,sum_cons,rest,toNat_byte]
      omega

theorem lawful (N : ℕ) : Lawful (GroupBlocks.FixedGroupBlock N) (· ≤ MAX_LENGTH) where
  small _ below := lt_of_le_of_lt below (by decide)
  written offsets short admitted := by
    have short : (data_lengths offsets).length ≤ N := short
    let written := (data_lengths offsets).map UInt8.ofNat ++ replicate (N - (data_lengths offsets).length) 0
    have size : written.length = N := by
      rw [length_append,length_map,length_replicate]
      omega
    refine ⟨written,?_,fun data_offset => ⟨⟨unsigned 32 data_offset⟩,?_,rfl,?_⟩⟩
    · change WriteBlockPrefix N offsets = _
      simp only [WriteBlockPrefix,writePrefix_ok admitted,bind,Except.bind,length_map]
      rw [if_neg (by omega)]
      rfl
    · change WriteBlockReference N offsets data_offset = _
      rw [WriteBlockReference,size]
      push_cast
      rfl
    · intro values first last index there inside
      have inside : index ≤ N := inside
      obtain ⟨ran,rest⟩ := skip_eq (first + N) there (size.symm ▸ inside)
      change ReadRefrencedBlock N ⟨unsigned 32 data_offset⟩ index values first last = some (_,if index < N then _ else _)
      simp only [ReadRefrencedBlock,ran,bind,Option.bind,pure,size]
      rw [sum_bytes admitted]
      split
      · rename_i below
        have head : written.drop index = written[index] :: written.drop (index + 1) := drop_eq_getElem_cons (by omega)
        have next := sum_bytes admitted (N - (data_lengths offsets).length) (index + 1)
        change ((written.take (index + 1)).map UInt8.toNat).sum = _ at next
        rw [take_add,head,map_append,sum_append,sum_bytes admitted] at next
        rw [head] at rest
        rw [(read_cons rest).1,← next,← Nat.add_assoc]
        rfl
      · rfl

end FixedGroupBlock

end Osrm.GroupBlocks
