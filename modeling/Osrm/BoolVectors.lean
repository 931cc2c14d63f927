import Mathlib.Data.List.GetD
import Osrm.WordBits

/-!
Vectors of booleans in `storage/serialization.hpp` and `util/vector_view.hpp`. In a file they are 64-bit words, the
elements from the least bit on; `vector_view<bool>` reads and writes the elements where they are in the words.
-/
namespace Osrm.BoolVectors
open List Option
open WordBits

abbrev Word := BitVec 64

abbrev BLOCK_BITS : ℕ := 64
abbrev WORD_BITS : ℕ := 64

/-- What the templates use of a vector type. A `resize` that throws and an access outside give nothing. -/
class BoolVector (V : Type) where
  size : V → ℕ
  get : V → ℕ → Option Bool
  assign : V → ℕ → Bool → Option V
  resize : V → ℕ → Option V

open BoolVector

section Templates
variable {V : Type} [BoolVector V] {w : ℕ}

def packBits (w : ℕ) (data : V) (base_index count : ℕ) : Option (BitVec w) :=
  (List.range count).foldlM (fun value bit =>
    (get data (base_index + bit)).map fun element => value ||| ((if element then 1 else 0 : BitVec w) <<< bit)) 0
def unpackBits (data : V) (base_index count : ℕ) (value : BitVec w) : Option V :=
  (List.range count).foldlM (fun data bit => assign data (base_index + bit) (decide (value &&& ((1 : BitVec w) <<< bit) ≠ 0))) data

/-- What `WriteStreaming` gets for so many blocks from `encode_function`. -/
def encode (data : V) (count : ℕ) : ℕ → ℕ → Option (List Word)
  | 0, _ => some []
  | blocks + 1, index => do
    let write_size := min (count - index) BLOCK_BITS
    let packed ← packBits 64 data index write_size
    let rest ← encode data count blocks (index + BLOCK_BITS)
    return packed :: rest

/-- `decode` for the blocks that `ReadStreaming` gives it. -/
def decode (count : ℕ) : V → ℕ → List Word → Option V
  | data, _, [] => some data
  | data, index, block :: blocks => do
    let read_size := min (count - index) BLOCK_BITS
    let data ← unpackBits data index read_size block
    decode count data (index + BLOCK_BITS) blocks

/-- The entry of a vector in the file, and the one with its count. -/
structure Entry where
  count : ℕ
  blocks : List Word
  deriving DecidableEq

def writeBoolVector (data : V) : Option Entry := do
  let count := size data
  let number_of_blocks := (count + BLOCK_BITS - 1) / BLOCK_BITS
  let blocks ← encode data count number_of_blocks 0
  return ⟨count,blocks⟩

def readBoolVector (entry : Entry) (data : V) : Option V := do
  let data ← resize data entry.count
  decode entry.count data 0 entry.blocks

end Templates

/-- `std::vector<bool>`. -/
instance : BoolVector (List Bool) where
  size := List.length
  get data index := data[index]?
  assign data index value := if index < data.length then some (data.set index value) else none
  resize data count := some (data.take count ++ replicate (count - data.length) false)

/-- `vector_view<bool>`, over words that have all its elements. -/
structure VectorView where
  m_ptr : List Word
  m_size : ℕ
  covered : m_size ≤ m_ptr.length * 64
  deriving DecidableEq

namespace VectorView

/-- `vector_view<bool>::reference`, with the word it points to by its index. -/
structure Reference where
  bucket : ℕ
  mask : Word
  deriving DecidableEq

/-- `at`, and `operator[]` of a constant view. -/
def element (self : VectorView) (index : ℕ) : Option Bool :=
  let bucket := index / WORD_BITS
  let offset := index % WORD_BITS
  self.m_ptr[bucket]?.map fun word => decide (word &&& ((1 : Word) <<< offset) ≠ 0)

/-- `operator[]`. -/
def reference (index : ℕ) : Reference :=
  let bucket := index / WORD_BITS
  let offset := index % WORD_BITS
  ⟨bucket,(1 : Word) <<< offset⟩

def Reference.assign (self : VectorView) (reference : Reference) (value : Bool) : Option VectorView :=
  self.m_ptr[reference.bucket]?.map fun word =>
    ⟨self.m_ptr.set reference.bucket ((word &&& ~~~reference.mask) ||| (BitVec.ofNat 64 value.toNat * reference.mask)),self.m_size,
      by rw [length_set]; exact self.covered⟩

def shrink (self : VectorView) (size : ℕ) : Option VectorView :=
  if larger : size > self.m_size then none else some ⟨self.m_ptr,size,(Nat.not_lt.mp larger).trans self.covered⟩

end VectorView

instance : BoolVector VectorView where
  size := VectorView.m_size
  get := VectorView.element
  assign self index value := (VectorView.reference index).assign self value
  resize := VectorView.shrink

example : (writeBoolVector [true,false,true,true]).map Entry.blocks = some [0b1101] := by decide

/-! ### Vectors as their elements -/

/-- A vector is its elements; an assignment changes one of them. -/
class LawfulBoolVector (V : Type) [BoolVector V] : Prop where
  get_inside : ∀ (data : V) (index : ℕ), index < size data → ∃ value, get data index = some value
  assign_inside : ∀ (data : V) (index : ℕ) (value : Bool), index < size data → ∃ data', assign data index value = some data' ∧
    size data' = size data ∧ ∀ k < size data, get data' k = if k = index then some value else get data k
  resized : ∀ (data data' : V) (count : ℕ), resize data count = some data' → size data' = count

open LawfulBoolVector

section Bits
variable {w : ℕ} {word : BitVec w}

private theorem one_shifted_bit {offset : ℕ} (inside : offset < w) (b : ℕ) : ((1 : BitVec w) <<< offset).getLsbD b = decide (b = offset) := by
  have one (k : ℕ) : (1 : BitVec w).getLsbD k = decide (k = 0) := by
    have positive : 0 < w := Nat.zero_lt_of_lt inside
    simp [BitVec.getLsbD_one,positive]
  rw [BitVec.getLsbD_shiftLeft,one]
  by_cases same : b = offset
  · simp [same,inside]
  · by_cases below : b < offset
    · simp [same,below]
    · have later : b - offset ≠ 0 := by omega
      simp [same,later]

private theorem masked_ne_zero {offset : ℕ} (inside : offset < w) : decide (word &&& ((1 : BitVec w) <<< offset) ≠ 0) = word.getLsbD offset := by
  have bits (b : ℕ) : (word &&& ((1 : BitVec w) <<< offset)).getLsbD b = (word.getLsbD b && decide (b = offset)) := by
    rw [BitVec.getLsbD_and,one_shifted_bit inside]
  cases set : word.getLsbD offset with
  | false =>
    have zero : word &&& ((1 : BitVec w) <<< offset) = 0 := by
      apply BitVec.eq_of_getLsbD_eq
      intro b _
      rw [bits]
      by_cases same : b = offset
      · simp [same,set]
      · simp [same]
    rw [zero]
    simp
  | true =>
    rw [decide_eq_true_eq]
    intro zero
    have bit := bits offset
    rw [zero,set] at bit
    simp at bit

end Bits

instance : LawfulBoolVector (List Bool) where
  get_inside data index inside := ⟨_,getElem?_eq_getElem inside⟩
  assign_inside data index value inside := by
    refine ⟨data.set index value,if_pos inside,length_set,?_⟩
    intro k _
    change (data.set index value)[k]? = if k = index then some value else data[k]?
    by_cases same : k = index
    · rw [if_pos same,same,getElem?_set_self inside]
    · rw [if_neg same,getElem?_set_ne (Ne.symm same)]
  resized data data' count made := by
    obtain rfl := some.inj made
    change (data.take count ++ replicate (count - data.length) false).length = count
    simp
    omega

namespace VectorView
variable {self : VectorView} {index : ℕ}

private theorem bucket_inside (inside : index < self.m_size) : index / WORD_BITS < self.m_ptr.length := by
  rw [Nat.div_lt_iff_lt_mul (by decide)]
  exact inside.trans_le self.covered

private theorem element_eq (inside : index < self.m_size) : self.element index = some (bit self.m_ptr index) := by
  have bucket := bucket_inside inside
  rw [element,getElem?_eq_getElem bucket,map_some,bit,getD_eq_getElem _ _ bucket]
  exact congrArg some (masked_ne_zero (Nat.mod_lt _ (by decide)))

private theorem assign_eq (inside : index < self.m_size) (value : Bool) : ∃ self', (reference index).assign self value = some self' ∧
    self'.m_size = self.m_size ∧ self'.m_ptr.length = self.m_ptr.length ∧
      ∀ k, bit self'.m_ptr k = if k = index then value else bit self.m_ptr k := by
  have bucket := bucket_inside inside
  have offset : index % 64 < 64 := Nat.mod_lt _ (by decide)
  rw [Reference.assign,reference,getElem?_eq_getElem bucket]
  refine ⟨_,rfl,rfl,length_set,?_⟩
  intro k
  have place : k % 64 < 64 := Nat.mod_lt _ (by decide)
  have product : (BitVec.ofNat 64 value.toNat * ((1 : Word) <<< (index % 64))).getLsbD (k % 64) =
      (value && decide (k % 64 = index % 64)) := by
    cases value with
    | false => simp
    | true =>
      have one : BitVec.ofNat 64 true.toNat * ((1 : Word) <<< (index % 64)) = (1 : Word) <<< (index % 64) := BitVec.one_mul _
      rw [one,one_shifted_bit offset,Bool.true_and]
  rw [bit_set bucket]
  by_cases word : k / 64 = index / 64
  · rw [if_pos word,BitVec.getLsbD_or,BitVec.getLsbD_and,BitVec.getLsbD_not,one_shifted_bit offset,product,bit,word,
      getD_eq_getElem _ _ bucket]
    by_cases same : k % 64 = index % 64
    · have here : k = index := by omega
      simp [here]
    · have other : k ≠ index := fun equal => same (by rw [equal])
      simp [same,other,place]
  · have other : k ≠ index := fun equal => word (by rw [equal])
    rw [if_neg word,if_neg other]

end VectorView

instance : LawfulBoolVector VectorView where
  get_inside self index inside := ⟨_,VectorView.element_eq inside⟩
  assign_inside self index value inside := by
    obtain ⟨self',assigned,count,-,bits⟩ := VectorView.assign_eq inside value
    refine ⟨self',assigned,count,?_⟩
    intro k within
    have here : get self k = some (bit self.m_ptr k) := VectorView.element_eq within
    have there : get self' k = some (bit self'.m_ptr k) := VectorView.element_eq (count.symm ▸ within)
    rw [here,there,bits]
    by_cases same : k = index
    · rw [if_pos same,if_pos same]
    · rw [if_neg same,if_neg same]
  resized self self' count made := by
    change self.shrink count = some self' at made
    rw [VectorView.shrink] at made
    split at made
    · cases made
    · obtain rfl := some.inj made
      rfl

section Packing
variable {V : Type} [BoolVector V] [LawfulBoolVector V] {data : V} {w index : ℕ}

def elementAt (data : V) (index : ℕ) : Bool := (get data index).getD false

private theorem get_eq (inside : index < size data) : get data index = some (elementAt data index) := by
  obtain ⟨value,found⟩ := get_inside data index inside
  rw [elementAt,found]
  rfl

private theorem packBits_spec (data : V) (base_index count : ℕ) (fits : count ≤ w) (inside : base_index + count ≤ size data) : ∃ value, packBits w data base_index count = some value ∧
    ∀ b, value.getLsbD b = (decide (b < count) && elementAt data (base_index + b)) := by
  induction count with
  | zero => exact ⟨0,rfl,fun b => by simp⟩
  | succ count ih =>
    obtain ⟨value,packed,bits⟩ := ih (by omega) (by omega)
    refine ⟨value ||| ((if elementAt data (base_index + count) then 1 else 0 : BitVec w) <<< count),?_,?_⟩
    · rw [packBits] at packed ⊢
      rw [range_succ,foldlM_append,packed]
      simp [get_eq (show base_index + count < size data by omega)]
    · intro b
      have appended : ((if elementAt data (base_index + count) then 1 else 0 : BitVec w) <<< count).getLsbD b =
          (elementAt data (base_index + count) && decide (b = count)) := by
        cases elementAt data (base_index + count) with
        | false => simp
        | true => exact one_shifted_bit (Nat.lt_of_succ_le fits) b
      rw [BitVec.getLsbD_or,bits,appended]
      rcases Nat.lt_trichotomy b count with less | same | greater
      · simp [less,less.ne,Nat.lt_succ_of_lt less]
      · simp [same]
      · simp [greater.ne',Nat.not_lt.mpr greater.le,Nat.not_lt.mpr (Nat.succ_le_of_lt greater)]

private theorem unpackBits_spec (data : V) (base_index count : ℕ) (value : BitVec w) (fits : count ≤ w) (inside : base_index + count ≤ size data) :
    ∃ data', unpackBits data base_index count value = some data' ∧ size data' = size data ∧ ∀ k < size data,
      get data' k = if base_index ≤ k ∧ k < base_index + count then some (value.getLsbD (k - base_index)) else get data k := by
  induction count with
  | zero =>
    refine ⟨data,rfl,rfl,fun k _ => ?_⟩
    rw [if_neg (by omega)]
  | succ count ih =>
    obtain ⟨before,unpacked,same,elements⟩ := ih (by omega) (by omega)
    obtain ⟨data',assigned,same',elements'⟩ := assign_inside before (base_index + count) (value.getLsbD count) (by omega)
    refine ⟨data',?_,same'.trans same,?_⟩
    · rw [unpackBits] at unpacked ⊢
      rw [range_succ,foldlM_append,unpacked]
      simp only [foldlM_cons,foldlM_nil,bind_eq_bind,bind_some,masked_ne_zero (Nat.lt_of_succ_le fits),assigned,
        Option.pure_def]
    · intro k within
      rw [elements' k (same ▸ within),elements k within]
      by_cases last : k = base_index + count
      · rw [if_pos last,if_pos (by omega),last,Nat.add_sub_cancel_left]
      · by_cases earlier : base_index ≤ k ∧ k < base_index + count
        · rw [if_neg last,if_pos earlier,if_pos (by omega)]
        · rw [if_neg last,if_neg earlier,if_neg (by omega)]

private theorem encode_spec (data : V) (blocks index : ℕ) (needed : index + 64 * blocks < size data + 64) :
    ∃ words, encode data (size data) blocks index = some words ∧ words.length = blocks ∧
      ∀ k < 64 * blocks, index + k < size data → bit words k = elementAt data (index + k) := by
  induction blocks generalizing index with
  | zero => exact ⟨[],rfl,rfl,fun k below => absurd below (by omega)⟩
  | succ blocks ih =>
    obtain ⟨packed,ran,bits⟩ := packBits_spec data index (min (size data - index) 64)
      (min_le_right ..) (by omega)
    obtain ⟨rest,ranRest,length,bitsRest⟩ := ih (index + 64) (by omega)
    refine ⟨packed :: rest,?_,by rw [length_cons,length],?_⟩
    · simp only [encode,ran,ranRest,bind_eq_bind,bind_some,Option.pure_def]
    · intro k below inside
      rw [bit_cons (by decide)]
      by_cases first : k < 64
      · rw [if_pos first,bits]
        have written : k < min (size data - index) 64 := by omega
        simp [written]
      · rw [if_neg first,bitsRest (k - 64) (by omega) (by omega),show index + 64 + (k - 64) = index + k by omega]

private theorem decode_spec (data : V) (words : List Word) (index : ℕ) (needed : index + 64 * words.length < size data + 64) :
    ∃ data', decode (size data) data index words = some data' ∧ size data' = size data ∧ ∀ k < size data,
      get data' k = if index ≤ k ∧ k < index + 64 * words.length then some (bit words (k - index)) else get data k := by
  induction words generalizing data index with
  | nil =>
    refine ⟨data,rfl,rfl,fun k _ => ?_⟩
    rw [if_neg (by simp)]
  | cons word words ih =>
    rw [length_cons] at needed
    obtain ⟨first,unpacked,same,elements⟩ := unpackBits_spec data index (min (size data - index) 64) word
      (min_le_right ..) (by omega)
    obtain ⟨last,ran,same',elements'⟩ := ih first (index + 64) (by omega)
    refine ⟨last,?_,same'.trans same,?_⟩
    · rw [same] at ran
      simp only [decode,unpacked,ran,bind_eq_bind,bind_some]
    · intro k within
      rw [elements' k (same ▸ within),elements k within,bit_cons (by decide),length_cons]
      by_cases later : index + 64 ≤ k ∧ k < index + 64 + 64 * words.length
      · rw [if_pos later,if_pos (by omega),if_neg (by omega),show k - index - 64 = k - (index + 64) by omega]
      · by_cases here : index ≤ k ∧ k < index + min (size data - index) 64
        · rw [if_neg later,if_pos here,if_pos (by omega),if_pos (by omega)]
        · rw [if_neg later,if_neg here,if_neg (by omega)]

end Packing

section RoundTrip
variable {V W : Type} [BoolVector V] [LawfulBoolVector V] [BoolVector W] [LawfulBoolVector W]

private theorem writeBoolVector_spec (data : V) : ∃ entry, writeBoolVector data = some entry ∧ entry.count = size data ∧
    entry.blocks.length = (size data + 63) / 64 ∧ ∀ k < size data, bit entry.blocks k = elementAt data k := by
  obtain ⟨words,written,length,bits⟩ := encode_spec data ((size data + 63) / 64) 0 (by omega)
  refine ⟨⟨size data,words⟩,?_,rfl,length,?_⟩
  · rw [writeBoolVector]
    simp only [BLOCK_BITS,Nat.reduceSubDiff,written,bind_eq_bind,bind_some,Option.pure_def]
  · intro k inside
    have same := bits k (by omega) (by omega)
    rwa [Nat.zero_add] at same

private theorem read_written (data : V) {entry : Entry} (written : writeBoolVector data = some entry) {old room : W}
    (resizes : resize old (size data) = some room) :
    ∃ result, readBoolVector entry old = some result ∧ size result = size data ∧ ∀ k < size data, get result k = get data k := by
  obtain ⟨entry',written',count,length,bits⟩ := writeBoolVector_spec data
  obtain rfl := some.inj (written.symm.trans written')
  have same := resized old room (size data) resizes
  obtain ⟨result,decoded,same',elements⟩ := decode_spec room entry.blocks 0 (by omega)
  refine ⟨result,?_,same'.trans same,?_⟩
  · rw [readBoolVector,count,resizes,bind_eq_bind,bind_some,← same]
    exact decoded
  · intro k inside
    rw [elements k (by omega),if_pos (by omega),get_eq inside,Nat.sub_zero,bits k inside]

/-- Booleans come back as they were written, a view shows the same, and an assignment changes one element only. -/
theorem bool_vectors_read_back (data : List Bool) :
    (∃ entry, writeBoolVector data = some entry ∧ (∀ old : List Bool, readBoolVector entry old = some data) ∧
      ∃ view : VectorView, view.m_ptr = entry.blocks ∧ view.m_size = entry.count ∧ ∀ index < data.length, view.element index = data[index]?) ∧
    ∀ (view : VectorView) (index : ℕ) (value : Bool), index < view.m_size →
      ∃ view', (VectorView.reference index).assign view value = some view' ∧ view'.element index = some value ∧
        ∀ other < view.m_size, other ≠ index → view'.element other = view.element other := by
  constructor
  · obtain ⟨entry,written,count,length,bits⟩ := writeBoolVector_spec data
    have size_eq : size data = data.length := rfl
    have covered : entry.count ≤ entry.blocks.length * 64 := by omega
    refine ⟨entry,written,?_,⟨entry.blocks,entry.count,covered⟩,rfl,rfl,?_⟩
    · intro old
      obtain ⟨result,read,same,elements⟩ := read_written data written (W := List Bool) rfl
      rw [read]
      apply congrArg some
      apply ext_getElem?
      intro k
      have same : result.length = data.length := same
      by_cases inside : k < data.length
      · exact elements k inside
      · rw [getElem?_eq_none (same.trans_le (Nat.not_lt.mp inside)),getElem?_eq_none (Nat.not_lt.mp inside)]
    · intro index inside
      rw [VectorView.element_eq (inside.trans_eq count.symm),bits index inside]
      exact (get_eq inside).symm
  · intro view index value inside
    obtain ⟨view',assigned,count,elements⟩ := assign_inside view index value inside
    refine ⟨view',assigned,?_,?_⟩
    · exact (elements index inside).trans (if_pos rfl)
    · intro other within different
      exact (elements other within).trans (if_neg different)

end RoundTrip
end Osrm.BoolVectors
