import Mathlib.Tactic
import Osrm.GroupBlocks
import Osrm.Slices

/-!
`IndexedDataImpl` of `util/indexed_data.hpp`: items of characters, stored in blocks of a policy. One loop writes the
references of the blocks and one their bytes; the last item of a block ends where the next block begins.
-/
namespace Osrm.IndexedData
open List Option
open Slices GroupBlocks

section Build
variable (block : GroupBlockPolicy)

/-- How far `next` is advanced in a block, to the offset where the last item of the block begins. -/
def described (distance : ℕ) : ℕ := min block.BLOCK_SIZE distance
/-- How far `next` is advanced from one block to the next one. -/
def advanced (distance : ℕ) : ℕ := described block distance + min 1 (distance - described block distance)

private theorem advanced_eq (distance : ℕ) : advanced block distance = min (block.BLOCK_SIZE + 1) distance := by
  rw [advanced,described]
  omega

/-- The first loop, on the offsets from `curr` to the sentinel: the references and the size of the data. -/
def writeReferences (offsets : List ℕ) (data_size : ℕ) : Except Failure (List block.BlockReference × ℕ) :=
  if offsets.length ≤ 1 then .ok ([],data_size)
  else do
    let distance := offsets.length - 1
    let (reference,data_size) ← block.WriteBlockReference (offsets.take (described block distance + 1)) data_size
    let next := advanced block distance
    let data_size := unsigned 64 (data_size + ((offsets.getD next 0 : ℤ) - offsets.getD 0 0))
    let (references,data_size) ← writeReferences (offsets.drop next) data_size
    return (reference :: references,data_size)
termination_by offsets.length
decreasing_by
  rw [length_drop,advanced_eq]
  omega

/-- The second loop: data blocks that are (prefix, data). -/
def writeBlocks (data : List UInt8) (offsets : List ℕ) : Except Failure (List UInt8) :=
  if offsets.length ≤ 1 then .ok []
  else do
    let distance := offsets.length - 1
    let written ← block.WriteBlockPrefix (offsets.take (described block distance + 1))
    let next := advanced block distance
    let rest ← writeBlocks data (offsets.drop next)
    return written ++ slice data (offsets.getD 0 0) (offsets.getD next 0) ++ rest
termination_by offsets.length
decreasing_by
  rw [length_drop,advanced_eq]
  omega

/-- `IndexedDataImpl`. -/
structure IndexedDataImpl where
  blocks : List block.BlockReference
  values : List UInt8

def written {α : Type} (size : ℕ) (zero : α) (elements : List α) : Except Failure (List α) :=
  if size < elements.length then .error .write_past_end
  else .ok (elements ++ replicate (size - elements.length) zero)
def blocksFor (number_of_elements : ℕ) : ℕ :=
  if number_of_elements = 0 then 0 else 1 + (number_of_elements - 1) / (block.BLOCK_SIZE + 1)

/-- The constructor that takes offsets and data. -/
def build (offsets : List ℕ) (data : List UInt8) : Except Failure (IndexedDataImpl block) := do
  let number_of_blocks := unsigned 32 (blocksFor block (offsets.length - 1))
  let (references,data_size) ← writeReferences block offsets 0
  let blocks ← written number_of_blocks block.zero references
  let bytes ← writeBlocks block data offsets
  let values ← written data_size 0 bytes
  return ⟨blocks,values⟩

end Build

namespace IndexedDataImpl
variable {block : GroupBlockPolicy}

/-- `adapt`: the characters of a range of the values. -/
def adapt (values : List UInt8) (first last : ℕ) : Option (List UInt8) :=
  if first ≤ last ∧ last ≤ values.length then some (slice values first last) else none

/-- `at`, once there are values. -/
def read (indexed : IndexedDataImpl block) (index : ℕ) : Option (List UInt8) :=
  let block_idx := index / (block.BLOCK_SIZE + 1)
  let internal_idx := index % (block.BLOCK_SIZE + 1)
  match indexed.blocks[block_idx]? with
  | none => some []
  | some reference => do
    let first := block.offset reference
    let last := match indexed.blocks[block_idx + 1]? with
      | none => indexed.values.length
      | some next => block.offset next
    let (first,last) ← block.ReadRefrencedBlock reference internal_idx indexed.values first last
    adapt indexed.values first last

/-- `at`: the value at the given index. -/
def item (indexed : IndexedDataImpl block) (index : ℕ) : Option (List UInt8) :=
  if indexed.values.isEmpty then some [] else indexed.read index

end IndexedDataImpl

def offsetAt (offsets : List ℕ) (i : ℕ) : ℕ := offsets.getD (min i (offsets.length - 1)) 0

/-- The items that a policy takes: every length but that of the last item in a block is one it admits. -/
structure Items (block : GroupBlockPolicy) (admits : ℕ → Prop) (offsets : List ℕ) (data : List UInt8) : Prop where
  nonempty : offsets ≠ []
  monotone : offsets.Pairwise (· ≤ ·)
  inside : ∀ offset ∈ offsets, offset ≤ data.length
  admitted : ∀ i first last, i % (block.BLOCK_SIZE + 1) ≠ block.BLOCK_SIZE → offsets[i]? = some first →
    offsets[i + 1]? = some last → admits (last - first)

section Offsets
variable {offsets : List ℕ} {i j N : ℕ}

private theorem offsetAt_spec (nonempty : offsets ≠ []) (i : ℕ) :
    offsets[min i (offsets.length - 1)]? = some (offsetAt offsets i) := by
  have positive := length_pos_of_ne_nil nonempty
  have below : min i (offsets.length - 1) < offsets.length := by omega
  rw [offsetAt,getD_eq_getElem?_getD,getElem?_eq_getElem below,getD_some]

private theorem getElem?_offsetAt (below : i < offsets.length) : offsets[i]? = some (offsetAt offsets i) := by
  have nonempty : offsets ≠ [] := ne_nil_of_length_pos (by omega)
  rw [← offsetAt_spec nonempty,Nat.min_eq_left (by omega)]

private theorem offsetAt_of_getElem? {offset : ℕ} (found : offsets[i]? = some offset) : offsetAt offsets i = offset := by
  have below := (List.getElem?_eq_some_iff.mp found).1
  exact some.inj ((getElem?_offsetAt below).symm.trans found)

private theorem offsetAt_mem (nonempty : offsets ≠ []) (i : ℕ) : offsetAt offsets i ∈ offsets :=
  mem_of_getElem? (offsetAt_spec nonempty i)

private theorem offsetAt_mono (monotone : offsets.Pairwise (· ≤ ·)) (nonempty : offsets ≠ []) (le : i ≤ j) :
    offsetAt offsets i ≤ offsetAt offsets j := by
  obtain ⟨first,at_i⟩ := List.getElem?_eq_some_iff.mp (offsetAt_spec nonempty i)
  obtain ⟨second,at_j⟩ := List.getElem?_eq_some_iff.mp (offsetAt_spec nonempty j)
  rcases Nat.lt_or_ge (min i (offsets.length - 1)) (min j (offsets.length - 1)) with before | same
  · rw [← at_i,← at_j]
    exact pairwise_iff_getElem.mp monotone _ _ first second before
  · have equal : min i (offsets.length - 1) = min j (offsets.length - 1) := by omega
    rw [offsetAt,offsetAt,equal]

private theorem offsetAt_beyond (beyond : offsets.length ≤ i + 1) : offsetAt offsets (i + 1) = offsetAt offsets i := by
  rw [offsetAt,offsetAt,Nat.min_eq_right (by omega),Nat.min_eq_right (by omega)]

private theorem offsetAt_take (small : i ≤ N) : offsetAt (offsets.take (min N (offsets.length - 1) + 1)) i = offsetAt offsets i := by
  rw [offsetAt,offsetAt,getD_eq_getElem?_getD,getD_eq_getElem?_getD,getElem?_take_of_lt,length_take]
  · congr 2
    omega
  · rw [length_take]
    omega

private theorem offsetAt_drop (N i : ℕ) :
    offsetAt (offsets.drop (min (N + 1) (offsets.length - 1))) i = offsetAt offsets (i + (N + 1)) := by
  rw [offsetAt,offsetAt,getD_eq_getElem?_getD,getD_eq_getElem?_getD,getElem?_drop,length_drop]
  congr 2
  omega

private theorem length_data_lengths (offsets : List ℕ) : (data_lengths offsets).length = offsets.length - 1 := by
  fun_induction data_lengths offsets with
  | case1 curr next rest ih => simpa using ih
  | case2 offsets other =>
    match offsets,other with
    | [],_ => rfl
    | [_],_ => rfl
    | curr :: next :: rest,other => exact absurd rfl (other curr next rest)

private theorem data_lengths_getElem? (i : ℕ) {first last : ℕ} (found : offsets[i]? = some first) (next : offsets[i + 1]? = some last) :
    (data_lengths offsets)[i]? = some (unsigned 32 ((last : ℤ) - first)) := by
  induction offsets generalizing i with
  | nil => simp at found
  | cons curr offsets ih =>
    cases offsets with
    | nil => simp at next
    | cons second rest =>
      cases i with
      | zero =>
        obtain rfl : curr = first := by simpa using found
        obtain rfl : second = last := by simpa using next
        rfl
      | succ i => exact ih i found next

private theorem unsigned_sub {w first last : ℕ} (le : first ≤ last) (small : last - first < 2 ^ w) :
    unsigned w ((last : ℤ) - first) = last - first := by
  rw [← Nat.cast_sub le]
  exact unsigned_natCast small

private theorem unsigned_add_sub {w size first last : ℕ} (le : first ≤ last) (small : size + (last - first) < 2 ^ w) :
    unsigned w ((size : ℤ) + ((last : ℤ) - first)) = size + (last - first) := by
  rw [← Nat.cast_sub le,← Nat.cast_add]
  exact unsigned_natCast small

private theorem sum_data_lengths (monotone : offsets.Pairwise (· ≤ ·)) (nonempty : offsets ≠ [])
    (small : ∀ i, i + 1 < offsets.length → offsetAt offsets (i + 1) - offsetAt offsets i < 2 ^ 32) (i : ℕ) :
    ((data_lengths offsets).take i).sum = offsetAt offsets i - offsetAt offsets 0 := by
  induction i with
  | zero => simp
  | succ i ih =>
    have start : offsetAt offsets 0 ≤ offsetAt offsets i := offsetAt_mono monotone nonempty (Nat.zero_le i)
    have le : offsetAt offsets i ≤ offsetAt offsets (i + 1) := offsetAt_mono monotone nonempty (Nat.le_succ i)
    rw [take_add_one,sum_append,ih]
    by_cases below : i + 1 < offsets.length
    · rw [data_lengths_getElem? i (getElem?_offsetAt (by omega)) (getElem?_offsetAt below),unsigned_sub le (small i below),
        toList_some,sum_singleton]
      omega
    · rw [offsetAt_beyond (by omega),getElem?_eq_none (by rw [length_data_lengths]; omega)]
      simp

end Offsets

section Block
variable {block : GroupBlockPolicy} {admits : ℕ → Prop} {offsets : List ℕ} {data : List UInt8}

def describedOffsets (block : GroupBlockPolicy) (offsets : List ℕ) : List ℕ :=
  offsets.take (described block (offsets.length - 1) + 1)

private theorem Items.admitted_offsetAt (items : Items block admits offsets data) {i : ℕ}
    (position : i % (block.BLOCK_SIZE + 1) ≠ block.BLOCK_SIZE) (below : i + 1 < offsets.length) :
    admits (offsetAt offsets (i + 1) - offsetAt offsets i) :=
  items.admitted i _ _ position (getElem?_offsetAt (by omega)) (getElem?_offsetAt below)

private theorem length_describedOffsets (nonempty : offsets ≠ []) :
    (describedOffsets block offsets).length = described block (offsets.length - 1) + 1 := by
  have positive := length_pos_of_ne_nil nonempty
  rw [describedOffsets,length_take,described]
  omega

private theorem Items.describes (items : Items block admits offsets data) (lawful : Lawful block admits) :
    (data_lengths (describedOffsets block offsets)).length ≤ block.BLOCK_SIZE ∧
    (∀ length ∈ data_lengths (describedOffsets block offsets), admits length) ∧
    ∀ i ≤ block.BLOCK_SIZE, ((data_lengths (describedOffsets block offsets)).take i).sum =
      offsetAt offsets i - offsetAt offsets 0 := by
  have size := @length_describedOffsets block _ items.nonempty
  have count : described block (offsets.length - 1) = min block.BLOCK_SIZE (offsets.length - 1) := rfl
  have nonempty : describedOffsets block offsets ≠ [] := ne_nil_of_length_pos (by omega)
  have same : ∀ i ≤ block.BLOCK_SIZE, offsetAt (describedOffsets block offsets) i = offsetAt offsets i :=
    fun i inside => offsetAt_take inside
  have monotone : (describedOffsets block offsets).Pairwise (· ≤ ·) := items.monotone.sublist (take_sublist _ _)
  have admitted : ∀ i, i + 1 < (describedOffsets block offsets).length →
      admits (offsetAt (describedOffsets block offsets) (i + 1) - offsetAt (describedOffsets block offsets) i) := by
    intro i below
    rw [same _ (by omega),same _ (by omega)]
    exact items.admitted_offsetAt (by rw [Nat.mod_eq_of_lt (by omega)]; omega) (by omega)
  refine ⟨by rw [length_data_lengths]; omega,?_,?_⟩
  · intro length member
    obtain ⟨i,found⟩ := mem_iff_getElem?.mp member
    have below := (List.getElem?_eq_some_iff.mp found).1
    rw [length_data_lengths] at below
    have fits := admitted i (by omega)
    have le := offsetAt_mono monotone nonempty (Nat.le_succ i)
    rw [data_lengths_getElem? i (getElem?_offsetAt (by omega)) (getElem?_offsetAt (by omega)),
      unsigned_sub le (lawful.small _ fits)] at found
    exact some.inj found ▸ fits
  · intro i inside
    rw [sum_data_lengths monotone nonempty (fun i below => lawful.small _ (admitted i below)),same i inside,
      same 0 (Nat.zero_le _)]

private theorem Items.next (items : Items block admits offsets data) (more : 1 < offsets.length) :
    Items block admits (offsets.drop (advanced block (offsets.length - 1))) data where
  nonempty := by
    apply ne_nil_of_length_pos
    rw [length_drop,advanced_eq]
    omega
  monotone := items.monotone.sublist (drop_sublist _ _)
  inside offset member := items.inside offset (mem_of_mem_drop member)
  admitted i first last position found next := by
    rw [advanced_eq] at found next
    rw [getElem?_drop] at found next
    have below := (List.getElem?_eq_some_iff.mp next).1
    have full : min (block.BLOCK_SIZE + 1) (offsets.length - 1) = block.BLOCK_SIZE + 1 := by omega
    rw [full] at found next
    exact items.admitted _ first last (by rwa [Nat.add_mod_left]) found next

end Block

/-! ### The whole index -/

section Index
variable {block : GroupBlockPolicy} {admits : ℕ → Prop} {offsets : List ℕ} {data : List UInt8}
variable {reference : block.BlockReference} {references : List block.BlockReference} {values : List UInt8} {i : ℕ}

private theorem adapt_eq {first last : ℕ} (le : first ≤ last) (inside : last ≤ values.length) :
    IndexedDataImpl.adapt values first last = some (slice values first last) := if_pos ⟨le,inside⟩

def firstEnd (references : List block.BlockReference) (values : List UInt8) : ℕ :=
  match references[0]? with
  | none => values.length
  | some next => block.offset next

private theorem read_first (inside : i ≤ block.BLOCK_SIZE) :
    IndexedDataImpl.read ⟨reference :: references,values⟩ i =
      (block.ReadRefrencedBlock reference i values (block.offset reference) (firstEnd references values)).bind
        fun range => IndexedDataImpl.adapt values range.1 range.2 := by
  have place : i / (block.BLOCK_SIZE + 1) = 0 := Nat.div_eq_of_lt (by omega)
  have rest : i % (block.BLOCK_SIZE + 1) = i := Nat.mod_eq_of_lt (by omega)
  rw [IndexedDataImpl.read]
  simp only [place,rest]
  rfl

private theorem read_later (i : ℕ) :
    IndexedDataImpl.read ⟨reference :: references,values⟩ (i + (block.BLOCK_SIZE + 1)) =
      IndexedDataImpl.read ⟨references,values⟩ i := by
  rw [IndexedDataImpl.read,IndexedDataImpl.read,Nat.add_div_right _ (Nat.succ_pos _),Nat.add_mod_right]
  rfl

private theorem blocksFor_next (more : 1 < offsets.length) :
    blocksFor block (offsets.length - 1) =
      blocksFor block ((offsets.drop (advanced block (offsets.length - 1))).length - 1) + 1 := by
  rw [length_drop,advanced_eq,blocksFor,blocksFor,if_neg (by omega)]
  by_cases full : block.BLOCK_SIZE + 1 < offsets.length - 1
  · rw [if_neg (by omega)]
    have split : offsets.length - 1 - 1 =
        (offsets.length - min (block.BLOCK_SIZE + 1) (offsets.length - 1) - 1 - 1) + (block.BLOCK_SIZE + 1) := by omega
    rw [split,Nat.add_div_right _ (show 0 < block.BLOCK_SIZE + 1 by omega)]
    omega
  · rw [if_pos (by omega),Nat.div_eq_of_lt (by omega)]

/-- The bytes and the references of an index: every item can be read, and nothing from the places behind the last one. -/
structure Stored (block : GroupBlockPolicy) (offsets : List ℕ) (data : List UInt8) (before bytes : List UInt8)
    (references : List block.BlockReference) : Prop where
  count : references.length = blocksFor block (offsets.length - 1)
  start : ∀ reference, references[0]? = some reference → block.offset reference = before.length
  nothing : references = [] → bytes = []
  read : ∀ i, IndexedDataImpl.read ⟨references,before ++ bytes⟩ i =
    some (slice data (offsetAt offsets i) (offsetAt offsets (i + 1)))

private theorem Stored.empty (short : offsets.length ≤ 1) (before : List UInt8) : Stored block offsets data before [] [] where
  count := by rw [blocksFor,if_pos (by omega)]; rfl
  start := by simp
  nothing _ := rfl
  read i := by
    rw [offsetAt_beyond (by omega),slice,Nat.sub_self]
    rfl

private theorem Stored.firstEnd_eq {before bytes : List UInt8} (stored : Stored block offsets data before bytes references) :
    firstEnd references (before ++ bytes) = before.length := by
  rw [firstEnd]
  split
  · rename_i none
    rw [stored.nothing (by simpa using none),append_nil]
  · rename_i next found
    exact stored.start next found

private theorem Stored.cons (items : Items block admits offsets data) (more : 1 < offsets.length) {before written bytes : List UInt8}
    (start : block.offset reference = before.length)
    (reads : ∀ values first last index, written <+: values.drop first → index ≤ block.BLOCK_SIZE →
      block.ReadRefrencedBlock reference index values first last =
        some (first + written.length + (offsetAt offsets index - offsetAt offsets 0),
          if index < block.BLOCK_SIZE then first + written.length + (offsetAt offsets (index + 1) - offsetAt offsets 0) else last))
    (rest : Stored block (offsets.drop (advanced block (offsets.length - 1))) data
      (before ++ (written ++ slice data (offsetAt offsets 0) (offsetAt offsets (block.BLOCK_SIZE + 1)))) bytes references) :
    Stored block offsets data before
      (written ++ slice data (offsetAt offsets 0) (offsetAt offsets (block.BLOCK_SIZE + 1)) ++ bytes) (reference :: references) where
  count := by rw [length_cons,rest.count,← blocksFor_next more]
  start other found := by
    obtain rfl : reference = other := by simpa using found
    exact start
  nothing empty := by simp at empty
  read i := by
    have monotone {i j : ℕ} (le : i ≤ j) := offsetAt_mono items.monotone items.nonempty le
    have inside (i : ℕ) : offsetAt offsets i ≤ data.length := items.inside _ (offsetAt_mem items.nonempty i)
    rcases Nat.lt_or_ge i (block.BLOCK_SIZE + 1) with first | later
    · have chunk := @length_slice _ data (offsetAt offsets 0) _ (inside (block.BLOCK_SIZE + 1))
      have ends := rest.firstEnd_eq
      rw [append_assoc before,length_append,length_append,chunk,← Nat.add_assoc] at ends
      have last : (if i < block.BLOCK_SIZE then before.length + written.length + (offsetAt offsets (i + 1) - offsetAt offsets 0)
          else before.length + written.length + (offsetAt offsets (block.BLOCK_SIZE + 1) - offsetAt offsets 0)) =
          before.length + written.length + (offsetAt offsets (i + 1) - offsetAt offsets 0) := by
        split
        · rfl
        · rw [show i = block.BLOCK_SIZE by omega]
      have low : offsetAt offsets 0 ≤ offsetAt offsets i := monotone (Nat.zero_le i)
      have le : offsetAt offsets i ≤ offsetAt offsets (i + 1) := monotone (Nat.le_succ i)
      have high : offsetAt offsets (i + 1) ≤ offsetAt offsets (block.BLOCK_SIZE + 1) := monotone (by omega)
      have copied := slice_copied (before ++ written) bytes low le high (inside _)
      rw [length_append,append_assoc before,append_assoc before] at copied
      rw [read_first (by omega),start,ends,reads _ _ _ _ (by simp) (by omega),last,bind_some,
        adapt_eq (by omega) (by simp [chunk]; omega),copied]
    · obtain ⟨j,rfl⟩ : ∃ j, i = j + (block.BLOCK_SIZE + 1) := ⟨i - (block.BLOCK_SIZE + 1),by omega⟩
      have behind := rest.read j
      rw [advanced_eq,offsetAt_drop,offsetAt_drop,append_assoc before] at behind
      rw [read_later,behind,Nat.add_right_comm]

private theorem writeBlocks_short (short : offsets.length ≤ 1) : writeBlocks block data offsets = .ok [] := by
  rw [writeBlocks,if_pos short]

private theorem writeReferences_short (short : offsets.length ≤ 1) (data_size : ℕ) :
    writeReferences block offsets data_size = .ok ([],data_size) := by
  rw [writeReferences,if_pos short]

private theorem getD_zero (offsets : List ℕ) : offsets.getD 0 0 = offsetAt offsets 0 := by rw [offsetAt,Nat.zero_min]

private theorem getD_advanced (offsets : List ℕ) :
    offsets.getD (advanced block (offsets.length - 1)) 0 = offsetAt offsets (block.BLOCK_SIZE + 1) := by
  rw [offsetAt,advanced_eq]

private theorem writeBlocks_more (more : 1 < offsets.length) :
    writeBlocks block data offsets = (do
      let written ← block.WriteBlockPrefix (describedOffsets block offsets)
      let rest ← writeBlocks block data (offsets.drop (advanced block (offsets.length - 1)))
      return written ++ slice data (offsetAt offsets 0) (offsetAt offsets (block.BLOCK_SIZE + 1)) ++ rest) := by
  rw [writeBlocks,if_neg (by omega)]
  simp only [getD_zero,getD_advanced,describedOffsets]

private theorem writeReferences_more (more : 1 < offsets.length) (data_size : ℕ) :
    writeReferences block offsets data_size = (do
      let (reference,data_size) ← block.WriteBlockReference (describedOffsets block offsets) data_size
      let data_size := unsigned 64 (data_size + ((offsetAt offsets (block.BLOCK_SIZE + 1) : ℤ) - offsetAt offsets 0))
      let (references,data_size) ← writeReferences block (offsets.drop (advanced block (offsets.length - 1))) data_size
      return (reference :: references,data_size)) := by
  rw [writeReferences,if_neg (by omega)]
  simp only [getD_zero,getD_advanced,describedOffsets]

private theorem writes (items : Items block admits offsets data) (lawful : Lawful block admits) :
    ∃ bytes, writeBlocks block data offsets = .ok bytes ∧ ∀ before : List UInt8, before.length + bytes.length < 2 ^ 32 →
      ∃ references, writeReferences block offsets before.length = .ok (references,before.length + bytes.length) ∧
        Stored block offsets data before bytes references := by
  induction size : offsets.length using Nat.strong_induction_on generalizing offsets with
  | _ size ih =>
    subst size
    rcases Nat.lt_or_ge 1 offsets.length with more | short
    · have next := advanced_eq block (offsets.length - 1)
      obtain ⟨bytes,ran,stored⟩ := ih _ (by rw [length_drop]; omega) (items.next more) rfl
      obtain ⟨few,admitted,sums⟩ := items.describes lawful
      obtain ⟨written,prefixed,referenced⟩ := lawful.written _ few admitted
      have monotone {i j : ℕ} (le : i ≤ j) := offsetAt_mono items.monotone items.nonempty le
      have chunk := @length_slice _ data (offsetAt offsets 0) _
        (items.inside _ (offsetAt_mem items.nonempty (block.BLOCK_SIZE + 1)))
      refine ⟨written ++ slice data (offsetAt offsets 0) (offsetAt offsets (block.BLOCK_SIZE + 1)) ++ bytes,?_,?_⟩
      · rw [writeBlocks_more more,prefixed,ran]
        rfl
      · intro before small
        obtain ⟨reference,wrote,start,reads⟩ := referenced before.length
        obtain ⟨references,looped,rest⟩ := stored
          (before ++ (written ++ slice data (offsetAt offsets 0) (offsetAt offsets (block.BLOCK_SIZE + 1))))
          (by simpa [Nat.add_assoc] using small)
        refine ⟨reference :: references,?_,.cons items more ?_ ?_ rest⟩
        · have size : before.length + written.length + (offsetAt offsets (block.BLOCK_SIZE + 1) - offsetAt offsets 0) =
              (before ++ (written ++ slice data (offsetAt offsets 0) (offsetAt offsets (block.BLOCK_SIZE + 1)))).length := by
            simp [chunk,Nat.add_assoc]
          simp only [length_append,chunk] at small
          rw [writeReferences_more more]
          simp only [bind,Except.bind,wrote,pure,Except.pure]
          rw [unsigned_natCast (by omega),unsigned_add_sub (monotone (Nat.zero_le _)) (by omega),size,looped]
          simp [Nat.add_assoc]
        · rw [start,unsigned_natCast (by omega)]
        · intro values place final index there inside
          rw [reads values place final index there inside,sums index inside]
          split
          · rw [sums (index + 1) (by omega)]
          · rfl
    · refine ⟨[],writeBlocks_short short,fun before _ => ⟨[],?_,.empty short before⟩⟩
      exact writeReferences_short short _

private theorem written_all {α : Type} (zero : α) (elements : List α) : written elements.length zero elements = .ok elements := by
  rw [written,if_neg (Nat.lt_irrefl _),Nat.sub_self,replicate_zero,append_nil]

private theorem read_empty {indexed : IndexedDataImpl block} {found : List UInt8} (empty : indexed.values = [])
    (read : indexed.read i = some found) : found = [] := by
  rw [IndexedDataImpl.read] at read
  split at read
  · exact (some.inj read).symm
  · obtain ⟨range,-,adapted⟩ := bind_eq_some_iff.mp read
    change IndexedDataImpl.adapt indexed.values range.1 range.2 = some found at adapted
    rw [IndexedDataImpl.adapt,empty] at adapted
    split at adapted
    · simpa [slice] using (some.inj adapted).symm
    · simp at adapted

private theorem item_eq {indexed : IndexedDataImpl block} {found : List UInt8} (read : indexed.read i = some found) :
    indexed.item i = some found := by
  rw [IndexedDataImpl.item]
  split
  · rename_i empty
    rw [read_empty (by simpa using empty) read]
  · exact read

end Index

inductive Policy
  | variableGroup (N : ℕ) (small : N ≤ 16)
  | fixedGroup (N : ℕ)

namespace Policy

def block : Policy → GroupBlockPolicy
  | variableGroup N _ => VariableGroupBlock N
  | fixedGroup N => FixedGroupBlock N
def admits : Policy → ℕ → Prop
  | variableGroup _ _ => (· < 0x1000000)
  | fixedGroup _ => (· ≤ FixedGroupBlock.MAX_LENGTH)

private theorem lawful (policy : Policy) : Lawful policy.block policy.admits := by
  cases policy with
  | variableGroup N small => exact VariableGroupBlock.lawful small
  | fixedGroup N => exact FixedGroupBlock.lawful N

end Policy

/-- Every item is read as it was given, and then empty items, as long as neither vector takes 2³² elements. -/
theorem indexed_data_round_trips (policy : Policy) {offsets : List ℕ} {data : List UInt8}
    (items : Items policy.block policy.admits offsets data) :
    ∃ bytes, writeBlocks policy.block data offsets = .ok bytes ∧
      (bytes.length < 2 ^ 32 → blocksFor policy.block (offsets.length - 1) < 2 ^ 32 →
        ∃ indexed, build policy.block offsets data = .ok indexed ∧ indexed.values = bytes ∧
          (∀ i first last, offsets[i]? = some first → offsets[i + 1]? = some last → indexed.item i = some (slice data first last)) ∧
          ∀ i, offsets.length ≤ i + 1 → indexed.item i = some []) := by
  obtain ⟨bytes,ran,stored⟩ := writes items policy.lawful
  refine ⟨bytes,ran,fun small few => ?_⟩
  obtain ⟨references,looped,result⟩ := stored [] (by simpa using small)
  rw [length_nil,Nat.zero_add] at looped
  have reads := fun i => item_eq (result.read i)
  rw [nil_append] at reads
  refine ⟨⟨references,bytes⟩,?_,rfl,?_,?_⟩
  · rw [build,looped,ran,unsigned_natCast few,← result.count]
    simp only [bind,Except.bind,written_all,pure,Except.pure]
  · intro i first last found next
    rw [reads,offsetAt_of_getElem? found,offsetAt_of_getElem? next]
  · intro i beyond
    rw [reads,offsetAt_beyond beyond,slice,Nat.sub_self,take_zero]

private theorem items_abc : Items (VariableGroupBlock 1) (· < 0x1000000) [0,2,2,3] [97,98,99] where
  nonempty := cons_ne_nil _ _
  monotone := by decide
  inside := by decide
  admitted i first last _ found next := by
    have le : last ≤ 3 := by
      have bound : ∀ offset ∈ [0,2,2,3], offset ≤ 3 := by decide
      exact bound last (mem_of_getElem? next)
    change last - first < 0x1000000
    omega

theorem indexed_data_round_trips_abc : ∃ indexed, build (VariableGroupBlock 1) [0,2,2,3] [97,98,99] = .ok indexed ∧
    indexed.item 0 = some [97,98] ∧ indexed.item 1 = some [] ∧ indexed.item 2 = some [99] ∧ indexed.item 3 = some [] := by
  obtain ⟨bytes,ran,stored⟩ := indexed_data_round_trips (.variableGroup 1 (by decide)) items_abc
  have value : writeBlocks (VariableGroupBlock 1) [97,98,99] [0,2,2,3] = .ok [2,97,98,1,99] := by decide +kernel
  obtain rfl : bytes = [2,97,98,1,99] := Except.ok.inj (ran.symm.trans value)
  obtain ⟨indexed,built,-,inside,beyond⟩ := stored (by decide) (by decide)
  exact ⟨indexed,built,inside 0 0 2 rfl rfl,inside 1 2 2 rfl rfl,inside 2 2 3 rfl rfl,beyond 3 (by decide)⟩

end Osrm.IndexedData
