import Mathlib.Data.List.GetD
import Osrm.Loops

/-!
`util/range_table.hpp`. Ranges that follow each other are stored by their lengths: a block has the beginning of its
first range as a number and the lengths of `BLOCK_SIZE` ranges as bytes, one place behind each.
-/
namespace Osrm.RangeTables
open List Option
open Loops

/-- Conversion to `unsigned char`. -/
def toByte (n : ℕ) : ℕ := n % 256
/-- Conversion to `unsigned`. -/
def toUnsigned (n : ℕ) : ℕ := n % 2 ^ 32
/-- `block[i] = length`. -/
def store (block : List ℕ) (i length : ℕ) : Option (List ℕ) := if i < block.length then some (block.set i (toByte length)) else none

structure RangeTable where
  block_offsets : List ℕ
  diff_blocks : List (List ℕ)
  sum_lengths : ℕ
  deriving DecidableEq, Repr

structure Building where
  block_offsets : List ℕ
  diff_blocks : List (List ℕ)
  last_length : ℕ
  lengths_prefix_sum : ℕ
  block_idx : ℕ
  block : List ℕ
  deriving DecidableEq, Repr

section Code
variable (BLOCK_SIZE : ℕ)

def addEntry (s : Building) : Option Building :=
  if s.block_idx = 0 then some { s with block_offsets := s.block_offsets ++ [s.lengths_prefix_sum] }
  else (store s.block (s.block_idx - 1) s.last_length).map fun block => { s with block }
def finishBlock (s : Building) : Building := if BLOCK_SIZE = s.block_idx then { s with diff_blocks := s.diff_blocks ++ [s.block] } else s

/-- The body of the loop over the lengths. -/
def addLength (s : Building) (l : ℕ) : Option Building := do
  let s ← addEntry s
  let s := finishBlock BLOCK_SIZE s
  return { s with lengths_prefix_sum := toUnsigned (s.lengths_prefix_sum + l), last_length := l, block_idx := (s.block_idx + 1) % (BLOCK_SIZE + 1) }

def addGuard (s : Building) : Building :=
  if 0 = s.block_idx then { s with block_offsets := s.block_offsets ++ [s.lengths_prefix_sum], block_idx := 1, last_length := 0 } else s
def fillEntry (s : Building) : Option Building :=
  (store s.block (s.block_idx - 1) s.last_length).map fun block =>
    { s with block, last_length := 0, block_idx := (s.block_idx + 1) % (BLOCK_SIZE + 1) }

/-- The constructor from a vector of lengths; the last block is filled in at most `BLOCK_SIZE` rounds. -/
def RangeTable.new (uninitialized : List ℕ) (lengths : List ℕ) : Option RangeTable := do
  let s ← lengths.foldlM (addLength BLOCK_SIZE) ⟨[],[],0,0,0,uninitialized⟩
  let s ← whileLoopM (fun s : Building => 0 != s.block_idx) (fillEntry BLOCK_SIZE) BLOCK_SIZE (addGuard s)
  return ⟨s.block_offsets,s.diff_blocks ++ [s.block],s.lengths_prefix_sum⟩

def PrefixSumAtIndex (index : ℕ) (block : List ℕ) : Option ℕ :=
  (List.range (index + 1)).foldlM (fun sum i => block[i]?.map fun length => toUnsigned (sum + length)) 0
/-- `begin_idx`, from the offset of the block. -/
def beginIdx (internal_idx : ℕ) (block : List ℕ) (begin_idx : ℕ) : Option ℕ :=
  if internal_idx > 0 then (PrefixSumAtIndex (internal_idx - 1) block).map fun sum => toUnsigned (begin_idx + sum) else some begin_idx
/-- `end_idx`, in the block or from the offset of the next one. -/
def RangeTable.endIdx (self : RangeTable) (block_idx internal_idx : ℕ) (block : List ℕ) (begin_idx : ℕ) : Option ℕ :=
  if internal_idx < BLOCK_SIZE then block[internal_idx]?.map fun length => toUnsigned (begin_idx + length)
  else self.block_offsets[block_idx + 1]?

/-- The range as its beginning and its end. -/
def RangeTable.GetRange (self : RangeTable) (id : ℕ) : Option (ℕ × ℕ) := do
  let internal_idx := id % (BLOCK_SIZE + 1)
  let block_idx := id / (BLOCK_SIZE + 1)
  let block_offset ← self.block_offsets[block_idx]?
  let block ← self.diff_blocks[block_idx]?
  let begin_idx ← beginIdx internal_idx block block_offset
  let end_idx ← self.endIdx BLOCK_SIZE block_idx internal_idx block begin_idx
  return (begin_idx,end_idx)

end Code

example : (RangeTable.new 2 [7,7] [1,2,3,4,5]).bind (fun table => table.GetRange 2 3) = some (6,10) := by decide

def lengthAt (lengths : List ℕ) (i : ℕ) : ℕ := lengths.getD i 0
def beginAt (lengths : List ℕ) (i : ℕ) : ℕ := (lengths.take i).sum

section Sums
variable {lengths : List ℕ} {i : ℕ}

private theorem beginAt_succ (lengths : List ℕ) (i : ℕ) : beginAt lengths (i + 1) = beginAt lengths i + lengthAt lengths i := by
  rw [beginAt,beginAt,lengthAt,take_add_one,sum_append,getD_eq_getElem?_getD]
  cases lengths[i]? <;> simp

private theorem beginAt_le (lengths : List ℕ) (i : ℕ) : beginAt lengths i ≤ lengths.sum := by
  rw [beginAt,← sum_take_add_sum_drop lengths i]
  exact Nat.le_add_right ..

private theorem lengthAt_beyond (beyond : lengths.length ≤ i) : lengthAt lengths i = 0 := by
  rw [lengthAt,getD_eq_getElem?_getD,getElem?_eq_none beyond]
  rfl

private theorem toByte_lengthAt (small : ∀ l ∈ lengths, l ≤ 255) (i : ℕ) : toByte (lengthAt lengths i) = lengthAt lengths i := by
  apply Nat.mod_eq_of_lt
  rcases Nat.lt_or_ge i lengths.length with inside | beyond
  · rw [lengthAt,getD_eq_getElem _ _ inside]
    exact Nat.lt_succ_of_le (small _ (getElem_mem inside))
  · rw [lengthAt_beyond beyond]
    decide

private theorem toUnsigned_beginAt (fits : lengths.sum < 2 ^ 32) (i : ℕ) : toUnsigned (beginAt lengths i) = beginAt lengths i :=
  Nat.mod_eq_of_lt ((beginAt_le lengths i).trans_lt fits)

end Sums

/-! ### Construction -/

section Construction
variable {BLOCK_SIZE : ℕ} {lengths : List ℕ} {s : Building} {q p : ℕ}

def Bytes (BLOCK_SIZE : ℕ) (lengths : List ℕ) (q count : ℕ) (block : List ℕ) : Prop :=
  block.length = BLOCK_SIZE ∧ ∀ j < count, block[j]? = some (lengthAt lengths (q * (BLOCK_SIZE + 1) + j))

private theorem Bytes.store {block : List ℕ} {count : ℕ} (bytes : Bytes BLOCK_SIZE lengths q count block) (small : ∀ l ∈ lengths, l ≤ 255)
    (room : count < BLOCK_SIZE) : ∃ block', RangeTables.store block count (lengthAt lengths (q * (BLOCK_SIZE + 1) + count)) = some block' ∧
      Bytes BLOCK_SIZE lengths q (count + 1) block' := by
  have inside : count < block.length := room.trans_eq bytes.1.symm
  refine ⟨_,if_pos inside,length_set.trans bytes.1,?_⟩
  intro j below
  rw [toByte_lengthAt small]
  rcases Nat.lt_succ_iff_lt_or_eq.mp below with earlier | rfl
  · rw [getElem?_set_ne earlier.ne']
    exact bytes.2 j earlier
  · exact getElem?_set_self inside

structure Complete (BLOCK_SIZE : ℕ) (lengths : List ℕ) (offsets q : ℕ) (s : Building) : Prop where
  offset_count : s.block_offsets.length = offsets
  block_count : s.diff_blocks.length = q
  offset : ∀ k < offsets, s.block_offsets[k]? = some (beginAt lengths (k * (BLOCK_SIZE + 1)))
  blocks : ∀ k < q, ∃ block, s.diff_blocks[k]? = some block ∧ Bytes BLOCK_SIZE lengths k BLOCK_SIZE block

/-- The loop after `p` lengths, of which those of `q` blocks are stored. -/
structure Built (BLOCK_SIZE : ℕ) (lengths : List ℕ) (p q : ℕ) (s : Building) : Prop where
  place : p = q * (BLOCK_SIZE + 1) + s.block_idx
  low : s.block_idx ≤ BLOCK_SIZE
  prefix_sum : s.lengths_prefix_sum = beginAt lengths p
  last : 0 < p → s.last_length = lengthAt lengths (p - 1)
  bytes : Bytes BLOCK_SIZE lengths q (s.block_idx - 1) s.block
  complete : Complete BLOCK_SIZE lengths (if s.block_idx = 0 then q else q + 1) q s

private theorem append_one {α : Type} (holds : ℕ → Option α → Prop) {values : List α} {q : ℕ} (count : values.length = q)
    (all : ∀ k < q, holds k values[k]?) {value : α} (next : holds q (some value)) :
    (values ++ [value]).length = q + 1 ∧ ∀ k < q + 1, holds k (values ++ [value])[k]? := by
  refine ⟨by simp [count],?_⟩
  intro k below
  rcases Nat.lt_succ_iff_lt_or_eq.mp below with earlier | rfl
  · rw [getElem?_append_left (earlier.trans_eq count.symm)]
    exact all k earlier
  · subst count
    simpa using next

private theorem append_offset {offsets : List ℕ} {f : ℕ → ℕ} {q : ℕ} (count : offsets.length = q) (all : ∀ k < q, offsets[k]? = some (f k)) {offset : ℕ}
    (next : offset = f q) : (offsets ++ [offset]).length = q + 1 ∧ ∀ k < q + 1, (offsets ++ [offset])[k]? = some (f k) :=
  append_one (fun k offset => offset = some (f k)) count all (congrArg some next)

private theorem append_block {blocks : List (List ℕ)} (count : blocks.length = q)
    (all : ∀ k < q, ∃ block, blocks[k]? = some block ∧ Bytes BLOCK_SIZE lengths k BLOCK_SIZE block) {block : List ℕ}
    (next : Bytes BLOCK_SIZE lengths q BLOCK_SIZE block) : (blocks ++ [block]).length = q + 1 ∧
      ∀ k < q + 1, ∃ block', (blocks ++ [block])[k]? = some block' ∧ Bytes BLOCK_SIZE lengths k BLOCK_SIZE block' :=
  append_one (fun k block => ∃ b, block = some b ∧ Bytes BLOCK_SIZE lengths k BLOCK_SIZE b) count all ⟨block,rfl,next⟩

private theorem built_start {uninitialized : List ℕ} (size : uninitialized.length = BLOCK_SIZE) :
    Built BLOCK_SIZE lengths 0 0 ⟨[],[],0,0,0,uninitialized⟩ where
  place := by simp
  low := Nat.zero_le _
  prefix_sum := rfl
  last := fun positive => absurd positive (lt_irrefl _)
  bytes := ⟨size,fun j below => absurd below (Nat.not_lt_zero j)⟩
  complete := ⟨rfl,rfl,fun k below => absurd below (Nat.not_lt_zero k),fun k below => absurd below (Nat.not_lt_zero k)⟩

private theorem Built.step (positive : 0 < BLOCK_SIZE) (small : ∀ l ∈ lengths, l ≤ 255) (fits : lengths.sum < 2 ^ 32)
    (built : Built BLOCK_SIZE lengths p q s) : ∃ s' q', addLength BLOCK_SIZE s (lengthAt lengths p) = some s' ∧
      Built BLOCK_SIZE lengths (p + 1) q' s' := by
  obtain ⟨block_offsets,diff_blocks,last_length,lengths_prefix_sum,block_idx,block⟩ := s
  obtain ⟨place,low,prefix_sum,last,bytes,complete⟩ := built
  simp only at place low prefix_sum last bytes complete
  have sum : toUnsigned (lengths_prefix_sum + lengthAt lengths p) = beginAt lengths (p + 1) := by
    rw [prefix_sum,← beginAt_succ,toUnsigned_beginAt fits]
  cases block_idx with
  | zero =>
    -- the first entry of a block
    have next : (0 + 1) % (BLOCK_SIZE + 1) = 1 := Nat.mod_eq_of_lt (Nat.succ_lt_succ positive)
    have offsets := append_offset complete.offset_count complete.offset (prefix_sum.trans (congrArg _ place))
    refine ⟨⟨block_offsets ++ [lengths_prefix_sum],diff_blocks,lengthAt lengths p,beginAt lengths (p + 1),1,block⟩,q,?_,?_⟩
    · simp [addLength,addEntry,finishBlock,positive.ne',sum,next]
    · exact ⟨by simp [place],positive,rfl,fun _ => rfl,bytes,⟨offsets.1,complete.block_count,offsets.2,complete.blocks⟩⟩
  | succ entry =>
    have before : p - 1 = q * (BLOCK_SIZE + 1) + entry := by omega
    have value : last_length = lengthAt lengths (q * (BLOCK_SIZE + 1) + entry) := before ▸ last (by omega)
    obtain ⟨block',stored,bytes'⟩ := bytes.store small (Nat.lt_of_succ_le low)
    rw [Nat.add_sub_cancel,← value] at stored
    by_cases full : BLOCK_SIZE = entry + 1
    · -- the block is full
      have filled : Bytes BLOCK_SIZE lengths q BLOCK_SIZE block' := ⟨bytes'.1,fun j below => bytes'.2 j (by omega)⟩
      have blocks := append_block complete.block_count complete.blocks filled
      refine ⟨⟨block_offsets,diff_blocks ++ [block'],lengthAt lengths p,beginAt lengths (p + 1),0,block'⟩,q + 1,?_,?_⟩
      · simp [addLength,addEntry,finishBlock,stored,full,sum]
      · refine ⟨?_,Nat.zero_le _,rfl,fun _ => rfl,⟨bytes'.1,fun j below => absurd below (Nat.not_lt_zero j)⟩,?_⟩
        · rw [place,full]
          ring
        · exact ⟨complete.offset_count,blocks.1,complete.offset,blocks.2⟩
    · have next : (entry + 1 + 1) % (BLOCK_SIZE + 1) = entry + 1 + 1 := Nat.mod_eq_of_lt (by omega)
      refine ⟨⟨block_offsets,diff_blocks,lengthAt lengths p,beginAt lengths (p + 1),entry + 1 + 1,block'⟩,q,?_,?_⟩
      · simp [addLength,addEntry,finishBlock,stored,full,sum,next]
      · refine ⟨by rw [place,Nat.add_assoc],Nat.succ_le_of_lt (Nat.lt_of_le_of_ne low (Ne.symm full)),rfl,fun _ => rfl,bytes',?_⟩
        exact ⟨complete.offset_count,complete.block_count,complete.offset,complete.blocks⟩

private theorem Built.run (positive : 0 < BLOCK_SIZE) (small : ∀ l ∈ lengths, l ≤ 255) (fits : lengths.sum < 2 ^ 32)
    (built : Built BLOCK_SIZE lengths p q s) {rest : List ℕ} (left : lengths.drop p = rest) :
    ∃ s' q', rest.foldlM (addLength BLOCK_SIZE) s = some s' ∧ Built BLOCK_SIZE lengths (p + rest.length) q' s' := by
  induction rest generalizing p q s with
  | nil => exact ⟨s,q,rfl,built⟩
  | cons l rest ih =>
    have here : lengthAt lengths p = l := by
      have found : lengths[p]? = some l := by rw [← head?_drop,left]; rfl
      rw [lengthAt,getD_eq_getElem?_getD,found]
      rfl
    obtain ⟨next,q',added,built'⟩ := built.step positive small fits
    obtain ⟨last,q'',ran,built''⟩ := ih built' (by rw [← tail_drop,left]; rfl)
    rw [here] at added
    refine ⟨last,q'',?_,?_⟩
    · rw [foldlM_cons,added]
      exact ran
    · rw [length_cons,Nat.add_comm rest.length,← Nat.add_assoc]
      exact built''

private theorem fill_spec (small : ∀ l ∈ lengths, l ≤ 255) {fuel entry : ℕ} (beyond : lengths.length ≤ q * (BLOCK_SIZE + 1) + (entry + 1))
    (low : entry < BLOCK_SIZE) (enough : BLOCK_SIZE ≤ entry + fuel) (block_idx : s.block_idx = entry + 1)
    (bytes : Bytes BLOCK_SIZE lengths q entry s.block) (last : s.last_length = lengthAt lengths (q * (BLOCK_SIZE + 1) + entry)) :
    ∃ s', whileLoopM (fun s : Building => 0 != s.block_idx) (fillEntry BLOCK_SIZE) fuel s = some s' ∧ s'.block_offsets = s.block_offsets ∧
      s'.diff_blocks = s.diff_blocks ∧ s'.lengths_prefix_sum = s.lengths_prefix_sum ∧ Bytes BLOCK_SIZE lengths q BLOCK_SIZE s'.block := by
  induction fuel generalizing s entry with
  | zero => omega
  | succ fuel ih =>
    obtain ⟨block,stored,bytes'⟩ := bytes.store small low
    have filled : fillEntry BLOCK_SIZE s =
        some { s with block, last_length := 0, block_idx := (entry + 1 + 1) % (BLOCK_SIZE + 1) } := by
      rw [fillEntry,block_idx,last,Nat.add_sub_cancel,stored]
      rfl
    have more : (0 != s.block_idx) = true := by simp [block_idx]
    rw [whileLoopM,if_pos more,filled,bind_some]
    by_cases full : entry + 1 = BLOCK_SIZE
    · subst full
      refine ⟨{ s with block, last_length := 0, block_idx := (entry + 1 + 1) % (entry + 1 + 1) },?_,rfl,rfl,rfl,bytes'⟩
      cases fuel <;> simp [whileLoopM]
    · have next : (entry + 1 + 1) % (BLOCK_SIZE + 1) = entry + 1 + 1 := Nat.mod_eq_of_lt (by omega)
      exact ih (beyond.trans (Nat.add_le_add_left (Nat.le_succ _) _)) (by omega) (by omega) next bytes' (lengthAt_beyond beyond).symm

end Construction

/-! ### Ranges -/

section Ranges
variable {BLOCK_SIZE : ℕ} {lengths : List ℕ} {table : RangeTable}

/-- All that is needed to find the ranges of a list of lengths. -/
structure Table (BLOCK_SIZE : ℕ) (lengths : List ℕ) (table : RangeTable) : Prop where
  offset : ∀ q, q * (BLOCK_SIZE + 1) ≤ lengths.length → table.block_offsets[q]? = some (beginAt lengths (q * (BLOCK_SIZE + 1)))
  blocks : ∀ q, q * (BLOCK_SIZE + 1) ≤ lengths.length → ∃ block, table.diff_blocks[q]? = some block ∧
    Bytes BLOCK_SIZE lengths q BLOCK_SIZE block
  sum_lengths : table.sum_lengths = lengths.sum

private theorem addGuard_kept (s : Building) : (addGuard s).diff_blocks = s.diff_blocks ∧
    (addGuard s).lengths_prefix_sum = s.lengths_prefix_sum := by
  rw [addGuard]
  split <;> exact ⟨rfl,rfl⟩

private theorem Built.guarded (positive : 0 < BLOCK_SIZE) {q : ℕ} {s : Building} (built : Built BLOCK_SIZE lengths lengths.length q s) :
    ∃ entry, lengths.length ≤ q * (BLOCK_SIZE + 1) + (entry + 1) ∧ entry < BLOCK_SIZE ∧
      (addGuard s).block_idx = entry + 1 ∧ Bytes BLOCK_SIZE lengths q entry (addGuard s).block ∧
      (addGuard s).last_length = lengthAt lengths (q * (BLOCK_SIZE + 1) + entry) ∧
      ∀ k < q + 1, (addGuard s).block_offsets[k]? = some (beginAt lengths (k * (BLOCK_SIZE + 1))) := by
  have place := built.place
  have complete := built.complete
  have bytes := built.bytes
  cases index : s.block_idx with
  | zero =>
    rw [index] at place bytes
    simp only [index,if_pos] at complete
    have next := append_offset complete.offset_count complete.offset (built.prefix_sum.trans (congrArg _ place))
    rw [addGuard,if_pos index.symm]
    exact ⟨0,by omega,positive,rfl,bytes,(lengthAt_beyond place.le).symm,next.2⟩
  | succ entry =>
    have low := built.low
    rw [index] at place bytes low
    rw [if_neg (by omega)] at complete
    rw [addGuard,if_neg (by omega)]
    refine ⟨entry,place.le,low,index,bytes,?_,complete.offset⟩
    rw [built.last (by omega)]
    congr 1
    omega

private theorem new_table (positive : 0 < BLOCK_SIZE) (small : ∀ l ∈ lengths, l ≤ 255) (fits : lengths.sum < 2 ^ 32) {uninitialized : List ℕ}
    (size : uninitialized.length = BLOCK_SIZE) : ∃ table, RangeTable.new BLOCK_SIZE uninitialized lengths = some table ∧
      Table BLOCK_SIZE lengths table := by
  obtain ⟨s,q,ran,built⟩ := (built_start size).run positive small fits (rfl : lengths.drop 0 = lengths)
  rw [drop_zero] at ran built
  rw [Nat.zero_add] at built
  have whole : beginAt lengths lengths.length = lengths.sum := by rw [beginAt,take_length]
  obtain ⟨entry,beyond,low,block_idx,bytes,last,offsets⟩ := built.guarded positive
  obtain ⟨final,filled,sameOffsets,sameBlocks,sameSum,complete⟩ := fill_spec small beyond low (Nat.le_add_left ..) block_idx bytes last
  have blocks := append_block built.complete.block_count built.complete.blocks complete
  have below (k : ℕ) (inside : k * (BLOCK_SIZE + 1) ≤ lengths.length) : k < q + 1 := by
    have less := built.low
    apply Nat.lt_of_mul_lt_mul_right (a := BLOCK_SIZE + 1)
    rw [Nat.add_mul,Nat.one_mul]
    omega
  refine ⟨⟨final.block_offsets,final.diff_blocks ++ [final.block],final.lengths_prefix_sum⟩,?_,?_,?_,?_⟩
  · simp only [RangeTable.new,ran,filled,bind_eq_bind,bind_some,Option.pure_def]
  · intro k inside
    rw [sameOffsets]
    exact offsets k (below k inside)
  · intro k inside
    rw [sameBlocks,(addGuard_kept s).1]
    exact blocks.2 k (below k inside)
  · rw [sameSum,(addGuard_kept s).2,built.prefix_sum,whole]

private theorem PrefixSumAtIndex_spec (fits : lengths.sum < 2 ^ 32) {q : ℕ} {block : List ℕ} (bytes : Bytes BLOCK_SIZE lengths q BLOCK_SIZE block)
    {index : ℕ} (inside : index < BLOCK_SIZE) : ∃ sum, PrefixSumAtIndex index block = some sum ∧
      beginAt lengths (q * (BLOCK_SIZE + 1)) + sum = beginAt lengths (q * (BLOCK_SIZE + 1) + (index + 1)) := by
  have all (count : ℕ) (few : count ≤ BLOCK_SIZE) : ∃ sum,
      (List.range count).foldlM (fun sum i => block[i]?.map fun length => toUnsigned (sum + length)) 0 = some sum ∧
        beginAt lengths (q * (BLOCK_SIZE + 1)) + sum = beginAt lengths (q * (BLOCK_SIZE + 1) + count) := by
    induction count with
    | zero => exact ⟨0,rfl,rfl⟩
    | succ count ih =>
      obtain ⟨sum,added,place⟩ := ih (Nat.le_of_succ_le few)
      have next := beginAt_succ lengths (q * (BLOCK_SIZE + 1) + count)
      have bound := beginAt_le lengths (q * (BLOCK_SIZE + 1) + count + 1)
      have small : toUnsigned (sum + lengthAt lengths (q * (BLOCK_SIZE + 1) + count)) =
          sum + lengthAt lengths (q * (BLOCK_SIZE + 1) + count) := Nat.mod_eq_of_lt (by omega)
      refine ⟨sum + lengthAt lengths (q * (BLOCK_SIZE + 1) + count),?_,?_⟩
      · rw [range_succ,foldlM_append,added]
        simp [bytes.2 count few,small]
      · rw [← Nat.add_assoc,place,← next,Nat.add_assoc]
  exact all (index + 1) inside

private theorem Table.GetRange (holds : Table BLOCK_SIZE lengths table) (fits : lengths.sum < 2 ^ 32) {i : ℕ} (inside : i < lengths.length) :
    table.GetRange BLOCK_SIZE i = some (beginAt lengths i,beginAt lengths (i + 1)) := by
  have split : i / (BLOCK_SIZE + 1) * (BLOCK_SIZE + 1) + i % (BLOCK_SIZE + 1) = i := Nat.div_add_mod' ..
  have low : i % (BLOCK_SIZE + 1) < BLOCK_SIZE + 1 := Nat.mod_lt _ (Nat.succ_pos _)
  rw [RangeTable.GetRange]
  generalize i / (BLOCK_SIZE + 1) = q at split ⊢
  generalize i % (BLOCK_SIZE + 1) = internal_idx at split low ⊢
  obtain ⟨block,found,bytes⟩ := holds.blocks q (by omega)
  have begins : beginIdx internal_idx block (beginAt lengths (q * (BLOCK_SIZE + 1))) = some (beginAt lengths i) := by
    rw [beginIdx]
    cases internal_idx with
    | zero => simp [← split]
    | succ index =>
      obtain ⟨sum,summed,place⟩ := PrefixSumAtIndex_spec fits bytes (Nat.lt_of_succ_lt_succ low)
      rw [if_pos (Nat.succ_pos index),Nat.add_sub_cancel,summed,map_some,place,split,toUnsigned_beginAt fits]
  have ends : table.endIdx BLOCK_SIZE q internal_idx block (beginAt lengths i) = some (beginAt lengths (i + 1)) := by
    rw [RangeTable.endIdx]
    by_cases within : internal_idx < BLOCK_SIZE
    · rw [if_pos within,bytes.2 internal_idx within,map_some,split,← beginAt_succ,toUnsigned_beginAt fits]
    · have next : (q + 1) * (BLOCK_SIZE + 1) = i + 1 := by
        rw [Nat.add_mul,Nat.one_mul]
        omega
      rw [if_neg within,holds.offset (q + 1) (by omega),next]
  simp only [holds.offset q (by omega),found,begins,ends,bind_eq_bind,bind_some,Option.pure_def]

/-- A table gives back every range of the lengths it was built from. -/
theorem GetRange_new {BLOCK_SIZE : ℕ} (positive : 1 ≤ BLOCK_SIZE) {lengths uninitialized : List ℕ} (size : uninitialized.length = BLOCK_SIZE)
    (small : ∀ l ∈ lengths, l ≤ 255) (fits : lengths.sum < 2 ^ 32) :
    ∃ table, RangeTable.new BLOCK_SIZE uninitialized lengths = some table ∧
      ∀ i < lengths.length, table.GetRange BLOCK_SIZE i = some ((lengths.take i).sum,(lengths.take (i + 1)).sum) := by
  obtain ⟨table,built,holds⟩ := new_table positive small fits size
  exact ⟨table,built,fun i inside => holds.GetRange fits inside⟩

/-- Five lengths that fill a block and go on in the next one. -/
theorem GetRange_new_five : ∃ table, RangeTable.new 2 [7,7] [1,2,3,4,5] = some table ∧
    ∀ i < [1,2,3,4,5].length, table.GetRange 2 i = some (([1,2,3,4,5].take i).sum,([1,2,3,4,5].take (i + 1)).sum) :=
  GetRange_new (by decide) rfl (by decide) (by decide)

end Ranges
end Osrm.RangeTables
