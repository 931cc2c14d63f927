import Mathlib.Tactic
import Mathlib.Order.Basic

/-!
`storage/shared_datatype.hpp`. A data layout is a map from the names of blocks to their sizes; a contiguous one puts
the blocks one after the other in the order of their names, each at a multiple of 64.
-/
namespace Osrm.DataLayout
open List

/-- `storage::Block`. -/
structure Block where
  num_entries : BitVec 64
  byte_size : BitVec 64
  offset : BitVec 64
  deriving DecidableEq, Repr

/-- `util::exception("Could not find block " + name)`. -/
inductive LayoutException (Name : Type)
  | CouldNotFindBlock (name : Name)
  deriving DecidableEq, Repr

/-- `BaseDataLayout`; a `std::map` lists its entries in the order of their keys. -/
structure BaseDataLayout (Name : Type) [LinearOrder Name] where
  blocks : List (Name × Block)
  ordered : blocks.Pairwise fun former latter => former.1 < latter.1

variable {Name : Type} [LinearOrder Name]

namespace BaseDataLayout

def HasBlock (layout : BaseDataLayout Name) (name : Name) : Bool := layout.blocks.any fun entry => entry.1 = name
def GetBlock (layout : BaseDataLayout Name) (name : Name) : Except (LayoutException Name) Block :=
  match layout.blocks.find? fun entry => entry.1 = name with
  | some entry => .ok entry.2
  | none => .error (.CouldNotFindBlock name)

def GetBlockSize (layout : BaseDataLayout Name) (name : Name) : Except (LayoutException Name) (BitVec 64) :=
  (layout.GetBlock name).map (·.byte_size)

private theorem GetBlock_of_mem (layout : BaseDataLayout Name) {name : Name} {block : Block}
    (member : (name,block) ∈ layout.blocks) : layout.GetBlock name = .ok block := by
  have found : layout.blocks.find? (fun entry => entry.1 = name) = some (name,block) := by
    have ordered := layout.ordered
    generalize layout.blocks = blocks at member ordered
    induction blocks with
    | nil => simp at member
    | cons first rest ih =>
      obtain ⟨before,ordered⟩ := pairwise_cons.mp ordered
      cases mem_cons.mp member with
      | inl same => simp [← same]
      | inr later =>
        have different : first.1 ≠ name := (before _ later).ne
        rw [find?_cons_of_neg (by simpa using different)]
        exact ih later ordered
  rw [GetBlock,found]

end BaseDataLayout

def BLOCK_ALIGNMENT : BitVec 64 := 64
def align (ptr : BitVec 64) : BitVec 64 := (ptr - 1 + BLOCK_ALIGNMENT) &&& -BLOCK_ALIGNMENT
def skipBlock (ptr : BitVec 64) (entry : Name × Block) : BitVec 64 := align ptr + entry.2.byte_size
/-- `ContiguousDataLayout`, which adds no data to the map. -/
abbrev ContiguousDataLayout (Name : Type) [LinearOrder Name] := BaseDataLayout Name

namespace ContiguousDataLayout

def GetSizeOfLayout (layout : ContiguousDataLayout Name) : Except (LayoutException Name) (BitVec 64) :=
  layout.blocks.foldlM (fun result entry => do
    let byte_size ← layout.GetBlockSize entry.1
    return result + (byte_size + BLOCK_ALIGNMENT)) 0

def GetAlignedBlockPtr (layout : ContiguousDataLayout Name) (ptr : BitVec 64) (name : Name) :
    Except (LayoutException Name) (BitVec 64) :=
  if layout.HasBlock name then
    .ok (align ((layout.blocks.takeWhile fun entry => entry.1 ≠ name).foldl skipBlock ptr))
  else .error (.CouldNotFindBlock name)

def GetBlockPtr (layout : ContiguousDataLayout Name) (base_ptr : BitVec 64) (name : Name) :
    Except (LayoutException Name) (BitVec 64) := GetAlignedBlockPtr layout base_ptr name

end ContiguousDataLayout

/-! ### Addresses and offsets -/

def distance (base ptr : BitVec 64) : ℕ := (ptr - base).toNat

private theorem distance_add {base : BitVec 64} {o : ℕ} (small : o < 2 ^ 64) : distance base (base + BitVec.ofNat 64 o) = o := by
  have cancelled : base + BitVec.ofNat 64 o - base = BitVec.ofNat 64 o := by bv_omega
  rw [distance,cancelled,BitVec.toNat_ofNat,Nat.mod_eq_of_lt small]

private theorem toNat_add_ofNat {base : BitVec 64} {o : ℕ} (inside : base.toNat + o < 2 ^ 64) :
    (base + BitVec.ofNat 64 o).toNat = base.toNat + o := by
  rw [BitVec.toNat_add,BitVec.toNat_ofNat]
  omega

private theorem mask_eq_shift (x : BitVec 64) : x &&& -BLOCK_ALIGNMENT = (x >>> 6) <<< 6 := by
  have mask : ∀ i < 64, (-BLOCK_ALIGNMENT).getLsbD i = decide (6 ≤ i) := by decide
  apply BitVec.eq_of_getLsbD_eq
  intro i inside
  rw [BitVec.getLsbD_and,mask i inside,BitVec.getLsbD_shiftLeft,BitVec.getLsbD_ushiftRight]
  by_cases low : i < 6
  · simp [low,Nat.not_le.mpr low]
  · simp [inside,low,Nat.not_lt.mp low,Nat.add_sub_cancel' (Nat.not_lt.mp low)]

private theorem toNat_mask (x : BitVec 64) : (x &&& -BLOCK_ALIGNMENT).toNat = x.toNat / 64 * 64 := by
  rw [mask_eq_shift,BitVec.toNat_shiftLeft,BitVec.toNat_ushiftRight,Nat.shiftRight_eq_div_pow,Nat.shiftLeft_eq]
  have bound := x.isLt
  omega

private theorem align_spec (ptr : BitVec 64) : ∃ pad < 64, align ptr = ptr + BitVec.ofNat 64 pad ∧ (align ptr).toNat % 64 = 0 := by
  have moved : ptr - 1 + BLOCK_ALIGNMENT = ptr + 63 := by
    unfold BLOCK_ALIGNMENT
    bv_omega
  have rounded : (align ptr).toNat = (ptr + 63).toNat / 64 * 64 := by rw [align,moved,toNat_mask]
  refine ⟨63 - (ptr + 63).toNat % 64,by omega,?_,by omega⟩
  apply BitVec.eq_of_toNat_eq
  rw [rounded,BitVec.toNat_add,BitVec.toNat_add,BitVec.toNat_ofNat]
  have bound := ptr.isLt
  simp only [BitVec.reduceToNat]
  omega

def room (blocks : List (Name × Block)) : ℕ := (blocks.map fun entry => entry.2.byte_size.toNat + 64).sum

omit [LinearOrder Name] in
private theorem room_append (former latter : List (Name × Block)) : room (former ++ latter) = room former + room latter := by
  simp [room]

omit [LinearOrder Name] in
private theorem room_cons (entry : Name × Block) (rest : List (Name × Block)) :
    room (entry :: rest) = entry.2.byte_size.toNat + 64 + room rest := by simp [room]

omit [LinearOrder Name] in
private theorem skipBlocks_spec (blocks : List (Name × Block)) (ptr : BitVec 64) :
    ∃ d ≤ room blocks, blocks.foldl skipBlock ptr = ptr + BitVec.ofNat 64 d := by
  induction blocks generalizing ptr with
  | nil => exact ⟨0,le_rfl,by simp⟩
  | cons entry rest ih =>
    obtain ⟨pad,small,aligned,-⟩ := align_spec ptr
    obtain ⟨d,bound,moved⟩ := ih (skipBlock ptr entry)
    refine ⟨pad + entry.2.byte_size.toNat + d,?_,?_⟩
    · simp only [room,map_cons,sum_cons] at bound ⊢
      omega
    · rw [foldl_cons,moved,skipBlock,aligned]
      apply BitVec.eq_of_toNat_eq
      simp only [BitVec.toNat_add,BitVec.toNat_ofNat]
      omega

omit [LinearOrder Name] in
private theorem align_skipBlocks (blocks : List (Name × Block)) (ptr : BitVec 64) :
    ∃ o ≤ room blocks + 63, align (blocks.foldl skipBlock ptr) = ptr + BitVec.ofNat 64 o := by
  obtain ⟨d,bound,moved⟩ := skipBlocks_spec blocks ptr
  obtain ⟨pad,small,aligned,-⟩ := align_spec (blocks.foldl skipBlock ptr)
  refine ⟨d + pad,by omega,?_⟩
  rw [aligned,moved,BitVec.add_assoc,← BitVec.ofNat_add]

namespace ContiguousDataLayout

variable {layout : ContiguousDataLayout Name} {base ptr ptr' : BitVec 64} {name name' : Name} {block block' : Block}

private theorem GetSizeOfLayout_eq (layout : ContiguousDataLayout Name) :
    GetSizeOfLayout layout = .ok (BitVec.ofNat 64 (room layout.blocks)) := by
  have fold (blocks : List (Name × Block)) (result : BitVec 64) (known : ∀ entry ∈ blocks, entry ∈ layout.blocks) :
      blocks.foldlM (fun result entry => do
        let byte_size ← layout.GetBlockSize entry.1
        return result + (byte_size + BLOCK_ALIGNMENT)) result =
        Except.ok (ε := LayoutException Name) (result + BitVec.ofNat 64 (room blocks)) := by
    induction blocks generalizing result with
    | nil => simp [room,pure,Except.pure]
    | cons entry rest ih =>
      have size : layout.GetBlockSize entry.1 = .ok entry.2.byte_size := by
        rw [BaseDataLayout.GetBlockSize,layout.GetBlock_of_mem (known entry mem_cons_self)]
        rfl
      simp only [foldlM_cons,size,bind,Except.bind,pure,Except.pure] at ih ⊢
      rw [ih _ fun entry member => known entry (mem_cons_of_mem _ member)]
      congr 1
      apply BitVec.eq_of_toNat_eq
      simp only [room_cons,BLOCK_ALIGNMENT,BitVec.toNat_add,BitVec.toNat_ofNat,BitVec.reduceToNat]
      omega
  have whole := fold layout.blocks 0 fun _ => id
  rw [BitVec.ofNat_eq_ofNat,BitVec.zero_add] at whole
  exact whole

private theorem GetBlockPtr_eq {before after : List (Name × Block)} (split : layout.blocks = before ++ (name,block) :: after) :
    GetBlockPtr layout base name = .ok (align (before.foldl skipBlock base)) := by
  have ordered := layout.ordered
  rw [split] at ordered
  have earlier : ∀ entry ∈ before, entry.1 ≠ name := by
    intro entry member
    exact ((pairwise_append.mp ordered).2.2 entry member (name,block) mem_cons_self).ne
  have has : BaseDataLayout.HasBlock layout name := by
    rw [BaseDataLayout.HasBlock,split]
    simp
  have skipped : (layout.blocks.takeWhile fun entry => entry.1 ≠ name) = before := by
    rw [split,takeWhile_append_of_pos (by simpa using earlier)]
    simp
  rw [GetBlockPtr,GetAlignedBlockPtr,if_pos has,skipped]

private theorem exists_ptr (base : BitVec 64) (member : (name,block) ∈ layout.blocks) : ∃ ptr, GetBlockPtr layout base name = .ok ptr := by
  obtain ⟨before,after,split⟩ := append_of_mem member
  exact ⟨_,GetBlockPtr_eq split⟩

private theorem block_inside (small : room layout.blocks < 2 ^ 64) (member : (name,block) ∈ layout.blocks)
    (found : GetBlockPtr layout base name = .ok ptr) :
    ptr.toNat % 64 = 0 ∧ ptr = base + BitVec.ofNat 64 (distance base ptr) ∧
      distance base ptr + block.byte_size.toNat < room layout.blocks := by
  obtain ⟨before,after,split⟩ := append_of_mem member
  obtain rfl := Except.ok.inj ((GetBlockPtr_eq split).symm.trans found)
  obtain ⟨o,bound,moved⟩ := align_skipBlocks before base
  obtain ⟨-,-,-,aligned⟩ := align_spec (before.foldl skipBlock base)
  have total : room layout.blocks = room before + (block.byte_size.toNat + 64 + room after) := by
    rw [split,room_append,room_cons]
  have offset : distance base (align (before.foldl skipBlock base)) = o := by
    rw [moved,distance_add (by omega)]
  rw [offset]
  exact ⟨aligned,moved,by omega⟩

private theorem blocks_ordered (small : room layout.blocks < 2 ^ 64) (member : (name,block) ∈ layout.blocks)
    (member' : (name',block') ∈ layout.blocks) (less : name < name') (found : GetBlockPtr layout base name = .ok ptr)
    (found' : GetBlockPtr layout base name' = .ok ptr') :
    distance base ptr + block.byte_size.toNat ≤ distance base ptr' := by
  obtain ⟨before,after,split⟩ := append_of_mem member
  have ordered := layout.ordered
  rw [split] at ordered
  have later : (name',block') ∈ after := by
    rw [split] at member'
    rcases mem_append.mp member' with former | rest
    · exact absurd ((pairwise_append.mp ordered).2.2 _ former _ mem_cons_self) (not_lt.mpr less.le)
    · exact (mem_cons.mp rest).resolve_left fun same => less.ne' (congrArg Prod.fst same)
  obtain ⟨middle,rest,splitAfter⟩ := append_of_mem later
  have splitWhole : layout.blocks = (before ++ (name,block) :: middle) ++ (name',block') :: rest := by
    rw [split,splitAfter,append_assoc,cons_append]
  obtain rfl := Except.ok.inj ((GetBlockPtr_eq split).symm.trans found)
  obtain rfl := Except.ok.inj ((GetBlockPtr_eq splitWhole).symm.trans found')
  obtain ⟨o,bound,moved⟩ := align_skipBlocks before base
  obtain ⟨o',bound',moved'⟩ := align_skipBlocks middle (skipBlock (before.foldl skipBlock base) (name,block))
  have total : room layout.blocks = room before + (block.byte_size.toNat + 64 + (room middle + (block'.byte_size.toNat + 64 + room rest))) := by
    rw [split,splitAfter,room_append,room_cons,room_append,room_cons]
  have next : align ((before ++ (name,block) :: middle).foldl skipBlock base) =
      base + BitVec.ofNat 64 (o + block.byte_size.toNat + o') := by
    rw [foldl_append,foldl_cons,moved',skipBlock,moved]
    apply BitVec.eq_of_toNat_eq
    simp only [BitVec.toNat_add,BitVec.toNat_ofNat]
    omega
  rw [moved,next,distance_add (by omega),distance_add (by omega)]
  omega

/-- The blocks lie at multiples of 64, in the order of their names and apart from each other, within the size of the layout
    behind the base address, in a space of addresses that wraps. -/
theorem blocks_never_overlap (layout : ContiguousDataLayout Name) (base : BitVec 64)
    (small : room layout.blocks < 2 ^ 64) :
    ∃ size, GetSizeOfLayout layout = .ok size ∧
      ∀ name block, (name,block) ∈ layout.blocks → ∃ ptr, GetBlockPtr layout base name = .ok ptr ∧ ptr.toNat % 64 = 0 ∧
        distance base ptr + block.byte_size.toNat ≤ size.toNat ∧
        (base.toNat + size.toNat ≤ 2 ^ 64 → ptr.toNat = base.toNat + distance base ptr) ∧
        ∀ name' block' ptr', (name',block') ∈ layout.blocks → GetBlockPtr layout base name' = .ok ptr' →
          (name < name' → distance base ptr + block.byte_size.toNat ≤ distance base ptr') ∧
          (name ≠ name' → ∀ i < block.byte_size.toNat, ∀ j < block'.byte_size.toNat,
            ptr + BitVec.ofNat 64 i ≠ ptr' + BitVec.ofNat 64 j) := by
  refine ⟨_,GetSizeOfLayout_eq layout,?_⟩
  intro name block member
  obtain ⟨ptr,found⟩ := exists_ptr base member
  obtain ⟨aligned,moved,inside⟩ := block_inside small member found
  have size : (BitVec.ofNat 64 (room layout.blocks)).toNat = room layout.blocks := by
    rw [BitVec.toNat_ofNat,Nat.mod_eq_of_lt small]
  rw [size]
  refine ⟨ptr,found,aligned,inside.le,?_,?_⟩
  · intro fits
    conv => lhs; rw [moved]
    exact toNat_add_ofNat (by omega)
  · intro name' block' ptr' member' found'
    obtain ⟨-,moved',inside'⟩ := block_inside small member' found'
    refine ⟨fun less => blocks_ordered small member member' less found found',?_⟩
    intro different i insideI j insideJ same
    have distances : distance base ptr + i = distance base ptr' + j := by
      have equal := congrArg (distance base) same
      conv at equal => lhs; rw [moved,BitVec.add_assoc,← BitVec.ofNat_add,distance_add (by omega)]
      conv at equal => rhs; rw [moved',BitVec.add_assoc,← BitVec.ofNat_add,distance_add (by omega)]
      exact equal
    cases lt_or_gt_of_ne different with
    | inl less =>
      have apart := blocks_ordered small member member' less found found'
      omega
    | inr greater =>
      have apart := blocks_ordered small member' member greater found' found
      omega

def twoBlocks : ContiguousDataLayout ℕ := ⟨[(0,⟨10,10,0⟩),(1,⟨1,1,0⟩)],by decide⟩

theorem blocks_never_overlap_two : room twoBlocks.blocks < 2 ^ 64 ∧
    ∃ size, GetSizeOfLayout twoBlocks = .ok size ∧ ∀ name block, (name,block) ∈ twoBlocks.blocks →
      ∃ ptr, GetBlockPtr twoBlocks 1023 name = .ok ptr ∧ ptr.toNat % 64 = 0 ∧
        distance 1023 ptr + block.byte_size.toNat ≤ size.toNat ∧ (name = 1 → ptr = 1088) := by
  refine ⟨by decide,?_⟩
  obtain ⟨size,whole,each⟩ := blocks_never_overlap twoBlocks 1023 (by decide)
  refine ⟨size,whole,fun name block member => ?_⟩
  obtain ⟨ptr,found,aligned,inside,-⟩ := each name block member
  refine ⟨ptr,found,aligned,inside,?_⟩
  rintro rfl
  exact Except.ok.inj (found.symm.trans (by decide))

end ContiguousDataLayout

end Osrm.DataLayout
