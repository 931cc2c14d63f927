import Osrm.StatePrograms

/-!
Memory that is handed out in blocks of one size. A program fails when it touches a cell of a block that is not allocated,
or one behind the end of a block. Which block is handed out next, and what is in it, is left open.
-/
namespace Osrm.BlockMemory
open List Function
open StatePrograms
variable {α : Type}

structure Memory (α : Type) where
  allocated : Finset ℕ
  cell : ℕ → ℕ → α

structure Allocator (α : Type) where
  address : Memory α → ℕ
  content : Memory α → ℕ → α
  fresh : ∀ memory, address memory ∉ memory.allocated

section Operations
variable (size : ℕ) (allocator : Allocator α)

def allocate : Program (Memory α) ℕ := fun memory =>
  let block := allocator.address memory
  some (block,⟨insert block memory.allocated,Function.update memory.cell block (allocator.content memory)⟩)
def release (block : ℕ) : Program (Memory α) Unit := fun memory =>
  if block ∈ memory.allocated then some ((),{ memory with allocated := memory.allocated.erase block }) else none
def read (block index : ℕ) : Program (Memory α) α := fun memory =>
  if block ∈ memory.allocated ∧ index < size then some (memory.cell block index,memory) else none
def write (block index : ℕ) (a : α) : Program (Memory α) Unit := fun memory =>
  if block ∈ memory.allocated ∧ index < size then
    some ((),{ memory with cell := Function.update memory.cell block (Function.update (memory.cell block) index a) })
  else none

def copyCells (source target : ℕ) : Program (Memory α) Unit :=
  (List.range size).forM fun index => do write size target index (← read size source index)

end Operations

/-- A program turns some blocks into others; those that it does not own stay as they are, and none is lost. -/
structure Changes (memory memory' : Memory α) (before after : Set ℕ) : Prop where
  others : ∀ block ∈ memory.allocated, block ∉ before →
    block ∈ memory'.allocated ∧ memory'.cell block = memory.cell block ∧ block ∉ after
  owned : ∀ block ∈ memory'.allocated, block ∈ after ∨ block ∈ memory.allocated ∧ block ∉ before

section Changes
variable {memory memory' memory'' : Memory α} {before between after rest : Set ℕ}

theorem Changes.refl (memory : Memory α) (before : Set ℕ) : Changes memory memory before before := by
  refine ⟨fun block inside not => ⟨inside,rfl,not⟩,fun block inside => ?_⟩
  by_cases own : block ∈ before
  · exact .inl own
  · exact .inr ⟨inside,own⟩

theorem Changes.trans (first : Changes memory memory' before between) (second : Changes memory' memory'' between after) :
    Changes memory memory'' before after := by
  constructor
  · intro block inside not
    obtain ⟨inside',same,not'⟩ := first.others block inside not
    obtain ⟨inside'',same',not''⟩ := second.others block inside' not'
    exact ⟨inside'',same'.trans same,not''⟩
  · intro block inside
    rcases second.owned block inside with own | ⟨inside',not⟩
    · exact .inl own
    · rcases first.owned block inside' with own | old
      · exact absurd own not
      · exact .inr old

theorem Changes.frame (changes : Changes memory memory' before after) (rest : Set ℕ) :
    Changes memory memory' (before ∪ rest) (after ∪ rest) := by
  constructor
  · intro block inside not
    obtain ⟨notBefore,notRest⟩ := not_or.mp not
    obtain ⟨inside',same,notAfter⟩ := changes.others block inside notBefore
    exact ⟨inside',same,not_or.mpr ⟨notAfter,notRest⟩⟩
  · intro block inside
    rcases changes.owned block inside with own | ⟨inside',not⟩
    · exact .inl (.inl own)
    · by_cases own : block ∈ rest
      · exact .inl (.inr own)
      · exact .inr ⟨inside',not_or.mpr ⟨not,own⟩⟩

theorem Changes.congr {before' after' : Set ℕ} (changes : Changes memory memory' before after) (first : before = before')
    (last : after = after') : Changes memory memory' before' after' := first ▸ last ▸ changes

end Changes

section Rules
variable {size : ℕ} {memory : Memory α} {block source index : ℕ}

theorem allocate_ends (allocator : Allocator α) (memory : Memory α) : Ends (allocate allocator) memory fun block memory' =>
    Changes memory memory' ∅ {block} ∧ block ∈ memory'.allocated ∧ block ∉ memory.allocated := by
  have fresh := allocator.fresh memory
  refine ⟨_,_,rfl,⟨?_,?_⟩,Finset.mem_insert_self ..,fresh⟩
  · intro block inside _
    have other : block ≠ allocator.address memory := fun same => fresh (same ▸ inside)
    exact ⟨Finset.mem_insert_of_mem inside,update_of_ne other ..,other⟩
  · intro block inside
    exact (Finset.mem_insert.mp inside).imp id fun old => ⟨old,Set.notMem_empty block⟩

private theorem release_ends (inside : block ∈ memory.allocated) :
    Ends (release block) memory fun _ memory' => Changes memory memory' {block} ∅ := by
  refine ⟨(),_,if_pos inside,?_,?_⟩
  · intro other old not
    exact ⟨Finset.mem_erase.mpr ⟨not,old⟩,rfl,Set.notMem_empty other⟩
  · intro other left
    obtain ⟨not,old⟩ := Finset.mem_erase.mp left
    exact .inr ⟨old,not⟩

theorem read_ends (inside : block ∈ memory.allocated) (within : index < size) :
    Ends (read size block index) memory fun a memory' => memory' = memory ∧ a = memory.cell block index :=
  ⟨_,_,if_pos ⟨inside,within⟩,rfl,rfl⟩

theorem write_ends (inside : block ∈ memory.allocated) (within : index < size) (a : α) :
    Ends (write size block index a) memory fun _ memory' => Changes memory memory' {block} {block} ∧
      memory'.allocated = memory.allocated ∧ memory'.cell = Function.update memory.cell block (Function.update (memory.cell block) index a) := by
  refine ⟨(),_,if_pos ⟨inside,within⟩,⟨?_,?_⟩,rfl,rfl⟩
  · intro other old not
    exact ⟨old,update_of_ne not ..,not⟩
  · intro other old
    by_cases same : other ∈ ({block} : Set ℕ)
    · exact .inl same
    · exact .inr ⟨old,same⟩

theorem copyCells_ends (from_ : source ∈ memory.allocated) (inside : block ∈ memory.allocated) (other : source ≠ block) :
    Ends (copyCells size source block) memory fun _ memory' => Changes memory memory' {block} {block} ∧
      memory'.allocated = memory.allocated ∧ ∀ index < size, memory'.cell block index = memory.cell source index := by
  refine (forM_ends (fun done memory' => Changes memory memory' {block} {block} ∧ memory'.allocated = memory.allocated ∧
    ∀ index ∈ done, memory'.cell block index = memory.cell source index) (List.range size) ?_ ?_).mono ?_
  · rintro done memory' index within ⟨changes,same,copied⟩
    have within := mem_range.mp within
    refine (read_ends (same ▸ from_) within).bind fun a unchanged ⟨here,value⟩ => ?_
    rw [here]
    refine (write_ends (same ▸ inside) within a).mono fun _ memory'' ⟨changes',same',cells⟩ => ?_
    refine ⟨changes.trans changes',same'.trans same,fun index' member => ?_⟩
    have kept : memory'.cell source = memory.cell source := (changes.others source from_ other).2.1
    rw [cells,update_self]
    by_cases last : index' = index
    · rw [last,update_self,value,kept]
    · rw [update_of_ne last]
      exact copied index' ((mem_append.mp member).resolve_right fun new => last (mem_singleton.mp new))
  · exact ⟨.refl ..,rfl,fun index none => absurd none not_mem_nil⟩
  · intro _ memory' ⟨changes,same,copied⟩
    exact ⟨changes,same,fun index within => copied index (mem_range.mpr within)⟩

theorem releaseAll_ends {blocks : List ℕ} (inside : ∀ block ∈ blocks, block ∈ memory.allocated) (nodup : blocks.Nodup) :
    Ends (blocks.forM release) memory fun _ memory' => Changes memory memory' {block | block ∈ blocks} ∅ := by
  induction blocks generalizing memory with
  | nil => exact ends_pure ((Changes.refl memory ∅).congr (by simp) rfl)
  | cons block blocks ih =>
    obtain ⟨different,nodup⟩ := nodup_cons.mp nodup
    refine (release_ends (inside block mem_cons_self)).bind fun _ memory' changes => ?_
    have inside' : ∀ other ∈ blocks, other ∈ memory'.allocated := fun other member =>
      (changes.others other (inside other (mem_cons_of_mem _ member)) fun same => different (same ▸ member)).1
    refine (ih inside' nodup).mono fun _ memory'' later => ?_
    have both := (changes.frame {other | other ∈ blocks}).trans (later.congr (Set.empty_union _).symm rfl)
    exact both.congr (by ext; simp) rfl

end Rules

end Osrm.BlockMemory
