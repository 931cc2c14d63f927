import Osrm.BlockMemory

/-!
`util::DeallocatingVector`. Its elements are in buckets of `ELEMENTS_PER_BLOCK` that are allocated one by one; a
program fails when it touches an element of no bucket or of a released one. There is always memory for one more.
-/
namespace Osrm.DeallocatingVectors
open List Option Function
open StatePrograms BlockMemory
variable {α : Type}

structure DeallocatingVector where
  current_size : ℕ
  bucket_list : List ℕ
  deriving DecidableEq, Repr

namespace DeallocatingVector

section Operations
variable (ELEMENTS_PER_BLOCK : ℕ) (allocator : Allocator α)

def empty : Program (Memory α) DeallocatingVector := do
  let bucket ← allocate allocator
  return ⟨0,[bucket]⟩

/-- `std::copy_n` from a bucket to a new one. -/
def copyBucket (bucket : ℕ) : Program (Memory α) ℕ := do
  let copied ← allocate allocator
  copyCells ELEMENTS_PER_BLOCK bucket copied
  return copied

def copy (other : DeallocatingVector) : Program (Memory α) DeallocatingVector := do
  let bucket_list ← other.bucket_list.mapM (copyBucket ELEMENTS_PER_BLOCK allocator)
  return ⟨other.current_size,bucket_list⟩
def clear (self : DeallocatingVector) : Program (Memory α) DeallocatingVector := do
  self.bucket_list.forM release
  return ⟨0,[]⟩

/-- `operator=`; the temporary is destroyed in the end. -/
def assign (self other : DeallocatingVector) : Program (Memory α) DeallocatingVector := do
  let copy_other ← copy ELEMENTS_PER_BLOCK allocator other
  let _ ← self.clear
  return copy_other

def capacity (self : DeallocatingVector) : ℕ := self.bucket_list.length * ELEMENTS_PER_BLOCK

/-- One more bucket, if all are full. -/
def makeRoom (self : DeallocatingVector) : Program (Memory α) DeallocatingVector := do
  if self.current_size = self.capacity ELEMENTS_PER_BLOCK then
    let bucket ← allocate allocator
    return { self with bucket_list := self.bucket_list ++ [bucket] }
  else
    return self

/-- The element is written to the last bucket. -/
def putBack (self : DeallocatingVector) (element : α) : Program (Memory α) DeallocatingVector := do
  let self ← self.makeRoom ELEMENTS_PER_BLOCK allocator
  let bucket ← self.bucket_list.getLast?
  write ELEMENTS_PER_BLOCK bucket (self.current_size % ELEMENTS_PER_BLOCK) element
  return { self with current_size := self.current_size + 1 }

def push_back (self : DeallocatingVector) (element : α) : Program (Memory α) DeallocatingVector :=
  self.putBack ELEMENTS_PER_BLOCK allocator element
def emplace_back {Args : Type} (construct : Args → α) (self : DeallocatingVector) (element : Args) :
    Program (Memory α) DeallocatingVector :=
  self.putBack ELEMENTS_PER_BLOCK allocator (construct element)
def fromList (elements : List α) : Program (Memory α) DeallocatingVector := do
  let self ← empty allocator
  elements.foldlM (emplace_back ELEMENTS_PER_BLOCK allocator id) self

/-- Growing takes less than `new_size` rounds. Where buckets are released there are at least so many of them. -/
def resize (self : DeallocatingVector) (new_size : ℕ) : Program (Memory α) DeallocatingVector := do
  if new_size ≥ self.current_size then
    let self ← whileM (fun self => decide (self.capacity ELEMENTS_PER_BLOCK < new_size))
      (fun self => do
        let bucket ← allocate allocator
        return { self with bucket_list := self.bucket_list ++ [bucket] }) new_size self
    return { self with current_size := new_size }
  else
    let number_of_necessary_buckets := 1 + new_size / ELEMENTS_PER_BLOCK
    (self.bucket_list.drop number_of_necessary_buckets).forM release
    return ⟨new_size,self.bucket_list.take number_of_necessary_buckets⟩

/-- The bucket in which an element is, and where it is there; nothing if there is no such bucket. -/
def place (self : DeallocatingVector) (index : ℕ) : Option (ℕ × ℕ) := do
  let bucket ← self.bucket_list[index / ELEMENTS_PER_BLOCK]?
  return (bucket,index % ELEMENTS_PER_BLOCK)
/-- Reading through `operator[]`, and through an iterator, which throws if there is no such bucket. -/
def get (self : DeallocatingVector) (index : ℕ) : Program (Memory α) α := do
  let (bucket,offset) ← self.place ELEMENTS_PER_BLOCK index
  read ELEMENTS_PER_BLOCK bucket offset
/-- Writing through `operator[]`. -/
def set (self : DeallocatingVector) (index : ℕ) (element : α) : Program (Memory α) Unit := do
  let (bucket,offset) ← self.place ELEMENTS_PER_BLOCK index
  write ELEMENTS_PER_BLOCK bucket offset element
def back (self : DeallocatingVector) : Program (Memory α) α := do
  if self.current_size = 0 then failure
  self.get ELEMENTS_PER_BLOCK (self.current_size - 1)
def append (self : DeallocatingVector) (elements : List α) : Program (Memory α) DeallocatingVector :=
  elements.foldlM (push_back ELEMENTS_PER_BLOCK allocator) self

/-- `append` with iterators of a vector, which may be the one that grows: they point to what it is then. -/
def appendRange (source : DeallocatingVector → DeallocatingVector) (first last : ℕ) (self : DeallocatingVector) :
    Program (Memory α) DeallocatingVector := do
  let (self,_) ← whileM (fun (_,position) => position != last)
    (fun (self,position) => do
      let element ← (source self).get ELEMENTS_PER_BLOCK position
      let self ← self.push_back ELEMENTS_PER_BLOCK allocator element
      return (self,position + 1)) (last - first) (self,first)
  return self

/-- What is visited from `begin()` to `end()`. -/
def visited (self : DeallocatingVector) : Program (Memory α) (List α) := do
  let (elements,_) ← whileM (fun (_,position) => position != self.current_size)
    (fun (elements,position) => do
      let element ← self.get ELEMENTS_PER_BLOCK position
      return (elements ++ [element],position + 1)) self.current_size (([] : List α),0)
  return elements

end Operations

def blocks (self : DeallocatingVector) : Set ℕ := {bucket | bucket ∈ self.bucket_list}

/-- The buckets are there, all different, and hold the elements; of an element that is left open nothing is said. -/
structure Filled (ELEMENTS_PER_BLOCK : ℕ) (memory : Memory α) (bucket_list : List ℕ) (l : List (Option α)) : Prop where
  nodup : bucket_list.Nodup
  allocated : ∀ bucket ∈ bucket_list, bucket ∈ memory.allocated
  element : ∀ (i : ℕ) (a : α), l[i]? = some (some a) → ∃ bucket, bucket_list[i / ELEMENTS_PER_BLOCK]? = some bucket ∧
    memory.cell bucket (i % ELEMENTS_PER_BLOCK) = a

/-- A vector is a list: it has room for all elements, and at most one bucket that it does not need yet. -/
structure Holds (ELEMENTS_PER_BLOCK : ℕ) (memory : Memory α) (vector : DeallocatingVector) (l : List (Option α)) : Prop where
  size : vector.current_size = l.length
  enough : l.length ≤ vector.bucket_list.length * ELEMENTS_PER_BLOCK
  tight : vector.bucket_list.length ≤ l.length / ELEMENTS_PER_BLOCK + 1
  filled : Filled ELEMENTS_PER_BLOCK memory vector.bucket_list l

section Filled
variable {ELEMENTS_PER_BLOCK : ℕ} {memory memory' : Memory α} {bucket_list : List ℕ} {l l' : List (Option α)} {before after : Set ℕ}

private theorem Filled.mono (filled : Filled ELEMENTS_PER_BLOCK memory bucket_list l)
    (known : ∀ (i : ℕ) (a : α), l'[i]? = some (some a) → l[i]? = some (some a)) : Filled ELEMENTS_PER_BLOCK memory bucket_list l' :=
  ⟨filled.nodup,filled.allocated,fun i a element => filled.element i a (known i a element)⟩

private theorem Filled.frame (filled : Filled ELEMENTS_PER_BLOCK memory bucket_list l) (changes : Changes memory memory' before after)
    (apart : ∀ bucket ∈ bucket_list, bucket ∉ before) : Filled ELEMENTS_PER_BLOCK memory' bucket_list l := by
  have kept (bucket : ℕ) (member : bucket ∈ bucket_list) := changes.others bucket (filled.allocated bucket member) (apart bucket member)
  refine ⟨filled.nodup,fun bucket member => (kept bucket member).1,fun i a known => ?_⟩
  obtain ⟨bucket,there,value⟩ := filled.element i a known
  exact ⟨bucket,there,by rw [(kept bucket (mem_of_getElem? there)).2.1]; exact value⟩

private theorem Filled.concat (filled : Filled ELEMENTS_PER_BLOCK memory bucket_list l) {bucket : ℕ} (fresh : bucket ∉ bucket_list)
    (inside : bucket ∈ memory.allocated) : Filled ELEMENTS_PER_BLOCK memory (bucket_list ++ [bucket]) l := by
  refine ⟨?_,?_,fun i a known => ?_⟩
  · exact nodup_append.mpr ⟨filled.nodup,nodup_singleton bucket,fun old member new last same =>
      fresh (mem_singleton.mp last ▸ same ▸ member)⟩
  · exact forall_mem_append.mpr ⟨filled.allocated,forall_mem_singleton.mpr inside⟩
  · obtain ⟨old,there,value⟩ := filled.element i a known
    exact ⟨old,by rw [getElem?_append_left (List.getElem?_eq_some_iff.mp there).1]; exact there,value⟩

private theorem Filled.written (filled : Filled ELEMENTS_PER_BLOCK memory bucket_list l) {k bucket : ℕ} {a : α}
    (there : bucket_list[k / ELEMENTS_PER_BLOCK]? = some bucket) (same : memory'.allocated = memory.allocated)
    (cells : memory'.cell = Function.update memory.cell bucket (Function.update (memory.cell bucket) (k % ELEMENTS_PER_BLOCK) a))
    (known : ∀ (i : ℕ) (b : α), l'[i]? = some (some b) → if i = k then b = a else l[i]? = some (some b)) :
    Filled ELEMENTS_PER_BLOCK memory' bucket_list l' := by
  refine ⟨filled.nodup,fun bucket member => same ▸ filled.allocated bucket member,fun i b element => ?_⟩
  have is := known i b element
  by_cases here : i = k
  · subst here
    rw [if_pos rfl] at is
    exact ⟨bucket,there,by rw [cells,update_self,update_self,is]⟩
  · rw [if_neg here] at is
    obtain ⟨bucket',there',value⟩ := filled.element i b is
    refine ⟨bucket',there',?_⟩
    rw [cells]
    by_cases together : bucket' = bucket
    · -- the same bucket, so that it is another place there
      subst together
      have quotient : i / ELEMENTS_PER_BLOCK = k / ELEMENTS_PER_BLOCK :=
        (getElem?_inj (List.getElem?_eq_some_iff.mp there').1 filled.nodup).mp (there'.trans there.symm)
      have offset : i % ELEMENTS_PER_BLOCK ≠ k % ELEMENTS_PER_BLOCK := by
        intro remainder
        apply here
        rw [← Nat.div_add_mod i ELEMENTS_PER_BLOCK,quotient,remainder,Nat.div_add_mod]
      rw [update_self,update_of_ne offset]
      exact value
    · rw [update_of_ne together]
      exact value

end Filled

/-! ### The operations -/

def Agrees (known : Option α) (a : α) : Prop := ∀ b, known = some b → a = b

section Operations
variable {ELEMENTS_PER_BLOCK : ℕ} {allocator : Allocator α} {memory memory' : Memory α} {self : DeallocatingVector} {l l' : List (Option α)}
  {before after : Set ℕ}

theorem Holds.frame (holds : Holds ELEMENTS_PER_BLOCK memory self l) (changes : Changes memory memory' before after)
    (apart : ∀ bucket ∈ self.bucket_list, bucket ∉ before) : Holds ELEMENTS_PER_BLOCK memory' self l :=
  ⟨holds.size,holds.enough,holds.tight,holds.filled.frame changes apart⟩

private theorem blocks_concat (self : DeallocatingVector) (bucket : ℕ) :
    blocks { self with bucket_list := self.bucket_list ++ [bucket] } = {bucket} ∪ self.blocks := by
  ext other
  simp [blocks,or_comm]

private theorem allocate_bucket (filled : Filled ELEMENTS_PER_BLOCK memory self.bucket_list l) :
    Ends (allocate allocator) memory fun bucket memory' =>
      Filled ELEMENTS_PER_BLOCK memory' (self.bucket_list ++ [bucket]) l ∧
        Changes memory memory' self.blocks (blocks { self with bucket_list := self.bucket_list ++ [bucket] }) := by
  refine (allocate_ends allocator memory).mono fun bucket memory' ⟨changes,inside,fresh⟩ => ⟨?_,?_⟩
  · have kept := filled.frame changes fun bucket _ => Set.notMem_empty bucket
    exact kept.concat (fun old => fresh (filled.allocated bucket old)) inside
  · exact (changes.frame self.blocks).congr (Set.empty_union _) (blocks_concat self bucket).symm

theorem empty_ends (memory : Memory α) : Ends (empty allocator) memory fun self memory' =>
    Holds ELEMENTS_PER_BLOCK memory' self [] ∧ Changes memory memory' ∅ self.blocks := by
  have nothing : Filled ELEMENTS_PER_BLOCK memory [] ([] : List (Option α)) := ⟨.nil,by simp,by simp⟩
  refine (@allocate_bucket α ELEMENTS_PER_BLOCK allocator memory ⟨0,[]⟩ [] nothing).bind fun bucket memory' ⟨filled,changes⟩ => ?_
  exact ends_pure ⟨⟨rfl,Nat.zero_le _,by simp,filled⟩,changes.congr (by simp [blocks]) rfl⟩

theorem clear_ends (holds : Holds ELEMENTS_PER_BLOCK memory self l) : Ends self.clear memory fun self' memory' =>
    Holds ELEMENTS_PER_BLOCK memory' self' [] ∧ Changes memory memory' self.blocks self'.blocks ∧ self'.blocks = ∅ := by
  refine (releaseAll_ends holds.filled.allocated holds.filled.nodup).bind fun _ memory' changes => ends_pure ?_
  have none : blocks ⟨0,[]⟩ = ∅ := by simp [blocks]
  exact ⟨⟨rfl,Nat.zero_le _,Nat.zero_le _,⟨.nil,by simp,by simp⟩⟩,changes.congr rfl none.symm,none⟩

theorem makeRoom_ends (positive : 1 ≤ ELEMENTS_PER_BLOCK) (holds : Holds ELEMENTS_PER_BLOCK memory self l) :
    Ends (self.makeRoom ELEMENTS_PER_BLOCK allocator) memory fun self' memory' =>
      Holds ELEMENTS_PER_BLOCK memory' self' l ∧ l.length < self'.capacity ELEMENTS_PER_BLOCK ∧
        Changes memory memory' self.blocks self'.blocks := by
  have enough := holds.enough
  have size := holds.size
  rw [makeRoom,capacity]
  by_cases full : self.current_size = self.bucket_list.length * ELEMENTS_PER_BLOCK
  · rw [if_pos full]
    rw [size] at full
    refine (allocate_bucket holds.filled).bind fun bucket memory' ⟨filled,changes⟩ => ends_pure ?_
    have buckets : self.bucket_list.length = l.length / ELEMENTS_PER_BLOCK := by rw [full,Nat.mul_div_cancel _ positive]
    have length : (self.bucket_list ++ [bucket]).length = self.bucket_list.length + 1 := by simp
    refine ⟨⟨holds.size,?_,?_,filled⟩,?_,changes⟩
    · rw [length,Nat.succ_mul]
      omega
    · rw [length,buckets]
    · rw [capacity,length,Nat.succ_mul]
      omega
  · rw [if_neg full]
    exact ends_pure ⟨holds,by rw [capacity]; omega,.refl ..⟩

theorem Holds.last_bucket (holds : Holds ELEMENTS_PER_BLOCK memory self l) (room : l.length < self.capacity ELEMENTS_PER_BLOCK) :
    ∃ bucket ∈ memory.allocated, self.bucket_list.getLast? = some bucket ∧
      self.bucket_list[l.length / ELEMENTS_PER_BLOCK]? = some bucket := by
  have tight := holds.tight
  have below : l.length / ELEMENTS_PER_BLOCK < self.bucket_list.length := Nat.div_lt_of_lt_mul (by rw [Nat.mul_comm]; exact room)
  have last : self.bucket_list.length - 1 = l.length / ELEMENTS_PER_BLOCK := Nat.sub_eq_of_eq_add (Nat.le_antisymm tight below)
  refine ⟨self.bucket_list[l.length / ELEMENTS_PER_BLOCK],holds.filled.allocated _ (getElem_mem _),?_,getElem?_eq_getElem below⟩
  rw [getLast?_eq_getElem?,last]
  exact getElem?_eq_getElem below

theorem putBack_ends (positive : 1 ≤ ELEMENTS_PER_BLOCK) (holds : Holds ELEMENTS_PER_BLOCK memory self l) (a : α) :
    Ends (self.putBack ELEMENTS_PER_BLOCK allocator a) memory fun self' memory' =>
      Holds ELEMENTS_PER_BLOCK memory' self' (l ++ [some a]) ∧ Changes memory memory' self.blocks self'.blocks := by
  refine (makeRoom_ends positive holds).bind fun self₁ memory₁ ⟨holds₁,room,changes₁⟩ => ?_
  obtain ⟨bucket,inside,last,there⟩ := holds₁.last_bucket room
  refine ends_found last ?_
  rw [holds₁.size]
  refine (write_ends inside (Nat.mod_lt _ positive) a).bind fun _ memory₂ ⟨changes₂,same,cells⟩ => ends_pure ?_
  have length : (l ++ [some a]).length = l.length + 1 := by simp
  refine ⟨⟨length.symm,?_,?_,?_⟩,changes₁.trans ?_⟩
  · rw [length]
    exact room
  · rw [length]
    exact holds₁.tight.trans (Nat.succ_le_succ (Nat.div_le_div_right (Nat.le_succ _)))
  · refine holds₁.filled.written there same cells fun i b known => ?_
    by_cases here : i = l.length
    · subst here
      rw [getElem?_concat_length] at known
      rw [if_pos rfl]
      exact (some.inj (some.inj known)).symm
    · rw [if_neg here]
      have below : i < l.length := by
        have := (List.getElem?_eq_some_iff.mp known).1
        omega
      rwa [getElem?_append_left below] at known
  · have own : bucket ∈ self₁.blocks := mem_of_getElem? there
    have none : {bucket} ∪ self₁.blocks = self₁.blocks := by simpa using own
    exact (changes₂.frame self₁.blocks).congr none none

private theorem putAll_ends {Args : Type} (construct : Args → α) (positive : 1 ≤ ELEMENTS_PER_BLOCK)
    (holds : Holds ELEMENTS_PER_BLOCK memory self l) (elements : List Args) :
    Ends (elements.foldlM (emplace_back ELEMENTS_PER_BLOCK allocator construct) self) memory fun self' memory' =>
      Holds ELEMENTS_PER_BLOCK memory' self' (l ++ elements.map fun element => some (construct element)) ∧
        Changes memory memory' self.blocks self'.blocks := by
  refine foldlM_ends (fun done self' memory' =>
    Holds ELEMENTS_PER_BLOCK memory' self' (l ++ done.map fun element => some (construct element)) ∧
      Changes memory memory' self.blocks self'.blocks) elements ?_ ⟨by simpa using holds,.refl ..⟩
  rintro done self' memory' element - ⟨holds',changes⟩
  refine (putBack_ends positive holds' (construct element)).mono fun self'' memory'' ⟨holds'',changes'⟩ => ?_
  exact ⟨by simpa using holds'',changes.trans changes'⟩

theorem append_ends (positive : 1 ≤ ELEMENTS_PER_BLOCK) (holds : Holds ELEMENTS_PER_BLOCK memory self l) (elements : List α) :
    Ends (self.append ELEMENTS_PER_BLOCK allocator elements) memory fun self' memory' =>
      Holds ELEMENTS_PER_BLOCK memory' self' (l ++ elements.map some) ∧ Changes memory memory' self.blocks self'.blocks :=
  putAll_ends id positive holds elements

theorem fromList_ends (positive : 1 ≤ ELEMENTS_PER_BLOCK) (memory : Memory α) (elements : List α) :
    Ends (fromList ELEMENTS_PER_BLOCK allocator elements) memory fun self memory' =>
      Holds ELEMENTS_PER_BLOCK memory' self (elements.map some) ∧ Changes memory memory' ∅ self.blocks := by
  refine (@empty_ends α ELEMENTS_PER_BLOCK allocator memory).bind fun self memory' ⟨holds,changes⟩ => ?_
  exact (putAll_ends id positive holds elements).mono fun self' memory'' ⟨holds',changes'⟩ => ⟨holds',changes.trans changes'⟩

def resized (l : List (Option α)) (new_size : ℕ) : List (Option α) := l.take new_size ++ replicate (new_size - l.length) none

private theorem length_resized (l : List (Option α)) (new_size : ℕ) : (resized l new_size).length = new_size := by
  rw [resized,length_append,length_take,length_replicate]
  omega

private theorem known_resized {new_size i : ℕ} {a : α} (known : (resized l new_size)[i]? = some (some a)) :
    l[i]? = some (some a) ∧ i < new_size := by
  have below : i < new_size := by
    have := (List.getElem?_eq_some_iff.mp known).1
    rwa [length_resized] at this
  rw [resized,getElem?_append] at known
  split at known
  · rw [getElem?_take_of_lt below] at known
    exact ⟨known,below⟩
  · rw [getElem?_replicate] at known
    split at known <;> simp at known

private theorem grow_ends (positive : 1 ≤ ELEMENTS_PER_BLOCK) (holds : Holds ELEMENTS_PER_BLOCK memory self l) {new_size : ℕ}
    (grows : l.length ≤ new_size) :
    Ends (whileM (fun self => decide (self.capacity ELEMENTS_PER_BLOCK < new_size))
      (fun self => do
        let bucket ← allocate allocator
        return { self with bucket_list := self.bucket_list ++ [bucket] }) new_size self) memory fun self' memory' =>
      new_size ≤ self'.capacity ELEMENTS_PER_BLOCK ∧ self'.bucket_list.length ≤ new_size / ELEMENTS_PER_BLOCK + 1 ∧
        Filled ELEMENTS_PER_BLOCK memory' self'.bucket_list l ∧ Changes memory memory' self.blocks self'.blocks := by
  refine (whileM_ends (fun self' memory' => self'.bucket_list.length ≤ new_size / ELEMENTS_PER_BLOCK + 1 ∧
    Filled ELEMENTS_PER_BLOCK memory' self'.bucket_list l ∧ Changes memory memory' self.blocks self'.blocks)
    (fun self' => new_size - self'.capacity ELEMENTS_PER_BLOCK) ?_ (Nat.sub_le ..) ⟨?_,holds.filled,.refl ..⟩).mono ?_
  · rintro self' memory' ⟨tight,filled,changes⟩ more
    have room : self'.capacity ELEMENTS_PER_BLOCK < new_size := by simpa using more
    refine (allocate_bucket filled).bind fun bucket memory'' ⟨filled',changes'⟩ => ends_pure ?_
    have length : (self'.bucket_list ++ [bucket]).length = self'.bucket_list.length + 1 := by simp
    refine ⟨⟨?_,filled',changes.trans changes'⟩,?_⟩
    · rw [length]
      exact Nat.succ_le_succ ((Nat.le_div_iff_mul_le positive).mpr room.le)
    · rw [capacity] at room
      simp only [capacity,length,Nat.succ_mul]
      omega
  · exact holds.tight.trans (Nat.succ_le_succ (Nat.div_le_div_right grows))
  · rintro self' memory' ⟨⟨tight,filled,changes⟩,stopped⟩
    exact ⟨by simpa using stopped,tight,filled,changes⟩

private theorem Holds.necessary (positive : 1 ≤ ELEMENTS_PER_BLOCK) (holds : Holds ELEMENTS_PER_BLOCK memory self l) {new_size : ℕ}
    (shrinks : new_size < l.length) : 1 + new_size / ELEMENTS_PER_BLOCK ≤ self.bucket_list.length := by
  have below : new_size / ELEMENTS_PER_BLOCK < self.bucket_list.length :=
    (Nat.div_lt_iff_lt_mul positive).mpr (shrinks.trans_le holds.enough)
  omega

theorem resize_ends (positive : 1 ≤ ELEMENTS_PER_BLOCK) (holds : Holds ELEMENTS_PER_BLOCK memory self l) (new_size : ℕ) :
    Ends (self.resize ELEMENTS_PER_BLOCK allocator new_size) memory fun self' memory' =>
      Holds ELEMENTS_PER_BLOCK memory' self' (resized l new_size) ∧ Changes memory memory' self.blocks self'.blocks := by
  have size := holds.size
  have length := length_resized l new_size
  rw [resize]
  by_cases grows : new_size ≥ self.current_size
  · rw [if_pos grows]
    rw [size] at grows
    refine (grow_ends positive holds grows).bind fun self' memory' ⟨enough,tight,filled,changes⟩ => ends_pure ?_
    exact ⟨⟨length.symm,by rw [length]; exact enough,by rw [length]; exact tight,filled.mono fun i a known => (known_resized known).1⟩,changes⟩
  · rw [if_neg grows]
    rw [size] at grows
    have necessary := holds.necessary positive (Nat.lt_of_not_le grows)
    obtain ⟨nodup,allocated,element⟩ := holds.filled
    rw [← take_append_drop (1 + new_size / ELEMENTS_PER_BLOCK) self.bucket_list] at nodup
    obtain ⟨nodupTake,nodupDrop,apart⟩ := nodup_append.mp nodup
    refine (releaseAll_ends (fun bucket member => allocated bucket (mem_of_mem_drop member)) nodupDrop).bind
      fun _ memory' changes => ends_pure ⟨⟨length.symm,?_,?_,?_⟩,?_⟩
    · rw [length,length_take,Nat.min_eq_left necessary]
      have := Nat.lt_mul_div_succ new_size positive
      rw [Nat.mul_comm,Nat.add_comm] at this
      exact this.le
    · rw [length,length_take,Nat.min_eq_left necessary,Nat.add_comm]
    · have fewer : Filled ELEMENTS_PER_BLOCK memory (self.bucket_list.take (1 + new_size / ELEMENTS_PER_BLOCK)) (resized l new_size) := by
        refine ⟨nodupTake,fun bucket member => allocated bucket (mem_of_mem_take member),fun i a known => ?_⟩
        obtain ⟨before,below⟩ := known_resized known
        have inside : i / ELEMENTS_PER_BLOCK < 1 + new_size / ELEMENTS_PER_BLOCK := by
          rw [Nat.add_comm]
          exact Nat.lt_succ_of_le (Nat.div_le_div_right below.le)
        rw [getElem?_take_of_lt inside]
        exact element i a before
      exact fewer.frame changes fun bucket kept released => apart bucket kept bucket released rfl
    · have framed := changes.frame {bucket | bucket ∈ self.bucket_list.take (1 + new_size / ELEMENTS_PER_BLOCK)}
      refine framed.congr ?_ (Set.empty_union _)
      ext bucket
      show bucket ∈ self.bucket_list.drop _ ∨ bucket ∈ self.bucket_list.take _ ↔ bucket ∈ self.bucket_list
      rw [or_comm,← mem_append,take_append_drop]

theorem Holds.place_eq (positive : 1 ≤ ELEMENTS_PER_BLOCK) (holds : Holds ELEMENTS_PER_BLOCK memory self l) {index : ℕ} (inside : index < l.length) :
    ∃ bucket ∈ memory.allocated, self.bucket_list[index / ELEMENTS_PER_BLOCK]? = some bucket ∧
      self.place ELEMENTS_PER_BLOCK index = some (bucket,index % ELEMENTS_PER_BLOCK) := by
  have below : index / ELEMENTS_PER_BLOCK < self.bucket_list.length :=
    (Nat.div_lt_iff_lt_mul positive).mpr (inside.trans_le holds.enough)
  have there := getElem?_eq_getElem below
  exact ⟨_,holds.filled.allocated _ (getElem_mem below),there,by rw [place,there]; rfl⟩

theorem Holds.place_injective (holds : Holds ELEMENTS_PER_BLOCK memory self l) {i j : ℕ} {spot : ℕ × ℕ}
    (first : self.place ELEMENTS_PER_BLOCK i = some spot) (second : self.place ELEMENTS_PER_BLOCK j = some spot) : i = j := by
  obtain ⟨bucket,there,found⟩ := bind_eq_some_iff.mp first
  obtain ⟨bucket',there',same⟩ := bind_eq_some_iff.mp second
  obtain rfl := some.inj found
  obtain ⟨sameBucket,sameOffset⟩ := Prod.mk.inj (some.inj same)
  subst sameBucket
  have quotient : i / ELEMENTS_PER_BLOCK = j / ELEMENTS_PER_BLOCK :=
    (getElem?_inj (List.getElem?_eq_some_iff.mp there).1 holds.filled.nodup).mp (there.trans there'.symm)
  rw [← Nat.div_add_mod i ELEMENTS_PER_BLOCK,quotient,← sameOffset,Nat.div_add_mod]

theorem get_ends (positive : 1 ≤ ELEMENTS_PER_BLOCK) (holds : Holds ELEMENTS_PER_BLOCK memory self l) {index : ℕ} {known : Option α}
    (there : l[index]? = some known) :
    Ends (self.get ELEMENTS_PER_BLOCK index) memory fun a memory' => memory' = memory ∧ Agrees known a := by
  obtain ⟨bucket,allocated,at_bucket,place⟩ := holds.place_eq positive (List.getElem?_eq_some_iff.mp there).1
  refine ends_found place ?_
  refine (read_ends allocated (Nat.mod_lt _ positive)).mono fun a memory' ⟨same,value⟩ => ⟨same,?_⟩
  rintro b rfl
  obtain ⟨bucket',at_bucket',cell⟩ := holds.filled.element index b there
  obtain rfl : bucket = bucket' := some.inj (at_bucket.symm.trans at_bucket')
  exact value.trans cell

theorem set_ends (positive : 1 ≤ ELEMENTS_PER_BLOCK) (holds : Holds ELEMENTS_PER_BLOCK memory self l) {index : ℕ} (inside : index < l.length)
    (a : α) : Ends (self.set ELEMENTS_PER_BLOCK index a) memory fun _ memory' =>
      Holds ELEMENTS_PER_BLOCK memory' self (l.set index (some a)) ∧ Changes memory memory' self.blocks self.blocks := by
  obtain ⟨bucket,allocated,at_bucket,place⟩ := holds.place_eq positive inside
  refine ends_found place ?_
  refine (write_ends allocated (Nat.mod_lt _ positive) a).mono fun _ memory' ⟨changes,same,cells⟩ => ?_
  have length : (l.set index (some a)).length = l.length := length_set
  refine ⟨⟨by rw [length]; exact holds.size,by rw [length]; exact holds.enough,by rw [length]; exact holds.tight,?_⟩,?_⟩
  · refine holds.filled.written at_bucket same cells fun i b known => ?_
    by_cases here : i = index
    · subst here
      rw [getElem?_set_self inside] at known
      rw [if_pos rfl]
      exact (some.inj (some.inj known)).symm
    · rw [getElem?_set_ne (Ne.symm here)] at known
      rwa [if_neg here]
  · have own : bucket ∈ self.blocks := mem_of_getElem? at_bucket
    have none : {bucket} ∪ self.blocks = self.blocks := by simpa using own
    exact (changes.frame self.blocks).congr none none

theorem back_ends (positive : 1 ≤ ELEMENTS_PER_BLOCK) (holds : Holds ELEMENTS_PER_BLOCK memory self l) {known : Option α}
    (last : l.getLast? = some known) :
    Ends (self.back ELEMENTS_PER_BLOCK) memory fun a memory' => memory' = memory ∧ Agrees known a := by
  have some_element : self.current_size ≠ 0 := by
    rw [holds.size]
    rintro none
    rw [length_eq_zero_iff.mp none] at last
    cases last
  rw [back,if_neg some_element,holds.size]
  rw [getLast?_eq_getElem?] at last
  exact get_ends positive holds last

theorem visited_ends (positive : 1 ≤ ELEMENTS_PER_BLOCK) (holds : Holds ELEMENTS_PER_BLOCK memory self l) :
    Ends (self.visited ELEMENTS_PER_BLOCK) memory fun elements memory' => memory' = memory ∧ List.Forall₂ Agrees l elements := by
  have size := holds.size
  refine (whileM_ends (fun (s : List α × ℕ) memory' => memory' = memory ∧ s.2 ≤ self.current_size ∧ List.Forall₂ Agrees (l.take s.2) s.1)
    (fun s => self.current_size - s.2) ?_ (Nat.sub_le ..) ⟨rfl,Nat.zero_le _,.nil⟩).bind ?_
  · rintro ⟨elements,position⟩ memory' ⟨rfl,within,agree⟩ more
    have inside : position < self.current_size := by
      have := bne_iff_ne.mp more
      dsimp only at within this
      omega
    have there : l[position]? = some l[position] := getElem?_eq_getElem (size ▸ inside)
    refine (get_ends positive holds there).bind fun a memory'' ⟨same,here⟩ => ends_pure ⟨⟨same,inside,?_⟩,?_⟩
    · rw [take_add_one,there]
      exact rel_append agree (.cons here .nil)
    · dsimp only
      omega
  · rintro ⟨elements,position⟩ memory' ⟨⟨rfl,within,agree⟩,stopped⟩
    have whole : position = self.current_size := by simpa using stopped
    refine ends_pure ⟨rfl,?_⟩
    rwa [whole,size,take_length] at agree

/-! ### Copies -/

private theorem copyBucket_ends {bucket : ℕ} (inside : bucket ∈ memory.allocated) :
    Ends (copyBucket ELEMENTS_PER_BLOCK allocator bucket) memory fun copied memory' => Changes memory memory' ∅ {copied} ∧
      copied ∈ memory'.allocated ∧ copied ∉ memory.allocated ∧
        ∀ offset < ELEMENTS_PER_BLOCK, memory'.cell copied offset = memory.cell bucket offset := by
  refine (allocate_ends allocator memory).bind fun copied memory₁ ⟨changes₁,there,fresh⟩ => ?_
  obtain ⟨inside₁,same₁,other⟩ := changes₁.others bucket inside (Set.notMem_empty bucket)
  refine (copyCells_ends inside₁ there other).bind fun _ memory₂ ⟨changes₂,same₂,cells⟩ => ends_pure ?_
  exact ⟨changes₁.trans changes₂,same₂ ▸ there,fresh,fun offset within => by rw [cells offset within,same₁]⟩

structure Copied (ELEMENTS_PER_BLOCK : ℕ) (memory memory' : Memory α) (buckets copies : List ℕ) : Prop where
  changes : Changes memory memory' ∅ {copy | copy ∈ copies}
  nodup : copies.Nodup
  allocated : ∀ copy ∈ copies, copy ∈ memory'.allocated
  cells : List.Forall₂ (fun copy bucket => ∀ offset < ELEMENTS_PER_BLOCK, memory'.cell copy offset = memory.cell bucket offset) copies buckets

private theorem Copied.concat {buckets copies : List ℕ} {bucket copy : ℕ} {memory'' : Memory α}
    (copied : Copied ELEMENTS_PER_BLOCK memory memory' buckets copies) (inside : bucket ∈ memory.allocated)
    (changes : Changes memory' memory'' ∅ {copy}) (there : copy ∈ memory''.allocated) (fresh : copy ∉ memory'.allocated)
    (cells : ∀ offset < ELEMENTS_PER_BLOCK, memory''.cell copy offset = memory'.cell bucket offset) :
    Copied ELEMENTS_PER_BLOCK memory memory'' (buckets ++ [bucket]) (copies ++ [copy]) := by
  have kept (block : ℕ) (old : block ∈ memory'.allocated) := changes.others block old (Set.notMem_empty block)
  refine ⟨?_,?_,?_,?_⟩
  · have later := (changes.frame {copy | copy ∈ copies}).congr (Set.empty_union _) rfl
    refine (copied.changes.trans later).congr rfl ?_
    ext block
    simp [or_comm]
  · exact nodup_append.mpr ⟨copied.nodup,nodup_singleton copy,fun old member new last same =>
      fresh (mem_singleton.mp last ▸ same ▸ copied.allocated old member)⟩
  · refine forall_mem_append.mpr ⟨fun old member => (kept old (copied.allocated old member)).1,forall_mem_singleton.mpr there⟩
  · refine rel_append ?_ (.cons (fun offset within => ?_) .nil)
    · refine ((forall₂_and_left _ _).mpr ⟨copied.allocated,copied.cells⟩).imp fun old bucket ⟨there,same⟩ offset within => ?_
      rw [(kept old there).2.1]
      exact same offset within
    · rw [cells offset within,(copied.changes.others bucket inside (Set.notMem_empty bucket)).2.1]

theorem copy_ends (positive : 1 ≤ ELEMENTS_PER_BLOCK) (holds : Holds ELEMENTS_PER_BLOCK memory self l) :
    Ends (copy ELEMENTS_PER_BLOCK allocator self) memory fun self' memory' =>
      Holds ELEMENTS_PER_BLOCK memory' self' l ∧ Changes memory memory' ∅ self'.blocks := by
  refine (mapM_ends (fun done copies memory' => Copied ELEMENTS_PER_BLOCK memory memory' done copies) self.bucket_list ?_ ?_).bind ?_
  · intro done copies memory' bucket member copied
    have inside := holds.filled.allocated bucket member
    have inside' := (copied.changes.others bucket inside (Set.notMem_empty bucket)).1
    exact (copyBucket_ends inside').mono fun copy memory'' ⟨changes,there,fresh,cells⟩ => copied.concat inside changes there fresh cells
  · exact ⟨(Changes.refl memory ∅).congr rfl (by simp),.nil,by simp,.nil⟩
  · intro copies memory' copied
    have length := copied.cells.length_eq
    refine ends_pure ⟨⟨holds.size,?_,?_,copied.nodup,copied.allocated,fun i a known => ?_⟩,copied.changes⟩
    · rw [length]
      exact holds.enough
    · rw [length]
      exact holds.tight
    · obtain ⟨bucket,there,value⟩ := holds.filled.element i a known
      obtain ⟨inside,rfl⟩ := List.getElem?_eq_some_iff.mp there
      refine ⟨copies[i / ELEMENTS_PER_BLOCK],getElem?_eq_getElem (length.symm ▸ inside),?_⟩
      rw [← value]
      exact copied.cells.get (length.symm ▸ inside) inside (i % ELEMENTS_PER_BLOCK) (Nat.mod_lt _ positive)

theorem assign_ends (positive : 1 ≤ ELEMENTS_PER_BLOCK) {other : DeallocatingVector} (holds : Holds ELEMENTS_PER_BLOCK memory self l)
    (source : Holds ELEMENTS_PER_BLOCK memory other l') :
    Ends (self.assign ELEMENTS_PER_BLOCK allocator other) memory fun self' memory' =>
      Holds ELEMENTS_PER_BLOCK memory' self' l' ∧ Changes memory memory' self.blocks self'.blocks := by
  refine (copy_ends positive source).bind fun copied memory₁ ⟨holds₁,changes₁⟩ => ?_
  have old := holds.frame changes₁ fun bucket _ => Set.notMem_empty bucket
  refine (clear_ends old).bind fun _ memory₂ ⟨_,changes₂,released⟩ => ends_pure ⟨?_,?_⟩
  · refine holds₁.frame changes₂ fun bucket member own => ?_
    exact (changes₁.others bucket (holds.filled.allocated bucket own) (Set.notMem_empty bucket)).2.2 member
  · -- the copy is new while the old buckets are still there
    have first := (changes₁.frame self.blocks).congr (Set.empty_union _) (Set.union_comm ..)
    exact first.trans ((changes₂.frame copied.blocks).congr rfl (by rw [released,Set.empty_union]))

theorem appendRange_ends (positive : 1 ≤ ELEMENTS_PER_BLOCK) (holds : Holds ELEMENTS_PER_BLOCK memory self l)
    {source : DeallocatingVector → DeallocatingVector} {first last : ℕ} (order : first ≤ last) (inside : last ≤ l'.length)
    (reads : ∀ self' memory' more, Holds ELEMENTS_PER_BLOCK memory' self' (l ++ more) → Changes memory memory' self.blocks self'.blocks →
      ∀ position < last, ∀ known, l'[position]? = some known →
        Ends ((source self').get ELEMENTS_PER_BLOCK position) memory' fun a memory'' => memory'' = memory' ∧ Agrees known a) :
    Ends (self.appendRange ELEMENTS_PER_BLOCK allocator source first last) memory fun self' memory' =>
      Holds ELEMENTS_PER_BLOCK memory' self' (l ++ (l'.drop first).take (last - first)) ∧ Changes memory memory' self.blocks self'.blocks := by
  refine (whileM_ends (fun (s : DeallocatingVector × ℕ) memory' => first ≤ s.2 ∧ s.2 ≤ last ∧
    Holds ELEMENTS_PER_BLOCK memory' s.1 (l ++ (l'.drop first).take (s.2 - first)) ∧ Changes memory memory' self.blocks s.1.blocks)
    (fun s => last - s.2) ?_ ?_ ?_).bind ?_
  · rintro ⟨self',position⟩ memory' ⟨low,high,holds',changes⟩ more
    have before : position < last := by
      have := bne_iff_ne.mp more
      dsimp only at high this
      omega
    dsimp only at low holds' changes ⊢
    have there : l'[position]? = some l'[position] := getElem?_eq_getElem (before.trans_le inside)
    refine (reads self' memory' _ holds' changes position before _ there).bind fun a memory'' ⟨same,here⟩ => ?_
    subst same
    refine (putBack_ends positive holds' a).bind fun self'' memory'' ⟨holds'',changes'⟩ => ends_pure ?_
    have next : (l'.drop first).take (position + 1 - first) = (l'.drop first).take (position - first) ++ [l'[position]] := by
      rw [Nat.sub_add_comm low,take_add_one,getElem?_drop,Nat.add_sub_cancel' low,there]
      rfl
    refine ⟨⟨low.trans (Nat.le_succ _),before,?_,changes.trans changes'⟩,by dsimp only; omega⟩
    rw [next,← append_assoc]
    have length : (l ++ (l'.drop first).take (position - first) ++ [some a]).length =
        (l ++ (l'.drop first).take (position - first) ++ [l'[position]]).length := by simp
    refine ⟨length ▸ holds''.size,length ▸ holds''.enough,length ▸ holds''.tight,holds''.filled.mono fun i b known => ?_⟩
    rw [getElem?_append] at known ⊢
    split at known
    · rename_i old
      rwa [if_pos old]
    · rename_i new
      rw [if_neg new]
      cases index : i - (l ++ (l'.drop first).take (position - first)).length with
      | zero =>
        rw [index] at known
        rw [here b (some.inj known)]
        rfl
      | succ k =>
        rw [index] at known
        cases known
  · exact le_rfl
  · exact ⟨le_rfl,order,by simpa using holds,.refl ..⟩
  · rintro ⟨self',position⟩ memory' ⟨⟨low,high,holds',changes⟩,stopped⟩
    obtain rfl : position = last := by simpa using stopped
    exact ends_pure ⟨holds',changes⟩

end Operations

end DeallocatingVector

end Osrm.DeallocatingVectors
