import Osrm.Loops
import Osrm.PackedVectors

/-!
Which words a `util::PackedVector` touches, from each of its constructors on. Sizes have 64 bits, and a vector may be
unable to grow beyond `max_words`: `resize` has set the number of elements when that happens.
-/
namespace Osrm.PackedBounds
open List Option
open WordBits PackedVectors PackedVectors.PackedVector

section Operations
variable (Bits max_words : ℕ)

def numBlocks (elements : ℕ) : ℕ := (elements + BLOCK_ELEMENTS - 1) % 2 ^ 64 / BLOCK_ELEMENTS
/-- `vec.resize`, and whether it throws because it cannot get the words. -/
def resizeWords (vec : List Word) (length : ℕ) : List Word × Bool :=
  if length ≤ vec.length ∨ length ≤ max_words then (WordBits.resize vec length,false) else (vec,true)
def resize (self : PackedVector) (elements : ℕ) : PackedVector × Bool :=
  let (vec,threw) := resizeWords max_words self.vec (numBlocks elements * BLOCK_WORDS Bits + 1)
  (⟨vec,elements⟩,threw)
/-- `reserve` changes nothing that one sees. -/
def reserve (self : PackedVector) (capacity : ℕ) : PackedVector × Bool :=
  (self,decide (max_words < numBlocks capacity * BLOCK_WORDS Bits + 1))
def allocate_blocks (self : PackedVector) (num_blocks : ℕ) : PackedVector × Bool :=
  let (vec,threw) := resizeWords max_words self.vec (self.vec.length + num_blocks * BLOCK_WORDS Bits)
  ({ self with vec },threw)

/-- The loop of `push_back`, for at most so many rounds. -/
def allocateFor (lower_word : ℕ) : ℕ → PackedVector → PackedVector × Bool
  | 0, self => (self,false)
  | fuel + 1, self =>
    if lower_word + 1 ≥ self.vec.length then
      match allocate_blocks Bits max_words self 1 with
      | (self,true) => (self,true)
      | (self,false) => allocateFor lower_word fuel self
    else (self,false)

/-- Nothing if a word is touched that is not there. -/
def push_back (self : PackedVector) (value : Word) : Option (PackedVector × Bool) :=
  let internal_index := get_internal_index Bits self.num_elements
  match allocateFor Bits max_words internal_index.lower_word (internal_index.lower_word + 2) self with
  | (self,true) => some (self,true)
  | (self,false) => (self.set_value Bits internal_index value).map fun self =>
    ({ self with num_elements := (self.num_elements + 1) % 2 ^ 64 },false)

def fillBlock (value : Word) (self : PackedVector) (block_index : ℕ) : Option PackedVector :=
  let block_offset := block_index * BLOCK_WORDS Bits
  (List.range BLOCK_ELEMENTS).foldlM (fun self element_index =>
    self.set_value Bits ⟨block_offset + (word_offset Bits).getD element_index 0,element_index⟩ value) self

def fill (self : PackedVector) (value : Word) : Option PackedVector :=
  (List.range (self.vec.length / BLOCK_WORDS Bits)).foldlM (fillBlock Bits value) self

/-- The loop of the constructor from a list. There is no vector if an element throws. -/
def pushAll (self : PackedVector) : List Word → Option (Option PackedVector)
  | [] => some (some self)
  | value :: values =>
    match push_back Bits max_words self value with
    | none => none
    | some (_,true) => some none
    | some (self,false) => pushAll self values

inductive Construction
  | empty
  | size (elements : ℕ)
  | filled (elements : ℕ) (initial_value : Word)
  | list (values : List Word)

/-- Nothing if a word is touched that is not there, and no vector if the constructor throws. -/
def construct : Construction → Option (Option PackedVector)
  | .empty => some (some PackedVector.empty)
  | .size elements =>
    match resize Bits max_words PackedVector.empty elements with
    | (_,true) => some none
    | (self,false) => some (some self)
  | .filled elements initial_value =>
    match resize Bits max_words PackedVector.empty elements with
    | (_,true) => some none
    | (self,false) => (fill Bits self initial_value).map some
  | .list values =>
    match reserve Bits max_words PackedVector.empty values.length with
    | (_,true) => some none
    | (self,false) => pushAll Bits max_words self values

/-- What can be done with a vector. Elements are read and written through `operator[]`. -/
inductive Call
  | push_back (value : Word)
  | resize (elements : ℕ)
  | reserve (capacity : ℕ)
  | read (index : ℕ)
  | assign (index : ℕ) (value : Word)

/-- The vector after a call, whether or not the call throws; nothing if a word is touched that is not there. -/
def perform (self : PackedVector) : Call → Option PackedVector
  | .push_back value => (push_back Bits max_words self value).map Prod.fst
  | .resize elements => some (resize Bits max_words self elements).1
  | .reserve capacity => some (reserve Bits max_words self capacity).1
  | .read index => (self.get Bits index).map fun _ => self
  | .assign index value => self.assign Bits index value

end Operations

section Words
variable {Bits max_words : ℕ} {self : PackedVector}

private theorem block_words (Bits : ℕ) : BLOCK_WORDS Bits = Bits := Nat.mul_div_cancel Bits (by decide)

private theorem numBlocks_eq {elements : ℕ} (fits : elements + 63 < 2 ^ 64) : numBlocks elements = (elements + 63) / 64 := by
  have same : elements + BLOCK_ELEMENTS - 1 = elements + 63 := rfl
  rw [numBlocks,same,Nat.mod_eq_of_lt fits]
  rfl

private theorem set_value_some {internal_index : InternalIndex} (inside : internal_index.lower_word + 1 < self.vec.length) (value : Word) :
    ∃ self', self.set_value Bits internal_index value = some self' ∧ self'.vec.length = self.vec.length ∧
      self'.num_elements = self.num_elements := by
  have lower : internal_index.lower_word < self.vec.length := by omega
  refine ⟨_,set_value_eq (getElem?_eq_getD lower) (getElem?_eq_getD inside),?_,rfl⟩
  simp

private theorem inside_of_set_value {internal_index : InternalIndex} {value : Word} {self' : PackedVector}
    (written : self.set_value Bits internal_index value = some self') :
    internal_index.lower_word + 1 < self.vec.length ∧ self'.vec.length = self.vec.length := by
  by_cases inside : internal_index.lower_word + 1 < self.vec.length
  · obtain ⟨self'',written',length,-⟩ := @set_value_some Bits self internal_index inside value
    obtain rfl := some.inj (written.symm.trans written')
    exact ⟨inside,length⟩
  · have beyond : self.vec[internal_index.lower_word + 1]? = none := getElem?_eq_none (Nat.not_lt.mp inside)
    rw [set_value,beyond] at written
    cases lower : self.vec[internal_index.lower_word]? <;> simp [lower] at written

def Blocks (Bits : ℕ) (self : PackedVector) (blocks : ℕ) : Prop := self.vec.length = blocks * Bits + 1

private theorem resize_fits {elements : ℕ} (fits : elements + 63 < 2 ^ 64) :
    (resize Bits max_words self elements).2 = true ∨
      (resize Bits max_words self elements = (self.resize Bits elements,false) ∧
        Blocks Bits (self.resize Bits elements) ((elements + 63) / 64)) := by
  rw [resize,numBlocks_eq fits,resizeWords]
  by_cases room : (elements + 63) / 64 * BLOCK_WORDS Bits + 1 ≤ self.vec.length ∨ (elements + 63) / 64 * BLOCK_WORDS Bits + 1 ≤ max_words
  · rw [if_pos room]
    refine .inr ⟨rfl,?_⟩
    rw [Blocks,PackedVector.resize,length_resize,block_words]
    rfl
  · rw [if_neg room]
    exact .inl rfl

private theorem allocateFor_spec (positive : 0 < Bits) {lower_word fuel : ℕ} (enough : lower_word + 1 < self.vec.length + fuel) :
    (allocateFor Bits max_words lower_word fuel self).1.num_elements = self.num_elements ∧
      self.vec.length ≤ (allocateFor Bits max_words lower_word fuel self).1.vec.length ∧
      ((allocateFor Bits max_words lower_word fuel self).2 = false →
        lower_word + 1 < (allocateFor Bits max_words lower_word fuel self).1.vec.length) := by
  induction fuel generalizing self with
  | zero => exact ⟨rfl,le_rfl,fun _ => enough⟩
  | succ fuel ih =>
    rw [allocateFor]
    by_cases short : lower_word + 1 ≥ self.vec.length
    · rw [if_pos short,allocate_blocks,resizeWords,block_words,Nat.one_mul]
      by_cases room : self.vec.length + Bits ≤ self.vec.length ∨ self.vec.length + Bits ≤ max_words
      · rw [if_pos room]
        have length : (WordBits.resize self.vec (self.vec.length + Bits)).length = self.vec.length + Bits := length_resize ..
        obtain ⟨count,grows,ended⟩ := @ih { self with vec := WordBits.resize self.vec (self.vec.length + Bits) } (by
          simp only [length]
          omega)
        simp only [length] at grows
        exact ⟨count,(Nat.le_add_right ..).trans grows,ended⟩
      · rw [if_neg room]
        exact ⟨rfl,le_rfl,fun ended => by cases ended⟩
    · rw [if_neg short]
      exact ⟨rfl,le_rfl,fun _ => Nat.not_le.mp short⟩

private theorem push_back_inside (positive : 0 < Bits) (readable : self.Readable Bits) (value : Word) :
    ∃ self' threw, push_back Bits max_words self value = some (self',threw) ∧ self'.Readable Bits := by
  obtain ⟨count,grows,room⟩ := @allocateFor_spec Bits max_words self positive (get_internal_index Bits self.num_elements).lower_word
    ((get_internal_index Bits self.num_elements).lower_word + 2) (by omega)
  rw [push_back]
  generalize allocateFor Bits max_words (get_internal_index Bits self.num_elements).lower_word
    ((get_internal_index Bits self.num_elements).lower_word + 2) self = result at count grows room ⊢
  obtain ⟨grown,threw⟩ := result
  have kept (index : ℕ) (inside : index < self.num_elements) : grown.Room Bits index := (readable index inside).upper.trans_le grows
  cases threw with
  | true => exact ⟨grown,true,rfl,fun index inside => kept index (count ▸ inside)⟩
  | false =>
    obtain ⟨written,set,length,count'⟩ := @set_value_some Bits grown _ (room rfl) value
    have total : written.num_elements = self.num_elements := count'.trans count
    refine ⟨{ written with num_elements := (self.num_elements + 1) % 2 ^ 64 },false,by simp [set,total],?_⟩
    intro index inside
    have below : index < self.num_elements + 1 := lt_of_lt_of_le inside (Nat.mod_le _ _)
    change (get_internal_index Bits index).lower_word + 1 < written.vec.length
    rw [length]
    rcases Nat.lt_succ_iff_lt_or_eq.mp below with old | rfl
    · exact kept index old
    · exact room rfl

private theorem pushAll_inside (positive : 0 < Bits) (readable : self.Readable Bits) (values : List Word) :
    ∃ built, pushAll Bits max_words self values = some built ∧ ∀ vector, built = some vector → vector.Readable Bits := by
  induction values generalizing self with
  | nil =>
    refine ⟨_,rfl,fun vector same => ?_⟩
    obtain rfl := some.inj same
    exact readable
  | cons value values ih =>
    obtain ⟨next,threw,pushed,readable'⟩ := @push_back_inside Bits max_words self positive readable value
    rw [pushAll,pushed]
    cases threw with
    | true => exact ⟨none,rfl,fun vector same => by cases same⟩
    | false => exact ih readable'

end Words

section Filling
variable {Bits blocks block_index : ℕ} {self : PackedVector} {value : Word}

private theorem word_offset_eq {element_index : ℕ} (inside : element_index < 64) :
    (word_offset Bits).getD element_index 0 = element_index * Bits / 64 := initialize_table_getD _ _ inside

private theorem fill_index_inside (positive : 0 < Bits) {element_index words : ℕ} (inside : element_index < 64)
    (room : (block_index + 1) * Bits < words) : block_index * BLOCK_WORDS Bits + (word_offset Bits).getD element_index 0 + 1 < words := by
  have within : element_index * Bits / 64 < Bits := by
    apply Nat.div_lt_of_lt_mul
    exact Nat.mul_lt_mul_of_pos_right inside positive
  rw [Nat.add_mul,Nat.one_mul] at room
  rw [word_offset_eq inside,block_words]
  omega

private theorem fillBlock_some (positive : 0 < Bits) (room : (block_index + 1) * Bits < self.vec.length) (value : Word) :
    ∃ self', fillBlock Bits value self block_index = some self' ∧ self'.vec.length = self.vec.length ∧
      self'.num_elements = self.num_elements := by
  have loop (count : ℕ) (within : count ≤ 64) : ∃ self', (List.range count).foldlM (fun self element_index =>
      PackedVector.set_value Bits self ⟨block_index * BLOCK_WORDS Bits + (word_offset Bits).getD element_index 0,element_index⟩ value) self =
        some self' ∧ self'.vec.length = self.vec.length ∧ self'.num_elements = self.num_elements := by
    induction count with
    | zero => exact ⟨self,rfl,rfl,rfl⟩
    | succ count ih =>
      obtain ⟨filled,ran,length,elements⟩ := ih (by omega)
      have inside := fill_index_inside positive (show count < 64 from within) (length.symm ▸ room)
      obtain ⟨next,written,length',elements'⟩ := @set_value_some Bits filled
        ⟨block_index * BLOCK_WORDS Bits + (word_offset Bits).getD count 0,count⟩ inside value
      refine ⟨next,?_,length'.trans length,elements'.trans elements⟩
      rw [range_succ,foldlM_append,ran]
      simp only [bind_eq_bind,bind_some,foldlM_cons,foldlM_nil,written]
      rfl
  exact loop 64 le_rfl

private theorem inside_of_fillBlock (positive : 0 < Bits) (small : Bits ≤ 63) {self' : PackedVector}
    (filled : fillBlock Bits value self block_index = some self') :
    (block_index + 1) * Bits < self.vec.length ∧ self'.vec.length = self.vec.length := by
  have loop (count : ℕ) (within : count ≤ 63) {state : PackedVector} (ran : (List.range count).foldlM (fun self element_index =>
      PackedVector.set_value Bits self ⟨block_index * BLOCK_WORDS Bits + (word_offset Bits).getD element_index 0,element_index⟩ value) self =
        some state) : state.vec.length = self.vec.length :=
    Loops.foldlM_invariant (fun state : PackedVector => state.vec.length = self.vec.length)
      (fun state element_index next _ length written => (inside_of_set_value written).2.trans length) rfl ran
  have blocks : List.range BLOCK_ELEMENTS = List.range 63 ++ [63] := rfl
  rw [fillBlock,blocks,foldlM_append] at filled
  obtain ⟨state,ran,last⟩ := bind_eq_some_iff.mp filled
  simp only [foldlM_cons,foldlM_nil] at last
  obtain ⟨final,written,same⟩ := bind_eq_some_iff.mp last
  obtain rfl := some.inj same
  obtain ⟨inside,length⟩ := inside_of_set_value written
  have before := loop 63 le_rfl ran
  simp only [word_offset_eq (show 63 < 64 by decide),block_words,before] at inside
  refine ⟨?_,length.trans before⟩
  have top : 63 * Bits / 64 = Bits - 1 := by omega
  rw [top] at inside
  rw [Nat.add_mul,Nat.one_mul]
  omega

/-- Filling touches a word that is not there exactly where the elements have one bit. -/
theorem fill_spec (positive : 0 < Bits) (small : Bits ≤ 63) (has : Blocks Bits self blocks) (value : Word) :
    (Bits = 1 → fill Bits self value = none) ∧
      (Bits ≠ 1 → ∃ self', fill Bits self value = some self' ∧ self'.vec.length = self.vec.length ∧
        self'.num_elements = self.num_elements) := by
  have words : self.vec.length = blocks * Bits + 1 := has
  constructor
  · rintro rfl
    have count : self.vec.length / BLOCK_WORDS 1 = blocks + 1 := by rw [block_words,words,Nat.div_one,Nat.mul_one]
    rw [fill,count,range_succ,foldlM_append]
    by_contra filled
    obtain ⟨final,ran⟩ := ne_none_iff_exists'.mp filled
    obtain ⟨state,earlier,last⟩ := bind_eq_some_iff.mp ran
    have length := Loops.foldlM_invariant (fun state : PackedVector => state.vec.length = self.vec.length)
      (fun state block_index next _ length block => (inside_of_fillBlock positive small block).2.trans length) rfl earlier
    simp only [foldlM_cons,foldlM_nil] at last
    obtain ⟨next,block,-⟩ := bind_eq_some_iff.mp last
    have inside := (inside_of_fillBlock positive small block).1
    omega
  · intro more
    have count : self.vec.length / BLOCK_WORDS Bits = blocks := by
      rw [block_words,words,Nat.add_comm,Nat.add_mul_div_right _ _ positive,Nat.div_eq_of_lt (by omega),Nat.zero_add]
    have loop (k : ℕ) (within : k ≤ blocks) : ∃ self', (List.range k).foldlM (fillBlock Bits value) self = some self' ∧
        self'.vec.length = self.vec.length ∧ self'.num_elements = self.num_elements := by
      induction k with
      | zero => exact ⟨self,rfl,rfl,rfl⟩
      | succ k ih =>
        obtain ⟨filled,ran,length,elements⟩ := ih (by omega)
        have room : (k + 1) * Bits < filled.vec.length := by
          rw [length,words]
          exact Nat.lt_succ_of_le (Nat.mul_le_mul_right Bits within)
        obtain ⟨next,block,length',elements'⟩ := fillBlock_some positive room value
        refine ⟨next,?_,length'.trans length,elements'.trans elements⟩
        rw [range_succ,foldlM_append,ran]
        simp only [bind_eq_bind,bind_some,foldlM_cons,foldlM_nil,block]
        rfl
    rw [fill,count]
    exact loop blocks le_rfl

end Filling

/-! ### Runs -/

section Runs
variable {Bits max_words : ℕ} {self : PackedVector}

/-- A size that does not wrap around when it is rounded up; and no vector of single bits is filled. -/
def Construction.Fits (Bits : ℕ) : Construction → Prop
  | .size elements => elements + 63 < 2 ^ 64
  | .filled elements _ => elements + 63 < 2 ^ 64 ∧ Bits ≠ 1
  | .empty | .list _ => True

/-- A size that does not wrap around when it is rounded up, and whose words can be had. -/
def Call.Fits (Bits max_words : ℕ) (self : PackedVector) : Call → Prop
  | .resize elements => elements + 63 < 2 ^ 64 ∧
      ((elements + 63) / 64 * Bits + 1 ≤ self.vec.length ∨ (elements + 63) / 64 * Bits + 1 ≤ max_words)
  | .push_back _ | .reserve _ | .read _ | .assign .. => True

def Call.InRange (self : PackedVector) : Call → Prop
  | .read index | .assign index _ => index < self.num_elements
  | .push_back _ | .resize _ | .reserve _ => True

/-- No call of a sequence touches a word that is not there. -/
def Inside (Bits max_words : ℕ) (self : PackedVector) : List Call → Prop
  | [] => True
  | call :: calls => call.InRange self → call.Fits Bits max_words self →
      ∃ self', perform Bits max_words self call = some self' ∧ Inside Bits max_words self' calls

private theorem perform_inside (positive : 0 < Bits) (small : Bits < 64) (readable : self.Readable Bits) {call : Call}
    (inRange : call.InRange self) (fits : call.Fits Bits max_words self) :
    ∃ self', perform Bits max_words self call = some self' ∧ self'.Readable Bits := by
  cases call with
  | push_back value =>
    obtain ⟨self',threw,pushed,readable'⟩ := @push_back_inside Bits max_words self positive readable value
    exact ⟨self',by simp [perform,pushed],readable'⟩
  | resize elements =>
    obtain ⟨bound,room⟩ := fits
    refine ⟨_,rfl,?_⟩
    rcases @resize_fits Bits max_words self elements bound with threw | ⟨done,-⟩
    · rw [resize,numBlocks_eq bound,resizeWords,block_words,if_pos room] at threw
      cases threw
    · rw [done]
      exact readable_resize positive self elements
  | reserve capacity => exact ⟨self,rfl,readable⟩
  | read index => exact ⟨self,by simp [perform,get_eq small (readable index inRange)],readable⟩
  | assign index value =>
    obtain ⟨self',assigned,readable',-⟩ := readable.assign small inRange value
    exact ⟨self',assigned,readable'⟩

private theorem Inside.of_readable (positive : 0 < Bits) (small : Bits < 64) (readable : self.Readable Bits) (calls : List Call) :
    Inside Bits max_words self calls := by
  induction calls generalizing self with
  | nil => trivial
  | cons call calls ih =>
    intro inRange fits
    obtain ⟨self',performed,readable'⟩ := perform_inside positive small readable inRange fits
    exact ⟨self',performed,ih readable'⟩

private theorem resized_inside {elements : ℕ} (fits : elements + 63 < 2 ^ 64) (next : PackedVector → Option (Option PackedVector))
    (inside : Blocks Bits (PackedVector.empty.resize Bits elements) ((elements + 63) / 64) →
      ∃ built, next (PackedVector.empty.resize Bits elements) = some built ∧ ∀ vector, built = some vector → vector.Readable Bits) :
    ∃ built, (match resize Bits max_words PackedVector.empty elements with
      | (_,true) => some none
      | (self,false) => next self) = some built ∧ ∀ vector, built = some vector → vector.Readable Bits := by
  rcases @resize_fits Bits max_words PackedVector.empty elements fits with threw | ⟨done,blocks⟩
  · have throws : resize Bits max_words PackedVector.empty elements = (_,true) := Prod.ext rfl threw
    rw [throws]
    exact ⟨none,rfl,fun vector same => by cases same⟩
  · rw [done]
    exact inside blocks

private theorem construct_inside (positive : 0 < Bits) (small : Bits ≤ 63) {construction : Construction} (fits : construction.Fits Bits) :
    ∃ built, construct Bits max_words construction = some built ∧ ∀ vector, built = some vector → vector.Readable Bits := by
  have none (vector : PackedVector) (same : (none : Option PackedVector) = some vector) : vector.Readable Bits := by cases same
  have empty : PackedVector.empty.Readable Bits := fun index inside => absurd inside (Nat.not_lt_zero index)
  cases construction with
  | empty =>
    refine ⟨_,rfl,fun vector same => ?_⟩
    obtain rfl := some.inj same
    exact empty
  | size size =>
    rw [construct]
    refine resized_inside fits (fun self => some (some self)) fun _ => ⟨_,rfl,fun vector same => ?_⟩
    obtain rfl := some.inj same
    exact readable_resize positive _ size
  | filled size initial_value =>
    rw [construct]
    refine resized_inside fits.1 (fun self => (fill Bits self initial_value).map some) fun blocks => ?_
    obtain ⟨filled,ran,length,count⟩ := (fill_spec positive small blocks initial_value).2 fits.2
    refine ⟨some filled,by simp [ran],fun vector same => ?_⟩
    obtain rfl := some.inj same
    intro index inside
    rw [Room,length]
    exact readable_resize positive _ size index (count ▸ inside)
  | list list =>
    rw [construct,reserve]
    cases max_words.decLt (numBlocks list.length * BLOCK_WORDS Bits + 1) with
    | isTrue short =>
      simp only [decide_true,short]
      exact ⟨_,rfl,none⟩
    | isFalse room =>
      simp only [decide_false,room]
      exact pushAll_inside positive empty list

/-- In every run from a constructor on, no call touches a word that is not there. -/
theorem words_stay_inside (positive : 1 ≤ Bits) (small : Bits ≤ 63) (max_words : ℕ) {construction : Construction}
    (fits : construction.Fits Bits) (calls : List Call) :
    ∃ built, construct Bits max_words construction = some built ∧ ∀ vector, built = some vector → Inside Bits max_words vector calls := by
  obtain ⟨built,constructed,readable⟩ := @construct_inside Bits max_words positive small construction fits
  exact ⟨built,constructed,fun vector same => .of_readable positive (Nat.lt_succ_of_le small) (readable vector same) calls⟩

theorem words_stay_inside_straddling :
    ∃ built, construct 33 1000 (.filled 70 5) = some built ∧ ∀ vector, built = some vector →
      Inside 33 1000 vector [.push_back 7,.read 70,.resize 3,.assign 2 9,.reserve 500,.push_back 1] :=
  words_stay_inside (by decide) (by decide) 1000 (show Construction.Fits 33 (.filled 70 5) from ⟨by decide,by decide⟩) _

private theorem filled_touches_beyond {max_words size : ℕ} (fits : size + 63 < 2 ^ 64) (room : (size + 63) / 64 + 1 ≤ max_words)
    (initial_value : Word) : construct 1 max_words (.filled size initial_value) = none := by
  rw [construct]
  rcases @resize_fits 1 max_words PackedVector.empty size fits with threw | ⟨done,blocks⟩
  · rw [resize,numBlocks_eq fits,resizeWords,block_words,Nat.mul_one,if_pos (.inr room)] at threw
    cases threw
  · rw [done]
    simp [(fill_spec (by decide) (by decide) blocks initial_value).1 rfl]

/-- 100 bits, all of them set, in 3 words. -/
theorem filled_bits_touch_beyond : construct 1 1000 (.filled 100 1) = none ∧
    (PackedVector.empty.resize 1 100).vec.length = 3 := by
  refine ⟨filled_touches_beyond (by decide) (by decide) 1,?_⟩
  decide

end Runs

end Osrm.PackedBounds
