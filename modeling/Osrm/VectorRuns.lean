import Osrm.DeallocatingVectors

/-!
Whatever a program does with its `DeallocatingVector`s, each of them is a list. The calls are performed on the buckets in
memory and on plain lists, in which an element is left open that was added by growing and has not been written yet.
-/
namespace Osrm.VectorRuns
open Option Function
open StatePrograms BlockMemory DeallocatingVectors DeallocatingVectors.DeallocatingVector

inductive Call (Name α Args : Type)
  | construct (name : Name)
  | constructFrom (name : Name) (elements : List α)
  | copyConstruct (name other : Name)
  | destroy (name : Name)
  | assign (name other : Name)
  | swap (name other : Name)
  | clear (name : Name)
  | push_back (name : Name) (element : α)
  | emplace_back (name : Name) (element : Args)
  | append (name : Name) (elements : List α)
  | appendRange (name other : Name) (first last : ℕ)
  | resize (name : Name) (new_size : ℕ)
  | set (name : Name) (index : ℕ) (element : α)
  | get (name : Name) (index : ℕ)
  | back (name : Name)
  | size (name : Name)
  | visit (name : Name)

inductive Answer (α : Type)
  | done
  | element (a : α)
  | size (n : ℕ)
  | elements (l : List α)
  deriving DecidableEq, Repr

section Programs
variable {Name α Args : Type} [DecidableEq Name] (ELEMENTS_PER_BLOCK : ℕ) (allocator : Allocator α) (construct : Args → α)

abbrev Vectors (Name : Type) := Name → Option DeallocatingVector

/-- The vectors afterwards, and what is returned. A name is declared once. -/
def perform (vectors : Vectors Name) : Call Name α Args → Program (Memory α) (Vectors Name × Answer α)
  | .construct name => do
    if (vectors name).isSome then failure
    let vector ← empty allocator
    return (Function.update vectors name (some vector),.done)
  | .constructFrom name elements => do
    if (vectors name).isSome then failure
    let vector ← fromList ELEMENTS_PER_BLOCK allocator elements
    return (Function.update vectors name (some vector),.done)
  | .copyConstruct name other => do
    if (vectors name).isSome then failure
    let other ← vectors other
    let vector ← copy ELEMENTS_PER_BLOCK allocator other
    return (Function.update vectors name (some vector),.done)
  | .destroy name => do
    let vector ← vectors name
    let _ ← vector.clear
    return (Function.update vectors name none,.done)
  | .assign name other => do
    let vector ← vectors name
    let other ← vectors other
    let vector ← vector.assign ELEMENTS_PER_BLOCK allocator other
    return (Function.update vectors name (some vector),.done)
  | .swap name other => do
    let vector ← vectors name
    let otherVector ← vectors other
    return (Function.update (Function.update vectors name (some otherVector)) other (some vector),.done)
  | .clear name => do
    let vector ← vectors name
    let vector ← vector.clear
    return (Function.update vectors name (some vector),.done)
  | .push_back name element => do
    let vector ← vectors name
    let vector ← vector.push_back ELEMENTS_PER_BLOCK allocator element
    return (Function.update vectors name (some vector),.done)
  | .emplace_back name element => do
    let vector ← vectors name
    let vector ← vector.emplace_back ELEMENTS_PER_BLOCK allocator construct element
    return (Function.update vectors name (some vector),.done)
  | .append name elements => do
    let vector ← vectors name
    let vector ← vector.append ELEMENTS_PER_BLOCK allocator elements
    return (Function.update vectors name (some vector),.done)
  | .appendRange name other first last => do
    let vector ← vectors name
    let otherVector ← vectors other
    let source := if name = other then id else fun _ => otherVector
    let vector ← vector.appendRange ELEMENTS_PER_BLOCK allocator source first last
    return (Function.update vectors name (some vector),.done)
  | .resize name new_size => do
    let vector ← vectors name
    let vector ← vector.resize ELEMENTS_PER_BLOCK allocator new_size
    return (Function.update vectors name (some vector),.done)
  | .set name index element => do
    let vector ← vectors name
    vector.set ELEMENTS_PER_BLOCK index element
    return (vectors,.done)
  | .get name index => do
    let vector ← vectors name
    return (vectors,.element (← vector.get ELEMENTS_PER_BLOCK index))
  | .back name => do
    let vector ← vectors name
    return (vectors,.element (← vector.back ELEMENTS_PER_BLOCK))
  | .size name => do
    let vector ← vectors name
    return (vectors,.size vector.current_size)
  | .visit name => do
    let vector ← vectors name
    return (vectors,.elements (← vector.visited ELEMENTS_PER_BLOCK))

def run (vectors : Vectors Name) : List (Call Name α Args) → Program (Memory α) (Vectors Name × List (Answer α))
  | [] => pure (vectors,[])
  | call :: calls => do
    let (vectors,answer) ← perform ELEMENTS_PER_BLOCK allocator construct vectors call
    let (vectors,answers) ← run vectors calls
    return (vectors,answer :: answers)

end Programs

section Lists
variable {Name α Args : Type} [DecidableEq Name] (construct : Args → α)

abbrev Lists (Name α : Type) := Name → Option (List (Option α))

/-- The same call with plain lists, if it makes sense. -/
def onLists (lists : Lists Name α) : Call Name α Args → Option (Lists Name α × Answer (Option α))
  | .construct name => if (lists name).isSome then none else some (Function.update lists name (some []),.done)
  | .constructFrom name elements =>
    if (lists name).isSome then none else some (Function.update lists name (some (elements.map some)),.done)
  | .copyConstruct name other =>
    if (lists name).isSome then none else (lists other).map fun l => (Function.update lists name (some l),.done)
  | .destroy name => (lists name).map fun _ => (Function.update lists name none,.done)
  | .assign name other => (lists name).bind fun _ => (lists other).map fun l => (Function.update lists name (some l),.done)
  | .swap name other => (lists name).bind fun l => (lists other).map fun l' =>
    (Function.update (Function.update lists name (some l')) other (some l),.done)
  | .clear name => (lists name).map fun _ => (Function.update lists name (some []),.done)
  | .push_back name element => (lists name).map fun l => (Function.update lists name (some (l ++ [some element])),.done)
  | .emplace_back name element => (lists name).map fun l => (Function.update lists name (some (l ++ [some (construct element)])),.done)
  | .append name elements => (lists name).map fun l => (Function.update lists name (some (l ++ elements.map some)),.done)
  | .appendRange name other first last => (lists name).bind fun l => (lists other).bind fun l' =>
    if first ≤ last ∧ last ≤ l'.length then
      some (Function.update lists name (some (l ++ (l'.drop first).take (last - first))),.done)
    else none
  | .resize name new_size => (lists name).map fun l => (Function.update lists name (some (resized l new_size)),.done)
  | .set name index element => (lists name).bind fun l =>
    if index < l.length then some (Function.update lists name (some (l.set index (some element))),.done) else none
  | .get name index => (lists name).bind fun l => l[index]?.map fun known => (lists,.element known)
  | .back name => (lists name).bind fun l => l.getLast?.map fun known => (lists,.element known)
  | .size name => (lists name).map fun l => (lists,.size l.length)
  | .visit name => (lists name).map fun l => (lists,.elements l)

def runOnLists (lists : Lists Name α) : List (Call Name α Args) → Option (Lists Name α × List (Answer (Option α)))
  | [] => some (lists,[])
  | call :: calls =>
    (onLists construct lists call).bind fun (lists,answer) =>
      (runOnLists lists calls).map fun (lists,answers) => (lists,answer :: answers)

/-- The vector returns what the list does, and anything where the list leaves it open. -/
inductive Returns : Answer (Option α) → Answer α → Prop
  | done : Returns .done .done
  | element {known : Option α} {a : α} (agrees : Agrees known a) : Returns (.element known) (.element a)
  | size (n : ℕ) : Returns (.size n) (.size n)
  | elements {l : List (Option α)} {elements : List α} (agree : List.Forall₂ Agrees l elements) : Returns (.elements l) (.elements elements)

end Lists

/-! ### All vectors together -/

def owned (vector : Option DeallocatingVector) : Set ℕ := vector.elim ∅ blocks

inductive Stands {α : Type} (ELEMENTS_PER_BLOCK : ℕ) (memory : Memory α) : Option DeallocatingVector → Option (List (Option α)) → Prop
  | absent : Stands ELEMENTS_PER_BLOCK memory none none
  | holds {vector : DeallocatingVector} {l : List (Option α)} (holds : Holds ELEMENTS_PER_BLOCK memory vector l) :
      Stands ELEMENTS_PER_BLOCK memory (some vector) (some l)

/-- All vectors hold their lists in buckets of their own; older memory is untouched, and no bucket is lost. -/
structure Represents {Name α : Type} (ELEMENTS_PER_BLOCK : ℕ) (start memory : Memory α) (vectors : Vectors Name) (lists : Lists Name α) : Prop where
  stands : ∀ name, Stands ELEMENTS_PER_BLOCK memory (vectors name) (lists name)
  apart : ∀ name other, name ≠ other → ∀ block ∈ owned (vectors name), block ∉ owned (vectors other)
  foreign : ∀ block ∈ start.allocated, block ∈ memory.allocated ∧ memory.cell block = start.cell block ∧
    ∀ name, block ∉ owned (vectors name)
  owners : ∀ block ∈ memory.allocated, block ∈ start.allocated ∨ ∃ name, block ∈ owned (vectors name)

section Together
variable {Name α : Type} {ELEMENTS_PER_BLOCK : ℕ} {start memory memory' : Memory α} {vectors : Vectors Name} {lists : Lists Name α}
  {name : Name} {vector : DeallocatingVector} {l : List (Option α)}

private theorem represents_start (ELEMENTS_PER_BLOCK : ℕ) (memory : Memory α) :
    Represents ELEMENTS_PER_BLOCK memory memory (fun _ : Name => none) fun _ => none :=
  ⟨fun _ => .absent,fun _ _ _ _ _ => Set.notMem_empty _,fun _ inside => ⟨inside,rfl,fun _ => Set.notMem_empty _⟩,fun _ inside => .inl inside⟩

private theorem Represents.found (represents : Represents ELEMENTS_PER_BLOCK start memory vectors lists) (known : lists name = some l) :
    ∃ vector, vectors name = some vector ∧ Holds ELEMENTS_PER_BLOCK memory vector l := by
  have stands := represents.stands name
  rw [known] at stands
  cases found : vectors name with
  | none =>
    rw [found] at stands
    cases stands
  | some vector =>
    rw [found] at stands
    cases stands with
    | holds holds => exact ⟨vector,rfl,holds⟩

private theorem Represents.absent (represents : Represents ELEMENTS_PER_BLOCK start memory vectors lists) (unknown : ¬ (lists name).isSome = true) :
    vectors name = none := by
  have stands := represents.stands name
  cases known : lists name with
  | none =>
    rw [known] at stands
    cases found : vectors name with
    | none => rfl
    | some vector =>
      rw [found] at stands
      cases stands
  | some l => simp [known] at unknown

private theorem Represents.with_vector (represents : Represents ELEMENTS_PER_BLOCK start memory vectors lists) {sensible : List (Option α) → Prop}
    {rest : DeallocatingVector → Program (Memory α) (Vectors Name × Answer α)} {post : Vectors Name × Answer α → Memory α → Prop}
    (known : ∃ l, lists name = some l ∧ sensible l)
    (each : ∀ vector l, vectors name = some vector → Holds ELEMENTS_PER_BLOCK memory vector l → sensible l → Ends (rest vector) memory post) :
    Ends ((liftM (vectors name) : Program (Memory α) DeallocatingVector) >>= rest) memory post := by
  obtain ⟨l,known,sense⟩ := known
  obtain ⟨vector,there,holds⟩ := represents.found known
  exact ends_found there (each vector l there holds sense)

variable {list : Option (List (Option α))}

private theorem Stands.allocated {vector : Option DeallocatingVector}
    (stands : Stands ELEMENTS_PER_BLOCK memory vector list) {block : ℕ} (own : block ∈ owned vector) : block ∈ memory.allocated := by
  cases stands with
  | absent => exact absurd own (Set.notMem_empty block)
  | holds holds => exact holds.filled.allocated block own

private theorem Stands.frame {vector : Option DeallocatingVector} {before after : Set ℕ}
    (stands : Stands ELEMENTS_PER_BLOCK memory vector list) (changes : Changes memory memory' before after)
    (apart : ∀ block ∈ owned vector, block ∉ before) : Stands ELEMENTS_PER_BLOCK memory' vector list := by
  cases stands with
  | absent => exact .absent
  | holds holds => exact .holds (holds.frame changes apart)

variable [DecidableEq Name]

private theorem Represents.update (represents : Represents ELEMENTS_PER_BLOCK start memory vectors lists) {vector : Option DeallocatingVector} (changes : Changes memory memory' (owned (vectors name)) (owned vector))
    (stands : Stands ELEMENTS_PER_BLOCK memory' vector list) :
    Represents ELEMENTS_PER_BLOCK start memory' (Function.update vectors name vector) (Function.update lists name list) := by
  -- the buckets of another vector are none of the new ones
  have other_kept (other : Name) (different : other ≠ name) (block : ℕ) (own : block ∈ owned (vectors other)) :=
    changes.others block ((represents.stands other).allocated own) (represents.apart other name different block own)
  have new_apart (other : Name) (different : other ≠ name) (block : ℕ) (own : block ∈ owned (vectors other)) : block ∉ owned vector :=
    (other_kept other different block own).2.2
  constructor
  · intro other
    by_cases same : other = name
    · subst same
      rw [update_self,update_self]
      exact stands
    · rw [update_of_ne same,update_of_ne same]
      exact (represents.stands other).frame changes (represents.apart other name same)
  · intro first second different
    by_cases here : first = name
    · subst here
      rw [update_self,update_of_ne (Ne.symm different)]
      exact fun block new own => new_apart second (Ne.symm different) block own new
    · rw [update_of_ne here]
      by_cases there : second = name
      · subst there
        rw [update_self]
        exact new_apart first here
      · rw [update_of_ne there]
        exact represents.apart first second different
  · intro block old
    obtain ⟨inside,cells,nobody⟩ := represents.foreign block old
    obtain ⟨inside',cells',new⟩ := changes.others block inside (nobody name)
    refine ⟨inside',cells'.trans cells,fun other => ?_⟩
    by_cases same : other = name
    · subst same
      rw [update_self]
      exact new
    · rw [update_of_ne same]
      exact nobody other
  · intro block inside
    rcases changes.owned block inside with own | ⟨old,not⟩
    · exact .inr ⟨name,by rw [update_self]; exact own⟩
    · refine (represents.owners block old).imp id ?_
      rintro ⟨other,own⟩
      have different : other ≠ name := by
        rintro rfl
        exact not own
      exact ⟨other,by rw [update_of_ne different]; exact own⟩

/-! ### One call -/

/-- What a call comes to: vectors that represent the lists, and an answer like that of the lists. -/
def Done (ELEMENTS_PER_BLOCK : ℕ) (start : Memory α) (lists : Lists Name α) (expected : Answer (Option α)) (result : Vectors Name × Answer α)
    (memory : Memory α) : Prop :=
  Represents ELEMENTS_PER_BLOCK start memory result.1 lists ∧ Returns expected result.2

private theorem Represents.modified (represents : Represents ELEMENTS_PER_BLOCK start memory vectors lists) (there : vectors name = some vector)
    {program : Program (Memory α) DeallocatingVector}
    (ends : Ends program memory fun vector' memory' => Holds ELEMENTS_PER_BLOCK memory' vector' l ∧ Changes memory memory' vector.blocks vector'.blocks) :
    Ends (program >>= fun vector' => pure (Function.update vectors name (some vector'),Answer.done)) memory
      (Done ELEMENTS_PER_BLOCK start (Function.update lists name (some l)) .done) := by
  refine ends.bind fun vector' memory' ⟨holds,changes⟩ => ends_pure ⟨represents.update ?_ (.holds holds),.done⟩
  rw [there]
  exact changes

private theorem Represents.declared (represents : Represents ELEMENTS_PER_BLOCK start memory vectors lists) (unknown : ¬ (lists name).isSome = true)
    {program : Program (Memory α) DeallocatingVector}
    (ends : Ends program memory fun vector memory' => Holds ELEMENTS_PER_BLOCK memory' vector l ∧ Changes memory memory' ∅ vector.blocks) :
    Ends (do
      if (vectors name).isSome then failure
      let vector ← program
      return (Function.update vectors name (some vector),Answer.done)) memory
      (Done ELEMENTS_PER_BLOCK start (Function.update lists name (some l)) .done) := by
  have absent := represents.absent unknown
  rw [absent]
  refine ends.bind fun vector memory' ⟨holds,changes⟩ => ends_pure ⟨represents.update ?_ (.holds holds),.done⟩
  rw [absent]
  exact changes

private theorem Represents.swapped (represents : Represents ELEMENTS_PER_BLOCK start memory vectors lists) (name other : Name) :
    Represents ELEMENTS_PER_BLOCK start memory (Function.update (Function.update vectors name (vectors other)) other (vectors name))
      (Function.update (Function.update lists name (lists other)) other (lists name)) := by
  rw [← Equiv.comp_swap_eq_update,← Equiv.comp_swap_eq_update]
  refine ⟨fun x => represents.stands _,fun x y different => represents.apart _ _ fun same => different ((Equiv.swap other name).injective same),?_,?_⟩
  · intro block old
    obtain ⟨inside,cells,nobody⟩ := represents.foreign block old
    exact ⟨inside,cells,fun x => nobody _⟩
  · intro block inside
    refine (represents.owners block inside).imp id ?_
    rintro ⟨x,own⟩
    exact ⟨Equiv.swap other name x,by simpa using own⟩

omit [DecidableEq Name] in
private theorem Represents.returned (represents : Represents ELEMENTS_PER_BLOCK start memory vectors lists) {β : Type} {program : Program (Memory α) β}
    {agrees : β → Prop} {expected : Answer (Option α)} {answer : β → Answer α}
    (ends : Ends program memory fun value memory' => memory' = memory ∧ agrees value)
    (returns : ∀ value, agrees value → Returns expected (answer value)) :
    Ends (program >>= fun value => pure (vectors,answer value)) memory (Done ELEMENTS_PER_BLOCK start lists expected) := by
  refine ends.bind fun value memory' ⟨same,agree⟩ => ends_pure ?_
  rw [same]
  exact ⟨represents,returns value agree⟩

/-- A call does what it does to the lists. -/
private theorem perform_spec {Args : Type} {construct : Args → α} {allocator : Allocator α} {call : Call Name α Args} {lists' : Lists Name α}
    {expected : Answer (Option α)} (positive : 1 ≤ ELEMENTS_PER_BLOCK) (represents : Represents ELEMENTS_PER_BLOCK start memory vectors lists)
    (allowed : onLists construct lists call = some (lists',expected)) :
    Ends (perform ELEMENTS_PER_BLOCK allocator construct vectors call) memory (Done ELEMENTS_PER_BLOCK start lists' expected) := by
  cases call with
  | construct name =>
    rw [onLists] at allowed
    split at allowed
    · cases allowed
    · rename_i unknown
      cases allowed
      exact represents.declared unknown (empty_ends memory)
  | constructFrom name elements =>
    rw [onLists] at allowed
    split at allowed
    · cases allowed
    · rename_i unknown
      cases allowed
      exact represents.declared unknown (fromList_ends positive memory elements)
  | copyConstruct name other =>
    rw [onLists] at allowed
    split at allowed
    · cases allowed
    · rename_i unknown
      obtain ⟨l,known,same⟩ := map_eq_some_iff.mp allowed
      cases same
      obtain ⟨source,there,holds⟩ := represents.found known
      rw [perform,there]
      exact represents.declared unknown (copy_ends positive holds)
  | destroy name =>
    refine represents.with_vector (map_eq_some_iff.mp allowed) fun vector l there holds same => ?_
    cases same
    refine (clear_ends holds).bind fun cleared memory' ⟨_,changes,released⟩ => ends_pure ⟨represents.update ?_ .absent,.done⟩
    rw [there]
    exact changes.congr rfl released
  | assign name other =>
    refine represents.with_vector (bind_eq_some_iff.mp allowed) fun vector l there holds later => ?_
    refine represents.with_vector (map_eq_some_iff.mp later) fun source l' _ holdsOther same => ?_
    cases same
    exact represents.modified there (assign_ends positive holds holdsOther)
  | swap name other =>
    obtain ⟨l,known,later⟩ := bind_eq_some_iff.mp allowed
    obtain ⟨l',knownOther,same⟩ := map_eq_some_iff.mp later
    cases same
    obtain ⟨vector,there,_⟩ := represents.found known
    obtain ⟨vectorOther,thereOther,_⟩ := represents.found knownOther
    have swapped := represents.swapped name other
    rw [there,thereOther,known,knownOther] at swapped
    exact ends_found there (ends_found thereOther (ends_pure ⟨swapped,.done⟩))
  | clear name =>
    refine represents.with_vector (map_eq_some_iff.mp allowed) fun vector l there holds same => ?_
    cases same
    have cleared := (clear_ends holds).mono fun vector' memory' ⟨holds',changes,_⟩ => And.intro holds' changes
    exact represents.modified there cleared
  | push_back name element =>
    refine represents.with_vector (map_eq_some_iff.mp allowed) fun vector l there holds same => ?_
    cases same
    exact represents.modified there (putBack_ends positive holds element)
  | emplace_back name element =>
    refine represents.with_vector (map_eq_some_iff.mp allowed) fun vector l there holds same => ?_
    cases same
    exact represents.modified there (putBack_ends positive holds (construct element))
  | append name elements =>
    refine represents.with_vector (map_eq_some_iff.mp allowed) fun vector l there holds same => ?_
    cases same
    exact represents.modified there (append_ends positive holds elements)
  | appendRange name other first last =>
    obtain ⟨l,known,later⟩ := bind_eq_some_iff.mp allowed
    obtain ⟨l',knownOther,allowed⟩ := bind_eq_some_iff.mp later
    split at allowed
    · rename_i within
      cases allowed
      obtain ⟨vector,there,holds⟩ := represents.found known
      obtain ⟨source,thereOther,holdsOther⟩ := represents.found knownOther
      refine ends_found there (ends_found thereOther (represents.modified there (appendRange_ends positive holds within.1 within.2 ?_)))
      intro vector' memory' more holds' changes position before at_position there'
      by_cases self : name = other
      · -- the iterators point into the vector that grows
        subst self
        obtain rfl : l = l' := some.inj (known.symm.trans knownOther)
        rw [if_pos rfl]
        refine get_ends positive holds' ?_
        rw [List.getElem?_append_left (before.trans_le within.2)]
        exact there'
      · rw [if_neg self]
        have apart := represents.apart other name (Ne.symm self)
        rw [there,thereOther] at apart
        exact get_ends positive (holdsOther.frame changes apart) there'
    · cases allowed
  | resize name new_size =>
    refine represents.with_vector (map_eq_some_iff.mp allowed) fun vector l there holds same => ?_
    cases same
    exact represents.modified there (resize_ends positive holds new_size)
  | set name index element =>
    refine represents.with_vector (bind_eq_some_iff.mp allowed) fun vector l there holds allowed => ?_
    split at allowed
    · rename_i inside
      cases allowed
      refine (set_ends positive holds inside element).bind fun _ memory' ⟨holds',changes⟩ => ends_pure ⟨?_,.done⟩
      have own : Changes memory memory' (owned (vectors name)) (owned (vectors name)) := by
        rw [there]
        exact changes
      have stands : Stands ELEMENTS_PER_BLOCK memory' (vectors name) (some (l.set index (some element))) := by
        rw [there]
        exact .holds holds'
      have updated := represents.update own stands
      rwa [update_eq_self] at updated
    · cases allowed
  | get name index =>
    refine represents.with_vector (bind_eq_some_iff.mp allowed) fun vector l there holds later => ?_
    obtain ⟨a,element,same⟩ := map_eq_some_iff.mp later
    cases same
    exact represents.returned (get_ends positive holds element) fun _ => .element
  | back name =>
    refine represents.with_vector (bind_eq_some_iff.mp allowed) fun vector l there holds later => ?_
    obtain ⟨a,last,same⟩ := map_eq_some_iff.mp later
    cases same
    exact represents.returned (back_ends positive holds last) fun _ => .element
  | size name =>
    refine represents.with_vector (map_eq_some_iff.mp allowed) fun vector l there holds same => ?_
    cases same
    refine ends_pure ⟨represents,?_⟩
    rw [holds.size]
    exact .size _
  | visit name =>
    refine represents.with_vector (map_eq_some_iff.mp allowed) fun vector l there holds same => ?_
    cases same
    exact represents.returned (visited_ends positive holds) fun _ => .elements

/-- Where elements are: each in a bucket that is there, no two at one place, the next one, once there is room, in the last. -/
structure Placed (ELEMENTS_PER_BLOCK : ℕ) (memory : Memory α) (vector : DeallocatingVector) : Prop where
  inside : ∀ index < vector.current_size, ∃ bucket ∈ memory.allocated,
    vector.place ELEMENTS_PER_BLOCK index = some (bucket,index % ELEMENTS_PER_BLOCK)
  apart : ∀ i j spot, vector.place ELEMENTS_PER_BLOCK i = some spot → vector.place ELEMENTS_PER_BLOCK j = some spot → i = j
  next : ∀ allocator, Ends (vector.makeRoom ELEMENTS_PER_BLOCK allocator) memory fun vector' memory' =>
    ∃ bucket ∈ memory'.allocated, vector'.bucket_list.getLast? = some bucket ∧
      vector'.place ELEMENTS_PER_BLOCK vector.current_size = some (bucket,vector.current_size % ELEMENTS_PER_BLOCK)

private theorem placed (positive : 1 ≤ ELEMENTS_PER_BLOCK) (holds : Holds ELEMENTS_PER_BLOCK memory vector l) :
    Placed ELEMENTS_PER_BLOCK memory vector := by
  refine ⟨fun index inside => ?_,fun i j spot => holds.place_injective,fun allocator => ?_⟩
  · rw [holds.size] at inside
    obtain ⟨bucket,allocated,_,place⟩ := holds.place_eq positive inside
    exact ⟨bucket,allocated,place⟩
  · refine (makeRoom_ends positive holds).mono fun vector' memory' ⟨holds',room,_⟩ => ?_
    obtain ⟨bucket,allocated,last,there⟩ := holds'.last_bucket room
    refine ⟨bucket,allocated,last,?_⟩
    rw [holds.size,place,there]
    rfl

variable {Args : Type} {construct : Args → α} {allocator : Allocator α}

private theorem run_spec {calls : List (Call Name α Args)} {lists' : Lists Name α} {expected : List (Answer (Option α))} (positive : 1 ≤ ELEMENTS_PER_BLOCK)
    (represents : Represents ELEMENTS_PER_BLOCK start memory vectors lists) (allowed : runOnLists construct lists calls = some (lists',expected)) :
    Ends (run ELEMENTS_PER_BLOCK allocator construct vectors calls) memory fun result memory' =>
      Represents ELEMENTS_PER_BLOCK start memory' result.1 lists' ∧ List.Forall₂ Returns expected result.2 := by
  induction calls generalizing vectors lists memory expected with
  | nil =>
    cases allowed
    exact ends_pure ⟨represents,.nil⟩
  | cons call calls ih =>
    obtain ⟨⟨lists₁,answer⟩,first,later⟩ := bind_eq_some_iff.mp allowed
    obtain ⟨⟨lists₂,answers⟩,rest,same⟩ := map_eq_some_iff.mp later
    cases same
    refine (perform_spec positive represents first).bind fun result memory₁ ⟨represents₁,returns⟩ => ?_
    refine (ih represents₁ rest).bind fun results memory₂ ⟨represents₂,all⟩ => ends_pure ?_
    exact ⟨represents₂,.cons returns all⟩

/-- Vectors behave as lists: calls that make sense for lists touch no memory that is not there, return what they return for
    lists, and leave each vector as its list, with every element where it belongs. -/
theorem vectors_behave_as_lists {calls : List (Call Name α Args)} {lists : Lists Name α} {expected : List (Answer (Option α))}
    (positive : 1 ≤ ELEMENTS_PER_BLOCK) (memory : Memory α) (allowed : runOnLists construct (fun _ => none) calls = some (lists,expected)) :
    Ends (run ELEMENTS_PER_BLOCK allocator construct (fun _ => none) calls) memory fun result memory' =>
      Represents ELEMENTS_PER_BLOCK memory memory' result.1 lists ∧ List.Forall₂ Returns expected result.2 ∧
        ∀ name vector, result.1 name = some vector → Placed ELEMENTS_PER_BLOCK memory' vector := by
  refine (run_spec positive (represents_start ELEMENTS_PER_BLOCK memory) allowed).mono fun result memory' ⟨represents,returns⟩ => ?_
  refine ⟨represents,returns,fun name vector there => ?_⟩
  have stands := represents.stands name
  rw [there] at stands
  cases known : lists name with
  | none =>
    rw [known] at stands
    cases stands
  | some l =>
    rw [known] at stands
    cases stands with
    | holds holds => exact placed positive holds

end Together

def behind : Allocator ℕ where
  address memory := memory.allocated.sup id + 1
  content _ _ := 0
  fresh memory inside := by
    have le : memory.allocated.sup id + 1 ≤ memory.allocated.sup id := Finset.le_sup (f := id) inside
    omega

/-- One vector grows over two full buckets, is copied, shrinks to the end of a bucket and is appended to itself. -/
def calls : List (Call Bool ℕ ℕ) :=
  [.construct false,.append false [5,6,7,8],.push_back false 9,.copyConstruct true false,.resize false 4,.resize false 6,
    .emplace_back false 3,.resize false 2,.appendRange false false 0 2,.swap false true,.visit true,.back false,.clear true,
    .push_back true 1,.size true]

theorem vectors_behave_as_lists_two : Ends (run 2 behind id (fun _ => none) calls) ⟨∅,fun _ _ => 0⟩ fun result _ =>
    List.Forall₂ Returns [.done,.done,.done,.done,.done,.done,.done,.done,.done,.done,
      .elements [some 5,some 6,some 5,some 6],.element (some 9),.done,.done,.size 1] result.2 := by
  have allowed : ∃ lists, runOnLists id (fun _ => none) calls = some (lists,[.done,.done,.done,.done,.done,.done,.done,.done,.done,.done,
      .elements [some 5,some 6,some 5,some 6],.element (some 9),.done,.done,.size 1]) := ⟨_,rfl⟩
  obtain ⟨lists,allowed⟩ := allowed
  exact (vectors_behave_as_lists (by decide) _ allowed).mono fun result memory ends => ends.2.1

end Osrm.VectorRuns
