import Osrm.SharedRegister

/-!
`osrm-datastore` and the watchdogs of `osrm-routed`. One run at a time fills new regions of shared memory, swaps them
into the register under the mutex of the monitor, removes the old regions and releases their keys.
-/
namespace Osrm.Datastore
open List Option
open SharedRegister SharedRegister.SharedRegionRegister

inductive Part
  | static
  | updatable
  deriving DecidableEq, Repr

def Part.path : Part → Name
  | .static => ['/','s','t','a','t','i','c']
  | .updatable => ['/','u','p','d','a','t','a','b','l','e']
def regionName (dataset_name : Name) (part : Part) : Name := dataset_name ++ part.path

/-- The memory behind a key: for what it was filled, and a number that no other block has. -/
structure Block where
  dataset_name : Name
  part : Part
  number : ℕ
  deriving DecidableEq, Repr

inductive Stage
  /-- The parts that are not set up yet; with none left the data can be swapped. -/
  | setup (parts : List Part)
  /-- The old regions that are not removed yet. -/
  | remove (old_handles : List ShmKey)
  /-- The region that is removed and whose clients are waited for, and those after it. -/
  | detach (key : ShmKey) (old_handles : List ShmKey)
  deriving DecidableEq, Repr

/-- A run of `Storage::Run`, with the register as the run found it, for the record. -/
structure Job where
  dataset_name : Name
  handles : List (Part × ShmKey)
  stage : Stage
  found : SharedRegionRegister
  deriving DecidableEq

/-- A watchdog: where the regions of its dataset are in the register and what it has read there. -/
structure Watchdog where
  dataset_name : Name
  static_region_id : RegionID
  updatable_region_id : RegionID
  static_region : SharedRegion
  updatable_region : SharedRegion
  deriving DecidableEq, Repr

/-- The keys of a dataset right after a completed swap, with the memory behind them. -/
structure Moment where
  dataset_name : Name
  static_key : ShmKey
  static_block : Block
  updatable_key : ShmKey
  updatable_block : Block
  deriving DecidableEq, Repr

/-- The register, the memory behind the keys, the number of blocks so far, the run that holds the datastore lock, the
    watchdogs, and for every dataset the keys after its swaps. -/
structure System where
  register : SharedRegionRegister
  memory : ShmKey → Option Block
  created : ℕ
  job : Option Job
  watchdogs : ℕ → Option Watchdog
  moments : Name → List Moment

def System.initial : System := ⟨.initial,fun _ => none,0,none,fun _ => none,fun _ => []⟩

inductive Event
  | start (dataset_name : Name) (only_metric : Bool)
  | setupRegion
  /-- Reading the layout, allocating the memory, populating the data or waiting for the clients throws. -/
  | throw
  /-- `timed_lock` gives up. -/
  | timeout
  | swapData
  | remove
  | release
  | finish
  /-- The constructor of a watchdog. -/
  | watch (watchdog : ℕ) (dataset_name : Name)
  /-- A turn of the loop of a watchdog. -/
  | wake (watchdog : ℕ)
  | stop (watchdog : ℕ)
  deriving DecidableEq, Repr

/-- The body of the loop of `swapData`: a new name is registered, for a known one the key is exchanged. `none` is an exception. -/
def swapHandle (memory : ShmKey → Option Block) (register : SharedRegionRegister) (name : Name) (key : ShmKey) :
    Option (SharedRegionRegister × Option ShmKey) :=
  match register.Find name with
  | none => (register.Register name key).toOption.map (·,none)
  | some id => (register.GetRegion id).bind fun region =>
      if (memory region.shm_key).isSome then some (register.update id region key,some region.shm_key) else none

/-- The loop of `swapData` over the handles. Where it throws, the regions that were written stay written. -/
def swapHandles (memory : ShmKey → Option Block) :
    SharedRegionRegister → List ShmKey → List (Name × ShmKey) → SharedRegionRegister × Option (List ShmKey)
  | register, old_handles, [] => (register,some old_handles)
  | register, old_handles, handle :: handles =>
    match swapHandle memory register handle.1 handle.2 with
    | none => (register,none)
    | some swapped => swapHandles memory swapped.1 (old_handles ++ swapped.2.toList) handles

def Job.named (job : Job) : List (Name × ShmKey) :=
  job.handles.map fun handle => (regionName job.dataset_name handle.1,handle.2)

/-- What the constructor of a watchdog reads in the register; it throws where a region is not found. -/
def readRegions (register : SharedRegionRegister) (dataset_name : Name) : Option Watchdog := do
  let static_region_id ← register.Find (regionName dataset_name .static)
  let updatable_region_id ← register.Find (regionName dataset_name .updatable)
  let static_region ← register.GetRegion static_region_id
  let updatable_region ← register.GetRegion updatable_region_id
  pure ⟨dataset_name,static_region_id,updatable_region_id,static_region,updatable_region⟩

/-- The keys that are registered for a dataset, with the memory behind them. -/
def registered (memory : ShmKey → Option Block) (register : SharedRegionRegister) (dataset_name : Name) : Option Moment := do
  let read ← readRegions register dataset_name
  let static_block ← memory read.static_region.shm_key
  let updatable_block ← memory read.updatable_region.shm_key
  pure ⟨dataset_name,read.static_region.shm_key,static_block,read.updatable_region.shm_key,updatable_block⟩

/-- Whether the constructor of `DataFacadeFactory` returns: there is memory behind both keys, and what is in it has
    the properties of the static part and the metrics of the updatable part. It throws where a block is missing. -/
def facade (memory : ShmKey → Option Block) (w : Watchdog) : Bool :=
  match memory w.static_region.shm_key, memory w.updatable_region.shm_key with
  | some b, some b' => [Part.static,.updatable].all fun part => b.part == part || b'.part == part
  | _, _ => false

namespace System
variable (s : System)

def start (dataset_name : Name) (only_metric : Bool) : Option System :=
  match s.job with
  | some _ => none
  | none =>
    if only_metric then
      -- without a static region, or without the memory behind it, the run throws before it has changed anything
      match (s.register.Find (regionName dataset_name .static)).bind s.register.GetRegion with
      | none => some s
      | some region =>
        if (s.memory region.shm_key).isSome then
          some { s with job := some ⟨dataset_name,[],.setup [.updatable],s.register⟩ }
        else some s
    else some { s with job := some ⟨dataset_name,[],.setup [.static,.updatable],s.register⟩ }

/-- `setupRegion`; an old region behind the key is removed before the new one is created. -/
def setupRegion : Option System := s.job.bind fun job =>
  match job.stage with
  | .setup (part :: parts) =>
    match s.register.ReserveKey with
    | .error _ => some { s with job := none }
    | .ok reserved =>
      some { s with
        register := reserved.2
        memory := Function.update s.memory reserved.1 (some ⟨job.dataset_name,part,s.created⟩)
        created := s.created + 1
        job := some { job with handles := job.handles ++ [(part,reserved.1)], stage := .setup parts } }
  | _ => none

/-- An exception. Once the last old region is released nothing is left that throws. -/
def throw : Option System := s.job.bind fun job =>
  match job.stage with
  | .remove [] => none
  | _ => some { s with job := none }

def timeout : Option System := s.job.bind fun job =>
  match job.stage with
  | .setup [] =>
    some { s with
      memory := job.handles.foldl (fun memory handle => Function.update memory handle.2 none) s.memory
      job := none }
  | _ => none

def swapData : Option System := s.job.bind fun job =>
  match job.stage with
  | .setup [] =>
    let swapped := swapHandles s.memory s.register [] job.named
    match swapped.2 with
    | none => some { s with register := swapped.1, job := none }
    | some old_handles =>
      some { s with
        register := swapped.1
        job := some { job with stage := .remove old_handles }
        moments := fun dataset_name => s.moments dataset_name ++ (registered s.memory swapped.1 dataset_name).toList }
  | _ => none

def remove : Option System := s.job.bind fun job =>
  match job.stage with
  | .remove (key :: old_handles) =>
    some { s with memory := Function.update s.memory key none, job := some { job with stage := .detach key old_handles } }
  | _ => none

/-- `ReleaseKey`, after a wait for the clients that may end at any time. -/
def release : Option System := s.job.bind fun job =>
  match job.stage with
  | .detach key old_handles =>
    some { s with register := s.register.ReleaseKey key, job := some { job with stage := .remove old_handles } }
  | _ => none

def finish : Option System := s.job.bind fun job =>
  match job.stage with
  | .remove [] => some { s with job := none }
  | _ => none

/-- A watchdog that has read the regions whose timestamps have changed. -/
def reread (w : Watchdog) : Option Watchdog := do
  let static_region ← s.register.GetRegion w.static_region_id
  let updatable_region ← s.register.GetRegion w.updatable_region_id
  if w.static_region.timestamp == static_region.timestamp && w.updatable_region.timestamp == updatable_region.timestamp then none
  else pure { w with
    static_region := if w.static_region.timestamp != static_region.timestamp then static_region else w.static_region
    updatable_region :=
      if w.updatable_region.timestamp != updatable_region.timestamp then updatable_region else w.updatable_region }

/-- What a watchdog reads in the register under the mutex, before it makes the facade. -/
def reads : Event → Option (ℕ × Watchdog)
  | .watch i dataset_name => (readRegions s.register dataset_name).map (i,·)
  | .wake i => ((s.watchdogs i).bind s.reread).map (i,·)
  | _ => none

/-- The watchdog that an event leaves with a new facade. -/
def builds (event : Event) : Option (ℕ × Watchdog) := (s.reads event).filter fun read => facade s.memory read.2

def step (event : Event) : Option System :=
  match event with
  | .start dataset_name only_metric => s.start dataset_name only_metric
  | .setupRegion => s.setupRegion
  | .throw => s.throw
  | .timeout => s.timeout
  | .swapData => s.swapData
  | .remove => s.remove
  | .release => s.release
  | .finish => s.finish
  | .watch i dataset_name =>
    (s.builds (.watch i dataset_name)).map fun built => { s with watchdogs := Function.update s.watchdogs i (some built.2) }
  | .wake i =>
    match s.reads (.wake i) with
    | none => some s
    -- the exception leaves the thread, and with it the process ends
    | some _ => some { s with watchdogs := Function.update s.watchdogs i ((s.builds (.wake i)).map (·.2)) }
  | .stop i => some { s with watchdogs := Function.update s.watchdogs i none }

end System

def runFrom (s : System) : List Event → Option System
  | [] => some s
  | event :: events => (s.step event).bind fun next => runFrom next events
def run (events : List Event) : Option System := runFrom .initial events

theorem regionName_ne_nil (dataset_name : Name) (part : Part) : (regionName dataset_name part).take MAX_NAME_LENGTH ≠ [] := by
  cases part <;> cases dataset_name <;> simp [regionName,Part.path,MAX_NAME_LENGTH]

/-- What the swap of a handle does to the register: one place changes, that of its name or one that held nothing. -/
structure Swapped (memory : ShmKey → Option Block) (register after : SharedRegionRegister) (name : Name) (key : ShmKey)
    (old : Option ShmKey) (id : RegionID) (region : SharedRegion) : Prop where
  keys : after.shm_key_in_use = register.shm_key_in_use
  before : register.regions[id]? = some region
  regions : ∀ i : RegionID, after.regions[i]? =
    if i = id then some ⟨name.take MAX_NAME_LENGTH,region.timestamp + 1,key⟩ else register.regions[i]?
  found : old = none ∧ region.timestamp = 0 ∧
      (∀ (i : RegionID) r, register.regions[i]? = some r → r.name ≠ name.take MAX_NAME_LENGTH) ∨
    old = some region.shm_key ∧ region.name = name.take MAX_NAME_LENGTH ∧ (memory region.shm_key).isSome = true

variable {memory : ShmKey → Option Block} {register after : SharedRegionRegister} {name : Name} {key k : ShmKey}
  {old : Option ShmKey} {s s' : System} {event : Event} {id : RegionID} {region : SharedRegion}

/-- A handle is swapped in where nothing throws. -/
theorem swapHandle_spec (swapped : swapHandle memory register name key = some (after,old)) :
    ∃ id region, Swapped memory register after name key old id region := by
  unfold swapHandle at swapped
  cases find : register.Find name with
  | none =>
    simp only [find] at swapped
    cases made : register.Register name key with
    | error message => simp [made,Except.toOption] at swapped
    | ok result =>
      simp only [made,Except.toOption,map_some,some.injEq,Prod.mk.injEq] at swapped
      obtain ⟨rfl,rfl⟩ := swapped
      obtain ⟨keys,id,region,before,empty,regions⟩ := register_spec made
      refine ⟨id,region,keys,before,?_,.inl ⟨rfl,empty,fun i r there => find_none find there⟩⟩
      rw [empty]
      exact regions
  | some id =>
    obtain ⟨region,before,same⟩ := find_some find
    simp only [find,GetRegion,before,bind_some] at swapped
    split at swapped
    · rename_i present
      simp only [some.injEq,Prod.mk.injEq] at swapped
      obtain ⟨rfl,rfl⟩ := swapped
      obtain ⟨keys,regions⟩ := @update_spec register key id region before
      refine ⟨id,region,keys,before,?_,.inr ⟨rfl,same,present⟩⟩
      rw [← same]
      exact regions
    · simp at swapped

/-! ### The keys -/

def Job.held (job : Job) : List ShmKey :=
  match job.stage with
  | .setup _ => job.handles.map (·.2)
  | .remove old_handles => old_handles
  | .detach key old_handles => key :: old_handles

def System.held (s : System) : List ShmKey := (s.job.map Job.held).getD []

/-- Every region has a key of its own, and the keys of a list are reserved but in no region. -/
structure Pool (register : SharedRegionRegister) (held : List ShmKey) : Prop where
  unnamed : ∀ (i : RegionID) r, register.regions[i]? = some r → r.timestamp = 0 → r.name = []
  used : ∀ i r, register.Holds i r → register.InUse r.shm_key
  apart : ∀ i j r r', register.Holds i r → register.Holds j r' → r.shm_key = r'.shm_key → i = j
  reserved : ∀ key ∈ held, register.InUse key
  free : ∀ key ∈ held, ¬ register.Registered key
  nodup : held.Nodup

def Accounted (register : SharedRegionRegister) (held : List ShmKey) : Prop :=
  ∀ key, register.InUse key → register.Registered key ∨ key ∈ held

private theorem Swapped.inUse (swapped : Swapped memory register after name key old id region) (k : ShmKey) :
    after.InUse k ↔ register.InUse k := by
  simp only [InUse,swapped.keys]

theorem Swapped.holds (swapped : Swapped memory register after name key old id region) (i : RegionID) (r : SharedRegion) :
    after.Holds i r ↔ i = id ∧ r = ⟨name.take MAX_NAME_LENGTH,region.timestamp + 1,key⟩ ∨ i ≠ id ∧ register.Holds i r := by
  unfold Holds
  rw [swapped.regions i]
  by_cases same : i = id
  · simp only [same,if_true,some.injEq,true_and,ne_eq,not_true_eq_false,false_and,or_false]
    constructor
    · rintro ⟨rfl,_⟩
      rfl
    · rintro rfl
      exact ⟨rfl,Nat.succ_ne_zero _⟩
  · simp [same]

theorem Swapped.live (swapped : Swapped memory register after name key old id region) {held : List ShmKey}
    (pool : Pool register held) (nonempty : name.take MAX_NAME_LENGTH ≠ []) (was : old = some k) :
    register.Holds id region ∧ region.shm_key = k := by
  rcases swapped.found with ⟨rfl,_⟩ | ⟨rfl,same,_⟩
  · simp at was
  · exact ⟨⟨swapped.before,fun zero => nonempty (same ▸ pool.unnamed id region swapped.before zero)⟩,some.inj was⟩

private theorem Swapped.registered (swapped : Swapped memory register after name key old id region) {held : List ShmKey}
    (pool : Pool register held) (nonempty : name.take MAX_NAME_LENGTH ≠ []) (k : ShmKey) :
    after.Registered k ↔ k = key ∨ register.Registered k ∧ old ≠ some k := by
  have holds := swapped.holds
  have oldKey : ∀ i r, register.Holds i r → (i = id ↔ old = some r.shm_key) := by
    intro i r holdsR
    rcases swapped.found with ⟨rfl,empty,_⟩ | ⟨rfl,_⟩
    · simp only [reduceCtorEq,iff_false]
      rintro rfl
      have := some.inj (swapped.before.symm.trans holdsR.1)
      exact holdsR.2 (this ▸ empty)
    · constructor
      · rintro rfl
        rw [some.inj (swapped.before.symm.trans holdsR.1)]
      · intro was
        obtain ⟨live,sameKey⟩ := swapped.live pool nonempty was
        exact (pool.apart id i region r live holdsR sameKey).symm
  constructor
  · rintro ⟨i,r,holdsR,rfl⟩
    rcases (holds i r).mp holdsR with ⟨_,rfl⟩ | ⟨other,older⟩
    · exact .inl rfl
    · exact .inr ⟨⟨i,r,older,rfl⟩,fun was => other ((oldKey i r older).mpr was)⟩
  · rintro (rfl | ⟨⟨i,r,older,rfl⟩,kept⟩)
    · exact ⟨id,_,(holds _ _).mpr (.inl ⟨rfl,rfl⟩),rfl⟩
    · exact ⟨i,r,(holds _ _).mpr (.inr ⟨fun same => kept ((oldKey i r older).mp same),older⟩),rfl⟩

theorem Swapped.pool (swapped : Swapped memory register after name key old id region)
    (nonempty : name.take MAX_NAME_LENGTH ≠ []) {old_handles keys : List ShmKey}
    (pool : Pool register (old_handles ++ key :: keys)) : Pool after (old_handles ++ old.toList ++ keys) := by
  have holds := swapped.holds
  have inUse := swapped.inUse
  have registered := swapped.registered pool nonempty
  have nodup := pool.nodup
  have fresh : ¬ register.Registered key := pool.free key (by simp)
  have mem : ∀ k ∈ old_handles ++ old.toList ++ keys, (k ∈ old_handles ++ key :: keys ∧ k ≠ key) ∨
      old = some k ∧ register.Registered k := by
    intro k member
    rw [append_assoc,mem_append,mem_append] at member
    rw [nodup_append,nodup_cons] at nodup
    rcases member with early | given | late
    · exact .inl ⟨by simp [early],fun same => nodup.2.2 k early key (by simp) same⟩
    · have was := mem_toList.mp given
      exact .inr ⟨was,id,region,swapped.live pool nonempty was⟩
    · exact .inl ⟨by simp [late],fun same => nodup.2.1.1 (same ▸ late)⟩
  refine ⟨?_,?_,?_,?_,?_,?_⟩
  · intro i r there empty
    rw [swapped.regions i] at there
    by_cases same : i = id
    · rw [if_pos same,some.injEq] at there
      rw [← there] at empty
      exact absurd empty (Nat.succ_ne_zero _)
    · rw [if_neg same] at there
      exact pool.unnamed i r there empty
  · intro i r holdsR
    rw [inUse]
    rcases (holds i r).mp holdsR with ⟨_,rfl⟩ | ⟨_,older⟩
    · exact pool.reserved key (by simp)
    · exact pool.used i r older
  · intro i j r r' one two same
    rcases (holds i r).mp one with ⟨rfl,rfl⟩ | ⟨_,older⟩
    · rcases (holds j r').mp two with ⟨rfl,_⟩ | ⟨_,older'⟩
      · rfl
      · exact absurd ⟨j,r',older',same.symm⟩ fresh
    · rcases (holds j r').mp two with ⟨_,rfl⟩ | ⟨_,older'⟩
      · exact absurd ⟨i,r,older,same⟩ fresh
      · exact pool.apart i j r r' older older' same
  · intro k member
    rw [inUse]
    rcases mem k member with ⟨inside,_⟩ | ⟨_,i,r,older,rfl⟩
    · exact pool.reserved k inside
    · exact pool.used i r older
  · intro k member now
    rcases mem k member with ⟨inside,other⟩ | ⟨was,_⟩
    · rcases (registered k).mp now with same | ⟨older,_⟩
      · exact other same
      · exact pool.free k inside older
    · rcases (registered k).mp now with rfl | ⟨_,kept⟩
      · exact (mem k member).elim (fun inside => inside.2 rfl) fun given => fresh given.2
      · exact kept was
  · have apart : ∀ k, old = some k → k ∉ old_handles ∧ k ∉ keys := by
      intro k was
      have older : register.Registered k := ⟨id,region,swapped.live pool nonempty was⟩
      exact ⟨fun early => pool.free k (by simp [early]) older,fun late => pool.free k (by simp [late]) older⟩
    rw [nodup_append,nodup_cons] at nodup
    rw [nodup_append,nodup_append]
    refine ⟨⟨nodup.1,?_,?_⟩,nodup.2.1.2,?_⟩
    · cases old <;> simp
    · rintro a early b given rfl
      exact (apart a (mem_toList.mp given)).1 early
    · rintro a front b late rfl
      rcases mem_append.mp front with early | given
      · exact nodup.2.2 a early a (mem_cons_of_mem _ late) rfl
      · exact (apart a (mem_toList.mp given)).2 late

theorem swapHandles_pool (handles : List (Name × ShmKey)) (names : ∀ handle ∈ handles, handle.1.take MAX_NAME_LENGTH ≠ [])
    {old_handles : List ShmKey} (pool : Pool register (old_handles ++ handles.map (·.2))) :
    (∀ k, (swapHandles memory register old_handles handles).1.InUse k ↔ register.InUse k) ∧
    (∀ result, (swapHandles memory register old_handles handles).2 = some result →
      Pool (swapHandles memory register old_handles handles).1 result ∧
      (Accounted register (old_handles ++ handles.map (·.2)) →
        Accounted (swapHandles memory register old_handles handles).1 result)) ∧
    ((swapHandles memory register old_handles handles).2 = none →
      Pool (swapHandles memory register old_handles handles).1 [] ∧
      ¬ Accounted (swapHandles memory register old_handles handles).1 []) := by
  induction handles generalizing register old_handles with
  | nil =>
    simp only [map_nil,append_nil] at pool
    refine ⟨fun _ => Iff.rfl,?_,by simp [swapHandles]⟩
    intro result same
    obtain rfl : old_handles = result := by simpa [swapHandles] using same
    exact ⟨pool,by simp [swapHandles]⟩
  | cons handle handles ih =>
    rw [map_cons] at pool ⊢
    have nonempty := names handle (by simp)
    rw [swapHandles]
    cases swap : swapHandle memory register handle.1 handle.2 with
    | none =>
      refine ⟨fun _ => Iff.rfl,by simp,fun _ => ⟨⟨pool.unnamed,pool.used,pool.apart,by simp,by simp,.nil⟩,?_⟩⟩
      intro accounted
      have lost := accounted handle.2 (pool.reserved handle.2 (by simp))
      simp only [not_mem_nil,or_false] at lost
      exact pool.free handle.2 (by simp) lost
    | some swapped =>
      obtain ⟨id,region,spec⟩ := swapHandle_spec swap
      obtain ⟨uses,done,thrown⟩ := ih (fun h member => names h (mem_cons_of_mem _ member)) (spec.pool nonempty pool)
      refine ⟨fun k => (uses k).trans (spec.inUse k),?_,thrown⟩
      intro result same
      refine ⟨(done result same).1,fun accounted => (done result same).2 ?_⟩
      intro k inUse
      rw [spec.registered pool nonempty]
      rcases accounted k ((spec.inUse k).mp inUse) with registered | member
      · by_cases was : swapped.2 = some k
        · simp [was]
        · exact .inl (.inr ⟨registered,was⟩)
      · rcases mem_append.mp member with early | late
        · simp [early]
        · rcases mem_cons.mp late with rfl | later
          · exact .inl (.inl rfl)
          · simp [mem_map.mp later]

/-! ### The events -/

theorem start_cases {dataset_name : Name} {only_metric : Bool} (next : s.start dataset_name only_metric = some s') :
    s.job = none ∧ (s' = s ∨ ∃ parts, s' = { s with job := some ⟨dataset_name,[],.setup parts,s.register⟩ }) := by
  unfold System.start at next
  cases job : s.job with
  | some job => simp [job] at next
  | none =>
    simp only [job] at next
    refine ⟨rfl,?_⟩
    by_cases metric : only_metric = true
    · rw [if_pos metric] at next
      split at next
      · exact .inl (some.inj next).symm
      · split at next
        · exact .inr ⟨_,(some.inj next).symm⟩
        · exact .inl (some.inj next).symm
    · rw [if_neg metric] at next
      exact .inr ⟨_,(some.inj next).symm⟩

theorem setupRegion_cases (next : s.setupRegion = some s') :
    ∃ job part parts, s.job = some job ∧ job.stage = .setup (part :: parts) ∧
      ((∃ message, s.register.ReserveKey = .error message) ∧ s' = { s with job := none } ∨
        ∃ key register, s.register.ReserveKey = .ok (key,register) ∧ s' = { s with
          register
          memory := Function.update s.memory key (some ⟨job.dataset_name,part,s.created⟩)
          created := s.created + 1
          job := some { job with handles := job.handles ++ [(part,key)], stage := .setup parts } }) := by
  obtain ⟨job,running,next⟩ := bind_eq_some_iff.mp next
  cases stage : job.stage with
  | setup parts =>
    cases parts with
    | nil => simp [stage] at next
    | cons part parts =>
      refine ⟨job,part,parts,running,stage,?_⟩
      simp only [stage] at next
      cases reserve : s.register.ReserveKey with
      | error message =>
        simp only [reserve,some.injEq] at next
        exact .inl ⟨⟨message,rfl⟩,next.symm⟩
      | ok reserved =>
        simp only [reserve,some.injEq] at next
        exact .inr ⟨reserved.1,reserved.2,rfl,next.symm⟩
  | remove old_handles => simp [stage] at next
  | detach key old_handles => simp [stage] at next

theorem throw_cases (next : s.throw = some s') :
    ∃ job, s.job = some job ∧ job.stage ≠ .remove [] ∧ s' = { s with job := none } := by
  obtain ⟨job,running,next⟩ := bind_eq_some_iff.mp next
  split at next
  · simp at next
  · rename_i other
    exact ⟨job,running,other,(some.inj next).symm⟩

theorem timeout_cases (next : s.timeout = some s') :
    ∃ job, s.job = some job ∧ job.stage = .setup [] ∧ s' = { s with
      memory := job.handles.foldl (fun memory handle => Function.update memory handle.2 none) s.memory
      job := none } := by
  obtain ⟨job,running,next⟩ := bind_eq_some_iff.mp next
  split at next
  · rename_i stage
    exact ⟨job,running,stage,(some.inj next).symm⟩
  · simp at next

theorem swapData_cases (next : s.swapData = some s') :
    ∃ job, s.job = some job ∧ job.stage = .setup [] ∧
      ((swapHandles s.memory s.register [] job.named).2 = none ∧
          s' = { s with register := (swapHandles s.memory s.register [] job.named).1, job := none } ∨
        ∃ old_handles, (swapHandles s.memory s.register [] job.named).2 = some old_handles ∧ s' = { s with
          register := (swapHandles s.memory s.register [] job.named).1
          job := some { job with stage := .remove old_handles }
          moments := fun dataset_name => s.moments dataset_name ++
            (registered s.memory (swapHandles s.memory s.register [] job.named).1 dataset_name).toList }) := by
  obtain ⟨job,running,next⟩ := bind_eq_some_iff.mp next
  split at next
  · rename_i stage
    refine ⟨job,running,stage,?_⟩
    dsimp only at next
    split at next
    · rename_i thrown
      exact .inl ⟨thrown,(some.inj next).symm⟩
    · rename_i old_handles done
      exact .inr ⟨old_handles,done,(some.inj next).symm⟩
  · simp at next

theorem remove_cases (next : s.remove = some s') :
    ∃ job key old_handles, s.job = some job ∧ job.stage = .remove (key :: old_handles) ∧ s' = { s with
      memory := Function.update s.memory key none
      job := some { job with stage := .detach key old_handles } } := by
  obtain ⟨job,running,next⟩ := bind_eq_some_iff.mp next
  split at next
  · rename_i key old_handles stage
    exact ⟨job,key,old_handles,running,stage,(some.inj next).symm⟩
  · simp at next

theorem release_cases (next : s.release = some s') :
    ∃ job key old_handles, s.job = some job ∧ job.stage = .detach key old_handles ∧ s' = { s with
      register := s.register.ReleaseKey key
      job := some { job with stage := .remove old_handles } } := by
  obtain ⟨job,running,next⟩ := bind_eq_some_iff.mp next
  split at next
  · rename_i key old_handles stage
    exact ⟨job,key,old_handles,running,stage,(some.inj next).symm⟩
  · simp at next

theorem finish_cases (next : s.finish = some s') :
    ∃ job, s.job = some job ∧ job.stage = .remove [] ∧ s' = { s with job := none } := by
  obtain ⟨job,running,next⟩ := bind_eq_some_iff.mp next
  split at next
  · rename_i stage
    exact ⟨job,running,stage,(some.inj next).symm⟩
  · simp at next

def Event.watches : Event → Bool
  | .watch _ _ | .wake _ | .stop _ => true
  | _ => false

theorem watches_cases (watches : event.watches = true) (next : s.step event = some s') :
    s' = { s with watchdogs := s'.watchdogs } := by
  cases event with
  | watch i dataset_name =>
    obtain ⟨built,_,rfl⟩ := map_eq_some_iff.mp next
    rfl
  | wake i =>
    simp only [System.step] at next
    split at next <;> cases next <;> rfl
  | stop i =>
    cases next
    rfl
  | _ => simp [Event.watches] at watches

end Osrm.Datastore
