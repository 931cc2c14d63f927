import Osrm.Datastore

/-!
The keys of the register over whole runs. Every region has a key that is in use; what else is in use is
held by the run that goes on, unless an earlier run ended while it held keys.
-/
namespace Osrm.DatastoreKeys
open List Option
open SharedRegister SharedRegister.SharedRegionRegister Datastore

variable {memory : ShmKey → Option Block} {register after : SharedRegionRegister} {name : Name} {key k : ShmKey}
  {old : Option ShmKey} {s s' : System} {event : Event} {id : RegionID} {region : SharedRegion} {held : List ShmKey}

/-! ### Room for new names -/

def unregistered (register : SharedRegionRegister) (names : List Name) : Finset Name :=
  (names.map (·.take MAX_NAME_LENGTH)).toFinset.filter fun name => register.Find name = none
/-- Every name of a list that is not registered yet can have an empty region of its own. -/
def Room (register : SharedRegionRegister) (names : List Name) : Prop :=
  (unregistered register names).card ≤ register.regions.countP SharedRegion.IsEmpty

private theorem find_none_iff : register.Find name = none ↔
    ∀ (i : RegionID) r, register.regions[i]? = some r → r.name ≠ name.take MAX_NAME_LENGTH := by
  constructor
  · intro missing i r there
    exact find_none missing there
  · intro none
    refine findIdx?_eq_none_iff.mpr fun r member => ?_
    obtain ⟨i,there⟩ := mem_iff_getElem?.mp member
    simpa using none i r there

private theorem swapped_set (swapped : Swapped memory register after name key old id region) :
    after.regions = register.regions.set id ⟨name.take MAX_NAME_LENGTH,region.timestamp + 1,key⟩ := by
  have inside := (List.getElem?_eq_some_iff.mp swapped.before).1
  apply ext_getElem?
  intro i
  rw [swapped.regions i,getElem?_set]
  by_cases same : i = id
  · subst same
    simp [inside]
  · simp [same,Ne.symm same]

private theorem swapped_empty (swapped : Swapped memory register after name key old id region) (pool : Pool register held)
    (nonempty : name.take MAX_NAME_LENGTH ≠ []) :
    after.regions.countP SharedRegion.IsEmpty + (if old = none then 1 else 0) = register.regions.countP SharedRegion.IsEmpty := by
  obtain ⟨inside,there⟩ := List.getElem?_eq_some_iff.mp swapped.before
  have count := boole_getElem_le_countP (p := SharedRegion.IsEmpty) inside
  rw [swapped_set swapped,countP_set inside]
  rw [there] at count ⊢
  rcases swapped.found with ⟨rfl,empty,_⟩ | ⟨rfl,same,_⟩
  · simp only [SharedRegion.IsEmpty,empty,beq_self_eq_true,if_true] at count
    simp only [SharedRegion.IsEmpty,empty,beq_self_eq_true,if_true,Nat.reduceAdd,Nat.reduceBEq,Bool.false_eq_true,if_false]
    omega
  · have live : region.timestamp ≠ 0 := fun zero => nonempty (same ▸ pool.unnamed id region swapped.before zero)
    simp [SharedRegion.IsEmpty,live]

private theorem swapped_find (swapped : Swapped memory register after name key old id region) (pool : Pool register held)
    {sought : Name} (nonempty : sought.take MAX_NAME_LENGTH ≠ []) :
    after.Find sought = none ↔ register.Find sought = none ∧ sought.take MAX_NAME_LENGTH ≠ name.take MAX_NAME_LENGTH := by
  rw [find_none_iff,find_none_iff]
  constructor
  · intro missing
    have other := missing id _ (by rw [swapped.regions id,if_pos rfl])
    refine ⟨?_,Ne.symm other⟩
    intro i r there
    by_cases same : i = id
    · subst same
      obtain rfl := some.inj (swapped.before.symm.trans there)
      rcases swapped.found with ⟨_,empty,_⟩ | ⟨_,named,_⟩
      · rw [pool.unnamed i region there empty]
        exact Ne.symm nonempty
      · rw [named]
        exact other
    · exact missing i r (by rw [swapped.regions i,if_neg same,there])
  · rintro ⟨missing,other⟩ i r there
    rw [swapped.regions i] at there
    by_cases same : i = id
    · rw [if_pos same,some.injEq] at there
      rw [← there]
      exact Ne.symm other
    · rw [if_neg same] at there
      exact missing i r there

private theorem swapped_stored (swapped : Swapped memory register after name key old id region)
    (stored : ∀ i r, register.Holds i r → (memory r.shm_key).isSome = true) (filled : (memory key).isSome = true)
    (i : RegionID) (r : SharedRegion) (holds : after.Holds i r) : (memory r.shm_key).isSome = true := by
  rcases (swapped.holds i r).mp holds with ⟨_,rfl⟩ | ⟨_,older⟩
  · exact filled
  · exact stored i r older

theorem swapHandle_throws (pool : Pool register held) (stored : ∀ i r, register.Holds i r → (memory r.shm_key).isSome = true)
    (nonempty : name.take MAX_NAME_LENGTH ≠ []) (thrown : swapHandle memory register name key = none) :
    register.Find name = none ∧ register.regions.countP SharedRegion.IsEmpty = 0 := by
  unfold swapHandle at thrown
  cases find : register.Find name with
  | none =>
    refine ⟨rfl,?_⟩
    simp only [find,Register] at thrown
    cases found : register.regions.findIdx? SharedRegion.IsEmpty with
    | none =>
      rw [countP_eq_zero]
      intro r member
      simpa using findIdx?_eq_none_iff.mp found r member
    | some id => simp [found,Except.toOption] at thrown
  | some id =>
    obtain ⟨region,before,same⟩ := find_some find
    have live : region.timestamp ≠ 0 := fun zero => nonempty (same ▸ pool.unnamed id region before zero)
    simp [find,GetRegion,before,stored id region ⟨before,live⟩] at thrown

private theorem mem_unregistered {names : List Name} {stored : Name} :
    stored ∈ unregistered register names ↔ ∃ n ∈ names, n.take MAX_NAME_LENGTH = stored ∧ register.Find n = none := by
  have cut : ∀ n : Name, register.Find (n.take MAX_NAME_LENGTH) = register.Find n := by
    intro n
    simp only [Find,take_take,Nat.min_self]
  simp only [unregistered,Finset.mem_filter,List.mem_toFinset,List.mem_map]
  constructor
  · rintro ⟨⟨n,member,rfl⟩,missing⟩
    exact ⟨n,member,rfl,cut n ▸ missing⟩
  · rintro ⟨n,member,rfl,missing⟩
    exact ⟨⟨n,member,rfl⟩,(cut n).trans missing⟩

private theorem unregistered_swapped (swapped : Swapped memory register after name key old id region) (pool : Pool register held)
    {names : List Name} (nonempty : ∀ n ∈ names, n.take MAX_NAME_LENGTH ≠ []) :
    unregistered after names = (unregistered register (name :: names)).erase (name.take MAX_NAME_LENGTH) := by
  ext stored
  rw [Finset.mem_erase,mem_unregistered,mem_unregistered]
  constructor
  · rintro ⟨n,member,rfl,missing⟩
    obtain ⟨earlier,other⟩ := (swapped_find swapped pool (nonempty n member)).mp missing
    exact ⟨other,n,mem_cons_of_mem _ member,rfl,earlier⟩
  · rintro ⟨other,n,member,rfl,missing⟩
    rcases mem_cons.mp member with rfl | member
    · exact absurd rfl other
    · exact ⟨n,member,rfl,(swapped_find swapped pool (nonempty n member)).mpr ⟨missing,other⟩⟩

private theorem swapHandles_throws_iff (handles : List (Name × ShmKey)) (names : ∀ handle ∈ handles, handle.1.take MAX_NAME_LENGTH ≠ [])
    {old_handles : List ShmKey} (pool : Pool register (old_handles ++ handles.map (·.2)))
    (stored : ∀ i r, register.Holds i r → (memory r.shm_key).isSome = true)
    (filled : ∀ handle ∈ handles, (memory handle.2).isSome = true) :
    (swapHandles memory register old_handles handles).2 = none ↔ ¬ Room register (handles.map (·.1)) := by
  induction handles generalizing register old_handles with
  | nil => simp [swapHandles,Room,unregistered]
  | cons handle handles ih =>
    rw [map_cons] at pool ⊢
    have nonempty := names handle (by simp)
    have others : ∀ h ∈ handles, h.1.take MAX_NAME_LENGTH ≠ [] := fun h member => names h (mem_cons_of_mem _ member)
    have new : handle.1.take MAX_NAME_LENGTH ∈ unregistered register (handle.1 :: handles.map (·.1)) ↔
        register.Find handle.1 = none := by
      rw [mem_unregistered]
      constructor
      · rintro ⟨n,_,same,missing⟩
        unfold Find at missing ⊢
        rw [← same]
        exact missing
      · intro missing
        exact ⟨handle.1,by simp,rfl,missing⟩
    rw [swapHandles]
    cases swap : swapHandle memory register handle.1 handle.2 with
    | none =>
      obtain ⟨missing,full⟩ := swapHandle_throws pool stored nonempty swap
      have some := Finset.card_pos.mpr ⟨_,new.mpr missing⟩
      simp only [Room,full,true_iff]
      omega
    | some swapped =>
      obtain ⟨id,region,spec⟩ := swapHandle_spec swap
      have keep := swapped_stored spec stored (filled handle (by simp))
      dsimp only
      rw [ih others (spec.pool nonempty pool) keep fun h member => filled h (mem_cons_of_mem _ member)]
      have count := swapped_empty spec pool nonempty
      have names' : ∀ n ∈ handles.map (·.1), n.take MAX_NAME_LENGTH ≠ [] := by
        intro n member
        obtain ⟨h,inside,rfl⟩ := mem_map.mp member
        exact others h inside
      have left := unregistered_swapped spec pool names'
      unfold Room
      rw [left]
      rcases spec.found with ⟨fresh,_,missing⟩ | ⟨found,same,_⟩
      · have inside := new.mpr (find_none_iff.mpr missing)
        have some := Finset.card_pos.mpr ⟨_,inside⟩
        rw [Finset.card_erase_of_mem inside]
        rw [fresh,if_pos rfl] at count
        omega
      · have outside : handle.1.take MAX_NAME_LENGTH ∉ unregistered register (handle.1 :: handles.map (·.1)) := by
          rw [new]
          intro missing
          exact find_none_iff.mp missing id region spec.before same
        rw [Finset.erase_eq_of_notMem outside]
        rw [found,if_neg (by simp)] at count
        omega

/-! ### What every event keeps -/

private theorem pool_drop (pool : Pool register held) : Pool register [] :=
  ⟨pool.unnamed,pool.used,pool.apart,by simp,by simp,.nil⟩

private theorem pool_reserve (pool : Pool register held) (reserve : register.ReserveKey = .ok (key,after)) :
    Pool after (held ++ [key]) := by
  obtain ⟨regions,unused,inUse⟩ := reserve_spec reserve
  have holds : ∀ i r, after.Holds i r ↔ register.Holds i r := by simp [Holds,regions]
  have registered : ∀ k, after.Registered k ↔ register.Registered k := by simp [Registered,holds]
  have new : ¬ register.Registered key := by
    rintro ⟨i,r,there,rfl⟩
    exact unused (pool.used i r there)
  refine ⟨?_,?_,?_,?_,?_,?_⟩
  · rw [regions]
    exact pool.unnamed
  · intro i r there
    exact (inUse _).mpr (.inr (pool.used i r ((holds i r).mp there)))
  · intro i j r r' one two same
    exact pool.apart i j r r' ((holds i r).mp one) ((holds j r').mp two) same
  · intro k member
    rcases mem_append.mp member with early | last
    · exact (inUse k).mpr (.inr (pool.reserved k early))
    · exact (inUse k).mpr (.inl (mem_singleton.mp last))
  · intro k member
    rw [registered]
    rcases mem_append.mp member with early | last
    · exact pool.free k early
    · exact mem_singleton.mp last ▸ new
  · refine nodup_append.mpr ⟨pool.nodup,by simp,?_⟩
    rintro k early k' last rfl
    exact unused (mem_singleton.mp last ▸ pool.reserved k early)

private theorem pool_release (pool : Pool register (key :: held)) : Pool (register.ReleaseKey key) held := by
  obtain ⟨regions,inUse⟩ := release_spec (pool.reserved key (by simp))
  have holds : ∀ i r, (register.ReleaseKey key).Holds i r ↔ register.Holds i r := by simp [Holds,regions]
  have registered : ∀ k, (register.ReleaseKey key).Registered k ↔ register.Registered k := by simp [Registered,holds]
  obtain ⟨outside,nodup⟩ := nodup_cons.mp pool.nodup
  refine ⟨?_,?_,?_,?_,?_,nodup⟩
  · rw [regions]
    exact pool.unnamed
  · intro i r there
    have before := (holds i r).mp there
    exact (inUse _).mpr ⟨fun same => pool.free key (by simp) ⟨i,r,before,same⟩,pool.used i r before⟩
  · intro i j r r' one two same
    exact pool.apart i j r r' ((holds i r).mp one) ((holds j r').mp two) same
  · intro k member
    exact (inUse k).mpr ⟨fun same => outside (same ▸ member),pool.reserved k (by simp [member])⟩
  · intro k member
    rw [registered]
    exact pool.free k (by simp [member])

theorem foldl_update_none (handles : List (Part × ShmKey)) (memory : ShmKey → Option Block)
    (outside : k ∉ handles.map (·.2)) :
    (handles.foldl (fun (memory : ShmKey → Option Block) handle => Function.update memory handle.2 none) memory) k = memory k := by
  induction handles generalizing memory with
  | nil => rfl
  | cons handle handles ih =>
    simp only [map_cons,mem_cons,not_or] at outside
    rw [foldl_cons,ih _ outside.2,Function.update_of_ne outside.1]

private theorem swapHandles_stored (handles : List (Name × ShmKey)) (old_handles : List ShmKey)
    (stored : ∀ i r, register.Holds i r → (memory r.shm_key).isSome = true)
    (filled : ∀ handle ∈ handles, (memory handle.2).isSome = true) (i : RegionID) (r : SharedRegion)
    (holds : (swapHandles memory register old_handles handles).1.Holds i r) : (memory r.shm_key).isSome = true := by
  induction handles generalizing register old_handles with
  | nil => exact stored i r holds
  | cons handle handles ih =>
    rw [swapHandles] at holds
    cases swap : swapHandle memory register handle.1 handle.2 with
    | none =>
      rw [swap] at holds
      exact stored i r holds
    | some swapped =>
      rw [swap] at holds
      obtain ⟨id,region,spec⟩ := swapHandle_spec swap
      exact ih _ (swapped_stored spec stored (filled handle (by simp))) (fun h member => filled h (mem_cons_of_mem _ member)) holds

/-- What holds whether keys were lost or not: memory is behind every key, and a run without keys has changed nothing. -/
structure Sound (s : System) : Prop where
  pool : Pool s.register s.held
  stored : ∀ i r, s.register.Holds i r → (s.memory r.shm_key).isSome = true
  filled : ∀ job parts, s.job = some job → job.stage = .setup parts →
    ∀ handle ∈ job.handles, (s.memory handle.2).isSome = true
  fresh : ∀ job parts, s.job = some job → job.stage = .setup parts → job.handles = [] → s.register = job.found

theorem initial_holds (i : RegionID) (r : SharedRegion) : ¬ SharedRegionRegister.initial.Holds i r := by
  rintro ⟨there,live⟩
  rw [(mem_replicate.mp (mem_of_getElem? there)).2] at live
  exact live rfl

theorem initial_sound : Sound .initial := by
  refine ⟨⟨?_,?_,?_,by simp [System.held,System.initial],by simp [System.held,System.initial],.nil⟩,?_,?_,?_⟩
  · intro i r there _
    rw [(mem_replicate.mp (mem_of_getElem? there)).2]
    rfl
  · intro i r there
    exact absurd there (initial_holds i r)
  · intro i j r r' there
    exact absurd there (initial_holds i r)
  · intro i r there
    exact absurd there (initial_holds i r)
  · simp [System.initial]
  · simp [System.initial]

private theorem named_nonempty (job : Job) : ∀ handle ∈ job.named, handle.1.take MAX_NAME_LENGTH ≠ [] := by
  intro handle member
  obtain ⟨h,_,rfl⟩ := mem_map.mp member
  exact regionName_ne_nil _ _

private theorem named_keys (job : Job) : job.named.map (·.2) = job.handles.map (·.2) := by
  simp [Job.named]

variable {job : Job}

theorem held_setup {parts : List Part} (running : s.job = some job) (stage : job.stage = .setup parts) :
    s.held = job.handles.map (·.2) := by
  simp [System.held,running,Job.held,stage]

theorem held_remove (running : s.job = some job) (stage : job.stage = .remove held) : s.held = held := by
  simp [System.held,running,Job.held,stage]
private theorem held_detach (running : s.job = some job) (stage : job.stage = .detach key held) : s.held = key :: held := by
  simp [System.held,running,Job.held,stage]
theorem Sound.stop (sound : Sound s) : Sound { s with job := none } :=
  ⟨pool_drop sound.pool,sound.stored,by simp,by simp⟩

theorem start_sound {dataset_name : Name} {only_metric : Bool} (sound : Sound s)
    (next : s.start dataset_name only_metric = some s') : Sound s' := by
  obtain ⟨idle,rfl | ⟨parts,rfl⟩⟩ := start_cases next
  · exact sound
  · refine ⟨?_,sound.stored,?_,?_⟩
    · simpa [System.held,Job.held,idle] using sound.pool
    · rintro job parts running - handle member
      cases running
      simp at member
    · rintro job parts running - -
      cases running
      rfl

theorem setupRegion_sound (sound : Sound s) (next : s.setupRegion = some s') : Sound s' := by
  obtain ⟨job,part,parts,running,stage,⟨_,rfl⟩ | ⟨key,register,reserve,rfl⟩⟩ := setupRegion_cases next
  · exact sound.stop
  · have pool := pool_reserve (held_setup running stage ▸ sound.pool) reserve
    have kept : ∀ k, (s.memory k).isSome = true →
        (Function.update s.memory key (some ⟨job.dataset_name,part,s.created⟩) k).isSome = true := by
      intro k present
      by_cases same : k = key
      · simp [same]
      · rwa [Function.update_of_ne same]
    refine ⟨?_,?_,?_,?_⟩
    · simpa [System.held,Job.held] using pool
    · intro i r holds
      refine kept _ (sound.stored i r ?_)
      rwa [Holds,← (reserve_spec reserve).1]
    · rintro job' parts' running' - handle member
      cases running'
      rcases mem_append.mp member with early | last
      · exact kept _ (sound.filled job _ running stage handle early)
      · rw [mem_singleton.mp last]
        simp
    · rintro job' parts' running' - empty
      cases running'
      simp at empty

theorem timeout_sound (sound : Sound s) (next : s.timeout = some s') : Sound s' := by
  obtain ⟨job,running,stage,rfl⟩ := timeout_cases next
  have pool := sound.pool
  rw [held_setup running stage] at pool
  refine ⟨pool_drop pool,?_,by simp,by simp⟩
  intro i r holds
  dsimp only
  rw [foldl_update_none]
  · exact sound.stored i r holds
  · exact fun member => pool.free _ member ⟨i,r,holds,rfl⟩

private theorem swap_pool (sound : Sound s) (running : s.job = some job) (stage : job.stage = .setup []) :
    (∀ k, (swapHandles s.memory s.register [] job.named).1.InUse k ↔ s.register.InUse k) ∧
    (∀ result, (swapHandles s.memory s.register [] job.named).2 = some result →
      Pool (swapHandles s.memory s.register [] job.named).1 result ∧
      (Accounted s.register s.held → Accounted (swapHandles s.memory s.register [] job.named).1 result)) ∧
    ((swapHandles s.memory s.register [] job.named).2 = none →
      Pool (swapHandles s.memory s.register [] job.named).1 [] ∧
      ¬ Accounted (swapHandles s.memory s.register [] job.named).1 []) := by
  have pool := sound.pool
  rw [held_setup running stage,← named_keys] at pool ⊢
  exact swapHandles_pool job.named (named_nonempty job) pool

private theorem named_filled (sound : Sound s) {parts : List Part} (running : s.job = some job)
    (stage : job.stage = .setup parts) : ∀ handle ∈ job.named, (s.memory handle.2).isSome = true := by
  intro handle member
  obtain ⟨h,inside,rfl⟩ := mem_map.mp member
  exact sound.filled job _ running stage h inside

theorem swapData_sound (sound : Sound s) (next : s.swapData = some s') : Sound s' := by
  obtain ⟨job,running,stage,swap⟩ := swapData_cases next
  obtain ⟨_,done,thrown⟩ := swap_pool sound running stage
  have stored := swapHandles_stored job.named [] sound.stored (named_filled sound running stage)
  obtain ⟨failed,rfl⟩ | ⟨old_handles,completed,rfl⟩ := swap
  · exact ⟨(thrown failed).1,stored,by simp,by simp⟩
  · refine ⟨?_,stored,?_,?_⟩
    · simpa [System.held,Job.held] using (done old_handles completed).1
    · rintro job' parts running' stage'
      cases running'
      simp at stage'
    · rintro job' parts running' stage'
      cases running'
      simp at stage'

theorem remove_sound (sound : Sound s) (next : s.remove = some s') : Sound s' := by
  obtain ⟨job,key,old_handles,running,stage,rfl⟩ := remove_cases next
  have pool := held_remove running stage ▸ sound.pool
  refine ⟨?_,?_,?_,?_⟩
  · simpa [System.held,Job.held] using pool
  · intro i r holds
    have other : r.shm_key ≠ key := fun same => pool.free key (by simp) ⟨i,r,holds,same⟩
    dsimp only
    rw [Function.update_of_ne other]
    exact sound.stored i r holds
  · rintro job' parts running' stage'
    cases running'
    simp at stage'
  · rintro job' parts running' stage'
    cases running'
    simp at stage'

theorem release_sound (sound : Sound s) (next : s.release = some s') : Sound s' := by
  obtain ⟨job,key,old_handles,running,stage,rfl⟩ := release_cases next
  have pool := held_detach running stage ▸ sound.pool
  refine ⟨?_,?_,?_,?_⟩
  · simpa [System.held,Job.held] using pool_release pool
  · exact sound.stored
  · rintro job' parts running' stage'
    cases running'
    simp at stage'
  · rintro job' parts running' stage'
    cases running'
    simp at stage'

theorem step_sound (sound : Sound s) (next : s.step event = some s') : Sound s' := by
  by_cases watches : event.watches = true
  · rw [watches_cases watches next]
    exact ⟨sound.pool,sound.stored,sound.filled,sound.fresh⟩
  · cases event with
    | start dataset_name only_metric => exact start_sound sound next
    | setupRegion => exact setupRegion_sound sound next
    | throw =>
      obtain ⟨job,_,_,rfl⟩ := throw_cases next
      exact sound.stop
    | timeout => exact timeout_sound sound next
    | swapData => exact swapData_sound sound next
    | remove => exact remove_sound sound next
    | release => exact release_sound sound next
    | finish =>
      obtain ⟨job,_,_,rfl⟩ := finish_cases next
      exact sound.stop
    | watch | wake | stop => exact absurd rfl watches

private theorem runFrom_sound (events : List Event) (sound : Sound s) (ran : runFrom s events = some s') : Sound s' := by
  induction events generalizing s with
  | nil =>
    cases ran
    exact sound
  | cons event events ih =>
    obtain ⟨middle,next,rest⟩ := bind_eq_some_iff.mp ran
    exact ih (step_sound sound next) rest

/-! ### The keys after a run -/

/-- The events that end a run while it holds keys: an exception, a time-out, no further key or no free region. -/
def Leaks (s : System) : Event → Prop
  | .throw | .timeout => s.held ≠ []
  | .setupRegion => s.held ≠ [] ∧ false ∉ s.register.shm_key_in_use
  | .swapData => ∃ job, s.job = some job ∧ ¬ Room s.register (job.named.map (·.1))
  | _ => False

private theorem reserve_error_iff : (∃ message, register.ReserveKey = .error message) ↔ false ∉ register.shm_key_in_use := by
  unfold ReserveKey
  cases found : register.shm_key_in_use.findIdx? (! ·) with
  | none =>
    simp only [Except.error.injEq,exists_eq',true_iff]
    intro member
    exact absurd (findIdx?_eq_none_iff.mp found false member) (by simp)
  | some key =>
    obtain ⟨inside,unused,_⟩ := findIdx?_eq_some_iff_getElem.mp found
    simp only [reduceCtorEq,exists_false,false_iff,not_not]
    have free : register.shm_key_in_use[key] = false := by simpa using unused
    exact free ▸ getElem_mem inside

private theorem swap_throws_iff (sound : Sound s) (running : s.job = some job) (stage : job.stage = .setup []) :
    (swapHandles s.memory s.register [] job.named).2 = none ↔ ¬ Room s.register (job.named.map (·.1)) := by
  have pool := sound.pool
  rw [held_setup running stage,← named_keys] at pool
  exact swapHandles_throws_iff job.named (named_nonempty job) pool sound.stored (named_filled sound running stage)

private theorem not_accounted (pool : Pool register held) (some : held ≠ []) : ¬ Accounted register [] := by
  intro accounted
  obtain ⟨key,member⟩ := exists_mem_of_ne_nil held some
  rcases accounted key (pool.reserved key member) with registered | none
  · exact pool.free key member registered
  · simp at none

private theorem leaks_lost (sound : Sound s) (next : s.step event = some s') (leaks : Leaks s event) :
    s'.job = none ∧ ¬ Accounted s'.register [] := by
  cases event with
  | throw =>
    obtain ⟨job,_,_,rfl⟩ := throw_cases next
    exact ⟨rfl,not_accounted sound.pool leaks⟩
  | timeout =>
    obtain ⟨job,_,_,rfl⟩ := timeout_cases next
    exact ⟨rfl,not_accounted sound.pool leaks⟩
  | setupRegion =>
    obtain ⟨some,full⟩ := leaks
    obtain ⟨job,part,parts,_,_,⟨_,rfl⟩ | ⟨key,register,reserve,_⟩⟩ := setupRegion_cases next
    · exact ⟨rfl,not_accounted sound.pool some⟩
    · obtain ⟨message,error⟩ := reserve_error_iff.mpr full
      simp [error] at reserve
  | swapData =>
    obtain ⟨job,running,narrow⟩ := leaks
    obtain ⟨job',running',stage,swap⟩ := swapData_cases next
    obtain rfl := some.inj (running.symm.trans running')
    have thrown := (swap_throws_iff sound running stage).mpr narrow
    obtain ⟨_,rfl⟩ | ⟨old_handles,completed,_⟩ := swap
    · exact ⟨rfl,((swap_pool sound running stage).2.2 thrown).2⟩
    · simp [thrown] at completed
  | _ => exact leaks.elim

private theorem accounted_stop (accounted : Accounted register held) (none : ¬ held ≠ []) : Accounted register [] := by
  rwa [not_not.mp none] at accounted

private theorem step_accounted (sound : Sound s) (next : s.step event = some s') (accounted : Accounted s.register s.held)
    (keeps : ¬ Leaks s event) : Accounted s'.register s'.held := by
  by_cases watches : event.watches = true
  · rw [watches_cases watches next]
    exact accounted
  · cases event with
    | start dataset_name only_metric =>
      obtain ⟨idle,rfl | ⟨parts,rfl⟩⟩ := start_cases next
      · exact accounted
      · simpa [System.held,Job.held,idle] using accounted
    | setupRegion =>
      obtain ⟨job,part,parts,running,stage,⟨error,rfl⟩ | ⟨key,register,reserve,rfl⟩⟩ := setupRegion_cases next
      · exact accounted_stop accounted fun some => keeps ⟨some,reserve_error_iff.mp error⟩
      · obtain ⟨regions,_,inUse⟩ := reserve_spec reserve
        rw [held_setup running stage] at accounted
        intro k used
        have registered : register.Registered k ↔ s.register.Registered k := by simp [Registered,Holds,regions]
        simp only [System.held,Job.held,map_some,getD_some,map_append,map_cons,map_nil,mem_append,
          mem_singleton]
        rw [registered]
        rcases (inUse k).mp used with rfl | before
        · exact .inr (.inr rfl)
        · exact (accounted k before).imp id .inl
    | throw =>
      obtain ⟨job,_,_,rfl⟩ := throw_cases next
      exact accounted_stop accounted keeps
    | timeout =>
      obtain ⟨job,_,_,rfl⟩ := timeout_cases next
      exact accounted_stop accounted keeps
    | swapData =>
      obtain ⟨job,running,stage,⟨thrown,_⟩ | ⟨old_handles,completed,rfl⟩⟩ := swapData_cases next
      · exact absurd ⟨job,running,(swap_throws_iff sound running stage).mp thrown⟩ keeps
      · exact ((swap_pool sound running stage).2.1 old_handles completed).2 accounted
    | remove =>
      obtain ⟨job,key,old_handles,running,stage,rfl⟩ := remove_cases next
      rw [held_remove running stage] at accounted
      exact accounted
    | release =>
      obtain ⟨job,key,old_handles,running,stage,rfl⟩ := release_cases next
      have pool := held_detach running stage ▸ sound.pool
      obtain ⟨_,inUse⟩ := release_spec (pool.reserved key (by simp))
      rw [held_detach running stage] at accounted
      intro k used
      obtain ⟨other,before⟩ := (inUse k).mp used
      exact (accounted k before).imp id fun member => (mem_cons.mp member).resolve_left other
    | finish =>
      obtain ⟨job,running,stage,rfl⟩ := finish_cases next
      rw [held_remove running stage] at accounted
      exact accounted
    | watch | wake | stop => exact absurd rfl watches

private theorem early_found (sound : Sound s) (next : s.step event = some s') (keeps : ¬ Leaks s event)
    (running : s.job = some job) (ends : s'.job = none) (early : event ≠ .finish) : s'.register = job.found := by
  have before : ∀ parts, job.stage = .setup parts → ¬ s.held ≠ [] → s.register = job.found := by
    intro parts stage none
    rw [held_setup running stage,not_not,map_eq_nil_iff] at none
    exact sound.fresh job parts running stage none
  cases event with
  | start dataset_name only_metric => simp [(start_cases next).1] at running
  | setupRegion =>
    obtain ⟨job',part,parts,running',stage,⟨error,rfl⟩ | ⟨key,register,reserve,rfl⟩⟩ := setupRegion_cases next
    · obtain rfl := some.inj (running.symm.trans running')
      exact before _ stage fun some => keeps ⟨some,reserve_error_iff.mp error⟩
    · simp at ends
  | throw =>
    obtain ⟨job',running',other,rfl⟩ := throw_cases next
    obtain rfl := some.inj (running.symm.trans running')
    cases stage : job.stage with
    | setup parts => exact before parts stage keeps
    | remove old_handles =>
      have none := not_not.mp keeps
      rw [held_remove running stage] at none
      exact absurd (none ▸ stage) other
    | detach key old_handles =>
      have none := not_not.mp keeps
      simp [held_detach running stage] at none
  | timeout =>
    obtain ⟨job',running',stage,rfl⟩ := timeout_cases next
    obtain rfl := some.inj (running.symm.trans running')
    exact before _ stage keeps
  | swapData =>
    obtain ⟨job',running',stage,⟨thrown,_⟩ | ⟨old_handles,_,rfl⟩⟩ := swapData_cases next
    · exact absurd ⟨job',running',(swap_throws_iff sound running' stage).mp thrown⟩ keeps
    · simp at ends
  | remove =>
    obtain ⟨job',key,old_handles,_,_,rfl⟩ := remove_cases next
    simp at ends
  | release =>
    obtain ⟨job',key,old_handles,_,_,rfl⟩ := release_cases next
    simp at ends
  | finish => exact absurd rfl early
  | watch | wake | stop =>
    rw [watches_cases rfl next] at ends
    simp [running] at ends

/-- An event of a list of events takes place: the state before it and the state after it. -/
def Happens (events : List Event) (s : System) (event : Event) (s' : System) : Prop :=
  ∃ earlier, earlier ++ [event] <+: events ∧ run earlier = some s ∧ s.step event = some s'

private theorem run_concat (events : List Event) (event : Event) : run (events ++ [event]) = (run events).bind (·.step event) := by
  have general : ∀ s, runFrom s (events ++ [event]) = (runFrom s events).bind (·.step event) := by
    induction events with
    | nil =>
      intro s
      simp only [nil_append,runFrom,bind_some]
      cases s.step event <;> rfl
    | cons first events ih =>
      intro s
      simp only [cons_append,runFrom]
      cases s.step first with
      | none => rfl
      | some next => exact ih next
  exact general .initial

private theorem run_accounted {events : List Event} (keeps : ∀ s event s', Happens events s event s' → ¬ Leaks s event)
    (earlier : List Event) (part : earlier <+: events) (ran : run earlier = some s) : Accounted s.register s.held := by
  induction earlier using List.reverseRecOn generalizing s with
  | nil =>
    cases ran
    intro key inUse
    have member := mem_of_getElem? inUse
    simp [System.initial,SharedRegionRegister.initial,mem_replicate] at member
  | append_singleton earlier event ih =>
    rw [run_concat] at ran
    obtain ⟨middle,before,next⟩ := bind_eq_some_iff.mp ran
    have sound := runFrom_sound earlier initial_sound before
    exact step_accounted sound next (ih ((prefix_append _ _).trans part) before) (keeps _ _ _ ⟨earlier,part,before,next⟩)

/-- The keys in use are those of the regions, and a failing run changes nothing, exactly where no event leaks. -/
theorem keys_kept_iff_no_leak (events : List Event) :
    (∀ s event s', Happens events s event s' → s'.job = none →
      (∀ key, s'.register.InUse key ↔ s'.register.Registered key) ∧
        ∀ job, s.job = some job → event ≠ .finish → s'.register = job.found) ↔
    ∀ s event s', Happens events s event s' → ¬ Leaks s event := by
  constructor
  · rintro kept s event s' ⟨earlier,part,ran,next⟩ leaks
    have sound := runFrom_sound earlier initial_sound ran
    obtain ⟨idle,lost⟩ := leaks_lost sound next leaks
    have same := (kept s event s' ⟨earlier,part,ran,next⟩ idle).1
    exact lost fun key inUse => .inl ((same key).mp inUse)
  · rintro keeps s event s' ⟨earlier,part,ran,next⟩ idle
    have sound := runFrom_sound earlier initial_sound ran
    have after := step_sound sound next
    have accounted := run_accounted keeps (earlier ++ [event]) part (by rw [run_concat,ran,bind_some,next])
    refine ⟨?_,?_⟩
    · intro key
      constructor
      · intro inUse
        simpa [System.held,idle] using accounted key inUse
      · rintro ⟨i,r,holds,rfl⟩
        exact after.pool.used i r holds
    · intro job running early
      exact early_found sound next (keeps s event s' ⟨earlier,part,ran,next⟩) running idle early

/-- A run whose lock times out leaves its two keys in use. -/
theorem timeout_loses_keys : ∃ s, run [.start ['d'] false,.setupRegion,.setupRegion,.timeout] = some s ∧ s.job = none ∧
    (s.register.InUse 0 ∧ ¬ s.register.Registered 0) ∧ s.register ≠ .initial := by
  refine ⟨_,rfl,rfl,⟨rfl,?_⟩,?_⟩
  · rintro ⟨i,r,holds,_⟩
    exact initial_holds i r holds
  · intro same
    have first : some true = some false := congrArg (fun register => register.shm_key_in_use[0]?) same
    simp at first

end Osrm.DatastoreKeys
