import Osrm.DatastoreKeys

/-!
What the watchdogs attach. The keys that are registered for a dataset are those that were registered right after a
completed swap, and the memory behind them is the same as then. A name that leaves no room for the slash and one more
character has one region for both parts, and no facade is made of it.
-/
namespace Osrm.DatasetSwap
open List Option Function
open SharedRegister SharedRegister.SharedRegionRegister Datastore DatastoreKeys

variable {memory : ShmKey → Option Block} {register after : SharedRegionRegister} {name : Name} {key k : ShmKey}
  {old : Option ShmKey} {s s' : System} {event : Event} {id : RegionID} {region : SharedRegion} {held : List ShmKey}
  {watchdogs : ℕ → Option Watchdog} {moments : List Moment} {d d' : Name} {part part' : Part}

/-- The register keeps enough of the names of the two regions to tell them apart. -/
def Short (dataset_name : Name) : Prop := dataset_name.length + 2 ≤ MAX_NAME_LENGTH
/-- What the register keeps of the name of a region. -/
def storedName (dataset_name : Name) (part : Part) : Name := (regionName dataset_name part).take MAX_NAME_LENGTH

private theorem path_slash {k : ℕ} (slash : part.path[k]? = some '/') : k = 0 := by
  cases k with
  | zero => rfl
  | succ k =>
    have member : '/' ∈ part.path.tail := by
      refine mem_of_getElem? (i := k) ?_
      rwa [getElem?_tail]
    exact absurd member (by cases part <;> decide)

private theorem storedName_getElem? {i : ℕ} (inside : i < MAX_NAME_LENGTH) (past : d.length ≤ i) :
    (storedName d part)[i]? = part.path[i - d.length]? := by
  rw [storedName,getElem?_take_of_lt inside,regionName,getElem?_append_right past]

private theorem storedName_length_le (short : Short d') (same : storedName d part = storedName d' part') : d'.length ≤ d.length := by
  by_contra shorter
  have inside : d'.length < MAX_NAME_LENGTH := by
    unfold Short at short
    omega
  have slash := congrArg (·[d'.length]?) same
  rw [storedName_getElem? inside (by omega),storedName_getElem? inside le_rfl,Nat.sub_self] at slash
  have zero := path_slash (slash.trans (by cases part' <;> rfl))
  omega

private theorem storedName_inj (short : Short d) (short' : Short d') (same : storedName d part = storedName d' part') :
    d = d' ∧ part = part' := by
  have length : d.length = d'.length := le_antisymm (storedName_length_le short same.symm) (storedName_length_le short' same)
  unfold Short at short
  constructor
  · have front := congrArg (·.take d.length) same
    simp only [storedName,regionName,take_take] at front
    rw [min_eq_left (by omega),take_left,length,take_left] at front
    exact front
  · have next := congrArg (·[d.length + 1]?) same
    rw [storedName_getElem? (by omega) (by omega),storedName_getElem? (by omega) (by omega),length] at next
    rw [Nat.add_sub_cancel_left] at next
    cases part <;> cases part' <;> first | rfl | simp [Part.path] at next

private theorem storedName_long (long : ¬ Short d) (part part' : Part) : storedName d part = storedName d part' := by
  have slash : ∀ part : Part, part.path.take 1 = ['/'] := by
    rintro (_ | _) <;> rfl
  have take : ∀ part, storedName d part = d.take MAX_NAME_LENGTH ++ ['/'].take (MAX_NAME_LENGTH - d.length) := by
    intro part
    unfold Short at long
    rw [storedName,regionName,take_append,← slash part,take_take]
    congr 2
    omega
  rw [take,take]

/-- The register holds this region under the name of a part of a dataset. -/
def Of (register : SharedRegionRegister) (dataset_name : Name) (part : Part) (id : RegionID) (region : SharedRegion) : Prop :=
  register.Holds id region ∧ region.name = storedName dataset_name part
/-- What a watchdog has read of a region is what the register holds there, or older. -/
def Seen (read region : SharedRegion) : Prop := read = region ∨ read.timestamp < region.timestamp

/-- There is memory behind every key, every region has its own name, and the watchdogs look at their regions. -/
structure Placed (memory : ShmKey → Option Block) (register : SharedRegionRegister) (watchdogs : ℕ → Option Watchdog) :
    Prop where
  filled : ∀ i r, register.Holds i r → (memory r.shm_key).isSome = true
  single : ∀ i j r r', register.Holds i r → register.Holds j r' → r.name = r'.name → i = j
  watched : ∀ n w, watchdogs n = some w → ∃ r r',
    Of register w.dataset_name .static w.static_region_id r ∧
    Of register w.dataset_name .updatable w.updatable_region_id r' ∧
    Seen w.static_region r ∧ Seen w.updatable_region r'

/-- The two keys were registered together after a swap, and the memory behind them is the same as then. -/
def Paired (memory : ShmKey → Option Block) (register : SharedRegionRegister) (moments : List Moment) (d : Name) : Prop :=
  ∀ i r j r', Of register d .static i r → Of register d .updatable j r' →
    ∃ b b', ⟨d,r.shm_key,b,r'.shm_key,b'⟩ ∈ moments ∧ memory r.shm_key = some b ∧ memory r'.shm_key = some b'

private theorem Placed.frame (placed : Placed memory register watchdogs) {memory' : ShmKey → Option Block}
    (regions : after.regions = register.regions) (kept : ∀ k, register.Registered k → memory' k = memory k) :
    Placed memory' after watchdogs := by
  have holds : ∀ i r, after.Holds i r ↔ register.Holds i r := by simp [Holds,regions]
  refine ⟨?_,?_,?_⟩
  · intro i r there
    have before := (holds i r).mp there
    rw [kept _ ⟨i,r,before,rfl⟩]
    exact placed.filled i r before
  · intro i j r r' one two
    exact placed.single i j r r' ((holds i r).mp one) ((holds j r').mp two)
  · simpa only [Of,holds] using placed.watched

private theorem Paired.frame (paired : Paired memory register moments d) {memory' : ShmKey → Option Block}
    (regions : after.regions = register.regions) (kept : ∀ k, register.Registered k → memory' k = memory k) :
    Paired memory' after moments d := by
  have holds : ∀ i r, after.Holds i r ↔ register.Holds i r := by simp [Holds,regions]
  rintro i r j r' ⟨one,name⟩ ⟨two,name'⟩
  have before := (holds i r).mp one
  have before' := (holds j r').mp two
  rw [kept _ ⟨i,r,before,rfl⟩,kept _ ⟨j,r',before',rfl⟩]
  exact paired i r j r' ⟨before,name⟩ ⟨before',name'⟩

variable {r : SharedRegion} {i : RegionID}

private theorem swapped_other (swapped : Swapped memory register after (regionName d part) key old id region)
    (pool : Pool register held) (placed : Placed memory register watchdogs)
    (there : register.Holds i r) (same : r.name = storedName d part) : i = id := by
  rcases swapped.found with ⟨_,_,missing⟩ | ⟨was,named,_⟩
  · exact absurd same (missing i r there.1)
  · have live := (swapped.live pool (regionName_ne_nil d part) was).1
    exact placed.single i id r region there live (same.trans named.symm)

private theorem swapped_of (swapped : Swapped memory register after (regionName d part) key old id region) (there : Of register d' part' i r) :
    ∃ r', Of after d' part' i r' ∧ (r' = r ∨ r.timestamp < r'.timestamp) := by
  by_cases same : i = id
  · subst same
    obtain rfl := some.inj (swapped.before.symm.trans there.1.1)
    rcases swapped.found with ⟨_,empty,_⟩ | ⟨_,named,_⟩
    · exact absurd empty there.1.2
    · exact ⟨_,⟨(swapped.holds _ _).mpr (.inl ⟨rfl,rfl⟩),named.symm.trans there.2⟩,.inr (Nat.lt_succ_self _)⟩
  · exact ⟨r,⟨(swapped.holds _ _).mpr (.inr ⟨same,there.1⟩),there.2⟩,.inl rfl⟩

private theorem Seen.later {read r r' : SharedRegion} (seen : Seen read r) (later : r' = r ∨ r.timestamp < r'.timestamp) : Seen read r' := by
  rcases later with rfl | newer
  · exact seen
  · rcases seen with rfl | older
    · exact .inr newer
    · exact .inr (older.trans newer)

private theorem swapped_placed (swapped : Swapped memory register after (regionName d part) key old id region)
    (pool : Pool register held) (placed : Placed memory register watchdogs) (block : (memory key).isSome = true) :
    Placed memory after watchdogs := by
  have holds := swapped.holds
  refine ⟨?_,?_,?_⟩
  · intro i r there
    rcases (holds i r).mp there with ⟨_,rfl⟩ | ⟨_,before⟩
    · exact block
    · exact placed.filled i r before
  · intro i j r r' one two same
    rcases (holds i r).mp one with ⟨rfl,rfl⟩ | ⟨_,before⟩
    · rcases (holds j r').mp two with ⟨rfl,_⟩ | ⟨_,before'⟩
      · rfl
      · exact (swapped_other swapped pool placed before' same.symm).symm
    · rcases (holds j r').mp two with ⟨rfl,rfl⟩ | ⟨_,before'⟩
      · exact swapped_other swapped pool placed before same
      · exact placed.single i j r r' before before' same
  · intro n w watching
    obtain ⟨r,r',static,updatable,seen,seen'⟩ := placed.watched n w watching
    obtain ⟨new,static,later⟩ := swapped_of swapped static
    obtain ⟨new',updatable,later'⟩ := swapped_of swapped updatable
    exact ⟨new,new',static,updatable,seen.later later,seen'.later later'⟩

private theorem swapHandles_placed (handles : List (Part × ShmKey)) {old_handles : List ShmKey}
    (pool : Pool register (old_handles ++ handles.map (·.2))) (placed : Placed memory register watchdogs)
    (blocks : ∀ handle ∈ handles, (memory handle.2).isSome = true) {result : SharedRegionRegister × Option (List ShmKey)}
    (swapped : swapHandles memory register old_handles (handles.map fun handle => (regionName d handle.1,handle.2)) = result) :
    Placed memory result.1 watchdogs ∧
      (∀ i r, result.1.Holds i r → register.Holds i r ∨ ∃ part, r.name = storedName d part) ∧
      (result.2 = none → ∃ part, result.1.Find (regionName d part) = none) := by
  subst swapped
  induction handles generalizing register old_handles with
  | nil => exact ⟨placed,fun _ _ there => .inl there,by simp [swapHandles]⟩
  | cons handle handles ih =>
    rw [map_cons] at pool ⊢
    rw [swapHandles]
    cases swap : swapHandle memory register (regionName d handle.1) handle.2 with
    | none =>
      refine ⟨placed,fun _ _ there => .inl there,fun _ => ⟨handle.1,?_⟩⟩
      exact (swapHandle_throws pool placed.filled (regionName_ne_nil d handle.1) swap).1
    | some next =>
      obtain ⟨id,region,spec⟩ := swapHandle_spec swap
      have placed' := swapped_placed spec pool placed (blocks handle (by simp))
      obtain ⟨all,others,thrown⟩ := ih (spec.pool (regionName_ne_nil d handle.1) pool) placed'
        fun h member => blocks h (mem_cons_of_mem _ member)
      refine ⟨all,?_,thrown⟩
      intro i r there
      rcases others i r there with before | named
      · rcases (spec.holds i r).mp before with ⟨_,rfl⟩ | ⟨_,earlier⟩
        · exact .inr ⟨handle.1,rfl⟩
        · exact .inl earlier
      · exact .inr named

private theorem find_of (pool : Pool register held) (placed : Placed memory register watchdogs)
    (there : Of register d part i r) : register.Find (regionName d part) = some i := by
  cases find : register.Find (regionName d part) with
  | none => exact absurd there.2 (find_none find there.1.1)
  | some id =>
    obtain ⟨region,before,same⟩ := find_some find
    have live : region.timestamp ≠ 0 := fun zero => regionName_ne_nil d part (same ▸ pool.unnamed id region before zero)
    rw [placed.single id i region r ⟨before,live⟩ there.1 (same.trans there.2.symm)]

private theorem of_find (pool : Pool register held) (find : register.Find (regionName d part) = some i)
    (there : register.GetRegion i = some r) : Of register d part i r := by
  obtain ⟨region,before,same⟩ := find_some find
  obtain rfl := some.inj (before.symm.trans there)
  exact ⟨⟨before,fun zero => regionName_ne_nil d part (same ▸ pool.unnamed i region before zero)⟩,same⟩

variable {w : Watchdog}

private theorem readRegions_some (pool : Pool register held) (read : readRegions register d = some w) :
    w.dataset_name = d ∧ Of register d .static w.static_region_id w.static_region ∧
      Of register d .updatable w.updatable_region_id w.updatable_region := by
  simp only [readRegions,bind_eq_bind,bind_eq_some_iff,Option.pure_def,some.injEq] at read
  obtain ⟨i,find,j,find',r,there,r',there',rfl⟩ := read
  exact ⟨rfl,of_find pool find there,of_find pool find' there'⟩

private theorem readRegions_of (pool : Pool register held) (placed : Placed memory register watchdogs) {i j : RegionID} {r r' : SharedRegion}
    (static : Of register d .static i r) (updatable : Of register d .updatable j r') :
    readRegions register d = some ⟨d,i,j,r,r'⟩ := by
  simp [readRegions,find_of pool placed static,find_of pool placed updatable,GetRegion,static.1.1,updatable.1.1]

private theorem registered_paired (pool : Pool register held) (placed : Placed memory register watchdogs) :
    Paired memory register (moments ++ (registered memory register d).toList) d := by
  intro i r j r' static updatable
  obtain ⟨b,block⟩ := isSome_iff_exists.mp (placed.filled i r static.1)
  obtain ⟨b',block'⟩ := isSome_iff_exists.mp (placed.filled j r' updatable.1)
  refine ⟨_,_,?_,block,block'⟩
  simp [registered,readRegions_of pool placed static updatable,block,block']

/-! ### The events -/

/-- What holds in every state. Nothing is said of the keys of a long name: its two regions are one. -/
structure Safe (s : System) : Prop where
  sound : Sound s
  placed : Placed s.memory s.register s.watchdogs
  paired : ∀ d, Short d → Paired s.memory s.register (s.moments d) d
  prepared : ∀ job parts, s.job = some job → job.stage = .setup parts →
    ∀ handle ∈ job.handles, (s.memory handle.2).isSome = true

private theorem initial_safe : Safe .initial := by
  refine ⟨initial_sound,⟨?_,?_,by simp [System.initial]⟩,?_,by simp [System.initial]⟩
  · intro i r there
    exact absurd there (initial_holds i r)
  · intro i j r r' there
    exact absurd there (initial_holds i r)
  · intro d _ i r j r' there
    exact absurd there.1 (initial_holds i r)

private theorem Safe.stop (safe : Safe s) : Safe { s with job := none } :=
  ⟨safe.sound.stop,safe.placed,safe.paired,by simp⟩

private theorem start_safe {dataset_name : Name} {only_metric : Bool} (safe : Safe s)
    (next : s.start dataset_name only_metric = some s') : Safe s' := by
  have sound := start_sound safe.sound next
  obtain ⟨_,rfl | ⟨parts,rfl⟩⟩ := start_cases next
  · exact safe
  · refine ⟨sound,safe.placed,safe.paired,?_⟩
    rintro job parts' running -
    cases running
    simp

private theorem setupRegion_safe (safe : Safe s) (next : s.setupRegion = some s') : Safe s' := by
  have sound := setupRegion_sound safe.sound next
  obtain ⟨job,part,parts,running,stage,⟨_,rfl⟩ | ⟨key,register,reserve,rfl⟩⟩ := setupRegion_cases next
  · exact safe.stop
  · obtain ⟨regions,unused,_⟩ := reserve_spec reserve
    have kept : ∀ k, s.register.InUse k →
        Function.update s.memory key (some ⟨job.dataset_name,part,s.created⟩) k = s.memory k := by
      intro k inUse
      exact update_of_ne (fun same : k = key => unused (same ▸ inUse)) _ _
    have same : ∀ k, s.register.Registered k →
        Function.update s.memory key (some ⟨job.dataset_name,part,s.created⟩) k = s.memory k := by
      rintro k ⟨i,r,there,rfl⟩
      exact kept _ (safe.sound.pool.used i r there)
    refine ⟨sound,safe.placed.frame regions same,fun d short => (safe.paired d short).frame regions same,?_⟩
    rintro job' parts' running' -
    cases running'
    intro handle member
    rcases mem_append.mp member with early | last
    · have inUse := safe.sound.pool.reserved handle.2 (by
        rw [held_setup running stage]
        exact mem_map_of_mem early)
      simp only [kept _ inUse]
      exact safe.prepared job _ running stage handle early
    · simp [mem_singleton.mp last]

private theorem timeout_safe (safe : Safe s) (next : s.timeout = some s') : Safe s' := by
  have sound := timeout_sound safe.sound next
  obtain ⟨job,running,stage,rfl⟩ := timeout_cases next
  have pool := held_setup running stage ▸ safe.sound.pool
  have kept : ∀ k, s.register.Registered k →
      (job.handles.foldl (fun (memory : ShmKey → Option Block) handle => Function.update memory handle.2 none) s.memory) k =
        s.memory k :=
    fun k registered => foldl_update_none job.handles s.memory fun member => pool.free k member registered
  exact ⟨sound,safe.placed.frame rfl kept,fun d short => (safe.paired d short).frame rfl kept,by simp⟩

private theorem paired_missing (missing : register.Find (regionName d part) = none) : Paired memory register moments d := by
  intro i r j r' static updatable
  cases part with
  | static => exact absurd static.2 (find_none missing static.1.1)
  | updatable => exact absurd updatable.2 (find_none missing updatable.1.1)

private theorem Paired.earlier (paired : Paired memory register moments d)
    (earlier : ∀ part i r, Of after d part i r → register.Holds i r) : Paired memory after moments d := by
  intro i r j r' static updatable
  exact paired i r j r' ⟨earlier _ i r static,static.2⟩ ⟨earlier _ j r' updatable,updatable.2⟩

private theorem swapData_safe (safe : Safe s) (next : s.swapData = some s') : Safe s' := by
  have sound := swapData_sound safe.sound next
  obtain ⟨job,running,stage,swap⟩ := swapData_cases next
  have pool : Pool s.register ([] ++ job.handles.map (·.2)) := held_setup running stage ▸ safe.sound.pool
  obtain ⟨placed,others,thrown⟩ := @swapHandles_placed _ _ _ job.dataset_name job.handles [] pool
    safe.placed (safe.prepared job _ running stage) _ rfl
  obtain ⟨failed,rfl⟩ | ⟨old_handles,completed,rfl⟩ := swap
  · refine ⟨sound,placed,?_,by simp⟩
    intro d short
    obtain ⟨part,missing⟩ := thrown failed
    by_cases same : d = job.dataset_name
    · subst same
      exact paired_missing missing
    · refine (safe.paired d short).earlier fun part' i r there => ?_
      rcases others i r there.1 with before | ⟨part'',named⟩
      · exact before
      -- the region is one of the run's own: of another name, or of the name that is missing
      · by_cases short' : Short job.dataset_name
        · exact absurd (storedName_inj short short' (there.2.symm.trans named)).1 same
        · exact absurd (named.trans (storedName_long short' part'' part)) (find_none missing there.1.1)
  · refine ⟨sound,placed,fun d _ => registered_paired sound.pool placed,?_⟩
    rintro job' parts running' stage'
    cases running'
    simp at stage'

private theorem remove_safe (safe : Safe s) (next : s.remove = some s') : Safe s' := by
  have sound := remove_sound safe.sound next
  obtain ⟨job,key,old_handles,running,stage,rfl⟩ := remove_cases next
  have pool := held_remove running stage ▸ safe.sound.pool
  have kept : ∀ k, s.register.Registered k → Function.update s.memory key none k = s.memory k := by
    intro k registered
    exact update_of_ne (fun same : k = key => pool.free key (by simp) (same ▸ registered)) _ _
  refine ⟨sound,safe.placed.frame rfl kept,fun d short => (safe.paired d short).frame rfl kept,?_⟩
  rintro job' parts running' stage'
  cases running'
  simp at stage'

private theorem release_safe (safe : Safe s) (next : s.release = some s') : Safe s' := by
  have sound := release_sound safe.sound next
  obtain ⟨job,key,old_handles,running,stage,rfl⟩ := release_cases next
  refine ⟨sound,safe.placed.frame rfl fun _ _ => rfl,fun d short => (safe.paired d short).frame rfl fun _ _ => rfl,?_⟩
  rintro job' parts running' stage'
  cases running'
  simp at stage'

private theorem Seen.current {read r : SharedRegion} (seen : Seen read r) : (if read.timestamp != r.timestamp then r else read) = r := by
  rcases seen with rfl | older
  · simp
  · simp [older.ne]

private theorem reads_of (safe : Safe s) {n : ℕ} (read : s.reads event = some (n,w)) :
    Of s.register w.dataset_name .static w.static_region_id w.static_region ∧
      Of s.register w.dataset_name .updatable w.updatable_region_id w.updatable_region := by
  cases event with
  | watch i dataset_name =>
    obtain ⟨read,found,same⟩ := map_eq_some_iff.mp read
    cases same
    obtain ⟨rfl,static,updatable⟩ := readRegions_some safe.sound.pool found
    exact ⟨static,updatable⟩
  | wake i =>
    obtain ⟨new,found,same⟩ := map_eq_some_iff.mp read
    obtain rfl := (Prod.mk.inj same).2
    obtain ⟨w,watching,read⟩ := bind_eq_some_iff.mp found
    obtain ⟨r,r',static,updatable,seen,seen'⟩ := safe.placed.watched i w watching
    simp only [System.reread,GetRegion,static.1.1,updatable.1.1,bind_eq_bind,bind_some] at read
    split at read
    · simp at read
    · cases read
      constructor
      · dsimp only
        rw [seen.current]
        exact static
      · dsimp only
        rw [seen'.current]
        exact updatable
  | _ => simp [System.reads] at read

private theorem builds_some {n : ℕ} (built : s.builds event = some (n,w)) :
    s.reads event = some (n,w) ∧ facade s.memory w = true :=
  Option.filter_eq_some_iff.mp built

private theorem facade_parts (made : facade memory w = true) :
    memory w.static_region.shm_key ≠ memory w.updatable_region.shm_key := by
  unfold facade at made
  intro same
  rw [same] at made
  cases found : memory w.updatable_region.shm_key with
  | none => simp [found] at made
  | some block => cases part : block.part <;> simp [found,part] at made

/-- Where the two parts have one name they have one region, and no facade is made of it. -/
theorem facade_short (placed : Placed memory register watchdogs) (made : facade memory w = true)
    (static : Of register w.dataset_name .static w.static_region_id w.static_region)
    (updatable : Of register w.dataset_name .updatable w.updatable_region_id w.updatable_region) : Short w.dataset_name := by
  by_contra long
  have named := static.2.trans ((storedName_long long _ _).trans updatable.2.symm)
  have there := static.1.1
  rw [placed.single _ _ _ _ static.1 updatable.1 named,updatable.1.1,some.injEq] at there
  exact facade_parts made (by rw [there])

private theorem Placed.watch (placed : Placed memory register watchdogs) (n : ℕ)
    (static : Of register w.dataset_name .static w.static_region_id w.static_region)
    (updatable : Of register w.dataset_name .updatable w.updatable_region_id w.updatable_region) :
    Placed memory register (Function.update watchdogs n (some w)) := by
  refine ⟨placed.filled,placed.single,?_⟩
  intro m w' watching
  by_cases same : m = n
  · rw [same,update_self,some.injEq] at watching
    subst watching
    exact ⟨_,_,static,updatable,.inl rfl,.inl rfl⟩
  · rw [update_of_ne same] at watching
    exact placed.watched m w' watching

private theorem Placed.unwatch (placed : Placed memory register watchdogs) (n : ℕ) :
    Placed memory register (Function.update watchdogs n none) := by
  refine ⟨placed.filled,placed.single,?_⟩
  intro m w watching
  by_cases same : m = n
  · simp [same] at watching
  · rw [update_of_ne same] at watching
    exact placed.watched m w watching

private theorem step_safe (safe : Safe s) (next : s.step event = some s') : Safe s' := by
  have sound := step_sound safe.sound next
  cases event with
  | start dataset_name only_metric => exact start_safe safe next
  | setupRegion => exact setupRegion_safe safe next
  | throw =>
    obtain ⟨job,_,_,rfl⟩ := throw_cases next
    exact safe.stop
  | timeout => exact timeout_safe safe next
  | swapData => exact swapData_safe safe next
  | remove => exact remove_safe safe next
  | release => exact release_safe safe next
  | finish =>
    obtain ⟨job,_,_,rfl⟩ := finish_cases next
    exact safe.stop
  | watch i dataset_name =>
    obtain ⟨⟨n,w⟩,built,rfl⟩ := map_eq_some_iff.mp next
    obtain ⟨static,updatable⟩ := reads_of safe (builds_some built).1
    exact ⟨sound,safe.placed.watch i static updatable,safe.paired,safe.prepared⟩
  | wake i =>
    simp only [System.step] at next
    cases read : s.reads (.wake i) with
    | none =>
      simp only [read,some.injEq] at next
      exact next ▸ safe
    | some watchdog =>
      simp only [read,some.injEq] at next
      subst next
      cases built : s.builds (.wake i) with
      | none =>
        rw [built] at sound
        exact ⟨sound,safe.placed.unwatch i,safe.paired,safe.prepared⟩
      | some made =>
        rw [built] at sound
        obtain ⟨static,updatable⟩ := reads_of safe (builds_some built).1
        exact ⟨sound,safe.placed.watch i static updatable,safe.paired,safe.prepared⟩
  | stop i =>
    cases next
    exact ⟨sound,safe.placed.unwatch i,safe.paired,safe.prepared⟩

private theorem runFrom_safe (events : List Event) (safe : Safe s) (ran : runFrom s events = some s') : Safe s' := by
  induction events generalizing s with
  | nil =>
    cases ran
    exact safe
  | cons event events ih =>
    obtain ⟨middle,next,rest⟩ := bind_eq_some_iff.mp ran
    exact ih (step_safe safe next) rest

/-- Over every interleaving a facade is built from the two keys that were registered for its dataset right after one
    completed swap, and what is behind them is what was behind them then. -/
theorem facade_of_one_swap (events : List Event) (event : Event) (s : System) (ran : run events = some s) (n : ℕ)
    (w : Watchdog) (built : s.builds event = some (n,w)) :
    ∃ moment ∈ s.moments w.dataset_name,
      moment.static_key = w.static_region.shm_key ∧ moment.updatable_key = w.updatable_region.shm_key ∧
      s.memory w.static_region.shm_key = some moment.static_block ∧
      s.memory w.updatable_region.shm_key = some moment.updatable_block := by
  have safe := runFrom_safe events initial_safe ran
  obtain ⟨read,made⟩ := builds_some built
  obtain ⟨static,updatable⟩ := reads_of safe read
  have short := facade_short safe.placed made static updatable
  obtain ⟨b,b',member,block,block'⟩ := safe.paired _ short _ _ _ _ static updatable
  exact ⟨_,member,rfl,rfl,block,block'⟩

theorem facade_of_one_swap_first : ∃ s w, run [.start ['d'] false,.setupRegion,.setupRegion,.swapData] = some s ∧
    s.builds (.watch 0 ['d']) = some (0,w) ∧ ∃ moment ∈ s.moments w.dataset_name,
      moment.static_key = w.static_region.shm_key ∧ moment.updatable_key = w.updatable_region.shm_key ∧
      s.memory w.static_region.shm_key = some moment.static_block ∧
      s.memory w.updatable_region.shm_key = some moment.updatable_block := by
  have builds : ((run [.start ['d'] false,.setupRegion,.setupRegion,.swapData]).bind fun s =>
      s.builds (.watch 0 ['d'])).map (·.1) = some 0 := by
    decide +kernel
  obtain ⟨⟨n,w⟩,found,rfl⟩ := map_eq_some_iff.mp builds
  obtain ⟨s,ran,built⟩ := bind_eq_some_iff.mp found
  exact ⟨s,w,ran,built,facade_of_one_swap _ (.watch 0 ['d']) s ran 0 w built⟩

/-- A name of 253 characters has one region for both parts, and the constructor of the facade throws. -/
example : ((run [.start (replicate 253 'a') false,.setupRegion,.setupRegion,.swapData]).map fun s =>
    ((s.reads (.watch 0 (replicate 253 'a'))).isSome,(s.builds (.watch 0 (replicate 253 'a'))).isSome)) =
      some (true,false) := by
  decide +kernel

end Osrm.DatasetSwap
