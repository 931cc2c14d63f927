import Mathlib.Tactic

/-!
`storage::SharedRegionRegister`: the regions of shared memory by their names, and the keys that are
in use. A name is cut off after `MAX_NAME_LENGTH` characters, when it is stored and when it is sought;
a name has no null characters. Timestamps have no upper bound here.
-/
namespace Osrm.SharedRegister
open List

abbrev ShmKey := ℕ
abbrev RegionID := ℕ
abbrev Name := List Char

def MAX_NAME_LENGTH : ℕ := 254
def MAX_SHARED_REGIONS : ℕ := 512
def MAX_SHM_KEYS : ℕ := MAX_SHARED_REGIONS * 2

structure SharedRegion where
  name : Name
  timestamp : ℕ
  shm_key : ShmKey
  deriving DecidableEq, Repr

namespace SharedRegion

def unused : SharedRegion := ⟨[],0,0⟩
def named (name : Name) (timestamp : ℕ) (shm_key : ShmKey) : SharedRegion := ⟨name.take MAX_NAME_LENGTH,timestamp,shm_key⟩
def IsEmpty (region : SharedRegion) : Bool := region.timestamp == 0

end SharedRegion

structure SharedRegionRegister where
  regions : List SharedRegion
  shm_key_in_use : List Bool
  deriving DecidableEq

namespace SharedRegionRegister

def initial : SharedRegionRegister :=
  ⟨replicate MAX_SHARED_REGIONS .unused,replicate MAX_SHM_KEYS false⟩

variable (register : SharedRegionRegister)

/-- `Find`; `none` stands for `INVALID_REGION_ID`. -/
def Find (name : Name) : Option RegionID :=
  register.regions.findIdx? fun region => region.name == name.take MAX_NAME_LENGTH
def INITIAL_TIMESTAMP : ℕ := 1
def Register (name : Name) (key : ShmKey) : Except String SharedRegionRegister :=
  match register.regions.findIdx? SharedRegion.IsEmpty with
  | none => .error ("No shared memory regions left. Could not register " ++ String.ofList name ++ ".")
  | some id => .ok { register with regions := register.regions.set id (.named name INITIAL_TIMESTAMP key) }

def GetRegion (id : RegionID) : Option SharedRegion := register.regions[id]?
/-- What `swapData` writes to a region that is there already. -/
def update (id : RegionID) (region : SharedRegion) (key : ShmKey) : SharedRegionRegister :=
  { register with regions := register.regions.set id { region with shm_key := key, timestamp := region.timestamp + 1 } }
def ReserveKey : Except String (ShmKey × SharedRegionRegister) :=
  match register.shm_key_in_use.findIdx? (! ·) with
  | none => .error "Could not reserve a new SHM key. All keys are in use"
  | some key => .ok (key,{ register with shm_key_in_use := register.shm_key_in_use.set key true })

def ReleaseKey (key : ShmKey) : SharedRegionRegister :=
  { register with shm_key_in_use := register.shm_key_in_use.set key false }
def InUse (key : ShmKey) : Prop := register.shm_key_in_use[key]? = some true
def Holds (id : RegionID) (region : SharedRegion) : Prop :=
  register.regions[id]? = some region ∧ region.timestamp ≠ 0
def Registered (key : ShmKey) : Prop := ∃ id region, register.Holds id region ∧ region.shm_key = key

end SharedRegionRegister

variable {register after : SharedRegionRegister} {name : Name} {key k : ShmKey} {id i : RegionID} {region r : SharedRegion}

open SharedRegionRegister

/-- A reserved key was free, and is the only new one. -/
theorem reserve_spec (reserved : register.ReserveKey = .ok (key,after)) :
    after.regions = register.regions ∧ ¬ register.InUse key ∧ ∀ k, after.InUse k ↔ k = key ∨ register.InUse k := by
  unfold ReserveKey at reserved
  cases found : register.shm_key_in_use.findIdx? (! ·) with
  | none => simp [found] at reserved
  | some free =>
    simp only [found,Except.ok.injEq,Prod.mk.injEq] at reserved
    obtain ⟨rfl,rfl⟩ := reserved
    obtain ⟨inside,unused,_⟩ := findIdx?_eq_some_iff_getElem.mp found
    refine ⟨rfl,?_,?_⟩
    · simpa [InUse,getElem?_eq_getElem inside] using unused
    · intro k
      unfold InUse
      rw [getElem?_set]
      by_cases same : free = k
      · subst same
        simp [inside]
      · simp [same,Ne.symm same]

theorem release_spec (inUse : register.InUse key) :
    (register.ReleaseKey key).regions = register.regions ∧ ∀ k, (register.ReleaseKey key).InUse k ↔ k ≠ key ∧ register.InUse k := by
  refine ⟨rfl,?_⟩
  intro k
  have inside := (List.getElem?_eq_some_iff.mp inUse).1
  unfold ReleaseKey InUse
  rw [getElem?_set]
  by_cases same : key = k
  · subst same
    simp [inside]
  · simp [same,Ne.symm same]

/-- A name is found by its first characters. -/
theorem find_some (found : register.Find name = some id) :
    ∃ region, register.regions[id]? = some region ∧ region.name = name.take MAX_NAME_LENGTH := by
  obtain ⟨inside,same,_⟩ := findIdx?_eq_some_iff_getElem.mp found
  exact ⟨_,getElem?_eq_getElem inside,by simpa using same⟩

theorem find_none (missing : register.Find name = none) (there : register.regions[id]? = some region) :
    region.name ≠ name.take MAX_NAME_LENGTH := by
  have all := findIdx?_eq_none_iff.mp missing region (mem_of_getElem? there)
  simpa using all

theorem register_spec (registered : register.Register name key = .ok after) :
    after.shm_key_in_use = register.shm_key_in_use ∧ ∃ (id : RegionID) (old : SharedRegion),
      register.regions[id]? = some old ∧ old.timestamp = 0 ∧ ∀ i : RegionID, after.regions[i]? =
        if i = id then some (SharedRegion.named name INITIAL_TIMESTAMP key) else register.regions[i]? := by
  unfold Register at registered
  cases found : register.regions.findIdx? SharedRegion.IsEmpty with
  | none => simp [found] at registered
  | some id =>
    simp only [found,Except.ok.injEq] at registered
    subst registered
    obtain ⟨inside,empty,_⟩ := findIdx?_eq_some_iff_getElem.mp found
    refine ⟨rfl,id,_,getElem?_eq_getElem inside,by simpa [SharedRegion.IsEmpty] using empty,?_⟩
    intro i
    rw [getElem?_set]
    by_cases same : id = i
    · subst same
      simp [inside]
    · simp [same,Ne.symm same]

theorem update_spec (there : register.regions[id]? = some region) :
    (register.update id region key).shm_key_in_use = register.shm_key_in_use ∧
      ∀ i : RegionID, (register.update id region key).regions[i]? =
        if i = id then some { region with shm_key := key, timestamp := region.timestamp + 1 } else register.regions[i]? := by
  refine ⟨rfl,?_⟩
  intro i
  have inside := (List.getElem?_eq_some_iff.mp there).1
  unfold update
  rw [getElem?_set]
  by_cases same : id = i
  · subst same
    simp [inside]
  · simp [same,Ne.symm same]

end Osrm.SharedRegister
