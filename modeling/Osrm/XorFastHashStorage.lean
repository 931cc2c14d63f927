import Mathlib.Tactic
import Mathlib.Data.Fintype.Card
import Mathlib.Data.BitVec

/-!
`util/xor_fast_hash_storage.hpp`, the positions of the contractor's heap. Clearing the table only counts up a
timestamp; a cell belongs to a key if it has the current timestamp and the id of the key.
-/
namespace Osrm.XorFastHashStorage
open Option Function

abbrev NodeID := BitVec 32
abbrev Key := BitVec 32
/-- `std::uint16_t`, an index into the 2^16 cells. Counting it up wraps at the number of cells. -/
abbrev Position := BitVec 16
/-- `std::numeric_limits<unsigned>::max()`. -/
def MAX : BitVec 32 := BitVec.allOnes 32

/-- `XORFastHash`; the tables are shuffled once with a fixed seed. -/
structure XORFastHash where
  table1 : Position → Position
  table2 : Position → Position

namespace XORFastHash

/-- `operator()`. -/
def apply (fast_hasher : XORFastHash) (originalValue : BitVec 32) : Position :=
  let lsb := originalValue.setWidth 16
  let msb := (originalValue >>> 16).setWidth 16
  fast_hasher.table1 lsb ^^^ fast_hasher.table2 msb

end XORFastHash

structure HashCell where
  time : BitVec 32
  id : NodeID
  key : Key
  deriving DecidableEq, Repr

def HashCell.new : HashCell := ⟨MAX,MAX,MAX⟩

structure XORFastHashStorage where
  positions : Position → HashCell
  current_timestamp : BitVec 32

namespace XORFastHashStorage

def new : XORFastHashStorage := ⟨fun _ => HashCell.new,0⟩
def Clear (storage : XORFastHashStorage) : XORFastHashStorage :=
  let current_timestamp := storage.current_timestamp + 1
  if MAX = current_timestamp then ⟨fun _ => HashCell.new,current_timestamp⟩
  else ⟨storage.positions,current_timestamp⟩

def taken (storage : XORFastHashStorage) (node : NodeID) (position : Position) : Bool :=
  (storage.positions position).time == storage.current_timestamp && (storage.positions position).id != node
def probe (storage : XORFastHashStorage) (node : NodeID) : ℕ → Position → Option Position
  | 0, _ => none
  | fuel + 1, position => if storage.taken node position then probe storage node fuel (position + 1) else some position

variable (fast_hasher : XORFastHash)

/-- Where the loop ends. A loop that has seen every cell never ends (`probe_eq_none`). -/
def find (storage : XORFastHashStorage) (node : NodeID) : Option Position :=
  storage.probe node (2 ^ 16) (fast_hasher.apply node)
def setCell (storage : XORFastHashStorage) (position : Position) (cell : HashCell) : XORFastHashStorage :=
  { storage with positions := Function.update storage.positions position cell }
/-- `operator[]`: the position of the cell it returns a reference to. -/
def index (storage : XORFastHashStorage) (node : NodeID) : Option (XORFastHashStorage × Position) :=
  (storage.find fast_hasher node).map fun position =>
    (storage.setCell position ⟨storage.current_timestamp,node,(storage.positions position).key⟩,position)
def peek_index (storage : XORFastHashStorage) (node : NodeID) : Option Key :=
  (storage.find fast_hasher node).map fun position => (storage.positions position).key

/-- What can be done with a storage: `storage[node] = key`, reading `storage[node]`, `peek_index` and `Clear`. -/
inductive Call
  | assign (node : NodeID) (key : Key)
  | read (node : NodeID)
  | peek (node : NodeID)
  | clear
  deriving DecidableEq, Repr

/-- The storage after a call and the key it returns; nothing if it does not terminate. -/
def perform (storage : XORFastHashStorage) : Call → Option (XORFastHashStorage × Option Key)
  | .assign node key =>
    (storage.index fast_hasher node).map fun (storage,position) =>
      (storage.setCell position { storage.positions position with key },none)
  | .read node =>
    (storage.index fast_hasher node).map fun (storage,position) => (storage,some (storage.positions position).key)
  | .peek node => (storage.peek_index fast_hasher node).map fun key => (storage,some key)
  | .clear => some (storage.Clear,none)

def Call.node : Call → Option NodeID
  | .assign node _ | .read node | .peek node => some node
  | .clear => none
def Call.keys (keys : Finset NodeID) : Call → Finset NodeID
  | .assign node _ | .read node => insert node keys
  | .peek _ => keys
  | .clear => ∅

def Call.written (written : NodeID → Option Key) : Call → NodeID → Option Key
  | .assign node key => Function.update written node (some key)
  | .read _ | .peek _ => written
  | .clear => fun _ => none

def Call.wanted (written : NodeID → Option Key) : Call → Option Key
  | .read node | .peek node => written node
  | .assign _ _ | .clear => none
def FewKeys (keys : Finset NodeID) : List Call → Prop
  | [] => True
  | call :: calls => (call.keys keys).card < 2 ^ 16 ∧ FewKeys (call.keys keys) calls

/-- Every call terminates and returns what was last written. -/
def Exact (fast_hasher : XORFastHash) (storage : XORFastHashStorage) (written : NodeID → Option Key) : List Call → Prop
  | [] => True
  | call :: calls => ∃ storage' result, storage.perform fast_hasher call = some (storage',result) ∧
      (∀ key, call.wanted written = some key → result = some key) ∧
      Exact fast_hasher storage' (call.written written) calls

/-- While the number of `Clear`s is at the maximum of the counter, only the greatest id is asked for. -/
def Unworn (clears : ℕ) : List Call → Prop
  | [] => True
  | call :: calls => (clears % 2 ^ 32 = 2 ^ 32 - 1 → ∀ node, call.node = some node → node = MAX) ∧
      Unworn (if call = .clear then clears + 1 else clears) calls

section Probe
variable {storage : XORFastHashStorage} {node : NodeID} {start position : Position} {fuel : ℕ}

private theorem next_step (start : Position) (j : ℕ) : start + 1 + BitVec.ofNat 16 j = start + BitVec.ofNat 16 (j + 1) := by
  rw [Nat.add_comm j 1,BitVec.ofNat_add,← BitVec.add_assoc]
  rfl

private theorem probe_some (found : storage.probe node fuel start = some position) :
    ∃ j < fuel, position = start + BitVec.ofNat 16 j ∧ storage.taken node position = false ∧
      ∀ i < j, storage.taken node (start + BitVec.ofNat 16 i) = true := by
  induction fuel generalizing start with
  | zero => simp [probe] at found
  | succ fuel ih =>
    rw [probe] at found
    by_cases busy : storage.taken node start = true
    · rw [if_pos busy] at found
      obtain ⟨j,bound,reached,free,before⟩ := ih found
      refine ⟨j + 1,by omega,by rw [reached,next_step],free,?_⟩
      intro i less
      cases i with
      | zero => simpa using busy
      | succ i => exact next_step start i ▸ before i (by omega)
    · rw [if_neg busy] at found
      cases found
      exact ⟨0,by omega,by simp,by simpa using busy,by simp⟩

private theorem probe_isSome {j : ℕ} (less : j < fuel) (free : storage.taken node (start + BitVec.ofNat 16 j) = false) :
    ∃ position, storage.probe node fuel start = some position := by
  induction fuel generalizing start j with
  | zero => omega
  | succ fuel ih =>
    rw [probe]
    by_cases busy : storage.taken node start = true
    · rw [if_pos busy]
      cases j with
      | zero => simp [busy] at free
      | succ j => exact ih (Nat.lt_of_succ_lt_succ less) ((next_step start j).symm ▸ free)
    · exact ⟨start,by rw [if_neg busy]⟩

private theorem exists_steps (start position : Position) : ∃ j < 2 ^ 16, position = start + BitVec.ofNat 16 j := by
  refine ⟨(position - start).toNat,(position - start).isLt,?_⟩
  rw [BitVec.ofNat_toNat,BitVec.setWidth_eq]
  bv_omega

end Probe

/-! ### What the cells hold -/

/-- Before the counter reaches its maximum: the keys of this epoch have a cell each, at the end of a row of taken cells,
    and no timestamp is still to come. -/
structure Live (storage : XORFastHashStorage) (keys : Finset NodeID) (written : NodeID → Option Key) : Prop where
  counting : storage.current_timestamp ≠ MAX
  few : keys.card < 2 ^ 16
  past : ∀ p, (storage.positions p).time = MAX ∨ (storage.positions p).time ≤ storage.current_timestamp
  owner : ∀ p, (storage.positions p).time = storage.current_timestamp → (storage.positions p).id ∈ keys
  distinct : ∀ p q, (storage.positions p).time = storage.current_timestamp → (storage.positions q).time = storage.current_timestamp →
    (storage.positions p).id = (storage.positions q).id → p = q
  reach : ∀ node ∈ keys, ∃ j < 2 ^ 16, (storage.positions (fast_hasher.apply node + BitVec.ofNat 16 j)).id = node ∧
    ∀ i ≤ j, (storage.positions (fast_hasher.apply node + BitVec.ofNat 16 i)).time = storage.current_timestamp
  value : ∀ node key, written node = some key → node ∈ keys ∧
    ∀ p, (storage.positions p).time = storage.current_timestamp → (storage.positions p).id = node → (storage.positions p).key = key

/-- At the maximum every cell looks taken by the greatest id. -/
structure Worn (storage : XORFastHashStorage) (written : NodeID → Option Key) : Prop where
  stopped : storage.current_timestamp = MAX
  cells : ∀ p, (storage.positions p).time = MAX ∧ (storage.positions p).id = MAX
  value : ∀ node key, written node = some key → node = MAX ∧ (storage.positions (fast_hasher.apply MAX)).key = key

variable {fast_hasher} {storage : XORFastHashStorage} {keys : Finset NodeID} {written written' : NodeID → Option Key}
  {node : NodeID} {key : Key} {position : Position}

private theorem taken_eq_false : storage.taken node position = false ↔
    (storage.positions position).time ≠ storage.current_timestamp ∨ (storage.positions position).id = node := by
  simp [taken,imp_iff_not_or]

private theorem taken_eq_true : storage.taken node position = true ↔
    (storage.positions position).time = storage.current_timestamp ∧ (storage.positions position).id ≠ node := by
  simp [taken]

private theorem Live.exists_free (live : Live fast_hasher storage keys written) :
    ∃ p, (storage.positions p).time ≠ storage.current_timestamp := by
  by_contra full
  push Not at full
  have many : (Finset.univ : Finset (Fin (2 ^ 16))).card ≤ keys.card := by
    apply Finset.card_le_card_of_injOn fun i => (storage.positions (BitVec.ofFin i)).id
    · intro i _
      exact live.owner _ (full _)
    · intro i _ j _ same
      exact BitVec.ofFin.inj (live.distinct _ _ (full _) (full _) same)
  rw [Finset.card_univ,Fintype.card_fin] at many
  exact absurd live.few (not_lt.mpr many)

private theorem Live.find_isSome (live : Live fast_hasher storage keys written) (node : NodeID) :
    ∃ position, storage.find fast_hasher node = some position := by
  obtain ⟨free,notNow⟩ := live.exists_free
  obtain ⟨j,less,rfl⟩ := exists_steps (fast_hasher.apply node) free
  exact probe_isSome less (taken_eq_false.mpr (.inl notNow))

private theorem Live.find_owned (live : Live fast_hasher storage keys written) (found : storage.find fast_hasher node = some position)
    {q : Position} (now : (storage.positions q).time = storage.current_timestamp) (owned : (storage.positions q).id = node) :
    position = q := by
  obtain ⟨j,-,rfl,free,before⟩ := probe_some found
  obtain ⟨k,-,id,row⟩ := live.reach node (owned ▸ live.owner q now)
  have cell : fast_hasher.apply node + BitVec.ofNat 16 k = q := live.distinct _ _ (row k le_rfl) now (id.trans owned.symm)
  rcases Nat.lt_or_ge k j with less | ge
  · exact absurd id (taken_eq_true.mp (before k less)).2
  · have inRow := row j ge
    exact live.distinct _ _ inRow now (((taken_eq_false.mp free).resolve_left (absurd inRow)).trans owned.symm)

private theorem Live.written_found (live : Live fast_hasher storage keys written) (found : storage.find fast_hasher node = some position)
    (known : written node = some key) : (storage.positions position).key = key := by
  obtain ⟨member,value⟩ := live.value node key known
  obtain ⟨j,-,id,row⟩ := live.reach node member
  rw [live.find_owned found (row j le_rfl) id]
  exact value _ (row j le_rfl) id

private theorem setCell_same (cell : HashCell) : (storage.setCell position cell).positions position = cell := update_self ..
private theorem setCell_other (cell : HashCell) {q : Position} (other : q ≠ position) :
    (storage.setCell position cell).positions q = storage.positions q := update_of_ne other ..
private theorem setCell_setCell (cell cell' : HashCell) : (storage.setCell position cell).setCell position cell' = storage.setCell position cell' := by
  simp [setCell]

private theorem setCell_time {q : Position} (now : (storage.positions q).time = storage.current_timestamp ∨ q = position) :
    ((storage.setCell position ⟨storage.current_timestamp,node,key⟩).positions q).time = storage.current_timestamp := by
  by_cases same : q = position
  · rw [same,setCell_same]
  · rw [setCell_other _ same]
    exact now.resolve_right same

private theorem Live.setCell (live : Live fast_hasher storage keys written) (found : storage.find fast_hasher node = some position)
    (few : (insert node keys).card < 2 ^ 16)
    (writes : ∀ node' key', written' node' = some key' → (node' = node ∧ key' = key) ∨ (node' ≠ node ∧ written node' = some key')) :
    Live fast_hasher (storage.setCell position ⟨storage.current_timestamp,node,key⟩) (insert node keys) written' := by
  obtain ⟨j,less,reached,free,before⟩ := probe_some found
  have only (q : Position) (now : (storage.positions q).time = storage.current_timestamp) (owned : (storage.positions q).id = node) :
      q = position := (live.find_owned found now owned).symm
  refine ⟨live.counting,few,?_,?_,?_,?_,?_⟩
  · intro p
    by_cases same : p = position
    · rw [same,setCell_same]
      exact .inr (BitVec.le_refl _)
    · rw [setCell_other _ same]
      exact live.past p
  · intro p now
    by_cases same : p = position
    · rw [same,setCell_same]
      exact Finset.mem_insert_self ..
    · rw [setCell_other _ same] at now ⊢
      exact Finset.mem_insert_of_mem (live.owner p now)
  · intro p q nowP nowQ ids
    by_cases sameP : p = position
    · by_cases sameQ : q = position
      · rw [sameP,sameQ]
      · rw [sameP,setCell_same,setCell_other _ sameQ] at ids
        rw [setCell_other _ sameQ] at nowQ
        exact absurd (only q nowQ ids.symm) sameQ
    · rw [setCell_other _ sameP] at ids nowP
      by_cases sameQ : q = position
      · rw [sameQ,setCell_same] at ids
        exact absurd (only p nowP ids) sameP
      · rw [setCell_other _ sameQ] at ids nowQ
        exact live.distinct p q nowP nowQ ids
  · intro node' member
    by_cases same : node' = node
    · subst same
      refine ⟨j,less,by rw [← reached,setCell_same],?_⟩
      intro i le
      apply setCell_time
      rcases Nat.lt_or_eq_of_le le with earlier | rfl
      · exact .inl (taken_eq_true.mp (before i earlier)).1
      · exact .inr reached.symm
    · obtain ⟨k,bound,id,row⟩ := live.reach node' ((Finset.mem_insert.mp member).resolve_left same)
      refine ⟨k,bound,?_,fun i le => setCell_time (.inl (row i le))⟩
      have other : fast_hasher.apply node' + BitVec.ofNat 16 k ≠ position := by
        intro equal
        have now := row k le_rfl
        rw [equal] at id now
        exact same (id.symm.trans ((taken_eq_false.mp free).resolve_left (absurd now)))
      rw [setCell_other _ other,id]
  · intro node' key' known
    rcases writes node' key' known with ⟨rfl,rfl⟩ | ⟨other,old⟩
    · refine ⟨Finset.mem_insert_self ..,?_⟩
      intro p now owned
      by_cases same : p = position
      · rw [same,setCell_same]
      · rw [setCell_other _ same] at now owned
        exact absurd (only p now owned) same
    · obtain ⟨member,value⟩ := live.value node' key' old
      refine ⟨Finset.mem_insert_of_mem member,?_⟩
      intro p now owned
      have different : p ≠ position := by
        rintro rfl
        rw [setCell_same] at owned
        exact other owned.symm
      rw [setCell_other _ different] at now owned ⊢
      exact value p now owned

private theorem toNat_MAX : MAX.toNat = 2 ^ 32 - 1 := by decide

private theorem Live.below (live : Live fast_hasher storage keys written) : storage.current_timestamp.toNat + 1 < 2 ^ 32 := by
  have different : storage.current_timestamp.toNat ≠ 2 ^ 32 - 1 := fun same =>
    live.counting (BitVec.eq_of_toNat_eq (same.trans toNat_MAX.symm))
  have bound := storage.current_timestamp.isLt
  omega

private theorem Live.Clear (live : Live fast_hasher storage keys written) (next : storage.current_timestamp + 1 ≠ MAX) :
    Live fast_hasher storage.Clear ∅ fun _ => none := by
  have cleared : storage.Clear = ⟨storage.positions,storage.current_timestamp + 1⟩ := by
    rw [XORFastHashStorage.Clear,if_neg (Ne.symm next)]
  have stale (p : Position) : (storage.positions p).time ≠ storage.current_timestamp + 1 := by
    have below := live.below
    cases live.past p with
    | inl never => exact never ▸ next.symm
    | inr past => bv_omega
  rw [cleared]
  refine ⟨next,by simp,?_,fun p now => absurd now (stale p),fun p _ now => absurd now (stale p),by simp,by simp⟩
  intro p
  cases live.past p with
  | inl never => exact .inl never
  | inr past =>
    have below := live.below
    right
    simp only
    bv_omega

private theorem live_of_unused (counting : storage.current_timestamp ≠ MAX) (unused : ∀ p, (storage.positions p).time = MAX) :
    Live fast_hasher storage ∅ fun _ => none := by
  have free (p : Position) : (storage.positions p).time ≠ storage.current_timestamp := unused p ▸ counting.symm
  exact ⟨counting,by simp,fun p => .inl (unused p),fun p now => absurd now (free p),fun p _ now => absurd now (free p),
    by simp,by simp⟩

private theorem Live.Clear_last (last : storage.current_timestamp + 1 = MAX) : Worn fast_hasher storage.Clear fun _ => none := by
  rw [XORFastHashStorage.Clear,if_pos last.symm]
  exact ⟨last,fun _ => ⟨rfl,rfl⟩,by simp⟩

private theorem Worn.Clear (worn : Worn fast_hasher storage written) : Live fast_hasher storage.Clear ∅ fun _ => none := by
  have zero : storage.current_timestamp + 1 = 0 := by
    rw [worn.stopped]
    decide
  have cleared : storage.Clear = ⟨storage.positions,0⟩ := by
    rw [XORFastHashStorage.Clear,zero,if_neg (by decide)]
  rw [cleared]
  exact live_of_unused (by decide : (0 : BitVec 32) ≠ MAX) fun p => (worn.cells p).1

private theorem Worn.find_none (worn : Worn fast_hasher storage written) (other : node ≠ MAX) : storage.find fast_hasher node = none := by
  cases found : storage.find fast_hasher node with
  | none => rfl
  | some position =>
    obtain ⟨-,-,-,free,-⟩ := probe_some found
    have cell := worn.cells position
    rcases taken_eq_false.mp free with notNow | same
    · exact absurd (cell.1.trans worn.stopped.symm) notNow
    · exact absurd (same.symm.trans cell.2) other

private theorem Worn.find_max (worn : Worn fast_hasher storage written) :
    storage.find fast_hasher MAX = some (fast_hasher.apply MAX) := by
  have free : storage.taken MAX (fast_hasher.apply MAX) = false := taken_eq_false.mpr (.inr (worn.cells _).2)
  rw [find,show 2 ^ 16 = 65535 + 1 from rfl,probe,if_neg (by simp [free])]

private theorem Worn.setCell (worn : Worn fast_hasher storage written)
    (writes : ∀ node' key', written' node' = some key' → (node' = MAX ∧ key' = key) ∨ (node' ≠ MAX ∧ written node' = some key')) :
    Worn fast_hasher (storage.setCell (fast_hasher.apply MAX) ⟨storage.current_timestamp,MAX,key⟩) written' := by
  refine ⟨worn.stopped,?_,?_⟩
  · intro p
    by_cases same : p = fast_hasher.apply MAX
    · rw [same,setCell_same]
      exact ⟨worn.stopped,rfl⟩
    · rw [setCell_other _ same]
      exact worn.cells p
  · intro node' key' known
    rcases writes node' key' known with ⟨rfl,rfl⟩ | ⟨other,old⟩
    · exact ⟨rfl,by rw [setCell_same]⟩
    · exact absurd (worn.value node' key' old).1 other

/-! ### Runs -/

/-- A storage after so many `Clear`s. -/
structure After (fast_hasher : XORFastHash) (clears : ℕ) (storage : XORFastHashStorage) (keys : Finset NodeID)
    (written : NodeID → Option Key) : Prop where
  counted : storage.current_timestamp = BitVec.ofNat 32 clears
  cells : Live fast_hasher storage keys written ∨ Worn fast_hasher storage written

variable {clears : ℕ} {call : Call} {calls : List Call}

private theorem After.stopped_iff (after : After fast_hasher clears storage keys written) :
    storage.current_timestamp = MAX ↔ clears % 2 ^ 32 = 2 ^ 32 - 1 := by
  rw [after.counted,← BitVec.toNat_inj,BitVec.toNat_ofNat,toNat_MAX]

private theorem after_new : After fast_hasher 0 new ∅ fun _ => none :=
  ⟨rfl,.inl (live_of_unused (by decide : (0 : BitVec 32) ≠ MAX) fun _ => rfl)⟩

private theorem After.Clear (after : After fast_hasher clears storage keys written) :
    After fast_hasher (clears + 1) storage.Clear ∅ fun _ => none := by
  refine ⟨?_,?_⟩
  · have counted : storage.Clear.current_timestamp = storage.current_timestamp + 1 := by
      rw [XORFastHashStorage.Clear]
      split <;> rfl
    rw [counted,after.counted,BitVec.ofNat_add]
    rfl
  · rcases after.cells with live | worn
    · by_cases last : storage.current_timestamp + 1 = MAX
      · exact .inr (Live.Clear_last last)
      · exact .inl (live.Clear last)
    · exact .inl worn.Clear

private theorem written_assign (node node' : NodeID) (key key' : Key) (known : (Call.assign node key).written written node' = some key') :
    (node' = node ∧ key' = key) ∨ (node' ≠ node ∧ written node' = some key') := by
  by_cases same : node' = node
  · subst same
    rw [Call.written,update_self,some.injEq] at known
    exact .inl ⟨rfl,known.symm⟩
  · rw [Call.written,update_of_ne same] at known
    exact .inr ⟨same,known⟩

private theorem index_eq (found : storage.find fast_hasher node = some position) :
    storage.index fast_hasher node = some
      (storage.setCell position ⟨storage.current_timestamp,node,(storage.positions position).key⟩,position) := by
  rw [index,found]
  rfl

private theorem perform_assign (found : storage.find fast_hasher node = some position) (key : Key) :
    storage.perform fast_hasher (.assign node key) =
      some (storage.setCell position ⟨storage.current_timestamp,node,key⟩,none) := by
  simp only [perform,index_eq found,map_some,setCell_same,setCell_setCell]

private theorem perform_read (found : storage.find fast_hasher node = some position) :
    storage.perform fast_hasher (.read node) =
      some (storage.setCell position ⟨storage.current_timestamp,node,(storage.positions position).key⟩,
        some (storage.positions position).key) := by
  simp only [perform,index_eq found,map_some,setCell_same]

private theorem perform_peek (found : storage.find fast_hasher node = some position) :
    storage.perform fast_hasher (.peek node) = some (storage,some (storage.positions position).key) := by
  simp only [perform,peek_index,found,map_some]

/-- What holds after a call that terminates. -/
def Performed (fast_hasher : XORFastHash) (clears : ℕ) (storage : XORFastHashStorage) (keys : Finset NodeID)
    (written : NodeID → Option Key) (call : Call) : Prop :=
  ∃ storage' result, storage.perform fast_hasher call = some (storage',result) ∧
    (∀ key, call.wanted written = some key → result = some key) ∧
    After fast_hasher (if call = .clear then clears + 1 else clears) storage' (call.keys keys) (call.written written)

private theorem Live.step (live : Live fast_hasher storage keys written) (after : After fast_hasher clears storage keys written)
    (few : (call.keys keys).card < 2 ^ 16) : Performed fast_hasher clears storage keys written call := by
  cases call with
  | assign node key =>
    obtain ⟨position,found⟩ := live.find_isSome node
    refine ⟨_,_,perform_assign found key,by simp [Call.wanted],?_⟩
    exact ⟨after.counted,.inl (live.setCell found few fun node' key' => written_assign node node' key key')⟩
  | read node =>
    obtain ⟨position,found⟩ := live.find_isSome node
    refine ⟨_,_,perform_read found,fun key known => congrArg some (live.written_found found known),?_⟩
    refine ⟨after.counted,.inl (live.setCell found few fun node' key' known => ?_)⟩
    by_cases same : node' = node
    · subst same
      exact .inl ⟨rfl,(live.written_found found known).symm⟩
    · exact .inr ⟨same,known⟩
  | peek node =>
    obtain ⟨position,found⟩ := live.find_isSome node
    exact ⟨_,_,perform_peek found,fun key known => congrArg some (live.written_found found known),after⟩
  | clear => exact ⟨_,_,rfl,by simp [Call.wanted],after.Clear⟩

private theorem Worn.step (worn : Worn fast_hasher storage written) (after : After fast_hasher clears storage keys written)
    (only : ∀ node, call.node = some node → node = MAX) : Performed fast_hasher clears storage keys written call := by
  cases call with
  | assign node key =>
    obtain rfl := only node rfl
    refine ⟨_,_,perform_assign worn.find_max key,by simp [Call.wanted],after.counted,.inr ?_⟩
    exact worn.setCell fun node' key' => written_assign MAX node' key key'
  | read node =>
    obtain rfl := only node rfl
    refine ⟨_,_,perform_read worn.find_max,fun key known => congrArg some (worn.value MAX key known).2,after.counted,.inr ?_⟩
    refine worn.setCell fun node' key' known => ?_
    obtain ⟨rfl,same⟩ := worn.value node' key' known
    exact .inl ⟨rfl,same.symm⟩
  | peek node =>
    obtain rfl := only node rfl
    exact ⟨_,_,perform_peek worn.find_max,fun key known => congrArg some (worn.value MAX key known).2,after⟩
  | clear => exact ⟨_,_,rfl,by simp [Call.wanted],after.Clear⟩

private theorem Worn.perform_none (worn : Worn fast_hasher storage written) (asked : call.node = some node) (other : node ≠ MAX) :
    storage.perform fast_hasher call = none := by
  have never := worn.find_none other
  cases call with
  | assign node' key =>
    cases asked
    simp [perform,index,never]
  | read node' =>
    cases asked
    simp [perform,index,never]
  | peek node' =>
    cases asked
    simp [perform,peek_index,never]
  | clear => cases asked

private theorem After.exact_iff (after : After fast_hasher clears storage keys written) (few : FewKeys keys calls) :
    Exact fast_hasher storage written calls ↔ Unworn clears calls := by
  induction calls generalizing clears storage keys written with
  | nil => exact Iff.rfl
  | cons call calls ih =>
    rw [Exact,Unworn]
    by_cases fits : clears % 2 ^ 32 = 2 ^ 32 - 1 → ∀ node, call.node = some node → node = MAX
    · have performed : Performed fast_hasher clears storage keys written call := by
        rcases after.cells with live | worn
        · exact live.step after few.1
        · exact worn.step after (fits (after.stopped_iff.mp worn.stopped))
      obtain ⟨next,result,done,wanted,after'⟩ := performed
      constructor
      · rintro ⟨storage',result',done',-,rest⟩
        obtain ⟨rfl,-⟩ := Prod.mk.inj (some.inj (done.symm.trans done'))
        exact ⟨fits,(ih after' few.2).mp rest⟩
      · rintro ⟨-,rest⟩
        exact ⟨next,result,done,wanted,(ih after' few.2).mpr rest⟩
    · refine iff_of_false ?_ fun unworn => fits unworn.1
      rintro ⟨storage',result',done,-⟩
      push Not at fits
      obtain ⟨atMax,node,asked,other⟩ := fits
      rcases after.cells with live | worn
      · exact live.counting (after.stopped_iff.mpr atMax)
      · rw [worn.perform_none asked other] at done
        cases done

/-- The storage is an exact map exactly where, whenever the counter reaches its maximum, no key but the greatest id is
    asked for. -/
theorem exact_map_iff (fast_hasher : XORFastHash) (calls : List Call) (few : FewKeys ∅ calls) :
    Exact fast_hasher new (fun _ => none) calls ↔ Unworn 0 calls :=
  after_new.exact_iff few

theorem exact_map_iff_cleared :
    Exact ⟨id,id⟩ new (fun _ => none) [.clear,.assign 5 7,.peek 5] ↔ Unworn 0 [.clear,.assign 5 7,.peek 5] :=
  exact_map_iff ⟨id,id⟩ _ (by simp [FewKeys,Call.keys])

private theorem unworn_clears (n clears : ℕ) (calls : List Call) :
    Unworn clears (List.replicate n .clear ++ calls) ↔ Unworn (clears + n) calls := by
  induction n generalizing clears with
  | zero => rfl
  | succ n ih =>
    rw [List.replicate_succ,List.cons_append,Unworn,if_pos rfl,ih,Nat.add_assoc,Nat.add_comm 1 n]
    exact and_iff_right (by simp [Call.node])

private theorem fewKeys_clears (n : ℕ) {calls : List Call} (few : FewKeys ∅ calls) : FewKeys ∅ (List.replicate n .clear ++ calls) := by
  induction n with
  | zero => exact few
  | succ n ih => exact ⟨by simp [Call.keys],ih⟩

/-- After 2^32 - 1 `Clear`s the first access to a key never returns. -/
theorem not_exact_map : FewKeys ∅ (List.replicate (2 ^ 32 - 1) Call.clear ++ [.assign 0 7]) ∧
    ¬ Exact ⟨id,id⟩ new (fun _ => none) (List.replicate (2 ^ 32 - 1) Call.clear ++ [.assign 0 7]) := by
  have few : FewKeys ∅ (List.replicate (2 ^ 32 - 1) Call.clear ++ [.assign 0 7]) := by
    apply fewKeys_clears
    simp [FewKeys,Call.keys]
  refine ⟨few,fun exact => ?_⟩
  have unworn := (after_new.exact_iff few).mp exact
  rw [unworn_clears] at unworn
  exact absurd (unworn.1 (by decide) 0 rfl) (by decide)

end XORFastHashStorage

end Osrm.XorFastHashStorage
