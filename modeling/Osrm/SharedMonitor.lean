import Mathlib.Tactic

/-!
`storage::SharedMonitor`, a condition variable made of semaphores. Whoever waits constructs a semaphore in the next
slot of a ring and blocks on it; `notify_all` posts the semaphores between the two ends of the ring.
-/
namespace Osrm.SharedMonitor
open List

def buffer_size : ℕ := 4096 * 4

/-- A semaphore that was constructed, for whom, and how often it was posted. -/
structure Semaphore where
  waiter : ℕ
  count : ℕ
  deriving DecidableEq, Repr

/-- `InternalData`; a slot without a semaphore has the bytes of an invalid one. -/
structure InternalData where
  head : ℕ
  tail : ℕ
  buffer : ℕ → Option Semaphore

namespace InternalData
variable (data : InternalData)

def initial : InternalData := ⟨0,0,fun _ => none⟩
def size : ℕ := if data.head ≥ data.tail then data.head - data.tail else buffer_size + data.head - data.tail
def empty : Bool := data.tail == data.head

/-- `enqueue_semaphore`, with its slot or exception. A semaphore still in the slot is destroyed first. -/
def enqueue_semaphore (waiter : ℕ) : Except String ℕ × InternalData :=
  let semaphore := data.head
  let data := { data with head := (data.head + 1) % buffer_size }
  if data.size ≥ buffer_size / 2 then (.error "ring buffer is too small",data)
  else (.ok semaphore,{ data with buffer := Function.update data.buffer semaphore (some ⟨waiter,0⟩) })

/-- `dequeue_semaphore`, with the slot that it returns. -/
def dequeue_semaphore : ℕ × InternalData := (data.tail,{ data with tail := (data.tail + 1) % buffer_size })
/-- `post` on the semaphore of a slot; posting raw bytes wakes nobody. -/
def post (semaphore : ℕ) : InternalData :=
  let posted := (data.buffer semaphore).map fun s => { s with count := s.count + 1 }
  { data with buffer := Function.update data.buffer semaphore posted }
def pending : List (Option Semaphore) :=
  (List.range data.size).map fun i => data.buffer ((data.tail + i) % buffer_size)

end InternalData

/-- The loop of `notify_all`, with the waiters whose semaphores it posts in turn. -/
def notifyLoop : ℕ → InternalData → InternalData × List (Option ℕ)
  | 0, data => (data,[])
  | fuel + 1, data =>
    if data.empty then (data,[])
    else
      let dequeued := data.dequeue_semaphore
      let later := notifyLoop fuel (dequeued.2.post dequeued.1)
      (later.1,(data.buffer dequeued.1).map (·.waiter) :: later.2)

/-- `notify_all`; the ring has no more semaphores than slots. -/
def notify_all (data : InternalData) : InternalData × List (Option ℕ) := notifyLoop buffer_size data

inductive Call
  | wait
  | notify_all
  deriving DecidableEq, Repr

/-- The monitor between two calls: the data, the number of calls of `wait` and the waiters not notified yet, in order. -/
structure Monitor where
  internal : InternalData
  arrived : ℕ
  waiting : List ℕ

namespace Monitor

def initial : Monitor := ⟨.initial,0,[]⟩

def step (m : Monitor) : Call → Monitor
  | .wait =>
    let enqueued := m.internal.enqueue_semaphore m.arrived
    ⟨enqueued.2,m.arrived + 1,if enqueued.1.isOk then m.waiting ++ [m.arrived] else m.waiting⟩
  | .notify_all => ⟨(SharedMonitor.notify_all m.internal).1,m.arrived,[]⟩

def run (calls : List Call) : Monitor := calls.foldl step initial

/-- Every slot between the ends holds a fresh semaphore, one for each waiter. -/
structure Sound (m : Monitor) : Prop where
  slots : m.internal.pending = m.waiting.map fun waiter => some ⟨waiter,0⟩
  distinct : m.waiting.Nodup

/-- What a call has to do: `notify_all` posts every waiter once in order; a `wait` that throws changes nothing. -/
def Keeps (m : Monitor) : Call → Prop
  | .wait => ∀ message, (m.internal.enqueue_semaphore m.arrived).1 = .error message →
      (m.internal.enqueue_semaphore m.arrived).2 = m.internal
  | .notify_all => (SharedMonitor.notify_all m.internal).2 = m.waiting.map some ∧
      (SharedMonitor.notify_all m.internal).1.empty = true

end Monitor

def countCall (n : ℕ) : Call → ℕ
  | .wait => n + 1
  | .notify_all => 0
/-- The calls of `wait` since the last `notify_all`. -/
def waitingCalls (calls : List Call) : ℕ := calls.foldl countCall 0

/-! ### The ring -/

variable {data : InternalData} {waiting : List ℕ} {waiter : ℕ}

/-- The ring holds the waiters of a list, the first one at the tail. -/
structure Ring (data : InternalData) (waiting : List ℕ) : Prop where
  tail_lt : data.tail < buffer_size
  short : waiting.length < buffer_size / 2
  head_eq : data.head = (data.tail + waiting.length) % buffer_size
  slots : ∀ i w, waiting[i]? = some w → data.buffer ((data.tail + i) % buffer_size) = some ⟨w,0⟩

private theorem Ring.initial : Ring .initial [] := ⟨by decide,by decide,rfl,by simp⟩

private theorem Ring.size (ring : Ring data waiting) : data.size = waiting.length := by
  obtain ⟨tail_lt,short,head_eq,_⟩ := ring
  unfold InternalData.size
  unfold buffer_size at *
  split <;> omega

private theorem Ring.pending (ring : Ring data waiting) : data.pending = waiting.map fun waiter => some ⟨waiter,0⟩ := by
  unfold InternalData.pending
  rw [ring.size]
  apply ext_getElem?
  intro i
  by_cases inside : i < waiting.length
  · have slot := ring.slots i _ (getElem?_eq_getElem inside)
    simp [inside,slot]
  · simp [inside]

private theorem Ring.enqueue (ring : Ring data waiting) (waiter : ℕ) (room : waiting.length + 1 < buffer_size / 2) :
    (data.enqueue_semaphore waiter).1 = .ok data.head ∧
      Ring (data.enqueue_semaphore waiter).2 (waiting ++ [waiter]) := by
  have size := ring.size
  obtain ⟨tail_lt,short,head_eq,slots⟩ := ring
  have fits : ¬ ({ data with head := (data.head + 1) % buffer_size } : InternalData).size ≥ buffer_size / 2 := by
    unfold InternalData.size
    simp only
    unfold buffer_size at *
    split <;> omega
  simp only [InternalData.enqueue_semaphore,if_neg fits]
  refine ⟨trivial,tail_lt,by simpa using room,?_,?_⟩
  · simp only [length_append,length_singleton]
    unfold buffer_size at *
    omega
  · intro i w found
    by_cases last : i = waiting.length
    · subst last
      obtain rfl : waiter = w := by simpa using found
      simp only [head_eq,Function.update_self]
    · have inside : i < waiting.length := by
        have := (List.getElem?_eq_some_iff.mp found).1
        simp only [length_append,length_singleton] at this
        omega
      have other : (data.tail + i) % buffer_size ≠ data.head := by
        unfold buffer_size at *
        omega
      rw [getElem?_append_left inside] at found
      simp only [Function.update_of_ne other]
      exact slots i w found

private theorem Ring.full (ring : Ring data waiting) (waiter : ℕ) (full : buffer_size / 2 ≤ waiting.length + 1) :
    (data.enqueue_semaphore waiter).1 = .error "ring buffer is too small" ∧
      (data.enqueue_semaphore waiter).2.head ≠ data.head := by
  obtain ⟨tail_lt,short,head_eq,slots⟩ := ring
  have large : ({ data with head := (data.head + 1) % buffer_size } : InternalData).size ≥ buffer_size / 2 := by
    unfold InternalData.size
    simp only
    unfold buffer_size at *
    split <;> omega
  simp only [InternalData.enqueue_semaphore,if_pos large]
  refine ⟨trivial,?_⟩
  unfold buffer_size at *
  omega

private theorem Ring.dequeue (ring : Ring data (waiter :: waiting)) :
    data.empty = false ∧ data.buffer data.dequeue_semaphore.1 = some ⟨waiter,0⟩ ∧
      Ring (data.dequeue_semaphore.2.post data.dequeue_semaphore.1) waiting := by
  obtain ⟨tail_lt,short,head_eq,slots⟩ := ring
  rw [length_cons] at short head_eq
  refine ⟨?_,?_,?_,by omega,?_,?_⟩
  · simp only [InternalData.empty,beq_eq_false_iff_ne]
    unfold buffer_size at *
    omega
  · have first := slots 0 waiter rfl
    rwa [Nat.add_zero,Nat.mod_eq_of_lt tail_lt] at first
  · exact Nat.mod_lt _ (by decide)
  · simp only [InternalData.dequeue_semaphore,InternalData.post]
    unfold buffer_size at *
    omega
  · intro i w found
    have inside := (List.getElem?_eq_some_iff.mp found).1
    have slot := slots (i + 1) w (by simpa using found)
    simp only [InternalData.dequeue_semaphore,InternalData.post]
    have moved : ((data.tail + 1) % buffer_size + i) % buffer_size = (data.tail + (i + 1)) % buffer_size := by
      unfold buffer_size
      omega
    have other : (data.tail + (i + 1)) % buffer_size ≠ data.tail := by
      unfold buffer_size at *
      omega
    rw [moved,Function.update_of_ne other]
    exact slot

private theorem notifyLoop_ring (fuel : ℕ) (ring : Ring data waiting) (enough : waiting.length < fuel) :
    (notifyLoop fuel data).2 = waiting.map some ∧ Ring (notifyLoop fuel data).1 [] := by
  induction waiting generalizing data fuel with
  | nil =>
    obtain ⟨fuel,rfl⟩ : ∃ n, fuel = n + 1 := ⟨fuel - 1,by simp at enough; omega⟩
    have empty : data.empty = true := by
      have head_eq := ring.head_eq
      rw [length_nil,Nat.add_zero,Nat.mod_eq_of_lt ring.tail_lt] at head_eq
      simp [InternalData.empty,head_eq]
    rw [notifyLoop,if_pos empty]
    exact ⟨rfl,ring⟩
  | cons waiter waiting ih =>
    obtain ⟨fuel,rfl⟩ : ∃ n, fuel = n + 1 := ⟨fuel - 1,by simp at enough; omega⟩
    obtain ⟨more,slot,rest⟩ := ring.dequeue
    obtain ⟨posted,done⟩ := ih fuel rest (by simpa using enough)
    rw [notifyLoop,if_neg (by simp [more])]
    exact ⟨by simp [slot,posted],done⟩

private theorem Ring.notify_all (ring : Ring data waiting) :
    (notify_all data).2 = waiting.map some ∧ Ring (SharedMonitor.notify_all data).1 [] :=
  notifyLoop_ring buffer_size ring (ring.short.trans (by decide))

/-! ### Runs -/

def WakesOnce (calls : List Call) : Prop :=
  (∀ before, before <+: calls → (Monitor.run before).Sound) ∧
    ∀ before call, before ++ [call] <+: calls → (Monitor.run before).Keeps call
def Roomy (calls : List Call) : Prop :=
  ∀ before, before ++ [.wait] <+: calls → waitingCalls before + 1 < buffer_size / 2

structure Valid (calls : List Call) (m : Monitor) : Prop where
  ring : Ring m.internal m.waiting
  older : ∀ w ∈ m.waiting, w < m.arrived
  distinct : m.waiting.Nodup
  count : m.waiting.length = waitingCalls calls

variable {calls : List Call} {m : Monitor} {call : Call}

private theorem Valid.sound (valid : Valid calls m) : m.Sound := ⟨valid.ring.pending,valid.distinct⟩

private theorem Valid.wait (valid : Valid calls m) (room : waitingCalls calls + 1 < buffer_size / 2) :
    Valid (calls ++ [.wait]) (m.step .wait) ∧ m.Keeps .wait := by
  obtain ⟨ok,ring⟩ := valid.ring.enqueue m.arrived (valid.count ▸ room)
  have waiting : (m.step .wait).waiting = m.waiting ++ [m.arrived] := by
    simp [Monitor.step,ok,Except.isOk,Except.toBool]
  refine ⟨⟨?_,?_,?_,?_⟩,?_⟩
  · rw [waiting]
    exact ring
  · rw [waiting]
    intro w member
    rcases mem_append.mp member with old | new
    · exact (valid.older w old).trans (Nat.lt_succ_self _)
    · rw [mem_singleton.mp new]
      exact Nat.lt_succ_self _
  · rw [waiting]
    refine nodup_append.mpr ⟨valid.distinct,by simp,?_⟩
    rintro w old v new rfl
    exact absurd (valid.older w old) (by simp [mem_singleton.mp new])
  · rw [waiting]
    simp [waitingCalls,countCall,valid.count]
  · intro message error
    rw [ok] at error
    cases error

private theorem Valid.notify_all (valid : Valid calls m) :
    Valid (calls ++ [.notify_all]) (m.step .notify_all) ∧ m.Keeps .notify_all := by
  obtain ⟨posted,ring⟩ := valid.ring.notify_all
  refine ⟨⟨ring,by simp [Monitor.step],by simp [Monitor.step],by simp [Monitor.step,waitingCalls,countCall]⟩,posted,?_⟩
  have head_eq := ring.head_eq
  rw [length_nil,Nat.add_zero,Nat.mod_eq_of_lt ring.tail_lt] at head_eq
  simp [InternalData.empty,head_eq]

private theorem Roomy.prefix_of {before : List Call} (roomy : Roomy calls) (part : before <+: calls) : Roomy before :=
  fun earlier more => roomy earlier (more.trans part)
private theorem run_snoc : Monitor.run (calls ++ [call]) = (Monitor.run calls).step call := by simp [Monitor.run]

private theorem Roomy.valid (roomy : Roomy calls) : Valid calls (Monitor.run calls) := by
  induction calls using List.reverseRecOn with
  | nil => exact ⟨.initial,by simp [Monitor.run,Monitor.initial],by simp [Monitor.run,Monitor.initial],rfl⟩
  | append_singleton calls call ih =>
    have valid := ih (roomy.prefix_of (prefix_append _ _))
    rw [run_snoc]
    cases call with
    | wait => exact (valid.wait (roomy calls (prefix_refl _))).1
    | notify_all => exact valid.notify_all.1

private theorem Roomy.keeps (roomy : Roomy (calls ++ [call])) : (Monitor.run calls).Keeps call := by
  have valid := (roomy.prefix_of (prefix_append _ _)).valid
  cases call with
  | wait => exact (valid.wait (roomy calls (prefix_refl _))).2
  | notify_all => exact valid.notify_all.2

private theorem Valid.not_keeps (valid : Valid calls m) (full : buffer_size / 2 ≤ waitingCalls calls + 1) : ¬ m.Keeps .wait := by
  intro keeps
  obtain ⟨error,moved⟩ := valid.ring.full m.arrived (valid.count ▸ full)
  exact moved (congrArg InternalData.head (keeps _ error))

/-- Semaphores are posted once and in order exactly as long as no `wait` comes while one waiter less than half the ring
    is waiting. -/
theorem wakesOnce_iff_roomy (calls : List Call) : WakesOnce calls ↔ Roomy calls := by
  constructor
  · intro wakes
    induction calls using List.reverseRecOn with
    | nil =>
      intro before part
      simp at part
    | append_singleton calls call ih =>
      have earlier : Roomy calls := by
        refine ih ⟨fun before part => wakes.1 before (part.trans (prefix_append _ _)),?_⟩
        exact fun before call part => wakes.2 before call (part.trans (prefix_append _ _))
      intro before part
      rcases prefix_concat_iff.mp part with whole | inner
      · obtain ⟨rfl,same⟩ := append_inj' whole rfl
        obtain rfl : Call.wait = call := by simpa using same
        by_contra full
        exact earlier.valid.not_keeps (by omega) (wakes.2 before .wait (prefix_refl _))
      · exact earlier before inner
  · intro roomy
    refine ⟨fun before part => (roomy.prefix_of part).valid.sound,?_⟩
    exact fun before call part => (roomy.prefix_of part).keeps

private theorem waitingCalls_replicate (n : ℕ) : waitingCalls (replicate n .wait) = n := by
  induction n with
  | zero => rfl
  | succ n ih =>
    rw [replicate_succ',waitingCalls,foldl_append]
    simpa [waitingCalls,countCall] using ih

/-- The last of 8192 waiters finds no room; its exception leaves the head moved. -/
theorem wakesOnce_fails : ¬ ∀ calls, WakesOnce calls := by
  intro wakes
  have roomy : Roomy (replicate 8191 .wait) := by
    intro before part
    obtain ⟨n,bound,same⟩ : ∃ n ≤ 8191, before ++ [.wait] = replicate n .wait := by
      have length := part.length_le
      rw [length_replicate] at length
      exact ⟨_,length,eq_replicate_length.mpr fun call member =>
        eq_of_mem_replicate (part.subset member)⟩
    have count := congrArg waitingCalls same
    rw [waitingCalls_replicate] at count
    simp only [waitingCalls,foldl_append,foldl_cons,foldl_nil,countCall] at count
    simp only [waitingCalls,buffer_size]
    omega
  have kept := (wakes (replicate 8192 .wait)).2 (replicate 8191 .wait) .wait (by
    rw [← replicate_succ'])
  exact roomy.valid.not_keeps (by rw [waitingCalls_replicate]; decide) kept

end Osrm.SharedMonitor
