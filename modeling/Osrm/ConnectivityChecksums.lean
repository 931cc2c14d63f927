import Osrm.CyclicRedundancy

/-!
`util/connectivity_checksum.hpp`. Bytes and single bits are collected in a buffer of 64 bytes, and the checksum of the
buffer is computed when it is full; a run of bits is cut into bytes, the last of which may have fewer bits.
-/
namespace Osrm.ConnectivityChecksums
open List Option
open CyclicRedundancy

abbrev Checksum := BitVec 32
def CHAR_BIT : ℕ := 8

/-- `std::array<unsigned char, 64>`. -/
structure Buffer where
  bytes : List Byte
  full : bytes.length = 64
  deriving DecidableEq

/-- `buffer[i] = byte`. -/
def Buffer.store (buffer : Buffer) (i : ℕ) (byte : Byte) : Option Buffer :=
  if i < buffer.bytes.length then some ⟨buffer.bytes.set i byte,length_set.trans buffer.full⟩ else none

structure ConnectivityChecksum where
  buffer : Buffer
  checksum : Checksum
  length : ℕ
  byte_number : ℕ
  bit_number : ℕ
  deriving DecidableEq

namespace ConnectivityChecksum

def new (uninitialized : Buffer) : ConnectivityChecksum := ⟨uninitialized,0,0,0,0⟩
/-- `buffer[byte_number] = byte`. -/
def write (self : ConnectivityChecksum) (byte : Byte) : Option ConnectivityChecksum :=
  (self.buffer.store self.byte_number byte).map fun buffer => { self with buffer }
/-- `++byte_number` and `++length`. -/
def advance (self : ConnectivityChecksum) : ConnectivityChecksum :=
  { self with byte_number := self.byte_number + 1, length := self.length + 1 }
def closeBits (self : ConnectivityChecksum) : ConnectivityChecksum :=
  if self.bit_number > 0 then advance { self with bit_number := 0 } else self

section Zlib
variable (crc32 : Checksum → List Byte → Checksum) (crc32_combine : Checksum → Checksum → ℕ → Checksum)

def flush_bytes (self : ConnectivityChecksum) : ConnectivityChecksum :=
  if self.byte_number ≥ self.buffer.bytes.length then
    { self with checksum := crc32 self.checksum self.buffer.bytes, byte_number := 0 }
  else self

def process_byte (self : ConnectivityChecksum) (byte : Byte) : Option ConnectivityChecksum := do
  let self ← (flush_bytes crc32 self.closeBits).write byte
  (flush_bytes crc32 self.advance).write 0
def appendBit (byte : Byte) (bit : Bool) : Byte := (byte <<< 1) ||| BitVec.ofNat 8 bit.toNat

def process_bit (self : ConnectivityChecksum) (bit : Bool) : Option ConnectivityChecksum := do
  let byte ← self.buffer.bytes[self.byte_number]?
  let self ← self.write (appendBit byte bit)
  let self := { self with bit_number := self.bit_number + 1 }
  if self.bit_number ≥ CHAR_BIT then (flush_bytes crc32 (advance { self with bit_number := 0 })).write 0 else some self

/-- The checksum and what is left of the object. -/
def update_checksum (self : ConnectivityChecksum) (current : Checksum) : Option (Checksum × ConnectivityChecksum) :=
  let self := if self.bit_number > 0 then self.advance else self
  if self.byte_number ≤ self.buffer.bytes.length then
    let checksum := crc32 self.checksum (self.buffer.bytes.take self.byte_number)
    let checksum := crc32_combine current checksum self.length
    (write { self with checksum, length := 0, byte_number := 0, bit_number := 0 } 0).map fun self => (checksum,self)
  else none

end Zlib
end ConnectivityChecksum

inductive Call
  | process_byte (byte : Byte)
  | process_bit (bit : Bool)
  deriving DecidableEq

open ConnectivityChecksum

section Zlib
variable (crc32 : Checksum → List Byte → Checksum) (crc32_combine : Checksum → Checksum → ℕ → Checksum)

def perform (self : ConnectivityChecksum) : Call → Option ConnectivityChecksum
  | .process_byte byte => self.process_byte crc32 byte
  | .process_bit bit => self.process_bit crc32 bit

/-- The checksum behind `current` of a new object that is fed with calls. -/
def checksumOf (current : Checksum) (uninitialized : Buffer) (calls : List Call) : Option Checksum := do
  let self ← calls.foldlM (perform crc32) (new uninitialized)
  let (checksum,_) ← self.update_checksum crc32 crc32_combine current
  return checksum

def checksumOfParts (current : Checksum) (parts : List (Buffer × List Call)) : Option Checksum :=
  parts.foldlM (fun current (uninitialized,calls) => checksumOf crc32 crc32_combine current uninitialized calls) current

end Zlib

def byteOf (bits : List Bool) : Byte := BitVec.ofNat 8 (bits.foldl (fun value bit => 2 * value + bit.toNat) 0)
def cut : List Bool → List Byte
  | a :: b :: c :: d :: e :: f :: g :: h :: rest => byteOf [a,b,c,d,e,f,g,h] :: cut rest
  | [] => []
  | partial_ => [byteOf partial_]

def bytesFrom (run : List Bool) : List Call → List Byte
  | [] => cut run
  | .process_byte byte :: calls => cut run ++ byte :: bytesFrom [] calls
  | .process_bit bit :: calls => bytesFrom (run ++ [bit]) calls

def bytesOf (calls : List Call) : List Byte := bytesFrom [] calls

section Bytes
variable {chunk run pending : List Bool} {calls calls' : List Call}

private theorem cut_chunk (size : chunk.length = 8) (run : List Bool) : cut (chunk ++ run) = byteOf chunk :: cut run := by
  match chunk,size with
  | [_,_,_,_,_,_,_,_],_ => rfl

private theorem cut_pending (some_ : pending ≠ []) (few : pending.length < 8) : cut pending = [byteOf pending] := by
  match pending,some_,few with
  | [_],_,_ => rfl
  | [_,_],_,_ => rfl
  | [_,_,_],_,_ => rfl
  | [_,_,_,_],_,_ => rfl
  | [_,_,_,_,_],_,_ => rfl
  | [_,_,_,_,_,_],_,_ => rfl
  | [_,_,_,_,_,_,_],_,_ => rfl

private theorem bytesFrom_chunk (size : chunk.length = 8) (run : List Bool) (calls : List Call) :
    bytesFrom (chunk ++ run) calls = byteOf chunk :: bytesFrom run calls := by
  induction calls generalizing run with
  | nil => exact cut_chunk size run
  | cons call calls ih =>
    cases call with
    | process_byte byte => simp only [bytesFrom,cut_chunk size,cons_append]
    | process_bit bit =>
      rw [bytesFrom,bytesFrom,append_assoc]
      exact ih (run ++ [bit])

private theorem bytesFrom_append (run : List Bool) (calls : List Call) (byte : Byte) (calls' : List Call) :
    bytesFrom run (calls ++ .process_byte byte :: calls') = bytesFrom run calls ++ bytesOf (.process_byte byte :: calls') := by
  induction calls generalizing run with
  | nil => rfl
  | cons call calls ih =>
    cases call with
    | process_byte other => simp only [cons_append,bytesFrom,ih,append_assoc]
    | process_bit bit => simp only [cons_append,bytesFrom,ih]

private theorem byteOf_append (pending : List Bool) (bit : Bool) : byteOf (pending ++ [bit]) = appendBit (byteOf pending) bit := by
  have shifted (value : ℕ) : BitVec.ofNat 8 value <<< 1 = BitVec.ofNat 8 (value <<< 1) := by
    apply BitVec.eq_of_toNat_eq
    simp [Nat.shiftLeft_eq]
  have small : bit.toNat < 2 ^ 1 := by cases bit <;> decide
  rw [byteOf,byteOf,appendBit,foldl_append,shifted,← BitVec.ofNat_or,← Nat.shiftLeft_add_eq_or_of_lt small,Nat.shiftLeft_eq,
    Nat.mul_comm]
  rfl

end Bytes

/-! ### The buffer -/

/-- What is relied on of zlib: checksums are continued by more bytes and joined. -/
structure Zlib (crc32 : Checksum → List Byte → Checksum) (crc32_combine : Checksum → Checksum → ℕ → Checksum) : Prop where
  nothing : ∀ crc, crc32 crc [] = crc
  incremental : ∀ crc bytes bytes', crc32 crc (bytes ++ bytes') = crc32 (crc32 crc bytes) bytes'
  combine : ∀ bytes bytes', crc32_combine (crc32 0 bytes) (crc32 0 bytes') bytes'.length = crc32 0 (bytes ++ bytes')

section Objects
variable {crc32 : Checksum → List Byte → Checksum} {crc32_combine : Checksum → Checksum → ℕ → Checksum} {self : ConnectivityChecksum}
  {done : List Byte} {pending : List Bool} {byte : Byte}

/-- The bytes that are complete, in the checksum and in the buffer. -/
structure Stored (crc32 : Checksum → List Byte → Checksum) (object : ConnectivityChecksum) (done : List Byte) : Prop where
  fits : object.byte_number ≤ 64
  checksum : crc32 object.checksum (object.buffer.bytes.take object.byte_number) = crc32 0 done
  length : object.length = done.length

def Next (self : ConnectivityChecksum) (byte : Byte) : Prop := self.buffer.bytes[self.byte_number]? = some byte

private theorem Stored.advance (zlib : Zlib crc32 crc32_combine) (stored : Stored crc32 self done) (room : self.byte_number < 64)
    (next : Next self byte) : Stored crc32 self.advance (done ++ [byte]) := by
  refine ⟨room,?_,by simp [ConnectivityChecksum.advance,stored.length]⟩
  simp only [ConnectivityChecksum.advance]
  rw [take_add_one,next,zlib.incremental,stored.checksum,zlib.incremental]
  rfl

private theorem Stored.flush (zlib : Zlib crc32 crc32_combine) (stored : Stored crc32 self done) :
    Stored crc32 (self.flush_bytes crc32) done ∧ (self.flush_bytes crc32).byte_number < 64 ∧
      (self.flush_bytes crc32).bit_number = self.bit_number := by
  rw [flush_bytes,self.buffer.full]
  by_cases filled : self.byte_number ≥ 64
  · have last : self.byte_number = 64 := Nat.le_antisymm stored.fits filled
    have whole := stored.checksum
    rw [last,take_of_length_le self.buffer.full.le] at whole
    rw [if_pos filled]
    exact ⟨⟨Nat.zero_le _,by rw [take_zero,zlib.nothing,whole],stored.length⟩,Nat.zero_lt_succ _,rfl⟩
  · rw [if_neg filled]
    exact ⟨stored,Nat.not_le.mp filled,rfl⟩

private theorem Stored.write (stored : Stored crc32 self done) (room : self.byte_number < 64) (byte : Byte) :
    ∃ self', self.write byte = some self' ∧ Stored crc32 self' done ∧ Next self' byte ∧ self'.byte_number = self.byte_number ∧
      self'.bit_number = self.bit_number := by
  have inside : self.byte_number < self.buffer.bytes.length := room.trans_eq self.buffer.full.symm
  refine ⟨{ self with buffer := ⟨self.buffer.bytes.set self.byte_number byte,length_set.trans self.buffer.full⟩ },?_,?_,?_,rfl,rfl⟩
  · rw [ConnectivityChecksum.write,Buffer.store,if_pos inside]
    rfl
  · refine ⟨stored.fits,?_,stored.length⟩
    simp only [take_set_of_le le_rfl]
    exact stored.checksum
  · exact getElem?_set_self inside

/-- An object between two calls. A byte with fewer than eight bits is in the buffer behind the complete ones. -/
structure Holds (crc32 : Checksum → List Byte → Checksum) (object : ConnectivityChecksum) (done : List Byte) (pending : List Bool) : Prop where
  stored : Stored crc32 object done
  room : object.byte_number < 64
  bits : object.bit_number = pending.length
  few : pending.length < 8
  next : pending ≠ [] → Next object (byteOf pending)

private theorem new_holds (crc32 : Checksum → List Byte → Checksum) (uninitialized : Buffer) : Holds crc32 (new uninitialized) [] [] :=
  ⟨⟨Nat.zero_le _,rfl,rfl⟩,Nat.zero_lt_succ _,rfl,Nat.zero_lt_succ _,fun some_ => absurd rfl some_⟩
private theorem Stored.setBits (stored : Stored crc32 self done) (bit_number : ℕ) : Stored crc32 { self with bit_number } done :=
  ⟨stored.fits,stored.checksum,stored.length⟩

private theorem Holds.closeBits (zlib : Zlib crc32 crc32_combine) (holds : Holds crc32 self done pending) :
    Stored crc32 self.closeBits (done ++ cut pending) ∧ self.closeBits.bit_number = 0 := by
  rw [ConnectivityChecksum.closeBits,holds.bits]
  by_cases none_ : pending = []
  · subst none_
    exact ⟨by simpa [cut] using holds.stored,holds.bits⟩
  · rw [if_pos (length_pos_iff.mpr none_),cut_pending none_ holds.few]
    exact ⟨(holds.stored.setBits 0).advance zlib holds.room (holds.next none_),rfl⟩

private theorem Holds.process_byte (zlib : Zlib crc32 crc32_combine) (holds : Holds crc32 self done pending) (byte : Byte) :
    ∃ self', self.process_byte crc32 byte = some self' ∧ Holds crc32 self' (done ++ cut pending ++ [byte]) [] ∧ Next self' 0 := by
  obtain ⟨closed,noBits⟩ := holds.closeBits zlib
  obtain ⟨flushed,room,bits⟩ := closed.flush zlib
  obtain ⟨written,wrote,stored,next,place,bits'⟩ := flushed.write room byte
  obtain ⟨again,roomAgain,bitsAgain⟩ := (stored.advance zlib (place.trans_lt room) next).flush zlib
  obtain ⟨cleared,clears,storedLast,zero,placeLast,bitsLast⟩ := again.write roomAgain 0
  refine ⟨cleared,?_,⟨storedLast,placeLast.trans_lt roomAgain,?_,Nat.zero_lt_succ _,fun some_ => absurd rfl some_⟩,zero⟩
  · rw [ConnectivityChecksum.process_byte,wrote]
    exact clears
  · rw [bitsLast,bitsAgain]
    exact bits'.trans (bits.trans noBits)

private theorem Holds.process_bit (zlib : Zlib crc32 crc32_combine) (holds : Holds crc32 self done pending) (next : Next self (byteOf pending))
    (bit : Bool) : ∃ self', self.process_bit crc32 bit = some self' ∧
      if pending.length = 7 then Holds crc32 self' (done ++ [byteOf (pending ++ [bit])]) [] ∧ Next self' 0
      else Holds crc32 self' done (pending ++ [bit]) ∧ Next self' (byteOf (pending ++ [bit])) := by
  obtain ⟨written,wrote,stored,next',place,bits⟩ := holds.stored.write holds.room (byteOf (pending ++ [bit]))
  have room : written.byte_number < 64 := place.trans_lt holds.room
  have few := holds.few
  rw [ConnectivityChecksum.process_bit,next]
  simp only [bind_eq_bind,bind_some,← byteOf_append,wrote,bits,holds.bits,CHAR_BIT]
  by_cases last : pending.length = 7
  · obtain ⟨flushed,roomAgain,bitsAgain⟩ := ((stored.setBits 0).advance zlib room next').flush zlib
    obtain ⟨cleared,clears,storedLast,zero,placeLast,bitsLast⟩ := flushed.write roomAgain 0
    rw [if_pos (by omega)]
    refine ⟨cleared,clears,?_⟩
    rw [if_pos last]
    exact ⟨⟨storedLast,placeLast.trans_lt roomAgain,bitsLast.trans bitsAgain,Nat.zero_lt_succ _,fun some_ => absurd rfl some_⟩,zero⟩
  · rw [if_neg (by omega)]
    refine ⟨_,rfl,?_⟩
    rw [if_neg last]
    refine ⟨⟨stored.setBits _,room,?_,?_,fun _ => next'⟩,next'⟩
    · simp
    · simp
      omega

private theorem Holds.run (zlib : Zlib crc32 crc32_combine) (holds : Holds crc32 self done pending) (next : Next self (byteOf pending))
    (calls : List Call) : ∃ self' done' pending', calls.foldlM (perform crc32) self = some self' ∧ Holds crc32 self' done' pending' ∧
      done' ++ cut pending' = done ++ bytesFrom pending calls := by
  induction calls generalizing self done pending with
  | nil => exact ⟨self,done,pending,rfl,holds,rfl⟩
  | cons call calls ih =>
    cases call with
    | process_byte byte =>
      obtain ⟨self',processed,holds',zero⟩ := holds.process_byte zlib byte
      obtain ⟨final,done',pending',ran,holdsLast,bytes⟩ := ih holds' zero
      refine ⟨final,done',pending',?_,holdsLast,?_⟩
      · rw [foldlM_cons,perform,processed]
        exact ran
      · rw [bytes,bytesFrom]
        simp
    | process_bit bit =>
      obtain ⟨self',processed,after⟩ := holds.process_bit zlib next bit
      have steps (final : ConnectivityChecksum) (ran : calls.foldlM (perform crc32) self' = some final) :
          (Call.process_bit bit :: calls).foldlM (perform crc32) self = some final := by
        rw [foldlM_cons,perform,processed]
        exact ran
      by_cases last : pending.length = 7
      · rw [if_pos last] at after
        obtain ⟨final,done',pending',ran,holdsLast,bytes⟩ := ih after.1 after.2
        refine ⟨final,done',pending',steps final ran,holdsLast,?_⟩
        have chunk := bytesFrom_chunk (by simp [last] : (pending ++ [bit]).length = 8) [] calls
        rw [append_nil] at chunk
        rw [bytes,bytesFrom,chunk,append_assoc]
        rfl
      · rw [if_neg last] at after
        obtain ⟨final,done',pending',ran,holdsLast,bytes⟩ := ih after.1 after.2
        exact ⟨final,done',pending',steps final ran,holdsLast,bytes⟩

private theorem Holds.update_checksum (zlib : Zlib crc32 crc32_combine) (holds : Holds crc32 self done pending) (current : Checksum) :
    ∃ self', self.update_checksum crc32 crc32_combine current =
      some (crc32_combine current (crc32 0 (done ++ cut pending)) (done ++ cut pending).length,self') := by
  have closed : Stored crc32 (if self.bit_number > 0 then self.advance else self) (done ++ cut pending) := by
    rw [holds.bits]
    by_cases none_ : pending = []
    · subst none_
      simpa [cut] using holds.stored
    · rw [if_pos (length_pos_iff.mpr none_),cut_pending none_ holds.few]
      exact holds.stored.advance zlib holds.room (holds.next none_)
  rw [ConnectivityChecksum.update_checksum]
  generalize (if self.bit_number > 0 then self.advance else self) = last at closed ⊢
  have empty : Stored crc32 { last with checksum := crc32 0 [], length := 0, byte_number := 0, bit_number := 0 } [] :=
    ⟨Nat.zero_le _,by rw [take_zero,zlib.nothing],rfl⟩
  have stored : 0 < last.buffer.bytes.length := by rw [last.buffer.full]; decide
  have fits : last.byte_number ≤ last.buffer.bytes.length := by rw [last.buffer.full]; exact closed.fits
  simp only [if_pos fits,ConnectivityChecksum.write,Buffer.store,if_pos stored,closed.checksum,closed.length,map_some]
  exact ⟨_,rfl⟩

end Objects

section Parts
variable {crc32 : Checksum → List Byte → Checksum} {crc32_combine : Checksum → Checksum → ℕ → Checksum}

/-- A part begins with a byte, so that what a new object has in its buffer does not matter. -/
def BeginsWithByte : List Call → Prop
  | .process_byte _ :: _ => True
  | _ => False

private theorem checksumOf_eq (zlib : Zlib crc32 crc32_combine) (before : List Byte) (uninitialized : Buffer) {calls : List Call}
    (begins : calls = [] ∨ BeginsWithByte calls) :
    checksumOf crc32 crc32_combine (crc32 0 before) uninitialized calls = some (crc32 0 (before ++ bytesOf calls)) := by
  have fresh := new_holds crc32 uninitialized
  obtain ⟨self,done,pending,ran,holds,bytes⟩ : ∃ self done pending, calls.foldlM (perform crc32) (new uninitialized) = some self ∧
      Holds crc32 self done pending ∧ done ++ cut pending = bytesOf calls := by
    match calls,begins with
    | [],_ => exact ⟨_,[],[],rfl,fresh,rfl⟩
    | .process_byte byte :: calls,_ =>
      obtain ⟨self,processed,holds,zero⟩ := fresh.process_byte zlib byte
      obtain ⟨final,done,pending,ran,holds',bytes⟩ := holds.run zlib zero calls
      refine ⟨final,done,pending,?_,holds',bytes⟩
      rw [foldlM_cons,perform,processed]
      exact ran
  obtain ⟨rest,updated⟩ := holds.update_checksum zlib (crc32 0 before)
  rw [bytes,zlib.combine] at updated
  simp only [checksumOf,ran,updated,bind_eq_bind,bind_some,Option.pure_def]

variable {parts : List (Buffer × List Call)}

private theorem bytesOf_parts (begins : ∀ part ∈ parts, BeginsWithByte part.2) :
    bytesOf (parts.flatMap fun part => part.2) = parts.flatMap fun part => bytesOf part.2 := by
  induction parts with
  | nil => rfl
  | cons part parts ih =>
    have rest := ih fun other member => begins other (.tail _ member)
    rw [flatMap_cons,flatMap_cons,← rest]
    cases parts with
    | nil => simp [bytesOf,bytesFrom,cut]
    | cons next parts =>
      obtain ⟨buffer,calls⟩ := next
      have first := begins _ (.tail _ (.head _))
      match calls,first with
      | .process_byte byte :: calls,_ =>
        rw [flatMap_cons,cons_append]
        exact bytesFrom_append [] part.2 byte _

private theorem checksumOfParts_eq (zlib : Zlib crc32 crc32_combine) (before : List Byte)
    (begins : ∀ part ∈ parts, BeginsWithByte part.2) :
    checksumOfParts crc32 crc32_combine (crc32 0 before) parts =
      some (crc32 0 (before ++ parts.flatMap fun part => bytesOf part.2)) := by
  induction parts generalizing before with
  | nil => simp [checksumOfParts]
  | cons part parts ih =>
    obtain ⟨uninitialized,calls⟩ := part
    have first := checksumOf_eq zlib before uninitialized (.inr (begins _ (.head _)))
    have rest := ih (before ++ bytesOf calls) fun other member => begins other (.tail _ member)
    rw [checksumOfParts] at rest ⊢
    simp only [foldlM_cons,first,bind_eq_bind,bind_some]
    rw [rest,flatMap_cons,append_assoc]

/-- However a sequence is split, the checksum is the one that a single object gives, that of the byte string. -/
theorem checksum_of_parts (zlib : Zlib crc32 crc32_combine) (before : List Byte) (uninitialized : Buffer) (begins : ∀ part ∈ parts, BeginsWithByte part.2) :
    checksumOfParts crc32 crc32_combine (crc32 0 before) parts =
        checksumOf crc32 crc32_combine (crc32 0 before) uninitialized (parts.flatMap fun part => part.2) ∧
      checksumOf crc32 crc32_combine (crc32 0 before) uninitialized (parts.flatMap fun part => part.2) =
        some (crc32 0 (before ++ bytesOf (parts.flatMap fun part => part.2))) := by
  have whole : parts.flatMap (fun part => part.2) = [] ∨ BeginsWithByte (parts.flatMap fun part => part.2) := by
    cases parts with
    | nil => exact .inl rfl
    | cons part parts =>
      obtain ⟨buffer,calls⟩ := part
      have first := begins _ (.head _)
      match calls,first with
      | .process_byte byte :: calls,_ => exact .inr trivial
  have one := checksumOf_eq zlib before uninitialized whole
  refine ⟨?_,one⟩
  rw [checksumOfParts_eq zlib before begins,one,bytesOf_parts begins]

def polynomial : Checksum := 0xEDB88320

example : check polynomial 0 [1] = 0xA505DF1B := by decide

private theorem zlib_check : Zlib (check polynomial) (combine polynomial) :=
  ⟨check_nil,check_append,combine_check 0⟩

def zeros : Buffer := ⟨replicate 64 0,length_replicate⟩

/-- Five bytes and a bit, in one part and in two. -/
theorem checksum_of_parts_five_bytes :
    checksumOfParts (check polynomial) (combine polynomial) (check polynomial 0 [])
        [(zeros,[.process_byte 1,.process_byte 2,.process_byte 3]),(zeros,[.process_byte 4,.process_byte 5,.process_bit true])] =
      checksumOf (check polynomial) (combine polynomial) (check polynomial 0 []) zeros
        [.process_byte 1,.process_byte 2,.process_byte 3,.process_byte 4,.process_byte 5,.process_bit true] :=
  (checksum_of_parts zlib_check [] zeros (by simp [BeginsWithByte])).1

end Parts
end Osrm.ConnectivityChecksums
