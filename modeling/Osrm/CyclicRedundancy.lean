import Mathlib.Tactic

/-!
Cyclic redundancy checks in the reflected form: a register takes the bytes of a string one after the other. What a byte does to
the register is linear, so that the check of a string can be computed from the checks of its parts and their lengths.
-/
namespace Osrm.CyclicRedundancy
open List

abbrev Byte := BitVec 8

section Register
variable {w : ℕ} (poly : BitVec w)

def shiftBit (register : BitVec w) : BitVec w := if register.getLsbD 0 then (register >>> 1) ^^^ poly else register >>> 1
def takeByte (register : BitVec w) (byte : Byte) : BitVec w := (shiftBit poly)^[8] (register ^^^ byte.setWidth w)
def takeBytes (register : BitVec w) (bytes : List Byte) : BitVec w := bytes.foldl (takeByte poly) register
def check (crc : BitVec w) (bytes : List Byte) : BitVec w := ~~~takeBytes poly (~~~crc) bytes
/-- The check of two strings together, from those of both and the length of the second one. -/
def combine (crc crc' : BitVec w) (length : ℕ) : BitVec w := takeBytes poly crc (replicate length 0) ^^^ crc'

end Register

section Linear
variable {w : ℕ} {poly : BitVec w}

private theorem shiftBit_xor (a b : BitVec w) : shiftBit poly (a ^^^ b) = shiftBit poly a ^^^ shiftBit poly b := by
  have same (c d : BitVec w) : (c ^^^ poly) ^^^ (d ^^^ poly) = c ^^^ d := by
    rw [BitVec.xor_assoc,BitVec.xor_comm d poly,← BitVec.xor_assoc poly,BitVec.xor_self,BitVec.zero_xor]
  have one (c d : BitVec w) : (c ^^^ d) ^^^ poly = (c ^^^ poly) ^^^ d := by
    rw [BitVec.xor_assoc,BitVec.xor_comm d poly,← BitVec.xor_assoc]
  cases lowA : a.getLsbD 0 with
  | false => cases lowB : b.getLsbD 0 <;> simp [shiftBit,BitVec.ushiftRight_xor_distrib,lowA,lowB,BitVec.xor_assoc]
  | true => cases lowB : b.getLsbD 0 <;> simp [shiftBit,BitVec.ushiftRight_xor_distrib,lowA,lowB,same,one]

private theorem shiftBits_xor (n : ℕ) (a b : BitVec w) :
    (shiftBit poly)^[n] (a ^^^ b) = (shiftBit poly)^[n] a ^^^ (shiftBit poly)^[n] b := by
  induction n generalizing a b with
  | zero => rfl
  | succ n ih => simp only [Function.iterate_succ_apply,shiftBit_xor,ih]

private theorem takeByte_xor (a b : BitVec w) (byte : Byte) : takeByte poly (a ^^^ b) byte = takeByte poly a 0 ^^^ takeByte poly b byte := by
  have zero : (0 : Byte).setWidth w = 0 := by simp
  rw [takeByte,takeByte,takeByte,zero,BitVec.ofNat_eq_ofNat,BitVec.xor_zero,← shiftBits_xor,BitVec.xor_assoc]

private theorem takeBytes_xor (a b : BitVec w) (bytes : List Byte) :
    takeBytes poly (a ^^^ b) bytes = takeBytes poly a (replicate bytes.length 0) ^^^ takeBytes poly b bytes := by
  induction bytes generalizing a b with
  | nil => rfl
  | cons byte bytes ih =>
    simp only [takeBytes,foldl_cons,length_cons,replicate_succ,takeByte_xor] at ih ⊢
    exact ih _ _

private theorem takeBytes_append (register : BitVec w) (bytes bytes' : List Byte) :
    takeBytes poly register (bytes ++ bytes') = takeBytes poly (takeBytes poly register bytes) bytes' := foldl_append
theorem check_nil (crc : BitVec w) : check poly crc [] = crc := BitVec.not_not

theorem check_append (crc : BitVec w) (bytes bytes' : List Byte) :
    check poly crc (bytes ++ bytes') = check poly (check poly crc bytes) bytes' := by
  rw [check,check,check,takeBytes_append,BitVec.not_not]

theorem combine_check (crc : BitVec w) (bytes bytes' : List Byte) :
    combine poly (check poly crc bytes) (check poly 0 bytes') bytes'.length = check poly crc (bytes ++ bytes') := by
  rw [check_append]
  generalize check poly crc bytes = before
  have whole : ~~~before = before ^^^ ~~~(0 : BitVec w) := by simp
  have split : takeBytes poly (before ^^^ ~~~(0 : BitVec w)) bytes' = _ := takeBytes_xor before _ bytes'
  rw [← whole] at split
  rw [combine,check,check,split,BitVec.not_xor_right]

end Linear
end Osrm.CyclicRedundancy
