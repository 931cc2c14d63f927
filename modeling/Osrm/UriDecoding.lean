import Mathlib.Tactic
import Osrm.Loops

/-!
`URIDecode` of `util/string_util.hpp`. A `char` has a sign; behind the characters of a string there is a NUL that may
be read. The string that is written to is another one than the string that is read.
-/
namespace Osrm.UriDecoding
open List
open Loops

section Decoding
variable (input : List Int8)

def read (position : ℕ) : Option Int8 := (input ++ [0])[position]?
def isxdigit (c : Int8) : Bool := (48 ≤ c && c ≤ 57) || (65 ≤ c && c ≤ 70) || (97 ≤ c && c ≤ 102)
def digitValue (c : Int8) : Int8 := c - if c < 58 then 48 else if c < 71 then 55 else 87

/-- The test for a percent sign and two digits, which reads no further than it has to. -/
def isEscape (src_iter : ℕ) : Option Bool := do
  if (← read input src_iter) ≠ 37 then return false
  let first ← read input (src_iter + 1)
  if first = 0 then return false
  let second ← read input (src_iter + 2)
  if second = 0 then return false
  return isxdigit first && isxdigit second

structure Decoding where
  src_iter : ℕ
  decoded_length : ℕ
  output : List Int8
  deriving DecidableEq, Repr

/-- `output[position] = c`, if there is such a position. -/
def write (output : List Int8) (position : ℕ) (c : Int8) : Option (List Int8) :=
  if position < output.length then some (output.set position c) else none
/-- `std::string::resize`. -/
def resize (output : List Int8) (size : ℕ) : List Int8 := output.take size ++ replicate (size - output.length) 0

/-- The body of the loop. -/
def decodeNext (s : Decoding) : Option Decoding := do
  if ← isEscape input s.src_iter then
    let a ← read input (s.src_iter + 1)
    let b ← read input (s.src_iter + 2)
    let output ← write s.output s.decoded_length (16 * digitValue a + digitValue b)
    return ⟨s.src_iter + 3,s.decoded_length + 1,output⟩
  else
    let output ← write s.output s.decoded_length (← read input s.src_iter)
    return ⟨s.src_iter + 1,s.decoded_length + 1,output⟩

/-- The length and the output, for at most so many rounds; nothing if a character is touched that is not there. -/
def URIDecode (output : List Int8) (rounds : ℕ) : Option (ℕ × List Int8) := do
  let s ← whileLoopM (fun s => s.src_iter != input.length) (decodeNext input) rounds
    ⟨0,0,resize output (input.length + 1)⟩
  return (s.decoded_length,resize s.output s.decoded_length)

end Decoding

def startsWithDigits : List Int8 → Bool
  | a :: b :: _ => isxdigit a && isxdigit b
  | _ => false

/-- A percent sign, where two digits follow it, stands for a byte; all else stands for itself. -/
def decoded : List Int8 → List Int8
  | [] => []
  | c :: a :: b :: rest =>
    if c = 37 ∧ startsWithDigits (a :: b :: rest) then (16 * digitValue a + digitValue b) :: decoded rest
    else c :: decoded (a :: b :: rest)
  | c :: rest => c :: decoded rest

private theorem startsWithDigits_cons {rest : List Int8} (digits : startsWithDigits rest = true) :
    ∃ a b tail, rest = a :: b :: tail ∧ isxdigit a = true ∧ isxdigit b = true := by
  cases rest with
  | nil => cases digits
  | cons a rest =>
    cases rest with
    | nil => cases digits
    | cons b tail =>
      obtain ⟨first,second⟩ := Bool.and_eq_true_iff.mp digits
      exact ⟨a,b,tail,rfl,first,second⟩

private theorem isxdigit_zero : isxdigit 0 = false := by decide
private theorem isxdigit_percent : isxdigit 37 = false := by decide

private theorem decoded_digits {a b : Int8} {rest : List Int8} (digits : startsWithDigits (a :: b :: rest)) :
    decoded (37 :: a :: b :: rest) = (16 * digitValue a + digitValue b) :: decoded rest := by
  rw [decoded,if_pos ⟨rfl,digits⟩]

private theorem decoded_itself {c : Int8} {rest : List Int8} (itself : ¬ (c = 37 ∧ startsWithDigits rest)) :
    decoded (c :: rest) = c :: decoded rest := by
  cases rest with
  | nil => rfl
  | cons a rest =>
    cases rest with
    | nil => rfl
    | cons b rest => rw [decoded,if_neg itself]

section Loop
variable {input front rest written room : List Int8} {c : Int8}

private theorem read_at (k : ℕ) : read (front ++ rest) (front.length + k) = (rest ++ [0])[k]? := by
  rw [read,append_assoc,getElem?_append_right (Nat.le_add_right ..),Nat.add_sub_cancel_left]
private theorem write_at (r c : Int8) : write (written ++ r :: room) written.length c = some (written ++ c :: room) := by
  simp [write]

private theorem isEscape_at : isEscape (front ++ c :: rest) front.length = some (decide (c = 37 ∧ startsWithDigits rest)) := by
  have zero : read (front ++ c :: rest) front.length = some c := read_at 0
  have one := @read_at front (c :: rest) 1
  have two := @read_at front (c :: rest) 2
  rw [isEscape,zero,one,two]
  by_cases percent : c = 37
  · subst percent
    cases rest with
    | nil => rfl
    | cons a rest =>
      by_cases none : a = 0
      · subst none
        cases rest <;> simp [startsWithDigits,isxdigit_zero]
      · cases rest with
        | nil => simp [startsWithDigits]
        | cons b rest =>
          by_cases last : b = 0
          · simp [startsWithDigits,last,isxdigit_zero]
          · simp [startsWithDigits,none,last]
  · simp [percent]

private theorem decodeNext_digits {a b r : Int8} (digits : startsWithDigits (a :: b :: rest)) :
    decodeNext (front ++ 37 :: a :: b :: rest) ⟨front.length,written.length,written ++ r :: room⟩ =
      some ⟨front.length + 3,written.length + 1,written ++ (16 * digitValue a + digitValue b) :: room⟩ := by
  have one : read (front ++ 37 :: a :: b :: rest) (front.length + 1) = some a := read_at 1
  have two : read (front ++ 37 :: a :: b :: rest) (front.length + 2) = some b := read_at 2
  rw [decodeNext,isEscape_at,one,two]
  simp [digits,write_at]

private theorem decodeNext_itself {r : Int8} (itself : ¬ (c = 37 ∧ startsWithDigits rest)) :
    decodeNext (front ++ c :: rest) ⟨front.length,written.length,written ++ r :: room⟩ =
      some ⟨front.length + 1,written.length + 1,written ++ c :: room⟩ := by
  have zero : read (front ++ c :: rest) front.length = some c := read_at 0
  rw [decodeNext,isEscape_at,zero]
  simp [itself,write_at]

private theorem loop_decoded {rounds : ℕ} (whole : front ++ rest = input) (enough : rest.length ≤ rounds) (fits : rest.length < room.length) :
    ∃ room', whileLoopM (fun s => s.src_iter != input.length) (decodeNext input) rounds ⟨front.length,written.length,written ++ room⟩ =
      some ⟨input.length,(written ++ decoded rest).length,written ++ decoded rest ++ room'⟩ := by
  induction rounds generalizing front rest written room with
  | zero =>
    obtain rfl : rest = [] := length_eq_zero_iff.mp (Nat.le_zero.mp enough)
    rw [append_nil] at whole
    subst whole
    exact ⟨room,by simp [whileLoopM,decoded]⟩
  | succ rounds ih =>
    cases rest with
    | nil =>
      rw [append_nil] at whole
      subst whole
      exact ⟨room,by simp [whileLoopM,decoded]⟩
    | cons c rest =>
      obtain ⟨r,room,rfl⟩ := exists_cons_of_length_pos (Nat.zero_lt_of_lt fits)
      have more : (front.length != input.length) = true := by simp [← whole]
      rw [whileLoopM,if_pos more]
      by_cases escape : c = 37 ∧ startsWithDigits rest
      · obtain ⟨rfl,digits⟩ := escape
        obtain ⟨a,b,rest,rfl,-⟩ := startsWithDigits_cons digits
        rw [decoded_digits digits]
        have next := @decodeNext_digits front rest written room a b r digits
        rw [whole] at next
        rw [next,Option.bind_some]
        have later := @ih (front ++ [37,a,b]) rest (written ++ [16 * digitValue a + digitValue b]) room (by simpa using whole)
          (by simp only [length_cons] at enough; omega) (by simp only [length_cons] at fits; omega)
        simpa using later
      · rw [decoded_itself escape]
        have next := @decodeNext_itself front rest written room c r escape
        rw [whole] at next
        rw [next,Option.bind_some]
        have later := @ih (front ++ [c]) rest (written ++ [c]) room (by simpa using whole) (by simpa using enough) (by simpa using fits)
        simpa using later

end Loop

private theorem URIDecode_decoded (input output : List Int8) {rounds : ℕ} (enough : input.length ≤ rounds) :
    URIDecode input output rounds = some ((decoded input).length,decoded input) := by
  have fits : input.length < (resize output (input.length + 1)).length := by
    simp only [resize,length_append,length_take,length_replicate]
    omega
  have run := @loop_decoded input [] input [] (resize output (input.length + 1)) rounds rfl enough fits
  obtain ⟨room,ran⟩ := run
  simp only [nil_append,length_nil] at ran
  rw [URIDecode,ran]
  simp [resize]

/-! ### Encodings -/

def byte (c : Int8) : ℕ := c.toUInt8.toNat
def chars (text : String) : List Int8 := text.toList.map fun c => Int8.ofNat c.toNat
def IsDigit (d : Int8) (value : ℕ) : Prop :=
  (chars "0123456789ABCDEF")[value]? = some d ∨ (chars "0123456789abcdef")[value]? = some d

/-- Each byte is written as itself, if it is not the percent sign, or as a percent sign with its two digits. -/
inductive Encodes : List Int8 → List Int8 → Prop
  | nil : Encodes [] []
  | itself {c : Int8} {text code : List Int8} (other : c ≠ 37) (rest : Encodes text code) : Encodes (c :: text) (c :: code)
  | digits {c high low : Int8} {text code : List Int8} (first : IsDigit high (byte c / 16)) (second : IsDigit low (byte c % 16))
      (rest : Encodes text code) : Encodes (c :: text) (37 :: high :: low :: code)

def TwoDigits (text : List Int8) : Prop :=
  ∃ a b rest, text = a :: b :: rest ∧ (∃ high, IsDigit a high) ∧ ∃ low, IsDigit b low

private theorem ofNat_byte (c : Int8) : Int8.ofNat (byte c) = c := by
  show Int8.ofUInt8 (UInt8.ofNat c.toUInt8.toNat) = c
  rw [UInt8.ofNat_toNat]

private theorem IsDigit.lt {d : Int8} {value : ℕ} (digit : IsDigit d value) : value < 16 := by
  rcases digit with upper | lower
  · exact (List.getElem?_eq_some_iff.mp upper).1
  · exact (List.getElem?_eq_some_iff.mp lower).1

private theorem IsDigit.value {d : Int8} {value : ℕ} (digit : IsDigit d value) : isxdigit d = true ∧ digitValue d = Int8.ofNat value := by
  have every : ∀ v < 16, ∀ e ∈ [(chars "0123456789ABCDEF")[v]?,(chars "0123456789abcdef")[v]?],
      e.map isxdigit = some true ∧ e.map digitValue = some (Int8.ofNat v) := by decide +kernel
  have all := every value digit.lt (some d) (by simpa [IsDigit,eq_comm] using digit)
  simpa using all

private theorem isDigit_of_isxdigit {d : Int8} (digit : isxdigit d = true) : ∃ value, IsDigit d value := by
  have every : ∀ n < 256, isxdigit (Int8.ofNat n) = true → ∃ v < 16, IsDigit (Int8.ofNat n) v := by
    unfold IsDigit
    decide +kernel
  have below : byte d < 256 := d.toUInt8.toNat_lt
  have found := every (byte d) below
  rw [ofNat_byte] at found
  obtain ⟨value,-,is⟩ := found digit
  exact ⟨value,is⟩

private theorem decoded_encodes {text code : List Int8} (encodes : Encodes text code) : decoded code = text := by
  induction encodes with
  | nil => rfl
  | itself other _ ih => rw [decoded_itself fun escape => other escape.1,ih]
  | @digits c high low text code first second _ ih =>
    obtain ⟨digitHigh,valueHigh⟩ := first.value
    obtain ⟨digitLow,valueLow⟩ := second.value
    have both : startsWithDigits (high :: low :: code) := by simp [startsWithDigits,digitHigh,digitLow]
    have value : 16 * Int8.ofNat (byte c / 16) + Int8.ofNat (byte c % 16) = c := by
      calc 16 * Int8.ofNat (byte c / 16) + Int8.ofNat (byte c % 16)
        _ = Int8.ofNat (16 * (byte c / 16) + byte c % 16) := by rw [Int8.ofNat_add,Int8.ofNat_mul]; rfl
        _ = Int8.ofNat (byte c) := by rw [Nat.div_add_mod]
        _ = c := ofNat_byte c
    rw [decoded_digits both,valueHigh,valueLow,value,ih]

private theorem length_decoded_le (input : List Int8) : (decoded input).length ≤ input.length := by
  fun_induction decoded input with
  | case1 => exact le_rfl
  | case2 c a b rest escape ih =>
    simp only [length_cons]
    omega
  | case3 c a b rest itself ih => simpa using ih
  | case4 c rest short ih => simpa using ih

private theorem startsWithDigits_percent (front rest : List Int8) : startsWithDigits (front ++ 37 :: rest) = startsWithDigits front := by
  cases front with
  | nil => cases rest <;> simp [startsWithDigits,isxdigit_percent]
  | cons a front =>
    cases front with
    | nil => simp [startsWithDigits,isxdigit_percent]
    | cons b front => rfl

private theorem decoded_percent (front rest : List Int8) : decoded (front ++ 37 :: rest) = decoded front ++ decoded (37 :: rest) := by
  fun_induction decoded front with
  | case1 => rfl
  | case2 c a b front escape ih =>
    obtain ⟨rfl,digits⟩ := escape
    have digits' : startsWithDigits (a :: b :: (front ++ 37 :: rest)) := digits
    simp only [cons_append]
    rw [decoded_digits digits',ih]
  | case3 c a b front itself ih =>
    have itself' : ¬ (c = 37 ∧ startsWithDigits (a :: b :: (front ++ 37 :: rest))) := itself
    simp only [cons_append] at ih ⊢
    rw [decoded_itself itself',ih]
  | case4 c front short ih =>
    have itself : ¬ (c = 37 ∧ startsWithDigits front) := by
      rintro ⟨-,digits⟩
      obtain ⟨a,b,front,rfl,-⟩ := startsWithDigits_cons digits
      exact short a b front rfl
    have itself' : ¬ (c = 37 ∧ startsWithDigits (front ++ 37 :: rest)) := by rwa [startsWithDigits_percent]
    rw [cons_append,decoded_itself itself',ih,cons_append]

private theorem decoded_kept {rest : List Int8} (malformed : ¬ TwoDigits rest) : decoded (37 :: rest) = 37 :: decoded rest := by
  refine decoded_itself fun escape => malformed ?_
  obtain ⟨a,b,tail,rfl,first,second⟩ := startsWithDigits_cons escape.2
  exact ⟨a,b,tail,rfl,isDigit_of_isxdigit first,isDigit_of_isxdigit second⟩

/-- What is encoded is decoded again, in whichever way it is; nothing gets longer, and malformed escapes are kept. -/
theorem URIDecode_undoes :
    (∀ text code output rounds, Encodes text code → code.length ≤ rounds → URIDecode code output rounds = some (text.length,text)) ∧
    (∀ input output rounds, input.length ≤ rounds → ∃ result, URIDecode input output rounds = some (result.length,result) ∧
      result.length ≤ input.length) ∧
    ∀ front rest output rounds, ¬ TwoDigits rest → (front ++ 37 :: rest).length ≤ rounds →
      ∃ first last, URIDecode front output rounds = some (first.length,first) ∧ URIDecode rest output rounds = some (last.length,last) ∧
        URIDecode (front ++ 37 :: rest) output rounds = some ((first ++ 37 :: last).length,first ++ 37 :: last) := by
  refine ⟨fun text code output rounds encodes enough => ?_,fun input output rounds enough => ?_,?_⟩
  · rw [URIDecode_decoded code output enough,decoded_encodes encodes]
  · exact ⟨decoded input,URIDecode_decoded input output enough,length_decoded_le input⟩
  · intro front rest output rounds malformed enough
    have lengths : front.length ≤ rounds ∧ rest.length ≤ rounds := by
      simp only [length_append,length_cons] at enough
      omega
    refine ⟨decoded front,decoded rest,URIDecode_decoded front output lengths.1,URIDecode_decoded rest output lengths.2,?_⟩
    rw [URIDecode_decoded _ output enough,decoded_percent,decoded_kept malformed]

/-- `A%3b` is `A;`, and a percent sign at the end stays. -/
theorem URIDecode_undoes_semicolon : URIDecode (chars "A%3b") [] 4 = some (2,chars "A;") ∧
    ∃ first last, URIDecode (chars "A%3") [] 4 = some (first.length,first) ∧ URIDecode [] [] 4 = some (last.length,last) ∧
      URIDecode (chars "A%3" ++ 37 :: []) [] 4 = some ((first ++ 37 :: last).length,first ++ 37 :: last) := by
  have encodes : Encodes (chars "A;") (chars "A%3b") :=
    .itself (by decide) (.digits (.inl (by decide)) (.inr (by decide)) .nil)
  have malformed : ¬ TwoDigits [] := by
    rintro ⟨a,b,rest,same,-⟩
    cases same
  exact ⟨URIDecode_undoes.1 _ _ _ _ encodes (by decide),URIDecode_undoes.2.2 _ _ _ _ malformed (by decide)⟩

end Osrm.UriDecoding
