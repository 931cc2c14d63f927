import Mathlib.Data.Nat.Digits.Defs
import Mathlib.Tactic

/-!
JSON texts and what they stand for: a reader for the grammar of RFC 8259. A text is a list of the codes of its characters.
A string is one too, where an escaped code unit stands for itself.
-/
namespace Osrm.Json
open List Option

mutual
inductive Value (N : Type)
  | String (value : List ℕ)
  | Number (value : N)
  | Object (values : Members N)
  | Array (values : Elements N)
  | True
  | False
  | Null
inductive Members (N : Type)
  | nil
  | cons (key : List ℕ) (value : Value N) (members : Members N)
inductive Elements (N : Type)
  | nil
  | cons (value : Value N) (elements : Elements N)
end

section Map
variable {N M : Type} (f : N → M)

mutual
/-- The same value with other numbers. -/
def Value.map : Value N → Value M
  | .String value => .String value
  | .Number value => .Number (f value)
  | .Object values => .Object values.map
  | .Array values => .Array values.map
  | .True => .True
  | .False => .False
  | .Null => .Null
def Members.map : Members N → Members M
  | .nil => .nil
  | .cons key value members => .cons key value.map members.map
def Elements.map : Elements N → Elements M
  | .nil => .nil
  | .cons value elements => .cons value.map elements.map
end

end Map

def isWs (c : ℕ) : Bool := c == 32 || c == 9 || c == 10 || c == 13
def skipWs (text : List ℕ) : List ℕ := text.dropWhile isWs

/-- What a letter behind a backslash stands for: one of the marks itself, or a control character. -/
def unescape (letter : ℕ) : Option ℕ :=
  if letter = 34 ∨ letter = 92 ∨ letter = 47 then some letter
  else if letter = 98 then some 8
  else if letter = 102 then some 12
  else if letter = 110 then some 10
  else if letter = 114 then some 13
  else if letter = 116 then some 9
  else none

def hexDigit (c : ℕ) : Option ℕ :=
  if 48 ≤ c ∧ c ≤ 57 then some (c - 48)
  else if 65 ≤ c ∧ c ≤ 70 then some (c - 55)
  else if 97 ≤ c ∧ c ≤ 102 then some (c - 87)
  else none

def codeUnit : List ℕ → Option (ℕ × List ℕ)
  | a :: b :: c :: d :: rest => do
    let a ← hexDigit a
    let b ← hexDigit b
    let c ← hexDigit c
    let d ← hexDigit d
    return (((a * 16 + b) * 16 + c) * 16 + d,rest)
  | _ => none

/-- What stands behind a backslash: the code unit of four digits, or a single letter. -/
def parseEscape : List ℕ → Option (ℕ × List ℕ)
  | [] => none
  | letter :: rest => if letter = 117 then codeUnit rest else (unescape letter).map fun c => (c,rest)

/-- A string up to its closing mark, and the text behind that. -/
def parseString : ℕ → List ℕ → Option (List ℕ × List ℕ)
  | 0, _ => none
  | _ + 1, [] => none
  | fuel + 1, c :: rest =>
    if c = 34 then some ([],rest)
    else if c = 92 then do
      let (c,rest) ← parseEscape rest
      let (string,rest) ← parseString fuel rest
      return (c :: string,rest)
    else if c < 32 then none
    else do
      let (string,rest) ← parseString fuel rest
      return (c :: string,rest)

def isDigit (c : ℕ) : Bool := decide (48 ≤ c) && decide (c ≤ 57)
def ofDecimal (digits : List ℕ) : ℕ := Nat.ofDigits 10 (digits.reverse.map (· - 48))

/-- A fraction, if there is a point. -/
def parseFraction : List ℕ → Option (ℚ × List ℕ)
  | [] => some (0,[])
  | c :: rest =>
    if c = 46 then
      let digits := rest.takeWhile isDigit
      if digits = [] then none else some (ofDecimal digits / 10 ^ digits.length,rest.dropWhile isDigit)
    else some (0,c :: rest)

/-- An exponent, if there is a letter for it. -/
def parseExponent : List ℕ → Option (ℤ × List ℕ)
  | [] => some (0,[])
  | c :: rest =>
    if c = 101 ∨ c = 69 then
      let negative := rest.head? = some 45
      let rest := if negative ∨ rest.head? = some 43 then rest.tail else rest
      let digits := rest.takeWhile isDigit
      if digits = [] then none else some (if negative then -ofDecimal digits else ofDecimal digits,rest.dropWhile isDigit)
    else some (0,c :: rest)

/-- A number, without leading zeros. -/
def parseNumber (text : List ℕ) : Option (ℚ × List ℕ) :=
  let negative := text.head? = some 45
  let text := if negative then text.tail else text
  let digits := text.takeWhile isDigit
  if digits = [] ∨ digits.head? = some 48 ∧ digits ≠ [48] then none
  else do
    let (fraction,rest) ← parseFraction (text.dropWhile isDigit)
    let (exponent,rest) ← parseExponent rest
    let magnitude := (ofDecimal digits + fraction) * (10 : ℚ) ^ exponent
    return (if negative then -magnitude else magnitude,rest)

def literal (word : List ℕ) (value : Value ℚ) (text : List ℕ) : Option (Value ℚ × List ℕ) :=
  if word <+: text then some (value,text.drop word.length) else none

mutual
/-- A value at the beginning of a text, and the text behind it. -/
def parseValue : ℕ → List ℕ → Option (Value ℚ × List ℕ)
  | 0, _ => none
  | _ + 1, [] => none
  | fuel + 1, c :: rest =>
    if c = 34 then (parseString fuel rest).map fun string => (.String string.1,string.2)
    else if c = 123 then
      if (skipWs rest).head? = some 125 then some (.Object .nil,(skipWs rest).tail)
      else (parseMembers fuel (skipWs rest)).map fun members => (.Object members.1,members.2)
    else if c = 91 then
      if (skipWs rest).head? = some 93 then some (.Array .nil,(skipWs rest).tail)
      else (parseElements fuel (skipWs rest)).map fun elements => (.Array elements.1,elements.2)
    else if c = 116 then literal [114,117,101] .True rest
    else if c = 102 then literal [97,108,115,101] .False rest
    else if c = 110 then literal [117,108,108] .Null rest
    else (parseNumber (c :: rest)).map fun number => (.Number number.1,number.2)
/-- The members of an object, up to the brace that closes it. -/
def parseMembers : ℕ → List ℕ → Option (Members ℚ × List ℕ)
  | 0, _ => none
  | fuel + 1, text => do
    if text.head? ≠ some 34 then none else
    let (key,rest) ← parseString fuel text.tail
    if (skipWs rest).head? ≠ some 58 then none else
    let (value,rest) ← parseValue fuel (skipWs (skipWs rest).tail)
    if (skipWs rest).head? = some 44 then
      let (members,rest) ← parseMembers fuel (skipWs (skipWs rest).tail)
      return (.cons key value members,rest)
    else if (skipWs rest).head? = some 125 then return (.cons key value .nil,(skipWs rest).tail)
    else none
/-- The elements of an array, up to the bracket that closes it. -/
def parseElements : ℕ → List ℕ → Option (Elements ℚ × List ℕ)
  | 0, _ => none
  | fuel + 1, text => do
    let (value,rest) ← parseValue fuel text
    if (skipWs rest).head? = some 44 then
      let (elements,rest) ← parseElements fuel (skipWs (skipWs rest).tail)
      return (.cons value elements,rest)
    else if (skipWs rest).head? = some 93 then return (.cons value .nil,(skipWs rest).tail)
    else none
end

/-- A whole text. Its length is enough for the steps of the reader, each of which passes a character. -/
def parse (text : List ℕ) : Option (Value ℚ) := do
  let (value,rest) ← parseValue text.length (skipWs text)
  if skipWs rest = [] then some value else none

/-! ### Reading strings -/

section Strings
variable {c letter fuel : ℕ} {text more rest string key : List ℕ}

theorem skipWs_cons (mark : isWs c = false) : skipWs (c :: rest) = c :: rest := dropWhile_cons_of_neg (by simp [mark])

def Plain (c : ℕ) : Prop := 32 ≤ c ∧ c ≠ 34 ∧ c ≠ 92

theorem parseString_close : parseString (fuel + 1) (34 :: rest) = some ([],rest) := by rw [parseString,if_pos rfl]

theorem parseString_plain (plain : Plain c) : parseString (fuel + 1) (c :: rest) =
    (parseString fuel rest).map fun read => (c :: read.1,read.2) := by
  rw [parseString,if_neg plain.2.1,if_neg plain.2.2,if_neg (Nat.not_lt.mpr plain.1)]
  cases parseString fuel rest <;> rfl

theorem parseString_escape (escaped : unescape letter = some c) : parseString (fuel + 1) (92 :: letter :: rest) =
    (parseString fuel rest).map fun read => (c :: read.1,read.2) := by
  have other : letter ≠ 117 := by
    rintro rfl
    cases escaped
  rw [parseString,if_neg (by decide),if_pos rfl]
  simp only [parseEscape,if_neg other,escaped,map_some,bind_eq_bind,bind_some]
  cases parseString fuel rest <;> rfl

theorem parseString_control (control : c < 32) : parseString fuel (c :: rest) = none := by
  cases fuel with
  | zero => rfl
  | succ fuel => rw [parseString,if_neg (by omega),if_neg (by omega),if_pos control]

private theorem codeUnit_before (read : codeUnit (text ++ 34 :: more) = some (c,rest)) :
    ∃ digits before, text = digits ++ before ∧ rest = before ++ 34 :: more := by
  have mark : hexDigit 34 = none := by decide
  match text with
  | [] => cases more with
    | nil => cases read
    | cons _ more => match more with
      | [] => cases read
      | [_] => cases read
      | _ :: _ :: _ => simp [codeUnit,mark] at read
  | [_] => match more with
    | [] => cases read
    | [_] => cases read
    | _ :: _ :: _ => simp [codeUnit,mark] at read
  | [_,_] => match more with
    | [] => cases read
    | _ :: _ => simp [codeUnit,mark] at read
  | [_,_,_] => simp [codeUnit,mark] at read
  | a :: b :: d :: e :: before =>
    simp only [cons_append,codeUnit,bind_eq_bind,bind_eq_some_iff,Option.pure_def,some.injEq,Prod.mk.injEq] at read
    obtain ⟨_,-,_,-,_,-,_,-,-,same⟩ := read
    exact ⟨[a,b,d,e],before,rfl,same.symm⟩

private theorem parseEscape_before (none : 34 ∉ text) (read : parseEscape (text ++ 34 :: more) = some (c,rest)) :
    text = [] ∧ c = 34 ∨ ∃ front before, front ≠ [] ∧ text = front ++ before ∧ rest = before ++ 34 :: more := by
  cases text with
  | nil =>
    cases read
    exact .inl ⟨rfl,rfl⟩
  | cons letter text =>
    rw [cons_append,parseEscape] at read
    split_ifs at read with unit
    · obtain ⟨digits,before,same,behind⟩ := codeUnit_before read
      exact .inr ⟨letter :: digits,before,cons_ne_nil _ _,congrArg (letter :: ·) same,behind⟩
    · obtain ⟨_,-,same⟩ := map_eq_some_iff.mp read
      exact .inr ⟨[letter],text,cons_ne_nil _ _,rfl,(Prod.mk.inj same).2.symm⟩

/-- A text without quotation marks is read with an escaped mark behind it or up to that mark, and then it stands for at
    most as many characters as it has. -/
theorem parseString_before (none : 34 ∉ text) (read : parseString fuel (text ++ 34 :: more) = some (string,rest)) :
    34 ∈ string.take text.length ∨
      rest = more ∧ string.length ≤ text.length ∧ (text.length ≤ string.length → string = text ∧ ∀ c ∈ text, Plain c) := by
  induction fuel generalizing text string with
  | zero => cases read
  | succ fuel ih =>
    cases text with
    | nil =>
      rw [nil_append,parseString_close] at read
      cases read
      exact .inr ⟨rfl,le_rfl,fun _ => ⟨rfl,by simp⟩⟩
    | cons c text =>
      obtain ⟨other,later⟩ := not_or.mp (mem_cons.not.mp none)
      rw [cons_append,parseString,if_neg (Ne.symm other)] at read
      by_cases backslash : c = 92
      · rw [if_pos backslash] at read
        obtain ⟨⟨first,behind⟩,escape,read⟩ := bind_eq_some_iff.mp read
        obtain ⟨⟨tail,rest'⟩,read,same⟩ := bind_eq_some_iff.mp read
        cases same
        rcases parseEscape_before later escape with ⟨-,rfl⟩ | ⟨front,before,some_front,rfl,rfl⟩
        · exact .inl (by simp)
        have shorter := length_pos_of_ne_nil some_front
        rcases ih (fun member => later (mem_append_right _ member)) read with escaped | ⟨rfl,le,-⟩
        · refine .inl (mem_cons_of_mem _ ?_)
          exact take_subset_take_left _ (by rw [length_append]; omega) escaped
        · refine .inr ⟨rfl,?_,fun ge => ?_⟩
          · simp only [length_cons,length_append]
            omega
          · simp only [length_cons,length_append] at ge
            omega
      rw [if_neg backslash] at read
      by_cases control : c < 32
      · rw [if_pos control] at read
        cases read
      rw [if_neg control] at read
      obtain ⟨⟨tail,rest'⟩,read,same⟩ := bind_eq_some_iff.mp read
      cases same
      rcases ih later read with escaped | ⟨rfl,le,all⟩
      · exact .inl (mem_cons_of_mem _ escaped)
      · refine .inr ⟨rfl,Nat.succ_le_succ le,fun ge => ?_⟩
        obtain ⟨rfl,plain⟩ := all (Nat.le_of_succ_le_succ ge)
        exact ⟨rfl,forall_mem_cons.mpr ⟨⟨Nat.not_lt.mp control,Ne.symm other,backslash⟩,plain⟩⟩

theorem parseString_verbatim_iff (enough : key.length < fuel) :
    parseString fuel (key ++ 34 :: more) = some (key,rest) ↔ (∀ c ∈ key, Plain c) ∧ rest = more := by
  constructor
  · intro read
    by_cases marked : 34 ∈ key
    · -- the first mark in the string closes it, or is read as an escaped mark further in front
      obtain ⟨before,after,split,first⟩ := eq_append_cons_of_mem marked
      rw [split,append_assoc,cons_append] at read
      rcases parseString_before first read with escaped | ⟨-,le,-⟩
      · rw [take_left' rfl] at escaped
        exact absurd escaped first
      · simp only [length_append,length_cons] at le
        omega
    · rcases parseString_before marked read with escaped | ⟨same,-,all⟩
      · exact absurd (mem_of_mem_take escaped) marked
      · exact ⟨(all le_rfl).2,same⟩
  · rintro ⟨plain,rfl⟩
    induction key generalizing fuel with
    | nil =>
      obtain ⟨fuel,rfl⟩ := Nat.exists_eq_succ_of_ne_zero (Nat.ne_of_gt enough)
      exact parseString_close
    | cons c key ih =>
      obtain ⟨fuel,rfl⟩ := Nat.exists_eq_succ_of_ne_zero (Nat.ne_of_gt (Nat.zero_lt_of_lt enough))
      obtain ⟨here,later⟩ := forall_mem_cons.mp plain
      rw [cons_append,parseString_plain here,ih (by simpa using enough) later]
      rfl

end Strings

section Lists
variable {fuel : ℕ} {text key rest : List ℕ} {value : Value ℚ} {elements : Elements ℚ} {members : Members ℚ}

theorem parseElements_cons_iff : parseElements (fuel + 1) text = some (.cons value elements,rest) ↔
    ∃ behind, parseValue fuel text = some (value,behind) ∧
      ((skipWs behind).head? = some 44 ∧ parseElements fuel (skipWs (skipWs behind).tail) = some (elements,rest) ∨
        (skipWs behind).head? = some 93 ∧ elements = .nil ∧ rest = (skipWs behind).tail) := by
  rw [parseElements]
  constructor
  · intro read
    obtain ⟨⟨first,behind⟩,here,read⟩ := bind_eq_some_iff.mp read
    dsimp only at read
    split_ifs at read with comma bracket
    · obtain ⟨⟨others,behind'⟩,later,same⟩ := bind_eq_some_iff.mp read
      cases same
      exact ⟨behind,here,.inl ⟨comma,later⟩⟩
    · cases read
      exact ⟨behind,here,.inr ⟨bracket,rfl,rfl⟩⟩
  · rintro ⟨behind,here,⟨comma,later⟩ | ⟨bracket,rfl,rfl⟩⟩
    · simp [here,comma,later]
    · simp [here,bracket]

theorem parseMembers_cons_iff : parseMembers (fuel + 1) (34 :: text) = some (.cons key value members,rest) ↔
    ∃ after, parseString fuel text = some (key,after) ∧ (skipWs after).head? = some 58 ∧
      ∃ behind, parseValue fuel (skipWs (skipWs after).tail) = some (value,behind) ∧
        ((skipWs behind).head? = some 44 ∧ parseMembers fuel (skipWs (skipWs behind).tail) = some (members,rest) ∨
          (skipWs behind).head? = some 125 ∧ members = .nil ∧ rest = (skipWs behind).tail) := by
  rw [parseMembers,if_neg (by simp),tail_cons]
  constructor
  · intro read
    obtain ⟨⟨name,after⟩,named,read⟩ := bind_eq_some_iff.mp read
    dsimp only at read
    split_ifs at read with colon
    obtain ⟨⟨first,behind⟩,here,read⟩ := bind_eq_some_iff.mp read
    dsimp only at read
    split_ifs at read with comma brace
    · obtain ⟨⟨others,behind'⟩,later,same⟩ := bind_eq_some_iff.mp read
      cases same
      exact ⟨after,named,not_not.mp colon,behind,here,.inl ⟨comma,later⟩⟩
    · cases read
      exact ⟨after,named,not_not.mp colon,behind,here,.inr ⟨brace,rfl,rfl⟩⟩
  · rintro ⟨after,named,colon,behind,here,⟨comma,later⟩ | ⟨brace,rfl,rfl⟩⟩
    · simp [named,colon,here,comma,later]
    · simp [named,colon,here,brace]

end Lists

def toDecimal (n : ℕ) : List ℕ := if n = 0 then [48] else (Nat.digits 10 n).reverse.map (· + 48)
def toInteger (n : ℤ) : List ℕ := if n < 0 then 45 :: toDecimal n.natAbs else toDecimal n.natAbs

private theorem isDigit_toDecimal (n : ℕ) : ∀ c ∈ toDecimal n, isDigit c = true := by
  intro c member
  rw [toDecimal] at member
  split_ifs at member
  · rw [mem_singleton.mp member]
    decide
  · obtain ⟨digit,inside,rfl⟩ := mem_map.mp member
    have less : digit < 10 := Nat.digits_lt_base (by decide) (mem_reverse.mp inside)
    simp only [isDigit,Bool.and_eq_true,decide_eq_true_eq]
    omega

private theorem ofDecimal_toDecimal (n : ℕ) : ofDecimal (toDecimal n) = n := by
  rw [toDecimal]
  split_ifs with zero
  · rw [zero]
    decide
  · rw [ofDecimal,← map_reverse,reverse_reverse,List.map_map]
    have same : ((· - 48) ∘ (· + 48) : ℕ → ℕ) = id := by
      funext digit
      exact Nat.add_sub_cancel digit 48
    rw [same,List.map_id,Nat.ofDigits_digits]

private theorem head?_toDecimal (n : ℕ) : ∃ c rest, toDecimal n = c :: rest ∧ isDigit c = true ∧ (c = 48 → rest = []) := by
  by_cases zero : n = 0
  · exact ⟨48,[],by rw [toDecimal,if_pos zero],by decide,fun _ => rfl⟩
  · have some_digit : Nat.digits 10 n ≠ [] := Nat.digits_ne_nil_iff_ne_zero.mpr zero
    have written : toDecimal n = ((Nat.digits 10 n).getLast some_digit + 48) :: (Nat.digits 10 n).dropLast.reverse.map (· + 48) := by
      have reversed : (Nat.digits 10 n).reverse = (Nat.digits 10 n).getLast some_digit :: (Nat.digits 10 n).dropLast.reverse := by
        nth_rewrite 1 [← dropLast_append_getLast some_digit]
        exact reverse_concat' _ _
      rw [toDecimal,if_neg zero,reversed,map_cons]
    refine ⟨_,_,written,isDigit_toDecimal n _ (written ▸ mem_cons_self),fun leading => ?_⟩
    exact absurd (Nat.add_eq_right.mp leading) (Nat.getLast_digit_ne_zero 10 zero)

theorem toInteger_begins (n : ℤ) : ∃ c more, toInteger n = c :: more ∧ (c = 45 ∨ isDigit c = true) := by
  obtain ⟨c,more,written,digit,-⟩ := head?_toDecimal n.natAbs
  rw [toInteger]
  split_ifs
  · exact ⟨45,_,rfl,.inl rfl⟩
  · exact ⟨c,more,written,.inr digit⟩

/-- The end of the text or what may stand behind a value in an array or an object. -/
def Delimited (rest : List ℕ) : Prop := rest = [] ∨ ∃ c more, rest = c :: more ∧ (c = 44 ∨ c = 93 ∨ c = 125)

private theorem takeWhile_isDigit {rest : List ℕ} (delimited : Delimited rest) (n : ℕ) :
    (toDecimal n ++ rest).takeWhile isDigit = toDecimal n ∧ (toDecimal n ++ rest).dropWhile isDigit = rest := by
  have stop : rest.takeWhile isDigit = [] ∧ rest.dropWhile isDigit = rest := by
    rcases delimited with rfl | ⟨c,more,rfl,mark⟩
    · exact ⟨rfl,rfl⟩
    · have other : ¬ isDigit c = true := by rcases mark with rfl | rfl | rfl <;> decide
      exact ⟨takeWhile_cons_of_neg other,dropWhile_cons_of_neg other⟩
  rw [takeWhile_append_of_pos (isDigit_toDecimal n),dropWhile_append_of_pos (isDigit_toDecimal n),stop.1,stop.2]
  exact ⟨append_nil _,rfl⟩

private theorem parseFraction_delimited {rest : List ℕ} (delimited : Delimited rest) : parseFraction rest = some (0,rest) := by
  rcases delimited with rfl | ⟨c,more,rfl,rfl | rfl | rfl⟩ <;> rfl
private theorem parseExponent_delimited {rest : List ℕ} (delimited : Delimited rest) : parseExponent rest = some (0,rest) := by
  rcases delimited with rfl | ⟨c,more,rfl,rfl | rfl | rfl⟩ <;> rfl

theorem parseNumber_toInteger {rest : List ℕ} (delimited : Delimited rest) (n : ℤ) :
    parseNumber (toInteger n ++ rest) = some ((n : ℚ),rest) := by
  obtain ⟨c,digits,written,digit,leading⟩ := head?_toDecimal n.natAbs
  obtain ⟨taken,dropped⟩ := takeWhile_isDigit delimited n.natAbs
  have proper : ¬ (toDecimal n.natAbs = [] ∨ (toDecimal n.natAbs).head? = some 48 ∧ toDecimal n.natAbs ≠ [48]) := by
    rw [written]
    rintro (nothing | ⟨zero,more⟩)
    · cases nothing
    · cases zero
      exact more (by rw [leading rfl])
  have sign : (toDecimal n.natAbs ++ rest).head? ≠ some 45 := by
    rw [written]
    intro minus
    cases minus
    exact absurd digit (by decide)
  have magnitude : (((ofDecimal (toDecimal n.natAbs) : ℕ) : ℚ) + 0) * 10 ^ (0 : ℤ) = (n.natAbs : ℚ) := by
    rw [ofDecimal_toDecimal,add_zero,zpow_zero,mul_one]
  rw [toInteger]
  split_ifs with negative
  · rw [cons_append,parseNumber]
    simp only [head?_cons,tail_cons,if_true,taken,dropped,if_neg proper,parseFraction_delimited delimited,
      parseExponent_delimited delimited,bind_eq_bind,bind_some,magnitude,Option.pure_def]
    have same : -(n.natAbs : ℚ) = n := by rw [Nat.cast_natAbs,abs_of_neg negative,Int.cast_neg,neg_neg]
    rw [same]
  · rw [parseNumber]
    simp only [sign,if_false,taken,dropped,if_neg proper,parseFraction_delimited delimited,
      parseExponent_delimited delimited,bind_eq_bind,bind_some,magnitude,Option.pure_def]
    have same : (n.natAbs : ℚ) = n := by rw [Nat.cast_natAbs,abs_of_nonneg (Int.not_lt.mp negative)]
    rw [same]

end Osrm.Json
