import Mathlib.Tactic

/-!
`engine/base64.hpp` and the hints that are sent as Base64, 112 characters for the memory of a `SegmentHint`. The
iterators that regroup bits are Boost's; they are a parameter, with what the source relies on.
-/
namespace Osrm.Base64
open List

def isBase64 (c : Char) : Bool := c.isAlphanum || c == '+' || c == '/'

/-- `Base64FromBinary` and `BinaryFromBase64`, which throws outside the alphabet; four characters stand for three bytes. -/
structure BoostIterators where
  Base64FromBinary : List UInt8 → List Char
  BinaryFromBase64 : List Char → Option (List UInt8)
  alphabet : ∀ bytes, ∀ c ∈ Base64FromBinary bytes, isBase64 c = true
  groups : ∀ text, (∀ c ∈ text, isBase64 c = true) → 4 ∣ text.length →
    ∃ bytes, BinaryFromBase64 text = some bytes ∧ bytes.length = text.length / 4 * 3
  inverse : ∀ bytes, 3 ∣ bytes.length → BinaryFromBase64 (Base64FromBinary bytes) = some bytes

/-- What goes wrong in decoding: the exception of the iterator, and two accesses that have no defined meaning. -/
inductive Failure
  | dataflow_exception
  | erase_before_begin
  | write_past_end
  deriving DecidableEq, Repr

/-- `std::replace`. -/
def replace (old new : Char) (text : List Char) : List Char := text.map fun c => if c = old then new else c

section Codec
variable (iterators : BoostIterators)

def encodeBase64 (bytes : List UInt8) : List Char :=
  let padding := (3 - bytes.length % 3) % 3
  iterators.Base64FromBinary bytes ++ replicate padding '='

def decodeBase64 (encoded : List Char) : Except Failure (List UInt8) :=
  let num_padded := encoded.count '='
  let unpadded := replace '=' 'A' encoded
  match iterators.BinaryFromBase64 unpadded with
  | none => .error .dataflow_exception
  | some decoded =>
    if decoded.length < num_padded then .error .erase_before_begin
    else .ok (decoded.take (decoded.length - num_padded))

/-- The object is not initialized: a byte that is not written is `none`. -/
def decodeBase64Bytewise (size : ℕ) (encoded : List Char) : Except Failure (List (Option UInt8)) := do
  let decoded ← decodeBase64 iterators encoded
  if size < decoded.length then .error .write_past_end
  else return decoded.map some ++ replicate (size - decoded.length) none

/-- `sizeof(SegmentHint)`. -/
def SEGMENT_HINT_SIZE : ℕ := 80 + 4
def ENCODED_SEGMENT_HINT_SIZE : ℕ := 112
/-- `SegmentHint::ToBase64`, of the bytes of the hint. -/
def ToBase64 (hint : List UInt8) : List Char := replace '/' '_' (replace '+' '-' (encodeBase64 iterators hint))
/-- `SegmentHint::FromBase64`. -/
def FromBase64 (base64Hint : List Char) : Except Failure (List (Option UInt8)) :=
  decodeBase64Bytewise iterators SEGMENT_HINT_SIZE (replace '_' '/' (replace '-' '+' base64Hint))

end Codec

/-- `qi::char_("a-zA-Z0-9--_=")`. -/
def base64_char (c : Char) : Bool := c.isAlphanum || c == '-' || c == '_' || c == '='

/-- `qi::repeat(ENCODED_SEGMENT_HINT_SIZE)[base64_char]`: one hint and the rest of the input. -/
def hintString (input : List Char) : Option (List Char × List Char) :=
  let text := input.take ENCODED_SEGMENT_HINT_SIZE
  if text.length = ENCODED_SEGMENT_HINT_SIZE ∧ text.all base64_char then some (text,input.drop ENCODED_SEGMENT_HINT_SIZE)
  else none

def hintStrings : ℕ → List Char → List (List Char)
  | 0, _ => []
  | fuel + 1, input =>
    match hintString input with
    | some (text,rest) => text :: hintStrings fuel rest
    | none => []

section Replace
variable {old new c d : Char} {text : List Char}

theorem length_replace (old new : Char) (text : List Char) : (replace old new text).length = text.length := by
  simp [replace]

theorem mem_replace (member : d ∈ replace old new text) : (d = new ∧ old ∈ text) ∨ (d ∈ text ∧ d ≠ old) := by
  obtain ⟨c,inText,rfl⟩ := mem_map.mp member
  by_cases same : c = old
  · rw [if_pos same]
    exact .inl ⟨rfl,same ▸ inText⟩
  · rw [if_neg same]
    exact .inr ⟨inText,same⟩

private theorem count_replace (notOld : c ≠ old) (notNew : c ≠ new) (text : List Char) : (replace old new text).count c = text.count c := by
  induction text with
  | nil => rfl
  | cons first rest ih =>
    have step : replace old new (first :: rest) = (if first = old then new else first) :: replace old new rest := rfl
    rw [step,count_cons,count_cons,ih]
    by_cases same : first = old
    · simp [same,notOld.symm,notNew.symm]
    · simp [same]

private theorem replace_replace (fresh : new ∉ text) : replace new old (replace old new text) = text := by
  rw [replace,replace,map_map]
  conv => rhs; rw [← map_id text]
  apply map_congr_left
  intro c member
  by_cases same : c = old
  · simp [same]
  · have other : c ≠ new := fun equal => fresh (equal ▸ member)
    simp [same,other]

private theorem replace_comm {old' new' : Char} (different : old ≠ old') (apart : new ≠ old') (apart' : new' ≠ old) (text : List Char) :
    replace old new (replace old' new' text) = replace old' new' (replace old new text) := by
  rw [replace,replace,replace,replace,map_map,map_map]
  apply map_congr_left
  intro c _
  by_cases first : c = old
  · subst first
    simp [different,apart]
  · by_cases second : c = old'
    · subst second
      simp [first,apart']
    · simp [first,second]

end Replace

/-- The characters of a hint, as the grammar lets them through. -/
structure IsHint (text : List Char) : Prop where
  size : text.length = ENCODED_SEGMENT_HINT_SIZE
  chars : ∀ c ∈ text, base64_char c = true

section Hints
variable (iterators : BoostIterators) {text : List Char}

private theorem chars_of_hint (chars : ∀ c ∈ text, base64_char c = true) :
    ∀ c ∈ replace '=' 'A' (replace '_' '/' (replace '-' '+' text)), isBase64 c = true := by
  intro c member
  rcases mem_replace member with ⟨rfl,-⟩ | ⟨member,notPad⟩
  · decide
  rcases mem_replace member with ⟨rfl,-⟩ | ⟨member,notUnderscore⟩
  · decide
  rcases mem_replace member with ⟨rfl,-⟩ | ⟨member,notMinus⟩
  · decide
  have char := chars c member
  simp only [base64_char,Bool.or_eq_true,beq_iff_eq] at char
  simp only [isBase64,Bool.or_eq_true,beq_iff_eq]
  tauto

private theorem FromBase64_eq (hint : IsHint text) :
    ∃ decoded : List UInt8, decoded.length = SEGMENT_HINT_SIZE ∧
      FromBase64 iterators text =
        if SEGMENT_HINT_SIZE < text.count '=' then .error .erase_before_begin
        else .ok ((decoded.take (SEGMENT_HINT_SIZE - text.count '=')).map some ++ replicate (text.count '=') none) := by
  have padded : (replace '_' '/' (replace '-' '+' text)).count '=' = text.count '=' := by
    rw [count_replace (by decide) (by decide),count_replace (by decide) (by decide)]
  have size : (replace '=' 'A' (replace '_' '/' (replace '-' '+' text))).length = ENCODED_SEGMENT_HINT_SIZE := by
    rw [length_replace,length_replace,length_replace,hint.size]
  obtain ⟨decoded,read,length⟩ := iterators.groups _ (chars_of_hint hint.chars) (by rw [size]; decide)
  rw [size] at length
  have whole : decoded.length = SEGMENT_HINT_SIZE := length
  refine ⟨decoded,whole,?_⟩
  rw [FromBase64,decodeBase64Bytewise,decodeBase64]
  simp only [read,padded,whole]
  by_cases many : SEGMENT_HINT_SIZE < text.count '='
  · rw [if_pos many,if_pos many]
    rfl
  · have rest : (decoded.take (SEGMENT_HINT_SIZE - text.count '=')).length = SEGMENT_HINT_SIZE - text.count '=' := by
      rw [length_take,whole]
      omega
    rw [if_neg many,if_neg many]
    simp only [bind,Except.bind,pure,Except.pure,rest]
    rw [if_neg (by omega),Nat.sub_sub_self (by omega)]

def DecodesWhole (text : List Char) : Prop :=
  ∃ bytes : List UInt8, bytes.length = SEGMENT_HINT_SIZE ∧ FromBase64 iterators text = .ok (bytes.map some)

theorem FromBase64_ToBase64 {hint : List UInt8} (size : hint.length = SEGMENT_HINT_SIZE) :
    FromBase64 iterators (ToBase64 iterators hint) = .ok (hint.map some) := by
  have unpadded : encodeBase64 iterators hint = iterators.Base64FromBinary hint := by
    rw [encodeBase64,size]
    exact append_nil _
  have absent {c : Char} (outside : isBase64 c = false) : c ∉ encodeBase64 iterators hint := by
    intro member
    rw [unpadded] at member
    exact absurd (iterators.alphabet hint c member) (by simp [outside])
  have noPadding : (encodeBase64 iterators hint).count '=' = 0 := count_eq_zero.mpr (absent (by decide))
  have kept : replace '=' 'A' (encodeBase64 iterators hint) = encodeBase64 iterators hint := by
    rw [replace]
    conv => rhs; rw [← map_id (encodeBase64 iterators hint)]
    apply map_congr_left
    intro c member
    exact if_neg fun same => absent (by decide) (same ▸ member)
  rw [FromBase64,ToBase64,replace_comm (by decide) (by decide) (by decide) (replace '+' '-' _),replace_replace (absent (by decide)),
    replace_replace (absent (by decide)),decodeBase64Bytewise,decodeBase64]
  simp only [noPadding,kept]
  rw [unpadded,iterators.inverse hint (by rw [size]; decide)]
  simp [bind,Except.bind,pure,Except.pure,size]

/-- A hint decodes to a whole hint if and only if it has no equals sign. -/
theorem decodesWhole_iff (hint : IsHint text) : DecodesWhole iterators text ↔ '=' ∉ text := by
  obtain ⟨decoded,whole,result⟩ := FromBase64_eq iterators hint
  rw [← count_eq_zero]
  constructor
  · rintro ⟨bytes,length,all⟩
    rw [result] at all
    by_cases many : SEGMENT_HINT_SIZE < text.count '='
    · rw [if_pos many] at all
      cases all
    · rw [if_neg many] at all
      have same := Except.ok.inj all
      by_contra some_padding
      have unset : none ∈ bytes.map some := by
        rw [← same]
        exact mem_append_right _ (mem_replicate.mpr ⟨some_padding,rfl⟩)
      simp at unset
  · intro none
    refine ⟨decoded,whole,?_⟩
    rw [result,none,if_neg (by decide),Nat.sub_zero,take_of_length_le whole.le]
    simp

end Hints

def sextet (n : ℕ) : Char :=
  if n < 26 then Char.ofNat (65 + n)
  else if n < 52 then Char.ofNat (97 + (n - 26))
  else if n < 62 then Char.ofNat (48 + (n - 52))
  else if n = 62 then '+' else '/'

def value (c : Char) : ℕ :=
  if c.isUpper then c.toNat - 65
  else if c.isLower then c.toNat - 97 + 26
  else if c.isDigit then c.toNat - 48 + 52
  else if c = '+' then 62 else 63

def encodeGroups : List UInt8 → List Char
  | a :: b :: c :: rest =>
    sextet (a.toNat / 4) :: sextet (a.toNat % 4 * 16 + b.toNat / 16) :: sextet (b.toNat % 16 * 4 + c.toNat / 64) ::
      sextet (c.toNat % 64) :: encodeGroups rest
  | [a,b] => [sextet (a.toNat / 4),sextet (a.toNat % 4 * 16 + b.toNat / 16),sextet (b.toNat % 16 * 4)]
  | [a] => [sextet (a.toNat / 4),sextet (a.toNat % 4 * 16)]
  | [] => []

def decodeGroups : List Char → Option (List UInt8)
  | w :: x :: y :: z :: rest =>
    if [w,x,y,z].all isBase64 then
      (decodeGroups rest).map fun bytes =>
        UInt8.ofNat (value w * 4 + value x / 16) :: UInt8.ofNat (value x % 16 * 16 + value y / 4) ::
          UInt8.ofNat (value y % 4 * 64 + value z) :: bytes
    else none
  | _ => some []

private theorem isBase64_sextet (n : ℕ) : isBase64 (sextet n) = true := by
  by_cases small : n < 64
  · have all : ∀ n < 64, isBase64 (sextet n) = true := by decide +kernel
    exact all n small
  · rw [sextet,if_neg (by omega),if_neg (by omega),if_neg (by omega),if_neg (by omega)]
    rfl

private theorem value_sextet {n : ℕ} (small : n < 64) : value (sextet n) = n := by
  have all : ∀ n < 64, value (sextet n) = n := by decide +kernel
  exact all n small

private theorem encodeGroups_alphabet (bytes : List UInt8) : ∀ c ∈ encodeGroups bytes, isBase64 c = true := by
  fun_induction encodeGroups bytes with
  | case1 a b c rest ih => simpa [isBase64_sextet] using ih
  | case2 a b => simp [isBase64_sextet]
  | case3 a => simp [isBase64_sextet]
  | case4 => simp

private theorem decodeGroups_groups (text : List Char) (chars : ∀ c ∈ text, isBase64 c = true) (whole : 4 ∣ text.length) :
    ∃ bytes, decodeGroups text = some bytes ∧ bytes.length = text.length / 4 * 3 := by
  fun_induction decodeGroups text with
  | case1 w x y z rest all ih =>
    obtain ⟨bytes,read,length⟩ := ih (fun c member => chars c (by simp [member])) (by simpa using whole)
    refine ⟨_,by rw [read]; rfl,?_⟩
    simp only [length_cons,length] at whole ⊢
    omega
  | case2 w x y z rest notAll => exact absurd (all_eq_true.mpr fun c member => chars c (by aesop)) notAll
  | case3 text short =>
    have few : text.length < 4 := by
      match text,short with
      | [],_ | [_],_ | [_,_],_ | [_,_,_],_ => simp
      | w :: x :: y :: z :: rest,short => exact absurd rfl (short w x y z rest)
    have none : text.length = 0 := Nat.eq_zero_of_dvd_of_lt whole few
    exact ⟨[],rfl,by rw [none]; rfl⟩

private theorem decodeGroups_encodeGroups (bytes : List UInt8) (whole : 3 ∣ bytes.length) :
    decodeGroups (encodeGroups bytes) = some bytes := by
  fun_induction encodeGroups bytes with
  | case1 a b c rest ih =>
    have read := ih (by simpa using whole)
    have boundA := a.toNat_lt
    have boundB := b.toNat_lt
    have boundC := c.toNat_lt
    have first : a.toNat / 4 * 4 + (a.toNat % 4 * 16 + b.toNat / 16) / 16 = a.toNat := by omega
    have second : (a.toNat % 4 * 16 + b.toNat / 16) % 16 * 16 + (b.toNat % 16 * 4 + c.toNat / 64) / 4 = b.toNat := by omega
    have third : (b.toNat % 16 * 4 + c.toNat / 64) % 4 * 64 + c.toNat % 64 = c.toNat := by omega
    rw [decodeGroups,if_pos (by simp [isBase64_sextet]),read]
    simp only [Option.map_some]
    rw [value_sextet (by omega),value_sextet (by omega),value_sextet (by omega),value_sextet (by omega),first,second,third]
    simp
  | case2 a b => simp at whole
  | case3 a => simp at whole
  | case4 => rfl

def rfc4648 : BoostIterators :=
  ⟨encodeGroups,decodeGroups,encodeGroups_alphabet,decodeGroups_groups,decodeGroups_encodeGroups⟩

theorem decodesWhole_iff_letters : DecodesWhole rfc4648 (replicate 112 'A') ↔ '=' ∉ replicate 112 'A' :=
  decodesWhole_iff rfc4648 ⟨by simp [ENCODED_SEGMENT_HINT_SIZE],by simp [base64_char]⟩

/-- A hint of equals signs only is accepted, and more bytes are erased than there are. -/
theorem accepted_but_not_whole : IsHint (replicate 112 '=') ∧
    FromBase64 rfc4648 (replicate 112 '=') = .error .erase_before_begin ∧
    ¬ ∀ text, IsHint text → DecodesWhole rfc4648 text := by
  have hint : IsHint (replicate 112 '=') := ⟨by simp [ENCODED_SEGMENT_HINT_SIZE],by simp [base64_char]⟩
  obtain ⟨decoded,-,result⟩ := FromBase64_eq rfc4648 hint
  rw [count_replicate_self,if_pos (by decide)] at result
  refine ⟨hint,result,fun all => ?_⟩
  obtain ⟨bytes,-,whole⟩ := all _ hint
  rw [result] at whole
  cases whole

end Osrm.Base64
