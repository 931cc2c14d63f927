import Osrm.Base64

/-!
`Hint` of `engine/hint.cpp`: the hints of all segments of a location as one text, which is cut again where each of them ends.
-/
namespace Osrm.HintText
open List
open Base64

section Codec
variable (iterators : BoostIterators)

/-- `Hint::ToBase64`. -/
def ToBase64 (segment_hints : List (List UInt8)) : List Char :=
  segment_hints.foldl (fun res hint => res ++ Base64.ToBase64 iterators hint) []

/-- `Hint::FromBase64`. -/
def FromBase64 (base64Hint : List Char) : Except Failure (List (List (Option UInt8))) :=
  let num_hints := base64Hint.length / ENCODED_SEGMENT_HINT_SIZE
  (List.range num_hints).mapM fun i =>
    let start_offset := i * ENCODED_SEGMENT_HINT_SIZE
    Base64.FromBase64 iterators ((base64Hint.drop start_offset).take ENCODED_SEGMENT_HINT_SIZE)

end Codec

section Blocks
variable {α β : Type} {f : α → List β} {size : ℕ} {l : List α}

private theorem length_flatMap_of_length (sizes : ∀ a ∈ l, (f a).length = size) : (l.flatMap f).length = l.length * size := by
  induction l with
  | nil => simp
  | cons a l ih =>
    rw [flatMap_cons,length_append,sizes a (.head _),ih fun b member => sizes b (.tail _ member),length_cons]
    ring

private theorem block_flatMap (sizes : ∀ a ∈ l, (f a).length = size) {i : ℕ} {a : α} (found : l[i]? = some a) :
    ((l.flatMap f).drop (i * size)).take size = f a := by
  induction l generalizing i with
  | nil => simp at found
  | cons b l ih =>
    have first := sizes b (.head _)
    cases i with
    | zero =>
      obtain rfl : b = a := by simpa using found
      rw [zero_mul,drop_zero,flatMap_cons,← first,take_left]
    | succ i =>
      rw [flatMap_cons,add_mul,one_mul,add_comm,← drop_drop,← first,drop_left,first]
      exact ih (fun c member => sizes c (.tail _ member)) (by simpa using found)

end Blocks

private theorem mapM_ok {ε α β : Type} {g : α → Except ε β} {v : α → β} {l : List α} (all : ∀ a ∈ l, g a = .ok (v a)) :
    l.mapM g = .ok (l.map v) := by
  induction l with
  | nil => rfl
  | cons a l ih => simp [all,ih fun b member => all b (.tail _ member),bind,Except.bind,pure,Except.pure]

section Hints
variable {iterators : BoostIterators} {hint : List UInt8} {hints : List (List UInt8)}

private theorem toBase64_eq_flatMap (iterators : BoostIterators) (hints : List (List UInt8)) :
    ToBase64 iterators hints = hints.flatMap (Base64.ToBase64 iterators) := by
  rw [ToBase64,flatMap_eq_foldl]

private theorem isHint_toBase64 (lengths : ∀ bytes, 3 ∣ bytes.length → (iterators.Base64FromBinary bytes).length = bytes.length / 3 * 4)
    (size : hint.length = SEGMENT_HINT_SIZE) : IsHint (Base64.ToBase64 iterators hint) := by
  have unpadded : encodeBase64 iterators hint = iterators.Base64FromBinary hint := by
    rw [encodeBase64,size]
    exact append_nil _
  constructor
  · rw [Base64.ToBase64,length_replace,length_replace,unpadded,lengths hint (by rw [size]; decide),size]
    rfl
  · intro c member
    rw [Base64.ToBase64,unpadded] at member
    rcases mem_replace member with ⟨rfl,-⟩ | ⟨member,notSlash⟩
    · decide
    rcases mem_replace member with ⟨rfl,-⟩ | ⟨member,notPlus⟩
    · decide
    have char := iterators.alphabet hint c member
    simp only [isBase64,Bool.or_eq_true,beq_iff_eq] at char
    simp only [base64_char,Bool.or_eq_true,beq_iff_eq]
    tauto

private theorem hintString_append {text : List Char} (isHint : IsHint text) (rest : List Char) :
    hintString (text ++ rest) = some (text,rest) := by
  have all : text.all base64_char := all_eq_true.mpr isHint.chars
  rw [hintString,← isHint.size]
  simp [isHint.size,all]

private theorem hintStrings_flatMap {f : List UInt8 → List Char} (isHint : ∀ hint ∈ hints, IsHint (f hint)) {fuel : ℕ}
    (enough : hints.length ≤ fuel) : hintStrings fuel (hints.flatMap f) = hints.map f := by
  induction hints generalizing fuel with
  | nil => cases fuel <;> rfl
  | cons hint rest ih =>
    cases fuel with
    | zero => simp at enough
    | succ fuel =>
      rw [flatMap_cons,hintStrings,hintString_append (isHint hint (.head _)),map_cons]
      simp only
      rw [ih (fun h member => isHint h (.tail _ member)) (by simpa using enough)]

private theorem fromBase64_toBase64 (sizes : ∀ hint ∈ hints, hint.length = SEGMENT_HINT_SIZE)
    (texts : ∀ hint ∈ hints, (Base64.ToBase64 iterators hint).length = ENCODED_SEGMENT_HINT_SIZE) :
    FromBase64 iterators (ToBase64 iterators hints) = .ok (hints.map fun hint => hint.map some) := by
  have count : (ToBase64 iterators hints).length / ENCODED_SEGMENT_HINT_SIZE = hints.length := by
    rw [toBase64_eq_flatMap,length_flatMap_of_length texts,Nat.mul_div_cancel _ (by decide)]
  have decoded : ∀ i ∈ List.range hints.length, Base64.FromBase64 iterators
      (((ToBase64 iterators hints).drop (i * ENCODED_SEGMENT_HINT_SIZE)).take ENCODED_SEGMENT_HINT_SIZE) =
        .ok ((hints.getD i []).map some) := by
    intro i member
    have inside := mem_range.mp member
    have found : hints[i]? = some hints[i] := getElem?_eq_getElem inside
    rw [toBase64_eq_flatMap,block_flatMap texts found,FromBase64_ToBase64 iterators (sizes _ (getElem_mem inside)),
      getD_eq_getElem?_getD,found,Option.getD_some]
  rw [FromBase64,count]
  dsimp only
  rw [mapM_ok decoded]
  congr 1
  refine ext_getElem? fun i => ?_
  by_cases inside : i < hints.length
  · simp [inside]
  · simp [inside]

/-- The hints of a location come back byte for byte, and their text is what the grammar accepts. -/
theorem hints_round_trip (iterators : BoostIterators)
    (lengths : ∀ bytes, 3 ∣ bytes.length → (iterators.Base64FromBinary bytes).length = bytes.length / 3 * 4)
    (hints : List (List UInt8)) (sizes : ∀ hint ∈ hints, hint.length = SEGMENT_HINT_SIZE) :
    FromBase64 iterators (ToBase64 iterators hints) = .ok (hints.map fun hint => hint.map some) ∧
    (∀ c ∈ ToBase64 iterators hints, base64_char c = true) ∧
    (ToBase64 iterators hints).length = hints.length * ENCODED_SEGMENT_HINT_SIZE ∧
    (∀ fuel, hints.length ≤ fuel →
      hintStrings fuel (ToBase64 iterators hints) = hints.map (Base64.ToBase64 iterators)) := by
  have isHint (hint) (member : hint ∈ hints) := isHint_toBase64 lengths (sizes hint member)
  have texts (hint) (member : hint ∈ hints) := (isHint hint member).size
  refine ⟨fromBase64_toBase64 sizes texts,fun c member => ?_,?_,fun fuel enough => ?_⟩
  · rw [toBase64_eq_flatMap] at member
    obtain ⟨hint,inHints,inText⟩ := mem_flatMap.mp member
    exact (isHint hint inHints).chars c inText
  · rw [toBase64_eq_flatMap,length_flatMap_of_length texts]
  · rw [toBase64_eq_flatMap]
    exact hintStrings_flatMap isHint enough

end Hints

private theorem length_encodeGroups (bytes : List UInt8) (whole : 3 ∣ bytes.length) :
    (rfc4648.Base64FromBinary bytes).length = bytes.length / 3 * 4 := by
  rw [show rfc4648.Base64FromBinary bytes = encodeGroups bytes from rfl]
  fun_induction encodeGroups bytes with
  | case1 a b c rest ih =>
    have length := ih (by simpa using whole)
    simp only [length_cons,length]
    omega
  | case2 a b => simp at whole
  | case3 a => simp at whole
  | case4 => rfl

/-- Two segments, one with all bits unset and one with all bits set. -/
theorem hints_round_trip_two : FromBase64 rfc4648 (ToBase64 rfc4648 [replicate 84 0,replicate 84 255]) =
    .ok [replicate 84 (some 0),replicate 84 (some 255)] := by
  have decoded := (hints_round_trip rfc4648 length_encodeGroups [replicate 84 0,replicate 84 255]
    (by simp [SEGMENT_HINT_SIZE])).1
  simpa using decoded

end Osrm.HintText
