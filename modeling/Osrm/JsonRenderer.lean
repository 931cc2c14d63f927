import Osrm.Json

/-!
`util/json_renderer.hpp` with `EscapeJSONString` of `util/string_util.hpp`. A string is copied if it needs no escaping, and a
key is always copied. An object is its members in the order in which the map is iterated.
-/
namespace Osrm.JsonRenderer
open List Option
open Json

def json_quotable_character (c : ℕ) : Bool := decide (c < 32) || c == 34 || c == 92
def RequiresJSONStringEscaping (string : List ℕ) : Bool := string.any json_quotable_character

/-- The backslash, the quotation mark, the slash and five control characters get a backslash. -/
def escapeLetter (letter : ℕ) : List ℕ :=
  if letter = 92 then [92,92]
  else if letter = 34 then [92,34]
  else if letter = 47 then [92,47]
  else if letter = 8 then [92,98]
  else if letter = 12 then [92,102]
  else if letter = 10 then [92,110]
  else if letter = 13 then [92,114]
  else if letter = 9 then [92,116]
  else [letter]

def EscapeJSONString (input : List ℕ) : List ℕ := input.flatMap escapeLetter
/-- Integers of at most ten digits; the format with ten digits prints them as they are. -/
abbrev Number := {value : ℤ // value.natAbs < 10000000000}
def renderString (value : List ℕ) : List ℕ :=
  34 :: (if RequiresJSONStringEscaping value then EscapeJSONString value else value) ++ [34]

mutual
/-- `Renderer` -/
def render : Value Number → List ℕ
  | .String value => renderString value
  | .Number value => toInteger value.1
  | .Object values => 123 :: renderMembers values ++ [125]
  | .Array values => 91 :: renderElements values ++ [93]
  | .True => [116,114,117,101]
  | .False => [102,97,108,115,101]
  | .Null => [110,117,108,108]
def renderMembers : Members Number → List ℕ
  | .nil => []
  | .cons key value members =>
    34 :: key ++ 34 :: 58 :: render value ++ match members with
      | .nil => []
      | .cons _ _ _ => 44 :: renderMembers members
def renderElements : Elements Number → List ℕ
  | .nil => []
  | .cons value elements =>
    render value ++ match elements with
      | .nil => []
      | .cons _ _ => 44 :: renderElements elements
end

/-- A character that a string value may have: no control character without a letter of its own. -/
def Escapable (c : ℕ) : Prop := 32 ≤ c ∨ c = 8 ∨ c = 9 ∨ c = 10 ∨ c = 12 ∨ c = 13

mutual
/-- No key needs escaping, and every control character in a string has a letter. -/
def Clean : Value Number → Prop
  | .String value => ∀ c ∈ value, Escapable c
  | .Object values => CleanMembers values
  | .Array values => CleanElements values
  | .Number _ => True
  | .True => True
  | .False => True
  | .Null => True
def CleanMembers : Members Number → Prop
  | .nil => True
  | .cons key value members => RequiresJSONStringEscaping key = false ∧ Clean value ∧ CleanMembers members
def CleanElements : Elements Number → Prop
  | .nil => True
  | .cons value elements => Clean value ∧ CleanElements elements
end

section Strings
variable {fuel : ℕ} {value rest rest' : List ℕ}

private theorem requires_iff : RequiresJSONStringEscaping value = false ↔ ∀ c ∈ value, Plain c := by
  simp only [RequiresJSONStringEscaping,json_quotable_character,Plain,List.any_eq_false,Bool.or_eq_true,decide_eq_true_eq,beq_iff_eq]
  exact forall₂_congr fun c _ => by omega

private theorem escapeLetter_cases (c : ℕ) : (∃ letter, escapeLetter c = [92,letter] ∧ unescape letter = some c ∧ Escapable c) ∨
    (escapeLetter c = [c] ∧ Plain c ∧ Escapable c) ∨ escapeLetter c = [c] ∧ c < 32 ∧ ¬ Escapable c := by
  rw [escapeLetter,Escapable,Plain]
  split_ifs with backslash mark slash backspace feed line carriage tab
  · exact .inl ⟨92,rfl,by simp [unescape,backslash],by omega⟩
  · exact .inl ⟨34,rfl,by simp [unescape,mark],by omega⟩
  · exact .inl ⟨47,rfl,by simp [unescape,slash],by omega⟩
  · exact .inl ⟨98,rfl,by simp [unescape,backspace],by omega⟩
  · exact .inl ⟨102,rfl,by simp [unescape,feed],by omega⟩
  · exact .inl ⟨110,rfl,by simp [unescape,line],by omega⟩
  · exact .inl ⟨114,rfl,by simp [unescape,carriage],by omega⟩
  · exact .inl ⟨116,rfl,by simp [unescape,tab],by omega⟩
  · rcases Nat.lt_or_ge c 32 with control | other
    · exact .inr (.inr ⟨rfl,control,by omega⟩)
    · exact .inr (.inl ⟨rfl,⟨other,mark,backslash⟩,.inl other⟩)

private theorem parseString_escaped_iff (enough : (EscapeJSONString value).length < fuel) :
    parseString fuel (EscapeJSONString value ++ 34 :: rest) = some (value,rest') ↔ (∀ c ∈ value, Escapable c) ∧ rest' = rest := by
  induction value generalizing fuel with
  | nil =>
    obtain ⟨fuel,rfl⟩ := Nat.exists_eq_succ_of_ne_zero (Nat.ne_of_gt (Nat.zero_lt_of_lt enough))
    rw [EscapeJSONString,flatMap_nil,nil_append,parseString_close]
    simp [eq_comm]
  | cons c value ih =>
    obtain ⟨fuel,rfl⟩ := Nat.exists_eq_succ_of_ne_zero (Nat.ne_of_gt (Nat.zero_lt_of_lt enough))
    -- what is read behind a character is the rest of the string
    have behind (tail : (EscapeJSONString value).length < fuel) :
        ((parseString fuel (EscapeJSONString value ++ 34 :: rest)).map fun read => (c :: read.1,read.2)) = some (c :: value,rest') ↔
          (∀ c ∈ value, Escapable c) ∧ rest' = rest := by
      rw [← ih tail,map_eq_some_iff]
      constructor
      · rintro ⟨⟨_,_⟩,read,same⟩
        cases same
        exact read
      · exact fun read => ⟨_,read,rfl⟩
    rw [EscapeJSONString,flatMap_cons,← EscapeJSONString] at enough ⊢
    rw [forall_mem_cons]
    rcases escapeLetter_cases c with ⟨letter,written,escaped,proper⟩ | ⟨written,plain,proper⟩ | ⟨written,control,improper⟩
    · rw [written] at enough ⊢
      rw [append_assoc,cons_append,singleton_append,parseString_escape escaped,
        behind (by simp only [length_append,length_cons] at enough; omega)]
      simp [proper]
    · rw [written] at enough ⊢
      rw [append_assoc,singleton_append,parseString_plain plain,
        behind (by simp only [length_append,length_cons] at enough; omega)]
      simp [proper]
    · rw [written,append_assoc,singleton_append,parseString_control control]
      simp [improper]

private theorem parseString_rendered_iff (enough : (renderString value).length ≤ fuel + 1) :
    parseString fuel ((if RequiresJSONStringEscaping value then EscapeJSONString value else value) ++ 34 :: rest) = some (value,rest') ↔
      (∀ c ∈ value, Escapable c) ∧ rest' = rest := by
  rw [renderString,length_append,length_cons,length_singleton] at enough
  cases requires : RequiresJSONStringEscaping value with
  | true =>
    rw [requires,if_pos rfl] at enough
    rw [if_pos rfl]
    exact parseString_escaped_iff (by omega)
  | false =>
    rw [requires,if_neg Bool.false_ne_true] at enough
    rw [if_neg Bool.false_ne_true,parseString_verbatim_iff (by omega)]
    have plain := requires_iff.mp requires
    have proper (c : ℕ) (member : c ∈ value) : Escapable c := .inl (plain c member).1
    exact and_congr_left' (iff_of_true plain proper)

end Strings

/-! ### Values -/

section Values
variable {rest rest' : List ℕ}

def exact (number : Number) : ℚ := number.1

private theorem render_begins (value : Value Number) : ∃ c more, render value = c :: more ∧ isWs c = false ∧ c ≠ 93 := by
  cases value with
  | String value => exact ⟨34,_,rfl,by decide,by decide⟩
  | Object values => exact ⟨123,_,rfl,by decide,by decide⟩
  | Array values => exact ⟨91,_,rfl,by decide,by decide⟩
  | True => exact ⟨116,_,rfl,by decide,by decide⟩
  | False => exact ⟨102,_,rfl,by decide,by decide⟩
  | Null => exact ⟨110,_,rfl,by decide,by decide⟩
  | Number value =>
    obtain ⟨c,more,written,sign⟩ := toInteger_begins value.1
    simp only [isDigit,Bool.and_eq_true,decide_eq_true_eq] at sign
    refine ⟨c,more,written,?_,by omega⟩
    simp only [isWs,Bool.or_eq_false_iff,beq_eq_false_iff_ne]
    omega

private theorem renderElements_begins (value : Value Number) (elements : Elements Number) :
    ∃ c more, renderElements (.cons value elements) = c :: more ∧ isWs c = false ∧ c ≠ 93 := by
  obtain ⟨c,more,begins,mark⟩ := render_begins value
  cases elements with
  | nil => exact ⟨c,_,by rw [renderElements,begins]; rfl,mark⟩
  | cons second elements => exact ⟨c,_,by rw [renderElements,begins]; rfl,mark⟩

private theorem skipWs_renderElements (value : Value Number) (elements : Elements Number) :
    skipWs (renderElements (.cons value elements) ++ rest) = renderElements (.cons value elements) ++ rest := by
  obtain ⟨c,more,begins,mark,-⟩ := renderElements_begins value elements
  rw [begins,cons_append,skipWs_cons mark]

private theorem skipWs_renderMembers (rest : List ℕ) (key : List ℕ) (value : Value Number) (members : Members Number) :
    skipWs (renderMembers (.cons key value members) ++ rest) = renderMembers (.cons key value members) ++ rest ∧
      (renderMembers (.cons key value members) ++ rest).head? = some 34 := by
  cases members with
  | nil => exact ⟨skipWs_cons (by decide),rfl⟩
  | cons other second members => exact ⟨skipWs_cons (by decide),rfl⟩

private theorem skipWs_render (value : Value Number) : skipWs (render value ++ rest) = render value ++ rest := by
  obtain ⟨c,more,begins,mark,-⟩ := render_begins value
  rw [begins,cons_append,skipWs_cons mark]

private theorem iff_of_read (value : Value Number) (clean : Clean value) {read : Option (Value ℚ × List ℕ)}
    (same : read = some (value.map exact,rest)) : read = some (value.map exact,rest') ↔ Clean value ∧ rest' = rest := by
  rw [same,some.injEq,Prod.mk.injEq]
  exact ⟨fun equal => ⟨clean,equal.2.symm⟩,fun equal => ⟨rfl,equal.2.symm⟩⟩

private theorem wrapped_iff {Inside : Type} {wrap : Inside → Value ℚ} (injective : Function.Injective wrap) {read : Option (Inside × List ℕ)}
    {inside : Inside} :
    read.map (fun found => (wrap found.1,found.2)) = some (wrap inside,rest') ↔ read = some (inside,rest') := by
  rw [map_eq_some_iff]
  constructor
  · rintro ⟨⟨other,_⟩,found,same⟩
    obtain ⟨wrapped,rfl⟩ := Prod.mk.inj same
    cases injective wrapped
    exact found
  · exact fun found => ⟨_,found,rfl⟩

private theorem parseElements_first_iff {fuel : ℕ} {tail : List ℕ} {value : Value Number} {elements : Elements ℚ}
    (here : ∀ behind, parseValue fuel (render value ++ tail) = some (value.map exact,behind) ↔ Clean value ∧ behind = tail)
    (mark : skipWs tail = tail) :
    parseElements (fuel + 1) (render value ++ tail) = some (.cons (value.map exact) elements,rest') ↔ Clean value ∧
      (tail.head? = some 44 ∧ parseElements fuel (skipWs tail.tail) = some (elements,rest') ∨
        tail.head? = some 93 ∧ elements = .nil ∧ rest' = tail.tail) := by
  rw [parseElements_cons_iff]
  constructor
  · rintro ⟨behind,read,next⟩
    obtain ⟨clean,rfl⟩ := (here behind).mp read
    exact ⟨clean,mark ▸ next⟩
  · rintro ⟨clean,next⟩
    exact ⟨tail,(here tail).mpr ⟨clean,rfl⟩,mark.symm ▸ next⟩

private theorem parseMembers_first_iff {fuel : ℕ} {key tail : List ℕ} {value : Value Number} {members : Members ℚ} (enough : key.length < fuel)
    (here : ∀ behind, parseValue fuel (render value ++ tail) = some (value.map exact,behind) ↔ Clean value ∧ behind = tail)
    (mark : skipWs tail = tail) :
    parseMembers (fuel + 1) (34 :: (key ++ 34 :: 58 :: (render value ++ tail))) = some (.cons key (value.map exact) members,rest') ↔
      RequiresJSONStringEscaping key = false ∧ Clean value ∧
        (tail.head? = some 44 ∧ parseMembers fuel (skipWs tail.tail) = some (members,rest') ∨
          tail.head? = some 125 ∧ members = .nil ∧ rest' = tail.tail) := by
  have colon : skipWs (58 :: (render value ++ tail)) = 58 :: (render value ++ tail) := skipWs_cons (by decide)
  rw [parseMembers_cons_iff,requires_iff]
  constructor
  · rintro ⟨after,named,-,behind,read,next⟩
    obtain ⟨plain,rfl⟩ := (parseString_verbatim_iff enough).mp named
    rw [colon,tail_cons,skipWs_render] at read
    obtain ⟨clean,rfl⟩ := (here behind).mp read
    exact ⟨plain,clean,mark ▸ next⟩
  · rintro ⟨plain,clean,next⟩
    refine ⟨_,(parseString_verbatim_iff enough).mpr ⟨plain,rfl⟩,by rw [colon]; rfl,tail,?_,mark.symm ▸ next⟩
    rw [colon,tail_cons,skipWs_render]
    exact (here tail).mpr ⟨clean,rfl⟩

mutual
theorem parseValue_iff {fuel : ℕ} {rest rest' : List ℕ} (value : Value Number) (enough : (render value).length ≤ fuel) (delimited : Delimited rest) :
    parseValue fuel (render value ++ rest) = some (value.map exact,rest') ↔ Clean value ∧ rest' = rest := by
  obtain ⟨c,more,begins,mark,-⟩ := render_begins value
  obtain ⟨fuel,rfl⟩ : ∃ before, fuel = before + 1 :=
    Nat.exists_eq_succ_of_ne_zero (Nat.ne_of_gt (Nat.zero_lt_of_lt (begins ▸ enough)))
  cases value with
  | True => exact iff_of_read _ (by simp [Clean]) (by simp [render,parseValue,literal,Value.map])
  | False => exact iff_of_read _ (by simp [Clean]) (by simp [render,parseValue,literal,Value.map])
  | Null => exact iff_of_read _ (by simp [Clean]) (by simp [render,parseValue,literal,Value.map])
  | String value =>
    have read : parseValue (fuel + 1) (render (.String value) ++ rest) =
        (parseString fuel ((if RequiresJSONStringEscaping value then EscapeJSONString value else value) ++ 34 :: rest)).map
          fun string => (.String string.1,string.2) := by
      rw [render,renderString,cons_append,cons_append,parseValue,if_pos rfl,append_assoc,singleton_append]
    rw [read,Value.map,Clean,← parseString_rendered_iff enough]
    exact wrapped_iff fun _ _ => Value.String.inj
  | Number value =>
    refine iff_of_read _ (by simp [Clean]) ?_
    obtain ⟨c,more,written,sign⟩ := toInteger_begins value.1
    simp only [isDigit,Bool.and_eq_true,decide_eq_true_eq] at sign
    have number := parseNumber_toInteger delimited value.1
    rw [render]
    rw [written,cons_append] at number ⊢
    rw [parseValue,if_neg (by omega),if_neg (by omega),if_neg (by omega),if_neg (by omega),if_neg (by omega),if_neg (by omega),number]
    rfl
  | Object values =>
    cases values with
    | nil => exact iff_of_read _ (by simp [Clean,CleanMembers]) (by simp [render,renderMembers,parseValue,skipWs,isWs,Value.map,Members.map])
    | cons key value members =>
      have read : parseValue (fuel + 1) (render (.Object (.cons key value members)) ++ rest) =
          (parseMembers fuel (renderMembers (.cons key value members) ++ 125 :: rest)).map fun members => (.Object members.1,members.2) := by
        obtain ⟨mark,begins⟩ := skipWs_renderMembers (125 :: rest) key value members
        rw [render,append_assoc,singleton_append,cons_append,parseValue,if_neg (by decide),if_pos rfl,mark,if_neg]
        rw [begins]
        decide
      rw [render,length_append,length_cons,length_singleton] at enough
      have inside : (renderMembers (.cons key value members)).length + 1 ≤ fuel := by omega
      rw [read,Value.map,Clean,← parseMembers_iff key value members inside]
      exact wrapped_iff fun _ _ => Value.Object.inj
  | Array values =>
    cases values with
    | nil => exact iff_of_read _ (by simp [Clean,CleanElements]) (by simp [render,renderElements,parseValue,skipWs,isWs,Value.map,Elements.map])
    | cons value elements =>
      have read : parseValue (fuel + 1) (render (.Array (.cons value elements)) ++ rest) =
          (parseElements fuel (renderElements (.cons value elements) ++ 93 :: rest)).map fun elements => (.Array elements.1,elements.2) := by
        obtain ⟨c,more,begins,-,other⟩ := renderElements_begins value elements
        rw [render,append_assoc,singleton_append,cons_append,parseValue,if_neg (by decide),if_neg (by decide),
          if_pos rfl,skipWs_renderElements,if_neg]
        rw [begins]
        simpa using other
      rw [render,length_append,length_cons,length_singleton] at enough
      have inside : (renderElements (.cons value elements)).length + 1 ≤ fuel := by omega
      rw [read,Value.map,Clean,← parseElements_iff value elements inside]
      exact wrapped_iff fun _ _ => Value.Array.inj
theorem parseMembers_iff {fuel : ℕ} {rest rest' : List ℕ} (key : List ℕ) (value : Value Number) (members : Members Number)
    (enough : (renderMembers (.cons key value members)).length + 1 ≤ fuel) :
    parseMembers fuel (renderMembers (.cons key value members) ++ 125 :: rest) =
        some ((Members.cons key value members).map exact,rest') ↔ CleanMembers (.cons key value members) ∧ rest' = rest := by
  obtain ⟨fuel,rfl⟩ : ∃ before, fuel = before + 1 := Nat.exists_eq_succ_of_ne_zero (Nat.ne_of_gt (Nat.zero_lt_of_lt enough))
  cases members with
  | nil =>
    simp only [renderMembers,append_assoc,cons_append,nil_append,length_append,length_cons] at enough ⊢
    have here (behind : List ℕ) : parseValue fuel (render value ++ 125 :: rest) = some (value.map exact,behind) ↔
        Clean value ∧ behind = 125 :: rest := parseValue_iff value (by omega) (.inr ⟨125,rest,rfl,.inr (.inr rfl)⟩)
    rw [Members.map,parseMembers_first_iff (by omega) here (skipWs_cons (by decide))]
    simp [CleanMembers,Members.map,and_assoc]
  | cons other second members =>
    rw [renderMembers] at enough ⊢
    simp only [append_assoc,cons_append,length_append,length_cons] at enough ⊢
    have here (behind : List ℕ) :
        parseValue fuel (render value ++ 44 :: (renderMembers (.cons other second members) ++ 125 :: rest)) =
            some (value.map exact,behind) ↔
          Clean value ∧ behind = 44 :: (renderMembers (.cons other second members) ++ 125 :: rest) :=
      parseValue_iff value (by omega) (.inr ⟨44,_,rfl,.inl rfl⟩)
    have begins := (skipWs_renderMembers (125 :: rest) other second members).1
    have inside : (renderMembers (.cons other second members)).length + 1 ≤ fuel := by omega
    have later : parseMembers fuel (renderMembers (.cons other second members) ++ 125 :: rest) =
        some ((Members.cons other second members).map exact,rest') ↔ CleanMembers (.cons other second members) ∧ rest' = rest :=
      parseMembers_iff other second members inside
    rw [Members.map,parseMembers_first_iff (by omega) here (skipWs_cons (by decide)),tail_cons,begins,later]
    simp [CleanMembers,and_assoc]
theorem parseElements_iff {fuel : ℕ} {rest rest' : List ℕ} (value : Value Number) (elements : Elements Number)
    (enough : (renderElements (.cons value elements)).length + 1 ≤ fuel) :
    parseElements fuel (renderElements (.cons value elements) ++ 93 :: rest) =
        some ((Elements.cons value elements).map exact,rest') ↔ CleanElements (.cons value elements) ∧ rest' = rest := by
  obtain ⟨fuel,rfl⟩ : ∃ before, fuel = before + 1 := Nat.exists_eq_succ_of_ne_zero (Nat.ne_of_gt (Nat.zero_lt_of_lt enough))
  cases elements with
  | nil =>
    rw [renderElements,append_nil] at enough ⊢
    have here (behind : List ℕ) : parseValue fuel (render value ++ 93 :: rest) = some (value.map exact,behind) ↔
        Clean value ∧ behind = 93 :: rest := parseValue_iff value (by omega) (.inr ⟨93,rest,rfl,.inr (.inl rfl)⟩)
    rw [Elements.map,parseElements_first_iff here (skipWs_cons (by decide))]
    simp [CleanElements,Elements.map]
  | cons second elements =>
    rw [renderElements,length_append,length_cons] at enough
    rw [renderElements,append_assoc,cons_append]
    obtain ⟨c,more,begins,-⟩ := render_begins value
    have some_length : 0 < (render value).length := begins ▸ Nat.succ_pos _
    have here (behind : List ℕ) :
        parseValue fuel (render value ++ 44 :: (renderElements (.cons second elements) ++ 93 :: rest)) = some (value.map exact,behind) ↔
          Clean value ∧ behind = 44 :: (renderElements (.cons second elements) ++ 93 :: rest) :=
      parseValue_iff value (by omega) (.inr ⟨44,_,rfl,.inl rfl⟩)
    have inside : (renderElements (.cons second elements)).length + 1 ≤ fuel := by omega
    have later : parseElements fuel (renderElements (.cons second elements) ++ 93 :: rest) =
        some ((Elements.cons second elements).map exact,rest') ↔ CleanElements (.cons second elements) ∧ rest' = rest :=
      parseElements_iff second elements inside
    rw [Elements.map,parseElements_first_iff here (skipWs_cons (by decide)),tail_cons,skipWs_renderElements,later]
    simp [CleanElements,and_assoc]
end

end Values

/-- A value is read back from its text exactly where no key needs escaping and strings have no other control characters. -/
theorem parse_render_iff (value : Value Number) : parse (render value) = some (value.map exact) ↔ Clean value := by
  have begins : skipWs (render value ++ []) = render value ++ [] := skipWs_render value
  rw [append_nil] at begins
  have read (rest : List ℕ) : parseValue (render value).length (render value) = some (value.map exact,rest) ↔
      Clean value ∧ rest = [] := by
    have iff : parseValue (render value).length (render value ++ []) = some (value.map exact,rest) ↔ Clean value ∧ rest = [] :=
      parseValue_iff value le_rfl (.inl rfl)
    rwa [append_nil] at iff
  rw [parse,begins]
  constructor
  · intro parsed
    obtain ⟨⟨found,rest⟩,here,same⟩ := bind_eq_some_iff.mp parsed
    dsimp only at same
    split_ifs at same
    cases same
    exact ((read rest).mp here).1
  · intro clean
    rw [(read []).mpr ⟨clean,rfl⟩]
    rfl

/-- A control character in a string and a quotation mark in a key: neither text is one of the grammar. -/
theorem not_read_back : parse (render (.Object (.cons [97] (.String [1]) .nil))) = none ∧
    parse (render (.Object (.cons [34] .Null .nil))) = none := ⟨rfl,rfl⟩

end Osrm.JsonRenderer
