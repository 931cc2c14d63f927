import Osrm.OpeningRules
import Osrm.ParsingExpressions

/-!
`opening_hours_grammar` and `ParseOpeningHours` of `util/opening_hours.cpp`. What the grammar says of the month-day ranges that
it reads is `InGrammar`.
-/
namespace Osrm.OpeningGrammar
open List
open OpeningRules ParsingExpressions

abbrev Rule (α : Type) := Parse Char α

/-! ## Basic elements -/

/-- `qi::blank`. -/
def blank (c : Char) : Bool := c = ' ' || c = '\t'
def lit (text : String) : Rule Unit := skipping blank (exactly text.toList)
def char_ (test : Char → Bool) : Rule Char := skipping blank (satisfies test)
def symbol {α : Type} (table : List (String × α)) : Rule α :=
  symbols (fun name => skipping blank (exactly name)) (table.map fun entry => (entry.1.toList,entry.2))
def eoi : Rule Unit := skipping blank ending
def number (text : List Char) : ℕ := text.foldl (fun value c => 10 * value + (c.toNat - 48)) 0
/-- `qi::uint_parser` without the blanks in front. -/
def digits (least : ℕ) (most : Option ℕ) : Rule ℕ := do
  let text ← span least most Char.isDigit
  pure (number text)
def uint2_p : Rule ℕ := skipping blank (digits 2 (some 2))
def uint4_p : Rule ℕ := skipping blank (digits 4 (some 4))
/-- It fails where the number does not fit into an `unsigned`. -/
def uint_ : Rule ℕ := check (skipping blank (digits 1 none)) (· < 2 ^ 32)
def plus_or_minus : Rule Bool := (do lit "+"; pure true) <|> (do lit "-"; pure false)
def hour : Rule ℕ := check uint2_p (· ≤ 24)
def extended_hour : Rule ℕ := check uint2_p (· ≤ 48)
def minute : Rule ℕ := check uint2_p (· < 60)

def hour_minutes : Rule Time := do
  let hour ← hour
  lit ":"
  let min ← minute
  pure (Time.ofClock hour min)

def extended_hour_minutes : Rule Time := do
  let hour ← extended_hour
  lit ":"
  let min ← minute
  pure (Time.ofClock hour min)

def wday : Rule (Fin 7) := symbol [("Su",0),("Mo",1),("Tu",2),("We",3),("Th",4),("Fr",5),("Sa",6)]

/-- The look ahead tells `daynum:..` from `hour:minute`. -/
def daynum : Rule ℕ := do
  let day ← check uint2_p fun x => 1 ≤ x && x ≤ 31
  let minutes ← ahead do
    exactly ":".toList
    digits 2 (some 2)
  if minutes then failure else pure day

def weeknum : Rule ℕ := check uint2_p fun x => 1 ≤ x && x ≤ 53
def month : Rule ℕ :=
  symbol [("Jan",1),("Feb",2),("Mar",3),("Apr",4),("May",5),("Jun",6),("Jul",7),("Aug",8),("Sep",9),("Oct",10),("Nov",11),
    ("Dec",12)]
def year : Rule ℕ := check uint4_p (1900 < ·)
def quote : Char := Char.ofNat 34

def comment : Rule Unit := do
  let _ ← char_ (· = quote)
  let _ ← many (char_ (· ≠ quote))
  let _ ← char_ (· = quote)
  pure ()

/-! ## Time selector -/

def event : Rule Event := symbol [("dawn",.dawn),("sunrise",.sunrise),("sunset",.sunset),("dusk",.dusk)]

def variable_time : Rule Time :=
  (do
    let event ← event
    pure (Time.ofEvent event)) <|>
  (do
    lit "("
    let event ← event
    let positive ← plus_or_minus
    let offset ← hour_minutes
    lit ")"
    pure (Time.ofOffset event positive offset))

def time : Rule Time := hour_minutes <|> variable_time
def extended_time : Rule Time := extended_hour_minutes <|> variable_time

def timespan : Rule TimeSpan := do
  let from_ ← time
  let to_ ← opt Time.invalid <|
    (do
      lit "+"
      pure (Time.ofClock 24 0)) <|>
    (do
      lit "-"
      let to_ ← extended_time
      opt () <|
        lit "+" <|>
        (do
          lit "/"
          (do let _ ← minute; pure ()) <|> (do let _ ← hour_minutes; pure ()))
      pure to_)
  pure (TimeSpan.make from_ to_)

def time_selector (rule : OpeningHours) : Rule OpeningHours := do
  let times ← sepBy timespan (lit ",")
  pure { rule with times := times }

/-! ## Weekday selector -/

def day_offset : Rule Unit := do
  let _ ← plus_or_minus
  let _ ← uint_
  lit "days"

def nth : Rule Char := char_ fun c => "12345".toList.contains c
def nth_entry : Rule Unit :=
  (do let _ ← nth; pure ()) <|>
  (do let _ ← nth; lit "-"; let _ ← nth; pure ()) <|>
  (do lit "-"; let _ ← nth; pure ())

def holiday_sequence : Rule Unit :=
  (do lit "SH"; opt () day_offset) <|> lit "PH"

def weekday_range : Rule WeekdayRange := do
  let from_ ← wday
  let to_ ← opt from_ <|
    (do lit "-"; wday) <|>
    (do
      lit "["
      let _ ← sepBy nth_entry (lit ",")
      lit "]"
      opt () day_offset
      pure from_)
  pure ⟨from_,to_⟩

def weekday_sequence (rule : OpeningHours) : Rule OpeningHours := do
  let weekdays ← sepBy weekday_range (lit ",")
  pure { rule with weekdays := weekdays }
/-- `char_(", ")`. -/
def listed : Rule Char := char_ fun c => ", ".toList.contains c

def weekday_selector (rule : OpeningHours) : Rule OpeningHours :=
  (do
    holiday_sequence
    opt rule (do let _ ← listed; weekday_sequence rule)) <|>
  (do
    let rule ← weekday_sequence rule
    opt () (do let _ ← listed; holiday_sequence)
    pure rule)

/-! ## Week selector -/

def week : Rule Unit := do
  let _ ← weeknum
  opt () do
    lit "-"
    let _ ← weeknum
    opt () (do lit "/"; let _ ← uint_; pure ())

def week_selector : Rule Unit := do
  let _ ← sepBy (do lit "week "; week) (lit ",")
  pure ()

/-! ## Month and year selectors -/

def variable_date : Rule Unit := lit "easter"

def date_from : Rule Monthday :=
  (do
    let year ← opt 0 year
    (do
      let month ← month
      let day ← opt 0 daynum
      pure ⟨year,month,day⟩) <|>
    (do
      let day ← daynum
      pure ⟨year,0,day⟩)) <|>
  (do
    variable_date
    pure ⟨0,0,0⟩)

def date_to : Rule Monthday :=
  date_from <|>
  (do
    let day ← daynum
    pure ⟨0,0,day⟩)

def date_offset : Rule Unit := (do let _ ← plus_or_minus; let _ ← wday; pure ()) <|> day_offset

def monthday_range : Rule MonthdayRange :=
  (do
    let from_ ← date_from
    opt () date_offset
    lit "-"
    let to_ ← date_to
    opt () date_offset
    pure ⟨from_,to_⟩) <|>
  (do
    let from_ ← date_from
    let from_ ← opt from_ do
      date_offset
      opt from_ (do lit "+"; pure (Monthday.ofYear (-1)))
    pure ⟨from_,⟨0,0,0⟩⟩)

def monthday_selector (rule : OpeningHours) : Rule OpeningHours := do
  let monthdays ← sepBy monthday_range (lit ",")
  pure { rule with monthdays := monthdays }

def year_range : Rule MonthdayRange := do
  let from_ ← year
  let to_ ← opt ⟨0,0,0⟩ <|
    (do
      lit "-"
      let to_ ← year
      opt () (do lit "/"; let _ ← uint_; pure ())
      pure (Monthday.ofYear to_)) <|>
    (do
      lit "+"
      pure (Monthday.ofYear (-1)))
  pure ⟨Monthday.ofYear from_,to_⟩

def year_selector (rule : OpeningHours) : Rule OpeningHours := do
  let monthdays ← sepBy year_range (lit ",")
  pure { rule with monthdays := monthdays }

/-! ## Rules -/

def wide_range_selectors (rule : OpeningHours) : Rule OpeningHours := do
  let rule ← opt rule (monthday_selector rule)
  let rule ← opt rule (year_selector rule)
  opt () week_selector
  opt () (lit ":")
  pure rule

/-- `-(weekday_selector(_r1) >> (&~lit(',') | eoi))`. What was written stays when the look ahead fails. -/
def weekdays_before (rule : OpeningHours) : Rule OpeningHours := fun input =>
  match weekday_selector rule input with
  | none => some (rule,input)
  | some (found,rest) =>
    if (char_ (· ≠ ',') rest).isSome || (eoi rest).isSome then some (found,rest) else some (found,input)

def small_range_selectors (rule : OpeningHours) : Rule OpeningHours := do
  let rule ← weekdays_before rule
  opt rule (time_selector rule)
def selector_sequence : Rule OpeningHours := do
  let rule ← wide_range_selectors OpeningHours.empty
  small_range_selectors rule
def rule_modifier : Rule Modifier := symbol [("unknown",.unknown),("open",.open_),("closed",.closed),("off",.off)]

def rule_sequence : Rule OpeningHours :=
  (do
    lit "24/7"
    pure { OpeningHours.empty with modifier := .is24_7 }) <|>
  (do
    let rule ← selector_sequence
    let modifier ← opt rule.modifier rule_modifier
    opt () comment
    pure { rule with modifier := modifier }) <|>
  (do
    comment
    pure OpeningHours.empty)

def any_rule_separator : Rule Unit := lit ";" <|> lit "||" <|> lit ","
def time_domain : Rule (List OpeningHours) := sepBy rule_sequence any_rule_separator
def ParseOpeningHours (str : List Char) : List OpeningHours :=
  match time_domain str with
  | some (result,rest) => if (eoi rest).isSome then result else []
  | none => []

/-! ## What the rules read -/

private theorem reads_lit {text : String} : Reads (lit text) fun _ => True := reads_skipping reads_exactly
private theorem reads_char {test : Char → Bool} : Reads (char_ test) fun _ => True := (reads_skipping reads_satisfies).trivial

private theorem reads_symbol {α : Type} {P : α → Prop} {table : List (String × α)} (holds : ∀ entry ∈ table, P entry.2) :
    Reads (symbol table) P := by
  refine reads_symbols (fun _ => reads_skipping reads_exactly) fun entry member => ?_
  obtain ⟨word,within,rfl⟩ := mem_map.mp member
  exact holds word within

private theorem digit_le {c : Char} (digit : c.isDigit) : c.toNat - 48 ≤ 9 := by
  simp only [Char.isDigit,Bool.and_eq_true,decide_eq_true_eq] at digit
  have high : c.toNat ≤ 57 := UInt32.le_iff_toNat_le.mp digit.2
  omega

private theorem number_lt {text : List Char} (decimal : ∀ c ∈ text, c.isDigit) : number text < 10 ^ text.length := by
  have step (value : ℕ) : text.foldl (fun value c => 10 * value + (c.toNat - 48)) value < (value + 1) * 10 ^ text.length := by
    induction text generalizing value with
    | nil => simp
    | cons c text ih =>
      have small := digit_le (decimal c (by simp))
      calc (c :: text).foldl (fun value c => 10 * value + (c.toNat - 48)) value
          < (10 * value + (c.toNat - 48) + 1) * 10 ^ text.length := ih (fun d member => decimal d (by simp [member])) _
        _ ≤ (10 * (value + 1)) * 10 ^ text.length := Nat.mul_le_mul_right _ (by omega)
        _ = (value + 1) * 10 ^ (c :: text).length := by rw [length_cons]; ring
  simpa [number] using step 0

private theorem reads_digits {least count : ℕ} : Reads (digits least (some count)) (· < 10 ^ count) := by
  refine reads_bind reads_span fun text ⟨_,short,decimal⟩ => reads_pure ?_
  exact (number_lt decimal).trans_le (Nat.pow_le_pow_right (by simp) (short count rfl))

private theorem reads_uint2_p : Reads uint2_p fun _ => True := (reads_skipping reads_digits).trivial
private theorem reads_uint_ : Reads uint_ fun _ => True :=
  (reads_check (P := fun _ => True) (reads_skipping (reads_bind reads_span.trivial fun _ _ => reads_pure True.intro))).trivial
private theorem reads_plus_or_minus : Reads plus_or_minus fun _ => True :=
  reads_orElse (reads_bind reads_lit fun _ _ => reads_pure True.intro) (reads_bind reads_lit fun _ _ => reads_pure True.intro)

private theorem reads_daynum : Reads daynum fun day => 1 ≤ day ∧ day ≤ 31 := by
  refine reads_bind (reads_check reads_uint2_p) fun day ⟨_,inside⟩ => reads_bind reads_ahead fun minutes _ => ?_
  split_ifs
  · exact reads_failure
  · exact reads_pure (by simpa using inside)

private theorem reads_month : Reads month fun month => 1 ≤ month ∧ month ≤ 12 := reads_symbol (by decide)
private theorem reads_year : Reads year fun year => 1900 < year ∧ year < 10000 :=
  (reads_check (reads_skipping reads_digits)).mono fun year ⟨short,late⟩ => ⟨by simpa using late,by simpa using short⟩
private theorem reads_wday : Reads wday fun _ => True := reads_symbol fun _ _ => True.intro
private theorem reads_weeknum : Reads weeknum fun _ => True := (reads_check reads_uint2_p).trivial
private theorem reads_minute : Reads minute fun _ => True := (reads_check reads_uint2_p).trivial

private theorem reads_comment : Reads comment fun _ => True :=
  reads_bind reads_char fun _ _ => reads_bind (reads_many reads_char) fun _ _ => reads_bind reads_char fun _ _ =>
    reads_pure True.intro

private theorem reads_clock {hour : Rule ℕ} (hours : Reads hour fun _ => True) :
    Reads (do let hour ← hour; lit ":"; let min ← minute; pure (Time.ofClock hour min)) fun _ => True :=
  reads_bind hours fun _ _ => reads_bind reads_lit fun _ _ => reads_bind reads_minute fun _ _ => reads_pure True.intro

private theorem reads_hour_minutes : Reads hour_minutes fun _ => True := reads_clock (reads_check reads_uint2_p).trivial
private theorem reads_extended_hour_minutes : Reads extended_hour_minutes fun _ => True :=
  reads_clock (reads_check reads_uint2_p).trivial
private theorem reads_event : Reads event fun _ => True := reads_symbol fun _ _ => True.intro

private theorem reads_variable_time : Reads variable_time fun _ => True := by
  refine reads_orElse (reads_bind reads_event fun _ _ => reads_pure True.intro) ?_
  refine reads_bind reads_lit fun _ _ => reads_bind reads_event fun _ _ => reads_bind reads_plus_or_minus fun _ _ => ?_
  exact reads_bind reads_hour_minutes fun _ _ => reads_bind reads_lit fun _ _ => reads_pure True.intro

private theorem reads_timespan : Reads timespan fun _ => True := by
  refine reads_bind (reads_orElse reads_hour_minutes reads_variable_time) fun _ _ => ?_
  refine reads_bind (reads_opt (P := fun _ => True) (reads_orElse ?_ ?_) True.intro) fun _ _ => reads_pure True.intro
  · exact reads_bind reads_lit fun _ _ => reads_pure True.intro
  · refine reads_bind reads_lit fun _ _ => ?_
    refine reads_bind (reads_orElse reads_extended_hour_minutes reads_variable_time) fun _ _ => ?_
    refine reads_bind (reads_opt (reads_orElse reads_lit ?_) True.intro) fun _ _ => reads_pure True.intro
    refine reads_bind reads_lit fun _ _ => reads_orElse ?_ ?_
    · exact reads_bind reads_minute fun _ _ => reads_pure True.intro
    · exact reads_bind reads_hour_minutes fun _ _ => reads_pure True.intro

private theorem reads_day_offset : Reads day_offset fun _ => True :=
  reads_bind reads_plus_or_minus fun _ _ => reads_bind reads_uint_ fun _ _ => reads_lit

private theorem reads_nth_entry : Reads nth_entry fun _ => True := by
  refine reads_orElse (reads_bind reads_char fun _ _ => reads_pure True.intro) (reads_orElse ?_ ?_)
  · exact reads_bind reads_char fun _ _ => reads_bind reads_lit fun _ _ => reads_bind reads_char fun _ _ =>
      reads_pure True.intro
  · exact reads_bind reads_lit fun _ _ => reads_bind reads_char fun _ _ => reads_pure True.intro

private theorem reads_holiday_sequence : Reads holiday_sequence fun _ => True :=
  reads_orElse (reads_bind reads_lit fun _ _ => reads_opt reads_day_offset True.intro) reads_lit

private theorem reads_weekday_range : Reads weekday_range fun _ => True := by
  refine reads_bind reads_wday fun _ _ => ?_
  refine reads_bind (reads_opt (P := fun _ => True) (reads_orElse ?_ ?_) True.intro) fun _ _ => reads_pure True.intro
  · exact reads_bind reads_lit fun _ _ => reads_wday
  · refine reads_bind reads_lit fun _ _ => reads_bind (reads_sepBy reads_nth_entry reads_lit) fun _ _ => ?_
    exact reads_bind reads_lit fun _ _ => reads_bind (reads_opt reads_day_offset True.intro) fun _ _ => reads_pure True.intro

private theorem reads_week_selector : Reads week_selector fun _ => True := by
  refine reads_bind (reads_sepBy (P := fun _ => True) ?_ reads_lit) fun _ _ => reads_pure True.intro
  refine reads_bind reads_lit fun _ _ => reads_bind reads_weeknum fun _ _ => reads_opt ?_ True.intro
  refine reads_bind reads_lit fun _ _ => reads_bind reads_weeknum fun _ _ => reads_opt ?_ True.intro
  exact reads_bind reads_lit fun _ _ => reads_bind reads_uint_ fun _ _ => reads_pure True.intro

private theorem reads_date_offset : Reads date_offset fun _ => True :=
  reads_orElse (reads_bind reads_plus_or_minus fun _ _ => reads_bind reads_wday fun _ _ => reads_pure True.intro)
    reads_day_offset

/-! ## The month-day ranges of the grammar -/

structure Given (monthday : Monthday) : Prop where
  year : monthday.year = 0 ∨ 1900 < monthday.year ∧ monthday.year < 10000
  month : 0 ≤ monthday.month ∧ monthday.month ≤ 12
  day : 0 ≤ monthday.day ∧ monthday.day ≤ 31

def InGrammar (range : MonthdayRange) : Prop :=
  Given range.from_ ∧ (Given range.to_ ∨ range.to_ = Monthday.ofYear (-1)) ∨
    range.from_ = Monthday.ofYear (-1) ∧ range.to_ = ⟨0,0,0⟩
def RangesInGrammar (rule : OpeningHours) : Prop := ∀ range ∈ rule.monthdays, InGrammar range

private theorem given_zero : Given ⟨0,0,0⟩ := ⟨.inl rfl,by simp,by simp⟩

private theorem reads_date_from : Reads date_from Given := by
  refine reads_orElse ?_ (reads_bind reads_lit fun _ _ => reads_pure given_zero)
  have optional : Reads (opt 0 year) fun year => (year : ℤ) = 0 ∨ 1900 < (year : ℤ) ∧ (year : ℤ) < 10000 :=
    reads_opt (reads_year.mono fun year ⟨low,high⟩ => .inr ⟨by omega,by omega⟩) (.inl rfl)
  refine reads_bind optional fun year inYears => reads_orElse ?_ ?_
  · refine reads_bind reads_month fun month ⟨_,inYear⟩ => ?_
    refine reads_bind (reads_opt (reads_daynum.mono fun day inside => inside.2) (Nat.zero_le _)) fun day inMonth => ?_
    exact reads_pure ⟨inYears,by simp only; omega,by simp only; omega⟩
  · refine reads_bind reads_daynum fun day ⟨_,inMonth⟩ => reads_pure ⟨inYears,by simp,by simp only; omega⟩

private theorem reads_date_to : Reads date_to Given :=
  reads_orElse reads_date_from <| reads_bind reads_daynum fun day ⟨_,inMonth⟩ =>
    reads_pure ⟨.inl rfl,by simp,by simp only; omega⟩

private theorem reads_monthday_range : Reads monthday_range InGrammar := by
  refine reads_orElse ?_ ?_
  · refine reads_bind reads_date_from fun from_ given => reads_bind (reads_opt reads_date_offset True.intro) fun _ _ => ?_
    refine reads_bind reads_lit fun _ _ => reads_bind reads_date_to fun to_ given' => ?_
    exact reads_bind (reads_opt reads_date_offset True.intro) fun _ _ => reads_pure (.inl ⟨given,.inl given'⟩)
  · refine reads_bind reads_date_from fun from_ given => ?_
    have open_ : Reads (opt from_ do date_offset; opt from_ (do lit "+"; pure (Monthday.ofYear (-1))))
        fun monthday => Given monthday ∨ monthday = Monthday.ofYear (-1) := by
      refine reads_opt (reads_bind reads_date_offset fun _ _ => reads_opt ?_ (.inl given)) (.inl given)
      exact reads_bind reads_lit fun _ _ => reads_pure (.inr rfl)
    refine reads_bind open_ fun monthday found => reads_pure ?_
    rcases found with given | endless
    · exact .inl ⟨given,.inl given_zero⟩
    · exact .inr ⟨endless,rfl⟩

private theorem given_ofYear {year : ℕ} (inYears : 1900 < year ∧ year < 10000) : Given (Monthday.ofYear year) :=
  ⟨.inr (by simp only [Monthday.ofYear]; omega),by simp [Monthday.ofYear],by simp [Monthday.ofYear]⟩

private theorem reads_year_range : Reads year_range InGrammar := by
  refine reads_bind reads_year fun from_ inYears => ?_
  refine reads_bind (P := fun to_ => Given to_ ∨ to_ = Monthday.ofYear (-1))
    (reads_opt (reads_orElse ?_ ?_) (.inl given_zero)) fun to_ end_ => reads_pure (.inl ⟨given_ofYear inYears,end_⟩)
  · refine reads_bind reads_lit fun _ _ => reads_bind reads_year fun to_ inYears' => ?_
    refine reads_bind (reads_opt (P := fun _ => True) ?_ True.intro) fun _ _ => reads_pure (.inl (given_ofYear inYears'))
    exact reads_bind reads_lit fun _ _ => reads_bind reads_uint_ fun _ _ => reads_pure True.intro
  · exact reads_bind reads_lit fun _ _ => reads_pure (.inr rfl)

private theorem reads_monthday_selector (rule : OpeningHours) : Reads (monthday_selector rule) RangesInGrammar :=
  reads_bind (reads_sepBy reads_monthday_range reads_lit) fun _ inGrammar => reads_pure inGrammar
private theorem reads_year_selector (rule : OpeningHours) : Reads (year_selector rule) RangesInGrammar :=
  reads_bind (reads_sepBy reads_year_range reads_lit) fun _ inGrammar => reads_pure inGrammar

section
variable {rule : OpeningHours} (ranges : RangesInGrammar rule)
include ranges

private theorem reads_time_selector : Reads (time_selector rule) RangesInGrammar :=
  reads_bind (reads_sepBy reads_timespan reads_lit) fun _ _ => reads_pure ranges
private theorem reads_weekday_sequence : Reads (weekday_sequence rule) RangesInGrammar :=
  reads_bind (reads_sepBy reads_weekday_range reads_lit) fun _ _ => reads_pure ranges

private theorem reads_weekday_selector : Reads (weekday_selector rule) RangesInGrammar := by
  refine reads_orElse ?_ ?_
  · refine reads_bind reads_holiday_sequence fun _ _ => reads_opt ?_ ranges
    exact reads_bind reads_char fun _ _ => reads_weekday_sequence ranges
  · refine reads_bind (reads_weekday_sequence ranges) fun found ranges => ?_
    refine reads_bind (reads_opt (P := fun _ => True) ?_ True.intro) fun _ _ => reads_pure ranges
    exact reads_bind reads_char fun _ _ => reads_holiday_sequence

private theorem reads_weekdays_before : Reads (weekdays_before rule) RangesInGrammar := by
  intro input kept rest read
  unfold weekdays_before at read
  cases selected : weekday_selector rule input with
  | none =>
    rw [selected] at read
    cases read
    exact ⟨suffix_refl _,ranges⟩
  | some result =>
    obtain ⟨found,left⟩ := result
    obtain ⟨shorter,ranges⟩ := reads_weekday_selector ranges input found left selected
    simp only [selected] at read
    split_ifs at read
    · cases read
      exact ⟨shorter,ranges⟩
    · cases read
      exact ⟨suffix_refl _,ranges⟩

private theorem reads_small_range_selectors : Reads (small_range_selectors rule) RangesInGrammar :=
  reads_bind (reads_weekdays_before ranges) fun _ ranges => reads_opt (reads_time_selector ranges) ranges

private theorem reads_wide_range_selectors : Reads (wide_range_selectors rule) RangesInGrammar := by
  refine reads_bind (reads_opt (reads_monthday_selector rule) ranges) fun found ranges => ?_
  refine reads_bind (reads_opt (reads_year_selector found) ranges) fun found ranges => ?_
  refine reads_bind (reads_opt reads_week_selector True.intro) fun _ _ => ?_
  exact reads_bind (reads_opt reads_lit True.intro) fun _ _ => reads_pure ranges

end

private theorem reads_rule_sequence : Reads rule_sequence RangesInGrammar := by
  have empty : RangesInGrammar OpeningHours.empty := fun range member => absurd member not_mem_nil
  refine reads_orElse (reads_bind reads_lit fun _ _ => reads_pure empty) (reads_orElse ?_ ?_)
  · refine reads_bind (reads_bind (reads_wide_range_selectors empty) fun _ => reads_small_range_selectors) fun rule ranges => ?_
    refine reads_bind (reads_opt (P := fun _ => True) (reads_symbol fun _ _ => True.intro) True.intro) fun _ _ => ?_
    exact reads_bind (reads_opt reads_comment True.intro) fun _ _ => reads_pure ranges
  · exact reads_bind reads_comment fun _ _ => reads_pure empty

private theorem reads_any_rule_separator : Reads any_rule_separator fun _ => True :=
  reads_orElse reads_lit (reads_orElse reads_lit reads_lit)

theorem ParseOpeningHours_inGrammar (str : List Char) : ∀ rule ∈ ParseOpeningHours str, RangesInGrammar rule := by
  unfold ParseOpeningHours
  cases read : time_domain str with
  | none => simp
  | some result =>
    obtain ⟨-,ranges⟩ := reads_sepBy reads_rule_sequence reads_any_rule_separator str result.1 result.2 read
    simp only
    split_ifs
    · exact ranges
    · simp

end Osrm.OpeningGrammar
