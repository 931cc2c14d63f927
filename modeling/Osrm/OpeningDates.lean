import Osrm.Loops
import Osrm.OpeningGrammar

/-!
The dates that `CheckOpeningHours` builds. Fields of a month-day range that are missing are completed from its other
end and from the date of the check; `Completes` says which dates exist, and the check returns exactly if they do.
-/
namespace Osrm.OpeningDates
open Option
open Calendar CalendarDay OpeningRules OpeningGrammar

def firstMonth (range : MonthdayRange) (today : CalendarDay) : CalendarDay :=
  ⟨if range.from_.year = 0 then today.year else range.from_.year,
    if range.from_.month = 0 then today.month else range.from_.month,1⟩
def lastMonth (range : MonthdayRange) (today : CalendarDay) : CalendarDay :=
  ⟨if range.to_.year = 0 then (firstMonth range today).year else range.to_.year,
    if range.to_.month = 0 then (firstMonth range today).month else range.to_.month,1⟩
def lengthOf (month : CalendarDay) : ℤ := monthLength month.year month.month
def dayOf (month : CalendarDay) (day default : ℤ) : CalendarDay := ⟨month.year,month.month,if day = 0 then default else day⟩
def firstDay (range : MonthdayRange) (today : CalendarDay) : CalendarDay := dayOf (firstMonth range today) range.from_.day 1
def lastDay (range : MonthdayRange) (today : CalendarDay) : CalendarDay :=
  dayOf (lastMonth range today) range.to_.day (lengthOf (lastMonth range today))

/-- The dates of the range exist, and none of them leaves the calendar. -/
structure Completes (strict : Bool) (range : MonthdayRange) (time : Tm) (flags : DayFlags) : Prop where
  supported : 1400 ≤ time.today.year ∧ time.today.year ≤ 9999
  first : range.from_.IsValid → range.from_.day ≤ lengthOf (firstMonth range time.today)
  last : range.to_.IsValid → range.to_.day ≤ lengthOf (lastMonth range time.today)
  stays : strict → flags.use_curr_day = false → range.from_.IsValid → firstDay range time.today = ⟨9999,12,31⟩ →
    range.from_.year = 0 ∧ range.to_.year = 0 ∧ range.to_.IsValid ∧ (lastDay range time.today).Before (firstDay range time.today)

section
variable {D : Type} [GregorianDate D] {range : MonthdayRange} {time : Tm} {flags : DayFlags} {strict : Bool}
open GregorianDate

private theorem given_of_valid (inGrammar : InGrammar range) (valid : range.from_.IsValid ∨ range.to_.IsValid) : Given range.from_ := by
  rcases inGrammar with ⟨given,-⟩ | ⟨fromOpen,toZero⟩
  · exact given
  · rw [fromOpen,toZero] at valid
    exact absurd valid (by decide)

private theorem to_given (inGrammar : InGrammar range) (valid : range.to_.IsValid) : Given range.to_ := by
  rcases inGrammar with ⟨-,given | endless⟩ | ⟨-,toZero⟩
  · exact given
  · rw [endless] at valid
    exact absurd valid (by decide)
  · rw [toZero] at valid
    exact absurd valid (by decide)

structure Month (month : CalendarDay) : Prop where
  supported : 1400 ≤ month.year ∧ month.year ≤ 9999
  inYear : 1 ≤ month.month ∧ month.month ≤ 12

private theorem firstMonth_month (given : Given range.from_) (supported : 1400 ≤ time.today.year ∧ time.today.year ≤ 9999) :
    Month (firstMonth range time.today) := by
  obtain ⟨inYears,inYear,-⟩ := given
  have monthPos : 1 ≤ time.today.month := time.real.month_pos
  have monthLe : time.today.month ≤ 12 := time.real.month_le
  constructor
  · simp only [firstMonth]; split_ifs <;> omega
  · simp only [firstMonth]; split_ifs <;> omega

private theorem lastMonth_month (given : Given range.from_) (given' : Given range.to_)
    (supported : 1400 ≤ time.today.year ∧ time.today.year ≤ 9999) : Month (lastMonth range time.today) := by
  obtain ⟨first,inYear⟩ := firstMonth_month given supported
  obtain ⟨inYears',inYear',-⟩ := given'
  constructor
  · simp only [lastMonth]; split_ifs <;> omega
  · simp only [lastMonth]; split_ifs <;> omega

private theorem dayOf_date {month : CalendarDay} (inYears : Month month) {day default : ℤ} (low : 0 ≤ day)
    (usable : 1 ≤ default ∧ default ≤ lengthOf month) :
    (date (dayOf month day default) : Option D).isSome ↔ day ≤ lengthOf month := by
  rw [date_isSome]
  constructor
  · rintro ⟨real,-⟩
    have dayLe : (if day = 0 then default else day) ≤ lengthOf month := real.day_le
    split_ifs at dayLe <;> omega
  · intro dayLe
    refine ⟨⟨inYears.inYear.1,inYears.inYear.2,?_,?_⟩,inYears.supported⟩
    · simp only [dayOf]; split_ifs <;> omega
    · change (if day = 0 then default else day) ≤ lengthOf month
      split_ifs <;> omega

private theorem lengthOf_usable (month : CalendarDay) : 1 ≤ lengthOf month := by
  have := (monthLength_bounds month.year month.month).1
  unfold lengthOf
  omega

private theorem date_from_eq : (range.date_from time : Option D) =
    if range.from_.IsValid then date (firstDay range time.today) else some min_date_time := by
  by_cases none : range.from_.day = 0
  · simp [MonthdayRange.date_from,firstDay,dayOf,firstMonth,Tm.today,none]
  · simp [MonthdayRange.date_from,firstDay,dayOf,firstMonth,Tm.today,none]

private theorem date_to_eq (inGrammar : InGrammar range) (supported : 1400 ≤ time.today.year ∧ time.today.year ≤ 9999) (date_from : D) :
    range.date_to time date_from = if range.to_.IsValid then date (lastDay range time.today)
      else some (if range.to_ = ⟨0,0,0⟩ then date_from else max_date_time) := by
  by_cases valid : range.to_.IsValid
  · obtain ⟨inCalendar,inYear⟩ := lastMonth_month (given_of_valid inGrammar (.inr valid)) (to_given inGrammar valid) supported
    have first : (lastMonth range time.today).Real :=
      ⟨inYear.1,inYear.2,le_refl _,lengthOf_usable _⟩
    obtain ⟨month,made⟩ := isSome_iff_exists.mp ((date_isSome (D := D) _).mpr ⟨first,inCalendar⟩)
    have same : range.date_to time date_from = (date (lastMonth range time.today) : Option D).bind fun date_to =>
        if range.to_.day = 0 then some (end_of_month date_to)
        else date ⟨GregorianDate.year date_to,GregorianDate.month date_to,range.to_.day⟩ := by
      simp only [MonthdayRange.date_to,valid,if_true]
      rfl
    rw [same,made,bind_some,year_date made,month_date made,if_pos valid]
    split_ifs with none
    · simpa [lastDay,dayOf,lengthOf,none] using (end_of_month_date made).symm
    · simp [lastDay,dayOf,none]
  · simp only [MonthdayRange.date_to,if_neg valid]
    split_ifs <;> rfl

private theorem shifted_isSome {first last : D} : (MonthdayRange.shifted strict flags first last).isSome ↔
    (strict → flags.use_curr_day = false → first ≠ max_date_time) := by
  rw [MonthdayRange.shifted_eq,isSome_map]
  cases flags.use_curr_day with
  | true => simp
  | false => simpa using addDay_isSome

private theorem IsInRange_of_dates {cur a b : D} (current : date time.today = some cur) (begins : range.date_from time = some a)
    (ends : range.date_to time a = some b) (bounded : a ≤ max_date_time) : (range.IsInRange D strict time flags).isSome ↔
      (strict → flags.use_curr_day = false → a = max_date_time → range.from_.year = 0 ∧ range.to_.year = 0 ∧ b < a) := by
  rw [MonthdayRange.IsInRange_eq current begins ends strict flags Iff.rfl,isSome_map]
  by_cases inverted : range.from_.year = 0 ∧ range.to_.year = 0 ∧ b < a
  · have inside : b ≠ max_date_time := (inverted.2.2.trans_le bounded).ne
    simp [inverted,shifted_isSome,inside]
  · simp [inverted,shifted_isSome]

private theorem date_from_isSome (inGrammar : InGrammar range) (supported : 1400 ≤ time.today.year ∧ time.today.year ≤ 9999) :
    (range.date_from time : Option D).isSome ↔
      (range.from_.IsValid → range.from_.day ≤ lengthOf (firstMonth range time.today)) := by
  rw [date_from_eq]
  by_cases valid : range.from_.IsValid
  · have given := given_of_valid inGrammar (.inl valid)
    simpa [valid,firstDay] using dayOf_date (firstMonth_month given supported) given.day.1 ⟨le_rfl,lengthOf_usable _⟩
  · simp [valid]

private theorem date_to_isSome (inGrammar : InGrammar range) (supported : 1400 ≤ time.today.year ∧ time.today.year ≤ 9999)
    (date_from : D) : (range.date_to time date_from).isSome ↔
      (range.to_.IsValid → range.to_.day ≤ lengthOf (lastMonth range time.today)) := by
  rw [date_to_eq inGrammar supported]
  by_cases valid : range.to_.IsValid
  · have given := given_of_valid inGrammar (.inr valid)
    have given' := to_given inGrammar valid
    simpa [valid,lastDay] using dayOf_date (lastMonth_month given given' supported) given'.day.1 ⟨lengthOf_usable _,le_rfl⟩
  · simp [valid]

private theorem date_from_le_max {a : D} (begins : range.date_from time = some a) : a ≤ max_date_time := by
  rw [date_from_eq] at begins
  split_ifs at begins
  · exact date_le_max begins
  · rw [← some_inj.mp begins]
    exact date_le_max date_min

private theorem date_from_eq_max {a : D} (begins : range.date_from time = some a) :
    a = max_date_time ↔ range.from_.IsValid ∧ firstDay range time.today = ⟨9999,12,31⟩ := by
  rw [date_from_eq] at begins
  split_ifs at begins with valid
  · constructor
    · rintro rfl
      exact ⟨valid,date_inj begins date_max⟩
    · rintro ⟨-,same⟩
      rw [same,date_max] at begins
      exact (some_inj.mp begins).symm
  · have early : (min_date_time : D) < max_date_time := (date_lt date_min date_max).mpr (by decide)
    simp [valid,← some_inj.mp begins,early.ne]

private theorem date_to_lt {a b : D} (inGrammar : InGrammar range) (supported : 1400 ≤ time.today.year ∧ time.today.year ≤ 9999)
    (valid : range.from_.IsValid) (begins : range.date_from time = some a) (ends : range.date_to time a = some b) :
    b < a ↔ range.to_.IsValid ∧ (lastDay range time.today).Before (firstDay range time.today) := by
  have bounded := date_from_le_max begins
  rw [date_from_eq,if_pos valid] at begins
  rw [date_to_eq inGrammar supported] at ends
  split_ifs at ends with valid' none
  · simpa [valid'] using date_lt ends begins
  · rw [← some_inj.mp ends]
    simp [valid']
  · rw [← some_inj.mp ends]
    simpa [valid'] using bounded

private theorem stays_iff {a b : D} (inGrammar : InGrammar range) (supported : 1400 ≤ time.today.year ∧ time.today.year ≤ 9999)
    (begins : range.date_from time = some a) (ends : range.date_to time a = some b) :
    (a = max_date_time → range.from_.year = 0 ∧ range.to_.year = 0 ∧ b < a) ↔
      (range.from_.IsValid → firstDay range time.today = ⟨9999,12,31⟩ → range.from_.year = 0 ∧ range.to_.year = 0 ∧
        range.to_.IsValid ∧ (lastDay range time.today).Before (firstDay range time.today)) := by
  rw [date_from_eq_max begins,and_imp]
  refine forall₂_congr fun valid _ => ?_
  rw [date_to_lt inGrammar supported valid begins ends]

private theorem IsInRange_isSome (inGrammar : InGrammar range) :
    (range.IsInRange D strict time flags).isSome ↔ Completes strict range time flags := by
  by_cases supported : 1400 ≤ time.today.year ∧ time.today.year ≤ 9999
  · obtain ⟨cur,current⟩ := isSome_iff_exists.mp ((date_isSome (D := D) time.today).mpr ⟨time.real,supported⟩)
    have first := date_from_isSome (D := D) inGrammar supported
    cases begins : (range.date_from time : Option D) with
    | none =>
      have none : range.IsInRange D strict time flags = none := by simp [MonthdayRange.IsInRange,current,begins]
      rw [begins] at first
      simpa [none] using fun completes : Completes strict range time flags => first.mpr completes.first
    | some a =>
      have last := date_to_isSome inGrammar supported a
      cases ends : range.date_to time a with
      | none =>
        have none : range.IsInRange D strict time flags = none := by simp [MonthdayRange.IsInRange,current,begins,ends]
        rw [ends] at last
        simpa [none] using fun completes : Completes strict range time flags => last.mpr completes.last
      | some b =>
        rw [begins] at first
        rw [ends] at last
        rw [IsInRange_of_dates current begins ends (date_from_le_max begins)]
        simp only [stays_iff inGrammar supported begins ends]
        exact ⟨fun stays => ⟨supported,first.mp rfl,last.mp rfl,stays⟩,Completes.stays⟩
  · have none : (date time.today : Option D) = none := by
      rw [← not_isSome_iff_eq_none,date_isSome]
      exact fun made => supported made.2
    constructor
    · simp [MonthdayRange.IsInRange,none]
    · exact fun completes => absurd completes.supported supported

/-! ## The rules -/

/-- The month-day ranges that are tested have their dates: those of a rule whose times and weekdays match, up to the first
    range that holds. -/
def RuleCompletes (D : Type) [GregorianDate D] (strict : Bool) (rule : OpeningHours) (time : Tm) : Prop :=
  (rule.inTimes time).1 → rule.inWeekdays time (rule.inTimes time).2 →
    ∀ done range rest, rule.monthdays = done ++ range :: rest →
      (∀ earlier ∈ done, earlier.IsInRange D strict time (rule.inTimes time).2 = some false) →
        Completes strict range time (rule.inTimes time).2

variable (D time strict) in
private theorem inMonthdays_isSome {rule : OpeningHours} (inGrammar : RangesInGrammar rule) (flags : DayFlags) :
    (rule.inMonthdays D strict time flags).isSome ↔ ∀ done range rest, rule.monthdays = done ++ range :: rest →
      (∀ earlier ∈ done, earlier.IsInRange D strict time flags = some false) → Completes strict range time flags := by
  by_cases none : rule.monthdays = []
  · simp [OpeningHours.inMonthdays,none]
  · have tested : (rule.inMonthdays D strict time flags) = rule.monthdays.anyM fun range => range.IsInRange D strict time flags := by
      simp [OpeningHours.inMonthdays,none]
    rw [tested,Loops.anyM_isSome]
    refine forall₃_congr fun done range rest => forall_congr' fun split => ?_
    rw [IsInRange_isSome (inGrammar range (by simp [split]))]

variable (D time strict) in
private theorem rule_isSome {rule : OpeningHours} (inGrammar : RangesInGrammar rule) :
    (rule.IsInRange D strict time).isSome ↔ RuleCompletes D strict rule time := by
  have ranges := inMonthdays_isSome D time strict inGrammar (rule.inTimes time).2
  unfold OpeningHours.IsInRange RuleCompletes
  by_cases empty : rule.times.isEmpty && rule.weekdays.isEmpty && rule.monthdays.isEmpty
  · have none : rule.monthdays = [] := by simp_all
    rw [if_pos empty]
    simp [none]
  · rw [if_neg empty]
    cases inTimes : (rule.inTimes time).1 with
    | false => simp [inTimes]
    | true =>
      cases inWeekdays : rule.inWeekdays time (rule.inTimes time).2 with
      | false => simp [inTimes,inWeekdays]
      | true => simpa [inTimes,inWeekdays] using ranges

/-- The rules that are tested, those in front of the first `24/7`, have their dates. -/
def RulesComplete (D : Type) [GregorianDate D] (strict : Bool) (input : List OpeningHours) (time : Tm) : Prop :=
  ∀ done rule rest, input = done ++ rule :: rest → (∀ tested ∈ done ++ [rule], tested.modifier ≠ .is24_7) →
    RuleCompletes D strict rule time

private theorem checkFrom_isSome {input : List OpeningHours} (inGrammar : ∀ rule ∈ input, RangesInGrammar rule) (is_open : Bool) :
    (checkFrom D strict time is_open input).isSome ↔ RulesComplete D strict input time := by
  unfold RulesComplete
  induction input generalizing is_open with
  | nil => simp [checkFrom]
  | cons rule input ih =>
    rw [Loops.forall_split_cons]
    by_cases always : rule.modifier = .is24_7
    · simp [checkFrom,always]
    · have first := rule_isSome D time strict (inGrammar rule (by simp))
      cases tested : rule.IsInRange D strict time with
      | none => simp_all [checkFrom]
      | some inRange =>
        rw [tested] at first
        have later := ih (fun other member => inGrammar other (by simp [member])) (if inRange then rule.modifier = .open_ else is_open)
        simp only [checkFrom,if_neg always,tested]
        simpa [always,← first] using later

/-! ## Dates after the calendar -/

/-- The check returns without a date after the calendar exactly where the dates of the tested rules exist. -/
theorem CheckOpeningHours_isSome (str : List Char) (time : Tm) :
    (CheckOpeningHours D true (ParseOpeningHours str) time).isSome ↔ RulesComplete D true (ParseOpeningHours str) time :=
  checkFrom_isSome (ParseOpeningHours_inGrammar str) false

end

def winterNoon : Tm := ⟨0,12,15,1,118,4,by decide⟩

/-- `Feb 30`. -/
theorem thirtieth_of_february : ¬∀ (str : List Char) (time : Tm),
    (CheckOpeningHours CalendarDate true (ParseOpeningHours str) time).isSome := by
  intro every
  have parsed : ParseOpeningHours "Feb 30".toList = [⟨[],[],[⟨⟨0,2,30⟩,⟨0,0,0⟩⟩],.open_⟩] := by decide
  have thrown : CheckOpeningHours CalendarDate true [⟨[],[],[⟨⟨0,2,30⟩,⟨0,0,0⟩⟩],.open_⟩] winterNoon = none := by decide
  have returned := every "Feb 30".toList winterNoon
  rw [parsed,thrown] at returned
  cases returned

end Osrm.OpeningDates
