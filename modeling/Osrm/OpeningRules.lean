import Osrm.Calendar
import Mathlib.Data.Fintype.Basic

/-!
`OpeningHours` of `util/opening_hours.hpp`: the rules that `ParseOpeningHours` reads, when one holds at a local time, and
`CheckOpeningHours` of `util/opening_hours.cpp`. The dates are those of a `GregorianDate`.
-/
namespace Osrm.OpeningRules
open Option
open Calendar

inductive Modifier
  | unknown | open_ | closed | off | is24_7
  deriving DecidableEq, Repr

inductive Event
  | invalid | none | dawn | sunrise | sunset | dusk
  deriving DecidableEq, Repr

-- The literals of the fields of `Tm`.
instance minuteNeZero : NeZero 60 := ⟨by decide⟩
instance hourNeZero : NeZero 24 := ⟨by decide⟩
instance monthNeZero : NeZero 12 := ⟨by decide⟩
instance weekdayNeZero : NeZero 7 := ⟨by decide⟩

/-- A valid local time: the fields of `struct tm` that are read. -/
structure Tm where
  tm_min : Fin 60
  tm_hour : Fin 24
  tm_mday : ℤ
  tm_mon : Fin 12
  tm_year : ℤ
  tm_wday : Fin 7
  real : CalendarDay.Real ⟨tm_year + 1900,tm_mon.val + 1,tm_mday⟩

namespace Tm

def today (time : Tm) : CalendarDay := ⟨time.tm_year + 1900,time.tm_mon.val + 1,time.tm_mday⟩
def minutes (time : Tm) : ℤ := time.tm_hour.val * 60 + time.tm_min.val

theorem minutes_nonneg (time : Tm) : 0 ≤ time.minutes := by unfold minutes; omega
theorem minutes_lt (time : Tm) : time.minutes < 24 * 60 := by unfold minutes; omega

end Tm

structure Time where
  event : Event
  minutes : ℤ
  deriving DecidableEq, Repr

namespace Time

def invalid : Time := ⟨.invalid,0⟩
def ofEvent (event : Event) : Time := ⟨event,0⟩
def ofClock (hour min : ℤ) : Time := ⟨.none,hour * 60 + min⟩
def ofOffset (event : Event) (positive : Bool) (offset : Time) : Time :=
  ⟨event,if positive then offset.minutes else -offset.minutes⟩

end Time

/-- `use_curr_day` and `use_next_day`, which the first matching time sets. -/
structure DayFlags where
  use_curr_day : Bool
  use_next_day : Bool
  deriving DecidableEq, Repr

structure TimeSpan where
  from_ : Time
  to_ : Time
  deriving DecidableEq, Repr

namespace TimeSpan

def make (from_ to_ : Time) : TimeSpan :=
  ⟨from_,if to_.minutes < from_.minutes then ⟨to_.event,to_.minutes + 24 * 60⟩ else to_⟩

def IsInRange (span : TimeSpan) (time : Tm) : StateM DayFlags Bool :=
  if span.from_.event ≠ .none ∨ span.to_.event ≠ .none then pure false
  else do
    if span.to_.minutes > 24 * 60 then
      set (DayFlags.mk (span.from_.minutes ≤ time.minutes) (time.minutes < span.to_.minutes - 24 * 60))
    else
      set (DayFlags.mk (span.from_.minutes ≤ time.minutes && time.minutes < span.to_.minutes) false)
    let flags ← get
    return flags.use_curr_day || flags.use_next_day

end TimeSpan

/-- A range of weekdays, Sunday being 0, as its constructor gets it. -/
structure WeekdayRange where
  from_ : Fin 7
  to_ : Fin 7
  deriving DecidableEq, Repr

namespace WeekdayRange

def weekdays (range : WeekdayRange) : BitVec 32 :=
  (if range.from_ ≤ range.to_ then ((1#32 <<< (range.to_.val - range.from_.val + 1)) - 1) <<< range.from_.val
    else ~~~(((1#32 <<< (range.from_.val - range.to_.val - 1)) - 1) <<< (range.to_.val + 1))) &&& 0x7f#32
def overnight_weekdays (range : WeekdayRange) : BitVec 32 :=
  range.weekdays <<< 1 ||| (if range.weekdays &&& 0x40#32 ≠ 0 then 1#32 else 0#32)
def IsInRange (range : WeekdayRange) (time : Tm) (flags : DayFlags) : Bool :=
  (flags.use_curr_day && range.weekdays &&& (1#32 <<< time.tm_wday.val) ≠ 0) ||
    (flags.use_next_day && range.overnight_weekdays &&& (1#32 <<< time.tm_wday.val) ≠ 0)

end WeekdayRange

structure Monthday where
  year : ℤ
  month : ℤ
  day : ℤ
  deriving DecidableEq, Repr

namespace Monthday

def ofYear (year : ℤ) : Monthday := ⟨year,0,0⟩
def IsValid (monthday : Monthday) : Bool := monthday.year > 0 || monthday.month ≠ 0 || monthday.day ≠ 0

end Monthday

structure MonthdayRange where
  from_ : Monthday
  to_ : Monthday
  deriving DecidableEq, Repr

section
variable {D : Type} [GregorianDate D]
open GregorianDate

/-- `date += date_duration(1)`, unchecked; `strict` makes a date behind the calendar an error. -/
def addDay (strict : Bool) (d : D) : Option D := if strict && d = max_date_time then none else some (next d)

theorem addDay_of_ne {strict : Bool} {d : D} (inside : d ≠ max_date_time) : addDay strict d = some (next d) := by
  simp [addDay,inside]

theorem addDay_isSome {strict : Bool} {d : D} : (addDay strict d).isSome ↔ (strict → d ≠ max_date_time) := by
  by_cases last : d = max_date_time
  · cases strict <;> simp [addDay,last]
  · simp [addDay,last]

namespace MonthdayRange

def date_from (range : MonthdayRange) (time : Tm) : Option D :=
  let year := time.tm_year + 1900
  let month : ℤ := time.tm_mon.val + 1
  if range.from_.IsValid then
    if range.from_.day = 0 then
      date ⟨if range.from_.year = 0 then year else range.from_.year,if range.from_.month = 0 then month else range.from_.month,1⟩
    else
      date ⟨if range.from_.year = 0 then year else range.from_.year,if range.from_.month = 0 then month else range.from_.month,
        range.from_.day⟩
  else some min_date_time

def date_to (range : MonthdayRange) (time : Tm) (date_from : D) : Option D :=
  let year := time.tm_year + 1900
  let month : ℤ := time.tm_mon.val + 1
  if range.to_.IsValid then do
    let date_to : D ← date
      ⟨if range.to_.year = 0 then (if range.from_.year = 0 then year else range.from_.year) else range.to_.year,
        if range.to_.month = 0 then (if range.from_.month = 0 then month else range.from_.month) else range.to_.month,1⟩
    if range.to_.day = 0 then some (end_of_month date_to)
    else date ⟨GregorianDate.year date_to,GregorianDate.month date_to,range.to_.day⟩
  else if range.to_ = ⟨0,0,0⟩ then some date_from
  else some max_date_time

/-- `date_from` and `date_to` once the flags have moved them. -/
def shifted (strict : Bool) (flags : DayFlags) (date_from date_to : D) : Option (D × D) := do
  let date_from ← if !flags.use_curr_day then addDay strict date_from else some date_from
  let date_to ← if flags.use_next_day && date_to ≠ max_date_time then addDay strict date_to else some date_to
  return (date_from,date_to)

/-- `none` where a date throws. -/
def IsInRange (D : Type) [GregorianDate D] (strict : Bool) (range : MonthdayRange) (time : Tm) (flags : DayFlags) :
    Option Bool := do
  let date_current : D ← date time.today
  let date_from ← range.date_from time
  let date_to ← range.date_to time date_from
  let inverse := range.from_.year = 0 && range.to_.year = 0 && date_from > date_to
  let (date_from,date_to) ← if inverse then shifted strict flags date_to date_from else shifted strict flags date_from date_to
  return (date_from ≤ date_current && date_current ≤ date_to) ^^ inverse

/-- The days that the flags shift a range to. -/
theorem shifted_eq (strict : Bool) (flags : DayFlags) (date_from date_to : D) :
    shifted strict flags date_from date_to =
      (if flags.use_curr_day then some date_from else addDay strict date_from).map fun first =>
        (first,if flags.use_next_day && date_to ≠ max_date_time then next date_to else date_to) := by
  obtain ⟨use_curr_day,use_next_day⟩ := flags
  by_cases moved : use_next_day ∧ date_to ≠ max_date_time
  · have later : addDay strict date_to = some (next date_to) := addDay_of_ne moved.2
    cases use_curr_day with
    | true => simp [shifted,later,moved]
    | false => cases found : addDay strict date_from <;> simp [shifted,found,later,moved]
  · cases use_curr_day with
    | true => simp [shifted,moved]
    | false => cases found : addDay strict date_from <;> simp [shifted,found,moved]

theorem IsInRange_eq {range : MonthdayRange} {time : Tm} {cur a b : D} (current : date time.today = some cur)
    (begins : range.date_from time = some a) (ends : range.date_to time a = some b) (strict : Bool) (flags : DayFlags)
    {inverse : Prop} [Decidable inverse] (turned : range.from_.year = 0 ∧ range.to_.year = 0 ∧ b < a ↔ inverse) :
    range.IsInRange D strict time flags =
      (if inverse then shifted strict flags b a else shifted strict flags a b).map fun moved =>
        (decide (moved.1 ≤ cur) && decide (cur ≤ moved.2)) ^^ decide inverse := by
  have swapped : (decide (range.from_.year = 0) && decide (range.to_.year = 0) && decide (a > b)) = decide inverse := by
    rw [Bool.eq_iff_iff]
    simpa [and_assoc] using turned
  simp only [IsInRange,current,begins,bind_eq_bind,bind_some,ends,swapped]
  by_cases inverted : inverse
  · simp only [inverted,decide_true,if_true,map_eq_bind]
    rfl
  · simp only [inverted,decide_false,Bool.false_eq_true,if_false,map_eq_bind]
    rfl

end MonthdayRange
end

structure OpeningHours where
  times : List TimeSpan
  weekdays : List WeekdayRange
  monthdays : List MonthdayRange
  modifier : Modifier
  deriving DecidableEq, Repr

namespace OpeningHours

/-- `OpeningHours()`. -/
def empty : OpeningHours := ⟨[],[],[],.open_⟩
def inTimes (rule : OpeningHours) (time : Tm) : Bool × DayFlags :=
  if rule.times.isEmpty then (true,⟨true,false⟩)
  else (rule.times.anyM fun span : TimeSpan => span.IsInRange time).run ⟨true,false⟩
def inWeekdays (rule : OpeningHours) (time : Tm) (flags : DayFlags) : Bool :=
  rule.weekdays.isEmpty || rule.weekdays.any fun range => range.IsInRange time flags
def inMonthdays (D : Type) [GregorianDate D] (strict : Bool) (rule : OpeningHours) (time : Tm) (flags : DayFlags) : Option Bool :=
  if rule.monthdays.isEmpty then some true else rule.monthdays.anyM fun range => range.IsInRange D strict time flags

def IsInRange (D : Type) [GregorianDate D] (strict : Bool) (rule : OpeningHours) (time : Tm) : Option Bool :=
  if rule.times.isEmpty && rule.weekdays.isEmpty && rule.monthdays.isEmpty then some false
  else
    let (inTime,flags) := rule.inTimes time
    if inTime && rule.inWeekdays time flags then rule.inMonthdays D strict time flags else some false

end OpeningHours

/-- The loop over the rules. -/
def checkFrom (D : Type) [GregorianDate D] (strict : Bool) (time : Tm) : Bool → List OpeningHours → Option Bool
  | is_open,[] => some is_open
  | is_open,rule :: input =>
    if rule.modifier = .is24_7 then some true
    else do
      let inRange ← rule.IsInRange D strict time
      checkFrom D strict time (if inRange then rule.modifier = .open_ else is_open) input

def CheckOpeningHours (D : Type) [GregorianDate D] (strict : Bool) (input : List OpeningHours) (time : Tm) : Option Bool :=
  checkFrom D strict time false input

end Osrm.OpeningRules
