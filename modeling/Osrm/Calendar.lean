import Mathlib.Data.Int.Order.Basic
import Mathlib.Order.Lattice
import Mathlib.Tactic.Ring

/-!
# The Gregorian calendar

Days as triples, the order and the succession of days, and `GregorianDate`, what a date library offers that supports the years
1400 to 9999. `CalendarDate` is one such type.
-/
namespace Osrm.Calendar

def leapYear (year : ℤ) : Bool := year % 4 = 0 && (year % 100 ≠ 0 || year % 400 = 0)
def monthLength (year month : ℤ) : ℤ :=
  if month = 2 then (if leapYear year then 29 else 28)
  else if month = 4 ∨ month = 6 ∨ month = 9 ∨ month = 11 then 30
  else 31

theorem monthLength_bounds (year month : ℤ) : 28 ≤ monthLength year month ∧ monthLength year month ≤ 31 := by
  unfold monthLength
  split_ifs <;> decide

@[ext] structure CalendarDay where
  year : ℤ
  month : ℤ
  day : ℤ
  deriving DecidableEq, Repr

namespace CalendarDay

structure Real (c : CalendarDay) : Prop where
  month_pos : 1 ≤ c.month
  month_le : c.month ≤ 12
  day_pos : 1 ≤ c.day
  day_le : c.day ≤ monthLength c.year c.month

instance (c : CalendarDay) : Decidable c.Real :=
  decidable_of_iff (1 ≤ c.month ∧ c.month ≤ 12 ∧ 1 ≤ c.day ∧ c.day ≤ monthLength c.year c.month)
    ⟨fun ⟨p,q,r,s⟩ => ⟨p,q,r,s⟩,fun ⟨p,q,r,s⟩ => ⟨p,q,r,s⟩⟩

def Before (c d : CalendarDay) : Prop :=
  c.year < d.year ∨ c.year = d.year ∧ (c.month < d.month ∨ c.month = d.month ∧ c.day < d.day)

instance (c d : CalendarDay) : Decidable (c.Before d) := by unfold Before; infer_instance

def tomorrow (c : CalendarDay) : CalendarDay :=
  if c.day < monthLength c.year c.month then ⟨c.year,c.month,c.day + 1⟩
  else if c.month < 12 then ⟨c.year,c.month + 1,1⟩
  else ⟨c.year + 1,1,1⟩

def yesterday (c : CalendarDay) : CalendarDay :=
  if 1 < c.day then ⟨c.year,c.month,c.day - 1⟩
  else if 1 < c.month then ⟨c.year,c.month - 1,monthLength c.year (c.month - 1)⟩
  else ⟨c.year - 1,12,31⟩

def key (c : CalendarDay) : ℤ := (c.year * 12 + c.month) * 32 + c.day

variable {c : CalendarDay}

theorem Real.day_le_31 (real : c.Real) : c.day ≤ 31 :=
  real.day_le.trans (monthLength_bounds _ _).2

private theorem Real.tomorrow (real : c.Real) : c.tomorrow.Real := by
  obtain ⟨monthPos,monthLe,dayPos,dayLe⟩ := real
  unfold CalendarDay.tomorrow
  split_ifs with inside december
  · exact ⟨monthPos,monthLe,by simp only; omega,by simp only; omega⟩
  · exact ⟨by simp only; omega,by simp only; omega,le_refl _,by have := monthLength_bounds c.year (c.month + 1); simp only; omega⟩
  · exact ⟨le_refl _,by simp,le_refl _,by have := monthLength_bounds (c.year + 1) 1; simp only; omega⟩

private theorem tomorrow_yesterday (real : c.Real) : c.yesterday.tomorrow = c := by
  obtain ⟨monthPos,monthLe,dayPos,dayLe⟩ := real
  have first (inside : ¬1 < c.day) : c.day = 1 := by omega
  unfold yesterday
  split_ifs with inside january
  · have : c.day - 1 < monthLength c.year c.month := by omega
    simp [tomorrow,this]
  · have : c.month - 1 < 12 := by omega
    ext <;> simp [tomorrow,this,first inside]
  · have : c.month = 1 := by omega
    ext <;> simp [tomorrow,monthLength,this,first inside]

private theorem before_iff_key {c d : CalendarDay} (realC : c.Real) (realD : d.Real) : c.Before d ↔ c.key < d.key := by
  have lastC := realC.day_le_31
  have lastD := realD.day_le_31
  obtain ⟨monthPosC,monthLeC,dayPosC,-⟩ := realC
  obtain ⟨monthPosD,monthLeD,dayPosD,-⟩ := realD
  unfold Before key
  omega

private theorem key_inj {c d : CalendarDay} (realC : c.Real) (realD : d.Real) (same : c.key = d.key) : c = d := by
  have lastC := realC.day_le_31
  have lastD := realD.day_le_31
  obtain ⟨monthPosC,monthLeC,dayPosC,-⟩ := realC
  obtain ⟨monthPosD,monthLeD,dayPosD,-⟩ := realD
  unfold key at same
  ext <;> omega

private theorem key_tomorrow_le {c d : CalendarDay} (realC : c.Real) (realD : d.Real) :
    c.tomorrow.key ≤ d.key ↔ c.key < d.key := by
  have lastD := realD.day_le_31
  obtain ⟨monthPosC,monthLeC,dayPosC,dayLeC⟩ := realC
  obtain ⟨monthPosD,monthLeD,dayPosD,dayLeD⟩ := realD
  have bounds := monthLength_bounds c.year c.month
  have within (year : c.year = d.year) (month : c.month = d.month) : d.day ≤ monthLength c.year c.month := by
    rwa [year,month]
  unfold tomorrow
  split_ifs with inside december
  · simp only [key]; omega
  · simp only [key]; omega
  · simp only [key]; omega

end CalendarDay

open CalendarDay

/-- Dates as a library provides them. The constructor throws for a day that does not exist and for a year that is not supported;
    adding a day to the last date leads to a date that no constructor makes. -/
class GregorianDate (D : Type) extends LinearOrder D where
  date : CalendarDay → Option D
  year : D → ℤ
  month : D → ℤ
  end_of_month : D → D
  next : D → D
  min_date_time : D
  max_date_time : D
  date_isSome (c : CalendarDay) : (date c).isSome ↔ c.Real ∧ 1400 ≤ c.year ∧ c.year ≤ 9999
  date_lt {c d : CalendarDay} {a b : D} : date c = some a → date d = some b → (a < b ↔ c.Before d)
  year_date {c : CalendarDay} {a : D} : date c = some a → year a = c.year
  month_date {c : CalendarDay} {a : D} : date c = some a → month a = c.month
  end_of_month_date {c : CalendarDay} {a : D} :
    date c = some a → date ⟨c.year,c.month,monthLength c.year c.month⟩ = some (end_of_month a)
  next_le {a b : D} : next a ≤ b ↔ a < b
  next_date {c : CalendarDay} {a b : D} : date c.yesterday = some a → date c = some b → next a = b
  date_min : date ⟨1400,1,1⟩ = some min_date_time
  date_max : date ⟨9999,12,31⟩ = some max_date_time

section
variable {D : Type} [GregorianDate D] {c d : CalendarDay} {a b : D}
open GregorianDate

theorem date_le (madeA : date c = some a) (madeB : date d = some b) : a ≤ b ↔ ¬d.Before c := by
  rw [← date_lt madeB madeA,not_lt]
theorem real_of_date (made : date c = some a) : c.Real ∧ 1400 ≤ c.year ∧ c.year ≤ 9999 :=
  (date_isSome (D := D) c).mp (by simp [made])

theorem date_inj (madeC : date c = some a) (madeD : date d = some a) : c = d := by
  have notBefore := (date_lt madeC madeD).not.mp (lt_irrefl a)
  have notAfter := (date_lt madeD madeC).not.mp (lt_irrefl a)
  simp only [Before] at notBefore notAfter
  ext <;> omega

/-- No date is after the last one. -/
theorem date_le_max (made : date c = some a) : a ≤ max_date_time := by
  obtain ⟨real,-,year⟩ := real_of_date made
  have month := real.month_le
  have day := real.day_le_31
  rw [date_le made date_max,Before]
  simp only
  omega

end

@[ext] structure CalendarDate extends CalendarDay where
  real : toCalendarDay.Real
  deriving DecidableEq

namespace CalendarDate

def ofDay (c : CalendarDay) : Option CalendarDate :=
  if real : c.Real then if 1400 ≤ c.year ∧ c.year ≤ 9999 then some ⟨c,real⟩ else none else none

private theorem toCalendarDay_injective : Function.Injective toCalendarDay := by
  rintro ⟨c,_⟩ ⟨d,_⟩ same
  cases same
  rfl

private theorem ofDay_eq_some {c : CalendarDay} {a : CalendarDate} (made : ofDay c = some a) : a.toCalendarDay = c := by
  unfold ofDay at made
  split_ifs at made
  cases made
  rfl

private theorem ofDay_isSome (c : CalendarDay) : (ofDay c).isSome ↔ c.Real ∧ 1400 ≤ c.year ∧ c.year ≤ 9999 := by
  unfold ofDay
  split_ifs with real supported
  · simp [real,supported]
  · simp [supported]
  · simp [real]

instance : LinearOrder CalendarDate :=
  LinearOrder.lift' (fun a => a.key) fun a b same => toCalendarDay_injective (key_inj a.real b.real same)

private theorem end_of_month_real {c : CalendarDay} (real : c.Real) : Real ⟨c.year,c.month,monthLength c.year c.month⟩ :=
  ⟨real.month_pos,real.month_le,by have := monthLength_bounds c.year c.month; simp only; omega,le_refl _⟩

instance : GregorianDate CalendarDate where
  date := ofDay
  year a := a.year
  month a := a.month
  end_of_month a := ⟨⟨a.year,a.month,monthLength a.year a.month⟩,end_of_month_real a.real⟩
  next a := ⟨a.tomorrow,a.real.tomorrow⟩
  min_date_time := ⟨⟨1400,1,1⟩,by decide⟩
  max_date_time := ⟨⟨9999,12,31⟩,by decide⟩
  date_isSome := ofDay_isSome
  date_lt {c d a b} madeA madeB := by
    rw [← ofDay_eq_some madeA,← ofDay_eq_some madeB]
    exact (before_iff_key a.real b.real).symm
  year_date made := by rw [← ofDay_eq_some made]
  month_date made := by rw [← ofDay_eq_some made]
  end_of_month_date {c a} made := by
    have supported := (ofDay_isSome c).mp (by simp [made])
    rw [← ofDay_eq_some made] at supported ⊢
    simp [ofDay,end_of_month_real a.real,supported.2]
  next_le {a b} := key_tomorrow_le a.real b.real
  next_date {c a b} before made := by
    apply toCalendarDay_injective
    have real := ((ofDay_isSome c).mp (by simp [made])).1
    calc a.tomorrow = c.yesterday.tomorrow := by rw [ofDay_eq_some before]
      _ = c := tomorrow_yesterday real
      _ = b.toCalendarDay := (ofDay_eq_some made).symm
  date_min := by decide
  date_max := by decide

end CalendarDate
end Osrm.Calendar
