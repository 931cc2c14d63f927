import Osrm.OpeningRules

/-!
Month-day ranges without years. Both ends of a range lie in it if they are in order and the year does not end in between; where
the range goes over the new year, the code leaves out both end days.
-/
namespace Osrm.MonthdayRanges
open Calendar CalendarDay OpeningRules

def dayBefore (c : CalendarDay) : CalendarDay := ⟨c.year,c.yesterday.month,c.yesterday.day⟩
def NewYear (c : CalendarDay) : Prop := c.month = 1 ∧ c.day = 1

section
variable {D : Type} [GregorianDate D] {range : MonthdayRange} {time : Tm} {flags : DayFlags} {strict : Bool}
  {a b cur prev : D}
open GregorianDate

/-- The ends of the range are the dates `a` and `b`; `cur` is the date and `prev` the day before. -/
structure Ends (range : MonthdayRange) (time : Tm) (a b cur prev : D) : Prop where
  from_year : range.from_.year = 0
  to_year : range.to_.year = 0
  from_date : date ⟨time.today.year,range.from_.month,range.from_.day⟩ = some a
  to_date : date ⟨time.today.year,range.to_.month,range.to_.day⟩ = some b
  current : date time.today = some cur
  before : date (dayBefore time.today) = some prev

def Lies (a b x : D) : Prop := if a ≤ b then a ≤ x ∧ x ≤ b else a ≤ x ∨ x ≤ b
def Meant (flags : DayFlags) (a b cur prev : D) : Prop :=
  flags.use_curr_day ∧ Lies a b cur ∨ flags.use_next_day ∧ Lies a b prev
/-- The dates for which the code is wrong. -/
def Misses (time : Tm) (flags : DayFlags) (a b cur prev : D) : Prop :=
  if a ≤ b then flags.use_next_day ∧ NewYear time.today ∧ b = prev ∧ ¬(flags.use_curr_day ∧ a = cur)
  else flags.use_curr_day ∧ (cur = a ∨ cur = b) ∨ flags.use_next_day ∧ ¬NewYear time.today ∧ (prev = a ∨ prev = b)

private theorem dates_of_ends (ends : Ends range time a b cur prev) :
    range.date_from time = some a ∧ range.date_to time a = some b := by
  obtain ⟨fromYear,toYear,fromDate,toDate,-,-⟩ := ends
  obtain ⟨fromReal,-⟩ := real_of_date fromDate
  obtain ⟨toReal,low,high⟩ := real_of_date toDate
  have fromMonth : range.from_.month ≠ 0 := by have := fromReal.month_pos; simp only at this; omega
  have fromDay : range.from_.day ≠ 0 := by have := fromReal.day_pos; simp only at this; omega
  have toMonth : range.to_.month ≠ 0 := by have := toReal.month_pos; simp only at this; omega
  have toDay : range.to_.day ≠ 0 := by have := toReal.day_pos; simp only at this; omega
  have first : Real ⟨time.today.year,range.to_.month,1⟩ :=
    ⟨toReal.month_pos,toReal.month_le,le_refl _,toReal.day_pos.trans toReal.day_le⟩
  obtain ⟨month,made⟩ := Option.isSome_iff_exists.mp ((date_isSome (D := D) _).mpr ⟨first,low,high⟩)
  rw [Tm.today] at fromDate made toDate
  constructor
  · simp [MonthdayRange.date_from,Monthday.IsValid,fromYear,fromMonth,fromDay,fromDate]
  · simp [MonthdayRange.date_to,Monthday.IsValid,toYear,fromYear,toMonth,toDay,made,toDate,year_date made,month_date made]

private theorem lt_cur_iff (ends : Ends range time a b cur prev) (ordinary : ¬NewYear time.today) (x : D) : x < cur ↔ x ≤ prev := by
  have real := time.real
  have same : dayBefore time.today = time.today.yesterday := by
    have monthPos : 1 ≤ time.today.month := real.month_pos
    have dayPos : 1 ≤ time.today.day := real.day_pos
    have later : 1 < time.today.day ∨ 1 < time.today.month := by unfold NewYear at ordinary; omega
    by_cases inside : 1 < time.today.day
    · simp [dayBefore,yesterday,inside]
    · simp [dayBefore,yesterday,inside,later.resolve_left inside]
  have follows : next prev = cur := next_date (same ▸ ends.before) ends.current
  rw [← follows,← not_le,next_le,not_lt]

private theorem newYear_bounds (ends : Ends range time a b cur prev) (first : NewYear time.today) {month day : ℤ} {x : D}
    (made : date ⟨time.today.year,month,day⟩ = some x) : cur ≤ x ∧ x ≤ prev := by
  obtain ⟨real,-⟩ := real_of_date made
  have monthPos : 1 ≤ month := real.month_pos
  have monthLe : month ≤ 12 := real.month_le
  have dayPos : 1 ≤ day := real.day_pos
  have dayLe : day ≤ 31 := real.day_le_31
  obtain ⟨january,one⟩ := first
  constructor
  · rw [date_le ends.current made,Before]
    simp only
    omega
  · have last : dayBefore time.today = ⟨time.today.year,12,31⟩ := by simp [dayBefore,yesterday,january,one]
    rw [date_le made (last ▸ ends.before),Before]
    simp only
    omega

private theorem cur_le_moved (ends : Ends range time a b cur prev) {month day : ℤ} {x : D}
    (made : date ⟨time.today.year,month,day⟩ = some x) :
    cur ≤ (if flags.use_next_day && x ≠ max_date_time then next x else x) ↔
      if flags.use_next_day then NewYear time.today ∨ prev ≤ x else cur ≤ x := by
  cases flags.use_next_day with
  | false => simp
  | true =>
    by_cases last : x = max_date_time
    · have current := date_le_max ends.current
      have before := date_le_max ends.before
      simp [last,current,before]
    · have moved : x < next x := next_le.mp le_rfl
      by_cases first : NewYear time.today
      · have low := (newYear_bounds ends first made).1
        simpa [last,first] using low.trans moved.le
      · have step : cur ≤ next x ↔ prev ≤ x := by
          rw [← not_lt,← not_lt,not_iff_not,lt_cur_iff ends first,next_le]
        simpa [last,first] using step

private theorem moved_eq_some_true {first last : D} (current : cur ≤ max_date_time) {inverse : Bool}
    (inside : inverse → first ≠ max_date_time) :
    ((MonthdayRange.shifted strict flags first last).map fun moved =>
        (decide (moved.1 ≤ cur) && decide (cur ≤ moved.2)) ^^ inverse) = some true ↔
      ((if flags.use_curr_day then first ≤ cur else first < cur) ∧
        cur ≤ (if flags.use_next_day && last ≠ max_date_time then next last else last) ↔ inverse = false) := by
  have test (low high : D) : some ((decide (low ≤ cur) && decide (cur ≤ high)) ^^ inverse) = some true ↔
      (low ≤ cur ∧ cur ≤ high ↔ inverse = false) := by
    rw [← Bool.decide_and]
    by_cases covered : low ≤ cur ∧ cur ≤ high
    · cases inverse <;> simp [covered]
    · cases inverse <;> simp [covered]
  rw [MonthdayRange.shifted_eq]
  cases flags.use_curr_day with
  | true => exact test first _
  | false =>
    by_cases max : first = max_date_time
    · have none : ¬first < cur := not_lt.mpr (max ▸ current)
      have plain : inverse = false := by simpa [max] using inside
      cases strict with
      | true => simp [addDay,max,plain,max ▸ none]
      | false => simp [addDay,none,plain,next_le]
    · rw [if_neg Bool.false_ne_true,addDay_of_ne max,if_neg Bool.false_ne_true,← next_le]
      exact test (next first) _

private theorem IsInRange_iff (ends : Ends range time a b cur prev) : range.IsInRange D strict time flags = some true ↔
    if a ≤ b then (if flags.use_curr_day then a ≤ cur else a < cur) ∧
      (if flags.use_next_day then NewYear time.today ∨ prev ≤ b else cur ≤ b)
    else ¬((if flags.use_curr_day then b ≤ cur else b < cur) ∧
      (if flags.use_next_day then NewYear time.today ∨ prev ≤ a else cur ≤ a)) := by
  have current := date_le_max ends.current
  obtain ⟨begins,last⟩ := dates_of_ends ends
  have turned : range.from_.year = 0 ∧ range.to_.year = 0 ∧ b < a ↔ b < a := by simp [ends.from_year,ends.to_year]
  rw [MonthdayRange.IsInRange_eq ends.current begins last strict flags turned]
  by_cases order : a ≤ b
  · have inverse : ¬b < a := not_lt.mpr order
    rw [if_pos order,if_neg inverse,moved_eq_some_true current (by simp [inverse]),cur_le_moved ends ends.to_date]
    simp [inverse]
  · have inverse : b < a := not_le.mp order
    have inside : b ≠ max_date_time := (inverse.trans_le (date_le_max ends.from_date)).ne
    rw [if_neg order,if_pos inverse,moved_eq_some_true current (fun _ => inside),cur_le_moved ends ends.from_date]
    simp [inverse]

/-- The range is tested as it is meant except on the dates of `Misses`. -/
theorem IsInRange_iff_meant (ends : Ends range time a b cur prev) (used : flags.use_curr_day ∨ flags.use_next_day) :
    (range.IsInRange D strict time flags = some true ↔ Meant flags a b cur prev) ↔ ¬Misses time flags a b cur prev := by
  rw [IsInRange_iff ends,Meant,Misses,Lies,Lies]
  obtain ⟨use_curr_day,use_next_day⟩ := flags
  by_cases first : NewYear time.today
  · -- Every date of the year lies between New Year and the day before it.
    obtain ⟨fromLow,fromHigh⟩ := newYear_bounds ends first ends.from_date
    obtain ⟨toLow,toHigh⟩ := newYear_bounds ends first ends.to_date
    by_cases order : a ≤ b
    · simp only [if_pos order,first]
      cases use_curr_day <;> cases use_next_day <;> grind
    · have wrapped : b < a := not_le.mp order
      simp only [if_neg order,first]
      cases use_curr_day <;> cases use_next_day <;> grind
  · -- The date follows the day before it.
    have before : prev < cur := (lt_cur_iff ends first prev).mpr le_rfl
    have fromStep := lt_cur_iff ends first a
    have toStep := lt_cur_iff ends first b
    by_cases order : a ≤ b
    · simp only [if_pos order,first]
      cases use_curr_day <;> cases use_next_day <;> grind
    · have wrapped : b < a := not_le.mp order
      simp only [if_neg order,first]
      cases use_curr_day <;> cases use_next_day <;> grind

end

/-- `Aug 15-Jun 15`. -/
def schoolYear : MonthdayRange := ⟨⟨0,8,15⟩,⟨0,6,15⟩⟩
def firstSchoolDay : Tm := ⟨30,7,15,7,118,3,by decide⟩

private theorem schoolYear_ends : Ends (D := CalendarDate) schoolYear firstSchoolDay ⟨⟨2018,8,15⟩,by decide⟩ ⟨⟨2018,6,15⟩,by decide⟩
    ⟨⟨2018,8,15⟩,by decide⟩ ⟨⟨2018,8,14⟩,by decide⟩ :=
  ⟨rfl,rfl,by decide,by decide,by decide,by decide⟩

/-- As the continuation of the day before, which is not in the range, the first day is tested rightly. -/
theorem IsInRange_iff_meant_schoolYear :
    schoolYear.IsInRange CalendarDate false firstSchoolDay ⟨false,true⟩ = some true ↔
      Meant (D := CalendarDate) ⟨false,true⟩ ⟨⟨2018,8,15⟩,by decide⟩ ⟨⟨2018,6,15⟩,by decide⟩ ⟨⟨2018,8,15⟩,by decide⟩
        ⟨⟨2018,8,14⟩,by decide⟩ :=
  (IsInRange_iff_meant schoolYear_ends (.inr rfl)).mpr (by rw [Misses,if_neg (by decide)]; simp)

/-- The first day of a range over the new year. -/
theorem first_day_left_out : ¬∀ (range : MonthdayRange) (time : Tm) (flags : DayFlags) (a b cur prev : CalendarDate),
    Ends range time a b cur prev → flags.use_curr_day ∨ flags.use_next_day →
      (range.IsInRange CalendarDate false time flags = some true ↔ Meant flags a b cur prev) := by
  intro every
  have tested : schoolYear.IsInRange CalendarDate false firstSchoolDay ⟨true,false⟩ = some false := by decide
  have wrapped : ¬(⟨⟨2018,8,15⟩,by decide⟩ : CalendarDate) ≤ ⟨⟨2018,6,15⟩,by decide⟩ := by decide
  have matched := (every _ _ ⟨true,false⟩ _ _ _ _ schoolYear_ends (.inl rfl)).mpr
    (.inl ⟨rfl,by rw [Lies,if_neg wrapped]; exact .inl le_rfl⟩)
  rw [tested] at matched
  exact absurd matched (by decide)

end Osrm.MonthdayRanges
