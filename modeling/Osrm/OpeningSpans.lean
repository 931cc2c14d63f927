import Osrm.OpeningRules

/-!
The time spans of a rule without month-day ranges. The span that is found first decides on which day the weekday is tested, so
that the rule holds when one of its spans does only if `FirstDecides`.
-/
namespace Osrm.OpeningSpans
open List
open Calendar OpeningRules

variable {rule : OpeningHours} {time : Tm}

/-! ## What a rule means -/

/-- The minute, counted from the midnight at which the day of the span begins, is in the span. -/
def Covers (span : TimeSpan) (minute : ℤ) : Prop := span.from_.minutes ≤ minute ∧ minute < span.to_.minutes
/-- The span passes midnight and covers the time of day as the continuation from yesterday. -/
def Continues (span : TimeSpan) (minute : ℤ) : Prop := 24 * 60 < span.to_.minutes ∧ Covers span (minute + 24 * 60)
def Contains (range : WeekdayRange) (day : Fin 7) : Prop :=
  if range.from_ ≤ range.to_ then range.from_ ≤ day ∧ day ≤ range.to_ else range.from_ ≤ day ∨ day ≤ range.to_

instance (span : TimeSpan) (minute : ℤ) : Decidable (Covers span minute) := by unfold Covers; infer_instance
instance (span : TimeSpan) (minute : ℤ) : Decidable (Continues span minute) := by unfold Continues; infer_instance
instance (range : WeekdayRange) (day : Fin 7) : Decidable (Contains range day) := by unfold Contains; infer_instance

def OnDay (rule : OpeningHours) (day : Fin 7) : Prop := rule.weekdays = [] ∨ ∃ range ∈ rule.weekdays, Contains range day

/-- One of the time spans holds. -/
def Holds (rule : OpeningHours) (time : Tm) : Prop :=
  rule.times = [] ∧ OnDay rule time.tm_wday ∨
    (∃ span ∈ rule.times, Covers span time.minutes ∧ OnDay rule time.tm_wday) ∨
    ∃ span ∈ rule.times, Continues span time.minutes ∧ OnDay rule (time.tm_wday - 1)

def ClockTimes (span : TimeSpan) : Prop := span.from_.event = .none ∧ span.to_.event = .none

/-! ## What the code tests -/

def Reaches (span : TimeSpan) (minute : ℤ) : Prop := minute + 24 * 60 < span.to_.minutes

instance (span : TimeSpan) (minute : ℤ) : Decidable (Reaches span minute) := by unfold Reaches; infer_instance

def accepts (time : Tm) (span : TimeSpan) : Bool := Covers span time.minutes ∨ Reaches span time.minutes

variable {span : TimeSpan}

private theorem reaches_of_continues {minute : ℤ} (continues : Continues span minute) : Reaches span minute :=
  continues.2.2
private theorem accepts_of_covers (covers : Covers span time.minutes) : accepts time span := by
  simp [accepts,covers]
private theorem accepts_of_continues (continues : Continues span time.minutes) : accepts time span := by
  simp [accepts,reaches_of_continues continues]

private theorem IsInRange_run (clock : ClockTimes span) (flags : DayFlags) :
    (span.IsInRange time).run flags =
      (accepts time span,⟨Covers span time.minutes,Reaches span time.minutes⟩) := by
  obtain ⟨first,last⟩ := clock
  have low := time.minutes_nonneg
  have high := time.minutes_lt
  have plain : ¬(span.from_.event ≠ .none ∨ span.to_.event ≠ .none) := by simp [first,last]
  rw [TimeSpan.IsInRange,if_neg plain]
  by_cases late : span.to_.minutes > 24 * 60
  · have covers : Covers span time.minutes ↔ span.from_.minutes ≤ time.minutes := by unfold Covers; omega
    have reaches : Reaches span time.minutes ↔ time.minutes < span.to_.minutes - 24 * 60 := by unfold Reaches; omega
    rw [if_pos late]
    simp [accepts,covers,reaches]
    rfl
  · have reaches : ¬Reaches span time.minutes := by unfold Reaches; omega
    have covers : decide (Covers span time.minutes) =
        (decide (span.from_.minutes ≤ time.minutes) && decide (time.minutes < span.to_.minutes)) := by
      rw [Bool.eq_iff_iff,Bool.and_eq_true,decide_eq_true_iff,decide_eq_true_iff,decide_eq_true_iff,Covers]
    rw [if_neg late]
    simp [accepts,covers,reaches]
    rfl

private theorem inTimes_found {first : TimeSpan} (clock : ∀ span ∈ rule.times, ClockTimes span)
    (found : rule.times.find? (accepts time) = some first) :
    rule.inTimes time = (true,⟨Covers first time.minutes,Reaches first time.minutes⟩) := by
  have walk (spans : List TimeSpan) (clock : ∀ span ∈ spans, ClockTimes span) (flags : DayFlags)
      (found : spans.find? (accepts time) = some first) :
      (spans.anyM fun span : TimeSpan => span.IsInRange time).run flags =
        (true,⟨Covers first time.minutes,Reaches first time.minutes⟩) := by
    induction spans generalizing flags with
    | nil => simp at found
    | cons span spans ih =>
      rw [anyM_cons,StateT.run_bind,IsInRange_run (clock span (by simp))]
      cases accepted : accepts time span with
      | true =>
        rw [find?_cons_of_pos accepted] at found
        cases found
        rfl
      | false =>
        rw [find?_cons_of_neg (by simp [accepted])] at found
        exact ih (fun other member => clock other (by simp [member])) _ found
  have some : rule.times ≠ [] := by rintro empty; simp [empty] at found
  simp [OpeningHours.inTimes,some,walk _ clock _ found]

private theorem inTimes_none (clock : ∀ span ∈ rule.times, ClockTimes span) (some : rule.times ≠ [])
    (none : rule.times.find? (accepts time) = none) : (rule.inTimes time).1 = false := by
  have walk (spans : List TimeSpan) (clock : ∀ span ∈ spans, ClockTimes span) (flags : DayFlags)
      (none : ∀ span ∈ spans, accepts time span = false) :
      ((spans.anyM fun span : TimeSpan => span.IsInRange time).run flags).1 = false := by
    induction spans generalizing flags with
    | nil => rfl
    | cons span spans ih =>
      rw [anyM_cons,StateT.run_bind,IsInRange_run (clock span (by simp)),none span (by simp)]
      exact ih (fun other member => clock other (by simp [member])) _ fun other member => none other (by simp [member])
  have rejected : ∀ span ∈ rule.times, accepts time span = false := by simpa using none
  simp [OpeningHours.inTimes,some,walk _ clock _ rejected]

/-! ## The masks -/

private theorem weekdays_mask : ∀ (range : WeekdayRange) (day : Fin 7),
    range.weekdays &&& (1#32 <<< day.val) ≠ 0 ↔ Contains range day := by
  rintro ⟨from_,to_⟩ day
  revert from_ to_ day
  decide

private theorem overnight_weekdays_mask : ∀ (range : WeekdayRange) (day : Fin 7),
    range.overnight_weekdays &&& (1#32 <<< day.val) ≠ 0 ↔ Contains range (day - 1) := by
  rintro ⟨from_,to_⟩ day
  revert from_ to_ day
  decide

private theorem inWeekdays_iff (flags : DayFlags) (used : flags.use_curr_day ∨ flags.use_next_day) :
    rule.inWeekdays time flags ↔
      flags.use_curr_day ∧ OnDay rule time.tm_wday ∨ flags.use_next_day ∧ OnDay rule (time.tm_wday - 1) := by
  have range_iff (range : WeekdayRange) : range.IsInRange time flags ↔
      flags.use_curr_day ∧ Contains range time.tm_wday ∨ flags.use_next_day ∧ Contains range (time.tm_wday - 1) := by
    simp only [WeekdayRange.IsInRange,weekdays_mask,overnight_weekdays_mask,Bool.or_eq_true,Bool.and_eq_true,decide_eq_true_eq]
  simp only [OpeningHours.inWeekdays,OnDay,Bool.or_eq_true,List.isEmpty_iff,any_eq_true,range_iff]
  grind

/-! ## Rules without month-day ranges -/

section
variable {D : Type} [GregorianDate D] {strict : Bool}

private theorem IsInRange_eq (noMonthdays : rule.monthdays = []) (selector : rule.times ≠ [] ∨ rule.weekdays ≠ []) :
    rule.IsInRange D strict time = some ((rule.inTimes time).1 && rule.inWeekdays time (rule.inTimes time).2) := by
  have some : ¬(rule.times.isEmpty && rule.weekdays.isEmpty && rule.monthdays.isEmpty) := by simp [noMonthdays]; tauto
  rw [OpeningHours.IsInRange,if_neg some]
  simp only [OpeningHours.inMonthdays,noMonthdays,isEmpty_nil,if_true]
  cases (rule.inTimes time).1 && rule.inWeekdays time (rule.inTimes time).2 <;> rfl

private theorem IsInRange_of_found {first : TimeSpan} (noMonthdays : rule.monthdays = [])
    (clock : ∀ span ∈ rule.times, ClockTimes span) (found : rule.times.find? (accepts time) = some first) :
    rule.IsInRange D strict time = some true ↔
      Covers first time.minutes ∧ OnDay rule time.tm_wday ∨ Reaches first time.minutes ∧ OnDay rule (time.tm_wday - 1) := by
  have times : rule.times ≠ [] := by rintro empty; simp [empty] at found
  have used : Covers first time.minutes ∨ Reaches first time.minutes := by simpa [accepts] using find?_some found
  rw [IsInRange_eq noMonthdays (.inl times),inTimes_found clock found,Option.some_inj,Bool.true_and,
    inWeekdays_iff _ (by simpa using used)]
  simp

/-- Where spans hold on different days, the first span that is accepted must be one of those that hold. -/
structure FirstDecides (rule : OpeningHours) (time : Tm) (first : TimeSpan) : Prop where
  both : OnDay rule time.tm_wday → OnDay rule (time.tm_wday - 1) →
    ∃ span ∈ rule.times, Covers span time.minutes ∨ Continues span time.minutes
  today : OnDay rule time.tm_wday → ¬OnDay rule (time.tm_wday - 1) →
    (∃ span ∈ rule.times, Covers span time.minutes) → Covers first time.minutes
  yesterday : ¬OnDay rule time.tm_wday → OnDay rule (time.tm_wday - 1) →
    (Reaches first time.minutes ↔ ∃ span ∈ rule.times, Continues span time.minutes)

private theorem two_days {today yesterday covers reaches covered continued : Prop} (one : covers → covered)
    (used : covers ∨ reaches) :
    (covers ∧ today ∨ reaches ∧ yesterday ↔ covered ∧ today ∨ continued ∧ yesterday) ↔
      (today → yesterday → covered ∨ continued) ∧ (today → ¬yesterday → covered → covers) ∧
        (¬today → yesterday → (reaches ↔ continued)) := by
  by_cases t : today
  · by_cases y : yesterday
    · simp [t,y,used]
    · simp only [t,y,and_true,and_false,or_false,true_implies,false_implies,not_false_eq_true,not_true,implies_true,true_and]
      exact ⟨fun same => same.mpr,fun only => ⟨one,only⟩⟩
  · by_cases y : yesterday
    · simp [t,y]
    · simp [t,y]

private theorem IsInRange_of_rejected (noMonthdays : rule.monthdays = []) (selector : rule.times ≠ [] ∨ rule.weekdays ≠ [])
    (clock : ∀ span ∈ rule.times, ClockTimes span) (none : rule.times.find? (accepts time) = none) :
    rule.IsInRange D strict time = some true ↔ Holds rule time := by
  have rejected : ∀ span ∈ rule.times, accepts time span = false := by simpa using none
  have noCover : ¬∃ span ∈ rule.times, Covers span time.minutes ∧ OnDay rule time.tm_wday := by
    rintro ⟨span,member,covers,-⟩
    simpa [accepts_of_covers covers] using rejected span member
  have noContinue : ¬∃ span ∈ rule.times, Continues span time.minutes ∧ OnDay rule (time.tm_wday - 1) := by
    rintro ⟨span,member,continues,-⟩
    simpa [accepts_of_continues continues] using rejected span member
  rw [IsInRange_eq noMonthdays selector,Holds,or_iff_left (not_or.mpr ⟨noCover,noContinue⟩),Option.some_inj,Bool.and_eq_true]
  by_cases times : rule.times = []
  · simp [OpeningHours.inTimes,times,inWeekdays_iff]
  · simp [inTimes_none clock times none,times]

private theorem holds_iff (times : rule.times ≠ []) : Holds rule time ↔
    (∃ span ∈ rule.times, Covers span time.minutes) ∧ OnDay rule time.tm_wday ∨
      (∃ span ∈ rule.times, Continues span time.minutes) ∧ OnDay rule (time.tm_wday - 1) := by
  simp [Holds,times,← exists_and_right,and_assoc]

/-- `IsInRange` is true exactly when a span holds, if and only if the first span that is accepted decides rightly. -/
theorem IsInRange_iff_holds (noMonthdays : rule.monthdays = []) (selector : rule.times ≠ [] ∨ rule.weekdays ≠ [])
    (clock : ∀ span ∈ rule.times, ClockTimes span) :
    (rule.IsInRange D strict time = some true ↔ Holds rule time) ↔
      ∀ first, rule.times.find? (accepts time) = some first → FirstDecides rule time first := by
  cases found : rule.times.find? (accepts time) with
  | none => simpa using IsInRange_of_rejected noMonthdays selector clock found
  | some first =>
    have member := mem_of_find?_eq_some found
    have used : Covers first time.minutes ∨ Reaches first time.minutes := by simpa [accepts] using find?_some found
    have covered : Covers first time.minutes → ∃ span ∈ rule.times, Covers span time.minutes := fun covers =>
      ⟨first,member,covers⟩
    rw [IsInRange_of_found noMonthdays clock found,holds_iff (ne_nil_of_mem member),two_days covered used]
    constructor
    · rintro ⟨both,today,yesterday⟩ first' found'
      cases found'
      refine ⟨fun t y => ?_,today,yesterday⟩
      simpa only [and_or_left,exists_or] using both t y
    · intro decides
      obtain ⟨both,today,yesterday⟩ := decides first rfl
      refine ⟨fun t y => ?_,today,yesterday⟩
      simpa only [and_or_left,exists_or] using both t y

end

def mondayNight : Tm := ⟨30,1,3,8,118,1,by decide⟩
def mondayEvening : Tm := ⟨30,22,3,8,118,1,by decide⟩
/-- `Mo 22:00-03:00,01:00-02:00`. -/
def mondayRule : OpeningHours :=
  ⟨[.make (.ofClock 22 0) (.ofClock 3 0),.make (.ofClock 1 0) (.ofClock 2 0)],[⟨1,1⟩],[],.open_⟩

private theorem mondayRule_clock : ∀ span ∈ mondayRule.times, ClockTimes span := by
  intro span member
  simp only [mondayRule,mem_cons,not_mem_nil,or_false] at member
  rcases member with rfl | rfl
  · exact ⟨rfl,rfl⟩
  · exact ⟨rfl,rfl⟩

/-- On Monday evening the first span decides, and rightly. -/
theorem IsInRange_iff_holds_monday :
    mondayRule.IsInRange CalendarDate false mondayEvening = some true ↔ Holds mondayRule mondayEvening := by
  refine (IsInRange_iff_holds rfl (.inl (by decide)) mondayRule_clock).mpr fun first found => ?_
  cases found
  exact ⟨fun _ _ => ⟨_,mem_cons_self,.inl (by decide)⟩,fun _ _ _ => by decide,fun other _ =>
    absurd (.inr ⟨⟨1,1⟩,by simp [mondayRule],by decide⟩) other⟩

/-- The rest of Sunday night's span is accepted, and Sunday is not in the rule. -/
theorem second_span_not_tested : ¬∀ (rule : OpeningHours) (time : Tm), rule.monthdays = [] →
    rule.times ≠ [] ∨ rule.weekdays ≠ [] → (∀ span ∈ rule.times, ClockTimes span) →
      (rule.IsInRange CalendarDate false time = some true ↔ Holds rule time) := by
  intro every
  have tested : mondayRule.IsInRange CalendarDate false mondayNight = some false := by decide
  have holds : Holds mondayRule mondayNight := by
    refine .inr (.inl ⟨.make (.ofClock 1 0) (.ofClock 2 0),by simp [mondayRule],by decide,.inr ⟨⟨1,1⟩,?_,by decide⟩⟩)
    simp [mondayRule]
  have matched := (every mondayRule mondayNight rfl (.inl (by decide)) mondayRule_clock).mpr holds
  rw [tested] at matched
  exact absurd matched (by decide)

end Osrm.OpeningSpans
