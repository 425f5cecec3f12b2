import LuaEmbed.Calendar
import Mathlib

/-!
# Days of the calendar

The calendar is a sequence of days in both directions: after the last day of a month comes the first
day of the next month, and after the last day of a year the first day of the next year.  The date of
a number of days is the date that this sequence reaches from the first day of 1970 on, and the number
of days of a date is the number of steps to it.
-/

namespace LuaEmbed

namespace Date

variable {d d' : Date} {y n : ℤ} {m k : ℕ} (leap : Bool)

/-! ## The sequence of days -/

/-- The length of a month. -/
def monthLength (leap : Bool) : ℕ → ℕ
  | 2 => if leap then 29 else 28
  | 4 | 6 | 9 | 11 => 30
  | _ => 31

/-- The number of days of a year. -/
def yearLength (leap : Bool) : ℕ := if leap then 366 else 365

/-- A date of the calendar: one of the twelve months, and one of its days. -/
structure Valid (d : Date) : Prop where
  one_le_month : 1 ≤ d.month
  month_le : d.month ≤ 12
  one_le_day : 1 ≤ d.day
  day_le : d.day ≤ monthLength (isLeap d.year) d.month

/-- The next date. -/
def tomorrow (d : Date) : Date :=
  if d.day < monthLength (isLeap d.year) d.month then { d with day := d.day + 1 }
  else if d.month < 12 then ⟨d.year, d.month + 1, 1⟩
  else ⟨d.year + 1, 1, 1⟩

/-- The date `d` comes `n` days after the first day of 1970. -/
inductive AfterEpoch : ℤ → Date → Prop
  | epoch : AfterEpoch 0 ⟨1970, 1, 1⟩
  | next {n : ℤ} {d : Date} (h : AfterEpoch n d) : AfterEpoch (n + 1) d.tomorrow
  | previous {n : ℤ} {d : Date} (hd : d.Valid) (h : AfterEpoch (n + 1) d.tomorrow) : AfterEpoch n d

/-! ## Years -/

theorem isLeap_iff : isLeap y = true ↔ 4 ∣ y ∧ (100 ∣ y → 400 ∣ y) := by
  simp only [isLeap, Bool.and_eq_true, Bool.or_eq_true, beq_iff_eq, bne_iff_ne]
  omega

theorem daysBeforeYear_succ (y : ℤ) :
    daysBeforeYear (y + 1) = daysBeforeYear y + yearLength (isLeap y) := by
  rw [daysBeforeYear, daysBeforeYear, yearLength]
  split
  · next h =>
    rw [isLeap_iff] at h
    omega
  · next h =>
    rw [isLeap_iff] at h
    omega

theorem yearLength_pos : 0 < yearLength leap := by
  cases leap <;> decide

theorem daysBeforeYear_strictMono : StrictMono daysBeforeYear :=
  strictMono_int_of_lt_succ fun y ↦ by
    have hpos := yearLength_pos (isLeap y)
    rw [daysBeforeYear_succ]
    omega

/-- Years have the average length up to less than two days. -/
theorem daysBeforeYear_mem (y : ℤ) :
    146097 * (y - 1) - 800 < 400 * daysBeforeYear y ∧
      400 * daysBeforeYear y < 146097 * (y - 1) + 400 := by
  rw [daysBeforeYear]
  omega

theorem yearOf_spec (n : ℤ) :
    daysBeforeYear (yearOf n) ≤ n ∧ n < daysBeforeYear (yearOf n + 1) := by
  -- The estimate is the year of the day, or one next to it: the year before it starts no later than
  -- the day, and the year after the next starts behind the day.
  have hearly := (daysBeforeYear_mem (n * 400 / 146097 + 1 - 1)).2
  have hlate := (daysBeforeYear_mem (n * 400 / 146097 + 1 + 1 + 1)).1
  rw [yearOf]
  split_ifs with hbefore hbehind
  · rw [sub_add_cancel]
    exact ⟨by omega, hbefore⟩
  · exact ⟨hbehind, by omega⟩
  · exact ⟨not_lt.1 hbefore, not_le.1 hbehind⟩

theorem le_yearOf_iff : y ≤ yearOf n ↔ daysBeforeYear y ≤ n := by
  obtain ⟨hl, hh⟩ := yearOf_spec n
  refine ⟨fun h ↦ (daysBeforeYear_strictMono.monotone h).trans hl, fun h ↦ ?_⟩
  exact Int.lt_add_one_iff.1 (daysBeforeYear_strictMono.lt_iff_lt.1 (h.trans_lt hh))

theorem yearOf_eq (hl : daysBeforeYear y ≤ n) (hh : n < daysBeforeYear (y + 1)) : yearOf n = y := by
  have hle := le_yearOf_iff.2 hl
  have hlt := mt le_yearOf_iff.1 hh.not_ge
  omega

/-! ## Months -/

/-- The months and their lengths. -/
theorem getElem?_monthLengths (h : 1 ≤ m) (h' : m ≤ 12) :
    (monthLengths leap)[m - 1]? = some (monthLength leap m) := by
  interval_cases m <;> rfl

theorem daysBeforeMonth_succ (h : 1 ≤ m) (h' : m ≤ 12) :
    daysBeforeMonth leap (m + 1) = daysBeforeMonth leap m + monthLength leap m := by
  interval_cases m <;> cases leap <;> rfl

theorem daysBeforeMonth_one : daysBeforeMonth leap 1 = 0 := rfl

theorem daysBeforeMonth_twelve : daysBeforeMonth leap 12 + 31 = yearLength leap := by
  cases leap <;> rfl

theorem monthLength_pos : 0 < monthLength leap m := by
  unfold monthLength
  cases leap <;> split <;> decide

theorem monthLength_le : monthLength leap m ≤ 31 := by
  unfold monthLength
  cases leap <;> split <;> decide

theorem sum_monthLengths : (monthLengths leap).sum = yearLength leap := by
  cases leap <;> rfl

theorem daysBeforeMonth_eq (m : ℕ) :
    daysBeforeMonth leap m = ((monthLengths leap).take (m - 1)).sum :=
  List.sum_eq_foldl.symm

/-- The days of a month lie in the year. -/
theorem daysBeforeMonth_add_le (h : 1 ≤ m) (h' : m ≤ 12) :
    daysBeforeMonth leap m + monthLength leap m ≤ yearLength leap := by
  interval_cases m <;> cases leap <;> decide

/-- The day that is reached lies in one of the months, behind those before it. -/
theorem monthAndDay_spec {lengths : List ℕ} (h : k < lengths.sum) :
    ∃ i j, monthAndDay lengths m k = (m + i, j + 1) ∧
      (∃ length, lengths[i]? = some length ∧ j < length) ∧ (lengths.take i).sum + j = k := by
  induction lengths generalizing m k with
  | nil => exact absurd h (Nat.not_lt_zero k)
  | cons length lengths ih =>
      rw [monthAndDay]
      split
      · next hlt => exact ⟨0, k, rfl, ⟨length, rfl, hlt⟩, Nat.zero_add k⟩
      · next hle =>
        rw [List.sum_cons] at h
        obtain ⟨i, j, heq, hj, hsum⟩ := ih (m := m + 1) (k := k - length) (by omega)
        refine ⟨i + 1, j, heq.trans (by rw [Nat.add_right_comm, Nat.add_assoc]), hj, ?_⟩
        rw [List.take_succ_cons, List.sum_cons]
        omega

theorem monthAndDay_eq {lengths : List ℕ} {i length : ℕ} (hi : lengths[i]? = some length)
    (hk : k < length) : monthAndDay lengths m ((lengths.take i).sum + k) = (m + i, k + 1) := by
  induction lengths generalizing m i with
  | nil => exact nomatch hi
  | cons first lengths ih =>
      cases i with
      | zero =>
          obtain rfl := Option.some.inj hi
          rw [List.take_zero, List.sum_nil, Nat.zero_add, monthAndDay, if_pos hk]
          rfl
      | succ i =>
          rw [List.take_succ_cons, List.sum_cons, Nat.add_assoc, monthAndDay, if_neg (by omega),
            Nat.add_sub_cancel_left, ih hi, Nat.add_right_comm, Nat.add_assoc]

/-! ## Dates and numbers of days -/

namespace Valid

theorem one_le_dayOfYear (h : d.Valid) : 1 ≤ d.dayOfYear :=
  Nat.le_add_left_of_le h.one_le_day

theorem dayOfYear_le (h : d.Valid) : d.dayOfYear ≤ yearLength (isLeap d.year) :=
  (Nat.add_le_add_left h.day_le _).trans (daysBeforeMonth_add_le _ h.one_le_month h.month_le)

theorem firstOfYear (y : ℤ) : (Date.mk y 1 1).Valid :=
  ⟨le_rfl, Nat.le_add_left 1 11, le_rfl, Nat.le_add_left 1 30⟩

theorem tomorrow (h : d.Valid) : d.tomorrow.Valid := by
  rw [Date.tomorrow]
  split
  · next hday => exact { h with one_le_day := Nat.le_add_left 1 _, day_le := hday }
  · split
    · next hmonth =>
      exact ⟨Nat.le_add_left 1 _, hmonth, le_rfl, monthLength_pos _⟩
    · exact firstOfYear _

end Valid

theorem dayOfYear_firstOfYear (y : ℤ) : (Date.mk y 1 1).dayOfYear = 1 := rfl

theorem dayOfYear_lastOfYear (y : ℤ) : (Date.mk y 12 31).dayOfYear = yearLength (isLeap y) :=
  daysBeforeMonth_twelve _

theorem ofDayNumber_dayNumber (h : d.Valid) : ofDayNumber d.dayNumber = d := by
  have hone := h.one_le_dayOfYear
  have hle := h.dayOfYear_le
  have hdays : d.dayNumber + epoch = daysBeforeYear d.year + (d.dayOfYear - 1 : ℕ) := by
    rw [dayNumber]
    omega
  have hyear : yearOf (daysBeforeYear d.year + (d.dayOfYear - 1 : ℕ)) = d.year := by
    refine yearOf_eq (by omega) ?_
    rw [daysBeforeYear_succ]
    omega
  have hrest : d.dayOfYear - 1 =
      ((monthLengths (isLeap d.year)).take (d.month - 1)).sum + (d.day - 1) := by
    rw [dayOfYear, daysBeforeMonth_eq, Nat.add_sub_assoc h.one_le_day]
  have hmonth := monthAndDay_eq (m := 1) (k := d.day - 1)
    (getElem?_monthLengths (isLeap d.year) h.one_le_month h.month_le)
    (Nat.sub_one_lt_of_le h.one_le_day h.day_le)
  rw [ofDayNumber]
  simp only [hdays, hyear, add_sub_cancel_left, Int.toNat_natCast]
  rw [hrest, hmonth, Nat.add_sub_cancel' h.one_le_month, Nat.sub_add_cancel h.one_le_day]

/-- The date of a number of days is a date of the calendar, with that number. -/
theorem ofDayNumber_spec (n : ℤ) : (ofDayNumber n).Valid ∧ (ofDayNumber n).dayNumber = n := by
  obtain ⟨hl, hh⟩ := yearOf_spec (n + epoch)
  rw [ofDayNumber]
  dsimp only
  generalize yearOf (n + epoch) = year at hl hh ⊢
  obtain ⟨k, hk⟩ := Int.eq_ofNat_of_zero_le (sub_nonneg.2 hl)
  have hlt : k < (monthLengths (isLeap year)).sum := by
    rw [daysBeforeYear_succ] at hh
    rw [sum_monthLengths]
    omega
  obtain ⟨i, j, heq, ⟨length, hlength, hj⟩, hsum⟩ := monthAndDay_spec (m := 1) hlt
  have hi : i < 12 := (List.getElem?_eq_some_iff.1 hlength).1
  have hthis := getElem?_monthLengths (isLeap year) (m := 1 + i) (by omega) (by omega)
  rw [Nat.add_sub_cancel_left, hlength, Option.some.injEq] at hthis
  rw [hk, Int.toNat_natCast, heq]
  refine ⟨⟨Nat.le_add_right 1 i, Nat.add_le_of_le_sub' (by decide) (Nat.le_of_lt_succ hi),
    Nat.le_add_left 1 j, hthis ▸ hj⟩, ?_⟩
  have hyear : (Date.mk year (1 + i) (j + 1)).dayOfYear = k + 1 := by
    rw [dayOfYear, daysBeforeMonth_eq, Nat.add_sub_cancel_left, ← hsum, Nat.add_assoc]
  rw [dayNumber, hyear]
  change daysBeforeYear year + _ - 1 - epoch = n
  omega

theorem dayNumber_tomorrow (h : d.Valid) : d.tomorrow.dayNumber = d.dayNumber + 1 := by
  have hday := h.day_le
  have hmonth := h.month_le
  rw [tomorrow]
  split
  · simp only [dayNumber, dayOfYear]
    omega
  · have hlast : d.day = monthLength (isLeap d.year) d.month := by omega
    split
    · simp only [dayNumber, dayOfYear, daysBeforeMonth_succ _ h.one_le_month h.month_le, hlast]
      omega
    · have hdecember : d.month = 12 := by omega
      have hyear := daysBeforeMonth_twelve (isLeap d.year)
      have hlength : monthLength (isLeap d.year) 12 = 31 := rfl
      simp only [dayNumber, dayOfYear, daysBeforeYear_succ, daysBeforeMonth_one, hlast, hdecember,
        hlength]
      omega

theorem ofDayNumber_succ (n : ℤ) : ofDayNumber (n + 1) = (ofDayNumber n).tomorrow := by
  obtain ⟨hvalid, hnumber⟩ := ofDayNumber_spec n
  rw [← ofDayNumber_dayNumber hvalid.tomorrow, dayNumber_tomorrow hvalid, hnumber]

theorem AfterEpoch.valid_dayNumber (h : AfterEpoch n d) : d.Valid ∧ d.dayNumber = n := by
  induction h with
  | epoch => exact ⟨⟨by decide, by decide, by decide, by decide⟩, by decide⟩
  | next _ ih => exact ⟨ih.1.tomorrow, (dayNumber_tomorrow ih.1).trans (by rw [ih.2])⟩
  | previous hd _ ih =>
      rw [dayNumber_tomorrow hd] at ih
      exact ⟨hd, by omega⟩

theorem afterEpoch_ofDayNumber (n : ℤ) : AfterEpoch n (ofDayNumber n) := by
  -- Away from the first day of 1970 in both directions, one day at a time.
  induction n with
  | zero => exact .epoch
  | succ n ih =>
      rw [ofDayNumber_succ]
      exact ih.next
  | pred n ih =>
      refine .previous (ofDayNumber_spec _).1 ?_
      rwa [← ofDayNumber_succ, sub_add_cancel]

/-- The number of days of a date counts the steps to it from the first day of 1970 on. -/
theorem afterEpoch_iff : AfterEpoch n d ↔ d.Valid ∧ d.dayNumber = n := by
  refine ⟨AfterEpoch.valid_dayNumber, ?_⟩
  rintro ⟨hd, rfl⟩
  have h := afterEpoch_ofDayNumber d.dayNumber
  rwa [ofDayNumber_dayNumber hd] at h

theorem AfterEpoch.unique (h : AfterEpoch n d) (h' : AfterEpoch n d') : d = d' := by
  obtain ⟨hd, rfl⟩ := afterEpoch_iff.1 h
  obtain ⟨hd', heq⟩ := afterEpoch_iff.1 h'
  rw [← ofDayNumber_dayNumber hd, ← heq, ofDayNumber_dayNumber hd']

/-- The years of the calendar are a span of days. -/
theorem isYear_ofDayNumber (n : ℤ) :
    isYear (ofDayNumber n).year = true ↔ -96465292 ≤ n ∧ n ≤ 95026236 := by
  have hyear : (ofDayNumber n).year = yearOf (n + epoch) := rfl
  have hl : daysBeforeYear firstYear = -95746130 := by decide
  have hh : daysBeforeYear (lastYear + 1) = 95745399 := by decide
  have hfirst := le_yearOf_iff (y := firstYear) (n := n + epoch)
  have hlast := le_yearOf_iff (y := lastYear + 1) (n := n + epoch)
  rw [hl] at hfirst
  rw [hh] at hlast
  simp only [isYear, hyear, Bool.and_eq_true, decide_eq_true_eq, epoch] at *
  omega

end Date

/-! ## Seconds -/

namespace Moment

variable {m : Moment} {n : ℤ}

/-- The second is one of a day whose year is in the calendar. -/
def InCalendar (n : ℤ) : Prop := ∃ d, Date.AfterEpoch (n / daySeconds) d ∧ Date.isYear d.year = true

/-- The moment is the one that comes `n` seconds after the start of 1970. -/
structure At (n : ℤ) (m : Moment) : Prop where
  date : Date.AfterEpoch (n / daySeconds) m.date
  hour_lt : m.hour < 24
  minute_lt : m.minute < 60
  second_lt : m.second < 60
  time : (m.hour * 3600 + m.minute * 60 + m.second : ℤ) = n % daySeconds

theorem inCalendar_iff_isYear :
    InCalendar n ↔ Date.isYear (Date.ofDayNumber (n / daySeconds)).year = true := by
  refine ⟨?_, fun h ↦ ⟨_, Date.afterEpoch_ofDayNumber _, h⟩⟩
  rintro ⟨d, hd, hyear⟩
  rwa [(Date.afterEpoch_ofDayNumber _).unique hd]

/-- The first and the last second of the calendar. -/
theorem inCalendar_iff : InCalendar n ↔ -8334601228800 ≤ n ∧ n ≤ 8210266876799 := by
  rw [inCalendar_iff_isYear, Date.isYear_ofDayNumber, daySeconds]
  omega

theorem At.seconds (h : m.At n) : m.seconds = n := by
  have hday := (Date.afterEpoch_iff.1 h.date).2
  have htime := h.time
  rw [Moment.seconds, hday]
  simp only [daySeconds] at *
  omega

/-- Within the calendar every second has its moment, and outside none has one. -/
theorem ofSeconds?_spec (n : ℤ) :
    (InCalendar n → ∃ m, ofSeconds? n = some m ∧ m.At n) ∧ (¬InCalendar n → ofSeconds? n = none) := by
  rw [ofSeconds?, inCalendar_iff_isYear]
  refine ⟨fun h ↦ ⟨_, if_pos h, Date.afterEpoch_ofDayNumber _, ?_, ?_, ?_, ?_⟩, fun h ↦ if_neg h⟩
  all_goals
    simp only [daySeconds]
    omega

end Moment

end LuaEmbed
