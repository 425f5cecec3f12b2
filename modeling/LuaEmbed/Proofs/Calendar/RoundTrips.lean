import LuaEmbed.Proofs.Calendar.Instants

/-!
# Date tables of instants

The date table of a number of seconds within the calendar, local or universal, has its parts in the
ranges of the calendar, and the number of seconds is read back from it.
-/

namespace LuaEmbed

open Library
open Number (HasValue)

/-! ## The fields of a date table -/

/-- What a date table of the library shows. -/
structure DateFields where
  date : Date
  hour : ℕ
  minute : ℕ
  second : ℕ
  weekday : ℕ
  dayOfYear : ℕ

namespace DateFields

/-- The field of the table is a number with the value. -/
def IsField (m : Machine) (r : Ref) (name : String) (z : ℤ) : Prop :=
  ∃ f, m.fieldOf r name = .number f ∧ HasValue f z

/-- The table shows the fields, and no daylight saving time. -/
structure ShownBy (x : DateFields) (m : Machine) (r : Ref) : Prop where
  year : IsField m r "year" x.date.year
  month : IsField m r "month" x.date.month
  day : IsField m r "day" x.date.day
  hour : IsField m r "hour" x.hour
  minute : IsField m r "min" x.minute
  second : IsField m r "sec" x.second
  weekday : IsField m r "wday" x.weekday
  dayOfYear : IsField m r "yday" x.dayOfYear
  isdst : m.fieldOf r "isdst" = .boolean false

/-- The fields of the instant `n` seconds after the start of 1970, which was a Thursday.  Days of the
week are counted from Sunday on, and days of the year from the first of January on. -/
structure Describes (x : DateFields) (n : ℤ) : Prop where
  date : Date.AfterEpoch (n / 86400) x.date
  time : (x.hour * 3600 + x.minute * 60 + x.second : ℤ) = n % 86400
  month_mem : 1 ≤ x.date.month ∧ x.date.month ≤ 12
  day_mem : 1 ≤ x.date.day ∧ x.date.day ≤ Date.monthLength (Date.isLeap x.date.year) x.date.month
  hour_lt : x.hour < 24
  minute_lt : x.minute < 60
  second_lt : x.second < 60
  weekday_mem : 1 ≤ x.weekday ∧ x.weekday ≤ 7
  weekday_eq : (x.weekday : ℤ) = (n / 86400 + 4) % 7 + 1
  dayOfYear_eq : ∀ k, Date.AfterEpoch k ⟨x.date.year, 1, 1⟩ → (x.dayOfYear : ℤ) = n / 86400 - k + 1
  dayOfYear_first : x.date = ⟨x.date.year, 1, 1⟩ → x.dayOfYear = 1
  dayOfYear_last : x.date = ⟨x.date.year, 12, 31⟩ →
    x.dayOfYear = if 4 ∣ x.date.year ∧ (100 ∣ x.date.year → 400 ∣ x.date.year) then 366 else 365

/-- The fields of a moment. -/
def ofMoment (m : Moment) : DateFields :=
  ⟨m.date, m.hour, m.minute, m.second, m.date.weekday + 1, m.date.dayOfYear⟩

variable {x x' : DateFields} {n : ℤ}

theorem describes_ofMoment {m : Moment} (h : m.At n) : (ofMoment m).Describes n := by
  obtain ⟨hvalid, hdays⟩ := Date.afterEpoch_iff.1 h.date
  have hweekday : (ofMoment m).weekday = ((n / 86400 + 4) % 7).toNat + 1 := by
    rw [← Moment.daySeconds, ← hdays]
    rfl
  refine ⟨h.date, h.time, ⟨hvalid.one_le_month, hvalid.month_le⟩,
    ⟨hvalid.one_le_day, hvalid.day_le⟩, h.hour_lt, h.minute_lt, h.second_lt, by omega, by omega,
    fun k hk ↦ ?_, fun hdate ↦ ?_, fun hdate ↦ ?_⟩
  · rw [← Moment.daySeconds, ← hdays, ← (Date.afterEpoch_iff.1 hk).2]
    simp only [ofMoment, Date.dayNumber, Date.dayOfYear, Date.daysBeforeMonth_one]
    omega
  · exact (congrArg Date.dayOfYear hdate).trans (Date.dayOfYear_firstOfYear _)
  · refine (congrArg Date.dayOfYear hdate).trans ?_
    rw [Date.dayOfYear_lastOfYear, Date.yearLength]
    simp only [Date.isLeap_iff]

namespace Describes

/-- A day later it is the next day of the week. -/
theorem weekday_next (h : x.Describes n) (h' : x'.Describes (n + 86400)) :
    x'.weekday = x.weekday % 7 + 1 := by
  have hthis := h.weekday_eq
  have hnext := h'.weekday_eq
  omega

/-- A day later in the same year it is the next day of the year. -/
theorem dayOfYear_next (h : x.Describes n) (h' : x'.Describes (n + 86400))
    (hyear : x'.date.year = x.date.year) : x'.dayOfYear = x.dayOfYear + 1 := by
  have hfirst := Date.afterEpoch_iff.2 ⟨Date.Valid.firstOfYear x.date.year, rfl⟩
  have hthis := h.dayOfYear_eq _ hfirst
  rw [← hyear] at hfirst hthis
  have hnext := h'.dayOfYear_eq _ hfirst
  omega

end Describes

end DateFields

/-! ## Parts of moments -/

section Moments

variable {x : Moment} {n : ℤ}

/-- The parts of the moments of the calendar are small. -/
structure Moment.Small (x : Moment) : Prop where
  year : -262143 ≤ x.date.year ∧ x.date.year ≤ 262142
  month : 1 ≤ x.date.month ∧ x.date.month ≤ 12
  day : 1 ≤ x.date.day ∧ x.date.day ≤ 31
  hour : x.hour < 24
  minute : x.minute < 60
  second : x.second < 60
  dayOfYear : x.date.dayOfYear ≤ 366

theorem Moment.At.small (h : x.At n) (hn : InCalendar n) : x.Small := by
  obtain ⟨hvalid, -⟩ := Date.afterEpoch_iff.1 h.date
  obtain ⟨d, hd, hyear⟩ := hn
  rw [← h.date.unique hd, Date.isYear, Bool.and_eq_true, decide_eq_true_eq,
    decide_eq_true_eq] at hyear
  have hlength : Date.yearLength (Date.isLeap x.date.year) ≤ 366 := by
    cases Date.isLeap x.date.year <;> decide
  exact ⟨hyear, ⟨hvalid.one_le_month, hvalid.month_le⟩,
    ⟨hvalid.one_le_day, hvalid.day_le.trans (Date.monthLength_le _)⟩, h.hour_lt, h.minute_lt,
    h.second_lt, hvalid.dayOfYear_le.trans hlength⟩

/-- The parts of a moment. -/
def DateParts.ofMoment (x : Moment) : DateParts :=
  ⟨x.date.year, x.date.month, x.date.day, x.hour, x.minute, x.second⟩

namespace DateParts

theorem firstOfMonth_ofMoment (h : x.At n) :
    (ofMoment x).firstOfMonth = ⟨x.date.year, x.date.month, 1⟩ := by
  obtain ⟨hmonth, hmonth', -, -⟩ := (Date.afterEpoch_iff.1 h.date).1
  simp only [firstOfMonth, ofMoment, Date.mk.injEq]
  exact ⟨by omega, by omega, trivial⟩

theorem instant_ofMoment (h : x.At n) : (ofMoment x).Instant n := by
  obtain ⟨hvalid, hdays⟩ := Date.afterEpoch_iff.1 h.date
  have hday := hvalid.one_le_day
  have htime := h.time
  rw [instant_iff, firstOfMonth_ofMoment h]
  simp only [Date.dayNumber, Date.dayOfYear, dateSpan, timeSpan, ofMoment, Moment.daySeconds] at *
  omega

theorem fits_ofMoment (h : x.At n) (hn : Moment.InCalendar n) : (ofMoment x).Fits := by
  obtain ⟨hyear, hmonth, hday, hhour, hminute, hsecond, -⟩ := h.small hn
  have hfirst : Number.IsInt64 (ofMoment x).firstOfMonth.year := by
    rw [firstOfMonth_ofMoment h]
    exact .of_natAbs_lt (n := x.date.year) (by omega)
  refine ⟨?_, hfirst, fun _ ↦ ?_, fun _ _ ↦ ⟨?_, ?_, ?_, ?_⟩⟩ <;>
    refine .of_natAbs_lt ?_ <;> simp only [timeSpan, ofMoment] <;> omega

theorem inRange_ofMoment (h : x.At n) (hn : Moment.InCalendar n) :
    (ofMoment x).InRange n := by
  obtain ⟨hyear, hmonth, hday, hhour, hminute, hsecond, -⟩ := h.small hn
  have hcalendar : Date.isYear x.date.year = true := by
    rwa [Date.isYear, Bool.and_eq_true, decide_eq_true_eq, decide_eq_true_eq]
  refine ⟨by rwa [firstOfMonth_ofMoment h], ?_, ?_, ?_, hn⟩ <;>
    simp only [IsSpan, System.maxSpan, dateSpan, timeSpan, ofMoment] <;> omega

end DateParts

end Moments

/-! ## Tables of moments -/

section Tables

variable {x : Moment} {n : ℤ}

/-- The session with the date table of a moment. -/
def Session.withDate (s : Session) (x : Moment) : Session where
  machine := { s.machine.addTable with
    tables := s.machine.addTable.tables.modify s.machine.tables.size fun t ↦
      (System.dateFields x).foldl (fun t (k, v) ↦ t.setStr k v) t }
  world := s.world

theorem Session.fieldOf_withDate (s : Session) (x : Moment) (name : String) :
    (s.withDate x).machine.fieldOf s.machine.tables.size name =
      ((System.dateFields x).reverse.lookup name).getD .nil := by
  simp only [withDate, Machine.fieldOf, Machine.addTable, Array.getElem?_modify,
    Array.getElem?_push_size, if_true, Option.map_some, Option.getD_some,
    Table.getStr_foldl_setStr, Table.getStr_empty]

theorem shownBy_withDate (h : x.At n) (hn : Moment.InCalendar n) (s : Session) :
    (DateFields.ofMoment x).ShownBy (s.withDate x).machine s.machine.tables.size := by
  obtain ⟨hyear, hmonth, hday, hhour, hminute, hsecond, hdayOfYear⟩ := h.small hn
  have hfield {name : String} {z : ℤ} (hz : z.natAbs < 2 ^ 53)
      (hthis : (System.dateFields x).reverse.lookup name = some (.number (Number.ofInt z))) :
      DateFields.IsField (s.withDate x).machine s.machine.tables.size name z := by
    refine ⟨_, ?_, Number.hasValue_ofInt_of_lt hz⟩
    rw [Session.fieldOf_withDate, hthis]
    rfl
  have hweekday : x.date.weekday < 7 := by
    rw [Date.weekday]
    omega
  refine ⟨?_, ?_, ?_, ?_, ?_, ?_, ?_, ?_, ?_⟩
  case refine_9 =>
    rw [Session.fieldOf_withDate]
    rfl
  all_goals
    refine hfield ?_ rfl
    simp only [DateFields.ofMoment]
    omega

theorem isDateTable_withDate (h : x.At n) (hn : Moment.InCalendar n) (s : Session) :
    IsDateTable (s.withDate x).machine s.machine.tables.size (.ofMoment x) := by
  have hshown := shownBy_withDate h hn s
  obtain ⟨hyear, hmonth, hday, hhour, hminute, hsecond, -⟩ := h.small hn
  have hpart {name : String} {default : Option ℤ} {z : ℤ}
      (hfield : DateFields.IsField (s.withDate x).machine s.machine.tables.size name z)
      (hz : z.natAbs < 2 ^ 53) :
      HasPart (s.withDate x).machine s.machine.tables.size name default z := by
    obtain ⟨f, hf, hvalue⟩ := hfield
    exact .of_hasValue hf hvalue (.of_natAbs_lt hz)
  refine ⟨hpart hshown.year ?_, hpart hshown.month ?_, hpart hshown.day ?_, hpart hshown.hour ?_,
    hpart hshown.minute ?_, hpart hshown.second ?_⟩ <;>
    simp only [DateParts.ofMoment] <;> omega

end Tables

/-! ## Dates and their times -/

namespace Library.System

variable {x : Moment} {n : ℤ} {f : Float} {layout : String}

theorem render_table (x : Moment) (zone : Calendar.Zone) (s : Session) :
    render x zone "*t" s = .ok (.table s.machine.tables.size) (s.withDate x) := by
  have hlayout : "*t".startsWith "*t" = true := by simp
  rw [render, if_pos hlayout]
  rfl

/-- Both layouts of a date table give it, as the local time zone is universal time. -/
theorem date_table (hf : HasValue f n) (hn : Number.IsInt64 n) (hx : Moment.ofSeconds? n = some x)
    (hlayout : layout = "*t" ∨ layout = "!*t") (s : Session) :
    date [.string layout, .number f] s =
      .ok [.table s.machine.tables.size] (s.withDate x) := by
  have hseconds : Number.toInt64 f = n := by
    rw [hf.toInt64_eq, Number.clamp_of_mem hn.1 hn.2]
  have hread : Arguments.opt [.string layout, .number f] .string 1 "%c" = pure layout := rfl
  have hnumber : Arguments.opt? [.string layout, .number f] .number 2 = pure (some f) := rfl
  rw [date, hread, pure_bind, hnumber, pure_bind]
  dsimp only
  rw [pure_bind, hseconds, hx]
  rcases hlayout with rfl | rfl
  · exact Run.bind_of_ok (render_table x .local_ s)
  · exact Run.bind_of_ok (render_table x .universal s)

/-- For every number of seconds within the calendar both layouts of a date table give the same table,
which describes the instant, and its time is the number of seconds again.  A day later it is the next
day of the week, and in the same year the next day of the year. -/
theorem date_time_round_trip (n : ℤ) (f : Float) (hn : Moment.InCalendar n) (hf : HasValue f n)
    (s : Session) :
    ∃ (x : DateFields) (r : Ref) (s' : Session),
      date [.string "*t", .number f] s = .ok [.table r] s' ∧
      date [.string "!*t", .number f] s = .ok [.table r] s' ∧
      x.ShownBy s'.machine r ∧ x.Describes n ∧
      (∀ x' : DateFields, x'.Describes (n + 86400) → x'.weekday = x.weekday % 7 + 1 ∧
        (x'.date.year = x.date.year → x'.dayOfYear = x.dayOfYear + 1)) ∧
      ∃ g, time [.table r] s' = .ok [.number g] s' ∧ HasValue g n := by
  obtain ⟨x, hx, hat⟩ := (Moment.ofSeconds?_spec n).1 hn
  obtain ⟨hl, hh⟩ := Moment.inCalendar_iff.1 hn
  have hint : Number.IsInt64 n := .of_natAbs_lt (by omega)
  have hdescribes := DateFields.describes_ofMoment hat
  refine ⟨_, _, _, date_table hf hint hx (.inl rfl) s, date_table hf hint hx (.inr rfl) s,
    shownBy_withDate hat hn s, hdescribes, fun x' h' ↦ ⟨?_, ?_⟩, ?_⟩
  · exact hdescribes.weekday_next h'
  · exact hdescribes.dayOfYear_next h'
  · exact time_of_inRange (isDateTable_withDate hat hn s) (DateParts.fits_ofMoment hat hn)
      (DateParts.instant_ofMoment hat) (DateParts.inRange_ofMoment hat hn)

/-- The last second of a leap day that ends a century. -/
theorem date_time_round_trip_leap_day :
    let n : ℤ := 951868799
    let f := Number.ofInt n
    let s : Session := ⟨Machine.initial 200, World.initial⟩
    Moment.InCalendar n ∧ HasValue f n ∧
      ∃ r s', date [.string "*t", .number f] s = .ok [.table r] s' ∧
        DateFields.ShownBy ⟨⟨2000, 2, 29⟩, 23, 59, 59, 3, 60⟩ s'.machine r ∧
        ∃ g, time [.table r] s' = .ok [.number g] s' ∧ HasValue g n := by
  intro n f s
  have hn : Moment.InCalendar n := Moment.inCalendar_iff.2 (by decide)
  have hf : HasValue f n := Number.hasValue_ofInt_of_lt (by decide)
  obtain ⟨x, r, s', hdate, -, hshown, hx, -, htime⟩ := date_time_round_trip n f hn hf s
  have hday : Date.AfterEpoch (n / 86400) ⟨2000, 2, 29⟩ :=
    Date.afterEpoch_iff.2 ⟨⟨by decide, by decide, by decide, by decide⟩, by decide⟩
  have hnewYear : Date.AfterEpoch 10957 ⟨2000, 1, 1⟩ :=
    Date.afterEpoch_iff.2 ⟨Date.Valid.firstOfYear 2000, by decide⟩
  have hfields : x = ⟨⟨2000, 2, 29⟩, 23, 59, 59, 3, 60⟩ := by
    have hdayOfYear := hx.dayOfYear_eq 10957
    obtain ⟨date, hour, minute, second, weekday, dayOfYear⟩ := x
    obtain rfl : date = ⟨2000, 2, 29⟩ := hx.date.unique hday
    have hclock := hx.time
    have hhour := hx.hour_lt
    have hminute := hx.minute_lt
    have hsecond := hx.second_lt
    have hweekday := hx.weekday_eq
    have hcount := hdayOfYear hnewYear
    simp only [DateFields.mk.injEq, true_and, n] at *
    omega
  rw [hfields] at hshown
  exact ⟨hn, hf, r, s', hdate, hshown, htime⟩

end Library.System

end LuaEmbed
