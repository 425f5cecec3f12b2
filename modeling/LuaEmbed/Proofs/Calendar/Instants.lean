import LuaEmbed.Proofs.Calendar.Days
import LuaEmbed.Proofs.Host.Arguments
import LuaEmbed.Proofs.Host.Fields
import LuaEmbed.Proofs.Numbers.Checked
import LuaEmbed.Proofs.Numbers.Integers

/-!
# Instants of date tables

A date table gives a year, a month and a day, and a time of day; each part may be out of its range
and is carried over then.  The time of such a table is the exact number of seconds from the start of
1970 to the instant that it denotes, or `nil` where the calendar does not reach.  This holds as long
as every sum and product that is formed on the way fits into a word of 64 bits, which only the parts
of the date are checked for.
-/

namespace LuaEmbed

/-- The integer is one of 64 bits. -/
def Number.IsInt64 (n : ℤ) : Prop := int64Min ≤ n ∧ n ≤ int64Max

instance (n : ℤ) : Decidable (Number.IsInt64 n) := inferInstanceAs (Decidable (_ ∧ _))

theorem Number.IsInt64.of_natAbs_lt {n : ℤ} (h : n.natAbs < 2 ^ 53) : IsInt64 n := by
  simp only [IsInt64, int64Min, int64Max]
  omega

open Library
open Number (HasValue IsInt64)

/-! ## Dates and times of day with parts out of range -/

/-- A date and a time of day, each part of which may be out of its range. -/
structure DateParts where
  year : ℤ
  month : ℤ
  day : ℤ
  hour : ℤ
  minute : ℤ
  second : ℤ

namespace DateParts

/-- The first day of the month, where months are carried into years. -/
def firstOfMonth (p : DateParts) : Date :=
  ⟨p.year + (p.month - 1) / 12, ((p.month - 1) % 12 + 1).toNat, 1⟩

/-- The seconds from the first day of the month to the day. -/
def dateSpan (p : DateParts) : ℤ := (p.day - 1) * 86400

/-- The seconds from the start of the day. -/
def timeSpan (p : DateParts) : ℤ := p.hour * 3600 + p.minute * 60 + p.second

/-- The instant of the parts is `n` seconds after the start of 1970. -/
def Instant (p : DateParts) (n : ℤ) : Prop :=
  ∃ days, Date.AfterEpoch days p.firstOfMonth ∧ n = days * 86400 + p.dateSpan + p.timeSpan

/-- A number of seconds that a span of time may have. -/
def IsSpan (n : ℤ) : Prop := -System.maxSpan ≤ n ∧ n ≤ System.maxSpan

instance (n : ℤ) : Decidable (IsSpan n) := inferInstanceAs (Decidable (_ ∧ _))

/-- Every step to the instant is in the range of the calendar: the year, the spans of time from its
month on, and the instant itself. -/
structure InRange (p : DateParts) (n : ℤ) : Prop where
  year : Date.isYear p.firstOfMonth.year = true
  dateSpan : IsSpan p.dateSpan
  timeSpan : IsSpan p.timeSpan
  span : IsSpan (p.dateSpan + p.timeSpan)
  instant : Moment.InCalendar n

/-- Every product and sum that is formed of the time of day is an integer of 64 bits. -/
structure TimeFits (p : DateParts) : Prop where
  hours : IsInt64 (p.hour * 3600)
  minutes : IsInt64 (p.minute * 60)
  hoursMinutes : IsInt64 (p.hour * 3600 + p.minute * 60)
  seconds : IsInt64 p.timeSpan

/-- Every difference, sum and product that is formed is an integer of 64 bits.  The day is looked at
only after a year of the calendar, and the time of day only after a day that is not too far away. -/
structure Fits (p : DateParts) : Prop where
  month : IsInt64 (p.month - 1)
  year : IsInt64 p.firstOfMonth.year
  day : Date.isYear p.firstOfMonth.year = true → IsInt64 (p.day - 1)
  time : Date.isYear p.firstOfMonth.year = true → IsSpan p.dateSpan → p.TimeFits

/-- The number of seconds since the start of 1970 that two spans of time after the start of a date
lead to, the first of which is known to be one. -/
def reach? (first : Date) (days time : ℤ) : Option ℤ := do
  let time ← System.span? time
  let total := first.dayNumber * 86400 + (← System.span? (days + time))
  (← Moment.ofSeconds? total).seconds

/-- The number of seconds since the start of 1970, computed without words. -/
def seconds? (p : DateParts) : Option ℤ :=
  if Date.isYear p.firstOfMonth.year then
    (System.span? p.dateSpan).bind fun days ↦ reach? p.firstOfMonth days p.timeSpan
  else none

end DateParts

/-! ## Checks -/

namespace Checked

variable (code : Int)

/-- The seconds from the start of the day. -/
def timeSpan (p : DateParts) : Run ℤ := do
  let hours ← signed code (p.hour * 3600)
  let minutes ← signed code (p.minute * 60)
  signed code ((← signed code (hours + minutes)) + p.second)

/-- The number of seconds since the start of 1970 of a date and a time of day. -/
def timestamp? (p : DateParts) : Run (Option ℤ) := do
  let months ← signed code (p.month - 1)
  let year ← signed code (p.year + months / 12)
  if !Date.isYear year then return none
  let first : Date := ⟨year, (months % 12 + 1).toNat, 1⟩
  match System.span? ((← signed code (p.day - 1)) * 86400) with
  | none => return none
  | some days => return DateParts.reach? first days (← timeSpan code p)

/-- `os.time(table)`. -/
def time (args : Arguments) : Run (List Value) := do
  match ← args.opt? .table 1 with
  | none => return [.number (Number.ofInt (← System.look World.now))]
  | some t =>
    let year ← System.dateField t "year" none
    let month ← System.dateField t "month" none
    let day ← System.dateField t "day" none
    let hour ← System.dateField t "hour" (some 12)
    let minute ← System.dateField t "min" (some 0)
    let second ← System.dateField t "sec" (some 0)
    match ← timestamp? code ⟨year, month, day, hour, minute, second⟩ with
    | some n => return [.number (Number.ofInt n)]
    | none => return [.nil]

end Checked

/-! ## The instant -/

namespace DateParts

variable {p : DateParts} {n : ℤ}

theorem span?_of_isSpan (h : IsSpan n) : System.span? n = some n :=
  if_pos (by simpa [IsSpan] using h)

theorem span?_of_not_isSpan (h : ¬IsSpan n) : System.span? n = none :=
  if_neg (by simpa [IsSpan] using h)

theorem valid_firstOfMonth (p : DateParts) : p.firstOfMonth.Valid := by
  refine ⟨?_, ?_, le_rfl, Date.monthLength_pos _⟩ <;> simp only [firstOfMonth] <;> omega

theorem instant_iff : p.Instant n ↔
    n = p.firstOfMonth.dayNumber * 86400 + p.dateSpan + p.timeSpan := by
  constructor
  · rintro ⟨days, hdays, rfl⟩
    rw [(Date.afterEpoch_iff.1 hdays).2]
  · rintro rfl
    exact ⟨_, Date.afterEpoch_iff.2 ⟨p.valid_firstOfMonth, rfl⟩, rfl⟩

theorem seconds?_of_not_isYear (h : ¬Date.isYear p.firstOfMonth.year = true) :
    p.seconds? = none := if_neg h

theorem seconds?_of_not_isSpan (h : ¬IsSpan p.dateSpan) : p.seconds? = none := by
  rw [seconds?, span?_of_not_isSpan h, Option.bind_none, ite_self]

theorem seconds?_of_isSpan (hyear : Date.isYear p.firstOfMonth.year = true)
    (hdate : IsSpan p.dateSpan) : p.seconds? = reach? p.firstOfMonth p.dateSpan p.timeSpan := by
  rw [seconds?, if_pos hyear, span?_of_isSpan hdate, Option.bind_some]

theorem seconds?_of_inRange (hn : p.Instant n) (h : p.InRange n) : p.seconds? = some n := by
  obtain ⟨m, hm, hat⟩ := (Moment.ofSeconds?_spec n).1 h.instant
  have htotal : p.firstOfMonth.dayNumber * 86400 + (p.dateSpan + p.timeSpan) = n := by
    rw [instant_iff.1 hn, add_assoc]
  simp [seconds?_of_isSpan h.year h.dateSpan, reach?, span?_of_isSpan, h.timeSpan, h.span, htotal,
    hm, hat.seconds]

theorem timestamp?_eq (h : p.Fits) :
    System.timestamp? p.year p.month p.day p.hour p.minute p.second = p.seconds? := by
  have hmonth := Number.wrap64_of_mem h.month.1 h.month.2
  have hyear : Number.wrap64 (p.year + (p.month - 1) / 12) = p.firstOfMonth.year :=
    Number.wrap64_of_mem h.year.1 h.year.2
  by_cases hcalendar : Date.isYear p.firstOfMonth.year = true
  case neg =>
    rw [seconds?_of_not_isYear hcalendar]
    simp [System.timestamp?, hmonth, hyear, hcalendar]
  have hday : Number.wrap64 (p.day - 1) * 86400 = p.dateSpan :=
    congrArg (· * 86400) (Number.wrap64_of_mem (h.day hcalendar).1 (h.day hcalendar).2)
  by_cases hdate : IsSpan p.dateSpan
  case neg =>
    rw [seconds?_of_not_isSpan hdate]
    simp [System.timestamp?, hmonth, hyear, hday, span?_of_not_isSpan hdate]
  obtain ⟨hhours, hminutes, hboth, hseconds⟩ := h.time hcalendar hdate
  have htime : Number.wrap64 (p.hour * 3600 + p.minute * 60 + p.second) = p.timeSpan :=
    Number.wrap64_of_mem hseconds.1 hseconds.2
  rw [seconds?_of_isSpan hcalendar hdate]
  simp only [System.timestamp?, hmonth, hyear, hday, hcalendar, span?_of_isSpan hdate,
    Number.wrap64_of_mem hhours.1 hhours.2, Number.wrap64_of_mem hminutes.1 hminutes.2,
    Number.wrap64_of_mem hboth.1 hboth.2, htime]
  rfl

end DateParts

namespace Checked

variable {p : DateParts} {code : Int} {n : ℤ}

theorem signed_of_isInt64 (h : IsInt64 n) : signed code n = pure n := signed_of_mem h.1 h.2

theorem signed_of_not_isInt64 (h : ¬IsInt64 n) : signed code n = throw (.exit code) := if_neg h

open Classical in
theorem timeSpan_eq (p : DateParts) :
    timeSpan code p = if p.TimeFits then pure p.timeSpan else throw (.exit code) := by
  by_cases hhours : IsInt64 (p.hour * 3600)
  case neg =>
    rw [if_neg fun h ↦ hhours h.hours, timeSpan, signed_of_not_isInt64 hhours]
    rfl
  by_cases hminutes : IsInt64 (p.minute * 60)
  case neg =>
    rw [if_neg fun h ↦ hminutes h.minutes, timeSpan, signed_of_isInt64 hhours, pure_bind,
      signed_of_not_isInt64 hminutes]
    rfl
  rw [timeSpan, signed_of_isInt64 hhours, pure_bind, signed_of_isInt64 hminutes, pure_bind]
  by_cases hboth : IsInt64 (p.hour * 3600 + p.minute * 60)
  case neg =>
    rw [if_neg fun h ↦ hboth h.hoursMinutes, signed_of_not_isInt64 hboth]
    rfl
  rw [signed_of_isInt64 hboth, pure_bind]
  change signed code p.timeSpan = _
  by_cases hseconds : IsInt64 p.timeSpan
  case neg => rw [if_neg fun h ↦ hseconds h.seconds, signed_of_not_isInt64 hseconds]
  rw [if_pos ⟨hhours, hminutes, hboth, hseconds⟩, signed_of_isInt64 hseconds]

open Classical in
/-- The checks pass exactly if everything that is formed fits. -/
theorem timestamp?_eq (p : DateParts) :
    timestamp? code p = if p.Fits then pure p.seconds? else throw (.exit code) := by
  -- One case for every check on the way, in the order in which they are made: what comes behind a
  -- check that fails is not looked at.
  by_cases hmonth : IsInt64 (p.month - 1)
  case neg =>
    rw [if_neg fun h ↦ hmonth h.month, timestamp?, signed_of_not_isInt64 hmonth]
    rfl
  rw [timestamp?, signed_of_isInt64 hmonth, pure_bind]
  change (signed code p.firstOfMonth.year >>= _) = _
  by_cases hyear : IsInt64 p.firstOfMonth.year
  case neg =>
    rw [if_neg fun h ↦ hyear h.year, signed_of_not_isInt64 hyear]
    rfl
  rw [signed_of_isInt64 hyear, pure_bind]
  by_cases hcalendar : Date.isYear p.firstOfMonth.year = true
  case neg =>
    have hfits : p.Fits :=
      ⟨hmonth, hyear, fun h ↦ absurd h hcalendar, fun h ↦ absurd h hcalendar⟩
    rw [if_pos hfits, DateParts.seconds?_of_not_isYear hcalendar,
      Bool.eq_false_of_not_eq_true hcalendar]
    rfl
  rw [hcalendar]
  change (signed code (p.day - 1) >>= _) = _
  by_cases hday : IsInt64 (p.day - 1)
  case neg =>
    rw [if_neg fun h ↦ hday (h.day hcalendar), signed_of_not_isInt64 hday]
    rfl
  rw [signed_of_isInt64 hday, pure_bind]
  change (match System.span? p.dateSpan with | none => _ | some days => _) = _
  by_cases hdate : DateParts.IsSpan p.dateSpan
  case neg =>
    have hfits : p.Fits := ⟨hmonth, hyear, fun _ ↦ hday, fun _ h ↦ absurd h hdate⟩
    rw [if_pos hfits, DateParts.seconds?_of_not_isSpan hdate, DateParts.span?_of_not_isSpan hdate]
  rw [DateParts.span?_of_isSpan hdate]
  change (timeSpan code p >>= fun time ↦
    pure (DateParts.reach? p.firstOfMonth p.dateSpan time) : Run (Option ℤ)) = _
  rw [timeSpan_eq]
  by_cases htime : p.TimeFits
  case neg =>
    rw [if_neg htime, if_neg fun h ↦ htime (h.time hcalendar hdate)]
    rfl
  rw [if_pos htime, if_pos ⟨hmonth, hyear, fun _ ↦ hday, fun _ _ ↦ htime⟩, pure_bind,
    DateParts.seconds?_of_isSpan hcalendar hdate]

end Checked

/-! ## Date tables -/

/-- A field of a table is read as an integer: a number loses its fraction, and its excess over 64
bits, and a default stands for a field that is missing. -/
def HasPart (m : Machine) (r : Ref) (name : String) (default : Option ℤ) (z : ℤ) : Prop :=
  (∃ f, m.fieldOf r name = .number f ∧ z = Number.saturated f) ∨
    (m.fieldOf r name = .nil ∧ default = some z)

/-- The table gives the parts of a date and a time of day. -/
structure IsDateTable (m : Machine) (r : Ref) (p : DateParts) : Prop where
  year : HasPart m r "year" none p.year
  month : HasPart m r "month" none p.month
  day : HasPart m r "day" none p.day
  hour : HasPart m r "hour" (some 12) p.hour
  minute : HasPart m r "min" (some 0) p.minute
  second : HasPart m r "sec" (some 0) p.second

section Tables

variable {s : Session} {r : Ref} {name : String} {default : Option ℤ} {z : ℤ}
  {p : DateParts}

theorem HasPart.of_hasValue {m : Machine} {f : Float} (h : m.fieldOf r name = .number f)
    (hf : HasValue f z) (hz : IsInt64 z) : HasPart m r name default z :=
  .inl ⟨f, h, by rw [← Number.toInt64_eq, hf.toInt64_eq, Number.clamp_of_mem hz.1 hz.2]⟩

theorem HasPart.dateField_eq (h : HasPart s.machine r name default z) :
    System.dateField r name default s = .ok z s := by
  unfold System.dateField
  rw [Run.bind_of_ok (Run.getStr_apply r name)]
  rcases h with ⟨f, hf, rfl⟩ | ⟨hnil, rfl⟩
  · rw [hf, ← Number.toInt64_eq]
    rfl
  · rw [hnil]
    rfl

theorem IsDateTable.read_bind {β : Type} (h : IsDateTable s.machine r p) (f : DateParts → Run β) :
    (do
      let year ← System.dateField r "year" none
      let month ← System.dateField r "month" none
      let day ← System.dateField r "day" none
      let hour ← System.dateField r "hour" (some 12)
      let minute ← System.dateField r "min" (some 0)
      let second ← System.dateField r "sec" (some 0)
      f ⟨year, month, day, hour, minute, second⟩) s = f p s := by
  rw [Run.bind_of_ok h.year.dateField_eq, Run.bind_of_ok h.month.dateField_eq,
    Run.bind_of_ok h.day.dateField_eq, Run.bind_of_ok h.hour.dateField_eq,
    Run.bind_of_ok h.minute.dateField_eq, Run.bind_of_ok h.second.dateField_eq]

end Tables

namespace Library.System

variable {s : Session} {r : Ref} {z : ℤ} {p : DateParts}

/-- The value that a number of seconds is returned as. -/
def shownSeconds : Option ℤ → Value
  | some n => .number (Number.ofInt n)
  | none => .nil

theorem time_eq (h : IsDateTable s.machine r p) :
    time [.table r] s = .ok [shownSeconds
      (timestamp? p.year p.month p.day p.hour p.minute p.second)] s := by
  let answer (p : DateParts) : Run (List Value) :=
    match timestamp? p.year p.month p.day p.hour p.minute p.second with
    | some n => return [.number (Number.ofInt n)]
    | none => return [.nil]
  refine (h.read_bind answer).trans ?_
  dsimp only [answer]
  cases timestamp? p.year p.month p.day p.hour p.minute p.second <;> rfl

/-- The instant of a date table whose steps are all in range is its time. -/
theorem time_of_inRange (h : IsDateTable s.machine r p) (hfits : p.Fits) (hn : p.Instant z)
    (hrange : p.InRange z) :
    ∃ f, time [.table r] s = .ok [.number f] s ∧ HasValue f z := by
  obtain ⟨hl, hh⟩ := Moment.inCalendar_iff.1 hrange.instant
  refine ⟨_, ?_, Number.hasValue_ofInt_of_lt (z := z) (by omega)⟩
  rw [time_eq h, DateParts.timestamp?_eq hfits, DateParts.seconds?_of_inRange hn hrange]
  rfl

end Library.System

end LuaEmbed
