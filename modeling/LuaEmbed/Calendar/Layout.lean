import LuaEmbed.Calendar
import LuaEmbed.Number.Decimal

/-! # Layouts of moments

A layout is a text with directives. A directive starts with a percent sign and stands for a part of
a moment; between the sign and the letter a padding may be given for a number. -/

namespace LuaEmbed.Calendar

/-- What a number is filled up with to its width. -/
inductive Padding where
  | none | zero | space
deriving DecidableEq, Repr

/-- The time zone whose name is shown. -/
inductive Zone where
  | local_ | universal
deriving DecidableEq, Repr

/-- The name of a time zone. Both zones have the same time; the local one is named by its offset. -/
def Zone.name : Zone → String
  | .local_ => "+00:00"
  | .universal => "UTC"

/-! ## Texts of numbers -/

/-- A number of at most two digits. Of a greater one the last digit is shown, after the character
that lies as many places behind `0` as there are tens. -/
def twoDigits (p : Padding) (n : Nat) : List Char :=
  let ones := Char.ofNat ('0'.toNat + n % 10)
  let tens := Char.ofNat ('0'.toNat + n / 10)
  match n / 10, p with
  | 0, .none => [ones]
  | 0, .space => [' ', ones]
  | _, _ => [tens, ones]

/-- A number with a width, and with a sign if it is negative or `plus` is set; the sign counts for
the width. -/
def wide (p : Padding) (width : Nat) (plus : Bool) (n : Int) : List Char :=
  let sign := if n < 0 then ['-'] else if plus then ['+'] else []
  let ds := Number.digits n.natAbs
  let fill := width - (sign.length + ds.length)
  match p with
  | .none => sign ++ ds
  | .zero => sign ++ List.replicate fill '0' ++ ds
  | .space => List.replicate fill ' ' ++ sign ++ ds

/-- A year: four digits, and a sign if that does not suffice. -/
def yearText (p : Padding) (year : Int) : List Char :=
  if 0 ≤ year && year < 10000 then wide p 4 false year else wide p 5 true year

/-! ## Parts of a moment -/

/-- The parts of a moment that are numbers. -/
inductive Part where
  | year | century | yearOfCentury
  | weekYear | weekYearOfCentury | week | weekFromSunday | weekFromMonday
  | quarter | month | day | dayOfYear | weekdayFromSunday | weekdayFromMonday
  | hour | clockHour | minute | second | nanosecond | timestamp
deriving DecidableEq, Repr

/-- A number in the range of a byte. -/
def inByte (n : Int) : Nat := (n % 256).toNat

/-- A part of a moment as text. -/
def Part.text (m : Moment) (p : Padding) : Part → List Char
  | year => yearText p m.date.year
  | century => twoDigits p (inByte (m.date.year / 100))
  | yearOfCentury => twoDigits p (m.date.year % 100).toNat
  | weekYear => yearText p m.date.week.1
  | weekYearOfCentury => twoDigits p (m.date.week.1 % 100).toNat
  | week => twoDigits p m.date.week.2
  | weekFromSunday => twoDigits p (m.date.weekFrom 0)
  | weekFromMonday => twoDigits p (m.date.weekFrom 1)
  | quarter => Number.digits ((m.date.month + 2) / 3)
  | month => twoDigits p m.date.month
  | day => twoDigits p m.date.day
  | dayOfYear => wide p 3 false m.date.dayOfYear
  | weekdayFromSunday => Number.digits m.date.weekday
  | weekdayFromMonday => Number.digits (m.date.weekdayFromMonday + 1)
  | hour => twoDigits p m.hour
  | clockHour => twoDigits p m.clockHour
  | minute => twoDigits p m.minute
  | second => twoDigits p m.second
  | nanosecond => wide p 9 false 0
  | timestamp => wide p 9 false m.seconds

/-- The names of the months. -/
def monthNames : List String :=
  ["January", "February", "March", "April", "May", "June", "July", "August", "September",
    "October", "November", "December"]

/-- The names of the days of the week, from Sunday on. -/
def weekdayNames : List String :=
  ["Sunday", "Monday", "Tuesday", "Wednesday", "Thursday", "Friday", "Saturday"]

/-- The name of the month of a moment. -/
def monthName (m : Moment) : List Char := (monthNames[m.date.month - 1]?.getD "").toList

/-- The name of the day of the week of a moment. -/
def weekdayName (m : Moment) : List Char := (weekdayNames[m.date.weekday]?.getD "").toList

/-! ## Directives -/

/-- What a directive stands for. -/
inductive Directive where
  /-- A number with the padding it has unless another one is given. -/
  | number (part : Part) (padding : Padding)
  /-- A text that depends on the moment, but takes no padding. -/
  | words (text : Moment → Zone → List Char)

/-- A fixed text. -/
def fixed (s : String) : Directive := .words fun _ _ => s.toList

/-- Several parts between separators, all padded with zeros. -/
def joined (separator : String) (parts : List Part) : Directive := .words fun m _ =>
  separator.toList.intercalate (parts.map (Part.text m .zero))

/-- The time of day. -/
def clockText (m : Moment) : List Char :=
  [':'].intercalate ([Part.hour, .minute, .second].map (Part.text m .zero))

/-- The directive of a letter. -/
def Directive.ofLetter? : Char → Option Directive
  | 'A' => some (.words fun m _ => weekdayName m)
  | 'a' => some (.words fun m _ => (weekdayName m).take 3)
  | 'B' => some (.words fun m _ => monthName m)
  | 'b' | 'h' => some (.words fun m _ => (monthName m).take 3)
  | 'C' => some (.number .century .zero)
  | 'c' => some (.words fun m _ =>
      (weekdayName m).take 3 ++ ' ' :: (monthName m).take 3 ++ ' ' :: Part.text m .space .day ++
        ' ' :: clockText m ++ ' ' :: Part.text m .zero .year)
  | 'D' | 'x' => some (joined "/" [.month, .day, .yearOfCentury])
  | 'd' => some (.number .day .zero)
  | 'e' => some (.number .day .space)
  | 'F' => some (joined "-" [.year, .month, .day])
  | 'f' => some (.number .nanosecond .zero)
  | 'G' => some (.number .weekYear .zero)
  | 'g' => some (.number .weekYearOfCentury .zero)
  | 'H' => some (.number .hour .zero)
  | 'I' => some (.number .clockHour .zero)
  | 'j' => some (.number .dayOfYear .zero)
  | 'k' => some (.number .hour .space)
  | 'l' => some (.number .clockHour .space)
  | 'M' => some (.number .minute .zero)
  | 'm' => some (.number .month .zero)
  | 'n' => some (fixed "\n")
  | 'P' => some (.words fun m _ => (if m.isAfternoon then "pm" else "am").toList)
  | 'p' => some (.words fun m _ => (if m.isAfternoon then "PM" else "AM").toList)
  | 'q' => some (.number .quarter .none)
  | 'R' => some (joined ":" [.hour, .minute])
  | 'r' => some (.words fun m _ =>
      [':'].intercalate ([Part.clockHour, .minute, .second].map (Part.text m .zero)) ++
        (if m.isAfternoon then " PM" else " AM").toList)
  | 'S' => some (.number .second .zero)
  | 's' => some (.number .timestamp .none)
  | 'T' | 'X' => some (joined ":" [.hour, .minute, .second])
  | 't' => some (fixed "\t")
  | 'U' => some (.number .weekFromSunday .zero)
  | 'u' => some (.number .weekdayFromMonday .none)
  | 'V' => some (.number .week .zero)
  | 'v' => some (.words fun m _ =>
      Part.text m .space .day ++ '-' :: (monthName m).take 3 ++ '-' :: Part.text m .zero .year)
  | 'W' => some (.number .weekFromMonday .zero)
  | 'w' => some (.number .weekdayFromSunday .none)
  | 'Y' => some (.number .year .zero)
  | 'y' => some (.number .yearOfCentury .zero)
  | 'Z' => some (.words fun _ z => z.name.toList)
  | 'z' => some (fixed "+0000")
  | '+' => some (.words fun m _ =>
      ['-'].intercalate ([Part.year, .month, .day].map (Part.text m .zero)) ++
        'T' :: clockText m ++ "+00:00".toList)
  | '%' => some (fixed "%")
  | _ => none

/-- The directive after a percent sign, and what follows it. Offsets from universal time and
fractions of a second have several characters. -/
def Directive.read? : List Char → Option (Directive × List Char)
  | ':' :: ':' :: ':' :: 'z' :: rest => some (fixed "+00", rest)
  | ':' :: ':' :: 'z' :: rest => some (fixed "+00:00:00", rest)
  | ':' :: 'z' :: rest => some (fixed "+00:00", rest)
  | '.' :: 'f' :: rest => some (fixed "", rest)
  | '.' :: '3' :: 'f' :: rest => some (fixed ".000", rest)
  | '.' :: '6' :: 'f' :: rest => some (fixed ".000000", rest)
  | '.' :: '9' :: 'f' :: rest => some (fixed ".000000000", rest)
  | '3' :: 'f' :: rest => some (fixed "000", rest)
  | '6' :: 'f' :: rest => some (fixed "000000", rest)
  | '9' :: 'f' :: rest => some (fixed "000000000", rest)
  | c :: rest => (Directive.ofLetter? c).map (·, rest)
  | [] => none

/-- The padding that a character gives. -/
def Padding.ofChar? : Char → Option Padding
  | '-' => some .none
  | '0' => some .zero
  | '_' => some .space
  | _ => Option.none

/-- The text of the directive after a percent sign, and what follows it. A padding is given to
numbers only. -/
def directiveText? (m : Moment) (z : Zone) (cs : List Char) : Option (List Char × List Char) :=
  let plain (cs : List Char) :=
    match Directive.read? cs with
    | some (.number part p, rest) => some (part.text m p, rest)
    | some (.words text, rest) => some (text m z, rest)
    | none => none
  match cs with
  | c :: cs' =>
    match Padding.ofChar? c with
    | some p =>
      match Directive.read? cs' with
      | some (.number part _, rest) => some (part.text m p, rest)
      | _ => none
    | none => plain cs
  | [] => none

/-- A moment laid out, where at most `fuel` characters of the layout are read. -/
def layOutWithin (m : Moment) (z : Zone) : Nat → List Char → Option (List Char)
  | 0, _ | _, [] => some []
  | fuel + 1, '%' :: cs => do
    let (text, rest) ← directiveText? m z cs
    return text ++ (← layOutWithin m z fuel rest)
  | fuel + 1, c :: cs => do return c :: (← layOutWithin m z fuel cs)

/-- A moment laid out; none if the layout has an unknown directive. -/
def layOut? (m : Moment) (z : Zone) (layout : String) : Option String :=
  let cs := layout.toList
  (layOutWithin m z cs.length cs).map String.ofList

end LuaEmbed.Calendar
