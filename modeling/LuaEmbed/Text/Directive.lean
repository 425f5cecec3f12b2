import LuaEmbed.Number.Numeral

/-! # Format directives

A directive says how one value is laid out: flags, a field width, a precision, and the conversion
that is read after them. -/

namespace LuaEmbed.Text

/-- The flags, the width and the precision of a directive. -/
structure Directive where
  left : Bool
  plus : Bool
  space : Bool
  zero : Bool
  alternate : Bool
  width : Nat
  precision : Option Nat
deriving DecidableEq, Repr

namespace Directive

/-- The characters that are flags. -/
def isFlag (c : Char) : Bool := c == '-' || c == '+' || c == ' ' || c == '0' || c == '#'

/-- The number that digits denote, in 64 bits. -/
def count (ds : List Char) : Nat :=
  ds.foldl (fun n c => (n * 10 + (Number.digitValue? c).getD 0) % Number.words64) 0

/-- Read a directive up to its conversion, and what follows. -/
def read (cs : List Char) : Directive × List Char :=
  let flags := cs.takeWhile isFlag
  let rest := cs.dropWhile isFlag
  let width := count (rest.takeWhile Number.isDigit)
  let rest := rest.dropWhile Number.isDigit
  let (precision, rest) :=
    match rest with
    | '.' :: r => (some (count (r.takeWhile Number.isDigit)), r.dropWhile Number.isDigit)
    | r => (none, r)
  (⟨flags.contains '-', flags.contains '+', flags.contains ' ', flags.contains '0',
    flags.contains '#', width, precision⟩, rest)

/-- The greatest width and the greatest precision. -/
def maxCount : Nat := 99

/-- The width and the precision are not too great. -/
def isInRange (d : Directive) : Bool := d.width ≤ maxCount && d.precision.getD 0 ≤ maxCount

/-- The sign of a number. -/
def sign (d : Directive) (negative : Bool) : List Char :=
  if negative then ['-'] else if d.plus then ['+'] else if d.space then [' '] else []

/-- Fill a body up to the width: with spaces on one side, or with zeros after the sign. -/
def pad (d : Directive) (body : List Char) (numeric : Bool) : List Char :=
  let fill := d.width - body.length
  if d.left then body ++ List.replicate fill ' '
  else if d.zero && numeric then
    match body with
    | c :: cs =>
      if c == '-' || c == '+' || c == ' ' then c :: (List.replicate fill '0' ++ cs)
      else List.replicate fill '0' ++ c :: cs
    | [] => List.replicate fill '0'
  else List.replicate fill ' ' ++ body

/-! ## Conversions -/

/-- A number without its fraction, in decimal. -/
def decimal (d : Directive) (f : Float) : List Char :=
  let n := Number.truncate f
  let magnitude := (Number.toInt64 n.abs).toNat
  let ds :=
    match d.precision with
    | some p => Number.paddedDigits p magnitude
    | none => Number.digits magnitude
  d.pad (d.sign (n < 0) ++ ds) d.precision.isNone

/-- A number without its fraction as an unsigned word of 64 bits. -/
def word (f : Float) : Nat := Number.unsigned64 (Number.toInt64 f)

/-- A number as an unsigned word in decimal. -/
def unsigned (d : Directive) (f : Float) : List Char := d.pad (Number.digits (word f)) true

/-- A number as an unsigned word in hexadecimal. -/
def hexadecimal (d : Directive) (upper : Bool) (f : Float) : List Char :=
  let ds := Nat.toDigits 16 (word f)
  let body := (if d.alternate then ['0', 'x'] else []) ++ ds
  d.pad (if upper then body.map Char.toUpper else body) true

/-- A number as an unsigned word in octal. -/
def octal (d : Directive) (f : Float) : List Char :=
  d.pad ((if d.alternate then ['0'] else []) ++ Nat.toDigits 8 (word f)) true

/-- The character of a code point; what is none becomes a replacement. -/
def character (d : Directive) (f : Float) : List Char :=
  let n := Number.toNatBelow Number.words32 f
  d.pad [if n.isValidChar then Char.ofNat n else '\uFFFD'] false

/-- The number of places when the directive gives none. -/
def defaultPlaces : Nat := 6

/-- The places after the point. -/
def places (d : Directive) : Nat := d.precision.getD defaultPlaces

/-- A number in scientific notation. -/
def scientific (d : Directive) (upper : Bool) (f : Float) : List Char :=
  let body :=
    match Number.dyadic? f with
    | some x =>
      let s := x.scientific d.places
      Number.layOut d.places s.coefficient ++
        (if upper then 'E' else 'e') :: Number.exponentText s.exponent
    | none => Number.special f.abs
  d.pad (d.sign (Number.isNegative f) ++ body) true

/-- A number with fixed places. -/
def fixed (d : Directive) (f : Float) : List Char :=
  d.pad (d.sign (Number.isNegative f) ++ Number.fixed d.places f.abs) true

/-- A number to significant digits. -/
def general (d : Directive) (upper : Bool) (f : Float) : List Char :=
  let body := Number.general d.places f.abs
  d.pad (d.sign (Number.isNegative f) ++ if upper then body.map Char.toUpper else body) true

/-- A text, cut to the precision. -/
def text (d : Directive) (s : String) : List Char :=
  d.pad (match d.precision with
    | some p => s.toList.take p
    | none => s.toList) false

end Directive

end LuaEmbed.Text
