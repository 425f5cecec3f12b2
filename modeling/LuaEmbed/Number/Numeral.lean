import LuaEmbed.Number.Decimal
import LuaEmbed.Text.Blank

/-! # Numerals

What a numeral denotes. Source text and strings share the decimal form; each has a hexadecimal
form, in source of at most 64 bits, in strings of any length. -/

namespace LuaEmbed.Number

/-- The value of a digit in any base up to 36, letters of either case counting from ten. -/
def digitValue? (c : Char) : Option Nat :=
  if '0' ≤ c && c ≤ '9' then some (c.toNat - '0'.toNat)
  else if 'a' ≤ c && c ≤ 'z' then some (c.toNat - 'a'.toNat + 10)
  else if 'A' ≤ c && c ≤ 'Z' then some (c.toNat - 'A'.toNat + 10)
  else none

/-- The digits of a base. -/
def isDigitOf (base : Nat) (c : Char) : Bool :=
  match digitValue? c with
  | some d => d < base
  | none => false

/-- A decimal digit. -/
def isDigit (c : Char) : Bool := '0' ≤ c && c ≤ '9'

/-- The natural number that a digit string denotes. -/
def natOfDigits (base : Nat) (cs : List Char) : Nat :=
  cs.foldl (fun n c => n * base + (digitValue? c).getD 0) 0

/-- The double nearest to `± m · 10 ^ e`. Magnitudes far outside the range of doubles are decided
without computing the power. -/
def ofDecimal (negative : Bool) (m : Nat) (e : Int) : Float :=
  let size := Int.ofNat (digits m).length + e
  let magnitude : Float :=
    if m == 0 || size < -400 then 0
    else if 400 < size then 1 / 0
    else Float.ofScientific m (e < 0) e.natAbs
  if negative then -magnitude else magnitude

/-- Split off a sign; no sign counts as `+`. -/
def splitSign : List Char → Bool × List Char
  | '-' :: cs => (true, cs)
  | '+' :: cs => (false, cs)
  | cs => (false, cs)

/-- What follows the digits of a decimal numeral: nothing, or an exponent with at least one
digit. -/
def exponentPart? : List Char → Option Int
  | [] => some 0
  | c :: cs =>
    if c == 'e' || c == 'E' then
      let (negative, ds) := splitSign cs
      if ds.isEmpty || !ds.all isDigit then none
      else
        let n := Int.ofNat (natOfDigits 10 ds)
        some (if negative then -n else n)
    else none

/-- A decimal numeral: an optional sign, digits with at most one point and at least one digit, and
an optional exponent. -/
def decimal? (cs : List Char) : Option Float :=
  let (negative, body) := splitSign cs
  let whole := body.takeWhile isDigit
  let rest := body.dropWhile isDigit
  let (places, rest) :=
    match rest with
    | '.' :: r => (r.takeWhile isDigit, r.dropWhile isDigit)
    | r => ([], r)
  if whole.isEmpty && places.isEmpty then none
  else
    (exponentPart? rest).map fun e =>
      ofDecimal negative (natOfDigits 10 (whole ++ places)) (e - places.length)

/-- A hexadecimal numeral of source text without its `0x`: at least one digit, and a value of at
most 64 bits. -/
def hexadecimal64? (ds : List Char) : Option Float :=
  if ds.isEmpty || !ds.all (isDigitOf 16) then none
  else
    let n := natOfDigits 16 ds
    if n < words64 then some (ofNat n) else none

/-- A hexadecimal numeral of a string without its `0x`: at least one digit, read one digit at a time
in double arithmetic. -/
def hexadecimal? (ds : List Char) : Option Float :=
  if ds.isEmpty || !ds.all (isDigitOf 16) then none
  else some (ds.foldl (fun n c => n * 16 + ofNat ((digitValue? c).getD 0)) 0)

/-- A numeral without surrounding white space. -/
def numeral? (cs : List Char) : Option Float :=
  let (negative, body) := splitSign cs
  match body with
  | '0' :: 'x' :: ds | '0' :: 'X' :: ds =>
    (hexadecimal? ds).map fun n => if negative then -n else n
  | _ => decimal? cs

/-- The number that a string denotes; white space around the numeral is ignored. -/
def ofString? (s : String) : Option Float := numeral? (Text.trimChars s.toList)

/-- The 64-bit integer that `cs` denotes in a base: an optional sign and at least one digit. -/
def int64OfBase? (base : Nat) (cs : List Char) : Option Int :=
  let (negative, ds) := splitSign cs
  if ds.isEmpty || !ds.all (isDigitOf base) then none
  else
    let n := Int.ofNat (natOfDigits base ds)
    let n := if negative then -n else n
    if int64Min ≤ n && n ≤ int64Max then some n else none

end LuaEmbed.Number
