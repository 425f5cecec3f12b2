import LuaEmbed.Number.Binary64

/-! # Decimal texts of doubles

Every text is correctly rounded: the exact value is scaled, rounded to the nearest integer, a tie
going to the even one, and the digits of that integer are laid out. Three layouts are given: with a
fixed number of places, scientific, and the general one that chooses between the two and drops the
zeros that end a fraction. -/

namespace LuaEmbed.Number

/-- `n / d` rounded to the nearest integer, a tie going to the even one. -/
def roundDiv (n d : Nat) : Nat :=
  let q := n / d
  let twice := 2 * (n % d)
  if d < twice || (twice == d && q % 2 == 1) then q + 1 else q

/-- The decimal digits of a natural number. -/
def digits (n : Nat) : List Char := Nat.toDigits 10 n

/-- The digits of `n`, with zeros in front up to a width. -/
def paddedDigits (width n : Nat) : List Char :=
  let ds := digits n
  List.replicate (width - ds.length) '0' ++ ds

/-- `n / 10 ^ places`, written with that many places. -/
def layOut (places n : Nat) : List Char :=
  let ds := paddedDigits (places + 1) n
  let split := ds.length - places
  if places == 0 then ds else ds.take split ++ '.' :: ds.drop split

/-- The texts of the doubles that are not finite. -/
def special (f : Float) : List Char :=
  if f.isNaN then "NaN".toList else if isNegative f then "-inf".toList else "inf".toList

/-- A text with the sign of its number in front. -/
def signed (negative : Bool) (cs : List Char) : List Char := if negative then '-' :: cs else cs

/-- A double with a fixed number of places after the point. -/
def fixed (places : Nat) (f : Float) : List Char :=
  match dyadic? f with
  | some x =>
    signed x.negative (layOut places (roundDiv (x.numerator * Nat.pow 10 places) x.denominator))
  | none => special f

/-! ## Scientific notation -/

/-- The decimal exponent of a positive ratio: the `e` with `10 ^ e ≤ n / d < 10 ^ (e + 1)`. -/
def decimalExponent (n d : Nat) : Int :=
  if d ≤ n then Int.ofNat ((digits (n / d)).length - 1)
  else
    let k := (digits (d / n)).length
    if d ≤ n * Nat.pow 10 (k - 1) then -Int.ofNat (k - 1) else -Int.ofNat k

/-- A magnitude in scientific notation: the digits as one number, of which the first stands before
the point, and the exponent. -/
structure Scientific where
  coefficient : Nat
  exponent : Int
deriving DecidableEq, Repr

/-- A magnitude rounded to `places` digits after the first one. -/
def Dyadic.scientific (places : Nat) (x : Dyadic) : Scientific :=
  if x.mantissa == 0 then ⟨0, 0⟩
  else
    let e := decimalExponent x.numerator x.denominator
    let shift := Int.ofNat places - e
    let c :=
      roundDiv (x.numerator * Nat.pow 10 shift.toNat) (x.denominator * Nat.pow 10 (-shift).toNat)
    if c == Nat.pow 10 (places + 1) then ⟨Nat.pow 10 places, e + 1⟩ else ⟨c, e⟩

/-! ## The general layout -/

/-- A text that has a point, without the zeros that end it and without a point at its end. -/
def dropZeros (cs : List Char) : List Char :=
  if cs.contains '.' then
    ((cs.reverse.dropWhile (· == '0')).dropWhile (· == '.')).reverse
  else cs

/-- An exponent: its sign and at least two digits. -/
def exponentText (e : Int) : List Char :=
  (if e < 0 then '-' else '+') :: paddedDigits 2 e.natAbs

/-- A double to a number of significant digits, which is at least one: scientific when the exponent
is below `-4` or has no digit to stand for it, with fixed places otherwise. -/
def general (precision : Nat) (f : Float) : List Char :=
  let p := max precision 1
  match dyadic? f with
  | none => special f
  | some x =>
    let s := x.scientific (p - 1)
    if s.exponent < -4 || Int.ofNat p ≤ s.exponent then
      signed x.negative (dropZeros (layOut (p - 1) s.coefficient)) ++ 'e' :: exponentText s.exponent
    else dropZeros (fixed (Int.ofNat p - 1 - s.exponent).toNat f)

/-- An integer in decimal. -/
def intText (n : Int) : List Char := signed (n < 0) (digits n.natAbs)

/-- The text that a number has wherever it is shown or joined to a string: integers of up to fifteen
digits in full, everything else to fourteen significant digits. -/
def text (f : Float) : String :=
  String.ofList <|
    if f.isNaN then "nan".toList
    else if f.isInf then (if isNegative f then "-inf".toList else "inf".toList)
    else if f == 0 then (if isNegative f then "-0".toList else "0".toList)
    else if isIntegral f && f.abs < 1e15 then intText (toInt64 f)
    else general 14 f

end LuaEmbed.Number
