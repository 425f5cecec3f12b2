import LuaEmbed.Number.Word

/-! # Exact values of doubles

A finite double is an integer multiple of a power of two. `dyadic?` gives that value, and the
operations of this module that leave the doubles (truncation to integers, remainders, texts) are
defined on it, so that they are exact and say so. -/

namespace LuaEmbed.Number

/-- A finite number `± mantissa · 2 ^ exponent`. -/
structure Dyadic where
  negative : Bool
  mantissa : Nat
  exponent : Int
deriving DecidableEq, Repr

namespace Dyadic

/-- The magnitude is `numerator / denominator`. -/
def numerator (x : Dyadic) : Nat := x.mantissa * Nat.pow 2 x.exponent.toNat

/-- The magnitude is `numerator / denominator`. -/
def denominator (x : Dyadic) : Nat := Nat.pow 2 (-x.exponent).toNat

theorem denominator_pos (x : Dyadic) : 0 < x.denominator := Nat.two_pow_pos _

/-- The integer that the value becomes when its fraction is dropped. -/
def truncate (x : Dyadic) : Int :=
  let n : Int := Int.ofNat (x.numerator / x.denominator)
  if x.negative then -n else n

/-- The value has no fraction. -/
def isIntegral (x : Dyadic) : Bool := x.numerator % x.denominator == 0

end Dyadic

/-- The number of fractions in the binary64 format: they have 52 bits. -/
def fractions : Nat := 0x10000000000000

/-- The number of exponents in the binary64 format: they have 11 bits. -/
def exponents : Nat := 0x800

/-- The fields of the binary64 format: sign, exponent and fraction. -/
def fields (f : Float) : Bool × Nat × Nat :=
  let b := f.toBits.toNat
  (b / (exponents * fractions) == 1, b / fractions % exponents, b % fractions)

/-- The sign bit. It tells the two zeros apart. -/
def isNegative (f : Float) : Bool := (fields f).1

/-- The exact value of a finite double; infinities and NaN have none. -/
def dyadic? (f : Float) : Option Dyadic :=
  match fields f with
  | (negative, 0, fraction) => some ⟨negative, fraction, -1074⟩
  | (negative, exponent, fraction) =>
    if exponent + 1 == exponents then none
    else some ⟨negative, fractions + fraction, (exponent : Int) - 1075⟩

/-! ## Integers -/

/-- The fraction is dropped, the range is the one between the bounds, and NaN counts as zero. -/
def toIntWithin (low high : Int) (f : Float) : Int :=
  match dyadic? f with
  | some x => clamp low high x.truncate
  | none => if f.isNaN then 0 else if isNegative f then low else high

/-- The 64-bit integer nearest to a double whose fraction is dropped. -/
def toInt64 (f : Float) : Int := toIntWithin int64Min int64Max f

/-- The 32-bit integer nearest to a double whose fraction is dropped. -/
def toInt32 (f : Float) : Int := toIntWithin int32Min int32Max f

/-- The natural number below `bound` nearest to a double whose fraction is dropped. -/
def toNatBelow (bound : Nat) (f : Float) : Nat := (toIntWithin 0 (bound - 1) f).toNat

/-- The double nearest to an integer, a tie going to the even neighbour. -/
def ofInt (n : Int) : Float := Float.ofInt n

/-- The double nearest to a natural number, a tie going to the even neighbour. -/
def ofNat (n : Nat) : Float := Float.ofNat n

/-- The 64-bit integer that a double converts to without a change of its value, where integers
beyond the range count as the end of the range. -/
def toInteger? (f : Float) : Option Int :=
  if f.isFinite && f == ofInt (toInt64 f) then some (toInt64 f) else none

/-- The double has no fraction. -/
def isIntegral (f : Float) : Bool :=
  match dyadic? f with
  | some x => x.isIntegral
  | none => false

/-- The double with its fraction dropped; a zero keeps its sign. -/
def truncate (f : Float) : Float :=
  match dyadic? f with
  | some x =>
    if x.isIntegral then f
    else
      let t := ofNat (x.numerator / x.denominator)
      if x.negative then -t else t
  | none => f

/-! ## Integers are no NaN

A double is packed from a sign, an exponent and a mantissa, and unpacked again for the next
operation. Rounding gives no NaN, and neither does packing what is none. -/

section NaN

open Float.Model UnpackedFloat

theorem isNaN_dite {p : Prop} [Decidable p] {u : p → UnpackedFloat} {v : ¬p → UnpackedFloat}
    (hu : ∀ h, (u h).isNaN = false) (hv : ∀ h, (v h).isNaN = false) :
    (if h : p then u h else v h).isNaN = false := by
  by_cases h : p
  · rw [dif_pos h, hu]
  · rw [dif_neg h, hv]

theorem isNaN_unpack_pack {u : UnpackedFloat} (h : u.isNaN = false) :
    (Float.Model.pack u).unpack.isNaN = false := by
  have hmantissa : unpackExponent (u.pack Format.binary64) = -1#_ →
      unpackMantissa (u.pack Format.binary64) = 0#_ := by
    fun_cases UnpackedFloat.pack with
    | case1 => exact nomatch h
    | case2 => simp [packedInfinity]
    | case3 => simp [packedZero]
    | case4 => simp [packedInfinity]
    | case5 s m e hm bits biased hfinite hnormal =>
      -- A biased exponent of a finite number is below the one of all bits set.
      intro hexponent
      rw [unpackExponent_packComponents] at hexponent
      have hpow : 2 ^ Format.binary64.exponentBits = 2048 := rfl
      have := congrArg BitVec.toNat hexponent
      simp [BitVec.neg_one_eq_allOnes] at this
      omega
    | case6 => simp
  change (UnpackedFloat.unpack Format.binary64 (u.pack Format.binary64)).isNaN = false
  delta UnpackedFloat.unpack
  dsimp only
  by_cases hinfinite : unpackExponent (u.pack Format.binary64) = -1#_
  · rw [if_pos hinfinite, if_pos (hmantissa hinfinite)]
    rfl
  · rw [if_neg hinfinite]
    by_cases hsubnormal : unpackExponent (u.pack Format.binary64) = 0#_
    · rw [if_pos hsubnormal]
      exact isNaN_dite (fun _ ↦ rfl) fun _ ↦ rfl
    · rw [if_neg hsubnormal]
      rfl

theorem isNaN_roundWithAccuracy (spec : Format) (s : Sign) (m : Nat) (e : Int) (a : Accuracy) :
    (roundWithAccuracy spec s m e a).isNaN = false :=
  isNaN_dite (fun _ ↦ rfl) fun _ ↦ rfl

theorem isNaN_normalize (spec : Format) (m e : Int) (s : Sign) :
    (UnpackedFloat.normalize spec m e s).isNaN = false := by
  unfold UnpackedFloat.normalize
  split
  · exact isNaN_roundWithAccuracy ..
  · rfl
  · exact isNaN_roundWithAccuracy ..

theorem isNaN_mul_finite {u : UnpackedFloat} (h : u.isNaN = false) (s : Sign) (m : Nat) (e : Int)
    (hm : 0 < m) : (UnpackedFloat.mul Format.binary64 u (.finite s m e hm)).isNaN = false := by
  cases u with
  | notANumber => exact nomatch h
  | infinity | zero => rfl
  | finite => exact isNaN_roundWithAccuracy ..

theorem isNaN_ofScientific (m : Nat) (e : Int) :
    (UnpackedFloat.ofScientific Format.binary64 m e).isNaN = false := by
  fun_cases UnpackedFloat.ofScientific with
  | case1 | case2 | case3 => rfl
  | case4 | case5 => exact isNaN_roundWithAccuracy ..

theorem isNaN_ofNat (n : Nat) : (ofNat n).isNaN = false := by
  change (Float.ofScientific n false 0).isNaN = false
  unfold Float.ofScientific
  split
  · -- Up to 53 bits the number is multiplied by one.
    obtain ⟨m, e, hm, hone⟩ : ∃ m e hm, Float.exactlyRepresentablePowersOfTen[0].toModel.unpack =
        .finite .positive m e hm := ⟨_, _, _, rfl⟩
    refine isNaN_unpack_pack ?_
    change (UnpackedFloat.mul _ _ Float.exactlyRepresentablePowersOfTen[0].toModel.unpack).isNaN =
      false
    rw [hone]
    exact isNaN_mul_finite (isNaN_unpack_pack (isNaN_normalize ..)) ..
  · exact isNaN_unpack_pack (isNaN_ofScientific ..)

/-- No integer is NaN. -/
theorem isNaN_ofInt (n : Int) : (ofInt n).isNaN = false := by
  cases n with
  | ofNat n => exact isNaN_ofNat n
  | negSucc n =>
    have h : (ofNat (n + 1)).toModel.unpack.isNaN = false := isNaN_ofNat (n + 1)
    refine isNaN_unpack_pack ?_
    change (ofNat (n + 1)).toModel.unpack.neg.isNaN = false
    revert h
    cases (ofNat (n + 1)).toModel.unpack <;> exact id

end NaN

end LuaEmbed.Number
