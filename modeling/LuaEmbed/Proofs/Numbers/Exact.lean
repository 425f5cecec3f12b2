import LuaEmbed.Proofs.Numbers.Order
import LuaEmbed.Proofs.Numbers.Rounding

/-!
# Exact values

The exact value of a double is read from its bits.  It is the value of what the double is unpacked
to, so that what is known of comparison and of whole doubles applies: a double without a fraction
that is not zero is, up to its sign, a natural number, and is compared as one.
-/

namespace LuaEmbed.Number

open Float.Model UnpackedFloat

/-! ## What is unpacked -/

/-- The exact value of what a double is unpacked to. -/
def Dyadic.ofUnpacked? : UnpackedFloat → Option Dyadic
  | .finite s m e _ => some ⟨s == .negative, m, e⟩
  | .zero s => some ⟨s == .negative, 0, -1074⟩
  | .infinity _ | .notANumber => none

section Bits

variable (b : BitVec Format.binary64.numBits)

theorem toNat_unpackMantissa : (unpackMantissa b).toNat = b.toNat % fractions := by
  simp only [unpackMantissa, BitVec.toNat_cast, BitVec.extractLsb_toNat, Nat.shiftRight_zero]
  rfl

theorem toNat_unpackExponent : (unpackExponent b).toNat = b.toNat / fractions % exponents := by
  simp only [unpackExponent, BitVec.toNat_cast, BitVec.extractLsb_toNat, Nat.shiftRight_eq_div_pow]
  rfl

theorem toNat_unpackSign : (unpackSign b).toNat = b.toNat / (exponents * fractions) := by
  simp only [unpackSign, BitVec.toNat_cast, BitVec.extractLsb_toNat, Nat.shiftRight_eq_div_pow]
  refine Nat.mod_eq_of_lt ?_
  rw [Nat.div_lt_iff_lt_mul (by decide)]
  exact b.isLt

theorem ofBitVec_eq_negative (s : BitVec 1) : (Sign.ofBitVec s == .negative) = (s.toNat == 1) := by
  revert s
  decide

end Bits

/-- The mantissa of a normal double has a bit in front of its fraction. -/
theorem toNat_one_append (m : BitVec Format.binary64.mantissaBitsWithoutImplicit) :
    (1#1 ++ m).toNat = fractions + m.toNat := by
  rw [BitVec.toNat_append, ← Nat.shiftLeft_add_eq_or_of_lt m.isLt, Nat.shiftLeft_eq]
  rfl

section Fields

variable {f : Float} {negative : Bool} {exponent fraction : Nat}

theorem dyadic?_of_special (h : fields f = (negative, exponent, fraction))
    (hexponent : exponent + 1 = exponents) : dyadic? f = none := by
  cases exponent with
  | zero => exact absurd hexponent (by decide)
  | succ e => rw [dyadic?, h]; exact if_pos (beq_iff_eq.2 hexponent)

theorem dyadic?_of_subnormal (h : fields f = (negative, 0, fraction)) :
    dyadic? f = some ⟨negative, fraction, -1074⟩ := by
  rw [dyadic?, h]
  rfl

theorem dyadic?_of_normal (h : fields f = (negative, exponent, fraction))
    (hexponent : exponent + 1 ≠ exponents) (hzero : exponent ≠ 0) :
    dyadic? f = some ⟨negative, fractions + fraction, exponent - 1075⟩ := by
  cases exponent with
  | zero => exact absurd rfl hzero
  | succ e => rw [dyadic?, h]; exact if_neg (mt beq_iff_eq.1 hexponent)

end Fields

/-- The exact value of a double is the one of what it is unpacked to. -/
theorem dyadic?_eq (f : Float) : dyadic? f = Dyadic.ofUnpacked? f.toModel.unpack := by
  obtain ⟨b, hb⟩ : ∃ b : BitVec Format.binary64.numBits, f.toBits.toBitVec = b := ⟨_, rfl⟩
  have hunpack : f.toModel.unpack = UnpackedFloat.unpack .binary64 b := by rw [← hb]; rfl
  have hfields : fields f = (Sign.ofBitVec (unpackSign b) == .negative,
      (unpackExponent b).toNat, (unpackMantissa b).toNat) := by
    rw [toNat_unpackMantissa, toNat_unpackExponent, ofBitVec_eq_negative, toNat_unpackSign, ← hb]
    rfl
  rw [hunpack, UnpackedFloat.unpack]
  dsimp only
  split_ifs with hspecial hinfinite hsubnormal hzero
  · exact dyadic?_of_special hfields (hspecial ▸ rfl)
  · exact dyadic?_of_special hfields (hspecial ▸ rfl)
  · rw [hsubnormal, hzero] at hfields
    exact dyadic?_of_subnormal hfields
  · rw [hsubnormal] at hfields ⊢
    exact dyadic?_of_subnormal hfields
  · rw [dyadic?_of_normal hfields, ← toNat_one_append]
    · rfl
    · intro h
      refine hspecial (BitVec.eq_of_toNat_eq ?_)
      change _ = 2047
      change _ + 1 = 2048 at h
      omega
    · exact fun h ↦ hsubnormal (BitVec.eq_of_toNat_eq h)

/-- The doubles that have an exact value are the finite ones. -/
theorem isSome_dyadic? (f : Float) : (dyadic? f).isSome = f.isFinite := by
  rw [dyadic?_eq]
  change _ = f.toModel.unpack.isFinite
  cases f.toModel.unpack <;> rfl

/-! ## Rational values -/

namespace Dyadic

variable {x : Dyadic} {n : Nat}

/-- The rational number. -/
def value (x : Dyadic) : ℚ := (if x.negative then -1 else 1) * (x.mantissa * 2 ^ x.exponent)

theorem value_eq_zero_iff : x.value = 0 ↔ x.mantissa = 0 := by
  have hsign : (if x.negative then -1 else 1 : ℚ) ≠ 0 := by split <;> simp
  have hpower : (2 : ℚ) ^ x.exponent ≠ 0 := zpow_ne_zero _ two_ne_zero
  rw [value, mul_eq_zero, or_iff_right hsign, mul_eq_zero, or_iff_left hpower, Nat.cast_eq_zero]

theorem abs_value_eq_mul (x : Dyadic) : |x.value| = x.mantissa * 2 ^ x.exponent := by
  have hsign : |(if x.negative then -1 else 1 : ℚ)| = 1 := by split <;> simp
  rw [value, abs_mul, hsign, one_mul, abs_of_nonneg (by positivity)]

theorem abs_value (x : Dyadic) : |x.value| = x.numerator / x.denominator := by
  have hpower : (2 : ℚ) ^ x.exponent = 2 ^ x.exponent.toNat / 2 ^ (-x.exponent).toNat := by
    rw [← zpow_natCast, ← zpow_natCast, ← zpow_sub₀ two_ne_zero]
    congr 1
    omega
  rw [abs_value_eq_mul, hpower, ← mul_div_assoc]
  simp [numerator, denominator]

theorem abs_value_eq_iff : |x.value| = n ↔ x.numerator = n * x.denominator := by
  have hpos : (x.denominator : ℚ) ≠ 0 := Nat.cast_ne_zero.2 x.denominator_pos.ne'
  rw [abs_value, div_eq_iff hpos, ← Nat.cast_mul, Nat.cast_inj]

theorem mantissa_ne_zero (hn : |x.value| = n) (hpos : 0 < n) : x.mantissa ≠ 0 := by
  intro hzero
  rw [value_eq_zero_iff.2 hzero, abs_zero] at hn
  exact absurd (Nat.cast_eq_zero.1 hn.symm) hpos.ne'

/-- Without a fraction the value is, up to its sign, a natural number. -/
theorem isIntegral_iff : x.isIntegral ↔ ∃ n : ℕ, |x.value| = n := by
  simp only [isIntegral, beq_iff_eq, abs_value_eq_iff]
  exact ⟨fun h ↦ ⟨_, (Nat.div_mul_cancel (Nat.dvd_of_mod_eq_zero h)).symm⟩,
    fun ⟨n, h⟩ ↦ h ▸ Nat.mul_mod_left n _⟩

/-- The fraction is dropped towards zero. -/
theorem truncate_eq (x : Dyadic) :
    x.truncate = if x.value < 0 then ⌈x.value⌉ else ⌊x.value⌋ := by
  have hfloor : ⌊|x.value|⌋ = (x.numerator / x.denominator : Nat) := by
    rw [abs_value, ← Int.cast_natCast x.numerator, Rat.floor_intCast_div_natCast]
    rfl
  have htruncate : x.truncate = if x.negative then -⌊|x.value|⌋ else ⌊|x.value|⌋ := by
    rw [hfloor]
    rfl
  have hmagnitude : (0 : ℚ) ≤ x.mantissa * 2 ^ x.exponent := by positivity
  rw [htruncate]
  cases hsign : x.negative with
  | false =>
      have hnonneg : 0 ≤ x.value := by simpa [value, hsign] using hmagnitude
      rw [if_neg Bool.false_ne_true, if_neg hnonneg.not_gt, abs_of_nonneg hnonneg]
  | true =>
      have hnonpos : x.value ≤ 0 := by simpa [value, hsign] using hmagnitude
      rw [if_pos rfl, abs_of_nonpos hnonpos, ← Int.ceil_neg, neg_neg]
      split
      · rfl
      · next hzero => simp [le_antisymm hnonpos (not_lt.1 hzero)]

end Dyadic

/-- Only the zeros have the value zero. -/
theorem value_ne_zero {f : Float} {x : Dyadic} (h : dyadic? f = some x)
    (hzero : (f == 0) = false) : x.value ≠ 0 := by
  rw [dyadic?_eq] at h
  rw [ne_eq, Dyadic.value_eq_zero_iff]
  change (f.toModel.unpack.compare (0 : Float).toModel.unpack == some .eq) = false at hzero
  revert h hzero
  cases f.toModel.unpack with
  | infinity | notANumber => exact nofun
  | zero s => exact fun _ hzero ↦ nomatch hzero
  | finite s m e hm =>
      rintro ⟨⟩ -
      exact hm.ne'

theorem not_special_of_dyadic? {f : Float} {x : Dyadic} (h : dyadic? f = some x) :
    f.isNaN = false ∧ f.isInf = false := by
  rw [dyadic?_eq] at h
  change f.toModel.unpack.isNaN = false ∧ f.toModel.unpack.isInf = false
  revert h
  cases f.toModel.unpack with
  | infinity | notANumber => exact nofun
  | zero | finite => exact fun _ ↦ ⟨rfl, rfl⟩

/-! ## Natural numbers -/

section Whole

variable {f g : Float} {x : Dyadic} {u v : UnpackedFloat} {n a b : Nat}

/-- A mantissa has its 53 bits, or else the exponent is the least there is. -/
theorem Dyadic.bounds (h : dyadic? f = some x) :
    x.mantissa < 2 ^ 53 ∧ (2 ^ 52 ≤ x.mantissa ∨ x.exponent = -1074) ∧
      -1074 ≤ x.exponent ∧ x.exponent < 972 := by
  have hfraction : f.toBits.toNat % fractions < 2 ^ 52 := Nat.mod_lt _ (by decide)
  have hexponent : f.toBits.toNat / fractions % exponents < 2048 := Nat.mod_lt _ (by decide)
  have hfields : fields f = (isNegative f, f.toBits.toNat / fractions % exponents,
      f.toBits.toNat % fractions) := rfl
  generalize f.toBits.toNat / fractions % exponents = e at hfields hexponent
  generalize f.toBits.toNat % fractions = m at hfields hfraction
  by_cases hspecial : e + 1 = exponents
  · exact nomatch (dyadic?_of_special hfields hspecial).symm.trans h
  by_cases hsubnormal : e = 0
  · subst hsubnormal
    obtain rfl := Option.some.inj ((dyadic?_of_subnormal hfields).symm.trans h)
    exact ⟨hfraction.trans (by decide), .inr rfl, le_rfl, show (-1074 : Int) < 972 by decide⟩
  · obtain rfl := Option.some.inj ((dyadic?_of_normal hfields hspecial hsubnormal).symm.trans h)
    simp only [fractions, exponents] at *
    omega

/-- A positive natural number is a normal double. -/
theorem Whole.abs_of_value (h : dyadic? f = some x) (hn : |x.value| = n) (hpos : 0 < n) :
    Whole f.abs n := by
  have hvalue : x.mantissa * 2 ^ x.exponent.toNat = n * 2 ^ (-x.exponent).toNat :=
    Dyadic.abs_value_eq_iff.1 hn
  have hmantissa : 0 < x.mantissa := Nat.pos_of_ne_zero (Dyadic.mantissa_ne_zero hn hpos)
  obtain ⟨hhigh, hlow | hleast, -, hrange⟩ := Dyadic.bounds h
  · have hlog : x.mantissa.log2 = 52 := (Nat.log2_eq_iff hmantissa.ne').2 ⟨hlow, hhigh⟩
    have hsum := log2_add_eq hmantissa hvalue
    obtain ⟨k, hk⟩ : ∃ k : ℕ, x.exponent = k - 52 := ⟨n.log2, by omega⟩
    refine ⟨by omega, _, .finite hmantissa hlog (k := k) ?_, ?_⟩
    · -- Both sides are measured in a unit that is small enough.
      have hleft : k = x.exponent.toNat + (52 - (-x.exponent).toNat) := by omega
      have hright : 52 = (-x.exponent).toNat + (52 - (-x.exponent).toNat) := by omega
      rw [hleft, Nat.pow_add, ← Nat.mul_assoc, hvalue, Nat.mul_assoc, ← Nat.pow_add, ← hright]
    · rw [dyadic?_eq] at h
      change Float.ofModel (.pack f.toModel.unpack.abs) = _
      revert h
      cases f.toModel.unpack with
      | infinity | notANumber => exact nofun
      | zero s =>
          rintro ⟨⟩
          exact absurd rfl hmantissa.ne
      | finite s m e hm =>
          rintro ⟨⟩
          rw [← hk]
          rfl
  · -- A subnormal double is less than one.
    have hleft : (-1074 : Int).toNat = 0 := rfl
    have hright : 53 ≤ (- -1074 : Int).toNat := by decide
    rw [hleast, hleft, Nat.pow_zero, Nat.mul_one] at hvalue
    have hlarge : 2 ^ 53 ≤ x.mantissa :=
      hvalue ▸ (Nat.pow_le_pow_right Nat.two_pos hright).trans (Nat.le_mul_of_pos_left _ hpos)
    exact absurd hhigh hlarge.not_gt

theorem IsWhole.place_lt_iff (hu : IsWhole u a) (hv : IsWhole v b) :
    place u < place v ↔ a < b := by
  cases hu with
  | zero =>
      cases hv with
      | zero => exact ⟨fun h ↦ absurd h (lt_irrefl _), fun h ↦ absurd h (lt_irrefl _)⟩
      | finite hm hlog h =>
          have hb := pos_of_mul_two_pow_eq hm h
          exact ⟨fun _ ↦ hb, fun _ ↦ by simp [place, Prod.Lex.toLex_lt_toLex]⟩
  | @finite m k a hm hlog h =>
      cases hv with
      | zero =>
          exact ⟨fun hlt ↦ absurd hlt (by simp [place, Prod.Lex.toLex_lt_toLex]),
            fun hlt ↦ absurd hlt (Nat.not_lt_zero a)⟩
      | @finite m' k' b hm' hlog' h' =>
          have hk := log2_add_eq hm h
          have hk' := log2_add_eq hm' h'
          have ha := pos_of_mul_two_pow_eq hm h
          have hb := pos_of_mul_two_pow_eq hm' h'
          have hplace : place (.finite .positive m (k - 52) hm) <
              place (.finite .positive m' (k' - 52) hm') ↔ k < k' ∨ k = k' ∧ m < m' := by
            simp only [place, Prod.Lex.toLex_lt_toLex, lt_irrefl, false_or, true_and,
              Nat.cast_lt]
            omega
          rw [hplace]
          rcases Nat.lt_trichotomy k k' with hlt | rfl | hgt
          · have := (Nat.log2_lt ha.ne').1 (show a.log2 < k' by omega)
            have := (Nat.le_log2 hb.ne').1 (show k' ≤ b.log2 by omega)
            omega
          · have hmul : m < m' ↔ a < b := by
              rw [← Nat.mul_lt_mul_right (Nat.two_pow_pos k), h, h',
                Nat.mul_lt_mul_right (Nat.two_pow_pos 52)]
            simpa using hmul
          · have := (Nat.log2_lt hb.ne').1 (show b.log2 < k by omega)
            have := (Nat.le_log2 ha.ne').1 (show k ≤ a.log2 by omega)
            omega

/-- Natural numbers are compared as such. -/
theorem Whole.lt_iff (hf : Whole f a) (hg : Whole g b) : f < g ↔ a < b := by
  have hnan {u : UnpackedFloat} {n : ℕ} (h : IsWhole u n) : u.isNaN = false := by cases h <;> rfl
  rw [lt_iff_place (hnan hf.unpack) (hnan hg.unpack)]
  exact hf.unpack.place_lt_iff hg.unpack

end Whole

end LuaEmbed.Number
