import LuaEmbed.Proofs.Numbers.Exact

/-!
# Integers as doubles

A finite double has one rational value, and equality of doubles is equality of values.  An integer is
converted to a double by one rounding.  Back from a double the value has to be an integer of 64 bits;
that this is checked by a conversion there and back shows at one double, which is the rounding of an
integer that is not its value.
-/

namespace LuaEmbed.Number

open Float.Model UnpackedFloat

/-! ## Values -/

section Values

variable {f g : Float} {x y : Dyadic} {p q : ℚ}

/-- The double is finite and has a rational value. -/
def HasValue (f : Float) (q : ℚ) : Prop := ∃ x, dyadic? f = some x ∧ x.value = q

theorem HasValue.unique (hp : HasValue f p) (hq : HasValue f q) : p = q := by
  obtain ⟨x, hx, rfl⟩ := hp
  obtain ⟨y, hy, rfl⟩ := hq
  rw [Option.some.inj (hx.symm.trans hy)]

theorem HasValue.isFinite (h : HasValue f q) : f.isFinite = true := by
  obtain ⟨x, hx, -⟩ := h
  rw [← isSome_dyadic?, hx]
  rfl

namespace Dyadic

/-- Of two forms of one magnitude none has the smaller exponent: it would need more bits. -/
theorem exponent_le_of_abs_value_eq (hx : dyadic? f = some x) (hy : dyadic? g = some y)
    (h : |x.value| = |y.value|) : y.exponent ≤ x.exponent := by
  by_contra hlt
  obtain ⟨hbits, -, hleast, -⟩ := bounds hx
  obtain ⟨-, hnormal, -, -⟩ := bounds hy
  obtain ⟨j, hj⟩ : ∃ j : ℕ, y.exponent = x.exponent + (j + 1 : ℕ) :=
    ⟨(y.exponent - x.exponent - 1).toNat, by omega⟩
  have hpower : (2 : ℚ) ^ x.exponent ≠ 0 := zpow_ne_zero _ two_ne_zero
  rw [abs_value_eq_mul, abs_value_eq_mul, hj, zpow_add₀ two_ne_zero, mul_comm ((2 : ℚ) ^ x.exponent),
    ← mul_assoc, mul_left_inj' hpower, zpow_natCast] at h
  have hmantissa : x.mantissa = y.mantissa * 2 ^ (j + 1) := by exact_mod_cast h
  have hlong : 2 ^ 52 * 2 ≤ y.mantissa * 2 ^ (j + 1) :=
    Nat.mul_le_mul (hnormal.resolve_right (by omega)) (Nat.le_self_pow (by omega) 2)
  omega

theorem eq_of_abs_value_eq (hx : dyadic? f = some x) (hy : dyadic? g = some y)
    (h : |x.value| = |y.value|) : x.mantissa = y.mantissa ∧ x.exponent = y.exponent := by
  have hexponent : x.exponent = y.exponent :=
    le_antisymm (exponent_le_of_abs_value_eq hy hx h.symm) (exponent_le_of_abs_value_eq hx hy h)
  have hpower : (2 : ℚ) ^ y.exponent ≠ 0 := zpow_ne_zero _ two_ne_zero
  rw [abs_value_eq_mul, abs_value_eq_mul, hexponent, mul_left_inj' hpower, Nat.cast_inj] at h
  exact ⟨h, hexponent⟩

/-- The place of a finite number in the order of doubles. -/
def place (x : Dyadic) : ℤ ×ₗ ℤ ×ₗ ℤ :=
  if x.mantissa = 0 then toLex (0, toLex (0, 0))
  else if x.negative then toLex (-1, toLex (-x.exponent, -x.mantissa))
  else toLex (1, toLex (x.exponent, x.mantissa))

variable {u : UnpackedFloat}

theorem place_eq (h : ofUnpacked? u = some x) : Number.place u = x.place := by
  cases u with
  | infinity | notANumber => exact nomatch h
  | zero s =>
      cases h
      exact (if_pos rfl).symm
  | finite s m e hm =>
      cases h
      rw [Dyadic.place, if_neg hm.ne']
      cases s <;> rfl

theorem place_eq_place_iff (hx : dyadic? f = some x) (hy : dyadic? g = some y) :
    x.place = y.place ↔ x.value = y.value := by
  have hzero : x.mantissa = 0 ↔ x.value = 0 := value_eq_zero_iff.symm
  constructor
  · intro h
    have hparts : (x.mantissa = 0 ↔ y.mantissa = 0) ∧ (x.mantissa ≠ 0 →
        x.negative = y.negative ∧ x.mantissa = y.mantissa ∧ x.exponent = y.exponent) := by
      unfold place at h
      split_ifs at h <;> simp_all
    by_cases hm : x.mantissa = 0
    · rw [value_eq_zero_iff.2 hm, value_eq_zero_iff.2 (hparts.1.1 hm)]
    · obtain ⟨hsign, hmantissa, hexponent⟩ := hparts.2 hm
      rw [value, value, hsign, hmantissa, hexponent]
  · intro h
    obtain ⟨hmantissa, hexponent⟩ := eq_of_abs_value_eq hx hy (congrArg _ h)
    by_cases hm : x.mantissa = 0
    · rw [place, place, if_pos hm, if_pos (hmantissa ▸ hm)]
    · have hmagnitude : (x.mantissa * 2 ^ x.exponent : ℚ) ≠ 0 :=
        mul_ne_zero (Nat.cast_ne_zero.2 hm) (zpow_ne_zero _ two_ne_zero)
      rw [value, value, ← hmantissa, ← hexponent, mul_left_inj' hmagnitude] at h
      have hsign : x.negative = y.negative := by
        revert h
        cases x.negative <;> cases y.negative <;> norm_num
      rw [place, place, hsign, hmantissa, hexponent]

end Dyadic

theorem beq_iff_place (hf : f.isNaN = false) (hg : g.isNaN = false) :
    (f == g) = true ↔ place f.toModel.unpack = place g.toModel.unpack := by
  change (f.toModel.unpack.compare g.toModel.unpack == some .eq) = true ↔ _
  rw [compare_eq_compare_place hf hg, beq_iff_eq, Option.some.injEq, compare_eq_iff_eq]

/-- Finite doubles are equal when their values are. -/
theorem HasValue.beq_iff (hf : HasValue f p) (hg : HasValue g q) : (f == g) = true ↔ p = q := by
  obtain ⟨x, hx, rfl⟩ := hf
  obtain ⟨y, hy, rfl⟩ := hg
  rw [beq_iff_place (not_special_of_dyadic? hx).1 (not_special_of_dyadic? hy).1,
    Dyadic.place_eq ((dyadic?_eq f).symm.trans hx), Dyadic.place_eq ((dyadic?_eq g).symm.trans hy),
    Dyadic.place_eq_place_iff hx hy]

theorem Dyadic.place_lt_zero_iff (x : Dyadic) : x.place < toLex (0, toLex (0, 0)) ↔ x.value < 0 := by
  rcases eq_or_ne x.mantissa 0 with hm | hm
  · rw [value_eq_zero_iff.2 hm, place, if_pos hm]
    exact iff_of_false (lt_irrefl _) (lt_irrefl _)
  · have hmagnitude : (0 : ℚ) < x.mantissa * 2 ^ x.exponent := by positivity
    rw [value, place, if_neg hm]
    cases x.negative <;> simp [Prod.Lex.toLex_lt_toLex, hmagnitude, hmagnitude.le]

/-- A finite double is less than zero when its value is. -/
theorem HasValue.lt_zero_iff (h : HasValue f q) : f < 0 ↔ q < 0 := by
  obtain ⟨x, hx, rfl⟩ := h
  have hzero : Number.place (0 : Float).toModel.unpack = toLex (0, toLex (0, 0)) := rfl
  rw [lt_iff_place (not_special_of_dyadic? hx).1 (by decide +kernel), hzero,
    Dyadic.place_eq ((dyadic?_eq f).symm.trans hx), Dyadic.place_lt_zero_iff]

end Values

/-! ## Integers as doubles -/

section Integers

variable {f : Float} {u : UnpackedFloat} {x : Dyadic} {n : ℕ} {z : ℤ}

theorem Dyadic.exists_ofUnpacked?_neg (h : ofUnpacked? u = some x) :
    ∃ y, ofUnpacked? u.neg = some y ∧ y.value = -x.value := by
  cases u with
  | infinity | notANumber => exact nomatch h
  | zero s =>
      cases h
      exact ⟨_, rfl, by simp [value]⟩
  | finite s m e hm =>
      cases h
      refine ⟨_, rfl, ?_⟩
      cases s with
      | positive => exact (neg_one_mul _).trans (congrArg _ (one_mul _).symm)
      | negative =>
          change 1 * (m * 2 ^ e : ℚ) = -(-1 * _)
          ring

/-- The value of a natural number in the form that packing keeps. -/
theorem IsWhole.exists_ofUnpacked? (h : IsWhole u n) :
    ∃ x, Dyadic.ofUnpacked? u = some x ∧ x.value = n := by
  cases h with
  | zero => exact ⟨_, rfl, by simp [Dyadic.value]⟩
  | @finite m k n hm hlog h =>
      refine ⟨_, rfl, ?_⟩
      have hvalue : (m : ℚ) * 2 ^ k = n * 2 ^ 52 := by exact_mod_cast h
      have hpower : (2 : ℚ) ^ (k - 52 : ℤ) = 2 ^ k / 2 ^ 52 := by
        rw [zpow_sub₀ two_ne_zero, zpow_natCast]
        rfl
      simp only [Dyadic.value, hpower]
      rw [← mul_div_assoc, hvalue, mul_div_cancel_right₀ _ (by positivity)]
      exact one_mul _

namespace Whole

theorem hasValue (h : Whole f n) : HasValue f n := by
  obtain ⟨x, hx, hvalue⟩ := h.unpack.exists_ofUnpacked?
  exact ⟨x, (dyadic?_eq f).trans hx, hvalue⟩

theorem unpack_neg (h : Whole f n) : (-f).toModel.unpack = f.toModel.unpack.neg :=
  h.unpack.unpack_pack_neg h.1

theorem hasValue_neg (h : Whole f n) : HasValue (-f) (-n) := by
  obtain ⟨x, hx, hvalue⟩ := h.unpack.exists_ofUnpacked?
  obtain ⟨y, hy, hneg⟩ := Dyadic.exists_ofUnpacked?_neg hx
  rw [← h.unpack_neg, ← dyadic?_eq] at hy
  exact ⟨y, hy, hneg.trans (by rw [hvalue])⟩

theorem neg_neg (h : Whole f n) : -(-f) = f := by
  have hform : -(-f) = .ofModel (.pack (-f).toModel.unpack.neg) := rfl
  obtain ⟨hrange, u, hu, rfl⟩ := id h
  rw [hform, h.unpack_neg]
  change Float.ofModel (.pack (Float.Model.pack u).unpack.neg.neg) = _
  rw [hu.unpack_pack hrange]
  cases hu <;> rfl

end Whole

/-- The integer of at most 53 significant bits that is nearest to `z`, a tie going to the even
neighbour. -/
def nearestInt (z : ℤ) : ℤ := z.sign * nearest z.natAbs

theorem nearestInt_of_nearest (h : nearest z.natAbs = z.natAbs) : nearestInt z = z := by
  rw [nearestInt, h, Int.sign_mul_natAbs]

theorem nearestInt_of_lt (h : z.natAbs < 2 ^ 53) : nearestInt z = z :=
  nearestInt_of_nearest (nearest_of_lt h)

theorem nearestInt_natCast (n : ℕ) : nearestInt n = nearest n := by
  cases n with
  | zero => rfl
  | succ n => exact one_mul _

theorem nearestInt_neg (z : ℤ) : nearestInt (-z) = -nearestInt z := by
  rw [nearestInt, nearestInt, Int.sign_neg, Int.natAbs_neg, Int.neg_mul]

/-- An integer is converted by its magnitude, which gets its sign afterwards. -/
theorem ofInt_cases (h : z.natAbs < 2 ^ 80) :
    ∃ f, Whole f (nearest z.natAbs) ∧ (nearestInt z = nearest z.natAbs ∧ ofInt z = f ∨
      nearestInt z = -nearest z.natAbs ∧ ofInt z = -f) := by
  have hwhole := Whole.ofNat z.natAbs (log2_nearest_lt h)
  cases z with
  | ofNat n => exact ⟨_, hwhole, .inl ⟨nearestInt_natCast n, rfl⟩⟩
  | negSucc n => exact ⟨_, hwhole, .inr ⟨neg_one_mul _, rfl⟩⟩

/-- A conversion from integers rounds once. -/
theorem hasValue_ofInt (h : z.natAbs < 2 ^ 80) : HasValue (ofInt z) (nearestInt z) := by
  obtain ⟨f, hf, ⟨hz, hform⟩ | ⟨hz, hform⟩⟩ := ofInt_cases h <;> rw [hz, hform]
  · exact_mod_cast hf.hasValue
  · exact_mod_cast hf.hasValue_neg

theorem hasValue_neg_ofInt (h : z.natAbs < 2 ^ 80) : HasValue (-(ofInt z)) (nearestInt (-z)) := by
  obtain ⟨f, hf, ⟨hz, hform⟩ | ⟨hz, hform⟩⟩ := ofInt_cases h <;> rw [nearestInt_neg, hz, hform]
  · exact_mod_cast hf.hasValue_neg
  · rw [hf.neg_neg, neg_neg]
    exact_mod_cast hf.hasValue

theorem hasValue_ofInt_of_lt (h : z.natAbs < 2 ^ 53) : HasValue (ofInt z) z := by
  have hvalue := hasValue_ofInt (z := z) (h.trans (by decide))
  rwa [nearestInt_of_lt h] at hvalue

theorem HasValue.abs_eq (h : HasValue f z) : ∃ x, dyadic? f = some x ∧ |x.value| = z.natAbs := by
  obtain ⟨x, hx, hvalue⟩ := h
  exact ⟨x, hx, by rw [hvalue, Nat.cast_natAbs, Int.cast_abs]⟩

theorem HasValue.whole_abs (h : HasValue f z) : Whole f.abs z.natAbs := by
  obtain ⟨x, hx, habs⟩ := h.abs_eq
  rcases Nat.eq_zero_or_pos z.natAbs with hzero | hpos
  · rw [hzero, Nat.cast_zero, abs_eq_zero, Dyadic.value_eq_zero_iff] at habs
    rw [hzero]
    refine ⟨by decide, .zero .positive, .zero, ?_⟩
    rw [dyadic?_eq] at hx
    change Float.ofModel (.pack f.toModel.unpack.abs) = _
    revert hx habs
    cases f.toModel.unpack with
    | infinity | notANumber => exact nofun
    | zero s => exact fun _ _ ↦ rfl
    | finite s m e hm =>
        rintro ⟨⟩ hm'
        exact absurd hm' hm.ne'
  · exact Whole.abs_of_value hx habs hpos

/-- A double whose value is an integer is what the integer is rounded to. -/
theorem HasValue.nearestInt_eq (h : HasValue f z) : nearestInt z = z :=
  nearestInt_of_nearest h.whole_abs.nearest_eq

theorem HasValue.truncate_eq (h : HasValue f z) : truncate f = f := by
  obtain ⟨x, hx, habs⟩ := h.abs_eq
  rw [truncate, hx]
  exact if_pos (Dyadic.isIntegral_iff.2 ⟨_, habs⟩)

theorem HasValue.toInt64_eq (h : HasValue f z) : toInt64 f = clamp int64Min int64Max z := by
  obtain ⟨x, hx, hvalue⟩ := h
  rw [toInt64, toIntWithin, hx]
  dsimp only
  rw [Dyadic.truncate_eq, hvalue, Int.ceil_intCast, Int.floor_intCast, ite_self]

/-- An integer that is a double is read back. -/
theorem toInt64_ofInt (h : z.natAbs < 2 ^ 53) : toInt64 (ofInt z) = z := by
  rw [(hasValue_ofInt_of_lt h).toInt64_eq]
  refine clamp_of_mem ?_ ?_ <;> simp only [int64Min, int64Max] <;> omega

/-! ## Doubles as integers -/

theorem clamp_int64_natAbs_lt (z : ℤ) : (clamp int64Min int64Max z).natAbs < 2 ^ 80 := by
  have hrange : int64Min ≤ int64Max := by decide
  have hl := le_clamp (n := z) hrange
  have hh := clamp_le (n := z) hrange
  simp only [int64Min, int64Max] at hl hh ⊢
  omega

theorem HasValue.toInteger?_eq (h : HasValue f z) :
    toInteger? f =
      if z = nearestInt (clamp int64Min int64Max z) then some (clamp int64Min int64Max z)
      else none := by
  have hbeq := h.beq_iff (hasValue_ofInt (clamp_int64_natAbs_lt z))
  rw [Int.cast_inj] at hbeq
  simp only [toInteger?, h.toInt64_eq, h.isFinite, Bool.true_and, hbeq]

/-- Only a double whose value is an integer converts to one. -/
theorem exists_hasValue_of_toInteger? (h : toInteger? f = some z) : ∃ z : ℤ, HasValue f z := by
  have hguard : (f.isFinite && f == ofInt (toInt64 f)) = true := by
    by_contra hguard
    rw [toInteger?, if_neg hguard] at h
    exact nomatch h
  obtain ⟨hfinite, hbeq⟩ := Bool.and_eq_true_iff.1 hguard
  obtain ⟨x, hx⟩ := Option.isSome_iff_exists.1 ((isSome_dyadic? f).trans hfinite)
  have hread : toInt64 f = clamp int64Min int64Max x.truncate := by rw [toInt64, toIntWithin, hx]
  rw [hread] at hbeq
  have hvalue : HasValue f x.value := ⟨x, hx, rfl⟩
  exact ⟨_, x, hx, (hvalue.beq_iff (hasValue_ofInt (clamp_int64_natAbs_lt _))).1 hbeq⟩

/-- A double converts to the 64-bit integer of its value, if it has one.  The only other double that
converts is `2 ^ 63`, to the integer below it. -/
theorem toInteger?_eq_some_iff (f : Float) (n : ℤ) :
    toInteger? f = some n ↔
      (HasValue f n ∧ int64Min ≤ n ∧ n ≤ int64Max) ∨ (HasValue f (2 ^ 63) ∧ n = int64Max) := by
  have hleast : nearestInt int64Min = int64Min := by decide +kernel
  have hgreatest : nearestInt int64Max = 2 ^ 63 := by decide +kernel
  constructor
  · intro h
    obtain ⟨z, hz⟩ := exists_hasValue_of_toInteger? h
    rw [hz.toInteger?_eq] at h
    split at h
    · next hround =>
      obtain rfl := Option.some.inj h
      rcases lt_or_ge z int64Min with hlow | hlow
      · rw [clamp, if_pos hlow, hleast] at hround
        exact absurd hround hlow.ne
      rcases lt_or_ge int64Max z with hhigh | hhigh
      · have hclamp : clamp int64Min int64Max z = int64Max := by
          rw [clamp, if_neg hlow.not_gt, if_pos hhigh]
        rw [hclamp, hgreatest] at hround
        subst hround
        exact .inr ⟨by exact_mod_cast hz, hclamp⟩
      · rw [clamp_of_mem hlow hhigh]
        exact .inl ⟨hz, hlow, hhigh⟩
    · cases h
  · rintro (⟨hn, hlow, hhigh⟩ | ⟨hn, rfl⟩)
    · rw [hn.toInteger?_eq, clamp_of_mem hlow hhigh, if_pos hn.nearestInt_eq.symm]
    · have hvalue : HasValue f (2 ^ 63 : ℤ) := by exact_mod_cast hn
      have hclamp : clamp int64Min int64Max (2 ^ 63) = int64Max := by decide
      rw [hvalue.toInteger?_eq, hclamp, hgreatest, if_pos rfl]

/-- The double `2 ^ 63` is no 64-bit integer, and converts to one. -/
theorem toInteger?_two_pow_63 :
    HasValue (ofNat (2 ^ 63)) (2 ^ 63) ∧ int64Max < 2 ^ 63 ∧
      toInteger? (ofNat (2 ^ 63)) = some int64Max := by
  have hnearest : nearest (2 ^ 63) = 2 ^ 63 := by decide +kernel
  have hvalue := (Whole.ofNat (2 ^ 63) (by rw [hnearest, Nat.log2_two_pow]; decide)).hasValue
  rw [hnearest] at hvalue
  have hinteger : HasValue (ofNat (2 ^ 63)) (2 ^ 63 : ℤ) := by exact_mod_cast hvalue
  refine ⟨by exact_mod_cast hvalue, by decide, hinteger.toInteger?_eq.trans ?_⟩
  decide +kernel

end Integers

end LuaEmbed.Number
