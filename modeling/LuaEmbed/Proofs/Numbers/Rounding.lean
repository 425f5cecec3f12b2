import LuaEmbed.Number.Numeral
import Mathlib

/-!
# Natural numbers as doubles

A double holds 53 bits.  `nearest` rounds a natural number to that many bits, and `Whole f n` says
that the double `f` is the number `n`, in the one form that packing and unpacking keep.  Conversion
from natural numbers, sums and products of whole doubles give the `nearest` of the exact result, as
long as that is in the range of doubles.

Exponents are differences of natural numbers throughout: `m * 2 ^ (k - c)` is the number `n` when
`m * 2 ^ k = n * 2 ^ c`.
-/

namespace LuaEmbed.Number

/-! ## Rounded quotients -/

section RoundDiv

variable {n d c q r : Nat}

/-- A quotient is rounded up when its remainder is more than half of the divisor, or half of it
with an odd quotient. -/
theorem roundDiv_mul_add (hr : r < d) :
    roundDiv (q * d + r) d = if d < 2 * r ∨ (2 * r = d ∧ q % 2 = 1) then q + 1 else q := by
  have hdiv : (q * d + r) / d = q := by
    rw [Nat.mul_comm, Nat.mul_add_div (Nat.zero_lt_of_lt hr), Nat.div_eq_of_lt hr, Nat.add_zero]
  have hmod : (q * d + r) % d = r := by
    rw [Nat.mul_comm, Nat.mul_add_mod, Nat.mod_eq_of_lt hr]
  simp only [roundDiv, hdiv, hmod, Bool.or_eq_true, decide_eq_true_eq, Bool.and_eq_true, beq_iff_eq]

theorem roundDiv_mul (hd : 0 < d) : roundDiv (q * d) d = q := by
  rw [← Nat.add_zero (q * d), roundDiv_mul_add hd, if_neg (by omega)]

theorem roundDiv_mul_mul (hd : 0 < d) (hc : 0 < c) : roundDiv (n * c) (d * c) = roundDiv n d := by
  have hsplit : n * c = n / d * (d * c) + n % d * c := by
    rw [← Nat.mul_assoc, ← Nat.add_mul, Nat.div_add_mod']
  have hhalf : d * c < 2 * (n % d * c) ↔ d < 2 * (n % d) := by
    rw [← Nat.mul_assoc]
    exact Nat.mul_lt_mul_right hc
  have htie : 2 * (n % d * c) = d * c ↔ 2 * (n % d) = d := by
    rw [← Nat.mul_assoc]
    exact Nat.mul_left_inj hc.ne'
  rw [hsplit, roundDiv_mul_add (Nat.mul_lt_mul_of_pos_right (Nat.mod_lt n hd) hc)]
  simp only [hhalf, htie]
  rw [← roundDiv_mul_add (Nat.mod_lt n hd), Nat.div_add_mod']

theorem div_le_roundDiv (n d : Nat) : n / d ≤ roundDiv n d := by
  unfold roundDiv
  dsimp only
  split <;> omega

theorem roundDiv_le (n d : Nat) : roundDiv n d ≤ n / d + 1 := by
  unfold roundDiv
  dsimp only
  split <;> omega

end RoundDiv

/-! ## Rounding to 53 bits -/

variable {n m k c a b : Nat}

/-- The distance of the doubles around a natural number.  Below 53 bits it is one. -/
def ulp (n : Nat) : Nat := 2 ^ (n.log2 - 52)

/-- The natural number of at most 53 significant bits that is nearest to `n`, a tie going to the
even neighbour. -/
def nearest (n : Nat) : Nat := roundDiv n (ulp n) * ulp n

theorem ulp_pos (n : Nat) : 0 < ulp n := Nat.two_pow_pos _

theorem log2_mul_two_pow (hn : 0 < n) (k : Nat) : (n * 2 ^ k).log2 = n.log2 + k := by
  rw [Nat.log2_eq_iff (Nat.mul_pos hn (Nat.two_pow_pos k)).ne', Nat.pow_add, Nat.add_right_comm,
    Nat.pow_add _ _ k]
  exact ⟨Nat.mul_le_mul_right _ (Nat.log2_self_le hn.ne'),
    Nat.mul_lt_mul_of_pos_right Nat.lt_log2_self (Nat.two_pow_pos k)⟩

theorem pos_of_mul_two_pow_eq (hm : 0 < m) (h : m * 2 ^ k = n * 2 ^ c) : 0 < n :=
  Nat.pos_of_mul_pos_right (h ▸ Nat.mul_pos hm (Nat.two_pow_pos k))

/-- Two ways to write one number have their leading bits in one place. -/
theorem log2_add_eq (hm : 0 < m) (h : m * 2 ^ k = n * 2 ^ c) : m.log2 + k = n.log2 + c := by
  rw [← log2_mul_two_pow hm, ← log2_mul_two_pow (pos_of_mul_two_pow_eq hm h), h]

theorem nearest_of_dvd (h : ulp n ∣ n) : nearest n = n := by
  obtain ⟨q, hq⟩ := h
  have hround : roundDiv n (ulp n) = q := by
    rw [Nat.mul_comm] at hq
    exact (congrArg (roundDiv · (ulp n)) hq).trans (roundDiv_mul (ulp_pos n))
  rw [nearest, hround, Nat.mul_comm, ← hq]

theorem nearest_of_lt (h : n < 2 ^ 53) : nearest n = n := by
  refine nearest_of_dvd ?_
  have hlog : n.log2 ≤ 52 := by
    by_cases hn : n = 0
    · simp [hn]
    · exact Nat.lt_succ_iff.1 ((Nat.log2_lt hn).2 h)
  rw [ulp, Nat.sub_eq_zero_of_le hlog]
  exact Nat.one_dvd n

/-- Rounding does not depend on the unit that a number is measured in. -/
theorem nearest_mul_two_pow (n k : Nat) : nearest (n * 2 ^ k) = nearest n * 2 ^ k := by
  by_cases hn : n = 0
  · simp [hn, nearest, roundDiv]
  have hlog := log2_mul_two_pow (Nat.pos_of_ne_zero hn) k
  by_cases hsmall : n.log2 ≤ 52
  · -- No bit of `n` is lost, so none of the multiple is.
    have hone : ulp n = 1 := by rw [ulp, Nat.sub_eq_zero_of_le hsmall, Nat.pow_zero]
    rw [nearest_of_dvd (n := n) (hone ▸ Nat.one_dvd n)]
    refine nearest_of_dvd (Nat.dvd_trans (Nat.pow_dvd_pow 2 ?_) (Nat.dvd_mul_left _ n))
    omega
  · have hulp : ulp (n * 2 ^ k) = ulp n * 2 ^ k := by
      rw [ulp, ulp, hlog, ← Nat.pow_add]
      congr 1
      omega
    rw [nearest, hulp, roundDiv_mul_mul (ulp_pos n) (Nat.two_pow_pos k), ← Nat.mul_assoc, nearest]

/-- The bits that are kept of a number of at least 53. -/
theorem roundDiv_ulp_bounds (h : 52 ≤ n.log2) :
    2 ^ 52 ≤ roundDiv n (ulp n) ∧ roundDiv n (ulp n) ≤ 2 ^ 53 := by
  have hn : n ≠ 0 := by
    rintro rfl
    simp at h
  have hlow : 2 ^ 52 ≤ n / ulp n := by
    rw [Nat.le_div_iff_mul_le (ulp_pos n), ulp, ← Nat.pow_add, Nat.add_sub_cancel' h]
    exact Nat.log2_self_le hn
  have hhigh : n / ulp n < 2 ^ 53 := by
    rw [Nat.div_lt_iff_lt_mul (ulp_pos n), ulp, ← Nat.pow_add,
      show 53 + (n.log2 - 52) = n.log2 + 1 by omega]
    exact Nat.lt_log2_self
  have hle := roundDiv_le n (ulp n)
  exact ⟨hlow.trans (div_le_roundDiv n _), by omega⟩

theorem nearest_le (n : Nat) : nearest n ≤ 2 * n := by
  rcases Nat.lt_or_ge n (2 ^ 53) with hsmall | hlarge
  · rw [nearest_of_lt hsmall]
    omega
  · have hulp : ulp n ≤ n :=
      (Nat.pow_le_pow_right Nat.two_pos (Nat.sub_le ..)).trans (Nat.log2_self_le (by omega))
    calc nearest n ≤ (n / ulp n + 1) * ulp n := Nat.mul_le_mul_right _ (roundDiv_le n _)
      _ = n / ulp n * ulp n + ulp n := Nat.succ_mul ..
      _ ≤ n + n := Nat.add_le_add (Nat.div_mul_le_self ..) hulp
      _ = 2 * n := (Nat.two_mul n).symm

theorem log2_nearest_lt (h : n < 2 ^ 80) : (nearest n).log2 < 1024 := by
  have hle := nearest_le n
  by_cases hzero : nearest n = 0
  · simp [hzero]
  · exact ((Nat.log2_lt (k := 81) hzero).2 (by omega)).trans (by decide)

/-- Rounding twice is rounding once. -/
theorem nearest_idem (n : Nat) : nearest (nearest n) = nearest n := by
  rcases Nat.lt_or_ge n (2 ^ 53) with hsmall | hlarge
  · rw [nearest_of_lt hsmall, nearest_of_lt hsmall]
  · have hlog : 53 ≤ n.log2 := (Nat.le_log2 (by omega)).2 hlarge
    have hexact : nearest (roundDiv n (ulp n)) = roundDiv n (ulp n) := by
      rcases (roundDiv_ulp_bounds (n := n) (by omega)).2.lt_or_eq with hround | hround
      · exact nearest_of_lt hround
      · exact hround ▸ nearest_of_dvd (by decide)
    conv_lhs => rw [nearest.eq_def n, ulp, nearest_mul_two_pow, ← ulp, hexact]
    rfl

/-! ## Rounding a mantissa

The model of doubles shifts a mantissa to the right bit by bit and keeps two bits of what is lost:
the last one, and whether there was any before it. -/

section Mantissa

open Float.Model Float.Model.UnpackedFloat

theorem mod_two_pow_succ (m k : Nat) :
    m % 2 ^ (k + 1) = m / 2 ^ k % 2 * 2 ^ k + m % 2 ^ k := by
  rw [Nat.pow_succ, Nat.mod_mul, Nat.add_comm, Nat.mul_comm]

theorem shiftRight_exact (m k : Nat) :
    ExtendedMantissa.mk m false false >>> (k + 1) =
      ⟨m / 2 ^ (k + 1), m / 2 ^ k % 2 != 0, m % 2 ^ k != 0⟩ := by
  induction k with
  | zero =>
      change ExtendedMantissa.shiftRightOne ⟨m, false, false⟩ = _
      simp [ExtendedMantissa.shiftRightOne, Nat.mod_one]
  | succ k ih =>
      change ExtendedMantissa.shiftRightOne (ExtendedMantissa.mk m false false >>> (k + 1)) = _
      rw [ih, ExtendedMantissa.shiftRightOne, ExtendedMantissa.mk.injEq]
      refine ⟨by rw [Nat.div_div_eq_div_mul, ← Nat.pow_succ], rfl, ?_⟩
      have hpow := Nat.two_pow_pos k
      rcases Nat.mod_two_eq_zero_or_one (m / 2 ^ k) with hbit | hbit
      · simp [mod_two_pow_succ, hbit]
      · simp [mod_two_pow_succ, hbit]

/-- The two bits that are kept decide the rounding as the whole remainder would. -/
theorem roundedMantissa_bits {q bit low half : Nat} (hbit : bit < 2) (hlow : low < half) :
    (ExtendedMantissa.mk q (bit != 0) (low != 0)).roundedMantissa =
      if 2 * half < 2 * (bit * half + low) ∨ (2 * (bit * half + low) = 2 * half ∧ q % 2 = 1)
      then q + 1 else q := by
  obtain rfl | rfl : bit = 0 ∨ bit = 1 := by omega
  · rw [if_neg (by omega)]
    cases h : low != 0 <;> rfl
  · by_cases h : low = 0
    · subst h
      change q + q % 2 = _
      split <;> omega
    · rw [if_pos (by omega), bne_iff_ne.2 h]
      rfl

/-- Shifting a mantissa and rounding it is a rounded quotient. -/
theorem roundedMantissa_shiftRight (m k : Nat) :
    (ExtendedMantissa.mk m false false >>> k).roundedMantissa = roundDiv m (2 ^ k) := by
  cases k with
  | zero =>
      have hone := roundDiv_mul (q := m) Nat.one_pos
      rw [Nat.mul_one] at hone
      exact hone.symm
  | succ k =>
      have hlow := Nat.mod_lt m (Nat.two_pow_pos k)
      have hbit := Nat.mod_lt (m / 2 ^ k) Nat.two_pos
      have hdouble : 2 ^ (k + 1) = 2 * 2 ^ k := by rw [Nat.pow_succ, Nat.mul_comm]
      have hrest : m / 2 ^ k % 2 * 2 ^ k + m % 2 ^ k < 2 ^ (k + 1) := by
        have := Nat.mul_le_mul_right (2 ^ k) (Nat.le_of_lt_succ hbit)
        omega
      rw [shiftRight_exact, roundedMantissa_bits hbit hlow, ← hdouble, ← roundDiv_mul_add hrest,
        ← mod_two_pow_succ, Nat.div_add_mod']

/-- What a double keeps of the positive number `n`: 53 bits and an exponent. -/
inductive IsWhole : UnpackedFloat → Nat → Prop
  | zero : IsWhole (.zero .positive) 0
  | finite {m k n : Nat} (hm : 0 < m) (hlog : m.log2 = 52) (h : m * 2 ^ k = n * 2 ^ 52) :
      IsWhole (.finite .positive m (k - 52) hm) n

theorem targetExponent_eq {m : Nat} {e : Int} (h : 0 ≤ m.log2 + e) :
    Format.binary64.targetExponent (totalExponent m e) = m.log2 + e - 52 := by
  have hmin : Format.binary64.minExponent = -1074 := by decide
  have hbits : (Format.binary64.mantissaBits : Int) = 53 := by decide
  rw [Format.targetExponent, totalExponent, hmin, hbits]
  omega

theorem shiftToTargetExponent_eq {m : Nat} {e : Int} (h : 0 ≤ m.log2 + e) (hm : 52 ≤ m.log2) :
    shiftToTargetExponent .binary64 m e .exact =
      (ExtendedMantissa.mk m false false >>> (m.log2 - 52), e + (m.log2 - 52 : Nat)) := by
  rw [shiftToTargetExponent, targetExponent_eq h, shiftToExponent]
  have hshift : (m.log2 + e - 52 - e).toNat = m.log2 - 52 := by omega
  rw [hshift]
  rfl

/-- Rounding an exact number of at least 53 bits. -/
theorem isWhole_roundWithAccuracy (hm : 52 ≤ m.log2) (h : m * 2 ^ k = n * 2 ^ c) :
    IsWhole (roundWithAccuracy .binary64 .positive m (k - c) .exact) (nearest n) := by
  have hpos : 0 < m := Nat.pos_of_ne_zero (by rintro rfl; simp at hm)
  have hlog := log2_add_eq hpos h
  obtain ⟨hlow, hhigh⟩ := roundDiv_ulp_bounds hm
  have hvalue : roundDiv m (ulp m) * 2 ^ n.log2 = nearest n * 2 ^ 52 := by
    have hround : nearest m * 2 ^ k = nearest n * 2 ^ c := by
      rw [← nearest_mul_two_pow, h, nearest_mul_two_pow]
    refine Nat.mul_right_cancel (Nat.two_pow_pos c) ?_
    calc roundDiv m (ulp m) * 2 ^ n.log2 * 2 ^ c
        = roundDiv m (ulp m) * 2 ^ (n.log2 + c) := by rw [Nat.mul_assoc, ← Nat.pow_add]
      _ = roundDiv m (ulp m) * 2 ^ (m.log2 - 52 + (k + 52)) := by
          rw [← hlog]
          congr 2
          omega
      _ = nearest m * 2 ^ k * 2 ^ 52 := by rw [nearest, ulp]; ring
      _ = nearest n * 2 ^ 52 * 2 ^ c := by rw [hround]; ring
  have hfirst : (k - c : Int) + (m.log2 - 52 : Nat) = n.log2 - 52 := by omega
  unfold roundWithAccuracy
  rw [shiftToTargetExponent_eq (by omega) hm]
  dsimp only
  rw [roundedMantissa_shiftRight, hfirst, ← ulp]
  rcases hhigh.lt_or_eq with hhigh | hcarry
  · have hbits : (roundDiv m (ulp m)).log2 = 52 :=
      (Nat.log2_eq_iff (by omega)).2 ⟨hlow, hhigh⟩
    rw [shiftToTargetExponent_eq (by omega) hbits.ge, hbits, Nat.sub_self, Nat.cast_zero, add_zero]
    exact (dif_neg (Nat.two_pow_pos 52 |>.trans_le hlow).ne').symm ▸ .finite _ hbits hvalue
  · -- Rounding up has carried into one more bit, which is shifted out.
    have hbits : (2 ^ 53 : Nat).log2 = 53 := Nat.log2_two_pow
    rw [hcarry] at hvalue ⊢
    rw [shiftToTargetExponent_eq (by omega) (by omega), hbits]
    have hone : ((n.log2 - 52 : Int) + (53 - 52 : Nat)) = (n.log2 + 1 : Nat) - 52 := by omega
    rw [hone]
    refine .finite (m := 2 ^ 52) (Nat.two_pow_pos 52) Nat.log2_two_pow ?_
    rw [← hvalue]
    ring

/-- Rounding an exact number, which may be of fewer bits. -/
theorem isWhole_round (hm : 0 < m) (h : m * 2 ^ k = n * 2 ^ c) :
    IsWhole (UnpackedFloat.round .binary64 .positive m (k - c)) (nearest n) := by
  have hlog := log2_add_eq hm h
  rw [UnpackedFloat.round, targetExponent_eq (by omega), decreaseExponent]
  dsimp only
  obtain ⟨j, hj⟩ : ∃ j : Nat, ((k - c : Int) - (m.log2 + (k - c) - 52)).toNat = j := ⟨_, rfl⟩
  have hexponent : (k - c : Int) - j = k - (c + j : Nat) := by omega
  rw [hj, Nat.shiftLeft_eq, hexponent]
  refine isWhole_roundWithAccuracy ?_ ?_
  · rw [log2_mul_two_pow hm]
    omega
  · rw [Nat.mul_right_comm, h, Nat.pow_add, Nat.mul_assoc]

theorem isWhole_normalize (h : m * 2 ^ k = n * 2 ^ c) :
    IsWhole (UnpackedFloat.normalize .binary64 m (k - c) .positive) (nearest n) := by
  rw [UnpackedFloat.normalize]
  rcases Nat.eq_zero_or_pos m with rfl | hm
  · obtain rfl : n = 0 := by
      rw [Nat.zero_mul] at h
      exact (Nat.mul_eq_zero.1 h.symm).resolve_right (Nat.two_pow_pos c).ne'
    exact .zero
  · have hgt : compare (m : Int) 0 = .gt := compare_gt_iff_gt.2 (Int.natCast_pos.2 hm)
    rw [hgt]
    exact isWhole_round hm h

theorem isWhole_ofNat (n : Nat) : IsWhole (UnpackedFloat.ofNat .binary64 n) (nearest n) :=
  isWhole_normalize (k := 0) (c := 0) rfl

/-! ## Forms in memory -/

theorem ofBitVec_unpackSign (s : Sign) (e : BitVec 11) (m : BitVec 52) :
    Sign.ofBitVec (unpackSign (packComponents .binary64 s e m)) = s := by
  have hbits : unpackSign (packComponents .binary64 s e m) = s.toBitVec := by
    simp only [unpackSign, packComponents, BitVec.extractLsb]
    rw [BitVec.extractLsb'_append_eq_of_le (by omega),
      BitVec.extractLsb'_append_eq_of_le (by omega)]
    cases s <;> rfl
  rw [hbits]
  cases s <;> rfl

/-- A normal double of at least one keeps its form in memory. -/
theorem unpack_pack_finite (s : Sign) (hm : 0 < m) (hlog : m.log2 = 52) (hk : k < 1024) :
    (Float.Model.pack (.finite s m (k - 52) hm)).unpack = .finite s m (k - 52) hm := by
  have hbiased : ((k - 52 : Int) + Format.binary64.exponentBias +
      Format.binary64.mantissaBitsWithoutImplicit).toNat = k + 1023 := by
    change ((k - 52 : Int) + 1023 + 52).toNat = k + 1023
    omega
  have hpack : UnpackedFloat.pack .binary64 (.finite s m (k - 52) hm) =
      packComponents .binary64 s (BitVec.ofNat 11 (k + 1023)) (BitVec.ofNat 52 m) := by
    simp only [UnpackedFloat.pack, hbiased, hlog]
    rw [if_neg (show ¬2048 ≤ k + 1023 + 1 by omega)]
    rfl
  have hexponent : (BitVec.ofNat 11 (k + 1023)).toNat = k + 1023 := by
    rw [BitVec.toNat_ofNat]
    exact Nat.mod_eq_of_lt (by omega)
  have hfinite : BitVec.ofNat 11 (k + 1023) ≠ -1#11 := fun heq ↦ by
    have hones : k + 1023 = 2047 := hexponent.symm.trans (congrArg BitVec.toNat heq)
    omega
  have hnormal : BitVec.ofNat 11 (k + 1023) ≠ 0#11 := fun heq ↦ by
    have hzero : k + 1023 = 0 := hexponent.symm.trans (congrArg BitVec.toNat heq)
    omega
  have hmantissa : (1#1 ++ BitVec.ofNat 52 m).toNat = m := by
    obtain ⟨hlow, hhigh⟩ := (Nat.log2_eq_iff hm.ne').1 hlog
    rw [BitVec.toNat_append, ← Nat.shiftLeft_add_eq_or_of_lt (BitVec.ofNat 52 m).isLt,
      BitVec.toNat_ofNat, Nat.shiftLeft_eq]
    change 1 * 2 ^ 52 + m % 2 ^ 52 = m
    omega
  have hunbiased : ((k + 1023 : Nat) : Int) - (Format.binary64.exponentBias +
      Format.binary64.mantissaBitsWithoutImplicit) = k - 52 := by
    change ((k + 1023 : Nat) : Int) - (1023 + 52) = k - 52
    omega
  change UnpackedFloat.unpack .binary64 (UnpackedFloat.pack .binary64 _) = _
  rw [hpack, UnpackedFloat.unpack]
  simp only [unpackMantissa_packComponents, unpackExponent_packComponents, ofBitVec_unpackSign,
    if_neg hfinite, if_neg hnormal, hmantissa, hexponent, hunbiased]

namespace IsWhole

variable {u v : UnpackedFloat}

theorem nearest_eq (h : IsWhole u n) : nearest n = n := by
  cases h with
  | zero => rfl
  | @finite m k n hm hlog h =>
      have hmax : ulp m = 1 := by rw [ulp, hlog, Nat.sub_self, Nat.pow_zero]
      refine Nat.mul_right_cancel (Nat.two_pow_pos 52) ?_
      rw [← nearest_mul_two_pow, ← h, nearest_mul_two_pow, nearest_of_dvd (hmax ▸ Nat.one_dvd m)]

/-- A number has one form. -/
theorem unique (hu : IsWhole u n) (hv : IsWhole v n) : u = v := by
  cases hu with
  | zero =>
      cases hv with
      | zero => rfl
      | @finite m k _ hm _ h => 
          rw [Nat.zero_mul] at h
          exact absurd h (Nat.mul_pos hm (Nat.two_pow_pos k)).ne'
  | @finite m k _ hm hlog h =>
      cases hv with
      | zero =>
          rw [Nat.zero_mul] at h
          exact absurd h (Nat.mul_pos hm (Nat.two_pow_pos k)).ne'
      | @finite m' k' _ hm' hlog' h' =>
          obtain rfl : k = k' := by
            have := log2_add_eq hm (h.trans h'.symm)
            omega
          obtain rfl : m = m' := Nat.mul_right_cancel (Nat.two_pow_pos k) (h.trans h'.symm)
          rfl

/-- A form stands for one number. -/
theorem value_unique (hn : IsWhole u n) (hm : IsWhole u m) : n = m := by
  cases hn with
  | zero =>
      cases hm
      rfl
  | @finite a k n ha hlog h =>
      generalize hk : (k - 52 : Int) = e at hm
      cases hm with
      | @finite _ k' _ _ _ h' =>
          obtain rfl : k = k' := by omega
          exact Nat.mul_right_cancel (Nat.two_pow_pos 52) (h.symm.trans h')

theorem mul (hu : IsWhole u a) (hv : IsWhole v b) :
    IsWhole (UnpackedFloat.mul .binary64 u v) (nearest (a * b)) := by
  cases hu with
  | zero =>
      rw [Nat.zero_mul]
      cases hv <;> exact .zero
  | @finite m k a hm hlog h =>
      cases hv with
      | zero =>
          rw [Nat.mul_zero]
          exact .zero
      | @finite m' k' b hm' hlog' h' =>
          have hexponent : (k - 52 : Int) + (k' - 52) = (k + k' : Nat) - (104 : Nat) := by omega
          change IsWhole (roundWithAccuracy .binary64 .positive (m * m') _ .exact) _
          rw [hexponent]
          refine isWhole_roundWithAccuracy ?_ ?_
          · rw [Nat.le_log2 (Nat.mul_pos hm hm').ne']
            exact ((Nat.le_log2 hm.ne').1 hlog.ge).trans (Nat.le_mul_of_pos_right m hm')
          · calc m * m' * 2 ^ (k + k') = m * 2 ^ k * (m' * 2 ^ k') := by ring
              _ = a * b * 2 ^ 104 := by rw [h, h']; ring

theorem add (hu : IsWhole u a) (hv : IsWhole v b) :
    IsWhole (UnpackedFloat.add .binary64 u v) (nearest (a + b)) := by
  cases hu with
  | zero =>
      rw [Nat.zero_add, hv.nearest_eq]
      cases hv with
      | zero => exact .zero
      | finite hm hlog h => exact .finite hm hlog h
  | @finite m k a hm hlog h =>
      cases hv with
      | zero =>
          rw [Nat.add_zero, (IsWhole.finite hm hlog h).nearest_eq]
          exact .finite hm hlog h
      | @finite m' k' b hm' hlog' h' =>
          obtain ⟨l, hl⟩ : ∃ l, min k k' = l := ⟨_, rfl⟩
          have hmin : min (k - 52 : Int) (k' - 52) = l - (52 : Nat) := by omega
          have hleft : ((k - 52 : Int) - (l - (52 : Nat))).toNat = k - l := by omega
          have hright : ((k' - 52 : Int) - (l - (52 : Nat))).toNat = k' - l := by omega
          simp only [UnpackedFloat.add, decreaseExponent, hmin, hleft, hright, Sign.apply,
            Nat.shiftLeft_eq]
          have hsum : (m * 2 ^ (k - l) + m' * 2 ^ (k' - l)) * 2 ^ l = (a + b) * 2 ^ 52 := by
            rw [Nat.add_mul, Nat.add_mul, Nat.mul_assoc, Nat.mul_assoc, ← Nat.pow_add,
              ← Nat.pow_add, Nat.sub_add_cancel (by omega), Nat.sub_add_cancel (by omega), h, h']
          rw [← Nat.cast_add]
          exact isWhole_normalize hsum

/-- In the range of doubles a number keeps its form in memory. -/
theorem unpack_pack (hu : IsWhole u n) (hn : n.log2 < 1024) : (Float.Model.pack u).unpack = u := by
  cases hu with
  | zero => rfl
  | finite hm hlog h =>
      have := log2_add_eq hm h
      exact unpack_pack_finite .positive hm hlog (by omega)

/-- So does its negation. -/
theorem unpack_pack_neg (hu : IsWhole u n) (hn : n.log2 < 1024) :
    (Float.Model.pack u.neg).unpack = u.neg := by
  cases hu with
  | zero => rfl
  | finite hm hlog h =>
      have := log2_add_eq hm h
      exact unpack_pack_finite .negative hm hlog (by omega)

end IsWhole

theorem isWhole_ofScientific (hn : 0 < n) :
    IsWhole (UnpackedFloat.ofScientific .binary64 n 0) (nearest n) := by
  have hlarge : ¬(0 : Int) > 2 ^ Format.binary64.exponentBits := by decide
  have hsmall : ¬(0 : Int) < -((2 ^ Format.binary64.exponentBits : Int) + n.log2) := by
    change ¬(0 : Int) < -(2048 + n.log2)
    omega
  have hone : 10 ^ (0 : Int).toNat = 1 := rfl
  have hbits : Format.binary64.mantissaBits = 53 := rfl
  have hexponent : -((53 : Nat) : Int) + 0 = (0 : Nat) - (53 : Nat) := by decide
  simp only [UnpackedFloat.ofScientific, dif_neg hn.ne', if_neg hlarge, if_neg hsmall,
    if_pos (le_refl (0 : Int)), UnpackedFloat.mul, hone, hbits, hexponent, Nat.mul_one,
    Nat.shiftLeft_eq]
  refine isWhole_roundWithAccuracy ?_ (by rw [Nat.pow_zero, Nat.mul_one])
  rw [log2_mul_two_pow hn]
  omega

end Mantissa

/-! ## Whole doubles -/

open Float.Model (UnpackedFloat)

/-- The double is the natural number `n`. -/
def Whole (f : Float) (n : Nat) : Prop :=
  n.log2 < 1024 ∧ ∃ u, IsWhole u n ∧ f = .ofModel (.pack u)

namespace Whole

variable {f g : Float}

theorem unpack (h : Whole f n) : IsWhole f.toModel.unpack n := by
  obtain ⟨hrange, u, hu, rfl⟩ := h
  exact (hu.unpack_pack hrange).symm ▸ hu

theorem nearest_eq (h : Whole f n) : nearest n = n := h.unpack.nearest_eq

/-- A double is one number. -/
theorem value_unique (hn : Whole f n) (hm : Whole f m) : n = m := hn.unpack.value_unique hm.unpack

/-- A number is one double. -/
theorem unique (hf : Whole f n) (hg : Whole g n) : f = g := by
  obtain ⟨-, u, hu, rfl⟩ := hf
  obtain ⟨-, v, hv, rfl⟩ := hg
  rw [hu.unique hv]

theorem mul (hf : Whole f a) (hg : Whole g b) (hrange : (nearest (a * b)).log2 < 1024) :
    Whole (f * g) (nearest (a * b)) :=
  ⟨hrange, _, hf.unpack.mul hg.unpack, rfl⟩

theorem add (hf : Whole f a) (hg : Whole g b) (hrange : (nearest (a + b)).log2 < 1024) :
    Whole (f + g) (nearest (a + b)) :=
  ⟨hrange, _, hf.unpack.add hg.unpack, rfl⟩

/-- The first power of ten, by which small numbers are multiplied. -/
theorem one : Whole Float.exactlyRepresentablePowersOfTen[0] 1 :=
  ⟨by decide, _,
    .finite (m := 2 ^ 52) (k := 0) (Nat.two_pow_pos 52) Nat.log2_two_pow (by decide), rfl⟩

/-- A conversion rounds once. -/
theorem ofNat (n : Nat) (hrange : (nearest n).log2 < 1024) : Whole (ofNat n) (nearest n) := by
  by_cases hn : n < 2 ^ 53
  · -- Small numbers are exact, and are multiplied by one.
    rw [nearest_of_lt hn] at hrange ⊢
    have hword : n.toUInt64.toNat = n := by
      rw [Nat.toUInt64, UInt64.toNat_ofNat']
      exact Nat.mod_eq_of_lt (by omega)
    have hexact : Whole n.toUInt64.toFloat n := by
      refine ⟨hrange, .ofNat .binary64 n.toUInt64.toNat, ?_, rfl⟩
      have hform := isWhole_ofNat n
      rw [nearest_of_lt hn] at hform
      rwa [hword]
    have hproduct := hexact.mul one (by rwa [Nat.mul_one, nearest_of_lt hn])
    rw [Nat.mul_one, nearest_of_lt hn] at hproduct
    have hofNat : Number.ofNat n =
        n.toUInt64.toFloat * Float.exactlyRepresentablePowersOfTen[0] := by
      exact dif_pos ⟨hn, Nat.zero_le 22⟩
    exact hofNat ▸ hproduct
  · have hofNat : Number.ofNat n =
        .ofModel (.pack (UnpackedFloat.ofScientific .binary64 n 0)) :=
      dif_neg fun h ↦ hn h.1
    exact ⟨hrange, _, isWhole_ofScientific (by omega), hofNat⟩

theorem ofNat_of_lt (h : n < 2 ^ 53) : Whole (Number.ofNat n) n := by
  have hexact := Whole.ofNat n (log2_nearest_lt (by omega))
  rwa [nearest_of_lt h] at hexact

end Whole

end LuaEmbed.Number
