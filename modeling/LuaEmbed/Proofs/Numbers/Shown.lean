import LuaEmbed.Proofs.Numbers.Exact

/-!
# Whole numbers as texts

A number without a fraction is shown in full below `10 ^ 15`, and every other one to fourteen
significant digits.  Up to fourteen digits both texts are the digits of the number: what the general
layout adds are zeros, which it drops again.  A number of fifteen digits has an exponent in the
general layout and none in full.
-/

namespace LuaEmbed.Number

variable {n places : Nat} {negative : Bool}

/-! ## Digits -/

theorem digits_mul_ten_pow (hn : 0 < n) (places : Nat) :
    digits (n * 10 ^ places) = digits n ++ List.replicate places '0' := by
  induction places with
  | zero => simp
  | succ places ih =>
      have hpos : 0 < n * 10 ^ places := Nat.mul_pos hn (Nat.pow_pos (by decide))
      have hlast : [('0' : Char)] = Nat.toDigits 10 0 := by decide
      rw [List.replicate_succ', ← List.append_assoc, ← ih, digits, digits, hlast,
        Nat.toDigits_append_toDigits (by decide) hpos (by decide)]
      congr 1
      ring

theorem notMem_digits {c : Char} (hc : c.isDigit = false) (n : Nat) : c ∉ digits n :=
  fun h ↦ Bool.false_ne_true
    (hc.symm.trans (Nat.isDigit_of_mem_toDigits (b := 10) (by decide) (by decide) h))

theorem notMem_signed {c : Char} (hc : c.isDigit = false) (hminus : c ≠ '-') (n : Nat) :
    c ∉ signed negative (digits n) := by
  cases negative with
  | false => exact notMem_digits hc n
  | true => simpa [signed, hminus] using notMem_digits hc n

theorem signed_append (cs ds : List Char) :
    signed negative (cs ++ ds) = signed negative cs ++ ds := by
  cases negative <;> rfl

/-! ## Layouts -/

theorem paddedDigits_mul (hn : 0 < n) (places : Nat) :
    paddedDigits (places + 1) (n * 10 ^ places) = digits n ++ List.replicate places '0' := by
  have hlength : 0 < (digits n).length := Nat.length_toDigits_pos
  have hnone : places + 1 - (digits n ++ List.replicate places '0').length = 0 := by
    rw [List.length_append, List.length_replicate]
    omega
  rw [paddedDigits, digits_mul_ten_pow hn, hnone]
  rfl

/-- The digits before the point and the zeros behind it. -/
theorem layOut_mul (hn : 0 < n) (hplaces : places ≠ 0) :
    layOut places (n * 10 ^ places) = digits n ++ '.' :: List.replicate places '0' := by
  have hsplit : (digits n ++ List.replicate places '0').length - places = (digits n).length := by
    rw [List.length_append, List.length_replicate, Nat.add_sub_cancel]
  rw [layOut, paddedDigits_mul hn, hsplit, if_neg (mt beq_iff_eq.1 hplaces), List.take_left,
    List.drop_left]

theorem dropZeros_of_notMem {cs : List Char} (h : '.' ∉ cs) : dropZeros cs = cs :=
  if_neg (by simpa using h)

theorem dropZeros_append {cs : List Char} (h : '.' ∉ cs) (places : Nat) :
    dropZeros (cs ++ '.' :: List.replicate places '0') = cs := by
  have hpoint : (cs ++ '.' :: List.replicate places '0').contains '.' := by simp
  have hreverse : (cs ++ '.' :: List.replicate places '0').reverse =
      List.replicate places '0' ++ '.' :: cs.reverse := by simp
  have hzeros : (List.replicate places '0' ++ '.' :: cs.reverse).dropWhile (· == '0') =
      '.' :: cs.reverse := by
    rw [List.dropWhile_append_of_pos fun c hc ↦ beq_iff_eq.2 (List.eq_of_mem_replicate hc)]
    rfl
  have hrest : cs.reverse.dropWhile (· == '.') = cs.reverse := by
    cases hcs : cs.reverse with
    | nil => rfl
    | cons c ds =>
        have hc : c ∈ cs := List.mem_reverse.1 (hcs ▸ List.mem_cons_self)
        exact List.dropWhile_cons_of_neg fun heq ↦ h (beq_iff_eq.1 heq ▸ hc)
  rw [dropZeros, if_pos hpoint, hreverse, hzeros]
  change (cs.reverse.dropWhile _).reverse = _
  rw [hrest, List.reverse_reverse]

/-- The places of a whole number are dropped. -/
theorem dropZeros_layOut (hn : 0 < n) (places : Nat) :
    dropZeros (signed negative (layOut places (n * 10 ^ places))) =
      signed negative (digits n) := by
  have hpoint : '.' ∉ signed negative (digits n) := notMem_signed rfl (by decide) n
  rcases eq_or_ne places 0 with rfl | hplaces
  · have hnone : layOut 0 (n * 10 ^ 0) = digits n :=
      (paddedDigits_mul hn 0).trans (List.append_nil _)
    rw [hnone, dropZeros_of_notMem hpoint]
  · rw [layOut_mul hn hplaces, signed_append, dropZeros_append hpoint]

/-! ## Both texts -/

section Text

variable {f : Float} {x : Dyadic}

theorem Dyadic.decimalExponent_eq (hn : |x.value| = n) (hpos : 0 < n) :
    decimalExponent x.numerator x.denominator = Int.ofNat ((digits n).length - 1) := by
  have hnumerator := abs_value_eq_iff.1 hn
  have hdiv : x.numerator / x.denominator = n := by
    rw [hnumerator, Nat.mul_div_cancel _ x.denominator_pos]
  have hle : x.denominator ≤ x.numerator := hnumerator ▸ Nat.le_mul_of_pos_left _ hpos
  rw [decimalExponent, if_pos hle, hdiv]

/-- The coefficient of a number of at most fourteen digits is exact, so it has no digit more. -/
theorem Dyadic.scientific_exponent_of_lt (hn : |x.value| = n) (hpos : 0 < n)
    (hsmall : n < 10 ^ 14) : (x.scientific 13).exponent = Int.ofNat ((digits n).length - 1) := by
  have hlength : 0 < (digits n).length := Nat.length_toDigits_pos
  have hbound : (digits n).length ≤ 14 :=
    (Nat.length_toDigits_le_iff (by decide) (by decide)).2 hsmall
  have hlt : n < 10 ^ (digits n).length :=
    (Nat.length_toDigits_le_iff (by decide) hlength).1 le_rfl
  have hup : (Int.ofNat 13 - Int.ofNat ((digits n).length - 1)).toNat = 14 - (digits n).length := by
    simp only [Int.ofNat_eq_natCast]
    omega
  have hdown : (-(Int.ofNat 13 - Int.ofNat ((digits n).length - 1))).toNat = 0 := by
    simp only [Int.ofNat_eq_natCast]
    omega
  have hround : roundDiv (x.numerator * Nat.pow 10 (14 - (digits n).length))
      (x.denominator * Nat.pow 10 0) = n * 10 ^ (14 - (digits n).length) := by
    rw [abs_value_eq_iff.1 hn, Nat.mul_right_comm]
    exact (congrArg _ (Nat.mul_one _)).trans (roundDiv_mul x.denominator_pos)
  have hexact : n * 10 ^ (14 - (digits n).length) < 10 ^ 14 :=
    calc n * 10 ^ (14 - (digits n).length)
        < 10 ^ (digits n).length * 10 ^ (14 - (digits n).length) :=
          Nat.mul_lt_mul_of_pos_right hlt (Nat.pow_pos (by decide))
      _ = 10 ^ 14 := by rw [← Nat.pow_add, Nat.add_sub_cancel' hbound]
  rw [scientific, if_neg (mt beq_iff_eq.1 (mantissa_ne_zero hn hpos)), decimalExponent_eq hn hpos]
  dsimp only
  rw [hup, hdown, hround]
  exact congrArg Scientific.exponent (if_neg (mt beq_iff_eq.1 hexact.ne))

theorem Dyadic.le_scientific_exponent (hn : |x.value| = n) (hlow : 10 ^ 14 ≤ n) :
    14 ≤ (x.scientific 13).exponent := by
  have hpos : 0 < n := (Nat.pow_pos (by decide)).trans_le hlow
  have hlength : 14 < (digits n).length :=
    not_le.1 fun hle ↦ ((Nat.length_toDigits_le_iff (by decide) (by decide)).1 hle).not_ge hlow
  have hfirst : 14 ≤ Int.ofNat ((digits n).length - 1) := by
    simp only [Int.ofNat_eq_natCast]
    omega
  rw [scientific, if_neg (mt beq_iff_eq.1 (mantissa_ne_zero hn hpos)), decimalExponent_eq hn hpos]
  dsimp only
  split
  · exact hfirst.trans (Int.le_add_one le_rfl)
  · exact hfirst

theorem fixed_eq (h : dyadic? f = some x) (hn : |x.value| = n) (places : Nat) :
    fixed places f = signed x.negative (layOut places (n * 10 ^ places)) := by
  have hround : roundDiv (x.numerator * Nat.pow 10 places) x.denominator = n * 10 ^ places := by
    rw [Dyadic.abs_value_eq_iff.1 hn, Nat.mul_right_comm]
    exact roundDiv_mul x.denominator_pos
  rw [fixed, h]
  dsimp only
  rw [hround]

/-- A number of at most fourteen digits to fourteen digits is itself. -/
theorem general_of_lt (h : dyadic? f = some x) (hn : |x.value| = n) (hpos : 0 < n)
    (hsmall : n < 10 ^ 14) : general 14 f = signed x.negative (digits n) := by
  have hbound : (digits n).length ≤ 14 :=
    (Nat.length_toDigits_le_iff (by decide) (by decide)).2 hsmall
  have hlength : 0 < (digits n).length := Nat.length_toDigits_pos
  have hexponent := Dyadic.scientific_exponent_of_lt hn hpos hsmall
  have hfixed : ¬(((x.scientific 13).exponent < -4 ||
      Int.ofNat 14 ≤ (x.scientific 13).exponent) = true) := by
    rw [hexponent]
    simp only [Int.ofNat_eq_natCast, Bool.or_eq_true, decide_eq_true_eq]
    omega
  rw [general, h]
  exact (if_neg hfixed).trans ((congrArg _ (fixed_eq h hn _)).trans (dropZeros_layOut hpos _))

/-- A number of more digits has an exponent. -/
theorem mem_general (h : dyadic? f = some x) (hn : |x.value| = n) (hlow : 10 ^ 14 ≤ n) :
    'e' ∈ general 14 f := by
  have hscientific : ((x.scientific 13).exponent < -4 ||
      Int.ofNat 14 ≤ (x.scientific 13).exponent) = true := by
    rw [Bool.or_eq_true]
    exact .inr (decide_eq_true (Dyadic.le_scientific_exponent hn hlow))
  obtain ⟨cs, ds, hgeneral⟩ : ∃ cs ds, general 14 f = cs ++ 'e' :: ds := by
    rw [general, h]
    exact ⟨_, _, if_pos hscientific⟩
  rw [hgeneral]
  exact List.mem_append_right _ List.mem_cons_self

theorem whole_1e15 : Whole 1e15 (10 ^ 15) :=
  ⟨by decide, .finite .positive (10 ^ 15 * 2 ^ 3) (49 - 52) (by decide),
    .finite (k := 49) (by decide) (by decide) (by decide), by decide +kernel⟩

/-- The numbers that are shown in full. -/
theorem isIntegral_and_lt_iff (h : dyadic? f = some x) (hzero : (f == 0) = false) :
    (isIntegral f && f.abs < 1e15) = true ↔ ∃ n : ℕ, |x.value| = n ∧ 0 < n ∧ n < 10 ^ 15 := by
  have hpos {n : ℕ} (hn : |x.value| = n) : 0 < n := by
    refine Nat.pos_of_ne_zero fun hn0 ↦ value_ne_zero h hzero ?_
    rw [← abs_eq_zero, hn, hn0, Nat.cast_zero]
  have hlt {n : ℕ} (hn : |x.value| = n) : f.abs < 1e15 ↔ n < 10 ^ 15 :=
    (Whole.abs_of_value h hn (hpos hn)).lt_iff whole_1e15
  rw [isIntegral, h, Bool.and_eq_true, decide_eq_true_eq, Dyadic.isIntegral_iff]
  constructor
  · rintro ⟨⟨n, hn⟩, hsmall⟩
    exact ⟨n, hn, hpos hn, (hlt hn).1 hsmall⟩
  · rintro ⟨n, hn, -, hsmall⟩
    exact ⟨⟨n, hn⟩, (hlt hn).2 hsmall⟩

theorem intText_eq (h : dyadic? f = some x) (hn : |x.value| = n) (hpos : 0 < n)
    (hhigh : n < 10 ^ 15) : intText (toInt64 f) = signed x.negative (digits n) := by
  have htruncate : x.truncate = if x.negative then -(n : Int) else n := by
    rw [Dyadic.truncate, Dyadic.abs_value_eq_iff.1 hn, Nat.mul_div_cancel _ x.denominator_pos]
    rfl
  have htoInt : toInt64 f = if x.negative then -(n : Int) else n := by
    rw [toInt64, toIntWithin, h, ← htruncate]
    refine clamp_of_mem ?_ ?_ <;> rw [htruncate] <;> simp only [int64Min, int64Max] <;>
      split <;> omega
  rw [htoInt, intText]
  cases x.negative with
  | false => simp [signed]
  | true => simp [signed, hpos]

/-- A finite number other than zero is shown as it is to fourteen significant digits, unless it is
an integer of fifteen digits. -/
theorem text_eq_general_iff (hfinite : f.isFinite = true) (hzero : (f == 0) = false) :
    ∃ x, dyadic? f = some x ∧
      (text f = String.ofList (general 14 f) ↔
        ¬∃ n : ℕ, |x.value| = n ∧ 10 ^ 14 ≤ n ∧ n < 10 ^ 15) := by
  obtain ⟨x, h⟩ := Option.isSome_iff_exists.1 ((isSome_dyadic? f).trans hfinite)
  refine ⟨x, h, ?_⟩
  obtain ⟨hnan, hinf⟩ := not_special_of_dyadic? h
  have htext : text f = String.ofList (if isIntegral f && f.abs < 1e15 then intText (toInt64 f)
      else general 14 f) := by
    rw [text, if_neg (ne_true_of_eq_false hnan), if_neg (ne_true_of_eq_false hinf),
      if_neg (ne_true_of_eq_false hzero)]
  rw [htext, String.ofList_inj]
  by_cases hfull : (isIntegral f && f.abs < 1e15) = true
  · obtain ⟨n, hn, hpos, hhigh⟩ := (isIntegral_and_lt_iff h hzero).1 hfull
    rw [if_pos hfull, intText_eq h hn hpos hhigh]
    rcases Nat.lt_or_ge n (10 ^ 14) with hsmall | hlow
    · refine ⟨fun _ ⟨k, hk, hle, _⟩ ↦ ?_, fun _ ↦ (general_of_lt h hn hpos hsmall).symm⟩
      obtain rfl := Nat.cast_inj.1 (hn.symm.trans hk)
      exact absurd hsmall hle.not_gt
    · refine ⟨fun heq ↦ ?_, fun hnot ↦ absurd ⟨n, hn, hlow, hhigh⟩ hnot⟩
      exact absurd (heq ▸ mem_general h hn hlow) (notMem_signed rfl (by decide) n)
  · rw [if_neg hfull]
    refine ⟨fun _ ⟨n, hn, hlow, hhigh⟩ ↦ hfull ?_, fun _ ↦ rfl⟩
    exact (isIntegral_and_lt_iff h hzero).2
      ⟨n, hn, (Nat.pow_pos (by decide)).trans_le hlow, hhigh⟩

/-- A negative integer of five digits. -/
theorem text_eq_general_iff_integer :
    (-12345 : Float).isFinite = true ∧ ((-12345 : Float) == 0) = false ∧
      text (-12345) = String.ofList (general 14 (-12345)) := by
  have hfinite : (-12345 : Float).isFinite = true := by decide +kernel
  have hzero : ((-12345 : Float) == 0) = false := by decide +kernel
  have hvalue : dyadic? (-12345) = some ⟨true, 12345 * 2 ^ 39, -39⟩ := by decide +kernel
  obtain ⟨x, hx, htext⟩ := text_eq_general_iff hfinite hzero
  obtain rfl := Option.some.inj (hvalue.symm.trans hx)
  refine ⟨hfinite, hzero, htext.2 fun ⟨n, hn, hlow, _⟩ ↦ ?_⟩
  have hn : 12345 * 2 ^ 39 * 1 = n * 2 ^ 39 := Dyadic.abs_value_eq_iff.1 hn
  omega

/-- An integer of fifteen digits. -/
theorem text_ne_general :
    (1e14 : Float).isFinite = true ∧ ((1e14 : Float) == 0) = false ∧
      text 1e14 = "100000000000000" ∧ String.ofList (general 14 1e14) = "1e+14" := by
  decide +kernel

end Text

end LuaEmbed.Number
