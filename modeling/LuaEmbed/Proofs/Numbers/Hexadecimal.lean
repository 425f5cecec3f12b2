import LuaEmbed.Proofs.Numbers.Rounding
import Mathlib.Data.List.Induction

/-!
# Hexadecimal numerals read at once and digit by digit

Source text reads a hexadecimal numeral as one natural number and rounds it once.  Strings read it
digit by digit in doubles.  The digits that follow the first prefix of more than 53 bits are then
rounded away, so the numeral is read as that prefix with zeros behind it: the two readings differ
when the prefix lies half way between two doubles, is rounded to the lower one, and a digit that
was rounded away is not zero.
-/

namespace LuaEmbed.Number

variable {n p t v x d k j : Nat} {ds : List Char}

/-! ## Digits behind 53 bits -/

theorem ulp_mul_add (hp : 53 ≤ p.log2) (ht : t < 2 ^ j) : ulp (p * 2 ^ j + t) = ulp p * 2 ^ j := by
  have hpos : p ≠ 0 := by
    rintro rfl
    simp at hp
  have hlog : (p * 2 ^ j + t).log2 = p.log2 + j := by
    obtain ⟨hlow, hhigh⟩ := (Nat.log2_eq_iff hpos).1 rfl
    have hshifted := Nat.mul_pos (Nat.pos_of_ne_zero hpos) (Nat.two_pow_pos j)
    have hp' := Nat.mul_le_mul_right (2 ^ j) hhigh
    rw [Nat.succ_mul] at hp'
    rw [Nat.log2_eq_iff (by omega), Nat.pow_add, Nat.add_right_comm, Nat.pow_add]
    exact ⟨(Nat.mul_le_mul_right _ hlow).trans (Nat.le_add_right _ t), by omega⟩
  rw [ulp, ulp, hlog, ← Nat.pow_add]
  congr 1
  omega

/-- Whether a quotient is rounded up is decided by the leading part of its remainder, unless that is
half of the divisor. -/
theorem roundDiv_mul_add_mul_add {q r half c : Nat} (hr : r < 2 * half) (ht : t < c) :
    roundDiv (q * (2 * half * c) + (r * c + t)) (2 * half * c) =
        roundDiv (q * (2 * half) + r) (2 * half) ↔
      ¬(r = half ∧ q % 2 = 0 ∧ t ≠ 0) := by
  have hlong : r * c + t < 2 * half * c := by
    have := Nat.mul_le_mul_right c hr
    rw [Nat.succ_mul] at this
    omega
  have hdouble : 2 * half * c = 2 * (half * c) := Nat.mul_assoc ..
  rw [roundDiv_mul_add hlong, roundDiv_mul_add hr, hdouble]
  rcases Nat.lt_trichotomy r half with h | rfl | h
  · have := Nat.mul_le_mul_right c h
    rw [Nat.succ_mul] at this
    rw [if_neg (by omega), if_neg (by omega)]
    omega
  · have hodd := Nat.mod_two_eq_zero_or_one q
    split <;> split <;> omega
  · have := Nat.mul_le_mul_right c h
    rw [Nat.succ_mul] at this
    rw [if_pos (by omega), if_pos (by omega)]
    omega

/-- Rounding a prefix and appending its digits afterwards is rounding the whole, unless the digits
break a tie that went down. -/
theorem nearest_mul_add (hp : 53 ≤ p.log2) (ht : t < 2 ^ j) :
    nearest (p * 2 ^ j + t) = nearest p * 2 ^ j ↔
      ¬(2 * (p % ulp p) = ulp p ∧ p / ulp p % 2 = 0 ∧ t ≠ 0) := by
  obtain ⟨half, hhalf⟩ : ∃ half, ulp p = 2 * half :=
    ⟨2 ^ (p.log2 - 53), by rw [← Nat.pow_succ', ulp]; congr 1; omega⟩
  have hrest : p % ulp p < ulp p := Nat.mod_lt _ (ulp_pos p)
  have hprefix : p / ulp p * ulp p + p % ulp p = p := Nat.div_add_mod' ..
  have hsplit : p * 2 ^ j + t = p / ulp p * (ulp p * 2 ^ j) + (p % ulp p * 2 ^ j + t) := by
    rw [← Nat.mul_assoc, ← Nat.add_assoc, ← Nat.add_mul, hprefix]
  have hround : nearest (p * 2 ^ j + t) = nearest p * 2 ^ j ↔
      roundDiv (p * 2 ^ j + t) (ulp p * 2 ^ j) = roundDiv p (ulp p) := by
    rw [nearest, ulp_mul_add hp ht, nearest, Nat.mul_assoc]
    exact Nat.mul_left_inj (Nat.mul_pos (ulp_pos p) (Nat.two_pow_pos j)).ne'
  rw [hround, hsplit]
  conv_lhs => rhs; arg 1; rw [← hprefix]
  generalize p / ulp p = q, p % ulp p = r at *
  rw [hhalf] at hrest ⊢
  rw [roundDiv_mul_add_mul_add hrest ht]
  omega

/-! ## Reading in steps -/

theorem sixteen_pow (k : Nat) : 16 ^ k = 2 ^ (4 * k) := by rw [Nat.pow_mul]

theorem log2_ge_of_le (h : 2 ^ 53 ≤ p) : 53 ≤ p.log2 := (Nat.le_log2 (by omega)).2 h

/-- A whole double of more than 53 bits takes in no more digits. -/
theorem nearest_append_digit (hx : nearest x = x) (hlarge : 2 ^ 53 ≤ x) (hd : d < 16) :
    nearest (x * 16 + d) = x * 16 := by
  have hlog := log2_ge_of_le hlarge
  have hdvd : x % ulp x = 0 := Nat.mod_eq_zero_of_dvd ⟨roundDiv x (ulp x), by
    rw [Nat.mul_comm]
    exact hx.symm⟩
  have hkeep : nearest (x * 2 ^ 4 + d) = nearest x * 2 ^ 4 :=
    (nearest_mul_add hlog hd).2 fun h ↦ by
      have := ulp_pos x
      omega
  rwa [hx] at hkeep

/-- What the digits of `v` are read as in steps: `v` itself up to 53 bits, and otherwise the
rounding of the first longer prefix, with zeros behind it. -/
def Stepped (v x : Nat) : Prop :=
  (v < 2 ^ 53 ∧ x = v) ∨
    ∃ k, 2 ^ 53 ≤ v / 16 ^ k ∧ v / 16 ^ k < 2 ^ 57 ∧ x = nearest (v / 16 ^ k) * 16 ^ k

theorem nearest_large (h : 2 ^ 53 ≤ p) : 2 ^ 53 ≤ nearest p := by
  have hlog := log2_ge_of_le h
  have hulp : 2 ^ 1 ≤ ulp p := Nat.pow_le_pow_right Nat.two_pos (by omega)
  exact Nat.mul_le_mul (roundDiv_ulp_bounds (by omega)).1 hulp

namespace Stepped

theorem whole (h : Stepped v x) : nearest x = x := by
  rcases h with ⟨hsmall, rfl⟩ | ⟨k, -, -, rfl⟩
  · exact nearest_of_lt hsmall
  · rw [sixteen_pow, nearest_mul_two_pow, nearest_idem]

/-- Reading one more digit. -/
theorem step (h : Stepped v x) (hd : d < 16) : Stepped (v * 16 + d) (nearest (x * 16 + d)) := by
  have hwhole := h.whole
  have hdiv : (v * 16 + d) / 16 = v := by omega
  rcases h with ⟨hsmall, rfl⟩ | ⟨k, hlow, hhigh, rfl⟩
  · by_cases hnext : x * 16 + d < 2 ^ 53
    · exact .inl ⟨hnext, nearest_of_lt hnext⟩
    · exact .inr ⟨0, by omega, by omega, by simp⟩
  · have hprefix : (v * 16 + d) / 16 ^ (k + 1) = v / 16 ^ k := by
      rw [Nat.pow_succ', ← Nat.div_div_eq_div_mul, hdiv]
    refine .inr ⟨k + 1, hprefix ▸ hlow, hprefix ▸ hhigh, ?_⟩
    have hlarge : 2 ^ 53 ≤ nearest (v / 16 ^ k) * 16 ^ k :=
      (nearest_large hlow).trans (Nat.le_mul_of_pos_right _ (Nat.pow_pos (by decide)))
    rw [nearest_append_digit hwhole hlarge hd, hprefix, Nat.pow_succ, Nat.mul_assoc]

theorem le (h : Stepped v x) : x ≤ 2 * v := by
  rcases h with ⟨-, rfl⟩ | ⟨k, -, -, rfl⟩
  · omega
  · calc nearest (v / 16 ^ k) * 16 ^ k
        ≤ 2 * (v / 16 ^ k) * 16 ^ k := Nat.mul_le_mul_right _ (nearest_le _)
      _ = 2 * (v / 16 ^ k * 16 ^ k) := Nat.mul_assoc ..
      _ ≤ 2 * v := Nat.mul_le_mul_left 2 (Nat.div_mul_le_self ..)

end Stepped

/-- Reading `v` in steps goes wrong: the first prefix of more than 53 bits lies half way between two
doubles, the lower of which is even, and a digit behind it is not zero. -/
def BreaksTie (v : Nat) : Prop :=
  ∃ k, (2 ^ 53 ≤ v / 16 ^ k ∧ v / 16 ^ k < 2 ^ 57) ∧
    2 * (v / 16 ^ k % ulp (v / 16 ^ k)) = ulp (v / 16 ^ k) ∧
    v / 16 ^ k / ulp (v / 16 ^ k) % 2 = 0 ∧ v % 16 ^ k ≠ 0

/-- There is one first prefix of more than 53 bits. -/
theorem prefix_unique (hlow : 2 ^ 53 ≤ v / 16 ^ k) (hhigh : v / 16 ^ j < 2 ^ 57) : k ≤ j := by
  by_contra h
  obtain ⟨i, rfl⟩ : ∃ i, k = j + 1 + i := ⟨k - (j + 1), by omega⟩
  have hstep : v / 16 ^ (j + 1) = v / 16 ^ j / 16 := by rw [Nat.pow_succ, Nat.div_div_eq_div_mul]
  rw [Nat.pow_add, ← Nat.div_div_eq_div_mul, hstep] at hlow
  have := Nat.div_le_self (v / 16 ^ j / 16) (16 ^ i)
  omega

/-- Reading in steps rounds as reading at once does, unless a tie is broken. -/
theorem Stepped.eq_nearest_iff (h : Stepped v x) : x = nearest v ↔ ¬BreaksTie v := by
  rcases h with ⟨hsmall, rfl⟩ | ⟨k, hlow, hhigh, rfl⟩
  · refine iff_of_true (nearest_of_lt hsmall).symm ?_
    rintro ⟨k, ⟨hlow, -⟩, -⟩
    have := Nat.div_le_self x (16 ^ k)
    omega
  · have hwhole := nearest_mul_add (j := 4 * k) (t := v % 16 ^ k) (log2_ge_of_le hlow)
      (sixteen_pow k ▸ Nat.mod_lt v (Nat.pow_pos (by decide)))
    rw [← sixteen_pow, Nat.div_add_mod'] at hwhole
    rw [eq_comm, hwhole]
    refine not_congr ⟨fun h ↦ ⟨k, ⟨hlow, hhigh⟩, h⟩, ?_⟩
    rintro ⟨j, ⟨hlow', hhigh'⟩, h⟩
    obtain rfl : j = k := Nat.le_antisymm (prefix_unique hlow' hhigh) (prefix_unique hlow hhigh')
    exact h

/-! ## The two readings -/

/-- The value of a digit; what is no digit counts as zero. -/
theorem digit_lt {c : Char} (hc : isDigitOf 16 c = true) : (digitValue? c).getD 0 < 16 := by
  unfold isDigitOf at hc
  split at hc
  · next d hd =>
    rw [hd]
    exact of_decide_eq_true hc
  · exact nomatch hc

theorem natOfDigits_append_singleton (base : ℕ) (ds : List Char) (c : Char) :
    natOfDigits base (ds ++ [c]) = natOfDigits base ds * base + (digitValue? c).getD 0 := by
  rw [natOfDigits, List.foldl_append]
  rfl

/-- The digits of at most 64 bits are read as a whole double in each step. -/
theorem whole_foldl (hds : ds.all (isDigitOf 16) = true) (hv : natOfDigits 16 ds < words64) :
    ∃ x, Stepped (natOfDigits 16 ds) x ∧
      Whole (ds.foldl (fun n c ↦ n * 16 + ofNat ((digitValue? c).getD 0)) 0) x := by
  induction ds using List.reverseRecOn with
  | nil => exact ⟨0, .inl ⟨by decide, rfl⟩, Whole.ofNat 0 (by decide)⟩
  | append_singleton ds c ih =>
      rw [List.all_append, Bool.and_eq_true, List.all_cons, List.all_nil, Bool.and_true] at hds
      rw [natOfDigits_append_singleton] at hv ⊢
      have hd := digit_lt hds.2
      rw [words64] at hv ih
      obtain ⟨x, hstepped, hx⟩ := ih hds.1 (by omega)
      refine ⟨_, hstepped.step hd, ?_⟩
      have hle := hstepped.le
      have hbase : Whole (ofNat 16) 16 := Whole.ofNat_of_lt (by decide)
      have hdigit := Whole.ofNat_of_lt (n := (digitValue? c).getD 0) (by omega)
      have hshift : nearest (x * 16) = x * 16 := by
        have := nearest_mul_two_pow x 4
        rwa [hstepped.whole] at this
      have hproduct := hx.mul hbase (log2_nearest_lt (by omega))
      rw [hshift] at hproduct
      rw [List.foldl_append]
      exact hproduct.add hdigit (log2_nearest_lt (by omega))

/-- A hexadecimal numeral denotes one double in source text and in strings exactly when it has at
most 64 bits and breaks no tie, or is no numeral at all. -/
theorem hexadecimal_eq_iff (ds : List Char) :
    hexadecimal64? ds = hexadecimal? ds ↔
      (ds ≠ [] → ds.all (isDigitOf 16) = true →
        natOfDigits 16 ds < words64 ∧ ¬BreaksTie (natOfDigits 16 ds)) := by
  unfold hexadecimal64? hexadecimal?
  split
  · next h =>
    simp only [Bool.or_eq_true, List.isEmpty_iff, Bool.not_eq_true'] at h
    refine iff_of_true rfl fun hne hall ↦ ?_
    rcases h with h | h
    · exact absurd h hne
    · exact absurd hall (by simp [h])
  · next h =>
    simp only [Bool.or_eq_true, List.isEmpty_iff, Bool.not_eq_true', not_or, Bool.not_eq_false] at h
    dsimp only
    split
    · next hv =>
      obtain ⟨x, hstepped, hx⟩ := whole_foldl h.2 hv
      have hat := Whole.ofNat _ (log2_nearest_lt (hv.trans (by decide)))
      have hiff : ofNat (natOfDigits 16 ds) =
          ds.foldl (fun n c ↦ n * 16 + ofNat ((digitValue? c).getD 0)) 0 ↔
          x = nearest (natOfDigits 16 ds) := by
        refine ⟨fun heq ↦ hx.value_unique (heq ▸ hat), ?_⟩
        rintro rfl
        exact hat.unique hx
      rw [Option.some.injEq, hiff, hstepped.eq_nearest_iff]
      exact ⟨fun hno _ _ ↦ ⟨hv, hno⟩, fun hno ↦ (hno h.1 h.2).2⟩
    · next hv =>
      exact iff_of_false (nomatch ·) fun hno ↦ hv (hno h.1 h.2).1

end LuaEmbed.Number
