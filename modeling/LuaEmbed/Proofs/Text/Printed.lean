import LuaEmbed.Proofs.Numbers.Integers
import LuaEmbed.Proofs.Text.Directives

/-!
# Integers in a format

The texts that `printf` of C99 has for integers of 64 bits, and where a format gives the same.  Both
lay out a prefix and digits in a field; two such texts are equal when their digits are, so that what
remains to compare is how many zeros stand in front.  A format differs in that the magnitude of a
number in decimal stops below the least integer, that a zero always has a digit, that octal and
hexadecimal have no precision, and in the prefix of the alternate form.
-/

namespace LuaEmbed.Text.Directive

variable {d : Directive}

/-! ## The texts of C -/

/-- Spaces up to the width, behind a text or in front of it. -/
def justify (d : Directive) (cs : List Char) : List Char :=
  if d.left then cs.rightpad d.width ' ' else cs.leftpad d.width ' '

/-- The number of characters that zeros fill a field up to, whatever the precision is. -/
def filling (d : Directive) : ℕ := if d.zero && !d.left then d.width else 0

/-- The number of digits that zeros fill up to behind a prefix, in the absence of a precision. -/
def filled (d : Directive) (pre : List Char) : ℕ :=
  if d.precision.isNone then d.filling - pre.length else 0

/-- A prefix and digits in their field, with the zeros that fill it between them. -/
def field (d : Directive) (pre ds : List Char) : List Char :=
  d.justify (pre ++ ds.leftpad (d.filled pre) '0')

/-- The digits of a number without zeros in front.  Zero has none. -/
def significant (base u : ℕ) : List Char := if u = 0 then [] else Nat.toDigits base u

/-- The digits of a number, at least as many as the precision says, or one if there is none. -/
def precise (d : Directive) (base u : ℕ) : List Char :=
  (significant base u).leftpad (d.precision.getD 1) '0'

/-- The sign of a signed conversion. -/
def printedSign (d : Directive) (z : ℤ) : List Char :=
  if z < 0 then ['-'] else if d.plus then ['+'] else if d.space then [' '] else []

/-- A signed integer in decimal. -/
def printedDecimal (d : Directive) (z : ℤ) : List Char :=
  d.field (d.printedSign z) (d.precise 10 z.natAbs)

/-- A number in octal.  In the alternate form its first digit is made a zero where it is none. -/
def printedOctal (d : Directive) (u : ℕ) : List Char :=
  let ds := d.precise 8 u
  d.field [] (if d.alternate && ds.head? != some '0' then '0' :: ds else ds)

/-- The prefix of a number in hexadecimal: the alternate form has one unless the number is zero. -/
def printedPrefix (d : Directive) (u : ℕ) : List Char :=
  if d.alternate = true ∧ u ≠ 0 then ['0', 'x'] else []

/-- A number in hexadecimal. -/
def printedHexadecimal (d : Directive) (u : ℕ) : List Char :=
  d.field (d.printedPrefix u) (d.precise 16 u)

/-- The text of an integer of 64 bits: signed in decimal, and else the number of its two's
complement.  C says nothing about the alternate form in decimal, which is taken for the plain one. -/
def printed (d : Directive) (conversion : Char) (z : ℤ) : List Char :=
  match conversion with
  | 'd' | 'i' => d.printedDecimal z
  | 'o' => d.printedOctal (Number.unsigned64 z)
  | 'x' => d.printedHexadecimal (Number.unsigned64 z)
  | 'X' => (d.printedHexadecimal (Number.unsigned64 z)).map Char.toUpper
  | _ => []

/-! ## Padding -/

section Padding

variable {α : Type} {a : α} {l : List α} {m n : ℕ}

theorem leftpad_leftpad : (l.leftpad n a).leftpad m a = l.leftpad (max m n) a := by
  have hcount : m - (n - l.length + l.length) + (n - l.length) = max m n - l.length := by omega
  simp only [List.leftpad, List.length_append, List.length_replicate]
  rw [← List.append_assoc, List.replicate_append_replicate, hcount]

theorem cons_leftpad : a :: l.leftpad n a = l.leftpad (max n l.length + 1) a := by
  have hcount : max n l.length + 1 - l.length = n - l.length + 1 := by omega
  rw [List.leftpad, List.leftpad, hcount, List.replicate_succ, List.cons_append]

theorem leftpad_of_le (h : n ≤ l.length) : l.leftpad n a = l := by
  rw [List.leftpad, Nat.sub_eq_zero_of_le h, List.replicate_zero, List.nil_append]

theorem leftpad_eq_leftpad_iff : l.leftpad m a = l.leftpad n a ↔ max m l.length = max n l.length := by
  constructor
  · intro h
    have hlength := congrArg List.length h
    rwa [List.length_leftpad, List.length_leftpad] at hlength
  · intro h
    have hcount : m - l.length = n - l.length := by omega
    rw [List.leftpad, List.leftpad, hcount]

theorem getLast?_leftpad (hl : l ≠ []) : (l.leftpad n a).getLast? = l.getLast? :=
  List.getLast?_append_of_ne_nil _ hl

theorem head?_leftpad : (l.leftpad n a).head? = if l.length < n then some a else l.head? := by
  split
  · next h =>
    have hcount : n - l.length = n - l.length - 1 + 1 := by omega
    rw [List.leftpad, hcount]
    rfl
  · next h => rw [leftpad_of_le (Nat.le_of_not_lt h)]

theorem map_leftpad {β : Type} (f : α → β) : (l.leftpad n a).map f = (l.map f).leftpad n (f a) := by
  rw [List.leftpad, List.leftpad, List.map_append, List.map_replicate, List.length_map]

theorem mem_leftpad {b : α} (h : b ∈ l.leftpad n a) : b = a ∨ b ∈ l := by
  rcases List.mem_append.1 h with hfill | hl
  · exact .inl (List.eq_of_mem_replicate hfill)
  · exact .inr hl

end Padding

section Justified

variable {pre ds ds' : List Char} {n n' : ℕ} {numeric : Bool}

theorem filter_justify (d : Directive) (cs : List Char) :
    (d.justify cs).filter (· != ' ') = cs.filter (· != ' ') := by
  have hfill (n : ℕ) : (List.replicate n ' ').filter (· != ' ') = [] :=
    List.filter_eq_nil_iff.2 fun c hc ↦ by simp [List.eq_of_mem_replicate hc]
  unfold justify
  split
  · rw [List.rightpad, List.filter_append, hfill, List.append_nil]
  · rw [List.leftpad, List.filter_append, hfill, List.nil_append]

/-- Fields of one prefix differ when their digits do. -/
theorem justify_append_inj (h : ' ' ∉ ds) (h' : ' ' ∉ ds') :
    d.justify (pre ++ ds) = d.justify (pre ++ ds') ↔ ds = ds' := by
  have hkept {ds : List Char} (h : ' ' ∉ ds) : ds.filter (· != ' ') = ds :=
    List.filter_eq_self.2 fun c hc ↦ bne_iff_ne.2 fun heq ↦ h (heq ▸ hc)
  refine ⟨fun heq ↦ ?_, fun heq ↦ by rw [heq]⟩
  have hfilter := congrArg (List.filter (· != ' ')) heq
  rwa [filter_justify, filter_justify, List.filter_append, List.filter_append, hkept h, hkept h',
    List.append_right_inj] at hfilter

theorem justify_inj (h : ' ' ∉ ds) (h' : ' ' ∉ ds') : d.justify ds = d.justify ds' ↔ ds = ds' :=
  show d.justify ([] ++ ds) = d.justify ([] ++ ds') ↔ _ from justify_append_inj h h'

/-- A character that is taken for a sign. -/
def isSign (c : Char) : Bool := c == '-' || c == '+' || c == ' '

theorem pad_zeros (hleft : d.left = false) (hzero : d.zero = true)
    (hpre : pre = [] ∨ ∃ c, isSign c = true ∧ pre = [c]) (hds : ∀ c ∈ ds.head?, isSign c = false) :
    d.pad (pre ++ ds) true = pre ++ ds.leftpad (d.width - pre.length) '0' := by
  rw [pad.eq_def, if_neg (by simp [hleft]), if_pos (by simp [hzero])]
  rcases hpre with rfl | ⟨c, hc, rfl⟩
  · cases ds with
    | nil => simp [List.leftpad]
    | cons c cs => exact if_neg (Bool.eq_false_iff.1 (hds c rfl))
  · have hcount : d.width - (1 + ds.length) = d.width - 1 - ds.length := by omega
    refine (if_pos hc).trans ?_
    simp [List.leftpad, Nat.add_comm ds.length, hcount]

/-- Zeros go behind a sign, and spaces to the outside. -/
theorem pad_append (hpre : pre = [] ∨ ∃ c, isSign c = true ∧ pre = [c])
    (hds : ∀ c ∈ ds.head?, isSign c = false) :
    d.pad (pre ++ ds) numeric =
      d.justify (pre ++ ds.leftpad (if numeric then d.filling - pre.length else 0) '0') := by
  rcases Bool.eq_false_or_eq_true d.left with hleft | hleft
  · have hnone : (if numeric then d.filling - pre.length else 0) = 0 := by simp [filling, hleft]
    rw [hnone, leftpad_of_le (Nat.zero_le _), pad.eq_def, justify, if_pos hleft, if_pos hleft]
    rfl
  rcases Bool.eq_false_or_eq_true (d.zero && numeric) with hzero | hzero
  · obtain ⟨hflag, rfl⟩ := Bool.and_eq_true_iff.1 hzero
    have hfilling : d.filling = d.width := by simp [filling, hleft, hflag]
    rw [pad_zeros hleft hflag hpre hds, justify, if_neg (by simp [hleft]), if_pos rfl, hfilling]
    refine (leftpad_of_le ?_).symm
    rw [List.length_append, List.length_leftpad]
    omega
  · have hnone : (if numeric then d.filling - pre.length else 0) = 0 := by
      cases numeric <;> simp_all [filling]
    rw [hnone, leftpad_of_le (Nat.zero_le _), pad.eq_def, justify, if_neg (by simp [hleft]),
      if_neg (by simp [hzero]), if_neg (by simp [hleft])]
    rfl

end Justified

/-! ## Digits -/

section Digits

variable {base u : ℕ} {c : Char}

theorem exists_digitChar_of_mem (hbase : 1 < base) (h : c ∈ Nat.toDigits base u) :
    ∃ k < base, c = Nat.digitChar k := by
  induction u using Nat.strongRecOn with
  | ind u ih =>
      rcases lt_or_ge u base with hu | hu
      · rw [Nat.toDigits_of_lt_base hu, List.mem_singleton] at h
        exact ⟨u, hu, h⟩
      · rw [Nat.toDigits_of_base_le hbase hu, List.mem_append, List.mem_singleton] at h
        rcases h with h | h
        · exact ih _ (Nat.div_lt_self (by omega) hbase) h
        · exact ⟨_, Nat.mod_lt _ (by omega), h⟩

theorem head?_toDigits (hbase : 1 < base) (hu : 0 < u) :
    (Nat.toDigits base u).head? ≠ some '0' := by
  induction u using Nat.strongRecOn with
  | ind u ih =>
      rcases lt_or_ge u base with hlt | hge
      · rw [Nat.toDigits_of_lt_base hlt]
        exact fun h ↦ hu.ne' (Nat.digitChar_eq_zero.1 (Option.some.inj h))
      · rw [Nat.toDigits_of_base_le hbase hge, List.head?_append_of_ne_nil _ Nat.toDigits_ne_nil]
        exact ih _ (Nat.div_lt_self hu hbase) (Nat.div_pos hge (by omega))

theorem toDigits_eq (base u : ℕ) : Nat.toDigits base u = (significant base u).leftpad 1 '0' := by
  rcases Nat.eq_zero_or_pos u with rfl | hu
  · exact Nat.toDigits_zero base
  · rw [significant, if_neg hu.ne', leftpad_of_le Nat.length_toDigits_pos]

theorem isSign_of_mem_leftpad {n : ℕ} (hbase : 1 < base)
    (h : c ∈ (significant base u).leftpad n '0') : isSign c = false := by
  rcases mem_leftpad h with rfl | h
  · rfl
  · rw [significant] at h
    split at h
    · exact absurd h List.not_mem_nil
    · obtain ⟨k, -, rfl⟩ := exists_digitChar_of_mem hbase h
      simp [isSign, Nat.digitChar_ne]

theorem notMem_leftpad {n : ℕ} (hbase : 1 < base) : ' ' ∉ (significant base u).leftpad n '0' :=
  fun h ↦ nomatch isSign_of_mem_leftpad hbase h

theorem isSign_of_head? {n : ℕ} (hbase : 1 < base) :
    ∀ c ∈ ((significant base u).leftpad n '0').head?, isSign c = false :=
  fun _ h ↦ isSign_of_mem_leftpad hbase (List.mem_of_mem_head? h)

theorem head?_significant (hbase : 1 < base) : (significant base u).head? ≠ some '0' := by
  rw [significant]
  split
  · exact nofun
  · next h => exact head?_toDigits hbase (Nat.pos_of_ne_zero h)

theorem length_significant_eq_zero_iff (base u : ℕ) : (significant base u).length = 0 ↔ u = 0 := by
  rw [significant]
  split
  · next h => exact iff_of_true rfl h
  · next h => exact iff_of_false Nat.length_toDigits_pos.ne' h

end Digits

/-! ## Decimal -/

section Decimal

open Number (HasValue)

variable {f : Float} {z : ℤ}

theorem printedDecimal_eq (d : Directive) (z : ℤ) :
    d.printedDecimal z = d.justify (d.printedSign z ++ (significant 10 z.natAbs).leftpad
      (max (d.filled (d.printedSign z)) (d.precision.getD 1)) '0') := by
  rw [printedDecimal, field, precise, leftpad_leftpad]

theorem sign_eq (hvalue : HasValue f z) : d.sign (f < 0) = d.printedSign z := by
  have hsign : f < 0 ↔ z < 0 := hvalue.lt_zero_iff.trans Int.cast_lt_zero
  simp only [sign, printedSign, hsign, decide_eq_true_eq]

theorem printedSign_cases (d : Directive) (z : ℤ) :
    d.printedSign z = [] ∨ ∃ c, isSign c = true ∧ d.printedSign z = [c] := by
  unfold printedSign
  split_ifs
  · exact .inr ⟨_, rfl, rfl⟩
  · exact .inr ⟨_, rfl, rfl⟩
  · exact .inr ⟨_, rfl, rfl⟩
  · exact .inl rfl

/-- The magnitude stops below the least integer. -/
theorem toNat_toInt64_abs (hvalue : HasValue f z) :
    (Number.toInt64 f.abs).toNat = min z.natAbs (2 ^ 63 - 1) := by
  have habs : HasValue f.abs (z.natAbs : ℤ) := by
    rw [Int.cast_natCast]
    exact hvalue.whole_abs.hasValue
  rw [habs.toInt64_eq, Number.clamp, Number.int64Min, Number.int64Max]
  split_ifs <;> omega

theorem decimal_eq (hvalue : HasValue f z) :
    d.decimal f = d.justify (d.printedSign z ++
      (significant 10 (min z.natAbs (2 ^ 63 - 1))).leftpad
        (max (d.filled (d.printedSign z)) (max (d.precision.getD 0) 1)) '0') := by
  have hpad : d.decimal f = d.pad (d.printedSign z ++
      (significant 10 (min z.natAbs (2 ^ 63 - 1))).leftpad (max (d.precision.getD 0) 1) '0')
        d.precision.isNone := by
    rw [← leftpad_leftpad, ← toDigits_eq, decimal, hvalue.truncate_eq, sign_eq hvalue,
      toNat_toInt64_abs hvalue]
    cases d.precision with
    | none =>
        rw [Option.getD_none, leftpad_of_le (Nat.zero_le _)]
        rfl
    | some p => rfl
  rw [hpad, pad_append (printedSign_cases d z) (isSign_of_head? (by decide)), leftpad_leftpad]
  rfl

/-- The decimal text is that of C except for the least integer, and for zero with the precision
zero. -/
theorem decimal_eq_printedDecimal_iff (hvalue : HasValue f z) (hlow : -2 ^ 63 ≤ z)
    (hhigh : z < 2 ^ 63) :
    d.decimal f = d.printedDecimal z ↔ z ≠ -2 ^ 63 ∧ ¬(z = 0 ∧ d.precision = some 0) := by
  rw [decimal_eq hvalue, printedDecimal_eq,
    justify_append_inj (notMem_leftpad (by decide)) (notMem_leftpad (by decide))]
  by_cases hleast : z = -2 ^ 63
  · refine iff_of_false (fun h ↦ ?_) (fun h ↦ h.1 hleast)
    subst hleast
    have hlast := congrArg List.getLast? h
    rw [getLast?_leftpad (by decide), getLast?_leftpad (by decide)] at hlast
    revert hlast
    decide
  · have hmin : min z.natAbs (2 ^ 63 - 1) = z.natAbs := by omega
    have hzero := length_significant_eq_zero_iff 10 z.natAbs
    rw [Int.natAbs_eq_zero] at hzero
    rw [hmin, leftpad_eq_leftpad_iff, and_iff_right hleast, filled, ← hzero]
    generalize (significant 10 z.natAbs).length = m
    cases d.precision with
    | none => simp
    | some p =>
        simp only [Option.isNone_some, Bool.false_eq_true, if_false, Option.getD_some,
          Option.some.injEq]
        omega

end Decimal

/-! ## Octal -/

section Octal

variable {f : Float} {u : ℕ}

/-- One more digit in the alternate form. -/
def extra (d : Directive) : ℕ := if d.alternate then 1 else 0

theorem octal_eq (hword : word f = u) :
    d.octal f = d.justify ((significant 8 u).leftpad
      (max d.filling (max 1 (significant 8 u).length + d.extra)) '0') := by
  have hbody : (if d.alternate then ['0'] else []) ++ (significant 8 u).leftpad 1 '0' =
      (significant 8 u).leftpad (max 1 (significant 8 u).length + d.extra) '0' := by
    rcases Bool.eq_false_or_eq_true d.alternate with halternate | halternate
    · rw [extra, if_pos halternate, if_pos halternate]
      exact cons_leftpad
    · rw [extra, if_neg (by simp [halternate]), if_neg (by simp [halternate]), List.nil_append,
        leftpad_eq_leftpad_iff]
      omega
  rw [octal, hword, toDigits_eq, hbody]
  refine (pad_append (.inl rfl) (isSign_of_head? (by decide))).trans ?_
  rw [leftpad_leftpad]
  rfl

theorem printedOctal_eq (d : Directive) (u : ℕ) :
    d.printedOctal u = d.justify ((significant 8 u).leftpad
      (max (d.filled []) (max (d.precision.getD 1) ((significant 8 u).length + d.extra))) '0') := by
  have hbody : (if d.alternate && (d.precise 8 u).head? != some '0' then '0' :: d.precise 8 u
      else d.precise 8 u) = (significant 8 u).leftpad
        (max (d.precision.getD 1) ((significant 8 u).length + d.extra)) '0' := by
    have hfirst : (d.precise 8 u).head? = some '0' ↔
        (significant 8 u).length < d.precision.getD 1 := by
      rw [precise, head?_leftpad]
      split
      · next h => exact iff_of_true rfl h
      · next h => exact iff_of_false (head?_significant (by decide)) h
    rcases Bool.eq_false_or_eq_true d.alternate with halternate | halternate
    · rw [extra, if_pos halternate, halternate, Bool.true_and]
      split
      · next h =>
        have hfirst := mt hfirst.2 (bne_iff_ne.1 h)
        rw [precise, cons_leftpad, leftpad_eq_leftpad_iff]
        omega
      · next h =>
        have hfirst := hfirst.1 (by simpa using h)
        rw [precise, leftpad_eq_leftpad_iff]
        omega
    · rw [extra, if_neg (by simp [halternate]), if_neg (by simp [halternate]), precise,
        leftpad_eq_leftpad_iff]
      omega
  rw [printedOctal, hbody, field, List.nil_append, leftpad_leftpad]

/-- When a number of `m` significant digits in octal has the text of C.  Without a precision this is
always so but for a zero in the alternate form, which gets a digit too many; with a precision the
digits have to be as many. -/
def OctalConforms (d : Directive) (m : ℕ) : Prop :=
  match d.precision with
  | none => m ≠ 0 ∨ d.alternate = false ∨ 2 ≤ d.filling
  | some p => max p (m + d.extra) = max (max 1 m + d.extra) d.filling

theorem octal_eq_printedOctal_iff (hword : word f = u) :
    d.octal f = d.printedOctal u ↔ d.OctalConforms (significant 8 u).length := by
  rw [octal_eq hword, printedOctal_eq, justify_inj (notMem_leftpad (by decide))
    (notMem_leftpad (by decide)), leftpad_eq_leftpad_iff, filled, OctalConforms]
  generalize (significant 8 u).length = m
  cases d.precision with
  | none =>
      simp only [Option.isNone_none, if_true, Option.getD_none, List.length_nil, extra]
      cases d.alternate <;> simp; omega
  | some p =>
      simp only [Option.isNone_some, Bool.false_eq_true, if_false, Option.getD_some]
      omega

end Octal

/-! ## Hexadecimal -/

section Hexadecimal

variable {f : Float} {u : ℕ} {c : Char}

/-- When a number of `m` significant digits in hexadecimal has the text of C.  The prefix in front of
a zero is wrong, and so is one behind the zeros that fill the field. -/
def HexadecimalConforms (d : Directive) (m : ℕ) : Prop :=
  if d.alternate then m ≠ 0 ∧ (∀ p ∈ d.precision, p ≤ m) ∧ d.filling ≤ m + 2
  else ∀ p ∈ d.precision, max p m = max (max 1 m) d.filling

theorem justify_map {φ : Char → Char} (hspace : φ ' ' = ' ') (cs : List Char) :
    (d.justify cs).map φ = d.justify (cs.map φ) := by
  unfold justify
  split
  · rw [List.rightpad, List.rightpad, List.map_append, List.map_replicate, hspace, List.length_map]
  · rw [map_leftpad, hspace]

/-- The prefix and the digits of a number in hexadecimal. -/
def hexadecimalBody (d : Directive) (u : ℕ) : List Char :=
  (if d.alternate then ['0', 'x'] else []) ++ Nat.toDigits 16 u

theorem of_mem_hexadecimalBody (h : c ∈ d.hexadecimalBody u) :
    isSign c = false ∧ isSign c.toUpper = false ∧ c.toUpper.toLower = c := by
  have hdigit : ∀ k < 16, isSign (Nat.digitChar k) = false ∧
      isSign (Nat.digitChar k).toUpper = false ∧
      (Nat.digitChar k).toUpper.toLower = Nat.digitChar k := by decide
  rcases List.mem_append.1 h with hpre | hds
  · split at hpre
    · rcases List.mem_pair.1 hpre with rfl | rfl <;> decide
    · exact absurd hpre List.not_mem_nil
  · obtain ⟨k, hk, rfl⟩ := exists_digitChar_of_mem (by decide) hds
    exact hdigit k hk

theorem hexadecimal_eq (hword : word f = u) :
    d.hexadecimal false f = d.justify ((d.hexadecimalBody u).leftpad d.filling '0') := by
  rw [hexadecimal, hword]
  exact pad_append (.inl rfl) fun c hc ↦ (of_mem_hexadecimalBody (List.mem_of_mem_head? hc)).1

theorem hexadecimal_upper (d : Directive) (f : Float) :
    d.hexadecimal true f = (d.hexadecimal false f).map Char.toUpper := by
  rw [hexadecimal_eq rfl, justify_map rfl, map_leftpad]
  refine pad_append (.inl rfl) fun c hc ↦ ?_
  obtain ⟨c, hmem, rfl⟩ := List.mem_map.1 (List.mem_of_mem_head? hc)
  exact (of_mem_hexadecimalBody hmem).2.1

theorem printedHexadecimal_eq (d : Directive) (u : ℕ) :
    d.printedHexadecimal u = d.justify (d.printedPrefix u ++ (significant 16 u).leftpad
      (max (d.filled (d.printedPrefix u)) (d.precision.getD 1)) '0') := by
  rw [printedHexadecimal, field, precise, leftpad_leftpad]

/-- Digits behind the prefix get no zeros, neither for a precision nor in front of the prefix. -/
theorem prefixed_eq_iff {n : ℕ} :
    ('0' :: 'x' :: significant 16 u).leftpad d.filling '0' =
        '0' :: 'x' :: (significant 16 u).leftpad n '0' ↔
      n ≤ (significant 16 u).length ∧ d.filling ≤ (significant 16 u).length + 2 := by
  rcases Nat.lt_or_ge ((significant 16 u).length + 2) d.filling with hlong | hshort
  · -- The second character is a zero in one text and the letter in the other.
    refine iff_of_false (fun h ↦ ?_) (fun h ↦ absurd h.2 (Nat.not_le_of_lt hlong))
    obtain ⟨k, hk⟩ : ∃ k, d.filling - ((significant 16 u).length + 1 + 1) = k + 1 :=
      ⟨d.filling - ((significant 16 u).length + 1 + 1) - 1, by omega⟩
    have hsecond := congrArg (·[1]?) h
    simp only [List.leftpad, List.length_cons, hk] at hsecond
    cases k <;> simp [List.replicate_succ] at hsecond
  · have hplain : significant 16 u = (significant 16 u).leftpad 0 '0' :=
      (leftpad_of_le (Nat.zero_le _)).symm
    rw [leftpad_of_le hshort, List.cons_inj_right, List.cons_inj_right, and_iff_left hshort]
    conv_lhs => lhs; rw [hplain]
    rw [leftpad_eq_leftpad_iff]
    omega

theorem hexadecimalBody_of_alternate (halternate : d.alternate = true) (u : ℕ) :
    d.hexadecimalBody u = '0' :: 'x' :: Nat.toDigits 16 u := by
  rw [hexadecimalBody, if_pos halternate]
  rfl

theorem hexadecimalBody_of_not_alternate (halternate : d.alternate = false) (u : ℕ) :
    d.hexadecimalBody u = (significant 16 u).leftpad 1 '0' := by
  rw [hexadecimalBody, if_neg (by simp [halternate]), toDigits_eq]
  rfl

theorem notMem_hexadecimalBody (d : Directive) (u n : ℕ) :
    ' ' ∉ (d.hexadecimalBody u).leftpad n '0' := fun h ↦
  (mem_leftpad h).elim (by decide) fun hmem ↦ nomatch (of_mem_hexadecimalBody hmem).1

theorem notMem_printed (d : Directive) (u n : ℕ) :
    ' ' ∉ d.printedPrefix u ++ (significant 16 u).leftpad n '0' := by
  rw [List.mem_append, not_or, printedPrefix]
  refine ⟨?_, notMem_leftpad (by decide)⟩
  split <;> decide

theorem hexadecimal_eq_printedHexadecimal_iff (hword : word f = u) :
    d.hexadecimal false f = d.printedHexadecimal u ↔
      d.HexadecimalConforms (significant 16 u).length := by
  have hzero := length_significant_eq_zero_iff 16 u
  rw [hexadecimal_eq hword, printedHexadecimal_eq, HexadecimalConforms,
    justify_inj (notMem_hexadecimalBody d u d.filling) (notMem_printed d u _)]
  rcases Bool.eq_false_or_eq_true d.alternate with halternate | halternate
  · rw [if_pos halternate, hexadecimalBody_of_alternate halternate]
    rcases eq_or_ne u 0 with rfl | hu
    · -- The text of C has no prefix.
      rw [printedPrefix, if_neg (fun h ↦ h.2 rfl), List.nil_append]
      refine iff_of_false (fun h ↦ ?_) (fun h ↦ h.1 rfl)
      have hletter : 'x' ∈ ('0' :: 'x' :: Nat.toDigits 16 0).leftpad d.filling '0' :=
        List.mem_append_right _ (by decide)
      rw [h] at hletter
      exact (mem_leftpad hletter).elim (by decide) List.not_mem_nil
    · have hdigits : Nat.toDigits 16 u = significant 16 u := (if_neg hu).symm
      rw [printedPrefix, if_pos ⟨halternate, hu⟩, hdigits]
      refine prefixed_eq_iff.trans ?_
      rw [filled]
      generalize (significant 16 u).length = m at *
      cases d.precision with
      | none => simp; omega
      | some p => simp; omega
  · rw [if_neg (by simp [halternate]), printedPrefix, if_neg (by simp [halternate]),
      List.nil_append, hexadecimalBody_of_not_alternate halternate, leftpad_leftpad,
      leftpad_eq_leftpad_iff, filled]
    generalize (significant 16 u).length = m
    cases d.precision with
    | none => simp
    | some p => simp; omega

/-! Capital letters tell as much as small ones. -/

theorem mem_justify {cs : List Char} (h : c ∈ d.justify cs) : c = ' ' ∨ c ∈ cs := by
  rw [justify] at h
  split at h
  · exact (List.mem_append.1 h).symm.imp_left List.eq_of_mem_replicate
  · exact mem_leftpad h

theorem of_mem_hexadecimal (h : c ∈ d.hexadecimal false f) : c.toUpper.toLower = c := by
  rw [hexadecimal_eq rfl] at h
  rcases mem_justify h with rfl | h
  · decide
  rcases mem_leftpad h with rfl | h
  · decide
  · exact (of_mem_hexadecimalBody h).2.2

theorem of_mem_printedHexadecimal (h : c ∈ d.printedHexadecimal u) : c.toUpper.toLower = c := by
  have hpre (h : c ∈ d.printedPrefix u) : c.toUpper.toLower = c := by
    rw [printedPrefix] at h
    split at h
    · rcases List.mem_pair.1 h with rfl | rfl <;> decide
    · exact absurd h List.not_mem_nil
  rw [printedHexadecimal_eq] at h
  rcases mem_justify h with rfl | h
  · decide
  rcases List.mem_append.1 h with h | h
  · exact hpre h
  rcases mem_leftpad h with rfl | h
  · decide
  · rw [significant] at h
    split at h
    · exact absurd h List.not_mem_nil
    · exact (of_mem_hexadecimalBody (d := d) (List.mem_append_right _ h)).2.2

theorem map_toUpper_inj {xs ys : List Char} (hx : ∀ c ∈ xs, c.toUpper.toLower = c)
    (hy : ∀ c ∈ ys, c.toUpper.toLower = c) :
    xs.map Char.toUpper = ys.map Char.toUpper ↔ xs = ys := by
  have hback {xs : List Char} (hx : ∀ c ∈ xs, c.toUpper.toLower = c) :
      (xs.map Char.toUpper).map Char.toLower = xs := by
    rw [List.map_map]
    exact (List.map_congr_left hx).trans (List.map_id' xs)
  refine ⟨fun h ↦ ?_, fun h ↦ by rw [h]⟩
  rw [← hback hx, h, hback hy]

end Hexadecimal

/-! ## All conversions -/

/-- When the text of an integer is that of C. -/
def Conforms (d : Directive) (conversion : Char) (z : ℤ) : Prop :=
  match conversion with
  | 'd' | 'i' => z ≠ -2 ^ 63 ∧ ¬(z = 0 ∧ d.precision = some 0)
  | 'o' => d.OctalConforms (significant 8 (Number.unsigned64 z)).length
  | 'x' | 'X' => d.HexadecimalConforms (significant 16 (Number.unsigned64 z)).length
  | _ => True

theorem word_eq {f : Float} {z : ℤ} (hvalue : Number.HasValue f z) (hlow : -2 ^ 63 ≤ z)
    (hhigh : z < 2 ^ 63) :
    word f = Number.unsigned64 z := by
  have hclamp : Number.clamp Number.int64Min Number.int64Max z = z :=
    Number.clamp_of_mem hlow (Int.le_sub_one_of_lt hhigh)
  rw [word, hvalue.toInt64_eq, hclamp]

end LuaEmbed.Text.Directive

/-! ## Directives as they are written -/

namespace LuaEmbed.Text.Directive

open Number (natOfDigits words64)

variable {flags width ds : List Char} {precision : Option (List Char)}

/-- The directive that flags, a width and a precision say. -/
def denoted (flags width : List Char) (precision : Option (List Char)) : Directive :=
  ⟨flags.contains '-', flags.contains '+', flags.contains ' ', flags.contains '0',
    flags.contains '#', natOfDigits 10 width, precision.map (natOfDigits 10)⟩

theorem Spelled.ne_percent {rest : List Char} (h : Spelled flags width precision rest)
    (hrest : ∀ r, rest ≠ '%' :: r) (r : List Char) :
    flags ++ (width ++ (point precision ++ rest)) ≠ '%' :: r := by
  intro heq
  cases flags with
  | cons c cs =>
      obtain ⟨rfl, -⟩ := List.cons.inj heq
      exact nomatch h.all_flags _ List.mem_cons_self
  | nil =>
  cases width with
  | cons c cs =>
      obtain ⟨rfl, -⟩ := List.cons.inj heq
      exact nomatch h.all_width _ List.mem_cons_self
  | nil =>
  cases precision with
  | some ds => exact absurd (List.cons.inj heq).1 (by decide)
  | none => exact hrest r heq

theorem count_of_le (h : natOfDigits 10 ds ≤ 99) : count ds = natOfDigits 10 ds := by
  rw [count_eq, Nat.mod_eq_of_lt (h.trans_lt (by decide))]

theorem ofSpelling_eq_denoted (hwidth : natOfDigits 10 width ≤ 99)
    (hprecision : ∀ ds ∈ precision, natOfDigits 10 ds ≤ 99) :
    ofSpelling flags width precision = denoted flags width precision := by
  rw [ofSpelling, denoted, count_of_le hwidth,
    Option.map_congr fun ds hds ↦ count_of_le (hprecision ds hds)]

theorem isInRange_denoted (hwidth : natOfDigits 10 width ≤ 99)
    (hprecision : ∀ ds ∈ precision, natOfDigits 10 ds ≤ 99) :
    (denoted flags width precision).isInRange = true := by
  cases precision with
  | none => simpa [isInRange, denoted, maxCount] using hwidth
  | some ds => simpa [isInRange, denoted, maxCount] using ⟨hwidth, hprecision ds rfl⟩

end LuaEmbed.Text.Directive

namespace LuaEmbed.Library.Strings

open Number (HasValue)
open Text (Directive)
open Text.Directive (Spelled point ofSpelling)

variable {d : Directive} {f : Float} {z : ℤ} {conversion : Char}

theorem convert_integer (d : Directive) (hvalue : HasValue f z) (hlow : -2 ^ 63 ≤ z)
    (hhigh : z < 2 ^ 63) (hconversion : conversion ∈ ['d', 'i', 'x', 'X', 'o']) :
    ∃ text, (∀ (call : Caller) (args : Arguments) (n : ℕ) (s : Session), args.arg n = .number f →
        convert call args d conversion n s = .ok text s) ∧
      (text = d.printed conversion z ↔ d.Conforms conversion z) := by
  have hword := Directive.word_eq hvalue hlow hhigh
  have hlaid {convert : Float → List Char} (args : Arguments) (n : ℕ) (s : Session)
      (harg : args.arg n = .number f) :
      (convert <$> args.checkNumeral n : Run (List Char)) s = .ok (convert f) s := by
    rw [Arguments.checkNumeral, harg]
    rfl
  simp only [List.mem_cons, List.not_mem_nil, or_false] at hconversion
  rcases hconversion with rfl | rfl | rfl | rfl | rfl
  · exact ⟨_, fun _ ↦ hlaid, Directive.decimal_eq_printedDecimal_iff hvalue hlow hhigh⟩
  · exact ⟨_, fun _ ↦ hlaid, Directive.decimal_eq_printedDecimal_iff hvalue hlow hhigh⟩
  · exact ⟨_, fun _ ↦ hlaid, Directive.hexadecimal_eq_printedHexadecimal_iff hword⟩
  · refine ⟨_, fun _ ↦ hlaid, ?_⟩
    rw [Directive.hexadecimal_upper]
    exact (Directive.map_toUpper_inj (fun _ ↦ Directive.of_mem_hexadecimal)
      (fun _ ↦ Directive.of_mem_printedHexadecimal)).trans
        (Directive.hexadecimal_eq_printedHexadecimal_iff hword)
  · exact ⟨_, fun _ ↦ hlaid, Directive.octal_eq_printedOctal_iff hword⟩

/-- The format that is one directive. -/
def directiveFormat (flags width : List Char) (precision : Option (List Char))
    (conversion : Char) : String :=
  String.ofList ('%' :: (flags ++ (width ++ (point precision ++ [conversion]))))

theorem format_directive {flags width text : List Char} {precision : Option (List Char)} {v : Value}
    {s s' : Session} (call : Caller)
    (hspelled : Spelled flags width precision [conversion])
    (hwidth : Number.natOfDigits 10 width ≤ 99)
    (hprecision : ∀ ds ∈ precision, Number.natOfDigits 10 ds ≤ 99) (hpercent : conversion ≠ '%')
    (htext : convert call [.string (directiveFormat flags width precision conversion), v]
      (Directive.denoted flags width precision) conversion 2 s = .ok text s') :
    format call [.string (directiveFormat flags width precision conversion), v] s =
      .ok [.string (String.ofList text)] s' := by
  have hread := Directive.read_of_spelled hspelled
  rw [Directive.ofSpelling_eq_denoted hwidth hprecision] at hread
  have hpass : Passes call [.string (directiveFormat flags width precision conversion), v]
      ⟨'%' :: (flags ++ (width ++ (point precision ++ [conversion]))), 1, "", s⟩
      ⟨[], 2, "" ++ String.ofList text, s'⟩ :=
    .directive (hspelled.ne_percent fun r h ↦ hpercent (List.cons.inj h).1) hread
      (Directive.isInRange_denoted hwidth hprecision) htext
  rw [format_eq rfl, directiveFormat, String.toList_ofList]
  rw [directiveFormat] at hpass
  rw [hpass.formatRest_eq, String.empty_append]
  rfl

/-- A directive for an integer of 64 bits, with a width and a precision of at most 99, gives the text
that `printf` of C99 gives exactly where the directive conforms: in decimal everywhere but for the
least integer and for zero with the precision zero, in octal and in hexadecimal where the precision
and the alternate form happen to come to the same. -/
theorem format_integer_iff (call : Caller) (s : Session) (flags width : List Char)
    (precision : Option (List Char)) (conversion : Char) (f : Float) (z : ℤ)
    (hspelled : Spelled flags width precision [conversion])
    (hwidth : Number.natOfDigits 10 width ≤ 99)
    (hprecision : ∀ ds ∈ precision, Number.natOfDigits 10 ds ≤ 99)
    (hconversion : conversion ∈ ['d', 'i', 'x', 'X', 'o']) (hvalue : HasValue f z)
    (hlow : -2 ^ 63 ≤ z) (hhigh : z < 2 ^ 63) :
    ∃ text, format call
        [.string (directiveFormat flags width precision conversion), .number f] s =
        .ok [.string (String.ofList text)] s ∧
      (text = (Directive.denoted flags width precision).printed conversion z ↔
        (Directive.denoted flags width precision).Conforms conversion z) := by
  obtain ⟨text, htext, hiff⟩ :=
    convert_integer (Directive.denoted flags width precision) hvalue hlow hhigh hconversion
  have hpercent : conversion ≠ '%' := by
    rintro rfl
    simp at hconversion
  exact ⟨text, format_directive call hspelled hwidth hprecision hpercent (htext call _ 2 s rfl),
    hiff⟩

/-- A sign, zeros up to the width, and the digits. -/
theorem format_integer_iff_signed :
    let s : Session := ⟨Machine.initial 200, World.initial⟩
    let call : Caller := fun _ _ _ ↦ pure []
    format call [.string "%+08d", .number (Number.ofInt 42)] s = .ok [.string "+0000042"] s := by
  intro s call
  have hspelled : Spelled ['+', '0'] ['8'] none ['d'] :=
    ⟨List.all_eq_true.1 rfl, List.all_eq_true.1 rfl, nofun, by rintro _ ⟨⟩; rfl,
      by rintro _ ⟨⟩; rfl, nofun, nofun⟩
  obtain ⟨text, htext, hiff⟩ := format_integer_iff call s _ _ _ 'd' (Number.ofInt 42) 42 hspelled
    (by decide) nofun (by decide) (Number.hasValue_ofInt_of_lt (by decide)) (by decide) (by decide)
  have hprinted : text = ['+', '0', '0', '0', '0', '0', '4', '2'] :=
    (hiff.2 ⟨by decide, by decide⟩).trans (by decide)
  rw [hprinted] at htext
  exact htext

/-- The least integer gets the digits of the next one. -/
theorem format_least :
    let s : Session := ⟨Machine.initial 200, World.initial⟩
    let call : Caller := fun _ _ _ ↦ pure []
    HasValue (Number.ofInt (-2 ^ 63)) (-2 ^ 63) ∧
      format call [.string "%d", .number (Number.ofInt (-2 ^ 63))] s =
        .ok [.string "-9223372036854775807"] s ∧
      String.ofList ((Directive.denoted [] [] none).printed 'd' (-2 ^ 63)) =
        "-9223372036854775808" := by
  intro s call
  have hvalue : HasValue (Number.ofInt (-2 ^ 63)) ((-2 ^ 63 : ℤ) : ℚ) := by
    have hrounded := Number.hasValue_ofInt (z := -2 ^ 63) (by decide)
    have hleast : Number.nearestInt (-2 ^ 63) = -2 ^ 63 := by decide +kernel
    rwa [hleast] at hrounded
  refine ⟨by exact_mod_cast hvalue, ?_, by decide⟩
  have htext : (Directive.denoted [] [] none).decimal (Number.ofInt (-2 ^ 63)) =
      "-9223372036854775807".toList := by
    rw [Directive.decimal_eq hvalue]
    decide
  have hspelled : Spelled [] [] none ['d'] :=
    ⟨nofun, nofun, nofun, by rintro _ ⟨⟩; rfl, by rintro _ ⟨⟩; rfl, nofun, nofun⟩
  have hformat := format_directive (v := .number (Number.ofInt (-2 ^ 63))) (s := s) call hspelled
    (by decide) nofun (by decide) rfl
  rwa [htext] at hformat

end LuaEmbed.Library.Strings
