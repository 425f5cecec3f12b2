import LuaEmbed.Library.Base
import LuaEmbed.Proofs.Lexing.Numerals
import LuaEmbed.Proofs.Numbers.Integers
import LuaEmbed.Proofs.Runs.Reads

/-!
# Numerals of other bases

A numeral of a base is a sign, or none, and one or more digits.  Conversion to a number in a base
other than ten takes the numerals that fit into 64 bits, with white space around them, for the
numbers that they denote.  It looks for a minus sign by itself before it hands the rest to a reader
that allows a sign as well, so that it takes a numeral with a sign and a further minus sign in front
of it, too.
-/

namespace LuaEmbed

namespace Number

variable {base d n : ℕ} {b : Bool} {c : Char} {cs ds : List Char} {z : ℤ}

/-! ## Digits -/

/-- Digits of a base, at least one, and the number they denote: each digit more makes what stands
before it count `base` times as much. -/
inductive Positional (base : ℕ) : List Char → ℕ → Prop
  | digit {c : Char} {d : ℕ} (hc : digitValue? c = some d) (hd : d < base) : Positional base [c] d
  | append {ds : List Char} {n : ℕ} {c : Char} {d : ℕ} (h : Positional base ds n)
      (hc : digitValue? c = some d) (hd : d < base) : Positional base (ds ++ [c]) (n * base + d)

theorem isDigitOf_iff_digitValue? :
    isDigitOf base c = true ↔ ∃ d, digitValue? c = some d ∧ d < base := by
  rw [isDigitOf]
  cases digitValue? c <;> simp

namespace Positional

theorem ne_nil (h : Positional base ds n) : ds ≠ [] := by
  cases h <;> simp

theorem isDigitOf_of_mem (h : Positional base ds n) (hc : c ∈ ds) : isDigitOf base c = true := by
  induction h with
  | digit hc' hd =>
      obtain rfl := List.mem_singleton.1 hc
      exact isDigitOf_iff_digitValue?.2 ⟨_, hc', hd⟩
  | append _ hc' hd ih =>
      rcases List.mem_append.1 hc with hc | hc
      · exact ih hc
      · obtain rfl := List.mem_singleton.1 hc
        exact isDigitOf_iff_digitValue?.2 ⟨_, hc', hd⟩

theorem natOfDigits_eq (h : Positional base ds n) : natOfDigits base ds = n := by
  induction h with
  | @digit c d hc _ => simp [natOfDigits, hc]
  | append _ hc _ ih => rw [natOfDigits_append_singleton, ih, hc, Option.getD_some]

end Positional

/-- Digits denote the number that they are folded to. -/
theorem positional_iff :
    Positional base ds n ↔ ds ≠ [] ∧ ds.all (isDigitOf base) = true ∧ natOfDigits base ds = n := by
  refine ⟨fun h ↦ ⟨h.ne_nil, List.all_eq_true.2 fun _ ↦ h.isDigitOf_of_mem, h.natOfDigits_eq⟩, ?_⟩
  rintro ⟨hne, hall, rfl⟩
  induction ds using List.reverseRecOn with
  | nil => exact absurd rfl hne
  | append_singleton ds c ih =>
      rw [List.all_append, Bool.and_eq_true, List.all_cons, List.all_nil, Bool.and_true] at hall
      obtain ⟨d, hc, hd⟩ := isDigitOf_iff_digitValue?.1 hall.2
      cases ds with
      | nil =>
          have hvalue : natOfDigits base [c] = d := by simp [natOfDigits, hc]
          rw [List.nil_append, hvalue]
          exact .digit hc hd
      | cons c' ds =>
          rw [natOfDigits_append_singleton, hc]
          exact .append (ih (List.cons_ne_nil _ _) hall.1) hc hd

/-! ## Signs -/

/-- A numeral of a base and the integer it denotes. -/
inductive Numeral (base : ℕ) : List Char → ℤ → Prop
  | plain {ds : List Char} {n : ℕ} (h : Positional base ds n) : Numeral base ds n
  | plus {ds : List Char} {n : ℕ} (h : Positional base ds n) : Numeral base ('+' :: ds) n
  | minus {ds : List Char} {n : ℕ} (h : Positional base ds n) : Numeral base ('-' :: ds) (-n)

/-- A minus sign in front of a numeral that has a sign itself and denotes a 64-bit integer, and the
negation of that integer. -/
inductive Doubled (base : ℕ) : List Char → ℤ → Prop
  | plus {ds : List Char} {n : ℕ} (h : Positional base ds n) (hn : n ≤ int64Max) :
      Doubled base ('-' :: '+' :: ds) (-n)
  | minus {ds : List Char} {n : ℕ} (h : Positional base ds n) (hn : n ≤ int64Max + 1) :
      Doubled base ('-' :: '-' :: ds) n

/-- Digits have no sign in front of them. -/
theorem Positional.splitSign_eq (h : Positional base ds n) : splitSign ds = (false, ds) := by
  cases ds with
  | nil => exact absurd rfl h.ne_nil
  | cons c ds =>
      have hc := h.isDigitOf_of_mem (List.mem_cons_self ..)
      rw [splitSign]
      · rintro _ ⟨⟩
        exact absurd hc (by simp [isDigitOf, digitValue?])
      · rintro _ ⟨⟩
        exact absurd hc (by simp [isDigitOf, digitValue?])

theorem splitSign_cases (h : splitSign cs = (b, ds)) :
    b = false ∧ (cs = ds ∨ cs = '+' :: ds) ∨ b = true ∧ cs = '-' :: ds := by
  unfold splitSign at h
  split at h <;> cases h <;> simp

theorem numeral_iff :
    Numeral base cs z ↔
      ∃ b ds n, splitSign cs = (b, ds) ∧ Positional base ds n ∧ z = if b then -(n : ℤ) else n := by
  constructor
  · rintro (⟨h⟩ | ⟨h⟩ | ⟨h⟩)
    · exact ⟨false, _, _, h.splitSign_eq, h, rfl⟩
    · exact ⟨false, _, _, rfl, h, rfl⟩
    · exact ⟨true, _, _, rfl, h, rfl⟩
  · rintro ⟨b, ds, n, hsplit, h, rfl⟩
    rcases splitSign_cases hsplit with ⟨rfl, rfl | rfl⟩ | ⟨rfl, rfl⟩
    · exact .plain h
    · exact .plus h
    · exact .minus h

/-- The reader of 64-bit integers takes the numerals that fit. -/
theorem int64OfBase?_eq_some_iff :
    int64OfBase? base cs = some z ↔ Numeral base cs z ∧ int64Min ≤ z ∧ z ≤ int64Max := by
  obtain ⟨b, ds, hsplit⟩ : ∃ b ds, splitSign cs = (b, ds) := ⟨_, _, rfl⟩
  have hnumeral : Numeral base cs z ↔
      (ds ≠ [] ∧ ds.all (isDigitOf base) = true) ∧
        z = if b then -(natOfDigits base ds : ℤ) else natOfDigits base ds := by
    rw [numeral_iff]
    constructor
    · rintro ⟨b', ds', n, hsplit', h, rfl⟩
      cases hsplit.symm.trans hsplit'
      obtain ⟨hne, hall, rfl⟩ := positional_iff.1 h
      exact ⟨⟨hne, hall⟩, rfl⟩
    · rintro ⟨⟨hne, hall⟩, rfl⟩
      exact ⟨b, ds, _, hsplit, positional_iff.2 ⟨hne, hall, rfl⟩, rfl⟩
  rw [hnumeral, int64OfBase?, hsplit]
  dsimp only
  split
  · next hbad =>
    refine iff_of_false nofun ?_
    rintro ⟨⟨⟨hne, hall⟩, -⟩, -⟩
    simp [hne, hall] at hbad
  · next hgood =>
    simp only [Bool.or_eq_true, List.isEmpty_iff, Bool.not_eq_true', not_or,
      Bool.not_eq_false] at hgood
    simp only [Int.ofNat_eq_natCast, Bool.and_eq_true, decide_eq_true_eq]
    split <;> grind

/-! ## White space around numerals -/

theorem isWhite_of_isDigitOf (hbase : base ≤ 36) (h : isDigitOf base c = true) :
    Text.isWhite c = false := by
  obtain ⟨d, hc, hd⟩ := isDigitOf_iff_digitValue?.1 h
  have hdigit : isDigitOf 36 c = true := isDigitOf_iff_digitValue?.2 ⟨d, hc, hd.trans_le hbase⟩
  exact isWhite_of_isNumeralChar (by simp [isNumeralChar, hdigit])

/-! ## What is taken for a number -/

/-- Conversion in a base takes the characters for the integer: they are a numeral of it, and its
magnitude is one of 64-bit integers, or else they have a minus sign in front of their sign. -/
def TakenFor (base : ℕ) (cs : List Char) (z : ℤ) : Prop :=
  (Numeral base cs z ∧ (z.natAbs : ℤ) ≤ int64Max) ∨ Doubled base cs z

theorem not_positional_minus (h : Positional base ('-' :: ds) n) : False :=
  absurd (h.isDigitOf_of_mem (List.mem_cons_self ..)) (by simp [isDigitOf, digitValue?])

/-- Behind a minus sign the reader of integers decides, which takes a sign as well. -/
theorem takenFor_minus_iff : TakenFor base ('-' :: rest) z ↔ int64OfBase? base rest = some (-z) := by
  rw [int64OfBase?_eq_some_iff]
  constructor
  · rintro (⟨⟨h⟩ | _ | ⟨h⟩, hn⟩ | ⟨h, hn⟩ | ⟨h, hn⟩)
    · exact (not_positional_minus h).elim
    all_goals simp only [int64Min, int64Max, neg_neg] at hn ⊢
    · exact ⟨.plain h, by omega⟩
    · exact ⟨.plus h, by omega⟩
    · exact ⟨.minus h, by omega⟩
  · generalize hw : -z = w
    obtain rfl : z = -w := by omega
    rintro ⟨⟨h⟩ | ⟨h⟩ | ⟨h⟩, hlow, hhigh⟩
    · exact .inl ⟨.minus h, by omega⟩
    · exact .inr (.plus h (by omega))
    · rw [neg_neg]
      exact .inr (.minus h (by simp only [int64Min, int64Max] at *; omega))

theorem takenFor_iff (h : ∀ rest, cs ≠ '-' :: rest) :
    TakenFor base cs z ↔ int64OfBase? base cs = some z := by
  rw [int64OfBase?_eq_some_iff]
  constructor
  · rintro (⟨hz, hn⟩ | ⟨-, -⟩ | ⟨-, -⟩)
    · exact ⟨hz, by simp only [int64Min, int64Max] at *; omega⟩
    all_goals exact absurd rfl (h _)
  · rintro ⟨hz, hlow, hhigh⟩
    refine .inl ⟨hz, ?_⟩
    cases hz with
    | minus => exact absurd rfl (h _)
    | plain | plus => omega

theorem TakenFor.isWhite_of_mem (h : TakenFor base cs z) (hbase : base ≤ 36) (hc : c ∈ cs) :
    Text.isWhite c = false := by
  have hdigit {ds : List Char} {n : ℕ} (hds : Positional base ds n) (hc : c ∈ ds) :
      Text.isWhite c = false :=
    isWhite_of_isDigitOf hbase (hds.isDigitOf_of_mem hc)
  have hplus : Text.isWhite '+' = false := by decide
  have hminus : Text.isWhite '-' = false := by decide
  rcases h with ⟨⟨h⟩ | ⟨h⟩ | ⟨h⟩, -⟩ | ⟨h, -⟩ | ⟨h, -⟩
  · exact hdigit h hc
  all_goals
    simp only [List.mem_cons] at hc
    grind

end Number

namespace Library.Base

open Number (HasValue Numeral TakenFor nearestInt int64OfBase? ofInt ofNat)
open Text (Padded)

variable {base : ℕ} {text : String} {cs rest : List Char} {z : ℤ}

/-- The arguments of a conversion in a base. -/
def baseArguments (text : String) (base : ℕ) : Arguments := [.string text, .number (ofNat base)]

/-- The number that the reader of integers gives, negated behind a minus sign. -/
def readNumber (base : ℕ) : List Char → Value
  | '-' :: rest => (int64OfBase? base rest).elim .nil fun z ↦ .number (-ofInt z)
  | cs => (int64OfBase? base cs).elim .nil fun z ↦ .number (ofInt z)

theorem tonumber_eq (hlow : 2 ≤ base) (hhigh : base ≤ 36) (hten : base ≠ 10) (text : String)
    (s : Session) :
    tonumber (baseArguments text base) s = .ok [readNumber base (Text.trimChars text.toList)] s := by
  have hread : Number.toInt64 (ofNat base) = base := Number.toInt64_ofInt (z := base) (by omega)
  have hbase : (baseArguments text base).opt .integer 2 10 = pure (base : ℤ) :=
    congrArg pure hread
  have htext : (baseArguments text base).check .string 1 = pure text := rfl
  have hten' : ((base : ℤ) == 10) = false := by
    rw [beq_eq_false_iff_ne]
    omega
  have hrange : (decide ((base : ℤ) < 2) || decide (36 < (base : ℤ))) = false := by
    simp
    omega
  rw [tonumber, hbase, pure_bind, if_neg (ne_true_of_eq_false hten'),
    if_neg (ne_true_of_eq_false hrange)]
  dsimp only
  rw [htext, pure_bind, Int.toNat_natCast]
  generalize Text.trimChars text.toList = cs
  split
  · next rest =>
    rw [readNumber]
    cases int64OfBase? base rest <;> rfl
  · next hminus =>
    rw [readNumber.eq_2 base cs hminus]
    cases int64OfBase? base cs <;> rfl

/-- What is taken for an integer is read as the double nearest to it, and everything else as no
number. -/
theorem readNumber_spec (base : ℕ) (cs : List Char) :
    (∀ z, TakenFor base cs z → ∃ f, readNumber base cs = .number f ∧ HasValue f (nearestInt z)) ∧
      ((¬∃ z, TakenFor base cs z) → readNumber base cs = .nil) := by
  have hsmall {z : ℤ} {ds : List Char} (h : int64OfBase? base ds = some z) : z.natAbs < 2 ^ 80 := by
    have hrange := (Number.int64OfBase?_eq_some_iff.1 h).2
    simp only [Number.int64Min, Number.int64Max] at hrange
    omega
  rcases em (∃ rest, cs = '-' :: rest) with ⟨rest, rfl⟩ | hminus
  · rw [readNumber]
    refine ⟨fun z hz ↦ ?_, fun hnone ↦ ?_⟩
    · have hread := Number.takenFor_minus_iff.1 hz
      have hvalue := Number.hasValue_neg_ofInt (hsmall hread)
      rw [neg_neg] at hvalue
      rw [hread]
      exact ⟨_, rfl, hvalue⟩
    · cases hread : int64OfBase? base rest with
      | none => rfl
      | some z =>
          refine absurd ⟨-z, Number.takenFor_minus_iff.2 ?_⟩ hnone
          rw [hread, neg_neg]
  · have hminus : ∀ rest, cs ≠ '-' :: rest := not_exists.1 hminus
    rw [readNumber.eq_2 base cs hminus]
    refine ⟨fun z hz ↦ ?_, fun hnone ↦ ?_⟩
    · have hread := (Number.takenFor_iff hminus).1 hz
      rw [hread]
      exact ⟨_, rfl, Number.hasValue_ofInt (hsmall hread)⟩
    · cases hread : int64OfBase? base cs with
      | none => rfl
      | some z => exact absurd ⟨z, (Number.takenFor_iff hminus).2 hread⟩ hnone

/-- Conversion in a base other than ten gives a number exactly for the numerals of the base that have
a magnitude of 64-bit integers, with or without white space around them, and for such numerals with a
sign that have a minus sign more in front: it is the double nearest to the integer that they denote,
and with the minus sign more to its negation.  Everything else gives `nil`. -/
theorem tonumber_numerals (base : ℕ) (hlow : 2 ≤ base) (hhigh : base ≤ 36) (hten : base ≠ 10)
    (text : String) (s : Session) :
    ∃ v, tonumber (baseArguments text base) s = .ok [v] s ∧
      (∀ cs z, Padded cs text.toList → TakenFor base cs z →
        ∃ f, v = .number f ∧ HasValue f (nearestInt z)) ∧
      ((¬∃ cs z, Padded cs text.toList ∧ TakenFor base cs z) → v = .nil) := by
  refine ⟨_, tonumber_eq hlow hhigh hten text s, fun cs z hpadded hz ↦ ?_, fun hnone ↦ ?_⟩
  · rw [hpadded.trimChars_eq fun c ↦ hz.isWhite_of_mem hhigh]
    exact (readNumber_spec base cs).1 z hz
  · exact (readNumber_spec base _).2 fun ⟨z, hz⟩ ↦ hnone ⟨_, z, Text.padded_trimChars _, hz⟩

/-- A hexadecimal numeral with white space around it. -/
theorem tonumber_numerals_hexadecimal :
    let s : Session := ⟨Machine.initial 200, World.initial⟩
    (2 ≤ 16 ∧ 16 ≤ 36 ∧ 16 ≠ 10) ∧ Padded ['-', '7', 'f'] " -7f ".toList ∧
      TakenFor 16 ['-', '7', 'f'] (-127) ∧
      ∃ f, tonumber (baseArguments " -7f " 16) s = .ok [.number f] s ∧ HasValue f (-127) := by
  intro s
  have hwhite : ∀ c ∈ [' '], Text.isWhite c = true := List.forall_mem_singleton.2 (by decide)
  have hpadded : Padded ['-', '7', 'f'] " -7f ".toList :=
    ⟨[' '], [' '], by decide, hwhite, hwhite⟩
  have hdigits : Number.Positional 16 ['7', 'f'] 127 :=
    Number.positional_iff.2 ⟨by decide, by decide, by decide⟩
  have hnumeral : TakenFor 16 ['-', '7', 'f'] (-127) := .inl ⟨.minus hdigits, by decide⟩
  have hexact : nearestInt (-127) = -127 := Number.nearestInt_of_lt (by decide)
  obtain ⟨v, hv, hnumber, -⟩ :=
    tonumber_numerals 16 (by decide) (by decide) (by decide) " -7f " s
  obtain ⟨f, rfl, hf⟩ := hnumber _ _ hpadded hnumeral
  rw [hexact] at hf
  exact ⟨by decide, hpadded, hnumeral, f, hv, by exact_mod_cast hf⟩

/-- With two minus signs the text is no numeral, and gives a number. -/
theorem tonumber_two_signs :
    let s : Session := ⟨Machine.initial 200, World.initial⟩
    (¬∃ cs z, Padded cs "--101".toList ∧ Numeral 2 cs z ∧ (z.natAbs : ℤ) ≤ Number.int64Max) ∧
      ∃ f, tonumber (baseArguments "--101" 2) s = .ok [.number f] s ∧ HasValue f 5 := by
  intro s
  have htrim : Text.trimChars "--101".toList = ['-', '-', '1', '0', '1'] := by decide
  constructor
  · rintro ⟨cs, z, hpadded, hz, hn⟩
    have hnumeral : TakenFor 2 cs z := .inl ⟨hz, hn⟩
    have hcs := hpadded.trimChars_eq fun c ↦ hnumeral.isWhite_of_mem (by decide)
    rw [htrim] at hcs
    subst hcs
    rcases hz with ⟨h⟩ | _ | ⟨h⟩ <;> exact Number.not_positional_minus h
  · have hdigits : Number.Positional 2 ['1', '0', '1'] 5 :=
      Number.positional_iff.2 ⟨by decide, by decide, by decide⟩
    have hdoubled : TakenFor 2 ['-', '-', '1', '0', '1'] 5 := .inr (.minus hdigits (by decide))
    have hexact : nearestInt 5 = 5 := Number.nearestInt_of_lt (by decide)
    obtain ⟨f, hread, hf⟩ := (readNumber_spec 2 _).1 5 hdoubled
    rw [hexact] at hf
    refine ⟨f, ?_, by exact_mod_cast hf⟩
    rw [tonumber_eq (by decide) (by decide) (by decide), htrim, hread]

end Library.Base

end LuaEmbed
