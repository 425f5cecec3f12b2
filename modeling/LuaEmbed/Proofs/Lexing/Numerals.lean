import LuaEmbed.Proofs.Lexing.Sources
import LuaEmbed.Proofs.Numbers.Hexadecimal
import LuaEmbed.Proofs.Text.Decoding
import Mathlib.Data.List.TakeWhile

/-!
# Numerals in source text and in strings

A text of the characters that numerals are written with is read in two ways: by the scanner of
numbers, which takes as much as has the form of a number and judges it afterwards, and as the
numeral that a string is.  Decimal numerals denote one double in both.  Hexadecimal ones are rounded
once in source text and digit by digit in strings, and in source text they have at most 64 bits.
-/

namespace LuaEmbed

namespace Number

variable {c : Char} {cs ds : List Char} {n : Float}

/-! ## The texts of numerals -/

/-- The characters that numerals are written with: digits, letters, points and signs. -/
def isNumeralChar (c : Char) : Bool := isDigitOf 36 c || c == '.' || c == '+' || c == '-'

theorem isDigitOf_iff {base : Nat} : isDigitOf base c = true ↔
    (48 ≤ c.toNat ∧ c.toNat ≤ 57 ∧ c.toNat - 48 < base) ∨
    (97 ≤ c.toNat ∧ c.toNat ≤ 122 ∧ c.toNat - 87 < base) ∨
    (65 ≤ c.toNat ∧ c.toNat ≤ 90 ∧ c.toNat - 55 < base) := by
  have hle (a b : Char) : a ≤ b ↔ a.toNat ≤ b.toNat := Iff.rfl
  simp only [isDigitOf, digitValue?, hle, Char.reduceToNat]
  grind

/-- Every character of a numeral stands between the plus sign and the small z. -/
theorem toNat_bounds_of_isNumeralChar (h : isNumeralChar c = true) :
    0x2B ≤ c.toNat ∧ c.toNat ≤ 0x7A := by
  simp only [isNumeralChar, isDigitOf_iff, Bool.or_eq_true, beq_iff_eq] at h
  rcases h with ((h | rfl) | rfl) | rfl
  · omega
  all_goals decide

theorem toNat_toUInt8 (hc : c.toNat < 0x100) : c.toUInt8.toNat = c.toNat := by
  rw [Char.toUInt8, UInt32.toNat_toUInt8]
  exact Nat.mod_eq_of_lt hc

theorem isWhite_of_isNumeralChar (h : isNumeralChar c = true) :
    Text.isWhite c = false := by
  have hle (a b : Char) : a ≤ b ↔ a.toNat ≤ b.toNat := Iff.rfl
  have hbounds := toNat_bounds_of_isNumeralChar h
  rw [Bool.eq_false_iff]
  intro hwhite
  simp only [Text.isWhite, hle, Bool.or_eq_true, Bool.and_eq_true, decide_eq_true_eq, beq_iff_eq,
    ← Char.toNat_inj, Char.reduceToNat] at hwhite
  omega

/-- A text of digits, letters and points, with signs only right behind the letter of an exponent. -/
structure NumeralText (cs : List Char) : Prop where
  alphabet : ∀ c ∈ cs, isNumeralChar c = true
  signs : ∀ front c rest, cs = front ++ c :: rest → c = '+' ∨ c = '-' →
    front.getLast? = some 'e' ∨ front.getLast? = some 'E'

theorem numeralText_iff : NumeralText cs ↔
    cs.all isNumeralChar = true ∧
      ∀ i, (hi : i < cs.length) → cs[i] = '+' ∨ cs[i] = '-' →
        (cs.take i).getLast? = some 'e' ∨ (cs.take i).getLast? = some 'E' := by
  constructor
  · rintro ⟨halphabet, hsigns⟩
    refine ⟨List.all_eq_true.2 halphabet, fun i hi ↦ hsigns (cs.take i) cs[i] (cs.drop (i + 1)) ?_⟩
    rw [List.getElem_cons_drop, List.take_append_drop]
  · rintro ⟨halphabet, hsigns⟩
    refine ⟨List.all_eq_true.1 halphabet, ?_⟩
    rintro front c rest rfl hc
    simpa using hsigns front.length (by simp) (by simpa using hc)

instance (cs : List Char) : Decidable (NumeralText cs) := decidable_of_iff' _ numeralText_iff

/-- A digit or a point. -/
def isDigitOrPoint (c : Char) : Bool := isDigit c || c == '.'

/-- What a numeral denotes in source text. -/
def sourceNumeral? (cs : List Char) : Option Float :=
  match cs with
  | '0' :: 'x' :: ds | '0' :: 'X' :: ds => hexadecimal64? ds
  | _ => decimal? cs

theorem splitSign_of_unsigned (h : ∀ c ∈ cs.head?, c ≠ '+' ∧ c ≠ '-') :
    splitSign cs = (false, cs) := by
  fun_cases splitSign cs
  · exact absurd rfl (h '-' rfl).2
  · exact absurd rfl (h '+' rfl).1
  · rfl

namespace NumeralText

theorem head_unsigned (h : NumeralText cs) : ∀ c ∈ cs.head?, c ≠ '+' ∧ c ≠ '-' := by
  intro c hc
  obtain ⟨rest, rfl⟩ : ∃ rest, cs = c :: rest := List.head?_eq_some_iff.1 hc
  constructor
  · rintro rfl
    exact absurd (h.signs [] '+' rest rfl (.inl rfl)) (by simp)
  · rintro rfl
    exact absurd (h.signs [] '-' rest rfl (.inr rfl)) (by simp)

/-- Nothing in such a text begins a comment. -/
theorem no_comment (h : NumeralText cs) {front rest : List Char} :
    cs ≠ front ++ '-' :: '-' :: rest := by
  intro heq
  have hsign := h.signs (front ++ ['-']) '-' rest (by simp [heq]) (.inr rfl)
  simp at hsign

end NumeralText

/-- A decimal numeral is digits and points, of which at least one is a digit, and an exponent. -/
theorem decimal?_form (hunsigned : ∀ c ∈ cs.head?, c ≠ '+' ∧ c ≠ '-') (h : decimal? cs = some n) :
    ∃ body tail, cs = body ++ tail ∧ (∀ c ∈ body, isDigitOrPoint c = true) ∧
      (∃ e, exponentPart? tail = some e) ∧
      ((∃ c rest, cs = c :: rest ∧ isDigit c = true) ∨
        ∃ c rest, cs = '.' :: c :: rest ∧ isDigit c = true) := by
  have digits (l : List Char) : ∀ c ∈ l.takeWhile isDigit, isDigitOrPoint c = true := fun c hc ↦ by
    rw [isDigitOrPoint, List.mem_takeWhile_imp hc, Bool.true_or]
  have first {l : List Char} (hl : l.takeWhile isDigit ≠ []) :
      ∃ c rest, l = c :: rest ∧ isDigit c = true := by
    cases l with
    | nil => exact absurd rfl hl
    | cons c l =>
        refine ⟨c, l, rfl, ?_⟩
        by_contra hc
        exact hl (List.takeWhile_cons_of_neg hc)
  have hsplit : cs.takeWhile isDigit ++ cs.dropWhile isDigit = cs := List.takeWhile_append_dropWhile
  unfold decimal? at h
  rw [splitSign_of_unsigned hunsigned] at h
  dsimp only at h
  split at h
  · next r hrest =>
    rw [hrest] at hsplit
    split at h
    · exact nomatch h
    · next hdigits =>
      obtain ⟨e, he, -⟩ := Option.map_eq_some_iff.1 h
      refine ⟨cs.takeWhile isDigit ++ '.' :: r.takeWhile isDigit, r.dropWhile isDigit, ?_, ?_,
        ⟨e, he⟩, ?_⟩
      · rw [List.append_assoc, List.cons_append, List.takeWhile_append_dropWhile, hsplit]
      · intro c hc
        rcases List.mem_append.1 hc with hc | hc
        · exact digits cs c hc
        · rcases List.mem_cons.1 hc with rfl | hc
          · rfl
          · exact digits r c hc
      · by_cases hwhole : cs.takeWhile isDigit = []
        · rw [hwhole, List.nil_append] at hsplit
          rw [hwhole] at hdigits
          have hplaces : r.takeWhile isDigit ≠ [] := by simpa using hdigits
          obtain ⟨c, rest, rfl, hc⟩ := first hplaces
          exact .inr ⟨c, rest, hsplit.symm, hc⟩
        · exact .inl (first hwhole)
  · split at h
    · exact nomatch h
    · next hdigits =>
      obtain ⟨e, he, -⟩ := Option.map_eq_some_iff.1 h
      exact ⟨_, _, hsplit.symm, digits cs, ⟨e, he⟩, .inl (first (by simpa using hdigits))⟩

/-- An exponent is its letter, a sign if there is one, and digits. -/
theorem exponentPart?_form {e : Int} (h : exponentPart? (c :: cs) = some e) :
    (c = 'e' ∨ c = 'E') ∧ (splitSign cs).2.all isDigit = true := by
  rw [exponentPart?] at h
  split at h
  · next hletter =>
    refine ⟨by simpa using hletter, ?_⟩
    by_contra hds
    rw [Bool.not_eq_true] at hds
    simp [hds] at h
  · exact nomatch h

theorem sourceNumeral?_cons_cons (z x : Char) (ds : List Char) :
    sourceNumeral? (z :: x :: ds) =
      if (z == '0' && (x == 'x' || x == 'X')) = true then hexadecimal64? ds
      else decimal? (z :: x :: ds) := by
  unfold sourceNumeral?
  split
  · next heq =>
    obtain ⟨rfl, rfl, rfl⟩ : z = '0' ∧ x = 'x' ∧ ds = _ := by simpa using heq
    rfl
  · next heq =>
    obtain ⟨rfl, rfl, rfl⟩ : z = '0' ∧ x = 'X' ∧ ds = _ := by simpa using heq
    rfl
  · next hx hX =>
    rw [if_neg]
    simp only [Bool.and_eq_true, Bool.or_eq_true, beq_iff_eq]
    rintro ⟨rfl, rfl | rfl⟩
    · exact hx ds rfl
    · exact hX ds rfl

theorem sourceNumeral?_singleton (c : Char) : sourceNumeral? [c] = decimal? [c] := by
  unfold sourceNumeral?
  split
  · next heq => simp at heq
  · next heq => simp at heq
  · rfl

/-- Numerals start with a digit, or with a point and a digit. -/
theorem sourceNumeral?_head (hunsigned : ∀ c ∈ cs.head?, c ≠ '+' ∧ c ≠ '-')
    (h : sourceNumeral? cs = some n) :
    (∃ c rest, cs = c :: rest ∧ isDigit c = true) ∨
      ∃ c rest, cs = '.' :: c :: rest ∧ isDigit c = true := by
  unfold sourceNumeral? at h
  split at h
  · exact .inl ⟨_, _, rfl, rfl⟩
  · exact .inl ⟨_, _, rfl, rfl⟩
  · obtain ⟨-, -, -, -, -, hhead⟩ := decimal?_form hunsigned h
    exact hhead

end Number

namespace Lexer

variable {g : Glyph} {gs rest : List Glyph} {n : Float} {size : Nat} {cs : List Char}

/-! ## Glyphs and characters -/

theorem isDigit_eq (g : Glyph) : isDigit g = Number.isDigit (Char.ofNat g.byte.toNat) := by
  have hle (a b : Char) : a ≤ b ↔ a.toNat ≤ b.toNat := Iff.rfl
  simp only [isDigit, Number.isDigit, UInt8.le_iff_toNat_le, hle, toNat_shown]
  rfl

theorem isHexDigit_eq (g : Glyph) :
    isHexDigit g = Number.isDigitOf 16 (Char.ofNat g.byte.toNat) := by
  rw [Bool.eq_iff_iff, Number.isDigitOf_iff, toNat_shown]
  simp only [isHexDigit, isDigit, UInt8.le_iff_toNat_le, UInt8.reduceToNat, Bool.or_eq_true,
    Bool.and_eq_true, decide_eq_true_eq]
  omega

theorem isChar_eq {c : Char} (hc : c.toNat < 0x80) (g : Glyph) :
    isChar c g = (Char.ofNat g.byte.toNat == c) := by
  rw [isChar, Bool.eq_iff_iff, beq_iff_eq, beq_iff_eq, ← UInt8.toNat_inj,
    Number.toNat_toUInt8 (hc.trans (by decide)), ← Char.toNat_inj, toNat_shown]

/-- The characters other than a word's that a numeral may hold. -/
theorem isNumeralChar_cases (h : Number.isNumeralChar (Char.ofNat g.byte.toNat) = true) :
    isLetter g = true ∨ isDigit g = true ∨ isChar '.' g = true ∨ isChar '+' g = true ∨
      isChar '-' g = true := by
  simp only [Number.isNumeralChar, Bool.or_eq_true, ← isChar_eq (c := '.') (by decide),
    ← isChar_eq (c := '+') (by decide), ← isChar_eq (c := '-') (by decide)] at h
  rcases h with ((h | h) | h) | h
  · rw [Number.isDigitOf_iff, toNat_shown] at h
    simp only [isLetter, isDigit, UInt8.le_iff_toNat_le, UInt8.reduceToNat, Bool.or_eq_true,
      Bool.and_eq_true, decide_eq_true_eq]
    omega
  · exact .inr (.inr (.inl h))
  · exact .inr (.inr (.inr (.inl h)))
  · exact .inr (.inr (.inr (.inr h)))

theorem startsWord_of_isDigit (h : isDigit g = true) : startsWord g = false := by
  have hlow : '_'.toUInt8.toNat = 0x5F := rfl
  simp only [isDigit, Bool.and_eq_true, decide_eq_true_eq, UInt8.le_iff_toNat_le,
    UInt8.reduceToNat] at h
  simp only [startsWord, isLetter, Bool.or_eq_false_iff, Bool.and_eq_false_iff,
    decide_eq_false_iff_not, beq_eq_false_iff_ne, ne_eq, ← UInt8.toNat_inj,
    UInt8.le_iff_toNat_le, UInt8.reduceToNat]
  omega

theorem isBlank_of_isNumeralChar (h : Number.isNumeralChar (Char.ofNat g.byte.toNat) = true) :
    isBlank g = false := by
  have hbounds := Number.toNat_bounds_of_isNumeralChar h
  rw [toNat_shown] at hbounds
  simp only [isBlank, Text.isBlankByte, Bool.or_eq_false_iff, Bool.and_eq_false_iff,
    decide_eq_false_iff_not, beq_eq_false_iff_ne, ne_eq, ← UInt8.toNat_inj,
    UInt8.le_iff_toNat_le, UInt8.reduceToNat]
  omega

theorem chars_cons (g : Glyph) (gs : List Glyph) :
    chars (g :: gs) = Char.ofNat g.byte.toNat :: chars gs := rfl

theorem chars_append (gs hs : List Glyph) : chars (gs ++ hs) = chars gs ++ chars hs :=
  List.map_append

/-! ## Numbers that are the whole text -/

/-- A scan reads all glyphs as the number `n`. -/
def Scan.IsNumber (s : Scan) (gs : List Glyph) (n : Float) : Prop :=
  s.outcome = .ok (.number n) ∧ gs.length ≤ s.size

/-- A form that is not the whole text leaves something behind or is malformed. -/
theorem numberOf_isNumber {value? : List Char → Option Float} :
    (numberOf gs size value?).IsNumber gs n ↔
      gs.length ≤ size ∧ value? (chars gs) = some n := by
  unfold numberOf Scan.IsNumber
  by_cases hsize : gs.length ≤ size
  · have htaken : gs.take size = gs := List.take_of_length_le hsize
    simp only [List.drop_of_length_le hsize, List.head?_nil, Option.map_none, Option.getD_none,
      Bool.false_eq_true, if_false, Nat.add_zero, htaken, Nat.lt_irrefl, hsize, true_and]
    cases value? (chars gs) <;> simp [hsize]
  · dsimp only
    generalize (if ((gs.drop size).head?.map startsWord).getD false = true then _ else 0) = excess
    refine iff_of_false ?_ fun h ↦ hsize h.1
    split
    · exact fun h ↦ nomatch h.1
    · split
      · exact fun h ↦ hsize h.2
      · exact fun h ↦ nomatch h.1

theorem hexadecimal_isNumber {z x : Glyph} {ds : List Glyph} :
    (numberOf (z :: x :: ds) (2 + (ds.takeWhile isHexDigit).length) fun cs ↦
      Number.hexadecimal64? (cs.drop 2)).IsNumber (z :: x :: ds) n ↔
        Number.hexadecimal64? (chars ds) = some n := by
  rw [numberOf_isNumber]
  refine and_iff_right_of_imp fun h ↦ ?_
  change Number.hexadecimal64? (chars ds) = some n at h
  have hall : ∀ g ∈ ds, isHexDigit g = true := by
    intro g hg
    unfold Number.hexadecimal64? at h
    split at h
    · exact nomatch h
    · next hds =>
      simp only [Bool.or_eq_true, Bool.not_eq_true', not_or, Bool.not_eq_false, List.all_eq_true,
        chars, List.mem_map] at hds
      rw [isHexDigit_eq]
      exact hds.2 _ ⟨g, hg, rfl⟩
  rw [List.takeWhile_eq_self_iff.2 hall, List.length_cons, List.length_cons]
  omega

theorem digits_taken (h : (chars gs).all Number.isDigit = true) :
    (gs.takeWhile isDigit).length = gs.length := by
  rw [List.takeWhile_eq_self_iff.2 fun g hg ↦ ?_]
  rw [isDigit_eq]
  exact List.all_eq_true.1 h _ (List.mem_map_of_mem hg)

/-- An exponent is read as a whole. -/
theorem length_le_exponentSize {e : Int} (h : Number.exponentPart? (chars gs) = some e) :
    gs.length ≤ exponentSize gs := by
  cases gs with
  | nil => exact Nat.le_refl 0
  | cons g gs =>
      rw [chars_cons] at h
      obtain ⟨hletter, hdigits⟩ := Number.exponentPart?_form h
      have hg : (isChar 'e' g || isChar 'E' g) = true := by
        rw [isChar_eq (by decide), isChar_eq (by decide)]
        simpa using hletter
      rw [exponentSize.eq_def]
      dsimp only
      rw [if_pos hg]
      cases gs with
      | nil => exact Nat.le_refl 1
      | cons s ds =>
          have hsign : (isChar '+' s || isChar '-' s) =
              (Char.ofNat s.byte.toNat == '+' || Char.ofNat s.byte.toNat == '-') := by
            rw [isChar_eq (by decide), isChar_eq (by decide)]
          dsimp only
          rw [hsign]
          split
          · next hs =>
            simp only [Bool.or_eq_true, beq_iff_eq] at hs
            have hsigned : (Number.splitSign (chars (s :: ds))).2 = chars ds := by
              rw [chars_cons]
              rcases hs with h | h <;> rw [h] <;> rfl
            rw [hsigned] at hdigits
            rw [digits_taken hdigits, List.length_cons, List.length_cons]
            omega
          · next hs =>
            have hunsigned : Number.splitSign (chars (s :: ds)) = (false, chars (s :: ds)) :=
              Number.splitSign_of_unsigned fun c hc ↦ by
                cases hc
                simpa using hs
            rw [hunsigned] at hdigits
            rw [digits_taken hdigits, List.length_cons, List.length_cons, Nat.add_comm 1]

theorem decimal_isNumber (hunsigned : ∀ c ∈ (chars gs).head?, c ≠ '+' ∧ c ≠ '-') :
    (numberOf gs ((gs.takeWhile fun g ↦ isDigit g || isChar '.' g).length +
        exponentSize (gs.drop (gs.takeWhile fun g ↦ isDigit g || isChar '.' g).length))
      Number.decimal?).IsNumber gs n ↔ Number.decimal? (chars gs) = some n := by
  rw [numberOf_isNumber]
  refine and_iff_right_of_imp fun h ↦ ?_
  obtain ⟨body, tail, hgs, hbody, ⟨e, he⟩, -⟩ := Number.decimal?_form hunsigned h
  obtain ⟨bs, ts, rfl, rfl, rfl⟩ := List.map_eq_append_iff.1 hgs
  have hpoint (g : Glyph) : (isDigit g || isChar '.' g) =
      Number.isDigitOrPoint (Char.ofNat g.byte.toNat) := by
    rw [isDigit_eq, isChar_eq (by decide), Number.isDigitOrPoint]
  have htake : (bs ++ ts).takeWhile (fun g ↦ isDigit g || isChar '.' g) = bs := by
    rw [List.takeWhile_append_of_pos fun g hg ↦ (hpoint g).trans (hbody _ (List.mem_map_of_mem hg))]
    cases ts with
    | nil => exact List.append_nil bs
    | cons t ts =>
        rw [← chars, chars_cons] at he
        obtain ⟨hletter, -⟩ := Number.exponentPart?_form he
        have hstop : Number.isDigitOrPoint (Char.ofNat t.byte.toNat) = false := by
          rcases hletter with h | h <;> rw [h] <;> rfl
        rw [List.takeWhile_cons_of_neg (by rw [hpoint, hstop]; exact Bool.false_ne_true),
          List.append_nil]
  rw [htake, List.drop_left, List.length_append]
  exact Nat.add_le_add_left (length_le_exponentSize he) _

theorem number_isNumber (hunsigned : ∀ c ∈ (chars gs).head?, c ≠ '+' ∧ c ≠ '-') :
    (number gs).IsNumber gs n ↔ Number.sourceNumeral? (chars gs) = some n := by
  unfold number
  dsimp only
  split
  · next z x ds =>
    rw [chars_cons, chars_cons, Number.sourceNumeral?_cons_cons, ← isChar_eq (by decide),
      ← isChar_eq (by decide), ← isChar_eq (by decide), ← chars_cons, ← chars_cons]
    split
    · exact hexadecimal_isNumber
    · exact decimal_isNumber hunsigned
  · next hshort =>
    rw [decimal_isNumber hunsigned]
    have hdecimal : Number.sourceNumeral? (chars gs) = Number.decimal? (chars gs) := by
      match gs, hshort with
      | [], _ => rfl
      | [g], _ => exact Number.sourceNumeral?_singleton _
      | z :: x :: ds, hshort => exact (hshort z x ds rfl).elim
    rw [hdecimal]

theorem word_not_isNumber : ¬(word gs).IsNumber gs n := by
  unfold word Scan.IsNumber
  dsimp only
  split <;> exact fun h ↦ nomatch h.1

/-- What does not start as a numeral does is none. -/
theorem sourceNumeral?_ne (hunsigned : ∀ c ∈ (chars gs).head?, c ≠ '+' ∧ c ≠ '-')
    (hdigit : ∀ g ∈ gs.head?, isDigit g = false)
    (hpoint : ∀ p d rest, gs = p :: d :: rest → isChar '.' p = true → isDigit d = false) :
    Number.sourceNumeral? (chars gs) ≠ some n := by
  intro h
  rcases Number.sourceNumeral?_head hunsigned h with ⟨c, rest, hgs, hc⟩ | ⟨c, rest, hgs, hc⟩
  · obtain ⟨g, _, rfl, rfl, -⟩ := List.map_eq_cons_iff.1 hgs
    rw [← isDigit_eq, hdigit g rfl] at hc
    exact nomatch hc
  · obtain ⟨p, _, rfl, hp, hrest⟩ := List.map_eq_cons_iff.1 hgs
    obtain ⟨d, _, rfl, rfl, -⟩ := List.map_eq_cons_iff.1 hrest
    rw [← isDigit_eq, hpoint p d _ rfl (by rw [isChar_eq (by decide)]; exact beq_iff_eq.2 hp)] at hc
    exact nomatch hc

/-- What is read of a text in the alphabet of numerals is a number exactly when it is a numeral. -/
theorem scan_isNumber (hg : Number.isNumeralChar (Char.ofNat g.byte.toNat) = true)
    (hunsigned : ∀ c ∈ (chars (g :: gs)).head?, c ≠ '+' ∧ c ≠ '-') :
    (scan g gs).IsNumber (g :: gs) n ↔ Number.sourceNumeral? (chars (g :: gs)) = some n := by
  rcases isNumeralChar_cases hg with hletter | hdigit | hpoint | hsign | hsign
  · have hstart : startsWord g = true := by rw [startsWord, hletter, Bool.true_or]
    have hscan : scan g gs = word (g :: gs) := by rw [scan, if_pos hstart]
    rw [hscan]
    refine iff_of_false word_not_isNumber (sourceNumeral?_ne hunsigned ?_ ?_)
    · rintro _ ⟨⟩
      by_contra hdigit
      rw [startsWord_of_isDigit (by simpa using hdigit)] at hstart
      cases hstart
    · rintro _ d rest ⟨⟩ hp
      obtain ⟨_, _, _⟩ := g
      obtain rfl := eq_of_beq hp
      cases hletter
  · have hscan : scan g gs = number (g :: gs) := by
      rw [scan, startsWord_of_isDigit hdigit, hdigit]
      rfl
    rw [hscan, number_isNumber hunsigned]
  · have hnotDigit : ∀ p ∈ (g :: gs).head?, isDigit p = false := by
      rintro _ ⟨⟩
      obtain ⟨_, _, _⟩ := g
      obtain rfl := eq_of_beq hpoint
      rfl
    have hscan : scan g gs = dots (g :: gs) := by
      obtain ⟨_, _, _⟩ := g
      obtain rfl := eq_of_beq hpoint
      rfl
    have terminal_not {t : Terminal} {k : Nat} : ¬(terminal t k).IsNumber (g :: gs) n :=
      by rintro ⟨⟨⟩, -⟩
    rw [hscan, dots.eq_def]
    cases gs with
    | nil => exact iff_of_false terminal_not (sourceNumeral?_ne hunsigned hnotDigit (by simp))
    | cons d rest =>
        dsimp only
        split
        · next hd =>
          have hno : isDigit d = false := by
            obtain ⟨_, _, _⟩ := d
            obtain rfl := eq_of_beq hd
            rfl
          refine iff_of_false ?_ (sourceNumeral?_ne hunsigned hnotDigit ?_)
          · split <;> exact terminal_not
          · rintro _ _ _ ⟨⟩ _
            exact hno
        · split
          · exact number_isNumber hunsigned
          · next hno =>
            refine iff_of_false terminal_not (sourceNumeral?_ne hunsigned hnotDigit ?_)
            rintro _ _ _ ⟨⟩ _
            exact Bool.eq_false_iff.2 hno
  · exact absurd (by simpa [isChar_eq] using hsign) (hunsigned _ rfl).1
  · exact absurd (by simpa [isChar_eq] using hsign) (hunsigned _ rfl).2

/-! ## Whole sources -/

theorem skip_numeralText (h : Number.NumeralText cs) {front : List Char}
    (hgs : cs = front ++ chars (g :: gs)) : skip (g :: gs) = .ok (g :: gs) := by
  refine skip_of_no_comment (isBlank_of_isNumeralChar (h.alphabet _ ?_)) ?_
  · rw [hgs, chars_cons]
    exact List.mem_append_right _ (List.mem_cons_self ..)
  · rintro e rest rfl ⟨hg, he⟩
    rw [isChar_eq (by decide), beq_iff_eq] at hg he
    rw [chars_cons, chars_cons, hg, he] at hgs
    exact h.no_comment hgs

theorem next_numeralText (h : Number.NumeralText cs) {front : List Char}
    (hgs : cs = front ++ chars (g :: gs)) (stop : Position) (text : String) :
    (Lexer.mk (g :: gs) stop text).next.1.outcome = (scan g gs).outcome ∧
      (Lexer.mk (g :: gs) stop text).next.2.rest = (g :: gs).drop (scan g gs).size := by
  simp only [next, skip_numeralText h hgs, and_self]

/-- A text in the alphabet of numerals is read as one number exactly when it is a numeral. -/
theorem reads_numeral_iff (h : Number.NumeralText (chars gs)) (stop : Position) (text : String) :
    (Lexer.mk gs stop text).lexemes.map Lexeme.outcome = [.ok (.number n), .ok .endOfInput] ↔
      Number.sourceNumeral? (chars gs) = some n := by
  cases gs with
  | nil =>
      have hread := Reads.nil stop text
      exact iff_of_false (by rw [hread]; simp)
        (by simp [chars, Number.sourceNumeral?, Number.decimal?, Number.splitSign])
  | cons g gs =>
      have halphabet := h.alphabet _ (List.mem_cons_self ..)
      rw [← scan_isNumber halphabet h.head_unsigned]
      obtain ⟨hnext, hrest⟩ := next_numeralText h (List.nil_append _).symm stop text
      constructor
      · intro hread
        rcases goes_or_ends (Lexer.mk (g :: gs) stop text).next.1 with hgoes | hends
        · rw [lexemes_of_goes hgoes, List.map_cons, hnext] at hread
          obtain ⟨hscan, hlast⟩ := List.cons.inj hread
          refine ⟨hscan, ?_⟩
          -- What is left over would be read as something.
          by_contra hsize
          obtain ⟨r, rest, hleft⟩ : ∃ r rest, (g :: gs).drop (scan g gs).size = r :: rest :=
            List.exists_cons_of_ne_nil fun hnil ↦ hsize (List.drop_eq_nil_iff.1 hnil)
          have hchars : chars (g :: gs) =
              chars ((g :: gs).take (scan g gs).size) ++ chars (r :: rest) := by
            rw [← hleft, ← chars_append, List.take_append_drop]
          obtain ⟨y, hy⟩ : ∃ y, (Lexer.mk (g :: gs) stop text).next.2 = y := ⟨_, rfl⟩
          rw [hy] at hrest hlast
          obtain ⟨_, stop', text'⟩ := y
          obtain rfl := hrest.trans hleft
          obtain ⟨ls, hls⟩ := lexemes_head ⟨r :: rest, stop', text'⟩
          rw [hls, List.map_cons, (next_numeralText h hchars stop' text').1] at hlast
          exact scan_ne_endOfInput r rest (List.cons.inj hlast).1
        · rw [lexemes_of_ends hends] at hread
          cases (List.cons.inj hread).2
      · rintro ⟨hscan, hsize⟩
        have hdone : Reads ((g :: gs).drop (scan g gs).size) [] := by
          rw [List.drop_of_length_le hsize]
          exact .nil
        exact Reads.cons (n := (scan g gs).size) (skip_numeralText h (List.nil_append _).symm)
          (by rw [← hscan]) (by simp) hdone stop text

end Lexer

namespace Text

/-! ## White space around texts -/

variable {c : Char} {cs text : List Char}

/-- White space may stand before and after the characters. -/
def Padded (cs text : List Char) : Prop :=
  ∃ before after, text = before ++ cs ++ after ∧
    (∀ c ∈ before, isWhite c = true) ∧ ∀ c ∈ after, isWhite c = true

theorem Padded.refl (cs : List Char) : Padded cs cs :=
  ⟨[], [], (List.append_nil cs).symm, nofun, nofun⟩

theorem padded_trimChars (text : List Char) : Padded (trimChars text) text := by
  let rest := text.dropWhile isWhite
  refine ⟨text.takeWhile isWhite, (rest.reverse.takeWhile isWhite).reverse, ?_,
    fun c ↦ List.mem_takeWhile_imp, fun c hc ↦ List.mem_takeWhile_imp (List.mem_reverse.1 hc)⟩
  have hrest : (rest.reverse.dropWhile isWhite).reverse ++ (rest.reverse.takeWhile isWhite).reverse =
      rest := by
    rw [← List.reverse_append, List.takeWhile_append_dropWhile, List.reverse_reverse]
  rw [List.append_assoc, trimChars, hrest, List.takeWhile_append_dropWhile]

/-- Characters other than white space are what is left of them with white space around. -/
theorem Padded.trimChars_eq (h : Padded cs text) (hcs : ∀ c ∈ cs, isWhite c = false) :
    trimChars text = cs := by
  have hkeep {ds : List Char} (hds : ∀ c ∈ ds, isWhite c = false) (hne : ds ≠ [])
      (rest : List Char) : (ds ++ rest).dropWhile isWhite = ds ++ rest := by
    cases ds with
    | nil => exact absurd rfl hne
    | cons c ds =>
        exact List.dropWhile_cons_of_neg (by simp [hds c (List.mem_cons_self ..)])
  obtain ⟨before, after, rfl, hbefore, hafter⟩ := h
  rw [trimChars, List.append_assoc, List.dropWhile_append_of_pos hbefore]
  rcases eq_or_ne cs [] with rfl | hne
  · rw [List.nil_append, List.dropWhile_eq_nil_iff.2 hafter]
    rfl
  · rw [hkeep hcs hne, List.reverse_append,
      List.dropWhile_append_of_pos fun c hc ↦ hafter c (List.mem_reverse.1 hc)]
    have hreverse := hkeep (fun c hc ↦ hcs c (List.mem_reverse.1 hc))
      (mt List.reverse_eq_nil_iff.1 hne) []
    rw [List.append_nil] at hreverse
    rw [hreverse, List.reverse_reverse]

end Text

namespace Number

variable {w : String}

/-- A hexadecimal numeral that strings and source text read differently: it has more than 64 bits,
or reading it digit by digit breaks a tie. -/
def ReadDifferently (cs : List Char) : Prop :=
  ∃ ds, (cs = '0' :: 'x' :: ds ∨ cs = '0' :: 'X' :: ds) ∧ ds ≠ [] ∧ ds.all (isDigitOf 16) = true ∧
    (words64 ≤ natOfDigits 16 ds ∨ BreaksTie (natOfDigits 16 ds))

namespace NumeralText

/-- In the alphabet of numerals a text stands for itself, one byte for each character. -/
theorem bytes_eq (h : NumeralText w.toList) : Text.bytes w = w.toList.map Char.toUInt8 := by
  rw [Text.bytes_eq]
  have halphabet := h.alphabet
  generalize w.toList = cs at halphabet
  induction cs with
  | nil => rfl
  | cons c cs ih =>
      have hascii := (toNat_bounds_of_isNumeralChar (halphabet c (List.mem_cons_self ..))).2
      have hchar : String.utf8EncodeChar c = [c.toUInt8] :=
        String.utf8EncodeChar_eq_singleton (Char.utf8Size_eq_one_iff.2
          (UInt32.le_iff_toNat_le.2 (hascii.trans (by decide))))
      rw [List.flatMap_cons, hchar, ih fun c hc ↦ halphabet c (List.mem_cons_of_mem _ hc)]
      rfl

theorem chars_eq (h : NumeralText w.toList) {gs : List Glyph}
    (hgs : gs.map Glyph.byte = Text.bytes w) : Lexer.chars gs = w.toList := by
  rw [Lexer.chars_eq_shown, hgs, h.bytes_eq, Lexer.shown, List.map_map]
  conv_rhs => rw [← List.map_id w.toList]
  refine List.map_congr_left fun c hc ↦ ?_
  have hascii := (toNat_bounds_of_isNumeralChar (h.alphabet c hc)).2
  simp only [Function.comp_apply, toNat_toUInt8 (hascii.trans_lt (by decide)), Char.ofNat_toNat,
    id_eq]

theorem ofString?_eq (h : NumeralText w.toList) : ofString? w = numeral? w.toList := by
  have hsolid (c : Char) (hc : c ∈ w.toList) : Text.isWhite c = false :=
    isWhite_of_isNumeralChar (h.alphabet c hc)
  rw [ofString?, (Text.Padded.refl w.toList).trimChars_eq hsolid]

end NumeralText

theorem hexadecimal_eq_iff_not_readDifferently {x : Char} (hx : x = 'x' ∨ x = 'X') :
    hexadecimal64? ds = hexadecimal? ds ↔ ¬ReadDifferently ('0' :: x :: ds) := by
  rw [hexadecimal_eq_iff]
  constructor
  · rintro h ⟨_, hcs, hne, hall, hbad⟩
    obtain rfl : ds = _ := by
      rcases hcs with hcs | hcs <;> exact (List.cons.inj (List.cons.inj hcs).2).2
    obtain ⟨hrange, htie⟩ := h hne hall
    rcases hbad with hbad | hbad
    · exact absurd hrange (Nat.not_lt.2 hbad)
    · exact htie hbad
  · intro h hne hall
    have hcs : '0' :: x :: ds = '0' :: 'x' :: ds ∨ '0' :: x :: ds = '0' :: 'X' :: ds := by
      rcases hx with rfl | rfl
      · exact .inl rfl
      · exact .inr rfl
    exact ⟨Nat.not_le.1 fun hrange ↦ h ⟨ds, hcs, hne, hall, .inl hrange⟩,
      fun htie ↦ h ⟨ds, hcs, hne, hall, .inr htie⟩⟩

theorem numeral?_hexadecimal {x : Char} {ds : List Char} (hx : x = 'x' ∨ x = 'X') :
    numeral? ('0' :: x :: ds) = hexadecimal? ds := by
  have hkeep : (hexadecimal? ds).map (fun n ↦ if false = true then -n else n) = hexadecimal? ds :=
    Option.map_id'
  rcases hx with rfl | rfl <;> exact hkeep

theorem numeral?_decimal (hcs : NumeralText cs) (hx : ∀ ds, cs = '0' :: 'x' :: ds → False)
    (hX : ∀ ds, cs = '0' :: 'X' :: ds → False) : numeral? cs = decimal? cs := by
  unfold numeral?
  rw [splitSign_of_unsigned hcs.head_unsigned]
  dsimp only
  split
  · exact (hx _ rfl).elim
  · exact (hX _ rfl).elim
  · rfl

theorem sourceNumeral?_eq_iff (hcs : NumeralText cs) :
    sourceNumeral? cs = numeral? cs ↔ ¬ReadDifferently cs := by
  unfold sourceNumeral?
  split
  · next ds =>
    rw [numeral?_hexadecimal (.inl rfl)]
    exact hexadecimal_eq_iff_not_readDifferently (.inl rfl)
  · next ds =>
    rw [numeral?_hexadecimal (.inr rfl)]
    exact hexadecimal_eq_iff_not_readDifferently (.inr rfl)
  · next hx hX =>
    refine iff_of_true (numeral?_decimal hcs hx hX).symm ?_
    rintro ⟨ds, rfl | rfl, -⟩
    · exact hx ds rfl
    · exact hX ds rfl

/-- A text in the alphabet of numerals is read as one number exactly when it is a numeral of source
text. -/
theorem NumeralText.lexemes_iff (h : NumeralText w.toList) :
    (Lexer.ofBytes (Text.bytes w)).lexemes.map Lexeme.outcome =
      [.ok (.number n), .ok .endOfInput] ↔ sourceNumeral? w.toList = some n := by
  have hbytes : ∀ b ∈ Text.bytes w, b ≠ Glyph.carriageReturn ∧ b ≠ '#'.toUInt8 := by
    rw [h.bytes_eq]
    intro b hb
    obtain ⟨c, hc, rfl⟩ := List.mem_map.1 hb
    obtain ⟨hlow, hhigh⟩ := toNat_bounds_of_isNumeralChar (h.alphabet c hc)
    have hne (b : UInt8) (hb : b.toNat < 0x2B) : c.toUInt8 ≠ b := by
      rintro rfl
      rw [toNat_toUInt8 (hhigh.trans_lt (by decide))] at hb
      exact Nat.not_le.2 hb hlow
    exact ⟨hne _ (by decide), hne _ (by decide)⟩
  have hreturn (b : UInt8) (hb : b ∈ Text.bytes w) : b ≠ Glyph.carriageReturn := (hbytes b hb).1
  have hhash : (Text.bytes w).head? ≠ some '#'.toUInt8 := fun heq ↦
    (hbytes _ (List.mem_of_mem_head? heq)).2 rfl
  have hchars := h.chars_eq (Source.layOut_bytes hreturn)
  rw [Lexer.ofBytes_of_not_hash (Lexer.isChar_hash_head hreturn hhash),
    Lexer.reads_numeral_iff (hchars.symm ▸ h), hchars]

/-- Source text and strings read the same numerals, and as the same doubles, except for hexadecimal
numerals of more than 64 bits and those in which reading digit by digit breaks a tie.  There source
text has no number, or another one. -/
theorem read_alike_iff (h : NumeralText w.toList) :
    (∀ n, (Lexer.ofBytes (Text.bytes w)).lexemes.map Lexeme.outcome =
        [.ok (.number n), .ok .endOfInput] ↔ ofString? w = some n) ↔
      ¬ReadDifferently w.toList := by
  rw [← sourceNumeral?_eq_iff h, h.ofString?_eq]
  simp only [h.lexemes_iff]
  exact ⟨fun heq ↦ Option.ext heq, fun heq n ↦ by rw [heq]⟩

theorem read_alike_iff_signed :
    NumeralText "1e-3".toList ∧
      ((∀ n, (Lexer.ofBytes (Text.bytes "1e-3")).lexemes.map Lexeme.outcome =
          [.ok (.number n), .ok .endOfInput] ↔ ofString? "1e-3" = some n) ↔
        ¬ReadDifferently "1e-3".toList) :=
  have h : NumeralText "1e-3".toList := by decide
  ⟨h, read_alike_iff h⟩

/-- A number of 64 bits: its first fourteen digits are half way between two doubles, and the last
digit makes it the upper one. -/
theorem tie_read_differently :
    NumeralText "0x8000000000000401".toList ∧
      ¬∀ n, (Lexer.ofBytes (Text.bytes "0x8000000000000401")).lexemes.map Lexeme.outcome =
        [.ok (.number n), .ok .endOfInput] ↔ ofString? "0x8000000000000401" = some n := by
  have htext : NumeralText "0x8000000000000401".toList := by decide
  refine ⟨htext, fun h ↦ ?_⟩
  have hne : sourceNumeral? "0x8000000000000401".toList ≠ ofString? "0x8000000000000401" := by
    decide +kernel
  exact hne (Option.ext fun n ↦ htext.lexemes_iff.symm.trans (h n))

end Number

end LuaEmbed
