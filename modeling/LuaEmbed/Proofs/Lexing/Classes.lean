import LuaEmbed.Token.Lexer

/-!
# Classes of glyphs

What class a glyph is in goes by the byte that it counts as, not by how it is written or where it
stands.  The classes that tokens are made of have no blanks in them, and so no line breaks.
-/

namespace LuaEmbed.Lexer

variable {p q : Glyph → Bool} {g g' : Glyph}

/-- A byte is shown as the character of its number. -/
theorem toNat_shown (g : Glyph) : (Char.ofNat g.byte.toNat).toNat = g.byte.toNat := by
  have hvalid : g.byte.toNat.isValidChar := .inl (Nat.lt_trans g.byte.toNat_lt (by decide))
  rw [Char.ofNat, dif_pos hvalid]
  rfl

/-- The characters that bytes of ASCII show. -/
def shown (bs : List UInt8) : List Char := bs.map fun b ↦ Char.ofNat b.toNat

theorem chars_eq_shown (gs : List Glyph) : chars gs = shown (gs.map Glyph.byte) := by
  rw [chars, shown, List.map_map]
  rfl

theorem isWord_of_isHexDigit (h : isHexDigit g = true) : isWord g = true := by
  simp only [isHexDigit, isWord, startsWord, isLetter, Bool.or_eq_true, Bool.and_eq_true,
    decide_eq_true_eq] at h ⊢
  rcases h with (h | ⟨hlow, hhigh⟩) | ⟨hlow, hhigh⟩
  · exact .inr h
  · exact .inl (.inl (.inl ⟨hlow, UInt8.le_trans hhigh (by decide)⟩))
  · exact .inl (.inl (.inr ⟨hlow, UInt8.le_trans hhigh (by decide)⟩))

section

variable (h : g'.byte = g.byte)
include h

theorem isChar_congr (c : Char) : isChar c g' = isChar c g := by rw [isChar, h, isChar]

theorem isBreak_congr : g'.isBreak = g.isBreak := by rw [Glyph.isBreak, h, Glyph.isBreak]

theorem isDigit_congr : isDigit g' = isDigit g := by rw [isDigit, h, isDigit]

theorem digit_congr : digit g' = digit g := by rw [digit, h, digit]

theorem simpleTerminal?_congr : simpleTerminal? g' = simpleTerminal? g := by
  rw [simpleTerminal?, h, simpleTerminal?]

theorem simpleEscape?_congr : simpleEscape? g' = simpleEscape? g := by
  simp only [simpleEscape?, isChar_congr h, isBreak_congr h, h]

end

/-- The letter of an exponent. -/
def isExponent (g : Glyph) : Bool := isChar 'e' g || isChar 'E' g

/-- A sign. -/
def isSign (g : Glyph) : Bool := isChar '+' g || isChar '-' g

/-- The letter of a hexadecimal number. -/
def isHexLetter (g : Glyph) : Bool := isChar 'x' g || isChar 'X' g

/-- A digit or a point. -/
def isDigitOrPoint (g : Glyph) : Bool := isDigit g || isChar '.' g

/-- A class of glyphs that goes by what they count as, and that no blank is in. -/
structure Solid (p : Glyph → Bool) : Prop where
  byte : ∀ {g g' : Glyph}, g'.byte = g.byte → p g' = p g
  blank : ∀ {g : Glyph}, isBlank g = true → p g = false

namespace Solid

theorem or (hp : Solid p) (hq : Solid q) : Solid fun g ↦ p g || q g where
  byte h := by rw [hp.byte h, hq.byte h]
  blank h := by rw [hp.blank h, hq.blank h]; rfl

theorem isChar {c : Char} (hc : Text.isBlankByte c.toUInt8 = false) : Solid (isChar c) where
  byte h := isChar_congr h c
  blank {g} h := by
    refine beq_eq_false_iff_ne.2 fun hbyte ↦ ?_
    rw [isBlank, hbyte, hc] at h
    cases h

theorem isWord : Solid isWord where
  byte h := by simp only [Lexer.isWord, startsWord, isLetter, isDigit, h]
  blank {g} h := by
    refine Bool.eq_false_iff.2 fun hword ↦ ?_
    simp only [isBlank, Text.isBlankByte, Bool.or_eq_true, Bool.and_eq_true, decide_eq_true_eq,
      beq_iff_eq, Lexer.isWord, startsWord, isLetter, isDigit, UInt8.le_iff_toNat_le,
      ← UInt8.toNat_inj, UInt8.reduceToNat] at h hword
    have hunder : '_'.toUInt8.toNat = 0x5F := by decide
    omega

/-- A class of glyphs of words has no blank in it. -/
theorem of_isWord (hbyte : ∀ {g g' : Glyph}, g'.byte = g.byte → p g' = p g)
    (hword : ∀ {g}, p g = true → Lexer.isWord g = true) : Solid p where
  byte := hbyte
  blank h := Bool.eq_false_iff.2 fun hp ↦ absurd (hword hp) (Bool.eq_false_iff.1 (isWord.blank h))

theorem startsWord : Solid startsWord :=
  of_isWord (fun h ↦ by simp only [Lexer.startsWord, isLetter, h]) fun h ↦ by
    rw [Lexer.isWord, h, Bool.true_or]

theorem isDigit : Solid isDigit :=
  of_isWord isDigit_congr fun h ↦ by rw [Lexer.isWord, h, Bool.or_true]

theorem isHexDigit : Solid isHexDigit :=
  of_isWord (fun h ↦ by simp only [Lexer.isHexDigit, isDigit_congr h, h]) isWord_of_isHexDigit

theorem isExponent : Solid isExponent := .or (.isChar (by decide)) (.isChar (by decide))

theorem isSign : Solid isSign := .or (.isChar (by decide)) (.isChar (by decide))

theorem isHexLetter : Solid isHexLetter := .or (.isChar (by decide)) (.isChar (by decide))

theorem isDigitOrPoint : Solid isDigitOrPoint := .or isDigit (.isChar (by decide))

/-- No line break is in the class. -/
theorem isBreak (hp : Solid p) (h : p g = true) : g.isBreak = false := by
  refine Bool.eq_false_iff.2 fun hbreak ↦ absurd h (Bool.eq_false_iff.1 (hp.blank ?_))
  rw [isBlank, eq_of_beq hbreak]
  rfl

end Solid

end LuaEmbed.Lexer
