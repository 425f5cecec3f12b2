import LuaEmbed.Proofs.Lexing.Sources
import LuaEmbed.Proofs.Text.Decoding
import LuaEmbed.Text.Literal

/-!
# Reading literals

A literal of a text is read as one string, and the string is that text.  Each character of the text
is written in a form that the scanner of strings takes as a whole, whatever comes before or after
it, and gives back as the bytes of the character.
-/

namespace LuaEmbed

namespace Text

variable {c : Char} {b : UInt8}

/-- The bytes of a character in a literal. -/
def literalBytes (c : Char) : List UInt8 := (literalChar c).flatMap String.utf8EncodeChar

theorem bytes_literal (s : String) :
    bytes (literal s) = 0x22 :: (s.toList.flatMap literalBytes ++ [0x22]) := by
  rw [literal, bytes_ofList, List.flatMap_append, List.flatMap_cons, List.flatMap_assoc]
  rfl

/-- A character of ASCII is found in the bytes of no other character. -/
theorem ne_of_mem_utf8EncodeChar {d : Char} (hd : d.toNat < 0x80) (hne : c ≠ d)
    (h : b ∈ String.utf8EncodeChar c) : b ≠ d.toUInt8 := by
  have hbyte : d.toUInt8.toNat = d.toNat := by
    rw [Char.toUInt8, UInt32.toNat_toUInt8]
    exact Nat.mod_eq_of_lt (Nat.lt_trans hd (by decide))
  rintro rfl
  rcases mem_utf8EncodeChar h with h | h <;> rw [hbyte] at h
  · exact hne (Char.toNat_inj.1 h.symm)
  · exact absurd hd (Nat.not_lt.2 h)

/-- A character of ASCII that is not in a text is not in its bytes. -/
theorem ne_of_mem_bytes {s : String} {d : Char} (hd : d.toNat < 0x80) (hs : d ∉ s.toList)
    (h : b ∈ bytes s) : b ≠ d.toUInt8 := by
  rw [bytes_eq] at h
  obtain ⟨c, hc, hb⟩ := List.mem_flatMap.1 h
  exact ne_of_mem_utf8EncodeChar hd (fun heq ↦ hs (heq ▸ hc)) hb

/-- A character of ASCII that a text does not start with is not its first byte. -/
theorem head?_bytes_ne {s : String} {d : Char} (hd : d.toNat < 0x80)
    (hs : s.toList.head? ≠ some d) : (bytes s).head? ≠ some d.toUInt8 := by
  rw [bytes_eq]
  cases hcs : s.toList with
  | nil => exact fun h ↦ nomatch h
  | cons c cs =>
      rw [hcs] at hs
      intro hhead
      have hmem : d.toUInt8 ∈ String.utf8EncodeChar c := by
        have hne : String.utf8EncodeChar c ≠ [] := String.utf8EncodeChar_ne_nil
        rw [List.flatMap_cons, List.head?_append, List.head?_eq_some_head hne] at hhead
        exact Option.some.inj hhead ▸ List.head_mem hne
      exact ne_of_mem_utf8EncodeChar hd (fun heq ↦ hs (congrArg some heq)) hmem rfl

/-- The only characters with a meaning of their own in a literal come after a backslash. -/
theorem literalBytes_cases (c : Char) :
    ((c = '"' ∨ c = '\\' ∨ c = '\n') ∧ literalBytes c = [0x5C, c.toUInt8]) ∨
      (c = '\r' ∧ literalBytes c = [0x5C, 'r'.toUInt8]) ∨
      (c = '\x00' ∧ literalBytes c = [0x5C, 0x30, 0x30, 0x30]) ∨
      (c ≠ '"' ∧ c ≠ '\\' ∧ c ≠ '\n' ∧ c ≠ '\r') ∧ literalBytes c = String.utf8EncodeChar c := by
  unfold literalBytes literalChar
  split
  · next hc =>
    simp only [Bool.or_eq_true, beq_iff_eq, or_assoc] at hc
    refine .inl ⟨hc, ?_⟩
    rcases hc with rfl | rfl | rfl <;> rfl
  · next hc =>
    simp only [Bool.or_eq_true, beq_iff_eq, not_or, and_assoc] at hc
    split
    · next hreturn => exact .inr (.inl ⟨eq_of_beq hreturn, rfl⟩)
    · next hreturn =>
      split
      · next hzero => exact .inr (.inr (.inl ⟨eq_of_beq hzero, rfl⟩))
      · refine .inr (.inr (.inr ⟨⟨hc.1, hc.2.1, hc.2.2, fun h ↦ hreturn (beq_iff_eq.2 h)⟩, ?_⟩))
        exact List.append_nil _

end Text

namespace Lexer

variable {gs rest : List Glyph} {content : List UInt8} {size : Nat} {c : Char} {s : String}
  {ts : List Token}

/-- The quote that literals are written in. -/
def doubleQuote : UInt8 := '"'.toUInt8

/-- Glyphs with no meaning of their own in a string are read as they are. -/
theorem stringBody_plain
    (h : ∀ g ∈ gs, g.isBreak = false ∧ g.byte ≠ doubleQuote ∧ isChar '\\' g = false) :
    stringBody doubleQuote (gs ++ rest) content size =
      stringBody doubleQuote rest ((gs.map Glyph.byte).reverse ++ content) (size + gs.length) := by
  induction gs generalizing content size with
  | nil => rfl
  | cons g gs ih =>
      obtain ⟨hbreak, hquote, hescape⟩ := h g (List.mem_cons_self ..)
      rw [List.cons_append, stringBody.eq_def]
      simp only [hbreak, hescape, beq_eq_false_iff_ne.2 hquote, Bool.false_eq_true, if_false]
      rw [ih fun g hg ↦ h g (List.mem_cons_of_mem _ hg), List.length_cons, List.map_cons,
        List.reverse_cons, List.append_assoc, List.singleton_append, Nat.add_right_comm,
        Nat.add_assoc]

/-- A backslash and the glyph after it are read as the byte that they stand for. -/
theorem stringBody_escape {g e : Glyph} {b : UInt8} (hg : g.byte = 0x5C)
    (he : simpleEscape? e = some b) :
    stringBody doubleQuote (g :: e :: rest) content size =
      stringBody doubleQuote rest (b :: content) (size + 2) := by
  obtain ⟨byte, raw, position⟩ := g
  obtain rfl : byte = 0x5C := hg
  rw [stringBody.eq_def]
  dsimp only
  rw [he]
  rfl

/-- Three digits after a backslash are read as one byte. -/
theorem stringBody_zero {g e f h : Glyph} (hg : g.byte = 0x5C) (he : e.byte = 0x30)
    (hf : f.byte = 0x30) (hh : h.byte = 0x30) :
    stringBody doubleQuote (g :: e :: f :: h :: rest) content size =
      stringBody doubleQuote rest (0 :: content) (size + 4) := by
  obtain ⟨_, _, _⟩ := g
  obtain ⟨_, _, _⟩ := e
  obtain ⟨_, _, _⟩ := f
  obtain ⟨_, _, _⟩ := h
  subst hg he hf hh
  rw [stringBody.eq_def]
  rfl

/-- A character of a literal is read as its bytes. -/
theorem stringBody_literalBytes (h : gs.map Glyph.byte = Text.literalBytes c) :
    stringBody doubleQuote (gs ++ rest) content size =
      stringBody doubleQuote rest ((String.utf8EncodeChar c).reverse ++ content)
        (size + gs.length) := by
  have simple {e : Glyph} {a b : UInt8} (he : e.byte = a)
      (hsimple : simpleEscape? ⟨a, [], .first⟩ = some b) : simpleEscape? e = some b := by
    obtain ⟨_, _, _⟩ := e
    subst he
    exact hsimple
  rcases Text.literalBytes_cases c with ⟨hc, hbytes⟩ | ⟨rfl, hbytes⟩ | ⟨rfl, hbytes⟩ | ⟨hc, hbytes⟩
  all_goals
    rw [hbytes] at h
  · simp only [List.map_eq_cons_iff, List.map_eq_nil_iff] at h
    obtain ⟨g, _, rfl, hg, e, _, rfl, he, rfl⟩ := h
    rcases hc with rfl | rfl | rfl <;> exact stringBody_escape hg (simple he rfl)
  · simp only [List.map_eq_cons_iff, List.map_eq_nil_iff] at h
    obtain ⟨g, _, rfl, hg, e, _, rfl, he, rfl⟩ := h
    exact stringBody_escape hg (simple he rfl)
  · simp only [List.map_eq_cons_iff, List.map_eq_nil_iff] at h
    obtain ⟨g, _, rfl, hg, e, _, rfl, he, f, _, rfl, hf, k, _, rfl, hk, rfl⟩ := h
    exact stringBody_zero hg he hf hk
  · rw [stringBody_plain, h]
    intro g hg
    have hmem : g.byte ∈ String.utf8EncodeChar c := h ▸ List.mem_map_of_mem hg
    obtain ⟨hquote, hescape, hbreak, _⟩ := hc
    have hline := Text.ne_of_mem_utf8EncodeChar (d := '\n') (by decide) hbreak hmem
    exact ⟨beq_eq_false_iff_ne.2 hline, Text.ne_of_mem_utf8EncodeChar (by decide) hquote hmem,
      beq_eq_false_iff_ne.2 (Text.ne_of_mem_utf8EncodeChar (by decide) hescape hmem)⟩

/-- The rest of a literal is read up to its closing quote. -/
theorem stringBody_literal {cs : List Char}
    (h : gs.map Glyph.byte = cs.flatMap Text.literalBytes ++ [doubleQuote]) :
    stringBody doubleQuote (gs ++ rest) content size =
      ⟨.ok (.string (Text.decode (content.reverse ++ cs.flatMap String.utf8EncodeChar))),
        size + gs.length⟩ := by
  induction cs generalizing gs content size with
  | nil =>
      obtain ⟨g, _, rfl, hg, hnil⟩ := List.map_eq_cons_iff.1 h
      obtain rfl := List.map_eq_nil_iff.1 hnil
      obtain ⟨_, _, _⟩ := g
      subst hg
      rw [List.cons_append, stringBody.eq_def, List.flatMap_nil, List.append_nil]
      rfl
  | cons c cs ih =>
      rw [List.flatMap_cons, List.append_assoc] at h
      obtain ⟨first, last, rfl, hfirst, hlast⟩ := List.map_eq_append_iff.1 h
      rw [List.append_assoc, stringBody_literalBytes hfirst, ih hlast, List.reverse_append,
        List.reverse_reverse, List.append_assoc, List.flatMap_cons, List.length_append,
        Nat.add_assoc]

/-- A literal is read as the text that it was made of. -/
theorem Reads.literal (h : gs.map Glyph.byte = Text.bytes (Text.literal s))
    (hrest : Reads rest ts) : Reads (gs ++ rest) (.string s :: ts) := by
  rw [Text.bytes_literal] at h
  obtain ⟨g, body, rfl, hg, hbody⟩ := List.map_eq_cons_iff.1 h
  have hscan : scan g (body ++ rest) = ⟨.ok (.string s), 1 + body.length⟩ := by
    obtain ⟨_, _, _⟩ := g
    subst hg
    change stringBody doubleQuote (body ++ rest) [] 1 = _
    rw [stringBody_literal hbody, List.reverse_nil, List.nil_append, ← Text.bytes_eq,
      Text.decode_bytes]
  have hdrop : (g :: (body ++ rest)).drop (1 + body.length) = rest := by
    rw [Nat.add_comm, List.drop_succ_cons, List.drop_left]
  refine .cons (n := 1 + body.length) (skip_of_solid ?_ ?_) hscan (by simp) (hdrop.symm ▸ hrest)
  · rw [isBlank, hg]
    rfl
  · rw [isChar, hg]
    rfl

/-- There is no carriage return in a literal. -/
theorem ne_carriageReturn_literal (s : String) :
    ∀ b ∈ Text.bytes (Text.literal s), b ≠ Glyph.carriageReturn := by
  rw [Text.bytes_literal]
  intro b hb
  simp only [List.mem_cons, List.mem_append, List.mem_flatMap, List.not_mem_nil, or_false] at hb
  rcases hb with rfl | ⟨c, _, hb⟩ | rfl
  · decide
  · rcases Text.literalBytes_cases c with
      ⟨hc, hbytes⟩ | ⟨rfl, hbytes⟩ | ⟨rfl, hbytes⟩ | ⟨hc, hbytes⟩
    all_goals
      rw [hbytes] at hb
    · rcases hc with rfl | rfl | rfl <;> revert b <;> decide +kernel
    · revert b
      decide +kernel
    · revert b
      decide +kernel
    · exact Text.ne_of_mem_utf8EncodeChar (d := '\r') (by decide) hc.2.2.2 hb
  · decide

end Lexer

end LuaEmbed
