import LuaEmbed.Proofs.Lexing.Boundaries
import LuaEmbed.Proofs.Lexing.Layout
import LuaEmbed.Proofs.Lexing.LineBreaks
import LuaEmbed.Proofs.Text.Decoding

/-!
# What tokens repeat of their source

A scanner hands on pieces of the glyphs that it takes: a word, the digits of a number, a number that
is none.  Each piece is all that was taken, but for the two glyphs in front of hexadecimal digits, so
it lies where the glyphs lie.  And what was taken for a terminal is its spelling.
-/

namespace LuaEmbed.Lexer

variable {g : Glyph} {gs : List Glyph} {n size : Nat} {x : Float} {t : Terminal}

/-! ## Bytes of ASCII -/

theorem toUInt8_shown (b : UInt8) : (Char.ofNat b.toNat).toUInt8 = b := by
  have hvalue : (Char.ofNat b.toNat).val.toNat = b.toNat := toNat_shown ⟨b, [], .first⟩
  rw [← UInt8.toNat_inj, Char.toUInt8, UInt32.toNat_toUInt8, hvalue]
  exact Nat.mod_eq_of_lt b.toNat_lt

/-- Text of ASCII has the bytes that it was shown for. -/
theorem bytes_shown {bs : List UInt8} (h : ∀ b ∈ bs, b.toNat < 0x80) :
    Text.bytes (String.ofList (shown bs)) = bs := by
  rw [Text.bytes_ofList]
  induction bs with
  | nil => rfl
  | cons b bs ih =>
      have hvalue : (Char.ofNat b.toNat).val.toNat = b.toNat := toNat_shown ⟨b, [], .first⟩
      have hone : String.utf8EncodeChar (Char.ofNat b.toNat) = [b] := by
        rw [String.utf8EncodeChar, hvalue, if_pos (Nat.le_of_lt_succ (h b (List.mem_cons_self ..))),
          UInt8.ofNat_toNat]
      rw [shown, List.map_cons, List.flatMap_cons, hone]
      exact congrArg (b :: ·) (ih fun b hb ↦ h b (List.mem_cons_of_mem _ hb))

theorem toNat_byte_of_isWord (h : isWord g = true) : g.byte.toNat < 0x80 := by
  simp only [isWord, startsWord, isLetter, isDigit, Bool.or_eq_true, Bool.and_eq_true,
    decide_eq_true_eq, beq_iff_eq, UInt8.le_iff_toNat_le, ← UInt8.toNat_inj,
    UInt8.reduceToNat] at h
  have hunder : '_'.toUInt8.toNat = 0x5F := by decide
  omega

/-! ## One token -/

/-- What is repeated of the bytes that a token or a fault was read from. -/
def Repeats (slice : List UInt8) : Except LexicalFault Token → Prop
  | .ok (.terminal t) => Text.bytes t.spelling = slice
  | .ok (.name w) => Text.bytes w = slice
  | .ok (.number x) =>
      Number.decimal? (shown slice) = some x ∨
        ∃ letter digits, slice = '0'.toUInt8 :: letter :: digits ∧
          (letter = 'x'.toUInt8 ∨ letter = 'X'.toUInt8) ∧
            Number.hexadecimal64? (shown digits) = some x
  | .error (.malformedNumber text) => text = Text.decode slice
  | _ => True

/-- The outcome of a scan repeats what the glyphs that it takes are written with. -/
def Scan.RepeatsTaken (s : Scan) (gs : List Glyph) : Prop :=
  Repeats (Source.raw (gs.take s.size)) s.outcome

theorem not_break_spelling (t : Terminal) :
    ∀ b ∈ Text.bytes t.spelling, Glyph.isBreakByte b = false := by
  cases t <;> decide +kernel

theorem repeatsTaken_terminal (hgs : ∀ h ∈ gs, h.Written)
    (h : (gs.take n).map Glyph.byte = Text.bytes t.spelling) :
    (terminal t n).RepeatsTaken gs :=
  (Source.raw_eq (fun g hg ↦ hgs g (List.mem_of_mem_take hg)) (not_break_spelling t) h).symm

theorem repeatsTaken_word (hgs : ∀ h ∈ gs, h.Written) : (word gs).RepeatsTaken gs := by
  have htaken : Source.raw (gs.take (word gs).size) = (gs.takeWhile isWord).map Glyph.byte := by
    rw [size_word, ← takeWhile_eq_take]
    refine Source.raw_of_not_break (fun g hg ↦ hgs g ((List.takeWhile_prefix _).subset hg))
      fun g hg ↦ ?_
    exact Solid.isWord.isBreak (List.all_eq_true.1 List.all_takeWhile g hg)
  have hbytes : Text.bytes (String.ofList (chars (gs.takeWhile isWord))) =
      (gs.takeWhile isWord).map Glyph.byte := by
    rw [chars_eq_shown, bytes_shown]
    intro b hb
    obtain ⟨g, hg, rfl⟩ := List.mem_map.1 hb
    exact toNat_byte_of_isWord (List.all_eq_true.1 List.all_takeWhile g hg)
  rw [Scan.RepeatsTaken, htaken, word]
  split
  · next t hkeyword =>
    have hspelling := List.find?_some hkeyword
    rw [← eq_of_beq hspelling] at hbytes
    exact hbytes
  · exact hbytes

/-- A number is the value of what is taken, or a complaint about it. -/
theorem numberOf_cases (gs : List Glyph) (size : Nat) (value? : List Char → Option Float) :
    (∃ x, numberOf gs size value? = ⟨.ok (.number x), size⟩ ∧
        value? (chars (gs.take size)) = some x) ∨
      ∃ n, numberOf gs size value? =
        ⟨.error (.malformedNumber (Source.text (gs.take n))), n⟩ := by
  unfold numberOf
  dsimp only
  generalize (if ((gs.drop size).head?.map startsWord).getD false = true then _ else 0) = excess
  split
  · exact .inr ⟨_, rfl⟩
  · next hexcess =>
    obtain rfl := Nat.eq_zero_of_not_pos hexcess
    rw [Nat.add_zero]
    split
    · next x hx => exact .inl ⟨x, rfl, hx⟩
    · exact .inr ⟨_, rfl⟩

theorem repeatsTaken_number (hgs : ∀ h ∈ gs, h.Written) : (number gs).RepeatsTaken gs := by
  have hraw {size : Nat} (h : NoBreak size gs) :
      Source.raw (gs.take size) = (gs.take size).map Glyph.byte :=
    Source.raw_of_not_break (fun g hg ↦ hgs g (List.mem_of_mem_take hg)) h
  rw [Scan.RepeatsTaken, number_split]
  split
  · next hhex =>
    obtain ⟨hzero, hletter⟩ := Bool.and_eq_true_iff.1 hhex
    match gs with
    | [] => cases hzero
    | [_] => cases hletter
    | z :: l :: ds =>
      rcases numberOf_cases (z :: l :: ds) (2 + (ds.takeWhile isHexDigit).length)
        (fun cs ↦ Number.hexadecimal64? (cs.drop 2)) with ⟨x, hok, hx⟩ | ⟨n, herror⟩
      · have hslice := hraw (.hexadecimal hzero hletter)
        rw [chars_eq_shown] at hx
        rw [List.drop_succ_cons, List.drop_succ_cons, List.drop_zero, hok]
        dsimp only
        rw [hslice]
        rw [Nat.add_comm, List.take_succ_cons, List.take_succ_cons] at hx ⊢
        refine .inr ⟨l.byte, (ds.take _).map Glyph.byte, ?_, ?_, hx⟩
        · rw [List.map_cons, List.map_cons, eq_of_beq hzero]
        · exact (Bool.or_eq_true_iff.1 hletter).imp eq_of_beq eq_of_beq
      · rw [List.drop_succ_cons, List.drop_succ_cons, List.drop_zero, herror]
        rfl
  · rcases numberOf_cases gs _ Number.decimal? with ⟨x, hok, hx⟩ | ⟨n, herror⟩
    · rw [hok]
      refine .inl ?_
      rw [hraw (.add (.takeWhile .isDigitOrPoint gs) (.exponentSize _)), ← chars_eq_shown]
      exact hx
    · rw [herror]
      rfl

theorem repeats_stringBody (slice : List UInt8) (quote : UInt8) (gs : List Glyph)
    (content : List UInt8) (size : Nat) :
    Repeats slice (stringBody quote gs content size).outcome := by
  fun_induction stringBody quote gs content size <;> first
    | assumption
    | trivial

theorem bytes_spelling_of_simple (h : simpleTerminal? g = some t) :
    Text.bytes t.spelling = [g.byte] := by
  obtain ⟨before, after, hlist, -⟩ := List.lookup_eq_some_iff.1 h
  have hmem : (Char.ofNat g.byte.toNat, t) ∈ before ++ (Char.ofNat g.byte.toNat, t) :: after := by
    simp
  rw [← hlist] at hmem
  rw [← toUInt8_shown g.byte]
  clear hlist h
  change Text.bytes (Char.ofNat g.byte.toNat, t).2.spelling =
    [(Char.ofNat g.byte.toNat, t).1.toUInt8]
  generalize (Char.ofNat g.byte.toNat, t) = entry at hmem ⊢
  revert entry
  decide +kernel

theorem repeatsTaken_oneOrTwo {c first : Char} {long short : Terminal} (hg : isChar first g = true)
    (hgs : ∀ h ∈ g :: gs, h.Written)
    (hlong : Text.bytes long.spelling = [first.toUInt8, c.toUInt8])
    (hshort : Text.bytes short.spelling = [first.toUInt8]) :
    (oneOrTwo c long short gs).RepeatsTaken (g :: gs) := by
  unfold oneOrTwo
  split
  · next hsecond =>
    cases gs with
    | nil => cases hsecond
    | cons d gs =>
        have hd : isChar c d = true := hsecond
        refine repeatsTaken_terminal hgs ?_
        simp [hlong, eq_of_beq hg, eq_of_beq hd]
  · refine repeatsTaken_terminal hgs ?_
    simp [hshort, eq_of_beq hg]

theorem repeatsTaken_dots (hg : isChar '.' g = true) (hgs : ∀ h ∈ g :: gs, h.Written) :
    (dots (g :: gs)).RepeatsTaken (g :: gs) := by
  have hdot (k : Nat) (u : Terminal) (h : (gs.take k).map Glyph.byte = List.replicate k '.'.toUInt8)
      (hu : Text.bytes u.spelling = List.replicate (k + 1) '.'.toUInt8) :
      (terminal u (k + 1)).RepeatsTaken (g :: gs) := by
    refine repeatsTaken_terminal hgs ?_
    rw [hu, List.take_succ_cons, List.map_cons, h, eq_of_beq hg, List.replicate_succ]
  rw [dots_split]
  split
  · next hsecond =>
    match gs with
    | [] => cases hsecond
    | d :: gs =>
      have hd : d.byte = '.'.toUInt8 := eq_of_beq hsecond
      split
      · next hthird =>
        match gs with
        | [] => cases hthird
        | e :: gs =>
          have he : e.byte = '.'.toUInt8 := eq_of_beq hthird
          exact hdot 2 .ellipsis (by simp [hd, he, List.replicate_succ]) (by decide +kernel)
      · exact hdot 1 .concat (by simp [hd]) (by decide +kernel)
  · split
    · exact repeatsTaken_number hgs
    · exact hdot 0 .dot rfl (by decide +kernel)

theorem repeatsTaken_bracket (hg : isChar '[' g = true) (hgs : ∀ h ∈ g :: gs, h.Written) :
    (bracket (g :: gs)).RepeatsTaken (g :: gs) := by
  unfold bracket
  split
  · split <;> trivial
  · refine repeatsTaken_terminal hgs ?_
    rw [List.take_succ_cons, List.take_zero, List.map_singleton, eq_of_beq hg]
    decide +kernel

/-- Every scan repeats what the glyphs that it takes are written with. -/
theorem repeatsTaken_scan (hgs : ∀ h ∈ g :: gs, h.Written) :
    (scan g gs).RepeatsTaken (g :: gs) := by
  unfold scan
  split
  · exact repeatsTaken_word hgs
  split
  · exact repeatsTaken_number hgs
  split
  · next t ht => exact repeatsTaken_terminal hgs (bytes_spelling_of_simple ht).symm
  split
  · exact repeats_stringBody ..
  split
  · next hdot => exact repeatsTaken_dots hdot hgs
  split
  · next h => exact repeatsTaken_oneOrTwo h hgs (by decide +kernel) (by decide +kernel)
  split
  · next h => exact repeatsTaken_oneOrTwo h hgs (by decide +kernel) (by decide +kernel)
  split
  · next h => exact repeatsTaken_oneOrTwo h hgs (by decide +kernel) (by decide +kernel)
  split
  · next h => exact repeatsTaken_bracket h hgs
  split
  · next htilde =>
    obtain ⟨hfirst, hsecond⟩ := Bool.and_eq_true_iff.1 htilde
    match gs with
    | [] => cases hsecond
    | d :: gs =>
      have hd : d.byte = '='.toUInt8 := eq_of_beq hsecond
      refine repeatsTaken_terminal hgs ?_
      simp only [List.take_succ_cons, List.take_zero, List.map_cons, List.map_nil,
        eq_of_beq hfirst, hd]
      decide +kernel
  · trivial

end LuaEmbed.Lexer
