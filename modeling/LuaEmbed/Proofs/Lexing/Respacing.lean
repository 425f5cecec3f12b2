import LuaEmbed.Proofs.Lexing.Boundaries
import LuaEmbed.Proofs.Lexing.Layout
import LuaEmbed.Proofs.Text.Decoding

/-!
# Tokens set apart by spaces

A source without faults consists of the texts of its tokens, with blanks and comments between them.
These do nothing but keep the tokens apart: the texts of the tokens, or of any choice of them, each
behind one space, are read as the same tokens.
-/

namespace LuaEmbed

namespace Glyph

/-- A glyph of ASCII is written with a byte of ASCII first. -/
theorem Written.raw_eq_cons {g : Glyph} (hg : g.Written) (hbyte : g.byte.toNat < 0x80) :
    ∃ b bs, g.raw = b :: bs ∧ b.toNat < 0x80 := by
  have hbreak {b : UInt8} (hb : isBreakByte b = true) : b.toNat < 0x80 := by
    simp only [isBreakByte, Bool.or_eq_true, beq_iff_eq] at hb
    rcases hb with rfl | rfl <;> decide
  cases hg with
  | single b p =>
      refine ⟨b, [], rfl, ?_⟩
      cases hb : isBreakByte b with
      | true => exact hbreak hb
      | false =>
          have hsingle : (Glyph.single b p).byte = b := by
            unfold Glyph.single
            rw [hb]
            rfl
          rwa [hsingle] at hbyte
  | pair ha => exact ⟨_, _, rfl, hbreak ha⟩

end Glyph

namespace Lexer

open Glyph (Laid Apart)

variable {g g' : Glyph} {gs gs' gap taken rest : List Glyph} {n : Nat} {t : Token} {l : Lexeme}
  {ls : List Lexeme}

/-! ## Where tokens start -/

/-- Neither a blank nor a comment starts here. -/
structure AtToken (g : Glyph) (gs : List Glyph) : Prop where
  blank : isBlank g = false
  comment : isChar '-' g = true → headIs (isChar '-') gs = false

theorem blank_of_dropWhile (h : gs.dropWhile isBlank = g :: rest) : isBlank g = false := by
  have hhead := List.head?_dropWhile_not isBlank gs
  rw [h] at hhead
  exact hhead

/-- Skipping stops where neither a blank nor a comment starts. -/
theorem atToken_of_skip (h : skip gs = .ok (g :: rest)) : AtToken g rest := by
  fun_induction skip gs with
  | case1 gs d e after hdrop _ level _ bytes size _ ih => exact ih h
  | case2 => cases h
  | case3 gs d e after hdrop _ _ ih => exact ih h
  | case4 gs d e after hdrop hdash =>
      obtain ⟨rfl, rfl⟩ := List.cons.inj (Except.ok.inj h)
      refine ⟨blank_of_dropWhile hdrop, fun hd ↦ Bool.eq_false_iff.2 fun he ↦ hdash ?_⟩
      exact Bool.and_eq_true_iff.2 ⟨hd, he⟩
  | case5 gs hshort =>
      have hdrop := Except.ok.inj h
      cases rest with
      | nil => exact ⟨blank_of_dropWhile hdrop, fun _ ↦ rfl⟩
      | cons e rest => exact (hshort g e rest hdrop).elim

theorem AtToken.skip_eq (h : AtToken g gs) : skip (g :: gs) = .ok (g :: gs) := by
  refine skip_of_no_comment h.blank ?_
  rintro e rest rfl ⟨hg, he⟩
  have hnext : isChar '-' e = false := h.comment hg
  exact Bool.false_ne_true (hnext.symm.trans he)

theorem AtToken.detached (h : AtToken g gs) (hgs : Detached n gs gs') (hbyte : g'.byte = g.byte) :
    AtToken g' gs' where
  blank := by rw [isBlank, hbyte, ← isBlank, h.blank]
  comment hdash :=
    hgs.headIs_false (.isChar (by decide)) (h.comment ((isChar_congr hbyte '-').symm.trans hdash))

/-- A token starts with a glyph of ASCII. -/
theorem toNat_byte_of_scan (h : (scan g gs).outcome = .ok t) : g.byte.toNat < 0x80 := by
  by_contra hbyte
  have hchar (c : Char) (hc : c.toUInt8.toNat < 0x80) : isChar c g = false := by
    refine beq_eq_false_iff_ne.2 fun heq ↦ hbyte ?_
    rw [heq]
    exact hc
  have hdigit : isDigit g = false := by
    simp [isDigit, UInt8.le_iff_toNat_le]
    omega
  have hletter : isLetter g = false := by
    simp [isLetter, UInt8.le_iff_toNat_le]
    omega
  have hword : startsWord g = false := by rw [startsWord, hletter]; exact hchar '_' (by decide)
  have hterminal : simpleTerminal? g = none := by
    rw [simpleTerminal?, List.lookup_eq_none_iff]
    intro p hp
    refine bne_iff_ne.2 fun heq ↦ hbyte ?_
    rw [← toNat_shown, heq]
    clear heq
    revert p
    decide
  unfold scan at h
  simp (disch := decide) only [hdigit, hword, hterminal, hchar] at h
  cases h

/-- What is skipped does not change whether the source starts with a glyph of ASCII. -/
theorem toNat_byte_of_skip (h : skip gs = .ok rest) (hrest : ∀ g ∈ rest.head?, g.byte.toNat < 0x80) :
    ∀ g ∈ gs.head?, g.byte.toNat < 0x80 := by
  intro g hg
  obtain ⟨gs, rfl⟩ := List.head?_eq_some_iff.1 hg
  cases hblank : isBlank g with
  | true =>
      simp only [isBlank, Text.isBlankByte, Bool.or_eq_true, Bool.and_eq_true, beq_iff_eq,
        decide_eq_true_eq, UInt8.le_iff_toNat_le, ← UInt8.toNat_inj, UInt8.reduceToNat] at hblank
      omega
  | false =>
      cases hdash : isChar '-' g with
      | true =>
          rw [eq_of_beq hdash]
          decide
      | false =>
          rw [skip_of_solid hblank hdash] at h
          obtain rfl := Except.ok.inj h
          exact hrest g rfl

/-- A source without faults starts with a glyph of ASCII. -/
theorem toNat_byte_of_lexemes {x : Lexer} (hok : ∀ l ∈ x.lexemes, ∃ t, l.outcome = .ok t) :
    ∀ g ∈ x.rest.head?, g.byte.toNat < 0x80 := by
  obtain ⟨ls, hls⟩ := lexemes_head x
  obtain ⟨t, ht⟩ := hok _ (hls ▸ List.mem_cons_self ..)
  unfold next at ht
  split at ht
  · cases ht
  · next hskip => exact toNat_byte_of_skip hskip (by simp)
  · next hskip =>
    refine toNat_byte_of_skip hskip fun g hg ↦ ?_
    obtain rfl := Option.some.inj hg
    exact toNat_byte_of_scan ht

/-! ## What a source consists of -/

/-- The lexeme is scanned from the glyph `g`, the glyphs `taken` and what comes after them, and its
text is what these glyphs are written with. -/
structure Scanned (l : Lexeme) (g : Glyph) (taken rest : List Glyph) : Prop where
  goes : Goes l
  scan : scan g (taken ++ rest) = ⟨l.outcome, taken.length + 1⟩
  text : Text.bytes l.text = Source.raw (g :: taken)
  position : l.position = g.position

/-- The glyphs are what the lexemes are scanned from, one after the other, with blanks and comments
before each and after the last. -/
inductive Spells : List Glyph → List Lexeme → Prop
  | nil {gs : List Glyph} (h : skip gs = .ok []) : Spells gs []
  | cons {gap taken rest : List Glyph} {g : Glyph} {l : Lexeme} {ls : List Lexeme}
      (hskip : skip (gap ++ g :: (taken ++ rest)) = .ok (g :: (taken ++ rest)))
      (hscan : Scanned l g taken rest) (h : Spells rest ls) :
      Spells (gap ++ g :: (taken ++ rest)) (l :: ls)

/-- Well-formed text comes apart in front of a glyph of ASCII, and at its end. -/
theorem wellFormed_raw (hlaid : Laid (gs ++ rest)) (hwf : Text.WellFormed (Source.raw (gs ++ rest)))
    (hrest : ∀ g ∈ rest.head?, g.byte.toNat < 0x80) :
    Text.WellFormed (Source.raw gs) ∧ Text.WellFormed (Source.raw rest) := by
  cases rest with
  | nil =>
      rw [List.append_nil] at hwf
      exact ⟨hwf, by decide⟩
  | cons g rest =>
      have hwritten := hlaid.written g (by simp)
      obtain ⟨b, bs, hraw, hb⟩ := hwritten.raw_eq_cons (hrest g rfl)
      rw [Source.raw_append, Source.raw_cons, hraw, List.cons_append] at hwf
      rw [Source.raw_cons, hraw, List.cons_append]
      exact hwf.of_append hb

/-- What a lexer goes through to read a token. -/
theorem exists_scan_of_goes {x : Lexer} (h : Goes x.next.1) :
    ∃ gap g taken rest, x.rest = gap ++ g :: (taken ++ rest) ∧
      skip x.rest = .ok (g :: (taken ++ rest)) ∧
        scan g (taken ++ rest) = ⟨x.next.1.outcome, taken.length + 1⟩ ∧
          x.next = (⟨x.next.1.outcome, g.position, Source.text (g :: taken)⟩,
            ⟨rest, x.stop, Source.text (g :: taken)⟩) := by
  obtain ⟨t, ho, ht⟩ := h
  rcases next_cases x with
    ⟨_, -, hnext⟩ | ⟨-, hnext⟩ | ⟨gap, g, taken, rest, hrest, hskip, hsize, hnext⟩
  · rw [hnext] at ho
    cases ho
  · rw [hnext] at ho
    exact absurd (Except.ok.inj ho).symm ht
  · refine ⟨gap, g, taken, rest, hrest, hskip, ?_⟩
    rw [hnext, ← hsize]
    exact ⟨rfl, rfl⟩

theorem skip_of_ends {x : Lexer} (h : x.next.1.outcome = .ok .endOfInput) :
    skip x.rest = .ok [] := by
  unfold next at h
  split at h
  · cases h
  · next hskip => exact hskip
  · exact absurd h (scan_ne_endOfInput _ _)

/-- A source without faults consists of the lexemes before the last one, with blanks and comments
around them. -/
theorem spells_lexemes {x : Lexer} (hlaid : Laid x.rest) (hwf : Text.WellFormed (Source.raw x.rest))
    (hok : ∀ l ∈ x.lexemes, ∃ t, l.outcome = .ok t) :
    ∃ ls l, x.lexemes = ls ++ [l] ∧ l.outcome = .ok .endOfInput ∧ Spells x.rest ls := by
  obtain ⟨k, hk⟩ : ∃ k, k = x.rest.length := ⟨_, rfl⟩
  induction k using Nat.strongRecOn generalizing x with
  | _ k ih =>
      subst hk
      rcases goes_or_ends x.next.1 with hgoes | hends
      · obtain ⟨t, ho, ht⟩ := hgoes
        have hlexemes := lexemes_of_goes ⟨t, ho, ht⟩
        rw [hlexemes] at hok ⊢
        have hlt := next_rest_lt ho ht
        obtain ⟨gap, g, taken, rest, hrest, hskip, hscan, hnext⟩ := exists_scan_of_goes ⟨t, ho, ht⟩
        have hok' : ∀ l ∈ x.next.2.lexemes, ∃ t, l.outcome = .ok t :=
          fun l hl ↦ hok l (List.mem_cons_of_mem _ hl)
        have hleft : x.next.2.rest = rest := by rw [hnext]
        have hstart : ∀ g ∈ rest.head?, g.byte.toNat < 0x80 := hleft ▸ toNat_byte_of_lexemes hok'
        have hfirst : ∀ g' ∈ (g :: (taken ++ rest)).head?, g'.byte.toNat < 0x80 := by
          intro g' hg'
          obtain rfl := Option.some.inj hg'
          exact toNat_byte_of_scan ((congrArg Scan.outcome hscan).trans ho)
        -- The text of the token comes apart from the rest because both start with ASCII: the
        -- rest, too, is read without faults.
        rw [hrest] at hlaid hwf hskip
        have hkept : Laid (g :: taken ++ rest) := hlaid.of_infix (List.suffix_append _ _).isInfix
        obtain ⟨htaken, hafter⟩ := wellFormed_raw hkept (wellFormed_raw hlaid hwf hfirst).2 hstart
        have hlaid' : Laid x.next.2.rest := hleft ▸ hkept.of_infix (List.suffix_append _ _).isInfix
        obtain ⟨ls, l, hls, hl, hspells⟩ := ih _ hlt hlaid' (hleft ▸ hafter) hok' rfl
        refine ⟨x.next.1 :: ls, l, by rw [hls, List.cons_append], hl, ?_⟩
        rw [hleft] at hspells
        rw [hrest]
        have htext : Text.bytes x.next.1.text = Source.raw (g :: taken) := by
          rw [hnext]
          exact Text.bytes_decode_eq_iff.2 htaken
        exact .cons hskip ⟨⟨t, ho, ht⟩, hscan, htext, by rw [hnext]⟩ hspells
      · rw [lexemes_of_ends hends] at hok ⊢
        obtain ⟨t, ht⟩ := hok _ (List.mem_singleton_self _)
        have hend : x.next.1.outcome = .ok .endOfInput := by
          rcases hends with hend | ⟨e, hfault⟩
          · exact hend
          · cases ht.symm.trans hfault
        exact ⟨[], _, rfl, hend, .nil (skip_of_ends hend)⟩

/-! ## Spacing tokens out -/

/-- A lexeme that is scanned from some glyphs, wherever they come from. -/
def Found (l : Lexeme) : Prop :=
  ∃ g taken rest, Laid (g :: taken) ∧ AtToken g (taken ++ rest) ∧ Scanned l g taken rest

theorem Spells.found (h : Spells gs ls) (hlaid : Laid gs) : ∀ l ∈ ls, Found l := by
  induction h with
  | nil => exact fun l hl ↦ (List.not_mem_nil hl).elim
  | @cons gap taken rest g l ls hskip hscan _ ih =>
      have hkept : Laid (g :: taken ++ rest) := hlaid.of_infix (List.suffix_append _ _).isInfix
      intro m hm
      rcases List.mem_cons.1 hm with rfl | hm
      · exact ⟨g, taken, rest, hkept.of_infix (List.prefix_append _ _).isInfix,
          atToken_of_skip hskip, hscan⟩
      · exact ih (hkept.of_infix (List.suffix_append _ _).isInfix) m hm

/-- The texts of lexemes, each behind one space. -/
def spaced (ls : List Lexeme) : String := .join (ls.map fun l ↦ " " ++ l.text)

theorem detached_append {hs : List Glyph} (hbytes : hs.map Glyph.byte = gs.map Glyph.byte)
    (hblank : ∀ g ∈ gs'.head?, isBlank g = true) :
    Detached gs.length (gs ++ rest) (hs ++ gs') := by
  induction gs generalizing hs with
  | nil =>
      obtain rfl := List.map_eq_nil_iff.1 hbytes
      exact .here hblank
  | cons g gs ih =>
      obtain ⟨g', hs, rfl, hg, hhs⟩ := List.map_eq_cons_iff.1 hbytes
      exact .more hg (ih hhs)

/-- Glyphs that count as those of a token are read as this token in front of a blank or the end. -/
theorem Scanned.reads {hs : List Glyph} {ts : List Token} (h : Scanned l g taken rest)
    (hstart : AtToken g (taken ++ rest)) (ht : l.outcome = .ok t)
    (hbytes : hs.map Glyph.byte = (g :: taken).map Glyph.byte)
    (hblank : ∀ g ∈ gs'.head?, isBlank g = true) (hrest : Reads gs' ts) :
    Reads (hs ++ gs') (t :: ts) := by
  obtain ⟨g', taken', rfl, hg, htaken⟩ := List.map_eq_cons_iff.1 hbytes
  have hdetached : Detached taken.length (taken ++ rest) (taken' ++ gs') :=
    detached_append htaken hblank
  have hscan := h.scan
  rw [ht] at hscan
  have hlength : taken.length = taken'.length := by
    rw [← List.length_map Glyph.byte, ← htaken, List.length_map]
  have hdrop : (g' :: (taken' ++ gs')).drop (taken.length + 1) = gs' := by
    rw [List.drop_succ_cons, hlength, List.drop_left]
  refine .cons (hstart.detached hdetached hg).skip_eq ((Detached.more hg hdetached).scan_eq hscan)
    ?_ (hdrop.symm ▸ hrest)
  obtain ⟨u, hu, hne⟩ := h.goes
  obtain rfl := Except.ok.inj (ht.symm.trans hu)
  exact hne

/-- The glyph of a space. -/
def space : Glyph := .single 0x20 .first

theorem apart_space (g : Glyph) : Apart g space := by
  intro a b _ hb _ hbreak
  obtain rfl := Option.some.inj hb
  cases hbreak

theorem space_apart (g : Glyph) : Apart space g := by
  intro a b ha _ hbreak
  obtain rfl := List.singleton_inj.1 ha
  cases hbreak

theorem bytes_spaced_cons (l : Lexeme) (ls : List Lexeme) :
    Text.bytes (spaced (l :: ls)) = 0x20 :: (Text.bytes l.text ++ Text.bytes (spaced ls)) := by
  rw [spaced, List.map_cons, String.join_cons, Text.bytes_append, Text.bytes_append]
  rfl

theorem isBlank_head {hs : List Glyph} (hspace : ∀ g ∈ gs.head?, g = space)
    (hbytes : hs.map Glyph.byte = gs.map Glyph.byte) : ∀ g ∈ hs.head?, isBlank g = true := by
  intro g hg
  obtain ⟨hs, rfl⟩ := List.head?_eq_some_iff.1 hg
  obtain ⟨g', gs, rfl, hbyte, -⟩ := List.map_eq_cons_iff.1 hbytes.symm
  rw [isBlank, ← hbyte, hspace g' rfl]
  rfl

/-- The glyphs of lexemes, each behind one space, and what they are read as. -/
theorem exists_spaced (h : ∀ l ∈ ls, Found l) :
    ∃ gs, Laid gs ∧ Source.raw gs = Text.bytes (spaced ls) ∧ (∀ g ∈ gs.head?, g = space) ∧
      ∃ ts : List Token, ls.map Lexeme.outcome = ts.map .ok ∧
        ∀ hs, hs.map Glyph.byte = gs.map Glyph.byte → Reads hs ts := by
  induction ls with
  | nil =>
      refine ⟨[], .nil, rfl, by simp, [], rfl, fun hs hhs ↦ ?_⟩
      obtain rfl := List.map_eq_nil_iff.1 hhs
      exact .nil
  | cons l ls ih =>
      obtain ⟨gs, hlaid, hraw, hspace, ts, hts, hreads⟩ :=
        ih fun l hl ↦ h l (List.mem_cons_of_mem _ hl)
      obtain ⟨g, taken, rest, htaken, hstart, hscan⟩ := h l (List.mem_cons_self ..)
      obtain ⟨t, ht, -⟩ := hscan.goes
      refine ⟨space :: (g :: taken ++ gs), ?_, ?_, fun g hg ↦ (Option.some.inj hg).symm, t :: ts,
        ?_, ?_⟩
      · have hkept : Laid (g :: taken ++ gs) :=
          htaken.append hlaid fun x _ y hy ↦ hspace y hy ▸ apart_space x
        exact (Laid.singleton (.single _ _)).append hkept
          fun x hx y _ ↦ Option.some.inj hx ▸ space_apart y
      · rw [bytes_spaced_cons, hscan.text, ← hraw, ← Source.raw_append]
        rfl
      · rw [List.map_cons, List.map_cons, ht, hts]
      · intro hs hhs
        obtain ⟨g', hs, rfl, hg', hhs⟩ := List.map_eq_cons_iff.1 hhs
        rw [List.map_append] at hhs
        obtain ⟨first, last, rfl, hfirst, hlast⟩ := List.map_eq_append_iff.1 hhs
        exact .blank (by rw [isBlank, hg']; rfl)
          (hscan.reads hstart ht hfirst (isBlank_head hspace hlast) (hreads last hlast))

/-- The texts of lexemes, each behind one space, are read as these lexemes. -/
theorem lexemes_spaced_of_found (h : ∀ l ∈ ls, Found l) :
    (ofBytes (Text.bytes (spaced ls))).lexemes.map Lexeme.outcome =
      ls.map Lexeme.outcome ++ [.ok .endOfInput] := by
  obtain ⟨gs, hlaid, hraw, hspace, ts, hts, hreads⟩ := exists_spaced h
  have hbytes := Source.layOut_raw hlaid
  rw [hraw] at hbytes
  have hhead := isBlank_head hspace hbytes
  rw [ofBytes_of_not_hash fun g hg ↦ Solid.blank (.isChar (by decide)) (hhead g hg), hts]
  exact hreads _ hbytes _ _

/-- The lexemes of a source before the last one. -/
def tokens (s : String) : List Lexeme := (ofBytes (Text.bytes s)).lexemes.dropLast

/-- The source is read without faults. -/
def Faultless (s : String) : Prop :=
  ∀ l ∈ (ofBytes (Text.bytes s)).lexemes, l.outcome.isOk = true

instance (s : String) : Decidable (Faultless s) := inferInstanceAs (Decidable (∀ l ∈ _, _))

/-- A source without faults consists of the texts of its tokens, with blanks and comments between
them, behind a first line that is not read.  These texts, each behind one space, are read as the same
tokens, and so is every choice of them: what a token is does not depend on what stands around it. -/
theorem lexemes_spaced (s : String) (h : Faultless s) :
    Source.raw (ofBytes (Text.bytes s)).rest <:+ Text.bytes s ∧
      Spells (ofBytes (Text.bytes s)).rest (tokens s) ∧
      (∀ ls, (∀ l ∈ ls, l ∈ tokens s) →
        (ofBytes (Text.bytes (spaced ls))).lexemes.map Lexeme.outcome =
          ls.map Lexeme.outcome ++ [.ok .endOfInput]) ∧
      (ofBytes (Text.bytes (spaced (tokens s)))).lexemes.map Lexeme.outcome =
        (ofBytes (Text.bytes s)).lexemes.map Lexeme.outcome := by
  have hok : ∀ l ∈ (ofBytes (Text.bytes s)).lexemes, ∃ t, l.outcome = .ok t := by
    intro l hl
    have hl := h l hl
    cases ho : l.outcome with
    | ok t => exact ⟨t, rfl⟩
    | error fault =>
        rw [ho] at hl
        cases hl
  obtain ⟨line, hline⟩ := rest_ofBytes_suffix (Text.bytes s)
  have hraw : Source.raw (line ++ (ofBytes (Text.bytes s)).rest) = Text.bytes s := by
    rw [hline, Source.raw_layOut]
  have hlaid : Laid (line ++ (ofBytes (Text.bytes s)).rest) := hline ▸ Source.laid_layOut _
  have hrest := hlaid.of_infix (List.suffix_append _ _).isInfix
  have hwhole : Text.WellFormed (Source.raw (line ++ (ofBytes (Text.bytes s)).rest)) := by
    rw [hraw]
    exact Text.wellFormed_bytes s
  have hwf := (wellFormed_raw hlaid hwhole (toNat_byte_of_lexemes hok)).2
  obtain ⟨ls, l, hls, hl, hspells⟩ := spells_lexemes hrest hwf hok
  have htokens : tokens s = ls := by rw [tokens, hls, List.dropLast_concat]
  have hspaced (ms : List Lexeme) (hms : ∀ m ∈ ms, m ∈ tokens s) :=
    lexemes_spaced_of_found fun m hm ↦ hspells.found hrest m (htokens ▸ hms m hm)
  refine ⟨⟨Source.raw line, by rw [← Source.raw_append, hraw]⟩, htokens ▸ hspells, hspaced, ?_⟩
  rw [hspaced _ fun _ hm ↦ hm, htokens, hls, List.map_append, List.map_singleton, hl]

/-- A first line to leave out, and tokens that only brackets, comments and breaks keep apart. -/
def crowded : String := "#!lua\na=b..--[[-]]'\\065\\\r\n\u00e9'[ [=[]]]=]..-.\n-x"

theorem lexemes_spaced_crowded :
    Faultless crowded ∧
      spaced (tokens crowded) = " a = b .. '\\065\\\r\n\u00e9' [ [=[]]]=] .. - . - x" ∧
      (ofBytes (Text.bytes (spaced (tokens crowded)))).lexemes.map Lexeme.outcome =
        (ofBytes (Text.bytes crowded)).lexemes.map Lexeme.outcome := by
  have hfaultless : Faultless crowded := by decide +kernel
  exact ⟨hfaultless, by decide +kernel, (lexemes_spaced crowded hfaultless).2.2.2⟩

end Lexer

end LuaEmbed
