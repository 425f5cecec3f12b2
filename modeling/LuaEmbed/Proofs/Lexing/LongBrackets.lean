import LuaEmbed.Proofs.Lexing.Boundaries
import LuaEmbed.Proofs.Lexing.Layout
import LuaEmbed.Proofs.Lexing.LineBreaks
import LuaEmbed.Proofs.Lexing.Literals

/-!
# Long brackets

A long bracket ends at the first closing bracket of its level, whatever comes before it: closing
brackets of other levels, or the beginning of the one that is due.  What it encloses is a string, or
behind two dashes a comment.  Where no closing bracket of its level follows, it is a fault that takes
all that is left.

The scanner looks for the closing bracket at every glyph, and compares what the glyphs count as.  So
the search is said here in terms of prefixes and infixes of byte sequences, and two lemmas on
`longBody?` carry the rest: what it gives where a first closing bracket exists, and where none does.
-/

namespace LuaEmbed

namespace LongForm

/-- What stands in front of the bracket. -/
def lead : LongForm → List UInt8
  | string => []
  | comment => ['-'.toUInt8, '-'.toUInt8]

/-- What the form is called. -/
def noun : LongForm → String
  | string => "string"
  | comment => "comment"

/-- The tokens that a bracket with some content is read as. -/
def tokens (content : List UInt8) : LongForm → List Token
  | string => [.string (Text.decode content)]
  | comment => []

end LongForm

namespace Lexer

open Glyph (Laid)

variable {bracket : Char} {level n size : Nat} {b : UInt8} {g : Glyph} {bs content : List UInt8}
  {gs ds os hs cs rest : List Glyph} {ts : List Token} {form : LongForm} {x : Lexer}

/-! ## Brackets as bytes -/

/-- A long bracket: two brackets with as many equals signs between them as its level. -/
def longDelimiter (bracket : Char) (level : Nat) : List UInt8 :=
  bracket.toUInt8 :: (List.replicate level '='.toUInt8 ++ [bracket.toUInt8])

/-- In the content with the closing bracket of the level behind it, that bracket comes nowhere
before the end of the content. -/
def ClosesFirst (level : Nat) (content : List UInt8) : Prop :=
  ∀ n < content.length, ¬longDelimiter ']' level <+: (content ++ longDelimiter ']' level).drop n

instance (level : Nat) (content : List UInt8) : Decidable (ClosesFirst level content) :=
  inferInstanceAs (Decidable (∀ n < content.length, _))

/-- What a long bracket encloses: all but a line break right after its opening. -/
def withoutBreak : List UInt8 → List UInt8
  | [] => []
  | b :: bs => if b = Glyph.lineFeed then bs else b :: bs

/-- A long bracket of the form around some bytes. -/
def enclose (form : LongForm) (level : Nat) (inner : List UInt8) : List UInt8 :=
  form.lead ++ (longDelimiter '[' level ++ (inner ++ longDelimiter ']' level))

theorem length_longDelimiter (bracket : Char) (level : Nat) :
    (longDelimiter bracket level).length = level + 2 := by
  simp [longDelimiter]

theorem mem_longDelimiter (h : b ∈ longDelimiter bracket level) :
    b = bracket.toUInt8 ∨ b = '='.toUInt8 := by
  simp only [longDelimiter, List.mem_cons, List.mem_append, List.mem_replicate, List.not_mem_nil,
    or_false] at h
  tauto

theorem mem_opening (h : b ∈ form.lead ++ longDelimiter '[' level) :
    b = '-'.toUInt8 ∨ b = '['.toUInt8 ∨ b = '='.toUInt8 := by
  rcases List.mem_append.1 h with h | h
  · cases form with
    | string => cases h
    | comment => exact .inl ((List.mem_pair.1 h).elim id id)
  · exact .inr (mem_longDelimiter h)

theorem ClosesFirst.of_cons (h : ClosesFirst level (b :: content)) : ClosesFirst level content :=
  fun n hn ↦ h (n + 1) (Nat.succ_lt_succ hn)

theorem withoutBreak_eq (h : bs.head? ≠ some Glyph.lineFeed) : withoutBreak bs = bs := by
  cases bs with
  | nil => rfl
  | cons b bs => exact if_neg fun heq ↦ h (congrArg some heq)

/-- No closing bracket starts with a line break. -/
theorem ClosesFirst.lineFeed (h : ClosesFirst level content) :
    ClosesFirst level (Glyph.lineFeed :: content) := by
  intro n hn
  cases n with
  | zero =>
      rw [List.drop_zero, longDelimiter, List.cons_append, List.cons_prefix_cons]
      exact fun hhead ↦ absurd hhead.1 (by decide)
  | succ n => exact h n (Nat.lt_of_succ_lt_succ hn)

/-! ## The search for the closing bracket -/

theorem isChar_iff {c : Char} : isChar c g = true ↔ c.toUInt8 = g.byte := by
  rw [isChar, beq_iff_eq, eq_comm]

theorem afterBracket?_isSome_iff :
    (afterBracket? bracket level gs).isSome = true ↔
      List.replicate level '='.toUInt8 ++ [bracket.toUInt8] <+: gs.map Glyph.byte := by
  induction level generalizing gs with
  | zero =>
      cases gs with
      | nil => simp [afterBracket?]
      | cons g gs =>
          rw [afterBracket?, List.map_cons, List.replicate_zero, List.nil_append,
            List.cons_prefix_cons, ← isChar_iff]
          split <;> simp [*]
  | succ level ih =>
      cases gs with
      | nil => simp [afterBracket?, List.replicate_succ]
      | cons g gs =>
          rw [afterBracket?, List.map_cons, List.replicate_succ, List.cons_append,
            List.cons_prefix_cons, ← isChar_iff, ← ih]
          split <;> simp [*]

/-- The test that ends the search holds where the closing bracket stands. -/
theorem closes_iff :
    (isChar ']' g && (afterBracket? ']' level gs).isSome) = true ↔
      longDelimiter ']' level <+: (g :: gs).map Glyph.byte := by
  rw [Bool.and_eq_true, isChar_iff, afterBracket?_isSome_iff, longDelimiter, List.map_cons,
    List.cons_prefix_cons]

theorem longBody?_eq_none (hopen : ¬longDelimiter ']' level <:+: gs.map Glyph.byte) :
    longBody? level gs content size = none := by
  induction gs generalizing content size with
  | nil => rfl
  | cons g gs ih =>
      rw [List.map_cons, List.infix_cons_iff, not_or] at hopen
      rw [longBody?, if_neg (mt closes_iff.1 hopen.1)]
      exact ih hopen.2

theorem longBody?_eq_some (hfirst : ClosesFirst level (hs.map Glyph.byte))
    (hcs : cs.map Glyph.byte = longDelimiter ']' level) :
    longBody? level (hs ++ (cs ++ rest)) content size =
      some (content.reverse ++ hs.map Glyph.byte, size + (hs.length + cs.length)) := by
  have hlength : cs.length = level + 2 := by
    rw [← List.length_map Glyph.byte, hcs, length_longDelimiter]
  induction hs generalizing content size with
  | nil =>
      have hcloses : longDelimiter ']' level <+: (cs ++ rest).map Glyph.byte := by
        rw [← hcs, List.map_append]
        exact List.prefix_append _ _
      obtain ⟨g, cs, rfl, -, -⟩ := List.map_eq_cons_iff.1 hcs
      simp only [List.nil_append, List.cons_append] at hcloses ⊢
      rw [longBody?, if_pos (closes_iff.2 hcloses), hlength, List.map_nil, List.append_nil,
        List.length_nil, Nat.zero_add, Nat.add_assoc]
  | cons g hs ih =>
      -- What follows the closing bracket is no part of one that starts here: it has no room left.
      have hhere : ¬longDelimiter ']' level <+: (g :: (hs ++ (cs ++ rest))).map Glyph.byte := by
        intro hcloses
        have hwhole : (g :: hs).map Glyph.byte ++ longDelimiter ']' level <+:
            (g :: (hs ++ (cs ++ rest))).map Glyph.byte := by
          rw [← hcs]
          simp
        exact hfirst 0 (by simp) (List.prefix_of_prefix_length_le hcloses hwhole
          (List.suffix_append _ _).length_le)
      rw [List.cons_append, longBody?, if_neg (mt closes_iff.1 hhere), ih hfirst.of_cons,
        List.reverse_cons, List.append_assoc, List.singleton_append, List.map_cons,
        List.length_cons]
      congr 2
      omega

/-! ## The opening bracket -/

/-- The level of an opening bracket is the number of its equals signs. -/
theorem openingLevel?_append (hos : os.map Glyph.byte = longDelimiter '[' level) :
    openingLevel? (os ++ gs) = some level := by
  obtain ⟨g, os, rfl, hg, hos⟩ := List.map_eq_cons_iff.1 hos
  obtain ⟨es, last, rfl, hes, hlast⟩ := List.map_eq_append_iff.1 hos
  obtain ⟨c, rfl, hc⟩ := List.map_eq_singleton_iff.1 hlast
  have hequal : ∀ e ∈ es, isChar '=' e = true := by
    intro e he
    rw [isChar_iff, eq_comm]
    exact List.eq_of_mem_replicate (hes ▸ List.mem_map_of_mem he)
  have hother : ¬isChar '=' c = true := by
    rw [isChar_iff, hc]
    decide
  have hlength : es.length = level := by
    rw [← List.length_map Glyph.byte, hes, List.length_replicate]
  have hcount : ((es ++ [c] ++ gs).takeWhile (isChar '=')).length = level := by
    rw [List.append_assoc, List.takeWhile_append_of_pos hequal, List.singleton_append,
      List.takeWhile_cons_of_neg hother, List.append_nil, hlength]
  have hfound : (afterBracket? '[' level (es ++ [c] ++ gs)).isSome = true := by
    rw [afterBracket?_isSome_iff, List.map_append, hos]
    exact List.prefix_append _ _
  obtain ⟨left, hleft⟩ := Option.isSome_iff_exists.1 hfound
  rw [List.cons_append, openingLevel?, if_pos (isChar_iff.2 hg.symm), hcount]
  dsimp only
  rw [hleft, Option.map_some]

theorem longBracket?_append (hos : os.map Glyph.byte = longDelimiter '[' level) :
    longBracket? level (os ++ gs) =
      if headIs Glyph.isBreak gs then longBody? level (gs.drop 1) [] (level + 3)
      else longBody? level gs [] (level + 2) := by
  have hdrop : (os ++ gs).drop (level + 2) = gs := by
    rw [← length_longDelimiter '[', ← hos, List.length_map, List.drop_left]
  unfold longBracket?
  dsimp only
  rw [hdrop]
  cases gs <;> rfl

theorem longBracket?_eq_none (hos : os.map Glyph.byte = longDelimiter '[' level)
    (hopen : ¬longDelimiter ']' level <:+: gs.map Glyph.byte) :
    longBracket? level (os ++ gs) = none := by
  rw [longBracket?_append hos]
  split
  · refine longBody?_eq_none fun hlater ↦ hopen (hlater.trans ?_)
    rw [List.map_drop]
    exact (List.drop_suffix _ _).isInfix
  · exact longBody?_eq_none hopen

theorem longBracket?_eq_some (hos : os.map Glyph.byte = longDelimiter '[' level)
    (hfirst : ClosesFirst level (hs.map Glyph.byte))
    (hcs : cs.map Glyph.byte = longDelimiter ']' level) :
    longBracket? level (os ++ (hs ++ (cs ++ rest))) =
      some (withoutBreak (hs.map Glyph.byte), os.length + (hs.length + cs.length)) := by
  have hlength : os.length = level + 2 := by
    rw [← List.length_map Glyph.byte, hos, length_longDelimiter]
  rw [longBracket?_append hos, hlength]
  cases hs with
  | nil =>
      have hhead : headIs Glyph.isBreak ([] ++ (cs ++ rest)) = false := by
        obtain ⟨c, cs, rfl, hc, -⟩ := List.map_eq_cons_iff.1 hcs
        change (c.byte == Glyph.lineFeed) = false
        rw [hc]
        decide
      rw [hhead, if_neg Bool.false_ne_true, longBody?_eq_some hfirst hcs]
      rfl
  | cons g hs =>
      rw [List.map_cons, withoutBreak]
      cases hbreak : g.isBreak with
      | true =>
          have hbody : longBody? level (hs ++ (cs ++ rest)) [] (level + 3) =
              some (hs.map Glyph.byte, level + 3 + (hs.length + cs.length)) :=
            longBody?_eq_some hfirst.of_cons hcs
          rw [if_pos (show headIs Glyph.isBreak (g :: hs ++ (cs ++ rest)) = true from hbreak),
            if_pos (eq_of_beq hbreak)]
          refine hbody.trans ?_
          rw [List.length_cons]
          congr 2
          omega
      | false =>
          rw [if_neg (show ¬headIs Glyph.isBreak (g :: hs ++ (cs ++ rest)) = true from
            Bool.eq_false_iff.1 hbreak), if_neg (ne_of_beq_false hbreak),
            longBody?_eq_some hfirst hcs]
          rfl

/-! ## Strings and comments -/

theorem skip_opening (hos : (g :: os).map Glyph.byte = longDelimiter '[' level) :
    skip (g :: os ++ rest) = .ok (g :: os ++ rest) := by
  have hg : g.byte = '['.toUInt8 := (List.cons.inj hos).1
  refine skip_of_solid ?_ ?_
  · rw [isBlank, hg]
    decide
  · rw [isChar, hg]
    decide

/-- Where a long bracket opens, a string is read or found to have no end. -/
theorem scan_opening (rest : List Glyph) (hos : (g :: os).map Glyph.byte = longDelimiter '[' level) :
    scan g (os ++ rest) = match longBracket? level (g :: os ++ rest) with
      | some (content, size) => ⟨.ok (.string (Text.decode content)), size⟩
      | none => ⟨.error (.longAtEnd .string), (g :: os ++ rest).length⟩ := by
  have hscan : scan g (os ++ rest) = bracket (g :: os ++ rest) := by
    have hg : g.byte = '['.toUInt8 := (List.cons.inj hos).1
    obtain ⟨_, _, _⟩ := g
    subst hg
    rfl
  rw [hscan, Lexer.bracket]
  cases hfound : longBracket? level (g :: os ++ rest) <;>
    simp only [openingLevel?_append hos, hfound]

/-- Where a long bracket opens behind two dashes, a comment is skipped or found to have no end. -/
theorem skip_comment (rest : List Glyph) (hds : ds.map Glyph.byte = LongForm.comment.lead)
    (hos : os.map Glyph.byte = longDelimiter '[' level) :
    ∃ place, skip (ds ++ (os ++ rest)) = match longBracket? level (os ++ rest) with
      | some (_, size) => skip ((os ++ rest).drop size)
      | none => .error place := by
  obtain ⟨d, ds, rfl, hd, hds⟩ := List.map_eq_cons_iff.1 hds
  obtain ⟨e, rfl, he⟩ := List.map_eq_singleton_iff.1 hds
  have hsolid : (d :: e :: (os ++ rest)).dropWhile isBlank = d :: e :: (os ++ rest) := by
    refine List.dropWhile_cons_of_neg ?_
    rw [isBlank, hd]
    decide
  refine ⟨d.position, ?_⟩
  change skip (d :: e :: (os ++ rest)) = _
  rw [skip_eq_skipSolid, hsolid, skipSolid, isChar_iff.2 hd.symm, isChar_iff.2 he.symm,
    openingLevel?_append hos]
  rfl

/-- A long bracket is read as what it is the form of, and then what follows it. -/
theorem Reads.enclosed (hds : ds.map Glyph.byte = form.lead)
    (hos : os.map Glyph.byte = longDelimiter '[' level)
    (hfirst : ClosesFirst level (hs.map Glyph.byte))
    (hcs : cs.map Glyph.byte = longDelimiter ']' level) (hrest : Reads rest ts) :
    Reads (ds ++ (os ++ (hs ++ (cs ++ rest))))
      (form.tokens (withoutBreak (hs.map Glyph.byte)) ++ ts) := by
  have hdrop : (os ++ (hs ++ (cs ++ rest))).drop (os.length + (hs.length + cs.length)) = rest := by
    rw [← List.append_assoc hs, ← List.append_assoc, ← List.length_append, ← List.length_append,
      List.drop_left]
  cases form with
  | string =>
      obtain rfl := List.map_eq_nil_iff.1 hds
      obtain ⟨g, os', rfl, -⟩ := List.map_eq_cons_iff.1 hos
      have hscan := scan_opening (hs ++ (cs ++ rest)) hos
      rw [longBracket?_eq_some hos hfirst hcs] at hscan
      exact .cons (skip_opening hos) hscan (by simp) (hdrop.symm ▸ hrest)
  | comment =>
      obtain ⟨place, hskip⟩ := skip_comment (hs ++ (cs ++ rest)) hds hos
      rw [longBracket?_eq_some hos hfirst hcs] at hskip
      dsimp only at hskip
      rw [hdrop] at hskip
      exact .of_skip hskip hrest

/-- What is opened and not closed is a fault that takes all that is left. -/
theorem next_of_not_closed (hds : ds.map Glyph.byte = form.lead)
    (hos : os.map Glyph.byte = longDelimiter '[' level)
    (hopen : ¬longDelimiter ']' level <:+: gs.map Glyph.byte)
    (hskip : skip x.rest = skip (ds ++ (os ++ gs))) :
    x.next.1.outcome = .error (.longAtEnd form) ∧ x.next.2.rest = [] := by
  cases form with
  | string =>
      obtain rfl := List.map_eq_nil_iff.1 hds
      obtain ⟨g, os', rfl, -⟩ := List.map_eq_cons_iff.1 hos
      have hscan := scan_opening gs hos
      rw [longBracket?_eq_none hos hopen] at hscan
      have hkept : skip x.rest = .ok (g :: (os' ++ gs)) := hskip.trans (skip_opening hos)
      have hall : (g :: (os' ++ gs)).drop (g :: os' ++ gs).length = [] := List.drop_length
      unfold next
      rw [hkept]
      dsimp only
      rw [hscan]
      exact ⟨rfl, hall⟩
  | comment =>
      obtain ⟨place, hcomment⟩ := skip_comment gs hds hos
      rw [longBracket?_eq_none hos hopen] at hcomment
      unfold next
      rw [hskip, hcomment]
      exact ⟨rfl, rfl⟩

/-! ## Sources -/

/-- What the lexemes of a source are. -/
def outcomes (bs : List UInt8) : List (Except LexicalFault Token) :=
  (ofBytes bs).lexemes.map Lexeme.outcome

/-- Nothing but blanks and comments stands between a lexer and some of the glyphs left to it. -/
structure ComesTo (x : Lexer) (gs : List Glyph) : Prop where
  suffix : gs <:+ x.rest
  skip : Lexer.skip x.rest = Lexer.skip gs

theorem not_break_opening (h : b ∈ form.lead ++ longDelimiter '[' level) :
    Glyph.isBreakByte b = false := by
  rcases mem_opening h with rfl | rfl | rfl <;> decide

theorem not_break_closing (h : b ∈ longDelimiter ']' level) : Glyph.isBreakByte b = false := by
  rcases mem_longDelimiter h with rfl | rfl <;> decide

theorem head?_opening (form : LongForm) (level : Nat) (bs : List UInt8) :
    (form.lead ++ (longDelimiter '[' level ++ bs)).head? ≠ some '#'.toUInt8 := by
  intro hhead
  rw [← List.append_assoc] at hhead
  have hmem : '#'.toUInt8 ∈ form.lead ++ longDelimiter '[' level := by
    cases form <;> exact absurd (Option.some.inj hhead) (by decide)
  rcases mem_opening hmem with h | h | h <;> exact absurd h (by decide)

theorem outcomes_enclose (hbs : ∀ b ∈ bs, b ≠ Glyph.carriageReturn)
    (hfirst : ClosesFirst level bs) :
    outcomes (enclose form level bs) =
      (form.tokens (withoutBreak bs)).map .ok ++ [.ok .endOfInput] := by
  have hreturn : ∀ b ∈ enclose form level bs, b ≠ Glyph.carriageReturn := by
    have hbreak {b : UInt8} (hb : Glyph.isBreakByte b = false) : b ≠ Glyph.carriageReturn := by
      rintro rfl
      cases hb
    intro b hb
    rw [enclose, ← List.append_assoc] at hb
    rcases List.mem_append.1 hb with hb | hb
    · exact hbreak (not_break_opening hb)
    rcases List.mem_append.1 hb with hb | hb
    · exact hbs b hb
    · exact hbreak (not_break_closing hb)
  refine Reads.ofBytes hreturn (head?_opening _ _ _) fun gs hgs ↦ ?_
  obtain ⟨ds, gs, rfl, hds, hgs⟩ := List.map_eq_append_iff.1 hgs
  obtain ⟨os, gs, rfl, hos, hgs⟩ := List.map_eq_append_iff.1 hgs
  obtain ⟨hs, cs, rfl, rfl, hcs⟩ := List.map_eq_append_iff.1 hgs
  have hreads : Reads (ds ++ (os ++ (hs ++ (cs ++ [])))) (form.tokens (withoutBreak _) ++ []) :=
    .enclosed hds hos hfirst hcs .nil
  rwa [List.append_nil, List.append_nil] at hreads

theorem ComesTo.next_of_not_closed (h : ComesTo x gs) (hlaid : Laid x.rest)
    (hraw : Source.raw gs = form.lead ++ longDelimiter '[' level ++ bs)
    (hopen : ¬longDelimiter ']' level <:+: bs) :
    x.next.1.outcome = .error (.longAtEnd form) ∧ x.next.2.rest = [] := by
  have hkept : Laid gs := hlaid.of_infix h.suffix.isInfix
  have hwritten := hkept.written
  obtain ⟨opening, rest, rfl, hopening, rfl⟩ :=
    Source.exists_of_raw hwritten (fun b ↦ not_break_opening) hraw
  obtain ⟨ds, os, rfl, hds, hos⟩ := List.map_eq_append_iff.1 hopening
  refine Lexer.next_of_not_closed hds hos (fun hfound ↦ hopen ?_)
    (by rw [← List.append_assoc]; exact h.skip)
  exact Source.infix_raw (fun g hg ↦ hwritten g (List.mem_append_right _ hg))
    (fun b ↦ not_break_closing) hfound

/-- A source whose first byte is no `#` starts with no such glyph, whatever breaks it has. -/
theorem isChar_hash_layOut (hfirst : bs.head? ≠ some '#'.toUInt8) :
    ∀ g ∈ (Source.layOut bs).glyphs.head?, isChar '#' g = false := by
  intro g hg
  refine Bool.eq_false_iff.2 fun hchar ↦ hfirst ?_
  have hbyte : '#'.toUInt8 = g.byte := isChar_iff.1 hchar
  have hbreak : g.isBreak = false := by
    rw [Glyph.isBreak, ← hbyte]
    decide
  have hwritten := (Source.laid_layOut bs).written g (List.mem_of_mem_head? hg)
  obtain ⟨gs, hgs⟩ := List.head?_eq_some_iff.1 hg
  rw [← Source.raw_layOut bs, hgs, Source.raw_cons, hwritten.raw_of_not_break hbreak, hbyte]
  rfl

theorem outcomes_of_not_closed (hopen : ¬longDelimiter ']' level <:+: bs) :
    outcomes (form.lead ++ longDelimiter '[' level ++ bs) = [.error (.longAtEnd form)] := by
  set source := form.lead ++ longDelimiter '[' level ++ bs with hsource
  have hraw := Source.raw_layOut source
  have hlaid := Source.laid_layOut source
  have hhash : ∀ g ∈ (Source.layOut source).glyphs.head?, isChar '#' g = false := by
    refine isChar_hash_layOut ?_
    rw [hsource, List.append_assoc]
    exact head?_opening form level bs
  have hcomes : ComesTo (ofBytes source) (ofBytes source).rest := ⟨List.suffix_refl _, rfl⟩
  have hkept : Laid (ofBytes source).rest := hlaid.of_infix (rest_ofBytes_suffix source).isInfix
  have hnext := hcomes.next_of_not_closed hkept
    (by rw [ofBytes_of_not_hash hhash]; exact hraw) hopen
  rw [outcomes, lexemes_of_ends (.inr ⟨_, hnext.1⟩), List.map_singleton, hnext.1]

/-- A long bracket whose content the first closing bracket of its level ends is read as one string,
without a line break right after the opening, and behind two dashes as nothing.  Where no closing
bracket of its level follows, the fault says so, in a source of its own and behind anything else. -/
theorem lexemes_longBracket (level : Nat) :
    (∀ c : String, '\r' ∉ c.toList → ClosesFirst level (Text.bytes c) →
      outcomes (enclose .string level (Glyph.lineFeed :: Text.bytes c)) =
        [.ok (.string c), .ok .endOfInput] ∧
      (c.toList.head? ≠ some '\n' →
        outcomes (enclose .string level (Text.bytes c)) = [.ok (.string c), .ok .endOfInput]) ∧
      outcomes (enclose .comment level (Glyph.lineFeed :: Text.bytes c)) = [.ok .endOfInput] ∧
      outcomes (enclose .comment level (Text.bytes c)) = [.ok .endOfInput]) ∧
    ∀ (form : LongForm) (bs : List UInt8), ¬longDelimiter ']' level <:+: bs →
      outcomes (form.lead ++ longDelimiter '[' level ++ bs) = [.error (.longAtEnd form)] ∧
      (∀ (x : Lexer) (gs : List Glyph), Laid x.rest → ComesTo x gs →
        Source.raw gs = form.lead ++ longDelimiter '[' level ++ bs →
          x.next.1.outcome = .error (.longAtEnd form) ∧ x.next.2.rest = []) ∧
      (LexicalFault.longAtEnd form).message = "unfinished long " ++ form.noun ++ " near <eof>" := by
  refine ⟨fun c hreturn hfirst ↦ ?_, fun form bs hopen ↦ ⟨outcomes_of_not_closed hopen,
    fun x gs hlaid h hraw ↦ h.next_of_not_closed hlaid hraw hopen, by cases form <;> rfl⟩⟩
  have hbytes : ∀ b ∈ Text.bytes c, b ≠ Glyph.carriageReturn :=
    fun b ↦ Text.ne_of_mem_bytes (by decide) hreturn
  have hbroken : ∀ b ∈ Glyph.lineFeed :: Text.bytes c, b ≠ Glyph.carriageReturn :=
    List.forall_mem_cons.2 ⟨by decide, hbytes⟩
  have hdropped : withoutBreak (Glyph.lineFeed :: Text.bytes c) = Text.bytes c := by
    rw [withoutBreak, if_pos rfl]
  refine ⟨?_, fun hhead ↦ ?_, outcomes_enclose hbroken hfirst.lineFeed,
    outcomes_enclose hbytes hfirst⟩
  · rw [outcomes_enclose hbroken hfirst.lineFeed, hdropped, LongForm.tokens, Text.decode_bytes]
    rfl
  · have hkept : withoutBreak (Text.bytes c) = Text.bytes c :=
      withoutBreak_eq (Text.head?_bytes_ne (by decide) hhead)
    rw [outcomes_enclose hbytes hfirst, hkept, LongForm.tokens, Text.decode_bytes]
    rfl

/-- Closing brackets of another level, and two brackets right before the one that is due. -/
def misleading : String := "\u00e9]==]\n]]"

/-- A comment that only brackets of other levels follow, behind a blank and another comment. -/
def unfinished : List UInt8 := Text.bytes " --c\n--[=[x]]\r\n]==]"

theorem lexemes_longBracket_misleading :
    '\r' ∉ misleading.toList ∧ ClosesFirst 1 (Text.bytes misleading) ∧
      misleading.toList.head? ≠ some '\n' ∧
      outcomes (Text.bytes "[=[\n\u00e9]==]\n]]]=]") =
        [.ok (.string misleading), .ok .endOfInput] ∧
      outcomes (Text.bytes "[=[\u00e9]==]\n]]]=]") =
        [.ok (.string misleading), .ok .endOfInput] ∧
      outcomes (Text.bytes "--[=[\u00e9]==]\n]]]=]") = [.ok .endOfInput] ∧
      Laid (ofBytes unfinished).rest ∧
      ComesTo (ofBytes unfinished) ((ofBytes unfinished).rest.drop 5) ∧
      Source.raw ((ofBytes unfinished).rest.drop 5) =
        LongForm.comment.lead ++ longDelimiter '[' 1 ++ Text.bytes "x]]\r\n]==]" ∧
      ¬longDelimiter ']' 1 <:+: Text.bytes "x]]\r\n]==]" ∧
      (ofBytes unfinished).next.1.outcome = .error (.longAtEnd .comment) := by
  have hreturn : '\r' ∉ misleading.toList := by decide +kernel
  have hfirst : ClosesFirst 1 (Text.bytes misleading) := by decide +kernel
  have hhead : misleading.toList.head? ≠ some '\n' := by decide +kernel
  have hwhole : Laid (Source.layOut unfinished).glyphs := Source.laid_layOut unfinished
  have hlaid : Laid (ofBytes unfinished).rest := hwhole.of_infix (rest_ofBytes_suffix _).isInfix
  have hcomes : ComesTo (ofBytes unfinished) ((ofBytes unfinished).rest.drop 5) :=
    ⟨List.drop_suffix _ _, by decide +kernel⟩
  have hraw : Source.raw ((ofBytes unfinished).rest.drop 5) =
      LongForm.comment.lead ++ longDelimiter '[' 1 ++ Text.bytes "x]]\r\n]==]" := by
    decide +kernel
  have hopen : ¬longDelimiter ']' 1 <:+: Text.bytes "x]]\r\n]==]" := by decide +kernel
  obtain ⟨hclosed, hunfinished⟩ := lexemes_longBracket 1
  obtain ⟨hbroken, hstring, -, hcomment⟩ := hclosed misleading hreturn hfirst
  exact ⟨hreturn, hfirst, hhead, hbroken, hstring hhead, hcomment, hlaid, hcomes, hraw, hopen,
    ((hunfinished .comment _ hopen).2.1 _ _ hlaid hcomes hraw).1⟩

end Lexer

end LuaEmbed
