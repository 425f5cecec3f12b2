import Mathlib.Data.List.TakeWhile
import LuaEmbed.Proofs.Lexing.Sources

/-!
# Ways to write a line break

A source whose lines end in line feeds may have them written in another way, as a carriage return
or as the pair of both.  The glyphs are then the same but for the bytes that the breaks are written
with, and no scanner looks at those.  Only the line that starts with `#` is different: it is left
out up to a break that is written with a line feed first.
-/

namespace LuaEmbed

namespace Glyph

/-- The ways to write a line break that start with a carriage return. -/
inductive ReturnForm where
  | alone
  | pair
deriving DecidableEq, Repr

/-- The bytes of a line break. -/
def ReturnForm.bytes : ReturnForm → List UInt8
  | alone => [carriageReturn]
  | pair => [carriageReturn, lineFeed]

/-- A glyph with its break, if it is one, in another form. -/
def withForm (form : ReturnForm) (g : Glyph) : Glyph :=
  if g.isBreak then { g with raw := form.bytes } else g

variable {form : ReturnForm} {g : Glyph} {gs : List Glyph} {b : UInt8}

@[simp] theorem byte_withForm (g : Glyph) : (g.withForm form).byte = g.byte := by
  unfold withForm
  split <;> rfl

@[simp] theorem position_withForm (g : Glyph) : (g.withForm form).position = g.position := by
  unfold withForm
  split <;> rfl

@[simp] theorem isBreak_withForm (g : Glyph) : (g.withForm form).isBreak = g.isBreak := by
  rw [isBreak, byte_withForm, isBreak]

@[simp] theorem after_withForm (g : Glyph) : (g.withForm form).after = g.after := by
  rw [after, isBreak_withForm, position_withForm, after]

theorem withForm_of_not_break (h : g.isBreak = false) : g.withForm form = g := by
  rw [withForm, h]
  rfl

theorem raw_withForm_of_break (h : g.isBreak = true) : (g.withForm form).raw = form.bytes := by
  rw [withForm, if_pos h]

/-! ## Layout -/

theorem place_map_withForm (form : ReturnForm) (gs : List Glyph) :
    place (gs.map (withForm form)) = place gs := by
  cases gs <;> simp [place]

/-- A byte of a source whose breaks are written in another form. -/
def ReturnForm.ofByte (form : ReturnForm) (b : UInt8) : List UInt8 :=
  if b = lineFeed then form.bytes else [b]

/-- After glyphs with their breaks in another form a byte is a glyph of its own, unless it is a line
feed. -/
theorem push_map_withForm (hgs : ∀ g ∈ gs, Plain g)
    (hb : isBreakByte b = true → b = carriageReturn) :
    push (gs.map (withForm form)) b = single b (place gs) :: gs.map (withForm form) := by
  rw [← place_map_withForm form]
  refine push_of_not_joins fun g hg a hraw ha hbreak ↦ ?_
  obtain ⟨g, hmem, rfl⟩ := List.mem_map.1 (List.mem_of_mem_head? hg)
  have hplain := hgs g hmem
  cases hg : g.isBreak with
  | true =>
      rw [raw_withForm_of_break hg] at hraw
      cases form with
      | alone => exact (List.singleton_inj.1 hraw).symm.trans (hb hbreak).symm
      | pair => simp [ReturnForm.bytes] at hraw
  | false =>
      rw [withForm_of_not_break hg, hplain.raw] at hraw
      obtain rfl := List.singleton_inj.1 hraw
      rw [isBreak, eq_lineFeed_of_isBreakByte ha hplain.byte, beq_self_eq_true] at hg
      cases hg

/-- The bytes of a break in another form make one glyph, as every other byte does. -/
theorem foldl_push_ofByte (hgs : ∀ g ∈ gs, Plain g) (hb : b ≠ carriageReturn) :
    (form.ofByte b).foldl push (gs.map (withForm form)) = (push gs b).map (withForm form) := by
  rw [push_of_plain hgs hb, List.map_cons]
  unfold ReturnForm.ofByte
  split
  · next h =>
    subst h
    have hfirst : push (gs.map (withForm form)) carriageReturn =
        single carriageReturn (place gs) :: gs.map (withForm form) :=
      push_map_withForm hgs fun _ ↦ rfl
    cases form with
    | alone => exact hfirst
    | pair =>
        rw [ReturnForm.bytes, List.foldl_cons, hfirst]
        rfl
  · next h =>
    have hbreak : isBreakByte b ≠ true := fun hbreak ↦ h (eq_lineFeed_of_isBreakByte hbreak hb)
    have hsingle : (single b (place gs)).isBreak = false := by
      rw [single_of_ne_carriageReturn _ hb]
      exact beq_eq_false_iff_ne.2 h
    rw [withForm_of_not_break hsingle]
    exact push_map_withForm hgs fun h ↦ absurd h hbreak

end Glyph

namespace Source

open Glyph (Plain ReturnForm withForm)

variable {form : ReturnForm} {bs : List UInt8}

/-- The source with its line feeds written in another form. -/
def withBreaks (form : ReturnForm) (bs : List UInt8) : List UInt8 := bs.flatMap form.ofByte

theorem foldl_push_withBreaks (form : ReturnForm)
    (hbs : ∀ b ∈ bs, b ≠ Glyph.carriageReturn) {gs : List Glyph}
    (hgs : ∀ g ∈ gs, Plain g) :
    (withBreaks form bs).foldl Glyph.push (gs.map (withForm form)) =
      (bs.foldl Glyph.push gs).map (withForm form) := by
  induction bs generalizing gs with
  | nil => rfl
  | cons b bs ih =>
      have hb := hbs b (List.mem_cons_self ..)
      rw [withBreaks, List.flatMap_cons, List.foldl_append, Glyph.foldl_push_ofByte hgs hb,
        List.foldl_cons]
      exact ih (fun b hb ↦ hbs b (List.mem_cons_of_mem _ hb)) (Glyph.plain_push hgs hb)

/-- In a source without carriage returns the form of the breaks changes nothing but how they are
written. -/
theorem layOut_withBreaks (form : ReturnForm) (hbs : ∀ b ∈ bs, b ≠ Glyph.carriageReturn) :
    layOut (withBreaks form bs) =
      ⟨(layOut bs).glyphs.map (withForm form), (layOut bs).stop⟩ := by
  have hfold : (withBreaks form bs).foldl Glyph.push [] =
      (bs.foldl Glyph.push []).map (withForm form) :=
    foldl_push_withBreaks form hbs fun g hg ↦ (List.not_mem_nil hg).elim
  rw [layOut, hfold, ← List.map_reverse]
  congr 1
  exact Glyph.place_map_withForm _ _

end Source

namespace Lexer

open Glyph (ReturnForm withForm)

variable {form : ReturnForm} {g : Glyph} {gs : List Glyph}

/-! ## Classes of glyphs

No class of glyphs depends on how a break is written. -/

@[simp] theorem isDigit_withForm : isDigit (g.withForm form) = isDigit g := by simp [isDigit]

@[simp] theorem isHexDigit_withForm : isHexDigit (g.withForm form) = isHexDigit g := by
  simp [isHexDigit]

@[simp] theorem startsWord_withForm : startsWord (g.withForm form) = startsWord g := by
  simp [startsWord, isLetter]

@[simp] theorem isWord_withForm : isWord (g.withForm form) = isWord g := by simp [isWord]

@[simp] theorem isChar_withForm {c : Char} : isChar c (g.withForm form) = isChar c g := by
  simp [isChar]

@[simp] theorem isBlank_withForm : isBlank (g.withForm form) = isBlank g := by simp [isBlank]

@[simp] theorem digit_withForm : digit (g.withForm form) = digit g := by simp [digit]

@[simp] theorem simpleEscape?_withForm :
    simpleEscape? (g.withForm form) = simpleEscape? g := by
  simp [simpleEscape?]

@[simp] theorem simpleTerminal?_withForm :
    simpleTerminal? (g.withForm form) = simpleTerminal? g := by
  simp [simpleTerminal?]

@[simp] theorem chars_withForm : chars (gs.map (withForm form)) = chars gs := by
  simp [chars, Function.comp_def]

/-! ## Long brackets and comments -/

theorem afterBracket?_withForm (bracket : Char) (level : Nat) (gs : List Glyph) :
    afterBracket? bracket level (gs.map (withForm form)) =
      (afterBracket? bracket level gs).map (List.map (withForm form)) := by
  fun_induction afterBracket? bracket level gs <;> simp_all [afterBracket?]

theorem openingLevel?_withForm (gs : List Glyph) :
    openingLevel? (gs.map (withForm form)) = openingLevel? gs := by
  cases gs with
  | nil => rfl
  | cons g gs =>
      simp [openingLevel?, List.takeWhile_map, Function.comp_def, afterBracket?_withForm]

theorem longBody?_withForm (level : Nat) (gs : List Glyph) (content : List UInt8) (size : Nat) :
    longBody? level (gs.map (withForm form)) content size = longBody? level gs content size := by
  induction gs generalizing content size with
  | nil => rfl
  | cons g gs ih => simp [longBody?, afterBracket?_withForm, ih]

theorem longBracket?_withForm (level : Nat) (gs : List Glyph) :
    longBracket? level (gs.map (withForm form)) = longBracket? level gs := by
  unfold longBracket?
  dsimp only
  rw [← List.map_drop]
  cases gs.drop (level + 2) with
  | nil => rfl
  | cons g rest =>
      simp only [List.map_cons]
      rw [Glyph.isBreak_withForm, longBody?_withForm, ← List.map_cons, longBody?_withForm]

/-- Skipping where no blank is in front: there is a comment to skip, or it is where to stop. -/
def skipSolid : List Glyph → Except Position (List Glyph)
  | d :: e :: rest =>
    if isChar '-' d && isChar '-' e then
      match openingLevel? rest with
      | some level =>
        match longBracket? level rest with
        | some (_, size) => skip (rest.drop size)
        | none => .error d.position
      | none => skip (rest.dropWhile fun g ↦ !g.isBreak)
    else .ok (d :: e :: rest)
  | rest => .ok rest

theorem skip_eq_skipSolid (gs : List Glyph) : skip gs = skipSolid (gs.dropWhile isBlank) := by
  rw [skip]
  cases gs.dropWhile isBlank with
  | nil => rfl
  | cons d gs => cases gs <;> rfl

theorem skip_withForm (gs : List Glyph) :
    skip (gs.map (withForm form)) = (skip gs).map (List.map (withForm form)) := by
  have hblank (gs : List Glyph) : (gs.map (withForm form)).dropWhile isBlank =
      (gs.dropWhile isBlank).map (withForm form) := by
    simp [List.dropWhile_map, Function.comp_def]
  rw [skip_eq_skipSolid, hblank]
  fun_induction skip gs with
  | case1 gs d e rest hdrop hdash level hlevel bytes size hbody ih =>
      rw [hdrop, ← ih, ← hblank, ← skip_eq_skipSolid]
      simp [skipSolid, hdash, hlevel, hbody, openingLevel?_withForm, longBracket?_withForm]
  | case2 gs d e rest hdrop hdash level hlevel hbody =>
      rw [hdrop]
      simp [skipSolid, hdash, hlevel, hbody, openingLevel?_withForm, longBracket?_withForm,
        Except.map]
  | case3 gs d e rest hdrop hdash hlevel ih =>
      rw [hdrop, ← ih, ← hblank, ← skip_eq_skipSolid]
      simp [skipSolid, hdash, hlevel, openingLevel?_withForm, List.dropWhile_map,
        Function.comp_def]
  | case4 gs d e rest hdrop hdash =>
      rw [hdrop]
      simp [skipSolid, hdash, Except.map]
  | case5 gs hshort =>
      cases hdrop : gs.dropWhile isBlank with
      | nil => rfl
      | cons d gs =>
          cases gs with
          | nil => rfl
          | cons e rest => exact (hshort d e rest hdrop).elim

/-! ## Tokens of many glyphs -/

/-- Glyphs of which none is a break are written in one way. -/
theorem stringBody_withForm (quote : UInt8) (gs : List Glyph) (content : List UInt8) (size : Nat) :
    stringBody quote (gs.map (withForm form)) content size = stringBody quote gs content size := by
  fun_induction stringBody quote gs content size <;>
    rw [stringBody.eq_def] <;>
    simp_all +zetaDelta [-UInt8.ofNat_add, -UInt8.ofNat_mul, Nat.not_lt_of_le]

theorem bracket_withForm (gs : List Glyph) : bracket (gs.map (withForm form)) = bracket gs := by
  simp [bracket, openingLevel?_withForm, longBracket?_withForm]

theorem word_withForm (gs : List Glyph) : word (gs.map (withForm form)) = word gs := by
  simp [word, List.takeWhile_map, Function.comp_def]

/-! ## Numbers

A malformed number is reported with the text that it is written with.  That is the same too, because
no glyph of a number is a break. -/

/-- None of the first `n` glyphs is a break. -/
def NoBreak (n : Nat) (gs : List Glyph) : Prop := ∀ g ∈ gs.take n, g.isBreak = false

theorem NoBreak.map_take {n : Nat} (h : NoBreak n gs) :
    (gs.map (withForm form)).take n = gs.take n := by
  rw [← List.map_take, List.map_congr_left fun g hg ↦ Glyph.withForm_of_not_break (h g hg),
    List.map_id']

theorem NoBreak.add {m n : Nat} (hm : NoBreak m gs) (hn : NoBreak n (gs.drop m)) :
    NoBreak (m + n) gs := by
  intro g hg
  rw [List.take_add] at hg
  exact (List.mem_append.1 hg).elim (hm g) (hn g)

theorem NoBreak.cons {n : Nat} (hg : g.isBreak = false) (h : NoBreak n gs) :
    NoBreak (n + 1) (g :: gs) := by
  rintro h' (_ | ⟨_, hmem⟩)
  · exact hg
  · exact h _ hmem

theorem NoBreak.takeWhile {p : Glyph → Bool} (hp : Solid p) (gs : List Glyph) :
    NoBreak (gs.takeWhile p).length gs := by
  intro g hg
  rw [← List.prefix_iff_eq_take.1 (List.takeWhile_prefix p)] at hg
  exact hp.isBreak (List.all_eq_true.1 List.all_takeWhile g hg)

theorem length_takeWhile_withForm {p : Glyph → Bool} (hp : ∀ g, p (g.withForm form) = p g)
    (gs : List Glyph) :
    ((gs.map (withForm form)).takeWhile p).length = (gs.takeWhile p).length := by
  rw [List.takeWhile_map, List.length_map, Function.comp_def, funext hp]

theorem numberOf_withForm {size : Nat} (h : NoBreak size gs) (value? : List Char → Option Float) :
    numberOf (gs.map (withForm form)) size value? = numberOf gs size value? := by
  unfold numberOf
  dsimp only
  rw [← List.map_drop, List.head?_map, Option.map_map, Function.comp_def,
    funext fun _ ↦ startsWord_withForm, length_takeWhile_withForm fun _ ↦ by simp]
  split
  · rw [(h.add (.takeWhile (Solid.isWord.or (.isChar (by decide))) _)).map_take]
  · rw [Nat.add_zero, h.map_take]

theorem exponentSize_withForm (gs : List Glyph) :
    exponentSize (gs.map (withForm form)) = exponentSize gs := by
  match gs with
  | [] => rfl
  | [g] => simp [exponentSize]
  | g :: s :: ds =>
      have hdigits (gs : List Glyph) : ((gs.map (withForm form)).takeWhile isDigit).length =
          (gs.takeWhile isDigit).length :=
        length_takeWhile_withForm (fun _ ↦ isDigit_withForm) gs
      simp only [List.map_cons, exponentSize, isChar_withForm]
      rw [hdigits, ← List.map_cons, hdigits]

theorem NoBreak.exponentSize (gs : List Glyph) : NoBreak (exponentSize gs) gs := by
  have digits (gs : List Glyph) : NoBreak (gs.takeWhile isDigit).length gs :=
    .takeWhile .isDigit gs
  fun_cases Lexer.exponentSize gs with
  | case1 => exact fun _ h ↦ nomatch h
  | case2 g hletter =>
      exact .cons (Solid.isExponent.isBreak hletter) fun _ h ↦ nomatch h
  | case3 g hletter s ds hsign =>
      rw [Nat.add_comm]
      exact .cons (Solid.isExponent.isBreak hletter)
        (.cons (Solid.isSign.isBreak hsign) (digits ds))
  | case4 g hletter s ds =>
      rw [Nat.add_comm]
      exact .cons (Solid.isExponent.isBreak hletter) (digits (s :: ds))
  | case5 => exact fun _ h ↦ nomatch h

theorem NoBreak.hexadecimal {z x : Glyph} {ds : List Glyph} (hz : isChar '0' z = true)
    (hx : isHexLetter x = true) :
    NoBreak (2 + (ds.takeWhile isHexDigit).length) (z :: x :: ds) := by
  rw [Nat.add_comm]
  exact .cons (Solid.isBreak (.isChar (c := '0') (by decide)) hz)
    (.cons (Solid.isHexLetter.isBreak hx) (.takeWhile .isHexDigit ds))

theorem number_withForm (gs : List Glyph) : number (gs.map (withForm form)) = number gs := by
  have hdecimal (gs : List Glyph) : NoBreak
      ((gs.takeWhile fun g ↦ isDigit g || isChar '.' g).length +
        exponentSize (gs.drop (gs.takeWhile fun g ↦ isDigit g || isChar '.' g).length)) gs :=
    .add (.takeWhile .isDigitOrPoint gs) (.exponentSize _)
  unfold number
  dsimp only
  rw [length_takeWhile_withForm (p := fun g ↦ isDigit g || isChar '.' g) fun _ ↦ by simp,
    ← List.map_drop, exponentSize_withForm, numberOf_withForm (hdecimal gs)]
  match gs with
  | [] | [_] => rfl
  | z :: x :: ds =>
      simp only [List.map_cons, isChar_withForm]
      split
      · next hprefix =>
        rw [Bool.and_eq_true] at hprefix
        rw [length_takeWhile_withForm fun _ ↦ isHexDigit_withForm, ← List.map_cons,
          ← List.map_cons, numberOf_withForm (.hexadecimal hprefix.1 hprefix.2)]
      · rfl

/-! ## One token -/

theorem oneOrTwo_withForm (c : Char) (long short : Terminal) (gs : List Glyph) :
    oneOrTwo c long short (gs.map (withForm form)) = oneOrTwo c long short gs := by
  simp [oneOrTwo, Function.comp_def]

theorem dots_withForm (gs : List Glyph) : dots (gs.map (withForm form)) = dots gs := by
  match gs with
  | [] | [_] => rfl
  | g :: d :: rest =>
      have hnumber : number (g.withForm form :: d.withForm form :: rest.map (withForm form)) =
          number (g :: d :: rest) := number_withForm (g :: d :: rest)
      simp [dots, hnumber, Function.comp_def]

/-- The form of the breaks matters to no token. -/
theorem scan_withForm (g : Glyph) (gs : List Glyph) :
    scan (g.withForm form) (gs.map (withForm form)) = scan g gs := by
  unfold scan
  rw [← List.map_cons]
  simp only [startsWord_withForm, isDigit_withForm, isChar_withForm, simpleTerminal?_withForm,
    Glyph.byte_withForm, word_withForm, number_withForm, stringBody_withForm, dots_withForm,
    oneOrTwo_withForm, bracket_withForm]
  simp [Function.comp_def]

end Lexer

/-! ## Whole sources -/

/-- What a lexeme is, and where. -/
def Lexeme.placed (l : Lexeme) : Except LexicalFault Token × Position := (l.outcome, l.position)

namespace Lexer

open Glyph (ReturnForm withForm)

variable {form : ReturnForm} {bs : List UInt8} {x y : Lexer}

/-- The glyphs left to the second lexer are those of the first with their breaks in another form. -/
structure InForm (form : ReturnForm) (x y : Lexer) : Prop where
  rest : y.rest = x.rest.map (withForm form)
  stop : y.stop = x.stop

/-- One lexeme is the same and at the same place, and so is what it leaves. -/
theorem InForm.next (h : InForm form x y) :
    y.next.1.placed = x.next.1.placed ∧ InForm form x.next.2 y.next.2 := by
  unfold Lexer.next
  rw [h.rest, h.stop, skip_withForm]
  match skip x.rest with
  | .error place => exact ⟨rfl, rfl, rfl⟩
  | .ok [] => exact ⟨rfl, rfl, rfl⟩
  | .ok (g :: gs) =>
      simp only [Except.map, List.map_cons, scan_withForm, Lexeme.placed, Glyph.position_withForm,
        true_and]
      exact ⟨by rw [← List.map_cons, List.map_drop], rfl⟩

theorem Goes.congr {l m : Lexeme} (h : m.placed = l.placed) (hl : Goes l) : Goes m := by
  obtain ⟨t, ho, ht⟩ := hl
  exact ⟨t, (congrArg Prod.fst h).trans ho, ht⟩

theorem Ends.congr {l m : Lexeme} (h : m.placed = l.placed) (hl : Ends l) : Ends m :=
  hl.imp (congrArg Prod.fst h).trans fun ⟨fault, ho⟩ ↦ ⟨fault, (congrArg Prod.fst h).trans ho⟩

theorem InForm.lexemes (h : InForm form x y) :
    y.lexemes.map Lexeme.placed = x.lexemes.map Lexeme.placed := by
  obtain ⟨k, hk⟩ : ∃ k, k = x.rest.length := ⟨_, rfl⟩
  induction k using Nat.strongRecOn generalizing x y with
  | _ k ih =>
      subst hk
      obtain ⟨hplaced, hnext⟩ := h.next
      rcases goes_or_ends x.next.1 with hgoes | hends
      · obtain ⟨t, ho, ht⟩ := hgoes
        rw [lexemes_of_goes ⟨t, ho, ht⟩, lexemes_of_goes (.congr hplaced ⟨t, ho, ht⟩),
          List.map_cons, List.map_cons, hplaced, ih _ (next_rest_lt ho ht) hnext rfl]
      · rw [lexemes_of_ends hends, lexemes_of_ends (.congr hplaced hends), List.map_singleton,
          List.map_singleton, hplaced]

/-- The bytes of a source without line feeds stay as they are. -/
theorem withBreaks_of_no_lineFeed (hbs : Glyph.lineFeed ∉ bs) : Source.withBreaks form bs = bs := by
  have hbyte : bs.map form.ofByte = bs.map fun b ↦ [b] :=
    List.map_congr_left fun b hb ↦ if_neg fun h : b = Glyph.lineFeed ↦ hbs (h ▸ hb)
  rw [Source.withBreaks, List.flatMap_def, hbyte, ← List.flatMap_def, List.flatMap_singleton']

/-- No glyph of a source with its breaks in another form is written with a line feed first. -/
theorem raw_head?_ne_lineFeed {g : Glyph} (hg : g.Plain) :
    (g.withForm form).raw.head? ≠ some Glyph.lineFeed := by
  cases hbreak : g.isBreak with
  | true =>
      rw [Glyph.raw_withForm_of_break hbreak]
      cases form <;> decide
  | false =>
      rw [Glyph.withForm_of_not_break hbreak, hg.raw, List.head?_cons, Ne, Option.some.injEq]
      exact ne_of_beq_false hbreak

/-- So nothing ends a first line that starts with `#`. -/
theorem ofBytes_withBreaks_of_hash (hbs : ∀ b ∈ bs, b ≠ Glyph.carriageReturn)
    (hfirst : bs.head? = some '#'.toUInt8) :
    ofBytes (Source.withBreaks form bs) = ⟨[], (Source.layOut bs).stop, ""⟩ := by
  have hbytes := Source.layOut_bytes hbs
  have hplain := Source.layOut_plain hbs
  rw [ofBytes, Source.layOut_withBreaks form hbs]
  cases hglyphs : (Source.layOut bs).glyphs with
  | nil => rfl
  | cons g gs =>
      rw [hglyphs] at hbytes hplain
      have hhash : isChar '#' g = true := by
        rw [← hbytes, List.map_cons, List.head?_cons, Option.some.injEq] at hfirst
        exact beq_iff_eq.2 hfirst
      have hdrop : (gs.map (withForm form)).dropWhile
          (fun g ↦ g.raw.head? != some Glyph.lineFeed) = [] := by
        simp only [List.dropWhile_eq_nil_iff, List.mem_map, bne_iff_ne]
        rintro _ ⟨g, hg, rfl⟩
        exact raw_head?_ne_lineFeed (hplain g (List.mem_cons_of_mem _ hg))
      simp only [List.map_cons, isChar_withForm, hhash, if_true, hdrop]

theorem lexemes_nil (stop : Position) (text : String) :
    (Lexer.mk [] stop text).lexemes.map Lexeme.placed = [(.ok .endOfInput, stop)] := by
  have hskip : skip [] = .ok [] := skip_eq_skipSolid []
  have hnext : (Lexer.mk [] stop text).next.1 = ⟨.ok .endOfInput, stop, Lexeme.endText⟩ := by
    simp only [next, hskip]
  rw [lexemes_of_ends (.inl (congrArg Lexeme.outcome hnext)), hnext]
  rfl

/-- Writing the breaks of a source in another form changes no token, fault or place, with one
exception: a first line that starts with `#` then has no end, and the source reads as empty. -/
theorem lexemes_withBreaks (form : ReturnForm) (hbs : ∀ b ∈ bs, b ≠ Glyph.carriageReturn) :
    (ofBytes (Source.withBreaks form bs)).lexemes.map Lexeme.placed =
      if bs.head? = some '#'.toUInt8 ∧ Glyph.lineFeed ∈ bs then
        [(.ok .endOfInput, (Source.layOut bs).stop)]
      else (ofBytes bs).lexemes.map Lexeme.placed := by
  split
  · next h => rw [ofBytes_withBreaks_of_hash hbs h.1, lexemes_nil]
  · next h =>
    by_cases hbreak : Glyph.lineFeed ∈ bs
    · have hhead := isChar_hash_head hbs fun hfirst ↦ h ⟨hfirst, hbreak⟩
      have hlayout := Source.layOut_withBreaks form hbs
      have hhead' : ∀ g ∈ (Source.layOut (Source.withBreaks form bs)).glyphs.head?,
          isChar '#' g = false := by
        rw [hlayout, List.head?_map]
        intro _ hmem
        obtain ⟨g, hg, rfl⟩ := Option.map_eq_some_iff.1 hmem
        rw [isChar_withForm, hhead g hg]
      rw [ofBytes_of_not_hash hhead', ofBytes_of_not_hash hhead, hlayout]
      exact InForm.lexemes ⟨rfl, rfl⟩
    · rw [withBreaks_of_no_lineFeed hbreak]

/-- The bytes of a comment, a string over two lines and a name. -/
def lines : List UInt8 := Text.bytes "--\n'\\\n' a"

/-- The bytes of a first line to leave out and a keyword on the second line. -/
def hashed : List UInt8 := Text.bytes "#\nreturn"

theorem lexemes_withBreaks_lines :
    (∀ b ∈ lines, b ≠ Glyph.carriageReturn) ∧
      (ofBytes (Source.withBreaks .pair lines)).lexemes.map Lexeme.placed =
        (ofBytes lines).lexemes.map Lexeme.placed := by
  have hbs : ∀ b ∈ lines, b ≠ Glyph.carriageReturn := by decide +kernel
  exact ⟨hbs, (lexemes_withBreaks .pair hbs).trans (if_neg (by decide))⟩

theorem lexemes_withBreaks_hashed :
    (∀ b ∈ hashed, b ≠ Glyph.carriageReturn) ∧
      (ofBytes (Source.withBreaks .pair hashed)).lexemes.map Lexeme.placed ≠
        (ofBytes hashed).lexemes.map Lexeme.placed := by
  refine ⟨by decide +kernel, fun h ↦ ?_⟩
  have hlength := congrArg List.length h
  have hpair :
      ((ofBytes (Source.withBreaks .pair hashed)).lexemes.map Lexeme.placed).length = 1 := by
    decide +kernel
  have hfeed : ((ofBytes hashed).lexemes.map Lexeme.placed).length = 2 := by
    decide +kernel
  rw [hpair, hfeed] at hlength
  exact absurd hlength (by decide)

end Lexer

end LuaEmbed
