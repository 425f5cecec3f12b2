import LuaEmbed.Proofs.Lexing.Sources

/-!
# Where tokens end

A scanner looks at the glyphs of its token and at what could go on with it, and a blank never does.
So a token that is set apart from what followed it in its source, by a blank or by the end, is read
as it was there.  How a glyph is written and where it stands play no part in this: two sources are
compared by what their glyphs count as.
-/

namespace LuaEmbed.Lexer

variable {p : Glyph → Bool} {g g' : Glyph} {gs gs' : List Glyph} {m n size level : Nat} {t : Token}

/-! ## Glyphs set apart -/

/-- The first `n` glyphs of one list begin the other, by what they count as, and there a blank or
nothing comes after them. -/
inductive Detached : Nat → List Glyph → List Glyph → Prop
  | here {gs gs' : List Glyph} (h : ∀ g ∈ gs'.head?, isBlank g = true) : Detached 0 gs gs'
  | more {n : Nat} {g g' : Glyph} {gs gs' : List Glyph} (hbyte : g'.byte = g.byte)
      (h : Detached n gs gs') : Detached (n + 1) (g :: gs) (g' :: gs')

/-- Whether the first of the glyphs is in a class. -/
def headIs (p : Glyph → Bool) (gs : List Glyph) : Bool := (gs.head?.map p).getD false

namespace Detached

theorem uncons (h : Detached n (g :: gs) gs') (hn : 0 < n) :
    ∃ g' rest, gs' = g' :: rest ∧ g'.byte = g.byte ∧ Detached (n - 1) gs rest := by
  cases h with
  | here => exact absurd hn (Nat.lt_irrefl 0)
  | more hbyte h => exact ⟨_, _, rfl, hbyte, h⟩

theorem drop (h : Detached n gs gs') (hm : m ≤ n) :
    Detached (n - m) (gs.drop m) (gs'.drop m) := by
  induction h generalizing m with
  | here h =>
      obtain rfl := Nat.le_zero.1 hm
      exact .here h
  | more hbyte h ih =>
      cases m with
      | zero => exact .more hbyte h
      | succ m =>
          rw [Nat.add_sub_add_right]
          exact ih (Nat.le_of_succ_le_succ hm)

theorem map_take (h : Detached n gs gs') (hm : m ≤ n) :
    (gs'.take m).map Glyph.byte = (gs.take m).map Glyph.byte := by
  induction h generalizing m with
  | here =>
      obtain rfl := Nat.le_zero.1 hm
      rfl
  | more hbyte h ih =>
      cases m with
      | zero => rfl
      | succ m =>
          rw [List.take_succ_cons, List.take_succ_cons, List.map_cons, List.map_cons, hbyte,
            ih (Nat.le_of_succ_le_succ hm)]

theorem chars_take (h : Detached n gs gs') (hm : m ≤ n) :
    chars (gs'.take m) = chars (gs.take m) := by
  rw [chars_eq_shown, h.map_take hm, ← chars_eq_shown]

theorem headIs_pos (h : Detached n gs gs') (hn : 0 < n) (hp : Solid p) :
    headIs p gs' = headIs p gs := by
  cases h with
  | here => exact absurd hn (Nat.lt_irrefl 0)
  | more hbyte => exact hp.byte hbyte

/-- What comes next in the new place does so in the old one, and is one of the `n` glyphs. -/
theorem headIs_of (h : Detached n gs gs') (hp : Solid p) (hhead : headIs p gs' = true) :
    0 < n ∧ headIs p gs = true := by
  cases h with
  | here h =>
      cases gs' with
      | nil => cases hhead
      | cons g gs' => exact absurd hhead (Bool.eq_false_iff.1 (hp.blank (h g rfl)))
  | more hbyte => exact ⟨Nat.succ_pos _, (hp.byte hbyte).symm.trans hhead⟩

theorem headIs_false (h : Detached n gs gs') (hp : Solid p) (hhead : headIs p gs = false) :
    headIs p gs' = false :=
  Bool.eq_false_iff.2 fun hnext ↦ absurd (h.headIs_of hp hnext).2 (Bool.eq_false_iff.1 hhead)

theorem length_takeWhile (h : Detached n gs gs') (hp : Solid p)
    (hle : (gs.takeWhile p).length ≤ n) :
    (gs'.takeWhile p).length = (gs.takeWhile p).length := by
  induction h with
  | @here gs gs' hblank =>
      rw [Nat.le_zero.1 hle]
      cases gs' with
      | nil => rfl
      | cons g gs' => rw [List.takeWhile_cons, hp.blank (hblank g rfl)]; rfl
  | @more n g g' gs gs' hbyte h ih =>
      rw [List.takeWhile_cons] at hle
      rw [List.takeWhile_cons, List.takeWhile_cons, hp.byte hbyte]
      cases hg : p g with
      | false => rfl
      | true =>
          rw [hg] at hle
          exact congrArg Nat.succ (ih (Nat.le_of_succ_le_succ hle))

end Detached

theorem takeWhile_eq_take (p : Glyph → Bool) (gs : List Glyph) :
    gs.takeWhile p = gs.take (gs.takeWhile p).length :=
  List.prefix_iff_eq_take.1 (List.takeWhile_prefix p)

/-! ## Words and numbers -/

theorem size_word (gs : List Glyph) : (word gs).size = (gs.takeWhile isWord).length := by
  unfold word
  dsimp only
  split <;> rfl

theorem Detached.word_eq (h : Detached n gs gs') (hword : word gs = ⟨.ok t, n⟩) :
    word gs' = ⟨.ok t, n⟩ := by
  have hsize : (gs.takeWhile isWord).length = n := by rw [← size_word, hword]
  have hsize' := h.length_takeWhile .isWord (Nat.le_of_eq hsize)
  have hchars : chars (gs'.takeWhile isWord) = chars (gs.takeWhile isWord) := by
    rw [takeWhile_eq_take, hsize', h.chars_take (Nat.le_of_eq hsize), ← takeWhile_eq_take]
  rw [← hword, word, word, hchars, hsize']

/-- A number is read if no word starts behind it and its characters denote one. -/
theorem numberOf_eq_ok_iff {value? : List Char → Option Float} :
    numberOf gs size value? = ⟨.ok t, n⟩ ↔
      size = n ∧ headIs startsWord (gs.drop size) = false ∧
        ∃ x, value? (chars (gs.take size)) = some x ∧ t = .number x := by
  have hexcess : (if ((gs.drop size).head?.map startsWord).getD false = true then
      ((gs.drop size).takeWhile fun g ↦ isWord g || isChar '.' g).length else 0) = 0 ↔
        headIs startsWord (gs.drop size) = false := by
    cases gs.drop size with
    | nil => simp [headIs]
    | cons g rest => cases hg : startsWord g <;> simp [headIs, isWord, hg]
  unfold numberOf
  dsimp only
  generalize (if ((gs.drop size).head?.map startsWord).getD false = true then _ else 0) = excess
    at hexcess ⊢
  rw [← hexcess]
  cases excess with
  | zero => cases value? (chars (gs.take size)) <;> simp [and_comm, eq_comm]
  | succ excess => simp

theorem Detached.numberOf_eq {value? : List Char → Option Float} (h : Detached n gs gs')
    (hnumber : numberOf gs n value? = ⟨.ok t, n⟩) : numberOf gs' n value? = ⟨.ok t, n⟩ := by
  obtain ⟨-, hhead, hvalue⟩ := numberOf_eq_ok_iff.1 hnumber
  refine numberOf_eq_ok_iff.2 ⟨rfl, (h.drop (Nat.le_refl n)).headIs_false .startsWord hhead, ?_⟩
  rwa [h.chars_take (Nat.le_refl n)]

theorem exponentSize_split (gs : List Glyph) : exponentSize gs =
    if headIs isExponent gs then
      if headIs isSign (gs.drop 1) then 2 + ((gs.drop 2).takeWhile isDigit).length
      else 1 + ((gs.drop 1).takeWhile isDigit).length
    else 0 := by
  match gs with
  | [] => rfl
  | [_] => rfl
  | _ :: _ :: _ => rfl

theorem Detached.exponentSize_eq (h : Detached n gs gs') (hle : exponentSize gs ≤ n) :
    exponentSize gs' = exponentSize gs := by
  rw [exponentSize_split] at hle
  rw [exponentSize_split, exponentSize_split]
  cases hletter : headIs isExponent gs with
  | false => simp only [h.headIs_false .isExponent hletter, Bool.false_eq_true, if_false]
  | true =>
      rw [if_pos hletter] at hle
      have hn : 1 ≤ n := by split at hle <;> omega
      have hletter' := (h.headIs_pos hn .isExponent).trans hletter
      rw [if_pos hletter', if_pos rfl]
      cases hsign : headIs isSign (gs.drop 1) with
      | false =>
          rw [hsign, if_neg Bool.false_ne_true] at hle
          have hsign' := (h.drop hn).headIs_false .isSign hsign
          have hdigits := (h.drop hn).length_takeWhile .isDigit (by omega)
          simp only [hsign', hdigits, Bool.false_eq_true, if_false]
      | true =>
          rw [if_pos hsign] at hle
          have hsign' := ((h.drop hn).headIs_pos (by omega) .isSign).trans hsign
          have hdigits := (h.drop (m := 2) (by omega)).length_takeWhile .isDigit (by omega)
          simp only [hsign', hdigits, if_true]

theorem number_split (gs : List Glyph) : number gs =
    if headIs (isChar '0') gs && headIs isHexLetter (gs.drop 1) then
      numberOf gs (2 + ((gs.drop 2).takeWhile isHexDigit).length) fun cs ↦
        Number.hexadecimal64? (cs.drop 2)
    else
      numberOf gs ((gs.takeWhile isDigitOrPoint).length +
        exponentSize (gs.drop (gs.takeWhile isDigitOrPoint).length)) Number.decimal? := by
  match gs with
  | [] => rfl
  | [g] => exact (if_neg (Bool.eq_false_iff.1 (Bool.and_false _))).symm
  | z :: x :: ds => rfl

theorem Detached.number_eq (h : Detached n gs gs') (hnumber : number gs = ⟨.ok t, n⟩) :
    number gs' = ⟨.ok t, n⟩ := by
  rw [number_split] at hnumber ⊢
  split at hnumber
  · next hhex =>
    obtain ⟨hzero, hletter⟩ := Bool.and_eq_true_iff.1 hhex
    have hsize := (numberOf_eq_ok_iff.1 hnumber).1
    have hdigits := (h.drop (m := 2) (by omega)).length_takeWhile .isHexDigit (by omega)
    rw [h.headIs_pos (by omega) (.isChar (by decide)), hzero,
      (h.drop (m := 1) (by omega)).headIs_pos (by omega) .isHexLetter, hletter, hdigits, hsize]
    rw [hsize] at hnumber
    exact h.numberOf_eq hnumber
  · next hhex =>
    have hsize := (numberOf_eq_ok_iff.1 hnumber).1
    have hpoint := h.length_takeWhile .isDigitOrPoint (by omega)
    have hexponent := (h.drop (m := (gs.takeWhile isDigitOrPoint).length) (by omega)).exponentSize_eq
      (by omega)
    have hhex' : (headIs (isChar '0') gs' && headIs isHexLetter (gs'.drop 1)) = false := by
      refine Bool.eq_false_iff.2 fun hboth ↦ hhex ?_
      obtain ⟨hzero, hletter⟩ := Bool.and_eq_true_iff.1 hboth
      obtain ⟨hn, hzero⟩ := h.headIs_of (.isChar (by decide)) hzero
      rw [hzero, ((h.drop hn).headIs_of .isHexLetter hletter).2]
      rfl
    rw [hhex', if_neg Bool.false_ne_true, hpoint, hexponent, hsize]
    rw [hsize] at hnumber
    exact h.numberOf_eq hnumber

/-! ## Strings -/

/-- A string that is read ends in a quote. -/
theorem lt_size_of_stringBody {quote : UInt8} {content : List UInt8}
    (h : (stringBody quote gs content size).outcome = .ok t) :
    size < (stringBody quote gs content size).size := by
  fun_induction stringBody quote gs content size <;> grind

theorem lt_of_stringBody {quote : UInt8} {content : List UInt8}
    (h : stringBody quote gs content (size + m) = ⟨.ok t, size + n⟩) : m < n := by
  have hlt := lt_size_of_stringBody (congrArg Scan.outcome h)
  rw [h] at hlt
  exact Nat.lt_of_add_lt_add_left hlt

theorem Detached.stringBody_eq {quote : UInt8} {content : List UInt8} (h : Detached n gs gs')
    (hbody : stringBody quote gs content size = ⟨.ok t, size + n⟩) :
    stringBody quote gs' content size = ⟨.ok t, size + n⟩ := by
  fun_induction stringBody quote gs content size generalizing n gs' with
  | case1 | case2 | case4 | case6 | case7 | case8 | case12 => cases hbody
  | case3 g gs content size hbreak hquote =>
      obtain rfl : 1 = n := Nat.add_left_cancel (congrArg Scan.size hbody)
      obtain ⟨g', rest, rfl, hg, -⟩ := h.uncons Nat.one_pos
      rw [stringBody.eq_def]
      simp only [isBreak_congr hg, hg, hbreak, hquote]
      exact hbody
  | case5 g content size hbreak hquote hescape e gs b hsimple ih =>
      have hn := lt_of_stringBody hbody
      obtain ⟨g', _, rfl, hg, h⟩ := h.uncons (by omega)
      obtain ⟨e', rest, rfl, he, h⟩ := h.uncons (by omega)
      have hsize : size + n = size + 2 + (n - 1 - 1) := by omega
      rw [hsize] at hbody ⊢
      rw [stringBody.eq_def]
      simp only [isBreak_congr hg, isChar_congr hg, hg, hbreak, hquote, hescape,
        simpleEscape?_congr he, hsimple]
      exact ih h hbody
  | case9 g content size hbreak hquote hescape e hsimple he f hf d gs hd value hle =>
      rename_i ih
      have hbyte : ¬255 < digit e * 100 + digit f * 10 + digit d := hle
      have hn := lt_of_stringBody hbody
      obtain ⟨g', _, rfl, hg, h⟩ := h.uncons (by omega)
      obtain ⟨e', _, rfl, he', h⟩ := h.uncons (by omega)
      obtain ⟨f', _, rfl, hf', h⟩ := h.uncons (by omega)
      obtain ⟨d', rest, rfl, hd', h⟩ := h.uncons (by omega)
      have hsize : size + n = size + 4 + (n - 1 - 1 - 1 - 1) := by omega
      rw [hsize] at hbody ⊢
      rw [stringBody.eq_def]
      simp only [isBreak_congr hg, isChar_congr hg, hg, hbreak, hquote, hescape,
        simpleEscape?_congr he', hsimple, isDigit_congr he', he, isDigit_congr hf', hf,
        isDigit_congr hd', hd, digit_congr he', digit_congr hf', digit_congr hd', hbyte]
      exact ih h hbody
  | case10 g content size hbreak hquote hescape e hsimple he f hf d gs hd ih =>
      have hn := lt_of_stringBody hbody
      obtain ⟨g', _, rfl, hg, h⟩ := h.uncons (by omega)
      obtain ⟨e', _, rfl, he', h⟩ := h.uncons (by omega)
      obtain ⟨f', _, rfl, hf', h⟩ := h.uncons (by omega)
      obtain ⟨d', rest, rfl, hd', -⟩ := h.uncons (by omega)
      have hsize : size + n = size + 3 + (n - 1 - 1 - 1) := by omega
      rw [hsize] at hbody ⊢
      rw [stringBody.eq_def]
      simp only [isBreak_congr hg, isChar_congr hg, hg, hbreak, hquote, hescape,
        simpleEscape?_congr he', hsimple, isDigit_congr he', he, isDigit_congr hf', hf,
        isDigit_congr hd', hd, digit_congr he', digit_congr hf']
      exact ih h hbody
  | case11 g content size hbreak hquote hescape e hsimple he f gs hf ih =>
      -- The glyph that ends the digits is read again, so it is set apart together with the rest.
      have hn := lt_of_stringBody hbody
      obtain ⟨g', _, rfl, hg, h⟩ := h.uncons (by omega)
      obtain ⟨e', _, rfl, he', h⟩ := h.uncons (by omega)
      obtain ⟨f', rest, rfl, hf', -⟩ := h.uncons (by omega)
      have hsize : size + n = size + 2 + (n - 1 - 1) := by omega
      rw [hsize] at hbody ⊢
      rw [stringBody.eq_def]
      simp only [isBreak_congr hg, isChar_congr hg, hg, hbreak, hquote, hescape,
        simpleEscape?_congr he', hsimple, isDigit_congr he', he, isDigit_congr hf', hf,
        digit_congr he']
      exact ih h hbody
  | case13 g gs content size hbreak hquote hescape ih =>
      have hn := lt_of_stringBody hbody
      obtain ⟨g', rest, rfl, hg, h⟩ := h.uncons (by omega)
      have hsize : size + n = size + 1 + (n - 1) := by omega
      rw [hsize] at hbody ⊢
      rw [stringBody.eq_def]
      simp only [isBreak_congr hg, isChar_congr hg, hg, hbreak, hquote, hescape]
      exact ih h hbody

/-! ## Long brackets -/

theorem Detached.afterBracket?_isSome (bracket : Char) (h : Detached n gs gs')
    (hle : level + 1 ≤ n) :
    (afterBracket? bracket level gs').isSome = (afterBracket? bracket level gs).isSome := by
  induction level generalizing n gs gs' with
  | zero =>
      cases h with
      | here => omega
      | more hbyte => simp [afterBracket?, isChar_congr hbyte, apply_ite]
  | succ level ih =>
      cases h with
      | here => omega
      | more hbyte h => simp [afterBracket?, isChar_congr hbyte, apply_ite, ih h (by omega)]

theorem Detached.openingLevel?_eq (h : Detached n gs gs') (hlevel : openingLevel? gs = some level)
    (hle : level + 2 ≤ n) : openingLevel? gs' = some level := by
  cases h with
  | here => omega
  | @more n g g' gs gs' hbyte h =>
      rw [openingLevel?] at hlevel ⊢
      split at hlevel
      · next hbracket =>
        obtain ⟨rest, hafter, rfl⟩ := Option.map_eq_some_iff.1 hlevel
        have hequals : Solid (isChar '=') := .isChar (by decide)
        have hlength := h.length_takeWhile hequals (by omega)
        have hsome := h.afterBracket?_isSome '[' (Nat.le_of_succ_le_succ hle)
        rw [hafter, Option.isSome_some] at hsome
        obtain ⟨rest', hafter'⟩ := Option.isSome_iff_exists.1 hsome
        rw [if_pos ((isChar_congr hbyte _).trans hbracket), hlength]
        dsimp only
        rw [hafter', Option.map_some]
      · cases hlevel

/-- A bracket that is set apart alone opens no long one. -/
theorem Detached.openingLevel?_eq_none (h : Detached 1 gs gs') : openingLevel? gs' = none := by
  cases h with
  | @more n g g' gs gs' hbyte h =>
      cases h with
      | here hblank =>
          cases gs' with
          | nil => simp [openingLevel?, afterBracket?]
          | cons b gs' =>
              have hb := hblank b rfl
              have hequals : isChar '=' b = false := Solid.blank (.isChar (by decide)) hb
              have hbracket : isChar '[' b = false := Solid.blank (.isChar (by decide)) hb
              simp [openingLevel?, afterBracket?, hequals, hbracket]

/-- What a long bracket of the given level encloses is followed by the bracket that closes it. -/
theorem le_size_longBody {content bytes : List UInt8}
    (h : longBody? level gs content size = some (bytes, m)) : size + level + 2 ≤ m := by
  induction gs generalizing content size with
  | nil => cases h
  | cons g gs ih =>
      rw [longBody?] at h
      split at h
      · exact Nat.le_of_eq (Prod.mk.inj (Option.some.inj h)).2
      · have hle := ih h
        omega

theorem Detached.longBody?_eq {content bytes : List UInt8} (h : Detached n gs gs')
    (hbody : longBody? level gs content size = some (bytes, size + n)) :
    longBody? level gs' content size = some (bytes, size + n) := by
  induction gs generalizing n gs' content size with
  | nil => cases hbody
  | cons g gs ih =>
      have hle := le_size_longBody hbody
      obtain ⟨g', rest, rfl, hbyte, h⟩ := h.uncons (by omega)
      have hafter : (afterBracket? ']' level rest).isSome = (afterBracket? ']' level gs).isSome :=
        h.afterBracket?_isSome ']' (by omega)
      rw [longBody?] at hbody ⊢
      rw [isChar_congr hbyte, hafter]
      split at hbody
      · next hclosing => rw [if_pos hclosing, hbody]
      · next hclosing =>
        have hsize : size + n = size + 1 + (n - 1) := by omega
        rw [hsize] at hbody ⊢
        rw [if_neg hclosing, hbyte]
        exact ih h hbody

theorem Detached.longBracket?_eq {bytes : List UInt8} (h : Detached n gs gs')
    (hbracket : longBracket? level gs = some (bytes, n)) :
    level + 2 ≤ n ∧ longBracket? level gs' = some (bytes, n) := by
  unfold longBracket? at hbracket ⊢
  dsimp only at hbracket ⊢
  cases hdrop : gs.drop (level + 2) with
  | nil =>
      rw [hdrop] at hbracket
      cases hbracket
  | cons g rest =>
      rw [hdrop] at hbracket
      dsimp only at hbracket
      have hle : level + 2 < n := by
        split at hbracket <;> have hle := le_size_longBody hbracket <;> omega
      have hrest := h.drop (Nat.le_of_lt hle)
      rw [hdrop] at hrest
      obtain ⟨g', rest', hdrop', hbyte, hrest'⟩ := hrest.uncons (by omega)
      rw [hdrop']
      dsimp only
      rw [isBreak_congr hbyte]
      refine ⟨Nat.le_of_lt hle, ?_⟩
      split at hbracket
      · next hbreak =>
        have hsize : n = level + 2 + 1 + (n - (level + 2) - 1) := by omega
        rw [if_pos hbreak, hsize]
        exact hrest'.longBody?_eq (hsize ▸ hbracket)
      · next hbreak =>
        have hsize : n = level + 2 + (n - (level + 2)) := by omega
        rw [if_neg hbreak, ← hdrop', hsize]
        rw [← hdrop] at hbracket
        exact (h.drop (Nat.le_of_lt hle)).longBody?_eq (hsize ▸ hbracket)

/-! ## One token -/

theorem two_le_of_number {d : Glyph} (hg : isDigitOrPoint g = true) (hd : isDigitOrPoint d = true)
    (h : number (g :: d :: gs) = ⟨.ok t, n⟩) : 2 ≤ n := by
  rw [number_split] at h
  split at h
  · have hsize := (numberOf_eq_ok_iff.1 h).1
    omega
  · have hsize := (numberOf_eq_ok_iff.1 h).1
    rw [List.takeWhile_cons, hg, if_pos rfl, List.takeWhile_cons, hd, if_pos rfl] at hsize
    simp only [List.length_cons] at hsize
    omega

theorem dots_split (g : Glyph) (gs : List Glyph) : dots (g :: gs) =
    if headIs (isChar '.') gs then
      if headIs (isChar '.') (gs.drop 1) then terminal .ellipsis 3 else terminal .concat 2
    else if headIs isDigit gs then number (g :: gs)
    else terminal .dot 1 := by
  cases gs <;> rfl

theorem Detached.dots_eq (hg : isChar '.' g = true) (hbyte : g'.byte = g.byte)
    (h : Detached n gs gs') (hdots : dots (g :: gs) = ⟨.ok t, n + 1⟩) :
    dots (g' :: gs') = ⟨.ok t, n + 1⟩ := by
  have hpoint : Solid (isChar '.') := .isChar (by decide)
  rw [dots_split] at hdots ⊢
  cases hsecond : headIs (isChar '.') gs with
  | true =>
      rw [if_pos hsecond] at hdots
      split at hdots
      · next hthird =>
        obtain rfl : 2 = n := Nat.succ.inj (congrArg Scan.size hdots)
        have hsecond' := (h.headIs_pos (by decide) hpoint).trans hsecond
        have hthird' := ((h.drop (m := 1) (by decide)).headIs_pos Nat.one_pos hpoint).trans hthird
        rw [if_pos hsecond', if_pos hthird']
        exact hdots
      · next hthird =>
        obtain rfl : 1 = n := Nat.succ.inj (congrArg Scan.size hdots)
        have hsecond' := (h.headIs_pos Nat.one_pos hpoint).trans hsecond
        have hthird' := (h.drop (Nat.le_refl 1)).headIs_false hpoint (Bool.eq_false_iff.2 hthird)
        rw [if_pos hsecond', hthird']
        exact hdots
  | false =>
      rw [hsecond, if_neg Bool.false_ne_true] at hdots
      rw [h.headIs_false hpoint hsecond, if_neg Bool.false_ne_true]
      split at hdots
      · next hdigit =>
        have hn : 1 ≤ n := by
          cases gs with
          | nil => cases hdigit
          | cons d gs =>
              have hd : isDigit d = true := hdigit
              have htwo := two_le_of_number (by rw [isDigitOrPoint, hg, Bool.or_true])
                (by rw [isDigitOrPoint, hd, Bool.true_or]) hdots
              omega
        rw [if_pos ((h.headIs_pos hn .isDigit).trans hdigit)]
        exact (Detached.more hbyte h).number_eq hdots
      · next hdigit =>
        rw [h.headIs_false .isDigit (Bool.eq_false_iff.2 hdigit)]
        exact hdots

theorem Detached.oneOrTwo_eq {c : Char} (hc : Text.isBlankByte c.toUInt8 = false)
    {long short : Terminal} (h : Detached n gs gs')
    (hscan : oneOrTwo c long short gs = ⟨.ok t, n + 1⟩) :
    oneOrTwo c long short gs' = ⟨.ok t, n + 1⟩ := by
  unfold oneOrTwo at hscan ⊢
  change (if headIs (isChar c) gs = true then _ else _) = _ at hscan
  change (if headIs (isChar c) gs' = true then _ else _) = _
  split at hscan
  · next hsecond =>
    obtain rfl : 1 = n := Nat.succ.inj (congrArg Scan.size hscan)
    rw [h.headIs_pos Nat.one_pos (.isChar hc), hsecond]
    exact hscan
  · next hsecond =>
    rw [h.headIs_false (.isChar hc) (Bool.eq_false_iff.2 hsecond)]
    exact hscan

theorem Detached.bracket_eq (h : Detached n gs gs') (hbracket : bracket gs = ⟨.ok t, n⟩) :
    bracket gs' = ⟨.ok t, n⟩ := by
  unfold bracket at hbracket ⊢
  split at hbracket
  · next level hlevel =>
    split at hbracket
    · next content size hcontent =>
      obtain rfl : size = n := congrArg Scan.size hbracket
      obtain ⟨hle, hcontent'⟩ := h.longBracket?_eq hcontent
      rw [h.openingLevel?_eq hlevel hle]
      dsimp only
      rw [hcontent']
      exact hbracket
    · cases hbracket
  · obtain rfl : 1 = n := congrArg Scan.size hbracket
    rw [h.openingLevel?_eq_none]
    exact hbracket

/-- A token that is set apart from what followed it is read as it was. -/
theorem Detached.scan_eq (h : Detached n (g :: gs) (g' :: gs')) (hscan : scan g gs = ⟨.ok t, n⟩) :
    scan g' gs' = ⟨.ok t, n⟩ := by
  have hpos := scan_size_pos g gs
  rw [hscan] at hpos
  have hwhole := h
  cases h with
  | here => exact absurd hpos (Nat.lt_irrefl 0)
  | @more n _ _ _ _ hbyte h =>
      unfold scan at hscan ⊢
      simp only [Solid.startsWord.byte hbyte, isDigit_congr hbyte, simpleTerminal?_congr hbyte,
        isChar_congr hbyte, hbyte]
      split at hscan
      · next hword => rw [if_pos hword]; exact hwhole.word_eq hscan
      next hword =>
      rw [if_neg hword]
      split at hscan
      · next hdigit => rw [if_pos hdigit]; exact hwhole.number_eq hscan
      next hdigit =>
      rw [if_neg hdigit]
      split at hscan
      · exact hscan
      split at hscan
      · next hquote =>
        rw [if_pos hquote]
        rw [Nat.add_comm] at hscan ⊢
        exact h.stringBody_eq hscan
      next hquote =>
      rw [if_neg hquote]
      split at hscan
      · next hpoint => rw [if_pos hpoint]; exact h.dots_eq hpoint hbyte hscan
      next hpoint =>
      rw [if_neg hpoint]
      split at hscan
      · next hequals => rw [if_pos hequals]; exact h.oneOrTwo_eq (by decide) hscan
      next hequals =>
      rw [if_neg hequals]
      split at hscan
      · next hless => rw [if_pos hless]; exact h.oneOrTwo_eq (by decide) hscan
      next hless =>
      rw [if_neg hless]
      split at hscan
      · next hgreater => rw [if_pos hgreater]; exact h.oneOrTwo_eq (by decide) hscan
      next hgreater =>
      rw [if_neg hgreater]
      split at hscan
      · next hbracket => rw [if_pos hbracket]; exact hwhole.bracket_eq hscan
      next hbracket =>
      rw [if_neg hbracket]
      split at hscan
      · next htilde =>
        obtain rfl : 1 = n := Nat.succ.inj (congrArg Scan.size hscan)
        obtain ⟨hfirst, hsecond⟩ := Bool.and_eq_true_iff.1 htilde
        have hsecond' := (h.headIs_pos Nat.one_pos (.isChar (by decide))).trans hsecond
        exact (if_pos (Bool.and_eq_true_iff.2 ⟨hfirst, hsecond'⟩)).trans hscan
      · cases hscan

end LuaEmbed.Lexer
