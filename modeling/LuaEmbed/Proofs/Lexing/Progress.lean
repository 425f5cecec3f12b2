import LuaEmbed.Token.Lexer

/-!
# Progress of the lexer

Reading a lexeme that is neither the end of input nor behind a comment without end takes at least
one glyph, and no more glyphs than there are.  So the bound that `Lexer.lexemes` puts on the number of
lexemes is never met: the lexemes of a source are tokens up to one last lexeme, which is the end of
input or a fault.
-/

namespace LuaEmbed.Lexer

variable {gs rest : List Glyph} {g : Glyph}

/-! ## One token takes a glyph -/

theorem le_size_numberOf (size : Nat) (value? : List Char → Option Float) :
    size ≤ (numberOf gs size value?).size := by
  unfold numberOf
  dsimp only
  generalize (if ((gs.drop size).head?.map startsWord).getD false = true then _ else 0) = excess
  split
  · exact Nat.le_add_right _ _
  · split <;> exact Nat.le_refl _

theorem takeWhile_cons_length_pos {p : Glyph → Bool} (h : p g = true) :
    0 < ((g :: gs).takeWhile p).length := by
  rw [List.takeWhile_cons, if_pos h]
  exact Nat.succ_pos _

theorem number_size_pos (h : isDigit g = true ∨ isChar '.' g = true) :
    0 < (number (g :: gs)).size := by
  have hstart : (isDigit g || isChar '.' g) = true := by rwa [Bool.or_eq_true]
  have decimal : 0 < (numberOf (g :: gs)
      (((g :: gs).takeWhile fun g => isDigit g || isChar '.' g).length +
        exponentSize ((g :: gs).drop
          ((g :: gs).takeWhile fun g => isDigit g || isChar '.' g).length))
      Number.decimal?).size := by
    refine Nat.lt_of_lt_of_le ?_ (le_size_numberOf _ _)
    exact Nat.lt_of_lt_of_le (takeWhile_cons_length_pos hstart) (Nat.le_add_right _ _)
  cases gs with
  | nil => exact decimal
  | cons x ds =>
      rw [number]
      split
      · refine Nat.lt_of_lt_of_le ?_ (le_size_numberOf _ _)
        omega
      · exact decimal

theorem le_size_stringBody (quote : UInt8) (gs : List Glyph) (content : List UInt8) (size : Nat) :
    size ≤ (stringBody quote gs content size).size := by
  fun_induction stringBody quote gs content size <;> first
    | exact Nat.le_refl _
    | exact Nat.le_add_right _ _
    | omega

theorem longBody_size {level size m : Nat} {content bytes : List UInt8}
    (h : longBody? level gs content size = some (bytes, m)) : size < m := by
  induction gs generalizing content size with
  | nil => exact nomatch h
  | cons g gs ih =>
      rw [longBody?] at h
      split at h
      · obtain ⟨_, rfl⟩ := Prod.mk.inj (Option.some.inj h)
        omega
      · exact Nat.lt_of_succ_lt (ih h)

theorem longBracket_size_pos {level m : Nat} {bytes : List UInt8}
    (h : longBracket? level gs = some (bytes, m)) : 0 < m := by
  unfold longBracket? at h
  dsimp only at h
  split at h
  · exact nomatch h
  · split at h
    · exact Nat.zero_lt_of_lt (longBody_size h)
    · exact Nat.zero_lt_of_lt (longBody_size h)

theorem dots_size_pos (h : isChar '.' g = true) : 0 < (dots (g :: gs)).size := by
  unfold dots
  split
  · next _ d ds heq =>
    obtain ⟨rfl, rfl⟩ := List.cons.inj heq
    split
    · split <;> exact Nat.succ_pos _
    · split
      · exact number_size_pos (.inr h)
      · exact Nat.one_pos
  · exact Nat.one_pos

theorem bracket_size_pos : 0 < (bracket (g :: gs)).size := by
  unfold bracket
  split
  · split
    · next h => exact longBracket_size_pos h
    · exact Nat.succ_pos _
  · exact Nat.one_pos

theorem word_size_pos (h : startsWord g = true) : 0 < (word (g :: gs)).size := by
  have hword : isWord g = true := by rw [isWord, h, Bool.true_or]
  unfold word
  dsimp only
  split <;> exact takeWhile_cons_length_pos hword

theorem oneOrTwo_size_pos {c : Char} {long short : Terminal} :
    0 < (oneOrTwo c long short gs).size := by
  unfold oneOrTwo
  split <;> exact Nat.succ_pos _

/-- A token or a fault takes at least the glyph that it starts with. -/
theorem scan_size_pos (g : Glyph) (gs : List Glyph) : 0 < (scan g gs).size := by
  unfold scan
  split
  · next h => exact word_size_pos h
  split
  · next h => exact number_size_pos (.inl h)
  split
  · exact Nat.one_pos
  split
  · exact Nat.lt_of_lt_of_le Nat.one_pos (le_size_stringBody _ _ _ _)
  split
  · next h => exact dots_size_pos h
  split
  · exact oneOrTwo_size_pos
  split
  · exact oneOrTwo_size_pos
  split
  · exact oneOrTwo_size_pos
  split
  · exact bracket_size_pos
  split <;> exact Nat.succ_pos _

/-! ## One token takes no more glyphs than there are -/

theorem size_numberOf_le {size : Nat} (h : size ≤ gs.length) (value? : List Char → Option Float) :
    (numberOf gs size value?).size ≤ gs.length := by
  have hexcess : (if ((gs.drop size).head?.map startsWord).getD false = true then
      ((gs.drop size).takeWhile fun g ↦ isWord g || isChar '.' g).length else 0) ≤
        gs.length - size := by
    split
    · exact Nat.le_trans (List.takeWhile_prefix _).length_le (Nat.le_of_eq List.length_drop)
    · exact Nat.zero_le _
  unfold numberOf
  dsimp only
  generalize (if ((gs.drop size).head?.map startsWord).getD false = true then _ else 0) = excess
    at hexcess ⊢
  split
  · exact Nat.add_le_of_le_sub' h hexcess
  · split <;> exact h

theorem exponentSize_le (gs : List Glyph) : exponentSize gs ≤ gs.length := by
  match gs with
  | [] => exact Nat.le_refl 0
  | [g] =>
      rw [exponentSize]
      split <;> simp
  | g :: s :: ds =>
      have hdigits := (List.takeWhile_prefix isDigit (l := ds)).length_le
      have hdigits' := (List.takeWhile_prefix isDigit (l := s :: ds)).length_le
      simp only [exponentSize, List.length_cons] at hdigits' ⊢
      split
      · split <;> omega
      · omega

theorem size_number_le (gs : List Glyph) : (number gs).size ≤ gs.length := by
  have decimal : (numberOf gs ((gs.takeWhile fun g ↦ isDigit g || isChar '.' g).length +
      exponentSize (gs.drop (gs.takeWhile fun g ↦ isDigit g || isChar '.' g).length))
        Number.decimal?).size ≤ gs.length := by
    have hpoint := (List.takeWhile_prefix (fun g ↦ isDigit g || isChar '.' g) (l := gs)).length_le
    generalize (gs.takeWhile fun g ↦ isDigit g || isChar '.' g).length = size at hpoint ⊢
    have hexponent := exponentSize_le (gs.drop size)
    rw [List.length_drop] at hexponent
    exact size_numberOf_le (by omega) _
  unfold number
  dsimp only
  split
  · next z x ds =>
    split
    · have hdigits := (List.takeWhile_prefix isHexDigit (l := ds)).length_le
      exact size_numberOf_le (by rw [List.length_cons, List.length_cons]; omega) _
    · exact decimal
  · exact decimal

theorem size_stringBody_le (quote : UInt8) (gs : List Glyph) (content : List UInt8) (size : Nat) :
    (stringBody quote gs content size).size ≤ size + gs.length := by
  fun_induction stringBody quote gs content size <;> grind

theorem lt_length_of_afterBracket? {bracket : Char} {level : Nat}
    (h : (afterBracket? bracket level gs).isSome = true) : level < gs.length := by
  fun_induction afterBracket? bracket level gs <;> grind

theorem longBody_size_le {level size m : Nat} {content bytes : List UInt8}
    (h : longBody? level gs content size = some (bytes, m)) : m ≤ size + gs.length := by
  induction gs generalizing content size with
  | nil => exact nomatch h
  | cons g gs ih =>
      rw [longBody?] at h
      rw [List.length_cons]
      split at h
      · next hclosing =>
        have hlt := lt_length_of_afterBracket? (Bool.and_eq_true_iff.1 hclosing).2
        obtain ⟨_, rfl⟩ := Prod.mk.inj (Option.some.inj h)
        omega
      · have hle := ih h
        omega

theorem longBracket_size_le {level m : Nat} {bytes : List UInt8}
    (h : longBracket? level gs = some (bytes, m)) : m ≤ gs.length := by
  unfold longBracket? at h
  dsimp only at h
  have hlength : (gs.drop (level + 2)).length = gs.length - (level + 2) := List.length_drop
  cases hdrop : gs.drop (level + 2) with
  | nil =>
      rw [hdrop] at h
      exact nomatch h
  | cons g rest =>
      rw [hdrop] at h hlength
      rw [List.length_cons] at hlength
      dsimp only at h
      split at h
      · have hle := longBody_size_le h
        omega
      · have hle := longBody_size_le h
        rw [List.length_cons] at hle
        omega

theorem size_dots_le (g : Glyph) (gs : List Glyph) : (dots (g :: gs)).size ≤ (g :: gs).length := by
  unfold dots
  split
  · next _ d ds heq =>
    obtain ⟨rfl, rfl⟩ := List.cons.inj heq
    split
    · cases ds <;> split <;> simp_all [terminal]
    · split
      · exact size_number_le _
      · simp [terminal]
  · simp [terminal]

theorem size_bracket_le (g : Glyph) (gs : List Glyph) :
    (bracket (g :: gs)).size ≤ (g :: gs).length := by
  unfold bracket
  split
  · split
    · next h => exact longBracket_size_le h
    · exact Nat.le_refl _
  · simp [terminal]

theorem size_word_le (gs : List Glyph) : (word gs).size ≤ gs.length := by
  unfold word
  dsimp only
  split <;> exact (List.takeWhile_prefix _).length_le

theorem size_oneOrTwo_le (c : Char) (long short : Terminal) (g : Glyph) (gs : List Glyph) :
    (oneOrTwo c long short gs).size ≤ (g :: gs).length := by
  unfold oneOrTwo
  cases gs with
  | nil => simp [terminal]
  | cons d gs => split <;> simp [terminal]

/-- A token or a fault takes no more glyphs than there are. -/
theorem scan_size_le (g : Glyph) (gs : List Glyph) : (scan g gs).size ≤ (g :: gs).length := by
  have one : 1 ≤ (g :: gs).length := Nat.succ_le_succ (Nat.zero_le _)
  unfold scan
  split
  · exact size_word_le _
  split
  · exact size_number_le _
  split
  · exact one
  split
  · rw [List.length_cons, Nat.add_comm]
    exact size_stringBody_le ..
  split
  · exact size_dots_le ..
  iterate 3
    split
    · exact size_oneOrTwo_le ..
  split
  · exact size_bracket_le ..
  split
  · next htilde =>
    cases gs with
    | nil => simp at htilde
    | cons d gs => simp [terminal]
  · exact one

/-! ## One token is not the end of input -/

theorem number_ne_endOfInput (gs : List Glyph) : (number gs).outcome ≠ .ok .endOfInput := by
  have form (size : Nat) (value? : List Char → Option Float) :
      (numberOf gs size value?).outcome ≠ .ok .endOfInput := by
    unfold numberOf
    dsimp only
    generalize (if ((gs.drop size).head?.map startsWord).getD false = true then _ else 0) = excess
    split
    · simp
    · split <;> simp
  unfold number
  dsimp only
  split
  · split <;> exact form _ _
  · exact form _ _

theorem stringBody_ne_endOfInput (quote : UInt8) (gs : List Glyph) (content : List UInt8)
    (size : Nat) : (stringBody quote gs content size).outcome ≠ .ok .endOfInput := by
  fun_induction stringBody quote gs content size <;> first
    | assumption
    | simp

/-- A scan of something is never the end of input. -/
theorem scan_ne_endOfInput (g : Glyph) (gs : List Glyph) :
    (scan g gs).outcome ≠ .ok .endOfInput := by
  have terminal_ne (t : Terminal) (k : Nat) : (terminal t k).outcome ≠ .ok .endOfInput := by
    simp [terminal]
  unfold scan
  split
  · unfold word
    dsimp only
    split <;> simp [terminal]
  split
  · exact number_ne_endOfInput _
  split
  · exact terminal_ne _ _
  split
  · exact stringBody_ne_endOfInput _ _ _ _
  split
  · unfold dots
    split
    · split
      · split <;> exact terminal_ne _ _
      · split
        · exact number_ne_endOfInput _
        · exact terminal_ne _ _
    · exact terminal_ne _ _
  iterate 3
    split
    · unfold oneOrTwo
      split <;> exact terminal_ne _ _
  split
  · unfold bracket
    split
    · split <;> simp
    · exact terminal_ne _ _
  split
  · exact terminal_ne _ _
  · simp

/-! ## Lexemes -/

/-- Skipping blanks and comments leaves an end of what there was. -/
theorem skip_suffix (h : skip gs = .ok rest) : rest <:+ gs := by
  fun_induction skip gs generalizing rest with
  | case1 gs d e after hdrop _ level _ bytes size _ ih =>
      have htail : after <:+ gs.dropWhile isBlank := hdrop ▸ ⟨[d, e], rfl⟩
      exact (ih h).trans ((List.drop_suffix _ _).trans (htail.trans (List.dropWhile_suffix _)))
  | case2 => exact nomatch h
  | case3 gs d e after hdrop _ _ ih =>
      have htail : after <:+ gs.dropWhile isBlank := hdrop ▸ ⟨[d, e], rfl⟩
      exact (ih h).trans ((List.dropWhile_suffix _).trans (htail.trans (List.dropWhile_suffix _)))
  | case4 gs d e after hdrop =>
      obtain rfl := Except.ok.inj h
      exact hdrop ▸ List.dropWhile_suffix _
  | case5 gs =>
      obtain rfl := Except.ok.inj h
      exact List.dropWhile_suffix _

/-- What reading one lexeme does: a comment without end takes all that is left, at the end nothing is
left, and else a scan takes the glyph that it starts with and some more. -/
theorem next_cases (x : Lexer) :
    (∃ place, skip x.rest = .error place ∧
      x.next = (⟨.error (.longAtEnd .comment), place, x.text⟩, ⟨[], x.stop, x.text⟩)) ∨
    (skip x.rest = .ok [] ∧
      x.next = (⟨.ok .endOfInput, x.stop, Lexeme.endText⟩, ⟨[], x.stop, Lexeme.endText⟩)) ∨
    ∃ gap g taken rest, x.rest = gap ++ g :: (taken ++ rest) ∧
      skip x.rest = .ok (g :: (taken ++ rest)) ∧
        (scan g (taken ++ rest)).size = taken.length + 1 ∧
          x.next = (⟨(scan g (taken ++ rest)).outcome, g.position, Source.text (g :: taken)⟩,
            ⟨rest, x.stop, Source.text (g :: taken)⟩) := by
  cases hskip : skip x.rest with
  | error place => exact .inl ⟨place, rfl, by simp only [next, hskip]⟩
  | ok kept =>
      right
      cases kept with
      | nil => exact .inl ⟨rfl, by simp only [next, hskip]⟩
      | cons g gs =>
          obtain ⟨gap, hgap⟩ := skip_suffix hskip
          obtain ⟨n, hn⟩ := Nat.exists_eq_add_one.2 (scan_size_pos g gs)
          have hle : n ≤ gs.length := by
            have hsize := scan_size_le g gs
            rw [hn] at hsize
            exact Nat.le_of_succ_le_succ hsize
          refine .inr ⟨gap, g, gs.take n, gs.drop n, ?_⟩
          rw [List.take_append_drop, List.length_take_of_le hle, hgap]
          refine ⟨rfl, rfl, hn, ?_⟩
          simp only [next, hskip, hn, List.take_succ_cons, List.drop_succ_cons]

/-- Reading a token that is not the end of input shortens what is left. -/
theorem next_rest_lt {x : Lexer} {t : Token} (h : x.next.1.outcome = .ok t)
    (ht : t ≠ .endOfInput) : x.next.2.rest.length < x.rest.length := by
  rcases next_cases x with ⟨_, -, hnext⟩ | ⟨-, hnext⟩ | ⟨gap, g, taken, rest, hrest, -, -, hnext⟩
  · rw [hnext] at h
    cases h
  · rw [hnext] at h
    exact absurd (Except.ok.inj h).symm ht
  · rw [hnext, hrest]
    simp only [List.length_append, List.length_cons]
    omega

/-- The lexemes before the last one: tokens that are not the end of input. -/
def Goes (l : Lexeme) : Prop := ∃ t, l.outcome = .ok t ∧ t ≠ .endOfInput

/-- The last lexeme: the end of input or a fault. -/
def Ends (l : Lexeme) : Prop := l.outcome = .ok .endOfInput ∨ ∃ fault, l.outcome = .error fault

/-- Any bound that exceeds the number of glyphs gives the same lexemes. -/
theorem collect_eq {n : Nat} {x : Lexer} (h : x.rest.length < n) (done : List Lexeme) :
    collect n x done = done.reverse ++ x.lexemes := by
  obtain ⟨k, hk⟩ : ∃ k, k = x.rest.length := ⟨_, rfl⟩
  induction k using Nat.strongRecOn generalizing x n done with
  | _ k ih =>
      subst hk
      obtain ⟨n, rfl⟩ : ∃ m, n = m + 1 := Nat.exists_eq_add_one.2 (Nat.zero_lt_of_lt h)
      have last (ho : Ends x.next.1) :
          collect (n + 1) x done = done.reverse ++ x.lexemes := by
        rcases ho with ho | ⟨fault, ho⟩ <;> simp [lexemes, collect, ho]
      cases ho : x.next.1.outcome with
      | error fault => exact last (.inr ⟨fault, ho⟩)
      | ok t =>
          by_cases ht : t = .endOfInput
          · subst ht
            exact last (.inl ho)
          · have hlt := next_rest_lt ho ht
            have hn : x.next.2.rest.length < n := Nat.lt_of_lt_of_le hlt (Nat.le_of_lt_succ h)
            simp only [lexemes, collect, ho]
            rw [ih _ hlt hn _ rfl, ih _ hlt hlt _ rfl]
            simp

/-- After a token that is not the end of input the lexemes go on. -/
theorem lexemes_of_goes {x : Lexer} (h : Goes x.next.1) :
    x.lexemes = x.next.1 :: x.next.2.lexemes := by
  obtain ⟨t, ho, ht⟩ := h
  simp only [lexemes, collect, ho]
  exact collect_eq (next_rest_lt ho ht) _

/-- The end of input and a fault are the last lexemes. -/
theorem lexemes_of_ends {x : Lexer} (h : Ends x.next.1) : x.lexemes = [x.next.1] := by
  rcases h with h | ⟨fault, h⟩ <;> simp only [lexemes, collect, h] <;> rfl

theorem goes_or_ends (l : Lexeme) : Goes l ∨ Ends l := by
  cases ho : l.outcome with
  | error fault => exact .inr (.inr ⟨fault, ho⟩)
  | ok t =>
      by_cases ht : t = .endOfInput
      · exact .inr (.inl (ht ▸ ho))
      · exact .inl ⟨t, ho, ht⟩

theorem lexemes_head (x : Lexer) : ∃ ls, x.lexemes = x.next.1 :: ls := by
  rcases goes_or_ends x.next.1 with h | h
  · exact ⟨_, lexemes_of_goes h⟩
  · exact ⟨_, lexemes_of_ends h⟩

/-- The lexemes are the same if the first one is and what it leaves. -/
theorem lexemes_congr {x y : Lexer} (h : x.next = y.next) : x.lexemes = y.lexemes := by
  rcases goes_or_ends x.next.1 with hx | hx
  · have hy : Goes y.next.1 := h ▸ hx
    rw [lexemes_of_goes hx, lexemes_of_goes hy, h]
  · have hy : Ends y.next.1 := h ▸ hx
    rw [lexemes_of_ends hx, lexemes_of_ends hy, h]

/-- The lexemes of a source are tokens up to one last lexeme, the end of input or a fault. -/
theorem lexemes_ends (x : Lexer) :
    ∃ ls l, x.lexemes = ls ++ [l] ∧ (∀ m ∈ ls, Goes m) ∧ Ends l := by
  obtain ⟨k, hk⟩ : ∃ k, k = x.rest.length := ⟨_, rfl⟩
  induction k using Nat.strongRecOn generalizing x with
  | _ k ih =>
      subst hk
      rcases goes_or_ends x.next.1 with h | h
      · obtain ⟨t, ho, ht⟩ := h
        obtain ⟨ls, l, hls, hgoes, hends⟩ := ih _ (next_rest_lt ho ht) x.next.2 rfl
        refine ⟨x.next.1 :: ls, l, ?_, ?_, hends⟩
        · rw [lexemes_of_goes ⟨t, ho, ht⟩, hls]
          rfl
        · intro m hm
          rcases List.mem_cons.1 hm with rfl | hm
          · exact ⟨t, ho, ht⟩
          · exact hgoes m hm
      · exact ⟨[], x.next.1, lexemes_of_ends h, fun m hm ↦ (List.not_mem_nil hm).elim, h⟩

end LuaEmbed.Lexer
