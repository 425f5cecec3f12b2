import LuaEmbed.Proofs.Lexing.Classes
import LuaEmbed.Proofs.Lexing.Progress

/-!
# Sources without carriage returns

Each byte of such a source is a glyph of its own, and its tokens are read off one after the other:
`Reads` collects what glyphs are read as, up to the end of input.
-/

namespace LuaEmbed

namespace Glyph

variable {gs : List Glyph} {b : UInt8}

/-- The byte of a carriage return. -/
def carriageReturn : UInt8 := 0x0D

/-- The place behind glyphs that are held in reverse. -/
def place (gs : List Glyph) : Position := (gs.head?.map after).getD .first

/-- A glyph of a source without carriage returns: it is written with the byte that it counts as. -/
structure Plain (g : Glyph) : Prop where
  raw : g.raw = [g.byte]
  byte : g.byte ≠ carriageReturn

theorem eq_lineFeed_of_isBreakByte (h : isBreakByte b = true) (hb : b ≠ carriageReturn) :
    b = lineFeed := by
  simp_all [isBreakByte, carriageReturn, lineFeed]

theorem single_of_ne_carriageReturn (p : Position) (hb : b ≠ carriageReturn) :
    single b p = ⟨b, [b], p⟩ := by
  unfold single
  split
  · next hbreak => rw [eq_lineFeed_of_isBreakByte hbreak hb]
  · rfl

theorem plain_single (p : Position) (hb : b ≠ carriageReturn) : Plain (single b p) := by
  rw [single_of_ne_carriageReturn p hb]
  exact ⟨rfl, hb⟩

/-- A byte is a glyph of its own unless it joins the one before it. -/
theorem push_of_not_joins
    (h : ∀ g ∈ gs.head?, ∀ a, g.raw = [a] → isBreakByte a = true → isBreakByte b = true → a = b) :
    push gs b = single b (place gs) :: gs := by
  cases gs with
  | nil => rfl
  | cons g gs =>
      unfold push
      dsimp only
      split
      · next a hraw =>
        refine if_neg fun hjoin ↦ ?_
        simp only [Bool.and_eq_true, bne_iff_ne] at hjoin
        exact hjoin.2 (h g rfl a hraw hjoin.1.1 hjoin.1.2)
      · rfl

/-- After plain glyphs every byte but a carriage return is a glyph of its own. -/
theorem push_of_plain (hgs : ∀ g ∈ gs, Plain g) (hb : b ≠ carriageReturn) :
    push gs b = single b (place gs) :: gs := by
  refine push_of_not_joins fun g hg a hraw ha hbreak ↦ ?_
  have hplain := hgs g (List.mem_of_mem_head? hg)
  obtain rfl : g.byte = a := List.singleton_inj.1 (hplain.raw.symm.trans hraw)
  rw [eq_lineFeed_of_isBreakByte ha hplain.byte, eq_lineFeed_of_isBreakByte hbreak hb]

theorem plain_push (hgs : ∀ g ∈ gs, Plain g) (hb : b ≠ carriageReturn) :
    ∀ g ∈ push gs b, Plain g := by
  intro g hg
  rw [push_of_plain hgs hb] at hg
  rcases List.mem_cons.1 hg with rfl | hg
  · exact plain_single _ hb
  · exact hgs g hg

end Glyph

namespace Source

variable {bs : List UInt8}

theorem plain_foldl_push (h : ∀ b ∈ bs, b ≠ Glyph.carriageReturn) {gs : List Glyph}
    (hgs : ∀ g ∈ gs, g.Plain) : ∀ g ∈ bs.foldl Glyph.push gs, g.Plain := by
  induction bs generalizing gs with
  | nil => exact hgs
  | cons b bs ih =>
      exact ih (fun b hb ↦ h b (List.mem_cons_of_mem _ hb))
        (Glyph.plain_push hgs (h b (List.mem_cons_self ..)))

theorem layOut_plain (h : ∀ b ∈ bs, b ≠ Glyph.carriageReturn) :
    ∀ g ∈ (layOut bs).glyphs, g.Plain := fun g hg ↦
  plain_foldl_push h (fun _ hg ↦ (List.not_mem_nil hg).elim) g (List.mem_reverse.1 hg)

theorem foldl_push_bytes (h : ∀ b ∈ bs, b ≠ Glyph.carriageReturn) {gs : List Glyph}
    (hgs : ∀ g ∈ gs, g.Plain) :
    (bs.foldl Glyph.push gs).map Glyph.byte = bs.reverse ++ gs.map Glyph.byte := by
  induction bs generalizing gs with
  | nil => rfl
  | cons b bs ih =>
      have hb := h b (List.mem_cons_self ..)
      have htail (c : UInt8) (hc : c ∈ bs) := h c (List.mem_cons_of_mem _ hc)
      rw [List.foldl_cons, ih htail (Glyph.plain_push hgs hb),
        Glyph.push_of_plain hgs hb, List.map_cons, Glyph.single_of_ne_carriageReturn _ hb,
        List.reverse_cons, List.append_assoc]
      rfl

/-- Without carriage returns the glyphs of a source are its bytes. -/
theorem layOut_bytes (h : ∀ b ∈ bs, b ≠ Glyph.carriageReturn) :
    (layOut bs).glyphs.map Glyph.byte = bs := by
  rw [layOut, List.map_reverse, foldl_push_bytes h fun g hg ↦ (List.not_mem_nil hg).elim,
    List.map_nil, List.append_nil, List.reverse_reverse]

end Source

namespace Lexer

variable {gs rest : List Glyph} {g : Glyph} {t : Token} {ts : List Token}

/-- What is read of a source is an end of it. -/
theorem rest_ofBytes_suffix (bs : List UInt8) :
    (ofBytes bs).rest <:+ (Source.layOut bs).glyphs := by
  unfold ofBytes
  dsimp only
  split
  · next g gs hgs =>
    rw [hgs]
    split
    · exact (List.dropWhile_suffix _).trans (List.suffix_cons g gs)
    · exact List.suffix_refl _
  · exact List.nil_suffix

/-- A source that does not start with `#` is read as a whole. -/
theorem ofBytes_of_not_hash {bs : List UInt8}
    (h : ∀ g ∈ (Source.layOut bs).glyphs.head?, isChar '#' g = false) :
    ofBytes bs = ⟨(Source.layOut bs).glyphs, (Source.layOut bs).stop, ""⟩ := by
  unfold ofBytes
  dsimp only
  split
  · next g gs hgs =>
    rw [hgs] at h ⊢
    rw [h g rfl]
    rfl
  · next hgs => rw [hgs]

theorem isChar_hash_head {bs : List UInt8} (hbs : ∀ b ∈ bs, b ≠ Glyph.carriageReturn)
    (hfirst : bs.head? ≠ some '#'.toUInt8) :
    ∀ g ∈ (Source.layOut bs).glyphs.head?, isChar '#' g = false := by
  intro g hg
  rw [← Source.layOut_bytes hbs, List.head?_map, Option.mem_def.1 hg] at hfirst
  exact beq_eq_false_iff_ne.2 fun hbyte ↦ hfirst (congrArg some hbyte)

/-- Nothing is skipped before a glyph that is no blank and begins no comment. -/
theorem skip_of_no_comment (hblank : isBlank g = false)
    (hcomment : ∀ e rest, gs = e :: rest → ¬(isChar '-' g = true ∧ isChar '-' e = true)) :
    skip (g :: gs) = .ok (g :: gs) := by
  have hdrop : (g :: gs).dropWhile isBlank = g :: gs := by
    rw [List.dropWhile_cons, hblank]
    rfl
  cases gs with
  | nil => rw [skip]; split <;> simp_all
  | cons e gs =>
      have := hcomment e gs rfl
      rw [skip]
      split <;> simp_all

/-- Nothing is skipped before a glyph that is no blank and no dash. -/
theorem skip_of_solid (hblank : isBlank g = false) (hdash : isChar '-' g = false) :
    skip (g :: gs) = .ok (g :: gs) :=
  skip_of_no_comment hblank fun _ _ _ h ↦ absurd h.1 (Bool.eq_false_iff.1 hdash)

/-- A blank in front is skipped. -/
theorem skip_of_blank (hblank : isBlank g = true) : skip (g :: gs) = skip gs := by
  have hdrop : (g :: gs).dropWhile isBlank = gs.dropWhile isBlank := by
    rw [List.dropWhile_cons, hblank]
    rfl
  rw [skip, skip, hdrop]

/-- The glyphs are read as the tokens, up to the end of input. -/
def Reads (gs : List Glyph) (ts : List Token) : Prop :=
  ∀ stop text, (Lexer.mk gs stop text).lexemes.map Lexeme.outcome =
    ts.map .ok ++ [.ok .endOfInput]

namespace Reads

theorem nil : Reads [] [] := by
  intro stop text
  have hnext : (Lexer.mk [] stop text).next.1.outcome = .ok .endOfInput := by
    have hskip : skip [] = .ok [] := by
      rw [skip]
      rfl
    simp only [next, hskip]
  rw [lexemes_of_ends (.inl hnext), List.map_singleton, hnext]
  rfl

/-- One token is read, and then the others from what it leaves. -/
theorem cons {n : Nat} (hskip : skip gs = .ok (g :: rest)) (hscan : scan g rest = ⟨.ok t, n⟩)
    (ht : t ≠ .endOfInput) (h : Reads ((g :: rest).drop n) ts) : Reads gs (t :: ts) := by
  intro stop text
  have hnext : (Lexer.mk gs stop text).next.1.outcome = .ok t := by
    simp only [next, hskip, hscan]
  rw [lexemes_of_goes ⟨t, hnext, ht⟩, List.map_cons, hnext]
  simp only [next, hskip, hscan]
  rw [h]
  rfl

/-- Glyphs are read as what is left of them behind blanks and comments. -/
theorem of_skip (hskip : skip gs = skip rest) (h : Reads rest ts) : Reads gs ts := by
  intro stop text
  have hnext : (Lexer.mk gs stop text).next = (Lexer.mk rest stop text).next := by
    simp only [next, hskip]
  rw [lexemes_congr hnext]
  exact h stop text

theorem blank (hblank : isBlank g = true) (h : Reads gs ts) : Reads (g :: gs) ts :=
  .of_skip (skip_of_blank hblank) h

/-- A terminal of one glyph is read. -/
theorem terminal {u : Terminal} (hblank : isBlank g = false) (hdash : isChar '-' g = false)
    (hscan : scan g gs = Lexer.terminal u 1) (h : Reads gs ts) :
    Reads (g :: gs) (.terminal u :: ts) :=
  .cons (skip_of_solid hblank hdash) hscan (by simp) h

/-- A source of no carriage returns, the first byte of which is no `#`, is read by its bytes. -/
theorem ofBytes {bs : List UInt8} (hbs : ∀ b ∈ bs, b ≠ Glyph.carriageReturn)
    (hfirst : bs.head? ≠ some '#'.toUInt8) (h : ∀ gs, gs.map Glyph.byte = bs → Reads gs ts) :
    (Lexer.ofBytes bs).lexemes.map Lexeme.outcome = ts.map .ok ++ [.ok .endOfInput] := by
  have hread := h _ (Source.layOut_bytes hbs)
  rw [ofBytes_of_not_hash (isChar_hash_head hbs hfirst)]
  exact hread _ _

theorem return_ (hgs : gs.map Glyph.byte = "return ".toUTF8.data.toList) (h : Reads rest ts) :
    Reads (gs ++ rest) (.terminal .return_ :: ts) := by
  change gs.map Glyph.byte = [0x72, 0x65, 0x74, 0x75, 0x72, 0x6e, 0x20] at hgs
  simp only [List.map_eq_cons_iff, List.map_eq_nil_iff] at hgs
  obtain ⟨⟨_, _, _⟩, _, rfl, rfl, ⟨_, _, _⟩, _, rfl, rfl, ⟨_, _, _⟩, _, rfl, rfl, ⟨_, _, _⟩, _, rfl,
    rfl, ⟨_, _, _⟩, _, rfl, rfl, ⟨_, _, _⟩, _, rfl, rfl, ⟨_, _, _⟩, _, rfl, rfl, rfl⟩ := hgs
  exact .cons (n := 6) (skip_of_solid rfl rfl) (by rfl) (by simp) (.blank rfl h)

end Reads

end Lexer

end LuaEmbed
