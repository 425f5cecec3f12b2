import Mathlib
import LuaEmbed.Proofs.Lexing.Progress
import LuaEmbed.Proofs.Syntax.Bounds
import LuaEmbed.Proofs.Syntax.Soundness
import LuaEmbed.Proofs.Syntax.Completeness

/-!
# The sources that are accepted

A source is accepted exactly when it consists of tokens that the greedy grammar derives, unless it
has too many syntax levels; that complaint is the only one about a source which is derivable.

The plain BNF derives more.  There a parenthesis after a prefix expression may start a statement,
which the parser never takes it to do.
-/

namespace LuaEmbed

open LuaEmbed.Grammar LuaEmbed.Parser

/-- The error is the complaint about too many syntax levels. -/
def SyntaxError.IsTooDeep (e : SyntaxError) : Prop :=
  ∃ near, e.problem = .complaint .tooManyLevels near

/-- The source is read as the tokens `ts` up to its end, without a fault. -/
def Tokenises (source : List UInt8) (ts : List Token) : Prop :=
  (Lexer.ofBytes source).lexemes.map Lexeme.outcome = ts.map .ok ++ [.ok .endOfInput]

namespace Grammar

/-- No production mentions the end of input. -/
theorem Derives.endOfInput_notMem {g v l : Bool} {k : Category} {ts : List Token}
    (h : Derives g k v l ts) : Token.endOfInput ∉ ts := by
  induction h <;> simp_all

end Grammar

namespace Parser

variable {ls rest : List Lexeme} {ts : List Token}

theorem Consumes.split (h : Consumes ls ts rest) :
    ∃ taken, ls = taken ++ rest ∧ taken.map Lexeme.outcome = ts.map .ok := by
  induction h with
  | refl ls => exact ⟨[], rfl, rfl⟩
  | @cons l t _ _ _ hl _ ih =>
      obtain ⟨taken, rfl, htaken⟩ := ih
      exact ⟨l :: taken, rfl, by rw [List.map_cons, hl, htaken, List.map_cons]⟩

theorem Consumes.of_map {os : List (Except LexicalFault Token)}
    (h : ls.map Lexeme.outcome = ts.map .ok ++ os) :
    ∃ rest, Consumes ls ts rest ∧ rest.map Lexeme.outcome = os := by
  induction ts generalizing ls with
  | nil => exact ⟨ls, .refl ls, h⟩
  | cons t ts ih =>
      cases ls with
      | nil => exact nomatch h
      | cons l ls =>
          obtain ⟨hl, h⟩ := List.cons.inj h
          obtain ⟨rest, hrest, hos⟩ := ih h
          exact ⟨rest, .cons hl hrest, hos⟩

/-- What stands at the end of input after derivable tokens is the last lexeme. -/
theorem Consumes.all_tokens {x : Lexer} (h : Consumes x.lexemes ts rest)
    (hts : Token.endOfInput ∉ ts) (hend : Ahead rest .endOfInput) :
    x.lexemes.map Lexeme.outcome = ts.map .ok ++ [.ok .endOfInput] := by
  obtain ⟨pre, l, hlexemes, hgoes, hends⟩ := x.lexemes_ends
  obtain ⟨taken, hsplit, htaken⟩ := h.split
  rw [hlexemes] at hsplit
  rcases List.eq_nil_or_concat rest with rfl | ⟨between, last, rfl⟩
  · -- the last lexeme has been read, so it is not the end of input
    exfalso
    rw [List.append_nil] at hsplit
    have hmem : l.outcome ∈ ts.map Except.ok := by
      rw [← htaken, ← hsplit, List.map_append]
      exact List.mem_append_right _ (List.mem_singleton_self _)
    obtain ⟨t, ht, hl⟩ := List.mem_map.1 hmem
    rcases hends with hend' | ⟨fault, hfault⟩
    · exact hts (Except.ok.inj (hl.trans hend') ▸ ht)
    · exact nomatch hl.trans hfault
  · rw [List.concat_eq_append] at hsplit hend
    rw [← List.append_assoc] at hsplit
    obtain ⟨rfl, hlast⟩ := List.append_inj' hsplit rfl
    obtain rfl := List.singleton_inj.1 hlast
    cases between with
    | nil =>
        rw [hlexemes, List.append_nil, List.map_append, htaken]
        exact congrArg _ (congrArg (fun o ↦ [o]) hend)
    | cons m between =>
        obtain ⟨t, ht, hne⟩ := hgoes m (List.mem_append_right _ (List.mem_cons_self ..))
        exact absurd (Except.ok.inj (ht.symm.trans hend)) hne

/-- What a chunk is read from is derivable. -/
theorem chunk_sound {n : Nat} {b : Block} (h : chunk n ls = .ok (b, rest)) :
    ∃ ts, Consumes ls ts rest ∧ Derives true .chunk true false ts ∧ Ahead rest .endOfInput := by
  rw [chunk, bind_ok] at h
  obtain ⟨stats, ms, hblock, h⟩ := h
  obtain ⟨ts, hts, hd⟩ := (sound n).block hblock
  rw [peek_bind_ok] at h
  obtain ⟨t, ht, h⟩ := h
  split at h
  · obtain ⟨rfl, rfl⟩ := pure_ok.1 h
    exact ⟨ts, hts, hd, ht⟩
  · rw [complain_apply] at h
    cases h

/-- Derivable tokens up to the end of input pass as a chunk. -/
theorem chunk_complete (n : Nat) (hd : Derives true .chunk true false ts) (hts : Consumes ls ts rest)
    (hend : Ahead rest .endOfInput) : Passes (chunk n) ls fun _ ms ↦ ms = rest := by
  rw [chunk]
  have hblock := Complete.block (complete hd) n (c := ⟨maxLevels, true, false⟩) ⟨rfl, rfl⟩
  exact (hblock hts hend rfl).next fun stats ↦ .peek hend (.pure rfl)

end Parser

namespace Chunk

variable {name : String} {source : List UInt8} {ts : List Token}

theorem ofLexemes_eq (ls : List Lexeme) :
    ofLexemes name ls =
      (Parser.chunk (16 * ls.length + 64) ls).map fun r ↦ ⟨name, .mk [] true 0 r.1⟩ := by
  unfold ofLexemes
  rw [StateT.run]
  cases Parser.chunk (16 * ls.length + 64) ls <;> rfl

/-- The bound on the parser's calls does not matter: a greater one gives the same outcome.  So a
complaint about too many syntax levels is one about the levels that the source opens. -/
theorem ofLexemes_eq_of_le {ls : List Lexeme} {n : Nat} (hn : 16 * ls.length + 64 ≤ n) :
    ofLexemes name ls = (Parser.chunk n ls).map fun r ↦ ⟨name, .mk [] true 0 r.1⟩ := by
  rw [ofLexemes_eq, Parser.chunk_stable (by omega) hn]

/-- A source that is accepted is derivable. -/
theorem derivable_of_ok {c : Chunk} (h : ofBytes name source = .ok c) :
    ∃ ts, Tokenises source ts ∧ Derives true .chunk true false ts := by
  rw [ofBytes, ofLexemes_eq] at h
  cases hchunk : Parser.chunk (16 * (Lexer.ofBytes source).lexemes.length + 64)
      (Lexer.ofBytes source).lexemes with
  | error e =>
      rw [hchunk] at h
      exact nomatch h
  | ok r =>
      obtain ⟨ts, hts, hd, hend⟩ := Parser.chunk_sound hchunk
      exact ⟨ts, hts.all_tokens hd.endOfInput_notMem hend, hd⟩

/-- A source that is derivable is accepted or has too many syntax levels. -/
theorem ok_or_tooDeep (hts : Tokenises source ts) (hd : Derives true .chunk true false ts) :
    (∃ c, ofBytes name source = .ok c) ∨
      ∃ e, ofBytes name source = .error e ∧ e.IsTooDeep := by
  obtain ⟨rest, hconsumes, hrest⟩ := Consumes.of_map hts
  have hend : Ahead rest .endOfInput := by
    cases rest with
    | nil => exact nomatch hrest
    | cons l rest => exact (List.cons.inj hrest).1
  rw [ofBytes, ofLexemes_eq]
  rcases Parser.chunk_complete _ hd hconsumes hend with ⟨b, ms, hchunk, _⟩ | ⟨l, hchunk⟩
  · rw [hchunk]
    exact .inl ⟨_, rfl⟩
  · rw [hchunk]
    exact .inr ⟨_, rfl, l.near, rfl⟩

/-- Acceptance is derivability by the greedy grammar, and too many levels are the only complaint
about a source that is derivable. -/
theorem accepted_iff_derivable (name : String) (source : List UInt8) :
    ((∃ c, ofBytes name source = .ok c) ↔
      (∃ ts, Tokenises source ts ∧ Derives true .chunk true false ts) ∧
        ∀ e, ofBytes name source = .error e → ¬ e.IsTooDeep) ∧
    ∀ ts, Tokenises source ts → Derives true .chunk true false ts →
      (∃ c, ofBytes name source = .ok c) ∨
        ∃ e, ofBytes name source = .error e ∧ e.IsTooDeep := by
  refine ⟨⟨?_, ?_⟩, fun ts hts hd ↦ ok_or_tooDeep hts hd⟩
  · rintro ⟨c, h⟩
    refine ⟨derivable_of_ok h, fun e he ↦ ?_⟩
    exact nomatch he.symm.trans h
  · rintro ⟨⟨ts, hts, hd⟩, hlevels⟩
    rcases @ok_or_tooDeep name _ _ hts hd with h | ⟨e, he, hdeep⟩
    · exact h
    · exact absurd hdeep (hlevels e he)

/-- Two assignments, of which the second one starts with a parenthesis. -/
def parenthesised : List UInt8 := "a = b (c).d = e".toUTF8.data.toList

theorem tokenises_parenthesised :
    Tokenises parenthesised
      ([.name "a", .terminal .assign, .name "b"] ++
        [.terminal .leftParen, .name "c", .terminal .rightParen, .terminal .dot, .name "d",
          .terminal .assign, .name "e"]) := by
  unfold Tokenises
  cbv

/-- The plain BNF derives two assignments where the parser reads a call of `b` and then finds a
second `=`. -/
theorem parenthesised_derivable_and_rejected :
    (∃ ts, Tokenises parenthesised ts ∧ Derives false .chunk true false ts) ∧
      ∃ e, ofBytes "test" parenthesised = .error e ∧ ¬ e.IsTooDeep := by
  refine ⟨⟨_, tokenises_parenthesised, ?_⟩, ?_⟩
  · have named {x : String} : Derives false (.exp true) true false [.name x] :=
      .expPrefix (.prefixVar .varName)
    have first : Derives false (.stat true) true false
        [.name "a", .terminal .assign, .name "b"] :=
      .assign (.varListVar .varName) (.expListExp named)
    have second : Derives false (.stat true) true false
        [.terminal .leftParen, .name "c", .terminal .rightParen, .terminal .dot, .name "d",
          .terminal .assign, .name "e"] :=
      .assign (.varListVar (.varField (.prefixParen named))) (.expListExp named)
    have last := Derives.chunkStat second .chunkEmpty fun h ↦ nomatch h
    exact .chunkStat first last fun h ↦ nomatch h
  · refine ⟨⟨1, .complaint .unexpectedSymbol "'='"⟩, by cbv, ?_⟩
    rintro ⟨near, h⟩
    cases h

end Chunk

end LuaEmbed
