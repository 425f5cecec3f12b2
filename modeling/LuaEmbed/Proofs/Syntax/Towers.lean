import LuaEmbed.Proofs.Lexing.Sources
import LuaEmbed.Proofs.Syntax.Levels
import LuaEmbed.Proofs.Syntax.Returns

/-!
# Towers of bare tables

A table that is the argument of a call in a positional field takes no syntax level.  So tables that
are nested in this way are read however few levels are left, and a source made of them is accepted
whatever its height: no limit is put on the depth of the parser's own recursion.
-/

namespace LuaEmbed

namespace Parser

/-! ## Reading towers -/

/-- The tokens of a table in which `d` bare tables are nested. -/
def towerTokens : Nat → List Token
  | 0 => [.terminal .leftBrace, .terminal .rightBrace]
  | d + 1 => .terminal .leftBrace :: .name "a" :: (towerTokens d ++ [.terminal .rightBrace])

theorem towerTokens_starts (d : Nat) : ∃ ts, towerTokens d = .terminal .leftBrace :: ts := by
  cases d <;> exact ⟨_, rfl⟩

theorem towerTokens_ahead {d : Nat} {ls rest : List Lexeme} (h : Consumes ls (towerTokens d) rest) :
    Ahead ls (.terminal .leftBrace) := by
  cases d <;> exact h.ahead

/-- A name with a table after it is a field, which is read without a level for the table. -/
theorem tableField_call {c : Context} {n : Nat} {x : String} {table : Expr}
    {ls ls₁ ms : List Lexeme} (hname : Consumes ls [.name x] ls₁)
    (hbrace : Ahead ls₁ (.terminal .leftBrace)) (htable : tableConstructor n c ls₁ = .ok (table, ms))
    (hclose : Ahead ms (.terminal .rightBrace)) :
    ∃ at_, tableField (n + 3) c ls = .ok (.positional (.call at_ (.name x) [table]), ms) := by
  have hargs : callArgs (n + 1) c ls₁ = .ok ([table], ms) := by
    rw [callArgs, bind_of_ok (peek_of_ahead hbrace)]
    exact bind_of_ok htable
  have hend (e : Expr) : suffixedTail (n + 1) c e ms = .ok (e, ms) := by
    rw [suffixedTail, bind_of_ok line_apply, bind_of_ok (peek_of_ahead hclose)]
    rfl
  have htail : suffixedTail (n + 2) c (.name x) ls₁ =
      .ok (.call (front ls₁).position.line (.name x) [table], ms) := by
    rw [suffixedTail, bind_of_ok line_apply, bind_of_ok (peek_of_ahead hbrace)]
    exact (bind_of_ok hargs).trans (hend _)
  have hbinary (e : Expr) : binaryTail (n + 2) c e 0 ms = .ok (e, ms) := by
    rw [binaryTail, bind_of_ok (peek_of_ahead hclose)]
    rfl
  refine ⟨(front ls₁).position.line, ?_⟩
  rw [tableField, bind_of_ok (peek_of_ahead hname.ahead)]
  simp only
  rw [bind_of_ok advance_apply, ← hname.tail_eq, bind_of_ok (accept_of_ne hbrace (by simp))]
  exact (bind_of_ok htail).trans (bind_of_ok (hbinary _))

/-- Bare tables need no level: a tower of any height is read, however few levels are left. -/
theorem tableConstructor_tower (c : Context) {d : Nat} : ∀ {n : Nat} {ls rest : List Lexeme},
    5 * d + 2 ≤ n → Consumes ls (towerTokens d) rest →
      ∃ fields, tableConstructor n c ls = .ok (.table fields, rest) ∧
        Field.weights (fun _ ↦ 1) fields = d := by
  induction d with
  | zero =>
      intro n ls rest hn h
      obtain ⟨n, rfl⟩ := Nat.exists_eq_add_of_le' hn
      obtain ⟨ms, hopen, hclose⟩ := Consumes.cons_iff.1 h
      have hfields : tableFields (n + 1) c [] ms = .ok ([], ms) := by
        rw [tableFields, bind_of_ok (check_of_ahead hclose.ahead)]
        rfl
      refine ⟨[], ?_, rfl⟩
      rw [tableConstructor, bind_of_ok line_apply, bind_of_ok (expect_of_consumes hopen),
        bind_of_ok hfields, bind_of_ok (expectMatch_of_consumes hclose)]
      rfl
  | succ d ih =>
      intro n ls rest hn h
      obtain ⟨n, rfl⟩ : ∃ k, n = k + 5 := Nat.exists_eq_add_of_le' (by omega)
      obtain ⟨ls₁, hopen, h⟩ := Consumes.cons_iff.1 h
      obtain ⟨ls₂, hname, h⟩ := Consumes.cons_iff.1 h
      obtain ⟨ms, htower, hclose⟩ := Consumes.append_iff.1 h
      obtain ⟨fields, htable, hweight⟩ := ih (n := n) (by omega) htower
      obtain ⟨at_, hfield⟩ := tableField_call hname (towerTokens_ahead htower) htable hclose.ahead
      have hfields : tableFields (n + 4) c [] ls₁ =
          .ok ([.positional (.call at_ (.name "a") [.table fields])], ms) := by
        rw [tableFields, bind_of_ok (check_of_ahead hname.ahead)]
        refine (bind_of_ok hfield).trans ?_
        rw [bind_of_ok (accept_of_ne hclose.ahead (by simp))]
        exact bind_of_ok (accept_of_ne hclose.ahead (by simp))
      refine ⟨[.positional (.call at_ (.name "a") [.table fields])], ?_, ?_⟩
      · rw [tableConstructor, bind_of_ok line_apply, bind_of_ok (expect_of_consumes hopen),
          bind_of_ok hfields, bind_of_ok (expectMatch_of_consumes hclose)]
        rfl
      · simp [Field.weights, Field.weight, Expr.startsWithName, Expr.weight, Role.args, hweight,
          Expr.weights_singleton, Nat.add_comm]

theorem simpleExpr_tower (c : Context) {d n : Nat} {ls rest : List Lexeme} (hn : 5 * d + 2 ≤ n)
    (h : Consumes ls (towerTokens d) rest) :
    ∃ fields, simpleExpr (n + 1) c ls = .ok (.table fields, rest) ∧
      Field.weights (fun _ ↦ 1) fields = d := by
  obtain ⟨fields, htable, hweight⟩ := tableConstructor_tower c hn h
  refine ⟨fields, ?_, hweight⟩
  rw [simpleExpr, bind_of_ok line_apply, bind_of_ok (peek_of_ahead (towerTokens_ahead h))]
  exact htable

end Parser

/-! ## Sources of towers -/

namespace Lexer.Reads

variable {gs rest : List Glyph} {g : Glyph} {ts : List Token}

theorem leftBrace (hg : g.byte = 0x7b) (h : Reads gs ts) :
    Reads (g :: gs) (.terminal .leftBrace :: ts) := by
  obtain ⟨byte, raw, position⟩ := g
  obtain rfl : byte = 0x7b := hg
  exact .terminal rfl rfl rfl h

theorem rightBrace (hg : g.byte = 0x7d) (h : Reads gs ts) :
    Reads (g :: gs) (.terminal .rightBrace :: ts) := by
  obtain ⟨byte, raw, position⟩ := g
  obtain rfl : byte = 0x7d := hg
  exact .terminal rfl rfl rfl h

/-- A name of one letter ends before a brace. -/
theorem letter {g' : Glyph} (hg : g.byte = 0x61) (hg' : g'.byte = 0x7b)
    (h : Reads (g' :: gs) ts) : Reads (g :: g' :: gs) (.name "a" :: ts) := by
  obtain ⟨byte, raw, position⟩ := g
  obtain ⟨byte', raw', position'⟩ := g'
  obtain rfl : byte = 0x61 := hg
  obtain rfl : byte' = 0x7b := hg'
  exact .cons (n := 1) (skip_of_solid rfl rfl) (by cbv) (by simp) h

end Lexer.Reads

namespace Chunk

open Lexer

/-- The text of a table in which `d` bare tables are nested. -/
def towerText : Nat → List UInt8
  | 0 => [0x7b, 0x7d]
  | d + 1 => 0x7b :: 0x61 :: (towerText d ++ [0x7d])

/-- A source that returns such a table. -/
def tower (d : Nat) : List UInt8 := "return ".toUTF8.data.toList ++ towerText d

theorem towerText_starts (d : Nat) : ∃ bs, towerText d = 0x7b :: bs := by
  cases d <;> exact ⟨_, rfl⟩

theorem ne_carriageReturn_tower (d : Nat) : ∀ b ∈ tower d, b ≠ Glyph.carriageReturn := by
  have htext : ∀ b ∈ towerText d, b ≠ Glyph.carriageReturn := by
    induction d with
    | zero => simp [towerText, Glyph.carriageReturn]
    | succ d ih =>
        simp only [towerText, List.mem_cons, List.mem_append, List.not_mem_nil, or_false]
        rintro b (rfl | rfl | h | rfl)
        · decide
        · decide
        · exact ih b h
        · decide
  intro b hb
  rcases List.mem_append.1 hb with hb | hb
  · have hall : "return ".toUTF8.data.toList.all (· != Glyph.carriageReturn) = true := by cbv
    simpa using List.all_eq_true.1 hall b hb
  · exact htext b hb

theorem reads_towerText {d : Nat} : ∀ {gs rest : List Glyph} {ts : List Token},
    gs.map Glyph.byte = towerText d → Reads rest ts →
      Reads (gs ++ rest) (Parser.towerTokens d ++ ts) := by
  induction d with
  | zero =>
      intro gs rest ts hgs h
      simp only [towerText, List.map_eq_cons_iff, List.map_eq_nil_iff] at hgs
      obtain ⟨g₁, _, rfl, hg₁, g₂, _, rfl, hg₂, rfl⟩ := hgs
      exact .leftBrace hg₁ (.rightBrace hg₂ h)
  | succ d ih =>
      intro gs rest ts hgs h
      simp only [towerText, List.map_eq_cons_iff, List.map_eq_append_iff, List.map_eq_nil_iff] at hgs
      obtain ⟨g₁, _, rfl, hg₁, g₂, _, rfl, hg₂, inner, _, rfl, hinner, g₃, _, rfl, hg₃, rfl⟩ := hgs
      obtain ⟨bs, hbs⟩ := towerText_starts d
      have hread := ih hinner (.rightBrace hg₃ h)
      rw [hbs] at hinner
      obtain ⟨g, _, rfl, hg, _⟩ := List.map_eq_cons_iff.1 hinner
      have hread := Reads.leftBrace hg₁ (.letter hg₂ hg hread)
      simpa [Parser.towerTokens] using hread

theorem tokenises_tower (d : Nat) :
    Tokenises (tower d) (.terminal .return_ :: Parser.towerTokens d) := by
  have hfirst : (tower d).head? ≠ some '#'.toUInt8 := by
    change some (0x72 : UInt8) ≠ _
    decide
  refine Reads.ofBytes (ne_carriageReturn_tower d) hfirst fun gs hgs ↦ ?_
  obtain ⟨first, last, rfl, hfirst, hlast⟩ := List.map_eq_append_iff.1 hgs
  have hread := Reads.return_ hfirst (reads_towerText hlast .nil)
  rwa [List.append_nil, List.append_nil] at hread

theorem le_length_towerTokens (d : Nat) : d ≤ (Parser.towerTokens d).length := by
  induction d with
  | zero => exact Nat.zero_le _
  | succ d ih =>
      simp only [Parser.towerTokens, List.length_cons, List.length_append]
      omega

/-- Whatever its height, a tower is accepted, and all its tables are on one path. -/
theorem tower_ok (name : String) (d : Nat) :
    ∃ c, ofBytes name (tower d) = .ok c ∧ c.body.nesting = d + 2 := by
  obtain ⟨ts, hts⟩ := Parser.towerTokens_starts d
  have htokens := tokenises_tower d
  have hlength := le_length_towerTokens d
  rw [hts] at htokens hlength
  rw [List.length_cons] at hlength
  obtain ⟨at_, e, hchunk, fields, rfl, hweight⟩ := ofBytes_return name
    (P := fun e ↦ ∃ fields, e = .table fields ∧ Field.weights (fun _ ↦ 1) fields = d) htokens rfl rfl
    fun n ms rest hn h ↦ by
      rw [List.length_cons] at hn
      rw [← hts] at h
      obtain ⟨fields, hsimple, hweight⟩ := Parser.simpleExpr_tower (n := n) _ (by omega) h
      exact ⟨.table fields, hsimple, fields, rfl, hweight⟩
  refine ⟨_, hchunk, ?_⟩
  simp [Body.nesting, Body.weight, Stat.weights, Stat.weight, Expr.weights_singleton, Expr.weight,
    hweight, Nat.add_comm, Nat.add_left_comm]

/-- A chunk is accepted in which a path has more blocks and tables than there are levels. -/
theorem tower_exceeds :
    ∃ c, ofBytes "test" (tower 201) = .ok c ∧ Parser.maxLevels + 1 < c.body.nesting := by
  obtain ⟨c, hc, hnesting⟩ := tower_ok "test" 201
  refine ⟨c, hc, ?_⟩
  rw [hnesting]
  decide

end Chunk

end LuaEmbed
