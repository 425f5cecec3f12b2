import LuaEmbed.Proofs.Syntax.Acceptance

/-!
# Chunks that return one operand

A source of `return` and one operand without operators around it is read as a block of that one
statement, with the levels that reading the operand needs.
-/

namespace LuaEmbed

namespace Parser

variable {c : Context} {n : Nat} {e : Expr} {t : Token} {ls rest : List Lexeme}

/-- An operand at the end of input is an expression as long as one level is left. -/
theorem expr_of_simpleExpr (levels : Nat) (hlevels : c.levels = levels + 1) (ht : Ahead ls t)
    (hunary : unaryOp? t = none)
    (hsimple : simpleExpr (n + 1) { c with levels } ls = .ok (e, rest))
    (hend : Ahead rest .endOfInput) : expr (n + 4) c ls = .ok (e, rest) := by
  have htail : binaryTail (n + 1) { c with levels } e 0 rest = .ok (e, rest) := by
    rw [binaryTail, bind_of_ok (peek_of_ahead hend)]
    rfl
  have hoperand : operand (n + 2) { c with levels } 0 ls = .ok (e, rest) := by
    rw [operand, bind_of_ok line_apply, bind_of_ok (peek_of_ahead ht), hunary]
    exact (bind_of_ok hsimple).trans htail
  rw [expr, subexpr]
  exact nested_ok.2 ⟨levels, hlevels, hoperand⟩

/-- A chunk may return any operand that two levels less than all suffice for. -/
theorem chunk_return {ms : List Lexeme} (hreturn : Consumes ls [.terminal .return_] ms)
    (ht : Ahead ms t) (hvalue : (t.endsBlock || t.isTerminal .semicolon) = false)
    (hunary : unaryOp? t = none)
    (hsimple : simpleExpr (n + 1) ⟨maxLevels - 2, true, false⟩ ms = .ok (e, rest))
    (hend : Ahead rest .endOfInput) :
    ∃ at_, chunk (n + 8) ls = .ok ([.return_ at_ [e]], rest) := by
  have hexpr : expr (n + 4) ⟨maxLevels - 1, true, false⟩ ms = .ok (e, rest) :=
    expr_of_simpleExpr (maxLevels - 2) rfl ht hunary hsimple hend
  have hlist : exprList (n + 5) ⟨maxLevels - 1, true, false⟩ ms = .ok ([e], rest) := by
    rw [exprList]
    refine (bind_of_ok hexpr).trans ?_
    rw [exprsAfter, bind_of_ok (accept_of_ne hend (by simp))]
    rfl
  have hstat : returnStat (n + 6) ⟨maxLevels - 1, true, false⟩ ls =
      .ok (.return_ (front ls).position.line [e], rest) := by
    rw [returnStat, bind_of_ok line_apply, bind_of_ok advance_apply, ← hreturn.tail_eq,
      bind_of_ok (peek_of_ahead ht), hvalue]
    refine (bind_of_ok hlist).trans ?_
    exact bind_of_ok (accept_of_ne hend (by simp))
  have hstatements : statements (n + 7) ⟨maxLevels - 1, true, false⟩ [] ls =
      .ok ([.return_ (front ls).position.line [e]], rest) := by
    rw [statements, bind_of_ok (peek_of_ahead hreturn.ahead)]
    exact bind_of_ok hstat
  have hblock : block (n + 8) ⟨maxLevels, true, false⟩ ls =
      .ok ([.return_ (front ls).position.line [e]], rest) := hstatements
  refine ⟨(front ls).position.line, ?_⟩
  rw [chunk, bind_of_ok hblock, bind_of_ok (peek_of_ahead hend)]
  rfl

end Parser

namespace Chunk

variable {source : List UInt8} {P : Expr → Prop} {t : Token} {ts : List Token}

/-- A source whose tokens are a `return` and an operand that can be read is a chunk that returns
it. -/
theorem ofBytes_return (name : String) (h : Tokenises source (.terminal .return_ :: t :: ts))
    (hvalue : (t.endsBlock || t.isTerminal .semicolon) = false) (hunary : Parser.unaryOp? t = none)
    (hsimple : ∀ n ms rest, 16 * (t :: ts).length ≤ n → Parser.Consumes ms (t :: ts) rest →
      ∃ e, Parser.simpleExpr (n + 1) ⟨Parser.maxLevels - 2, true, false⟩ ms = .ok (e, rest) ∧ P e) :
    ∃ at_ e, ofBytes name source = .ok ⟨name, .mk [] true 0 [.return_ at_ [e]]⟩ ∧ P e := by
  obtain ⟨rest, hconsumes, hrest⟩ := Parser.Consumes.of_map h
  have hend : Parser.Ahead rest .endOfInput := by
    cases rest with
    | nil => exact nomatch hrest
    | cons l rest => exact (List.cons.inj hrest).1
  have hlength := hconsumes.length_eq
  rw [List.length_cons] at hlength
  obtain ⟨ms, hreturn, hoperand⟩ := Parser.Consumes.cons_iff.1 hconsumes
  obtain ⟨e, he, hP⟩ := hsimple (16 * (Lexer.ofBytes source).lexemes.length + 56) ms rest
    (by omega) hoperand
  obtain ⟨at_, hchunk⟩ := Parser.chunk_return hreturn hoperand.ahead hvalue hunary he hend
  refine ⟨at_, e, ?_, hP⟩
  rw [ofBytes, ofLexemes_eq, hchunk]
  rfl

end Chunk

end LuaEmbed
