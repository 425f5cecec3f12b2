import LuaEmbed.Proofs.Syntax.Reading

/-!
# The bound on the parser's calls

The functions of the parser take a bound on the depth of their own calls.  Every function leads to
one that reads a lexeme within a number of calls that depends on it alone, so a bound of sixteen
for each lexeme and some more is never met: any greater bound gives the same outcome.  A complaint
about too many syntax levels therefore comes from the levels that a source opens.

`Stable n m` collects this for all functions.  The number in each field is the one of calls that
the function may make before a lexeme is read.
-/

namespace LuaEmbed.Parser

variable {α β : Type} {b i : Nat} {ls : List Lexeme}

/-- Both parsers do the same, and if they succeed they leave fewer than `b` lexemes. -/
def Agree (b : Nat) (ls : List Lexeme) (p q : Parser α) : Prop :=
  p ls = q ls ∧ ∀ a ms, p ls = .ok (a, ms) → ms.length < b

namespace Agree

variable {p q : Parser α} {f g : α → Parser β}

theorem pure {a : α} (h : ls.length < b) : Agree b ls (Pure.pure a : Parser α) (Pure.pure a) := by
  refine ⟨rfl, fun a' ms h' ↦ ?_⟩
  rw [(pure_ok.1 h').2]
  exact h

theorem complain (what : Complaint) :
    Agree b ls (complain what : Parser α) (Parser.complain what) :=
  ⟨rfl, fun _ _ h ↦ (not_ok_of_complain h).elim⟩

theorem mono (h : Agree i ls p q) (hi : i ≤ b) : Agree b ls p q :=
  ⟨h.1, fun a ms hp ↦ Nat.lt_of_lt_of_le (h.2 a ms hp) hi⟩

/-- What follows has to agree on what may be left. -/
theorem bind (h : Agree i ls p q) (hf : ∀ a ms, ms.length < i → Agree b ms (f a) (g a)) :
    Agree b ls (p >>= f) (q >>= g) := by
  obtain ⟨hpq, hleft⟩ := h
  unfold Agree
  cases hp : p ls with
  | error e =>
      rw [bind_of_error hp, bind_of_error (hpq ▸ hp)]
      exact ⟨rfl, fun _ _ h ↦ nomatch h⟩
  | ok r =>
      obtain ⟨a, ms⟩ := r
      rw [bind_of_ok hp, bind_of_ok (hpq ▸ hp)]
      exact hf a ms (hleft a ms hp)

theorem map {k : α → β} (h : Agree b ls p q) : Agree b ls (k <$> p) (k <$> q) := by
  rw [← bind_pure_comp, ← bind_pure_comp]
  exact h.bind fun a ms hms ↦ .pure hms

/-- What comes after a failure does not matter. -/
theorem fail {r : Parser α} {e : SyntaxError} (h : r ls = .error e) :
    Agree b ls (r >>= f) (r >>= g) := by
  unfold Agree
  rw [bind_of_error h, bind_of_error h]
  exact ⟨rfl, fun _ _ h ↦ nomatch h⟩

/-- Something is done first if a condition holds. -/
theorem whenFirst {c : Prop} [Decidable c] {what : Complaint} {k l : Unit → Parser β}
    (h : Agree b ls (k ()) (l ())) :
    Agree b ls (if c then Parser.complain what >>= k else k ())
      (if c then Parser.complain what >>= l else l ()) := by
  split
  · exact fail (complain_apply _)
  · exact h

theorem nested {c : Context} {p q : Context → Parser α}
    (h : ∀ levels, Agree b ls (p { c with levels }) (q { c with levels })) :
    Agree b ls (nested c p) (Parser.nested c q) := by
  unfold Parser.nested
  split
  · apply complain
  · apply h

/-! ## Single tokens -/

/-- A parser that reads nothing of its own may be left out of account. -/
theorem step {r : Parser α} {a : α} {ms : List Lexeme} (h : r ls = .ok (a, ms))
    (hf : Agree b ms (f a) (g a)) : Agree b ls (r >>= f) (r >>= g) := by
  unfold Agree
  rw [bind_of_ok h, bind_of_ok h]
  exact hf

theorem line {k l : Nat → Parser β} (h : ∀ at_, Agree b ls (k at_) (l at_)) :
    Agree b ls (line >>= k) (Parser.line >>= l) := step line_apply (h _)

theorem peek {k l : Token → Parser β} (h : ∀ t, Ahead ls t → Agree b ls (k t) (l t)) :
    Agree b ls (peek >>= k) (Parser.peek >>= l) := by
  cases ho : (front ls).outcome with
  | ok t => exact step (peek_of_ahead ho) (h t ho)
  | error fault => exact fail (peek_of_fault ho)

theorem advance {t : Token} {k l : Unit → Parser β} (ht : Ahead ls t) (hne : t ≠ .endOfInput)
    (h : ∀ ms, ms.length < ls.length → Agree b ms (k ()) (l ())) :
    Agree b ls (advance >>= k) (Parser.advance >>= l) := by
  have hlength := (ht.consumes hne).length_eq
  rw [List.length_singleton] at hlength
  exact step advance_apply (h _ (by omega))

/-- At the end of input nothing is dropped. -/
theorem skip {k l : Unit → Parser β}
    (h : ∀ ms, ms.length ≤ ls.length → Agree b ms (k ()) (l ())) :
    Agree b ls (Parser.advance >>= k) (Parser.advance >>= l) :=
  step advance_apply (h _ (by rw [List.length_tail]; omega))

theorem check {t : Terminal} {k l : Bool → Parser β} (h : ∀ x, Agree b ls (k x) (l x)) :
    Agree b ls (check t >>= k) (Parser.check t >>= l) := by
  simp only [Parser.check, bind_assoc, pure_bind]
  exact peek fun u _ ↦ h _

/-- A terminal has been read, or nothing has. -/
theorem accept {t : Terminal} {k l : Bool → Parser β}
    (htrue : ∀ ms, ms.length < ls.length → Agree b ms (k true) (l true))
    (hfalse : Agree b ls (k false) (l false)) :
    Agree b ls (accept t >>= k) (Parser.accept t >>= l) := by
  simp only [Parser.accept, Parser.check, bind_assoc, pure_bind]
  refine peek fun u hu ↦ ?_
  by_cases ht : u = .terminal t
  · rw [isTerminal_iff.2 ht, if_pos rfl]
    simp only [bind_assoc, pure_bind]
    exact advance hu (by rw [ht]; simp) htrue
  · rw [if_neg (fun h ↦ ht (isTerminal_iff.1 h)), pure_bind]
    exact hfalse

theorem expect {t : Terminal} {k l : Unit → Parser β}
    (h : ∀ ms, ms.length < ls.length → Agree b ms (k ()) (l ())) :
    Agree b ls (expect t >>= k) (Parser.expect t >>= l) := by
  simp only [Parser.expect, bind_assoc]
  refine accept h ?_
  exact fail (complain_apply _)

theorem expectMatch {t opener : Terminal} {opened : Nat} {k l : Unit → Parser β}
    (h : ∀ ms, ms.length < ls.length → Agree b ms (k ()) (l ())) :
    Agree b ls (expectMatch t opener opened >>= k) (Parser.expectMatch t opener opened >>= l) := by
  simp only [Parser.expectMatch, bind_assoc]
  refine accept h ?_
  simp only [Bool.false_eq_true, if_false, bind_assoc]
  refine line fun at_ ↦ ?_
  split <;> exact fail (complain_apply _)

theorem name {k l : String → Parser β}
    (h : ∀ s ms, ms.length < ls.length → Agree b ms (k s) (l s)) :
    Agree b ls (name >>= k) (Parser.name >>= l) := by
  simp only [Parser.name, bind_assoc]
  refine peek fun t ht ↦ ?_
  cases t with
  | name s =>
      simp only [bind_assoc, pure_bind]
      exact advance ht (by simp) (h s)
  | _ => exact fail (complain_apply _)

end Agree

/-! ## All functions -/

/-- With `n` and with `m` calls the functions do the same on lexemes that are few enough. -/
structure Stable (n m : Nat) : Prop where
  namesAfter {t ls ss} : 16 * ls.length < n →
    Agree (ls.length + 1) ls (namesAfter t n ss) (namesAfter t m ss)
  params {ls ss} : 16 * ls.length < n → Agree (ls.length + 1) ls (params n ss) (params m ss)
  block {c ls} : 16 * ls.length + 11 < n → Agree (ls.length + 1) ls (block n c) (block m c)
  statements {c ls ss} : 16 * ls.length + 10 < n →
    Agree (ls.length + 1) ls (statements n c ss) (statements m c ss)
  loopBlock {c ls} : 16 * ls.length + 12 < n →
    Agree (ls.length + 1) ls (loopBlock n c) (loopBlock m c)
  returnStat {c ls} : 16 * ls.length + 9 < n →
    Agree (ls.length + 1) ls (returnStat n c) (returnStat m c)
  statement {c ls} : 16 * ls.length + 5 < n → Agree ls.length ls (statement n c) (statement m c)
  ifRest {c ls at_ ss} : 16 * ls.length < n →
    Agree (ls.length + 1) ls (ifRest n c at_ ss) (ifRest m c at_ ss)
  forStat {c ls at_} : 16 * ls.length < n → Agree ls.length ls (forStat n c at_) (forStat m c at_)
  exprStat {c ls at_} : 16 * ls.length + 4 < n →
    Agree ls.length ls (exprStat n c at_) (exprStat m c at_)
  targetsAfter {c ls es} : 16 * ls.length < n →
    Agree (ls.length + 1) ls (targetsAfter n c es) (targetsAfter m c es)
  funcBody {c ls isMethod at_} : 16 * ls.length < n →
    Agree (ls.length + 1) ls (funcBody n c isMethod at_) (funcBody m c isMethod at_)
  exprList {c ls} : 16 * ls.length + 8 < n → Agree (ls.length + 1) ls (exprList n c) (exprList m c)
  exprsAfter {c ls es} : 16 * ls.length < n →
    Agree (ls.length + 1) ls (exprsAfter n c es) (exprsAfter m c es)
  expr {c ls} : 16 * ls.length + 7 < n → Agree (ls.length + 1) ls (expr n c) (expr m c)
  subexpr {c ls limit} : 16 * ls.length + 6 < n →
    Agree (ls.length + 1) ls (subexpr n c limit) (subexpr m c limit)
  operand {c ls limit} : 16 * ls.length + 5 < n →
    Agree (ls.length + 1) ls (operand n c limit) (operand m c limit)
  binaryTail {c ls e limit} : 16 * ls.length < n →
    Agree (ls.length + 1) ls (binaryTail n c e limit) (binaryTail m c e limit)
  simpleExpr {c ls} : 16 * ls.length + 4 < n →
    Agree (ls.length + 1) ls (simpleExpr n c) (simpleExpr m c)
  primaryExpr {c ls} : 16 * ls.length < n → Agree ls.length ls (primaryExpr n c) (primaryExpr m c)
  suffixedExpr {c ls} : 16 * ls.length + 3 < n →
    Agree ls.length ls (suffixedExpr n c) (suffixedExpr m c)
  suffixedTail {c ls e} : 16 * ls.length + 2 < n →
    Agree (ls.length + 1) ls (suffixedTail n c e) (suffixedTail m c e)
  callArgs {c ls} : 16 * ls.length + 1 < n → Agree ls.length ls (callArgs n c) (callArgs m c)
  tableConstructor {c ls} : 16 * ls.length < n →
    Agree ls.length ls (tableConstructor n c) (tableConstructor m c)
  tableFields {c ls fs} : 16 * ls.length + 9 < n →
    Agree (ls.length + 1) ls (tableFields n c fs) (tableFields m c fs)
  tableField {c ls} : 16 * ls.length + 8 < n →
    Agree (ls.length + 1) ls (tableField n c) (tableField m c)

namespace Stable

variable {n m : Nat} {c : Context}

/-! ### Statements -/

theorem namesAfter_succ (h : Stable n m) {t : Terminal} {ss : List String}
    (hn : 16 * ls.length < n + 1) :
    Agree (ls.length + 1) ls (Parser.namesAfter t (n + 1) ss) (Parser.namesAfter t (m + 1) ss) := by
  rw [Parser.namesAfter, Parser.namesAfter]
  refine .accept (fun ms hms ↦ ?_) ?_
  · refine .name fun s ms' hms' ↦ ?_
    exact (h.namesAfter (by omega)).mono (by omega)
  · exact .pure (Nat.lt_succ_self _)

theorem params_succ (h : Stable n m) {ss : List String} (hn : 16 * ls.length < n + 1) :
    Agree (ls.length + 1) ls (Parser.params (n + 1) ss) (Parser.params (m + 1) ss) := by
  rw [Parser.params, Parser.params]
  refine .accept (fun ms hms ↦ .pure (by omega)) (.name fun s ms hms ↦ ?_)
  refine .accept (fun ms' hms' ↦ ?_) (.pure (by omega))
  exact (h.params (by omega)).mono (by omega)

theorem block_succ (h : Stable n m) (hn : 16 * ls.length + 11 < n + 1) :
    Agree (ls.length + 1) ls (Parser.block (n + 1) c) (Parser.block (m + 1) c) := by
  rw [Parser.block, Parser.block]
  exact .nested fun levels ↦ h.statements (by omega)

theorem statements_succ (h : Stable n m) {ss : List Stat} (hn : 16 * ls.length + 10 < n + 1) :
    Agree (ls.length + 1) ls (Parser.statements (n + 1) c ss) (Parser.statements (m + 1) c ss) := by
  rw [Parser.statements, Parser.statements]
  refine .peek fun t ht ↦ ?_
  split
  · exact .pure (Nat.lt_succ_self _)
  split
  · -- `return`
    exact (h.returnStat (by omega)).bind fun s ms hms ↦ .pure hms
  · -- `break`
    refine .line fun at_ ↦ .advance ht (by simp) fun ms hms ↦ .whenFirst ?_
    exact .accept (fun ms' hms' ↦ .pure (by omega)) (.pure (by omega))
  · refine (h.statement (by omega)).bind fun s ms hms ↦ ?_
    refine .accept (fun ms' hms' ↦ ?_) ?_
    · exact (h.statements (by omega)).mono (by omega)
    · exact (h.statements (by omega)).mono (by omega)

theorem loopBlock_succ (h : Stable n m) (hn : 16 * ls.length + 12 < n + 1) :
    Agree (ls.length + 1) ls (Parser.loopBlock (n + 1) c) (Parser.loopBlock (m + 1) c) := by
  rw [Parser.loopBlock, Parser.loopBlock]
  exact h.block (by omega)

theorem returnStat_succ (h : Stable n m) (hn : 16 * ls.length + 9 < n + 1) :
    Agree (ls.length + 1) ls (Parser.returnStat (n + 1) c) (Parser.returnStat (m + 1) c) := by
  rw [Parser.returnStat, Parser.returnStat]
  refine .line fun at_ ↦ .skip fun ms hms ↦ .peek fun t _ ↦ ?_
  have hend : ∀ (values : List Expr) ms', ms'.length < ms.length + 1 →
      Agree (ls.length + 1) ms'
        (Parser.accept .semicolon >>= fun _ ↦ return Stat.return_ at_ values)
        (Parser.accept .semicolon >>= fun _ ↦ return Stat.return_ at_ values) := fun _ _ _ ↦
    .accept (fun _ _ ↦ .pure (by omega)) (.pure (by omega))
  split
  · exact hend [] ms (Nat.lt_succ_self _)
  · exact (h.exprList (by omega)).bind hend

/-- A loop ends in its block. -/
theorem loop_end (h : Stable n m) {i : Nat} {t opener : Terminal} {at_ : Nat} {f : Block → Stat}
    (hn : 16 * ls.length + 12 < n) (hi : ls.length ≤ i) :
    Agree i ls
      (do
        let body ← Parser.loopBlock n c
        Parser.expectMatch t opener at_
        return f body)
      (do
        let body ← Parser.loopBlock m c
        Parser.expectMatch t opener at_
        return f body) :=
  (h.loopBlock hn).bind fun _ _ _ ↦ .expectMatch fun _ _ ↦ .pure (by omega)

theorem statement_succ (h : Stable n m) (hn : 16 * ls.length + 5 < n + 1) :
    Agree ls.length ls (Parser.statement (n + 1) c) (Parser.statement (m + 1) c) := by
  rw [Parser.statement, Parser.statement]
  refine .line fun at_ ↦ .peek fun t ht ↦ ?_
  split
  · -- `if`
    refine .advance ht (by simp) fun ms hms ↦ (h.expr (by omega)).bind fun condition ms₁ h₁ ↦ ?_
    refine .expect fun ms₂ h₂ ↦ (h.block (by omega)).bind fun first ms₃ h₃ ↦ ?_
    exact (h.ifRest (by omega)).mono (by omega)
  · -- `while`
    refine .advance ht (by simp) fun ms hms ↦ (h.expr (by omega)).bind fun condition ms₁ h₁ ↦ ?_
    exact .expect fun ms₂ h₂ ↦ h.loop_end (by omega) (by omega)
  · -- `do`
    refine .advance ht (by simp) fun ms hms ↦ (h.block (by omega)).bind fun body ms₁ h₁ ↦ ?_
    exact .expectMatch fun ms₂ h₂ ↦ .pure (by omega)
  · -- `for`
    exact h.forStat (by omega)
  · -- `repeat`
    refine .advance ht (by simp) fun ms hms ↦ (h.loopBlock (by omega)).bind fun body ms₁ h₁ ↦ ?_
    refine .expectMatch fun ms₂ h₂ ↦ (h.expr (by omega)).bind fun condition ms₃ h₃ ↦ ?_
    exact .pure (by omega)
  · -- `function`
    refine .advance ht (by simp) fun ms hms ↦ .name fun first ms₁ h₁ ↦ ?_
    refine (h.namesAfter (by omega)).bind fun path ms₂ h₂ ↦ ?_
    refine .accept (fun ms₃ h₃ ↦ .name fun method ms₄ h₄ ↦ ?_) ?_
    · exact (h.funcBody (by omega)).bind fun body ms₅ h₅ ↦ .pure (by omega)
    · exact (h.funcBody (by omega)).bind fun body ms₅ h₅ ↦ .pure (by omega)
  · -- `local`
    refine .advance ht (by simp) fun ms hms ↦ .accept (fun ms₁ h₁ ↦ ?_) ?_
    · refine .name fun s ms₂ h₂ ↦ ?_
      exact (h.funcBody (by omega)).bind fun body ms₃ h₃ ↦ .pure (by omega)
    · refine .name fun first ms₁ h₁ ↦ (h.namesAfter (by omega)).bind fun names ms₂ h₂ ↦ ?_
      refine .accept (fun ms₃ h₃ ↦ ?_) ?_
      · exact (h.exprList (by omega)).bind fun values ms₄ h₄ ↦ .pure (by omega)
      · exact .pure (by omega)
  · exact h.exprStat (by omega)

theorem ifRest_succ (h : Stable n m) {at_ : Nat} {clauses : List Clause}
    (hn : 16 * ls.length < n + 1) :
    Agree (ls.length + 1) ls (Parser.ifRest (n + 1) c at_ clauses)
      (Parser.ifRest (m + 1) c at_ clauses) := by
  rw [Parser.ifRest, Parser.ifRest]
  refine .accept (fun ms hms ↦ ?_) (.accept (fun ms hms ↦ ?_) ?_)
  · -- `elseif`
    refine (h.expr (by omega)).bind fun condition ms₁ h₁ ↦ .expect fun ms₂ h₂ ↦ ?_
    refine (h.block (by omega)).bind fun body ms₃ h₃ ↦ ?_
    exact (h.ifRest (by omega)).mono (by omega)
  · -- `else`
    refine (h.block (by omega)).bind fun otherwise ms₁ h₁ ↦ ?_
    exact .expectMatch fun ms₂ h₂ ↦ .pure (by omega)
  · exact .expectMatch fun ms h₁ ↦ .pure (by omega)

theorem forStat_succ (h : Stable n m) {at_ : Nat} (hn : 16 * ls.length < n + 1) :
    Agree ls.length ls (Parser.forStat (n + 1) c at_) (Parser.forStat (m + 1) c at_) := by
  rw [Parser.forStat, Parser.forStat]
  refine .skip fun ms hms ↦ .name fun first ms₁ h₁ ↦ .accept (fun ms₂ h₂ ↦ ?_) ?_
  · -- numeric
    refine (h.expr (by omega)).bind fun start ms₃ h₃ ↦ .expect fun ms₄ h₄ ↦ ?_
    refine (h.expr (by omega)).bind fun limit ms₅ h₅ ↦ .accept (fun ms₆ h₆ ↦ ?_) ?_
    · have hstep : Agree (ms₆.length + 1) ms₆ (some <$> Parser.expr n c)
          (some <$> Parser.expr m c) := (h.expr (by omega)).map
      refine hstep.bind fun step ms₇ h₇ ↦ .expect fun ms₈ h₈ ↦ ?_
      exact h.loop_end (by omega) (by omega)
    · simp only [Bool.false_eq_true, if_false, pure_bind]
      exact .expect fun ms₆ h₆ ↦ h.loop_end (by omega) (by omega)
  · -- generic
    refine (h.namesAfter (by omega)).bind fun names ms₂ h₂ ↦ ?_
    refine .accept (fun ms₃ h₃ ↦ ?_) (.whenFirst ?_)
    · refine (h.exprList (by omega)).bind fun values ms₄ h₄ ↦ .expect fun ms₅ h₅ ↦ ?_
      exact h.loop_end (by omega) (by omega)
    · refine (h.exprList (by omega)).bind fun values ms₄ h₄ ↦ .expect fun ms₅ h₅ ↦ ?_
      exact h.loop_end (by omega) (by omega)

theorem exprStat_succ (h : Stable n m) {at_ : Nat} (hn : 16 * ls.length + 4 < n + 1) :
    Agree ls.length ls (Parser.exprStat (n + 1) c at_) (Parser.exprStat (m + 1) c at_) := by
  rw [Parser.exprStat, Parser.exprStat]
  refine (h.suffixedExpr (by omega)).bind fun first ms hms ↦ .peek fun t _ ↦ ?_
  split
  · refine (h.targetsAfter (by omega)).bind fun targets ms₁ h₁ ↦ .whenFirst ?_
    refine .expect fun ms₂ h₂ ↦ (h.exprList (by omega)).bind fun values ms₃ h₃ ↦ ?_
    exact .pure (by omega)
  · split
    · exact .pure hms
    · apply Agree.complain

theorem targetsAfter_succ (h : Stable n m) {es : List Expr} (hn : 16 * ls.length < n + 1) :
    Agree (ls.length + 1) ls (Parser.targetsAfter (n + 1) c es)
      (Parser.targetsAfter (m + 1) c es) := by
  rw [Parser.targetsAfter, Parser.targetsAfter]
  refine .accept (fun ms hms ↦ ?_) (.pure (Nat.lt_succ_self _))
  refine (h.suffixedExpr (by omega)).bind fun target ms₁ h₁ ↦ ?_
  exact (h.targetsAfter (by omega)).mono (by omega)

theorem funcBody_succ (h : Stable n m) {isMethod : Bool} {at_ : Nat}
    (hn : 16 * ls.length < n + 1) :
    Agree (ls.length + 1) ls (Parser.funcBody (n + 1) c isMethod at_)
      (Parser.funcBody (m + 1) c isMethod at_) := by
  rw [Parser.funcBody, Parser.funcBody]
  refine .expect fun ms hms ↦ .check fun atEnd ↦ ?_
  have hbody : ∀ (ps : List String × Bool) ms', ms'.length < ms.length + 1 →
      Agree (ls.length + 1) ms'
        (do
          Parser.expect .rightParen
          let body ← Parser.block n { c with vararg := ps.2, loop := false }
          Parser.expectMatch .end_ .function at_
          return .mk ps.1 ps.2 at_ body)
        (do
          Parser.expect .rightParen
          let body ← Parser.block m { c with vararg := ps.2, loop := false }
          Parser.expectMatch .end_ .function at_
          return Body.mk ps.1 ps.2 at_ body) := fun ps ms' hms' ↦ by
    refine .expect fun ms₁ h₁ ↦ (h.block (by omega)).bind fun body ms₂ h₂ ↦ ?_
    exact .expectMatch fun ms₃ h₃ ↦ .pure (by omega)
  cases atEnd with
  | true => exact hbody (_, false) ms (Nat.lt_succ_self _)
  | false => exact (h.params (by omega)).bind hbody

/-! ### Expressions -/

theorem exprList_succ (h : Stable n m) (hn : 16 * ls.length + 8 < n + 1) :
    Agree (ls.length + 1) ls (Parser.exprList (n + 1) c) (Parser.exprList (m + 1) c) := by
  rw [Parser.exprList, Parser.exprList]
  refine (h.expr (by omega)).bind fun first ms hms ↦ ?_
  exact (h.exprsAfter (by omega)).mono (by omega)

theorem exprsAfter_succ (h : Stable n m) {es : List Expr} (hn : 16 * ls.length < n + 1) :
    Agree (ls.length + 1) ls (Parser.exprsAfter (n + 1) c es)
      (Parser.exprsAfter (m + 1) c es) := by
  rw [Parser.exprsAfter, Parser.exprsAfter]
  refine .accept (fun ms hms ↦ ?_) (.pure (Nat.lt_succ_self _))
  refine (h.expr (by omega)).bind fun e ms₁ h₁ ↦ ?_
  exact (h.exprsAfter (by omega)).mono (by omega)

theorem expr_succ (h : Stable n m) (hn : 16 * ls.length + 7 < n + 1) :
    Agree (ls.length + 1) ls (Parser.expr (n + 1) c) (Parser.expr (m + 1) c) := by
  rw [Parser.expr, Parser.expr]
  exact h.subexpr (by omega)

theorem subexpr_succ (h : Stable n m) {limit : Nat} (hn : 16 * ls.length + 6 < n + 1) :
    Agree (ls.length + 1) ls (Parser.subexpr (n + 1) c limit)
      (Parser.subexpr (m + 1) c limit) := by
  rw [Parser.subexpr, Parser.subexpr]
  exact .nested fun levels ↦ h.operand (by omega)

theorem binaryOp?_ne_end {t : Token} {op : BinaryOp} (h : binaryOp? t = some op) :
    t ≠ .endOfInput := by
  rintro rfl
  exact nomatch h

theorem unaryOp?_ne_end {t : Token} {op : UnaryOp} (h : unaryOp? t = some op) :
    t ≠ .endOfInput := by
  rintro rfl
  exact nomatch h

theorem operand_succ (h : Stable n m) {limit : Nat} (hn : 16 * ls.length + 5 < n + 1) :
    Agree (ls.length + 1) ls (Parser.operand (n + 1) c limit)
      (Parser.operand (m + 1) c limit) := by
  rw [Parser.operand, Parser.operand]
  refine .line fun at_ ↦ .peek fun t ht ↦ ?_
  split
  · next op hop =>
    refine .advance ht (unaryOp?_ne_end hop) fun ms hms ↦ ?_
    refine (h.subexpr (by omega)).bind fun e ms₁ h₁ ↦ ?_
    exact (h.binaryTail (by omega)).mono (by omega)
  · refine (h.simpleExpr (by omega)).bind fun e ms hms ↦ ?_
    exact (h.binaryTail (by omega)).mono (by omega)

theorem binaryTail_succ (h : Stable n m) {left : Expr} {limit : Nat}
    (hn : 16 * ls.length < n + 1) :
    Agree (ls.length + 1) ls (Parser.binaryTail (n + 1) c left limit)
      (Parser.binaryTail (m + 1) c left limit) := by
  rw [Parser.binaryTail, Parser.binaryTail]
  refine .peek fun t ht ↦ ?_
  split
  · exact .pure (Nat.lt_succ_self _)
  · next op hop =>
    split
    · exact .pure (Nat.lt_succ_self _)
    · refine .line fun at_ ↦ .advance ht (binaryOp?_ne_end hop) fun ms hms ↦ ?_
      refine (h.subexpr (by omega)).bind fun right ms₁ h₁ ↦ ?_
      exact (h.binaryTail (by omega)).mono (by omega)

theorem simpleExpr_succ (h : Stable n m) (hn : 16 * ls.length + 4 < n + 1) :
    Agree (ls.length + 1) ls (Parser.simpleExpr (n + 1) c) (Parser.simpleExpr (m + 1) c) := by
  rw [Parser.simpleExpr, Parser.simpleExpr]
  refine .line fun at_ ↦ .peek fun t ht ↦ ?_
  split
  · exact .advance ht (by simp) fun ms hms ↦ .pure (by omega)
  · exact .advance ht (by simp) fun ms hms ↦ .pure (by omega)
  · exact .advance ht (by simp) fun ms hms ↦ .pure (by omega)
  · exact .advance ht (by simp) fun ms hms ↦ .pure (by omega)
  · exact .advance ht (by simp) fun ms hms ↦ .pure (by omega)
  · -- `...`
    split
    · exact .advance ht (by simp) fun ms hms ↦ .pure (by omega)
    · apply Agree.complain
  · exact (h.tableConstructor (by omega)).mono (by omega)
  · -- `function`
    refine .advance ht (by simp) fun ms hms ↦ ?_
    exact (h.funcBody (by omega)).bind fun body ms₁ h₁ ↦ .pure (by omega)
  · exact (h.suffixedExpr (by omega)).mono (by omega)

theorem primaryExpr_succ (h : Stable n m) (hn : 16 * ls.length < n + 1) :
    Agree ls.length ls (Parser.primaryExpr (n + 1) c) (Parser.primaryExpr (m + 1) c) := by
  rw [Parser.primaryExpr, Parser.primaryExpr]
  refine .peek fun t ht ↦ ?_
  split
  · exact .advance ht (by simp) fun ms hms ↦ .pure hms
  · refine .line fun at_ ↦ .advance ht (by simp) fun ms hms ↦ ?_
    refine (h.expr (by omega)).bind fun inner ms₁ h₁ ↦ ?_
    exact .expectMatch fun ms₂ h₂ ↦ .pure (by omega)
  · apply Agree.complain

theorem suffixedExpr_succ (h : Stable n m) (hn : 16 * ls.length + 3 < n + 1) :
    Agree ls.length ls (Parser.suffixedExpr (n + 1) c) (Parser.suffixedExpr (m + 1) c) := by
  rw [Parser.suffixedExpr, Parser.suffixedExpr]
  refine (h.primaryExpr (by omega)).bind fun e ms hms ↦ ?_
  exact (h.suffixedTail (by omega)).mono (by omega)

theorem suffixedTail_succ (h : Stable n m) {e : Expr} (hn : 16 * ls.length + 2 < n + 1) :
    Agree (ls.length + 1) ls (Parser.suffixedTail (n + 1) c e)
      (Parser.suffixedTail (m + 1) c e) := by
  have hcall : ∀ {f : List Expr → Expr} {ms : List Lexeme}, ms.length ≤ ls.length →
      Agree (ls.length + 1) ms
        (Parser.callArgs n c >>= fun args ↦ Parser.suffixedTail n c (f args))
        (Parser.callArgs m c >>= fun args ↦ Parser.suffixedTail m c (f args)) := fun hms ↦
    (h.callArgs (by omega)).bind fun args ms₁ h₁ ↦ (h.suffixedTail (by omega)).mono (by omega)
  rw [Parser.suffixedTail, Parser.suffixedTail]
  refine .line fun at_ ↦ .peek fun t ht ↦ ?_
  split
  · -- `.`
    refine .advance ht (by simp) fun ms hms ↦ .name fun s ms₁ h₁ ↦ ?_
    exact (h.suffixedTail (by omega)).mono (by omega)
  · -- `[`
    refine .advance ht (by simp) fun ms hms ↦ (h.expr (by omega)).bind fun key ms₁ h₁ ↦ ?_
    exact .expect fun ms₂ h₂ ↦ (h.suffixedTail (by omega)).mono (by omega)
  · -- `:`
    exact .advance ht (by simp) fun ms hms ↦ .name fun s ms₁ h₁ ↦ hcall (by omega)
  · exact hcall (Nat.le_refl _)
  · exact hcall (Nat.le_refl _)
  · exact hcall (Nat.le_refl _)
  · exact .pure (Nat.lt_succ_self _)

theorem callArgs_succ (h : Stable n m) (hn : 16 * ls.length + 1 < n + 1) :
    Agree ls.length ls (Parser.callArgs (n + 1) c) (Parser.callArgs (m + 1) c) := by
  rw [Parser.callArgs, Parser.callArgs]
  refine .peek fun t ht ↦ ?_
  split
  · exact .advance ht (by simp) fun ms hms ↦ .pure hms
  · exact (h.tableConstructor (by omega)).bind fun e ms hms ↦ .pure hms
  · refine .line fun at_ ↦ .advance ht (by simp) fun ms hms ↦ ?_
    refine .accept (fun ms₁ h₁ ↦ .pure (by omega)) ?_
    refine (h.exprList (by omega)).bind fun args ms₁ h₁ ↦ ?_
    exact .expectMatch fun ms₂ h₂ ↦ .pure (by omega)
  · apply Agree.complain

/-! ### Tables -/

theorem tableConstructor_succ (h : Stable n m) (hn : 16 * ls.length < n + 1) :
    Agree ls.length ls (Parser.tableConstructor (n + 1) c)
      (Parser.tableConstructor (m + 1) c) := by
  rw [Parser.tableConstructor, Parser.tableConstructor]
  refine .line fun at_ ↦ .expect fun ms hms ↦ ?_
  refine (h.tableFields (by omega)).bind fun fields ms₁ h₁ ↦ ?_
  exact .expectMatch fun ms₂ h₂ ↦ .pure (by omega)

theorem tableFields_succ (h : Stable n m) {fs : List Field} (hn : 16 * ls.length + 9 < n + 1) :
    Agree (ls.length + 1) ls (Parser.tableFields (n + 1) c fs)
      (Parser.tableFields (m + 1) c fs) := by
  rw [Parser.tableFields, Parser.tableFields]
  refine .check fun atEnd ↦ ?_
  split
  · exact .pure (Nat.lt_succ_self _)
  · refine (h.tableField (by omega)).bind fun field ms hms ↦ ?_
    refine .accept (fun ms₁ h₁ ↦ ?_) (.accept (fun ms₁ h₁ ↦ ?_) (.pure hms))
    · exact (h.tableFields (by omega)).mono (by omega)
    · exact (h.tableFields (by omega)).mono (by omega)

theorem tableField_succ (h : Stable n m) (hn : 16 * ls.length + 8 < n + 1) :
    Agree (ls.length + 1) ls (Parser.tableField (n + 1) c) (Parser.tableField (m + 1) c) := by
  rw [Parser.tableField, Parser.tableField]
  refine .peek fun t ht ↦ ?_
  split
  · -- `[`
    refine .advance ht (by simp) fun ms hms ↦ (h.expr (by omega)).bind fun key ms₁ h₁ ↦ ?_
    refine .expect fun ms₂ h₂ ↦ .expect fun ms₃ h₃ ↦ ?_
    exact (h.expr (by omega)).bind fun value ms₄ h₄ ↦ .pure (by omega)
  · -- a name
    refine .advance ht (by simp) fun ms hms ↦ .accept (fun ms₁ h₁ ↦ ?_) ?_
    · exact (h.expr (by omega)).bind fun value ms₂ h₂ ↦ .pure (by omega)
    · refine (h.suffixedTail (by omega)).bind fun e ms₁ h₁ ↦ ?_
      exact (h.binaryTail (by omega)).bind fun e ms₂ h₂ ↦ .pure (by omega)
  · exact (h.expr (by omega)).bind fun e ms hms ↦ .pure hms

end Stable

/-- By induction on the smaller bound; the lexemes are few enough for none to be without calls. -/
theorem stable : ∀ {n m : Nat}, n ≤ m → Stable n m
  | 0, _, _ => by constructor <;> (intros; omega)
  | n + 1, 0, h => absurd h (Nat.not_succ_le_zero n)
  | n + 1, m + 1, hnm =>
      have h := stable (Nat.le_of_succ_le_succ hnm)
      { namesAfter := h.namesAfter_succ,
        params := h.params_succ,
        block := h.block_succ,
        statements := h.statements_succ,
        loopBlock := h.loopBlock_succ,
        returnStat := h.returnStat_succ,
        statement := h.statement_succ,
        ifRest := h.ifRest_succ,
        forStat := h.forStat_succ,
        exprStat := h.exprStat_succ,
        targetsAfter := h.targetsAfter_succ,
        funcBody := h.funcBody_succ,
        exprList := h.exprList_succ,
        exprsAfter := h.exprsAfter_succ,
        expr := h.expr_succ,
        subexpr := h.subexpr_succ,
        operand := h.operand_succ,
        binaryTail := h.binaryTail_succ,
        simpleExpr := h.simpleExpr_succ,
        primaryExpr := h.primaryExpr_succ,
        suffixedExpr := h.suffixedExpr_succ,
        suffixedTail := h.suffixedTail_succ,
        callArgs := h.callArgs_succ,
        tableConstructor := h.tableConstructor_succ,
        tableFields := h.tableFields_succ,
        tableField := h.tableField_succ }

/-- A chunk does not depend on the bound, once there are sixteen calls for each lexeme. -/
theorem chunk_stable {n m : Nat} (hn : 16 * ls.length + 11 < n) (hm : n ≤ m) :
    chunk n ls = chunk m ls := by
  suffices h : Agree (ls.length + 1) ls (chunk n) (chunk m) from h.1
  rw [chunk, chunk]
  refine ((stable hm).block hn).bind fun stats ms hms ↦ .peek fun t _ ↦ ?_
  split
  · exact .pure hms
  · apply Agree.complain

end LuaEmbed.Parser
