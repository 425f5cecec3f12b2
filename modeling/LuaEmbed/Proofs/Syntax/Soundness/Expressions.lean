import LuaEmbed.Proofs.Syntax.Grammar
import LuaEmbed.Proofs.Syntax.Reading

/-!
# What is read as an expression is derivable

Each function of the parser that succeeds has read a list of tokens that the greedy grammar derives
from the category it stands for.  `Sound n` collects this for all functions whose calls are bounded
by `n`; a function with bound `n + 1` calls only such ones, so there is one lemma for each function.
Those about expressions are here.

Loops hold what they have read before in an argument, so their lemmas say what they do to *any*
list of tokens that is derivable at the start.
-/

namespace LuaEmbed.Parser

open Grammar

/-- Tokens have been read that the category derives where the context stands. -/
def Reads (k : Category) (c : Context) (ls rest : List Lexeme) : Prop :=
  ∃ ts, Consumes ls ts rest ∧ Derives true k c.vararg c.loop ts

/-- Something that ends in a prefix expression is not followed by `(`. -/
def Closed (ends : Bool) (rest : List Lexeme) : Prop :=
  ends = true → ¬ Ahead rest (.terminal .leftParen)

/-- The tokens spell a prefix expression of the sort that the tree `e` is. -/
structure SpellsPrefix (c : Context) (e : Expr) (ts : List Token) : Prop where
  isPrefix : Derives true .prefixExp c.vararg c.loop ts
  isVar : e.isTarget = true → Derives true .var c.vararg c.loop ts
  isCall : e.isCall = true → Derives true .functionCall c.vararg c.loop ts

/-- Reading on from an expression makes it an expression again, of which no `(` is left. -/
def Extends (k : Bool → Category) (c : Context) (ls rest : List Lexeme) : Prop :=
  ∀ {e ts}, Derives true (.exp e) c.vararg c.loop ts → Closed e ls →
    ∃ e' us, Consumes ls us rest ∧ Derives true (k e') c.vararg c.loop (ts ++ us) ∧ Closed e' rest

/-- What the functions with bound `n` read when they succeed. -/
structure Sound (n : Nat) : Prop where
  block {c ls b rest} : block n c ls = .ok (b, rest) → Reads .chunk c ls rest
  statements {c before ls b rest} :
    statements n c before ls = .ok (b, rest) → Reads .chunk c ls rest
  loopBlock {c ls b rest} :
    loopBlock n c ls = .ok (b, rest) → Reads .chunk { c with loop := true } ls rest
  returnStat {c ls s rest} :
    returnStat n c ls = .ok (s, rest) → Ahead ls (.terminal .return_) → Reads .chunk c ls rest
  statement {c ls s rest} :
    statement n c ls = .ok (s, rest) → ∃ e, Reads (.stat e) c ls rest ∧ Closed e rest
  ifRest {c at_ before ls s rest} :
    ifRest n c at_ before ls = .ok (s, rest) → Reads .ifRest c ls rest
  forStat {c at_ ls s rest} :
    forStat n c at_ ls = .ok (s, rest) → Ahead ls (.terminal .for_) → Reads (.stat false) c ls rest
  exprStat {c at_ ls s rest} :
    exprStat n c at_ ls = .ok (s, rest) → ∃ e, Reads (.stat e) c ls rest ∧ Closed e rest
  targetsAfter {c before ls es rest} :
    targetsAfter n c before ls = .ok (es, rest) → es.all Expr.isTarget = true →
      before.all Expr.isTarget = true ∧
      ∀ {ts}, Derives true .var c.vararg c.loop ts →
        ∃ us, Consumes ls us rest ∧ Derives true .varList c.vararg c.loop (ts ++ us)
  funcBody {c isMethod at_ ls b rest} :
    funcBody n c isMethod at_ ls = .ok (b, rest) → Reads .funcBody c ls rest
  exprList {c ls es rest} :
    exprList n c ls = .ok (es, rest) → ∃ e, Reads (.expList e) c ls rest ∧ Closed e rest
  exprsAfter {c before ls es rest} :
    exprsAfter n c before ls = .ok (es, rest) → Extends .expList c ls rest
  expr {c ls e rest} :
    expr n c ls = .ok (e, rest) → ∃ b, Reads (.exp b) c ls rest ∧ Closed b rest
  subexpr {c limit ls e rest} :
    subexpr n c limit ls = .ok (e, rest) → ∃ b, Reads (.exp b) c ls rest ∧ Closed b rest
  operand {c limit ls e rest} :
    operand n c limit ls = .ok (e, rest) → ∃ b, Reads (.exp b) c ls rest ∧ Closed b rest
  binaryTail {c left limit ls e rest} :
    binaryTail n c left limit ls = .ok (e, rest) → Extends .exp c ls rest
  simpleExpr {c ls e rest} :
    simpleExpr n c ls = .ok (e, rest) → ∃ b, Reads (.exp b) c ls rest ∧ Closed b rest
  primaryExpr {c ls e rest} :
    primaryExpr n c ls = .ok (e, rest) → ∃ ts, Consumes ls ts rest ∧ SpellsPrefix c e ts
  suffixedExpr {c ls e rest} :
    suffixedExpr n c ls = .ok (e, rest) →
      (∃ ts, Consumes ls ts rest ∧ SpellsPrefix c e ts) ∧ ¬ Ahead rest (.terminal .leftParen)
  suffixedTail {c e ls e' rest} :
    suffixedTail n c e ls = .ok (e', rest) →
      (∀ {ts}, SpellsPrefix c e ts → ∃ us, Consumes ls us rest ∧ SpellsPrefix c e' (ts ++ us)) ∧
      ¬ Ahead rest (.terminal .leftParen)
  callArgs {c ls es rest} : callArgs n c ls = .ok (es, rest) → Reads .args c ls rest
  tableConstructor {c ls e rest} :
    tableConstructor n c ls = .ok (e, rest) → Reads .tableConstructor c ls rest
  tableFields {c before ls fs rest} :
    tableFields n c before ls = .ok (fs, rest) → rest = ls ∨ Reads .fieldList c ls rest
  tableField {c ls f rest} : tableField n c ls = .ok (f, rest) → Reads .field c ls rest

namespace Sound

variable {n : Nat} {c : Context} {ls rest : List Lexeme}

/-! ## Expressions -/

theorem exprList_succ (h : Sound n) {es : List Expr}
    (hs : Parser.exprList (n + 1) c ls = .ok (es, rest)) :
    ∃ e, Reads (.expList e) c ls rest ∧ Closed e rest := by
  rw [Parser.exprList, bind_ok] at hs
  obtain ⟨first, ms, hfirst, hs⟩ := hs
  obtain ⟨e, ⟨ts, hts, hd⟩, he⟩ := h.expr hfirst
  obtain ⟨e', us, hus, hd', he'⟩ := h.exprsAfter hs hd he
  exact ⟨e', ⟨_, hts.trans hus, hd'⟩, he'⟩

theorem exprsAfter_succ (h : Sound n) {before es : List Expr}
    (hs : Parser.exprsAfter (n + 1) c before ls = .ok (es, rest)) :
    Extends .expList c ls rest := by
  intro e ts hd he
  rw [Parser.exprsAfter, accept_bind_ok] at hs
  rcases hs with ⟨ms, hcomma, hs⟩ | ⟨_, _, _, hs⟩
  · obtain ⟨next, ms₁, hnext, hs⟩ := bind_ok.1 hs
    obtain ⟨e₁, ⟨us, hus, hd₁⟩, he₁⟩ := h.expr hnext
    obtain ⟨e', ws, hws, hd', he'⟩ := h.exprsAfter hs hd₁ he₁
    exact ⟨e', _, hcomma.trans (hus.trans hws), .expListMore hd hd', he'⟩
  · obtain ⟨rfl, rfl⟩ := pure_ok.1 hs
    refine ⟨e, [], .refl _, ?_, he⟩
    rw [List.append_nil]
    exact .expListExp hd

theorem expr_succ (h : Sound n) {e : Expr} (hs : Parser.expr (n + 1) c ls = .ok (e, rest)) :
    ∃ b, Reads (.exp b) c ls rest ∧ Closed b rest :=
  h.subexpr hs

theorem subexpr_succ (h : Sound n) {limit : Nat} {e : Expr}
    (hs : Parser.subexpr (n + 1) c limit ls = .ok (e, rest)) :
    ∃ b, Reads (.exp b) c ls rest ∧ Closed b rest := by
  rw [Parser.subexpr, nested_ok] at hs
  obtain ⟨levels, _, hs⟩ := hs
  have := h.operand hs
  exact this

/-- A token that the parser takes for an operator between operands is one. -/
theorem mem_binaryOperators {t : Token} {op : BinaryOp} (h : binaryOp? t = some op) :
    ∃ u ∈ Terminal.binaryOperators, t = .terminal u := by
  cases t with
  | terminal u =>
      have hu : (binaryOp? (.terminal u)).isSome = decide (u ∈ Terminal.binaryOperators) := by
        cases u <;> rfl
      rw [h, Option.isSome_some] at hu
      exact ⟨u, of_decide_eq_true hu.symm, rfl⟩
  | _ => exact nomatch h

/-- A token that the parser takes for an operator before an operand is one. -/
theorem mem_unaryOperators {t : Token} {op : UnaryOp} (h : unaryOp? t = some op) :
    ∃ u ∈ Terminal.unaryOperators, t = .terminal u := by
  cases t with
  | terminal u =>
      have hu : (unaryOp? (.terminal u)).isSome = decide (u ∈ Terminal.unaryOperators) := by
        cases u <;> rfl
      rw [h, Option.isSome_some] at hu
      exact ⟨u, of_decide_eq_true hu.symm, rfl⟩
  | _ => exact nomatch h

theorem operand_succ (h : Sound n) {limit : Nat} {e : Expr}
    (hs : Parser.operand (n + 1) c limit ls = .ok (e, rest)) :
    ∃ b, Reads (.exp b) c ls rest ∧ Closed b rest := by
  rw [Parser.operand, bind_of_ok line_apply, peek_bind_ok] at hs
  obtain ⟨t, ht, hs⟩ := hs
  cases hop : unaryOp? t with
  | some op =>
      simp only [hop] at hs
      obtain ⟨u, hu, rfl⟩ := mem_unaryOperators hop
      have hunary := ht.consumes (fun h ↦ nomatch h)
      rw [bind_of_ok advance_apply] at hs
      obtain ⟨inner, ms, hinner, hs⟩ := bind_ok.1 hs
      obtain ⟨b, ⟨ts, hts, hd⟩, hb⟩ := h.subexpr hinner
      obtain ⟨b', us, hus, hd', hb'⟩ := h.binaryTail hs (.expUnary hu hd) hb
      exact ⟨b', ⟨_, (hunary.trans hts).trans hus, hd'⟩, hb'⟩
  | none =>
      simp only [hop] at hs
      obtain ⟨inner, ms, hinner, hs⟩ := bind_ok.1 hs
      obtain ⟨b, ⟨ts, hts, hd⟩, hb⟩ := h.simpleExpr hinner
      obtain ⟨b', us, hus, hd', hb'⟩ := h.binaryTail hs hd hb
      exact ⟨b', ⟨_, hts.trans hus, hd'⟩, hb'⟩

theorem binaryTail_succ (h : Sound n) {left : Expr} {limit : Nat} {e : Expr}
    (hs : Parser.binaryTail (n + 1) c left limit ls = .ok (e, rest)) :
    Extends .exp c ls rest := by
  intro b ts hd hb
  have stop : ∀ {l : Expr}, (pure l : Parser Expr) ls = .ok (e, rest) →
      ∃ b' us, Consumes ls us rest ∧ Derives true (.exp b') c.vararg c.loop (ts ++ us) ∧
        Closed b' rest := by
    intro l hs
    obtain ⟨rfl, rfl⟩ := pure_ok.1 hs
    exact ⟨b, [], .refl _, by rwa [List.append_nil], hb⟩
  rw [Parser.binaryTail, peek_bind_ok] at hs
  obtain ⟨t, ht, hs⟩ := hs
  cases hop : binaryOp? t with
  | none =>
      simp only [hop] at hs
      exact stop hs
  | some op =>
      simp only [hop] at hs
      obtain ⟨u, hu, rfl⟩ := mem_binaryOperators hop
      split at hs
      · exact stop hs
      · have hoperator := ht.consumes (fun h ↦ nomatch h)
        rw [bind_of_ok line_apply, bind_of_ok advance_apply] at hs
        obtain ⟨right, ms, hright, hs⟩ := bind_ok.1 hs
        obtain ⟨b₁, ⟨us, hus, hd₁⟩, hb₁⟩ := h.subexpr hright
        obtain ⟨b', ws, hws, hd', hb'⟩ := h.binaryTail hs (.expBinary hu hd hd₁) hb₁
        refine ⟨b', _, hoperator.trans (hus.trans hws), ?_, hb'⟩
        simpa using hd'

theorem simpleExpr_succ (h : Sound n) {e : Expr}
    (hs : Parser.simpleExpr (n + 1) c ls = .ok (e, rest)) :
    ∃ b, Reads (.exp b) c ls rest ∧ Closed b rest := by
  have done : ∀ {ms : List Lexeme}, Reads (.exp false) c ls ms →
      ∃ b, Reads (.exp b) c ls ms ∧ Closed b ms := fun hr ↦ ⟨false, hr, fun h ↦ nomatch h⟩
  have single : ∀ {t : Token} {a : Expr}, Ahead ls t → t ≠ .endOfInput →
      Derives true (.exp false) c.vararg c.loop [t] →
      (do advance; return a : Parser Expr) ls = .ok (e, rest) →
      ∃ b, Reads (.exp b) c ls rest ∧ Closed b rest := by
    intro t a ht hend hd hs
    rw [bind_of_ok advance_apply] at hs
    obtain ⟨rfl, rfl⟩ := pure_ok.1 hs
    exact done ⟨_, ht.consumes hend, hd⟩
  rw [Parser.simpleExpr, bind_of_ok line_apply, peek_bind_ok] at hs
  obtain ⟨t, ht, hs⟩ := hs
  split at hs
  · exact single ht (fun h ↦ nomatch h) .expNumber hs
  · exact single ht (fun h ↦ nomatch h) .expString hs
  · exact single ht (fun h ↦ nomatch h) .expNil hs
  · exact single ht (fun h ↦ nomatch h) .expTrue hs
  · exact single ht (fun h ↦ nomatch h) .expFalse hs
  · split at hs
    · next hv =>
      refine single ht (fun h ↦ nomatch h) ?_ hs
      rw [hv]
      exact .expVararg
    · rw [complain_apply] at hs
      exact nomatch hs
  · obtain ⟨ts, hts, hd⟩ := h.tableConstructor hs
    exact done ⟨ts, hts, .expTable hd⟩
  · have hfunction := ht.consumes (fun h ↦ nomatch h)
    rw [bind_of_ok advance_apply] at hs
    obtain ⟨body, ms, hr, hs⟩ := bind_ok.1 hs
    obtain ⟨ts, hts, hd⟩ := h.funcBody hr
    obtain ⟨rfl, rfl⟩ := pure_ok.1 hs
    exact done ⟨_, hfunction.trans hts, .expFunction hd⟩
  · obtain ⟨⟨ts, hts, hspells⟩, hclosed⟩ := h.suffixedExpr hs
    exact ⟨true, ⟨ts, hts, .expPrefix hspells.isPrefix⟩, fun _ ↦ hclosed⟩

/-! ## Prefix expressions -/

/-- Tokens of a variable spell a tree that can be assigned to and is no call. -/
theorem spells_var {e : Expr} {ts : List Token} (he : e.isCall = false)
    (hd : Derives true .var c.vararg c.loop ts) : SpellsPrefix c e ts :=
  ⟨.prefixVar hd, fun _ ↦ hd, fun h ↦ nomatch he.symm.trans h⟩

/-- Tokens of a call spell a tree that is a call. -/
theorem spells_call {e : Expr} {ts : List Token} (he : e.isTarget = false)
    (hd : Derives true .functionCall c.vararg c.loop ts) : SpellsPrefix c e ts :=
  ⟨.prefixCall hd, fun h ↦ (nomatch he.symm.trans h), fun _ ↦ hd⟩

theorem primaryExpr_succ (h : Sound n) {e : Expr}
    (hs : Parser.primaryExpr (n + 1) c ls = .ok (e, rest)) :
    ∃ ts, Consumes ls ts rest ∧ SpellsPrefix c e ts := by
  rw [Parser.primaryExpr, peek_bind_ok] at hs
  obtain ⟨t, ht, hs⟩ := hs
  split at hs
  · rw [bind_of_ok advance_apply] at hs
    obtain ⟨rfl, rfl⟩ := pure_ok.1 hs
    exact ⟨_, ht.consumes (fun h ↦ nomatch h), spells_var rfl .varName⟩
  · have hopen := ht.consumes (fun h ↦ nomatch h)
    rw [bind_of_ok line_apply, bind_of_ok advance_apply] at hs
    obtain ⟨inner, ms, hr, hs⟩ := bind_ok.1 hs
    obtain ⟨b, ⟨ts, hts, hd⟩, _⟩ := h.expr hr
    obtain ⟨ms₁, hclose, hs⟩ := expectMatch_bind_ok.1 hs
    obtain ⟨rfl, rfl⟩ := pure_ok.1 hs
    exact ⟨_, hopen.trans (hts.trans hclose), .prefixParen hd, (nomatch ·), (nomatch ·)⟩
  · rw [complain_apply] at hs
    exact nomatch hs

theorem suffixedExpr_succ (h : Sound n) {e : Expr}
    (hs : Parser.suffixedExpr (n + 1) c ls = .ok (e, rest)) :
    (∃ ts, Consumes ls ts rest ∧ SpellsPrefix c e ts) ∧ ¬ Ahead rest (.terminal .leftParen) := by
  rw [Parser.suffixedExpr, bind_ok] at hs
  obtain ⟨e₀, ms, he₀, hs⟩ := hs
  obtain ⟨ts, hts, hspells⟩ := h.primaryExpr he₀
  obtain ⟨hmore, hclosed⟩ := h.suffixedTail hs
  obtain ⟨us, hus, hspells'⟩ := hmore hspells
  exact ⟨⟨_, hts.trans hus, hspells'⟩, hclosed⟩

/-- A suffix that has been read, and the ones after it. -/
theorem suffix_then (h : Sound n) {e e₁ e' : Expr} {ms : List Lexeme} {us : List Token}
    (hus : Consumes ls us ms) (hs : Parser.suffixedTail n c e₁ ms = .ok (e', rest))
    (hspells : ∀ {ts}, SpellsPrefix c e ts → SpellsPrefix c e₁ (ts ++ us)) :
    (∀ {ts}, SpellsPrefix c e ts → ∃ us, Consumes ls us rest ∧ SpellsPrefix c e' (ts ++ us)) ∧
      ¬ Ahead rest (.terminal .leftParen) := by
  obtain ⟨hmore, hclosed⟩ := h.suffixedTail hs
  refine ⟨fun {ts} hts ↦ ?_, hclosed⟩
  obtain ⟨ws, hws, hspells'⟩ := hmore (hspells hts)
  exact ⟨_, hus.trans hws, by rwa [← List.append_assoc]⟩

theorem suffixedTail_succ (h : Sound n) {e e' : Expr}
    (hs : Parser.suffixedTail (n + 1) c e ls = .ok (e', rest)) :
    (∀ {ts}, SpellsPrefix c e ts → ∃ us, Consumes ls us rest ∧ SpellsPrefix c e' (ts ++ us)) ∧
      ¬ Ahead rest (.terminal .leftParen) := by
  have callArgs : ∀ {line : Nat}, (do
      let args ← Parser.callArgs n c
      Parser.suffixedTail n c (.call line e args) : Parser Expr) ls = .ok (e', rest) →
      (∀ {ts}, SpellsPrefix c e ts → ∃ us, Consumes ls us rest ∧ SpellsPrefix c e' (ts ++ us)) ∧
        ¬ Ahead rest (.terminal .leftParen) := by
    intro line hs
    obtain ⟨args, ms, hr, hs⟩ := bind_ok.1 hs
    obtain ⟨us, hus, hd⟩ := h.callArgs hr
    exact h.suffix_then hus hs fun hts ↦ spells_call rfl (.call hts.isPrefix hd)
  rw [Parser.suffixedTail, bind_of_ok line_apply, peek_bind_ok] at hs
  obtain ⟨t, ht, hs⟩ := hs
  split at hs
  · have hdot := ht.consumes (fun h ↦ nomatch h)
    rw [bind_of_ok advance_apply] at hs
    obtain ⟨x, ms, hx, hs⟩ := name_bind_ok.1 hs
    exact h.suffix_then (hdot.trans hx) hs fun hts ↦ spells_var rfl (.varField hts.isPrefix)
  · have hopen := ht.consumes (fun h ↦ nomatch h)
    rw [bind_of_ok advance_apply] at hs
    obtain ⟨key, ms, hr, hs⟩ := bind_ok.1 hs
    obtain ⟨b, ⟨us, hus, hd⟩, _⟩ := h.expr hr
    obtain ⟨ms₁, hclose, hs⟩ := expect_bind_ok.1 hs
    exact h.suffix_then (hopen.trans (hus.trans hclose)) hs
      fun hts ↦ spells_var rfl (.varIndex hts.isPrefix hd)
  · have hcolon := ht.consumes (fun h ↦ nomatch h)
    rw [bind_of_ok advance_apply] at hs
    obtain ⟨x, ms, hx, hs⟩ := name_bind_ok.1 hs
    obtain ⟨args, ms₁, hr, hs⟩ := bind_ok.1 hs
    obtain ⟨us, hus, hd⟩ := h.callArgs hr
    exact h.suffix_then (hcolon.trans (hx.trans hus)) hs
      fun hts ↦ spells_call rfl (.callMethod (x := x) hts.isPrefix hd)
  · exact callArgs hs
  · exact callArgs hs
  · exact callArgs hs
  · next hother _ _ =>
    obtain ⟨rfl, rfl⟩ := pure_ok.1 hs
    refine ⟨fun {ts} hts ↦ ⟨[], .refl _, by rwa [List.append_nil]⟩, fun hp ↦ ?_⟩
    exact hother (ht.unique hp)

theorem callArgs_succ (h : Sound n) {es : List Expr}
    (hs : Parser.callArgs (n + 1) c ls = .ok (es, rest)) : Reads .args c ls rest := by
  rw [Parser.callArgs, peek_bind_ok] at hs
  obtain ⟨t, ht, hs⟩ := hs
  split at hs
  · rw [bind_of_ok advance_apply] at hs
    obtain ⟨rfl, rfl⟩ := pure_ok.1 hs
    exact ⟨_, ht.consumes (fun h ↦ nomatch h), .argsString⟩
  · obtain ⟨e, ms, hr, hs⟩ := bind_ok.1 hs
    obtain ⟨ts, hts, hd⟩ := h.tableConstructor hr
    obtain ⟨rfl, rfl⟩ := pure_ok.1 hs
    exact ⟨ts, hts, .argsTable hd⟩
  · have hopen := ht.consumes (fun h ↦ nomatch h)
    rw [bind_of_ok line_apply, bind_of_ok advance_apply, accept_bind_ok] at hs
    rcases hs with ⟨ms, hclose, hs⟩ | ⟨_, _, _, hs⟩
    · obtain ⟨rfl, rfl⟩ := pure_ok.1 hs
      exact ⟨_, hopen.trans hclose, .argsEmpty⟩
    · obtain ⟨args, ms, hr, hs⟩ := bind_ok.1 hs
      obtain ⟨b, ⟨ts, hts, hd⟩, _⟩ := h.exprList hr
      obtain ⟨ms₁, hclose, hs⟩ := expectMatch_bind_ok.1 hs
      obtain ⟨rfl, rfl⟩ := pure_ok.1 hs
      exact ⟨_, hopen.trans (hts.trans hclose), .argsList hd⟩
  · rw [complain_apply] at hs
    exact nomatch hs

/-! ## Table constructors -/

theorem tableConstructor_succ (h : Sound n) {e : Expr}
    (hs : Parser.tableConstructor (n + 1) c ls = .ok (e, rest)) :
    Reads .tableConstructor c ls rest := by
  rw [Parser.tableConstructor, bind_of_ok line_apply, expect_bind_ok] at hs
  obtain ⟨ms, hopen, hs⟩ := hs
  obtain ⟨fields, ms₁, hfields, hs⟩ := bind_ok.1 hs
  obtain ⟨ms₂, hclose, hs⟩ := expectMatch_bind_ok.1 hs
  obtain ⟨rfl, rfl⟩ := pure_ok.1 hs
  rcases h.tableFields hfields with rfl | ⟨ts, hts, hd⟩
  · exact ⟨_, hopen.trans hclose, .tableEmpty⟩
  · exact ⟨_, hopen.trans (hts.trans hclose), .tableFields hd⟩

/-- Fields after a separator, if there are any. -/
theorem fields_after (h : Sound n) {before fs : List Field} {ms ns : List Lexeme} {t : Terminal}
    (ht : t ∈ Terminal.fieldSeparators) (hfield : Reads .field c ls ms)
    (hsep : Consumes ms [.terminal t] ns)
    (hs : Parser.tableFields n c before ns = .ok (fs, rest)) : Reads .fieldList c ls rest := by
  obtain ⟨ts, hts, hd⟩ := hfield
  rcases h.tableFields hs with rfl | ⟨us, hus, hd'⟩
  · exact ⟨_, hts.trans hsep, .fieldListEnd ht hd⟩
  · exact ⟨_, hts.trans (hsep.trans hus), .fieldListMore ht hd hd'⟩

theorem tableFields_succ (h : Sound n) {before fs : List Field}
    (hs : Parser.tableFields (n + 1) c before ls = .ok (fs, rest)) :
    rest = ls ∨ Reads .fieldList c ls rest := by
  rw [Parser.tableFields, check_bind_ok] at hs
  obtain ⟨u, _, hs⟩ := hs
  split at hs
  · exact .inl (pure_ok.1 hs).2
  · obtain ⟨field, ms, hr, hs⟩ := bind_ok.1 hs
    have hfield := h.tableField hr
    rw [accept_bind_ok] at hs
    rcases hs with ⟨ns, hcomma, hs⟩ | ⟨_, _, _, hs⟩
    · exact .inr (h.fields_after (by decide) hfield hcomma hs)
    · simp only [Bool.false_eq_true, if_false, accept_bind_ok] at hs
      rcases hs with ⟨ns, hsemi, hs⟩ | ⟨_, _, _, hs⟩
      · exact .inr (h.fields_after (by decide) hfield hsemi hs)
      · obtain ⟨rfl, rfl⟩ := pure_ok.1 hs
        obtain ⟨ts, hts, hd⟩ := hfield
        exact .inr ⟨ts, hts, .fieldListField hd⟩

theorem tableField_succ (h : Sound n) {f : Field}
    (hs : Parser.tableField (n + 1) c ls = .ok (f, rest)) : Reads .field c ls rest := by
  rw [Parser.tableField, peek_bind_ok] at hs
  obtain ⟨t, ht, hs⟩ := hs
  split at hs
  · have hopen := ht.consumes (fun h ↦ nomatch h)
    rw [bind_of_ok advance_apply] at hs
    obtain ⟨key, ms, hr, hs⟩ := bind_ok.1 hs
    obtain ⟨b, ⟨ts, hts, hkey⟩, _⟩ := h.expr hr
    obtain ⟨ms₁, hclose, hs⟩ := expect_bind_ok.1 hs
    obtain ⟨ms₂, heq, hs⟩ := expect_bind_ok.1 hs
    obtain ⟨value, ms₃, hr, hs⟩ := bind_ok.1 hs
    obtain ⟨b', ⟨us, hus, hvalue⟩, _⟩ := h.expr hr
    obtain ⟨rfl, rfl⟩ := pure_ok.1 hs
    refine ⟨_, ?_, .fieldKey hkey hvalue⟩
    exact hopen.trans (hts.trans (hclose.trans (heq.trans hus)))
  · next x =>
    have hname := ht.consumes (fun h ↦ nomatch h)
    rw [bind_of_ok advance_apply, accept_bind_ok] at hs
    rcases hs with ⟨ms, heq, hs⟩ | ⟨_, _, _, hs⟩
    · obtain ⟨value, ms₁, hr, hs⟩ := bind_ok.1 hs
      obtain ⟨b, ⟨us, hus, hvalue⟩, _⟩ := h.expr hr
      obtain ⟨rfl, rfl⟩ := pure_ok.1 hs
      exact ⟨_, hname.trans (heq.trans hus), .fieldName hvalue⟩
    · -- the expression goes on from the name
      obtain ⟨e, ms, hr, hs⟩ := bind_ok.1 hs
      obtain ⟨hmore, hclosed⟩ := h.suffixedTail hr
      obtain ⟨us, hus, hspells⟩ :=
        hmore (show SpellsPrefix c (.name x) [.name x] from spells_var rfl .varName)
      obtain ⟨e', ms₁, hr', hs⟩ := bind_ok.1 hs
      obtain ⟨b, ws, hws, hd, _⟩ :=
        h.binaryTail hr' (.expPrefix hspells.isPrefix) (fun _ ↦ hclosed)
      obtain ⟨rfl, rfl⟩ := pure_ok.1 hs
      exact ⟨_, (hname.trans hus).trans hws, .fieldValue hd⟩
  · obtain ⟨e, ms, hr, hs⟩ := bind_ok.1 hs
    obtain ⟨b, ⟨ts, hts, hd⟩, _⟩ := h.expr hr
    obtain ⟨rfl, rfl⟩ := pure_ok.1 hs
    exact ⟨ts, hts, .fieldValue hd⟩

end Sound

end LuaEmbed.Parser
