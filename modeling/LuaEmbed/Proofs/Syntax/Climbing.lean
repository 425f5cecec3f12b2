import LuaEmbed.Proofs.Syntax.Grouping
import LuaEmbed.Proofs.Syntax.Reading

/-!
# Precedence climbing

`subexpr` reads operands and operators from left to right and groups them as precedence does.  What
it leaves starts with no operator that binds tighter than its limit, which is what the operator
around the expression needs to know.
-/

namespace LuaEmbed

/-! ## Priorities and tiers -/

namespace Expr

variable {e left right : Expr} {op op' : BinaryOp} {line : Nat}

/-- The operator at the root binds tighter to its left than the limit. -/
def Above (limit : Nat) : Expr → Prop
  | .binary _ op _ _ => limit < op.priority.1
  | _ => True

theorem Above.fitsRight (h : e.Above op.priority.2) : e.FitsRight op := by
  cases e with
  | binary _ op' =>
      have : ∀ op op' : BinaryOp, op.priority.2 < op'.priority.1 →
          op.tier < op'.tier ∨ op.tier = op'.tier ∧ op.groupsRight = true := by
        intro op op'
        cases op <;> cases op' <;> decide
      exact this op op' h
  | _ => trivial

theorem Above.fitsUnary (h : e.Above UnaryOp.priority) : e.FitsUnary := by
  cases e with
  | binary _ op =>
      have : ∀ op : BinaryOp, UnaryOp.priority < op.priority.1 → UnaryOp.tier < op.tier := by
        intro op
        cases op <;> decide
      exact this op h
  | _ => trivial

theorem fitsLeft_binary (h : op'.priority.1 ≤ op.priority.2) :
    (binary line op left right).FitsLeft op' := by
  have : ∀ op op' : BinaryOp, op'.priority.1 ≤ op.priority.2 →
      op'.tier < op.tier ∨ op'.tier = op.tier ∧ op'.groupsRight = false := by
    intro op op'
    cases op <;> cases op' <;> decide
  exact this op op' h

theorem fitsLeft_unary {op : UnaryOp} (h : op'.priority.1 ≤ UnaryOp.priority) :
    (unary line op e).FitsLeft op' := by
  have : ∀ op : BinaryOp, op.priority.1 ≤ UnaryOp.priority → op.tier < UnaryOp.tier := by
    intro op
    cases op <;> decide
  exact this op' h

theorem fitsLeft_of_isOperand (h : e.IsOperand) : e.FitsLeft op := by
  cases e <;> first | exact h.elim | trivial

theorem above_of_isOperand (h : e.IsOperand) (limit : Nat) : e.Above limit := by
  cases e <;> first | exact h.elim | trivial

end Expr

namespace Parser

variable {n limit : Nat} {c : Context} {ls ms rest : List Lexeme} {e left : Expr}

/-! ## Operands -/

theorem suffixedTail_isOperand (he : e.IsOperand) {e' : Expr}
    (h : suffixedTail n c e ls = .ok (e', rest)) : e'.IsOperand := by
  induction n generalizing e ls with
  | zero => simp [suffixedTail] at h
  | succ n ih =>
      rw [suffixedTail, bind_of_ok line_apply, peek_bind_ok] at h
      obtain ⟨t, _, h⟩ := h
      split at h
      · rw [bind_of_ok advance_apply] at h
        obtain ⟨_, _, _, h⟩ := name_bind_ok.1 h
        exact ih (by trivial) h
      · rw [bind_of_ok advance_apply] at h
        obtain ⟨_, _, _, h⟩ := bind_ok.1 h
        obtain ⟨_, _, h⟩ := expect_bind_ok.1 h
        exact ih (by trivial) h
      · rw [bind_of_ok advance_apply] at h
        obtain ⟨_, _, _, h⟩ := name_bind_ok.1 h
        obtain ⟨_, _, _, h⟩ := bind_ok.1 h
        exact ih (by trivial) h
      iterate 3
        · obtain ⟨_, _, _, h⟩ := bind_ok.1 h
          exact ih (by trivial) h
      · obtain ⟨rfl, _⟩ := pure_ok.1 h
        exact he

theorem suffixedExpr_isOperand (h : suffixedExpr n c ls = .ok (e, rest)) : e.IsOperand := by
  cases n with
  | zero => simp [suffixedExpr] at h
  | succ n =>
      rw [suffixedExpr, bind_ok] at h
      obtain ⟨e₀, ms, hprimary, h⟩ := h
      refine suffixedTail_isOperand ?_ h
      cases n with
      | zero => simp [primaryExpr] at hprimary
      | succ n =>
          rw [primaryExpr, peek_bind_ok] at hprimary
          obtain ⟨t, _, hprimary⟩ := hprimary
          split at hprimary
          · rw [bind_of_ok advance_apply] at hprimary
            obtain ⟨rfl, _⟩ := pure_ok.1 hprimary
            trivial
          · rw [bind_of_ok line_apply, bind_of_ok advance_apply] at hprimary
            obtain ⟨_, _, _, hprimary⟩ := bind_ok.1 hprimary
            obtain ⟨_, _, hprimary⟩ := expectMatch_bind_ok.1 hprimary
            obtain ⟨rfl, _⟩ := pure_ok.1 hprimary
            trivial
          · rw [complain_apply] at hprimary
            exact nomatch hprimary

theorem tableConstructor_isOperand (h : tableConstructor n c ls = .ok (e, rest)) :
    e.IsOperand := by
  cases n with
  | zero => simp [tableConstructor] at h
  | succ n =>
      rw [tableConstructor, bind_of_ok line_apply, expect_bind_ok] at h
      obtain ⟨_, _, h⟩ := h
      obtain ⟨_, _, _, h⟩ := bind_ok.1 h
      obtain ⟨_, _, h⟩ := expectMatch_bind_ok.1 h
      obtain ⟨rfl, _⟩ := pure_ok.1 h
      trivial

/-- What is read as an expression without operators has none at its root. -/
theorem simpleExpr_isOperand (h : simpleExpr n c ls = .ok (e, rest)) : e.IsOperand := by
  cases n with
  | zero => simp [simpleExpr] at h
  | succ n =>
      have single : ∀ {a : Expr}, a.IsOperand →
          (do advance; return a : Parser Expr) ls = .ok (e, rest) → e.IsOperand := by
        intro a ha h
        rw [bind_of_ok advance_apply] at h
        obtain ⟨rfl, _⟩ := pure_ok.1 h
        exact ha
      rw [simpleExpr, bind_of_ok line_apply, peek_bind_ok] at h
      obtain ⟨t, _, h⟩ := h
      split at h
      · exact single (by trivial) h
      · exact single (by trivial) h
      · exact single (by trivial) h
      · exact single (by trivial) h
      · exact single (by trivial) h
      · split at h
        · exact single (by trivial) h
        · rw [complain_apply] at h
          exact nomatch h
      · exact tableConstructor_isOperand h
      · rw [bind_of_ok advance_apply] at h
        obtain ⟨_, _, _, h⟩ := bind_ok.1 h
        obtain ⟨rfl, _⟩ := pure_ok.1 h
        trivial
      · exact suffixedExpr_isOperand h

/-! ## Spans -/

/-- Reading the items off the first list of lexemes leaves the second.  Operands are what
`simpleExpr` reads there, and each operator is one lexeme, of whose line the item tells. -/
inductive Spans (c : Context) : List Item → List Lexeme → List Lexeme → Prop where
  | done (ls : List Lexeme) : Spans c [] ls ls
  | operand {n levels : Nat} {e : Expr} {items : List Item} {ls ms rest : List Lexeme} :
      simpleExpr n { c with levels } ls = .ok (e, ms) → Spans c items ms rest →
      Spans c (.operand e :: items) ls rest
  | unary {t : Token} {op : UnaryOp} {items : List Item} {ls ms rest : List Lexeme} :
      unaryOp? t = some op → Consumes ls [t] ms → Spans c items ms rest →
      Spans c (.unary (front ls).position.line op :: items) ls rest
  | binary {t : Token} {op : BinaryOp} {items : List Item} {ls ms rest : List Lexeme} :
      binaryOp? t = some op → Consumes ls [t] ms → Spans c items ms rest →
      Spans c (.binary (front ls).position.line op :: items) ls rest

theorem Spans.append {items items' : List Item} (h : Spans c items ls ms)
    (h' : Spans c items' ms rest) : Spans c (items ++ items') ls rest := by
  induction h with
  | done _ => exact h'
  | operand hs _ ih => exact .operand hs (ih h')
  | unary hop hc _ ih => exact .unary hop hc (ih h')
  | binary hop hc _ ih => exact .binary hop hc (ih h')

/-- The levels left play no part in what the items are. -/
theorem Spans.of_levels {levels : Nat} {items : List Item}
    (h : Spans { c with levels } items ls rest) : Spans c items ls rest := by
  induction h with
  | done ls => exact .done ls
  | operand hs _ ih => exact .operand hs ih
  | unary hop hc _ ih => exact .unary hop hc ih
  | binary hop hc _ ih => exact .binary hop hc ih

/-- No operator that binds tighter than the limit goes on with the expression. -/
def StopsAt (limit : Nat) (rest : List Lexeme) : Prop :=
  ∀ t op, Ahead rest t → binaryOp? t = some op → op.priority.1 ≤ limit

/-- The expression has been read from the lexemes, under a limit, and is grouped by precedence. -/
structure Grouped (c : Context) (limit : Nat) (e : Expr) (ls rest : List Lexeme) : Prop where
  spans : Spans c e.items ls rest
  wellGrouped : e.WellGrouped
  above : e.Above limit
  stops : StopsAt limit rest

/-- What the functions for operators do with bound `n`. -/
structure Groups (n : Nat) : Prop where
  subexpr {c : Context} {limit : Nat} {ls : List Lexeme} {e : Expr} {rest : List Lexeme} :
    subexpr n c limit ls = .ok (e, rest) → Grouped c limit e ls rest
  operand {c : Context} {limit : Nat} {ls : List Lexeme} {e : Expr} {rest : List Lexeme} :
    operand n c limit ls = .ok (e, rest) → Grouped c limit e ls rest
  /-- The loop goes on from an expression that can be the left operand of what comes next. -/
  binaryTail {c : Context} {left : Expr} {limit : Nat} {ls : List Lexeme} {e : Expr}
      {rest : List Lexeme} :
    binaryTail n c left limit ls = .ok (e, rest) → left.WellGrouped → left.Above limit →
      (∀ t op, Ahead ls t → binaryOp? t = some op → left.FitsLeft op) →
      ∃ items, e.items = left.items ++ items ∧ Spans c items ls rest ∧ e.WellGrouped ∧
        e.Above limit ∧ StopsAt limit rest

namespace Groups

theorem subexpr_succ (h : Groups n) (hs : Parser.subexpr (n + 1) c limit ls = .ok (e, rest)) :
    Grouped c limit e ls rest := by
  rw [Parser.subexpr, nested_ok] at hs
  obtain ⟨levels, _, hs⟩ := hs
  obtain ⟨hspans, hgrouped, habove, hstops⟩ := h.operand hs
  exact ⟨hspans.of_levels, hgrouped, habove, hstops⟩

theorem operand_succ (h : Groups n) (hs : Parser.operand (n + 1) c limit ls = .ok (e, rest)) :
    Grouped c limit e ls rest := by
  rw [Parser.operand, bind_of_ok line_apply, peek_bind_ok] at hs
  obtain ⟨t, ht, hs⟩ := hs
  cases hop : unaryOp? t with
  | some op =>
      simp only [hop] at hs
      have hoperator := ht.consumes (by rintro rfl; exact nomatch hop)
      rw [bind_of_ok advance_apply] at hs
      obtain ⟨inner, ms, hinner, hs⟩ := bind_ok.1 hs
      have hg := h.subexpr hinner
      obtain ⟨items, hitems, hspans, hgrouped, habove, hstops⟩ := h.binaryTail hs
        ⟨hg.wellGrouped, hg.above.fitsUnary⟩ trivial
        fun t op ht hop ↦ Expr.fitsLeft_unary (hg.stops t op ht hop)
      refine ⟨?_, hgrouped, habove, hstops⟩
      rw [hitems]
      exact .unary hop hoperator (hg.spans.append hspans)
  | none =>
      simp only [hop] at hs
      obtain ⟨inner, ms, hinner, hs⟩ := bind_ok.1 hs
      have hoperand := simpleExpr_isOperand hinner
      obtain ⟨items, hitems, hspans, hgrouped, habove, hstops⟩ := h.binaryTail hs
        (Expr.wellGrouped_of_isOperand hoperand) (Expr.above_of_isOperand hoperand limit)
        fun t op _ _ ↦ Expr.fitsLeft_of_isOperand hoperand
      refine ⟨?_, hgrouped, habove, hstops⟩
      rw [hitems, Expr.items_of_isOperand hoperand]
      exact .operand hinner hspans

theorem binaryTail_succ (h : Groups n)
    (hs : Parser.binaryTail (n + 1) c left limit ls = .ok (e, rest)) (hleft : left.WellGrouped)
    (habove : left.Above limit)
    (hfits : ∀ t op, Ahead ls t → binaryOp? t = some op → left.FitsLeft op) :
    ∃ items, e.items = left.items ++ items ∧ Spans c items ls rest ∧ e.WellGrouped ∧
      e.Above limit ∧ StopsAt limit rest := by
  rw [Parser.binaryTail, peek_bind_ok] at hs
  obtain ⟨t, ht, hs⟩ := hs
  cases hop : binaryOp? t with
  | none =>
      simp only [hop] at hs
      obtain ⟨rfl, rfl⟩ := pure_ok.1 hs
      refine ⟨[], (List.append_nil _).symm, .done _, hleft, habove, fun u op hu hop' ↦ ?_⟩
      obtain rfl := hu.unique ht
      exact nomatch hop.symm.trans hop'
  | some op =>
      simp only [hop] at hs
      split at hs
      · next hle =>
        obtain ⟨rfl, rfl⟩ := pure_ok.1 hs
        refine ⟨[], (List.append_nil _).symm, .done _, hleft, habove, fun u op' hu hop' ↦ ?_⟩
        obtain rfl := hu.unique ht
        obtain rfl := Option.some.inj (hop.symm.trans hop')
        exact hle
      · next hlt =>
        have hoperator := ht.consumes (by rintro rfl; exact nomatch hop)
        rw [bind_of_ok line_apply, bind_of_ok advance_apply] at hs
        obtain ⟨right, ms, hright, hs⟩ := bind_ok.1 hs
        have hg := h.subexpr hright
        obtain ⟨items, hitems, hspans, hgrouped, habove', hstops⟩ := h.binaryTail hs
          ⟨hleft, hg.wellGrouped, hfits t op ht hop, hg.above.fitsRight⟩ (Nat.lt_of_not_le hlt)
          fun t op ht hop ↦ Expr.fitsLeft_binary (hg.stops t op ht hop)
        refine ⟨_, ?_, .binary hop hoperator (hg.spans.append hspans), hgrouped, habove', hstops⟩
        rw [hitems, Expr.items, List.append_assoc, List.cons_append]

theorem all : ∀ n, Groups n
  | 0 => by constructor <;> exact fun h ↦ (not_ok_of_complain h).elim
  | n + 1 =>
      have h := all n
      { subexpr := h.subexpr_succ
        operand := h.operand_succ
        binaryTail := h.binaryTail_succ }

end Groups

/-- An expression is grouped as precedence groups its operands and operators, which are those read,
and in no other way. -/
theorem subexpr_grouped (h : subexpr n c limit ls = .ok (e, rest)) :
    Spans c e.items ls rest ∧ e.WellGrouped ∧
      ∀ e' : Expr, e'.items = e.items → e'.WellGrouped → e' = e := by
  obtain ⟨hspans, hgrouped, _, _⟩ := (Groups.all n).subexpr h
  exact ⟨hspans, hgrouped, fun e' hitems hgrouped' ↦ hgrouped'.unique hgrouped hitems⟩

/-- A minus goes before a power and a product around both. -/
theorem subexpr_grouped_product :
    let ls : List Lexeme := [.terminal .minus, .name "a", .terminal .caret, .name "b",
      .terminal .star, .name "c"].map fun t ↦ ⟨.ok t, .first, ""⟩
    let e := Expr.binary 1 .mul (.unary 1 .neg (.binary 1 .pow (.name "a") (.name "b"))) (.name "c")
    subexpr 20 ⟨maxLevels, true, false⟩ 0 ls = .ok (e, []) ∧
      Spans ⟨maxLevels, true, false⟩ e.items ls [] ∧ e.WellGrouped ∧
        ∀ e' : Expr, e'.items = e.items → e'.WellGrouped → e' = e := by
  intro ls e
  have h : subexpr 20 ⟨maxLevels, true, false⟩ 0 ls = .ok (e, []) := rfl
  exact ⟨h, subexpr_grouped h⟩

end Parser

end LuaEmbed
