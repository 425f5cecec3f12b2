import LuaEmbed.Proofs.Syntax.Acceptance
import LuaEmbed.Proofs.Syntax.Nesting

/-!
# Syntax levels bound nesting

A function of the parser that succeeds with some levels left has read a tree of at most as many
levels, or of one more where it opens none of its own.  `Leveled n` collects this for all functions
with bound `n`, so a chunk that is accepted has at most one node more on a path than there are
levels, bare tables apart.

Bare tables are not bounded at all, see `LuaEmbed.Proofs.Syntax.Towers`.
-/

namespace LuaEmbed

/-! ## Levels of trees -/

/-- The number of syntax levels that an expression takes. -/
abbrev Expr.levels (e : Expr) : Nat := e.weight NodeKind.levels .plain

/-- The number of syntax levels that a field takes. -/
abbrev Field.levels (f : Field) : Nat := f.weight NodeKind.levels

/-- The number of syntax levels that a statement takes. -/
abbrev Stat.levels (s : Stat) : Nat := s.weight NodeKind.levels

/-- The number of syntax levels that a clause takes. -/
abbrev Clause.levels (c : Clause) : Nat := c.weight NodeKind.levels

/-- A block is one level and those of its statements. -/
theorem Stat.block_levels_le {b : Block} {m : Nat} (h : ∀ s ∈ b, s.levels ≤ m) :
    NodeKind.levels .block + Stat.weights NodeKind.levels b ≤ m + 1 := by
  have := Stat.weights_le h
  simp only [NodeKind.levels]
  omega

namespace Parser

/-- What the functions with bound `n` do with the levels left. -/
structure Leveled (n : Nat) : Prop where
  block {c ls b rest} : block n c ls = .ok (b, rest) → ∀ s ∈ b, s.levels ≤ c.levels
  statements {c before ls b rest} :
    statements n c before ls = .ok (b, rest) → (∀ s ∈ before, s.levels ≤ c.levels + 1) →
      ∀ s ∈ b, s.levels ≤ c.levels + 1
  loopBlock {c ls b rest} : loopBlock n c ls = .ok (b, rest) → ∀ s ∈ b, s.levels ≤ c.levels
  returnStat {c ls s rest} : returnStat n c ls = .ok (s, rest) → s.levels ≤ c.levels + 1
  statement {c ls s rest} : statement n c ls = .ok (s, rest) → s.levels ≤ c.levels + 1
  ifRest {c at_ before ls s rest} :
    ifRest n c at_ before ls = .ok (s, rest) → (∀ cl ∈ before, cl.levels ≤ c.levels + 1) →
      s.levels ≤ c.levels + 1
  forStat {c at_ ls s rest} : forStat n c at_ ls = .ok (s, rest) → s.levels ≤ c.levels + 1
  exprStat {c at_ ls s rest} : exprStat n c at_ ls = .ok (s, rest) → s.levels ≤ c.levels + 1
  targetsAfter {c before ls es rest} :
    targetsAfter n c before ls = .ok (es, rest) → (∀ e ∈ before, e.levels ≤ c.levels + 1) →
      ∀ e ∈ es, e.levels ≤ c.levels + 1
  funcBody {c isMethod at_ ls b rest} :
    funcBody n c isMethod at_ ls = .ok (b, rest) → b.levels ≤ c.levels + 1
  exprList {c ls es rest} : exprList n c ls = .ok (es, rest) → ∀ e ∈ es, e.levels ≤ c.levels
  exprsAfter {c before ls es rest} :
    exprsAfter n c before ls = .ok (es, rest) → (∀ e ∈ before, e.levels ≤ c.levels) →
      ∀ e ∈ es, e.levels ≤ c.levels
  expr {c ls e rest} : expr n c ls = .ok (e, rest) → e.levels ≤ c.levels
  subexpr {c limit ls e rest} : subexpr n c limit ls = .ok (e, rest) → e.levels ≤ c.levels
  operand {c limit ls e rest} : operand n c limit ls = .ok (e, rest) → e.levels ≤ c.levels + 1
  /-- The left operand keeps its role. -/
  binaryTail {c left limit ls e rest r m} :
    binaryTail n c left limit ls = .ok (e, rest) → r ≠ .argument → c.levels ≤ m →
      left.weight NodeKind.levels r ≤ m →
      e.weight NodeKind.levels r ≤ m ∧ (left.startsWithName = true → e.startsWithName = true)
  simpleExpr {c ls e rest} : simpleExpr n c ls = .ok (e, rest) → e.levels ≤ c.levels + 1
  primaryExpr {c ls e rest} : primaryExpr n c ls = .ok (e, rest) → e.levels ≤ c.levels + 1
  suffixedExpr {c ls e rest} : suffixedExpr n c ls = .ok (e, rest) → e.levels ≤ c.levels + 1
  /-- At the head of a field, tables that are all the arguments of a call do not count. -/
  suffixedTail {c e ls e' rest} :
    suffixedTail n c e ls = .ok (e', rest) →
      (e.levels ≤ c.levels + 1 → e'.levels ≤ c.levels + 1) ∧
      (e.weight NodeKind.levels .head ≤ c.levels → e'.weight NodeKind.levels .head ≤ c.levels) ∧
      (e.startsWithName = true → e'.startsWithName = true)
  callArgs {c ls es rest} :
    callArgs n c ls = .ok (es, rest) →
      Expr.weights NodeKind.levels .plain es ≤ c.levels + 1 ∧
      Expr.weights NodeKind.levels .argument es ≤ c.levels
  tableConstructor {c ls e rest} :
    tableConstructor n c ls = .ok (e, rest) →
      ∃ fields, e = .table fields ∧ Field.weights NodeKind.levels fields ≤ c.levels
  tableFields {c before ls fs rest} :
    tableFields n c before ls = .ok (fs, rest) → (∀ f ∈ before, f.levels ≤ c.levels) →
      ∀ f ∈ fs, f.levels ≤ c.levels
  tableField {c ls f rest} : tableField n c ls = .ok (f, rest) → f.levels ≤ c.levels

namespace Leveled

variable {n : Nat} {c : Context} {ls rest : List Lexeme}

/-! ## Expressions -/

theorem exprList_succ (h : Leveled n) {es : List Expr}
    (hs : Parser.exprList (n + 1) c ls = .ok (es, rest)) : ∀ e ∈ es, e.levels ≤ c.levels := by
  rw [Parser.exprList, bind_ok] at hs
  obtain ⟨first, ms, hfirst, hs⟩ := hs
  exact h.exprsAfter hs (List.forall_mem_singleton.2 (h.expr hfirst))

theorem exprsAfter_succ (h : Leveled n) {before es : List Expr}
    (hs : Parser.exprsAfter (n + 1) c before ls = .ok (es, rest))
    (hbefore : ∀ e ∈ before, e.levels ≤ c.levels) : ∀ e ∈ es, e.levels ≤ c.levels := by
  rw [Parser.exprsAfter, accept_bind_ok] at hs
  rcases hs with ⟨ms, _, hs⟩ | ⟨_, _, _, hs⟩
  · obtain ⟨next, ms₁, hnext, hs⟩ := bind_ok.1 hs
    exact h.exprsAfter hs (List.forall_mem_cons.2 ⟨h.expr hnext, hbefore⟩)
  · obtain ⟨rfl, _⟩ := pure_ok.1 hs
    exact fun e he ↦ hbefore e (List.mem_reverse.1 he)

theorem expr_succ (h : Leveled n) {e : Expr} (hs : Parser.expr (n + 1) c ls = .ok (e, rest)) :
    e.levels ≤ c.levels :=
  h.subexpr hs

theorem subexpr_succ (h : Leveled n) {limit : Nat} {e : Expr}
    (hs : Parser.subexpr (n + 1) c limit ls = .ok (e, rest)) : e.levels ≤ c.levels := by
  rw [Parser.subexpr, nested_ok] at hs
  obtain ⟨levels, hlevels, hs⟩ := hs
  rw [hlevels]
  exact h.operand hs

theorem operand_succ (h : Leveled n) {limit : Nat} {e : Expr}
    (hs : Parser.operand (n + 1) c limit ls = .ok (e, rest)) : e.levels ≤ c.levels + 1 := by
  rw [Parser.operand, bind_of_ok line_apply, peek_bind_ok] at hs
  obtain ⟨t, _, hs⟩ := hs
  cases hop : unaryOp? t with
  | some op =>
      simp only [hop] at hs
      rw [bind_of_ok advance_apply] at hs
      obtain ⟨inner, ms, hinner, hs⟩ := bind_ok.1 hs
      have hinner := h.subexpr hinner
      exact (h.binaryTail hs (by decide) (Nat.le_succ _) (Nat.le_succ_of_le hinner)).1
  | none =>
      simp only [hop] at hs
      obtain ⟨inner, ms, hinner, hs⟩ := bind_ok.1 hs
      exact (h.binaryTail hs (by decide) (Nat.le_succ _) (h.simpleExpr hinner)).1

theorem binaryTail_succ (h : Leveled n) {left : Expr} {limit m : Nat} {e : Expr} {r : Role}
    (hs : Parser.binaryTail (n + 1) c left limit ls = .ok (e, rest)) (hr : r ≠ .argument)
    (hm : c.levels ≤ m) (hleft : left.weight NodeKind.levels r ≤ m) :
    e.weight NodeKind.levels r ≤ m ∧ (left.startsWithName = true → e.startsWithName = true) := by
  rw [Parser.binaryTail, peek_bind_ok] at hs
  obtain ⟨t, _, hs⟩ := hs
  have stop : ∀ {l : Expr}, (pure l : Parser Expr) ls = .ok (e, rest) → e = l :=
    fun hs ↦ (pure_ok.1 hs).1
  cases hop : binaryOp? t with
  | none =>
      simp only [hop] at hs
      rw [stop hs]
      exact ⟨hleft, id⟩
  | some op =>
      simp only [hop] at hs
      split at hs
      · rw [stop hs]
        exact ⟨hleft, id⟩
      · rw [bind_of_ok line_apply, bind_of_ok advance_apply] at hs
        obtain ⟨right, ms, hright, hs⟩ := bind_ok.1 hs
        have hright := Nat.le_trans (h.subexpr hright) hm
        have hobject : r.object = r := by
          cases r <;> first | rfl | exact absurd rfl hr
        have htail := h.binaryTail hs hr hm (by
          rw [Expr.weight, hobject]
          exact Nat.max_le.2 ⟨hleft, hright⟩)
        exact htail

theorem simpleExpr_succ (h : Leveled n) {e : Expr}
    (hs : Parser.simpleExpr (n + 1) c ls = .ok (e, rest)) : e.levels ≤ c.levels + 1 := by
  have single : ∀ {a : Expr}, a.levels = 0 →
      (do advance; return a : Parser Expr) ls = .ok (e, rest) → e.levels ≤ c.levels + 1 := by
    intro a ha hs
    rw [bind_of_ok advance_apply] at hs
    obtain ⟨rfl, _⟩ := pure_ok.1 hs
    rw [ha]
    exact Nat.zero_le _
  rw [Parser.simpleExpr, bind_of_ok line_apply, peek_bind_ok] at hs
  obtain ⟨t, _, hs⟩ := hs
  split at hs
  · exact single (by rfl) hs
  · exact single (by rfl) hs
  · exact single (by rfl) hs
  · exact single (by rfl) hs
  · exact single (by rfl) hs
  · split at hs
    · exact single (by rfl) hs
    · exact (not_ok_of_complain hs).elim
  · obtain ⟨fields, rfl, hfields⟩ := h.tableConstructor hs
    rw [Expr.levels, Expr.weight, Nat.add_comm]
    exact Nat.add_le_add_right hfields 1
  · rw [bind_of_ok advance_apply] at hs
    obtain ⟨body, ms, hbody, hs⟩ := bind_ok.1 hs
    obtain ⟨rfl, _⟩ := pure_ok.1 hs
    exact h.funcBody hbody
  · exact h.suffixedExpr hs

/-! ## Prefix expressions -/

theorem primaryExpr_succ (h : Leveled n) {e : Expr}
    (hs : Parser.primaryExpr (n + 1) c ls = .ok (e, rest)) : e.levels ≤ c.levels + 1 := by
  rw [Parser.primaryExpr, peek_bind_ok] at hs
  obtain ⟨t, _, hs⟩ := hs
  split at hs
  · rw [bind_of_ok advance_apply] at hs
    obtain ⟨rfl, _⟩ := pure_ok.1 hs
    exact Nat.zero_le _
  · rw [bind_of_ok line_apply, bind_of_ok advance_apply] at hs
    obtain ⟨inner, ms, hinner, hs⟩ := bind_ok.1 hs
    obtain ⟨_, _, hs⟩ := expectMatch_bind_ok.1 hs
    obtain ⟨rfl, _⟩ := pure_ok.1 hs
    rw [Expr.levels, Expr.weight, Nat.add_comm]
    exact Nat.add_le_add_right (h.expr hinner) 1
  · exact (not_ok_of_complain hs).elim

theorem suffixedExpr_succ (h : Leveled n) {e : Expr}
    (hs : Parser.suffixedExpr (n + 1) c ls = .ok (e, rest)) : e.levels ≤ c.levels + 1 := by
  rw [Parser.suffixedExpr, bind_ok] at hs
  obtain ⟨e₀, ms, hprimary, hs⟩ := hs
  exact (h.suffixedTail hs).1 (h.primaryExpr hprimary)

/-- What a suffix makes of an expression, and the suffixes after it. -/
theorem suffix_then (h : Leveled n) {e e₁ e' : Expr}
    (hs : Parser.suffixedTail n c e₁ ls = .ok (e', rest))
    (hplain : e.levels ≤ c.levels + 1 → e₁.levels ≤ c.levels + 1)
    (hhead : e.weight NodeKind.levels .head ≤ c.levels →
      e₁.weight NodeKind.levels .head ≤ c.levels)
    (hstart : e.startsWithName = true → e₁.startsWithName = true) :
    (e.levels ≤ c.levels + 1 → e'.levels ≤ c.levels + 1) ∧
      (e.weight NodeKind.levels .head ≤ c.levels → e'.weight NodeKind.levels .head ≤ c.levels) ∧
      (e.startsWithName = true → e'.startsWithName = true) := by
  obtain ⟨h₁, h₂, h₃⟩ := h.suffixedTail hs
  exact ⟨h₁ ∘ hplain, h₂ ∘ hhead, h₃ ∘ hstart⟩

theorem suffixedTail_succ (h : Leveled n) {e e' : Expr}
    (hs : Parser.suffixedTail (n + 1) c e ls = .ok (e', rest)) :
    (e.levels ≤ c.levels + 1 → e'.levels ≤ c.levels + 1) ∧
      (e.weight NodeKind.levels .head ≤ c.levels → e'.weight NodeKind.levels .head ≤ c.levels) ∧
      (e.startsWithName = true → e'.startsWithName = true) := by
  have call : ∀ {line : Nat}, (do
      let args ← Parser.callArgs n c
      Parser.suffixedTail n c (.call line e args) : Parser Expr) ls = .ok (e', rest) →
      (e.levels ≤ c.levels + 1 → e'.levels ≤ c.levels + 1) ∧
        (e.weight NodeKind.levels .head ≤ c.levels →
          e'.weight NodeKind.levels .head ≤ c.levels) ∧
        (e.startsWithName = true → e'.startsWithName = true) := by
    intro line hs
    obtain ⟨args, ms, hargs, hs⟩ := bind_ok.1 hs
    obtain ⟨hplain, hhead⟩ := h.callArgs hargs
    exact h.suffix_then hs (fun he ↦ Nat.max_le.2 ⟨he, hplain⟩)
      (fun he ↦ Nat.max_le.2 ⟨he, hhead⟩) id
  rw [Parser.suffixedTail, bind_of_ok line_apply, peek_bind_ok] at hs
  obtain ⟨t, _, hs⟩ := hs
  split at hs
  · rw [bind_of_ok advance_apply] at hs
    obtain ⟨x, ms, _, hs⟩ := name_bind_ok.1 hs
    exact h.suffix_then hs (fun he ↦ Nat.max_le.2 ⟨he, Nat.zero_le _⟩)
      (fun he ↦ Nat.max_le.2 ⟨he, Nat.zero_le _⟩) id
  · rw [bind_of_ok advance_apply] at hs
    obtain ⟨key, ms, hkey, hs⟩ := bind_ok.1 hs
    obtain ⟨_, _, hs⟩ := expect_bind_ok.1 hs
    have hkey := h.expr hkey
    exact h.suffix_then hs (fun he ↦ Nat.max_le.2 ⟨he, Nat.le_succ_of_le hkey⟩)
      (fun he ↦ Nat.max_le.2 ⟨he, hkey⟩) id
  · rw [bind_of_ok advance_apply] at hs
    obtain ⟨x, ms, _, hs⟩ := name_bind_ok.1 hs
    obtain ⟨args, ms₁, hargs, hs⟩ := bind_ok.1 hs
    obtain ⟨hplain, hhead⟩ := h.callArgs hargs
    exact h.suffix_then hs (fun he ↦ Nat.max_le.2 ⟨he, hplain⟩)
      (fun he ↦ Nat.max_le.2 ⟨he, hhead⟩) id
  · exact call hs
  · exact call hs
  · exact call hs
  · obtain ⟨rfl, _⟩ := pure_ok.1 hs
    exact ⟨id, id, id⟩

theorem callArgs_succ (h : Leveled n) {es : List Expr}
    (hs : Parser.callArgs (n + 1) c ls = .ok (es, rest)) :
    Expr.weights NodeKind.levels .plain es ≤ c.levels + 1 ∧
      Expr.weights NodeKind.levels .argument es ≤ c.levels := by
  rw [Parser.callArgs, peek_bind_ok] at hs
  obtain ⟨t, _, hs⟩ := hs
  split at hs
  · rw [bind_of_ok advance_apply] at hs
    obtain ⟨rfl, _⟩ := pure_ok.1 hs
    exact ⟨Nat.zero_le _, Nat.zero_le _⟩
  · obtain ⟨e, ms, htable, hs⟩ := bind_ok.1 hs
    obtain ⟨fields, rfl, hfields⟩ := h.tableConstructor htable
    obtain ⟨rfl, _⟩ := pure_ok.1 hs
    rw [Expr.weights_singleton, Expr.weights_singleton, Expr.weight, Expr.weight]
    simp only [Role.table, NodeKind.levels]
    omega
  · rw [bind_of_ok line_apply, bind_of_ok advance_apply, accept_bind_ok] at hs
    rcases hs with ⟨_, _, hs⟩ | ⟨_, _, _, hs⟩
    · obtain ⟨rfl, _⟩ := pure_ok.1 hs
      exact ⟨Nat.zero_le _, Nat.zero_le _⟩
    · obtain ⟨args, ms, hargs, hs⟩ := bind_ok.1 hs
      obtain ⟨_, _, hs⟩ := expectMatch_bind_ok.1 hs
      obtain ⟨rfl, _⟩ := pure_ok.1 hs
      have hplain := Expr.weights_le (h.exprList hargs)
      exact ⟨Nat.le_succ_of_le hplain,
        Nat.le_trans (Expr.weights_le_plain (by decide) .argument es) hplain⟩
  · exact (not_ok_of_complain hs).elim

/-! ## Table constructors -/

theorem tableConstructor_succ (h : Leveled n) {e : Expr}
    (hs : Parser.tableConstructor (n + 1) c ls = .ok (e, rest)) :
    ∃ fields, e = .table fields ∧ Field.weights NodeKind.levels fields ≤ c.levels := by
  rw [Parser.tableConstructor, bind_of_ok line_apply, expect_bind_ok] at hs
  obtain ⟨_, _, hs⟩ := hs
  obtain ⟨fields, _, hfields, hs⟩ := bind_ok.1 hs
  obtain ⟨_, _, hs⟩ := expectMatch_bind_ok.1 hs
  obtain ⟨rfl, _⟩ := pure_ok.1 hs
  have hnone : ∀ f ∈ ([] : List Field), f.levels ≤ c.levels := fun _ hf ↦
    (List.not_mem_nil hf).elim
  exact ⟨fields, rfl, Field.weights_le (h.tableFields hfields hnone)⟩

theorem tableFields_succ (h : Leveled n) {before fs : List Field}
    (hs : Parser.tableFields (n + 1) c before ls = .ok (fs, rest))
    (hbefore : ∀ f ∈ before, f.levels ≤ c.levels) : ∀ f ∈ fs, f.levels ≤ c.levels := by
  rw [Parser.tableFields, check_bind_ok] at hs
  obtain ⟨u, _, hs⟩ := hs
  split at hs
  · obtain ⟨rfl, _⟩ := pure_ok.1 hs
    exact fun f hf ↦ hbefore f (List.mem_reverse.1 hf)
  · obtain ⟨field, ms, hfield, hs⟩ := bind_ok.1 hs
    have hfields : ∀ f ∈ field :: before, f.levels ≤ c.levels :=
      List.forall_mem_cons.2 ⟨h.tableField hfield, hbefore⟩
    rw [accept_bind_ok] at hs
    rcases hs with ⟨_, _, hs⟩ | ⟨_, _, _, hs⟩
    · exact h.tableFields hs hfields
    · simp only [Bool.false_eq_true, if_false, accept_bind_ok] at hs
      rcases hs with ⟨_, _, hs⟩ | ⟨_, _, _, hs⟩
      · exact h.tableFields hs hfields
      · obtain ⟨rfl, _⟩ := pure_ok.1 hs
        exact fun f hf ↦ hfields f (List.mem_reverse.1 hf)

/-- An expression makes a positional field no heavier than it is. -/
theorem positional_levels_le {e : Expr} (he : e.levels ≤ c.levels) :
    (Field.positional e).levels ≤ c.levels :=
  Nat.le_trans (Expr.weight_le_plain (by decide) _ e) he

theorem tableField_succ (h : Leveled n) {f : Field}
    (hs : Parser.tableField (n + 1) c ls = .ok (f, rest)) : f.levels ≤ c.levels := by
  rw [Parser.tableField, peek_bind_ok] at hs
  obtain ⟨t, _, hs⟩ := hs
  split at hs
  · rw [bind_of_ok advance_apply] at hs
    obtain ⟨key, ms, hkey, hs⟩ := bind_ok.1 hs
    obtain ⟨_, _, hs⟩ := expect_bind_ok.1 hs
    obtain ⟨_, _, hs⟩ := expect_bind_ok.1 hs
    obtain ⟨value, _, hvalue, hs⟩ := bind_ok.1 hs
    obtain ⟨rfl, _⟩ := pure_ok.1 hs
    exact Nat.max_le.2 ⟨h.expr hkey, h.expr hvalue⟩
  · next x =>
    rw [bind_of_ok advance_apply, accept_bind_ok] at hs
    rcases hs with ⟨_, _, hs⟩ | ⟨_, _, _, hs⟩
    · obtain ⟨value, _, hvalue, hs⟩ := bind_ok.1 hs
      obtain ⟨rfl, _⟩ := pure_ok.1 hs
      exact Nat.max_le.2 ⟨Nat.zero_le _, h.expr hvalue⟩
    · -- the expression goes on from the name without a level of its own
      obtain ⟨e, ms, htail, hs⟩ := bind_ok.1 hs
      obtain ⟨e', ms₁, hbinary, hs⟩ := bind_ok.1 hs
      obtain ⟨rfl, _⟩ := pure_ok.1 hs
      obtain ⟨_, hhead, hstart⟩ := h.suffixedTail htail
      obtain ⟨hhead', hstart'⟩ :=
        h.binaryTail hbinary (r := .head) (by decide) (Nat.le_refl _) (hhead (Nat.zero_le _))
      rw [Field.levels, Field.weight, if_pos (hstart' (hstart rfl))]
      exact hhead'
  · obtain ⟨e, ms, he, hs⟩ := bind_ok.1 hs
    obtain ⟨rfl, _⟩ := pure_ok.1 hs
    exact positional_levels_le (h.expr he)

/-! ## Blocks and statements -/

theorem block_succ (h : Leveled n) {b : Block} (hb : Parser.block (n + 1) c ls = .ok (b, rest)) :
    ∀ s ∈ b, s.levels ≤ c.levels := by
  rw [Parser.block, nested_ok] at hb
  obtain ⟨levels, hlevels, hb⟩ := hb
  rw [hlevels]
  exact h.statements hb fun _ hs ↦ (List.not_mem_nil hs).elim

theorem loopBlock_succ (h : Leveled n) {b : Block}
    (hb : Parser.loopBlock (n + 1) c ls = .ok (b, rest)) : ∀ s ∈ b, s.levels ≤ c.levels := by
  rw [Parser.loopBlock] at hb
  have := h.block hb
  exact this

theorem statements_succ (h : Leveled n) {before : List Stat} {b : Block}
    (hb : Parser.statements (n + 1) c before ls = .ok (b, rest))
    (hbefore : ∀ s ∈ before, s.levels ≤ c.levels + 1) : ∀ s ∈ b, s.levels ≤ c.levels + 1 := by
  have last : ∀ {s : Stat}, s.levels ≤ c.levels + 1 → b = (s :: before).reverse →
      ∀ s ∈ b, s.levels ≤ c.levels + 1 := by
    rintro s hs rfl s' hs'
    have hall : ∀ s' ∈ s :: before, s'.levels ≤ c.levels + 1 :=
      List.forall_mem_cons.2 ⟨hs, hbefore⟩
    exact hall s' (List.mem_reverse.1 hs')
  rw [Parser.statements, peek_bind_ok] at hb
  obtain ⟨t, _, hb⟩ := hb
  split at hb
  · obtain ⟨rfl, _⟩ := pure_ok.1 hb
    exact fun s hs ↦ hbefore s (List.mem_reverse.1 hs)
  · split at hb
    · obtain ⟨s, _, hs, hb⟩ := bind_ok.1 hb
      exact last (h.returnStat hs) (pure_ok.1 hb).1
    · rw [bind_of_ok line_apply, bind_of_ok advance_apply] at hb
      cases hl : c.loop with
      | false =>
          simp only [hl, Bool.not_false, if_true] at hb
          rw [bind_of_error (complain_apply _)] at hb
          cases hb
      | true =>
          simp only [hl, Bool.not_true, Bool.false_eq_true, if_false] at hb
          obtain ⟨_, _, _, hb⟩ := bind_ok.1 hb
          exact last (Nat.zero_le _) (pure_ok.1 hb).1
    · obtain ⟨s, _, hs, hb⟩ := bind_ok.1 hb
      obtain ⟨_, _, _, hb⟩ := bind_ok.1 hb
      exact h.statements hb (List.forall_mem_cons.2 ⟨h.statement hs, hbefore⟩)

theorem returnStat_succ (h : Leveled n) {s : Stat}
    (hs : Parser.returnStat (n + 1) c ls = .ok (s, rest)) : s.levels ≤ c.levels + 1 := by
  have close : ∀ {vs : List Expr} {ms}, (∀ v ∈ vs, v.levels ≤ c.levels) → (do
        let _ ← accept .semicolon
        return Stat.return_ (front ls).position.line vs) ms = .ok (s, rest) →
      s.levels ≤ c.levels + 1 := by
    intro vs ms hvs hs
    obtain ⟨_, _, _, hs⟩ := bind_ok.1 hs
    obtain ⟨rfl, _⟩ := pure_ok.1 hs
    exact Nat.le_succ_of_le (Expr.weights_le hvs)
  rw [Parser.returnStat, bind_of_ok line_apply, bind_of_ok advance_apply, peek_bind_ok] at hs
  obtain ⟨t, _, hs⟩ := hs
  split at hs
  · rw [bind_of_ok (pure_apply _)] at hs
    exact close (List.forall_mem_nil _) hs
  · obtain ⟨vs, ms, hvs, hs⟩ := bind_ok.1 hs
    exact close (h.exprList hvs) hs

/-- A loop that ends in `end`, around a block. -/
theorem loop_end (h : Leveled n) {opener : Terminal} {at_ : Nat} {f : Block → Stat} {s : Stat}
    (hf : ∀ b, (∀ s ∈ b, s.levels ≤ c.levels) → (f b).levels ≤ c.levels + 1)
    (hs : (do
      let body ← Parser.loopBlock n c
      expectMatch .end_ opener at_
      return f body : Parser Stat) ls = .ok (s, rest)) : s.levels ≤ c.levels + 1 := by
  obtain ⟨body, _, hbody, hs⟩ := bind_ok.1 hs
  obtain ⟨_, _, hs⟩ := expectMatch_bind_ok.1 hs
  obtain ⟨rfl, _⟩ := pure_ok.1 hs
  exact hf body (h.loopBlock hbody)

theorem ifRest_succ (h : Leveled n) {at_ : Nat} {before : List Clause} {s : Stat}
    (hs : Parser.ifRest (n + 1) c at_ before ls = .ok (s, rest))
    (hbefore : ∀ cl ∈ before, cl.levels ≤ c.levels + 1) : s.levels ≤ c.levels + 1 := by
  have hclauses := Clause.weights_le fun cl hcl ↦ hbefore cl (List.mem_reverse.1 hcl)
  rw [Parser.ifRest, accept_bind_ok] at hs
  rcases hs with ⟨_, _, hs⟩ | ⟨_, _, _, hs⟩
  · rw [if_pos rfl] at hs
    obtain ⟨condition, _, hcond, hs⟩ := bind_ok.1 hs
    obtain ⟨_, _, hs⟩ := expect_bind_ok.1 hs
    obtain ⟨body, _, hbody, hs⟩ := bind_ok.1 hs
    refine h.ifRest hs (List.forall_mem_cons.2 ⟨?_, hbefore⟩)
    have hcond := h.expr hcond
    exact Nat.max_le.2 ⟨Nat.le_succ_of_le hcond, Stat.block_levels_le (h.block hbody)⟩
  · simp only [Bool.false_eq_true, if_false, accept_bind_ok] at hs
    rcases hs with ⟨_, _, hs⟩ | ⟨_, _, _, hs⟩
    · obtain ⟨otherwise, _, hother, hs⟩ := bind_ok.1 hs
      obtain ⟨_, _, hs⟩ := expectMatch_bind_ok.1 hs
      obtain ⟨rfl, _⟩ := pure_ok.1 hs
      exact Nat.max_le.2 ⟨hclauses, Stat.block_levels_le (h.block hother)⟩
    · obtain ⟨_, _, hs⟩ := expectMatch_bind_ok.1 hs
      obtain ⟨rfl, _⟩ := pure_ok.1 hs
      exact hclauses

theorem forStat_succ (h : Leveled n) {at_ : Nat} {s : Stat}
    (hs : Parser.forStat (n + 1) c at_ ls = .ok (s, rest)) : s.levels ≤ c.levels + 1 := by
  rw [Parser.forStat, bind_of_ok advance_apply, name_bind_ok] at hs
  obtain ⟨x, _, _, hs⟩ := hs
  rw [accept_bind_ok] at hs
  rcases hs with ⟨_, _, hs⟩ | ⟨_, _, _, hs⟩
  · rw [if_pos rfl] at hs
    obtain ⟨start, _, hstart, hs⟩ := bind_ok.1 hs
    obtain ⟨_, _, hs⟩ := expect_bind_ok.1 hs
    obtain ⟨limit, _, hlimit, hs⟩ := bind_ok.1 hs
    have hstart := Nat.le_succ_of_le (h.expr hstart)
    have hlimit := Nat.le_succ_of_le (h.expr hlimit)
    rw [accept_bind_ok] at hs
    rcases hs with ⟨_, _, hs⟩ | ⟨_, _, _, hs⟩
    · simp only [if_true, map_eq_pure_bind, bind_assoc, pure_bind] at hs
      obtain ⟨step, _, hstep, hs⟩ := bind_ok.1 hs
      have hstep := Nat.le_succ_of_le (h.expr hstep)
      obtain ⟨_, _, hs⟩ := expect_bind_ok.1 hs
      refine h.loop_end (fun b hb ↦ ?_) hs
      have hblock := Stat.block_levels_le hb
      exact Nat.max_le.2 ⟨hstart, Nat.max_le.2 ⟨hlimit, Nat.max_le.2 ⟨hstep, hblock⟩⟩⟩
    · simp only [Bool.false_eq_true, if_false, pure_bind] at hs
      obtain ⟨_, _, hs⟩ := expect_bind_ok.1 hs
      refine h.loop_end (fun b hb ↦ ?_) hs
      have hblock := Stat.block_levels_le hb
      exact Nat.max_le.2 ⟨hstart, Nat.max_le.2 ⟨hlimit, hblock⟩⟩
  · simp only [Bool.false_eq_true, if_false] at hs
    obtain ⟨names, _, _, hs⟩ := bind_ok.1 hs
    rw [accept_bind_ok] at hs
    rcases hs with ⟨_, _, hs⟩ | ⟨_, _, _, hs⟩
    · obtain ⟨values, _, hvalues, hs⟩ := bind_ok.1 hs
      have hvalues := Expr.weights_le (h.exprList hvalues)
      obtain ⟨_, _, hs⟩ := expect_bind_ok.1 hs
      refine h.loop_end (fun b hb ↦ ?_) hs
      exact Nat.max_le.2 ⟨Nat.le_succ_of_le hvalues, Stat.block_levels_le hb⟩
    · simp only [Bool.not_false, if_true] at hs
      rw [bind_of_error (complain_apply _)] at hs
      cases hs

theorem targetsAfter_succ (h : Leveled n) {before es : List Expr}
    (hs : Parser.targetsAfter (n + 1) c before ls = .ok (es, rest))
    (hbefore : ∀ e ∈ before, e.levels ≤ c.levels + 1) : ∀ e ∈ es, e.levels ≤ c.levels + 1 := by
  rw [Parser.targetsAfter, accept_bind_ok] at hs
  rcases hs with ⟨_, _, hs⟩ | ⟨_, _, _, hs⟩
  · obtain ⟨target, _, htarget, hs⟩ := bind_ok.1 hs
    exact h.targetsAfter hs (List.forall_mem_cons.2 ⟨h.suffixedExpr htarget, hbefore⟩)
  · obtain ⟨rfl, _⟩ := pure_ok.1 hs
    exact fun e he ↦ hbefore e (List.mem_reverse.1 he)

theorem exprStat_succ (h : Leveled n) {at_ : Nat} {s : Stat}
    (hs : Parser.exprStat (n + 1) c at_ ls = .ok (s, rest)) : s.levels ≤ c.levels + 1 := by
  rw [Parser.exprStat, bind_ok] at hs
  obtain ⟨first, _, hfirst, hs⟩ := hs
  have hfirst := h.suffixedExpr hfirst
  rw [peek_bind_ok] at hs
  obtain ⟨t, _, hs⟩ := hs
  split at hs
  · obtain ⟨targets, _, htargets, hs⟩ := bind_ok.1 hs
    have htargets := h.targetsAfter htargets (List.forall_mem_singleton.2 hfirst)
    split at hs
    · rw [bind_of_error (complain_apply _)] at hs
      cases hs
    · obtain ⟨_, _, hs⟩ := expect_bind_ok.1 hs
      obtain ⟨values, _, hvalues, hs⟩ := bind_ok.1 hs
      have hvalues := Expr.weights_le (h.exprList hvalues)
      obtain ⟨rfl, _⟩ := pure_ok.1 hs
      exact Nat.max_le.2 ⟨Expr.weights_le htargets, Nat.le_succ_of_le hvalues⟩
  · split at hs
    · obtain ⟨rfl, _⟩ := pure_ok.1 hs
      exact hfirst
    · exact (not_ok_of_complain hs).elim

theorem funcBody_succ (h : Leveled n) {isMethod : Bool} {at_ : Nat} {b : Body}
    (hs : Parser.funcBody (n + 1) c isMethod at_ ls = .ok (b, rest)) :
    b.levels ≤ c.levels + 1 := by
  rw [Parser.funcBody, expect_bind_ok] at hs
  obtain ⟨_, _, hs⟩ := hs
  have close : ∀ {ns : List Lexeme} {names : List String} {isVararg : Bool}, (do
      expect .rightParen
      let body ← Parser.block n { c with vararg := isVararg, loop := false }
      expectMatch .end_ .function at_
      return Body.mk names isVararg at_ body : Parser Body) ns = .ok (b, rest) →
      b.levels ≤ c.levels + 1 := by
    intro ns names isVararg hs
    obtain ⟨_, _, hs⟩ := expect_bind_ok.1 hs
    obtain ⟨body, _, hbody, hs⟩ := bind_ok.1 hs
    obtain ⟨_, _, hs⟩ := expectMatch_bind_ok.1 hs
    obtain ⟨rfl, _⟩ := pure_ok.1 hs
    have hbody := h.block hbody
    exact Stat.block_levels_le hbody
  rw [check_bind_ok] at hs
  obtain ⟨u, _, hs⟩ := hs
  split at hs
  · rw [pure_bind] at hs
    exact close hs
  · obtain ⟨⟨names, isVararg⟩, _, _, hs⟩ := bind_ok.1 hs
    exact close hs

theorem statement_succ (h : Leveled n) {s : Stat}
    (hs : Parser.statement (n + 1) c ls = .ok (s, rest)) : s.levels ≤ c.levels + 1 := by
  have function_end : ∀ {isMethod : Bool} {at_ : Nat} {f : Body → Stat} {ms},
      (∀ b, (f b).levels = b.levels) → (do
        let body ← Parser.funcBody n c isMethod at_
        return f body : Parser Stat) ms = .ok (s, rest) → s.levels ≤ c.levels + 1 := by
    intro isMethod at_ f ms hf hs
    obtain ⟨body, _, hbody, hs⟩ := bind_ok.1 hs
    obtain ⟨rfl, _⟩ := pure_ok.1 hs
    rw [hf]
    exact h.funcBody hbody
  rw [Parser.statement, bind_of_ok line_apply, peek_bind_ok] at hs
  obtain ⟨t, _, hs⟩ := hs
  split at hs
  · -- `if`
    rw [bind_of_ok advance_apply] at hs
    obtain ⟨condition, _, hcond, hs⟩ := bind_ok.1 hs
    obtain ⟨_, _, hs⟩ := expect_bind_ok.1 hs
    obtain ⟨first, _, hfirst, hs⟩ := bind_ok.1 hs
    have hcond := Nat.le_succ_of_le (h.expr hcond)
    refine h.ifRest hs (List.forall_mem_singleton.2 ?_)
    exact Nat.max_le.2 ⟨hcond, Stat.block_levels_le (h.block hfirst)⟩
  · -- `while`
    rw [bind_of_ok advance_apply] at hs
    obtain ⟨condition, _, hcond, hs⟩ := bind_ok.1 hs
    obtain ⟨_, _, hs⟩ := expect_bind_ok.1 hs
    have hcond := Nat.le_succ_of_le (h.expr hcond)
    refine h.loop_end (fun b hb ↦ ?_) hs
    exact Nat.max_le.2 ⟨hcond, Stat.block_levels_le hb⟩
  · -- `do`
    rw [bind_of_ok advance_apply] at hs
    obtain ⟨body, _, hbody, hs⟩ := bind_ok.1 hs
    obtain ⟨_, _, hs⟩ := expectMatch_bind_ok.1 hs
    obtain ⟨rfl, _⟩ := pure_ok.1 hs
    exact Stat.block_levels_le (h.block hbody)
  · -- `for`
    exact h.forStat hs
  · -- `repeat`
    rw [bind_of_ok advance_apply] at hs
    obtain ⟨body, _, hbody, hs⟩ := bind_ok.1 hs
    obtain ⟨_, _, hs⟩ := expectMatch_bind_ok.1 hs
    obtain ⟨condition, _, hcond, hs⟩ := bind_ok.1 hs
    obtain ⟨rfl, _⟩ := pure_ok.1 hs
    have hcond := Nat.le_succ_of_le (h.expr hcond)
    exact Nat.max_le.2 ⟨Stat.block_levels_le (h.loopBlock hbody), hcond⟩
  · -- `function`
    rw [bind_of_ok advance_apply, name_bind_ok] at hs
    obtain ⟨x, _, _, hs⟩ := hs
    obtain ⟨path, _, _, hs⟩ := bind_ok.1 hs
    rw [accept_bind_ok] at hs
    rcases hs with ⟨_, _, hs⟩ | ⟨_, _, _, hs⟩
    · rw [if_pos rfl, name_bind_ok] at hs
      obtain ⟨y, _, _, hs⟩ := hs
      exact function_end (fun _ ↦ rfl) hs
    · exact function_end (fun _ ↦ rfl) hs
  · -- `local`
    rw [bind_of_ok advance_apply, accept_bind_ok] at hs
    rcases hs with ⟨_, _, hs⟩ | ⟨_, _, _, hs⟩
    · rw [if_pos rfl, name_bind_ok] at hs
      obtain ⟨x, _, _, hs⟩ := hs
      exact function_end (fun _ ↦ rfl) hs
    · simp only [Bool.false_eq_true, if_false, name_bind_ok] at hs
      obtain ⟨x, _, _, hs⟩ := hs
      obtain ⟨names, _, _, hs⟩ := bind_ok.1 hs
      rw [accept_bind_ok] at hs
      rcases hs with ⟨_, _, hs⟩ | ⟨_, _, _, hs⟩
      · obtain ⟨values, _, hvalues, hs⟩ := bind_ok.1 hs
        obtain ⟨rfl, _⟩ := pure_ok.1 hs
        have hvalues := Expr.weights_le (h.exprList hvalues)
        exact Nat.le_succ_of_le hvalues
      · simp only [Bool.false_eq_true, if_false, pure_bind] at hs
        obtain ⟨rfl, _⟩ := pure_ok.1 hs
        exact Nat.zero_le _
  · exact h.exprStat hs

/-! ## All bounds -/

/-- Without a call nothing succeeds. -/
theorem zero : Leveled 0 := by
  constructor <;> exact fun h ↦ (not_ok_of_complain h).elim

end Leveled

/-- Whatever the bound, the levels left bound what is read. -/
theorem leveled : ∀ n, Leveled n
  | 0 => .zero
  | n + 1 =>
      have h := leveled n
      { block := h.block_succ,
        statements := h.statements_succ,
        loopBlock := h.loopBlock_succ,
        returnStat := h.returnStat_succ,
        statement := h.statement_succ,
        ifRest := h.ifRest_succ,
        forStat := h.forStat_succ,
        exprStat := h.exprStat_succ,
        targetsAfter := h.targetsAfter_succ,
        funcBody := h.funcBody_succ,
        exprList := h.exprList_succ,
        exprsAfter := h.exprsAfter_succ,
        expr := h.expr_succ,
        subexpr := h.subexpr_succ,
        operand := h.operand_succ,
        binaryTail := h.binaryTail_succ,
        simpleExpr := h.simpleExpr_succ,
        primaryExpr := h.primaryExpr_succ,
        suffixedExpr := h.suffixedExpr_succ,
        suffixedTail := h.suffixedTail_succ,
        callArgs := h.callArgs_succ,
        tableConstructor := h.tableConstructor_succ,
        tableFields := h.tableFields_succ,
        tableField := h.tableField_succ }

end Parser

namespace Chunk

open LuaEmbed.Parser

/-! ## Chunks -/

/-- On a path of a chunk that is accepted, the nodes other than bare tables are at most one more
than there are syntax levels. -/
theorem levels_le {name : String} {source : List UInt8} {c : Chunk}
    (h : ofBytes name source = .ok c) :
    c.body.levels ≤ maxLevels + 1 ∧ c.body.nesting ≤ maxLevels + 1 + c.body.bareTables := by
  suffices hlevels : c.body.levels ≤ maxLevels + 1 from
    ⟨hlevels, Nat.le_trans c.body.nesting_le (Nat.add_le_add_right hlevels _)⟩
  rw [ofBytes, ofLexemes_eq] at h
  cases hchunk : Parser.chunk (16 * (Lexer.ofBytes source).lexemes.length + 64)
      (Lexer.ofBytes source).lexemes with
  | error e =>
      rw [hchunk] at h
      cases h
  | ok r =>
      rw [hchunk] at h
      obtain rfl := Except.ok.inj h
      rw [Parser.chunk, bind_ok] at hchunk
      obtain ⟨stats, ms, hblock, hend⟩ := hchunk
      have hstats := (leveled _).block hblock
      rw [peek_bind_ok] at hend
      obtain ⟨t, _, hend⟩ := hend
      obtain ⟨b, rest⟩ := r
      split at hend
      · obtain ⟨rfl, _⟩ := pure_ok.1 hend
        exact Stat.block_levels_le hstats
      · exact (not_ok_of_complain hend).elim

theorem levels_le_return :
    ofBytes "test" "return".toUTF8.data.toList = .ok ⟨"test", .mk [] true 0 [.return_ 1 []]⟩ ∧
      (Body.mk [] true 0 [.return_ 1 []]).levels ≤ maxLevels + 1 ∧
      (Body.mk [] true 0 [.return_ 1 []]).nesting ≤
        maxLevels + 1 + (Body.mk [] true 0 [.return_ 1 []]).bareTables := by
  have h : ofBytes "test" "return".toUTF8.data.toList =
      .ok ⟨"test", .mk [] true 0 [.return_ 1 []]⟩ := by
    cbv
  exact ⟨h, levels_le h⟩

end Chunk

end LuaEmbed
