import LuaEmbed.Chunk
import Mathlib.Data.List.Basic

/-!
# Grouping by precedence

An expression read from left to right is a list of *items*: operands, which are the expressions that
no operator is the root of, and operators before and between them.  Many trees have the same items.
The precedence of the language keeps one of them apart: `WellGrouped` states its rules for a node
and the nodes right below it, and `Expr.WellGrouped.unique` shows that they leave no choice.
-/

namespace LuaEmbed

/-! ## Precedence -/

namespace BinaryOp

/-- The rank of an operator in the order of precedence, from the loosest to the tightest. -/
def tier : BinaryOp → Nat
  | .or => 1
  | .and => 2
  | .eq | .ne | .lt | .le | .gt | .ge => 3
  | .concat => 4
  | .add | .sub => 5
  | .mul | .div | .mod => 6
  | .pow => 8

/-- The operators that group to the right. -/
def groupsRight : BinaryOp → Bool
  | .concat | .pow => true
  | _ => false

theorem tier_le_pow (op : BinaryOp) : op.tier ≤ tier .pow := by
  cases op <;> decide

theorem tier_lt_pow {op : BinaryOp} (h : op.groupsRight = false) : op.tier < tier .pow := by
  revert h
  cases op <;> decide

theorem eq_pow {op : BinaryOp} (h : tier .pow ≤ op.tier) : op = .pow := by
  revert h
  cases op <;> decide

theorem groupsRight_eq {op op' : BinaryOp} (h : op.tier = op'.tier) :
    op.groupsRight = op'.groupsRight := by
  revert h
  cases op <;> cases op' <;> decide

end BinaryOp

/-- The rank of the operators before one operand. -/
def UnaryOp.tier : Nat := 7

namespace Expr

/-- An expression whose root is no operator. -/
def IsOperand : Expr → Prop
  | .binary .. | .unary .. => False
  | _ => True

/-- The expression can be the left operand of `op`. -/
def FitsLeft (op : BinaryOp) : Expr → Prop
  | .binary _ op' _ _ => op.tier < op'.tier ∨ op.tier = op'.tier ∧ op.groupsRight = false
  | .unary .. => op.tier < UnaryOp.tier
  | _ => True

/-- The expression can be the right operand of `op`.  An operator before one operand needs no
parentheses there. -/
def FitsRight (op : BinaryOp) : Expr → Prop
  | .binary _ op' _ _ => op.tier < op'.tier ∨ op.tier = op'.tier ∧ op.groupsRight = true
  | _ => True

/-- The expression can be the operand of an operator before it. -/
def FitsUnary : Expr → Prop
  | .binary _ op _ _ => UnaryOp.tier < op.tier
  | _ => True

/-- Precedence groups the expression as it is. -/
def WellGrouped : Expr → Prop
  | .binary _ op left right =>
      left.WellGrouped ∧ right.WellGrouped ∧ left.FitsLeft op ∧ right.FitsRight op
  | .unary _ _ operand => operand.WellGrouped ∧ operand.FitsUnary
  | _ => True

end Expr

/-- What an expression reads as from left to right. -/
inductive Item where
  | operand (e : Expr)
  | unary (line : Nat) (op : UnaryOp)
  | binary (line : Nat) (op : BinaryOp)

/-- The operands and operators of an expression from left to right. -/
def Expr.items : Expr → List Item
  | .binary line op left right => left.items ++ .binary line op :: right.items
  | .unary line op operand => .unary line op :: operand.items
  | e => [.operand e]

namespace Expr

variable {e e' left right : Expr} {op : BinaryOp}

theorem items_of_isOperand (h : e.IsOperand) : e.items = [.operand e] := by
  cases e <;> first | exact h.elim | rfl

theorem isOperand_of_ne (hb : ∀ line op left right, e = .binary line op left right → False)
    (hu : ∀ line op operand, e = .unary line op operand → False) : e.IsOperand := by
  cases e <;> first
    | exact (hb _ _ _ _ rfl).elim
    | exact (hu _ _ _ rfl).elim
    | trivial

theorem wellGrouped_of_isOperand (h : e.IsOperand) : e.WellGrouped := by
  cases e <;> first | exact h.elim | trivial

/-! ## The loosest operator is at the root -/

/-- The operators between operands bind at least as tightly as `tier`. -/
def AtLeast (tier : Nat) (items : List Item) : Prop :=
  ∀ line op, .binary line op ∈ items → tier ≤ op.tier

/-- A bound on the operators between operands, read off the root. -/
def rootTier : Expr → Nat
  | .binary _ op _ _ => op.tier
  | .unary .. => BinaryOp.tier .pow
  | _ => BinaryOp.tier .pow + 1

theorem FitsLeft.tier_le (h : e.FitsLeft op) : op.tier ≤ e.rootTier := by
  cases e with
  | binary => exact h.elim Nat.le_of_lt fun h ↦ Nat.le_of_eq h.1
  | unary => exact Nat.le_of_lt (Nat.lt_succ_of_lt h)
  | _ => exact Nat.le_succ_of_le op.tier_le_pow

theorem FitsLeft.tier_lt (h : e.FitsLeft op) (hop : op.groupsRight = true) :
    op.tier < e.rootTier := by
  cases e with
  | binary => exact h.resolve_right fun h ↦ nomatch hop.symm.trans h.2
  | unary => exact Nat.lt_succ_of_lt h
  | _ => exact Nat.lt_succ_of_le op.tier_le_pow

theorem FitsRight.tier_le (h : e.FitsRight op) : op.tier ≤ e.rootTier := by
  cases e with
  | binary => exact h.elim Nat.le_of_lt fun h ↦ Nat.le_of_eq h.1
  | unary => exact op.tier_le_pow
  | _ => exact Nat.le_succ_of_le op.tier_le_pow

theorem FitsRight.tier_lt (h : e.FitsRight op) (hop : op.groupsRight = false) :
    op.tier < e.rootTier := by
  cases e with
  | binary => exact h.resolve_right fun h ↦ nomatch hop.symm.trans h.2
  | unary => exact BinaryOp.tier_lt_pow hop
  | _ => exact Nat.lt_succ_of_lt (BinaryOp.tier_lt_pow hop)

theorem FitsUnary.tier_le (h : e.FitsUnary) : BinaryOp.tier .pow ≤ e.rootTier := by
  cases e with
  | binary => exact h
  | unary => exact Nat.le_refl _
  | _ => exact Nat.le_succ _

/-- No operator in a well grouped expression binds looser than its root. -/
theorem WellGrouped.atLeast (h : e.WellGrouped) : AtLeast e.rootTier e.items := by
  induction e using Expr.items.induct with
  | case1 line op left right ihl ihr =>
      obtain ⟨hl, hr, hfl, hfr⟩ := h
      intro line' op' hmem
      rcases List.mem_append.1 hmem with hmem | hmem
      · exact Nat.le_trans hfl.tier_le (ihl hl line' op' hmem)
      · rcases List.mem_cons.1 hmem with heq | hmem
        · cases heq
          exact Nat.le_refl _
        · exact Nat.le_trans hfr.tier_le (ihr hr line' op' hmem)
  | case2 line op operand ih =>
      obtain ⟨hx, hfits⟩ := h
      intro line' op' hmem
      rcases List.mem_cons.1 hmem with heq | hmem
      · exact nomatch heq
      · exact Nat.le_trans hfits.tier_le (ih hx line' op' hmem)
  | case3 e hbinary hunary =>
      intro line' op' hmem
      rw [items_of_isOperand (isOperand_of_ne hbinary hunary)] at hmem
      exact nomatch List.mem_singleton.1 hmem

/-! ## Uniqueness -/

/-- Lists that agree are split alike at the first element of which `P` holds. -/
theorem split_first {α : Type} {P : α → Prop} {x x' : α} {l l' r r' : List α} (hx : P x)
    (hx' : P x') (hl : ∀ y ∈ l, ¬ P y) (hl' : ∀ y ∈ l', ¬ P y)
    (h : l ++ x :: r = l' ++ x' :: r') : l = l' ∧ x = x' ∧ r = r' := by
  induction l generalizing l' with
  | nil =>
      cases l' with
      | nil =>
          obtain ⟨rfl, rfl⟩ := List.cons.inj h
          exact ⟨rfl, rfl, rfl⟩
      | cons y l' =>
          obtain ⟨rfl, _⟩ := List.cons.inj h
          exact absurd hx (hl' _ (List.mem_cons_self ..))
  | cons y l ih =>
      cases l' with
      | nil =>
          obtain ⟨rfl, _⟩ := List.cons.inj h
          exact absurd hx' (hl _ (List.mem_cons_self ..))
      | cons y' l' =>
          obtain ⟨rfl, hrest⟩ := List.cons.inj h
          obtain ⟨rfl, rfl, rfl⟩ := ih (fun z hz ↦ hl z (List.mem_cons_of_mem _ hz))
            (fun z hz ↦ hl' z (List.mem_cons_of_mem _ hz)) hrest
          exact ⟨rfl, rfl, rfl⟩

/-- Lists that agree are split alike at the last element of which `P` holds. -/
theorem split_last {α : Type} {P : α → Prop} {x x' : α} {l l' r r' : List α} (hx : P x)
    (hx' : P x') (hr : ∀ y ∈ r, ¬ P y) (hr' : ∀ y ∈ r', ¬ P y)
    (h : l ++ x :: r = l' ++ x' :: r') : l = l' ∧ x = x' ∧ r = r' := by
  have hrev : r.reverse ++ x :: l.reverse = r'.reverse ++ x' :: l'.reverse := by
    simpa using congrArg List.reverse h
  obtain ⟨h₁, rfl, h₂⟩ := split_first hx hx' (fun y hy ↦ hr y (List.mem_reverse.1 hy))
    (fun y hy ↦ hr' y (List.mem_reverse.1 hy)) hrev
  exact ⟨List.reverse_injective h₂, rfl, List.reverse_injective h₁⟩

/-- An operator between operands of the given rank. -/
def OfTier (tier : Nat) : Item → Prop
  | .binary _ op => op.tier = tier
  | _ => False

theorem WellGrouped.not_ofTier (h : e.WellGrouped) {tier : Nat} (hlt : tier < e.rootTier) :
    ∀ item ∈ e.items, ¬ OfTier tier item := by
  rintro (_ | _ | ⟨line, op⟩) hitem htier
  · exact htier
  · exact htier
  · exact Nat.not_le_of_lt hlt (htier ▸ h.atLeast line op hitem)

/-- What `^` has on its left is an operand. -/
theorem FitsLeft.isOperand (h : e.FitsLeft .pow) : e.IsOperand := by
  cases e with
  | binary _ op =>
      rcases h with h | h
      · exact absurd h (Nat.not_lt_of_le op.tier_le_pow)
      · exact nomatch h.2
  | unary => exact absurd (show BinaryOp.tier .pow < UnaryOp.tier from h) (by decide)
  | _ => trivial

/-- An operator before one operand is not read as part of a left operand. -/
theorem unary_ne_binary {line line' : Nat} {op : UnaryOp} {op' : BinaryOp}
    (h : (unary line op e).WellGrouped) (h' : (binary line' op' left right).WellGrouped) :
    (unary line op e).items ≠ (binary line' op' left right).items := by
  intro heq
  have hpow : op' = .pow := by
    refine BinaryOp.eq_pow (h.atLeast line' op' ?_)
    rw [heq]
    exact List.mem_append_right _ (List.mem_cons_self ..)
  subst hpow
  have hleft := items_of_isOperand h'.2.2.1.isOperand
  rw [items, items, hleft] at heq
  exact nomatch (List.cons.inj heq).1

/-- Items of an operator between operands are the items of that operator alone. -/
theorem binary_split {line line' : Nat} {op op' : BinaryOp} {left' right' : Expr}
    (h : (binary line op left right).WellGrouped)
    (h' : (binary line' op' left' right').WellGrouped)
    (heq : (binary line op left right).items = (binary line' op' left' right').items) :
    left.items = left'.items ∧ (line = line' ∧ op = op') ∧ right.items = right'.items := by
  have hmem : ∀ {l o a b}, Item.binary l o ∈ (binary l o a b).items :=
    List.mem_append_right _ (List.mem_cons_self ..)
  have htier : op.tier = op'.tier :=
    Nat.le_antisymm (h.atLeast line' op' (heq ▸ hmem)) (h'.atLeast line op (heq ▸ hmem))
  obtain ⟨hl, hr, hfl, hfr⟩ := h
  obtain ⟨hl', hr', hfl', hfr'⟩ := h'
  have hsplit : left.items = left'.items ∧ Item.binary line op = .binary line' op' ∧
      right.items = right'.items := by
    cases hop : op.groupsRight with
    | true =>
        have hop' := (BinaryOp.groupsRight_eq htier).symm.trans hop
        exact split_first (P := OfTier op.tier) rfl htier.symm (hl.not_ofTier (hfl.tier_lt hop))
          (hl'.not_ofTier (htier ▸ hfl'.tier_lt hop')) heq
    | false =>
        have hop' := (BinaryOp.groupsRight_eq htier).symm.trans hop
        exact split_last (P := OfTier op.tier) rfl htier.symm (hr.not_ofTier (hfr.tier_lt hop))
          (hr'.not_ofTier (htier ▸ hfr'.tier_lt hop')) heq
  obtain ⟨hleft, hroot, hright⟩ := hsplit
  cases hroot
  exact ⟨hleft, ⟨rfl, rfl⟩, hright⟩

/-- One operand is the items of itself alone. -/
theorem eq_of_items (h : e'.items = [.operand e]) : e' = e := by
  by_cases hop : e'.IsOperand
  · rw [items_of_isOperand hop] at h
    exact Item.operand.inj (List.singleton_inj.1 h)
  · cases e' with
    | binary line op left right =>
        have hmem : Item.binary line op ∈ (binary line op left right).items :=
          List.mem_append_right _ (List.mem_cons_self ..)
        rw [h] at hmem
        exact nomatch List.mem_singleton.1 hmem
    | unary => exact nomatch (List.cons.inj h).1
    | _ => exact absurd trivial hop

/-- Precedence leaves no choice: items are those of at most one well grouped expression. -/
theorem WellGrouped.unique (h : e.WellGrouped) (h' : e'.WellGrouped) (heq : e.items = e'.items) :
    e = e' := by
  induction e using Expr.items.induct generalizing e' with
  | case1 line op left right ihl ihr =>
      cases e' with
      | binary line' op' left' right' =>
          obtain ⟨hleft, ⟨rfl, rfl⟩, hright⟩ := binary_split h h' heq
          rw [ihl h.1 h'.1 hleft, ihr h.2.1 h'.2.1 hright]
      | unary => exact absurd heq.symm (unary_ne_binary h' h)
      | _ => exact eq_of_items heq
  | case2 line op operand ih =>
      cases e' with
      | binary => exact absurd heq (unary_ne_binary h h')
      | unary line' op' operand' =>
          obtain ⟨hroot, hrest⟩ := List.cons.inj heq
          cases hroot
          rw [ih h.1 h'.1 hrest]
      | _ => exact eq_of_items heq
  | case3 e hbinary hunary =>
      rw [items_of_isOperand (isOperand_of_ne hbinary hunary)] at heq
      exact (eq_of_items heq.symm).symm

end Expr

end LuaEmbed
