import LuaEmbed.Proofs.Syntax.Reading

/-!
# Accepted chunks are well formed

A tree can be built that no source denotes: one with a `break` outside of loops, an assignment to a
call, or a loop over no names.  `WellFormed` leaves these out, and the parser builds none of them.
It keeps in its `Context` whether the innermost function takes `...` and whether there is a loop
around, and a function body starts with both anew, wherever in an expression it stands.
-/

namespace LuaEmbed

/-- A statement behind which a block has no other. -/
def Stat.isFinal : Stat → Bool
  | .return_ .. | .break_ _ => true
  | _ => false

mutual

/-- A well-formed expression of a function, which takes `...` if the flag is set. -/
inductive Expr.WellFormed : Bool → Expr → Prop where
  | nil {v} : Expr.WellFormed v .nil
  | true_ {v} : Expr.WellFormed v .true_
  | false_ {v} : Expr.WellFormed v .false_
  | number {v n} : Expr.WellFormed v (.number n)
  | string {v s} : Expr.WellFormed v (.string s)
  | vararg : Expr.WellFormed true .vararg
  | function {v body} : body.WellFormed → Expr.WellFormed v (.function body)
  | name {v s} : Expr.WellFormed v (.name s)
  | index {v line object key} :
      object.WellFormed v → key.WellFormed v → Expr.WellFormed v (.index line object key)
  | call {v line callee args} :
      callee.WellFormed v → (∀ e ∈ args, e.WellFormed v) →
        Expr.WellFormed v (.call line callee args)
  | method {v line object name args} :
      object.WellFormed v → (∀ e ∈ args, e.WellFormed v) →
        Expr.WellFormed v (.method line object name args)
  | table {v fields} : (∀ f ∈ fields, f.WellFormed v) → Expr.WellFormed v (.table fields)
  | binary {v line op left right} :
      left.WellFormed v → right.WellFormed v → Expr.WellFormed v (.binary line op left right)
  | unary {v line op operand} : operand.WellFormed v → Expr.WellFormed v (.unary line op operand)
  | paren {v inner} : inner.WellFormed v → Expr.WellFormed v (.paren inner)

/-- A well-formed field of a table constructor. -/
inductive Field.WellFormed : Bool → Field → Prop where
  | keyed {v key value} :
      key.WellFormed v → value.WellFormed v → Field.WellFormed v (.keyed key value)
  | positional {v value} : value.WellFormed v → Field.WellFormed v (.positional value)

/-- A well-formed statement of a function, which takes `...` if the first flag is set.  There is a
loop around in that function if the second one is. -/
inductive Stat.WellFormed : Bool → Bool → Stat → Prop where
  | local_ {v l line names values} :
      names ≠ [] → (∀ e ∈ values, e.WellFormed v) → Stat.WellFormed v l (.local_ line names values)
  | assign {v l line targets values} :
      (∀ e ∈ targets, e.isTarget = true) → (∀ e ∈ targets, e.WellFormed v) →
        (∀ e ∈ values, e.WellFormed v) → Stat.WellFormed v l (.assign line targets values)
  | call {v l line e} : e.isCall = true → e.WellFormed v → Stat.WellFormed v l (.call line e)
  | do_ {v l block} : Block.WellFormed v l block → Stat.WellFormed v l (.do_ block)
  | while_ {v l line condition block} :
      condition.WellFormed v → Block.WellFormed v true block →
        Stat.WellFormed v l (.while_ line condition block)
  | repeat_ {v l line block condition} :
      Block.WellFormed v true block → condition.WellFormed v →
        Stat.WellFormed v l (.repeat_ line block condition)
  | if_ {v l line clauses otherwise} :
      clauses ≠ [] → (∀ c ∈ clauses, c.WellFormed v l) →
        (∀ block, otherwise = some block → Block.WellFormed v l block) →
        Stat.WellFormed v l (.if_ line clauses otherwise)
  | numericFor {v l line var start limit step block} :
      start.WellFormed v → limit.WellFormed v → (∀ e, step = some e → e.WellFormed v) →
        Block.WellFormed v true block →
        Stat.WellFormed v l (.numericFor line var start limit step block)
  | genericFor {v l line names values block} :
      names ≠ [] → (∀ e ∈ values, e.WellFormed v) → Block.WellFormed v true block →
        Stat.WellFormed v l (.genericFor line names values block)
  | function {v l line path method body} :
      path ≠ [] → body.WellFormed → Stat.WellFormed v l (.function line path method body)
  | localFunction {v l line name body} :
      body.WellFormed → Stat.WellFormed v l (.localFunction line name body)
  | return_ {v l line values} :
      (∀ e ∈ values, e.WellFormed v) → Stat.WellFormed v l (.return_ line values)
  | break_ {v line} : Stat.WellFormed v true (.break_ line)

/-- A well-formed clause of an `if` statement. -/
inductive Clause.WellFormed : Bool → Bool → Clause → Prop where
  | mk {v l condition block} :
      condition.WellFormed v → Block.WellFormed v l block →
        Clause.WellFormed v l (.mk condition block)

/-- A well-formed block: only the last statement is a final one. -/
inductive Block.WellFormed : Bool → Bool → Block → Prop where
  | mk {v l block} :
      (∀ s ∈ block.dropLast, s.isFinal = false) → (∀ s ∈ block, s.WellFormed v l) →
        Block.WellFormed v l block

/-- A well-formed function: whether it takes `...` counts for all of its own block, and no loop is
around that block. -/
inductive Body.WellFormed : Body → Prop where
  | mk {params isVararg line block} :
      Block.WellFormed isVararg false block → Body.WellFormed (.mk params isVararg line block)

end

namespace Parser

/-! ## What a parser gives -/

section Gives

variable {α β : Type} {p : Parser α} {f : α → Parser β} {P : α → Prop} {Q : β → Prop}

/-- Whatever the parser reads, it has the property. -/
def Gives (p : Parser α) (P : α → Prop) : Prop :=
  ∀ ⦃ls a rest⦄, p ls = .ok (a, rest) → P a

namespace Gives

theorem bind (hp : Gives p P) (hf : ∀ a, P a → Gives (f a) Q) : Gives (p >>= f) Q := by
  intro ls b rest h
  obtain ⟨a, ms, ha, hb⟩ := bind_ok.1 h
  exact hf a (hp ha) hb

/-- What is read first may be anything. -/
theorem after (hf : ∀ a, Gives (f a) Q) : Gives (p >>= f) Q :=
  bind (P := fun _ ↦ True) (fun _ _ _ _ ↦ trivial) fun a _ ↦ hf a

theorem pure {a : α} (h : P a) : Gives (Pure.pure a : Parser α) P := by
  intro ls b rest hb
  rw [(pure_ok.1 hb).1]
  exact h

theorem complain {what : Complaint} : Gives (Parser.complain what) P :=
  fun _ _ _ h ↦ (not_ok_of_complain h).elim

/-- If a condition holds, there is a complaint. -/
theorem orComplain {c : Prop} [Decidable c] {what : Complaint} {f : Unit → Parser β}
    (h : ¬c → Gives (f ()) Q) : Gives (if c then Parser.complain what >>= f else f ()) Q := by
  split
  · exact bind complain fun _ (h : False) ↦ h.elim
  · exact h ‹_›

theorem map {g : α → β} (h : Gives p fun a ↦ Q (g a)) : Gives (g <$> p) Q := by
  rw [← bind_pure_comp]
  exact h.bind fun _ ha ↦ pure ha

end Gives

theorem nested_gives {c : Context} {p : Context → Parser α}
    (h : ∀ levels, Gives (p { c with levels }) P) : Gives (nested c p) P := by
  intro ls a rest ha
  obtain ⟨levels, _, ha⟩ := nested_ok.1 ha
  exact h levels ha

end Gives

/-- A list read behind others, which are held in reverse, has all of them. -/
theorem namesAfter_gives (separator : Terminal) (n : Nat) {before : List String}
    (h : before ≠ []) : Gives (namesAfter separator n before) (· ≠ []) := by
  induction n generalizing before with
  | zero => exact .complain
  | succ n ih =>
      refine .after fun more ↦ ?_
      split
      · exact .after fun s ↦ ih (List.cons_ne_nil s before)
      · exact .pure (by simpa using h)

/-! ## The productions -/

/-- What the functions with bound `n` read is well formed. -/
structure WellReads (n : Nat) : Prop where
  block (c : Context) : Gives (block n c) (Block.WellFormed c.vararg c.loop)
  statements (c : Context) {before : List Stat} :
    (∀ s ∈ before, s.isFinal = false) → (∀ s ∈ before, s.WellFormed c.vararg c.loop) →
      Gives (statements n c before) (Block.WellFormed c.vararg c.loop)
  loopBlock (c : Context) : Gives (loopBlock n c) (Block.WellFormed c.vararg true)
  returnStat (c : Context) : Gives (returnStat n c) fun s ↦ s.WellFormed c.vararg c.loop
  statement (c : Context) :
    Gives (statement n c) fun s ↦ s.isFinal = false ∧ s.WellFormed c.vararg c.loop
  ifRest (c : Context) (at_ : Nat) {before : List Clause} :
    before ≠ [] → (∀ cl ∈ before, cl.WellFormed c.vararg c.loop) →
      Gives (ifRest n c at_ before) fun s ↦ s.isFinal = false ∧ s.WellFormed c.vararg c.loop
  forStat (c : Context) (at_ : Nat) :
    Gives (forStat n c at_) fun s ↦ s.isFinal = false ∧ s.WellFormed c.vararg c.loop
  exprStat (c : Context) (at_ : Nat) :
    Gives (exprStat n c at_) fun s ↦ s.isFinal = false ∧ s.WellFormed c.vararg c.loop
  targetsAfter (c : Context) {before : List Expr} :
    (∀ e ∈ before, e.WellFormed c.vararg) →
      Gives (targetsAfter n c before) fun es ↦ ∀ e ∈ es, e.WellFormed c.vararg
  funcBody (c : Context) (isMethod : Bool) (at_ : Nat) :
    Gives (funcBody n c isMethod at_) Body.WellFormed
  exprList (c : Context) : Gives (exprList n c) fun es ↦ ∀ e ∈ es, e.WellFormed c.vararg
  exprsAfter (c : Context) {before : List Expr} :
    (∀ e ∈ before, e.WellFormed c.vararg) →
      Gives (exprsAfter n c before) fun es ↦ ∀ e ∈ es, e.WellFormed c.vararg
  expr (c : Context) : Gives (expr n c) (Expr.WellFormed c.vararg)
  subexpr (c : Context) (limit : Nat) : Gives (subexpr n c limit) (Expr.WellFormed c.vararg)
  operand (c : Context) (limit : Nat) : Gives (operand n c limit) (Expr.WellFormed c.vararg)
  binaryTail (c : Context) {left : Expr} (limit : Nat) :
    left.WellFormed c.vararg → Gives (binaryTail n c left limit) (Expr.WellFormed c.vararg)
  simpleExpr (c : Context) : Gives (simpleExpr n c) (Expr.WellFormed c.vararg)
  primaryExpr (c : Context) : Gives (primaryExpr n c) (Expr.WellFormed c.vararg)
  suffixedExpr (c : Context) : Gives (suffixedExpr n c) (Expr.WellFormed c.vararg)
  suffixedTail (c : Context) {e : Expr} :
    e.WellFormed c.vararg → Gives (suffixedTail n c e) (Expr.WellFormed c.vararg)
  callArgs (c : Context) : Gives (callArgs n c) fun es ↦ ∀ e ∈ es, e.WellFormed c.vararg
  tableConstructor (c : Context) : Gives (tableConstructor n c) (Expr.WellFormed c.vararg)
  tableFields (c : Context) {before : List Field} :
    (∀ f ∈ before, f.WellFormed c.vararg) →
      Gives (tableFields n c before) fun fs ↦ ∀ f ∈ fs, f.WellFormed c.vararg
  tableField (c : Context) : Gives (tableField n c) (Field.WellFormed c.vararg)

namespace WellReads

variable {n : Nat} (h : WellReads n) (c : Context)

include h

/-! ### Expressions -/

theorem exprList_succ :
    Gives (Parser.exprList (n + 1) c) fun es ↦ ∀ e ∈ es, e.WellFormed c.vararg :=
  (h.expr c).bind fun _ hfirst ↦ h.exprsAfter c (List.forall_mem_singleton.2 hfirst)

theorem exprsAfter_succ {before : List Expr} (hbefore : ∀ e ∈ before, e.WellFormed c.vararg) :
    Gives (Parser.exprsAfter (n + 1) c before) fun es ↦ ∀ e ∈ es, e.WellFormed c.vararg := by
  refine .after fun more ↦ ?_
  split
  · exact (h.expr c).bind fun _ he ↦ h.exprsAfter c (List.forall_mem_cons.2 ⟨he, hbefore⟩)
  · exact .pure fun e he ↦ hbefore e (List.mem_reverse.1 he)

theorem subexpr_succ (limit : Nat) :
    Gives (Parser.subexpr (n + 1) c limit) (Expr.WellFormed c.vararg) :=
  nested_gives (c := c) (p := fun c ↦ Parser.operand n c limit) fun levels ↦
    h.operand { c with levels } limit

theorem operand_succ (limit : Nat) :
    Gives (Parser.operand (n + 1) c limit) (Expr.WellFormed c.vararg) := by
  refine .after fun at_ ↦ .after fun t ↦ ?_
  split
  · refine .after fun _ ↦ (h.subexpr c _).bind fun e he ↦ ?_
    exact h.binaryTail c limit (.unary he)
  · exact (h.simpleExpr c).bind fun e he ↦ h.binaryTail c limit he

theorem binaryTail_succ {left : Expr} (limit : Nat) (hleft : left.WellFormed c.vararg) :
    Gives (Parser.binaryTail (n + 1) c left limit) (Expr.WellFormed c.vararg) := by
  refine .after fun t ↦ ?_
  split
  · exact .pure hleft
  · split
    · exact .pure hleft
    · refine .after fun at_ ↦ .after fun _ ↦ (h.subexpr c _).bind fun right hright ↦ ?_
      exact h.binaryTail c limit (.binary hleft hright)

theorem simpleExpr_succ : Gives (Parser.simpleExpr (n + 1) c) (Expr.WellFormed c.vararg) := by
  refine .after fun at_ ↦ .after fun t ↦ ?_
  split
  · exact .after fun _ ↦ .pure .number
  · exact .after fun _ ↦ .pure .string
  · exact .after fun _ ↦ .pure .nil
  · exact .after fun _ ↦ .pure .true_
  · exact .after fun _ ↦ .pure .false_
  · split
    · next hvararg =>
      rw [hvararg]
      exact .after fun _ ↦ .pure .vararg
    · exact .complain
  · exact h.tableConstructor c
  · exact .after fun _ ↦ (h.funcBody c false at_).bind fun body hbody ↦ .pure (.function hbody)
  · exact h.suffixedExpr c

theorem primaryExpr_succ : Gives (Parser.primaryExpr (n + 1) c) (Expr.WellFormed c.vararg) := by
  refine .after fun t ↦ ?_
  split
  · exact .after fun _ ↦ .pure .name
  · refine .after fun at_ ↦ .after fun _ ↦ (h.expr c).bind fun inner hinner ↦ ?_
    exact .after fun _ ↦ .pure (.paren hinner)
  · exact .complain

theorem suffixedExpr_succ : Gives (Parser.suffixedExpr (n + 1) c) (Expr.WellFormed c.vararg) :=
  (h.primaryExpr c).bind fun _ he ↦ h.suffixedTail c he

theorem suffixedTail_succ {e : Expr} (he : e.WellFormed c.vararg) :
    Gives (Parser.suffixedTail (n + 1) c e) (Expr.WellFormed c.vararg) := by
  refine .after fun at_ ↦ .after fun t ↦ ?_
  have call : Gives (do
      let args ← Parser.callArgs n c
      Parser.suffixedTail n c (.call at_ e args)) (Expr.WellFormed c.vararg) :=
    (h.callArgs c).bind fun args hargs ↦ h.suffixedTail c (.call he hargs)
  split
  · exact .after fun _ ↦ .after fun s ↦ h.suffixedTail c (.index he .string)
  · refine .after fun _ ↦ (h.expr c).bind fun key hkey ↦ .after fun _ ↦ ?_
    exact h.suffixedTail c (.index he hkey)
  · refine .after fun _ ↦ .after fun s ↦ (h.callArgs c).bind fun args hargs ↦ ?_
    exact h.suffixedTail c (.method he hargs)
  · exact call
  · exact call
  · exact call
  · exact .pure he

theorem callArgs_succ :
    Gives (Parser.callArgs (n + 1) c) fun es ↦ ∀ e ∈ es, e.WellFormed c.vararg := by
  refine .after fun t ↦ ?_
  split
  · exact .after fun _ ↦ .pure (List.forall_mem_singleton.2 .string)
  · exact (h.tableConstructor c).bind fun e he ↦ .pure (List.forall_mem_singleton.2 he)
  · refine .after fun at_ ↦ .after fun _ ↦ .after fun closed ↦ ?_
    split
    · exact .pure (List.forall_mem_nil _)
    · exact (h.exprList c).bind fun args hargs ↦ .after fun _ ↦ .pure hargs
  · exact .complain

theorem tableConstructor_succ :
    Gives (Parser.tableConstructor (n + 1) c) (Expr.WellFormed c.vararg) := by
  refine .after fun at_ ↦ .after fun _ ↦ ?_
  refine (h.tableFields c (List.forall_mem_nil _)).bind fun fields hfields ↦ ?_
  exact .after fun _ ↦ .pure (.table hfields)

theorem tableFields_succ {before : List Field} (hbefore : ∀ f ∈ before, f.WellFormed c.vararg) :
    Gives (Parser.tableFields (n + 1) c before) fun fs ↦ ∀ f ∈ fs, f.WellFormed c.vararg := by
  refine .after fun closed ↦ ?_
  split
  · exact .pure fun f hf ↦ hbefore f (List.mem_reverse.1 hf)
  · refine (h.tableField c).bind fun field hfield ↦ ?_
    have hall := List.forall_mem_cons.2 ⟨hfield, hbefore⟩
    refine .after fun comma ↦ ?_
    split
    · exact h.tableFields c hall
    · refine .after fun semicolon ↦ ?_
      split
      · exact h.tableFields c hall
      · exact .pure fun f hf ↦ hall f (List.mem_reverse.1 hf)

theorem tableField_succ : Gives (Parser.tableField (n + 1) c) (Field.WellFormed c.vararg) := by
  refine .after fun t ↦ ?_
  split
  · refine .after fun _ ↦ (h.expr c).bind fun key hkey ↦ .after fun _ ↦ .after fun _ ↦ ?_
    exact (h.expr c).bind fun value hvalue ↦ .pure (.keyed hkey hvalue)
  · refine .after fun _ ↦ .after fun assigned ↦ ?_
    split
    · exact (h.expr c).bind fun value hvalue ↦ .pure (.keyed .string hvalue)
    · refine (h.suffixedTail c .name).bind fun e he ↦ (h.binaryTail c 0 he).bind fun e he ↦ ?_
      exact .pure (.positional he)
  · exact (h.expr c).bind fun e he ↦ .pure (.positional he)

/-! ### Statements -/

theorem block_succ : Gives (Parser.block (n + 1) c) (Block.WellFormed c.vararg c.loop) :=
  nested_gives (c := c) (p := fun c ↦ Parser.statements n c []) fun levels ↦
    h.statements { c with levels } (List.forall_mem_nil _) (List.forall_mem_nil _)

theorem statements_succ {before : List Stat} (hfinal : ∀ s ∈ before, s.isFinal = false)
    (hbefore : ∀ s ∈ before, s.WellFormed c.vararg c.loop) :
    Gives (Parser.statements (n + 1) c before) (Block.WellFormed c.vararg c.loop) := by
  -- A final statement comes last, and those before it were not.
  have close {s : Stat} (hs : s.WellFormed c.vararg c.loop) :
      Block.WellFormed c.vararg c.loop (s :: before).reverse := by
    refine .mk (fun s' hs' ↦ ?_) fun s' hs' ↦ ?_
    · rw [List.reverse_cons, List.dropLast_concat] at hs'
      exact hfinal s' (List.mem_reverse.1 hs')
    · exact List.forall_mem_cons.2 ⟨hs, hbefore⟩ s' (List.mem_reverse.1 hs')
  refine .after fun t ↦ ?_
  split
  · refine .pure (.mk (fun s hs ↦ ?_) fun s hs ↦ hbefore s (List.mem_reverse.1 hs))
    exact hfinal s (List.mem_reverse.1 (List.dropLast_subset _ hs))
  · split
    · exact (h.returnStat c).bind fun s hs ↦ .pure (close hs)
    · refine .after fun at_ ↦ .after fun _ ↦ .orComplain fun hloop ↦ .after fun _ ↦ ?_
      have hloop : c.loop = true := by simpa using hloop
      refine .pure (close ?_)
      rw [hloop]
      exact .break_
    · refine (h.statement c).bind fun s hs ↦ .after fun _ ↦ ?_
      exact h.statements c (List.forall_mem_cons.2 ⟨hs.1, hfinal⟩)
        (List.forall_mem_cons.2 ⟨hs.2, hbefore⟩)

theorem returnStat_succ :
    Gives (Parser.returnStat (n + 1) c) fun s ↦ s.WellFormed c.vararg c.loop := by
  refine .after fun at_ ↦ .after fun _ ↦ .after fun t ↦ ?_
  have rest (values : List Expr) (hvalues : ∀ e ∈ values, e.WellFormed c.vararg) :
      Gives (do
        let _ ← accept .semicolon
        return Stat.return_ at_ values) fun s ↦ s.WellFormed c.vararg c.loop :=
    .after fun _ ↦ .pure (.return_ hvalues)
  split
  · exact rest [] (List.forall_mem_nil _)
  · exact (h.exprList c).bind rest

theorem statement_succ :
    Gives (Parser.statement (n + 1) c) fun s ↦
      s.isFinal = false ∧ s.WellFormed c.vararg c.loop := by
  refine .after fun at_ ↦ .after fun t ↦ ?_
  split
  · refine .after fun _ ↦ (h.expr c).bind fun condition hcondition ↦ .after fun _ ↦ ?_
    refine (h.block c).bind fun first hfirst ↦ ?_
    exact h.ifRest c at_ (List.cons_ne_nil _ _)
      (List.forall_mem_singleton.2 (.mk hcondition hfirst))
  · refine .after fun _ ↦ (h.expr c).bind fun condition hcondition ↦ .after fun _ ↦ ?_
    refine (h.loopBlock c).bind fun body hbody ↦ .after fun _ ↦ ?_
    exact .pure ⟨rfl, .while_ hcondition hbody⟩
  · exact .after fun _ ↦ (h.block c).bind fun body hbody ↦ .after fun _ ↦ .pure ⟨rfl, .do_ hbody⟩
  · exact h.forStat c at_
  · refine .after fun _ ↦ (h.loopBlock c).bind fun body hbody ↦ .after fun _ ↦ ?_
    exact (h.expr c).bind fun condition hcondition ↦ .pure ⟨rfl, .repeat_ hbody hcondition⟩
  · refine .after fun _ ↦ .after fun first ↦ ?_
    refine (namesAfter_gives .dot n (List.cons_ne_nil first [])).bind fun path hpath ↦ ?_
    refine .after fun colon ↦ ?_
    split
    · refine .after fun method ↦ (h.funcBody c true at_).bind fun body hbody ↦ ?_
      exact .pure ⟨rfl, .function hpath hbody⟩
    · exact (h.funcBody c false at_).bind fun body hbody ↦ .pure ⟨rfl, .function hpath hbody⟩
  · refine .after fun _ ↦ .after fun isFunction ↦ ?_
    split
    · refine .after fun s ↦ (h.funcBody c false at_).bind fun body hbody ↦ ?_
      exact .pure ⟨rfl, .localFunction hbody⟩
    · refine .after fun first ↦ ?_
      refine (namesAfter_gives .comma n (List.cons_ne_nil first [])).bind fun names hnames ↦ ?_
      refine .after fun assigned ↦ ?_
      split
      · exact (h.exprList c).bind fun values hvalues ↦ .pure ⟨rfl, .local_ hnames hvalues⟩
      · exact .pure ⟨rfl, .local_ hnames (List.forall_mem_nil _)⟩
  · exact h.exprStat c at_

theorem ifRest_succ (at_ : Nat) {before : List Clause} (hne : before ≠ [])
    (hbefore : ∀ cl ∈ before, cl.WellFormed c.vararg c.loop) :
    Gives (Parser.ifRest (n + 1) c at_ before) fun s ↦
      s.isFinal = false ∧ s.WellFormed c.vararg c.loop := by
  have hreverse : before.reverse ≠ [] := by simpa using hne
  have hall : ∀ cl ∈ before.reverse, cl.WellFormed c.vararg c.loop :=
    fun cl hcl ↦ hbefore cl (List.mem_reverse.1 hcl)
  refine .after fun elseif ↦ ?_
  split
  · refine (h.expr c).bind fun condition hcondition ↦ .after fun _ ↦ ?_
    refine (h.block c).bind fun body hbody ↦ ?_
    exact h.ifRest c at_ (List.cons_ne_nil _ _)
      (List.forall_mem_cons.2 ⟨.mk hcondition hbody, hbefore⟩)
  · refine .after fun otherwise ↦ ?_
    split
    · refine (h.block c).bind fun otherwise hotherwise ↦ .after fun _ ↦ ?_
      refine .pure ⟨rfl, .if_ hreverse hall fun block hblock ↦ ?_⟩
      cases hblock
      exact hotherwise
    · exact .after fun _ ↦ .pure ⟨rfl, .if_ hreverse hall fun _ hblock ↦ nomatch hblock⟩

theorem forStat_succ (at_ : Nat) :
    Gives (Parser.forStat (n + 1) c at_) fun s ↦
      s.isFinal = false ∧ s.WellFormed c.vararg c.loop := by
  refine .after fun _ ↦ .after fun first ↦ .after fun numeric ↦ ?_
  split
  · refine (h.expr c).bind fun start hstart ↦ .after fun _ ↦ ?_
    refine (h.expr c).bind fun limit hlimit ↦ .after fun comma ↦ ?_
    have rest (step : Option Expr) (hstep : ∀ e, step = some e → e.WellFormed c.vararg) :
        Gives (do
          expect .do_
          let body ← Parser.loopBlock n c
          expectMatch .end_ .for_ at_
          return Stat.numericFor at_ first start limit step body) fun s ↦
          s.isFinal = false ∧ s.WellFormed c.vararg c.loop :=
      .after fun _ ↦ (h.loopBlock c).bind fun body hbody ↦ .after fun _ ↦
        .pure ⟨rfl, .numericFor hstart hlimit hstep hbody⟩
    split
    · refine .bind (P := fun step ↦ ∀ e, step = some e → e.WellFormed c.vararg) ?_ rest
      refine .map fun _ e _ he e' he' ↦ ?_
      cases he'
      exact h.expr c he
    · exact rest none fun _ he ↦ nomatch he
  · refine (namesAfter_gives .comma n (List.cons_ne_nil first [])).bind fun names hnames ↦ ?_
    refine .after fun in_ ↦ .orComplain fun _ ↦ (h.exprList c).bind fun values hvalues ↦ ?_
    refine .after fun _ ↦ (h.loopBlock c).bind fun body hbody ↦ .after fun _ ↦ ?_
    exact .pure ⟨rfl, .genericFor hnames hvalues hbody⟩

theorem exprStat_succ (at_ : Nat) :
    Gives (Parser.exprStat (n + 1) c at_) fun s ↦
      s.isFinal = false ∧ s.WellFormed c.vararg c.loop := by
  refine (h.suffixedExpr c).bind fun first hfirst ↦ .after fun t ↦ ?_
  split
  · refine (h.targetsAfter c (List.forall_mem_singleton.2 hfirst)).bind fun targets htargets ↦ ?_
    refine .orComplain fun hall ↦ .after fun _ ↦ (h.exprList c).bind fun values hvalues ↦ ?_
    exact .pure ⟨rfl, .assign (List.all_eq_true.1 (by simpa using hall)) htargets hvalues⟩
  · split
    · next hcall => exact .pure ⟨rfl, .call hcall hfirst⟩
    · exact .complain

theorem targetsAfter_succ {before : List Expr} (hbefore : ∀ e ∈ before, e.WellFormed c.vararg) :
    Gives (Parser.targetsAfter (n + 1) c before) fun es ↦ ∀ e ∈ es, e.WellFormed c.vararg := by
  refine .after fun more ↦ ?_
  split
  · refine (h.suffixedExpr c).bind fun target htarget ↦ ?_
    exact h.targetsAfter c (List.forall_mem_cons.2 ⟨htarget, hbefore⟩)
  · exact .pure fun e he ↦ hbefore e (List.mem_reverse.1 he)

theorem funcBody_succ (isMethod : Bool) (at_ : Nat) :
    Gives (Parser.funcBody (n + 1) c isMethod at_) Body.WellFormed := by
  refine .after fun _ ↦ .after fun empty ↦ ?_
  have rest (names : List String) (isVararg : Bool) :
      Gives (do
        expect .rightParen
        let body ← Parser.block n { c with vararg := isVararg, loop := false }
        expectMatch .end_ .function at_
        return Body.mk names isVararg at_ body) Body.WellFormed :=
    .after fun _ ↦ (h.block { c with vararg := isVararg, loop := false }).bind fun body hbody ↦
      .after fun _ ↦ .pure (.mk hbody)
  split
  · exact rest _ _
  · exact .after fun params ↦ rest _ _

end WellReads

/-- Whatever the bound, what the parser reads is well formed. -/
theorem wellReads : ∀ n, WellReads n
  | 0 => by constructor <;> intros <;> exact .complain
  | n + 1 =>
      have h := wellReads n
      { block := h.block_succ,
        statements := fun c _ ↦ h.statements_succ c,
        loopBlock := fun c ↦ h.block { c with loop := true },
        returnStat := h.returnStat_succ,
        statement := h.statement_succ,
        ifRest := fun c at_ _ ↦ h.ifRest_succ c at_,
        forStat := h.forStat_succ,
        exprStat := h.exprStat_succ,
        targetsAfter := fun c _ ↦ h.targetsAfter_succ c,
        funcBody := h.funcBody_succ,
        exprList := h.exprList_succ,
        exprsAfter := fun c _ ↦ h.exprsAfter_succ c,
        expr := fun c ↦ h.subexpr c 0,
        subexpr := h.subexpr_succ,
        operand := h.operand_succ,
        binaryTail := fun c _ limit ↦ h.binaryTail_succ c limit,
        simpleExpr := h.simpleExpr_succ,
        primaryExpr := h.primaryExpr_succ,
        suffixedExpr := h.suffixedExpr_succ,
        suffixedTail := fun c _ ↦ h.suffixedTail_succ c,
        callArgs := h.callArgs_succ,
        tableConstructor := h.tableConstructor_succ,
        tableFields := fun c _ ↦ h.tableFields_succ c,
        tableField := h.tableField_succ }

end Parser

namespace Chunk

/-- A chunk that is read is well formed. -/
theorem wellFormed_of_ofLexemes {name : String} {lexemes : List Lexeme} {c : Chunk}
    (h : ofLexemes name lexemes = .ok c) : c.body.WellFormed := by
  have hchunk (n : Nat) : Parser.Gives (Parser.chunk n) (Block.WellFormed true false) := by
    refine ((Parser.wellReads n).block ⟨Parser.maxLevels, true, false⟩).bind fun stats hstats ↦ ?_
    refine .after fun t ↦ ?_
    split
    · exact .pure hstats
    · exact .complain
  unfold ofLexemes at h
  cases hrun : (Parser.chunk (16 * lexemes.length + 64)).run lexemes with
  | error e => rw [hrun] at h; exact nomatch h
  | ok r =>
      rw [hrun] at h
      cases h
      exact .mk (hchunk _ hrun)

/-- A chunk that is accepted is well formed. -/
theorem wellFormed_of_ofBytes {name : String} {source : List UInt8} {c : Chunk}
    (h : ofBytes name source = .ok c) : c.body.WellFormed :=
  wellFormed_of_ofLexemes h

end Chunk

end LuaEmbed
