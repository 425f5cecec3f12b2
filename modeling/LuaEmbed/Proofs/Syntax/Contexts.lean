import LuaEmbed.Proofs.Syntax.Reading

/-!
# Contexts

What surrounds a construct decides whether it is accepted, but not what it is: a parser that
succeeds does so, with the same tree and the same lexemes left, wherever at least as much is
permitted.  Whatever two contexts permit, a third permits all of it, so two successes on the same
lexemes are the same success.

A field of a table that starts with a name is read on a path of its own, which leaves out the
functions between an expression and its first name.  With what is permitted out of account, that
path is compared with the one of an expression step by step.
-/

namespace LuaEmbed.Parser

variable {α β : Type}

/-- The second parser succeeds wherever the first does, with the same outcome. -/
def Covered (p q : Parser α) : Prop :=
  ∀ ls r, p ls = .ok r → q ls = .ok r

namespace Covered

variable {p q : Parser α} {f g : α → Parser β}

theorem refl (p : Parser α) : Covered p p := fun _ _ h ↦ h

theorem complain (what : Complaint) (q : Parser α) : Covered (complain what) q :=
  fun _ _ h ↦ (not_ok_of_complain h).elim

theorem bind (h : Covered p q) (hf : ∀ a, Covered (f a) (g a)) :
    Covered (p >>= f) (q >>= g) := by
  intro ls r hr
  obtain ⟨a, ms, hp, hr⟩ := bind_ok.1 hr
  exact bind_ok.2 ⟨a, ms, h ls _ hp, hf a ms r hr⟩

/-- Something is read first that does not depend on the context. -/
theorem after {r : Parser α} (hf : ∀ a, Covered (f a) (g a)) : Covered (r >>= f) (r >>= g) :=
  (refl r).bind hf

theorem map {k : α → β} (h : Covered p q) : Covered (k <$> p) (k <$> q) := by
  rw [← bind_pure_comp, ← bind_pure_comp]
  exact h.bind fun _ ↦ refl _

/-- What is complained about in the second context is complained about in the first. -/
theorem guarded {b b' : Bool} {what : Complaint} {k l : Unit → Parser β} (hb : b' → b)
    (h : Covered (k ()) (l ())) :
    Covered (if b then Parser.complain what >>= k else k ())
      (if b' then Parser.complain what >>= l else l ()) := by
  cases b with
  | true => exact fun ls r hr ↦ by simp [bind_of_error (complain_apply what)] at hr
  | false =>
      cases b' with
      | true => exact absurd (hb rfl) Bool.false_ne_true
      | false => exact h

end Covered

/-! ## What contexts permit -/

/-- The second context permits all that the first does. -/
structure Context.Within (c c' : Context) : Prop where
  levels : c.levels ≤ c'.levels
  vararg : c.vararg → c'.vararg
  loop : c.loop → c'.loop

namespace Context.Within

variable {c c' : Context}

theorem refl (c : Context) : c.Within c := ⟨Nat.le_refl _, id, id⟩

/-- In the block of a function the context of the function does not matter, but for the levels. -/
theorem inFunction (h : c.Within c') (vararg : Bool) :
    Within { c with vararg, loop := false } { c' with vararg, loop := false } :=
  ⟨h.levels, id, id⟩

theorem inLoop (h : c.Within c') : Within { c with loop := true } { c' with loop := true } :=
  ⟨h.levels, h.vararg, id⟩

end Context.Within

/-- A context that permits what either of two contexts permits. -/
def Context.both (c c' : Context) : Context :=
  ⟨max c.levels c'.levels, c.vararg || c'.vararg, c.loop || c'.loop⟩

theorem Context.within_both_left (c c' : Context) : c.Within (c.both c') :=
  ⟨Nat.le_max_left .., by simp +contextual [both], by simp +contextual [both]⟩

theorem Context.within_both_right (c c' : Context) : c'.Within (c.both c') :=
  ⟨Nat.le_max_right .., by simp +contextual [both], by simp +contextual [both]⟩

theorem Covered.nested {c c' : Context} (hc : c.Within c') {p q : Context → Parser α}
    (h : ∀ levels levels', levels ≤ levels' →
      Covered (p { c with levels }) (q { c' with levels := levels' })) :
    Covered (nested c p) (Parser.nested c' q) := by
  intro ls r hr
  obtain ⟨levels, hlevels, hr⟩ := nested_ok.1 hr
  have hle := hc.levels
  obtain ⟨levels', hlevels'⟩ : ∃ levels', c'.levels = levels' + 1 := ⟨c'.levels - 1, by omega⟩
  exact nested_ok.2 ⟨levels', hlevels', h levels levels' (by omega) ls r hr⟩

/-! ## All functions -/

/-- With more calls, in contexts that permit more, the functions succeed wherever they do. -/
structure AllCovered (n m : Nat) : Prop where
  namesAfter {t ss} : Covered (namesAfter t n ss) (namesAfter t m ss)
  params {ss} : Covered (params n ss) (params m ss)
  block {c c'} : Context.Within c c' → Covered (block n c) (block m c')
  statements {c c' ss} : Context.Within c c' → Covered (statements n c ss) (statements m c' ss)
  loopBlock {c c'} : Context.Within c c' → Covered (loopBlock n c) (loopBlock m c')
  returnStat {c c'} : Context.Within c c' → Covered (returnStat n c) (returnStat m c')
  statement {c c'} : Context.Within c c' → Covered (statement n c) (statement m c')
  ifRest {c c' at_ ss} : Context.Within c c' → Covered (ifRest n c at_ ss) (ifRest m c' at_ ss)
  forStat {c c' at_} : Context.Within c c' → Covered (forStat n c at_) (forStat m c' at_)
  exprStat {c c' at_} : Context.Within c c' → Covered (exprStat n c at_) (exprStat m c' at_)
  targetsAfter {c c' es} : Context.Within c c' →
    Covered (targetsAfter n c es) (targetsAfter m c' es)
  funcBody {c c' isMethod at_} : Context.Within c c' →
    Covered (funcBody n c isMethod at_) (funcBody m c' isMethod at_)
  exprList {c c'} : Context.Within c c' → Covered (exprList n c) (exprList m c')
  exprsAfter {c c' es} : Context.Within c c' → Covered (exprsAfter n c es) (exprsAfter m c' es)
  expr {c c'} : Context.Within c c' → Covered (expr n c) (expr m c')
  subexpr {c c' limit} : Context.Within c c' → Covered (subexpr n c limit) (subexpr m c' limit)
  operand {c c' limit} : Context.Within c c' → Covered (operand n c limit) (operand m c' limit)
  binaryTail {c c' e limit} : Context.Within c c' →
    Covered (binaryTail n c e limit) (binaryTail m c' e limit)
  simpleExpr {c c'} : Context.Within c c' → Covered (simpleExpr n c) (simpleExpr m c')
  primaryExpr {c c'} : Context.Within c c' → Covered (primaryExpr n c) (primaryExpr m c')
  suffixedExpr {c c'} : Context.Within c c' → Covered (suffixedExpr n c) (suffixedExpr m c')
  suffixedTail {c c' e} : Context.Within c c' →
    Covered (suffixedTail n c e) (suffixedTail m c' e)
  callArgs {c c'} : Context.Within c c' → Covered (callArgs n c) (callArgs m c')
  tableConstructor {c c'} : Context.Within c c' →
    Covered (tableConstructor n c) (tableConstructor m c')
  tableFields {c c' fs} : Context.Within c c' →
    Covered (tableFields n c fs) (tableFields m c' fs)
  tableField {c c'} : Context.Within c c' → Covered (tableField n c) (tableField m c')

namespace AllCovered

open Covered (after)

variable {n m : Nat} (h : AllCovered n m) {c c' : Context} (hc : c.Within c')

include h

/-! ### Statements -/

theorem namesAfter_succ {t : Terminal} {ss : List String} :
    Covered (Parser.namesAfter t (n + 1) ss) (Parser.namesAfter t (m + 1) ss) := by
  rw [Parser.namesAfter, Parser.namesAfter]
  refine after fun accepted ↦ ?_
  split
  · exact after fun s ↦ h.namesAfter
  · apply Covered.refl

theorem params_succ {ss : List String} :
    Covered (Parser.params (n + 1) ss) (Parser.params (m + 1) ss) := by
  rw [Parser.params, Parser.params]
  refine after fun ended ↦ ?_
  split
  · apply Covered.refl
  · refine after fun s ↦ after fun more ↦ ?_
    split
    · exact h.params
    · apply Covered.refl

include hc

theorem block_succ : Covered (Parser.block (n + 1) c) (Parser.block (m + 1) c') := by
  rw [Parser.block, Parser.block]
  exact .nested hc fun levels levels' hle ↦ h.statements ⟨hle, hc.vararg, hc.loop⟩

theorem statements_succ {ss : List Stat} :
    Covered (Parser.statements (n + 1) c ss) (Parser.statements (m + 1) c' ss) := by
  rw [Parser.statements, Parser.statements]
  refine after fun t ↦ ?_
  split
  · apply Covered.refl
  split
  · exact (h.returnStat hc).bind fun s ↦ .refl _
  · refine after fun at_ ↦ after fun _ ↦ .guarded (fun hl ↦ ?_) (.refl _)
    rw [Bool.not_eq_true'] at hl ⊢
    exact Bool.eq_false_iff.2 fun hloop ↦ Bool.false_ne_true (hl.symm.trans (hc.loop hloop))
  · exact (h.statement hc).bind fun s ↦ after fun _ ↦ h.statements hc

theorem loopBlock_succ : Covered (Parser.loopBlock (n + 1) c) (Parser.loopBlock (m + 1) c') := by
  rw [Parser.loopBlock, Parser.loopBlock]
  exact h.block hc.inLoop

theorem returnStat_succ : Covered (Parser.returnStat (n + 1) c) (Parser.returnStat (m + 1) c') := by
  rw [Parser.returnStat, Parser.returnStat]
  refine after fun at_ ↦ after fun _ ↦ after fun t ↦ ?_
  split
  · apply Covered.refl
  · exact (h.exprList hc).bind fun values ↦ .refl _

theorem statement_succ : Covered (Parser.statement (n + 1) c) (Parser.statement (m + 1) c') := by
  rw [Parser.statement, Parser.statement]
  refine after fun at_ ↦ after fun t ↦ ?_
  split
  · -- `if`
    refine after fun _ ↦ (h.expr hc).bind fun condition ↦ after fun _ ↦ ?_
    exact (h.block hc).bind fun first ↦ h.ifRest hc
  · -- `while`
    refine after fun _ ↦ (h.expr hc).bind fun condition ↦ after fun _ ↦ ?_
    exact (h.loopBlock hc).bind fun body ↦ .refl _
  · -- `do`
    exact after fun _ ↦ (h.block hc).bind fun body ↦ .refl _
  · -- `for`
    exact h.forStat hc
  · -- `repeat`
    refine after fun _ ↦ (h.loopBlock hc).bind fun body ↦ after fun _ ↦ ?_
    exact (h.expr hc).bind fun condition ↦ .refl _
  · -- `function`
    refine after fun _ ↦ after fun first ↦ h.namesAfter.bind fun path ↦ after fun isMethod ↦ ?_
    split
    · exact after fun method ↦ (h.funcBody hc).bind fun body ↦ .refl _
    · exact (h.funcBody hc).bind fun body ↦ .refl _
  · -- `local`
    refine after fun _ ↦ after fun isFunction ↦ ?_
    split
    · exact after fun s ↦ (h.funcBody hc).bind fun body ↦ .refl _
    · refine after fun first ↦ h.namesAfter.bind fun names ↦ after fun assigned ↦ ?_
      split
      · exact (h.exprList hc).bind fun values ↦ .refl _
      · apply Covered.refl
  · exact h.exprStat hc

theorem ifRest_succ {at_ : Nat} {clauses : List Clause} :
    Covered (Parser.ifRest (n + 1) c at_ clauses) (Parser.ifRest (m + 1) c' at_ clauses) := by
  rw [Parser.ifRest, Parser.ifRest]
  refine after fun more ↦ ?_
  split
  · refine (h.expr hc).bind fun condition ↦ after fun _ ↦ ?_
    exact (h.block hc).bind fun body ↦ h.ifRest hc
  · refine after fun otherwise ↦ ?_
    split
    · exact (h.block hc).bind fun otherwise ↦ .refl _
    · apply Covered.refl

theorem forStat_succ {at_ : Nat} :
    Covered (Parser.forStat (n + 1) c at_) (Parser.forStat (m + 1) c' at_) := by
  rw [Parser.forStat, Parser.forStat]
  refine after fun _ ↦ after fun first ↦ after fun numeric ↦ ?_
  split
  · refine (h.expr hc).bind fun start ↦ after fun _ ↦ (h.expr hc).bind fun limit ↦ ?_
    refine after fun stepped ↦ ?_
    split
    · refine (h.expr hc).map.bind fun step ↦ after fun _ ↦ ?_
      exact (h.loopBlock hc).bind fun body ↦ .refl _
    · exact after fun step ↦ after fun _ ↦ (h.loopBlock hc).bind fun body ↦ .refl _
  · have hrest (names : List String) : Covered
        (do
          let values ← Parser.exprList n c
          expect .do_
          let body ← Parser.loopBlock n c
          expectMatch .end_ .for_ at_
          return Stat.genericFor at_ names values body)
        (do
          let values ← Parser.exprList m c'
          expect .do_
          let body ← Parser.loopBlock m c'
          expectMatch .end_ .for_ at_
          return Stat.genericFor at_ names values body) :=
      (h.exprList hc).bind fun values ↦ after fun _ ↦ (h.loopBlock hc).bind fun body ↦ .refl _
    exact h.namesAfter.bind fun names ↦ after fun _ ↦ .guarded id (hrest names)

theorem exprStat_succ {at_ : Nat} :
    Covered (Parser.exprStat (n + 1) c at_) (Parser.exprStat (m + 1) c' at_) := by
  rw [Parser.exprStat, Parser.exprStat]
  refine (h.suffixedExpr hc).bind fun first ↦ after fun t ↦ ?_
  split
  · refine (h.targetsAfter hc).bind fun targets ↦ .guarded id ?_
    exact after fun _ ↦ (h.exprList hc).bind fun values ↦ .refl _
  · apply Covered.refl

theorem targetsAfter_succ {es : List Expr} :
    Covered (Parser.targetsAfter (n + 1) c es) (Parser.targetsAfter (m + 1) c' es) := by
  rw [Parser.targetsAfter, Parser.targetsAfter]
  refine after fun more ↦ ?_
  split
  · exact (h.suffixedExpr hc).bind fun target ↦ h.targetsAfter hc
  · apply Covered.refl

theorem funcBody_succ {isMethod : Bool} {at_ : Nat} :
    Covered (Parser.funcBody (n + 1) c isMethod at_) (Parser.funcBody (m + 1) c' isMethod at_) := by
  rw [Parser.funcBody, Parser.funcBody]
  refine after fun _ ↦ after fun atEnd ↦ ?_
  have hbody (ps : List String × Bool) : Covered
      (do
        expect .rightParen
        let body ← Parser.block n { c with vararg := ps.2, loop := false }
        expectMatch .end_ .function at_
        return Body.mk ps.1 ps.2 at_ body)
      (do
        expect .rightParen
        let body ← Parser.block m { c' with vararg := ps.2, loop := false }
        expectMatch .end_ .function at_
        return Body.mk ps.1 ps.2 at_ body) :=
    after fun _ ↦ (h.block (hc.inFunction ps.2)).bind fun body ↦ .refl _
  cases atEnd with
  | true => exact hbody (_, false)
  | false => exact h.params.bind hbody

/-! ### Expressions -/

theorem exprList_succ : Covered (Parser.exprList (n + 1) c) (Parser.exprList (m + 1) c') := by
  rw [Parser.exprList, Parser.exprList]
  exact (h.expr hc).bind fun first ↦ h.exprsAfter hc

theorem exprsAfter_succ {es : List Expr} :
    Covered (Parser.exprsAfter (n + 1) c es) (Parser.exprsAfter (m + 1) c' es) := by
  rw [Parser.exprsAfter, Parser.exprsAfter]
  refine after fun more ↦ ?_
  split
  · exact (h.expr hc).bind fun e ↦ h.exprsAfter hc
  · apply Covered.refl

theorem expr_succ : Covered (Parser.expr (n + 1) c) (Parser.expr (m + 1) c') := by
  rw [Parser.expr, Parser.expr]
  exact h.subexpr hc

theorem subexpr_succ {limit : Nat} :
    Covered (Parser.subexpr (n + 1) c limit) (Parser.subexpr (m + 1) c' limit) := by
  rw [Parser.subexpr, Parser.subexpr]
  exact .nested hc fun levels levels' hle ↦ h.operand ⟨hle, hc.vararg, hc.loop⟩

theorem operand_succ {limit : Nat} :
    Covered (Parser.operand (n + 1) c limit) (Parser.operand (m + 1) c' limit) := by
  rw [Parser.operand, Parser.operand]
  refine after fun at_ ↦ after fun t ↦ ?_
  split
  · exact after fun _ ↦ (h.subexpr hc).bind fun e ↦ h.binaryTail hc
  · exact (h.simpleExpr hc).bind fun e ↦ h.binaryTail hc

theorem binaryTail_succ {left : Expr} {limit : Nat} :
    Covered (Parser.binaryTail (n + 1) c left limit) (Parser.binaryTail (m + 1) c' left limit) := by
  rw [Parser.binaryTail, Parser.binaryTail]
  refine after fun t ↦ ?_
  split
  · apply Covered.refl
  · split
    · apply Covered.refl
    · exact after fun at_ ↦ after fun _ ↦ (h.subexpr hc).bind fun right ↦ h.binaryTail hc

theorem simpleExpr_succ : Covered (Parser.simpleExpr (n + 1) c) (Parser.simpleExpr (m + 1) c') := by
  rw [Parser.simpleExpr, Parser.simpleExpr]
  refine after fun at_ ↦ after fun t ↦ ?_
  split
  · apply Covered.refl
  · apply Covered.refl
  · apply Covered.refl
  · apply Covered.refl
  · apply Covered.refl
  · -- `...`
    split
    · next hvararg =>
      rw [if_pos (hc.vararg hvararg)]
      apply Covered.refl
    · apply Covered.complain
  · exact h.tableConstructor hc
  · exact after fun _ ↦ (h.funcBody hc).bind fun body ↦ .refl _
  · exact h.suffixedExpr hc

theorem primaryExpr_succ :
    Covered (Parser.primaryExpr (n + 1) c) (Parser.primaryExpr (m + 1) c') := by
  rw [Parser.primaryExpr, Parser.primaryExpr]
  refine after fun t ↦ ?_
  split
  · apply Covered.refl
  · exact after fun at_ ↦ after fun _ ↦ (h.expr hc).bind fun inner ↦ .refl _
  · apply Covered.complain

theorem suffixedExpr_succ :
    Covered (Parser.suffixedExpr (n + 1) c) (Parser.suffixedExpr (m + 1) c') := by
  rw [Parser.suffixedExpr, Parser.suffixedExpr]
  exact (h.primaryExpr hc).bind fun e ↦ h.suffixedTail hc

theorem suffixedTail_succ {e : Expr} :
    Covered (Parser.suffixedTail (n + 1) c e) (Parser.suffixedTail (m + 1) c' e) := by
  rw [Parser.suffixedTail, Parser.suffixedTail]
  refine after fun at_ ↦ after fun t ↦ ?_
  split
  · exact after fun _ ↦ after fun s ↦ h.suffixedTail hc
  · exact after fun _ ↦ (h.expr hc).bind fun key ↦ after fun _ ↦ h.suffixedTail hc
  · exact after fun _ ↦ after fun s ↦ (h.callArgs hc).bind fun args ↦ h.suffixedTail hc
  · exact (h.callArgs hc).bind fun args ↦ h.suffixedTail hc
  · exact (h.callArgs hc).bind fun args ↦ h.suffixedTail hc
  · exact (h.callArgs hc).bind fun args ↦ h.suffixedTail hc
  · apply Covered.refl

theorem callArgs_succ : Covered (Parser.callArgs (n + 1) c) (Parser.callArgs (m + 1) c') := by
  rw [Parser.callArgs, Parser.callArgs]
  refine after fun t ↦ ?_
  split
  · apply Covered.refl
  · exact (h.tableConstructor hc).bind fun e ↦ .refl _
  · refine after fun at_ ↦ after fun _ ↦ after fun none ↦ ?_
    split
    · apply Covered.refl
    · exact (h.exprList hc).bind fun args ↦ .refl _
  · apply Covered.complain

/-! ### Tables -/

theorem tableConstructor_succ :
    Covered (Parser.tableConstructor (n + 1) c) (Parser.tableConstructor (m + 1) c') := by
  rw [Parser.tableConstructor, Parser.tableConstructor]
  exact after fun at_ ↦ after fun _ ↦ (h.tableFields hc).bind fun fields ↦ .refl _

theorem tableFields_succ {fs : List Field} :
    Covered (Parser.tableFields (n + 1) c fs) (Parser.tableFields (m + 1) c' fs) := by
  rw [Parser.tableFields, Parser.tableFields]
  refine after fun atEnd ↦ ?_
  split
  · apply Covered.refl
  · refine (h.tableField hc).bind fun field ↦ after fun comma ↦ ?_
    split
    · exact h.tableFields hc
    · refine after fun semicolon ↦ ?_
      split
      · exact h.tableFields hc
      · apply Covered.refl

theorem tableField_succ : Covered (Parser.tableField (n + 1) c) (Parser.tableField (m + 1) c') := by
  rw [Parser.tableField, Parser.tableField]
  refine after fun t ↦ ?_
  split
  · refine after fun _ ↦ (h.expr hc).bind fun key ↦ after fun _ ↦ after fun _ ↦ ?_
    exact (h.expr hc).bind fun value ↦ .refl _
  · refine after fun _ ↦ after fun keyed ↦ ?_
    split
    · exact (h.expr hc).bind fun value ↦ .refl _
    · exact (h.suffixedTail hc).bind fun e ↦ (h.binaryTail hc).bind fun e ↦ .refl _
  · exact (h.expr hc).bind fun e ↦ .refl _

end AllCovered

/-- By induction on the smaller bound: without calls nothing succeeds. -/
theorem allCovered : ∀ {n m : Nat}, n ≤ m → AllCovered n m
  | 0, _, _ => by constructor <;> intros <;> exact Covered.complain _ _
  | n + 1, 0, h => absurd h (Nat.not_succ_le_zero n)
  | n + 1, m + 1, hnm =>
      have h := allCovered (Nat.le_of_succ_le_succ hnm)
      { namesAfter := h.namesAfter_succ,
        params := h.params_succ,
        block := h.block_succ,
        statements := fun hc ↦ h.statements_succ hc,
        loopBlock := h.loopBlock_succ,
        returnStat := h.returnStat_succ,
        statement := h.statement_succ,
        ifRest := fun hc ↦ h.ifRest_succ hc,
        forStat := fun hc ↦ h.forStat_succ hc,
        exprStat := fun hc ↦ h.exprStat_succ hc,
        targetsAfter := fun hc ↦ h.targetsAfter_succ hc,
        funcBody := fun hc ↦ h.funcBody_succ hc,
        exprList := h.exprList_succ,
        exprsAfter := fun hc ↦ h.exprsAfter_succ hc,
        expr := h.expr_succ,
        subexpr := fun hc ↦ h.subexpr_succ hc,
        operand := fun hc ↦ h.operand_succ hc,
        binaryTail := fun hc ↦ h.binaryTail_succ hc,
        simpleExpr := h.simpleExpr_succ,
        primaryExpr := h.primaryExpr_succ,
        suffixedExpr := h.suffixedExpr_succ,
        suffixedTail := fun hc ↦ h.suffixedTail_succ hc,
        callArgs := h.callArgs_succ,
        tableConstructor := h.tableConstructor_succ,
        tableFields := fun hc ↦ h.tableFields_succ hc,
        tableField := h.tableField_succ }

/-! ## Fields that start with a name -/

section Field

variable {s : String} {ls ms rest : List Lexeme} {n : Nat} {c : Context}

/-- An expression that starts with a name takes a level, reads the name, and goes on from it. -/
theorem expr_of_name (hname : Consumes ls [.name s] ms) (n levels : Nat) (c : Context) :
    expr (n + 6) { c with levels := levels + 1 } ls =
      (suffixedTail (n + 1) { c with levels } (.name s) >>= fun e ↦
        binaryTail (n + 3) { c with levels } e 0) ms := by
  have hahead := peek_of_ahead hname.ahead
  have hprimary (c : Context) : primaryExpr (n + 1) c ls = .ok (.name s, ms) := by
    rw [primaryExpr, bind_of_ok hahead, hname.tail_eq]
    rfl
  have hsimple (c : Context) : simpleExpr (n + 3) c ls = suffixedTail (n + 1) c (.name s) ms := by
    rw [simpleExpr, bind_of_ok line_apply, bind_of_ok hahead]
    dsimp only
    rw [suffixedExpr, bind_of_ok (hprimary c)]
  rw [expr, subexpr, nested]
  dsimp only
  rw [operand, bind_of_ok line_apply, bind_of_ok hahead]
  change (simpleExpr (n + 3) { c with levels } >>= _) ls = _
  cases htail : suffixedTail (n + 1) { c with levels } (.name s) ms with
  | error e => rw [bind_of_error htail, bind_of_error ((hsimple _).trans htail)]
  | ok r => rw [bind_of_ok htail, bind_of_ok ((hsimple _).trans htail)]

/-- A field that starts with a name is read from there as well, unless `=` follows. -/
theorem tableField_of_name (hname : Consumes ls [.name s] ms) {t : Token} (ht : Ahead ms t)
    (hne : t ≠ .terminal .assign) (n : Nat) (c : Context) :
    tableField (n + 1) c ls =
      (suffixedTail n c (.name s) >>= fun e ↦ binaryTail n c e 0 >>= fun e ↦
        pure (.positional e)) ms := by
  rw [tableField, bind_of_ok (peek_of_ahead hname.ahead)]
  dsimp only
  rw [bind_of_ok advance_apply, ← hname.tail_eq, bind_of_ok (accept_of_ne ht hne)]
  rfl

/-- What follows an expression is a token. -/
theorem ahead_of_suffixedTail {e e' : Expr} (h : suffixedTail n c e ms = .ok (e', rest)) :
    ∃ t, Ahead ms t := by
  cases n with
  | zero => exact (not_ok_of_complain h).elim
  | succ n =>
      rw [suffixedTail, bind_of_ok line_apply] at h
      obtain ⟨t, ht, -⟩ := peek_bind_ok.1 h
      exact ⟨t, ht⟩

variable (hname : Consumes ls [.name s] ms) (hnext : ¬Ahead ms (.terminal .assign))

include hname hnext

/-- What is read as an expression is read as a field, with a level to spare. -/
theorem tableField_of_expr {e : Expr} (h : expr n c ls = .ok (e, rest)) :
    tableField (n + 4) c ls = .ok (.positional e, rest) := by
  have hexpr := (allCovered (Nat.le_add_right n 6)).expr (.refl c) ls _ h
  obtain ⟨levels, hlevels, -⟩ := by
    rw [expr, subexpr] at hexpr
    exact nested_ok.1 hexpr
  have hc : { c with levels := levels + 1 } = c := by rw [← hlevels]
  rw [← hc, expr_of_name hname, bind_ok] at hexpr
  obtain ⟨e₁, ms₁, htail, hoperators⟩ := hexpr
  obtain ⟨t, ht⟩ := ahead_of_suffixedTail htail
  have hwithin : Context.Within { c with levels } c := ⟨hlevels ▸ Nat.le_succ levels, id, id⟩
  have htail := (allCovered (by omega : n + 1 ≤ n + 3)).suffixedTail hwithin ms _ htail
  have hoperators := (allCovered (Nat.le_refl _)).binaryTail hwithin ms₁ _ hoperators
  rw [tableField_of_name hname ht (fun heq ↦ hnext (heq ▸ ht)), bind_of_ok htail,
    bind_of_ok hoperators]
  rfl

/-- What is read as a field is read as an expression, if there is one more level for it. -/
theorem expr_of_tableField {field : Field} (h : tableField n c ls = .ok (field, rest)) :
    ∃ e, field = .positional e ∧
      expr (n + 6) { c with levels := c.levels + 1 } ls = .ok (e, rest) := by
  have hfield := (allCovered (Nat.le_add_right n 1)).tableField (.refl c) ls _ h
  have hahead : ∃ t, Ahead ms t := by
    rw [tableField, bind_of_ok (peek_of_ahead hname.ahead)] at hfield
    dsimp only at hfield
    rw [bind_of_ok advance_apply, ← hname.tail_eq] at hfield
    rcases accept_bind_ok.1 hfield with ⟨_, hassign, -⟩ | ⟨t, ht, -⟩
    · exact ⟨_, hassign.ahead⟩
    · exact ⟨t, ht⟩
  obtain ⟨t, ht⟩ := hahead
  rw [tableField_of_name hname ht (fun heq ↦ hnext (heq ▸ ht)), bind_ok] at hfield
  obtain ⟨e₁, ms₁, htail, hfield⟩ := hfield
  obtain ⟨e, ms₂, hoperators, hfield⟩ := bind_ok.1 hfield
  obtain ⟨rfl, rfl⟩ := pure_ok.1 hfield
  refine ⟨e, rfl, ?_⟩
  have htail := (allCovered (Nat.le_add_right n 1)).suffixedTail (.refl c) ms _ htail
  have hoperators := (allCovered (Nat.le_add_right n 3)).binaryTail (.refl c) ms₁ _ hoperators
  rw [expr_of_name hname, bind_of_ok htail, hoperators]

/-- A field that starts with a name, which `=` does not follow, is the expression that is read from
there in any other position: the same tree, with the same lines, and the same lexemes are left.  The
field takes no syntax level, so that it can be read wherever the expression can, and the expression
wherever the field can and one more level is left. -/
theorem tableField_reads_expr :
    (∀ n m c c' field e rest rest', tableField n c ls = .ok (field, rest) →
      expr m c' ls = .ok (e, rest') → field = .positional e ∧ rest = rest') ∧
    (∀ n c e rest, expr n c ls = .ok (e, rest) →
      tableField (n + 4) c ls = .ok (.positional e, rest)) ∧
    ∀ n c field rest, tableField n c ls = .ok (field, rest) →
      ∃ e, field = .positional e ∧
        expr (n + 6) { c with levels := c.levels + 1 } ls = .ok (e, rest) := by
  refine ⟨fun n m c c' field e rest rest' hfield hexpr ↦ ?_,
    fun n c e rest h ↦ tableField_of_expr hname hnext h,
    fun n c field rest h ↦ expr_of_tableField hname hnext h⟩
  obtain ⟨e₁, rfl, hread⟩ := expr_of_tableField hname hnext hfield
  -- Both expressions are read where all is permitted that either context permits.
  have hleft := (allCovered (Nat.le_add_right (n + 6) m)).expr (Context.within_both_left _ c') ls _
    hread
  have hright := (allCovered (Nat.le_add_left m (n + 6))).expr
    (Context.within_both_right { c with levels := c.levels + 1 } c') ls _ hexpr
  obtain ⟨rfl, rfl⟩ := Prod.mk.inj (Except.ok.inj (hleft.symm.trans hright))
  exact ⟨rfl, rfl⟩

end Field

/-- The field `f(x).y:m"z" ^ 2 .. -t`, after which the table ends. -/
theorem tableField_reads_expr_chain :
    let tokens : List Token :=
      [.name "f", .terminal .leftParen, .name "x", .terminal .rightParen, .terminal .dot, .name "y",
        .terminal .colon, .name "m", .string "z", .terminal .caret, .number 2, .terminal .concat,
        .terminal .minus, .name "t", .terminal .rightBrace]
    let ls : List Lexeme := tokens.map (⟨.ok ·, .first, ""⟩)
    Consumes ls [.name "f"] ls.tail ∧ ¬Ahead ls.tail (.terminal .assign) ∧
      ∃ e rest, tableField 40 ⟨2, false, false⟩ ls = .ok (.positional e, rest) ∧
        expr 50 ⟨9, true, true⟩ ls = .ok (e, rest) := by
  intro tokens ls
  have hname : Consumes ls [.name "f"] ls.tail := .cons rfl (.refl _)
  have hnext : ¬Ahead ls.tail (.terminal .assign) := nofun
  have hexpr : (expr 50 ⟨9, true, true⟩ ls).isOk := by decide +kernel
  have hfield : (tableField 40 ⟨2, false, false⟩ ls).isOk := by decide +kernel
  refine ⟨hname, hnext, ?_⟩
  rcases he : expr 50 ⟨9, true, true⟩ ls with e | ⟨e, rest⟩
  · exact nomatch (he ▸ hexpr :)
  rcases hf : tableField 40 ⟨2, false, false⟩ ls with e | ⟨field, rest'⟩
  · exact nomatch (hf ▸ hfield :)
  obtain ⟨rfl, rfl⟩ := (tableField_reads_expr hname hnext).1 _ _ _ _ _ _ _ _ hf he
  exact ⟨_, _, rfl, rfl⟩

end LuaEmbed.Parser
