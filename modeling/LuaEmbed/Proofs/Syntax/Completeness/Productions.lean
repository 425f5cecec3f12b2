import LuaEmbed.Proofs.Syntax.Completeness.Expressions

/-!
# Productions of expressions pass

`Complete k v l ts` says what the parser does with tokens `ts` that the category `k` derives.  There
is one lemma for each alternative of a production, of the name of its constructor; those about
expressions, table constructors and parameters are here.
-/

namespace LuaEmbed.Parser

open Grammar

/-- What the parser does with tokens that a category derives. -/
def Complete : Category → (vararg loop : Bool) → List Token → Prop
  | .chunk, v, l, ts =>
      (ts = [] ∨ StartsWith Token.startsChunk ts) ∧
        ∀ n c before, Within v l c → TakesBefore (·.endsBlock = true) (statements n c before) ts
  | .stat e, v, l, ts =>
      StartsWith Token.startsStat ts ∧
        ∀ n c, Within v l c → TakesBefore (StatStops e) (statement n c) ts
  | .lastStat, v, l, ts =>
      StartsWith Token.startsLastStat ts ∧
        ∀ n c before, Within v l c →
          TakesBefore (·.endsBlock = true) (statements n c before) ts ∧
          TakesBefore (·.endsBlock = true) (statements n c before) (ts ++ [.terminal .semicolon])
  | .ifRest, v, l, ts =>
      StartsWith Token.endsBlock ts ∧
        ∀ n c at_ before, Within v l c → Takes (ifRest n c at_ before) ts
  | .path, _, _, ts =>
      ∃ x us, ts = .name x :: us ∧
        ∀ n before, TakesBefore (· ≠ .terminal .dot) (namesAfter .dot n before) us
  | .varList, v, l, ts =>
      StartsWith Token.startsPrefix ts ∧
        ∀ ⦃n c ls rest⦄, Within v l c → Consumes ls ts rest → Ahead rest (.terminal .assign) →
          Passes (suffixedExpr n c) ls fun e ms ↦ e.isTarget = true ∧
            (Ahead ms (.terminal .comma) ∨ Ahead ms (.terminal .assign)) ∧
            ∀ n' before, before.all Expr.isTarget = true →
              Passes (targetsAfter n' c (e :: before)) ms fun es ms' ↦
                ms' = rest ∧ es.all Expr.isTarget = true
  | .var, v, l, ts => Spells v l (Expr.isTarget · = true) ts
  | .nameList, _, _, ts =>
      ∃ x us, ts = .name x :: us ∧ (us = [] ∨ StartsWith (Token.isTerminal .comma) us) ∧
        (∀ n before, TakesBefore (· ≠ .terminal .comma) (namesAfter .comma n before) us) ∧
        ∀ ⦃n before ls ms⦄, Consumes ls ts ms →
          (Ahead ms (.terminal .rightParen) →
            Passes (params n before) ls fun ps ms' ↦ ms' = ms ∧ ps.2 = false) ∧
          (∀ rest, Consumes ms [.terminal .comma, .terminal .ellipsis] rest →
            Passes (params n before) ls fun ps ms' ↦ ms' = rest ∧ ps.2 = true)
  | .expList e, v, l, ts =>
      StartsWith Token.startsExp ts ∧
        ∀ n c before, Within v l c →
          TakesBefore (fun t ↦ Stops e t ∧ t ≠ .terminal .comma)
            (do exprsAfter n c ((← expr n c) :: before)) ts
  | .exp e, v, l, ts => Chain v l e ts
  | .prefixExp, v, l, ts => Spells v l (fun _ ↦ True) ts
  | .functionCall, v, l, ts => Spells v l (Expr.isCall · = true) ts
  | .args, v, l, ts =>
      StartsWith Token.startsArgs ts ∧ ∀ n c, Within v l c → Takes (callArgs n c) ts
  | .funcBody, _, _, ts =>
      StartsWith (Token.isTerminal .leftParen) ts ∧
        ∀ n c isMethod at_, Takes (funcBody n c isMethod at_) ts
  | .parList isVararg, _, _, ts =>
      StartsWith (fun t ↦ !t.isTerminal .rightParen) ts ∧
        ∀ ⦃n before ls rest⦄, Consumes ls ts rest → Ahead rest (.terminal .rightParen) →
          Passes (params n before) ls fun ps ms ↦ ms = rest ∧ ps.2 = isVararg
  | .tableConstructor, v, l, ts =>
      StartsWith (Token.isTerminal .leftBrace) ts ∧
        ∀ n c, Within v l c → Takes (tableConstructor n c) ts
  | .fieldList, v, l, ts =>
      ∀ n c before, Within v l c →
        TakesBefore (· = .terminal .rightBrace) (tableFields n c before) ts
  | .field, v, l, ts =>
      StartsWith (fun t ↦ !t.isTerminal .rightBrace) ts ∧
        ∀ n c, Within v l c → TakesBefore (·.followsField = true) (tableField n c) ts

namespace Complete

variable {v l e e₁ e₂ : Bool} {ts us : List Token} {x : String}

/-! ## Expressions -/

/-- A token that is an expression of its own. -/
theorem of_token {t : Token} (ht : t.startsSimple = true) (hname : ∀ x, t ≠ .name x)
    (h : ∀ ⦃n c ls ms⦄, Within v l c → Consumes ls [t] ms →
      Passes (simpleExpr (n + 1) c) ls fun _ ms' ↦ ms' = ms) : Complete (.exp false) v l [t] := by
  refine .simple ⟨.cons ht, fun n c hw ls rest u hc _ _ ↦ ?_, fun x us h ↦ ?_⟩
  · cases n with
    | zero => exact .tooManyLevels
    | succ n => exact h hw hc
  · exact absurd (List.cons.inj h).1 (hname x)

theorem expNil : Complete (.exp false) v l [.terminal .nil] :=
  of_token rfl (fun _ h ↦ nomatch h) fun _ _ _ _ _ hc ↦
    .line fun _ ↦ .peek hc.ahead (.advance hc (.pure rfl))

theorem expFalse : Complete (.exp false) v l [.terminal .false_] :=
  of_token rfl (fun _ h ↦ nomatch h) fun _ _ _ _ _ hc ↦
    .line fun _ ↦ .peek hc.ahead (.advance hc (.pure rfl))

theorem expTrue : Complete (.exp false) v l [.terminal .true_] :=
  of_token rfl (fun _ h ↦ nomatch h) fun _ _ _ _ _ hc ↦
    .line fun _ ↦ .peek hc.ahead (.advance hc (.pure rfl))

theorem expNumber {x : Float} : Complete (.exp false) v l [.number x] :=
  of_token rfl (fun _ h ↦ nomatch h) fun _ _ _ _ _ hc ↦
    .line fun _ ↦ .peek hc.ahead (.advance hc (.pure rfl))

theorem expString {s : String} : Complete (.exp false) v l [.string s] :=
  of_token rfl (fun _ h ↦ nomatch h) fun _ _ _ _ _ hc ↦
    .line fun _ ↦ .peek hc.ahead (.advance hc (.pure rfl))

theorem expVararg : Complete (.exp false) true l [.terminal .ellipsis] := by
  refine of_token rfl (fun _ h ↦ nomatch h) fun n c ls ms hw hc ↦ ?_
  rw [simpleExpr]
  refine .line fun _ ↦ .peek hc.ahead ?_
  simp only [hw.vararg_eq, if_true]
  exact .advance hc (.pure rfl)

theorem expFunction (h : Complete .funcBody v l ts) :
    Complete (.exp false) v l (.terminal .function :: ts) := by
  refine .simple ⟨.cons rfl, fun n c hw ls rest u hc _ _ ↦ ?_, fun x us h ↦ ?_⟩
  · obtain ⟨ms, hfunction, hts⟩ := Consumes.cons_iff.1 hc
    cases n with
    | zero => exact .tooManyLevels
    | succ n =>
        rw [simpleExpr]
        refine .line fun at_ ↦ .peek hc.ahead (.advance hfunction ?_)
        exact (h.2 n c false at_ hts).next fun body ↦ .pure rfl
  · cases (List.cons.inj h).1

theorem expPrefix (h : Complete .prefixExp v l ts) : Complete (.exp true) v l ts :=
  .simple (Spells.simple h)

theorem expTable (h : Complete .tableConstructor v l ts) : Complete (.exp false) v l ts := by
  obtain ⟨⟨t, us, rfl, ht⟩, htakes⟩ := h
  obtain rfl := isTerminal_iff.1 ht
  refine .simple ⟨.cons rfl, fun n c hw ls rest u hc _ _ ↦ ?_, fun x us h ↦ ?_⟩
  · cases n with
    | zero => exact .tooManyLevels
    | succ n =>
        rw [simpleExpr]
        exact .line fun _ ↦ .peek hc.ahead (htakes n c hw hc)
  · cases (List.cons.inj h).1

theorem expBinary {t : Terminal} (ht : t ∈ Terminal.binaryOperators)
    (h : Complete (.exp e₁) v l ts) (h' : Complete (.exp e) v l us) :
    Complete (.exp e) v l (ts ++ .terminal t :: us) :=
  Chain.append ht h h'

theorem expUnary {t : Terminal} (ht : t ∈ Terminal.unaryOperators)
    (h : Complete (.exp e) v l ts) : Complete (.exp e) v l (.terminal t :: ts) :=
  .unary ht h

theorem expListExp (h : Complete (.exp e) v l ts) : Complete (.expList e) v l ts := by
  refine ⟨Chain.starts h, fun n c before hw ls rest t hts ht hstop ↦ ?_⟩
  refine (Chain.expr h n hw hts ht hstop.1).next fun first ↦ ?_
  cases n with
  | zero => exact .tooManyLevels
  | succ n =>
      rw [exprsAfter]
      exact .accept_not ht hstop.2 (.pure rfl)

theorem expListMore (h : Complete (.exp e₁) v l ts) (h' : Complete (.expList e) v l us) :
    Complete (.expList e) v l (ts ++ .terminal .comma :: us) := by
  refine ⟨(Chain.starts h).append, fun n c before hw ls rest t hts ht hstop ↦ ?_⟩
  obtain ⟨ms, hfirst, hmore⟩ := Consumes.append_iff.1 hts
  refine (Chain.expr h n hw hfirst hmore.ahead (.of_terminal rfl rfl)).next fun first ↦ ?_
  cases n with
  | zero => exact .tooManyLevels
  | succ n =>
      obtain ⟨ms', hcomma, hus⟩ := Consumes.cons_iff.1 hmore
      rw [exprsAfter]
      exact .accept hcomma (h'.2 n c (first :: before) hw hus ht hstop)

/-- A list of expressions, with the bound of one call more. -/
theorem exprList (h : Complete (.expList e) v l ts) (n : Nat) {c : Context} (hw : Within v l c) :
    TakesBefore (fun t ↦ Stops e t ∧ t ≠ .terminal .comma) (Parser.exprList n c) ts := by
  intro ls rest t hts ht hstop
  cases n with
  | zero => exact .tooManyLevels
  | succ n =>
      rw [Parser.exprList]
      exact h.2 n c [] hw hts ht hstop

/-! ## Prefix expressions -/

theorem varName : Complete .var v l [.name x] := .of_name x

theorem varIndex (h : Complete .prefixExp v l ts) (h' : Complete (.exp e) v l us) :
    Complete .var v l (ts ++ .terminal .leftBracket :: (us ++ [.terminal .rightBracket])) :=
  Spells.append h (suffix_index fun n _ ↦ Chain.expr h' n)

theorem varField (h : Complete .prefixExp v l ts) :
    Complete .var v l (ts ++ [.terminal .dot, .name x]) :=
  Spells.append h (suffix_field x)

theorem prefixVar (h : Complete .var v l ts) : Complete .prefixExp v l ts :=
  Spells.mono h fun _ _ ↦ trivial

theorem prefixCall (h : Complete .functionCall v l ts) : Complete .prefixExp v l ts :=
  Spells.mono h fun _ _ ↦ trivial

theorem prefixParen (h : Complete (.exp e) v l ts) :
    Complete .prefixExp v l (.terminal .leftParen :: (ts ++ [.terminal .rightParen])) :=
  spells_paren fun n _ ↦ Chain.expr h n

theorem call (h : Complete .prefixExp v l ts) (h' : Complete .args v l us) :
    Complete .functionCall v l (ts ++ us) :=
  Spells.append h (suffix_args h'.1 h'.2)

theorem callMethod (h : Complete .prefixExp v l ts) (h' : Complete .args v l us) :
    Complete .functionCall v l (ts ++ .terminal .colon :: .name x :: us) :=
  Spells.append h (suffix_method h'.2)

theorem argsEmpty : Complete .args v l [.terminal .leftParen, .terminal .rightParen] := by
  refine ⟨.cons rfl, fun n c hw ls rest hc ↦ ?_⟩
  obtain ⟨ms, hopen, hclose⟩ := Consumes.cons_iff.1 hc
  cases n with
  | zero => exact .tooManyLevels
  | succ n =>
      rw [callArgs]
      exact .peek hc.ahead (.line fun _ ↦ .advance hopen (.accept hclose (.pure rfl)))

theorem argsList (h : Complete (.expList e) v l ts) :
    Complete .args v l (.terminal .leftParen :: (ts ++ [.terminal .rightParen])) := by
  refine ⟨.cons rfl, fun n c hw ls rest hc ↦ ?_⟩
  obtain ⟨ms, hopen, hmore⟩ := Consumes.cons_iff.1 hc
  obtain ⟨ms', hts, hclose⟩ := Consumes.append_iff.1 hmore
  obtain ⟨t, ht, hstart⟩ := h.1.ahead hts
  cases n with
  | zero => exact .tooManyLevels
  | succ n =>
      rw [callArgs]
      refine .peek hc.ahead (.line fun _ ↦ .advance hopen ?_)
      refine .accept_not ht (Token.ne_of_class hstart rfl) ?_
      have hstop : Stops e (.terminal .rightParen) := .of_terminal rfl rfl
      refine (h.exprList n hw hts hclose.ahead ⟨hstop, fun h ↦ nomatch h⟩).next fun args ↦ ?_
      exact .expectMatch hclose (.pure rfl)

theorem argsTable (h : Complete .tableConstructor v l ts) : Complete .args v l ts := by
  obtain ⟨⟨t, us, rfl, ht⟩, htakes⟩ := h
  obtain rfl := isTerminal_iff.1 ht
  refine ⟨.cons rfl, fun n c hw ls rest hc ↦ ?_⟩
  cases n with
  | zero => exact .tooManyLevels
  | succ n =>
      rw [callArgs]
      exact .peek hc.ahead ((htakes n c hw hc).next fun e ↦ .pure rfl)

theorem argsString {s : String} : Complete .args v l [.string s] := by
  refine ⟨.cons rfl, fun n c hw ls rest hc ↦ ?_⟩
  cases n with
  | zero => exact .tooManyLevels
  | succ n =>
      rw [callArgs]
      exact .peek hc.ahead (.advance hc (.pure rfl))

/-! ## Table constructors -/

theorem tableEmpty :
    Complete .tableConstructor v l [.terminal .leftBrace, .terminal .rightBrace] := by
  refine ⟨.cons rfl, fun n c hw ls rest hc ↦ ?_⟩
  obtain ⟨ms, hopen, hclose⟩ := Consumes.cons_iff.1 hc
  have fields : ∀ n, Passes (Parser.tableFields n c []) ms fun _ ms' ↦ ms' = ms := by
    intro n
    cases n with
    | zero => exact .tooManyLevels
    | succ n =>
        rw [Parser.tableFields]
        exact .check hclose.ahead (.pure rfl)
  cases n with
  | zero => exact .tooManyLevels
  | succ n =>
      rw [Parser.tableConstructor]
      refine .line fun at_ ↦ .expect hopen ((fields n).next fun fs ↦ ?_)
      exact .expectMatch hclose (.pure rfl)

theorem tableFields (h : Complete .fieldList v l ts) :
    Complete .tableConstructor v l (.terminal .leftBrace :: (ts ++ [.terminal .rightBrace])) := by
  refine ⟨.cons rfl, fun n c hw ls rest hc ↦ ?_⟩
  obtain ⟨ms, hopen, hmore⟩ := Consumes.cons_iff.1 hc
  obtain ⟨ms', hts, hclose⟩ := Consumes.append_iff.1 hmore
  cases n with
  | zero => exact .tooManyLevels
  | succ n =>
      rw [Parser.tableConstructor]
      refine .line fun at_ ↦ .expect hopen ?_
      refine (h n c [] hw hts hclose.ahead rfl).next fun fs ↦ ?_
      exact .expectMatch hclose (.pure rfl)

/-- A field is read, and then the separator and the fields after it. -/
theorem field_then (h : Complete .field v l ts) {n : Nat} {c : Context} {before : List Field}
    (hw : Within v l c) {ls ms rest : List Lexeme} {t : Token} (hts : Consumes ls ts ms)
    (ht : Ahead ms t) (hfollows : t.followsField = true)
    (hmore : ∀ field, Passes (do
      if ← accept .comma then Parser.tableFields n c (field :: before)
      else if ← accept .semicolon then Parser.tableFields n c (field :: before)
      else return (field :: before).reverse) ms fun _ ms' ↦ ms' = rest) :
    Passes (Parser.tableFields (n + 1) c before) ls fun _ ms' ↦ ms' = rest := by
  obtain ⟨u, hu, hstart⟩ := h.1.ahead hts
  rw [Bool.not_eq_true'] at hstart
  rw [Parser.tableFields]
  refine .check hu ?_
  simp only [hstart, Bool.false_eq_true, if_false]
  exact (h.2 n c hw hts ht hfollows).next hmore

theorem fieldListField (h : Complete .field v l ts) : Complete .fieldList v l ts := by
  intro n c before hw ls rest t hts ht hclose
  subst hclose
  cases n with
  | zero => exact .tooManyLevels
  | succ n =>
      refine h.field_then hw hts ht rfl fun field ↦ ?_
      exact .accept_not ht (fun h ↦ nomatch h) (.accept_not ht (fun h ↦ nomatch h) (.pure rfl))

/-- The separator after a field is read off. -/
theorem separator {t : Terminal} (ht : t ∈ Terminal.fieldSeparators) {n : Nat} {c : Context}
    {fields before : List Field} {ls ms rest : List Lexeme} (hsep : Consumes ls [.terminal t] ms)
    (hmore : Passes (Parser.tableFields n c before) ms fun _ ms' ↦ ms' = rest) :
    Passes (do
      if ← accept .comma then Parser.tableFields n c before
      else if ← accept .semicolon then Parser.tableFields n c before
      else return fields) ls fun _ ms' ↦ ms' = rest := by
  simp only [Terminal.fieldSeparators, List.mem_cons, List.not_mem_nil, or_false] at ht
  rcases ht with rfl | rfl
  · exact .accept hsep hmore
  · exact .accept_not hsep.ahead (fun h ↦ nomatch h) (.accept hsep hmore)

theorem followsField_of_mem {t : Terminal} (ht : t ∈ Terminal.fieldSeparators) :
    (Token.terminal t).followsField = true := by
  have : ∀ t ∈ Terminal.fieldSeparators, (Token.terminal t).followsField = true := by decide
  exact this t ht

theorem fieldListEnd {t : Terminal} (ht : t ∈ Terminal.fieldSeparators)
    (h : Complete .field v l ts) : Complete .fieldList v l (ts ++ [.terminal t]) := by
  intro n c before hw ls rest u hc hu hclose
  subst hclose
  obtain ⟨ms, hts, hsep⟩ := Consumes.append_iff.1 hc
  cases n with
  | zero => exact .tooManyLevels
  | succ n =>
      refine h.field_then hw hts hsep.ahead (followsField_of_mem ht) fun field ↦ ?_
      refine separator ht hsep ?_
      cases n with
      | zero => exact .tooManyLevels
      | succ n =>
          rw [Parser.tableFields]
          exact .check hu (.pure rfl)

theorem fieldListMore {t : Terminal} (ht : t ∈ Terminal.fieldSeparators)
    (h : Complete .field v l ts) (h' : Complete .fieldList v l us) :
    Complete .fieldList v l (ts ++ .terminal t :: us) := by
  intro n c before hw ls rest u hc hu hclose
  obtain ⟨ms, hts, hmore⟩ := Consumes.append_iff.1 hc
  obtain ⟨ms', hsep, hus⟩ := Consumes.cons_iff.1 hmore
  cases n with
  | zero => exact .tooManyLevels
  | succ n =>
      refine h.field_then hw hts hsep.ahead (followsField_of_mem ht) fun field ↦ ?_
      exact separator ht hsep (h' n c (field :: before) hw hus hu hclose)

/-- Every expression ends where a field does. -/
theorem stops_of_followsField {t : Token} (ht : t.followsField = true) : Stops e t := by
  cases t with
  | terminal u =>
      have hu : (Token.terminal u).followsField = true → binaryOp? (.terminal u) = none ∧
          (Token.terminal u).startsSuffix = false := by
        cases u <;> decide
      exact ⟨(hu ht).1, fun _ ↦ (hu ht).2⟩
  | _ => exact nomatch ht

theorem fieldKey (h : Complete (.exp e₁) v l ts) (h' : Complete (.exp e₂) v l us) :
    Complete .field v l (.terminal .leftBracket ::
      (ts ++ .terminal .rightBracket :: .terminal .assign :: us)) := by
  refine ⟨.cons rfl, fun n c hw ls rest t hc ht hfollows ↦ ?_⟩
  obtain ⟨ms₁, hopen, hc₁⟩ := Consumes.cons_iff.1 hc
  obtain ⟨ms₂, hts, hc₂⟩ := Consumes.append_iff.1 hc₁
  obtain ⟨ms₃, hclose, hc₃⟩ := Consumes.cons_iff.1 hc₂
  obtain ⟨ms₄, heq, hus⟩ := Consumes.cons_iff.1 hc₃
  cases n with
  | zero => exact .tooManyLevels
  | succ n =>
      rw [tableField]
      refine .peek hc.ahead (.advance hopen ?_)
      refine (Chain.expr h n hw hts hclose.ahead (.of_terminal rfl rfl)).next fun key ↦ ?_
      refine .expect hclose (.expect heq ?_)
      refine (Chain.expr h' n hw hus ht (stops_of_followsField hfollows)).next fun value ↦ ?_
      exact .pure rfl

theorem fieldName (h : Complete (.exp e) v l ts) :
    Complete .field v l (.name x :: .terminal .assign :: ts) := by
  refine ⟨.cons rfl, fun n c hw ls rest t hc ht hfollows ↦ ?_⟩
  obtain ⟨ms₁, hx, hc₁⟩ := Consumes.cons_iff.1 hc
  obtain ⟨ms₂, heq, hts⟩ := Consumes.cons_iff.1 hc₁
  cases n with
  | zero => exact .tooManyLevels
  | succ n =>
      rw [tableField]
      refine .peek hc.ahead (.advance hx (.accept heq ?_))
      refine (Chain.expr h n hw hts ht (stops_of_followsField hfollows)).next fun value ↦ ?_
      exact .pure rfl

theorem fieldValue (h : Complete (.exp e) v l ts) : Complete .field v l ts := by
  obtain ⟨t, us, rfl, hstart⟩ := Chain.starts h
  refine ⟨.cons ?_, fun n c hw ls rest u hc hu hfollows ↦ ?_⟩
  · rw [Bool.not_eq_true', ← Bool.not_eq_true, isTerminal_iff]
    exact Token.ne_of_class hstart rfl
  have hstop : Stops e u := stops_of_followsField hfollows
  cases n with
  | zero => exact .tooManyLevels
  | succ n =>
      have plain : Passes (do return Field.positional (← Parser.expr n c)) ls
          fun _ ms ↦ ms = rest := (Chain.expr h n hw hc hu hstop).next fun value ↦ .pure rfl
      rw [tableField]
      refine .peek hc.ahead ?_
      split
      · exact nomatch hstart
      · -- the name has been taken for a key, and goes on as an expression
        obtain ⟨ms, hx, hus⟩ := Consumes.cons_iff.1 hc
        obtain ⟨w, hw'⟩ : ∃ w, Ahead ms w := by
          cases hus with
          | refl => exact ⟨u, hu⟩
          | cons hl _ => exact ⟨_, hl⟩
        have hne : u ≠ .terminal .assign := by
          rintro rfl
          exact nomatch hfollows
        refine .advance hx (.accept_not hw' (Chain.ne_assign h hus hu hne hw') ?_)
        have := (Chain.after_name h n hw hus hu hstop).next fun value ↦
          Passes.pure (a := Field.positional value) (Q := fun _ ms ↦ ms = rest) rfl
        rwa [bind_assoc] at this
      · exact plain

/-! ## Parameters -/

theorem nameListName : Complete .nameList v l [.name x] := by
  refine ⟨x, [], rfl, .inl rfl, fun n before ls rest t hc ht hstop ↦ ?_,
    fun n before ls ms hc ↦ ?_⟩
  · obtain rfl := Consumes.nil_iff.1 hc
    cases n with
    | zero => exact .tooManyLevels
    | succ n =>
        rw [namesAfter]
        exact .accept_not ht hstop (.pure rfl)
  · cases n with
    | zero => exact ⟨fun _ ↦ .tooManyLevels, fun _ _ ↦ .tooManyLevels⟩
    | succ n =>
        have hname : Token.name x ≠ .terminal .ellipsis := fun h ↦ nomatch h
        rw [params]
        refine ⟨fun hclose ↦ ?_, fun rest hmore ↦ ?_⟩
        · refine .accept_not hc.ahead hname (.name hc ?_)
          exact .accept_not hclose (fun h ↦ nomatch h) (.pure ⟨rfl, rfl⟩)
        · obtain ⟨ms', hcomma, hdots⟩ := Consumes.cons_iff.1 hmore
          refine .accept_not hc.ahead hname (.name hc (.accept hcomma ?_))
          cases n with
          | zero => exact .tooManyLevels
          | succ n =>
              rw [params]
              exact .accept hdots (.pure ⟨rfl, rfl⟩)

theorem nameListMore (h : Complete .nameList v l ts) :
    Complete .nameList v l (.name x :: .terminal .comma :: ts) := by
  obtain ⟨y, us, rfl, _, hnames, hparams⟩ := h
  refine ⟨x, _, rfl, .inr (.cons rfl), fun n before ls rest t hc ht hstop ↦ ?_,
    fun n before ls ms hc ↦ ?_⟩
  · obtain ⟨ms, hcomma, hc⟩ := Consumes.cons_iff.1 hc
    obtain ⟨ms', hy, hus⟩ := Consumes.cons_iff.1 hc
    cases n with
    | zero => exact .tooManyLevels
    | succ n =>
        rw [namesAfter]
        exact .accept hcomma (.name hy (hnames n (y :: before) hus ht hstop))
  · obtain ⟨ms₁, hx, hc'⟩ := Consumes.cons_iff.1 hc
    obtain ⟨ms₂, hcomma, hus⟩ := Consumes.cons_iff.1 hc'
    have step : ∀ {Q : List String × Bool → List Lexeme → Prop},
        (∀ n, Passes (params n (x :: before)) ms₂ Q) → Passes (params n before) ls Q := by
      intro Q hQ
      cases n with
      | zero => exact .tooManyLevels
      | succ n =>
          rw [params]
          refine .accept_not hc.ahead (fun h ↦ nomatch h) (.name hx ?_)
          exact .accept hcomma (hQ n)
    refine ⟨fun hclose ↦ step fun n ↦ ?_, fun rest hmore ↦ step fun n ↦ ?_⟩
    · exact (hparams hus).1 hclose
    · exact (hparams hus).2 rest hmore

theorem parListNames (h : Complete .nameList v l ts) : Complete (.parList false) v l ts := by
  obtain ⟨x, us, rfl, _, _, hparams⟩ := h
  exact ⟨.cons rfl, fun n before ls rest hc hclose ↦ (hparams hc).1 hclose⟩

theorem parListBoth (h : Complete .nameList v l ts) :
    Complete (.parList true) v l (ts ++ [.terminal .comma, .terminal .ellipsis]) := by
  obtain ⟨x, us, rfl, _, _, hparams⟩ := h
  refine ⟨.cons rfl, fun n before ls rest hc _ ↦ ?_⟩
  obtain ⟨ms, hts, hdots⟩ := Consumes.append_iff.1 hc
  exact (hparams hts).2 rest hdots

theorem parListVararg : Complete (.parList true) v l [.terminal .ellipsis] := by
  refine ⟨.cons rfl, fun n before ls rest hc _ ↦ ?_⟩
  cases n with
  | zero => exact .tooManyLevels
  | succ n =>
      rw [params]
      exact .accept hc (.pure ⟨rfl, rfl⟩)

end Complete

end LuaEmbed.Parser
