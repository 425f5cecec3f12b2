import LuaEmbed.Proofs.Syntax.Completeness.Passing

/-!
# Expressions pass

What the parser does with the tokens of an expression, without the grammar: prefix expressions are
a head and suffixes, and expressions are operands with operators between them.

Both productions of the grammar recurse to the left and the parser does not.  A prefix expression
is therefore described by what its tokens do to whatever comes after them, and an expression is
flattened into a `Chain`, of which `subexpr` reads a beginning that depends on its limit.
-/

namespace LuaEmbed.Parser

open Grammar

variable {v l : Bool} {ts us : List Token} {K K' : Expr → Prop}

/-! ## Prefix expressions -/

/-- After an expression of which `E` holds the suffixes `us` are read, and what follows goes on
with one of which `K` holds. -/
def Suffixed (v l : Bool) (E K : Expr → Prop) (us : List Token) : Prop :=
  ∀ ⦃n c e ls ms Q⦄, Within v l c → E e → Consumes ls us ms →
    (∀ n' e', K e' → Passes (suffixedTail n' c e') ms Q) → Passes (suffixedTail n c e) ls Q

/-- Suffixes that any expression can have. -/
abbrev Suffix (v l : Bool) (K : Expr → Prop) (us : List Token) : Prop :=
  StartsWith Token.startsSuffix us ∧ Suffixed v l (fun _ ↦ True) K us

/-- The tokens of a prefix expression whose tree satisfies `K`. -/
inductive Spells (v l : Bool) (K : Expr → Prop) : List Token → Prop where
  | name {x : String} {us : List Token} : (us = [] ∨ StartsWith Token.startsSuffix us) →
      Suffixed v l (· = .name x) K us → Spells v l K (.name x :: us)
  | paren {ts us : List Token} : StartsWith (Token.isTerminal .leftParen) ts →
      (∀ n c, Within v l c → Takes (primaryExpr n c) ts) →
      Suffixed v l (fun _ ↦ True) K us → Spells v l K (ts ++ us)

theorem Suffixed.nil {E : Expr → Prop} (h : ∀ e, E e → K e) : Suffixed v l E K [] := by
  intro n c e ls ms Q _ he hc hK
  obtain rfl := Consumes.nil_iff.1 hc
  exact hK n e (h e he)

theorem Suffixed.append {E : Expr → Prop} (h : Suffixed v l E K ts)
    (h' : Suffixed v l (fun _ ↦ True) K' us) : Suffixed v l E K' (ts ++ us) := by
  intro n c e ls rest Q hw he hc hK
  obtain ⟨ms, hts, hus⟩ := Consumes.append_iff.1 hc
  exact h hw he hts fun n' e' _ ↦ h' hw trivial hus hK

theorem Suffixed.mono {E : Expr → Prop} (h : Suffixed v l E K ts) (hK : ∀ e, K e → K' e) :
    Suffixed v l E K' ts := by
  intro n c e ls ms Q hw he hc hP
  exact h hw he hc fun n' e' he' ↦ hP n' e' (hK e' he')

namespace Spells

theorem of_name (x : String) : Spells v l (Expr.isTarget · = true) [.name x] :=
  .name (.inl rfl) (.nil fun e he ↦ by rw [he]; rfl)

/-- A suffix makes a prefix expression a prefix expression again. -/
theorem append (h : Spells v l K ts) (h' : Suffix v l K' us) : Spells v l K' (ts ++ us) := by
  cases h with
  | name hstart htail =>
      refine .name (.inr ?_) (htail.append h'.2)
      rcases hstart with rfl | hstart
      · exact h'.1
      · exact hstart.append
  | paren hstart hhead htail =>
      rw [List.append_assoc]
      exact .paren hstart hhead (htail.append h'.2)

theorem mono (h : Spells v l K ts) (hK : ∀ e, K e → K' e) : Spells v l K' ts := by
  cases h with
  | name hstart htail => exact .name hstart (htail.mono hK)
  | paren hstart hhead htail => exact .paren hstart hhead (htail.mono hK)

theorem starts (h : Spells v l K ts) : StartsWith Token.startsPrefix ts := by
  cases h with
  | name => exact .cons rfl
  | paren hstart =>
      refine (hstart.mono fun t ht ↦ ?_).append
      obtain rfl := isTerminal_iff.1 ht
      rfl

end Spells

/-- The suffixes end before a token that starts none. -/
theorem suffixedTail_stop {n : Nat} {c : Context} {e : Expr} {ls : List Lexeme} {t : Token}
    {Q : Expr → List Lexeme → Prop} (ht : Ahead ls t) (hstop : t.startsSuffix = false)
    (hQ : Q e ls) : Passes (suffixedTail n c e) ls Q := by
  cases n with
  | zero => exact .tooManyLevels
  | succ n =>
      rw [suffixedTail]
      refine .line fun at_ ↦ .peek ht ?_
      split <;> first
        | cases hstop
        | exact .pure hQ

theorem Spells.suffixedExpr (h : Spells v l K ts) {n : Nat} {c : Context} (hw : Within v l c)
    {ls rest : List Lexeme} {t : Token} (hts : Consumes ls ts rest) (ht : Ahead rest t)
    (hstop : t.startsSuffix = false) :
    Passes (suffixedExpr n c) ls fun e ms ↦ ms = rest ∧ K e := by
  have stop : ∀ n' e', K e' → Passes (suffixedTail n' c e') rest fun e ms ↦ ms = rest ∧ K e :=
    fun n' e' he' ↦ suffixedTail_stop ht hstop ⟨rfl, he'⟩
  cases n with
  | zero => exact .tooManyLevels
  | succ n =>
      rw [Parser.suffixedExpr]
      cases h with
      | @name x us _ htail =>
          obtain ⟨ms, hx, hus⟩ := Consumes.cons_iff.1 hts
          have head : Passes (primaryExpr n c) ls fun e ms' ↦ ms' = ms ∧ e = .name x := by
            cases n with
            | zero => exact .tooManyLevels
            | succ n =>
                rw [primaryExpr]
                exact .peek hx.ahead (.advance hx (.pure ⟨rfl, rfl⟩))
          refine head.bind ?_
          rintro e _ ⟨rfl, rfl⟩
          exact htail hw rfl hus stop
      | paren _ hhead htail =>
          obtain ⟨ms, hhd, hus⟩ := Consumes.append_iff.1 hts
          exact (hhead n c hw hhd).next fun e ↦ htail hw trivial hus stop

/-! ## Suffixes -/

/-- A suffix that ends in an expression of which `K` holds, given what reading it does. -/
theorem Suffix.intro (hstart : StartsWith Token.startsSuffix us)
    (h : ∀ ⦃n c e ls ms Q⦄, Within v l c → Consumes ls us ms →
      (∀ n' e', K e' → Passes (suffixedTail n' c e') ms Q) →
      Passes (suffixedTail (n + 1) c e) ls Q) : Suffix v l K us := by
  refine ⟨hstart, fun n c e ls ms Q hw _ hc hK ↦ ?_⟩
  cases n with
  | zero => exact .tooManyLevels
  | succ n => exact h hw hc hK

theorem suffix_field (x : String) :
    Suffix v l (Expr.isTarget · = true) [.terminal .dot, .name x] := by
  refine .intro (.cons rfl) fun n c e ls ms Q _ hc hK ↦ ?_
  obtain ⟨ms₁, hdot, hx⟩ := Consumes.cons_iff.1 hc
  rw [suffixedTail]
  exact .line fun _ ↦ .peek hc.ahead (.advance hdot (.name hx (hK _ _ rfl)))

theorem suffix_index {e : Bool}
    (h : ∀ n c, Within v l c → TakesBefore (Stops e) (expr n c) us) :
    Suffix v l (Expr.isTarget · = true)
      (.terminal .leftBracket :: (us ++ [.terminal .rightBracket])) := by
  refine .intro (.cons rfl) fun n c _ ls ms Q hw hc hK ↦ ?_
  obtain ⟨ms₁, hopen, hrest⟩ := Consumes.cons_iff.1 hc
  obtain ⟨ms₂, hus, hclose⟩ := Consumes.append_iff.1 hrest
  rw [suffixedTail]
  refine .line fun _ ↦ .peek hc.ahead (.advance hopen ?_)
  refine (h n c hw hus hclose.ahead (.of_terminal rfl rfl)).next fun key ↦ ?_
  exact .expect hclose (hK _ _ rfl)

theorem suffix_args (hstart : StartsWith Token.startsArgs us)
    (h : ∀ n c, Within v l c → Takes (callArgs n c) us) :
    Suffix v l (Expr.isCall · = true) us := by
  have hsuffix : ∀ t : Token, t.startsArgs = true → t.startsSuffix = true := by
    intro t ht
    unfold Token.startsArgs at ht
    split at ht <;> first | rfl | cases ht
  refine .intro (hstart.mono hsuffix) fun n c e ls ms Q hw hc hK ↦ ?_
  obtain ⟨t, ht, hargs⟩ := hstart.ahead hc
  rw [suffixedTail]
  refine .line fun at_ ↦ .peek ht ?_
  have call : Passes (callArgs n c >>= fun args ↦ suffixedTail n c (.call at_ e args)) ls Q :=
    (h n c hw hc).next fun args ↦ hK _ _ rfl
  unfold Token.startsArgs at hargs
  split at hargs
  · exact call
  · exact call
  · exact call
  · cases hargs

theorem suffix_method {x : String} (h : ∀ n c, Within v l c → Takes (callArgs n c) us) :
    Suffix v l (Expr.isCall · = true) (.terminal .colon :: .name x :: us) := by
  refine .intro (.cons rfl) fun n c _ ls ms Q hw hc hK ↦ ?_
  obtain ⟨ms₁, hcolon, hrest⟩ := Consumes.cons_iff.1 hc
  obtain ⟨ms₂, hx, hus⟩ := Consumes.cons_iff.1 hrest
  rw [suffixedTail]
  refine .line fun _ ↦ .peek hc.ahead (.advance hcolon (.name hx ?_))
  exact (h n c hw hus).next fun args ↦ hK _ _ rfl

theorem spells_paren {e : Bool}
    (h : ∀ n c, Within v l c → TakesBefore (Stops e) (expr n c) ts) :
    Spells v l (fun _ ↦ True) (.terminal .leftParen :: (ts ++ [.terminal .rightParen])) := by
  have head : ∀ n c, Within v l c → Takes (primaryExpr n c)
      (.terminal .leftParen :: (ts ++ [.terminal .rightParen])) := by
    intro n c hw ls rest hc
    obtain ⟨ms₁, hopen, hrest⟩ := Consumes.cons_iff.1 hc
    obtain ⟨ms₂, hts, hclose⟩ := Consumes.append_iff.1 hrest
    cases n with
    | zero => exact .tooManyLevels
    | succ n =>
        rw [primaryExpr]
        refine .peek hc.ahead (.line fun _ ↦ .advance hopen ?_)
        refine (h n c hw hts hclose.ahead (.of_terminal rfl rfl)).next fun inner ↦ ?_
        exact .expectMatch hclose (.pure rfl)
  have := Spells.paren (.cons rfl) head (Suffixed.nil (K := fun _ ↦ True) fun _ h ↦ h)
  rwa [List.append_nil] at this

/-! ## Operators -/

/-- The tokens of an expression that is no operator applied to others. -/
structure Simple (v l e : Bool) (ts : List Token) : Prop where
  starts : StartsWith Token.startsSimple ts
  takes : ∀ n c, Within v l c →
    TakesBefore (fun t ↦ e = true → t.startsSuffix = false) (simpleExpr n c) ts
  /-- A field of a table constructor reads a name before it knows that it starts an expression. -/
  named : ∀ x us, ts = .name x :: us → e = true ∧ (us = [] ∨ StartsWith Token.startsSuffix us) ∧
    ∀ n c, Within v l c → TakesBefore (·.startsSuffix = false) (suffixedTail n c (.name x)) us

/-- Operands with operators before and between them, from left to right. -/
inductive Chain (v l : Bool) : Bool → List Token → Prop where
  | simple {e : Bool} {ts : List Token} : Simple v l e ts → Chain v l e ts
  | unary {e : Bool} {t : Terminal} {ts : List Token} :
      t ∈ Terminal.unaryOperators → Chain v l e ts → Chain v l e (.terminal t :: ts)
  | binary {e₁ e : Bool} {t : Terminal} {ts us : List Token} :
      t ∈ Terminal.binaryOperators → Simple v l e₁ ts → Chain v l e us →
      Chain v l e (ts ++ .terminal t :: us)

theorem Spells.simple (h : Spells v l K ts) : Simple v l true ts := by
  refine ⟨h.starts.mono ?_, fun n c hw ls rest t hts ht hstop ↦ ?_, ?_⟩
  · intro t ht
    unfold Token.startsPrefix at ht
    split at ht <;> first | rfl | cases ht
  · obtain ⟨u, hu, hprefix⟩ := h.starts.ahead hts
    cases n with
    | zero => exact .tooManyLevels
    | succ n =>
        have tail := (h.suffixedExpr hw hts ht (hstop rfl) (n := n)).mono fun e ms hms ↦ hms.1
        rw [simpleExpr]
        refine .line fun _ ↦ .peek hu ?_
        unfold Token.startsPrefix at hprefix
        split at hprefix
        · exact tail
        · exact tail
        · cases hprefix
  · intro x us hts
    cases h with
    | name hstart htail =>
        obtain ⟨h₁, rfl⟩ := List.cons.inj hts
        obtain rfl := Token.name.inj h₁
        refine ⟨rfl, hstart, fun n c hw ls rest t hus ht hstop ↦ ?_⟩
        exact htail hw rfl hus fun n' e' _ ↦ suffixedTail_stop ht hstop rfl
    | paren hstart =>
        obtain ⟨t, ws, rfl, ht⟩ := hstart
        obtain rfl := isTerminal_iff.1 ht
        exact nomatch (List.cons.inj hts).1

namespace Chain

variable {e : Bool}

theorem starts (h : Chain v l e ts) : StartsWith Token.startsExp ts := by
  have simple : ∀ t : Token, t.startsSimple = true → t.startsExp = true := by
    intro t ht
    rw [Token.startsExp, ht, Bool.true_or]
  cases h with
  | simple h => exact h.starts.mono simple
  | @unary _ t _ ht h =>
      refine .cons ?_
      have : ∀ t ∈ Terminal.unaryOperators, (Token.terminal t).startsExp = true := by decide
      exact this t ht
  | binary _ h _ => exact (h.starts.mono simple).append

/-- Two chains with an operator between them are one. -/
theorem append {e₁ : Bool} {t : Terminal} (ht : t ∈ Terminal.binaryOperators)
    (h : Chain v l e₁ ts) (h' : Chain v l e us) : Chain v l e (ts ++ .terminal t :: us) := by
  induction h with
  | simple h => exact .binary ht h h'
  | unary hu _ ih => exact .unary hu ih
  | binary ht' h _ ih =>
      rw [List.append_assoc]
      exact .binary ht' h ih

end Chain

/-- What may be left of a chain where the operators that bind tighter than the limit end: nothing,
or an operator that does not and its right operands. -/
def Remains (v l e : Bool) (limit : Nat) (ls rest : List Lexeme) : Prop :=
  ls = rest ∨ ∃ t op us, binaryOp? (.terminal t) = some op ∧ op.priority.1 ≤ limit ∧
    Chain v l e us ∧ Consumes ls (.terminal t :: us) rest

theorem Remains.done {e : Bool} {rest : List Lexeme} (limit : Nat) :
    Remains v l e limit rest rest := .inl rfl

/-- With no limit all of a chain is read. -/
theorem Remains.zero {e : Bool} {ls rest : List Lexeme} (h : Remains v l e 0 ls rest) :
    ls = rest := by
  rcases h with h | ⟨_, op, _, _, hle, _⟩
  · exact h
  · exact absurd hle (by cases op <;> decide)

theorem binaryOp?_of_mem {t : Terminal} (ht : t ∈ Terminal.binaryOperators) :
    ∃ op, binaryOp? (.terminal t) = some op := by
  have : ∀ t ∈ Terminal.binaryOperators, (binaryOp? (.terminal t)).isSome = true := by decide
  exact Option.isSome_iff_exists.1 (this t ht)

theorem unaryOp?_of_mem {t : Terminal} (ht : t ∈ Terminal.unaryOperators) :
    ∃ op, unaryOp? (.terminal t) = some op := by
  have : ∀ t ∈ Terminal.unaryOperators, (unaryOp? (.terminal t)).isSome = true := by decide
  exact Option.isSome_iff_exists.1 (this t ht)

theorem startsSuffix_of_binaryOperator {t : Terminal} (ht : t ∈ Terminal.binaryOperators) :
    (Token.terminal t).startsSuffix = false := by
  have : ∀ t ∈ Terminal.binaryOperators, (Token.terminal t).startsSuffix = false := by decide
  exact this t ht

theorem unaryOp?_of_startsSimple {t : Token} (ht : t.startsSimple = true) : unaryOp? t = none := by
  cases t with
  | terminal u =>
      have : (Token.terminal u).startsSimple = true → unaryOp? (.terminal u) = none := by
        cases u <;> decide
      exact this ht
  | _ => rfl

/-- What the functions for operators do with bound `n` to a chain that ends before `rest`. -/
structure Climbs (v l e : Bool) (rest : List Lexeme) (n : Nat) : Prop where
  subexpr {c limit ls ts} : Within v l c → Chain v l e ts → Consumes ls ts rest →
    Passes (subexpr n c limit) ls fun _ ms ↦ Remains v l e limit ms rest
  operand {c limit ls ts} : Within v l c → Chain v l e ts → Consumes ls ts rest →
    Passes (operand n c limit) ls fun _ ms ↦ Remains v l e limit ms rest
  binaryTail {c left limit limit' ls} : Within v l c → Remains v l e limit' ls rest →
    Passes (binaryTail n c left limit) ls fun _ ms ↦ Remains v l e limit ms rest

namespace Climbs

variable {e : Bool} {rest : List Lexeme} {n : Nat} {c : Context} {limit : Nat} {ls : List Lexeme}

theorem subexpr_succ (h : Climbs v l e rest n) (hw : Within v l c) (hchain : Chain v l e ts)
    (hts : Consumes ls ts rest) :
    Passes (Parser.subexpr (n + 1) c limit) ls fun _ ms ↦ Remains v l e limit ms rest := by
  rw [Parser.subexpr]
  exact .nested fun levels ↦ h.operand (hw.deeper levels) hchain hts

theorem operand_succ {t : Token} (ht : Ahead rest t) (hstop : Stops e t) (h : Climbs v l e rest n)
    (hw : Within v l c) (hchain : Chain v l e ts) (hts : Consumes ls ts rest) :
    Passes (Parser.operand (n + 1) c limit) ls fun _ ms ↦ Remains v l e limit ms rest := by
  rw [Parser.operand]
  cases hchain with
  | simple hsimple =>
      obtain ⟨u, hu, hstart⟩ := hsimple.starts.ahead hts
      refine .line fun _ ↦ .peek hu ?_
      simp only [unaryOp?_of_startsSimple hstart]
      exact (hsimple.takes n c hw hts ht hstop.2).next fun left ↦ h.binaryTail hw (.done 0)
  | unary hop hchain =>
      obtain ⟨op, hop⟩ := unaryOp?_of_mem hop
      obtain ⟨ms, hoperator, hts⟩ := Consumes.cons_iff.1 hts
      refine .line fun _ ↦ .peek hoperator.ahead ?_
      simp only [hop]
      refine .advance hoperator ((h.subexpr hw hchain hts).bind fun inner ms hms ↦ ?_)
      exact h.binaryTail hw hms
  | binary hop hsimple hchain =>
      obtain ⟨ms, hleft, hright⟩ := Consumes.append_iff.1 hts
      obtain ⟨u, hu, hstart⟩ := hsimple.starts.ahead hleft
      obtain ⟨op, hop'⟩ := binaryOp?_of_mem hop
      refine .line fun _ ↦ .peek hu ?_
      simp only [unaryOp?_of_startsSimple hstart]
      refine (hsimple.takes n c hw hleft hright.ahead
        fun _ ↦ startsSuffix_of_binaryOperator hop).next fun left ↦ ?_
      exact h.binaryTail hw (.inr ⟨_, op, _, hop', Nat.le_refl _, hchain, hright⟩)

theorem binaryTail_succ {t : Token} (ht : Ahead rest t) (hstop : Stops e t)
    (h : Climbs v l e rest n) {left : Expr} {limit' : Nat} (hw : Within v l c)
    (hls : Remains v l e limit' ls rest) :
    Passes (Parser.binaryTail (n + 1) c left limit) ls fun _ ms ↦ Remains v l e limit ms rest := by
  rw [Parser.binaryTail]
  rcases hls with rfl | ⟨u, op, us, hop, _, hchain, hus⟩
  · refine .peek ht ?_
    simp only [hstop.1]
    exact .pure (.inl rfl)
  · refine .peek hus.ahead ?_
    simp only [hop]
    split
    · next hle => exact .pure (.inr ⟨u, op, us, hop, hle, hchain, hus⟩)
    · obtain ⟨ms, hoperator, hus⟩ := Consumes.cons_iff.1 hus
      refine .line fun at_ ↦ .advance hoperator ?_
      exact (h.subexpr hw hchain hus).bind fun right ms hms ↦ h.binaryTail hw hms

theorem all {t : Token} (ht : Ahead rest t) (hstop : Stops e t) : ∀ n, Climbs v l e rest n
  | 0 => by constructor <;> intros <;> exact .tooManyLevels
  | n + 1 =>
      have h := all ht hstop n
      { subexpr := h.subexpr_succ
        operand := operand_succ ht hstop h
        binaryTail := binaryTail_succ ht hstop h }

end Climbs

namespace Chain

variable {e : Bool} {c : Context}

theorem expr (h : Chain v l e ts) (n : Nat) (hw : Within v l c) :
    TakesBefore (Stops e) (Parser.expr n c) ts := by
  intro ls rest t hts ht hstop
  cases n with
  | zero => exact .tooManyLevels
  | succ n =>
      rw [Parser.expr]
      exact ((Climbs.all ht hstop n).subexpr hw h hts).mono fun _ _ hms ↦ hms.zero

/-- An expression that starts with a name starts with a prefix expression. -/
theorem of_name {x : String} (h : Chain v l e (.name x :: us)) :
    (e = true ∧ Simple v l e (.name x :: us)) ∨
      ∃ t ts ws, us = ts ++ .terminal t :: ws ∧ t ∈ Terminal.binaryOperators ∧
        Simple v l true (.name x :: ts) ∧ Chain v l e ws := by
  generalize hts : Token.name x :: us = ts at h
  cases h with
  | simple hsimple =>
      subst hts
      exact .inl ⟨(hsimple.named x us rfl).1, hsimple⟩
  | unary => exact nomatch hts
  | binary hop hsimple hchain =>
      obtain ⟨w, ws, rfl, _⟩ := hsimple.starts
      obtain ⟨rfl, rfl⟩ := List.cons.inj hts
      obtain ⟨rfl, _⟩ := hsimple.named x ws rfl
      exact .inr ⟨_, ws, _, rfl, hop, hsimple, hchain⟩

/-- Reading on from the name that an expression starts with. -/
theorem after_name {x : String} (h : Chain v l e (.name x :: us)) (n : Nat) (hw : Within v l c) :
    TakesBefore (Stops e) (do
      let left ← suffixedTail n c (.name x)
      binaryTail n c left 0) us := by
  intro ls rest t hus ht hstop
  have tail : ∀ {left ms limit}, Remains v l e limit ms rest →
      Passes (binaryTail n c left 0) ms fun _ ms' ↦ ms' = rest := fun hms ↦
    ((Climbs.all ht hstop n).binaryTail hw hms).mono fun _ _ hms' ↦ hms'.zero
  rcases h.of_name with ⟨rfl, hsimple⟩ | ⟨u, ts, ws, rfl, hop, hsimple, hchain⟩
  · obtain ⟨_, _, htakes⟩ := hsimple.named x us rfl
    exact (htakes n c hw hus ht (hstop.2 rfl)).next fun left ↦ tail (.done 0)
  · obtain ⟨_, _, htakes⟩ := hsimple.named x ts rfl
    obtain ⟨ms, hts, hms⟩ := Consumes.append_iff.1 hus
    obtain ⟨op, hop'⟩ := binaryOp?_of_mem hop
    refine (htakes n c hw hts hms.ahead (startsSuffix_of_binaryOperator hop)).next fun left ↦ ?_
    exact tail (.inr ⟨u, op, ws, hop', Nat.le_refl _, hchain, hms⟩)

/-- Behind the name that an expression starts with is no `=`. -/
theorem ne_assign {x : String} (h : Chain v l e (.name x :: us)) {ls rest : List Lexeme} {t u : Token}
    (hus : Consumes ls us rest) (ht : Ahead rest t) (hne : t ≠ .terminal .assign)
    (hu : Ahead ls u) : u ≠ .terminal .assign := by
  have suffixes : ∀ {ts ms}, Simple v l true (.name x :: ts) → Consumes ls ts ms →
      (ts = [] ∧ ms = ls) ∨ u ≠ .terminal .assign := by
    intro ts ms hsimple hts
    obtain ⟨_, rfl | hstart, _⟩ := hsimple.named x ts rfl
    · exact .inl ⟨rfl, Consumes.nil_iff.1 hts⟩
    · obtain ⟨w, hw, hstart⟩ := hstart.ahead hts
      obtain rfl := hu.unique hw
      exact .inr fun h ↦ nomatch h ▸ hstart
  rcases h.of_name with ⟨rfl, hsimple⟩ | ⟨w, ts, ws, rfl, hop, hsimple, _⟩
  · rcases suffixes hsimple hus with ⟨rfl, rfl⟩ | h
    · exact hu.unique ht ▸ hne
    · exact h
  · obtain ⟨ms, hts, hms⟩ := Consumes.append_iff.1 hus
    rcases suffixes hsimple hts with ⟨rfl, rfl⟩ | h
    · obtain rfl := hu.unique hms.ahead
      intro hw
      obtain rfl := Token.terminal.inj hw
      exact absurd hop (by decide)
    · exact h

end Chain

end LuaEmbed.Parser
