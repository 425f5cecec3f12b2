import LuaEmbed.Proofs.Syntax.Grammar
import LuaEmbed.Proofs.Syntax.Reading

/-!
# Passing

A parser *passes* where it succeeds as wanted, unless it gives up because there are too many syntax
levels.  Passing is closed under sequencing, and a function that is out of calls passes trivially,
so statements about passing hold for every bound on the depth of calls and need no arithmetic on it.

Below are also the classes of tokens that decide, one token ahead, how a parser goes on.
-/

namespace LuaEmbed

/-! ## Classes of tokens -/

namespace Token

/-- The tokens that the indices and calls after a prefix expression start with. -/
def startsSuffix : Token → Bool
  | .terminal .dot | .terminal .leftBracket | .terminal .colon | .terminal .leftParen
  | .terminal .leftBrace | .string _ => true
  | _ => false

/-- The tokens that the arguments of a call start with. -/
def startsArgs : Token → Bool
  | .terminal .leftParen | .terminal .leftBrace | .string _ => true
  | _ => false

/-- The tokens that a prefix expression starts with. -/
def startsPrefix : Token → Bool
  | .terminal .leftParen | .name _ => true
  | _ => false

/-- The tokens that an expression without operators starts with. -/
def startsSimple : Token → Bool
  | .terminal .nil | .terminal .true_ | .terminal .false_ | .terminal .ellipsis
  | .terminal .leftBrace | .terminal .function | .terminal .leftParen
  | .number _ | .string _ | .name _ => true
  | _ => false

/-- The tokens that an expression starts with. -/
def startsExp (t : Token) : Bool :=
  t.startsSimple || (Parser.unaryOp? t).isSome

/-- The tokens that a statement other than `return` and `break` starts with. -/
def startsStat : Token → Bool
  | .terminal .if_ | .terminal .while_ | .terminal .do_ | .terminal .for_ | .terminal .repeat_
  | .terminal .function | .terminal .local_ | .terminal .leftParen | .name _ => true
  | _ => false

/-- The tokens that the last statement of a block starts with. -/
def startsLastStat : Token → Bool
  | .terminal .return_ | .terminal .break_ => true
  | _ => false

/-- The tokens that a block starts with, unless it is empty. -/
def startsChunk (t : Token) : Bool :=
  t.startsStat || t.startsLastStat

/-- The tokens that end the values of a `return`. -/
def endsValues (t : Token) : Bool :=
  t.endsBlock || t.isTerminal .semicolon

/-- The tokens that can follow a statement. -/
def followsStat (t : Token) : Bool :=
  t.endsValues || t.startsChunk

/-- The tokens that can follow a field of a table constructor. -/
def followsField (t : Token) : Bool :=
  t.isTerminal .comma || t.isTerminal .semicolon || t.isTerminal .rightBrace

theorem followsStat_of_endsBlock {t : Token} (h : t.endsBlock = true) : t.followsStat = true := by
  rw [followsStat, endsValues, h, Bool.true_or, Bool.true_or]

theorem followsStat_of_startsChunk {t : Token} (h : t.startsChunk = true) :
    t.followsStat = true := by
  rw [followsStat, h, Bool.or_true]

theorem endsValues_of_startsExp {t : Token} (h : t.startsExp = true) : t.endsValues = false := by
  cases t with
  | terminal u =>
      have : (Token.terminal u).startsExp = true → (Token.terminal u).endsValues = false := by
        cases u <;> decide
      exact this h
  | number _ | string _ | name _ => rfl
  | endOfInput => exact nomatch h

theorem ne_of_class {p : Token → Bool} {t u : Token} (ht : p t = true) (hu : p u = false) :
    t ≠ u := by
  rintro rfl
  exact nomatch hu.symm.trans ht

end Token

namespace Parser

open Grammar

variable {α β : Type} {ls ms rest : List Lexeme} {ts us : List Token} {t : Token}

/-- The list starts with a token of the class `p`. -/
def StartsWith (p : Token → Bool) (ts : List Token) : Prop := ∃ t us, ts = t :: us ∧ p t = true

namespace StartsWith

variable {p q : Token → Bool}

theorem cons (h : p t = true) : StartsWith p (t :: ts) := ⟨t, ts, rfl, h⟩

theorem append (h : StartsWith p ts) : StartsWith p (ts ++ us) := by
  obtain ⟨t, ws, rfl, ht⟩ := h
  exact cons ht

theorem mono (h : StartsWith p ts) (hpq : ∀ t, p t = true → q t = true) : StartsWith q ts := by
  obtain ⟨t, ws, rfl, ht⟩ := h
  exact cons (hpq t ht)

theorem ahead (h : StartsWith p ts) (hc : Consumes ls ts rest) :
    ∃ t, Ahead ls t ∧ p t = true := by
  obtain ⟨t, ws, rfl, ht⟩ := h
  exact ⟨t, hc.ahead, ht⟩

end StartsWith

/-- An expression ends before the token: no operator goes on with it, and no suffix if it ends in
a prefix expression. -/
def Stops (ends : Bool) (t : Token) : Prop :=
  binaryOp? t = none ∧ (ends = true → t.startsSuffix = false)

/-- A statement ends before the token. -/
def StatStops (ends : Bool) (t : Token) : Prop :=
  t.followsStat = true ∧ (ends = true → t ≠ .terminal .leftParen)

theorem StatStops.stops {ends : Bool} (h : StatStops ends t) : Stops ends t := by
  obtain ⟨h, hparen⟩ := h
  cases t with
  | terminal u =>
      have hu : (Token.terminal u).followsStat = true → binaryOp? (.terminal u) = none ∧
          (u = .leftParen ∨ (Token.terminal u).startsSuffix = false) := by
        cases u <;> decide
      obtain ⟨hop, hu⟩ := hu h
      exact ⟨hop, fun he ↦ hu.resolve_left fun h ↦ hparen he (congrArg _ h)⟩
  | name _ | endOfInput => exact ⟨rfl, fun _ ↦ rfl⟩
  | number _ | string _ => exact nomatch h

theorem StatStops.ne {ends : Bool} (h : StatStops ends t) {u : Terminal}
    (hu : (Token.terminal u).followsStat = false) : t ≠ .terminal u := by
  rintro rfl
  exact nomatch hu.symm.trans h.1

theorem StatStops.of_endsValues {ends : Bool} (h : t.endsValues = true) : StatStops ends t := by
  refine ⟨by rw [Token.followsStat, h, Bool.true_or], ?_⟩
  rintro _ rfl
  exact nomatch h

theorem Stops.of_terminal {ends : Bool} {u : Terminal} (h : binaryOp? (.terminal u) = none)
    (h' : (Token.terminal u).startsSuffix = false) : Stops ends (.terminal u) := ⟨h, fun _ ↦ h'⟩

/-! ## Passing -/

/-- The parser succeeds with what `Q` asks for, or there are too many syntax levels. -/
def Passes (p : Parser α) (ls : List Lexeme) (Q : α → List Lexeme → Prop) : Prop :=
  (∃ a rest, p ls = .ok (a, rest) ∧ Q a rest) ∨
    ∃ l : Lexeme, p ls = .error (l.complain .tooManyLevels)

namespace Passes

variable {p : Parser α} {f : α → Parser β} {Q R : α → List Lexeme → Prop}
  {S : β → List Lexeme → Prop}

theorem of_ok {a : α} (h : p ls = .ok (a, rest)) (hQ : Q a rest) : Passes p ls Q :=
  .inl ⟨a, rest, h, hQ⟩

theorem pure {a : α} (h : Q a ls) : Passes (Pure.pure a) ls Q := of_ok rfl h

theorem tooManyLevels : Passes (complain .tooManyLevels : Parser α) ls Q :=
  .inr ⟨_, complain_apply _⟩

theorem mono (h : Passes p ls Q) (hQ : ∀ a ms, Q a ms → R a ms) : Passes p ls R := by
  rcases h with ⟨a, ms, h, ha⟩ | h
  · exact .inl ⟨a, ms, h, hQ a ms ha⟩
  · exact .inr h

theorem bind (h : Passes p ls Q) (hf : ∀ a ms, Q a ms → Passes (f a) ms S) :
    Passes (p >>= f) ls S := by
  rcases h with ⟨a, ms, h, ha⟩ | ⟨l, h⟩
  · unfold Passes
    rw [bind_of_ok h]
    exact hf a ms ha
  · exact .inr ⟨l, bind_of_error h⟩

/-- What has been read leaves a known rest. -/
theorem next (h : Passes p ls fun _ ms' ↦ ms' = ms) (hf : ∀ a, Passes (f a) ms S) :
    Passes (p >>= f) ls S :=
  h.bind fun a _ hms ↦ hms ▸ hf a

theorem step {a : α} (h : p ls = .ok (a, ms)) (hf : Passes (f a) ms S) :
    Passes (p >>= f) ls S := by
  unfold Passes
  rwa [bind_of_ok h]

/-- One level deeper a parser passes if it does with any number of levels left. -/
theorem nested {c : Context} {p : Context → Parser α}
    (h : ∀ levels, Passes (p { c with levels }) ls Q) : Passes (Parser.nested c p) ls Q := by
  unfold Parser.nested
  split
  · exact tooManyLevels
  · exact h _

/-! ### Single tokens -/

theorem line {f : Nat → Parser β} (h : ∀ n, Passes (f n) ls S) :
    Passes (Parser.line >>= f) ls S := step line_apply (h _)

theorem peek {f : Token → Parser β} (ht : Ahead ls t) (h : Passes (f t) ls S) :
    Passes (Parser.peek >>= f) ls S := step (peek_of_ahead ht) h

theorem advance {f : Unit → Parser β} (ht : Consumes ls [t] ms) (h : Passes (f ()) ms S) :
    Passes (Parser.advance >>= f) ls S := step advance_apply (ht.tail_eq ▸ h)

theorem check {u : Terminal} {f : Bool → Parser β} (ht : Ahead ls t)
    (h : Passes (f (t.isTerminal u)) ls S) : Passes (Parser.check u >>= f) ls S :=
  step (check_of_ahead ht) h

theorem accept {u : Terminal} {f : Bool → Parser β} (hu : Consumes ls [.terminal u] ms)
    (h : Passes (f true) ms S) : Passes (Parser.accept u >>= f) ls S :=
  step (accept_of_consumes hu) h

theorem accept_not {u : Terminal} {f : Bool → Parser β} (ht : Ahead ls t) (hne : t ≠ .terminal u)
    (h : Passes (f false) ls S) : Passes (Parser.accept u >>= f) ls S :=
  step (accept_of_ne ht hne) h

theorem expect {u : Terminal} {f : Unit → Parser β} (hu : Consumes ls [.terminal u] ms)
    (h : Passes (f ()) ms S) : Passes (Parser.expect u >>= f) ls S :=
  step (expect_of_consumes hu) h

theorem expectMatch {u opener : Terminal} {opened : Nat} {f : Unit → Parser β}
    (hu : Consumes ls [.terminal u] ms) (h : Passes (f ()) ms S) :
    Passes (Parser.expectMatch u opener opened >>= f) ls S :=
  step (expectMatch_of_consumes hu) h

theorem name {x : String} {f : String → Parser β} (hx : Consumes ls [.name x] ms)
    (h : Passes (f x) ms S) : Passes (Parser.name >>= f) ls S :=
  step (name_of_consumes hx) h

end Passes

/-- The parser takes exactly the tokens `ts`, whatever follows them. -/
def Takes (p : Parser α) (ts : List Token) : Prop :=
  ∀ ⦃ls rest⦄, Consumes ls ts rest → Passes p ls fun _ ms ↦ ms = rest

/-- Before a token of `follow` the parser takes exactly the tokens `ts`. -/
def TakesBefore (follow : Token → Prop) (p : Parser α) (ts : List Token) : Prop :=
  ∀ ⦃ls rest t⦄, Consumes ls ts rest → Ahead rest t → follow t → Passes p ls fun _ ms ↦ ms = rest

/-- What a production depends on of the context. -/
structure Within (vararg loop : Bool) (c : Context) : Prop where
  vararg_eq : c.vararg = vararg
  loop_eq : c.loop = loop

namespace Within

variable {v l : Bool} {c : Context}

theorem deeper (h : Within v l c) (levels : Nat) : Within v l { c with levels } := ⟨h.1, h.2⟩

theorem looping (h : Within v l c) : Within v true { c with loop := true } := ⟨h.1, rfl⟩

theorem function (c : Context) (v : Bool) :
    Within v false { c with vararg := v, loop := false } := ⟨rfl, rfl⟩

end Within

end Parser

end LuaEmbed
