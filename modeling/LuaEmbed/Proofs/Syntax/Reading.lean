import LuaEmbed.Chunk.Parser

/-!
# Reading lexemes

What the parsers that read single tokens do, as equations: `Ahead` says which token stands at the
front, `Consumes` that a list of tokens has been read off, and each parser of the first section of
`Chunk.Parser` has one lemma that says when it succeeds and one that says so in the other
direction.  Proofs about the productions use these and do not look into the state of a parser.
-/

namespace LuaEmbed.Parser

variable {α β : Type} {ls ms rest : List Lexeme}

/-! ## Sequencing -/

/-- A sequence succeeds exactly when its parts do, one after the other. -/
theorem bind_ok {p : Parser α} {f : α → Parser β} {r : β × List Lexeme} :
    (p >>= f) ls = .ok r ↔ ∃ a ms, p ls = .ok (a, ms) ∧ f a ms = .ok r := by
  change (p ls).bind (fun x ↦ f x.1 x.2) = .ok r ↔ _
  cases h : p ls with
  | error e => simp [Except.bind]
  | ok x =>
      obtain ⟨a, ms⟩ := x
      simp [Except.bind, and_assoc]

/-- What follows a success runs on what that left. -/
theorem bind_of_ok {p : Parser α} {f : α → Parser β} {a : α} (h : p ls = .ok (a, ms)) :
    (p >>= f) ls = f a ms := by
  change (p ls).bind (fun x ↦ f x.1 x.2) = _
  rw [h]
  rfl

/-- A failure is the failure of the whole. -/
theorem bind_of_error {p : Parser α} {f : α → Parser β} {e : SyntaxError} (h : p ls = .error e) :
    (p >>= f) ls = .error e := by
  change (p ls).bind (fun x ↦ f x.1 x.2) = _
  rw [h]
  rfl

theorem pure_ok {a b : α} :
    (pure a : Parser α) ls = .ok (b, rest) ↔ b = a ∧ rest = ls := by
  change Except.ok (a, ls) = .ok (b, rest) ↔ _
  simp only [Except.ok.injEq, Prod.mk.injEq]
  exact ⟨fun h ↦ ⟨h.1.symm, h.2.symm⟩, fun h ↦ ⟨h.1.symm, h.2.symm⟩⟩

@[simp] theorem pure_apply (a : α) : (pure a : Parser α) ls = .ok (a, ls) := rfl

/-! ## The token at the front -/

/-- The lexeme at the front; behind the last one the input has ended. -/
def front : List Lexeme → Lexeme
  | l :: _ => l
  | [] => ⟨.ok .endOfInput, .first, Lexeme.endText⟩

/-- The token `t` is at the front. -/
def Ahead (ls : List Lexeme) (t : Token) : Prop := (front ls).outcome = .ok t

@[simp] theorem current_apply : current ls = .ok (front ls, ls) := by cases ls <;> rfl

@[simp] theorem line_apply : line ls = .ok ((front ls).position.line, ls) := by
  rw [line, bind_of_ok current_apply]
  rfl

@[simp] theorem advance_apply : advance ls = .ok ((), ls.tail) := rfl

@[simp] theorem complain_apply (what : Complaint) :
    (complain what : Parser α) ls = .error ((front ls).complain what) := by
  rw [complain, bind_of_ok current_apply]
  rfl

theorem not_ok_of_complain {what : Complaint} {r : α × List Lexeme}
    (h : (complain what : Parser α) ls = .ok r) : False := by
  rw [complain_apply] at h
  exact nomatch h

theorem Ahead.unique {t u : Token} (h : Ahead ls t) (h' : Ahead ls u) : t = u :=
  Except.ok.inj (h.symm.trans h')

theorem peek_of_ahead {t : Token} (h : Ahead ls t) : peek ls = .ok (t, ls) := by
  rw [peek, bind_of_ok current_apply, show (front ls).outcome = .ok t from h]
  rfl

theorem peek_of_fault {fault : LexicalFault} (h : (front ls).outcome = .error fault) :
    peek ls = .error ⟨(front ls).position.line, .lexical fault⟩ := by
  rw [peek, bind_of_ok current_apply, h]
  rfl

theorem peek_ok {t : Token} : peek ls = .ok (t, rest) ↔ Ahead ls t ∧ rest = ls := by
  constructor
  · intro h
    cases ho : (front ls).outcome with
    | error fault =>
        rw [peek_of_fault ho] at h
        exact nomatch h
    | ok u =>
        rw [peek_of_ahead ho] at h
        obtain ⟨rfl, rfl⟩ := Prod.mk.inj (Except.ok.inj h)
        exact ⟨ho, rfl⟩
  · rintro ⟨h, rfl⟩
    exact peek_of_ahead h

/-- Looking at the token at the front, and going on with it. -/
theorem peek_bind_ok {f : Token → Parser β} {r : β × List Lexeme} :
    (peek >>= f) ls = .ok r ↔ ∃ t, Ahead ls t ∧ f t ls = .ok r := by
  simp only [bind_ok, peek_ok]
  constructor
  · rintro ⟨t, _, ⟨h, rfl⟩, hf⟩
    exact ⟨t, h, hf⟩
  · rintro ⟨t, h, hf⟩
    exact ⟨t, _, ⟨h, rfl⟩, hf⟩

/-! ## Reading tokens off -/

/-- Reading the tokens `ts` off the front of the first list of lexemes leaves the second. -/
inductive Consumes : List Lexeme → List Token → List Lexeme → Prop where
  | refl (ls : List Lexeme) : Consumes ls [] ls
  | cons {l : Lexeme} {t : Token} {ls ts rest} :
      l.outcome = .ok t → Consumes ls ts rest → Consumes (l :: ls) (t :: ts) rest

namespace Consumes

variable {t : Token} {ts us : List Token}

theorem trans (h : Consumes ls ts ms) (h' : Consumes ms us rest) : Consumes ls (ts ++ us) rest := by
  induction h with
  | refl _ => exact h'
  | cons hl _ ih => exact .cons hl (ih h')

theorem cons_iff :
    Consumes ls (t :: ts) rest ↔ ∃ ms, Consumes ls [t] ms ∧ Consumes ms ts rest := by
  constructor
  · intro h
    cases h with
    | cons hl h => exact ⟨_, .cons hl (.refl _), h⟩
  · rintro ⟨ms, h, h'⟩
    exact h.trans h'

theorem append_iff :
    Consumes ls (ts ++ us) rest ↔ ∃ ms, Consumes ls ts ms ∧ Consumes ms us rest := by
  constructor
  · intro h
    induction ts generalizing ls with
    | nil => exact ⟨ls, .refl _, h⟩
    | cons t ts ih =>
        cases h with
        | cons hl h =>
            obtain ⟨ms, h₁, h₂⟩ := ih h
            exact ⟨ms, .cons hl h₁, h₂⟩
  · rintro ⟨ms, h, h'⟩
    exact h.trans h'

theorem nil_iff : Consumes ls [] rest ↔ rest = ls := by
  constructor
  · intro h
    cases h
    rfl
  · rintro rfl
    exact .refl _

theorem ahead (h : Consumes ls (t :: ts) rest) : Ahead ls t := by
  cases h with
  | cons hl _ => exact hl

theorem tail_eq (h : Consumes ls [t] rest) : rest = ls.tail := by
  cases h with
  | cons _ h => exact nil_iff.1 h

theorem length_eq (h : Consumes ls ts rest) : ls.length = ts.length + rest.length := by
  induction h with
  | refl _ => simp
  | cons _ _ ih => simp only [List.length_cons, ih]; omega

end Consumes

/-- Dropping the lexeme at the front reads its token, unless that is the end. -/
theorem Ahead.consumes {t : Token} (h : Ahead ls t) (ht : t ≠ .endOfInput) :
    Consumes ls [t] ls.tail := by
  cases ls with
  | nil => exact absurd (Except.ok.inj h).symm ht
  | cons l ls => exact .cons h (.refl _)

/-! ## Terminals and names -/

theorem isTerminal_iff {t : Terminal} {u : Token} : u.isTerminal t = true ↔ u = .terminal t := by
  cases u <;> simp [Token.isTerminal]

theorem check_of_ahead {t : Terminal} {u : Token} (h : Ahead ls u) :
    check t ls = .ok (u.isTerminal t, ls) := by
  rw [check, bind_of_ok (peek_of_ahead h)]
  rfl

theorem check_bind_ok {t : Terminal} {f : Bool → Parser β} {r : β × List Lexeme} :
    (check t >>= f) ls = .ok r ↔ ∃ u, Ahead ls u ∧ f (u.isTerminal t) ls = .ok r := by
  simp only [check, bind_assoc, peek_bind_ok, pure_bind]

theorem accept_of_consumes {t : Terminal} (h : Consumes ls [.terminal t] rest) :
    accept t ls = .ok (true, rest) := by
  rw [accept, bind_of_ok (check_of_ahead h.ahead), h.tail_eq]
  simp only [isTerminal_iff.2 rfl, if_true]
  rw [bind_of_ok advance_apply]
  rfl

theorem accept_of_ne {t : Terminal} {u : Token} (h : Ahead ls u) (hu : u ≠ .terminal t) :
    accept t ls = .ok (false, ls) := by
  rw [accept, bind_of_ok (check_of_ahead h)]
  have : u.isTerminal t = false := by rw [← Bool.not_eq_true, isTerminal_iff]; exact hu
  simp only [this]
  rfl

/-- An optional terminal has been read, or another token is at the front. -/
theorem accept_bind_ok {t : Terminal} {f : Bool → Parser β} {r : β × List Lexeme} :
    (accept t >>= f) ls = .ok r ↔
      (∃ ms, Consumes ls [.terminal t] ms ∧ f true ms = .ok r) ∨
      (∃ u, Ahead ls u ∧ u ≠ .terminal t ∧ f false ls = .ok r) := by
  constructor
  · intro h
    rw [accept, bind_assoc, check_bind_ok] at h
    obtain ⟨u, hu, h⟩ := h
    by_cases ht : u = .terminal t
    · subst ht
      have hc := hu.consumes (fun h ↦ nomatch h)
      refine .inl ⟨_, hc, ?_⟩
      simp only [isTerminal_iff.2 rfl, if_true, bind_assoc, pure_bind] at h
      rwa [bind_of_ok advance_apply] at h
    · have hf : u.isTerminal t = false := by rw [← Bool.not_eq_true, isTerminal_iff]; exact ht
      simp only [hf, Bool.false_eq_true, if_false, pure_bind] at h
      exact .inr ⟨u, hu, ht, h⟩
  · rintro (⟨ms, hc, h⟩ | ⟨u, hu, ht, h⟩)
    · rw [bind_of_ok (accept_of_consumes hc)]
      exact h
    · rw [bind_of_ok (accept_of_ne hu ht)]
      exact h

theorem expect_of_consumes {t : Terminal} (h : Consumes ls [.terminal t] rest) :
    expect t ls = .ok ((), rest) := by
  rw [expect, bind_of_ok (accept_of_consumes h)]
  rfl

theorem expect_bind_ok {t : Terminal} {f : Unit → Parser β} {r : β × List Lexeme} :
    (expect t >>= f) ls = .ok r ↔ ∃ ms, Consumes ls [.terminal t] ms ∧ f () ms = .ok r := by
  rw [expect, bind_assoc, accept_bind_ok]
  simp only [Bool.false_eq_true, if_false, if_true, pure_bind]
  constructor
  · rintro (h | ⟨u, _, _, h⟩)
    · exact h
    · rw [bind_of_error (complain_apply _)] at h
      exact nomatch h
  · exact .inl

theorem expectMatch_of_consumes {t opener : Terminal} {opened : Nat}
    (h : Consumes ls [.terminal t] rest) : expectMatch t opener opened ls = .ok ((), rest) := by
  rw [expectMatch, bind_of_ok (accept_of_consumes h)]
  rfl

theorem expectMatch_bind_ok {t opener : Terminal} {opened : Nat} {f : Unit → Parser β}
    {r : β × List Lexeme} :
    (expectMatch t opener opened >>= f) ls = .ok r ↔
      ∃ ms, Consumes ls [.terminal t] ms ∧ f () ms = .ok r := by
  rw [expectMatch, bind_assoc, accept_bind_ok]
  simp only [Bool.false_eq_true, if_false, if_true, pure_bind, bind_assoc]
  constructor
  · rintro (h | ⟨u, _, _, h⟩)
    · exact h
    · rw [bind_of_ok line_apply] at h
      split at h <;> (rw [bind_of_error (complain_apply _)] at h; exact nomatch h)
  · exact .inl

theorem name_of_consumes {s : String} (h : Consumes ls [.name s] rest) :
    name ls = .ok (s, rest) := by
  rw [name, bind_of_ok (peek_of_ahead h.ahead), h.tail_eq]
  rfl

theorem name_bind_ok {f : String → Parser β} {r : β × List Lexeme} :
    (name >>= f) ls = .ok r ↔ ∃ s ms, Consumes ls [.name s] ms ∧ f s ms = .ok r := by
  constructor
  · intro h
    rw [name, bind_assoc, peek_bind_ok] at h
    obtain ⟨t, ht, h⟩ := h
    split at h
    · next s =>
      rw [bind_assoc, bind_of_ok advance_apply, pure_bind] at h
      exact ⟨s, _, ht.consumes (fun h ↦ nomatch h), h⟩
    · rw [bind_of_error (complain_apply _)] at h
      exact nomatch h
  · rintro ⟨s, ms, hc, h⟩
    rw [bind_of_ok (name_of_consumes hc)]
    exact h

/-! ## Levels -/

/-- Reading something one level deeper succeeds when a level is left. -/
theorem nested_ok {c : Context} {p : Context → Parser α} {r : α × List Lexeme} :
    nested c p ls = .ok r ↔ ∃ n, c.levels = n + 1 ∧ p { c with levels := n } ls = .ok r := by
  unfold nested
  cases h : c.levels with
  | zero => simp
  | succ n => simp

end LuaEmbed.Parser
