import LuaEmbed.Proofs.Syntax.Completeness.Productions

/-!
# What is derivable passes

The lemmas about blocks, statements and function bodies, and the induction over derivations that
closes over all productions: the parser takes whatever the greedy grammar derives, or it complains
about too many syntax levels.
-/

namespace LuaEmbed.Parser

open Grammar

namespace Complete

variable {v l e e₁ e₂ e₃ : Bool} {ts us ws bs : List Token} {x : String}

/-! ## Blocks -/

theorem block (h : Complete .chunk v l ts) (n : Nat) {c : Context} (hw : Within v l c) :
    TakesBefore (·.endsBlock = true) (Parser.block n c) ts := by
  intro ls rest t hts ht hend
  cases n with
  | zero => exact .tooManyLevels
  | succ n =>
      rw [Parser.block]
      exact .nested fun levels ↦ h.2 n _ [] (hw.deeper levels) hts ht hend

theorem loopBlock (h : Complete .chunk v true ts) (n : Nat) {c : Context} (hw : Within v l c) :
    TakesBefore (·.endsBlock = true) (Parser.loopBlock n c) ts := by
  intro ls rest t hts ht hend
  cases n with
  | zero => exact .tooManyLevels
  | succ n =>
      rw [Parser.loopBlock]
      exact h.block n hw.looping hts ht hend

theorem chunkEmpty : Complete .chunk v l [] := by
  refine ⟨.inl rfl, fun n c before hw ls rest t hc ht hend ↦ ?_⟩
  obtain rfl := Consumes.nil_iff.1 hc
  cases n with
  | zero => exact .tooManyLevels
  | succ n =>
      rw [statements]
      refine .peek ht ?_
      rw [if_pos hend]
      exact .pure rfl

theorem chunkLast (h : Complete .lastStat v l ts) : Complete .chunk v l ts := by
  refine ⟨.inr (h.1.mono fun t ht ↦ ?_), fun n c before hw ↦ (h.2 n c before hw).1⟩
  rw [Token.startsChunk, ht, Bool.or_true]

theorem chunkLastSemicolon (h : Complete .lastStat v l ts) :
    Complete .chunk v l (ts ++ [.terminal .semicolon]) := by
  refine ⟨.inr (h.1.mono fun t ht ↦ ?_).append, fun n c before hw ↦ (h.2 n c before hw).2⟩
  rw [Token.startsChunk, ht, Bool.or_true]

/-- A statement is read, and then an optional `;` and the statements after it. -/
theorem stat_then (h : Complete (.stat e) v l ts) {n : Nat} {c : Context} {before : List Stat}
    (hw : Within v l c) {ls ms rest : List Lexeme} {t : Token} (hts : Consumes ls ts ms)
    (ht : Ahead ms t) (hstop : StatStops e t)
    (hmore : ∀ s, Passes (do
      let _ ← accept .semicolon
      statements n c (s :: before)) ms fun _ ms' ↦ ms' = rest) :
    Passes (statements (n + 1) c before) ls fun _ ms' ↦ ms' = rest := by
  obtain ⟨u, hu, hstart⟩ := h.1.ahead hts
  have statement := (h.2 n c hw hts ht hstop).next hmore
  rw [statements]
  refine .peek hu ?_
  unfold Token.startsStat at hstart
  split at hstart <;> first
    | exact statement
    | cases hstart

theorem chunkStat (h : Complete (.stat e) v l ts) (h' : Complete .chunk v l us)
    (hparen : e = true → ¬ StartsWithParen us) : Complete .chunk v l (ts ++ us) := by
  refine ⟨.inr (h.1.mono fun t ht ↦ ?_).append, fun n c before hw ls rest t hc ht hend ↦ ?_⟩
  · rw [Token.startsChunk, ht, Bool.true_or]
  obtain ⟨ms, hts, hus⟩ := Consumes.append_iff.1 hc
  obtain ⟨u, hu, hstop, hne⟩ :
      ∃ u, Ahead ms u ∧ StatStops e u ∧ u ≠ .terminal .semicolon := by
    rcases h'.1 with rfl | ⟨u, us, rfl, hstart⟩
    · obtain rfl := Consumes.nil_iff.1 hus
      have hnot : ∀ {u}, u.endsBlock = false → t ≠ u := Token.ne_of_class hend
      exact ⟨t, ht, ⟨Token.followsStat_of_endsBlock hend, fun _ ↦ hnot rfl⟩, hnot rfl⟩
    · refine ⟨u, hus.ahead, ⟨Token.followsStat_of_startsChunk hstart, fun he hu ↦ ?_⟩, ?_⟩
      · subst hu
        exact hparen he trivial
      · exact Token.ne_of_class hstart rfl
  cases n with
  | zero => exact .tooManyLevels
  | succ n =>
      refine h.stat_then hw hts hu hstop fun s ↦ ?_
      exact .accept_not hu hne (h'.2 n c (s :: before) hw hus ht hend)

theorem chunkStatSemicolon (h : Complete (.stat e) v l ts) (h' : Complete .chunk v l us) :
    Complete .chunk v l (ts ++ .terminal .semicolon :: us) := by
  refine ⟨.inr (h.1.mono fun t ht ↦ ?_).append, fun n c before hw ls rest t hc ht hend ↦ ?_⟩
  · rw [Token.startsChunk, ht, Bool.true_or]
  obtain ⟨ms, hts, hmore⟩ := Consumes.append_iff.1 hc
  obtain ⟨ms', hsemi, hus⟩ := Consumes.cons_iff.1 hmore
  cases n with
  | zero => exact .tooManyLevels
  | succ n =>
      refine h.stat_then hw hts hsemi.ahead ⟨rfl, fun _ h ↦ nomatch h⟩ fun s ↦ ?_
      exact .accept hsemi (h'.2 n c (s :: before) hw hus ht hend)

/-! ## Last statements -/

/-- The last statement of a block may have a `;` after it. -/
theorem last_intro (hstart : StartsWith Token.startsLastStat ts)
    (h : ∀ ⦃n c before ls ms rest t⦄, Within v l c → Consumes ls ts ms →
      (rest = ms ∨ Consumes ms [.terminal .semicolon] rest) → Ahead rest t → t.endsBlock = true →
      Passes (statements (n + 1) c before) ls fun _ ms' ↦ ms' = rest) :
    Complete .lastStat v l ts := by
  refine ⟨hstart, fun n c before hw ↦ ?_⟩
  cases n with
  | zero => exact ⟨fun _ _ _ _ _ _ ↦ .tooManyLevels, fun _ _ _ _ _ _ ↦ .tooManyLevels⟩
  | succ n =>
      refine ⟨fun ls rest t hts ht hend ↦ h hw hts (.inl rfl) ht hend, ?_⟩
      intro ls rest t hc ht hend
      obtain ⟨ms, hts, hsemi⟩ := Consumes.append_iff.1 hc
      exact h hw hts (.inr hsemi) ht hend

/-- The optional `;` after the last statement is read off. -/
theorem semicolon {α : Type} {f : Parser α} {ms rest : List Lexeme} {t : Token}
    {Q : α → List Lexeme → Prop} (h : rest = ms ∨ Consumes ms [.terminal .semicolon] rest)
    (ht : Ahead rest t) (hend : t.endsBlock = true) (hf : Passes f rest Q) :
    Passes (do
      let _ ← accept .semicolon
      f) ms Q := by
  rcases h with rfl | h
  · exact .accept_not ht (Token.ne_of_class hend rfl) hf
  · exact .accept h hf

/-- Where a last statement ends is the end of its block or a `;`. -/
theorem last_ahead {ms rest : List Lexeme} {t : Token}
    (h : rest = ms ∨ Consumes ms [.terminal .semicolon] rest) (ht : Ahead rest t)
    (hend : t.endsBlock = true) :
    ∃ u, Ahead ms u ∧ u.endsValues = true := by
  rcases h with rfl | h
  · exact ⟨t, ht, by rw [Token.endsValues, hend, Bool.true_or]⟩
  · exact ⟨_, h.ahead, rfl⟩

/-- A `return` statement with no token before its values but `return`. -/
theorem return_then {n : Nat} {c : Context} {before : List Stat} {ls ms rest : List Lexeme}
    {t : Token} (hreturn : Consumes ls [.terminal .return_] ms) (ht : Ahead ms t)
    (h : ∀ n (at_ : Nat), Passes (do
      let values ← if t.endsValues then pure [] else Parser.exprList n c
      let _ ← accept .semicolon
      return Stat.return_ at_ values) ms fun _ ms' ↦ ms' = rest) :
    Passes (statements (n + 1) c before) ls fun _ ms' ↦ ms' = rest := by
  rw [statements]
  have hstat : Passes (returnStat n c) ls fun _ ms' ↦ ms' = rest := by
    cases n with
    | zero => exact .tooManyLevels
    | succ n =>
        rw [returnStat]
        exact .line fun at_ ↦ .advance hreturn (.peek ht (h n at_))
  exact .peek hreturn.ahead (hstat.next fun s ↦ .pure rfl)

theorem returnNothing : Complete .lastStat v l [.terminal .return_] := by
  refine last_intro (.cons rfl) fun n c before ls ms rest t hw hc hms ht hend ↦ ?_
  obtain ⟨u, hu, hlast⟩ := last_ahead hms ht hend
  refine return_then hc hu fun n at_ ↦ ?_
  rw [if_pos hlast, pure_bind]
  exact semicolon hms ht hend (.pure rfl)

theorem returnValues (h : Complete (.expList e) v l ts) :
    Complete .lastStat v l (.terminal .return_ :: ts) := by
  refine last_intro (.cons rfl) fun n c before ls ms rest t hw hc hms ht hend ↦ ?_
  obtain ⟨ms', hreturn, hts⟩ := Consumes.cons_iff.1 hc
  obtain ⟨u, hu, hlast⟩ := last_ahead hms ht hend
  obtain ⟨w, hw', hstart⟩ := h.1.ahead hts
  have hstop : StatStops e u := .of_endsValues hlast
  refine return_then hreturn hw' fun n at_ ↦ ?_
  rw [if_neg (Bool.eq_false_iff.1 (Token.endsValues_of_startsExp hstart))]
  refine (h.exprList n hw hts hu ⟨hstop.stops, hstop.ne rfl⟩).next fun values ↦ ?_
  exact semicolon hms ht hend (.pure rfl)

theorem breakLoop : Complete .lastStat v true [.terminal .break_] := by
  refine last_intro (.cons rfl) fun n c before ls ms rest t hw hc hms ht hend ↦ ?_
  rw [statements]
  refine .peek hc.ahead ?_
  simp only [Token.endsBlock, Bool.false_eq_true, if_false, hw.loop_eq, Bool.not_true]
  exact .line fun at_ ↦ .advance hc (semicolon hms ht hend (.pure rfl))

/-! ## Statements -/

/-- A statement is read by a call of one more than any bound. -/
theorem stat_intro (hstart : StartsWith Token.startsStat ts)
    (h : ∀ ⦃n c ls rest t⦄, Within v l c → Consumes ls ts rest → Ahead rest t → StatStops e t →
      Passes (statement (n + 1) c) ls fun _ ms ↦ ms = rest) : Complete (.stat e) v l ts := by
  refine ⟨hstart, fun n c hw ls rest t hts ht hstop ↦ ?_⟩
  cases n with
  | zero => exact .tooManyLevels
  | succ n => exact h hw hts ht hstop

theorem doBlock (h : Complete .chunk v l ts) :
    Complete (.stat false) v l (.terminal .do_ :: (ts ++ [.terminal .end_])) := by
  refine stat_intro (.cons rfl) fun n c ls rest t hw hc _ _ ↦ ?_
  obtain ⟨ms₁, hdo, hc₁⟩ := Consumes.cons_iff.1 hc
  obtain ⟨ms₂, hts, hend⟩ := Consumes.append_iff.1 hc₁
  rw [statement]
  refine .line fun at_ ↦ .peek hc.ahead (.advance hdo ?_)
  exact (h.block n hw hts hend.ahead rfl).next fun body ↦ .expectMatch hend (.pure rfl)

/-- The block of a loop and the `end` after it. -/
theorem loop_end (h : Complete .chunk v true ts) {n : Nat} {c : Context} (hw : Within v l c)
    {opener : Terminal} {at_ : Nat} {f : Block → Stat} {ls rest : List Lexeme}
    (hc : Consumes ls (.terminal .do_ :: (ts ++ [.terminal .end_])) rest) :
    Passes (do
      expect .do_
      let body ← Parser.loopBlock n c
      expectMatch .end_ opener at_
      return f body) ls fun _ ms ↦ ms = rest := by
  obtain ⟨ms₁, hdo, hc₁⟩ := Consumes.cons_iff.1 hc
  obtain ⟨ms₂, hts, hend⟩ := Consumes.append_iff.1 hc₁
  refine .expect hdo ?_
  exact (h.loopBlock n hw hts hend.ahead rfl).next fun body ↦ .expectMatch hend (.pure rfl)

theorem whileLoop (h : Complete (.exp e) v l ts) (h' : Complete .chunk v true us) :
    Complete (.stat false) v l
      (.terminal .while_ :: (ts ++ .terminal .do_ :: (us ++ [.terminal .end_]))) := by
  refine stat_intro (.cons rfl) fun n c ls rest t hw hc _ _ ↦ ?_
  obtain ⟨ms₁, hwhile, hc₁⟩ := Consumes.cons_iff.1 hc
  obtain ⟨ms₂, hts, hloop⟩ := Consumes.append_iff.1 hc₁
  rw [statement]
  refine .line fun at_ ↦ .peek hc.ahead (.advance hwhile ?_)
  refine (Chain.expr h n hw hts hloop.ahead (.of_terminal rfl rfl)).next fun condition ↦ ?_
  exact h'.loop_end hw hloop

theorem repeatLoop (h : Complete .chunk v true ts) (h' : Complete (.exp e) v l us) :
    Complete (.stat e) v l (.terminal .repeat_ :: (ts ++ .terminal .until_ :: us)) := by
  refine stat_intro (.cons rfl) fun n c ls rest t hw hc ht hstop ↦ ?_
  obtain ⟨ms₁, hrepeat, hc₁⟩ := Consumes.cons_iff.1 hc
  obtain ⟨ms₂, hts, hc₂⟩ := Consumes.append_iff.1 hc₁
  obtain ⟨ms₃, huntil, hus⟩ := Consumes.cons_iff.1 hc₂
  rw [statement]
  refine .line fun at_ ↦ .peek hc.ahead (.advance hrepeat ?_)
  refine (h.loopBlock n hw hts huntil.ahead rfl).next fun body ↦ .expectMatch huntil ?_
  exact (Chain.expr h' n hw hus ht hstop.stops).next fun condition ↦ .pure rfl

theorem ifStat (h : Complete (.exp e) v l ts) (h' : Complete .chunk v l us)
    (h'' : Complete .ifRest v l ws) :
    Complete (.stat false) v l
      (.terminal .if_ :: (ts ++ .terminal .then_ :: (us ++ ws))) := by
  refine stat_intro (.cons rfl) fun n c ls rest t hw hc _ _ ↦ ?_
  obtain ⟨ms₁, hif, hc₁⟩ := Consumes.cons_iff.1 hc
  obtain ⟨ms₂, hts, hc₂⟩ := Consumes.append_iff.1 hc₁
  obtain ⟨ms₃, hthen, hc₃⟩ := Consumes.cons_iff.1 hc₂
  obtain ⟨ms₄, hus, hws⟩ := Consumes.append_iff.1 hc₃
  obtain ⟨u, hu, hend⟩ := h''.1.ahead hws
  rw [statement]
  refine .line fun at_ ↦ .peek hc.ahead (.advance hif ?_)
  refine (Chain.expr h n hw hts hthen.ahead (.of_terminal rfl rfl)).next fun condition ↦ ?_
  refine .expect hthen ((h'.block n hw hus hu hend).next fun first ↦ ?_)
  exact h''.2 n c at_ [.mk condition first] hw hws

theorem ifEnd : Complete .ifRest v l [.terminal .end_] := by
  refine ⟨.cons rfl, fun n c at_ before hw ls rest hc ↦ ?_⟩
  have hne : ∀ {t : Terminal}, t ≠ .end_ → Token.terminal .end_ ≠ .terminal t :=
    fun h h' ↦ h (Token.terminal.inj h').symm
  cases n with
  | zero => exact .tooManyLevels
  | succ n =>
      rw [ifRest]
      refine .accept_not hc.ahead (hne (by decide)) (.accept_not hc.ahead (hne (by decide)) ?_)
      exact .expectMatch hc (.pure rfl)

theorem ifElse (h : Complete .chunk v l ts) :
    Complete .ifRest v l (.terminal .else_ :: (ts ++ [.terminal .end_])) := by
  refine ⟨.cons rfl, fun n c at_ before hw ls rest hc ↦ ?_⟩
  obtain ⟨ms₁, helse, hc₁⟩ := Consumes.cons_iff.1 hc
  obtain ⟨ms₂, hts, hend⟩ := Consumes.append_iff.1 hc₁
  cases n with
  | zero => exact .tooManyLevels
  | succ n =>
      rw [ifRest]
      refine .accept_not hc.ahead (fun h ↦ nomatch h) (.accept helse ?_)
      exact (h.block n hw hts hend.ahead rfl).next fun otherwise ↦ .expectMatch hend (.pure rfl)

theorem ifElseif (h : Complete (.exp e) v l ts) (h' : Complete .chunk v l us)
    (h'' : Complete .ifRest v l ws) :
    Complete .ifRest v l (.terminal .elseif :: (ts ++ .terminal .then_ :: (us ++ ws))) := by
  refine ⟨.cons rfl, fun n c at_ before hw ls rest hc ↦ ?_⟩
  obtain ⟨ms₁, helseif, hc₁⟩ := Consumes.cons_iff.1 hc
  obtain ⟨ms₂, hts, hc₂⟩ := Consumes.append_iff.1 hc₁
  obtain ⟨ms₃, hthen, hc₃⟩ := Consumes.cons_iff.1 hc₂
  obtain ⟨ms₄, hus, hws⟩ := Consumes.append_iff.1 hc₃
  obtain ⟨u, hu, hend⟩ := h''.1.ahead hws
  cases n with
  | zero => exact .tooManyLevels
  | succ n =>
      rw [ifRest]
      refine .accept helseif ?_
      refine (Chain.expr h n hw hts hthen.ahead (.of_terminal rfl rfl)).next fun condition ↦ ?_
      refine .expect hthen ((h'.block n hw hus hu hend).next fun body ↦ ?_)
      exact h''.2 n c at_ _ hw hws

/-! ### Loops over numbers and iterators -/

/-- A `for` statement is left to its own function. -/
theorem for_intro (h : ∀ ⦃n c at_ ls rest⦄, Within v l c →
      Consumes ls (.terminal .for_ :: ts) rest →
      Passes (forStat (n + 1) c at_) ls fun _ ms ↦ ms = rest) :
    Complete (.stat false) v l (.terminal .for_ :: ts) := by
  refine stat_intro (.cons rfl) fun n c ls rest t hw hc _ _ ↦ ?_
  rw [statement]
  refine .line fun at_ ↦ .peek hc.ahead ?_
  cases n with
  | zero => exact .tooManyLevels
  | succ n => exact h hw hc

theorem countLoop (h : Complete (.exp e₁) v l ts) (h' : Complete (.exp e₂) v l us)
    (hbody : Complete .chunk v true ws) :
    Complete (.stat false) v l
      (.terminal .for_ :: .name x :: .terminal .assign ::
        (ts ++ .terminal .comma :: (us ++ .terminal .do_ :: (ws ++ [.terminal .end_])))) := by
  refine for_intro fun n c at_ ls rest hw hc ↦ ?_
  obtain ⟨ms₁, hfor, hc₁⟩ := Consumes.cons_iff.1 hc
  obtain ⟨ms₂, hx, hc₂⟩ := Consumes.cons_iff.1 hc₁
  obtain ⟨ms₃, heq, hc₃⟩ := Consumes.cons_iff.1 hc₂
  obtain ⟨ms₄, hts, hc₄⟩ := Consumes.append_iff.1 hc₃
  obtain ⟨ms₅, hcomma, hc₅⟩ := Consumes.cons_iff.1 hc₄
  obtain ⟨ms₆, hus, hloop⟩ := Consumes.append_iff.1 hc₅
  rw [forStat]
  refine .advance hfor (.name hx (.accept heq ?_))
  refine (Chain.expr h n hw hts hcomma.ahead (.of_terminal rfl rfl)).next fun start ↦ ?_
  refine .expect hcomma ?_
  refine (Chain.expr h' n hw hus hloop.ahead (.of_terminal rfl rfl)).next fun limit ↦ ?_
  exact .accept_not hloop.ahead (fun h ↦ nomatch h) (hbody.loop_end hw hloop)

theorem countLoopStep (h : Complete (.exp e₁) v l ts) (h' : Complete (.exp e₂) v l us)
    (h'' : Complete (.exp e₃) v l ws) (hbody : Complete .chunk v true bs) :
    Complete (.stat false) v l
      (.terminal .for_ :: .name x :: .terminal .assign ::
        (ts ++ .terminal .comma :: (us ++ .terminal .comma ::
          (ws ++ .terminal .do_ :: (bs ++ [.terminal .end_]))))) := by
  refine for_intro fun n c at_ ls rest hw hc ↦ ?_
  obtain ⟨ms₁, hfor, hc₁⟩ := Consumes.cons_iff.1 hc
  obtain ⟨ms₂, hx, hc₂⟩ := Consumes.cons_iff.1 hc₁
  obtain ⟨ms₃, heq, hc₃⟩ := Consumes.cons_iff.1 hc₂
  obtain ⟨ms₄, hts, hc₄⟩ := Consumes.append_iff.1 hc₃
  obtain ⟨ms₅, hcomma, hc₅⟩ := Consumes.cons_iff.1 hc₄
  obtain ⟨ms₆, hus, hc₆⟩ := Consumes.append_iff.1 hc₅
  obtain ⟨ms₇, hcomma', hc₇⟩ := Consumes.cons_iff.1 hc₆
  obtain ⟨ms₈, hws, hloop⟩ := Consumes.append_iff.1 hc₇
  rw [forStat]
  refine .advance hfor (.name hx (.accept heq ?_))
  refine (Chain.expr h n hw hts hcomma.ahead (.of_terminal rfl rfl)).next fun start ↦ ?_
  refine .expect hcomma ?_
  refine (Chain.expr h' n hw hus hc₆.ahead (.of_terminal rfl rfl)).next fun limit ↦ ?_
  refine .accept hcomma' ?_
  simp only [if_true, map_eq_pure_bind, bind_assoc, pure_bind]
  refine (Chain.expr h'' n hw hws hloop.ahead (.of_terminal rfl rfl)).next fun step ↦ ?_
  exact hbody.loop_end hw hloop

/-- Behind the first name of a list is a comma or what follows the list. -/
theorem names_ahead (hstart : ts = [] ∨ StartsWith (Token.isTerminal .comma) ts)
    {ls rest : List Lexeme} {t : Token} (hts : Consumes ls ts rest) (ht : Ahead rest t)
    (hne : t ≠ .terminal .assign) : ∃ u, Ahead ls u ∧ u ≠ .terminal .assign := by
  rcases hstart with rfl | hstart
  · obtain rfl := Consumes.nil_iff.1 hts
    exact ⟨t, ht, hne⟩
  · obtain ⟨u, hu, hcomma⟩ := hstart.ahead hts
    obtain rfl := isTerminal_iff.1 hcomma
    exact ⟨_, hu, fun h ↦ nomatch h⟩

theorem iteratorLoop (h : Complete .nameList v l ts) (h' : Complete (.expList e) v l us)
    (hbody : Complete .chunk v true ws) :
    Complete (.stat false) v l
      (.terminal .for_ ::
        (ts ++ .terminal .in_ :: (us ++ .terminal .do_ :: (ws ++ [.terminal .end_])))) := by
  obtain ⟨x, ns, rfl, hstart, hnames, _⟩ := h
  refine for_intro fun n c at_ ls rest hw hc ↦ ?_
  obtain ⟨ms₁, hfor, hc₁⟩ := Consumes.cons_iff.1 hc
  obtain ⟨ms₂, hx, hc₂⟩ := Consumes.cons_iff.1 hc₁
  obtain ⟨ms₃, hns, hc₃⟩ := Consumes.append_iff.1 hc₂
  obtain ⟨ms₄, hin, hc₄⟩ := Consumes.cons_iff.1 hc₃
  obtain ⟨ms₅, hus, hloop⟩ := Consumes.append_iff.1 hc₄
  obtain ⟨u, hu, hne⟩ := names_ahead hstart hns hin.ahead (fun h ↦ nomatch h)
  rw [forStat]
  refine .advance hfor (.name hx (.accept_not hu hne ?_))
  refine (hnames n [x] hns hin.ahead (fun h ↦ nomatch h)).next fun names ↦ ?_
  refine .accept hin ?_
  have hstop : Stops e (.terminal .do_) ∧ Token.terminal .do_ ≠ .terminal .comma :=
    ⟨.of_terminal rfl rfl, fun h ↦ nomatch h⟩
  refine (h'.exprList n hw hus hloop.ahead hstop).next fun values ↦ ?_
  exact hbody.loop_end hw hloop

/-! ### Functions and variables -/

theorem funcBodyPlain (h : Complete .chunk false false ts) :
    Complete .funcBody v l
      (.terminal .leftParen :: .terminal .rightParen :: (ts ++ [.terminal .end_])) := by
  refine ⟨.cons rfl, fun n c isMethod at_ ls rest hc ↦ ?_⟩
  obtain ⟨ms₁, hopen, hc₁⟩ := Consumes.cons_iff.1 hc
  obtain ⟨ms₂, hclose, hc₂⟩ := Consumes.cons_iff.1 hc₁
  obtain ⟨ms₃, hts, hend⟩ := Consumes.append_iff.1 hc₂
  cases n with
  | zero => exact .tooManyLevels
  | succ n =>
      rw [funcBody]
      refine .expect hopen (.check hclose.ahead ?_)
      simp only [isTerminal_iff.2 rfl, if_true, pure_bind]
      refine .expect hclose ?_
      refine (h.block n (.function c false) hts hend.ahead rfl).next fun body ↦ ?_
      exact .expectMatch hend (.pure rfl)

theorem funcBodyParams {isVararg : Bool} (h : Complete (.parList isVararg) v l ts)
    (h' : Complete .chunk isVararg false us) :
    Complete .funcBody v l
      (.terminal .leftParen :: (ts ++ .terminal .rightParen :: (us ++ [.terminal .end_]))) := by
  refine ⟨.cons rfl, fun n c isMethod at_ ls rest hc ↦ ?_⟩
  obtain ⟨ms₁, hopen, hc₁⟩ := Consumes.cons_iff.1 hc
  obtain ⟨ms₂, hts, hc₂⟩ := Consumes.append_iff.1 hc₁
  obtain ⟨ms₃, hclose, hc₃⟩ := Consumes.cons_iff.1 hc₂
  obtain ⟨ms₄, hus, hend⟩ := Consumes.append_iff.1 hc₃
  obtain ⟨u, hu, hstart⟩ := h.1.ahead hts
  rw [Bool.not_eq_true'] at hstart
  cases n with
  | zero => exact .tooManyLevels
  | succ n =>
      rw [funcBody]
      refine .expect hopen (.check hu ?_)
      simp only [hstart, Bool.false_eq_true, if_false]
      refine (h.2 hts hclose.ahead).bind ?_
      rintro ⟨names, _⟩ _ ⟨rfl, rfl⟩
      refine .expect hclose ?_
      refine (h'.block n (.function c _) hus hend.ahead rfl).next fun body ↦ ?_
      exact .expectMatch hend (.pure rfl)

theorem pathName : Complete .path v l [.name x] := by
  refine ⟨x, [], rfl, fun n before ls rest t hc ht hstop ↦ ?_⟩
  obtain rfl := Consumes.nil_iff.1 hc
  cases n with
  | zero => exact .tooManyLevels
  | succ n =>
      rw [namesAfter]
      exact .accept_not ht hstop (.pure rfl)

theorem pathMore (h : Complete .path v l ts) :
    Complete .path v l (.name x :: .terminal .dot :: ts) := by
  obtain ⟨y, us, rfl, hnames⟩ := h
  refine ⟨x, _, rfl, fun n before ls rest t hc ht hstop ↦ ?_⟩
  obtain ⟨ms, hdot, hc⟩ := Consumes.cons_iff.1 hc
  obtain ⟨ms', hy, hus⟩ := Consumes.cons_iff.1 hc
  cases n with
  | zero => exact .tooManyLevels
  | succ n =>
      rw [namesAfter]
      exact .accept hdot (.name hy (hnames n (y :: before) hus ht hstop))

theorem functionStat (h : Complete .path v l ts) (h' : Complete .funcBody v l us) :
    Complete (.stat false) v l (.terminal .function :: (ts ++ us)) := by
  obtain ⟨y, ns, rfl, hnames⟩ := h
  refine stat_intro (.cons rfl) fun n c ls rest t hw hc _ _ ↦ ?_
  obtain ⟨ms₁, hfunction, hc₁⟩ := Consumes.cons_iff.1 hc
  obtain ⟨ms₂, hy, hc₂⟩ := Consumes.cons_iff.1 hc₁
  obtain ⟨ms₃, hns, hus⟩ := Consumes.append_iff.1 hc₂
  obtain ⟨u, hu, hparen⟩ := h'.1.ahead hus
  obtain rfl := isTerminal_iff.1 hparen
  rw [statement]
  refine .line fun at_ ↦ .peek hc.ahead (.advance hfunction (.name hy ?_))
  refine (hnames n [y] hns hu (fun h ↦ nomatch h)).next fun path ↦ ?_
  refine .accept_not hu (fun h ↦ nomatch h) ?_
  exact (h'.2 n c false at_ hus).next fun body ↦ .pure rfl

theorem methodStat (h : Complete .path v l ts) (h' : Complete .funcBody v l us) :
    Complete (.stat false) v l
      (.terminal .function :: (ts ++ .terminal .colon :: .name x :: us)) := by
  obtain ⟨y, ns, rfl, hnames⟩ := h
  refine stat_intro (.cons rfl) fun n c ls rest t hw hc _ _ ↦ ?_
  obtain ⟨ms₁, hfunction, hc₁⟩ := Consumes.cons_iff.1 hc
  obtain ⟨ms₂, hy, hc₂⟩ := Consumes.cons_iff.1 hc₁
  obtain ⟨ms₃, hns, hc₃⟩ := Consumes.append_iff.1 hc₂
  obtain ⟨ms₄, hcolon, hc₄⟩ := Consumes.cons_iff.1 hc₃
  obtain ⟨ms₅, hx, hus⟩ := Consumes.cons_iff.1 hc₄
  rw [statement]
  refine .line fun at_ ↦ .peek hc.ahead (.advance hfunction (.name hy ?_))
  refine (hnames n [y] hns hcolon.ahead (fun h ↦ nomatch h)).next fun path ↦ ?_
  refine .accept hcolon (.name hx ?_)
  exact (h'.2 n c true at_ hus).next fun body ↦ .pure rfl

theorem localFunction (h : Complete .funcBody v l ts) :
    Complete (.stat false) v l (.terminal .local_ :: .terminal .function :: .name x :: ts) := by
  refine stat_intro (.cons rfl) fun n c ls rest t hw hc _ _ ↦ ?_
  obtain ⟨ms₁, hlocal, hc₁⟩ := Consumes.cons_iff.1 hc
  obtain ⟨ms₂, hfunction, hc₂⟩ := Consumes.cons_iff.1 hc₁
  obtain ⟨ms₃, hx, hts⟩ := Consumes.cons_iff.1 hc₂
  rw [statement]
  refine .line fun at_ ↦ .peek hc.ahead (.advance hlocal (.accept hfunction (.name hx ?_)))
  exact (h.2 n c false at_ hts).next fun body ↦ .pure rfl

theorem localNames (h : Complete .nameList v l ts) :
    Complete (.stat false) v l (.terminal .local_ :: ts) := by
  obtain ⟨x, ns, rfl, _, hnames, _⟩ := h
  refine stat_intro (.cons rfl) fun n c ls rest t hw hc ht hstop ↦ ?_
  obtain ⟨ms₁, hlocal, hc₁⟩ := Consumes.cons_iff.1 hc
  obtain ⟨ms₂, hx, hns⟩ := Consumes.cons_iff.1 hc₁
  rw [statement]
  refine .line fun at_ ↦ .peek hc.ahead (.advance hlocal ?_)
  refine .accept_not hx.ahead (fun h ↦ nomatch h) (.name hx ?_)
  refine (hnames n [x] hns ht (hstop.ne rfl)).next fun names ↦ ?_
  exact .accept_not ht (hstop.ne rfl) (.pure rfl)

theorem localAssign (h : Complete .nameList v l ts) (h' : Complete (.expList e) v l us) :
    Complete (.stat e) v l (.terminal .local_ :: (ts ++ .terminal .assign :: us)) := by
  obtain ⟨x, ns, rfl, _, hnames, _⟩ := h
  refine stat_intro (.cons rfl) fun n c ls rest t hw hc ht hstop ↦ ?_
  obtain ⟨ms₁, hlocal, hc₁⟩ := Consumes.cons_iff.1 hc
  obtain ⟨ms₂, hx, hc₂⟩ := Consumes.cons_iff.1 hc₁
  obtain ⟨ms₃, hns, hc₃⟩ := Consumes.append_iff.1 hc₂
  obtain ⟨ms₄, heq, hus⟩ := Consumes.cons_iff.1 hc₃
  rw [statement]
  refine .line fun at_ ↦ .peek hc.ahead (.advance hlocal ?_)
  refine .accept_not hx.ahead (fun h ↦ nomatch h) (.name hx ?_)
  refine (hnames n [x] hns heq.ahead (fun h ↦ nomatch h)).next fun names ↦ .accept heq ?_
  refine (h'.exprList n hw hus ht ⟨hstop.stops, hstop.ne rfl⟩).next fun values ↦ ?_
  exact .pure rfl

/-! ### Assignments and calls -/

/-- A statement that starts with a prefix expression is left to its own function. -/
theorem expr_stat_intro (hstart : StartsWith Token.startsPrefix ts)
    (h : ∀ ⦃n c at_ ls rest t⦄, Within v l c → Consumes ls ts rest → Ahead rest t →
      StatStops e t → Passes (exprStat (n + 1) c at_) ls fun _ ms ↦ ms = rest) :
    Complete (.stat e) v l ts := by
  have starts : ∀ t : Token, t.startsPrefix = true → t.startsStat = true := by
    intro t ht
    unfold Token.startsPrefix at ht
    split at ht <;> first | rfl | cases ht
  refine stat_intro (hstart.mono starts) fun n c ls rest t hw hc ht hstop ↦ ?_
  obtain ⟨u, hu, hprefix⟩ := hstart.ahead hc
  rw [statement]
  refine .line fun at_ ↦ .peek hu ?_
  have : Passes (exprStat n c at_) ls fun _ ms ↦ ms = rest := by
    cases n with
    | zero => exact .tooManyLevels
    | succ n => exact h hw hc ht hstop
  unfold Token.startsPrefix at hprefix
  split at hprefix <;> first | exact this | cases hprefix

theorem callStat (h : Complete .functionCall v l ts) : Complete (.stat true) v l ts := by
  refine expr_stat_intro (Spells.starts h) fun n c at_ ls rest t hw hc ht hstop ↦ ?_
  rw [exprStat]
  refine (Spells.suffixedExpr h hw hc ht (hstop.stops.2 rfl)).bind ?_
  rintro first ms ⟨rfl, hcall⟩
  have hnot : ¬ (t.isTerminal .assign || t.isTerminal .comma) = true := by
    simp only [Bool.or_eq_true, isTerminal_iff, not_or]
    exact ⟨hstop.ne rfl, hstop.ne rfl⟩
  refine .peek ht ?_
  rw [if_neg hnot, if_pos hcall]
  exact .pure rfl

theorem varListVar (h : Complete .var v l ts) : Complete .varList v l ts := by
  refine ⟨Spells.starts h, fun n c ls rest hw hc heq ↦ ?_⟩
  refine (Spells.suffixedExpr h hw hc heq rfl).mono ?_
  rintro first ms ⟨rfl, htarget⟩
  refine ⟨htarget, .inr heq, fun n' before hbefore ↦ ?_⟩
  cases n' with
  | zero => exact .tooManyLevels
  | succ n' =>
      rw [targetsAfter]
      refine .accept_not heq (fun h ↦ nomatch h) (.pure ⟨rfl, ?_⟩)
      rw [List.all_reverse, List.all_cons, htarget, hbefore, Bool.true_and]

theorem varListMore (h : Complete .var v l ts) (h' : Complete .varList v l us) :
    Complete .varList v l (ts ++ .terminal .comma :: us) := by
  refine ⟨(Spells.starts h).append, fun n c ls rest hw hc heq ↦ ?_⟩
  obtain ⟨ms₁, hts, hc₁⟩ := Consumes.append_iff.1 hc
  obtain ⟨ms₂, hcomma, hus⟩ := Consumes.cons_iff.1 hc₁
  refine (Spells.suffixedExpr h hw hts hcomma.ahead rfl).mono ?_
  rintro first ms ⟨rfl, htarget⟩
  refine ⟨htarget, .inl hcomma.ahead, fun n' before hbefore ↦ ?_⟩
  cases n' with
  | zero => exact .tooManyLevels
  | succ n' =>
      rw [targetsAfter]
      refine .accept hcomma ((h'.2 hw hus heq).bind ?_)
      rintro target ms ⟨_, _, hmore⟩
      refine hmore n' (first :: before) ?_
      rw [List.all_cons, htarget, hbefore, Bool.true_and]

theorem assign (h : Complete .varList v l ts) (h' : Complete (.expList e) v l us) :
    Complete (.stat e) v l (ts ++ .terminal .assign :: us) := by
  refine expr_stat_intro h.1.append fun n c at_ ls rest t hw hc ht hstop ↦ ?_
  obtain ⟨ms₁, hts, hc₁⟩ := Consumes.append_iff.1 hc
  obtain ⟨ms₂, heq, hus⟩ := Consumes.cons_iff.1 hc₁
  rw [exprStat]
  refine (h.2 hw hts heq.ahead).bind ?_
  rintro first ms ⟨_, hahead, hmore⟩
  obtain ⟨u, hu, hlist⟩ :
      ∃ u, Ahead ms u ∧ (u.isTerminal .assign || u.isTerminal .comma) = true := by
    rcases hahead with hu | hu
    · exact ⟨_, hu, rfl⟩
    · exact ⟨_, hu, rfl⟩
  refine .peek hu ?_
  rw [if_pos hlist]
  refine (hmore n [] rfl).bind ?_
  rintro targets _ ⟨rfl, htargets⟩
  simp only [htargets, Bool.not_true, Bool.false_eq_true, if_false]
  refine .expect heq ?_
  refine (h'.exprList n hw hus ht ⟨hstop.stops, hstop.ne rfl⟩).next fun values ↦ ?_
  exact .pure rfl

end Complete

/-! ## All derivations -/

/-- The parser takes what the greedy grammar derives, unless there are too many levels. -/
theorem complete {k : Category} {v l : Bool} {ts : List Token} (h : Derives true k v l ts) :
    Complete k v l ts := by
  induction h with
  | chunkEmpty => exact .chunkEmpty
  | chunkLast _ ih => exact .chunkLast ih
  | chunkLastSemicolon _ ih => exact .chunkLastSemicolon ih
  | chunkStat _ _ hparen ih₁ ih₂ => exact .chunkStat ih₁ ih₂ (hparen rfl)
  | chunkStatSemicolon _ _ ih₁ ih₂ => exact .chunkStatSemicolon ih₁ ih₂
  | assign _ _ ih₁ ih₂ => exact .assign ih₁ ih₂
  | callStat _ ih => exact .callStat ih
  | doBlock _ ih => exact .doBlock ih
  | whileLoop _ _ ih₁ ih₂ => exact .whileLoop ih₁ ih₂
  | repeatLoop _ _ ih₁ ih₂ => exact .repeatLoop ih₁ ih₂
  | ifStat _ _ _ ih₁ ih₂ ih₃ => exact .ifStat ih₁ ih₂ ih₃
  | countLoop _ _ _ ih₁ ih₂ ih₃ => exact .countLoop ih₁ ih₂ ih₃
  | countLoopStep _ _ _ _ ih₁ ih₂ ih₃ ih₄ => exact .countLoopStep ih₁ ih₂ ih₃ ih₄
  | iteratorLoop _ _ _ ih₁ ih₂ ih₃ => exact .iteratorLoop ih₁ ih₂ ih₃
  | functionStat _ _ ih₁ ih₂ => exact .functionStat ih₁ ih₂
  | methodStat _ _ ih₁ ih₂ => exact .methodStat ih₁ ih₂
  | localFunction _ ih => exact .localFunction ih
  | localNames _ ih => exact .localNames ih
  | localAssign _ _ ih₁ ih₂ => exact .localAssign ih₁ ih₂
  | ifEnd => exact .ifEnd
  | ifElse _ ih => exact .ifElse ih
  | ifElseif _ _ _ ih₁ ih₂ ih₃ => exact .ifElseif ih₁ ih₂ ih₃
  | returnNothing => exact .returnNothing
  | returnValues _ ih => exact .returnValues ih
  | breakLoop => exact .breakLoop
  | pathName => exact .pathName
  | pathMore _ ih => exact .pathMore ih
  | varListVar _ ih => exact .varListVar ih
  | varListMore _ _ ih₁ ih₂ => exact .varListMore ih₁ ih₂
  | varName => exact .varName
  | varIndex _ _ ih₁ ih₂ => exact .varIndex ih₁ ih₂
  | varField _ ih => exact .varField ih
  | nameListName => exact .nameListName
  | nameListMore _ ih => exact .nameListMore ih
  | expListExp _ ih => exact .expListExp ih
  | expListMore _ _ ih₁ ih₂ => exact .expListMore ih₁ ih₂
  | expNil => exact .expNil
  | expFalse => exact .expFalse
  | expTrue => exact .expTrue
  | expNumber => exact .expNumber
  | expString => exact .expString
  | expVararg => exact .expVararg
  | expFunction _ ih => exact .expFunction ih
  | expPrefix _ ih => exact .expPrefix ih
  | expTable _ ih => exact .expTable ih
  | expBinary ht _ _ ih₁ ih₂ => exact .expBinary ht ih₁ ih₂
  | expUnary ht _ ih => exact .expUnary ht ih
  | prefixVar _ ih => exact .prefixVar ih
  | prefixCall _ ih => exact .prefixCall ih
  | prefixParen _ ih => exact .prefixParen ih
  | call _ _ ih₁ ih₂ => exact .call ih₁ ih₂
  | callMethod _ _ ih₁ ih₂ => exact .callMethod ih₁ ih₂
  | argsEmpty => exact .argsEmpty
  | argsList _ ih => exact .argsList ih
  | argsTable _ ih => exact .argsTable ih
  | argsString => exact .argsString
  | funcBodyPlain _ ih => exact .funcBodyPlain ih
  | funcBodyParams _ _ ih₁ ih₂ => exact .funcBodyParams ih₁ ih₂
  | parListNames _ ih => exact .parListNames ih
  | parListBoth _ ih => exact .parListBoth ih
  | parListVararg => exact .parListVararg
  | tableEmpty => exact .tableEmpty
  | tableFields _ ih => exact .tableFields ih
  | fieldListField _ ih => exact .fieldListField ih
  | fieldListEnd ht _ ih => exact .fieldListEnd ht ih
  | fieldListMore ht _ _ ih₁ ih₂ => exact .fieldListMore ht ih₁ ih₂
  | fieldKey _ _ ih₁ ih₂ => exact .fieldKey ih₁ ih₂
  | fieldName _ ih => exact .fieldName ih
  | fieldValue _ ih => exact .fieldValue ih

end LuaEmbed.Parser
