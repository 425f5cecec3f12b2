import LuaEmbed.Proofs.Syntax.Soundness.Expressions

/-!
# What parsers read is derivable

The lemmas about statements and function bodies, and the induction on the bound that closes over
all functions of the parser: whatever one of them has read is derivable from its category.
-/

namespace LuaEmbed.Parser

open Grammar

/-! ## Lists of names -/

/-- Names after a separator go on with any list of names that they separate. -/
theorem namesAfter_sound {sep : Terminal} {P : List Token → Prop} (hone : ∀ x, P [.name x])
    (hmore : ∀ x ts, P ts → P (.name x :: .terminal sep :: ts)) {n : Nat} {before names : List String}
    {ls rest : List Lexeme} (h : namesAfter sep n before ls = .ok (names, rest)) :
    ∃ ts, Consumes ls ts rest ∧ ∀ x, P (.name x :: ts) := by
  induction n generalizing before ls with
  | zero => simp [namesAfter] at h
  | succ n ih =>
      rw [namesAfter, accept_bind_ok] at h
      rcases h with ⟨ms, hsep, h⟩ | ⟨u, hu, hne, h⟩
      · simp only [if_true, name_bind_ok] at h
        obtain ⟨y, ms', hname, h⟩ := h
        obtain ⟨ts, hts, hP⟩ := ih h
        exact ⟨_, hsep.trans (hname.trans hts), fun x ↦ hmore x _ (hP y)⟩
      · simp only [Bool.false_eq_true, if_false, pure_ok] at h
        obtain ⟨rfl, rfl⟩ := h
        exact ⟨[], .refl _, hone⟩

theorem parList_more {v l isVararg : Bool} {x : String} {ts : List Token}
    (h : Derives true (.parList isVararg) v l ts) :
    Derives true (.parList isVararg) v l (.name x :: .terminal .comma :: ts) := by
  cases h with
  | parListNames h => exact .parListNames (.nameListMore h)
  | parListBoth h => exact .parListBoth (.nameListMore h)
  | parListVararg => exact .parListBoth .nameListName

theorem params_sound {v l : Bool} {n : Nat} {before : List String}
    {names : List String × Bool} {ls rest : List Lexeme}
    (h : params n before ls = .ok (names, rest)) :
    ∃ ts, Consumes ls ts rest ∧ Derives true (.parList names.2) v l ts := by
  induction n generalizing before ls with
  | zero => simp [params] at h
  | succ n ih =>
      rw [params, accept_bind_ok] at h
      rcases h with ⟨ms, hdots, h⟩ | ⟨u, hu, hne, h⟩
      · simp only [if_true, pure_ok] at h
        obtain ⟨rfl, rfl⟩ := h
        exact ⟨_, hdots, .parListVararg⟩
      · simp only [Bool.false_eq_true, if_false, name_bind_ok] at h
        obtain ⟨x, ms, hname, h⟩ := h
        rw [accept_bind_ok] at h
        rcases h with ⟨ms', hcomma, h⟩ | ⟨w, hw, hne', h⟩
        · obtain ⟨ts, hts, hd⟩ := ih h
          exact ⟨_, hname.trans (hcomma.trans hts), parList_more hd⟩
        · simp only [Bool.false_eq_true, if_false, pure_ok] at h
          obtain ⟨rfl, rfl⟩ := h
          exact ⟨_, hname, .parListNames .nameListName⟩

/-! ## Blocks and statements -/

namespace Sound

variable {n : Nat} {c : Context} {ls rest : List Lexeme}

theorem block_succ (h : Sound n) {b : Block} (hb : Parser.block (n + 1) c ls = .ok (b, rest)) :
    Reads .chunk c ls rest := by
  rw [Parser.block, nested_ok] at hb
  obtain ⟨levels, _, hb⟩ := hb
  have := h.statements hb
  exact this

theorem loopBlock_succ (h : Sound n) {b : Block}
    (hb : Parser.loopBlock (n + 1) c ls = .ok (b, rest)) :
    Reads .chunk { c with loop := true } ls rest := by
  rw [Parser.loopBlock] at hb
  exact h.block hb

/-- What a statement does to the chunk that it starts. -/
theorem chunk_of_stat {e : Bool} {ms ns : List Lexeme} (hs : Reads (.stat e) c ls ms)
    (he : Closed e ms) (hc : Reads .chunk c ns rest)
    (hn : ns = ms ∨ Consumes ms [.terminal .semicolon] ns) : Reads .chunk c ls rest := by
  obtain ⟨ts, hts, hds⟩ := hs
  obtain ⟨us, hus, hdc⟩ := hc
  rcases hn with rfl | hn
  · refine ⟨_, hts.trans hus, .chunkStat hds hdc fun _ he' hp ↦ ?_⟩
    match us, hp with
    | .terminal .leftParen :: _, _ => exact he he' hus.ahead
  · exact ⟨_, hts.trans (hn.trans hus), .chunkStatSemicolon hds hdc⟩

theorem statements_succ (h : Sound n) {before : List Stat} {b : Block}
    (hb : Parser.statements (n + 1) c before ls = .ok (b, rest)) : Reads .chunk c ls rest := by
  rw [Parser.statements, peek_bind_ok] at hb
  obtain ⟨t, ht, hb⟩ := hb
  split at hb
  · obtain ⟨rfl, rfl⟩ := pure_ok.1 hb
    exact ⟨[], .refl _, .chunkEmpty⟩
  · split at hb
    · rw [bind_ok] at hb
      obtain ⟨s, ms, hs, hb⟩ := hb
      obtain ⟨rfl, rfl⟩ := pure_ok.1 hb
      exact h.returnStat hs ht
    · rw [bind_of_ok line_apply, bind_of_ok advance_apply] at hb
      have hbreak := ht.consumes (fun h ↦ nomatch h)
      cases hl : c.loop with
      | false =>
          simp only [hl, Bool.not_false, if_true] at hb
          rw [bind_of_error (complain_apply _)] at hb
          exact nomatch hb
      | true =>
          have hd : Derives true .lastStat c.vararg c.loop [.terminal .break_] := by
            rw [hl]
            exact .breakLoop
          simp only [hl, Bool.not_true, Bool.false_eq_true, if_false, accept_bind_ok] at hb
          rcases hb with ⟨ms, hsemi, hb⟩ | ⟨u, _, _, hb⟩
          · obtain ⟨rfl, rfl⟩ := pure_ok.1 hb
            exact ⟨_, hbreak.trans hsemi, .chunkLastSemicolon hd⟩
          · obtain ⟨rfl, rfl⟩ := pure_ok.1 hb
            exact ⟨_, hbreak, .chunkLast hd⟩
    · rw [bind_ok] at hb
      obtain ⟨s, ms, hs, hb⟩ := hb
      obtain ⟨e, hs, he⟩ := h.statement hs
      rw [accept_bind_ok] at hb
      rcases hb with ⟨ns, hsemi, hb⟩ | ⟨u, _, _, hb⟩
      · exact chunk_of_stat hs he (h.statements hb) (.inr hsemi)
      · exact chunk_of_stat hs he (h.statements hb) (.inl rfl)

theorem returnStat_succ (h : Sound n) {s : Stat}
    (hs : Parser.returnStat (n + 1) c ls = .ok (s, rest)) (hr : Ahead ls (.terminal .return_)) :
    Reads .chunk c ls rest := by
  have hreturn := hr.consumes (fun h ↦ nomatch h)
  have close : ∀ {ts ms}, Consumes ls ts ms → Derives true .lastStat c.vararg c.loop ts →
      ∀ {vs : List Expr}, (do
        let _ ← accept .semicolon
        return Stat.return_ (front ls).position.line vs) ms = .ok (s, rest) →
      Reads .chunk c ls rest := by
    intro ts ms hts hd vs hb
    rw [accept_bind_ok] at hb
    rcases hb with ⟨ns, hsemi, hb⟩ | ⟨u, _, _, hb⟩
    · obtain ⟨rfl, rfl⟩ := pure_ok.1 hb
      exact ⟨_, hts.trans hsemi, .chunkLastSemicolon hd⟩
    · obtain ⟨rfl, rfl⟩ := pure_ok.1 hb
      exact ⟨_, hts, .chunkLast hd⟩
  rw [Parser.returnStat, bind_of_ok line_apply, bind_of_ok advance_apply, peek_bind_ok] at hs
  obtain ⟨t, _, hs⟩ := hs
  split at hs
  · rw [bind_of_ok (pure_apply _)] at hs
    exact close hreturn .returnNothing hs
  · rw [bind_ok] at hs
    obtain ⟨vs, ms, hvs, hs⟩ := hs
    obtain ⟨e, ⟨ts, hts, hd⟩, _⟩ := h.exprList hvs
    exact close (hreturn.trans hts) (.returnValues hd) hs

theorem ifRest_succ (h : Sound n) {at_ : Nat} {before : List Clause} {s : Stat}
    (hs : Parser.ifRest (n + 1) c at_ before ls = .ok (s, rest)) : Reads .ifRest c ls rest := by
  rw [Parser.ifRest, accept_bind_ok] at hs
  rcases hs with ⟨ms, helseif, hs⟩ | ⟨_, _, _, hs⟩
  · simp only [if_true, bind_ok (p := Parser.expr n c), expect_bind_ok] at hs
    obtain ⟨condition, ms₁, hcond, ms₂, hthen, hs⟩ := hs
    obtain ⟨e, ⟨ts, hts, hcond⟩, _⟩ := h.expr hcond
    obtain ⟨body, ms₃, hr, hs⟩ := bind_ok.1 hs
    obtain ⟨us, hus, hbody⟩ := h.block hr
    obtain ⟨ws, hws, hmore⟩ := h.ifRest hs
    refine ⟨_, ?_, .ifElseif hcond hbody hmore⟩
    exact helseif.trans (hts.trans (hthen.trans (hus.trans hws)))
  · simp only [Bool.false_eq_true, if_false, accept_bind_ok] at hs
    rcases hs with ⟨ms, helse, hs⟩ | ⟨_, _, _, hs⟩
    · obtain ⟨otherwise, ms₁, hr, hs⟩ := bind_ok.1 hs
      obtain ⟨us, hus, hother⟩ := h.block hr
      obtain ⟨ms₂, hend, hs⟩ := expectMatch_bind_ok.1 hs
      obtain ⟨rfl, rfl⟩ := pure_ok.1 hs
      exact ⟨_, helse.trans (hus.trans hend), .ifElse hother⟩
    · obtain ⟨ms₂, hend, hs⟩ := expectMatch_bind_ok.1 hs
      obtain ⟨rfl, rfl⟩ := pure_ok.1 hs
      exact ⟨_, hend, .ifEnd⟩

/-- The block of a loop up to its `end`, which both forms of `for` and `while` share. -/
theorem loop_end (h : Sound n) {opener : Terminal} {at_ : Nat} {f : Block → Stat} {s : Stat}
    (hs : (do
      let body ← Parser.loopBlock n c
      expectMatch .end_ opener at_
      return f body : Parser Stat) ls = .ok (s, rest)) :
    ∃ ts, Consumes ls (ts ++ [.terminal .end_]) rest ∧ Derives true .chunk c.vararg true ts := by
  obtain ⟨body, ms, hr, hs⟩ := bind_ok.1 hs
  obtain ⟨ts, hts, hd⟩ := h.loopBlock hr
  obtain ⟨ms₁, hend, hs⟩ := expectMatch_bind_ok.1 hs
  obtain ⟨rfl, rfl⟩ := pure_ok.1 hs
  exact ⟨ts, hts.trans hend, hd⟩

theorem forStat_succ (h : Sound n) {at_ : Nat} {s : Stat}
    (hs : Parser.forStat (n + 1) c at_ ls = .ok (s, rest)) (hfor : Ahead ls (.terminal .for_)) :
    Reads (.stat false) c ls rest := by
  have hfor := hfor.consumes (fun h ↦ nomatch h)
  rw [Parser.forStat, bind_of_ok advance_apply, name_bind_ok] at hs
  obtain ⟨x, ms, hx, hs⟩ := hs
  rw [accept_bind_ok] at hs
  rcases hs with ⟨ms₁, heq, hs⟩ | ⟨_, _, _, hs⟩
  · obtain ⟨start, ms₂, hr, hs⟩ := bind_ok.1 hs
    obtain ⟨e₁, ⟨ts, hts, hstart⟩, _⟩ := h.expr hr
    obtain ⟨ms₃, hcomma, hs⟩ := expect_bind_ok.1 hs
    obtain ⟨limit, ms₄, hr, hs⟩ := bind_ok.1 hs
    obtain ⟨e₂, ⟨us, hus, hlimit⟩, _⟩ := h.expr hr
    have head := (hfor.trans hx).trans (heq.trans (hts.trans (hcomma.trans hus)))
    rw [accept_bind_ok] at hs
    rcases hs with ⟨ms₅, hcomma', hs⟩ | ⟨_, _, _, hs⟩
    · simp only [if_true, map_eq_pure_bind, bind_assoc, pure_bind] at hs
      obtain ⟨step, ms₆, hr, hs⟩ := bind_ok.1 hs
      obtain ⟨e₃, ⟨ws, hws, hstep⟩, _⟩ := h.expr hr
      obtain ⟨ms₇, hdo, hs⟩ := expect_bind_ok.1 hs
      obtain ⟨bs, hbs, hbody⟩ := h.loop_end hs
      refine ⟨_, ?_, .countLoopStep (x := x) hstart hlimit hstep hbody⟩
      simpa using head.trans (hcomma'.trans (hws.trans (hdo.trans hbs)))
    · simp only [Bool.false_eq_true, if_false, pure_bind] at hs
      obtain ⟨ms₇, hdo, hs⟩ := expect_bind_ok.1 hs
      obtain ⟨bs, hbs, hbody⟩ := h.loop_end hs
      refine ⟨_, ?_, .countLoop (x := x) hstart hlimit hbody⟩
      simpa using head.trans (hdo.trans hbs)
  · simp only [Bool.false_eq_true, if_false] at hs
    obtain ⟨names, ms₁, hr, hs⟩ := bind_ok.1 hs
    obtain ⟨ts, hts, hnames⟩ := namesAfter_sound (P := Derives true .nameList c.vararg c.loop)
      (fun _ ↦ .nameListName) (fun _ _ h ↦ .nameListMore h) hr
    rw [accept_bind_ok] at hs
    rcases hs with ⟨ms₂, hin, hs⟩ | ⟨_, _, _, hs⟩
    · obtain ⟨values, ms₃, hr, hs⟩ := bind_ok.1 hs
      obtain ⟨e, ⟨us, hus, hvalues⟩, _⟩ := h.exprList hr
      obtain ⟨ms₄, hdo, hs⟩ := expect_bind_ok.1 hs
      obtain ⟨bs, hbs, hbody⟩ := h.loop_end hs
      refine ⟨_, ?_, .iteratorLoop (hnames x) hvalues hbody⟩
      exact hfor.trans ((hx.trans hts).trans (hin.trans (hus.trans (hdo.trans hbs))))
    · simp only [Bool.not_false, if_true] at hs
      rw [bind_of_error (complain_apply _)] at hs
      exact nomatch hs

theorem targetsAfter_succ (h : Sound n) {before es : List Expr}
    (hs : Parser.targetsAfter (n + 1) c before ls = .ok (es, rest))
    (hes : es.all Expr.isTarget = true) :
    before.all Expr.isTarget = true ∧
      ∀ {ts}, Derives true .var c.vararg c.loop ts →
        ∃ us, Consumes ls us rest ∧ Derives true .varList c.vararg c.loop (ts ++ us) := by
  rw [Parser.targetsAfter, accept_bind_ok] at hs
  rcases hs with ⟨ms, hcomma, hs⟩ | ⟨_, _, _, hs⟩
  · obtain ⟨target, ms₁, hr, hs⟩ := bind_ok.1 hs
    obtain ⟨⟨us, hus, hspells⟩, _⟩ := h.suffixedExpr hr
    obtain ⟨hbefore, hmore⟩ := h.targetsAfter hs hes
    rw [List.all_cons, Bool.and_eq_true] at hbefore
    refine ⟨hbefore.2, fun {ts} hts ↦ ?_⟩
    obtain ⟨ws, hws, hd⟩ := hmore (hspells.isVar hbefore.1)
    exact ⟨_, hcomma.trans (hus.trans hws), .varListMore hts hd⟩
  · obtain ⟨rfl, rfl⟩ := pure_ok.1 hs
    refine ⟨by rwa [List.all_reverse] at hes, fun {ts} hts ↦ ⟨[], .refl _, ?_⟩⟩
    rw [List.append_nil]
    exact .varListVar hts

theorem exprStat_succ (h : Sound n) {at_ : Nat} {s : Stat}
    (hs : Parser.exprStat (n + 1) c at_ ls = .ok (s, rest)) :
    ∃ e, Reads (.stat e) c ls rest ∧ Closed e rest := by
  rw [Parser.exprStat, bind_ok] at hs
  obtain ⟨first, ms, hfirst, hs⟩ := hs
  obtain ⟨⟨ts, hts, hspells⟩, hclosed⟩ := h.suffixedExpr hfirst
  rw [peek_bind_ok] at hs
  obtain ⟨t, _, hs⟩ := hs
  split at hs
  · obtain ⟨targets, ms₁, htargets, hs⟩ := bind_ok.1 hs
    cases hall : targets.all Expr.isTarget with
    | false =>
        simp only [hall, Bool.not_false, if_true] at hs
        rw [bind_of_error (complain_apply _)] at hs
        exact nomatch hs
    | true =>
        simp only [hall, Bool.not_true, Bool.false_eq_true, if_false] at hs
        obtain ⟨hvar, hmore⟩ := h.targetsAfter htargets hall
        rw [List.all_cons, Bool.and_eq_true] at hvar
        obtain ⟨us, hus, hvars⟩ := hmore (hspells.isVar hvar.1)
        obtain ⟨ms₂, heq, hs⟩ := expect_bind_ok.1 hs
        obtain ⟨values, ms₃, hr, hs⟩ := bind_ok.1 hs
        obtain ⟨e, ⟨ws, hws, hvalues⟩, he⟩ := h.exprList hr
        obtain ⟨rfl, rfl⟩ := pure_ok.1 hs
        exact ⟨e, ⟨_, (hts.trans hus).trans (heq.trans hws), .assign hvars hvalues⟩, he⟩
  · split at hs
    · next hcall =>
      obtain ⟨rfl, rfl⟩ := pure_ok.1 hs
      exact ⟨true, ⟨_, hts, .callStat (hspells.isCall hcall)⟩, fun _ ↦ hclosed⟩
    · rw [complain_apply] at hs
      exact nomatch hs

theorem funcBody_succ (h : Sound n) {isMethod : Bool} {at_ : Nat} {b : Body}
    (hs : Parser.funcBody (n + 1) c isMethod at_ ls = .ok (b, rest)) :
    Reads .funcBody c ls rest := by
  rw [Parser.funcBody, expect_bind_ok] at hs
  obtain ⟨ms, hopen, hs⟩ := hs
  have close : ∀ {ns : List Lexeme} {names : List String} {isVararg : Bool}, (do
      expect .rightParen
      let body ← Parser.block n { c with vararg := isVararg, loop := false }
      expectMatch .end_ .function at_
      return Body.mk names isVararg at_ body : Parser Body) ns = .ok (b, rest) →
      ∃ us, Consumes ns (.terminal .rightParen :: (us ++ [.terminal .end_])) rest ∧
        Derives true .chunk isVararg false us := by
    intro ns names isVararg hs
    obtain ⟨ns₁, hclose, hs⟩ := expect_bind_ok.1 hs
    obtain ⟨body, ns₂, hr, hs⟩ := bind_ok.1 hs
    obtain ⟨us, hus, hd⟩ := h.block hr
    obtain ⟨ns₃, hend, hs⟩ := expectMatch_bind_ok.1 hs
    obtain ⟨rfl, rfl⟩ := pure_ok.1 hs
    exact ⟨us, hclose.trans (hus.trans hend), hd⟩
  rw [check_bind_ok] at hs
  obtain ⟨u, _, hs⟩ := hs
  split at hs
  · rw [pure_bind] at hs
    obtain ⟨us, hus, hd⟩ := close hs
    exact ⟨_, hopen.trans hus, .funcBodyPlain hd⟩
  · obtain ⟨⟨names, isVararg⟩, ms₁, hparams, hs⟩ := bind_ok.1 hs
    obtain ⟨ts, hts, hp⟩ := params_sound hparams
    obtain ⟨us, hus, hd⟩ := close hs
    refine ⟨_, ?_, .funcBodyParams hp hd⟩
    exact hopen.trans (hts.trans hus)

/-- A function statement or a local one, after its name. -/
theorem function_end (h : Sound n) {isMethod : Bool} {at_ : Nat} {f : Body → Stat} {s : Stat}
    (hs : (do
      let body ← Parser.funcBody n c isMethod at_
      return f body : Parser Stat) ls = .ok (s, rest)) : Reads .funcBody c ls rest := by
  obtain ⟨body, ms, hbody, hs⟩ := bind_ok.1 hs
  obtain ⟨rfl, rfl⟩ := pure_ok.1 hs
  exact h.funcBody hbody

theorem statement_succ (h : Sound n) {s : Stat}
    (hs : Parser.statement (n + 1) c ls = .ok (s, rest)) :
    ∃ e, Reads (.stat e) c ls rest ∧ Closed e rest := by
  have done : ∀ {ms : List Lexeme}, Reads (.stat false) c ls ms →
      ∃ e, Reads (.stat e) c ls ms ∧ Closed e ms := fun hr ↦ ⟨false, hr, fun h ↦ nomatch h⟩
  rw [Parser.statement, bind_of_ok line_apply, peek_bind_ok] at hs
  obtain ⟨t, ht, hs⟩ := hs
  split at hs
  · -- `if`
    have hif := ht.consumes (fun h ↦ nomatch h)
    rw [bind_of_ok advance_apply] at hs
    obtain ⟨condition, ms₁, hr, hs⟩ := bind_ok.1 hs
    obtain ⟨e, ⟨ts, hts, hcond⟩, _⟩ := h.expr hr
    obtain ⟨ms₂, hthen, hs⟩ := expect_bind_ok.1 hs
    obtain ⟨first, ms₃, hr, hs⟩ := bind_ok.1 hs
    obtain ⟨us, hus, hbody⟩ := h.block hr
    obtain ⟨ws, hws, hmore⟩ := h.ifRest hs
    refine done ⟨_, ?_, .ifStat hcond hbody hmore⟩
    exact hif.trans (hts.trans (hthen.trans (hus.trans hws)))
  · -- `while`
    have hwhile := ht.consumes (fun h ↦ nomatch h)
    rw [bind_of_ok advance_apply] at hs
    obtain ⟨condition, ms₁, hr, hs⟩ := bind_ok.1 hs
    obtain ⟨e, ⟨ts, hts, hcond⟩, _⟩ := h.expr hr
    obtain ⟨ms₂, hdo, hs⟩ := expect_bind_ok.1 hs
    obtain ⟨us, hus, hbody⟩ := h.loop_end hs
    refine done ⟨_, ?_, .whileLoop hcond hbody⟩
    exact hwhile.trans (hts.trans (hdo.trans hus))
  · -- `do`
    have hdo := ht.consumes (fun h ↦ nomatch h)
    rw [bind_of_ok advance_apply] at hs
    obtain ⟨body, ms₁, hr, hs⟩ := bind_ok.1 hs
    obtain ⟨us, hus, hbody⟩ := h.block hr
    obtain ⟨ms₂, hend, hs⟩ := expectMatch_bind_ok.1 hs
    obtain ⟨rfl, rfl⟩ := pure_ok.1 hs
    exact done ⟨_, hdo.trans (hus.trans hend), .doBlock hbody⟩
  · -- `for`
    exact done (h.forStat hs ht)
  · -- `repeat`
    have hrepeat := ht.consumes (fun h ↦ nomatch h)
    rw [bind_of_ok advance_apply] at hs
    obtain ⟨body, ms₁, hr, hs⟩ := bind_ok.1 hs
    obtain ⟨us, hus, hbody⟩ := h.loopBlock hr
    obtain ⟨ms₂, huntil, hs⟩ := expectMatch_bind_ok.1 hs
    obtain ⟨condition, ms₃, hr, hs⟩ := bind_ok.1 hs
    obtain ⟨e, ⟨ts, hts, hcond⟩, he⟩ := h.expr hr
    obtain ⟨rfl, rfl⟩ := pure_ok.1 hs
    refine ⟨e, ⟨_, ?_, .repeatLoop hbody hcond⟩, he⟩
    exact hrepeat.trans (hus.trans (huntil.trans hts))
  · -- `function`
    have hfunction := ht.consumes (fun h ↦ nomatch h)
    rw [bind_of_ok advance_apply, name_bind_ok] at hs
    obtain ⟨x, ms₁, hx, hs⟩ := hs
    obtain ⟨path, ms₂, hr, hs⟩ := bind_ok.1 hs
    obtain ⟨ts, hts, hpath⟩ := namesAfter_sound (P := Derives true .path c.vararg c.loop)
      (fun _ ↦ .pathName) (fun _ _ h ↦ .pathMore h) hr
    rw [accept_bind_ok] at hs
    rcases hs with ⟨ms₃, hcolon, hs⟩ | ⟨_, _, _, hs⟩
    · rw [if_pos rfl, name_bind_ok] at hs
      obtain ⟨y, ms₄, hy, hs⟩ := hs
      obtain ⟨us, hus, hbody⟩ := h.function_end hs
      refine done ⟨_, ?_, .methodStat (x := y) (hpath x) hbody⟩
      exact hfunction.trans ((hx.trans hts).trans (hcolon.trans (hy.trans hus)))
    · obtain ⟨us, hus, hbody⟩ := h.function_end hs
      refine done ⟨_, ?_, .functionStat (hpath x) hbody⟩
      exact hfunction.trans ((hx.trans hts).trans hus)
  · -- `local`
    have hlocal := ht.consumes (fun h ↦ nomatch h)
    rw [bind_of_ok advance_apply, accept_bind_ok] at hs
    rcases hs with ⟨ms₁, hfunction, hs⟩ | ⟨_, _, _, hs⟩
    · rw [if_pos rfl, name_bind_ok] at hs
      obtain ⟨x, ms₂, hx, hs⟩ := hs
      obtain ⟨us, hus, hbody⟩ := h.function_end hs
      refine done ⟨_, ?_, .localFunction (x := x) hbody⟩
      exact hlocal.trans (hfunction.trans (hx.trans hus))
    · simp only [Bool.false_eq_true, if_false, name_bind_ok] at hs
      obtain ⟨x, ms₁, hx, hs⟩ := hs
      obtain ⟨names, ms₂, hr, hs⟩ := bind_ok.1 hs
      obtain ⟨ts, hts, hnames⟩ := namesAfter_sound (P := Derives true .nameList c.vararg c.loop)
        (fun _ ↦ .nameListName) (fun _ _ h ↦ .nameListMore h) hr
      rw [accept_bind_ok] at hs
      rcases hs with ⟨ms₃, heq, hs⟩ | ⟨_, _, _, hs⟩
      · obtain ⟨values, ms₄, hr, hs⟩ := bind_ok.1 hs
        obtain ⟨e, ⟨us, hus, hvalues⟩, he⟩ := h.exprList hr
        obtain ⟨rfl, rfl⟩ := pure_ok.1 hs
        refine ⟨e, ⟨_, ?_, .localAssign (hnames x) hvalues⟩, he⟩
        exact hlocal.trans ((hx.trans hts).trans (heq.trans hus))
      · simp only [Bool.false_eq_true, if_false, pure_bind] at hs
        obtain ⟨rfl, rfl⟩ := pure_ok.1 hs
        exact done ⟨_, hlocal.trans (hx.trans hts), .localNames (hnames x)⟩
  · exact h.exprStat hs

/-! ## All bounds -/

/-- Without a call nothing succeeds. -/
theorem zero : Sound 0 := by
  constructor <;> exact fun h ↦ (not_ok_of_complain h).elim

end Sound

/-- Whatever the bound, what the parser reads is derivable. -/
theorem sound : ∀ n, Sound n
  | 0 => .zero
  | n + 1 =>
      have h := sound n
      { block := h.block_succ,
        statements := h.statements_succ,
        loopBlock := h.loopBlock_succ,
        returnStat := h.returnStat_succ,
        statement := h.statement_succ,
        ifRest := h.ifRest_succ,
        forStat := h.forStat_succ,
        exprStat := h.exprStat_succ,
        targetsAfter := h.targetsAfter_succ,
        funcBody := h.funcBody_succ,
        exprList := h.exprList_succ,
        exprsAfter := h.exprsAfter_succ,
        expr := h.expr_succ,
        subexpr := h.subexpr_succ,
        operand := h.operand_succ,
        binaryTail := h.binaryTail_succ,
        simpleExpr := h.simpleExpr_succ,
        primaryExpr := h.primaryExpr_succ,
        suffixedExpr := h.suffixedExpr_succ,
        suffixedTail := h.suffixedTail_succ,
        callArgs := h.callArgs_succ,
        tableConstructor := h.tableConstructor_succ,
        tableFields := h.tableFields_succ,
        tableField := h.tableField_succ }

end LuaEmbed.Parser
