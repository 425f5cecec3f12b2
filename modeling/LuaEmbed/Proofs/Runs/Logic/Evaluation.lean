import LuaEmbed.Proofs.Runs.Evaluator
import LuaEmbed.Proofs.Runs.Logic.Libraries

/-!
# Evaluation in a logic of runs

Two evaluations with hooks are related if what the hooks do is.  The contexts come in pairs, one for
each evaluation, and each pair has a logic of its own: a host function that is related in the logic
of one pair may make calls in the contexts of another.  What carries from a bound to the next is that
one level on top of related evaluators is related, with one lemma for each function that evaluation
consists of.

If the logic is strict, all bodies are well formed, and what stray evaluation would do is of no
account.
-/

namespace LuaEmbed.Run.Logic

open Hooked

/-! ## Names, fields and operators -/

namespace Agree

variable {L : Run.Logic} {m : Bool} {call call' : Caller}

@[grind ←] theorem declare (names : List String) (vs : List Value) :
    L.Keeps m (Evaluation.declare names vs) := by
  induction names generalizing vs with
  | nil => apply pure
  | cons x xs ih => exact (newCell _).bind fun _ ↦ (ih _).bind fun _ ↦ .pure _

theorem close {body : Body} (h : L.Strict → body.WellFormed) (hc : L.Captures) (a : Activation)
    (scope : Scope) : L.Keeps m (Evaluation.close a scope body) := L.newScript h (.inr hc) _

theorem goToLine (line : Nat) : L.Keeps true (Evaluation.goToLine line) := L.goToLine line

@[grind ←] theorem isIndexable (v : Value) (event : String) :
    L.Keeps m (Evaluation.isIndexable v event) := by
  unfold Evaluation.isIndexable
  split
  · apply pure
  · exact (metaField ..).bind fun _ ↦ .pure _

@[grind ←] theorem checkCallable (what : Option Described) (f : Value) :
    L.Keeps m (Evaluation.checkCallable what f) := by
  refine (isCallable f).bind fun callable ↦ ?_
  split
  · apply here
  · apply pure

@[grind ←] theorem loopNumber (what : LoopNumber) (v : Value) :
    L.Keeps m (Evaluation.loopNumber what v) := by
  unfold Evaluation.loopNumber
  split
  · apply pure
  · apply here

/-- A value is stored without metamethods. -/
theorem storeRaw {r : Ref} {key : Value} (h : ∀ s, key = .string s → L.Writes r s) (v : Value) :
    L.Keeps m (Operation.store r key v) := by
  refine (set h v).bind fun outcome ↦ ?_
  split
  · apply pure
  · apply here

section Callers

variable (hcall : L.Callers m call call')

include hcall

@[grind ←] theorem getField (what : Option Described) (v key : Value) :
    L.Agree m (Evaluation.getField call what v key) (Evaluation.getField call' what v key) := by
  refine (isIndexable ..).bind fun indexable ↦ ?_
  split
  · exact index hcall v key
  · apply here

@[grind ←] theorem getName (scope : Scope) (name : String) :
    L.Agree m (Evaluation.getName call scope name) (Evaluation.getName call' scope name) := by
  unfold Evaluation.getName
  split
  · apply readCell
  · exact (machine _).bind fun _ ↦ index hcall _ _

theorem followPath (what : Described) (v : Value) (key : String) (keys : List String) :
    L.Agree m (Evaluation.followPath call what v key keys)
      (Evaluation.followPath call' what v key keys) := by
  induction keys generalizing what v key with
  | nil => apply pure
  | cons next rest ih => exact (getField hcall ..).bind fun v ↦ ih ..

theorem binary (op : BinaryOp) (a b : Value) :
    L.Agree m (Evaluation.binary call op a b) (Evaluation.binary call' op a b) := by
  cases op with
  | add | sub | mul | div | mod | pow => exact arithmetic hcall _ a b
  | concat => exact concat hcall a b
  | eq | ne => exact (equals hcall a b).bind fun _ ↦ .pure _
  | lt => exact (lessThan hcall a b).bind fun _ ↦ .pure _
  | gt => exact (lessThan hcall b a).bind fun _ ↦ .pure _
  | le => exact (lessEqual hcall a b).bind fun _ ↦ .pure _
  | ge => exact (lessEqual hcall b a).bind fun _ ↦ .pure _
  | and | or => apply pure

theorem unary (op : UnaryOp) (v : Value) :
    L.Agree m (Evaluation.unary call op v) (Evaluation.unary call' op v) := by
  cases op with
  | neg => exact negate hcall v
  | not => apply pure
  | len => exact lengthOf hcall v

end Callers

end Agree

/-! ## Hooks -/

section Hooks

variable {ι γ γ' : Type}

/-- What two hooks do is related, in all contexts that belong together. -/
structure HooksAgree (L : ι → Run.Logic) (h : Hooks γ) (h' : Hooks γ') (c : ι → γ) (c' : ι → γ') :
    Prop where
  native (i : ι) {m : Bool} (fuel : Nat) {call : γ → Caller} {call' : γ' → Caller} (op : Native)
    (args : Arguments) :
    (∀ j m, (L j).Callers m (call (c j)) (call' (c' j))) →
      (L i).Agree m (h.native (c i) fuel call op args) (h'.native (c' i) fuel call' op args)
  store (i : ι) {m : Bool} (r : Ref) (key v : Value) :
    (L i).Agree m (h.store (c i) r key v) (h'.store (c' i) r key v)
  stray (i : ι) {α : Type} {r r' : Run α} :
    ¬(L i).Strict → (L i).Agree true r r' → (L i).Agree true (h.stray r) (h'.stray r')

variable {L : ι → Run.Logic} {h : Hooks γ} {h' : Hooks γ'} {c : ι → γ} {c' : ι → γ'}

namespace HooksAgree

variable (hh : HooksAgree L h h' c c') {i : ι} {m : Bool} {call call' : Caller}
  (hcall : (L i).Callers m call call')

include hh hcall

theorem setIndex (v key value : Value) :
    (L i).Agree m (setIndex h (c i) call v key value) (setIndex h' (c' i) call' v key value) := by
  suffices hn : ∀ n v, (L i).Agree m (setIndexWithin h (c i) call key value n v)
      (setIndexWithin h' (c' i) call' key value n v) from hn _ _
  intro n
  induction n with
  | zero => exact fun v ↦ .here _
  | succ n ih =>
      intro v
      unfold setIndexWithin
      split
      case' h_1 r =>
        refine (Agree.get ..).bind fun _ ↦ (Agree.pure _).bind fun isPresent ↦ ?_
        generalize Value.table r = v
      case' h_2 => refine (Agree.pure _).bind fun isPresent ↦ ?_
      all_goals
        dsimp only
        split
      case' h_1.isTrue | h_2.isTrue => refine (Agree.pure _).bind fun handler ↦ ?_
      case' h_1.isFalse | h_2.isFalse => refine (Agree.metaField ..).bind fun handler ↦ ?_
      -- Wherever the handler comes from, it decides what is done.
      all_goals
        split
        · apply hh.store
        · apply Agree.here
        · exact (hcall ..).bind fun _ ↦ .pure _
        · apply ih

theorem setField (what : Option Described) (v key value : Value) :
    (L i).Agree m (setField h (c i) call what v key value)
      (setField h' (c' i) call' what v key value) := by
  refine (Agree.isIndexable ..).bind fun indexable ↦ ?_
  split
  · exact hh.setIndex hcall v key value
  · apply Agree.here

theorem storeAt (value : Value) (p : Place) :
    (L i).Agree m (Hooked.store h (c i) call value p)
      (Hooked.store h' (c' i) call' value p) := by
  cases p with
  | variable_ cell => apply Agree.writeCell
  | global name => exact (Agree.machine _).bind fun _ ↦ hh.setIndex hcall _ _ _
  | field object key what => exact hh.setField hcall what object key value

theorem storeAll (places : List Place) (vs : List Value) :
    (L i).Agree m (storeAll h (c i) call places vs) (storeAll h' (c' i) call' places vs) := by
  induction places generalizing vs with
  | nil => apply Agree.pure
  | cons p ps ih => exact (hh.storeAt hcall _ p).bind fun _ ↦ ih _

theorem storeFunction (scope : Scope) (f : Value) (path : List String) :
    (L i).Agree m (storeFunction h (c i) call scope f path)
      (storeFunction h' (c' i) call' scope f path) := by
  unfold Hooked.storeFunction
  split
  · apply Agree.pure
  · exact hh.storeAt hcall _ _
  · refine (Agree.getName hcall ..).bind fun v ↦ (Agree.followPath hcall ..).bind fun last ↦ ?_
    exact hh.setField hcall ..

end HooksAgree

/-! ## Calls, statements and expressions -/

/-- Two evaluators are related.  The loop that a block leaves is around it. -/
structure Related (L : ι → Run.Logic) (c : ι → γ) (c' : ι → γ') (ev : Evaluator γ)
    (ev' : Evaluator γ') : Prop where
  call (i : ι) {m : Bool} :
    (L i).Callers m (ev.call (c i)) (ev'.call (c' i))
  runBody (i : ι) {body : Body} (hwf : (L i).Strict → body.WellFormed) (chunk : String)
    (scope : Scope) (args : List Value) :
    (L i).Agree true (ev.runBody (c i) body chunk scope args)
      (ev'.runBody (c' i) body chunk scope args)
  runBlock (i : ι) {v l : Bool} (a : Activation) (scope : Scope) {block : Block}
    (hwf : (L i).Strict → Block.WellFormed v l block) :
    (L i).Rel true (ev.runBlock (c i) a scope block)
      (ev'.runBlock (c' i) a scope block) fun flow ↦
      (L i).Strict → flow = .leaveLoop → l = true
  runStats (i : ι) {v l : Bool} (a : Activation) (scope : Scope) {stats : List Stat}
    (hwf : (L i).Strict → ∀ s ∈ stats, s.WellFormed v l) :
    (L i).Rel true (ev.runStats (c i) a scope stats)
      (ev'.runStats (c' i) a scope stats) fun flow ↦
      (L i).Strict → flow = .leaveLoop → l = true
  runStat (i : ι) {v l : Bool} (a : Activation) (scope : Scope) {stat : Stat}
    (hwf : (L i).Strict → stat.WellFormed v l) :
    (L i).Rel true (ev.runStat (c i) a scope stat)
      (ev'.runStat (c' i) a scope stat) fun flow ↦
      (L i).Strict → flow = .leaveLoop → l = true
  runWhile (i : ι) {v : Bool} (a : Activation) (scope : Scope) {condition : Expr} {block : Block}
    (hcondition : (L i).Strict → condition.WellFormed v)
    (hblock : (L i).Strict → Block.WellFormed v true block) :
    (L i).Rel true (ev.runWhile (c i) a scope condition block)
      (ev'.runWhile (c' i) a scope condition block) fun flow ↦ flow ≠ .leaveLoop
  runRepeat (i : ι) {v : Bool} (a : Activation) (scope : Scope) {block : Block} {condition : Expr}
    (hblock : (L i).Strict → Block.WellFormed v true block)
    (hcondition : (L i).Strict → condition.WellFormed v) :
    (L i).Rel true (ev.runRepeat (c i) a scope block condition)
      (ev'.runRepeat (c' i) a scope block condition) fun flow ↦ flow ≠ .leaveLoop
  runClauses (i : ι) {v l : Bool} (a : Activation) (scope : Scope) {clauses : List Clause}
    {otherwise : Option Block}
    (hclauses : (L i).Strict → ∀ cl ∈ clauses, cl.WellFormed v l)
    (hotherwise : (L i).Strict → ∀ block, otherwise = some block → Block.WellFormed v l block) :
    (L i).Rel true (ev.runClauses (c i) a scope clauses otherwise)
      (ev'.runClauses (c' i) a scope clauses otherwise) fun flow ↦
      (L i).Strict → flow = .leaveLoop → l = true
  runCount (i : ι) {v : Bool} (a : Activation) (scope : Scope) (var : String)
    (first limit step : Float) {block : Block}
    (hblock : (L i).Strict → Block.WellFormed v true block) :
    (L i).Rel true (ev.runCount (c i) a scope var first limit step block)
      (ev'.runCount (c' i) a scope var first limit step block) fun flow ↦
      flow ≠ .leaveLoop
  runIterator (i : ι) {v : Bool} (a : Activation) (scope : Scope) {names : List String}
    (hnames : (L i).Strict → names ≠ []) (iterator state control : Value) {block : Block}
    (hblock : (L i).Strict → Block.WellFormed v true block) :
    (L i).Rel true (ev.runIterator (c i) a scope names iterator state control block)
      (ev'.runIterator (c' i) a scope names iterator state control block) fun flow ↦
      flow ≠ .leaveLoop
  evalPlaces (i : ι) {v : Bool} (a : Activation) (scope : Scope) {targets : List Expr}
    (htargets : (L i).Strict → ∀ e ∈ targets, e.isTarget = true)
    (hwf : (L i).Strict → ∀ e ∈ targets, e.WellFormed v) :
    (L i).Agree true (ev.evalPlaces (c i) a scope targets)
      (ev'.evalPlaces (c' i) a scope targets)
  evalList (i : ι) {v : Bool} (a : Activation) (scope : Scope) {es : List Expr}
    (hwf : (L i).Strict → ∀ e ∈ es, e.WellFormed v) :
    (L i).Agree true (ev.evalList (c i) a scope es)
      (ev'.evalList (c' i) a scope es)
  evalMulti (i : ι) {v : Bool} (a : Activation) (scope : Scope) {e : Expr}
    (hwf : (L i).Strict → e.WellFormed v) :
    (L i).Agree true (ev.evalMulti (c i) a scope e)
      (ev'.evalMulti (c' i) a scope e)
  eval (i : ι) {v : Bool} (a : Activation) (scope : Scope) {e : Expr}
    (hwf : (L i).Strict → e.WellFormed v) :
    (L i).Agree true (ev.eval (c i) a scope e) (ev'.eval (c' i) a scope e)
  evalFields (i : ι) {v : Bool} (a : Activation) (scope : Scope) {t : Ref}
    (ht : ∀ key, (L i).Writes t key) (first : Nat) {fields : List Field}
    (hwf : (L i).Strict → ∀ f ∈ fields, f.WellFormed v) :
    (L i).Agree true (ev.evalFields (c i) a scope t first fields)
      (ev'.evalFields (c' i) a scope t first fields)

namespace Related

variable {fuel : Nat} {ev : Evaluator γ} {ev' : Evaluator γ'} (hh : HooksAgree L h h' c c')
  (hr : Related L c c' ev ev') (i : ι)

include hr

/-! ### Expressions -/

section Expressions

variable {v : Bool} (a : Activation) (scope : Scope)

theorem evalList_next {es : List Expr} (hwf : (L i).Strict → ∀ e ∈ es, e.WellFormed v) :
    (L i).Agree true ((h.next fuel ev).evalList (c i) a scope es)
      ((h'.next fuel ev').evalList (c' i) a scope es) := by
  match es with
  | [] => apply Agree.pure
  | [e] => exact hr.evalMulti i a scope fun hs ↦ hwf hs e List.mem_cons_self
  | e :: e' :: rest =>
      have hall := fun hs ↦ List.forall_mem_cons.1 (hwf hs)
      refine (hr.eval i a scope fun hs ↦ (hall hs).1).bind fun v ↦ ?_
      exact (hr.evalList i a scope fun hs ↦ (hall hs).2).bind fun vs ↦ .pure _

theorem evalMulti_next {e : Expr} (hwf : (L i).Strict → e.WellFormed v) :
    (L i).Agree true ((h.next fuel ev).evalMulti (c i) a scope e)
      ((h'.next fuel ev').evalMulti (c' i) a scope e) := by
  dsimp only [Hooks.next]
  split
  · apply Agree.pure
  · next line callee args =>
    have hparts : (L i).Strict → callee.WellFormed v ∧ ∀ e ∈ args, e.WellFormed v :=
      fun hs ↦ by cases hwf hs with | call h₁ h₂ => exact ⟨h₁, h₂⟩
    refine (hr.eval i a scope fun hs ↦ (hparts hs).1).bind fun f ↦ ?_
    refine (hr.evalList i a scope fun hs ↦ (hparts hs).2).bind fun vs ↦ ?_
    exact (Agree.goToLine _).bind fun _ ↦ (Agree.checkCallable ..).bind fun _ ↦ hr.call i ..
  · next line object name args =>
    have hparts : (L i).Strict → object.WellFormed v ∧ ∀ e ∈ args, e.WellFormed v :=
      fun hs ↦ by cases hwf hs with | method h₁ h₂ => exact ⟨h₁, h₂⟩
    refine (hr.eval i a scope fun hs ↦ (hparts hs).1).bind fun o ↦ ?_
    refine (Agree.goToLine _).bind fun _ ↦ (Agree.getField (hr.call i) ..).bind fun f ↦ ?_
    refine (hr.evalList i a scope fun hs ↦ (hparts hs).2).bind fun vs ↦ ?_
    exact (Agree.goToLine _).bind fun _ ↦ (Agree.checkCallable ..).bind fun _ ↦ hr.call i ..
  · exact (hr.eval i a scope hwf).bind fun v ↦ .pure _

theorem eval_next (hc : ∀ j, (L j).Captures) {e : Expr} (hwf : (L i).Strict → e.WellFormed v) :
    (L i).Agree true ((h.next fuel ev).eval (c i) a scope e)
      ((h'.next fuel ev').eval (c' i) a scope e) := by
  cases e with
  | nil | true_ | false_ | number | string | vararg => apply Agree.pure
  | function body =>
      have hbody : (L i).Strict → body.WellFormed :=
        fun hs ↦ by cases hwf hs with | function h₁ => exact h₁
      exact Agree.close hbody (hc i) ..
  | name x => exact Agree.getName (hr.call i) ..
  | index line object key =>
      have hparts : (L i).Strict → object.WellFormed v ∧ key.WellFormed v :=
        fun hs ↦ by cases hwf hs with | index h₁ h₂ => exact ⟨h₁, h₂⟩
      refine (hr.eval i a scope fun hs ↦ (hparts hs).1).bind fun o ↦ ?_
      refine (hr.eval i a scope fun hs ↦ (hparts hs).2).bind fun k ↦ ?_
      exact (Agree.goToLine _).bind fun _ ↦ Agree.getField (hr.call i) ..
  | call | method => exact (hr.evalMulti i a scope hwf).bind fun vs ↦ .pure _
  | table fields =>
      refine newTable_bind fun t ht ↦ ?_
      have hfields : (L i).Strict → ∀ f ∈ fields, f.WellFormed v :=
        fun hs ↦ by cases hwf hs with | table h₁ => exact h₁
      exact (hr.evalFields i a scope ht _ hfields).bind fun _ ↦ .pure _
  | binary line op left right =>
      have hparts : (L i).Strict → left.WellFormed v ∧ right.WellFormed v :=
        fun hs ↦ by cases hwf hs with | binary h₁ h₂ => exact ⟨h₁, h₂⟩
      have hright := hr.eval i a scope fun hs ↦ (hparts hs).2
      refine (hr.eval i a scope fun hs ↦ (hparts hs).1).bind fun l ↦ ?_
      split
      · apply Agree.pure
      · apply Agree.pure
      · exact hright
      · exact hright
      · exact hright.bind fun r ↦ (Agree.goToLine _).bind fun _ ↦ Agree.binary (hr.call i) ..
  | unary line op operand =>
      have hoperand : (L i).Strict → operand.WellFormed v :=
        fun hs ↦ by cases hwf hs with | unary h₁ => exact h₁
      refine (hr.eval i a scope hoperand).bind fun v ↦ ?_
      exact (Agree.goToLine _).bind fun _ ↦ Agree.unary (hr.call i) ..
  | paren inner =>
      have hinner : (L i).Strict → inner.WellFormed v :=
        fun hs ↦ by cases hwf hs with | paren h₁ => exact h₁
      exact hr.eval i a scope hinner

theorem evalFields_next {t : Ref} (ht : ∀ key, (L i).Writes t key) (first : Nat)
    {fields : List Field} (hwf : (L i).Strict → ∀ f ∈ fields, f.WellFormed v) :
    (L i).Agree true ((h.next fuel ev).evalFields (c i) a scope t first fields)
      ((h'.next fuel ev').evalFields (c' i) a scope t first fields) := by
  match fields with
  | [] => apply Agree.pure
  | .keyed key value :: rest =>
      have hall := fun hs ↦ List.forall_mem_cons.1 (hwf hs)
      have hparts : (L i).Strict → key.WellFormed v ∧ value.WellFormed v :=
        fun hs ↦ by cases (hall hs).1 with | keyed h₁ h₂ => exact ⟨h₁, h₂⟩
      refine (hr.eval i a scope fun hs ↦ (hparts hs).1).bind fun k ↦ ?_
      refine (hr.eval i a scope fun hs ↦ (hparts hs).2).bind fun v ↦ ?_
      refine (Agree.storeRaw (fun s _ ↦ ht s) _).bind fun _ ↦ ?_
      exact hr.evalFields i a scope ht _ fun hs ↦ (hall hs).2
  | [.positional e] =>
      have he : (L i).Strict → e.WellFormed v :=
        fun hs ↦ by cases List.forall_mem_singleton.1 (hwf hs) with | positional h₁ => exact h₁
      exact (hr.evalMulti i a scope he).bind fun vs ↦
        Agree.modifyTable (fun t key ↦ t.getStr_setFrom ..) fun t ↦ t.metatable_setFrom ..
  | .positional e :: f :: rest =>
      have hall := fun hs ↦ List.forall_mem_cons.1 (hwf hs)
      have he : (L i).Strict → e.WellFormed v :=
        fun hs ↦ by cases (hall hs).1 with | positional h₁ => exact h₁
      refine (hr.eval i a scope he).bind fun v ↦ (Agree.setInt ..).bind fun _ ↦ ?_
      exact hr.evalFields i a scope ht _ fun hs ↦ (hall hs).2

end Expressions

/-! ### Statements -/

section Statements

variable {v l : Bool} (a : Activation) (scope : Scope)

theorem runBlock_next {block : Block} (hwf : (L i).Strict → Block.WellFormed v l block) :
    (L i).Rel true ((h.next fuel ev).runBlock (c i) a scope block)
      ((h'.next fuel ev').runBlock (c' i) a scope block) fun flow ↦
      (L i).Strict → flow = .leaveLoop → l = true := by
  have hstats : (L i).Strict → ∀ s ∈ block, s.WellFormed v l :=
    fun hs ↦ by cases hwf hs with | mk _ h₁ => exact h₁
  refine (L i).bind (hr.runStats i a scope hstats) fun flow hflow ↦ ?_
  split
  · exact (L i).pure fun _ hne ↦ nomatch hne
  · exact (L i).pure hflow

theorem runStats_next {stats : List Stat} (hwf : (L i).Strict → ∀ s ∈ stats, s.WellFormed v l) :
    (L i).Rel true ((h.next fuel ev).runStats (c i) a scope stats)
      ((h'.next fuel ev').runStats (c' i) a scope stats) fun flow ↦
      (L i).Strict → flow = .leaveLoop → l = true := by
  cases stats with
  | nil => exact (L i).pure fun _ hne ↦ nomatch hne
  | cons stat rest =>
      have hall := fun hs ↦ List.forall_mem_cons.1 (hwf hs)
      refine (L i).bind (hr.runStat i a scope fun hs ↦ (hall hs).1) fun flow hflow ↦ ?_
      split
      · exact hr.runStats i a _ fun hs ↦ (hall hs).2
      · exact (L i).pure hflow

theorem runWhile_next {condition : Expr} {block : Block}
    (hcondition : (L i).Strict → condition.WellFormed v)
    (hblock : (L i).Strict → Block.WellFormed v true block) :
    (L i).Rel true ((h.next fuel ev).runWhile (c i) a scope condition block)
      ((h'.next fuel ev').runWhile (c' i) a scope condition block) fun flow ↦
      flow ≠ .leaveLoop := by
  refine (L i).bind (hr.eval i a scope hcondition) fun v _ ↦ ?_
  split
  · refine (L i).bind (hr.runBlock i a scope hblock) fun flow _ ↦ ?_
    split
    · exact hr.runWhile i a scope hcondition hblock
    · exact (L i).pure nofun
    · next hne => exact (L i).pure hne
  · exact (L i).pure nofun

theorem runRepeat_next {block : Block} {condition : Expr}
    (hblock : (L i).Strict → Block.WellFormed v true block)
    (hcondition : (L i).Strict → condition.WellFormed v) :
    (L i).Rel true ((h.next fuel ev).runRepeat (c i) a scope block condition)
      ((h'.next fuel ev').runRepeat (c' i) a scope block condition) fun flow ↦
      flow ≠ .leaveLoop := by
  have hstats : (L i).Strict → ∀ s ∈ block, s.WellFormed v true :=
    fun hs ↦ by cases hblock hs with | mk _ h₁ => exact h₁
  refine (L i).bind (hr.runStats i a scope hstats) fun flow _ ↦ ?_
  split
  · refine (L i).bind (hr.eval i a _ hcondition) fun v _ ↦ ?_
    split
    · exact (L i).pure nofun
    · exact hr.runRepeat i a scope hblock hcondition
  · exact (L i).pure nofun
  · next hne => exact (L i).pure hne

theorem runClauses_next {clauses : List Clause} {otherwise : Option Block}
    (hclauses : (L i).Strict → ∀ cl ∈ clauses, cl.WellFormed v l)
    (hotherwise : (L i).Strict → ∀ block, otherwise = some block → Block.WellFormed v l block) :
    (L i).Rel true ((h.next fuel ev).runClauses (c i) a scope clauses otherwise)
      ((h'.next fuel ev').runClauses (c' i) a scope clauses otherwise) fun flow ↦
      (L i).Strict → flow = .leaveLoop → l = true := by
  match clauses with
  | [] =>
      cases otherwise with
      | none => exact (L i).pure fun _ hne ↦ nomatch hne
      | some block => exact hr.runBlock i a scope fun hs ↦ hotherwise hs block rfl
  | .mk condition block :: rest =>
      have hall := fun hs ↦ List.forall_mem_cons.1 (hclauses hs)
      have hparts : (L i).Strict → condition.WellFormed v ∧ Block.WellFormed v l block :=
        fun hs ↦ by cases (hall hs).1 with | mk h₁ h₂ => exact ⟨h₁, h₂⟩
      refine (L i).bind (hr.eval i a scope fun hs ↦ (hparts hs).1) fun v _ ↦ ?_
      split
      · exact hr.runBlock i a scope fun hs ↦ (hparts hs).2
      · exact hr.runClauses i a scope (fun hs ↦ (hall hs).2) hotherwise

theorem runCount_next (var : String) (first limit step : Float) {block : Block}
    (hblock : (L i).Strict → Block.WellFormed v true block) :
    (L i).Rel true ((h.next fuel ev).runCount (c i) a scope var first limit step block)
      ((h'.next fuel ev').runCount (c' i) a scope var first limit step block) fun flow ↦
      flow ≠ .leaveLoop := by
  dsimp only [Hooks.next]
  split
  · refine (L i).bind ((L i).newCell _) fun cell _ ↦ ?_
    refine (L i).bind (hr.runBlock i a _ hblock) fun flow _ ↦ ?_
    split
    · exact hr.runCount i a scope var _ limit step hblock
    · exact (L i).pure nofun
    · next hne => exact (L i).pure hne
  · exact (L i).pure nofun

include hh

theorem runIterator_next {names : List String} (hnames : (L i).Strict → names ≠ [])
    (iterator state control : Value) {block : Block}
    (hblock : (L i).Strict → Block.WellFormed v true block) :
    (L i).Rel true
      ((h.next fuel ev).runIterator (c i) a scope names iterator state control block)
      ((h'.next fuel ev').runIterator (c' i) a scope names iterator state control block)
      fun flow ↦ flow ≠ .leaveLoop := by
  refine (L i).bind (Agree.checkCallable ..) fun _ _ ↦ ?_
  refine (L i).bind (hr.call i ..) fun results _ ↦ ?_
  dsimp only
  split
  · exact (L i).pure nofun
  · split
    case' isTrue hempty =>
      refine (L i).bind (hh.stray i (fun hs ↦ hnames hs (List.isEmpty_iff.1 hempty))
        (Agree.declare ..)) fun vars _ ↦ ?_
    case' isFalse => refine (L i).bind (Agree.declare ..) fun vars _ ↦ ?_
    all_goals
      refine (L i).bind (hr.runBlock i a _ hblock) fun flow _ ↦ ?_
      split
      · exact hr.runIterator i a scope hnames iterator state _ hblock
      · exact (L i).pure nofun
      · next hne => exact (L i).pure hne

theorem evalPlaces_next {targets : List Expr}
    (htargets : (L i).Strict → ∀ e ∈ targets, e.isTarget = true)
    (hwf : (L i).Strict → ∀ e ∈ targets, e.WellFormed v) :
    (L i).Agree true ((h.next fuel ev).evalPlaces (c i) a scope targets)
      ((h'.next fuel ev').evalPlaces (c' i) a scope targets) := by
  cases targets with
  | nil => apply Agree.pure
  | cons target rest =>
      have hall := fun hs ↦ List.forall_mem_cons.1 (hwf hs)
      have htarget := fun hs ↦ List.forall_mem_cons.1 (htargets hs)
      have hrest (place : Place) : (L i).Agree true
          (do return place :: (← ev.evalPlaces (c i) a scope rest))
          (do return place :: (← ev'.evalPlaces (c' i) a scope rest)) :=
        (hr.evalPlaces i a scope (fun hs ↦ (htarget hs).2) fun hs ↦ (hall hs).2).bind
          fun _ ↦ .pure _
      dsimp only [Hooks.next]
      split
      · exact (Agree.pure _).bind hrest
      · next line object key =>
        have hparts : (L i).Strict → object.WellFormed v ∧ key.WellFormed v :=
          fun hs ↦ by cases (hall hs).1 with | index h₁ h₂ => exact ⟨h₁, h₂⟩
        refine (hr.eval i a scope fun hs ↦ (hparts hs).1).bind fun o ↦ ?_
        refine (hr.eval i a scope fun hs ↦ (hparts hs).2).bind fun k ↦ ?_
        exact (Agree.pure _).bind hrest
      · next hname hindex =>
        refine (hh.stray i (fun hs ↦ ?_) (Agree.here _)).bind hrest
        -- A target is a name or an index.
        have htarget := (htarget hs).1
        cases target <;> simp_all [Expr.isTarget]

theorem runStat_next (hc : ∀ j, (L j).Captures) {stat : Stat}
    (hwf : (L i).Strict → stat.WellFormed v l) :
    (L i).Rel true ((h.next fuel ev).runStat (c i) a scope stat)
      ((h'.next fuel ev').runStat (c' i) a scope stat) fun flow ↦
      (L i).Strict → flow = .leaveLoop → l = true := by
  have next {scope : Scope} : (L i).Rel true (Pure.pure (Flow.next scope))
      (Pure.pure (Flow.next scope)) fun flow ↦ (L i).Strict → flow = .leaveLoop → l = true :=
    (L i).pure fun _ hne ↦ by cases hne
  have around {r r' : Run Flow} (hr : (L i).Rel true r r' fun flow ↦ flow ≠ .leaveLoop) :
      (L i).Rel true r r' fun flow ↦ (L i).Strict → flow = .leaveLoop → l = true :=
    mono hr fun _ hne _ heq ↦ (hne heq).elim
  dsimp only [Hooks.next]
  refine whenFirst_to (Agree.goToLine _) fun _ ↦ ?_
  cases stat with
  | local_ line names values =>
      have hvalues : (L i).Strict → ∀ e ∈ values, e.WellFormed v :=
        fun hs ↦ by cases hwf hs with | local_ _ h₁ => exact h₁
      refine (L i).bind (hr.evalList i a scope hvalues) fun vs _ ↦ ?_
      exact (L i).bind (Agree.declare ..) fun vars _ ↦ next
  | localFunction line name body =>
      have hbody : (L i).Strict → body.WellFormed :=
        fun hs ↦ by cases hwf hs with | localFunction h₁ => exact h₁
      refine (L i).bind ((L i).newCell _) fun cell _ ↦ ?_
      refine (L i).bind (Agree.close hbody (hc i) ..) fun f _ ↦ ?_
      exact (L i).bind ((L i).writeCell ..) fun _ _ ↦ next
  | assign line targets values =>
      have hparts : (L i).Strict → (∀ e ∈ targets, e.isTarget = true) ∧
          (∀ e ∈ targets, e.WellFormed v) ∧ ∀ e ∈ values, e.WellFormed v :=
        fun hs ↦ by cases hwf hs with | assign h₁ h₂ h₃ => exact ⟨h₁, h₂, h₃⟩
      refine (L i).bind (hr.evalPlaces i a scope (fun hs ↦ (hparts hs).1)
        fun hs ↦ (hparts hs).2.1) fun places _ ↦ ?_
      refine (L i).bind (hr.evalList i a scope fun hs ↦ (hparts hs).2.2) fun vs _ ↦ ?_
      exact (L i).bind (hh.storeAll (hr.call i) ..) fun _ _ ↦ next
  | call line e =>
      have hparts : (L i).Strict → e.isCall = true ∧ e.WellFormed v :=
        fun hs ↦ by cases hwf hs with | call h₁ h₂ => exact ⟨h₁, h₂⟩
      have hcalled := hr.evalMulti i a scope fun hs ↦ (hparts hs).2
      dsimp only
      split
      · exact (L i).bind hcalled fun _ _ ↦ next
      · next hne =>
        exact (L i).bind (hh.stray i (fun hs ↦ hne (hparts hs).1) hcalled) fun _ _ ↦ next
  | do_ block =>
      have hblock : (L i).Strict → Block.WellFormed v l block :=
        fun hs ↦ by cases hwf hs with | do_ h₁ => exact h₁
      exact hr.runBlock i a scope hblock
  | while_ line condition block =>
      have hparts : (L i).Strict → condition.WellFormed v ∧ Block.WellFormed v true block :=
        fun hs ↦ by cases hwf hs with | while_ h₁ h₂ => exact ⟨h₁, h₂⟩
      exact around (hr.runWhile i a scope (fun hs ↦ (hparts hs).1) fun hs ↦ (hparts hs).2)
  | repeat_ line block condition =>
      have hparts : (L i).Strict → Block.WellFormed v true block ∧ condition.WellFormed v :=
        fun hs ↦ by cases hwf hs with | repeat_ h₁ h₂ => exact ⟨h₁, h₂⟩
      exact around (hr.runRepeat i a scope (fun hs ↦ (hparts hs).1) fun hs ↦ (hparts hs).2)
  | if_ line clauses otherwise =>
      have hparts : (L i).Strict → (∀ cl ∈ clauses, cl.WellFormed v l) ∧
          ∀ block, otherwise = some block → Block.WellFormed v l block :=
        fun hs ↦ by cases hwf hs with | if_ _ h₁ h₂ => exact ⟨h₁, h₂⟩
      exact hr.runClauses i a scope (fun hs ↦ (hparts hs).1) fun hs ↦ (hparts hs).2
  | numericFor line var start limit step block =>
      have hparts : (L i).Strict → start.WellFormed v ∧ limit.WellFormed v ∧
          (∀ e, step = some e → e.WellFormed v) ∧ Block.WellFormed v true block :=
        fun hs ↦ by cases hwf hs with | numericFor h₁ h₂ h₃ h₄ => exact ⟨h₁, h₂, h₃, h₄⟩
      have hcount (i₁ limit step : Float) :=
        around (hr.runCount i a scope var i₁ limit step fun hs ↦ (hparts hs).2.2.2)
      refine (L i).bind (hr.eval i a scope fun hs ↦ (hparts hs).1) fun v _ ↦ ?_
      refine (L i).bind (Agree.loopNumber ..) fun i₁ _ ↦ ?_
      refine (L i).bind (hr.eval i a scope fun hs ↦ (hparts hs).2.1) fun v _ ↦ ?_
      refine (L i).bind (Agree.loopNumber ..) fun limit _ ↦ ?_
      cases step with
      | none => exact (L i).bind (Agree.pure _) fun step _ ↦ hcount ..
      | some e =>
          refine (L i).bind (hr.eval i a scope fun hs ↦ (hparts hs).2.2.1 e rfl) fun v _ ↦ ?_
          exact (L i).bind (Agree.loopNumber ..) fun step _ ↦ hcount ..
  | genericFor line names values block =>
      have hparts : (L i).Strict → names ≠ [] ∧ (∀ e ∈ values, e.WellFormed v) ∧
          Block.WellFormed v true block :=
        fun hs ↦ by cases hwf hs with | genericFor h₁ h₂ h₃ => exact ⟨h₁, h₂, h₃⟩
      refine (L i).bind (hr.evalList i a scope fun hs ↦ (hparts hs).2.1) fun vs _ ↦ ?_
      exact around (hr.runIterator i a scope (fun hs ↦ (hparts hs).1) _ _ _
        fun hs ↦ (hparts hs).2.2)
  | function line path method body =>
      have hparts : (L i).Strict → path ≠ [] ∧ body.WellFormed :=
        fun hs ↦ by cases hwf hs with | function h₁ h₂ => exact ⟨h₁, h₂⟩
      refine (L i).bind (Agree.close (fun hs ↦ (hparts hs).2) (hc i) ..) fun f _ ↦ ?_
      have hstored := hh.storeFunction (hr.call i) (m := true) scope f (path ++ method.toList)
      split
      · next hempty =>
        exact (L i).bind (hh.stray i (fun hs ↦ (hparts hs).1 (List.isEmpty_iff.1 hempty)) hstored)
          fun _ _ ↦ next
      · exact (L i).bind hstored fun _ _ ↦ next
  | return_ line values =>
      have hvalues : (L i).Strict → ∀ e ∈ values, e.WellFormed v :=
        fun hs ↦ by cases hwf hs with | return_ h₁ => exact h₁
      exact (L i).bind (hr.evalList i a scope hvalues) fun vs _ ↦
        (L i).pure fun _ hne ↦ by cases hne
  | break_ line => exact (L i).pure fun hs _ ↦ by cases hwf hs with | break_ => rfl

/-- No loop is around the block of a body, so that the body is not left through a loop. -/
theorem runBody_next {body : Body} (hwf : (L i).Strict → body.WellFormed) (chunk : String)
    (args : List Value) :
    (L i).Agree true ((h.next fuel ev).runBody (c i) body chunk scope args)
      ((h'.next fuel ev').runBody (c' i) body chunk scope args) := by
  have hblock : (L i).Strict → Block.WellFormed body.isVararg false body.block :=
    fun hs ↦ by cases hwf hs with | mk h₁ => exact h₁
  refine (Agree.declare ..).bind fun params ↦ ?_
  refine (L i).bind (hr.runBlock i _ _ hblock) fun flow hflow ↦ ?_
  cases flow with
  | leaveFunction values => apply Agree.pure
  | leaveLoop => exact hh.stray i (fun hs ↦ nomatch hflow hs rfl) (Agree.pure _)
  | next scope => apply Agree.pure

end Statements

include hh in
theorem call_next {m : Bool} :
    (L i).Callers m ((h.next fuel ev).call (c i)) ((h'.next fuel ev').call (c' i)) := by
  intro f args name
  cases f with
  | function r =>
      refine (L i).bind ((L i).function? r) fun f? hf ↦ ?_
      match f? with
      | none => apply Agree.pure
      | some (.native _ op) =>
          exact (L i).activate (hh.native i fuel op args fun j m ↦ hr.call j)
      | some (.script body chunk scope) =>
          exact (L i).activate (hr.runBody i (hf body chunk scope rfl) chunk scope args)
  | nil | boolean | number | string | table | userdata | thread =>
      refine (Agree.metaField ..).bind fun handler ↦ ?_
      split
      · exact hr.call i ..
      · apply Agree.here

include hh in
/-- The next levels on top of two related evaluators are related. -/
theorem next (hc : ∀ j, (L j).Captures) (fuel : Nat) :
    Related L c c' (h.next fuel ev) (h'.next fuel ev') where
  call i _ := hr.call_next hh i
  runBody i _ hwf chunk scope args := hr.runBody_next hh i scope hwf chunk args
  runBlock := hr.runBlock_next
  runStats := hr.runStats_next
  runStat i _ _ a scope _ := hr.runStat_next hh i a scope hc
  runWhile := hr.runWhile_next
  runRepeat := hr.runRepeat_next
  runClauses := hr.runClauses_next
  runCount := hr.runCount_next
  runIterator := hr.runIterator_next hh
  evalPlaces := hr.evalPlaces_next hh
  evalList := hr.evalList_next
  evalMulti := hr.evalMulti_next
  eval i _ a scope _ := hr.eval_next i a scope hc
  evalFields := hr.evalFields_next

omit hr in
theorem spent : Related L c c' .spent .spent := by
  constructor <;> intros <;> first | exact (L _).abort _ | exact fun _ _ _ ↦ (L _).abort _

/-- Something may be done with all that the first evaluator runs if the logics allow it. -/
theorem wrap {w : γ → {α : Type} → Run α → Run α}
    (hw : ∀ i {m α} {r r' : Run α} {P}, (L i).Rel m r r' P → (L i).Rel m (w (c i) r) r' P) :
    Related L c c' (ev.wrap w) ev' where
  call i _ f args name := hw i (hr.call i f args name)
  runBody i _ hwf chunk scope args := hw i (hr.runBody i hwf chunk scope args)
  runBlock i _ _ a scope _ hwf := hw i (hr.runBlock i a scope hwf)
  runStats i _ _ a scope _ hwf := hw i (hr.runStats i a scope hwf)
  runStat i _ _ a scope _ hwf := hw i (hr.runStat i a scope hwf)
  runWhile i _ a scope _ _ hcondition hblock := hw i (hr.runWhile i a scope hcondition hblock)
  runRepeat i _ a scope _ _ hblock hcondition := hw i (hr.runRepeat i a scope hblock hcondition)
  runClauses i _ _ a scope _ _ hclauses hotherwise :=
    hw i (hr.runClauses i a scope hclauses hotherwise)
  runCount i _ a scope var first limit step _ hblock :=
    hw i (hr.runCount i a scope var first limit step hblock)
  runIterator i _ a scope _ hnames iterator state control _ hblock :=
    hw i (hr.runIterator i a scope hnames iterator state control hblock)
  evalPlaces i _ a scope _ htargets hwf := hw i (hr.evalPlaces i a scope htargets hwf)
  evalList i _ a scope _ hwf := hw i (hr.evalList i a scope hwf)
  evalMulti i _ a scope _ hwf := hw i (hr.evalMulti i a scope hwf)
  eval i _ a scope _ hwf := hw i (hr.eval i a scope hwf)
  evalFields i _ a scope _ ht first _ hwf := hw i (hr.evalFields i a scope ht first hwf)

end Related

/-- If what the hooks do is related, the evaluations with any bound are. -/
theorem related (hh : HooksAgree L h h' c c') (hc : ∀ i, (L i).Captures) (fuel : Nat) :
    Related L c c' (Hooked.evaluator h fuel) (Hooked.evaluator h' fuel) := by
  induction fuel with
  | zero =>
      rw [Hooked.evaluator_zero, Hooked.evaluator_zero]
      exact .spent
  | succ fuel ih =>
      rw [Hooked.evaluator_succ, Hooked.evaluator_succ]
      exact ih.next hh hc fuel

/-- Something may be done with whatever a level of the first evaluation runs, if the logics allow
it. -/
theorem related_watched (hh : HooksAgree L h h' c c') (hc : ∀ i, (L i).Captures)
    {w : γ → {α : Type} → Run α → Run α}
    (hw : ∀ i {m α} {r r' : Run α} {P}, (L i).Rel m r r' P → (L i).Rel m (w (c i) r) r' P)
    (fuel : Nat) : Related L c c' (h.watched w fuel) (Hooked.evaluator h' fuel) := by
  induction fuel with
  | zero =>
      rw [Hooked.evaluator_zero]
      exact .spent
  | succ fuel ih =>
      rw [Hooked.evaluator_succ]
      exact (ih.next hh hc fuel).wrap hw

/-- If what the hooks do is related, executions are. -/
theorem HooksAgree.executeBytes (hh : HooksAgree L h h' c c') (hc : ∀ i, (L i).Captures) (i : ι)
    {m : Bool} (fuel : Nat) (source : List UInt8) (chunk : String) (args : List Value) :
    (L i).Agree m (Hooked.executeBytes h fuel (c i) source chunk args)
      (Hooked.executeBytes h' fuel (c' i) source chunk args) :=
  (Agree.loadBytes ..).bind fun _ ↦ ((related hh hc fuel).call i ..).protect

end Hooks

/-! ## Without hooks -/

section Plain

variable {L : Run.Logic} {m : Bool} (hreg : L.Registers) (hw : ∀ r s, L.Writes r s)
  (ha : L.Attaches) (hs : L.Shares) (hc : L.Catches)

include hreg hw ha hs hc

/-- A logic that holds nothing back allows all that host functions and assignments do. -/
theorem HooksAgree.plain : HooksAgree (fun _ : Unit ↦ L) .plain .plain id id where
  native _ _ fuel _ _ op args hcall :=
    .native hreg (hcall () _) fuel op args (fun _ ↦ hw) (fun _ ↦ ha) (fun _ ↦ hs) fun _ ↦ hc
  store _ _ _ _ v := .storeRaw (fun _ _ ↦ hw _ _) v
  stray _ _ _ _ _ h := h

theorem Agree.setIndex {call call' : Caller} (hcall : L.Callers m call call')
    (v key value : Value) :
    L.Agree m (Operation.setIndex call v key value) (Operation.setIndex call' v key value) := by
  rw [← Hooked.setIndex_plain, ← Hooked.setIndex_plain]
  exact (HooksAgree.plain hreg hw ha hs hc).setIndex (i := ()) hcall v key value

end Plain

end LuaEmbed.Run.Logic
