import LuaEmbed.Proofs.Runs.Lines

/-!
# Where script functions make calls

A call, a method call, an index and an operation make their calls, of functions and of handlers
alike, when their script function is at the line recorded for the expression.  The operands may have
been anywhere; the function goes to the line once they have values.

A loop over an iterator does not go to its line again.  It makes its first call where the values that
it is over have left the function, and the later ones where its block has.  So the function is at the
line of the loop only if the code in between records no other.

This is said of evaluation in which something else is done where a call would be made at another
line.  It is evaluation as it is, whatever that may be.
-/

namespace LuaEmbed

/-- Calls are made where the running function is at one of some lines, if any are given.  Elsewhere
something else is done. -/
def Caller.onLines (astray : Caller) : Option (List Nat) → Caller → Caller
  | none, call => call
  | some lines, call => fun f args name s ↦
    if s.OnLine lines then call f args name s else astray f args name s

/-- The line at which an expression makes the calls that it makes itself, if it records one. -/
def Expr.callLines? : Expr → Option (List Nat)
  | .index line .. | .call line .. | .method line .. => some [line]
  | .binary line .. | .unary line .. => some [line]
  | _ => none

/-- The lines at which a loop may call its iterator for the first time: its own, and those that the
values record which it is over. -/
def Stat.iteratorLines? : Stat → Option (List Nat)
  | .genericFor line _ values _ => if 0 < line then some (line :: Expr.linesOfAll values) else none
  | _ => none

namespace Evaluator

variable (astray : Caller)

/-- The calls that a level makes itself are made at some lines. -/
def callingOn (lines? : Option (List Nat)) (ev : Evaluator Unit) : Evaluator Unit :=
  { ev with call := fun c ↦ Caller.onLines astray lines? (ev.call c) }

/-- One level of evaluation in which expressions make calls at their lines, and a loop calls its
iterator at given ones.  Before a later call its block may have gone to others. -/
def sitedNext (fuel : Nat) (ev : Option (List Nat) → Evaluator Unit) (lines? : Option (List Nat)) :
    Evaluator Unit :=
  { Hooks.plain.next fuel (ev none) with
    eval := fun c a scope e ↦
      (Hooks.plain.next fuel ((ev none).callingOn astray e.callLines?)).eval c a scope e
    evalMulti := fun c a scope e ↦
      (Hooks.plain.next fuel ((ev none).callingOn astray e.callLines?)).evalMulti c a scope e
    runStat := fun c a scope stat ↦
      (Hooks.plain.next fuel
        { ev none with runIterator := (ev stat.iteratorLines?).runIterator }).runStat c a scope stat
    runIterator := fun c a scope names iterator state control block ↦
      (Hooks.plain.next fuel
        { (ev none).callingOn astray lines? with
          runIterator := (ev (lines?.map (· ++ Stat.linesOfAll block))).runIterator }).runIterator
        c a scope names iterator state control block }

/-- Evaluation in which calls are made at the lines of their sites. -/
def sited : Nat → Option (List Nat) → Evaluator Unit
  | 0, _ => .spent
  | fuel + 1, lines? => sitedNext astray fuel (sited fuel) lines?

end Evaluator

namespace Run.Tracks

variable {T S : List Nat}

/-- A call is made at the lines where it may be made. -/
theorem Callers.onLines (astray : Caller) {call : Caller} (hcall : call.Regular false) :
    Callers T (Caller.onLines astray (some T) call) call := fun f args name ↦
  { eq := fun hs ↦ if_pos hs, onLine := (keeps (Regular.callers hcall f args name)).onLine }

theorem Callers.onLines? (astray : Caller) {call : Caller} (hcall : call.Regular false)
    (lines? : Option (List Nat)) :
    Callers (lines?.getD S) (Caller.onLines astray lines? call) call := by
  cases lines? with
  | none => exact fun f args name ↦ keeps (Regular.callers hcall f args name)
  | some lines => exact .onLines astray hcall

end Run.Tracks

namespace Evaluator

open Run

/-- The first evaluators do the same as the second one where the running function is at one of some
lines, if these are all that the code records, and leave it at one of them.  The loop of an iterator
may start elsewhere among them. -/
structure Follows (ev : Option (List Nat) → Evaluator Unit) (ev' : Evaluator Unit) : Prop where
  call : (ev none).call () = ev'.call ()
  regular : (ev'.call ()).Regular false
  runBody {S : List Nat} {body : Body} (hlines : Stat.linesOfAll body.block ⊆ S) (chunk : String)
    (scope : Scope) (args : List Value) :
    Tracks S S ((ev none).runBody () body chunk scope args) (ev'.runBody () body chunk scope args)
  runBlock {S : List Nat} (a : Activation) (scope : Scope) {block : Block}
    (hlines : Stat.linesOfAll block ⊆ S) :
    Tracks S S ((ev none).runBlock () a scope block) (ev'.runBlock () a scope block)
  runStats {S : List Nat} (a : Activation) (scope : Scope) {stats : List Stat}
    (hlines : Stat.linesOfAll stats ⊆ S) :
    Tracks S S ((ev none).runStats () a scope stats) (ev'.runStats () a scope stats)
  runStat {S : List Nat} (a : Activation) (scope : Scope) {stat : Stat}
    (hlines : stat.lines ⊆ S) :
    Tracks S S ((ev none).runStat () a scope stat) (ev'.runStat () a scope stat)
  runWhile {S : List Nat} (a : Activation) (scope : Scope) {condition : Expr} {block : Block}
    (hcondition : condition.lines ⊆ S) (hblock : Stat.linesOfAll block ⊆ S) :
    Tracks S S ((ev none).runWhile () a scope condition block)
      (ev'.runWhile () a scope condition block)
  runRepeat {S : List Nat} (a : Activation) (scope : Scope) {block : Block} {condition : Expr}
    (hblock : Stat.linesOfAll block ⊆ S) (hcondition : condition.lines ⊆ S) :
    Tracks S S ((ev none).runRepeat () a scope block condition)
      (ev'.runRepeat () a scope block condition)
  runClauses {S : List Nat} (a : Activation) (scope : Scope) {clauses : List Clause}
    {otherwise : Option Block} (hclauses : Clause.linesOfAll clauses ⊆ S)
    (hotherwise : ∀ block, otherwise = some block → Stat.linesOfAll block ⊆ S) :
    Tracks S S ((ev none).runClauses () a scope clauses otherwise)
      (ev'.runClauses () a scope clauses otherwise)
  runCount {S : List Nat} (a : Activation) (scope : Scope) (var : String)
    (first limit step : Float) {block : Block} (hblock : Stat.linesOfAll block ⊆ S) :
    Tracks S S ((ev none).runCount () a scope var first limit step block)
      (ev'.runCount () a scope var first limit step block)
  runIterator {S : List Nat} {lines? : Option (List Nat)} (hlines : lines?.getD S ⊆ S)
    (a : Activation) (scope : Scope) (names : List String) (iterator state control : Value)
    {block : Block} (hblock : Stat.linesOfAll block ⊆ S) :
    Tracks (lines?.getD S) S
      ((ev lines?).runIterator () a scope names iterator state control block)
      (ev'.runIterator () a scope names iterator state control block)
  evalPlaces {S : List Nat} (a : Activation) (scope : Scope) {targets : List Expr}
    (hlines : Expr.linesOfAll targets ⊆ S) :
    Tracks S S ((ev none).evalPlaces () a scope targets) (ev'.evalPlaces () a scope targets)
  evalList {S : List Nat} (a : Activation) (scope : Scope) {es : List Expr}
    (hlines : Expr.linesOfAll es ⊆ S) :
    Tracks S S ((ev none).evalList () a scope es) (ev'.evalList () a scope es)
  evalMulti {S : List Nat} (a : Activation) (scope : Scope) {e : Expr} (hlines : e.lines ⊆ S) :
    Tracks S S ((ev none).evalMulti () a scope e) (ev'.evalMulti () a scope e)
  eval {S : List Nat} (a : Activation) (scope : Scope) {e : Expr} (hlines : e.lines ⊆ S) :
    Tracks S S ((ev none).eval () a scope e) (ev'.eval () a scope e)
  evalFields {S : List Nat} (a : Activation) (scope : Scope) (t : Ref) (first : Nat)
    {fields : List Field} (hlines : Field.linesOfAll fields ⊆ S) :
    Tracks S S ((ev none).evalFields () a scope t first fields)
      (ev'.evalFields () a scope t first fields)

namespace Follows

variable {astray : Caller} {ev : Option (List Nat) → Evaluator Unit} {ev' : Evaluator Unit}
  {fuel : Nat} {S : List Nat} (hr : Follows ev ev')

include hr

theorem callers (lines? : Option (List Nat)) :
    Tracks.Callers (lines?.getD S) (Caller.onLines astray lines? ((ev none).call ()))
      (ev'.call ()) := by
  rw [hr.call]
  exact .onLines? astray hr.regular lines?

/-- Calls that are made at a line only are the same there. -/
theorem callersAt (line : Nat) :
    Tracks.Callers [line] (Caller.onLines astray (some [line]) ((ev none).call ()))
      (ev'.call ()) := hr.callers (S := []) (some [line])

/-! ### Expressions -/

section Expressions

variable (a : Activation) (scope : Scope)

theorem evalMulti_next {e : Expr} (hlines : e.lines ⊆ S) :
    Tracks S S ((sitedNext astray fuel ev none).evalMulti () a scope e)
      ((Hooks.plain.next fuel ev').evalMulti () a scope e) := by
  dsimp only [sitedNext, Hooks.next]
  split
  · apply Tracks.pure
  · next line callee args =>
    obtain ⟨hline, hparts⟩ := List.cons_subset.1 hlines
    obtain ⟨hcallee, hargs⟩ := List.append_subset.1 hparts
    refine (hr.eval a scope hcallee).bind fun f ↦ (hr.evalList a scope hargs).bind fun vs ↦ ?_
    refine .atLine hline ((Tracks.keeps (.checkCallable ..)).bind fun _ ↦ ?_)
    exact hr.callersAt line ..
  · next line object name args =>
    obtain ⟨hline, hparts⟩ := List.cons_subset.1 hlines
    obtain ⟨hobject, hargs⟩ := List.append_subset.1 hparts
    refine (hr.eval a scope hobject).bind fun o ↦ ?_
    refine (Tracks.goToLine line).bind fun _ ↦ ?_
    refine (Tracks.getField (hr.callersAt line) ..).bind fun f ↦ ?_
    -- The arguments may move the function away from the line again.
    refine Tracks.fromLine ?_ hline
    refine (hr.evalList a scope hargs).bind fun vs ↦ ?_
    refine .atLine hline ((Tracks.keeps (.checkCallable ..)).bind fun _ ↦ ?_)
    exact hr.callersAt line ..
  · exact (hr.eval a scope hlines).bind fun v ↦ .pure _

theorem eval_next {e : Expr} (hlines : e.lines ⊆ S) :
    Tracks S S ((sitedNext astray fuel ev none).eval () a scope e)
      ((Hooks.plain.next fuel ev').eval () a scope e) := by
  cases e with
  | nil | true_ | false_ | number | string | vararg => apply Tracks.pure
  | function body => exact .keeps (.close False.elim trivial ..)
  | name x =>
      have heq : (ev none).call () = ev'.call () := hr.call
      change Tracks S S (Evaluation.getName ((ev none).call ()) scope x) _
      rw [heq]
      exact .keeps (.getName (Regular.callers hr.regular) ..)
  | index line object key =>
      obtain ⟨hline, hparts⟩ := List.cons_subset.1 hlines
      obtain ⟨hobject, hkey⟩ := List.append_subset.1 hparts
      refine (hr.eval a scope hobject).bind fun o ↦ (hr.eval a scope hkey).bind fun k ↦ ?_
      exact .atLine hline (.getField (hr.callersAt line) ..)
  | call | method => exact (hr.evalMulti a scope hlines).bind fun vs ↦ .pure _
  | table fields =>
      refine (Tracks.keeps ⟨.newTable, fun _ _ _ _ ↦ trivial⟩).bind fun t ↦ ?_
      exact (hr.evalFields a scope t _ hlines).bind fun _ ↦ .pure _
  | binary line op left right =>
      obtain ⟨hline, hparts⟩ := List.cons_subset.1 hlines
      obtain ⟨hleft, hright⟩ := List.append_subset.1 hparts
      refine (hr.eval a scope hleft).bind fun l ↦ ?_
      have hright := hr.eval a scope hright
      split
      · apply Tracks.pure
      · apply Tracks.pure
      · exact hright
      · exact hright
      · exact hright.bind fun r ↦ .atLine hline (.binary (hr.callersAt line) ..)
  | unary line op operand =>
      obtain ⟨hline, hoperand⟩ := List.cons_subset.1 hlines
      refine (hr.eval a scope hoperand).bind fun v ↦ ?_
      exact .atLine hline (.unary (hr.callersAt line) ..)
  | paren inner => exact hr.eval a scope hlines

theorem evalList_next {es : List Expr} (hlines : Expr.linesOfAll es ⊆ S) :
    Tracks S S ((sitedNext astray fuel ev none).evalList () a scope es)
      ((Hooks.plain.next fuel ev').evalList () a scope es) := by
  match es with
  | [] => apply Tracks.pure
  | [e] => exact hr.evalMulti a scope (List.append_subset.1 hlines).1
  | e :: e' :: rest =>
      obtain ⟨he, hrest⟩ := List.append_subset.1 hlines
      refine (hr.eval a scope he).bind fun v ↦ ?_
      exact (hr.evalList a scope hrest).bind fun vs ↦ .pure _

theorem evalFields_next (t : Ref) (first : Nat) {fields : List Field}
    (hlines : Field.linesOfAll fields ⊆ S) :
    Tracks S S ((sitedNext astray fuel ev none).evalFields () a scope t first fields)
      ((Hooks.plain.next fuel ev').evalFields () a scope t first fields) := by
  match fields with
  | [] => apply Tracks.pure
  | .keyed key value :: rest =>
      obtain ⟨hfield, hrest⟩ := List.append_subset.1 hlines
      obtain ⟨hkey, hvalue⟩ := List.append_subset.1 hfield
      refine (hr.eval a scope hkey).bind fun k ↦ (hr.eval a scope hvalue).bind fun v ↦ ?_
      refine (Tracks.keeps (.storeRaw (fun _ _ ↦ trivial) _)).bind fun _ ↦ ?_
      exact hr.evalFields a scope t _ hrest
  | [.positional e] =>
      refine (hr.evalMulti a scope (List.append_subset.1 hlines).1).bind fun vs ↦ ?_
      exact .keeps ⟨.modifyTable .., fun _ _ _ _ ↦ trivial⟩
  | .positional e :: f :: rest =>
      obtain ⟨he, hrest⟩ := List.append_subset.1 hlines
      refine (hr.eval a scope he).bind fun v ↦ (Tracks.keeps (.setInt ..)).bind fun _ ↦ ?_
      exact hr.evalFields a scope t _ hrest

theorem evalPlaces_next {targets : List Expr} (hlines : Expr.linesOfAll targets ⊆ S) :
    Tracks S S ((sitedNext astray fuel ev none).evalPlaces () a scope targets)
      ((Hooks.plain.next fuel ev').evalPlaces () a scope targets) := by
  cases targets with
  | nil => apply Tracks.pure
  | cons target rest =>
      obtain ⟨htarget, hrest⟩ := List.append_subset.1 hlines
      have hplaces (place : Place) := (hr.evalPlaces a scope hrest).bind fun places ↦
        Tracks.pure (T := S) (place :: places)
      dsimp only [sitedNext, Hooks.next]
      split
      · exact (Tracks.pure _).bind hplaces
      · next line object key =>
        obtain ⟨hobject, hkey⟩ := List.append_subset.1 (List.cons_subset.1 htarget).2
        refine (hr.eval a scope hobject).bind fun o ↦ (hr.eval a scope hkey).bind fun k ↦ ?_
        exact (Tracks.pure _).bind hplaces
      · exact (Tracks.here _).bind hplaces

end Expressions

/-! ### Statements -/

section Statements

variable (a : Activation) (scope : Scope)

theorem runBlock_next {block : Block} (hlines : Stat.linesOfAll block ⊆ S) :
    Tracks S S ((sitedNext astray fuel ev none).runBlock () a scope block)
      ((Hooks.plain.next fuel ev').runBlock () a scope block) := by
  refine (hr.runStats a scope hlines).bind fun flow ↦ ?_
  split <;> apply Tracks.pure

theorem runStats_next {stats : List Stat} (hlines : Stat.linesOfAll stats ⊆ S) :
    Tracks S S ((sitedNext astray fuel ev none).runStats () a scope stats)
      ((Hooks.plain.next fuel ev').runStats () a scope stats) := by
  cases stats with
  | nil => apply Tracks.pure
  | cons stat rest =>
      obtain ⟨hstat, hrest⟩ := List.append_subset.1 hlines
      refine (hr.runStat a scope hstat).bind fun flow ↦ ?_
      split
      · exact hr.runStats a _ hrest
      · apply Tracks.pure

theorem runWhile_next {condition : Expr} {block : Block} (hcondition : condition.lines ⊆ S)
    (hblock : Stat.linesOfAll block ⊆ S) :
    Tracks S S ((sitedNext astray fuel ev none).runWhile () a scope condition block)
      ((Hooks.plain.next fuel ev').runWhile () a scope condition block) := by
  refine (hr.eval a scope hcondition).bind fun v ↦ ?_
  split
  · refine (hr.runBlock a scope hblock).bind fun flow ↦ ?_
    split
    · exact hr.runWhile a scope hcondition hblock
    · apply Tracks.pure
    · apply Tracks.pure
  · apply Tracks.pure

theorem runRepeat_next {block : Block} {condition : Expr} (hblock : Stat.linesOfAll block ⊆ S)
    (hcondition : condition.lines ⊆ S) :
    Tracks S S ((sitedNext astray fuel ev none).runRepeat () a scope block condition)
      ((Hooks.plain.next fuel ev').runRepeat () a scope block condition) := by
  refine (hr.runStats a scope hblock).bind fun flow ↦ ?_
  split
  · refine (hr.eval a _ hcondition).bind fun v ↦ ?_
    split
    · apply Tracks.pure
    · exact hr.runRepeat a scope hblock hcondition
  · apply Tracks.pure
  · apply Tracks.pure

theorem runClauses_next {clauses : List Clause} {otherwise : Option Block}
    (hclauses : Clause.linesOfAll clauses ⊆ S)
    (hotherwise : ∀ block, otherwise = some block → Stat.linesOfAll block ⊆ S) :
    Tracks S S ((sitedNext astray fuel ev none).runClauses () a scope clauses otherwise)
      ((Hooks.plain.next fuel ev').runClauses () a scope clauses otherwise) := by
  match clauses with
  | [] =>
      cases otherwise with
      | none => apply Tracks.pure
      | some block => exact hr.runBlock a scope (hotherwise block rfl)
  | .mk condition block :: rest =>
      obtain ⟨hclause, hrest⟩ := List.append_subset.1 hclauses
      obtain ⟨hcondition, hblock⟩ := List.append_subset.1 hclause
      refine (hr.eval a scope hcondition).bind fun v ↦ ?_
      split
      · exact hr.runBlock a scope hblock
      · exact hr.runClauses a scope hrest hotherwise

theorem runCount_next (var : String) (first limit step : Float) {block : Block}
    (hblock : Stat.linesOfAll block ⊆ S) :
    Tracks S S ((sitedNext astray fuel ev none).runCount () a scope var first limit step block)
      ((Hooks.plain.next fuel ev').runCount () a scope var first limit step block) := by
  dsimp only [sitedNext, Hooks.next]
  split
  · refine (Tracks.keeps (.newCell _)).bind fun cell ↦ (hr.runBlock a _ hblock).bind fun flow ↦ ?_
    split
    · exact hr.runCount a scope var _ limit step hblock
    · apply Tracks.pure
    · apply Tracks.pure
  · apply Tracks.pure

/-- After a block the loop is at one of the lines that it was at, or that the block records. -/
theorem runIterator_next {lines? : Option (List Nat)} (hlines : lines?.getD S ⊆ S)
    (names : List String) (iterator state control : Value) {block : Block}
    (hblock : Stat.linesOfAll block ⊆ S) :
    Tracks (lines?.getD S) S
      ((sitedNext astray fuel ev lines?).runIterator () a scope names iterator state control block)
      ((Hooks.plain.next fuel ev').runIterator () a scope names iterator state control block) := by
  let later? := lines?.map (· ++ Stat.linesOfAll block)
  have hlater : later?.getD S ⊆ S := by
    cases lines? with
    | none => exact hlines
    | some lines => exact List.append_subset.2 ⟨hlines, hblock⟩
  have hstart : lines?.getD S ⊆ later?.getD S := by
    cases lines? with
    | none => exact List.Subset.refl S
    | some lines => exact List.subset_append_left ..
  have hinner : Stat.linesOfAll block ⊆ later?.getD S := by
    cases lines? with
    | none => exact hblock
    | some lines => exact List.subset_append_right ..
  have leave (flow : Flow) : Tracks (later?.getD S) S (Pure.pure flow) (Pure.pure flow) :=
    (Tracks.pure flow).mono (List.Subset.refl _) hlater
  refine (Tracks.keeps (.checkCallable ..)).bind fun _ ↦ ?_
  refine (hr.callers lines? ..).bind fun results ↦ Tracks.mono ?_ hstart (List.Subset.refl S)
  simp only [Hooked.stray_plain, ite_self]
  split
  · apply leave
  · refine (Tracks.keeps (.declare ..)).bind fun vars ↦ (hr.runBlock a _ hinner).bind fun flow ↦ ?_
    split
    · exact hr.runIterator hlater a scope names iterator state _ hblock
    · apply leave
    · apply leave

theorem runStat_next {stat : Stat} (hlines : stat.lines ⊆ S) :
    Tracks S S ((sitedNext astray fuel ev none).runStat () a scope stat)
      ((Hooks.plain.next fuel ev').runStat () a scope stat) := by
  have hstart {k k' : Unit → Run Flow} (h : Tracks S S (k ()) (k' ())) :
      Tracks S S (if 0 < stat.line then Evaluation.goToLine stat.line >>= k else k ())
        (if 0 < stat.line then Evaluation.goToLine stat.line >>= k' else k' ()) := by
    split
    · next hline =>
      exact (Tracks.goToLine _).bind fun _ ↦ h.fromLine (hlines (Stat.line_mem_lines hline))
    · exact h
  have hcallers := Regular.callers hr.regular
  dsimp only [sitedNext, Hooks.next]
  cases stat with
  | local_ line names values =>
      refine hstart ?_
      refine (hr.evalList a scope (List.cons_subset.1 hlines).2).bind fun vs ↦ ?_
      exact (Tracks.keeps (.declare ..)).bind fun vars ↦ .pure _
  | localFunction line name body =>
      refine hstart ?_
      refine (Tracks.keeps (.newCell _)).bind fun cell ↦ ?_
      refine (Tracks.keeps (.close False.elim trivial ..)).bind fun f ↦ ?_
      exact (Tracks.keeps (.writeCell ..)).bind fun _ ↦ .pure _
  | assign line targets values =>
      obtain ⟨htargets, hvalues⟩ := List.append_subset.1 (List.cons_subset.1 hlines).2
      refine hstart ?_
      refine (hr.evalPlaces a scope htargets).bind fun places ↦ ?_
      refine (hr.evalList a scope hvalues).bind fun vs ↦ ?_
      rw [hr.call]
      exact (Tracks.keeps (Regular.plain_agree.storeAll (i := ()) hcallers ..)).bind
        fun _ ↦ .pure _
  | call line e =>
      refine hstart ?_
      simp only [Hooked.stray_plain, ite_self]
      exact (hr.evalMulti a scope (List.cons_subset.1 hlines).2).bind fun _ ↦ .pure _
  | do_ block =>
      refine hstart ?_
      exact hr.runBlock a scope hlines
  | while_ line condition block =>
      obtain ⟨hcondition, hblock⟩ := List.append_subset.1 (List.cons_subset.1 hlines).2
      refine hstart ?_
      exact hr.runWhile a scope hcondition hblock
  | repeat_ line block condition =>
      obtain ⟨hblock, hcondition⟩ := List.append_subset.1 (List.cons_subset.1 hlines).2
      refine hstart ?_
      exact hr.runRepeat a scope hblock hcondition
  | if_ line clauses otherwise =>
      refine hstart ?_
      cases otherwise with
      | none => exact hr.runClauses a scope (List.cons_subset.1 hlines).2 fun _ h ↦ nomatch h
      | some block =>
          obtain ⟨hclauses, hblock⟩ := List.append_subset.1 (List.cons_subset.1 hlines).2
          exact hr.runClauses a scope hclauses fun block' heq ↦ Option.some.inj heq ▸ hblock
  | numericFor line var start limit step block =>
      refine hstart ?_
      have hnumber (what : LoopNumber) {e : Expr} (he : e.lines ⊆ S) {k k' : Float → Run Flow}
          (hk : ∀ n, Tracks S S (k n) (k' n)) :
          Tracks S S ((ev none).eval () a scope e >>= fun v ↦ Evaluation.loopNumber what v >>= k)
            (ev'.eval () a scope e >>= fun v ↦ Evaluation.loopNumber what v >>= k') :=
        (hr.eval a scope he).bind fun v ↦ (Tracks.keeps (.loopNumber what v)).bind hk
      cases step with
      | none =>
          obtain ⟨hparts, hblock⟩ := List.append_subset.1 (List.cons_subset.1 hlines).2
          obtain ⟨hfirst, hlimit⟩ := List.append_subset.1 hparts
          refine hnumber .initial hfirst fun i ↦ hnumber .limit hlimit fun limit ↦ ?_
          exact (Tracks.pure _).bind fun step ↦ hr.runCount a scope var _ _ _ hblock
      | some e =>
          obtain ⟨hparts, hblock⟩ := List.append_subset.1 (List.cons_subset.1 hlines).2
          obtain ⟨hparts, hstep⟩ := List.append_subset.1 hparts
          obtain ⟨hfirst, hlimit⟩ := List.append_subset.1 hparts
          refine hnumber .initial hfirst fun i ↦ hnumber .limit hlimit fun limit ↦ ?_
          exact hnumber .step hstep fun step ↦ hr.runCount a scope var _ _ _ hblock
  | genericFor line names values block =>
      obtain ⟨hline, hparts⟩ := List.cons_subset.1 hlines
      obtain ⟨hvalues, hblock⟩ := List.append_subset.1 hparts
      dsimp only [Stat.iteratorLines?, Stat.line]
      by_cases hpos : 0 < line
      · have hsites : (some (line :: Expr.linesOfAll values)).getD S ⊆ S :=
          List.cons_subset.2 ⟨hline, hvalues⟩
        simp only [hpos, ↓reduceIte]
        -- The values may move the function away from the line of the loop.
        have hmem : line ∈ line :: Expr.linesOfAll values := List.mem_cons_self
        refine (Tracks.goToLine line).bind fun _ ↦ Tracks.fromLine ?_ hmem
        refine (hr.evalList a scope (List.subset_cons_self ..)).bind fun vs ↦ ?_
        exact hr.runIterator hsites a scope names _ _ _ hblock
      · have hanywhere : (none : Option (List Nat)).getD S ⊆ S := List.Subset.refl S
        simp only [hpos, ↓reduceIte]
        refine (hr.evalList a scope hvalues).bind fun vs ↦ ?_
        exact hr.runIterator hanywhere a scope names _ _ _ hblock
  | function line path method body =>
      refine hstart ?_
      simp only [Hooked.stray_plain, ite_self]
      refine (Tracks.keeps (.close False.elim trivial ..)).bind fun f ↦ ?_
      rw [hr.call]
      exact (Tracks.keeps (Regular.plain_agree.storeFunction (i := ()) hcallers ..)).bind
        fun _ ↦ .pure _
  | return_ line values =>
      refine hstart ?_
      exact (hr.evalList a scope (List.cons_subset.1 hlines).2).bind fun vs ↦ .pure _
  | break_ line =>
      refine hstart ?_
      exact .pure _

theorem runBody_next {body : Body} (hlines : Stat.linesOfAll body.block ⊆ S) (chunk : String)
    (args : List Value) :
    Tracks S S ((sitedNext astray fuel ev none).runBody () body chunk scope args)
      ((Hooks.plain.next fuel ev').runBody () body chunk scope args) := by
  refine (Tracks.keeps (.declare ..)).bind fun params ↦ (hr.runBlock _ _ hlines).bind fun flow ↦ ?_
  split <;> apply Tracks.pure

end Statements


/-- A script function starts at the line of its body. -/
theorem call_next :
    (sitedNext astray fuel ev none).call () = (Hooks.plain.next fuel ev').call () := by
  funext f args name
  cases f with
  | function r =>
      refine bind_congr fun f? ↦ ?_
      match f? with
      | none => rfl
      | some (.native _ op) =>
          have hnative : Hooks.plain.native () fuel (ev none).call op args =
              Hooks.plain.native () fuel ev'.call op args :=
            congrArg (op.run fuel · args) hr.call
          exact congrArg (Run.activate (.native name)) hnative
      | some (.script body chunk scope) =>
          funext s
          let S := body.line :: Stat.linesOfAll body.block
          have hbody : Tracks S S ((ev none).runBody () body chunk scope args) _ :=
            hr.runBody (List.subset_cons_self ..) chunk scope args
          have hs : (s.mapFrames (.script name chunk body.line :: ·)).OnLine S :=
            (Session.onLine_script name chunk body.line s).mono
              (List.cons_subset_cons _ (List.nil_subset _))
          simp only [Run.activate, hbody.eq hs]
  | nil | boolean | number | string | table | userdata | thread =>
      dsimp only [sitedNext, Hooks.next]
      rw [hr.call]

theorem next (hregular : ((Hooks.plain.next fuel ev').call ()).Regular false) :
    Follows (sitedNext astray fuel ev) (Hooks.plain.next fuel ev') where
  call := hr.call_next
  regular := hregular
  runBody hlines chunk scope args := hr.runBody_next scope hlines chunk args
  runBlock := hr.runBlock_next
  runStats := hr.runStats_next
  runStat := hr.runStat_next
  runWhile := hr.runWhile_next
  runRepeat := hr.runRepeat_next
  runClauses := hr.runClauses_next
  runCount := hr.runCount_next
  runIterator hlines a scope := hr.runIterator_next a scope hlines
  evalPlaces := hr.evalPlaces_next
  evalList := hr.evalList_next
  evalMulti := hr.evalMulti_next
  eval := hr.eval_next
  evalFields := hr.evalFields_next

omit hr in
theorem spent : Follows (fun _ ↦ .spent) .spent := by
  constructor
  case regular => exact fun _ _ _ ↦ .abort _
  case call => rfl
  all_goals intros; exact .abort _

end Follows

/-- Evaluation with calls at their lines follows evaluation as it is. -/
theorem sited_follows (astray : Caller) (fuel : Nat) :
    Follows (sited astray fuel) (Hooked.evaluator .plain fuel) := by
  induction fuel with
  | zero => exact .spent
  | succ fuel ih =>
      refine ih.next ?_
      have hcall : (Hooked.evaluator .plain (fuel + 1)).call () = Program.call (fuel + 1) :=
        (Hooked.unhooked (fuel + 1)).call
      rw [← Hooked.evaluator_succ, hcall]
      exact .programCall (fuel + 1)

end Evaluator

/-! ## Reports of callees -/

/-- Whatever is running finds a script function one level out, at a line: as the record of an active
call, in the position of a report, and in a traceback. -/
def Session.CalledFrom (line : Nat) (s : Session) : Prop :=
  ∃ caller chunk defined,
    let position := (if chunk.isEmpty then namelessChunk else chunk) ++ ":" ++ toString line ++ ":"
    caller.site = some ⟨chunk, defined, line⟩ ∧
    Report.frame? 1 s = .ok (some caller) s ∧
    Report.location 1 s = .ok position s ∧
    ∀ message, ∃ what others, Report.traceback message 1 s =
      .ok (message.elim "" (· ++ "\n") ++ "stack traceback:" ++
        String.join (("\n\t" ++ position ++ " in " ++ what) :: others)) s

theorem Session.OnLine.calledFrom {s : Session} {line : Nat} (h : s.OnLine [line])
    (callee : Frame) : (s.mapFrames (callee :: ·)).CalledFrom line := by
  obtain ⟨_, hmem, hline⟩ := h
  rw [List.mem_singleton.1 hmem] at hline
  obtain ⟨⟨name, site⟩, hcaller, hsite⟩ := Option.bind_eq_some_iff.1 hline
  obtain ⟨⟨chunk, defined, current⟩, rfl, rfl⟩ := Option.map_eq_some_iff.1 hsite
  obtain ⟨outer, hframes⟩ := List.head?_eq_some_iff.1 hcaller
  let caller : Frame := ⟨name, some ⟨chunk, defined, current⟩⟩
  have hframes : (s.mapFrames (callee :: ·)).machine.frames = callee :: caller :: outer :=
    congrArg (callee :: ·) hframes
  obtain ⟨what, hwhat⟩ : ∃ what,
      Report.frameLine caller = "\n\t" ++ caller.position ++ " in " ++ what := ⟨_, rfl⟩
  refine ⟨caller, chunk, defined, rfl, ?_, ?_, fun message ↦
    ⟨what, outer.map Report.frameLine, ?_⟩⟩
  · simp only [Report.frame?, Run.machine, hframes]
    rfl
  · simp only [Report.location, Run.machine, hframes]
    rfl
  · have hcallers : ((callee :: caller :: outer).drop 1).map Report.frameLine =
        ("\n\t" ++ caller.position ++ " in " ++ what) :: outer.map Report.frameLine := by
      rw [← hwhat]
      rfl
    simp only [Report.traceback, Run.machine, hframes, hcallers]
    cases message <;> rfl

/-! ## Calls -/

/-- Whatever is done where a call would be made at another line, evaluation is as it is: nothing
that is called or executed comes there.  So the line of its site is the one that a callee finds. -/
theorem calls_at_sites (astray : Caller) (fuel : Nat) :
    (Evaluator.sited astray fuel none).call () = Program.call fuel ∧
    (∀ source chunk args,
      (do
        let f ← Loader.ofBytes source chunk
        Run.protect ((Evaluator.sited astray fuel none).call () f args none)) =
          Program.executeBytes fuel source chunk args) ∧
    ∀ (s : Session) line callee, s.OnLine [line] →
      (s.mapFrames (callee :: ·)).CalledFrom line := by
  have hcall : (Evaluator.sited astray fuel none).call () = Program.call fuel :=
    (Evaluator.sited_follows astray fuel).call.trans (Hooked.unhooked fuel).call
  refine ⟨hcall, fun source chunk args ↦ ?_, fun s line callee hs ↦ hs.calledFrom callee⟩
  rw [hcall]
  rfl

/-- The third line of a chunk calls a host function. -/
theorem calls_at_sites_third_line :
    let s : Session :=
      ⟨{ Machine.initial 200 with frames := [⟨none, some ⟨"chunk", 0, 3⟩⟩] }, World.initial⟩
    s.OnLine [3] ∧ (s.mapFrames (.native (some "f") :: ·)).CalledFrom 3 := by
  intro s
  have hs : s.OnLine [3] := ⟨3, List.mem_cons_self, rfl⟩
  exact ⟨hs, (calls_at_sites (fun _ _ _ ↦ pure []) 0).2.2 s 3 (.native (some "f")) hs⟩

/-- The loop is on the second line of the chunk.  When its iterator is called again the chunk is
still on the third one, where the block of the loop has been. -/
theorem iterator_called_at_line_of_block :
    let source := "local error = ...\n" ++
      "for _ in function(_, c) if c then error('e', 2) end return 1 end do\n" ++
      "local x = 1 end"
    let s := (Heap.newNative "error" (.base .error)).after ⟨Machine.initial 200, World.initial⟩
    (match Program.executeBytes 40 (Text.bytes source) "chunk" [.function 0] s with
      | .error (.fault (.raised (.string text))) _ => text == "chunk:3: e" && text != "chunk:2: e"
      | _ => false) = true := by
  decide +kernel

end LuaEmbed
