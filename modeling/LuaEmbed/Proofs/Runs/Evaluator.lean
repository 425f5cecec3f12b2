import LuaEmbed.Proofs.Runs.Hooked

/-!
# Evaluators

Evaluation with a bound on the depth of its recursion is a level of evaluation on top of evaluation
with a lower bound.  An `Evaluator` is what a level is put on top of, all functions that evaluation
consists of, and `Hooks.next` is one level of evaluation with hooks on top of any evaluator.  Other
evaluators can be had by doing something else between the levels, with whatever is run there.
-/

namespace LuaEmbed

/-- The functions that evaluation consists of, which may depend on a context. -/
structure Evaluator (γ : Type) where
  call : γ → Caller
  runBody : γ → Body → String → Scope → List Value → Run (List Value)
  runBlock : γ → Activation → Scope → Block → Run Flow
  runStats : γ → Activation → Scope → List Stat → Run Flow
  runStat : γ → Activation → Scope → Stat → Run Flow
  runWhile : γ → Activation → Scope → Expr → Block → Run Flow
  runRepeat : γ → Activation → Scope → Block → Expr → Run Flow
  runClauses : γ → Activation → Scope → List Clause → Option Block → Run Flow
  runCount : γ → Activation → Scope → String → Float → Float → Float → Block → Run Flow
  runIterator : γ → Activation → Scope → List String → Value → Value → Value → Block → Run Flow
  evalPlaces : γ → Activation → Scope → List Expr → Run (List Place)
  evalList : γ → Activation → Scope → List Expr → Run (List Value)
  evalMulti : γ → Activation → Scope → Expr → Run (List Value)
  eval : γ → Activation → Scope → Expr → Run Value
  evalFields : γ → Activation → Scope → Ref → Nat → List Field → Run Unit

variable {γ : Type}

namespace Evaluator

/-- What is left where the bound is spent. -/
def spent : Evaluator γ where
  call _ _ _ _ := throw .outOfFuel
  runBody _ _ _ _ _ := throw .outOfFuel
  runBlock _ _ _ _ := throw .outOfFuel
  runStats _ _ _ _ := throw .outOfFuel
  runStat _ _ _ _ := throw .outOfFuel
  runWhile _ _ _ _ _ := throw .outOfFuel
  runRepeat _ _ _ _ _ := throw .outOfFuel
  runClauses _ _ _ _ _ := throw .outOfFuel
  runCount _ _ _ _ _ _ _ _ := throw .outOfFuel
  runIterator _ _ _ _ _ _ _ _ := throw .outOfFuel
  evalPlaces _ _ _ _ := throw .outOfFuel
  evalList _ _ _ _ := throw .outOfFuel
  evalMulti _ _ _ _ := throw .outOfFuel
  eval _ _ _ _ := throw .outOfFuel
  evalFields _ _ _ _ _ _ := throw .outOfFuel

/-- Something is done with everything that is run. -/
def wrap (w : γ → {α : Type} → Run α → Run α) (ev : Evaluator γ) : Evaluator γ where
  call c f args name := w c (ev.call c f args name)
  runBody c body chunk scope args := w c (ev.runBody c body chunk scope args)
  runBlock c a scope block := w c (ev.runBlock c a scope block)
  runStats c a scope stats := w c (ev.runStats c a scope stats)
  runStat c a scope stat := w c (ev.runStat c a scope stat)
  runWhile c a scope condition block := w c (ev.runWhile c a scope condition block)
  runRepeat c a scope block condition := w c (ev.runRepeat c a scope block condition)
  runClauses c a scope clauses otherwise := w c (ev.runClauses c a scope clauses otherwise)
  runCount c a scope var i limit step block := w c (ev.runCount c a scope var i limit step block)
  runIterator c a scope names iterator state control block :=
    w c (ev.runIterator c a scope names iterator state control block)
  evalPlaces c a scope targets := w c (ev.evalPlaces c a scope targets)
  evalList c a scope es := w c (ev.evalList c a scope es)
  evalMulti c a scope e := w c (ev.evalMulti c a scope e)
  eval c a scope e := w c (ev.eval c a scope e)
  evalFields c a scope t i fields := w c (ev.evalFields c a scope t i fields)

end Evaluator

section Level

open Evaluation

variable (h : Hooks γ)

/-- One level of evaluation on top of an evaluator.  Host functions may make as many steps as the
bound says. -/
def Hooks.next (fuel : Nat) (ev : Evaluator γ) : Evaluator γ where
  call c f args name :=
    match f with
    | .function r => do
      match ← Heap.function? r with
      | some (.native _ op) => Run.activate (.native name) (h.native c fuel ev.call op args)
      | some (.script body chunk scope) =>
        Run.activate (.script name chunk body.line) (ev.runBody c body chunk scope args)
      | none => return []
    | v => do
      match ← Metatable.field v "__call" with
      | .function r => ev.call c (.function r) (v :: args) name
      | _ => Report.here (.call none v.kind)
  runBody c body chunk scope args := do
    let params ← declare body.params args
    let varargs := if body.isVararg then args.drop body.params.length else []
    match ← ev.runBlock c ⟨chunk, varargs⟩ (params :: scope) body.block with
    | .leaveFunction values => return values
    | .leaveLoop => h.stray (return [])
    | .next _ => return []
  runBlock c a scope block := do
    match ← ev.runStats c a scope block with
    | .next _ => return .next scope
    | flow => return flow
  runStats c a scope stats :=
    match stats with
    | [] => return .next scope
    | stat :: rest => do
      match ← ev.runStat c a scope stat with
      | .next scope => ev.runStats c a scope rest
      | flow => return flow
  runStat c a scope stat := do
    if 0 < stat.line then goToLine stat.line
    match stat with
    | .local_ _ names values =>
      let vs ← ev.evalList c a scope values
      return .next ((← declare names vs) :: scope)
    | .localFunction _ name body =>
      let cell ← Heap.newCell .nil
      let scope := [(name, cell)] :: scope
      Heap.writeCell cell (← close a scope body)
      return .next scope
    | .assign _ targets values =>
      let places ← ev.evalPlaces c a scope targets
      let vs ← ev.evalList c a scope values
      Hooked.storeAll h c (ev.call c) places vs
      return .next scope
    | .call _ e =>
      let called := ev.evalMulti c a scope e
      let _ ← if e.isCall then called else h.stray called
      return .next scope
    | .do_ block => ev.runBlock c a scope block
    | .while_ _ condition block => ev.runWhile c a scope condition block
    | .repeat_ _ block condition => ev.runRepeat c a scope block condition
    | .if_ _ clauses otherwise => ev.runClauses c a scope clauses otherwise
    | .numericFor _ var start limit step block =>
      let i ← loopNumber .initial (← ev.eval c a scope start)
      let limit ← loopNumber .limit (← ev.eval c a scope limit)
      let step ←
        match step with
        | some e => do loopNumber .step (← ev.eval c a scope e)
        | none => pure 1
      ev.runCount c a scope var i limit step block
    | .genericFor _ names values block =>
      let vs ← ev.evalList c a scope values
      let state := vs.tail
      ev.runIterator c a scope names (vs.headD .nil) (state.headD .nil) (state.tail.headD .nil)
        block
    | .function _ path method body =>
      let f ← close a scope body
      let stored := Hooked.storeFunction h c (ev.call c) scope f (path ++ method.toList)
      if path.isEmpty then h.stray stored else stored
      return .next scope
    | .return_ _ values => return .leaveFunction (← ev.evalList c a scope values)
    | .break_ _ => return .leaveLoop
  runWhile c a scope condition block := do
    if (← ev.eval c a scope condition).isTruthy then
      match ← ev.runBlock c a scope block with
      | .next _ => ev.runWhile c a scope condition block
      | .leaveLoop => return .next scope
      | flow => return flow
    else return .next scope
  runRepeat c a scope block condition := do
    match ← ev.runStats c a scope block with
    | .next inner =>
      if (← ev.eval c a inner condition).isTruthy then return .next scope
      else ev.runRepeat c a scope block condition
    | .leaveLoop => return .next scope
    | flow => return flow
  runClauses c a scope clauses otherwise :=
    match clauses with
    | [] =>
      match otherwise with
      | some block => ev.runBlock c a scope block
      | none => return .next scope
    | .mk condition block :: rest => do
      if (← ev.eval c a scope condition).isTruthy then ev.runBlock c a scope block
      else ev.runClauses c a scope rest otherwise
  runCount c a scope var i limit step block := do
    if isWithin limit step i then
      let cell ← Heap.newCell (.number i)
      match ← ev.runBlock c a ([(var, cell)] :: scope) block with
      | .next _ => ev.runCount c a scope var (i + step) limit step block
      | .leaveLoop => return .next scope
      | flow => return flow
    else return .next scope
  runIterator c a scope names iterator state control block := do
    checkCallable none iterator
    let results ← ev.call c iterator [state, control] none
    let control := results.headD .nil
    if control.isNil then return .next scope
    let declared := declare names results
    let vars ← if names.isEmpty then h.stray declared else declared
    match ← ev.runBlock c a (vars :: scope) block with
    | .next _ => ev.runIterator c a scope names iterator state control block
    | .leaveLoop => return .next scope
    | flow => return flow
  evalPlaces c a scope targets :=
    match targets with
    | [] => return []
    | target :: rest => do
      let place ←
        match target with
        | .name x => pure (placeOfName scope x)
        | .index _ object key => do
          let o ← ev.eval c a scope object
          let k ← ev.eval c a scope key
          pure (.field o k (describe scope object))
        | _ => h.stray (Report.here .notATarget)
      return place :: (← ev.evalPlaces c a scope rest)
  evalList c a scope es :=
    match es with
    | [] => return []
    | [e] => ev.evalMulti c a scope e
    | e :: rest => do
      let v ← ev.eval c a scope e
      return v :: (← ev.evalList c a scope rest)
  evalMulti c a scope e :=
    match e with
    | .vararg => return a.varargs
    | .call line callee args => do
      let f ← ev.eval c a scope callee
      let vs ← ev.evalList c a scope args
      goToLine line
      checkCallable (describe scope callee) f
      ev.call c f vs (calleeName callee)
    | .method line object name args => do
      let o ← ev.eval c a scope object
      goToLine line
      let f ← getField (ev.call c) (describe scope object) o (.string name)
      let vs ← ev.evalList c a scope args
      goToLine line
      checkCallable (some (.method name)) f
      ev.call c f (o :: vs) (some name)
    | e => do return [← ev.eval c a scope e]
  eval c a scope e :=
    match e with
    | .nil => return .nil
    | .true_ => return .boolean true
    | .false_ => return .boolean false
    | .number n => return .number n
    | .string s => return .string s
    | .vararg => return a.varargs.headD .nil
    | .function body => close a scope body
    | .name x => getName (ev.call c) scope x
    | .index line object key => do
      let o ← ev.eval c a scope object
      let k ← ev.eval c a scope key
      goToLine line
      getField (ev.call c) (describe scope object) o k
    | .call line callee args => do
      return (← ev.evalMulti c a scope (.call line callee args)).headD .nil
    | .method line object name args => do
      return (← ev.evalMulti c a scope (.method line object name args)).headD .nil
    | .table fields => do
      let t ← Heap.newTable
      ev.evalFields c a scope t 1 fields
      return .table t
    | .binary line op left right => do
      let l ← ev.eval c a scope left
      match op, l.isTruthy with
      | .and, false | .or, true => return l
      | .and, true | .or, false => ev.eval c a scope right
      | op, _ =>
        let r ← ev.eval c a scope right
        goToLine line
        binary (ev.call c) op l r
    | .unary line op operand => do
      let v ← ev.eval c a scope operand
      goToLine line
      unary (ev.call c) op v
    | .paren inner => ev.eval c a scope inner
  evalFields c a scope t i fields :=
    match fields with
    | [] => return ()
    | .keyed key value :: rest => do
      let k ← ev.eval c a scope key
      let v ← ev.eval c a scope value
      Operation.store t k v
      ev.evalFields c a scope t i rest
    | [.positional e] => do
      let vs ← ev.evalMulti c a scope e
      Heap.modifyTable t (·.setFrom i vs)
    | .positional e :: rest => do
      let v ← ev.eval c a scope e
      Heap.setInt t i v
      ev.evalFields c a scope t (i + 1) rest

/-- Evaluation with hooks and a bound. -/
def Hooked.evaluator (fuel : Nat) : Evaluator γ where
  call := Hooked.call h fuel
  runBody := Hooked.runBody h fuel
  runBlock := Hooked.runBlock h fuel
  runStats := Hooked.runStats h fuel
  runStat := Hooked.runStat h fuel
  runWhile := Hooked.runWhile h fuel
  runRepeat := Hooked.runRepeat h fuel
  runClauses := Hooked.runClauses h fuel
  runCount := Hooked.runCount h fuel
  runIterator := Hooked.runIterator h fuel
  evalPlaces := Hooked.evalPlaces h fuel
  evalList := Hooked.evalList h fuel
  evalMulti := Hooked.evalMulti h fuel
  eval := Hooked.eval h fuel
  evalFields := Hooked.evalFields h fuel

theorem Hooked.evaluator_zero : Hooked.evaluator h 0 = .spent := rfl

/-- A bound counts the levels. -/
theorem Hooked.evaluator_succ (fuel : Nat) :
    Hooked.evaluator h (fuel + 1) = h.next fuel (Hooked.evaluator h fuel) := rfl

end Level

/-- Evaluation in which something is done with whatever a level runs. -/
def Hooks.watched (h : Hooks γ) (w : γ → {α : Type} → Run α → Run α) : Nat → Evaluator γ
  | 0 => .spent
  | fuel + 1 => (h.next fuel (h.watched w fuel)).wrap w

end LuaEmbed
