import LuaEmbed.Program

/-!
# Evaluation with hooks

Evaluation as it is, but for three kinds of places, at which something else may be done: where a
host function is run, where an assignment reaches a table, and where evaluation would stray from
what well-formed chunks can lead to.  What is done at the first two may depend on a context, which a
host function may change for the calls that it makes.

A hook that ends the run where it should not have come makes a property of all that happens in a run
a property of its outcome: the run does not come there if it ends as without the hook, whatever the
hook would end it with.
-/

namespace LuaEmbed

/-- What is done at some places of evaluation. -/
structure Hooks (γ : Type) where
  /-- A host function is run on arguments, with a caller for each context. -/
  native : γ → Nat → (γ → Caller) → Native → Arguments → Run (List Value)
  /-- An assignment gives a key of a table a value. -/
  store : γ → Ref → Value → Value → Run Unit
  /-- No well-formed chunk leads to where this would be run. -/
  stray : {α : Type} → Run α → Run α

/-- What evaluation does at these places. -/
def Hooks.plain : Hooks Unit where
  native _ fuel call op args := op.run fuel (call ()) args
  store _ := Operation.store
  stray r := r

namespace Hooked

open Evaluation

section Hooks

variable {γ : Type} (h : Hooks γ)

/-! ## Assignments -/

section Assignments

variable (c : γ) (call : Caller)

/-- `v[key] = value`, through at most the given number of values. -/
def setIndexWithin (key value : Value) : Nat → Value → Run Unit
  | 0, _ => Report.here .loopInSet
  | n + 1, v => do
    let isPresent ←
      match v with
      | .table r => do pure !(← Heap.get r key).isNil
      | _ => pure false
    let handler ← if isPresent then pure .nil else Metatable.field v "__newindex"
    match handler, v with
    | .nil, .table r => h.store c r key value
    | .nil, v => Report.here (.index none v.kind)
    | .function _, v => do
      let _ ← call handler [v, key, value] none
    | handler, _ => setIndexWithin key value n handler

/-- `v[key] = value`. -/
def setIndex (v key value : Value) : Run Unit :=
  setIndexWithin h c call key value Operation.maxChain v

/-- Store into a field of a value that a report would refer to as `what`. -/
def setField (what : Option Described) (v key value : Value) : Run Unit := do
  if ← isIndexable v "__newindex" then setIndex h c call v key value
  else Report.here (.index what v.kind)

/-- Store a value at a place. -/
def store (value : Value) : Place → Run Unit
  | .variable_ cell => Heap.writeCell cell value
  | .global name => do
    setIndex h c call (.table (← Run.machine Machine.globals)) (.string name) value
  | .field object key what => setField h c call what object key value

/-- Store values at places, from left to right; a place without value gets `nil`. -/
def storeAll : List Place → List Value → Run Unit
  | [], _ => return ()
  | p :: ps, vs => do
    store h c call (vs.headD .nil) p
    storeAll ps vs.tail

/-- Store a function under a dotted path. -/
def storeFunction (scope : Scope) (f : Value) : List String → Run Unit
  | [] => return ()
  | [name] => store h c call f (placeOfName scope name)
  | root :: key :: keys => do
    let v ← getName call scope root
    let (object, what, last) ← followPath call (describeName scope root) v key keys
    setField h c call (some what) object (.string last) f

end Assignments

/-! ## Calls, statements and expressions -/

mutual

/-- Call a value with arguments, under a name for reports. -/
def call (fuel : Nat) (c : γ) (f : Value) (args : List Value) (name : Option String) : Run
    (List Value) :=
  match fuel with
  | 0 => throw .outOfFuel
  | fuel + 1 =>
    match f with
    | .function r => do
      match ← Heap.function? r with
      | some (.native _ op) => Run.activate (.native name) (h.native c fuel (call fuel) op args)
      | some (.script body chunk scope) =>
        Run.activate (.script name chunk body.line) (runBody fuel c body chunk scope args)
      | none => return []
    | v => do
      match ← Metatable.field v "__call" with
      | .function r => call fuel c (.function r) (v :: args) name
      | _ => Report.here (.call none v.kind)
termination_by structural fuel

/-- Run a function body on arguments. -/
def runBody (fuel : Nat) (c : γ) (body : Body) (chunk : String) (scope : Scope)
    (args : List Value) : Run (List Value) :=
  match fuel with
  | 0 => throw .outOfFuel
  | fuel + 1 => do
    let params ← declare body.params args
    let varargs := if body.isVararg then args.drop body.params.length else []
    match ← runBlock fuel c ⟨chunk, varargs⟩ (params :: scope) body.block with
    | .leaveFunction values => return values
    | .leaveLoop => h.stray (return [])
    | .next _ => return []
termination_by structural fuel

/-- Run a block. The names it declares end with it. -/
def runBlock (fuel : Nat) (c : γ) (a : Activation) (scope : Scope) (block : Block) : Run Flow :=
  match fuel with
  | 0 => throw .outOfFuel
  | fuel + 1 => do
    match ← runStats fuel c a scope block with
    | .next _ => return .next scope
    | flow => return flow
termination_by structural fuel

/-- Run statements one after the other. -/
def runStats (fuel : Nat) (c : γ) (a : Activation) (scope : Scope) (stats : List Stat) :
    Run Flow :=
  match fuel with
  | 0 => throw .outOfFuel
  | fuel + 1 =>
    match stats with
    | [] => return .next scope
    | stat :: rest => do
      match ← runStat fuel c a scope stat with
      | .next scope => runStats fuel c a scope rest
      | flow => return flow
termination_by structural fuel

/-- Run a statement. -/
def runStat (fuel : Nat) (c : γ) (a : Activation) (scope : Scope) (stat : Stat) : Run Flow :=
  match fuel with
  | 0 => throw .outOfFuel
  | fuel + 1 => do
    if 0 < stat.line then goToLine stat.line
    match stat with
    | .local_ _ names values =>
      let vs ← evalList fuel c a scope values
      return .next ((← declare names vs) :: scope)
    | .localFunction _ name body =>
      let cell ← Heap.newCell .nil
      let scope := [(name, cell)] :: scope
      Heap.writeCell cell (← close a scope body)
      return .next scope
    | .assign _ targets values =>
      let places ← evalPlaces fuel c a scope targets
      let vs ← evalList fuel c a scope values
      storeAll h c (call fuel c) places vs
      return .next scope
    | .call _ e =>
      let called := evalMulti fuel c a scope e
      let _ ← if e.isCall then called else h.stray called
      return .next scope
    | .do_ block => runBlock fuel c a scope block
    | .while_ _ condition block => runWhile fuel c a scope condition block
    | .repeat_ _ block condition => runRepeat fuel c a scope block condition
    | .if_ _ clauses otherwise => runClauses fuel c a scope clauses otherwise
    | .numericFor _ var start limit step block =>
      let i ← loopNumber .initial (← eval fuel c a scope start)
      let limit ← loopNumber .limit (← eval fuel c a scope limit)
      let step ←
        match step with
        | some e => do loopNumber .step (← eval fuel c a scope e)
        | none => pure 1
      runCount fuel c a scope var i limit step block
    | .genericFor _ names values block =>
      let vs ← evalList fuel c a scope values
      let state := vs.tail
      runIterator fuel c a scope names (vs.headD .nil) (state.headD .nil) (state.tail.headD .nil)
        block
    | .function _ path method body =>
      let f ← close a scope body
      let stored := storeFunction h c (call fuel c) scope f (path ++ method.toList)
      if path.isEmpty then h.stray stored else stored
      return .next scope
    | .return_ _ values => return .leaveFunction (← evalList fuel c a scope values)
    | .break_ _ => return .leaveLoop
termination_by structural fuel

/-- Run a block as long as a condition holds. -/
def runWhile (fuel : Nat) (c : γ) (a : Activation) (scope : Scope) (condition : Expr)
    (block : Block) : Run Flow :=
  match fuel with
  | 0 => throw .outOfFuel
  | fuel + 1 => do
    if (← eval fuel c a scope condition).isTruthy then
      match ← runBlock fuel c a scope block with
      | .next _ => runWhile fuel c a scope condition block
      | .leaveLoop => return .next scope
      | flow => return flow
    else return .next scope
termination_by structural fuel

/-- Run a block until a condition holds, which sees the names that the block declares. -/
def runRepeat (fuel : Nat) (c : γ) (a : Activation) (scope : Scope) (block : Block)
    (condition : Expr) : Run Flow :=
  match fuel with
  | 0 => throw .outOfFuel
  | fuel + 1 => do
    match ← runStats fuel c a scope block with
    | .next inner =>
      if (← eval fuel c a inner condition).isTruthy then return .next scope
      else runRepeat fuel c a scope block condition
    | .leaveLoop => return .next scope
    | flow => return flow
termination_by structural fuel

/-- Run the block of the first condition that holds. -/
def runClauses (fuel : Nat) (c : γ) (a : Activation) (scope : Scope) (clauses : List Clause)
    (otherwise : Option Block) : Run Flow :=
  match fuel with
  | 0 => throw .outOfFuel
  | fuel + 1 =>
    match clauses with
    | [] =>
      match otherwise with
      | some block => runBlock fuel c a scope block
      | none => return .next scope
    | .mk condition block :: rest => do
      if (← eval fuel c a scope condition).isTruthy then runBlock fuel c a scope block
      else runClauses fuel c a scope rest otherwise
termination_by structural fuel

/-- Run a block for the numbers from `i` on up to a limit, each in a variable of its own. -/
def runCount (fuel : Nat) (c : γ) (a : Activation) (scope : Scope) (var : String)
    (i limit step : Float) (block : Block) : Run Flow :=
  match fuel with
  | 0 => throw .outOfFuel
  | fuel + 1 => do
    if isWithin limit step i then
      let cell ← Heap.newCell (.number i)
      match ← runBlock fuel c a ([(var, cell)] :: scope) block with
      | .next _ => runCount fuel c a scope var (i + step) limit step block
      | .leaveLoop => return .next scope
      | flow => return flow
    else return .next scope
termination_by structural fuel

/-- Run a block for the results of an iterator, in new variables each time, until the first result
is `nil`. The first result is also what the iterator goes on from. -/
def runIterator (fuel : Nat) (c : γ) (a : Activation) (scope : Scope) (names : List String)
    (iterator state control : Value) (block : Block) : Run Flow :=
  match fuel with
  | 0 => throw .outOfFuel
  | fuel + 1 => do
    checkCallable none iterator
    let results ← call fuel c iterator [state, control] none
    let control := results.headD .nil
    if control.isNil then return .next scope
    let declared := declare names results
    let vars ← if names.isEmpty then h.stray declared else declared
    match ← runBlock fuel c a (vars :: scope) block with
    | .next _ => runIterator fuel c a scope names iterator state control block
    | .leaveLoop => return .next scope
    | flow => return flow
termination_by structural fuel

/-- The places of the targets of an assignment, from left to right. -/
def evalPlaces (fuel : Nat) (c : γ) (a : Activation) (scope : Scope) (targets : List Expr) : Run
    (List Place) :=
  match fuel with
  | 0 => throw .outOfFuel
  | fuel + 1 =>
    match targets with
    | [] => return []
    | target :: rest => do
      let place ←
        match target with
        | .name x => pure (placeOfName scope x)
        | .index _ object key => do
          let o ← eval fuel c a scope object
          let k ← eval fuel c a scope key
          pure (.field o k (describe scope object))
        | _ => h.stray (Report.here .notATarget)
      return place :: (← evalPlaces fuel c a scope rest)
termination_by structural fuel

/-- The values of expressions, from left to right. Only the last one may have any number of
them. -/
def evalList (fuel : Nat) (c : γ) (a : Activation) (scope : Scope) (es : List Expr) : Run
    (List Value) :=
  match fuel with
  | 0 => throw .outOfFuel
  | fuel + 1 =>
    match es with
    | [] => return []
    | [e] => evalMulti fuel c a scope e
    | e :: rest => do
      let v ← eval fuel c a scope e
      return v :: (← evalList fuel c a scope rest)
termination_by structural fuel

/-- All values of an expression. -/
def evalMulti (fuel : Nat) (c : γ) (a : Activation) (scope : Scope) (e : Expr) :
    Run (List Value) :=
  match fuel with
  | 0 => throw .outOfFuel
  | fuel + 1 =>
    match e with
    | .vararg => return a.varargs
    | .call line callee args => do
      let f ← eval fuel c a scope callee
      let vs ← evalList fuel c a scope args
      goToLine line
      checkCallable (describe scope callee) f
      call fuel c f vs (calleeName callee)
    | .method line object name args => do
      let o ← eval fuel c a scope object
      goToLine line
      let f ← getField (call fuel c) (describe scope object) o (.string name)
      let vs ← evalList fuel c a scope args
      goToLine line
      checkCallable (some (.method name)) f
      call fuel c f (o :: vs) (some name)
    | e => do return [← eval fuel c a scope e]
termination_by structural fuel

/-- The value of an expression; of several it is the first, of none it is `nil`. -/
def eval (fuel : Nat) (c : γ) (a : Activation) (scope : Scope) (e : Expr) : Run Value :=
  match fuel with
  | 0 => throw .outOfFuel
  | fuel + 1 =>
    match e with
    | .nil => return .nil
    | .true_ => return .boolean true
    | .false_ => return .boolean false
    | .number n => return .number n
    | .string s => return .string s
    | .vararg => return a.varargs.headD .nil
    | .function body => close a scope body
    | .name x => getName (call fuel c) scope x
    | .index line object key => do
      let o ← eval fuel c a scope object
      let k ← eval fuel c a scope key
      goToLine line
      getField (call fuel c) (describe scope object) o k
    | .call line callee args => do
      return (← evalMulti fuel c a scope (.call line callee args)).headD .nil
    | .method line object name args => do
      return (← evalMulti fuel c a scope (.method line object name args)).headD .nil
    | .table fields => do
      let t ← Heap.newTable
      evalFields fuel c a scope t 1 fields
      return .table t
    | .binary line op left right => do
      let l ← eval fuel c a scope left
      match op, l.isTruthy with
      | .and, false | .or, true => return l
      | .and, true | .or, false => eval fuel c a scope right
      | op, _ =>
        let r ← eval fuel c a scope right
        goToLine line
        binary (call fuel c) op l r
    | .unary line op operand => do
      let v ← eval fuel c a scope operand
      goToLine line
      unary (call fuel c) op v
    | .paren inner => eval fuel c a scope inner
termination_by structural fuel

/-- Fill a table with fields; those without key get the integers from `i` on. -/
def evalFields (fuel : Nat) (c : γ) (a : Activation) (scope : Scope) (t : Ref) (i : Nat)
    (fields : List Field) : Run Unit :=
  match fuel with
  | 0 => throw .outOfFuel
  | fuel + 1 =>
    match fields with
    | [] => return ()
    | .keyed key value :: rest => do
      let k ← eval fuel c a scope key
      let v ← eval fuel c a scope value
      Operation.store t k v
      evalFields fuel c a scope t i rest
    | [.positional e] => do
      let vs ← evalMulti fuel c a scope e
      Heap.modifyTable t (·.setFrom i vs)
    | .positional e :: rest => do
      let v ← eval fuel c a scope e
      Heap.setInt t i v
      evalFields fuel c a scope t (i + 1) rest
termination_by structural fuel

end

/-- Execute a source that is given as bytes. -/
def executeBytes (fuel : Nat) (c : γ) (source : List UInt8) (chunk : String) (args : List Value) :
    Run (List Value) := do
  let f ← Loader.ofBytes source chunk
  Run.protect (call h fuel c f args none)

end Hooks

/-! ## Without hooks -/

section Plain

variable (call : Caller)

theorem stray_plain {α : Type} (r : Run α) : Hooks.plain.stray r = r := rfl

theorem setIndex_plain (v key value : Value) :
    setIndex .plain () call v key value = Operation.setIndex call v key value := by
  suffices h : ∀ n v, setIndexWithin .plain () call key value n v =
      Operation.setIndexWithin call key value n v from h _ _
  intro n
  induction n with
  | zero => exact fun v ↦ rfl
  | succ n ih =>
      intro v
      simp only [setIndexWithin, ih]
      rfl

theorem setField_plain : setField .plain () call = Evaluation.setField call := by
  funext what v key value
  simp only [setField, Evaluation.setField, setIndex_plain]

theorem store_plain : store .plain () call = Evaluation.store call := by
  funext value p
  cases p <;> simp only [store, Evaluation.store, setIndex_plain, setField_plain]

theorem storeAll_plain : storeAll .plain () call = Evaluation.storeAll call := by
  funext ps vs
  induction ps generalizing vs with
  | nil => rfl
  | cons p ps ih => simp only [storeAll, Evaluation.storeAll, store_plain, ih]

theorem storeFunction_plain : storeFunction .plain () call = Evaluation.storeFunction call := by
  funext scope f path
  unfold storeFunction
  rw [store_plain, setField_plain]
  rfl

end Plain

/-- Without hooks, evaluation with a bound is evaluation as it is. -/
structure Unhooked (fuel : Nat) : Prop where
  call : Hooked.call .plain fuel () = Evaluation.call fuel
  runBody : Hooked.runBody .plain fuel () = Evaluation.runBody fuel
  runBlock : Hooked.runBlock .plain fuel () = Evaluation.runBlock fuel
  runStats : Hooked.runStats .plain fuel () = Evaluation.runStats fuel
  runStat : Hooked.runStat .plain fuel () = Evaluation.runStat fuel
  runWhile : Hooked.runWhile .plain fuel () = Evaluation.runWhile fuel
  runRepeat : Hooked.runRepeat .plain fuel () = Evaluation.runRepeat fuel
  runClauses : Hooked.runClauses .plain fuel () = Evaluation.runClauses fuel
  runCount : Hooked.runCount .plain fuel () = Evaluation.runCount fuel
  runIterator : Hooked.runIterator .plain fuel () = Evaluation.runIterator fuel
  evalPlaces : Hooked.evalPlaces .plain fuel () = Evaluation.evalPlaces fuel
  evalList : Hooked.evalList .plain fuel () = Evaluation.evalList fuel
  evalMulti : Hooked.evalMulti .plain fuel () = Evaluation.evalMulti fuel
  eval : Hooked.eval .plain fuel () = Evaluation.eval fuel
  evalFields : Hooked.evalFields .plain fuel () = Evaluation.evalFields fuel

namespace Unhooked

variable {fuel : Nat} (h : Unhooked fuel)

include h

theorem call_succ : Hooked.call .plain (fuel + 1) () = Evaluation.call (fuel + 1) := by
  funext f args name
  have hnative (op : Native) : Hooks.plain.native () fuel (Hooked.call .plain fuel) op args =
      op.run fuel (Evaluation.call fuel) args := by
    rw [← h.call]
    rfl
  simp only [Hooked.call, hnative, h.call, h.runBody]
  rfl

theorem runBody_succ : Hooked.runBody .plain (fuel + 1) () = Evaluation.runBody (fuel + 1) := by
  funext body chunk scope args
  simp only [Hooked.runBody, Evaluation.runBody, h.runBlock]
  congr
  funext params
  congr
  funext flow
  cases flow <;> rfl

theorem runBlock_succ : Hooked.runBlock .plain (fuel + 1) () = Evaluation.runBlock (fuel + 1) := by
  funext a scope block
  simp only [Hooked.runBlock, h.runStats]
  rfl

theorem runStats_succ : Hooked.runStats .plain (fuel + 1) () = Evaluation.runStats (fuel + 1) := by
  funext a scope stats
  simp only [Hooked.runStats, h.runStat, h.runStats]
  rfl

theorem runStat_succ : Hooked.runStat .plain (fuel + 1) () = Evaluation.runStat (fuel + 1) := by
  funext a scope stat
  simp only [Hooked.runStat, stray_plain, h.call, h.runBlock, h.runWhile, h.runRepeat,
    h.runClauses, h.runCount, h.runIterator, h.evalPlaces, h.evalList, h.evalMulti, h.eval,
    storeAll_plain, storeFunction_plain, ite_self]
  rfl

theorem runWhile_succ : Hooked.runWhile .plain (fuel + 1) () = Evaluation.runWhile (fuel + 1) := by
  funext a scope condition block
  simp only [Hooked.runWhile, h.eval, h.runBlock, h.runWhile]
  rfl

theorem runRepeat_succ :
    Hooked.runRepeat .plain (fuel + 1) () = Evaluation.runRepeat (fuel + 1) := by
  funext a scope block condition
  simp only [Hooked.runRepeat, h.eval, h.runStats, h.runRepeat]
  rfl

theorem runClauses_succ :
    Hooked.runClauses .plain (fuel + 1) () = Evaluation.runClauses (fuel + 1) := by
  funext a scope clauses otherwise
  simp only [Hooked.runClauses, h.eval, h.runBlock, h.runClauses]
  rfl

theorem runCount_succ : Hooked.runCount .plain (fuel + 1) () = Evaluation.runCount (fuel + 1) := by
  funext a scope var i limit step block
  simp only [Hooked.runCount, h.runBlock, h.runCount]
  rfl

theorem runIterator_succ :
    Hooked.runIterator .plain (fuel + 1) () = Evaluation.runIterator (fuel + 1) := by
  funext a scope names iterator state control block
  simp only [Hooked.runIterator, stray_plain, ite_self, h.call, h.runBlock, h.runIterator]
  rfl

theorem evalPlaces_succ :
    Hooked.evalPlaces .plain (fuel + 1) () = Evaluation.evalPlaces (fuel + 1) := by
  funext a scope targets
  simp only [Hooked.evalPlaces, stray_plain, h.eval, h.evalPlaces]
  rfl

theorem evalList_succ : Hooked.evalList .plain (fuel + 1) () = Evaluation.evalList (fuel + 1) := by
  funext a scope es
  simp only [Hooked.evalList, h.eval, h.evalMulti, h.evalList]
  rfl

theorem evalMulti_succ :
    Hooked.evalMulti .plain (fuel + 1) () = Evaluation.evalMulti (fuel + 1) := by
  funext a scope e
  simp only [Hooked.evalMulti, h.eval, h.evalList, h.call]
  rfl

theorem eval_succ : Hooked.eval .plain (fuel + 1) () = Evaluation.eval (fuel + 1) := by
  funext a scope e
  simp only [Hooked.eval, h.eval, h.evalMulti, h.evalFields, h.call]
  rfl

theorem evalFields_succ :
    Hooked.evalFields .plain (fuel + 1) () = Evaluation.evalFields (fuel + 1) := by
  funext a scope t i fields
  simp only [Hooked.evalFields, h.eval, h.evalMulti, h.evalFields]
  rfl

end Unhooked

/-- Whatever the bound, evaluation without hooks is evaluation as it is. -/
theorem unhooked : ∀ fuel, Unhooked fuel
  | 0 => by constructor <;> rfl
  | fuel + 1 =>
      have h := unhooked fuel
      { call := h.call_succ, runBody := h.runBody_succ, runBlock := h.runBlock_succ,
        runStats := h.runStats_succ, runStat := h.runStat_succ, runWhile := h.runWhile_succ,
        runRepeat := h.runRepeat_succ, runClauses := h.runClauses_succ,
        runCount := h.runCount_succ, runIterator := h.runIterator_succ,
        evalPlaces := h.evalPlaces_succ, evalList := h.evalList_succ,
        evalMulti := h.evalMulti_succ, eval := h.eval_succ, evalFields := h.evalFields_succ }

theorem executeBytes_plain (fuel : Nat) :
    executeBytes .plain fuel () = Program.executeBytes fuel := by
  funext source chunk args
  simp only [executeBytes, Program.executeBytes, Program.pcall, Program.call, (unhooked fuel).call]

end Hooked

end LuaEmbed
