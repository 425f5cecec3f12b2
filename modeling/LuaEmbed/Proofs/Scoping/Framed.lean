import LuaEmbed.Program
import LuaEmbed.Proofs.Scoping.Visible

/-!
# Scopes in frames

Evaluation as it happens in the frame of a script function.  The frame holds one scope: a
declaration pushes a group of variables onto it, and a block, or the turn of a loop, saves it before
and restores it after, whatever the outcome.  Beside that, evaluation goes along with the names that
are visible by the text of the program alone, from those where the function was created.  Wherever a
name is used or a function is created, the groups of the frame's scope have to be exactly those
names, or the run ends at once with a given abort; and the variable of a name is found by the place
of its declaration among the visible names, not by a search of the scope.
-/

namespace LuaEmbed

/-- A run of code of a script function, on the scope that its frame holds and a session. -/
abbrev Framed := EStateM Abort (Scope × Session)

namespace Framed

variable {α : Type}

/-! ## The scope of a frame -/

/-- A run that leaves the scope alone. -/
def lift (r : Run α) : Framed α := fun f ↦
  match r f.2 with
  | .ok a s => .ok a (f.1, s)
  | .error e s => .error e (f.1, s)

/-- Push a group of variables. -/
def push (g : Group) : Framed Unit := fun f ↦ .ok () (g :: f.1, f.2)

/-- Save the scope before and restore it after, whatever the outcome. -/
def saving (x : Framed α) : Framed α := fun f ↦
  match x f with
  | .ok a f' => .ok a (f.1, f'.2)
  | .error e f' => .error e (f.1, f'.2)

/-- Run in a new frame that holds a scope. -/
def within (scope : Scope) (x : Framed α) : Run α := fun s ↦
  match x (scope, s) with
  | .ok a f => .ok a f.2
  | .error e f => .error e f.2

/-- The scope that the frame holds after a run, whatever the outcome. -/
def scopeAfter (x : Framed α) (scope : Scope) (s : Session) : Scope :=
  match x (scope, s) with
  | .ok _ f => f.1
  | .error _ f => f.1

/-- How a statement ends. -/
inductive Ending where
  | normal
  | leaveLoop
  | leaveFunction (values : List Value)

/-! ## Names -/

section Names

variable (abort : Abort) (call : Caller) (vis : Visible)

/-- The scope, if its names are those that are visible. -/
def scope : Framed Scope := fun f ↦
  if f.1.visible = vis then .ok f.1 f else .error abort f

/-- The variable of a name, if a declaration is visible, by the place of that declaration. -/
def cellOf (name : String) : Framed (Option Ref) := do
  let scope ← scope abort vis
  return (vis.resolve? name).bind scope.at?

/-- The value of a name. -/
def getName (name : String) : Framed Value := do
  match ← cellOf abort vis name with
  | some cell => lift (Heap.readCell cell)
  | none => lift do Operation.index call (.table (← Run.machine Machine.globals)) (.string name)

/-- The place of a name. -/
def placeOfName (name : String) : Framed Place := do
  match ← cellOf abort vis name with
  | some cell => return .variable_ cell
  | none => return .global name

/-- How a report refers to a name. -/
def describeName (name : String) : Described :=
  match vis.resolve? name with
  | some _ => .local_ name
  | none => .global name

/-- How a report refers to the value of an expression, if it has words for it. -/
def describe : Expr → Option Described
  | .name x => some (describeName vis x)
  | .index _ _ (.string key) => some (.field key)
  | .method _ _ name _ => some (.method name)
  | _ => none

/-- A function value of a body. -/
def close (a : Activation) (body : Body) : Framed Value := do
  let scope ← scope abort vis
  lift (Evaluation.close a scope body)

/-- Store a function under a dotted path. -/
def storeFunction (f : Value) : List String → Framed Unit
  | [] => return ()
  | [name] => do
    let place ← placeOfName abort vis name
    lift (Evaluation.store call f place)
  | root :: key :: keys => do
    let v ← getName abort call vis root
    lift do
      let what := describeName vis root
      let (object, what, last) ← Evaluation.followPath call what v key keys
      Evaluation.setField call (some what) object (.string last) f

end Names

/-! ## Calls, statements and expressions -/

mutual

/-- Call a value with arguments, under a name for reports. -/
def call (abort : Abort) (fuel : Nat) (f : Value) (args : List Value) (name : Option String) :
    Run (List Value) :=
  match fuel with
  | 0 => throw .outOfFuel
  | fuel + 1 =>
    match f with
    | .function r => do
      match ← Heap.function? r with
      | some (.native _ op) => Run.activate (.native name) (op.run fuel (call abort fuel) args)
      | some (.script body chunk scope) =>
        Run.activate (.script name chunk body.line) (runBody abort fuel body chunk scope args)
      | none => return []
    | v => do
      match ← Metatable.field v "__call" with
      | .function r => call abort fuel (.function r) (v :: args) name
      | _ => Report.here (.call none v.kind)
termination_by structural fuel

/-- Run a function body on arguments, in a frame of its own. -/
def runBody (abort : Abort) (fuel : Nat) (body : Body) (chunk : String) (scope : Scope)
    (args : List Value) : Run (List Value) :=
  match fuel with
  | 0 => throw .outOfFuel
  | fuel + 1 => do
    let params ← Evaluation.declare body.params args
    let varargs := if body.isVararg then args.drop body.params.length else []
    match ← within (params :: scope)
        (runBlock abort fuel ⟨chunk, varargs⟩ (body.params :: scope.visible) body.block) with
    | .leaveFunction values => return values
    | _ => return []
termination_by structural fuel

/-- Run a block. The names it declares end with it. -/
def runBlock (abort : Abort) (fuel : Nat) (a : Activation) (vis : Visible) (block : Block) :
    Framed Ending :=
  match fuel with
  | 0 => throw .outOfFuel
  | fuel + 1 => saving (runStats abort fuel a vis block)
termination_by structural fuel

/-- Run statements one after the other. -/
def runStats (abort : Abort) (fuel : Nat) (a : Activation) (vis : Visible) (stats : List Stat) :
    Framed Ending :=
  match fuel with
  | 0 => throw .outOfFuel
  | fuel + 1 =>
    match stats with
    | [] => return .normal
    | stat :: rest => do
      match ← runStat abort fuel a vis stat with
      | .normal => runStats abort fuel a (stat.declares ++ vis) rest
      | ending => return ending
termination_by structural fuel

/-- Run a statement. -/
def runStat (abort : Abort) (fuel : Nat) (a : Activation) (vis : Visible) (stat : Stat) :
    Framed Ending :=
  match fuel with
  | 0 => throw .outOfFuel
  | fuel + 1 => do
    if 0 < stat.line then lift (Evaluation.goToLine stat.line)
    match stat with
    | .local_ _ names values =>
      let vs ← evalList abort fuel a vis values
      push (← lift (Evaluation.declare names vs))
      return .normal
    | .localFunction _ name body =>
      let cell ← lift (Heap.newCell .nil)
      push [(name, cell)]
      let f ← close abort ([name] :: vis) a body
      lift (Heap.writeCell cell f)
      return .normal
    | .assign _ targets values =>
      let places ← evalPlaces abort fuel a vis targets
      let vs ← evalList abort fuel a vis values
      lift (Evaluation.storeAll (call abort fuel) places vs)
      return .normal
    | .call _ e =>
      let _ ← evalMulti abort fuel a vis e
      return .normal
    | .do_ block => runBlock abort fuel a vis block
    | .while_ _ condition block => runWhile abort fuel a vis condition block
    | .repeat_ _ block condition => runRepeat abort fuel a vis block condition
    | .if_ _ clauses otherwise => runClauses abort fuel a vis clauses otherwise
    | .numericFor _ var start limit step block =>
      let i ← lift (Evaluation.loopNumber .initial (← eval abort fuel a vis start))
      let limit ← lift (Evaluation.loopNumber .limit (← eval abort fuel a vis limit))
      let step ←
        match step with
        | some e => do lift (Evaluation.loopNumber .step (← eval abort fuel a vis e))
        | none => pure 1
      runCount abort fuel a vis var i limit step block
    | .genericFor _ names values block =>
      let vs ← evalList abort fuel a vis values
      let state := vs.tail
      runIterator abort fuel a vis names (vs.headD .nil) (state.headD .nil)
        (state.tail.headD .nil) block
    | .function _ path method body =>
      let f ← close abort vis a body
      storeFunction abort (call abort fuel) vis f (path ++ method.toList)
      return .normal
    | .return_ _ values => return .leaveFunction (← evalList abort fuel a vis values)
    | .break_ _ => return .leaveLoop
termination_by structural fuel

/-- Run a block as long as a condition holds. -/
def runWhile (abort : Abort) (fuel : Nat) (a : Activation) (vis : Visible) (condition : Expr)
    (block : Block) : Framed Ending :=
  match fuel with
  | 0 => throw .outOfFuel
  | fuel + 1 => do
    if (← eval abort fuel a vis condition).isTruthy then
      match ← runBlock abort fuel a vis block with
      | .normal => runWhile abort fuel a vis condition block
      | .leaveLoop => return .normal
      | ending => return ending
    else return .normal
termination_by structural fuel

/-- Run a block until a condition holds, which sees the names that the block declares. -/
def runRepeat (abort : Abort) (fuel : Nat) (a : Activation) (vis : Visible) (block : Block)
    (condition : Expr) : Framed Ending :=
  match fuel with
  | 0 => throw .outOfFuel
  | fuel + 1 => do
    let ended? ← saving do
      match ← runStats abort fuel a vis block with
      | .normal =>
        if (← eval abort fuel a (vis.after block) condition).isTruthy then
          return some .normal
        else return none
      | .leaveLoop => return some .normal
      | ending => return some ending
    match ended? with
    | some ending => return ending
    | none => runRepeat abort fuel a vis block condition
termination_by structural fuel

/-- Run the block of the first condition that holds. -/
def runClauses (abort : Abort) (fuel : Nat) (a : Activation) (vis : Visible)
    (clauses : List Clause) (otherwise : Option Block) : Framed Ending :=
  match fuel with
  | 0 => throw .outOfFuel
  | fuel + 1 =>
    match clauses with
    | [] =>
      match otherwise with
      | some block => runBlock abort fuel a vis block
      | none => return .normal
    | .mk condition block :: rest => do
      if (← eval abort fuel a vis condition).isTruthy then runBlock abort fuel a vis block
      else runClauses abort fuel a vis rest otherwise
termination_by structural fuel

/-- Run a block for the numbers from `i` on up to a limit, each in a variable of its own. -/
def runCount (abort : Abort) (fuel : Nat) (a : Activation) (vis : Visible) (var : String)
    (i limit step : Float) (block : Block) : Framed Ending :=
  match fuel with
  | 0 => throw .outOfFuel
  | fuel + 1 => do
    if Evaluation.isWithin limit step i then
      let cell ← lift (Heap.newCell (.number i))
      let ending ← saving do
        push [(var, cell)]
        runBlock abort fuel a ([var] :: vis) block
      match ending with
      | .normal => runCount abort fuel a vis var (i + step) limit step block
      | .leaveLoop => return .normal
      | ending => return ending
    else return .normal
termination_by structural fuel

/-- Run a block for the results of an iterator, in new variables each time, until the first result
is `nil`. -/
def runIterator (abort : Abort) (fuel : Nat) (a : Activation) (vis : Visible)
    (names : List String) (iterator state control : Value) (block : Block) : Framed Ending :=
  match fuel with
  | 0 => throw .outOfFuel
  | fuel + 1 => do
    lift (Evaluation.checkCallable none iterator)
    let results ← lift (call abort fuel iterator [state, control] none)
    let control := results.headD .nil
    if control.isNil then return .normal
    let vars ← lift (Evaluation.declare names results)
    let ending ← saving do
      push vars
      runBlock abort fuel a (names :: vis) block
    match ending with
    | .normal => runIterator abort fuel a vis names iterator state control block
    | .leaveLoop => return .normal
    | ending => return ending
termination_by structural fuel

/-- The places of the targets of an assignment, from left to right. -/
def evalPlaces (abort : Abort) (fuel : Nat) (a : Activation) (vis : Visible)
    (targets : List Expr) : Framed (List Place) :=
  match fuel with
  | 0 => throw .outOfFuel
  | fuel + 1 =>
    match targets with
    | [] => return []
    | target :: rest => do
      let place ←
        match target with
        | .name x => placeOfName abort vis x
        | .index _ object key => do
          let o ← eval abort fuel a vis object
          let k ← eval abort fuel a vis key
          pure (.field o k (describe vis object))
        | _ => lift (Report.here .notATarget)
      return place :: (← evalPlaces abort fuel a vis rest)
termination_by structural fuel

/-- The values of expressions, from left to right. -/
def evalList (abort : Abort) (fuel : Nat) (a : Activation) (vis : Visible) (es : List Expr) :
    Framed (List Value) :=
  match fuel with
  | 0 => throw .outOfFuel
  | fuel + 1 =>
    match es with
    | [] => return []
    | [e] => evalMulti abort fuel a vis e
    | e :: rest => do
      let v ← eval abort fuel a vis e
      return v :: (← evalList abort fuel a vis rest)
termination_by structural fuel

/-- All values of an expression. -/
def evalMulti (abort : Abort) (fuel : Nat) (a : Activation) (vis : Visible) (e : Expr) :
    Framed (List Value) :=
  match fuel with
  | 0 => throw .outOfFuel
  | fuel + 1 =>
    match e with
    | .vararg => return a.varargs
    | .call line callee args => do
      let f ← eval abort fuel a vis callee
      let vs ← evalList abort fuel a vis args
      lift (Evaluation.goToLine line)
      lift (Evaluation.checkCallable (describe vis callee) f)
      lift (call abort fuel f vs (Evaluation.calleeName callee))
    | .method line object name args => do
      let o ← eval abort fuel a vis object
      lift (Evaluation.goToLine line)
      let f ← lift (Evaluation.getField (call abort fuel) (describe vis object) o (.string name))
      let vs ← evalList abort fuel a vis args
      lift (Evaluation.goToLine line)
      lift (Evaluation.checkCallable (some (.method name)) f)
      lift (call abort fuel f (o :: vs) (some name))
    | e => do return [← eval abort fuel a vis e]
termination_by structural fuel

/-- The value of an expression. -/
def eval (abort : Abort) (fuel : Nat) (a : Activation) (vis : Visible) (e : Expr) :
    Framed Value :=
  match fuel with
  | 0 => throw .outOfFuel
  | fuel + 1 =>
    match e with
    | .nil => return .nil
    | .true_ => return .boolean true
    | .false_ => return .boolean false
    | .number n => return .number n
    | .string s => return .string s
    | .vararg => return a.varargs.headD .nil
    | .function body => close abort vis a body
    | .name x => getName abort (call abort fuel) vis x
    | .index line object key => do
      let o ← eval abort fuel a vis object
      let k ← eval abort fuel a vis key
      lift (Evaluation.goToLine line)
      lift (Evaluation.getField (call abort fuel) (describe vis object) o k)
    | .call line callee args => do
      return (← evalMulti abort fuel a vis (.call line callee args)).headD .nil
    | .method line object name args => do
      return (← evalMulti abort fuel a vis (.method line object name args)).headD .nil
    | .table fields => do
      let t ← lift Heap.newTable
      evalFields abort fuel a vis t 1 fields
      return .table t
    | .binary line op left right => do
      let l ← eval abort fuel a vis left
      match op, l.isTruthy with
      | .and, false | .or, true => return l
      | .and, true | .or, false => eval abort fuel a vis right
      | op, _ =>
        let r ← eval abort fuel a vis right
        lift (Evaluation.goToLine line)
        lift (Evaluation.binary (call abort fuel) op l r)
    | .unary line op operand => do
      let v ← eval abort fuel a vis operand
      lift (Evaluation.goToLine line)
      lift (Evaluation.unary (call abort fuel) op v)
    | .paren inner => eval abort fuel a vis inner
termination_by structural fuel

/-- Fill a table with fields; those without key get the integers from `i` on. -/
def evalFields (abort : Abort) (fuel : Nat) (a : Activation) (vis : Visible) (t : Ref) (i : Nat)
    (fields : List Field) : Framed Unit :=
  match fuel with
  | 0 => throw .outOfFuel
  | fuel + 1 =>
    match fields with
    | [] => return ()
    | .keyed key value :: rest => do
      let k ← eval abort fuel a vis key
      let v ← eval abort fuel a vis value
      lift (Operation.store t k v)
      evalFields abort fuel a vis t i rest
    | [.positional e] => do
      let vs ← evalMulti abort fuel a vis e
      lift (Heap.modifyTable t (·.setFrom i vs))
    | .positional e :: rest => do
      let v ← eval abort fuel a vis e
      lift (Heap.setInt t i v)
      evalFields abort fuel a vis t (i + 1) rest
termination_by structural fuel

end

end Framed

end LuaEmbed
