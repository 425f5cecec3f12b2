import LuaEmbed.Library

/-! # Evaluation

How chunks run. Expressions give values, statements have effects and end in a flow. A scope is
handed to each statement and comes back changed only by declarations, so what a name stands for
depends on where it is written alone. Evaluation takes fuel, a bound on the depth of its recursion;
a run that exhausts it ends for good. -/

namespace LuaEmbed

/-- How a statement ends. -/
inductive Flow where
  /-- The statement after it is next, in a scope. -/
  | next (scope : Scope)
  /-- The loop around it is left. -/
  | leaveLoop
  /-- The function is left with values. -/
  | leaveFunction (values : List Value)

/-- What all code of an active function shares: the name of its chunk, and the arguments that `...`
stands for. -/
structure Activation where
  chunk : String
  varargs : List Value

/-- Where an assignment stores a value. -/
inductive Place where
  | variable_ (cell : Ref)
  | global (name : String)
  | field (object key : Value) (what : Option Described)

namespace Evaluation

/-- The innermost active call goes to a line. -/
def goToLine (line : Nat) : Run Unit := Run.modifyMachine fun m =>
  match m.frames with
  | f :: fs => { m with frames := f.atLine line :: fs }
  | [] => m

/-- New variables for names, with values; a name without value gets `nil`. -/
def declare : List String → List Value → Run Group
  | [], _ => return []
  | x :: xs, vs => do
    let cell ← Heap.newCell (vs.headD .nil)
    return (x, cell) :: (← declare xs vs.tail)

/-- A function value of a body. -/
def close (a : Activation) (scope : Scope) (body : Body) : Run Value :=
  Heap.newFunction (.script body a.chunk scope)

/-! ## Names and fields -/

/-- How a report refers to a name. -/
def describeName (scope : Scope) (name : String) : Described :=
  match scope.cell? name with
  | some _ => .local_ name
  | none => .global name

/-- How a report refers to the value of an expression, if it has words for it. -/
def describe (scope : Scope) : Expr → Option Described
  | .name x => some (describeName scope x)
  | .index _ _ (.string key) => some (.field key)
  | .method _ _ name _ => some (.method name)
  | _ => none

/-- The name under which the value of an expression is called. -/
def calleeName : Expr → Option String
  | .name x => some x
  | .index _ _ (.string key) => some key
  | _ => none

/-- The value has fields of its own, or a handler that stands in for them. -/
def isIndexable (v : Value) (event : String) : Run Bool := do
  match v with
  | .table _ => return true
  | v => return !(← Metatable.field v event).isNil

/-- The field of a value that a report would refer to as `what`. -/
def getField (call : Caller) (what : Option Described) (v key : Value) : Run Value := do
  if ← isIndexable v "__index" then Operation.index call v key
  else Report.here (.index what v.kind)

/-- Store into a field of a value that a report would refer to as `what`. -/
def setField (call : Caller) (what : Option Described) (v key value : Value) : Run Unit := do
  if ← isIndexable v "__newindex" then Operation.setIndex call v key value
  else Report.here (.index what v.kind)

/-- The value of a name: the variable that is visible under it, or else the global one. -/
def getName (call : Caller) (scope : Scope) (name : String) : Run Value :=
  match scope.cell? name with
  | some cell => Heap.readCell cell
  | none => do Operation.index call (.table (← Run.machine Machine.globals)) (.string name)

/-- The place of a name. -/
def placeOfName (scope : Scope) (name : String) : Place :=
  match scope.cell? name with
  | some cell => .variable_ cell
  | none => .global name

/-- Store a value at a place. -/
def store (call : Caller) (value : Value) : Place → Run Unit
  | .variable_ cell => Heap.writeCell cell value
  | .global name => do
    Operation.setIndex call (.table (← Run.machine Machine.globals)) (.string name) value
  | .field object key what => setField call what object key value

/-- Store values at places, from left to right; a place without value gets `nil`. -/
def storeAll (call : Caller) : List Place → List Value → Run Unit
  | [], _ => return ()
  | p :: ps, vs => do
    store call (vs.headD .nil) p
    storeAll call ps vs.tail

/-- Follow field names from a value. The last of them is left, with the value that has it and how
a report refers to that value. -/
def followPath (call : Caller) (what : Described) (v : Value) :
    String → List String → Run (Value × Described × String)
  | last, [] => return (v, what, last)
  | key, next :: rest => do
    followPath call (.field key) (← getField call (some what) v (.string key)) next rest

/-- Store a function under a dotted path. -/
def storeFunction (call : Caller) (scope : Scope) (f : Value) : List String → Run Unit
  | [] => return ()
  | [name] => store call f (placeOfName scope name)
  | root :: key :: keys => do
    let v ← getName call scope root
    let (object, what, last) ← followPath call (describeName scope root) v key keys
    setField call (some what) object (.string last) f

/-- Fail if a value cannot be called. -/
def checkCallable (what : Option Described) (f : Value) : Run Unit := do
  if !(← Operation.isCallable f) then Report.here (.call what f.kind)

/-! ## Operators -/

/-- An operator on two values. The two that choose an operand choose here as well. -/
def binary (call : Caller) (op : BinaryOp) (a b : Value) : Run Value :=
  match op with
  | .add => Operation.arithmetic call .add a b
  | .sub => Operation.arithmetic call .sub a b
  | .mul => Operation.arithmetic call .mul a b
  | .div => Operation.arithmetic call .div a b
  | .mod => Operation.arithmetic call .mod a b
  | .pow => Operation.arithmetic call .pow a b
  | .concat => Operation.concat call a b
  | .eq => do return .boolean (← Operation.equals call a b)
  | .ne => do return .boolean !(← Operation.equals call a b)
  | .lt => do return .boolean (← Operation.lessThan call a b)
  | .le => do return .boolean (← Operation.lessEqual call a b)
  | .gt => do return .boolean (← Operation.lessThan call b a)
  | .ge => do return .boolean (← Operation.lessEqual call b a)
  | .and => return if a.isTruthy then b else a
  | .or => return if a.isTruthy then a else b

/-- An operator on one value. -/
def unary (call : Caller) (op : UnaryOp) (v : Value) : Run Value :=
  match op with
  | .neg => Operation.negate call v
  | .not => return .boolean !v.isTruthy
  | .len => Operation.length call v

/-- A value as a number that controls a loop. -/
def loopNumber (what : LoopNumber) (v : Value) : Run Float :=
  match v.toNumber? with
  | some n => return n
  | none => Report.here (.loopNumber what)

/-- A counting loop goes on with a value of its variable. -/
def isWithin (limit step i : Float) : Bool := (0 < step && i ≤ limit) || (step ≤ 0 && limit ≤ i)

/-! ## Calls, statements and expressions -/

mutual

/-- Call a value with arguments, under a name for reports. -/
def call (fuel : Nat) (f : Value) (args : List Value) (name : Option String) : Run (List Value) :=
  match fuel with
  | 0 => throw .outOfFuel
  | fuel + 1 =>
    match f with
    | .function r => do
      match ← Heap.function? r with
      | some (.native _ op) => Run.activate (.native name) (op.run fuel (call fuel) args)
      | some (.script body chunk scope) =>
        Run.activate (.script name chunk body.line) (runBody fuel body chunk scope args)
      | none => return []
    | v => do
      match ← Metatable.field v "__call" with
      | .function r => call fuel (.function r) (v :: args) name
      | _ => Report.here (.call none v.kind)
termination_by structural fuel

/-- Run a function body on arguments. -/
def runBody (fuel : Nat) (body : Body) (chunk : String) (scope : Scope) (args : List Value) :
    Run (List Value) :=
  match fuel with
  | 0 => throw .outOfFuel
  | fuel + 1 => do
    let params ← declare body.params args
    let varargs := if body.isVararg then args.drop body.params.length else []
    match ← runBlock fuel ⟨chunk, varargs⟩ (params :: scope) body.block with
    | .leaveFunction values => return values
    | _ => return []
termination_by structural fuel

/-- Run a block. The names it declares end with it. -/
def runBlock (fuel : Nat) (a : Activation) (scope : Scope) (block : Block) : Run Flow :=
  match fuel with
  | 0 => throw .outOfFuel
  | fuel + 1 => do
    match ← runStats fuel a scope block with
    | .next _ => return .next scope
    | flow => return flow
termination_by structural fuel

/-- Run statements one after the other. -/
def runStats (fuel : Nat) (a : Activation) (scope : Scope) (stats : List Stat) : Run Flow :=
  match fuel with
  | 0 => throw .outOfFuel
  | fuel + 1 =>
    match stats with
    | [] => return .next scope
    | stat :: rest => do
      match ← runStat fuel a scope stat with
      | .next scope => runStats fuel a scope rest
      | flow => return flow
termination_by structural fuel

/-- Run a statement. -/
def runStat (fuel : Nat) (a : Activation) (scope : Scope) (stat : Stat) : Run Flow :=
  match fuel with
  | 0 => throw .outOfFuel
  | fuel + 1 => do
    if 0 < stat.line then goToLine stat.line
    match stat with
    | .local_ _ names values =>
      let vs ← evalList fuel a scope values
      return .next ((← declare names vs) :: scope)
    | .localFunction _ name body =>
      let cell ← Heap.newCell .nil
      let scope := [(name, cell)] :: scope
      Heap.writeCell cell (← close a scope body)
      return .next scope
    | .assign _ targets values =>
      let places ← evalPlaces fuel a scope targets
      let vs ← evalList fuel a scope values
      storeAll (call fuel) places vs
      return .next scope
    | .call _ e =>
      let _ ← evalMulti fuel a scope e
      return .next scope
    | .do_ block => runBlock fuel a scope block
    | .while_ _ condition block => runWhile fuel a scope condition block
    | .repeat_ _ block condition => runRepeat fuel a scope block condition
    | .if_ _ clauses otherwise => runClauses fuel a scope clauses otherwise
    | .numericFor _ var start limit step block =>
      let i ← loopNumber .initial (← eval fuel a scope start)
      let limit ← loopNumber .limit (← eval fuel a scope limit)
      let step ←
        match step with
        | some e => do loopNumber .step (← eval fuel a scope e)
        | none => pure 1
      runCount fuel a scope var i limit step block
    | .genericFor _ names values block =>
      let vs ← evalList fuel a scope values
      let state := vs.tail
      runIterator fuel a scope names (vs.headD .nil) (state.headD .nil) (state.tail.headD .nil)
        block
    | .function _ path method body =>
      let f ← close a scope body
      storeFunction (call fuel) scope f (path ++ method.toList)
      return .next scope
    | .return_ _ values => return .leaveFunction (← evalList fuel a scope values)
    | .break_ _ => return .leaveLoop
termination_by structural fuel

/-- Run a block as long as a condition holds. -/
def runWhile (fuel : Nat) (a : Activation) (scope : Scope) (condition : Expr) (block : Block) :
    Run Flow :=
  match fuel with
  | 0 => throw .outOfFuel
  | fuel + 1 => do
    if (← eval fuel a scope condition).isTruthy then
      match ← runBlock fuel a scope block with
      | .next _ => runWhile fuel a scope condition block
      | .leaveLoop => return .next scope
      | flow => return flow
    else return .next scope
termination_by structural fuel

/-- Run a block until a condition holds, which sees the names that the block declares. -/
def runRepeat (fuel : Nat) (a : Activation) (scope : Scope) (block : Block) (condition : Expr) :
    Run Flow :=
  match fuel with
  | 0 => throw .outOfFuel
  | fuel + 1 => do
    match ← runStats fuel a scope block with
    | .next inner =>
      if (← eval fuel a inner condition).isTruthy then return .next scope
      else runRepeat fuel a scope block condition
    | .leaveLoop => return .next scope
    | flow => return flow
termination_by structural fuel

/-- Run the block of the first condition that holds. -/
def runClauses (fuel : Nat) (a : Activation) (scope : Scope) (clauses : List Clause)
    (otherwise : Option Block) : Run Flow :=
  match fuel with
  | 0 => throw .outOfFuel
  | fuel + 1 =>
    match clauses with
    | [] =>
      match otherwise with
      | some block => runBlock fuel a scope block
      | none => return .next scope
    | .mk condition block :: rest => do
      if (← eval fuel a scope condition).isTruthy then runBlock fuel a scope block
      else runClauses fuel a scope rest otherwise
termination_by structural fuel

/-- Run a block for the numbers from `i` on up to a limit, each in a variable of its own. -/
def runCount (fuel : Nat) (a : Activation) (scope : Scope) (var : String) (i limit step : Float)
    (block : Block) : Run Flow :=
  match fuel with
  | 0 => throw .outOfFuel
  | fuel + 1 => do
    if isWithin limit step i then
      let cell ← Heap.newCell (.number i)
      match ← runBlock fuel a ([(var, cell)] :: scope) block with
      | .next _ => runCount fuel a scope var (i + step) limit step block
      | .leaveLoop => return .next scope
      | flow => return flow
    else return .next scope
termination_by structural fuel

/-- Run a block for the results of an iterator, in new variables each time, until the first result
is `nil`. The first result is also what the iterator goes on from. -/
def runIterator (fuel : Nat) (a : Activation) (scope : Scope) (names : List String)
    (iterator state control : Value) (block : Block) : Run Flow :=
  match fuel with
  | 0 => throw .outOfFuel
  | fuel + 1 => do
    checkCallable none iterator
    let results ← call fuel iterator [state, control] none
    let control := results.headD .nil
    if control.isNil then return .next scope
    let vars ← declare names results
    match ← runBlock fuel a (vars :: scope) block with
    | .next _ => runIterator fuel a scope names iterator state control block
    | .leaveLoop => return .next scope
    | flow => return flow
termination_by structural fuel

/-- The places of the targets of an assignment, from left to right. -/
def evalPlaces (fuel : Nat) (a : Activation) (scope : Scope) (targets : List Expr) :
    Run (List Place) :=
  match fuel with
  | 0 => throw .outOfFuel
  | fuel + 1 =>
    match targets with
    | [] => return []
    | target :: rest => do
      let place ←
        match target with
        | .name x => pure (placeOfName scope x)
        | .index _ object key => do
          let o ← eval fuel a scope object
          let k ← eval fuel a scope key
          pure (.field o k (describe scope object))
        | _ => Report.here .notATarget
      return place :: (← evalPlaces fuel a scope rest)
termination_by structural fuel

/-- The values of expressions, from left to right. Only the last one may have any number of
them. -/
def evalList (fuel : Nat) (a : Activation) (scope : Scope) (es : List Expr) : Run (List Value) :=
  match fuel with
  | 0 => throw .outOfFuel
  | fuel + 1 =>
    match es with
    | [] => return []
    | [e] => evalMulti fuel a scope e
    | e :: rest => do
      let v ← eval fuel a scope e
      return v :: (← evalList fuel a scope rest)
termination_by structural fuel

/-- All values of an expression. -/
def evalMulti (fuel : Nat) (a : Activation) (scope : Scope) (e : Expr) : Run (List Value) :=
  match fuel with
  | 0 => throw .outOfFuel
  | fuel + 1 =>
    match e with
    | .vararg => return a.varargs
    | .call line callee args => do
      let f ← eval fuel a scope callee
      let vs ← evalList fuel a scope args
      goToLine line
      checkCallable (describe scope callee) f
      call fuel f vs (calleeName callee)
    | .method line object name args => do
      let o ← eval fuel a scope object
      goToLine line
      let f ← getField (call fuel) (describe scope object) o (.string name)
      let vs ← evalList fuel a scope args
      goToLine line
      checkCallable (some (.method name)) f
      call fuel f (o :: vs) (some name)
    | e => do return [← eval fuel a scope e]
termination_by structural fuel

/-- The value of an expression; of several it is the first, of none it is `nil`. -/
def eval (fuel : Nat) (a : Activation) (scope : Scope) (e : Expr) : Run Value :=
  match fuel with
  | 0 => throw .outOfFuel
  | fuel + 1 =>
    match e with
    | .nil => return .nil
    | .true_ => return .boolean true
    | .false_ => return .boolean false
    | .number n => return .number n
    | .string s => return .string s
    | .vararg => return a.varargs.headD .nil
    | .function body => close a scope body
    | .name x => getName (call fuel) scope x
    | .index line object key => do
      let o ← eval fuel a scope object
      let k ← eval fuel a scope key
      goToLine line
      getField (call fuel) (describe scope object) o k
    | .call line callee args => do
      return (← evalMulti fuel a scope (.call line callee args)).headD .nil
    | .method line object name args => do
      return (← evalMulti fuel a scope (.method line object name args)).headD .nil
    | .table fields => do
      let t ← Heap.newTable
      evalFields fuel a scope t 1 fields
      return .table t
    | .binary line op left right => do
      let l ← eval fuel a scope left
      match op, l.isTruthy with
      | .and, false | .or, true => return l
      | .and, true | .or, false => eval fuel a scope right
      | op, _ =>
        let r ← eval fuel a scope right
        goToLine line
        binary (call fuel) op l r
    | .unary line op operand => do
      let v ← eval fuel a scope operand
      goToLine line
      unary (call fuel) op v
    | .paren inner => eval fuel a scope inner
termination_by structural fuel

/-- Fill a table with fields; those without key get the integers from `i` on. -/
def evalFields (fuel : Nat) (a : Activation) (scope : Scope) (t : Ref) (i : Nat)
    (fields : List Field) : Run Unit :=
  match fuel with
  | 0 => throw .outOfFuel
  | fuel + 1 =>
    match fields with
    | [] => return ()
    | .keyed key value :: rest => do
      let k ← eval fuel a scope key
      let v ← eval fuel a scope value
      Operation.store t k v
      evalFields fuel a scope t i rest
    | [.positional e] => do
      let vs ← evalMulti fuel a scope e
      Heap.modifyTable t (·.setFrom i vs)
    | .positional e :: rest => do
      let v ← eval fuel a scope e
      Heap.setInt t i v
      evalFields fuel a scope t (i + 1) rest
termination_by structural fuel

end

end Evaluation

end LuaEmbed
