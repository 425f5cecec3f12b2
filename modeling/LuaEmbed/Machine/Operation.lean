import LuaEmbed.Chunk
import LuaEmbed.Machine.Metatable

/-! # Operations

The operations of the language on values. Each has a primitive meaning on some kinds and is left to
a metamethod on the others; it is a fault if there is none. -/

namespace LuaEmbed

/-- The operators of arithmetic. -/
inductive ArithmeticOp where
  | add | sub | mul | div | mod | pow
deriving DecidableEq, Repr

namespace ArithmeticOp

/-- The field of a metatable that stands in for an operator. -/
def event : ArithmeticOp → String
  | .add => "__add"
  | .sub => "__sub"
  | .mul => "__mul"
  | .div => "__div"
  | .mod => "__mod"
  | .pow => "__pow"

/-- The operator on numbers. The remainder is the one of division rounded down. -/
def apply : ArithmeticOp → Float → Float → Float
  | .add, a, b => a + b
  | .sub, a, b => a - b
  | .mul, a, b => a * b
  | .div, a, b => a / b
  | .mod, a, b => a - (a / b).floor * b
  | .pow, a, b => a.pow b

end ArithmeticOp

namespace Operation

/-- The greatest number of values that a chain of handlers may lead through. -/
def maxChain : Nat := 100

/-- The value is a function or has a `__call` handler. -/
def isCallable (v : Value) : Run Bool := do
  match v with
  | .function _ => return true
  | v => return !(← Metatable.field v "__call").isNil

/-- The first result of calling a handler. -/
def first (call : Caller) (handler : Value) (args : List Value) : Run Value := do
  return (← call handler args none).headD .nil

/-- The handler of an event for either operand; the left one comes first. -/
def eitherHandler (a b : Value) (event : String) : Run (Option Value) := do
  let h ← Metatable.field a event
  if !h.isNil then return some h
  let h ← Metatable.field b event
  return if h.isNil then none else some h

/-- The handler of an event that both operands share, if they are of one kind. -/
def sharedHandler (a b : Value) (event : String) : Run (Option Value) := do
  if a.kind != b.kind then return none
  let h ← Metatable.field a event
  let h' ← Metatable.field b event
  return if !h.isNil && h.rawEqual h' then some h else none

/-! ## Indexing -/

/-- `v[key]`, through at most the given number of values. -/
def indexWithin (call : Caller) (key : Value) : Nat → Value → Run Value
  | 0, _ => Report.here .loopInGet
  | n + 1, v => do
    let found ←
      match v with
      | .table r => Heap.get r key
      | _ => pure .nil
    if !found.isNil then return found
    let handler ← Metatable.field v "__index"
    match handler, v with
    | .nil, .table _ => return .nil
    | .nil, v => Report.here (.index none v.kind)
    | .function _, v => first call handler [v, key]
    | handler, _ => indexWithin call key n handler

/-- `v[key]`. -/
def index (call : Caller) (v key : Value) : Run Value := indexWithin call key maxChain v

/-- Store into a table without metamethods. -/
def store (r : Ref) (key value : Value) : Run Unit := do
  match ← Heap.set r key value with
  | .ok () => pure ()
  | .error e => Report.here (.key e)

/-- `v[key] = value`, through at most the given number of values. -/
def setIndexWithin (call : Caller) (key value : Value) : Nat → Value → Run Unit
  | 0, _ => Report.here .loopInSet
  | n + 1, v => do
    let isPresent ←
      match v with
      | .table r => do pure !(← Heap.get r key).isNil
      | _ => pure false
    let handler ← if isPresent then pure .nil else Metatable.field v "__newindex"
    match handler, v with
    | .nil, .table r => store r key value
    | .nil, v => Report.here (.index none v.kind)
    | .function _, v => do
      let _ ← call handler [v, key, value] none
    | handler, _ => setIndexWithin call key value n handler

/-- `v[key] = value`. -/
def setIndex (call : Caller) (v key value : Value) : Run Unit :=
  setIndexWithin call key value maxChain v

/-! ## Arithmetic, concatenation and length -/

/-- An operator of arithmetic. -/
def arithmetic (call : Caller) (op : ArithmeticOp) (a b : Value) : Run Value := do
  match a.toNumber?, b.toNumber? with
  | some x, some y => return .number (op.apply x y)
  | x?, _ =>
    match ← eitherHandler a b op.event with
    | some h => first call h [a, b]
    | none => Report.here (.arithmetic (if x?.isNone then a.kind else b.kind))

/-- `-v`. -/
def negate (call : Caller) (v : Value) : Run Value := do
  match v.toNumber? with
  | some x => return .number (-x)
  | none =>
    let h ← Metatable.field v "__unm"
    if h.isNil then Report.here (.arithmetic v.kind) else first call h [v, v]

/-- `a .. b`. -/
def concat (call : Caller) (a b : Value) : Run Value := do
  match a.toText?, b.toText? with
  | some x, some y => return .string (x ++ y)
  | x?, _ =>
    match ← eitherHandler a b "__concat" with
    | some h => first call h [a, b]
    | none => Report.here (.concatenate (if x?.isNone then a.kind else b.kind))

/-- `#v`: the bytes of a string, the border of a table. -/
def length (call : Caller) (v : Value) : Run Value := do
  match v with
  | .string s => return .number (Number.ofNat s.utf8ByteSize)
  | .table r => return .number (Number.ofNat (← Heap.length r))
  | v =>
    let h ← Metatable.field v "__len"
    if h.isNil then Report.here (.lengthOf v.kind) else first call h [v]

/-! ## Comparison -/

/-- `a == b`: primitive equality, or a handler that two tables or two userdata share. -/
def equals (call : Caller) (a b : Value) : Run Bool := do
  if a.rawEqual b then return true
  match a, b with
  | .table _, .table _ | .userdata _, .userdata _ =>
    match ← sharedHandler a b "__eq" with
    | some h => return (← first call h [a, b]).isTruthy
    | none => return false
  | _, _ => return false

/-- `a < b`: numbers by value, strings by their bytes. -/
def lessThan (call : Caller) (a b : Value) : Run Bool := do
  match a, b with
  | .number x, .number y => return x < y
  | .string x, .string y => return x < y
  | a, b =>
    match ← sharedHandler a b "__lt" with
    | some h => return (← first call h [a, b]).isTruthy
    | none => Report.here (.compare a.kind b.kind)

/-- `a <= b`; without a handler of its own it is `not (b < a)`. -/
def lessEqual (call : Caller) (a b : Value) : Run Bool := do
  match a, b with
  | .number x, .number y => return x ≤ y
  | .string x, .string y => return !(y < x)
  | a, b =>
    match ← sharedHandler a b "__le" with
    | some h => return (← first call h [a, b]).isTruthy
    | none =>
      match ← sharedHandler b a "__lt" with
      | some h => return !(← first call h [b, a]).isTruthy
      | none => Report.here (.compare a.kind b.kind)

/-! ## Text -/

/-- The text of a value. -/
def tostring (call : Caller) (v : Value) : Run String := do
  let h ← Metatable.field v "__tostring"
  if h.isNil then return v.display
  match ← first call h [v] with
  | .string s => return s
  | _ => Report.here .tostringNotString

end Operation

end LuaEmbed
