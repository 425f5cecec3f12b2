import LuaEmbed.Machine.Arguments
import LuaEmbed.Machine.Loader
import LuaEmbed.Machine.Module
import LuaEmbed.Machine.Operation

/-! # The base library

The functions that stand in the global table itself: faults and protected calls, conversions,
traversal, raw access, metatables, and loading. -/

namespace LuaEmbed.Library.Base

/-- The functions and the names they are installed under. -/
def functions : Module.FunctionSet :=
  [("assert", .base .assert_), ("error", .base .error), ("pcall", .base .pcall),
    ("xpcall", .base .xpcall), ("print", .base .print), ("type", .base .type_),
    ("tostring", .base .tostring), ("tonumber", .base .tonumber), ("ipairs", .base .ipairs),
    ("pairs", .base .pairs), ("next", .base .next), ("select", .base .select),
    ("rawget", .base .rawget), ("rawset", .base .rawset), ("rawequal", .base .rawequal),
    ("setmetatable", .base .setmetatable), ("getmetatable", .base .getmetatable),
    ("unpack", .base .unpack), ("load", .base .load), ("loadstring", .base .loadstring),
    ("loadfile", .base .loadfile), ("dofile", .base .dofile)]

/-- Install the library. -/
def openLibrary : Run Unit := do
  Module.setGlobal "_G" (.table (← Run.machine Machine.globals))
  let _ ← Module.register "_G" functions
  Module.setGlobal "_VERSION" (.string "Lua 5.1")

/-! ## Faults and protected calls -/

/-- `assert(v, message)`. -/
def assert (args : Arguments) : Run (List Value) := do
  let v ← args.checkAny 1
  if v.isTruthy then return args
  let message ← args.opt .string 2 "assertion failed!"
  Report.raise .runtime (.other message)

/-- `error(v, level)`: a string is positioned at the level. -/
def error (args : Arguments) : Run (List Value) := do
  let v := args.arg 1
  let level ← args.opt .integer 2 1
  match v with
  | .string s =>
    if 0 < level then
      let position ← Report.location level.toNat
      if !position.isEmpty then Run.fail (.raised (.string (position ++ " " ++ s)))
    Run.fail (.raised v)
  | v => Run.fail (.raised v)

/-- `pcall(f, …)`: `true` and the results, or `false` and the value of the fault. -/
def pcall (call : Caller) (args : Arguments) : Run (List Value) := do
  let f ← args.checkAny 1
  match ← Run.attempt (Run.protect (call f args.tail none)) with
  | .ok results => return .boolean true :: results
  | .error fault => return [.boolean false, fault.toValue]

/-- `xpcall(f, handler)`: like `pcall`, with the first result of the handler on the fault. -/
def xpcall (call : Caller) (args : Arguments) : Run (List Value) := do
  let f ← args.checkAny 1
  let handler ← args.checkAny 2
  match ← Run.attempt (Run.protect (call f [] none)) with
  | .ok results => return .boolean true :: results
  | .error fault =>
    let handled ← call handler [fault.toValue] none
    return [.boolean false, handled.headD .nil]

/-! ## Output and conversion -/

/-- The texts of values, in order, after texts that are given in reverse. -/
def texts (call : Caller) (reversed : List String) : List Value → Run (List String)
  | [] => return reversed.reverse
  | v :: vs => do
    let s ← Operation.tostring call v
    texts call (s :: reversed) vs

/-- `print(…)`: the texts of the arguments on one line, separated by tabs. -/
def print (call : Caller) (args : Arguments) : Run (List Value) := do
  let shown ← texts call [] args
  let line := String.intercalate "\t" shown ++ "\n"
  Run.modifyWorld fun w => { w with out := w.out ++ line }
  return []

/-- `tonumber(v, base)`. In a base other than ten, a sign may stand before the sign of the digits,
and turns it round. -/
def tonumber (args : Arguments) : Run (List Value) := do
  let base ← args.opt .integer 2 10
  if base == 10 then
    let v ← args.checkAny 1
    return [(v.toNumber?.map Value.number).getD .nil]
  if base < 2 || 36 < base then Report.argument .runtime 2 .baseOutOfRange
  let s ← args.check .string 1
  let cs := Text.trimChars s.toList
  let (negative, digits) :=
    match cs with
    | '-' :: rest => (true, rest)
    | rest => (false, rest)
  match Number.int64OfBase? base.toNat digits with
  | some n =>
    let f := Number.ofInt n
    return [.number (if negative then -f else f)]
  | none => return [.nil]

/-! ## Traversal -/

/-- One step of `ipairs`: the next index and its value, until there is none. -/
def ipairsStep (args : Arguments) : Run (List Value) := do
  let t ← args.check .table 1
  let i := Number.wrap64 ((← args.check .integer 2) + 1)
  let v ← Heap.getInt t i
  return if v.isNil then [.nil] else [.number (Number.ofInt i), v]

/-- `ipairs(t)`. -/
def ipairs (args : Arguments) : Run (List Value) := do
  let t ← args.checkAny 1
  return [← Heap.newNative "ipairs_aux" (.base .ipairsStep), t, .number 0]

/-- `pairs(t)`. -/
def pairs (args : Arguments) : Run (List Value) := do
  let t ← args.check .table 1
  return [← Heap.newNative "next" (.base .next), .table t, .nil]

/-- `next(t, key)`: the key and value after a key, until there is none. -/
def next (args : Arguments) : Run (List Value) := do
  let t ← args.check .table 1
  match ← Heap.readTable t (·.next? (args.arg 2)) with
  | .ok (some (k, v)) => return [k, v]
  | .ok none => return [.nil]
  | .error () => Report.raise .runtime .unknownKey

/-- `select(n, …)`: the arguments after the first from the `n`th on, or their number. -/
def select (args : Arguments) : Run (List Value) := do
  let count : Int := (args.length : Int) - 1
  if (args.arg 1).rawEqual (.string "#") then return [.number (Number.ofInt count)]
  let n ← args.check .integer 1
  let start := if n < 0 then count + n else n - 1
  if n == 0 || start < 0 then Report.argument .runtime 1 .indexOutOfRange
  return args.drop (1 + start.toNat)

/-! ## Raw access and metatables -/

/-- `rawget(t, k)`. -/
def rawget (args : Arguments) : Run (List Value) := do
  let t ← args.check .table 1
  let k ← args.checkAny 2
  return [← Heap.get t k]

/-- `rawset(t, k, v)`. -/
def rawset (args : Arguments) : Run (List Value) := do
  let t ← args.check .table 1
  let k ← args.checkAny 2
  let v ← args.checkAny 3
  match ← Heap.set t k v with
  | .ok () => return [.table t]
  | .error e => Report.raise .runtime (.key e)

/-- `rawequal(a, b)`. -/
def rawequal (args : Arguments) : Run (List Value) := do
  let a ← args.checkAny 1
  let b ← args.checkAny 2
  return [.boolean (a.rawEqual b)]

/-- The field by which a metatable protects itself. -/
def protectionField : String := "__metatable"

/-- `setmetatable(t, mt)`; a protected metatable stays. -/
def setmetatable (args : Arguments) : Run (List Value) := do
  let t ← args.check .table 1
  args.checkKinds 2 [.nil, .table]
  if !(← Metatable.field (.table t) protectionField).isNil then
    Report.raise .runtime .protectedMetatable
  Metatable.attach (.table t) (← args.opt? .table 2)
  return [.table t]

/-- `getmetatable(v)`; a protected metatable shows its protection instead. -/
def getmetatable (args : Arguments) : Run (List Value) := do
  let v ← args.checkAny 1
  match ← Metatable.of v with
  | none => return [.nil]
  | some mt =>
    let protection ← Heap.getStr mt protectionField
    return [if protection.isNil then .table mt else protection]

/-- The number of values that `unpack` does not reach. -/
def maxUnpacked : Int := 1000000

/-- `unpack(t, i, j)`. -/
def unpack (args : Arguments) : Run (List Value) := do
  let t ← args.check .table 1
  let i ← args.opt .integer 2 1
  let j ← args.opt .integer 3 (← Heap.length t)
  if i ≤ j && maxUnpacked ≤ j - i then Report.raise .runtime .tooManyToUnpack
  Heap.readTable t (·.slice i (j + 1 - i).toNat)

/-! ## Loading -/

/-- Load a chunk, or report why there is none. -/
def loaded (load : Run Value) : Run (List Value) := do
  match ← Run.attempt load with
  | .ok f => return [f]
  | .error fault => return [.nil, .string fault.display]

/-- The pieces that a reader function returns up to `nil` or an empty string, after the text so
far; `none` if it returns something else. -/
def readPieces (call : Caller) (reader : Value) : Nat → String → Run (Option String)
  | 0, _ => throw .outOfFuel
  | fuel + 1, text => do
    match (← call reader [] none).headD .nil with
    | .nil => return some text
    | .string s => if s.isEmpty then return some text else readPieces call reader fuel (text ++ s)
    | _ => return none

/-- `load(source, name)`: the source is a string or a function that returns it in pieces. -/
def load (fuel : Nat) (call : Caller) (args : Arguments) : Run (List Value) := do
  let chunk ← args.opt .string 2 "(load)"
  match args.arg 1 with
  | .string s => loaded (Loader.ofBytes (Text.bytes s) chunk)
  | .function r =>
    match ← readPieces call (.function r) fuel "" with
    | some text => loaded (Loader.ofBytes (Text.bytes text) chunk)
    | none => return [.nil, .string "reader function must return a string"]
  | v => Report.argument .runtime 1 (.expectedGot Kind.function.name v.kind)

/-- `loadstring(source, name)`. -/
def loadstring (args : Arguments) : Run (List Value) := do
  let source ← args.check .string 1
  let name ← args.opt? .string 2
  loaded (Loader.ofBytes (Text.bytes source) (name.getD Loader.textChunk))

/-- `loadfile(path)`. -/
def loadfile (args : Arguments) : Run (List Value) := do
  let path ← args.opt .string 1 ""
  loaded (Loader.ofFile path)

/-- `dofile(path)`. -/
def dofile (call : Caller) (args : Arguments) : Run (List Value) := do
  let path ← args.opt .string 1 ""
  call (← Loader.ofFile path) [] none

/-! ## All functions -/

/-- What each function does. -/
def run (fuel : Nat) (call : Caller) (f : BaseFunction) (args : Arguments) : Run (List Value) :=
  match f with
  | .assert_ => assert args
  | .error => error args
  | .pcall => pcall call args
  | .xpcall => xpcall call args
  | .print => print call args
  | .type_ => do return [.string (← args.checkAny 1).kind.name]
  | .tostring => do return [.string (← Operation.tostring call (← args.checkAny 1))]
  | .tonumber => tonumber args
  | .ipairs => ipairs args
  | .ipairsStep => ipairsStep args
  | .pairs => pairs args
  | .next => next args
  | .select => select args
  | .rawget => rawget args
  | .rawset => rawset args
  | .rawequal => rawequal args
  | .setmetatable => setmetatable args
  | .getmetatable => getmetatable args
  | .unpack => unpack args
  | .load => load fuel call args
  | .loadstring => loadstring args
  | .loadfile => loadfile args
  | .dofile => dofile call args

end LuaEmbed.Library.Base
