import LuaEmbed.Machine.Arguments
import LuaEmbed.Machine.Metatable
import LuaEmbed.Machine.Module

/-! # The debug library

Tracebacks, records about functions and frames, and metatables without regard to protection. -/

namespace LuaEmbed.Library.Debug

/-- The functions and the names they are installed under. -/
def functions : Module.FunctionSet :=
  [("traceback", .debug .traceback), ("getinfo", .debug .getinfo),
    ("getmetatable", .debug .getmetatable), ("setmetatable", .debug .setmetatable)]

/-- Install the library. -/
def openLibrary : Run Unit := do
  let _ ← Module.register "debug" functions

/-- `debug.traceback(message, level)`: a message that is no text comes back as it is. -/
def traceback (args : Arguments) : Run (List Value) := do
  let shown (message : Option String) : Run (List Value) := do
    let level ← args.opt .integer 2 1
    return [.string (← Report.traceback message level.toNat)]
  match args.arg 1 with
  | .nil => shown none
  | .string s => shown (some s)
  | v => return [v]

/-! ## Records -/

/-- The line number that stands for no line. -/
def noLine : Value := .number (-1)

/-- A new table with fields. -/
def record (fields : List (String × Value)) : Run Value := do
  let r ← Heap.newTable
  Heap.modifyTable r fun t => fields.foldl (fun t (name, v) => t.setStr name v) t
  return .table r

/-- The fields that name the source of script code, or that there is none. -/
def sourceFields : Option String → List (String × Value)
  | some chunk => [("source", .string chunk), ("short_src", .string chunk)]
  | none => [("source", .string "=[C]"), ("short_src", .string "[C]")]

/-- The fields about a function. -/
def functionFields : Function → List (String × Value)
  | .native .. =>
    sourceFields none ++ [("what", .string "C"), ("linedefined", noLine)]
  | .script body chunk _ =>
    sourceFields (some chunk) ++
      [("what", .string (Frame.script none chunk body.line).what),
        ("linedefined", .number (Number.ofNat body.line))]

/-- The fields about an active call. -/
def frameFields (f : Frame) : List (String × Value) :=
  let line (n : Option Nat) := (n.map fun n => Value.number (Number.ofNat n)).getD noLine
  sourceFields (f.site.map Site.chunk) ++
    [("currentline", line (f.site.map Site.currentLine)),
      ("linedefined", line (f.site.map Site.lineDefined)), ("what", .string f.what)] ++
    (f.name.map fun name => ("name", Value.string name)).toList

/-- `debug.getinfo(f)`: a record about a function, or about the active call at a level. -/
def getinfo (args : Arguments) : Run (List Value) := do
  args.checkKinds 1 [.number, .function]
  match args.arg 1 with
  | .function r =>
    match ← Heap.function? r with
    | some f =>
      let info ← record (functionFields f ++ [("currentline", noLine), ("func", .function r)])
      return [info]
    | none => return [.nil]
  | _ =>
    let level ← args.check .integer 1
    if level < 0 then return [.nil]
    match ← Report.frame? level.toNat with
    | some f => return [← record (frameFields f)]
    | none => return [.nil]

/-! ## Metatables -/

/-- `debug.getmetatable(v)`. -/
def getmetatable (args : Arguments) : Run (List Value) := do
  match ← Metatable.of (← args.checkAny 1) with
  | some mt => return [.table mt]
  | none => return [.nil]

/-- `debug.setmetatable(v, mt)`. -/
def setmetatable (args : Arguments) : Run (List Value) := do
  let v ← args.checkAny 1
  args.checkKinds 2 [.nil, .table]
  Metatable.attach v (← args.opt? .table 2)
  return [.boolean true]

/-- What each function does. -/
def run (f : DebugFunction) (args : Arguments) : Run (List Value) :=
  match f with
  | .traceback => traceback args
  | .getinfo => getinfo args
  | .getmetatable => getmetatable args
  | .setmetatable => setmetatable args

end LuaEmbed.Library.Debug
