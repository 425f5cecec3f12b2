import LuaEmbed.Machine.Arguments
import LuaEmbed.Machine.Module

/-! # The coroutine library

There is one thread, the main one, and it is always running. -/

namespace LuaEmbed.Library.Coroutine

/-- The functions and the names they are installed under. -/
def functions : Module.FunctionSet :=
  [("running", .coroutine .running), ("status", .coroutine .status)]

/-- Install the library. -/
def openLibrary : Run Unit := do
  let _ ← Module.register "coroutine" functions

/-- What each function does. The main thread is reported as no thread. -/
def run (f : CoroutineFunction) (args : Arguments) : Run (List Value) :=
  match f with
  | .running => return [.nil]
  | .status => do
    args.check .thread 1
    return [.string "running"]

end LuaEmbed.Library.Coroutine
