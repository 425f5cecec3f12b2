import LuaEmbed.Evaluation

/-! # Programs

How a host sets a machine up and has sources executed on it. A source is loaded as a whole before
anything of it runs. -/

namespace LuaEmbed.Program

/-- Set up the machine of a session anew: with the libraries, unless the host does without. -/
def start (callLimit : Nat) (libraries : Bool) (input : Input) : Run Unit := do
  Run.modifyMachine fun _ => { Machine.initial callLimit with input }
  if libraries then Library.openAll

/-- Call a value with arguments, under a name for reports. -/
def call (fuel : Nat) (f : Value) (args : List Value) (name : Option String) : Run (List Value) :=
  Evaluation.call fuel f args name

/-- Call a value with arguments under protection. A fault is left to the host. -/
def pcall (fuel : Nat) (f : Value) (args : List Value) : Run (List Value) :=
  Run.protect (call fuel f args none)

/-- Execute a source that is given as bytes. -/
def executeBytes (fuel : Nat) (source : List UInt8) (chunk : String) (args : List Value) :
    Run (List Value) := do
  pcall fuel (← Loader.ofBytes source chunk) args

/-- Execute a source that is given as text. -/
def execute (fuel : Nat) (source : String) : Run (List Value) :=
  executeBytes fuel (Text.bytes source) Loader.textChunk []

/-- Execute a file, or standard input under the empty path. -/
def executeFile (fuel : Nat) (path : String) (args : List Value) : Run (List Value) := do
  pcall fuel (← Loader.ofFile path) args

end LuaEmbed.Program
