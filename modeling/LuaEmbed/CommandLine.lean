import LuaEmbed.Program
import LuaEmbed.Text.Blank

/-! # The command line

A run of the program: its arguments say which modules to load, which chunks and which script to
execute, and whether lines of input are executed one by one afterwards. The first failure ends the
program, except in such lines. -/

namespace LuaEmbed.CommandLine

/-- The name under which the program reports. -/
def programName : String := "moonhost"

/-- What the program says about itself. -/
def version : String := programName ++ " 0.1.0 -- Lua 5.1"

/-! ## Arguments -/

/-- What the arguments ask for. -/
structure Request where
  showVersion : Bool
  interactive : Bool
  modules : List String
  chunks : List String
  script : Option String
  arguments : List String
deriving DecidableEq, Repr

namespace Request

/-- The request of no arguments. -/
def empty : Request := ⟨false, false, [], [], none, []⟩

/-- What is wrong with the arguments. -/
inductive Fault where
  | needsArgument (option : String)
  | unrecognized (option : String)
deriving DecidableEq, Repr

/-- The words for what is wrong. -/
def Fault.message : Fault → String
  | needsArgument option => "'" ++ option ++ "' needs argument"
  | unrecognized option => "unrecognized option '" ++ option ++ "'"

/-- The request with a script and its arguments. -/
def withScript (r : Request) : List String → Request
  | [] => r
  | script :: arguments => { r with script := some script, arguments }

/-- What one argument is. An option that takes a value may have it attached. -/
inductive Argument where
  | endOfOptions
  | version
  | interactive
  | chunk (value : Option String)
  | module (value : Option String)
  | unknown
  | script
deriving DecidableEq, Repr

/-- The value that is attached to an option. -/
def attached : List Char → Option String
  | [] => none
  | cs => some (String.ofList cs)

/-- What an argument is, by itself. -/
def Argument.of (a : String) : Argument :=
  match a.toList with
  | ['-', '-'] => .endOfOptions
  | ['-', 'v'] => .version
  | ['-', 'i'] => .interactive
  | '-' :: 'e' :: cs => .chunk (attached cs)
  | '-' :: 'l' :: cs => .module (attached cs)
  | '-' :: _ :: _ => .unknown
  | _ => .script

/-- Read arguments. The first one that is no option is the script, and what follows belongs to
it. -/
def read (r : Request) : List String → Except Fault Request
  | [] => .ok r
  | a :: rest =>
    match Argument.of a with
    | .endOfOptions => .ok (r.withScript rest)
    | .version => read { r with showVersion := true } rest
    | .interactive => read { r with interactive := true } rest
    | .chunk (some chunk) => read { r with chunks := r.chunks ++ [chunk] } rest
    | .module (some name) => read { r with modules := r.modules ++ [name] } rest
    | .chunk none =>
      match rest with
      | chunk :: rest => read { r with chunks := r.chunks ++ [chunk] } rest
      | [] => .error (.needsArgument a)
    | .module none =>
      match rest with
      | name :: rest => read { r with modules := r.modules ++ [name] } rest
      | [] => .error (.needsArgument a)
    | .unknown => .error (.unrecognized a)
    | .script => .ok (r.withScript (a :: rest))

end Request

/-! ## Output -/

/-- Write a line to standard output. -/
def printLine (s : String) : Run Unit :=
  Run.modifyWorld fun w => { w with out := w.out ++ s ++ "\n" }

/-- Write a line to standard error. -/
def printError (s : String) : Run Unit :=
  Run.modifyWorld fun w => { w with err := w.err ++ s ++ "\n" }

/-- End the program because of a failure. -/
def fail {α : Type} (message : String) : Run α := do
  printError (programName ++ ": " ++ message)
  throw (.exit 1)

/-- Run to a value or to the end of the program. -/
def orFail {α : Type} (r : Run α) : Run α := do
  match ← Run.attempt r with
  | .ok a => return a
  | .error fault => fail fault.display

/-! ## Lines -/

/-- A line of input, `none` at its end. -/
def nextLine : Run (Except FileFault (Option String)) := do
  let (line, input) := (← Run.machine Machine.input).takeLine
  Run.modifyMachine fun m => { m with input }
  return line

/-- The name of chunks that are lines. -/
def lineChunk : String := "stdin"

/-- What a report says of a source that ends too early. -/
def endMark : String := "<eof>"

/-- Execute a statement, with the lines that follow as long as it is not complete. -/
def executeStatement (fuel : Nat) : Nat → String → Run (List Value)
  | 0, _ => throw .outOfFuel
  | lines + 1, source => do
    match ← Run.attempt (Loader.ofBytes (Text.bytes source) lineChunk) with
    | .ok f => Program.pcall fuel f []
    | .error fault =>
      if (fault.display.splitOn endMark).length ≤ 1 then Run.fail fault
      else
        match ← nextLine with
        | .ok (some line) => executeStatement fuel lines (source ++ "\n" ++ line)
        | _ => Run.fail fault

/-- Execute a line: an expression, whose values are the results, or else a statement. -/
def executeLine (fuel : Nat) (line : String) : Run (List Value) := do
  match ← Run.attempt (Loader.ofBytes (Text.bytes ("return " ++ line)) lineChunk) with
  | .ok f => Program.pcall fuel f []
  | .error _ => executeStatement fuel fuel line

/-- Execute the lines of the input, and show the values and the faults of each. -/
def executeLines (fuel : Nat) : Nat → Run Unit
  | 0 => throw .outOfFuel
  | lines + 1 => do
    match ← nextLine with
    | .ok none => return ()
    | .error e => printError (programName ++ ": readline error: " ++ e.message)
    | .ok (some line) =>
      let line := String.ofList (Text.trimChars line.toList)
      if !line.isEmpty then
        match ← Run.attempt (executeLine fuel line) with
        | .ok [] => pure ()
        | .ok values => printLine (String.intercalate "\t" (values.map Value.display))
        | .error fault => printError fault.display
      executeLines fuel lines

/-! ## The program -/

/-- The table of arguments: the program at index -1, the script at index 0, and what follows it. -/
def argumentTable (program : String) (r : Request) : Table :=
  let t := Table.empty.setInt (-1) (.string program)
  let t :=
    match r.script with
    | some script => t.setInt 0 (.string script)
    | none => t
  t.setFrom 1 (r.arguments.map .string)

/-- Load a module. -/
def loadModule (fuel : Nat) (name : String) : Run Unit := do
  let _ ← orFail do Program.pcall fuel (← Module.global "require") [.string name]

/-- Execute a chunk of the command line. -/
def executeChunk (fuel : Nat) (source : String) : Run Unit := do
  let _ ← orFail (Program.executeBytes fuel (Text.bytes source) "(command line)" [])

/-- Execute a script; a dash stands for standard input. -/
def executeScript (fuel : Nat) (script : String) (args : List String) : Run Unit := do
  let path := if script == "-" then "" else script
  let _ ← orFail (Program.executeFile fuel path (args.map .string))

/-- Do what a request asks for. Without anything to execute, that is standard input. -/
def perform (fuel : Nat) (program : String) (input : Input) (r : Request) : Run Unit := do
  if r.showVersion then printLine version
  orFail (Program.start Machine.defaultCallLimit true input)
  let t ← Heap.newTable
  Heap.modifyTable t fun _ => argumentTable program r
  Module.setGlobal "arg" (.table t)
  r.modules.forM (loadModule fuel)
  r.chunks.forM (executeChunk fuel)
  match r.script with
  | some script =>
    executeScript fuel script r.arguments
    if r.interactive then executeLines fuel fuel
  | none =>
    if r.interactive then executeLines fuel fuel
    else if r.chunks.isEmpty && !r.showVersion then executeScript fuel "" []

/-- What a run of the program leaves behind: its exit status and its surroundings. -/
structure Outcome where
  status : Nat
  world : World

/-- Run the program, whose name comes before its arguments. -/
def run (fuel : Nat) (argv : List String) (input : Input) (world : World) : Outcome :=
  let program := argv.headD programName
  let main : Run Unit :=
    match Request.read .empty argv.tail with
    | .ok r => perform fuel program input r
    | .error e => fail e.message
  match main ⟨Machine.initial Machine.defaultCallLimit, world⟩ with
  | .ok () s => ⟨0, s.world⟩
  | .error (.exit code) s => ⟨(code % 256).toNat, s.world⟩
  | .error _ s => ⟨1, s.world⟩

end LuaEmbed.CommandLine
