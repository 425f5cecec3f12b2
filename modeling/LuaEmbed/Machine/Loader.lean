import LuaEmbed.Chunk.Parser
import LuaEmbed.Machine.Report

/-! # Loading

Sources become functions without running. A source is given as bytes or text, read from a stream,
or read from a file, after whose last name the chunk is named. -/

namespace LuaEmbed.Loader

/-- The name of chunks given as text. -/
def textChunk : String := "<string>"

/-- The name of chunks read from standard input. -/
def inputChunk : String := "<stdin>"

/-- The function that a source denotes. -/
def ofBytes (source : List UInt8) (chunk : String) : Run Value :=
  match Chunk.ofBytes chunk source with
  | .ok c => Heap.newFunction (.script c.body c.name [])
  | .error e => Run.fail (.message .compile (e.report chunk))

/-- The function that a text denotes. -/
def ofText (source : String) : Run Value := ofBytes (Text.bytes source) textChunk

/-- Fail because a source cannot be read. -/
def unreadable {α : Type} (name : String) : Run α :=
  Run.fail (.message .file ("can not read " ++ name))

/-- The function that the rest of a stream denotes. -/
def ofInput (input : Input) (chunk : String) : Run Value :=
  match input.drain.1 with
  | .ok bytes => ofBytes bytes chunk
  | .error _ => unreadable chunk

/-- The last name of a path. -/
def lastName (path : String) : String :=
  match ((path.splitOn "/").filter fun name => !name.isEmpty && name != ".").getLast? with
  | some name => if name == ".." then path else name
  | none => path

/-- The function that a file denotes; the empty path stands for standard input. -/
def ofFile (path : String) : Run Value := do
  if path.isEmpty then
    let (source, input) := (← Run.machine Machine.input).drain
    Run.modifyMachine fun m => { m with input }
    match source with
    | .ok bytes => ofBytes bytes inputChunk
    | .error _ => unreadable inputChunk
  else
    match ← Run.world fun w => w.files.readFile path with
    | .ok content => ofBytes content.data.toList (lastName path)
    | .error _ => unreadable path

end LuaEmbed.Loader
