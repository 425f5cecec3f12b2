import LuaEmbed.Machine.Problem
import LuaEmbed.Value.Text

/-! # Reports

Faults say where they happened. A problem of the running script function is positioned at its
current line, a problem that a host function finds is positioned at the line that called it, and
host functions themselves have no position. -/

namespace LuaEmbed

/-- A fault as text. -/
def Fault.display : Fault → String
  | .message _ text => text
  | .raised v => v.display
  | .stackOverflow => stackOverflowText

/-- The name under which a chunk without name is reported. -/
def namelessChunk : String := "[G]"

/-- The position of a frame, empty for a host function. -/
def Frame.position (f : Frame) : String :=
  match f.site with
  | some s =>
    (if s.chunk.isEmpty then namelessChunk else s.chunk) ++ ":" ++ toString s.currentLine ++ ":"
  | none => ""

namespace Report

/-- A text after a position, if there is one. -/
def positioned (position text : String) : String :=
  if position.isEmpty then text else position ++ " " ++ text

/-- The frame `level` calls out from the innermost one. -/
def frame? (level : Nat) : Run (Option Frame) := Run.machine fun m => m.frames[level]?

/-- The position of a frame, empty for a host function and beyond the outermost frame. -/
def location (level : Nat) : Run String := Run.machine fun m =>
  match m.frames[level]? with
  | some f => f.position
  | none => ""

/-- The name for functions that were called without one. -/
def unknownName : String := "?"

/-- The name under which the function of a frame was called. -/
def functionName (level : Nat) : Run String := Run.machine fun m =>
  (m.frames[level]?.bind Frame.name).getD unknownName

/-- A line of a traceback. -/
def frameLine (f : Frame) : String :=
  let place := if f.site.isSome then f.position else "[C]:"
  let what :=
    match f.what == "main", f.name, f.site with
    | true, _, _ => "main chunk"
    | _, some name, _ => "function '" ++ name ++ "'"
    | _, none, none => unknownName
    | _, none, some s => "function <" ++ s.chunk ++ ":" ++ toString s.lineDefined ++ ">"
  "\n\t" ++ place ++ " in " ++ what

/-- A message, if there is one, and a line for each frame from `level` outwards. -/
def traceback (message : Option String) (level : Nat) : Run String := Run.machine fun m =>
  (match message with
    | some text => text ++ "\n"
    | none => "") ++
  "stack traceback:" ++ String.join ((m.frames.drop level).map frameLine)

/-- Fail with a problem that a host function found, positioned at the code that called it. -/
def raise {α : Type} (kind : FaultKind) (p : Problem) : Run α := do
  Run.fail (.ofText kind (positioned (← location 1) p.text))

/-- Fail with a problem of the innermost frame. -/
def here {α : Type} (p : Problem) : Run α := do
  Run.fail (.ofText .runtime (positioned (← location 0) p.text))

/-- Fail with a problem of an argument of the running host function. -/
def argument {α : Type} (kind : FaultKind) (n : Nat) (p : ArgumentProblem) : Run α := do
  raise kind (.badArgument n (← functionName 0) p)

end Report

end LuaEmbed
