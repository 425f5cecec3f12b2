import LuaEmbed.Chunk
import LuaEmbed.Native
import LuaEmbed.Table
import LuaEmbed.World
import LuaEmbed.World.Transfer

/-! # Machines

A machine holds everything that scripts can reach: a heap of tables, functions, userdata and
variables, the global table, the registry of the host, and the stack of calls. Runs work on a
session, a machine in its surroundings. A run ends with a value, with a fault that protected calls
turn into values, or for good: because the program exits, or because its fuel is spent. -/

namespace LuaEmbed

/-! ## Heaps -/

/-- Variables declared together, each with its cell in the heap. -/
abbrev Group := List (String × Ref)

/-- The variables that are visible at a place, innermost first. -/
abbrev Scope := List Group

/-- The cell of a name in a group; of two variables of one name it is the later. -/
def Group.cell? : Group → String → Option Ref
  | [], _ => none
  | (x, r) :: g, name =>
    match Group.cell? g name with
    | some r' => some r'
    | none => if x == name then some r else none

/-- The cell of a name: the one of its innermost variable. -/
def Scope.cell? : Scope → String → Option Ref
  | [], _ => none
  | g :: scope, name =>
    match Group.cell? g name with
    | some r => some r
    | none => Scope.cell? scope name

/-- A function: one of the host under a name, or a body with the scope it was created in and the
name of its chunk. -/
inductive Function where
  | native (name : String) (op : Native)
  | script (body : Body) (chunk : String) (scope : Scope)

/-- What a host keeps in a userdata. -/
inductive Payload where
  | number (n : Float)
  | file (handle : FileHandle)

/-- Data of the host, with the metatable that gives it a type. -/
structure Userdata where
  payload : Payload
  metatable : Option Ref

/-! ## Frames -/

/-- Where a script function is defined and where it is running. -/
structure Site where
  chunk : String
  lineDefined : Nat
  currentLine : Nat
deriving DecidableEq, Repr

/-- An active call: the name it was made under, if it had one, and the site of a script function. -/
structure Frame where
  name : Option String
  site : Option Site
deriving DecidableEq, Repr

namespace Frame

/-- The frame of a host function. -/
def native (name : Option String) : Frame := ⟨name, none⟩

/-- The frame of a script function, before it has run anything. -/
def script (name : Option String) (chunk : String) (line : Nat) : Frame :=
  ⟨name, some ⟨chunk, line, line⟩⟩

/-- The frame with its script function at a line. -/
def atLine (f : Frame) (line : Nat) : Frame :=
  { f with site := f.site.map fun s => { s with currentLine := line } }

/-- The sort of function, as reports name it. -/
def what (f : Frame) : String :=
  match f.site with
  | none => "C"
  | some s => if s.lineDefined == 0 then "main" else "Lua"

end Frame

/-! ## Faults -/

/-- The categories of faults. -/
inductive FaultKind where
  | argumentMissing | typeMismatch | invalidOption | nameConflict | file | compile | runtime
deriving DecidableEq, Repr

namespace FaultKind

/-- The name of a category. -/
def name : FaultKind → String
  | .argumentMissing => "ArgumentMissing"
  | .typeMismatch => "TypeMismatch"
  | .invalidOption => "InvalidOption"
  | .nameConflict => "NameConflict"
  | .file => "File"
  | .compile => "Compile"
  | .runtime => "Runtime"

/-- All categories. -/
def all : List FaultKind :=
  [.argumentMissing, .typeMismatch, .invalidOption, .nameConflict, .file, .compile, .runtime]

end FaultKind

/-- What a call fails with: a message of a category other than `runtime`, a value that was raised,
or an exhausted call stack. -/
inductive Fault where
  | message (kind : FaultKind) (text : String)
  | raised (v : Value)
  | stackOverflow

namespace Fault

/-- A fault of a category that carries a text. -/
def ofText (kind : FaultKind) (text : String) : Fault :=
  match kind with
  | .runtime => .raised (.string text)
  | kind => .message kind text

/-- The category of a fault. -/
def kind : Fault → FaultKind
  | .message kind _ => kind
  | .raised _ | .stackOverflow => .runtime

/-- The text of an exhausted call stack. -/
def stackOverflowText : String := "stack overflow"

/-- The value that a protected call reports. -/
def toValue : Fault → Value
  | .message _ text => .string text
  | .raised v => v
  | .stackOverflow => .string stackOverflowText

end Fault

/-- How a run ends without a value. -/
inductive Abort where
  | fault (f : Fault)
  | exit (code : Int)
  | outOfFuel

/-! ## Machines and sessions -/

/-- One instance of the language. -/
structure Machine where
  tables : Array Table
  functions : Array Function
  userdata : Array Userdata
  cells : Array Value
  /-- The table of global variables. -/
  globals : Ref
  /-- The table in which the host keeps its records. -/
  registry : Ref
  /-- The metatable that all strings share. -/
  stringMetatable : Option Ref
  /-- The active calls, innermost first. -/
  frames : List Frame
  /-- The greatest number of active calls. -/
  callLimit : Nat
  input : Input
  probe : Probe

/-- The number of active calls that a machine allows unless told otherwise. -/
def Machine.defaultCallLimit : Nat := 200

/-- A machine without libraries. -/
def Machine.initial (callLimit : Nat) : Machine where
  tables := #[.empty, .empty]
  functions := #[]
  userdata := #[]
  cells := #[]
  globals := 0
  registry := 1
  stringMetatable := none
  frames := []
  callLimit
  input := .ofBytes []
  probe := default

/-- A machine in its surroundings. -/
structure Session where
  machine : Machine
  world : World

/-- The session with its active calls changed. -/
def Session.mapFrames (s : Session) (g : List Frame → List Frame) : Session :=
  { s with machine := { s.machine with frames := g s.machine.frames } }

/-- A run on a session. What a run did before it failed stays done. -/
abbrev Run := EStateM Abort Session

namespace Run

/-- Fail with a fault. -/
def fail {α : Type} (f : Fault) : Run α := throw (.fault f)

/-- Run to a value or a fault. -/
def attempt {α : Type} (r : Run α) : Run (Except Fault α) := fun s =>
  match r s with
  | .ok a s => .ok (.ok a) s
  | .error (.fault f) s => .ok (.error f) s
  | .error a s => .error a s

/-- Read from the machine. -/
@[inline] def machine {α : Type} (f : Machine → α) : Run α := fun s => .ok (f s.machine) s

/-- Change the machine. -/
@[inline] def modifyMachine (f : Machine → Machine) : Run Unit := fun s =>
  .ok () { s with machine := f s.machine }

/-- Run as one more active call, the innermost one, which ends with the run whatever its outcome. If
the machine allows no further call, nothing is run. -/
def activate {α : Type} (f : Frame) (r : Run α) : Run α := fun s =>
  if s.machine.callLimit ≤ s.machine.frames.length then .error (.fault .stackOverflow) s
  else
    match r (s.mapFrames (f :: ·)) with
    | .ok a s => .ok a (s.mapFrames List.tail)
    | .error e s => .error e (s.mapFrames List.tail)

/-- Run; after a fault no more calls are active than before, of which the outermost ones stay. -/
def protect {α : Type} (r : Run α) : Run α := fun s =>
  let depth := s.machine.frames.length
  match r s with
  | .ok a s => .ok a s
  | .error (.fault f) s => .error (.fault f) (s.mapFrames fun fs => fs.drop (fs.length - depth))
  | .error a s => .error a s

/-- Read from the surroundings. -/
@[inline] def world {α : Type} (f : World → α) : Run α := fun s => .ok (f s.world) s

/-- Change the surroundings. -/
@[inline] def modifyWorld (f : World → World) : Run Unit := fun s =>
  .ok () { s with world := f s.world }

end Run

/-! ## Heap operations -/

namespace Heap

/-- Add a table. -/
def newTable : Run Ref := fun s =>
  let r := s.machine.tables.size
  .ok r { s with machine := { s.machine with tables := s.machine.tables.push .empty } }

/-- Add a function. -/
def newFunction (f : Function) : Run Value := fun s =>
  let r := s.machine.functions.size
  .ok (.function r) { s with machine := { s.machine with functions := s.machine.functions.push f } }

/-- Add a host function under a name. -/
def newNative (name : String) (op : Native) : Run Value := newFunction (.native name op)

/-- Add a userdata. -/
def newUserdata (u : Userdata) : Run Value := fun s =>
  let r := s.machine.userdata.size
  .ok (.userdata r) { s with machine := { s.machine with userdata := s.machine.userdata.push u } }

/-- Add a variable with a value. -/
def newCell (v : Value) : Run Ref := fun s =>
  let r := s.machine.cells.size
  .ok r { s with machine := { s.machine with cells := s.machine.cells.push v } }

/-- The value of a variable. -/
def readCell (r : Ref) : Run Value := fun s => .ok (s.machine.cells[r]?.getD .nil) s

/-- Give a variable a value. -/
def writeCell (r : Ref) (v : Value) : Run Unit := fun s =>
  .ok () { s with machine := { s.machine with cells := s.machine.cells.set! r v } }

/-- Read from a table. -/
@[inline] def readTable {α : Type} (r : Ref) (f : Table → α) : Run α := fun s =>
  .ok (f (s.machine.tables[r]?.getD .empty)) s

/-- Change a table. -/
@[inline] def modifyTable (r : Ref) (f : Table → Table) : Run Unit := fun s =>
  .ok () { s with machine := { s.machine with tables := s.machine.tables.modify r f } }

/-- The value of a key of a table. -/
def get (r : Ref) (key : Value) : Run Value := readTable r (·.get key)

/-- The value of a string key of a table. -/
def getStr (r : Ref) (key : String) : Run Value := readTable r (·.getStr key)

/-- The value of an integer key of a table. -/
def getInt (r : Ref) (key : Int) : Run Value := readTable r (·.getInt key)

/-- Give a key of a table a value, unless it is no key. -/
def set (r : Ref) (key value : Value) : Run (Except KeyFault Unit) :=
  match named : Key.ofValue key with
  | .ok k => do
    modifyTable r fun t => t.setKey key k named value
    return .ok ()
  | .error e => return .error e

/-- Give a string key of a table a value. -/
def setStr (r : Ref) (key : String) (value : Value) : Run Unit := modifyTable r (·.setStr key value)

/-- Give an integer key of a table a value. -/
def setInt (r : Ref) (key : Int) (value : Value) : Run Unit := modifyTable r (·.setInt key value)

/-- The length of a table. -/
def length (r : Ref) : Run Nat := readTable r Table.length

/-- A function of the heap. -/
def function? (r : Ref) : Run (Option Function) := fun s => .ok s.machine.functions[r]? s

/-- A userdata of the heap. -/
def userdata? (r : Ref) : Run (Option Userdata) := fun s => .ok s.machine.userdata[r]? s

/-- Change a userdata. -/
def modifyUserdata (r : Ref) (f : Userdata → Userdata) : Run Unit := fun s =>
  .ok () { s with machine := { s.machine with userdata := s.machine.userdata.modify r f } }

end Heap

end LuaEmbed
