import LuaEmbed.Machine.Arguments
import LuaEmbed.Machine.Metatable
import LuaEmbed.Machine.Module

/-! # The library of files

Files are handled by userdata of one type, whose methods read, write and close them. What goes wrong
with a file is a result, not a fault. -/

namespace LuaEmbed.Library.Files

/-- The type name of file handles. -/
def handleType : String := "FILE*"

/-- The functions and the names they are installed under. -/
def functions : Module.FunctionSet :=
  [("open", .file .openFile), ("close", .file .close), ("read", .file .read),
    ("write", .file .write), ("type", .file .type_)]

/-- The methods of file handles. -/
def methods : Module.FunctionSet :=
  [("read", .file .handleRead), ("write", .file .handleWrite), ("lines", .file .handleLines),
    ("close", .file .handleClose), ("flush", .file .handleFlush)]

/-- The handles of the standard streams. -/
def standardHandles : List (String × FileHandle) :=
  [("stdin", .standardInput), ("stdout", .standardOutput), ("stderr", .standardError)]

/-- A new handle. -/
def newHandle (h : FileHandle) : Run Value := Metatable.newUserdata (.file h) (some handleType)

/-- Put handles into a table, under names that have no value. -/
def installHandles (r : Ref) : List (String × FileHandle) → Run Unit
  | [] => return ()
  | (name, h) :: rest => do
    if (← Heap.getStr r name).isNil then Heap.setStr r name (← newHandle h)
    installHandles r rest

/-- Install the library. -/
def openLibrary : Run Unit := do
  let library ← Module.register "io" functions
  let mt ← Metatable.ofType handleType
  if (← Heap.getStr mt "__index").isNil then
    let table ← Heap.newTable
    Module.install table methods
    let tostring ← Heap.newNative "tostring" (.file .handleTostring)
    Heap.setStr mt "__index" (.table table)
    Heap.setStr mt "__tostring" tostring
  installHandles library standardHandles

/-! ## Handles -/

/-- The handle in a userdata, if it holds one. -/
def handle? (r : Ref) : Run (Option FileHandle) := do
  match (← Heap.userdata? r).map Userdata.payload with
  | some (.file h) => return some h
  | _ => return none

/-- Replace the handle in a userdata. -/
def setHandle (r : Ref) (h : FileHandle) : Run Unit :=
  Heap.modifyUserdata r fun u => { u with payload := .file h }

/-- The argument at a position as a userdata with a handle that is not closed. -/
def checkHandle (args : Arguments) (n : Nat) : Run (Ref × FileHandle) := do
  match args.arg n with
  | .userdata r =>
    match ← handle? r with
    | some .closed => Report.raise .runtime .closedFile
    | some h => return (r, h)
    | none => Arguments.mismatch (.userdata r) n handleType
  | v => Arguments.mismatch v n handleType

/-- The results that tell of a fault. -/
def failure (e : FileFault) : List Value := [.nil, .string e.message]

/-- A standard handle that the library table shows, if it is a userdata. -/
def shownHandle? (name : String) : Run (Option Ref) := do
  match ← Module.fieldOf "io" name with
  | .userdata r => return some r
  | _ => return none

/-! ## Reading -/

/-- A value, the argument at a position, as a format. -/
def extractFormat (n : Nat) (v : Value) : Run ReadFormat :=
  match v with
  | .number x => return .count (Number.toNatBelow Number.words64 x)
  | .string s =>
    match ReadFormat.ofName? s with
    | some format => return format
    | none => Report.argument .runtime n .invalidFormat
  | _ => Report.argument .runtime n .invalidOption

/-- Values, the first of them being the argument at position `n`, as formats. -/
def extractFormats (n : Nat) : List Value → Run (List ReadFormat)
  | [] => return []
  | v :: vs => do
    let format ← extractFormat n v
    return format :: (← extractFormats (n + 1) vs)

/-- The arguments from a position on as formats; without any a line is read. -/
def checkFormats (args : Arguments) (n : Nat) : Run (List ReadFormat) := do
  let formats ← extractFormats n (args.drop (n - 1))
  return if formats.isEmpty then [.line] else formats

/-- A result of a read as a value. -/
def resultValue : ReadResult → Value
  | .text s => .string s
  | .number n => (n.map Value.number).getD .nil
  | .endOfInput => .nil

/-- The values that formats read from something, up to the end of input. A fault is the result in
place of all values. -/
def readAll {σ : Type} (read : σ → ReadFormat → Except FileFault ReadResult × σ) :
    List ReadFormat → σ → List Value → List Value × σ
  | [], s, values => (values, s)
  | format :: formats, s, values =>
    match read s format with
    | (.ok .endOfInput, s) => (values ++ [.nil], s)
    | (.ok result, s) => readAll read formats s (values ++ [resultValue result])
    | (.error e, s) => (failure e, s)

/-- Read from standard input. -/
def readInput (formats : List ReadFormat) : Run (List Value) := do
  let (values, input) := readAll Input.read formats (← Run.machine Machine.input) []
  Run.modifyMachine fun m => { m with input }
  return values

/-- Read from a handle in a userdata. -/
def readHandle (r : Ref) (h : FileHandle) (formats : List ReadFormat) : Run (List Value) := do
  match h with
  | .standardInput => readInput formats
  | .opened f =>
    let files ← Run.world World.files
    let (values, f) := readAll (OpenFile.read files) formats f []
    setHandle r (.opened f)
    return values
  | .standardOutput | .standardError | .closed => return failure .notReadable

/-! ## Writing -/

/-- The texts of values, the first of them being the argument at position `n`, after a text. -/
def joinTexts (n : Nat) (joined : String) : List Value → Run String
  | [] => return joined
  | v :: vs =>
    match v.toText? with
    | some s => joinTexts (n + 1) (joined ++ s) vs
    | none => Arguments.mismatch v n Kind.string.name

/-- Write a text to a handle in a userdata; the result is a fault, if there was one. -/
def writeText (r : Ref) (h : FileHandle) (s : String) : Run (Option FileFault) := do
  if s.isEmpty then return none
  match h with
  | .standardOutput =>
    Run.modifyWorld fun w => { w with out := w.out ++ s }
    return none
  | .standardError =>
    Run.modifyWorld fun w => { w with err := w.err ++ s }
    return none
  | .opened f =>
    match f.write (← Run.world World.files) s.toByteArray with
    | .ok (files, f) =>
      Run.modifyWorld fun w => { w with files }
      setHandle r (.opened f)
      return none
    | .error e => return some e
  | .standardInput | .closed => return some .notWritable

/-- Write the arguments from a position on to the handle in a userdata. The result is the userdata,
whether or not it holds a handle. -/
def writeArguments (args : Arguments) (n : Nat) (r : Ref) (h : Option FileHandle) :
    Run (List Value) := do
  let s ← joinTexts n "" (args.drop (n - 1))
  match h with
  | none => return [.userdata r]
  | some h =>
    match ← writeText r h s with
    | some e => return failure e
    | none => return [.userdata r]

/-! ## Opening and closing -/

/-- The ways in which a file can be opened. -/
def modes : List String := ["r", "w", "a", "r+", "w+", "a+"]

/-- What a file is opened for in a mode, behind which any number of the letter `b` may stand. -/
def openMode? (mode : String) : Option FileSystem.OpenMode :=
  let stem := String.ofList ((mode.toList.reverse.dropWhile (· == 'b')).reverse)
  if !modes.contains stem then none
  else
    let plus := mode.contains '+'
    some <|
      match mode.toList with
      | 'w' :: _ => ⟨plus, true, false, true, true⟩
      | 'a' :: _ => ⟨plus, false, true, true, false⟩
      | _ => ⟨true, plus, false, false, false⟩

/-- `io.open(path, mode)`. -/
def openFile (args : Arguments) : Run (List Value) := do
  let path ← args.check .string 1
  let mode ← args.opt .string 2 "r"
  match openMode? mode with
  | none => Report.argument .invalidOption 2 (.invalidMode mode)
  | some openMode =>
    match (← Run.world World.files).openNode path openMode with
    | .ok (node, files) =>
      Run.modifyWorld fun w => { w with files }
      return [← newHandle (.opened (.ofNode node openMode))]
    | .error e => return [.nil, .string (path ++ ": " ++ e.message)]

/-- Close the handle in a userdata. The standard streams stay open. -/
def closeHandle (r : Ref) (h : Option FileHandle) : Run (List Value) := do
  match h with
  | none => return [.nil]
  | some .standardInput | some .standardOutput | some .standardError =>
    return [.nil, .string "cannot close standard file"]
  | some (.opened _) | some .closed =>
    setHandle r .closed
    return [.boolean true]

/-! ## All functions -/

/-- `io.type(v)`. -/
def typeOf (args : Arguments) : Run (List Value) := do
  match ← args.checkAny 1 with
  | .userdata r =>
    match ← handle? r with
    | some .closed => return [.string "closed file"]
    | some _ => return [.string "file"]
    | none => return [.nil]
  | _ => return [.nil]

/-- The text of a handle. -/
def tostring (args : Arguments) : Run (List Value) := do
  args.checkKind 1 .userdata
  let r ← args.check .userdata 1
  let address := Value.address (Value.userdata r).identity
  match ← handle? r with
  | some .closed => return [.string "file (closed)"]
  | _ => return [.string ("file (" ++ address ++ ")")]

/-- What each function does. -/
def run (f : FileFunction) (args : Arguments) : Run (List Value) :=
  match f with
  | .openFile => openFile args
  | .close => do
    if (args.arg 1).isNil then
      match ← shownHandle? "stdout" with
      | some r => closeHandle r (← handle? r)
      | none => return [.nil]
    else
      let (r, h) ← checkHandle args 1
      closeHandle r (some h)
  | .read => do readInput (← checkFormats args 1)
  | .write => do
    match ← shownHandle? "stdout" with
    | some r => writeArguments args 1 r (← handle? r)
    | none => return [.nil]
  | .type_ => typeOf args
  | .handleRead => do
    let (r, h) ← checkHandle args 1
    readHandle r h (← checkFormats args 2)
  | .handleWrite => do
    let (r, h) ← checkHandle args 1
    writeArguments args 2 r (some h)
  | .handleLines => do
    let _ ← checkHandle args 1
    return [← Heap.newNative "lines_iter" (.file .linesStep), args.arg 1]
  | .linesStep => do
    let (r, h) ← checkHandle args 1
    return (← readHandle r h [.line]).take 1
  | .handleClose => do
    let (r, h) ← checkHandle args 1
    closeHandle r (some h)
  | .handleFlush => do
    let _ ← checkHandle args 1
    return [args.arg 1]
  | .handleTostring => tostring args

end LuaEmbed.Library.Files
