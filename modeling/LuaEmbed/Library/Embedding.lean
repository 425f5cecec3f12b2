import LuaEmbed.Machine.Arguments
import LuaEmbed.Machine.Metatable
import LuaEmbed.Machine.Module

/-! # The embedding library

Functions with which scripts reach the interface between host functions and the machine: positions,
frames, faults of every category, the accessors of arguments, userdata and metatables. A host
installs them on demand. -/

namespace LuaEmbed.Library.Embedding

/-- The functions and the names they are installed under. -/
def functions : Module.FunctionSet :=
  [("where", .embed .where_), ("fname", .embed .fname), ("frame", .embed .frame),
    ("raise", .embed .raise), ("rterr", .embed .rterr), ("argerr", .embed .argerr),
    ("typeerr", .embed .typeerr), ("tb", .embed .tb), ("depth", .embed .depth),
    ("pkind", .embed .pkind), ("probe", .embed .probe), ("newud", .embed .newud),
    ("udget", .embed .udget), ("mainthread", .embed .mainthread), ("meta", .embed .meta_),
    ("callmeta", .embed .callmeta), ("ident", .embed .ident), ("double", .embed .double),
    ("noop", .embed .noop)]

/-- Install the functions as global variables. -/
def openLibrary : Run Unit := do
  Module.install (← Run.machine Machine.globals) functions

/-! ## Positions and frames -/

/-- The level that the argument at a position gives. -/
def level (args : Arguments) (n : Nat) (default : Int) : Run Nat := do
  return Number.unsigned64 (← args.opt .integer n default)

/-- A record about a frame; what the frame does not have is left out. -/
def record (f : Frame) : List (String × Value) :=
  let number (n : Nat) := Value.number (Number.ofNat n)
  (f.name.map fun name => ("name", Value.string name)).toList ++
    (match f.site with
      | some s =>
        [("source", .string s.chunk), ("current_line", number s.currentLine),
          ("line_defined", number s.lineDefined)]
      | none => []) ++
    [("native", .boolean f.site.isNone), ("what", .string f.what)]

/-- `frame(level)`: a record about an active call. -/
def frame (args : Arguments) : Run (List Value) := do
  match ← Report.frame? (← level args 1 0) with
  | some f =>
    let r ← Heap.newTable
    Heap.modifyTable r fun t => (record f).foldl (fun t (name, v) => t.setStr name v) t
    return [.table r]
  | none => return [.nil]

/-- `tb(message, level)`: a traceback. -/
def traceback (args : Arguments) : Run (List Value) := do
  let message ← args.opt? .string 1
  return [.string (← Report.traceback message (← level args 2 0))]

/-! ## Faults -/

/-- `raise(category, message)`. -/
def raise (args : Arguments) : Run (List Value) := do
  let i ← args.checkOption 1 (FaultKind.all.map FaultKind.name)
  let message ← args.check .string 2
  Report.raise (FaultKind.all[i]?.getD .runtime) (.other message)

/-- `argerr(n, detail)`. -/
def argumentFault (args : Arguments) : Run (List Value) := do
  let n ← args.check .integer 1
  let detail ← args.check .string 2
  Report.argument .runtime (Number.unsigned64 n) (.other detail)

/-- `typeerr(n, kind)`. -/
def kindFault (args : Arguments) : Run (List Value) := do
  let n ← args.check .integer 1
  let kind ← args.check .string 2
  let n := Number.unsigned64 n
  Arguments.mismatch (args.arg n) n ((Kind.ofName? kind).getD .nil).name

/-- `pkind(f, …)`: a protected call that also tells the category of a fault. -/
def protectedCall (call : Caller) (args : Arguments) : Run (List Value) := do
  let f ← args.checkAny 1
  match ← Run.attempt (Run.protect (call f args.tail none)) with
  | .ok results => return .boolean true :: results
  | .error fault => return [.boolean false, .string fault.kind.name, fault.toValue]

/-! ## Probes -/

/-- What a probe shows when an argument is absent. -/
def absent : Value := .string "<none>"

/-- An integer as the text of its digits. -/
def integerText (n : Int) : Value := .string (toString n)

/-- Apply an accessor to the argument at a position. -/
def access (args : Arguments) (n : Nat) : Accessor → Run (List Value)
  | .checkAny => do return [← args.checkAny n]
  | .checkNumber => do return [.number (← args.check .number n)]
  | .checkInt => do return [integerText (← args.check .integer n)]
  | .checkString => do return [.string (← args.check .string n)]
  | .checkBool => do return [.boolean (← args.check .boolean n)]
  | .checkTable => do return [.table (← args.check .table n)]
  | .checkFunction => do return [.function (← args.check .function n)]
  | .checkUserdata => do return [.userdata (← args.check .userdata n)]
  | .checkThread => do
    args.check .thread n
    return [.thread]
  | .arg => return [args.arg n]
  | .optNumber default => do return [.number (← args.opt .number n default)]
  | .optInt default => do return [integerText (← args.opt .integer n default)]
  | .optString default => do return [.string (← args.opt .string n default)]
  | .optBool default => do return [.boolean (← args.opt .boolean n default)]
  | .optTable => do return [((← args.opt? .table n).map .table).getD absent]
  | .optFunction => do return [((← args.opt? .function n).map .function).getD absent]
  | .optUserdata => do return [((← args.opt? .userdata n).map .userdata).getD absent]
  | .checkKind kind => do
    args.checkKind n kind
    return []
  | .checkKinds kinds => do
    args.checkKinds n kinds
    return []
  | .checkOption options => do return [integerText (← args.checkOption n options)]
  | .argCount => return [.number (Number.ofNat args.length)]
  | .args => return args
  | .takeArgs => return args ++ [.number 0]
  | .argError detail => Report.argument .runtime n (.other detail)
  | .typeError kind => Arguments.mismatch (args.arg n) n kind.name

/-- `probe(…)`: the accessor that is set from outside, applied to the arguments. -/
def probe (args : Arguments) : Run (List Value) := do
  let p ← Run.machine Machine.probe
  access args p.position p.accessor

/-! ## Userdata and metatables -/

/-- `newud(n, type)`: a userdata with a number. -/
def newUserdata (args : Arguments) : Run (List Value) := do
  let n ← args.check .number 1
  return [← Metatable.newUserdata (.number n) (← args.opt? .string 2)]

/-- `udget(u, n)`: the number of a userdata, which may be replaced first, and that it is no text. -/
def userdataNumber (args : Arguments) : Run (List Value) := do
  let r ← args.check .userdata 1
  let n? ← args.opt? .number 2
  match (← Heap.userdata? r).map Userdata.payload with
  | some (.number old) =>
    let n := n?.getD old
    Heap.modifyUserdata r fun u => { u with payload := .number n }
    return [.number n, .boolean false]
  | _ => Report.argument .runtime 1 .notNumberUserdata

/-- The result of a look-up, in words. -/
def metaFieldResults : MetaField → List Value
  | .noMetatable => [.string "none"]
  | .missing => [.string "missing"]
  | .found v => [.string "found", v]

/-! ## All functions -/

/-- What each function does. -/
def run (call : Caller) (f : EmbedFunction) (args : Arguments) : Run (List Value) :=
  match f with
  | .where_ => do return [.string (← Report.location (← level args 1 1))]
  | .fname => do return [.string (← Report.functionName (← level args 1 0))]
  | .frame => frame args
  | .raise => raise args
  | .rterr => do Report.here (.other (← args.check .string 1))
  | .argerr => argumentFault args
  | .typeerr => kindFault args
  | .tb => traceback args
  | .depth => do return [.number (Number.ofNat (← Run.machine fun m => m.frames.length))]
  | .pkind => protectedCall call args
  | .probe => probe args
  | .newud => newUserdata args
  | .udget => userdataNumber args
  | .mainthread => return [.thread]
  | .meta_ => do
    let v ← args.checkAny 1
    let event ← args.check .string 2
    return metaFieldResults (← Metatable.lookup v event)
  | .callmeta => do
    let v ← args.checkAny 1
    let event ← args.check .string 2
    return [← Metatable.callField call v event]
  | .ident => return args
  | .double => do return [.number ((← args.check .number 1) * 2)]
  | .noop => return []

end LuaEmbed.Library.Embedding
