import LuaEmbed.Calendar.Layout
import LuaEmbed.Machine.Arguments
import LuaEmbed.Machine.Module

/-! # The system library

Time and dates, the environment, files as a whole, and the end of the program. The local time zone
is universal time. -/

namespace LuaEmbed.Library.System

/-- The functions and the names they are installed under. -/
def functions : Module.FunctionSet :=
  [("clock", .system .clock), ("time", .system .time), ("difftime", .system .difftime),
    ("date", .system .date), ("getenv", .system .getenv), ("remove", .system .remove),
    ("rename", .system .rename), ("exit", .system .exit)]

/-- Install the library. -/
def openLibrary : Run Unit := do
  let _ ← Module.register "os" functions

/-! ## Time -/

/-- Look at the clock. -/
def look {α : Type} (f : World → α) : Run α := do
  Run.modifyWorld World.tick
  Run.world f

/-- The greatest number of seconds of a span of time. -/
def maxSpan : Int := 9223372036854775

/-- A span of time, if it is not too long. -/
def span? (seconds : Int) : Option Int :=
  if -maxSpan ≤ seconds && seconds ≤ maxSpan then some seconds else none

/-- The number of seconds since the start of 1970 of a date and a time of day, each part of which
may be out of its range and is carried over then. -/
def timestamp? (year month day hour minute second : Int) : Option Int := do
  let months := Number.wrap64 (month - 1)
  let year := Number.wrap64 (year + months / 12)
  if !Date.isYear year then failure
  let first : Date := ⟨year, (months % 12 + 1).toNat, 1⟩
  let days ← span? (Number.wrap64 (day - 1) * 86400)
  let minutes := Number.wrap64 (Number.wrap64 (hour * 3600) + Number.wrap64 (minute * 60))
  let time ← span? (Number.wrap64 (minutes + second))
  let total := first.dayNumber * 86400 + (← span? (days + time))
  (← Moment.ofSeconds? total).seconds

/-- A field of a date table as an integer. -/
def dateField (t : Ref) (name : String) (default : Option Int) : Run Int := do
  match ← Heap.getStr t name with
  | .number n => return Number.toInt64 n
  | .nil =>
    match default with
    | some n => return n
    | none => Report.raise .runtime (.dateFieldMissing name)
  | _ => Report.raise .runtime (.dateFieldNotInteger name)

/-- `os.time(table)`. -/
def time (args : Arguments) : Run (List Value) := do
  match ← args.opt? .table 1 with
  | none => return [.number (Number.ofInt (← look World.now))]
  | some t =>
    let year ← dateField t "year" none
    let month ← dateField t "month" none
    let day ← dateField t "day" none
    let hour ← dateField t "hour" (some 12)
    let minute ← dateField t "min" (some 0)
    let second ← dateField t "sec" (some 0)
    match timestamp? year month day hour minute second with
    | some n => return [.number (Number.ofInt n)]
    | none => return [.nil]

/-- `os.difftime(a, b)`. -/
def difftime (args : Arguments) : Run (List Value) := do
  let a ← args.check .number 1
  let b ← args.opt .number 2 0
  return [.number (a - b)]

/-! ## Dates -/

/-- The fields of a date table. -/
def dateFields (m : Moment) : List (String × Value) :=
  let number (n : Int) := Value.number (Number.ofInt n)
  [("year", number m.date.year), ("month", number m.date.month), ("day", number m.date.day),
    ("hour", number m.hour), ("min", number m.minute), ("sec", number m.second),
    ("wday", number (m.date.weekday + 1 : Nat)), ("yday", number m.date.dayOfYear),
    ("isdst", .boolean false)]

/-- A moment in a layout, where `*t` stands for a table. -/
def render (m : Moment) (zone : Calendar.Zone) (layout : String) : Run Value := do
  if layout.startsWith "*t" then
    let r ← Heap.newTable
    Heap.modifyTable r fun t => (dateFields m).foldl (fun t (name, v) => t.setStr name v) t
    return .table r
  else
    match Calendar.layOut? m zone layout with
    | some s => return .string s
    | none => Report.raise .runtime (.dateFormat layout)

/-- `os.date(layout, time)`: an exclamation mark before the layout asks for universal time. -/
def date (args : Arguments) : Run (List Value) := do
  let layout ← args.opt .string 1 "%c"
  let n ←
    match ← args.opt? .number 2 with
    | some t => pure (Number.toInt64 t)
    | none => look World.now
  match Moment.ofSeconds? n with
  | none => return [.nil]
  | some m =>
    match layout.toList with
    | '!' :: cs => return [← render m .universal (String.ofList cs)]
    | _ => return [← render m .local_ layout]

/-! ## Environment and files -/

/-- `os.getenv(name)`. -/
def getenv (args : Arguments) : Run (List Value) := do
  let name ← args.check .string 1
  match ← Run.world (·.environmentValue? name) with
  | some v => return [.string v]
  | none => return [.nil]

/-- The outcome of a change of the files; a failure is reported for a path. -/
def change (path : String) (f : FileSystem → Except FileFault FileSystem) : Run (List Value) := do
  match f (← Run.world World.files) with
  | .ok files =>
    Run.modifyWorld fun w => { w with files }
    return [.boolean true]
  | .error e => return [.nil, .string (path ++ ": " ++ e.message)]

/-- `os.remove(path)`. -/
def remove (args : Arguments) : Run (List Value) := do
  let path ← args.check .string 1
  change path (·.remove path)

/-- `os.rename(source, target)`. -/
def rename (args : Arguments) : Run (List Value) := do
  let source ← args.check .string 1
  let target ← args.check .string 2
  change source (·.rename source target)

/-- `os.exit(code)`: `true` stands for success, `false` for failure. -/
def exit (args : Arguments) : Run (List Value) := do
  match args.arg 1 with
  | .nil => throw (.exit 0)
  | .boolean ok => throw (.exit (if ok then 0 else 1))
  | _ =>
    args.checkKinds 1 [.number, .boolean]
    throw (.exit (Number.wrap32 (← args.check .integer 1)))

/-! ## All functions -/

/-- What each function does. -/
def run (f : SystemFunction) (args : Arguments) : Run (List Value) :=
  match f with
  | .clock => do return [.number (Number.ofNat (← look World.elapsed) / 1000000)]
  | .time => time args
  | .difftime => difftime args
  | .date => date args
  | .getenv => getenv args
  | .remove => remove args
  | .rename => rename args
  | .exit => exit args

end LuaEmbed.Library.System
