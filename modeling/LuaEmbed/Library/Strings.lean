import LuaEmbed.Machine.Arguments
import LuaEmbed.Machine.Module
import LuaEmbed.Machine.Operation
import LuaEmbed.Text.Directive
import LuaEmbed.Text.Literal
import LuaEmbed.Text.Utf8

/-! # The string library

Positions in a string count bytes, from 1 at the start and from -1 at the end. A cut through a
character leaves replacement characters. Strings share a metatable, so that the functions are their
methods. -/

namespace LuaEmbed.Library.Strings

/-- The functions and the names they are installed under. -/
def functions : Module.FunctionSet :=
  [("len", .string .len), ("sub", .string .sub), ("upper", .string .upper),
    ("lower", .string .lower), ("rep", .string .rep), ("reverse", .string .reverse),
    ("byte", .string .byte), ("char", .string .char), ("format", .string .format),
    ("find", .string .find)]

/-- Install the library. A metatable of strings that is there already stays. -/
def openLibrary : Run Unit := do
  let library ← Module.register "string" functions
  if (← Run.machine Machine.stringMetatable).isNone then
    let mt ← Heap.newTable
    Heap.setStr mt "__index" (.table library)
    Run.modifyMachine fun m => { m with stringMetatable := some mt }

/-! ## Positions -/

/-- The number of bytes before a position in a string of `n` bytes. -/
def startOf (n : Nat) (i : Int) : Nat :=
  if 0 < i then min (i.toNat - 1) n else if i < 0 then n - i.natAbs else 0

/-- The number of bytes up to and with a position in a string of `n` bytes. -/
def endOf (n : Nat) (j : Int) : Nat :=
  if 0 ≤ j then min j.toNat n else (n + j + 1).toNat

/-- The bytes between two positions. -/
def bytesBetween (s : String) (i j : Int) : List UInt8 :=
  (s.toByteArray.extract (startOf s.utf8ByteSize i) (endOf s.utf8ByteSize j)).data.toList

/-- The text between two positions. -/
def between (s : String) (i j : Int) : String :=
  Text.slice s (startOf s.utf8ByteSize i) (endOf s.utf8ByteSize j)

/-- The least place from `start` on at which a list occurs, where `at_` counts the places before
the list searched. -/
def findFrom (needle : List UInt8) : List UInt8 → Nat → Option Nat
  | [], at_ => if needle.isEmpty then some at_ else none
  | b :: bs, at_ =>
    if needle.isPrefixOf (b :: bs) then some at_ else findFrom needle bs (at_ + 1)

/-- A text a number of times, after another one. -/
def repeatAfter (s : String) : Nat → String → String
  | 0, done => done
  | n + 1, done => repeatAfter s n (done ++ s)

/-! ## Functions -/

/-- `string.sub(s, i, j)`. -/
def sub (args : Arguments) : Run (List Value) := do
  let s ← args.check .string 1
  let i ← args.opt .integer 2 1
  let j ← args.opt .integer 3 (-1)
  return [.string (between s i j)]

/-- The length that `string.rep` does not exceed, in bytes. -/
def maxRepeated : Nat := 0x7FFFFFFF

/-- `string.rep(s, n)`. -/
def rep (args : Arguments) : Run (List Value) := do
  let s ← args.check .string 1
  let n ← args.check .integer 2
  if n ≤ 0 then return [.string ""]
  if maxRepeated < s.utf8ByteSize * n.toNat then Report.raise .runtime .stringTooLarge
  return [.string (if s.isEmpty then "" else repeatAfter s n.toNat "")]

/-- `string.byte(s, i, j)`. -/
def byte (args : Arguments) : Run (List Value) := do
  let s ← args.check .string 1
  let i ← args.opt .integer 2 1
  let j ← args.opt .integer 3 i
  return (bytesBetween s i j).map fun b => .number (Number.ofNat b.toNat)

/-- Values, the first of them being the argument at position `n`, as bytes, after bytes that are
given in reverse. -/
def extractBytes (n : Nat) (reversed : List UInt8) : List Value → Run (List UInt8)
  | [] => return reversed.reverse
  | v :: vs => do
    let c ← Arguments.extract .integer n v
    if c < 0 || 255 < c then Report.argument .runtime n .invalidValue
    extractBytes (n + 1) (UInt8.ofNat c.toNat :: reversed) vs

/-- `string.char(…)`. -/
def char (args : Arguments) : Run (List Value) := do
  return [.string (Text.decode (← extractBytes 1 [] args))]

/-- `string.find(s, text, init)`: the first and the last position of a text. -/
def find (args : Arguments) : Run (List Value) := do
  let s ← args.check .string 1
  let needle := Text.bytes (← args.check .string 2)
  let start := startOf s.utf8ByteSize (← args.opt .integer 3 1)
  match findFrom needle ((Text.bytes s).drop start) start with
  | some p =>
    return [.number (Number.ofNat (p + 1)), .number (Number.ofNat (p + needle.length))]
  | none => return [.nil]

/-! ## Formatting -/

/-- The argument at a position as a conversion of a directive lays it out. -/
def convert (call : Caller) (args : Arguments) (d : Text.Directive) (conversion : Char) (n : Nat) :
    Run (List Char) :=
  match conversion with
  | 'd' | 'i' => d.decimal <$> args.checkNumeral n
  | 'u' => d.unsigned <$> args.checkNumeral n
  | 'c' => d.character <$> args.checkNumeral n
  | 'x' => d.hexadecimal false <$> args.checkNumeral n
  | 'X' => d.hexadecimal true <$> args.checkNumeral n
  | 'o' => d.octal <$> args.checkNumeral n
  | 'e' => d.scientific false <$> args.checkNumeral n
  | 'E' => d.scientific true <$> args.checkNumeral n
  | 'f' => d.fixed <$> args.checkNumeral n
  | 'g' => d.general false <$> args.checkNumeral n
  | 'G' => d.general true <$> args.checkNumeral n
  | 'q' => do return (Text.literal (← args.check .string n)).toList
  | 's' => do return d.text (← Operation.tostring call (args.arg n))
  | c => Report.raise .runtime (.formatOption (String.singleton c))

/-- Lay out the rest of a format after what is done; `n` is the position of the last argument used.
At most `fuel` characters are read. -/
def formatFrom (call : Caller) (args : Arguments) :
    Nat → List Char → Nat → String → Run String
  | 0, _, _, done => return done
  | _, [], _, done => return done
  | fuel + 1, c :: cs, n, done => do
    if c != '%' then formatFrom call args fuel cs n (done.push c)
    else
      match cs with
      | '%' :: rest => formatFrom call args fuel rest n (done.push '%')
      | cs =>
        let (d, rest) := Text.Directive.read cs
        if !d.isInRange then Report.raise .runtime .formatTooLong
        match rest with
        | [] => Report.raise .runtime (.formatOption "")
        | conversion :: rest =>
          let n := n + 1
          if args.length < n then Report.argument .argumentMissing n .noValue
          let shown ← convert call args d conversion n
          formatFrom call args fuel rest n (done ++ String.ofList shown)

/-- `string.format(format, …)`. -/
def format (call : Caller) (args : Arguments) : Run (List Value) := do
  let cs := (← args.check .string 1).toList
  return [.string (← formatFrom call args cs.length cs 1 "")]

/-- What each function does. -/
def run (call : Caller) (f : StringFunction) (args : Arguments) : Run (List Value) :=
  match f with
  | .len => do return [.number (Number.ofNat (← args.check .string 1).utf8ByteSize)]
  | .sub => sub args
  | .upper => do return [.string ((← args.check .string 1).map Char.toUpper)]
  | .lower => do return [.string ((← args.check .string 1).map Char.toLower)]
  | .rep => rep args
  | .reverse => do return [.string (Text.decode (Text.bytes (← args.check .string 1)).reverse)]
  | .byte => byte args
  | .char => char args
  | .format => format call args
  | .find => find args

end LuaEmbed.Library.Strings
