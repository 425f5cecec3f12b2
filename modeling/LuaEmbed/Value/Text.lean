import LuaEmbed.Number.Numeral
import LuaEmbed.Text.Quoted
import LuaEmbed.Value

/-! # Values as numbers and as text

Which strings count as numbers, which values count as strings, and how a value is shown when no
metamethod has a say. -/

namespace LuaEmbed.Value

/-- A number, or the number that a string denotes. -/
def toNumber? : Value → Option Float
  | .number n => some n
  | .string s => Number.ofString? s
  | _ => none

/-- A string, or the text of a number. -/
def toText? : Value → Option String
  | .string s => some s
  | .number n => some (Number.text n)
  | _ => none

/-- Where the references of a kind start when they are shown. -/
def base : Kind → Nat
  | .table => 0x10000000
  | .function => 0x20000000
  | .userdata => 0x30000000
  | _ => 0x40000000

/-- The number that tells a reference value apart. -/
def identity (v : Value) : Nat :=
  match v with
  | .table r | .function r | .userdata r => base v.kind + 16 * r
  | _ => base v.kind

/-- A number in hexadecimal, with at least eight digits. -/
def address (n : Nat) : String :=
  let ds := Text.hex n
  String.ofList ('0' :: 'x' :: (List.replicate (8 - ds.length) '0' ++ ds))

/-- A value as text: a reference value by its kind and its identity. -/
def display (v : Value) : String :=
  match v with
  | .nil => "nil"
  | .boolean b => if b then "true" else "false"
  | .number n => Number.text n
  | .string s => s
  | v => v.kind.name ++ ": " ++ address v.identity

/-- A value as text that tells strings from other values. -/
def inspect (v : Value) : String :=
  match v with
  | .string s => Text.quote s
  | v => v.display

end LuaEmbed.Value
