/-! # Values

The values of scripts. Tables, functions and userdata are held in the heap of a machine and are
values as references into it; two references are the same value when they are equal. -/

namespace LuaEmbed

/-- A place in one of the arrays of a heap. -/
abbrev Ref := Nat

/-- The kinds of values. -/
inductive Kind where
  | nil | boolean | number | string | table | function | userdata | thread
deriving DecidableEq, Repr

namespace Kind

/-- The name of a kind, as scripts see it. -/
def name : Kind → String
  | .nil => "nil"
  | .boolean => "boolean"
  | .number => "number"
  | .string => "string"
  | .table => "table"
  | .function => "function"
  | .userdata => "userdata"
  | .thread => "thread"

/-- All kinds. -/
def all : List Kind := [.nil, .boolean, .number, .string, .table, .function, .userdata, .thread]

/-- The kind of a name. -/
def ofName? (s : String) : Option Kind := all.find? (·.name == s)

theorem name_injective {a b : Kind} (h : a.name = b.name) : a = b := by
  cases a <;> cases b <;> first | rfl | (exact absurd h (by decide))

end Kind

/-- A value of a script. There is one thread, the main one. -/
inductive Value where
  | nil
  | boolean (b : Bool)
  | number (n : Float)
  | string (s : String)
  | table (r : Ref)
  | function (r : Ref)
  | userdata (r : Ref)
  | thread
deriving Repr, Inhabited

namespace Value

/-- The kind of a value. -/
def kind : Value → Kind
  | .nil => .nil
  | .boolean _ => .boolean
  | .number _ => .number
  | .string _ => .string
  | .table _ => .table
  | .function _ => .function
  | .userdata _ => .userdata
  | .thread => .thread

/-- The value `nil`. -/
def isNil : Value → Bool
  | .nil => true
  | _ => false

/-- Everything but `nil` and `false` counts as true. -/
def isTruthy : Value → Bool
  | .nil | .boolean false => false
  | _ => true

/-- Equality without metamethods. NaN differs from itself, and the two zeros are equal. -/
def rawEqual : Value → Value → Bool
  | .nil, .nil => true
  | .boolean a, .boolean b => a == b
  | .number a, .number b => a == b
  | .string a, .string b => a == b
  | .table a, .table b => a == b
  | .function a, .function b => a == b
  | .userdata a, .userdata b => a == b
  | .thread, .thread => true
  | _, _ => false

theorem isNil_iff {v : Value} : v.isNil = true ↔ v = .nil := by cases v <;> simp [isNil]

end Value

end LuaEmbed
