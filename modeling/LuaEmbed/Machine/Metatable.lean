import LuaEmbed.Machine.Report

/-! # Metatables

Tables and userdata carry a metatable of their own, strings share one, other values have none. The
fields of a metatable are read without metamethods. Type names are registered for the metatables of
userdata. -/

namespace LuaEmbed

/-- Calls a value with arguments, under a name for reports. -/
abbrev Caller := Value → List Value → Option String → Run (List Value)

/-- The result of looking up a field of a metatable; the two ways to miss it are kept apart. -/
inductive MetaField where
  | noMetatable
  | missing
  | found (v : Value)

/-- The field, `nil` for either miss. -/
def MetaField.value : MetaField → Value
  | .found v => v
  | .noMetatable | .missing => .nil

namespace Metatable

/-- The metatable of a value in a machine. -/
def of? (m : Machine) : Value → Option Ref
  | .table r => m.tables[r]?.bind Table.metatable
  | .userdata r => m.userdata[r]?.bind Userdata.metatable
  | .string _ => m.stringMetatable
  | _ => none

/-- The metatable of a value. -/
def of (v : Value) : Run (Option Ref) := Run.machine (of? · v)

/-- Attach a metatable, or detach it. Only tables and userdata carry their own. -/
def attach (v : Value) (metatable : Option Ref) : Run Unit :=
  match v with
  | .table r => Heap.modifyTable r fun t => { t with metatable }
  | .userdata r => Heap.modifyUserdata r fun u => { u with metatable }
  | v => Report.here (.noOwnMetatable v.kind)

/-- A field of the metatable of a value in a machine, `nil` if there is none. -/
def fieldOf (m : Machine) (v : Value) (event : String) : Value :=
  match of? m v with
  | some r => (m.tables[r]?.getD .empty).getStr event
  | none => .nil

/-- A field of the metatable of a value, `nil` if there is none. -/
def field (v : Value) (event : String) : Run Value := Run.machine (fieldOf · v event)

/-- Look up a field of the metatable of a value. -/
def lookup (v : Value) (event : String) : Run MetaField := Run.machine fun m =>
  match of? m v with
  | none => .noMetatable
  | some _ =>
    let found := fieldOf m v event
    if found.isNil then .missing else .found found

/-- Call a field of the metatable of a value with that value, if the field is a function. -/
def callField (call : Caller) (v : Value) (event : String) : Run Value := do
  match ← field v event with
  | .function r => return (← call (.function r) [v] none).headD .nil
  | _ => return .nil

/-! ## Types -/

/-- The metatable registered for a type name, which is created on first use. -/
def ofType (name : String) : Run Ref := do
  let registry ← Run.machine Machine.registry
  match ← Heap.getStr registry name with
  | .table r => return r
  | _ =>
    let r ← Heap.newTable
    Heap.setStr registry name (.table r)
    return r

/-- The value registered for a type name. -/
def registered (name : String) : Run Value := do
  Heap.getStr (← Run.machine Machine.registry) name

/-- Add a userdata, with the metatable of a type name if one is given. -/
def newUserdata (payload : Payload) (type : Option String) : Run Value := do
  match type with
  | some name =>
    let r ← ofType name
    Heap.newUserdata ⟨payload, some r⟩
  | none => Heap.newUserdata ⟨payload, none⟩

end Metatable

end LuaEmbed
