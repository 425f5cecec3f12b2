import LuaEmbed.Machine.Report

/-! # Modules

A module is a table of functions that is found under its name in the global table and recorded as
loaded. Installing a module twice changes nothing. -/

namespace LuaEmbed.Module

/-- Functions with the names they are installed under. -/
abbrev FunctionSet := List (String × Native)

/-- Follow names from a value through tables without metamethods, creating the tables that are
missing. The result is `nil` if a value on the way is no table. -/
def findAlong : Value → List String → Run Value
  | v, [] => return v
  | .table r, name :: names => do
    match ← Heap.getStr r name with
    | .nil =>
      let created ← Heap.newTable
      Heap.setStr r name (.table created)
      findAlong (.table created) names
    | .table next => findAlong (.table next) names
    | _ => return .nil
  | _, _ :: _ => return .nil

/-- Follow the names of a dotted path. -/
def findTable (root : Value) (path : String) : Run Value := findAlong root (path.splitOn ".")

/-- The key of the registry under which loaded modules are recorded. -/
def loadedKey : String := "_LOADED"

/-- The table of loaded modules, created on first use. -/
def loaded : Run Ref := do
  let registry ← Run.machine Machine.registry
  match ← findTable (.table registry) loadedKey with
  | .table r => return r
  | _ =>
    let r ← Heap.newTable
    Heap.setStr registry loadedKey (.table r)
    return r

/-- Put functions into a table, each as a new value. -/
def install (r : Ref) : FunctionSet → Run Unit
  | [] => return ()
  | (name, op) :: rest => do
    Heap.setStr r name (← Heap.newNative name op)
    install r rest

/-- Install functions as a global module; dotted names nest. A module that is recorded as loaded is
left as it is. -/
def register (name : String) (functions : FunctionSet) : Run Ref := do
  let loaded ← loaded
  match ← Heap.getStr loaded name with
  | .table r => return r
  | _ =>
    let globals ← Run.machine Machine.globals
    match ← findTable (.table globals) name with
    | .table r =>
      install r functions
      Heap.setStr loaded name (.table r)
      return r
    | _ => Report.raise .nameConflict (.moduleNameTaken name)

/-- Install functions into a table, without a record. -/
def registerInto (target : Value) (functions : FunctionSet) : Run Ref := do
  match target with
  | .table r =>
    install r functions
    return r
  | v => Report.argument .typeMismatch 1 (.expectedGot Kind.table.name v.kind)

/-- A field of a loaded module, `nil` if the module is not loaded. -/
def fieldOf (name field : String) : Run Value := do
  match ← Heap.getStr (← loaded) name with
  | .table r => Heap.getStr r field
  | _ => return .nil

/-- The value of a global variable, without metamethods. -/
def global (name : String) : Run Value := do
  Heap.getStr (← Run.machine Machine.globals) name

/-- Give a global variable a value, without metamethods. -/
def setGlobal (name : String) (v : Value) : Run Unit := do
  Heap.setStr (← Run.machine Machine.globals) name v

end LuaEmbed.Module
