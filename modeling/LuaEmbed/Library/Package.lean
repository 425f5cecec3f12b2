import LuaEmbed.Machine.Arguments
import LuaEmbed.Machine.Loader
import LuaEmbed.Machine.Metatable
import LuaEmbed.Machine.Module

/-! # The package library

`require` runs a module once and remembers its value. The function that loads a module is asked of
the searchers in `package.loaders`, one after the other: the first looks it up in `package.preload`,
the second searches the files that the templates of `package.path` lead to. -/

namespace LuaEmbed.Library.Package

/-- The functions and the names they are installed under. -/
def functions : Module.FunctionSet := [("seeall", .package .seeall)]

/-- The templates for files of modules. -/
def defaultPath : String :=
  "./?.lua;/usr/local/share/lua/5.1/?.lua;/usr/local/share/lua/5.1/?/init.lua"

/-- The templates for native modules. -/
def defaultNativePath : String := "./?.so;/usr/local/lib/lua/5.1/?.so"

/-- The templates that a variable of the environment gives; an empty template in the middle stands
for the default ones. -/
def searchPath (name default : String) : Run String := Run.world fun w =>
  match w.environmentValue? name with
  | some path => path.replace ";;" (";" ++ default ++ ";")
  | none => default

/-- Give a string key of a table a value, unless it has one. -/
def setDefault (r : Ref) (key : String) (value : Run Value) : Run Unit := do
  if (← Heap.getStr r key).isNil then Heap.setStr r key (← value)

/-- The searchers that `package.loaders` starts with. -/
def newSearchers : Run Value := do
  let r ← Heap.newTable
  Heap.setInt r 1 (← Heap.newNative "loader_preload" (.package .preloadSearcher))
  Heap.setInt r 2 (← Heap.newNative "loader_lua" (.package .fileSearcher))
  return .table r

/-- Install the library. -/
def openLibrary : Run Unit := do
  let package ← Module.register "package" functions
  Heap.setStr package "loaded" (.table (← Module.loaded))
  setDefault package "preload" (return .table (← Heap.newTable))
  setDefault package "path" (return .string (← searchPath "LUA_PATH" defaultPath))
  setDefault package "cpath" (return .string (← searchPath "LUA_CPATH" defaultNativePath))
  Heap.setStr package "config" (.string "/\n;\n?\n!\n-")
  setDefault package "loaders" newSearchers
  Module.setGlobal "require" (← Heap.newNative "require" (.package .require))

/-- A field of the package table. -/
def field (name : String) : Run Value := Module.fieldOf "package" name

/-! ## Requiring -/

/-- The first function that a searcher from index `i` on returns for a module; what the ones before
say they tried is collected. -/
def search (call : Caller) (loaders : Ref) (name : String) : Nat → Int → String → Run Value
  | 0, _, _ => throw .outOfFuel
  | fuel + 1, i, tried => do
    let searcher ← Heap.getInt loaders i
    if searcher.isNil then Report.raise .runtime (.moduleNotFound name tried)
    match (← call searcher [.string name] none).headD .nil with
    | .function r => return .function r
    | .string s => search call loaders name fuel (i + 1) (tried ++ s)
    | _ => search call loaders name fuel (i + 1) tried

/-- `require(name)`. -/
def require (fuel : Nat) (call : Caller) (args : Arguments) : Run (List Value) := do
  let name ← args.check .string 1
  let loaded ← Module.loaded
  let existing ← Heap.getStr loaded name
  if existing.isTruthy then return [existing]
  match ← field "loaders" with
  | .table loaders =>
    let loader ← search call loaders name fuel 1 ""
    let result := (← call loader [.string name] none).headD .nil
    if !result.isNil then Heap.setStr loaded name result
    let module ← Heap.getStr loaded name
    if !module.isNil then return [module]
    Heap.setStr loaded name (.boolean true)
    return [.boolean true]
  | _ => Report.raise .runtime (.packageField "loaders" .table)

/-! ## Searchers -/

/-- The searcher that looks a module up in `package.preload`. -/
def preloadSearcher (args : Arguments) : Run (List Value) := do
  let name ← args.check .string 1
  match ← field "preload" with
  | .table preload =>
    let f ← Heap.getStr preload name
    if f.isNil then return [.string ("\n\tno field package.preload['" ++ name ++ "']")]
    return [f]
  | _ => Report.raise .runtime (.packageField "preload" .table)

/-- The files that templates lead to for a module. -/
def candidates (path name : String) : List String :=
  let file := name.replace "." "/"
  ((path.splitOn ";").filter (!·.isEmpty)).map fun template => template.replace "?" file

/-- Load a module from the first of some files that exists; what was tried is collected. -/
def loadFirst (name : String) : List String → String → Run (List Value)
  | [], tried => return [.string tried]
  | file :: files, tried => do
    if ← Run.world fun w => w.files.isFile file then
      match ← Run.attempt (Loader.ofFile file) with
      | .ok f => return [f]
      | .error fault => Report.raise .runtime (.moduleNotLoaded name file fault.display)
    else loadFirst name files (tried ++ "\n\tno file '" ++ file ++ "'")

/-- The searcher that looks for files. -/
def fileSearcher (args : Arguments) : Run (List Value) := do
  let name ← args.check .string 1
  match ← field "path" with
  | .string path => loadFirst name (candidates path name) ""
  | _ => Report.raise .runtime (.packageField "path" .string)

/-- `package.seeall(module)`: the module sees the global variables. -/
def seeall (args : Arguments) : Run (List Value) := do
  let module ← args.check .table 1
  let mt ←
    match ← Metatable.of (.table module) with
    | some mt => pure mt
    | none => Heap.newTable
  Heap.setStr mt "__index" (.table (← Run.machine Machine.globals))
  Metatable.attach (.table module) (some mt)
  return []

/-- What each function does. -/
def run (fuel : Nat) (call : Caller) (f : PackageFunction) (args : Arguments) : Run (List Value) :=
  match f with
  | .seeall => seeall args
  | .require => require fuel call args
  | .preloadSearcher => preloadSearcher args
  | .fileSearcher => fileSearcher args

end LuaEmbed.Library.Package
