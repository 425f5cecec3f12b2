import LuaEmbed.Library.Base
import LuaEmbed.Library.Coroutine
import LuaEmbed.Library.Debug
import LuaEmbed.Library.Embedding
import LuaEmbed.Library.Files
import LuaEmbed.Library.Math
import LuaEmbed.Library.Package
import LuaEmbed.Library.Sequence
import LuaEmbed.Library.Strings
import LuaEmbed.Library.System

/-! # The standard library

All libraries together: how they are installed, and what each native function does. -/

namespace LuaEmbed

/-- Install all libraries. The package library comes first, because it shows the table of loaded
modules in which the others are recorded. Installing them again changes nothing. -/
def Library.openAll : Run Unit := do
  Library.Package.openLibrary
  Library.Base.openLibrary
  Library.Coroutine.openLibrary
  Library.Files.openLibrary
  Library.Strings.openLibrary
  Library.Sequence.openLibrary
  Library.Math.openLibrary
  Library.System.openLibrary
  Library.Debug.openLibrary

/-- What a native function does with its arguments. It may call values, and make at most `fuel`
steps of its own. -/
def Native.run (fuel : Nat) (call : Caller) (f : Native) (args : Arguments) : Run (List Value) :=
  match f with
  | .base f => Library.Base.run fuel call f args
  | .package f => Library.Package.run fuel call f args
  | .coroutine f => Library.Coroutine.run f args
  | .file f => Library.Files.run f args
  | .string f => Library.Strings.run call f args
  | .table f => Library.Sequence.run call f args
  | .math f => Library.Math.run f args
  | .system f => Library.System.run f args
  | .debug f => Library.Debug.run f args
  | .embed f => Library.Embedding.run call f args

end LuaEmbed
