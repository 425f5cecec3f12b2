import LuaEmbed.Value

/-! # Native functions

The functions that the host supplies, by library. A function value of a script refers to one of
these names; what each does is defined in the module of its library. -/

namespace LuaEmbed

/-- The functions of the global table. -/
inductive BaseFunction where
  | assert_ | error | pcall | xpcall | print | type_ | tostring | tonumber
  | ipairs | ipairsStep | pairs | next | select
  | rawget | rawset | rawequal | setmetatable | getmetatable | unpack
  | load | loadstring | loadfile | dofile
deriving DecidableEq, Repr

/-- The functions that find and load modules. -/
inductive PackageFunction where
  | seeall | require | preloadSearcher | fileSearcher
deriving DecidableEq, Repr

/-- The functions on threads. -/
inductive CoroutineFunction where
  | running | status
deriving DecidableEq, Repr

/-- The functions on files, and the methods of file handles. -/
inductive FileFunction where
  | openFile | close | read | write | type_
  | handleRead | handleWrite | handleLines | linesStep | handleClose | handleFlush
  | handleTostring
deriving DecidableEq, Repr

/-- The functions on strings. -/
inductive StringFunction where
  | len | sub | upper | lower | rep | reverse | byte | char | format | find
deriving DecidableEq, Repr

/-- The functions on sequences. -/
inductive TableFunction where
  | insert | remove | concat | sort | maxn
deriving DecidableEq, Repr

/-- The functions on numbers. -/
inductive MathFunction where
  | abs | ceil | floor | sqrt | sin | cos | tan | asin | acos | atan | atan2 | exp | log | log10
  | pow | fmod | modf | max | min | random | randomseed | deg | rad
deriving DecidableEq, Repr

/-- The functions on the surroundings of a program. -/
inductive SystemFunction where
  | clock | time | difftime | date | getenv | remove | rename | exit
deriving DecidableEq, Repr

/-- The functions that look into a running program. -/
inductive DebugFunction where
  | traceback | getinfo | getmetatable | setmetatable
deriving DecidableEq, Repr

/-- The functions with which an embedding program lets scripts reach the embedding interface. -/
inductive EmbedFunction where
  | where_ | fname | frame | raise | rterr | argerr | typeerr | tb | depth | pkind | probe
  | newud | udget | mainthread | meta_ | callmeta | ident | double | noop
deriving DecidableEq, Repr

/-- A function that the host supplies. -/
inductive Native where
  | base (f : BaseFunction)
  | package (f : PackageFunction)
  | coroutine (f : CoroutineFunction)
  | file (f : FileFunction)
  | string (f : StringFunction)
  | table (f : TableFunction)
  | math (f : MathFunction)
  | system (f : SystemFunction)
  | debug (f : DebugFunction)
  | embed (f : EmbedFunction)
deriving DecidableEq, Repr

/-! ## Probes

The function `probe` applies one accessor of the argument interface to its own arguments. Which one
is set from outside before a call. -/

/-- The accessors of the argument interface. -/
inductive Accessor where
  | checkAny | checkNumber | checkInt | checkString | checkBool | checkTable | checkFunction
  | checkUserdata | checkThread
  | arg
  | optNumber (default : Float)
  | optInt (default : Int)
  | optString (default : String)
  | optBool (default : Bool)
  | optTable | optFunction | optUserdata
  | checkKind (kind : Kind)
  | checkKinds (kinds : List Kind)
  | checkOption (options : List String)
  | argCount | args | takeArgs
  | argError (detail : String)
  | typeError (kind : Kind)
deriving Repr

/-- An accessor and the position of the argument that it is applied to. -/
structure Probe where
  accessor : Accessor
  position : Nat
deriving Repr

instance : Inhabited Probe := ⟨⟨.args, 0⟩⟩

end LuaEmbed
