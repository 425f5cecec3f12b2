import LuaEmbed.Machine

/-! # Problems

What can go wrong in a run, as causes, and the wording of each. -/

namespace LuaEmbed

/-- How a script refers to a value that a report is about. -/
inductive Described where
  | local_ (name : String)
  | global (name : String)
  | field (name : String)
  | method (name : String)
deriving DecidableEq, Repr

/-- The words for a reference to a value. -/
def Described.text : Described → String
  | .local_ x => "local '" ++ x ++ "'"
  | .global x => "global '" ++ x ++ "'"
  | .field x => "field '" ++ x ++ "'"
  | .method x => "method '" ++ x ++ "'"

/-- The numbers that control a loop. -/
inductive LoopNumber where
  | initial | limit | step
deriving DecidableEq, Repr

/-- The words for a number that controls a loop. -/
def LoopNumber.text : LoopNumber → String
  | .initial => "initial value"
  | .limit => "limit"
  | .step => "step"

/-- What is wrong with an argument. -/
inductive ArgumentProblem where
  | missing
  | noValue
  | expected (kind : Kind)
  | expectedGot (expected : String) (got : Kind)
  | expectedOneOf (kinds : List Kind)
  | notAnOption (given : String) (options : List String)
  | baseOutOfRange
  | indexOutOfRange
  | positionOutOfBounds
  | invalidValue
  | intervalEmpty
  | invalidFormat
  | invalidOption
  | invalidMode (mode : String)
  | notNumberUserdata
  | other (text : String)
deriving DecidableEq, Repr

/-- The words for what is wrong with an argument. -/
def ArgumentProblem.text : ArgumentProblem → String
  | .missing => "value expected"
  | .noValue => "no value"
  | .expected kind => kind.name ++ " expected"
  | .expectedGot kind got => kind ++ " expected, got " ++ got.name
  | .expectedOneOf kinds => String.intercalate " or " (kinds.map Kind.name) ++ " expected"
  | .notAnOption given options =>
    "invalid option: " ++ given ++ " (must be one of " ++ String.intercalate "," options ++ ")"
  | .baseOutOfRange => "base out of range"
  | .indexOutOfRange => "index out of range"
  | .positionOutOfBounds => "position out of bounds"
  | .invalidValue => "invalid value"
  | .intervalEmpty => "interval is empty"
  | .invalidFormat => "invalid format"
  | .invalidOption => "invalid option"
  | .invalidMode mode => "invalid mode '" ++ mode ++ "'"
  | .notNumberUserdata => "number userdata expected"
  | .other text => text

/-- What can go wrong in a run. -/
inductive Problem where
  | arithmetic (kind : Kind)
  | concatenate (kind : Kind)
  | lengthOf (kind : Kind)
  | compare (left right : Kind)
  | index (what : Option Described) (kind : Kind)
  | call (what : Option Described) (kind : Kind)
  | loopInGet
  | loopInSet
  | tostringNotString
  | noOwnMetatable (kind : Kind)
  | key (fault : KeyFault)
  | loopNumber (what : LoopNumber)
  | notATarget
  | badArgument (position : Nat) (function : String) (problem : ArgumentProblem)
  | moduleNameTaken (name : String)
  | protectedMetatable
  | unknownKey
  | tooManyToUnpack
  | wrongArgumentCount (function : String)
  | notConcatenable (index : Int)
  | stringTooLarge
  | formatTooLong
  | formatOption (conversion : String)
  | closedFile
  | packageField (field : String) (kind : Kind)
  | moduleNotFound (name tried : String)
  | moduleNotLoaded (name file reason : String)
  | dateFieldMissing (field : String)
  | dateFieldNotInteger (field : String)
  | dateFormat (format : String)
  | other (text : String)
deriving DecidableEq, Repr

/-- The words for what went wrong. -/
def Problem.text : Problem → String
  | .arithmetic k => "attempt to perform arithmetic on a " ++ k.name ++ " value"
  | .concatenate k => "attempt to concatenate a " ++ k.name ++ " value"
  | .lengthOf k => "attempt to get length of a " ++ k.name ++ " value"
  | .compare a b =>
    if a = b then "attempt to compare two " ++ a.name ++ " values"
    else "attempt to compare " ++ a.name ++ " with " ++ b.name
  | .index none k => "attempt to index a " ++ k.name ++ " value"
  | .index (some d) k => "attempt to index " ++ d.text ++ " (a " ++ k.name ++ " value)"
  | .call none k => "attempt to call a " ++ k.name ++ " value"
  | .call (some d) k => "attempt to call " ++ d.text ++ " (a " ++ k.name ++ " value)"
  | .loopInGet => "loop in gettable"
  | .loopInSet => "loop in settable"
  | .tostringNotString => "'__tostring' must return a string"
  | .noOwnMetatable k => "cannot set metatable of a " ++ k.name ++ " value"
  | .key .nil => "table index is nil"
  | .key .nan => "table index is NaN"
  | .loopNumber what => "'for' " ++ what.text ++ " must be a number"
  | .notATarget => "syntax error"
  | .badArgument n f p => "bad argument #" ++ toString n ++ " to " ++ f ++ " (" ++ p.text ++ ")"
  | .moduleNameTaken name => "name conflict for module(" ++ name ++ ")"
  | .protectedMetatable => "cannot change a protected metatable"
  | .unknownKey => "invalid key to 'next'"
  | .tooManyToUnpack => "too many results to unpack"
  | .wrongArgumentCount f => "wrong number of arguments to '" ++ f ++ "'"
  | .notConcatenable i =>
    "invalid value (at index " ++ toString i ++ ") in table for 'concat'"
  | .stringTooLarge => "resulting string too large"
  | .formatTooLong => "invalid format (width or precision too long)"
  | .formatOption c => "invalid option '%" ++ c ++ "' to 'format'"
  | .closedFile => "attempt to use a closed file"
  | .packageField field k => "'package." ++ field ++ "' must be a " ++ k.name
  | .moduleNotFound name tried => "module '" ++ name ++ "' not found:" ++ tried
  | .moduleNotLoaded name file reason =>
    "error loading module '" ++ name ++ "' from file '" ++ file ++ "':\n\t" ++ reason
  | .dateFieldMissing field => "field '" ++ field ++ "' missing in date table"
  | .dateFieldNotInteger field => "field '" ++ field ++ "' is not an integer"
  | .dateFormat format => "invalid conversion specifier '" ++ format ++ "'"
  | .other text => text

end LuaEmbed
