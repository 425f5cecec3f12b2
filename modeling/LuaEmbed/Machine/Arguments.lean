import LuaEmbed.Machine.Report

/-! # Arguments

How host functions read their arguments, by positions counted from 1. A `check` fails when the
argument is of another kind; an `opt` gives its default when the argument is absent or `nil`, and
otherwise behaves like the check. -/

namespace LuaEmbed

/-- How a type of the host is read from the values of exactly one kind. -/
structure Extractor (α : Type) where
  kind : Kind
  get? : Value → Option α

namespace Extractor

/-- Numbers as they are. -/
def number : Extractor Float := ⟨.number, fun | .number n => some n | _ => none⟩

/-- Numbers as 64-bit integers: the fraction is dropped, and what is out of range is clamped. -/
def integer : Extractor Int :=
  ⟨.number, fun | .number n => some (Number.toInt64 n) | _ => none⟩

/-- Booleans. -/
def boolean : Extractor Bool := ⟨.boolean, fun | .boolean b => some b | _ => none⟩

/-- Strings. -/
def string : Extractor String := ⟨.string, fun | .string s => some s | _ => none⟩

/-- Tables. -/
def table : Extractor Ref := ⟨.table, fun | .table r => some r | _ => none⟩

/-- Functions. -/
def function : Extractor Ref := ⟨.function, fun | .function r => some r | _ => none⟩

/-- Userdata. -/
def userdata : Extractor Ref := ⟨.userdata, fun | .userdata r => some r | _ => none⟩

/-- Threads. -/
def thread : Extractor Unit := ⟨.thread, fun | .thread => some () | _ => none⟩

end Extractor

/-- The arguments of a call. -/
abbrev Arguments := List Value

namespace Arguments

variable {α : Type}

/-- The argument at a position, `nil` if there is none. -/
def arg (args : Arguments) (n : Nat) : Value :=
  match n with
  | 0 => .nil
  | n + 1 => args[n]?.getD .nil

/-- Fail because a value, the argument at a position, is of another kind than the one expected. -/
def mismatch (v : Value) (n : Nat) (expected : String) : Run α :=
  Report.argument .typeMismatch n (.expectedGot expected v.kind)

/-- A value, the argument at a position, as a type of the host. -/
def extract (e : Extractor α) (n : Nat) (v : Value) : Run α :=
  match e.get? v with
  | some a => return a
  | none => mismatch v n e.kind.name

/-- The argument at a position, which has to be there; `nil` is. -/
def checkAny (args : Arguments) (n : Nat) : Run Value :=
  if n == 0 || args.length < n then Report.argument .argumentMissing n .missing
  else return args.arg n

/-- The argument at a position as a type of the host. -/
def check (args : Arguments) (e : Extractor α) (n : Nat) : Run α := extract e n (args.arg n)

/-- The argument at a position as a type of the host, if there is one. -/
def opt? (args : Arguments) (e : Extractor α) (n : Nat) : Run (Option α) :=
  if (args.arg n).isNil then return none else some <$> args.check e n

/-- The argument at a position as a type of the host, or a default. -/
def opt (args : Arguments) (e : Extractor α) (n : Nat) (default : α) : Run α :=
  if (args.arg n).isNil then return default else args.check e n

/-- Check the kind of the argument at a position. -/
def checkKind (args : Arguments) (n : Nat) (kind : Kind) : Run Unit :=
  if (args.arg n).kind == kind then return ()
  else Report.argument .typeMismatch n (.expected kind)

/-- Check that the argument at a position is of one of some kinds. -/
def checkKinds (args : Arguments) (n : Nat) (kinds : List Kind) : Run Unit :=
  if kinds.contains (args.arg n).kind then return ()
  else Report.argument .typeMismatch n (.expectedOneOf kinds)

/-- The index of the string argument at a position among some options. -/
def checkOption (args : Arguments) (n : Nat) (options : List String) : Run Nat := do
  let s ← args.check .string n
  match options.findIdx? (· == s) with
  | some i => return i
  | none => Report.argument .invalidOption n (.notAnOption s options)

/-- The argument at a position as a number; strings that denote one count. -/
def checkNumeral (args : Arguments) (n : Nat) : Run Float :=
  match (args.arg n).toNumber? with
  | some x => return x
  | none => mismatch (args.arg n) n Kind.number.name

end Arguments

end LuaEmbed
