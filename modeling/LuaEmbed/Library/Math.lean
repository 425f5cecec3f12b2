import LuaEmbed.Machine.Arguments
import LuaEmbed.Machine.Module

/-! # The mathematical library

Functions on doubles, and random numbers. The generator belongs to the surroundings, so that all
machines of a program draw from one sequence. -/

namespace LuaEmbed.Library.Math

/-- The functions and the names they are installed under. -/
def functions : Module.FunctionSet :=
  [("abs", .math .abs), ("ceil", .math .ceil), ("floor", .math .floor), ("sqrt", .math .sqrt),
    ("sin", .math .sin), ("cos", .math .cos), ("tan", .math .tan), ("asin", .math .asin),
    ("acos", .math .acos), ("atan", .math .atan), ("atan2", .math .atan2), ("exp", .math .exp),
    ("log", .math .log), ("log10", .math .log10), ("pow", .math .pow), ("fmod", .math .fmod),
    ("modf", .math .modf), ("max", .math .max), ("min", .math .min), ("random", .math .random),
    ("randomseed", .math .randomseed), ("deg", .math .deg), ("rad", .math .rad)]

/-- The ratio of a circle's circumference to its diameter. -/
def pi : Float := 3.14159265358979323846264338327950288

/-- Install the library. -/
def openLibrary : Run Unit := do
  let library ← Module.register "math" functions
  Heap.setStr library "pi" (.number pi)
  Heap.setStr library "huge" (.number (1 / 0))

/-! ## Parts of numbers -/

/-- The remainder of exact division whose quotient is rounded towards zero. It has the sign of the
dividend. -/
def remainder (x y : Float) : Float :=
  match Number.dyadic? x, Number.dyadic? y with
  | some a, some b =>
    if b.mantissa == 0 then 0 / 0
    else
      let e := min a.exponent b.exponent
      let m := a.mantissa * Nat.pow 2 (a.exponent - e).toNat
      let n := b.mantissa * Nat.pow 2 (b.exponent - e).toNat
      let r := (Number.ofNat (m % n)).scaleB e
      if a.negative then -r else r
  | some _, none => if y.isNaN then y else x
  | none, _ => 0 / 0

/-- The integral part and the fraction; an infinity has no fraction. -/
def parts (x : Float) : Float × Float :=
  let whole := Number.truncate x
  (whole, if x.isInf then 0 else x - whole)

/-- The logarithm to a base, the natural one by default. -/
def logarithm (x : Float) : Option Float → Float
  | none => x.log
  | some b => if b == 2 then x.log2 else if b == 10 then x.log10 else x.log / b.log

/-! ## Random numbers -/

/-- Scramble a word so that each bit of it has an effect on all bits. -/
def scramble (z : UInt64) : UInt64 :=
  let z := (z ^^^ (z >>> 30)) * 0xbf58476d1ce4e5b9
  let z := (z ^^^ (z >>> 27)) * 0x94d049bb133111eb
  z ^^^ (z >>> 31)

/-- What a state of the generator is increased by at each draw. -/
def increment : UInt64 := 0x9e3779b97f4a7c15

/-- Draw a number from the interval `[0, 1)`, in steps of `2 ^ -53`. -/
def draw : Run Float := do
  let state := (← Run.world World.random) + increment
  Run.modifyWorld fun w => { w with random := state }
  return (scramble state >>> 11).toFloat / 9007199254740992

/-- `math.random(m, n)`: a number is drawn before the arguments are looked at. -/
def random (args : Arguments) : Run (List Value) := do
  let r ← draw
  let (low, high) ←
    match args.length with
    | 0 => return [.number r]
    | 1 => pure (1, (← args.check .number 1).floor)
    | 2 => pure ((← args.check .number 1).floor, (← args.check .number 2).floor)
    | _ => Report.raise .runtime (.wrongArgumentCount "random")
  if high < low then Report.argument .runtime args.length .intervalEmpty
  return [.number ((r * (high - low + 1)).floor + low)]

/-- `math.randomseed(n)`. -/
def randomseed (args : Arguments) : Run (List Value) := do
  let seed := Number.toInt64 (← args.check .number 1)
  Run.modifyWorld fun w => { w with random := UInt64.ofInt seed }
  return []

/-! ## All functions -/

/-- A function of one number. -/
def unary (f : Float → Float) (args : Arguments) : Run (List Value) := do
  return [.number (f (← args.check .number 1))]

/-- A function of two numbers. -/
def binary (f : Float → Float → Float) (args : Arguments) : Run (List Value) := do
  let x ← args.check .number 1
  let y ← args.check .number 2
  return [.number (f x y)]

/-- The best one of a number and of values, the first of which is the argument at position `n`. A
later one has to be better than all before it. -/
def best (better : Float → Float → Bool) (n : Nat) (x : Float) : List Value → Run Float
  | [] => return x
  | v :: vs => do
    let y ← Arguments.extract .number n v
    best better (n + 1) (if better y x then y else x) vs

/-- The best one of some numbers, of which there is at least one. -/
def extreme (better : Float → Float → Bool) (args : Arguments) : Run (List Value) := do
  let x ← args.check .number 1
  return [.number (← best better 2 x (args.drop 1))]

/-- What each function does. -/
def run (f : MathFunction) (args : Arguments) : Run (List Value) :=
  match f with
  | .abs => unary Float.abs args
  | .ceil => unary Float.ceil args
  | .floor => unary Float.floor args
  | .sqrt => unary Float.sqrt args
  | .sin => unary Float.sin args
  | .cos => unary Float.cos args
  | .tan => unary Float.tan args
  | .asin => unary Float.asin args
  | .acos => unary Float.acos args
  | .atan => unary Float.atan args
  | .atan2 => binary Float.atan2 args
  | .exp => unary Float.exp args
  | .log => do
    let x ← args.check .number 1
    return [.number (logarithm x (← args.opt? .number 2))]
  | .log10 => unary Float.log10 args
  | .pow => binary Float.pow args
  | .fmod => binary remainder args
  | .modf => do
    let (whole, fraction) := parts (← args.check .number 1)
    return [.number whole, .number fraction]
  | .max => extreme (fun y x => x < y) args
  | .min => extreme (fun y x => y < x) args
  | .random => random args
  | .randomseed => randomseed args
  | .deg => unary (· * (180 / pi)) args
  | .rad => unary (· * (pi / 180)) args

end LuaEmbed.Library.Math
