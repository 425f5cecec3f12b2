import LuaEmbed.World.FileSystem

/-! # Surroundings

What machines of one program share: the files, the output streams, the environment, the clock, and
the generator of random numbers. -/

namespace LuaEmbed

/-- The surroundings of a program. -/
structure World where
  files : FileSystem
  /-- What has been written to standard output. -/
  out : String
  /-- What has been written to standard error. -/
  err : String
  /-- The variables of the environment. -/
  environment : List (String × String)
  /-- The state of the generator of random numbers. -/
  random : UInt64
  /-- The time at which the program started, in seconds since the start of 1970. -/
  started : Int
  /-- The time that has passed since then, in microseconds. It passes while it is looked at. -/
  elapsed : Nat

namespace World

/-- The first state of the generator of random numbers. -/
def firstSeed : UInt64 := 0x123456789abcdef0

/-- Surroundings in which nothing has happened yet. -/
def initial : World where
  files := FileSystem.initial
  out := ""
  err := ""
  environment := []
  random := firstSeed
  started := 0
  elapsed := 0

instance : Inhabited World := ⟨initial⟩

/-- The surroundings after a look at the clock. -/
def tick (w : World) : World := { w with elapsed := w.elapsed + 1 }

/-- The time, in seconds since the start of 1970. -/
def now (w : World) : Int := w.started + w.elapsed / 1000000

/-- The value of a variable of the environment. -/
def environmentValue? (w : World) (name : String) : Option String := w.environment.lookup name

end World

end LuaEmbed
