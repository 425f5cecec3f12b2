/-! # Words

Integers of 32 and 64 bits. Arithmetic that leaves their range comes back at its other end: `wrap32`
and `wrap64` say what is left of an integer, as a number with a sign, and `unsigned64` says the same
for words without one. -/

namespace LuaEmbed.Number

/-- The number of words of 32 bits. -/
def words32 : Nat := 0x100000000

/-- The number of words of 64 bits. -/
def words64 : Nat := 0x10000000000000000

/-- The least 32-bit integer. -/
def int32Min : Int := -0x80000000

/-- The greatest 32-bit integer. -/
def int32Max : Int := 0x7FFFFFFF

/-- The least 64-bit integer. -/
def int64Min : Int := -0x8000000000000000

/-- The greatest 64-bit integer. -/
def int64Max : Int := 0x7FFFFFFFFFFFFFFF

/-- An integer as 32-bit arithmetic leaves it. -/
def wrap32 (n : Int) : Int := n.bmod words32

/-- An integer as 64-bit arithmetic leaves it. -/
def wrap64 (n : Int) : Int := n.bmod words64

/-- An integer as a 64-bit word without a sign; a negative one is very large. -/
def unsigned64 (n : Int) : Nat := (n % words64).toNat

/-- The nearest integer between two bounds. -/
def clamp (low high n : Int) : Int := if n < low then low else if high < n then high else n

theorem wrap64_of_mem {n : Int} (hl : int64Min ≤ n) (hh : n ≤ int64Max) : wrap64 n = n := by
  simp only [int64Min, int64Max] at hl hh
  rw [wrap64, words64, Int.bmod_def]
  split <;> omega

theorem int64Min_le_wrap64 (n : Int) : int64Min ≤ wrap64 n := by
  rw [wrap64, words64, int64Min, Int.bmod_def]
  split <;> omega

theorem wrap64_le_int64Max (n : Int) : wrap64 n ≤ int64Max := by
  rw [wrap64, words64, int64Max, Int.bmod_def]
  split <;> omega

theorem clamp_of_mem {low high n : Int} (hl : low ≤ n) (hh : n ≤ high) : clamp low high n = n := by
  simp only [clamp]; split
  · omega
  · split <;> omega

theorem le_clamp {low high n : Int} (h : low ≤ high) : low ≤ clamp low high n := by
  simp only [clamp]; split
  · omega
  · split <;> omega

theorem clamp_le {low high n : Int} (h : low ≤ high) : clamp low high n ≤ high := by
  simp only [clamp]; split
  · omega
  · split <;> omega

end LuaEmbed.Number
