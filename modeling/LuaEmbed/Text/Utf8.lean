/-! # Bytes and text

Text is kept as `String`, that is, as a sequence of code points. Input arrives as bytes, and some
operations cut text between bytes, so bytes have to be read back as text even when they are not
well formed. Reading never fails: a well-formed sequence becomes its code point, and each maximal
beginning of a sequence that is broken off becomes one replacement character. -/

namespace LuaEmbed.Text

/-- The character that stands for bytes that are not well-formed UTF-8. -/
def replacement : Char := '\uFFFD'

/-- The UTF-8 bytes of a text. -/
def bytes (s : String) : List UInt8 := s.toByteArray.data.toList

theorem length_bytes (s : String) : (bytes s).length = s.utf8ByteSize := rfl

/-- What a decoder is in the middle of. -/
inductive Decoder where
  /-- Between two characters. -/
  | ready
  /-- Inside a sequence: the bits collected, the number of bytes after the next one, and the
  range that the next byte has to lie in. -/
  | inside (bits : Nat) (more : Nat) (low high : UInt8)
deriving DecidableEq, Repr

namespace Decoder

/-- Read the first byte of a character. The ranges for the byte after it exclude overlong forms,
surrogates and values above the last code point. -/
def start (b : UInt8) : List Char × Decoder :=
  if b < 0x80 then ([Char.ofNat b.toNat], ready)
  else if b < 0xC2 then ([replacement], ready)
  else if b < 0xE0 then ([], inside (b.toNat % 32) 0 0x80 0xBF)
  else if b < 0xF0 then
    ([], inside (b.toNat % 16) 1 (if b == 0xE0 then 0xA0 else 0x80)
      (if b == 0xED then 0x9F else 0xBF))
  else if b < 0xF5 then
    ([], inside (b.toNat % 8) 2 (if b == 0xF0 then 0x90 else 0x80)
      (if b == 0xF4 then 0x8F else 0xBF))
  else ([replacement], ready)

/-- Read one byte: the characters it completes, and the state after it. A byte that does not
continue the sequence ends it with a replacement and starts a character of its own. -/
def step : Decoder → UInt8 → List Char × Decoder
  | ready, b => start b
  | inside bits more low high, b =>
    if low ≤ b && b ≤ high then
      match more with
      | 0 => ([Char.ofNat (bits * 64 + b.toNat % 64)], ready)
      | more + 1 => ([], inside (bits * 64 + b.toNat % 64) more 0x80 0xBF)
    else
      let (cs, d) := start b
      (replacement :: cs, d)

/-- The characters that the end of input completes. -/
def finish : Decoder → List Char
  | ready => []
  | inside .. => [replacement]

/-- The characters of a byte sequence read from a given state on. -/
def run : Decoder → List UInt8 → List Char
  | d, [] => d.finish
  | d, b :: bs => (d.step b).1 ++ run (d.step b).2 bs

@[simp] theorem run_nil (d : Decoder) : d.run [] = d.finish := by cases d <;> rfl

@[simp] theorem run_cons (d : Decoder) (b : UInt8) (bs : List UInt8) :
    d.run (b :: bs) = (d.step b).1 ++ run (d.step b).2 bs := rfl

end Decoder

/-- The text read so far and the state of the decoder, after one more byte. -/
def Decoder.push (read : String × Decoder) (b : UInt8) : String × Decoder :=
  let (cs, d) := read.2.step b
  (cs.foldl String.push read.1, d)

/-- The text that a byte sequence denotes. -/
def decode (bs : List UInt8) : String :=
  let (s, d) := bs.foldl Decoder.push ("", Decoder.ready)
  d.finish.foldl String.push s

/-- The text of the bytes of `s` at positions `start ≤ p < stop`, counted from 0. -/
def slice (s : String) (start stop : Nat) : String :=
  decode (s.toByteArray.extract start stop).data.toList

/-- The exact text of a byte sequence, which only a well-formed one has. -/
def decodeExact? (bs : List UInt8) : Option String :=
  let s := decode bs
  if bytes s = bs then some s else none

end LuaEmbed.Text
