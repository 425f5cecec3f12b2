import LuaEmbed.Text.Utf8

/-! # Source text

The source of a chunk is a sequence of bytes, in which a line may end in a line feed, a carriage
return, or both in either order. `layOut` reads it as a sequence of glyphs: a line break is one
glyph however it is written, every other byte is a glyph of its own, and each glyph knows its
position. Scanners work on glyphs and so need not know the forms of a line break. -/

namespace LuaEmbed

/-- A place in a source, both numbers counted from 1; the column counts bytes. -/
structure Position where
  line : Nat
  column : Nat
deriving DecidableEq, Repr

/-- The place of the first glyph. -/
def Position.first : Position := ⟨1, 1⟩

/-- One unit of source text: the byte it counts as, the bytes it is written with, its place. -/
structure Glyph where
  byte : UInt8
  raw : List UInt8
  position : Position
deriving DecidableEq, Repr

namespace Glyph

/-- The byte that every line break counts as. -/
def lineFeed : UInt8 := 0x0A

/-- The bytes that a line break is written with. -/
def isBreakByte (b : UInt8) : Bool := b == 0x0A || b == 0x0D

/-- A line break. -/
def isBreak (g : Glyph) : Bool := g.byte == lineFeed

/-- The place after a glyph. -/
def after (g : Glyph) : Position :=
  if g.isBreak then ⟨g.position.line + 1, 1⟩ else ⟨g.position.line, g.position.column + 1⟩

/-- The glyph of one byte. -/
def single (b : UInt8) (p : Position) : Glyph := ⟨if isBreakByte b then lineFeed else b, [b], p⟩

/-- Add a byte to glyphs held in reverse. A second, different break byte joins the first one. -/
def push (gs : List Glyph) (b : UInt8) : List Glyph :=
  match gs with
  | [] => [single b .first]
  | g :: earlier =>
    match g.raw with
    | [a] =>
      if isBreakByte a && isBreakByte b && a != b then ⟨lineFeed, [a, b], g.position⟩ :: earlier
      else single b g.after :: gs
    | _ => single b g.after :: gs

end Glyph

/-- A source as glyphs, with the place after the last one. -/
structure Source where
  glyphs : List Glyph
  stop : Position
deriving Repr

namespace Source

/-- The glyphs of a byte sequence. -/
def layOut (bs : List UInt8) : Source :=
  let reversed := bs.foldl Glyph.push []
  ⟨reversed.reverse, (reversed.head?.map Glyph.after).getD .first⟩

/-- The bytes that glyphs are written with. -/
def raw (gs : List Glyph) : List UInt8 := gs.flatMap Glyph.raw

/-- The text that glyphs are written with. -/
def text (gs : List Glyph) : String := Text.decode (raw gs)

end Source

end LuaEmbed
