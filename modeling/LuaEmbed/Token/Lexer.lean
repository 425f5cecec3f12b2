import LuaEmbed.Number.Numeral
import LuaEmbed.Source
import LuaEmbed.Token

/-! # Lexing

A lexer holds the glyphs not yet read. `Lexer.next` skips blanks and comments and reads one token:
it yields a lexeme, which is a token or a fault with its place and the text it was read from, and
the lexer after it. A lexer can go on after a fault, and at the end of input it yields the same
lexeme for ever. `Lexer.lexemes` reads up to the end or to the first fault. -/

namespace LuaEmbed

/-- The two things that long brackets enclose. -/
inductive LongForm where
  | string
  | comment
deriving DecidableEq, Repr

/-- Why no token could be read. -/
inductive LexicalFault where
  | unexpected (byte : UInt8)
  | malformedNumber (text : String)
  | stringAtEnd
  | stringAtBreak (text : String)
  | escapeTooLarge
  | invalidEscape (byte : UInt8)
  | longAtEnd (form : LongForm)
deriving DecidableEq, Repr

namespace LexicalFault

/-- A byte shown as the character of the same code point. -/
def shown (b : UInt8) : String := String.singleton (Char.ofNat b.toNat)

/-- The message of a fault. -/
def message : LexicalFault → String
  | .unexpected b => "unexpected symbol near '" ++ shown b ++ "'"
  | .malformedNumber text => "malformed number near '" ++ text ++ "'"
  | .stringAtEnd => "unfinished string near <eof>"
  | .stringAtBreak text => "unfinished string near '" ++ text ++ "'"
  | .escapeTooLarge => "escape sequence too large"
  | .invalidEscape b => "invalid escape sequence near '\\" ++ shown b ++ "'"
  | .longAtEnd .string => "unfinished long string near <eof>"
  | .longAtEnd .comment => "unfinished long comment near <eof>"

end LexicalFault

namespace Lexer

/-! ## Classes of glyphs -/

/-- A decimal digit. -/
def isDigit (g : Glyph) : Bool := 0x30 ≤ g.byte && g.byte ≤ 0x39

/-- A letter of ASCII. -/
def isLetter (g : Glyph) : Bool :=
  (0x41 ≤ g.byte && g.byte ≤ 0x5A) || (0x61 ≤ g.byte && g.byte ≤ 0x7A)

/-- A hexadecimal digit. -/
def isHexDigit (g : Glyph) : Bool :=
  isDigit g || (0x41 ≤ g.byte && g.byte ≤ 0x46) || (0x61 ≤ g.byte && g.byte ≤ 0x66)

/-- A glyph that starts a word. -/
def startsWord (g : Glyph) : Bool := isLetter g || g.byte == '_'.toUInt8

/-- A glyph that continues a word. -/
def isWord (g : Glyph) : Bool := startsWord g || isDigit g

/-- The glyph is written `c`. -/
def isChar (c : Char) (g : Glyph) : Bool := g.byte == c.toUInt8

/-- A blank between tokens. -/
def isBlank (g : Glyph) : Bool := Text.isBlankByte g.byte

/-- The characters that glyphs of ASCII show. -/
def chars (gs : List Glyph) : List Char := gs.map fun g => Char.ofNat g.byte.toNat

/-! ## Long brackets -/

/-- After a first bracket, `level` equals signs and a second bracket: what follows them. -/
def afterBracket? (bracket : Char) : Nat → List Glyph → Option (List Glyph)
  | 0, g :: gs => if isChar bracket g then some gs else none
  | level + 1, g :: gs => if isChar '=' g then afterBracket? bracket level gs else none
  | _, [] => none

/-- The level of the long bracket that opens here, if one does. -/
def openingLevel? : List Glyph → Option Nat
  | [] => none
  | g :: gs =>
    if isChar '[' g then
      let level := (gs.takeWhile (isChar '=')).length
      (afterBracket? '[' level gs).map fun _ => level
    else none

/-- The bytes up to the bracket that closes the given level and the number of glyphs up to its end,
or none if it is missing. -/
def longBody? (level : Nat) : List Glyph → List UInt8 → Nat → Option (List UInt8 × Nat)
  | [], _, _ => none
  | g :: gs, content, size =>
    if isChar ']' g && (afterBracket? ']' level gs).isSome then
      some (content.reverse, size + level + 2)
    else longBody? level gs (g.byte :: content) (size + 1)

/-- What a long bracket of the given level that opens here encloses, and the number of glyphs up to
its end. A line break right after the opening is not part of it. -/
def longBracket? (level : Nat) (gs : List Glyph) : Option (List UInt8 × Nat) :=
  let opening := level + 2
  match gs.drop opening with
  | [] => none
  | g :: rest =>
    if g.isBreak then longBody? level rest [] (opening + 1)
    else longBody? level (g :: rest) [] opening

/-! ## Blanks and comments -/

/-- Drop the blanks and comments in front; a comment without end is reported by its place. -/
def skip (gs : List Glyph) : Except Position (List Glyph) :=
  match _h : gs.dropWhile isBlank with
  | d :: e :: rest =>
    if isChar '-' d && isChar '-' e then
      match openingLevel? rest with
      | some level =>
        match longBracket? level rest with
        | some (_, size) => skip (rest.drop size)
        | none => .error d.position
      | none => skip (rest.dropWhile fun g => !g.isBreak)
    else .ok (d :: e :: rest)
  | rest => .ok rest
termination_by gs.length
decreasing_by
  all_goals
    have := (List.dropWhile_suffix (l := gs) isBlank).length_le
    rw [_h] at this
    simp only [List.length_cons] at this
  · simp only [List.length_drop]; omega
  · have := (List.dropWhile_suffix (l := rest) fun g => !g.isBreak).length_le
    omega

/-! ## Tokens of many glyphs -/

/-- The outcome of reading a token, and the number of glyphs read. -/
structure Scan where
  outcome : Except LexicalFault Token
  size : Nat

/-- A number: `size` glyphs of its form have been found at the front. A letter right after them
spoils it, together with all that could belong to the word or number. -/
def numberOf (gs : List Glyph) (size : Nat) (value? : List Char → Option Float) : Scan :=
  let rest := gs.drop size
  let excess :=
    if (rest.head?.map startsWord).getD false then
      (rest.takeWhile fun g => isWord g || isChar '.' g).length
    else 0
  let taken := gs.take (size + excess)
  let malformed : LexicalFault := .malformedNumber (Source.text taken)
  if 0 < excess then ⟨.error malformed, size + excess⟩
  else
    match value? (chars taken) with
    | some n => ⟨.ok (.number n), size⟩
    | none => ⟨.error malformed, size⟩

/-- The size of an exponent, if one follows: its letter, a sign, and digits. -/
def exponentSize : List Glyph → Nat
  | [] => 0
  | g :: gs =>
    if isChar 'e' g || isChar 'E' g then
      match gs with
      | [] => 1
      | s :: ds =>
        if isChar '+' s || isChar '-' s then 2 + (ds.takeWhile isDigit).length
        else 1 + ((s :: ds).takeWhile isDigit).length
    else 0

/-- A number. Its form is taken greedily; whether it denotes a number is decided afterwards. -/
def number (gs : List Glyph) : Scan :=
  let decimal :=
    let size := (gs.takeWhile fun g => isDigit g || isChar '.' g).length
    numberOf gs (size + exponentSize (gs.drop size)) Number.decimal?
  match gs with
  | z :: x :: ds =>
    if isChar '0' z && (isChar 'x' x || isChar 'X' x) then
      numberOf gs (2 + (ds.takeWhile isHexDigit).length) fun cs =>
        Number.hexadecimal64? (cs.drop 2)
    else decimal
  | _ => decimal

/-- The byte that a letter or a sign after a backslash stands for. -/
def simpleEscape? (g : Glyph) : Option UInt8 :=
  if isChar 'a' g then some 0x07
  else if isChar 'b' g then some 0x08
  else if isChar 'f' g then some 0x0C
  else if isChar 'n' g then some 0x0A
  else if isChar 'r' g then some 0x0D
  else if isChar 't' g then some 0x09
  else if isChar 'v' g then some 0x0B
  else if isChar '\\' g || isChar '\'' g || isChar '"' g || g.isBreak then some g.byte
  else none

/-- The value of a decimal digit. -/
def digit (g : Glyph) : Nat := g.byte.toNat - 0x30

/-- The rest of a string after its opening quote. `content` holds the bytes of the value in reverse,
`size` the number of glyphs read. -/
def stringBody (quote : UInt8) : List Glyph → List UInt8 → Nat → Scan
  | [], _, size => ⟨.error .stringAtEnd, size⟩
  | g :: gs, content, size =>
    if g.isBreak then
      ⟨.error (.stringAtBreak (LexicalFault.shown quote ++ Text.decode content.reverse)), size⟩
    else if g.byte == quote then ⟨.ok (.string (Text.decode content.reverse)), size + 1⟩
    else if isChar '\\' g then
      match gs with
      | [] => ⟨.error .stringAtEnd, size + 1⟩
      | e :: gs₁ =>
        match simpleEscape? e with
        | some b => stringBody quote gs₁ (b :: content) (size + 2)
        | none =>
          if isDigit e then
            match gs₁ with
            | [] => ⟨.error .stringAtEnd, size + 2⟩
            | f :: gs₂ =>
              if isDigit f then
                match gs₂ with
                | [] => ⟨.error .stringAtEnd, size + 3⟩
                | h :: gs₃ =>
                  if isDigit h then
                    let value := digit e * 100 + digit f * 10 + digit h
                    if 255 < value then ⟨.error .escapeTooLarge, size + 4⟩
                    else stringBody quote gs₃ (UInt8.ofNat value :: content) (size + 4)
                  else
                    stringBody quote (h :: gs₃)
                      (UInt8.ofNat (digit e * 10 + digit f) :: content) (size + 3)
              else stringBody quote (f :: gs₂) (UInt8.ofNat (digit e) :: content) (size + 2)
          else ⟨.error (.invalidEscape e.byte), size + 1⟩
    else stringBody quote gs (g.byte :: content) (size + 1)

/-! ## One token -/

/-- A terminal of the given number of glyphs. -/
def terminal (t : Terminal) (size : Nat) : Scan := ⟨.ok (.terminal t), size⟩

/-- The terminal `long` if `c` is the second glyph, else the terminal `short` of one glyph. -/
def oneOrTwo (c : Char) (long short : Terminal) (gs : List Glyph) : Scan :=
  if (gs.head?.map (isChar c)).getD false then terminal long 2 else terminal short 1

/-- The terminals of one glyph that start no longer token. -/
def simpleTerminal? (g : Glyph) : Option Terminal :=
  [('+', Terminal.plus), ('-', .minus), ('*', .star), ('/', .slash), ('%', .percent), ('^', .caret),
    ('#', .hash), ('(', .leftParen), (')', .rightParen), ('\x7b', .leftBrace),
    ('\x7d', .rightBrace), (']', .rightBracket), (';', .semicolon), (':', .colon), (',', .comma)]
    |>.lookup (Char.ofNat g.byte.toNat)

/-- Dots: one, two or three of them, or the point of a number. -/
def dots (gs : List Glyph) : Scan :=
  match gs with
  | _ :: d :: rest =>
    if isChar '.' d then
      if (rest.head?.map (isChar '.')).getD false then terminal .ellipsis 3
      else terminal .concat 2
    else if isDigit d then number gs
    else terminal .dot 1
  | _ => terminal .dot 1

/-- An opening bracket: a long string, or the bracket alone. -/
def bracket (gs : List Glyph) : Scan :=
  match openingLevel? gs with
  | some level =>
    match longBracket? level gs with
    | some (content, size) => ⟨.ok (.string (Text.decode content)), size⟩
    | none => ⟨.error (.longAtEnd .string), gs.length⟩
  | none => terminal .leftBracket 1

/-- A keyword or a name. -/
def word (gs : List Glyph) : Scan :=
  let taken := gs.takeWhile isWord
  let text := String.ofList (chars taken)
  match Terminal.ofWord? text with
  | some t => terminal t taken.length
  | none => ⟨.ok (.name text), taken.length⟩

/-- Read the token that starts with the glyph `g`. -/
def scan (g : Glyph) (gs : List Glyph) : Scan :=
  if startsWord g then word (g :: gs)
  else if isDigit g then number (g :: gs)
  else
    match simpleTerminal? g with
    | some t => terminal t 1
    | none =>
      if isChar '"' g || isChar '\'' g then stringBody g.byte gs [] 1
      else if isChar '.' g then dots (g :: gs)
      else if isChar '=' g then oneOrTwo '=' .equal .assign gs
      else if isChar '<' g then oneOrTwo '=' .lessEqual .less gs
      else if isChar '>' g then oneOrTwo '=' .greaterEqual .greater gs
      else if isChar '[' g then bracket (g :: gs)
      else if isChar '~' g && (gs.head?.map (isChar '=')).getD false then terminal .notEqual 2
      else ⟨.error (.unexpected g.byte), 1⟩

end Lexer

/-- A token or a fault, its place, and the text it was read from. -/
structure Lexeme where
  outcome : Except LexicalFault Token
  position : Position
  text : String

/-- The text that stands for the end of input. -/
def Lexeme.endText : String := "<eof>"

/-- The glyphs not yet read, the place of the end, and the text of the last lexeme. -/
structure Lexer where
  rest : List Glyph
  stop : Position
  text : String

namespace Lexer

/-- A lexer at the start of a source. A first line that starts with `#` is not read, up to the line
feed that ends it. -/
def ofBytes (bs : List UInt8) : Lexer :=
  let source := Source.layOut bs
  let glyphs :=
    match source.glyphs with
    | g :: gs =>
      if isChar '#' g then gs.dropWhile fun g => g.raw.head? != some Glyph.lineFeed else g :: gs
    | [] => []
  ⟨glyphs, source.stop, ""⟩

/-- Read one lexeme. A comment without end leaves the text of the lexeme before it. -/
def next (x : Lexer) : Lexeme × Lexer :=
  match skip x.rest with
  | .error place =>
    (⟨.error (.longAtEnd .comment), place, x.text⟩, ⟨[], x.stop, x.text⟩)
  | .ok [] =>
    (⟨.ok .endOfInput, x.stop, Lexeme.endText⟩, ⟨[], x.stop, Lexeme.endText⟩)
  | .ok (g :: gs) =>
    let s := scan g gs
    let text := Source.text ((g :: gs).take s.size)
    (⟨s.outcome, g.position, text⟩, ⟨(g :: gs).drop s.size, x.stop, text⟩)

/-- At most `n` lexemes, up to the end of input or to the first fault, after those in `done`, which
are held in reverse. -/
def collect : Nat → Lexer → List Lexeme → List Lexeme
  | 0, _, done => done.reverse
  | n + 1, x, done =>
    let (l, y) := x.next
    match l.outcome with
    | .ok .endOfInput | .error _ => (l :: done).reverse
    | .ok _ => collect n y (l :: done)

/-- The lexemes up to the end of input or to the first fault. -/
def lexemes (x : Lexer) : List Lexeme := collect (x.rest.length + 1) x []

end Lexer

end LuaEmbed
