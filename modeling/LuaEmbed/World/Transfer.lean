import LuaEmbed.Number.Numeral
import LuaEmbed.Text.Utf8
import LuaEmbed.World.FileSystem

/-! # Transfers

How bytes get from streams and files to a program, and back. Reads go through a buffer: small
requests take a chunk ahead, and the place from which the next bytes are taken lies behind it, while
large requests go past the buffer. Writing to a file starts at that place, not at the one up to
which the program has read. -/

namespace LuaEmbed

/-! ## Buffers -/

/-- Where bytes come from: how to take at most a number of them at a place, with the place behind
them, and how many there are. -/
structure Supply (σ : Type) where
  take : Nat → σ → List UInt8 × σ
  size : σ → Nat

/-- A place to take bytes from, and the bytes before it that have been taken ahead. -/
structure Buffered (σ : Type) where
  ahead : List UInt8
  place : σ
deriving Repr

/-- A list of bytes supplies its elements. -/
def Supply.list : Supply (List UInt8) where
  take k bs := (bs.take k, bs.drop k)
  size := List.length

/-- A content supplies its bytes; a place in it is an offset. -/
def Supply.content (content : ByteArray) : Supply Nat where
  take k offset :=
    let bytes := content.extract offset (offset + k)
    (bytes.data.toList, offset + bytes.size)
  size offset := content.size - offset

namespace Supply

variable {σ : Type}

/-- The number of bytes that a buffer takes at a time. -/
def chunkSize : Nat := 8192

/-- Take a chunk if no bytes are at hand. -/
def fill (s : Supply σ) (b : Buffered σ) : Buffered σ :=
  if b.ahead.isEmpty then
    let (ahead, place) := s.take chunkSize b.place
    ⟨ahead, place⟩
  else b

/-- Take at most `k` bytes through a buffer. A request of a chunk or more goes past it when no bytes
are at hand. -/
def request (s : Supply σ) (k : Nat) (b : Buffered σ) : List UInt8 × Buffered σ :=
  if b.ahead.isEmpty && chunkSize ≤ k then
    let (bytes, place) := s.take k b.place
    (bytes, ⟨[], place⟩)
  else
    let b := s.fill b
    (b.ahead.take k, ⟨b.ahead.drop k, b.place⟩)

/-- The bytes at hand and those behind them. -/
def remaining (s : Supply σ) (b : Buffered σ) : Nat := b.ahead.length + s.size b.place

/-- A buffer supplies bytes as well. -/
def buffered (s : Supply σ) : Supply (Buffered σ) where
  take := s.request
  size := s.remaining

/-! ## Lines and everything -/

/-- The byte that ends a line. -/
def lineFeed : UInt8 := 0x0A

/-- Take the bytes up to a line feed, and that as well, or else all bytes, in at most `fuel`
chunks. -/
def takeLine (s : Supply σ) : Nat → Buffered σ → List UInt8 × Buffered σ
  | 0, b => ([], b)
  | fuel + 1, b =>
    let b := s.fill b
    let start := b.ahead.takeWhile (· != lineFeed)
    match b.ahead.dropWhile (· != lineFeed) with
    | lf :: rest => (start ++ [lf], ⟨rest, b.place⟩)
    | [] =>
      if start.isEmpty then ([], b)
      else
        let (more, b) := s.takeLine fuel ⟨[], b.place⟩
        (start ++ more, b)

/-- Take all bytes, in at most `fuel` chunks. -/
def takeAll (s : Supply σ) : Nat → Buffered σ → List UInt8 × Buffered σ
  | 0, b => ([], b)
  | fuel + 1, b =>
    let b := s.fill b
    if b.ahead.isEmpty then ([], b)
    else
      let (more, rest) := s.takeAll fuel ⟨[], b.place⟩
      (b.ahead ++ more, rest)

/-- The line at hand. -/
def line (s : Supply σ) (b : Buffered σ) : List UInt8 × Buffered σ :=
  s.takeLine (s.remaining b + 1) b

/-- Everything that is left. -/
def all (s : Supply σ) (b : Buffered σ) : List UInt8 × Buffered σ := s.takeAll (s.remaining b + 1) b

/-! ## Counted bytes -/

/-- How far a read of a number of bytes has got. The bytes are collected in a store that grows as it
fills, and requests ask for what it has room for. -/
structure Collection where
  /-- The number of bytes that are still to be read. -/
  wanted : Nat
  /-- The number of bytes in the store. -/
  size : Nat
  /-- The number of bytes that the store has room for. -/
  room : Nat
  /-- The most bytes that a request asks for. -/
  limit : Nat
deriving DecidableEq, Repr

namespace Collection

/-- The number of bytes that a read asks for first, and that a store grows by at least. -/
def margin : Nat := 32

/-- The room of the smallest store. -/
def leastRoom : Nat := 8

/-- The state after the first request of a read of `n` bytes, which has given `size` of them. -/
def start (n size : Nat) : Collection := ⟨n - size, size, max leastRoom size, chunkSize⟩

/-- A full store grows to twice its room. -/
def grow (c : Collection) : Collection :=
  if c.size == c.room then { c with room := max (2 * c.room) (c.size + margin) } else c

/-- The number of bytes that there is room to ask for. -/
def asked (c : Collection) : Nat := min (c.room - c.size) c.limit

/-- The state after a request that has given `k` bytes. The limit doubles when it has been asked for
and met. -/
def add (c : Collection) (k : Nat) : Collection :=
  { c with
    wanted := c.wanted - k
    size := c.size + k
    limit := if c.limit ≤ c.asked && k == c.asked then 2 * c.limit else c.limit }

end Collection

/-- Go on with a read until it has what it wants or there is nothing left, in at most `fuel`
requests. -/
def collect (s : Supply σ) : Nat → Collection → Buffered σ → List UInt8 × Buffered σ
  | 0, _, b => ([], b)
  | fuel + 1, c, b =>
    let c := c.grow
    if c.wanted == 0 then ([], b)
    else match s.request (min c.asked c.wanted) b with
    | ([], b) => ([], b)
    | (bytes, b) =>
      let (more, b) := s.collect fuel (c.add bytes.length) b
      (bytes ++ more, b)

/-- At most `n` bytes. -/
def count (s : Supply σ) (n : Nat) (b : Buffered σ) : List UInt8 × Buffered σ :=
  if n == 0 then ([], b)
  else
    match s.request (min Collection.margin n) b with
    | ([], b) => ([], b)
    | (bytes, b) =>
      let (more, b) := s.collect (s.remaining b + 1) (.start n bytes.length) b
      (bytes ++ more, b)

end Supply

/-! ## Formats -/

/-- What a read asks for: a number of bytes, all bytes, a line that denotes a number, a line. -/
inductive ReadFormat where
  | count (n : Nat)
  | all
  | number
  | line
deriving DecidableEq, Repr

/-- What a read gives. A line that denotes no number gives nothing, but is read all the same. -/
inductive ReadResult where
  | text (s : String)
  | number (n : Option Float)
  | endOfInput
deriving Repr

namespace ReadFormat

/-- The format of a name; a star may stand before it, and what follows the first letter is
ignored. -/
def ofName? (name : String) : Option ReadFormat :=
  let letters :=
    match name.toList with
    | '*' :: cs => cs
    | cs => cs
  match letters with
  | 'a' :: _ => some all
  | 'l' :: _ => some line
  | 'n' :: _ => some number
  | _ => none

/-- A line without the line feed that ends it. -/
def dropLineFeed (l : List UInt8) : List UInt8 :=
  if l.getLast? == some Supply.lineFeed then l.dropLast else l

end ReadFormat

/-- Read through a buffer. At the end of input there are no lines, nor any number of bytes, not even
zero. -/
def Supply.read {σ : Type} (s : Supply σ) (format : ReadFormat) (b : Buffered σ) :
    Except FileFault ReadResult × Buffered σ :=
  match format with
  | .count n =>
    let (bytes, b) := s.count n b
    let b := if n == 0 then s.fill b else b
    if bytes.isEmpty && (0 < n || b.ahead.isEmpty) then (.ok .endOfInput, b)
    else (.ok (.text (Text.decode bytes)), b)
  | .all =>
    let (bytes, b) := s.all b
    (.ok (.text (Text.decode bytes)), b)
  | .number =>
    let (l, b) := s.line b
    if l.isEmpty then (.ok .endOfInput, b)
    else
      match Text.decodeExact? l with
      | some text => (.ok (.number (Number.ofString? text)), b)
      | none => (.error .invalidText, b)
  | .line =>
    let (l, b) := s.line b
    if l.isEmpty then (.ok .endOfInput, b)
    else (.ok (.text (Text.decode (ReadFormat.dropLineFeed l))), b)

/-! ## Streams -/

/-- A stream of input that is given beforehand, or one on which every read fails. Scripts read it
through a buffer of their own, behind which lies the one that whole lines are taken from. -/
inductive Input where
  | bytes (place : Buffered (Buffered (List UInt8)))
  | failing (text : String)
deriving Repr

namespace Input

/-- The input of which nothing has been taken. -/
def ofBytes (bs : List UInt8) : Input := .bytes ⟨[], ⟨[], bs⟩⟩

/-- Read from a stream. -/
def read (i : Input) (format : ReadFormat) : Except FileFault ReadResult × Input :=
  match i with
  | .bytes place =>
    let (result, place) := Supply.list.buffered.read format place
    (result, .bytes place)
  | .failing text => (.error (.other text), i)

/-- Take everything that is left of a stream. -/
def drain (i : Input) : Except FileFault (List UInt8) × Input :=
  match i with
  | .bytes place =>
    let (taken, place) := Supply.list.buffered.all place
    (.ok taken, .bytes place)
  | .failing text => (.error (.other text), i)

/-- The byte that may stand before a line feed. -/
def carriageReturn : UInt8 := 0x0D

/-- A line without the line feed that ends it and a carriage return before that. -/
def dropLineEnd (l : List UInt8) : List UInt8 :=
  if l.getLast? == some Supply.lineFeed then
    if l.dropLast.getLast? == some carriageReturn then l.dropLast.dropLast else l.dropLast
  else l

/-- Take a line past the bytes that scripts have taken ahead, without what ends it; `none` stands
for the end of input. A line that is no text is a fault. -/
def takeLine (i : Input) : Except FileFault (Option String) × Input :=
  match i with
  | .bytes ⟨ahead, place⟩ =>
    let (l, place) := Supply.list.line place
    let i := .bytes ⟨ahead, place⟩
    if l.isEmpty then (.ok none, i)
    else
      match Text.decodeExact? (dropLineEnd l) with
      | some text => (.ok (some text), i)
      | none => (.error .invalidText, i)
  | .failing text => (.error (.other text), i)

end Input

/-! ## Files -/

/-- An open file: what it may be used for, and the offset of the next transfer behind the bytes that
have been taken ahead. -/
structure OpenFile where
  node : NodeId
  mode : FileSystem.OpenMode
  place : Buffered Nat

/-- What a file handle stands for. -/
inductive FileHandle where
  | standardInput
  | standardOutput
  | standardError
  | opened (file : OpenFile)
  | closed

namespace OpenFile

/-- A file that has just been opened. -/
def ofNode (node : NodeId) (mode : FileSystem.OpenMode) : OpenFile := ⟨node, mode, ⟨[], 0⟩⟩

/-- Read from an open file. -/
def read (files : FileSystem) (f : OpenFile) (format : ReadFormat) :
    Except FileFault ReadResult × OpenFile :=
  if !f.mode.read then (.error .badDescriptor, f)
  else
    match files.content? f.node with
    | none => (.error .isDirectory, f)
    | some content =>
      let (result, place) := (Supply.content content).read format f.place
      (result, { f with place })

/-- Write bytes to an open file, at its offset or at the end of the file. The bytes taken ahead stay
at hand. -/
def write (files : FileSystem) (f : OpenFile) (bytes : ByteArray) :
    Except FileFault (FileSystem × OpenFile) :=
  if bytes.isEmpty then .ok (files, f)
  else if !(f.mode.write || f.mode.append) then .error .badDescriptor
  else
    let offset :=
      if f.mode.append then ((files.content? f.node).map ByteArray.size).getD 0 else f.place.place
    .ok (files.write f.node offset bytes, { f with place := ⟨f.place.ahead, offset + bytes.size⟩ })

end OpenFile

end LuaEmbed
