import LuaEmbed.Library
import LuaEmbed.Proofs.Runs.Reads
import LuaEmbed.Proofs.Tables.Keys
import Mathlib.Data.List.Basic

/-!
# Functions with checks

Host functions count and index in words of 64 bits.  Here the functions that do so with numbers of
scripts are written out once more with every sum, difference and product, signed or not, in the
place where it is formed, and with every range of positions that is cut out.  The program ends, by a
code of its own, at the first result that does not fit into its word and at the first range that is
not within what it is cut out of.
-/

namespace LuaEmbed

open Library

/-! ## Checks -/

namespace Checked

variable (code : Int)

/-- A signed word, which has to be in range. -/
def signed (n : Int) : Run Int :=
  if Number.int64Min ≤ n ∧ n ≤ Number.int64Max then pure n else throw (.exit code)

/-- A word without a sign, which has to be in range. -/
def unsigned (n : Int) : Run Nat :=
  if 0 ≤ n ∧ n < Number.words64 then pure n.toNat else throw (.exit code)

/-- A range of positions, which has to be one of something of the given size. -/
def range (start stop size : Nat) : Run Unit :=
  if start ≤ stop ∧ stop ≤ size then pure () else throw (.exit code)

/-! ## Tables -/

/-- The length of a table, counted up. -/
def lengthFrom (t : Table) : Nat → Nat → Run Nat
  | 0, n => return n
  | fuel + 1, n => do
    let key ← signed code (n + 1)
    if (t.getInt key).isNil then return n
    lengthFrom t fuel (← unsigned code (n + 1))

/-- The length of a table of the heap. -/
def length (r : Ref) : Run Nat := do
  let t ← Heap.readTable r id
  lengthFrom code t t.entries.size 0

/-- Move the values of the keys `pos, …, i` up by one, from the last to the first. -/
def shiftUp (pos : Nat) : Nat → Table → Run Table
  | 0, t => return t
  | i + 1, t => do
    if pos ≤ i + 1 then
      let key ← signed code ((i + 1 : Nat) + 1)
      let left ← unsigned code ((i + 1 : Nat) - 1)
      shiftUp pos i (t.setInt key (t.getInt (left + 1)))
    else return t

/-- Move the values of the `n` keys after `pos` down by one, from the first to the last. -/
def shiftDown : Nat → Nat → Table → Run Table
  | 0, _, t => return t
  | n + 1, pos, t => do
    let key ← signed code (pos + 1)
    shiftDown n (pos + 1) (t.setInt pos (t.getInt key))

/-- The values of the keys from `k` up to `last`, at most `fuel` of them. -/
def valuesUpTo (t : Table) (last : Int) : Nat → Int → Run (List Value)
  | 0, _ => return []
  | fuel + 1, k => do
    if last < k then return []
    if last = k then return [t.getInt k]
    return t.getInt k :: (← valuesUpTo t last fuel (← signed code (k + 1)))

/-- The texts of the values of the keys from `k` up to `last`, at most `fuel` of them, joined. -/
def joinUpTo (t : Table) (separator : String) (last : Int) :
    Nat → Int → String → Run (Except Int String)
  | 0, _, joined => return .ok joined
  | fuel + 1, k, joined => do
    if last < k then return .ok joined
    match (t.getInt k).toText? with
    | some s =>
      joinUpTo t separator last fuel (← signed code (k + 1))
        (joined ++ s ++ if k < last then separator else "")
    | none => return .error k

/-! ## Positions in strings -/

/-- The number of bytes before a position in a string of `n` bytes. -/
def startOf (n : Nat) (i : Int) : Run Nat := do
  if 0 < i then return min (← unsigned code (i - 1)) n
  else if i < 0 then return n - (← unsigned code i.natAbs)
  else return 0

/-- The number of bytes up to and with a position in a string of `n` bytes. -/
def endOf (n : Nat) (j : Int) : Run Nat := do
  if 0 ≤ j then return min j.toNat n
  let before ← signed code (n + j)
  return (← signed code (before + 1)).toNat

/-! ## Functions -/

/-- `select(n, …)`. -/
def select (args : Arguments) : Run (List Value) := do
  let count ← signed code ((args.length : Int) - 1)
  if (args.arg 1).rawEqual (.string "#") then return [.number (Number.ofInt count)]
  let n ← args.check .integer 1
  if n == 0 then Report.argument .runtime 1 .indexOutOfRange
  let start ← signed code (if n < 0 then count + n else n - 1)
  if start < 0 then Report.argument .runtime 1 .indexOutOfRange
  return args.drop (← unsigned code (1 + start))

/-- `unpack(t, i, j)`. A difference that is out of range is one that is too great. -/
def unpack (args : Arguments) : Run (List Value) := do
  let t ← args.check .table 1
  let i ← args.opt .integer 2 1
  let j ← args.opt .integer 3 (← length code t)
  if i ≤ j && (Number.int64Max < j - i || Base.maxUnpacked ≤ j - i) then
    Report.raise .runtime .tooManyToUnpack
  valuesUpTo code (← Heap.readTable t id) j (j + 1 - i).toNat i

/-- One step of `ipairs`. -/
def ipairsStep (args : Arguments) : Run (List Value) := do
  let t ← args.check .table 1
  let i ← signed code ((← args.check .integer 2) + 1)
  let v ← Heap.getInt t i
  return if v.isNil then [.nil] else [.number (Number.ofInt i), v]

/-- Insert a value before the one at `pos`. -/
def insertAt (r : Ref) (pos : Nat) (v : Value) : Run Unit := do
  let n ← length code r
  let shifted ← shiftUp code pos n (← Heap.readTable r id)
  Heap.modifyTable r fun _ ↦ shifted.setInt pos v

/-- `table.insert(t, v)` and `table.insert(t, pos, v)`. -/
def insert (args : Arguments) : Run (List Value) := do
  let t ← args.check .table 1
  let n ← length code t
  if args.length == 2 then Heap.setInt t (← signed code (n + 1)) (args.arg 2)
  else if args.length == 3 then
    let pos ← args.check .integer 2
    if pos < 1 then Report.argument .runtime 2 .positionOutOfBounds
    if n < pos then Heap.setInt t pos (args.arg 3)
    else insertAt code t pos.toNat (args.arg 3)
  else Report.raise .runtime (.wrongArgumentCount "insert")
  return []

/-- Remove the value at `pos`, which is returned, and close the gap. -/
def removeAt (r : Ref) (pos : Nat) : Run Value := do
  let n ← length code r
  let t ← Heap.readTable r id
  let shifted ← shiftDown code (n - pos) pos t
  Heap.modifyTable r fun _ ↦ if pos ≤ n then shifted.setInt n .nil else shifted
  return t.getInt pos

/-- `table.remove(t, pos)`. -/
def remove (args : Arguments) : Run (List Value) := do
  let t ← args.check .table 1
  let n ← length code t
  if n == 0 then return []
  let pos ← args.opt .integer 2 n
  if pos < 1 || n < pos then return []
  return [← removeAt code t pos.toNat]

/-- `table.concat(t, separator, i, j)`. -/
def concat (args : Arguments) : Run (List Value) := do
  let t ← args.check .table 1
  let separator ← args.opt .string 2 ""
  let i ← args.opt .integer 3 1
  let j ← args.opt .integer 4 (← length code t)
  match ← joinUpTo code (← Heap.readTable t id) separator j (j + 1 - i).toNat i "" with
  | .ok s => return [.string s]
  | .error k => Report.raise .runtime (.notConcatenable k)

/-- `string.sub(s, i, j)`. -/
def sub (args : Arguments) : Run (List Value) := do
  let s ← args.check .string 1
  let i ← args.opt .integer 2 1
  let j ← args.opt .integer 3 (-1)
  let start ← startOf code s.utf8ByteSize i
  let stop ← endOf code s.utf8ByteSize j
  if stop ≤ start then return [.string ""]
  range code start stop s.utf8ByteSize
  return [.string (Text.slice s start stop)]

/-- `string.byte(s, i, j)`. -/
def byte (args : Arguments) : Run (List Value) := do
  let s ← args.check .string 1
  let i ← args.opt .integer 2 1
  let j ← args.opt .integer 3 i
  let start ← startOf code s.utf8ByteSize i
  let stop ← endOf code s.utf8ByteSize j
  if stop ≤ start then return []
  range code start stop s.utf8ByteSize
  return (s.toByteArray.extract start stop).data.toList.map fun b ↦ .number (Number.ofNat b.toNat)

/-- `string.find(s, text, init)`. -/
def find (args : Arguments) : Run (List Value) := do
  let s ← args.check .string 1
  let needle := Text.bytes (← args.check .string 2)
  let start ← startOf code s.utf8ByteSize (← args.opt .integer 3 1)
  if s.utf8ByteSize < start then return [.nil]
  range code start s.utf8ByteSize s.utf8ByteSize
  match Strings.findFrom needle ((Text.bytes s).drop start) 0 with
  | some p =>
    let p ← unsigned code (p + start)
    let first ← unsigned code (p + 1)
    let last ← unsigned code (p + needle.length)
    return [.number (Number.ofNat first), .number (Number.ofNat last)]
  | none => return [.nil]

/-- `string.rep(s, n)`. A product that is out of range is one that is too great. -/
def rep (args : Arguments) : Run (List Value) := do
  let s ← args.check .string 1
  let n ← args.check .integer 2
  if n ≤ 0 then return [.string ""]
  let total := s.utf8ByteSize * n.toNat
  if Number.words64 ≤ total || Strings.maxRepeated < total then
    Report.raise .runtime .stringTooLarge
  let _ ← unsigned code total
  return [.string (if s.isEmpty then "" else Strings.repeatAfter s n.toNat "")]

/-- What a host function does, with the checks made in those that count and index with numbers of
scripts. -/
def run (fuel : Nat) (call : Caller) (op : Native) (args : Arguments) : Run (List Value) :=
  match op with
  | .base .select => select code args
  | .base .unpack => unpack code args
  | .base .ipairsStep => ipairsStep code args
  | .table .insert => insert code args
  | .table .remove => remove code args
  | .table .concat => concat code args
  | .string .sub => sub code args
  | .string .byte => byte code args
  | .string .find => find code args
  | .string .rep => rep code args
  | op => op.run fuel call args

end Checked

/-! ## Checks that pass -/

namespace Checked

variable {code : Int} {t : Table} {n m : Nat} {i j k : Int}

theorem signed_of_mem (hl : Number.int64Min ≤ i) (hh : i ≤ Number.int64Max) :
    signed code i = pure i := if_pos ⟨hl, hh⟩

theorem signed_natCast (h : n ≤ Number.int64Max) : signed code n = pure (n : Int) :=
  signed_of_mem (by simp only [Number.int64Min]; omega) h

theorem unsigned_of_mem (hl : 0 ≤ i) (hh : i ≤ Number.int64Max + 1) :
    unsigned code i = pure i.toNat :=
  if_pos ⟨hl, by simp only [Number.int64Max, Number.words64] at *; omega⟩

theorem unsigned_natCast (h : n ≤ Number.int64Max + 1) : unsigned code n = pure n :=
  unsigned_of_mem (Int.natCast_nonneg n) h

theorem range_of_le {start stop size : Nat} (h : start ≤ stop) (hstop : stop ≤ size) :
    range code start stop size = pure () := if_pos ⟨h, hstop⟩

/-! ## Tables within checks -/

theorem lengthFrom_eq {fuel : Nat} (h : n + fuel < Number.int64Max) :
    lengthFrom code t fuel n = pure (t.borderFrom fuel n) := by
  induction fuel generalizing n with
  | zero => rfl
  | succ fuel ih =>
      have hnext : ((n : Int) + 1) = (n + 1 : Nat) := rfl
      have hrest := ih (n := n + 1) (by omega)
      rw [lengthFrom, Table.borderFrom, hnext, signed_natCast (by omega), pure_bind]
      split
      · rfl
      · rw [unsigned_natCast (by omega), pure_bind, hrest]

theorem shiftDown_eq {pos : Nat} (h : pos + n ≤ Number.int64Max) :
    shiftDown code n pos t = pure (t.shiftDown n pos) := by
  induction n generalizing t pos with
  | zero => rfl
  | succ n ih =>
      have hkey : ((pos : Int) + 1) = (pos + 1 : Nat) := rfl
      have hrest (t : Table) : shiftDown code n (pos + 1) t = pure (t.shiftDown n (pos + 1)) :=
        ih (by omega)
      rw [shiftDown, hkey, signed_natCast (by omega), pure_bind, hrest]
      rfl

theorem slice_succ (t : Table) (k : Int) (n : Nat) :
    t.slice k (n + 1) = t.getInt k :: t.slice (k + 1) n := by
  have hrest (i : Nat) : k + ((i + 1 : Nat) : Int) = k + 1 + i := by omega
  simp only [Table.slice, List.range_succ_eq_map, List.map_cons, List.map_map, Function.comp_def,
    Nat.succ_eq_add_one, hrest, Int.ofNat_eq_natCast, Int.natCast_zero, Int.add_zero]

theorem valuesUpTo_eq (hl : Number.int64Min ≤ k) (hh : j ≤ Number.int64Max)
    (hn : n = (j + 1 - k).toNat) : valuesUpTo code t j n k = pure (t.slice k n) := by
  induction n generalizing k with
  | zero => rfl
  | succ n ih =>
      rw [valuesUpTo, slice_succ, if_neg (by omega)]
      split
      · next hlast =>
        obtain rfl : n = 0 := by omega
        rfl
      · rw [signed_of_mem (by omega) (by omega), pure_bind, ih (by omega) (by omega), pure_bind]

theorem joinUpTo_eq {separator joined : String} (hl : Number.int64Min ≤ k)
    (hh : j < Number.int64Max) (hn : n = (j + 1 - k).toNat) :
    joinUpTo code t separator j n k joined =
      pure (Sequence.joinFrom t separator j n k joined) := by
  induction n generalizing k joined with
  | zero => rfl
  | succ n ih =>
      rw [joinUpTo, Sequence.joinFrom, if_neg (by omega)]
      cases (t.getInt k).toText? with
      | some text =>
          dsimp only
          rw [signed_of_mem (by omega) (by omega), pure_bind, ih (by omega) (by omega),
            Number.wrap64_of_mem (by omega) (by omega)]
      | none => rfl

/-- Without a text under one of the keys, the last key does not matter. -/
theorem joinUpTo_eq_of_none {separator joined : String} (hl : Number.int64Min ≤ k)
    (hh : j ≤ Number.int64Max) (hn : n = (j + 1 - k).toNat) (hm : n ≤ m)
    {i : Int} (hki : k ≤ i) (hij : i ≤ j) (hnone : (t.getInt i).toText? = none) :
    joinUpTo code t separator j n k joined =
      pure (Sequence.joinFrom t separator j m k joined) := by
  induction n generalizing k joined m with
  | zero => omega
  | succ n ih =>
      obtain ⟨m, rfl⟩ : ∃ m', m = m' + 1 := ⟨m - 1, by omega⟩
      rw [joinUpTo, Sequence.joinFrom, if_neg (by omega)]
      cases htext : (t.getInt k).toText? with
      | some text =>
          have hne : k ≠ i := by
            rintro rfl
            exact nomatch htext.symm.trans hnone
          dsimp only
          rw [signed_of_mem (by omega) (by omega), pure_bind,
            ih (m := m) (by omega) (by omega) (by omega) (by omega),
            Number.wrap64_of_mem (by omega) (by omega)]
      | none => rfl

/-- Texts are joined as they are without checks unless there are texts under all keys up to the
greatest integer. -/
theorem joinUpTo_joinCount {separator joined : String}
    (hl : Number.int64Min ≤ k) (hk : k ≤ Number.int64Max) (hh : j ≤ Number.int64Max)
    (hlast : j = Number.int64Max →
      ∃ i, k ≤ i ∧ i ≤ Number.int64Max ∧ (t.getInt i).toText? = none) :
    joinUpTo code t separator j (j + 1 - k).toNat k joined =
      pure (Sequence.joinFrom t separator j (Sequence.joinCount k j) k joined) := by
  rw [Sequence.joinCount]
  by_cases hj : j = Number.int64Max
  · obtain ⟨i, hki, hi, hnone⟩ := hlast hj
    rw [if_pos (by simp [hj, hk])]
    refine joinUpTo_eq_of_none hl hh rfl ?_ hki (hj ▸ hi) hnone
    simp only [Number.int64Min, Number.int64Max, Number.words64] at *
    omega
  · rw [if_neg (by simp [hj])]
    exact joinUpTo_eq hl (by omega) rfl

end Checked

end LuaEmbed
