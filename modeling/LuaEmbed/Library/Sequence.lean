import LuaEmbed.Machine.Arguments
import LuaEmbed.Machine.Module
import LuaEmbed.Machine.Operation

/-! # The table library

Functions on the sequence part of a table: the values of the keys from 1 to its length. -/

namespace LuaEmbed.Library.Sequence

/-- The functions and the names they are installed under. -/
def functions : Module.FunctionSet :=
  [("insert", .table .insert), ("remove", .table .remove), ("concat", .table .concat),
    ("sort", .table .sort), ("maxn", .table .maxn)]

/-- Install the library. -/
def openLibrary : Run Unit := do
  let _ ← Module.register "table" functions

/-- `table.insert(t, v)` and `table.insert(t, pos, v)`. -/
def insert (args : Arguments) : Run (List Value) := do
  let t ← args.check .table 1
  let n ← Heap.length t
  if args.length == 2 then Heap.setInt t (n + 1) (args.arg 2)
  else if args.length == 3 then
    let pos ← args.check .integer 2
    if pos < 1 then Report.argument .runtime 2 .positionOutOfBounds
    if n < pos then Heap.setInt t pos (args.arg 3)
    else Heap.modifyTable t (·.insert pos.toNat (args.arg 3))
  else Report.raise .runtime (.wrongArgumentCount "insert")
  return []

/-- `table.remove(t, pos)`. -/
def remove (args : Arguments) : Run (List Value) := do
  let t ← args.check .table 1
  let n ← Heap.length t
  if n == 0 then return []
  let pos ← args.opt .integer 2 n
  if pos < 1 || n < pos then return []
  let removed ← Heap.readTable t fun t => (t.remove pos.toNat).1
  Heap.modifyTable t fun t => (t.remove pos.toNat).2
  return [removed]

/-- The texts of the values of at most `count` keys from `k` up to `last`, joined. A separator
stands after each but that of `last` itself. The index of a value without text is the other
outcome. -/
def joinFrom (t : Table) (separator : String) (last : Int) :
    Nat → Int → String → Except Int String
  | 0, _, joined => .ok joined
  | count + 1, k, joined =>
    match (t.getInt k).toText? with
    | some s =>
      joinFrom t separator last count (Number.wrap64 (k + 1))
        (joined ++ s ++ if k < last then separator else "")
    | none => .error k

/-- The number of indices from `i` up to `j` that are joined. Behind the greatest integer comes the
least one, so that there is no end to them if `j` is the greatest; then the count is one that no
table fills. -/
def joinCount (i j : Int) : Nat :=
  if i ≤ j && j == Number.int64Max then Number.words64 * Number.words64 else (j + 1 - i).toNat

/-- `table.concat(t, separator, i, j)`. -/
def concat (args : Arguments) : Run (List Value) := do
  let t ← args.check .table 1
  let separator ← args.opt .string 2 ""
  let i ← args.opt .integer 3 1
  let j ← args.opt .integer 4 (← Heap.length t)
  match ← Heap.readTable t (joinFrom · separator j (joinCount i j) i "") with
  | .ok s => return [.string s]
  | .error k => Report.raise .runtime (.notConcatenable k)

/-! ## Sorting -/

/-- Put a value into a list in descending order, behind all values that it does not come before. -/
def place (before : Value → Value → Run Bool) (v : Value) : List Value → Run (List Value)
  | [] => return [v]
  | w :: ws => do
    if ← before v w then return w :: (← place before v ws) else return v :: w :: ws

/-- Put values, one after the other, into a list in descending order. -/
def placeAll (before : Value → Value → Run Bool) : List Value → List Value → Run (List Value)
  | [], sorted => return sorted
  | v :: vs, sorted => do placeAll before vs (← place before v sorted)

/-- The order that a comparison function gives, or the one of the language. -/
def order (call : Caller) (compare : Option Ref) (a b : Value) : Run Bool := do
  match compare with
  | some f => return ((← call (.function f) [a, b] none).headD .nil).isTruthy
  | none => Operation.lessThan call a b

/-- `table.sort(t, compare)`: nothing is stored before all comparisons are done. -/
def sort (call : Caller) (args : Arguments) : Run (List Value) := do
  let t ← args.check .table 1
  let compare ← args.opt? .function 2
  let n ← Heap.length t
  if n ≤ 1 then return []
  let values ← Heap.readTable t (·.slice 1 n)
  let sorted ← placeAll (order call compare) values []
  Heap.modifyTable t (·.setFrom 1 sorted.reverse)
  return []

/-- `table.maxn(t)`: the greatest positive number among the keys, or 0. -/
def maxn (args : Arguments) : Run (List Value) := do
  let t ← args.check .table 1
  let greatest ← Heap.readTable t fun t =>
    t.toList.foldl (fun (m : Float) (k, _) =>
      match k with
      | .number n => if m < n then n else m
      | _ => m) 0
  return [.number greatest]

/-- What each function does. -/
def run (call : Caller) (f : TableFunction) (args : Arguments) : Run (List Value) :=
  match f with
  | .insert => insert args
  | .remove => remove args
  | .concat => concat args
  | .sort => sort call args
  | .maxn => maxn args

end LuaEmbed.Library.Sequence
