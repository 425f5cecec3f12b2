import LuaEmbed.Number.Binary64
import LuaEmbed.Value
import Std.Data.HashMap

/-! # Tables

A table is a sequence of entries in the order in which their keys were first given a value, together
with an index from keys to places in the sequence. An entry is never removed or moved: a key that is
assigned `nil` keeps its entry, so that a traversal that stands on it can go on. That the index and
the sequence agree is part of the type. -/

namespace LuaEmbed

/-- What keys are compared by: the two zeros are one key, reference values are told apart by their
references. `nil` and NaN are no keys. -/
inductive Key where
  | boolean (b : Bool)
  | number (bits : UInt64)
  | string (s : String)
  | table (r : Ref)
  | function (r : Ref)
  | userdata (r : Ref)
  | thread
deriving DecidableEq, Hashable, Repr

/-- Why a value is no key. -/
inductive KeyFault where
  | nil
  | nan
deriving DecidableEq, Repr

namespace Key

/-- The key that a value is. -/
def ofValue : Value → Except KeyFault Key
  | .nil => .error .nil
  | .number n => if n.isNaN then .error .nan else .ok (.number (if n == 0 then 0 else n.toBits))
  | .boolean b => .ok (.boolean b)
  | .string s => .ok (.string s)
  | .table r => .ok (.table r)
  | .function r => .ok (.function r)
  | .userdata r => .ok (.userdata r)
  | .thread => .ok .thread

end Key

/-- A key as it was first given, what it is compared by, and its value. -/
structure Entry where
  name : Value
  key : Key
  value : Value
  named : Key.ofValue name = .ok key
deriving Repr

/-- A table: entries, an index of their keys, and a metatable. -/
structure Table where
  entries : Array Entry
  index : Std.HashMap Key Nat
  metatable : Option Ref
  /-- The index holds exactly the keys of the entries, each with its place. -/
  sound : ∀ k i, index[k]? = some i ↔ (entries[i]?).map Entry.key = some k

namespace Table

/-- The table without entries. -/
def empty : Table where
  entries := #[]
  index := ∅
  metatable := none
  sound := by intro k i; simp

instance : Inhabited Table := ⟨empty⟩

/-! ## Access by key -/

/-- The entry of a key. -/
def entry? (t : Table) (k : Key) : Option Entry :=
  match t.index[k]? with
  | some i => t.entries[i]?
  | none => none

/-- The value of a key, `nil` if it has none. -/
def getKey (t : Table) (k : Key) : Value :=
  match t.entry? k with
  | some e => e.value
  | none => .nil

/-- Give a new value to the entry at a place. -/
def replace (t : Table) (i : Nat) (v : Value) : Table where
  entries := t.entries.modify i fun e => { e with value := v }
  index := t.index
  metatable := t.metatable
  sound := by
    intro k j
    rw [t.sound k j, Array.getElem?_modify]
    by_cases h : i = j
    · subst h; simp [Function.comp_def]
    · simp [h]

/-- The index with a further key agrees with the sequence with a further entry. -/
theorem sound_append (t : Table) (e : Entry) (h : t.index[e.key]? = none) (k' : Key) (j : Nat) :
    (t.index.insert e.key t.entries.size)[k']? = some j ↔
      ((t.entries.push e)[j]?).map Entry.key = some k' := by
  rw [Std.HashMap.getElem?_insert, Array.getElem?_push]
  by_cases hk : e.key = k'
  · subst hk
    simp only [beq_self_eq_true, if_true, Option.some.injEq]
    by_cases hj : j = t.entries.size
    · simp [hj]
    · have hnone := t.sound e.key j
      rw [h] at hnone
      simp only [reduceCtorEq, false_iff] at hnone
      simp only [hj, if_false]
      constructor
      · intro he; exact absurd he.symm hj
      · intro he; exact absurd he hnone
  · simp only [beq_iff_eq, hk, if_false]
    by_cases hj : j = t.entries.size
    · subst hj
      simp only [if_true, Option.map_some, Option.some.injEq]
      constructor
      · intro he
        have := (t.sound k' t.entries.size).1 he
        simp at this
      · intro he; exact absurd he hk
    · simp only [hj, if_false]
      exact t.sound k' j

/-- Add an entry at the end for a key that has none. -/
def append (t : Table) (e : Entry) (h : t.index[e.key]? = none) : Table :=
  let place := t.entries.size
  ⟨t.entries.push e, t.index.insert e.key place, t.metatable, t.sound_append e h⟩

/-- Give a key a value. A key with an entry keeps its place; without one it gets the last place,
unless the value is `nil`. -/
def setKey (t : Table) (name : Value) (k : Key) (named : Key.ofValue name = .ok k) (v : Value) :
    Table :=
  match h : t.index[k]? with
  | some i => t.replace i v
  | none => if v.isNil then t else t.append ⟨name, k, v, named⟩ h

/-- The value of a key, `nil` for a value that is no key. -/
def get (t : Table) (key : Value) : Value :=
  match Key.ofValue key with
  | .ok k => t.getKey k
  | .error _ => .nil

/-- Give a key a value; `nil` and NaN are refused. -/
def set (t : Table) (key value : Value) : Except KeyFault Table :=
  match named : Key.ofValue key with
  | .ok k => .ok (t.setKey key k named value)
  | .error fault => .error fault

/-- The value of a string key. -/
def getStr (t : Table) (s : String) : Value := t.getKey (.string s)

/-- Give a string key a value. -/
def setStr (t : Table) (s : String) (v : Value) : Table := t.setKey (.string s) (.string s) rfl v

/-- The number that an integer key is. -/
def intKey (n : Int) : Float := Number.ofInt n

/-- The key of an integer. -/
def keyOfInt (n : Int) : Key := .number (let f := intKey n; if f == 0 then 0 else f.toBits)

theorem ofValue_intKey (n : Int) : Key.ofValue (.number (intKey n)) = .ok (keyOfInt n) := by
  rw [Key.ofValue, intKey, if_neg (Bool.eq_false_iff.1 (Number.isNaN_ofInt n))]
  rfl

/-- The value of an integer key. -/
def getInt (t : Table) (n : Int) : Value := t.getKey (keyOfInt n)

/-- Give an integer key a value. -/
def setInt (t : Table) (n : Int) (v : Value) : Table :=
  t.setKey (.number (intKey n)) (keyOfInt n) (ofValue_intKey n) v

/-! ## Traversal -/

/-- The entries that have a value, in order. -/
def toList (t : Table) : List (Value × Value) :=
  t.entries.toList.filterMap fun e => if e.value.isNil then none else some (e.name, e.value)

/-- No entry has a value. -/
def isEmpty (t : Table) : Bool := t.entries.all fun e => e.value.isNil

/-- The first entry with a value among the `n` entries from place `i` on. -/
def firstLive (entries : Array Entry) : Nat → Nat → Option (Value × Value)
  | 0, _ => none
  | n + 1, i =>
    match entries[i]? with
    | some e => if e.value.isNil then firstLive entries n (i + 1) else some (e.name, e.value)
    | none => none

/-- The place at which a traversal goes on after a key; `nil` stands before the first. -/
def placeAfter? (t : Table) (key : Value) : Option Nat :=
  match Key.ofValue key with
  | .ok k => (t.index[k]?).map (· + 1)
  | .error .nil => some 0
  | .error .nan => none

/-- The first entry with a value after a key. It is an error if the key has no entry; `none` is the
end of the traversal. -/
def next? (t : Table) (key : Value) : Except Unit (Option (Value × Value)) :=
  match t.placeAfter? key with
  | some i => .ok (firstLive t.entries (t.entries.size - i) i)
  | none => .error ()

/-! ## Sequences -/

/-- Count the keys `n + 1, n + 2, …` up to the first without value, at most `fuel` of them. -/
def borderFrom (t : Table) : Nat → Nat → Nat
  | 0, n => n
  | fuel + 1, n => if (t.getInt (n + 1)).isNil then n else borderFrom t fuel (n + 1)

/-- The least `n` such that the key `n + 1` has no value. There are no more keys than entries. -/
def length (t : Table) : Nat := t.borderFrom t.entries.size 0

/-- The values of the `n` integer keys from `i` on. -/
def slice (t : Table) (i : Int) (n : Nat) : List Value :=
  (List.range n).map fun k => t.getInt (i + Int.ofNat k)

/-- Give the keys from `i` on values. -/
def setFrom (t : Table) (i : Nat) : List Value → Table
  | [] => t
  | v :: vs => setFrom (t.setInt i v) (i + 1) vs

/-- Move the values of the keys `pos, …, i` up by one, from the last to the first. -/
def shiftUp (t : Table) (pos : Nat) : Nat → Table
  | 0 => t
  | i + 1 =>
    if pos ≤ i + 1 then (t.setInt (i + 2) (t.getInt (i + 1))).shiftUp pos i else t

/-- Insert a value before the one at `pos`. -/
def insert (t : Table) (pos : Nat) (v : Value) : Table := (t.shiftUp pos t.length).setInt pos v

/-- Move the values of the `n` keys after `pos` down by one, from the first to the last. -/
def shiftDown (t : Table) : Nat → Nat → Table
  | 0, _ => t
  | n + 1, pos => (t.setInt pos (t.getInt (pos + 1))).shiftDown n (pos + 1)

/-- Remove the value at `pos`, which is returned, and close the gap. -/
def remove (t : Table) (pos : Nat) : Value × Table :=
  let n := t.length
  let shifted := t.shiftDown (n - pos) pos
  (t.getInt pos, if pos ≤ n then shifted.setInt n .nil else shifted)

/-! ## Lemmas -/

@[simp] theorem entries_empty : empty.entries = #[] := rfl

theorem entry?_eq_some_iff {t : Table} {k : Key} {e : Entry} :
    t.entry? k = some e ↔ e.key = k ∧ e ∈ t.entries := by
  unfold entry?
  constructor
  · intro h
    split at h
    · rename_i i hi
      have := (t.sound k i).1 hi
      rw [h] at this
      exact ⟨by simpa using this, Array.mem_of_getElem? h⟩
    · simp at h
  · rintro ⟨rfl, h⟩
    obtain ⟨i, hi, he⟩ := Array.mem_iff_getElem.1 h
    have hi' : t.entries[i]? = some e := by simp [hi, he]
    have : t.index[e.key]? = some i := (t.sound e.key i).2 (by simp [hi'])
    rw [this]; exact hi'

@[simp] theorem metatable_replace (t : Table) (i : Nat) (v : Value) :
    (t.replace i v).metatable = t.metatable := rfl

@[simp] theorem metatable_setKey (t : Table) (name : Value) (k : Key)
    (named : Key.ofValue name = .ok k) (v : Value) :
    (t.setKey name k named v).metatable = t.metatable := by
  unfold setKey
  split
  · rfl
  · split <;> rfl

end Table

end LuaEmbed
