import LuaEmbed.Table

/-!
# Keys of tables

What a table holds under a key after another has been given a value: the new value under that key,
and what it held before under any other.  The operations on sequences give values to integers only,
so they leave every string key as it is.
-/

namespace LuaEmbed

/-! ## Values that are one key -/

/-- The value names a key: it is neither `nil` nor NaN. -/
def Value.isKey : Value → Bool
  | .nil => false
  | .number n => !n.isNaN
  | _ => true

namespace Key

variable {a : Value} {k : Key}

theorem ofValue_of_isKey (h : a.isKey = true) : ∃ k, ofValue a = .ok k := by
  cases a with
  | nil => exact nomatch h
  | number n => exact ⟨_, if_neg (by simpa [Value.isKey] using h)⟩
  | _ => exact ⟨_, rfl⟩

theorem isKey_of_ofValue (h : ofValue a = .ok k) : a.isKey = true := by
  cases a with
  | nil => cases h
  | number n =>
      simp only [ofValue] at h
      split at h
      · cases h
      · next hn => simpa [Value.isKey] using hn
  | _ => rfl

theorem ofValue_eq_error (h : a.isKey = false) : ∃ fault, ofValue a = .error fault := by
  cases hk : ofValue a with
  | error fault => exact ⟨fault, rfl⟩
  | ok k => exact nomatch h.symm.trans (isKey_of_ofValue hk)

theorem ofValue_number {x : Float} (hx : x.isNaN = false) :
    ofValue (.number x) = .ok (.number (if x == 0 then 0 else x.toBits)) :=
  if_neg (Bool.eq_false_iff.1 hx)

end Key

/-- Only a string is named by a string key. -/
theorem Key.eq_string_of_ofValue {v : Value} {s : String} (h : Key.ofValue v = .ok (.string s)) :
    v = .string s := by
  cases v with
  | string s' => simpa [Key.ofValue] using h
  | number n =>
      simp only [Key.ofValue] at h
      split at h <;> simp at h
  | _ => simp [Key.ofValue] at h

namespace Table

variable {t : Table} {name : Value} {k k' : Key} {named : Key.ofValue name = .ok k} {v : Value}

theorem getKey_of_index_none (h : t.index[k]? = none) : t.getKey k = .nil := by
  rw [getKey, entry?, h]

theorem getKey_replace (t : Table) (i : Nat) (v : Value) (k : Key) :
    (t.replace i v).getKey k = if t.index[k]? = some i then v else t.getKey k := by
  have hindex : (t.replace i v).index[k]? = t.index[k]? := rfl
  have hentries (j : Nat) :
      (t.replace i v).entries[j]? = (t.entries.modify i fun e ↦ { e with value := v })[j]? := rfl
  rw [getKey, entry?, getKey, entry?, hindex]
  cases hj : t.index[k]? with
  | none => simp
  | some j =>
      simp only [Option.some.injEq]
      rw [hentries, Array.getElem?_modify]
      by_cases h : j = i
      · subst h
        obtain ⟨e, he, _⟩ := Option.map_eq_some_iff.1 ((t.sound k j).1 hj)
        simp [he]
      · rw [if_neg h, if_neg (Ne.symm h)]

/-- An entry that gets the value it has stays as it is. -/
theorem replace_self {i : Nat} (h : ∀ e, t.entries[i]? = some e → e.value = v) :
    t.replace i v = t := by
  have hentries : t.entries.modify i (fun e ↦ { e with value := v }) = t.entries := by
    refine Array.ext_getElem? fun j ↦ ?_
    rw [Array.getElem?_modify]
    split
    · next hij =>
      subst hij
      cases he : t.entries[i]? with
      | none => rfl
      | some e =>
          cases h e he
          rfl
    · rfl
  unfold replace
  congr

theorem getKey_append {e : Entry} (h : t.index[e.key]? = none) (k : Key) :
    (t.append e h).getKey k = if e.key = k then e.value else t.getKey k := by
  have hentries : (t.append e h).entries = t.entries.push e := rfl
  have hindex : (t.append e h).index[k]? = (t.index.insert e.key t.entries.size)[k]? := rfl
  rw [getKey, entry?, hindex, Std.HashMap.getElem?_insert]
  by_cases hk : e.key = k
  · simp [hk, hentries]
  · simp only [beq_iff_eq, hk, if_false]
    rw [getKey, entry?]
    cases hi : t.index[k]? with
    | none => rfl
    | some i =>
        obtain ⟨e', he, _⟩ := Option.map_eq_some_iff.1 ((t.sound k i).1 hi)
        have hlt := (Array.getElem?_eq_some_iff.1 he).1
        simp only [hentries, Array.getElem?_push_lt hlt, Array.getElem?_eq_getElem hlt]

/-- A key has the value that it was given, and all others have the value that they had. -/
theorem getKey_setKey (t : Table) (name : Value) (k : Key) (named : Key.ofValue name = .ok k)
    (v : Value) (k' : Key) :
    (t.setKey name k named v).getKey k' = if k = k' then v else t.getKey k' := by
  unfold setKey
  split
  · next i hi =>
    rw [getKey_replace]
    by_cases h : k = k'
    · subst h
      rw [if_pos hi, if_pos rfl]
    · have hne : t.index[k']? ≠ some i := fun h' ↦ by
        have := ((t.sound k i).1 hi).symm.trans ((t.sound k' i).1 h')
        exact h (Option.some.inj this)
      rw [if_neg hne, if_neg h]
  · next hnone =>
    split
    · next hv =>
      -- Without an entry the key has no value, and it is given none.
      by_cases h : k = k'
      · subst h
        rw [if_pos rfl, getKey_of_index_none hnone, Value.isNil_iff.1 hv]
      · rw [if_neg h]
    · exact getKey_append hnone k'

/-- A key that gets the value it has leaves the table as it is. -/
theorem setKey_self (h : t.getKey k = v) (hv : v ≠ .nil) : t.setKey name k named v = t := by
  unfold setKey
  split
  · next i hi =>
    refine replace_self fun e he ↦ ?_
    rw [← h, getKey, entry?, hi]
    simp only [he]
  · next hnone => exact (hv (h ▸ getKey_of_index_none hnone)).elim

/-! ## String keys -/

@[simp] theorem getStr_empty (s : String) : Table.empty.getStr s = .nil :=
  getKey_of_index_none (by simp [empty])

theorem getStr_setKey_of_ne (t : Table) {s : String} (h : k ≠ .string s) :
    (t.setKey name k named v).getStr s = t.getStr s := by
  rw [getStr, getKey_setKey, if_neg h, getStr]

theorem getStr_setStr (t : Table) (s : String) (v : Value) (s' : String) :
    (t.setStr s v).getStr s' = if s = s' then v else t.getStr s' :=
  (getKey_setKey t (.string s) (.string s) rfl v (.string s')).trans <| by
    simp only [Key.string.injEq, getStr]

/-- Keys are given values, one after the other: the last value of a key counts. -/
theorem getStr_foldl_setStr (t : Table) (fields : List (String × Value)) (s : String) :
    (fields.foldl (fun t (k, v) ↦ t.setStr k v) t).getStr s =
      (fields.reverse.lookup s).getD (t.getStr s) := by
  induction fields generalizing t with
  | nil => rfl
  | cons f fields ih =>
      obtain ⟨k, v⟩ := f
      rw [List.foldl_cons, ih, List.reverse_cons, List.lookup_append, getStr_setStr]
      cases fields.reverse.lookup s with
      | some v => rfl
      | none =>
          rw [Option.none_or, Option.getD_none]
          by_cases h : s = k
          · rw [h, List.lookup_cons_self, Option.getD_some, if_pos rfl]
          · rw [List.lookup_cons, beq_eq_false_iff_ne.2 h, if_neg (Ne.symm h), List.lookup_nil]
            rfl

theorem setStr_self {s : String} (h : t.getStr s = v) (hv : v ≠ .nil) : t.setStr s v = t :=
  setKey_self h hv

@[simp] theorem getStr_setInt (t : Table) (i : Int) (v : Value) (s : String) :
    (t.setInt i v).getStr s = t.getStr s :=
  getStr_setKey_of_ne t fun h ↦ nomatch h

@[simp] theorem getStr_setFrom (t : Table) (i : Nat) (vs : List Value) (s : String) :
    (t.setFrom i vs).getStr s = t.getStr s := by
  induction vs generalizing t i with
  | nil => rfl
  | cons v vs ih => rw [setFrom, ih, getStr_setInt]

@[simp] theorem getStr_shiftUp (t : Table) (pos i : Nat) (s : String) :
    (t.shiftUp pos i).getStr s = t.getStr s := by
  induction i generalizing t with
  | zero => rfl
  | succ i ih =>
      unfold shiftUp
      split
      · rw [ih, getStr_setInt]
      · rfl

@[simp] theorem getStr_insert (t : Table) (pos : Nat) (v : Value) (s : String) :
    (t.insert pos v).getStr s = t.getStr s := by
  rw [insert, getStr_setInt, getStr_shiftUp]

@[simp] theorem getStr_shiftDown (t : Table) (n pos : Nat) (s : String) :
    (t.shiftDown n pos).getStr s = t.getStr s := by
  induction n generalizing t pos with
  | zero => rfl
  | succ n ih => rw [shiftDown, ih, getStr_setInt]

@[simp] theorem getStr_remove (t : Table) (pos : Nat) (s : String) :
    (t.remove pos).2.getStr s = t.getStr s := by
  unfold remove
  dsimp only
  split <;> simp

/-! ## Metatables -/

@[simp] theorem metatable_setInt (t : Table) (i : Int) (v : Value) :
    (t.setInt i v).metatable = t.metatable := metatable_setKey ..

@[simp] theorem metatable_setStr (t : Table) (s : String) (v : Value) :
    (t.setStr s v).metatable = t.metatable := metatable_setKey ..

@[simp] theorem metatable_setFrom (t : Table) (i : Nat) (vs : List Value) :
    (t.setFrom i vs).metatable = t.metatable := by
  induction vs generalizing t i with
  | nil => rfl
  | cons v vs ih => rw [setFrom, ih, metatable_setInt]

@[simp] theorem metatable_shiftUp (t : Table) (pos i : Nat) :
    (t.shiftUp pos i).metatable = t.metatable := by
  induction i generalizing t with
  | zero => rfl
  | succ i ih =>
      unfold shiftUp
      split
      · rw [ih, metatable_setInt]
      · rfl

@[simp] theorem metatable_insert (t : Table) (pos : Nat) (v : Value) :
    (t.insert pos v).metatable = t.metatable := by
  rw [insert, metatable_setInt, metatable_shiftUp]

@[simp] theorem metatable_shiftDown (t : Table) (n pos : Nat) :
    (t.shiftDown n pos).metatable = t.metatable := by
  induction n generalizing t pos with
  | zero => rfl
  | succ n ih => rw [shiftDown, ih, metatable_setInt]

@[simp] theorem metatable_remove (t : Table) (pos : Nat) :
    (t.remove pos).2.metatable = t.metatable := by
  unfold remove
  dsimp only
  split <;> simp

/-- String keys of a table are given values, one after the other. -/
theorem metatable_foldl_setStr (t : Table) (fields : List (String × Value)) :
    (fields.foldl (fun t (k, v) ↦ t.setStr k v) t).metatable = t.metatable := by
  induction fields generalizing t with
  | nil => rfl
  | cons f fields ih => rw [List.foldl_cons, ih, metatable_setStr]

end Table

end LuaEmbed
