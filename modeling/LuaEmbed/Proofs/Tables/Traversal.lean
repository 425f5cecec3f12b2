import LuaEmbed.Proofs.Numbers.Order
import LuaEmbed.Proofs.Tables.Keys

/-!
# Traversals of tables

A traversal asks for the entry after `nil`, then for the one after the key it was given, and so on,
up to the end.  Between its calls keys that have an entry may be given other values, or none.  No
such assignment moves an entry, so a place in the sequence of entries says how far a traversal has
come, and the entries before that place are the ones that its cursor has reached.

Two values are the same key if they are raw-equal.
-/

namespace LuaEmbed

/-! ## Raw equality -/

namespace Key

theorem number_beq_iff {x y : Float} (hx : x.isNaN = false) :
    (x == y) = true ↔ ofValue (.number x) = ofValue (.number y) := by
  rw [ofValue_number hx]
  cases hy : y.isNaN with
  | true =>
      have hnan : y = Float.nan := by simpa using hy
      simp [ofValue, hnan]
  | false =>
      rw [ofValue_number hy, Number.beq_iff hx hy]
      simp only [Except.ok.injEq, number.injEq]
      constructor
      · rintro (rfl | ⟨hx, hy⟩)
        · rfl
        · rw [if_pos hx, if_pos hy]
      · intro h
        split at h
        · next hx =>
          refine .inr ⟨hx, ?_⟩
          split at h
          · assumption
          · exact Number.beq_zero_iff.2 (.inl (Float.toBits_inj.1 h.symm))
        · next hx =>
          split at h
          · exact absurd (Number.beq_zero_iff.2 (.inl (Float.toBits_inj.1 h))) hx
          · exact .inl (Float.toBits_inj.1 h)

/-- What a key is raw-equal to is what names the same key. -/
theorem rawEqual_iff {a b : Value} (ha : a.isKey = true) :
    a.rawEqual b = true ↔ ofValue a = ofValue b := by
  cases a with
  | nil => exact nomatch ha
  | number x =>
      have hx : x.isNaN = false := by simpa [Value.isKey] using ha
      cases b with
      | number y => exact number_beq_iff hx
      | _ =>
        rw [ofValue_number hx]
        simp [Value.rawEqual, ofValue]
  | _ =>
      cases b with
      | number y =>
        simp only [Value.rawEqual, ofValue, Bool.false_eq_true, false_iff]
        split <;> simp
      | _ => simp [Value.rawEqual, ofValue]

end Key

namespace Table

variable {t t' : Table} {e : Entry} {key v : Value} {i p : Nat}

/-! ## Names and places -/

/-- The keys of all entries, as they were first given, in order. -/
def names (t : Table) : List Value := t.entries.toList.map Entry.name

/-- The key has an entry, whether or not it has a value. -/
def HasEntry (t : Table) (key : Value) : Prop := ∃ e ∈ t.entries, Key.ofValue key = .ok e.key

@[simp] theorem length_names (t : Table) : t.names.length = t.entries.size := by simp [names]

theorem getElem?_names (t : Table) (i : Nat) : t.names[i]? = (t.entries[i]?).map Entry.name := by
  simp [names]

theorem getElem?_names_of_entry (h : t.entries[i]? = some e) : t.names[i]? = some e.name := by
  rw [getElem?_names, h]
  rfl

theorem entry_of_getElem?_names {name : Value} (h : t.names[i]? = some name) :
    ∃ e, t.entries[i]? = some e ∧ e.name = name := by
  rw [getElem?_names] at h
  exact Option.map_eq_some_iff.1 h

/-- The index finds the place of a name by the key that the name is. -/
theorem index_eq_some_iff {k : Key} :
    t.index[k]? = some i ↔ ∃ name, t.names[i]? = some name ∧ Key.ofValue name = .ok k := by
  rw [t.sound, getElem?_names]
  cases t.entries[i]? with
  | none => simp
  | some e => simp [e.named]

/-- Tables with the same names have the same places. -/
theorem index_congr (h : t'.names = t.names) (k : Key) : t'.index[k]? = t.index[k]? := by
  refine Option.ext fun i ↦ ?_
  rw [index_eq_some_iff, index_eq_some_iff, h]

theorem placeAfter?_congr (h : t'.names = t.names) (key : Value) :
    t'.placeAfter? key = t.placeAfter? key := by
  unfold placeAfter?
  split
  · rw [index_congr h]
  · rfl
  · rfl

theorem index_of_entry (h : t.entries[i]? = some e) : t.index[e.key]? = some i :=
  index_eq_some_iff.2 ⟨e.name, getElem?_names_of_entry h, e.named⟩

theorem placeAfter?_of_entry (h : t.entries[i]? = some e) :
    t.placeAfter? e.name = some (i + 1) := by
  unfold placeAfter?
  rw [e.named]
  dsimp only
  rw [index_of_entry h]
  rfl

theorem get_of_entry (h : t.entries[i]? = some e) : t.get e.name = e.value := by
  unfold get getKey entry?
  rw [e.named]
  dsimp only
  rw [index_of_entry h]
  dsimp only
  rw [h]

theorem set_of_entry (h : t.entries[i]? = some e) (hkey : Key.ofValue key = .ok e.key)
    (v : Value) : t.set key v = .ok (t.replace i v) := by
  unfold set
  split
  · next k named =>
    obtain rfl := Except.ok.inj (named.symm.trans hkey)
    unfold setKey
    split
    · next hindex =>
      obtain rfl := Option.some.inj (hindex.symm.trans (index_of_entry h))
      rfl
    · next hnone => exact nomatch hnone.symm.trans (index_of_entry h)
  · next named => exact nomatch named.symm.trans hkey

/-- No key has two entries. -/
theorem names_keys_nodup (t : Table) : (t.names.map Key.ofValue).Nodup := by
  refine List.pairwise_iff_getElem.2 fun i j hi hj hij heq ↦ ?_
  have heq : (t.names.map Key.ofValue)[i]? = (t.names.map Key.ofValue)[j]? := by
    rw [List.getElem?_eq_getElem hi, List.getElem?_eq_getElem hj, heq]
  simp only [List.length_map, length_names] at hi hj
  obtain ⟨e, he⟩ : ∃ e, t.entries[i]? = some e := ⟨_, Array.getElem?_eq_getElem hi⟩
  obtain ⟨f, hf⟩ : ∃ f, t.entries[j]? = some f := ⟨_, Array.getElem?_eq_getElem hj⟩
  have hkeys : (Except.ok e.key : Except KeyFault Key) = .ok f.key := by
    rw [List.getElem?_map, List.getElem?_map, getElem?_names_of_entry he,
      getElem?_names_of_entry hf, Option.map_some, Option.map_some, Option.some.injEq, e.named,
      f.named] at heq
    exact heq
  have hindex := index_of_entry he
  rw [Except.ok.inj hkeys, index_of_entry hf] at hindex
  exact Nat.ne_of_gt hij (Option.some.inj hindex)

theorem index_of_name {name : Value} (hi : t.names[i]? = some name) {j : Nat}
    (hj : t.names[j]? = some name) : i = j := by
  obtain ⟨e, he, rfl⟩ := entry_of_getElem?_names hi
  have hsome := index_eq_some_iff.2 ⟨e.name, hj, e.named⟩
  rw [index_of_entry he, Option.some.injEq] at hsome
  exact hsome

/-! ## Listed entries -/

theorem mem_toList {name : Value} :
    (name, v) ∈ t.toList ↔ ∃ e ∈ t.entries, e.name = name ∧ e.value = v ∧ v ≠ .nil := by
  simp only [toList, List.mem_filterMap, Array.mem_toList_iff, Option.ite_none_left_eq_some,
    Option.some.injEq, Prod.mk.injEq, Value.isNil_iff]
  constructor
  · rintro ⟨e, he, hvalue, rfl, rfl⟩
    exact ⟨e, he, rfl, rfl, hvalue⟩
  · rintro ⟨e, he, rfl, rfl, hvalue⟩
    exact ⟨e, he, hvalue, rfl, rfl⟩

theorem toList_sublist_names (t : Table) : (t.toList.map Prod.fst).Sublist t.names := by
  rw [toList, names]
  induction t.entries.toList with
  | nil => exact .slnil
  | cons e es ih =>
      rw [List.filterMap_cons]
      split
      · exact ih.cons _
      · next p hp =>
        split at hp
        · exact nomatch hp
        · cases hp
          exact ih.cons_cons e.name

theorem names_isKey (t : Table) : ∀ name ∈ t.names, name.isKey = true := by
  intro name hname
  obtain ⟨i, hi⟩ := List.mem_iff_getElem?.1 hname
  obtain ⟨e, -, rfl⟩ := entry_of_getElem?_names hi
  exact Key.isKey_of_ofValue e.named

/-- No two entries have raw-equal keys. -/
theorem names_pairwise_rawEqual (t : Table) :
    t.names.Pairwise fun a b ↦ a.rawEqual b = false := by
  have hnodup := List.pairwise_map.1 t.names_keys_nodup
  refine hnodup.imp_of_mem fun ha _ hne ↦ Bool.eq_false_iff.2 fun heq ↦ ?_
  exact hne ((Key.rawEqual_iff (t.names_isKey _ ha)).1 heq)

/-- A key with a value is listed with it, under the name that it was first given. -/
theorem exists_mem_toList_iff :
    (∃ name, (name, v) ∈ t.toList ∧ name.rawEqual key = true) ↔ v ≠ .nil ∧ t.get key = v := by
  constructor
  · rintro ⟨name, hmem, heq⟩
    obtain ⟨e, he, rfl, rfl, hvalue⟩ := mem_toList.1 hmem
    have hkey := (Key.rawEqual_iff (Key.isKey_of_ofValue e.named)).1 heq
    obtain ⟨i, hi, rfl⟩ := Array.mem_iff_getElem.1 he
    have hget := get_of_entry (Array.getElem?_eq_getElem hi)
    refine ⟨hvalue, ?_⟩
    rw [← hget, get, get, hkey]
  · rintro ⟨hvalue, hget⟩
    unfold get at hget
    split at hget
    · next k hk =>
      unfold getKey at hget
      split at hget
      · next e he =>
        obtain ⟨rfl, hmem⟩ := entry?_eq_some_iff.1 he
        refine ⟨e.name, mem_toList.2 ⟨e, hmem, rfl, hget, hvalue⟩, ?_⟩
        exact (Key.rawEqual_iff (Key.isKey_of_ofValue e.named)).2 (e.named.trans hk.symm)
      · exact (hvalue hget.symm).elim
    · exact (hvalue hget.symm).elim

/-! ## Assignments -/

theorem names_replace (t : Table) (i : Nat) (v : Value) : (t.replace i v).names = t.names := by
  refine List.ext_getElem? fun j ↦ ?_
  rw [getElem?_names, getElem?_names]
  change ((t.entries.modify i _)[j]?).map Entry.name = _
  rw [Array.getElem?_modify]
  split
  · subst_vars
    simp [Function.comp_def]
  · rfl

/-- An assignment to a key that has an entry leaves every entry at its place. -/
theorem names_set (hentry : t.HasEntry key) (hset : t.set key v = .ok t') : t'.names = t.names := by
  obtain ⟨e, he, hkey⟩ := hentry
  obtain ⟨i, hi, he⟩ := Array.mem_iff_getElem.1 he
  have hentry : t.entries[i]? = some e := by rw [Array.getElem?_eq_getElem hi, he]
  obtain rfl := Except.ok.inj (hset.symm.trans (set_of_entry hentry hkey v))
  exact names_replace t i v

/-- A key gets an entry, the last one, when it is given a value without having one. -/
theorem names_setKey_cases (t : Table) {name : Value} {k : Key} (h : Key.ofValue name = .ok k)
    (v : Value) :
    (t.index[k]? = none ∧ v ≠ .nil ∧ (t.setKey name k h v).names = t.names ++ [name]) ∨
      ((t.index[k]? = none → v = .nil) ∧ (t.setKey name k h v).names = t.names) := by
  unfold setKey
  split
  · next hindex => exact .inr ⟨fun hnone ↦ (nomatch hnone.symm.trans hindex), names_replace ..⟩
  · next hindex =>
    split
    · next hnil => exact .inr ⟨fun _ ↦ Value.isNil_iff.1 hnil, rfl⟩
    · next hvalue =>
      refine .inl ⟨hindex, fun hnil ↦ hvalue (Value.isNil_iff.2 hnil), ?_⟩
      simp [names, append]

/-! ## One step -/

theorem firstLive_eq_none {entries : Array Entry} {n : Nat} (h : firstLive entries n p = none)
    (hp : p ≤ i) (hn : i < p + n) (he : entries[i]? = some e) : e.value = .nil := by
  induction n generalizing p with
  | zero => omega
  | succ n ih =>
      obtain ⟨f, hf⟩ : ∃ f, entries[p]? = some f := by
        have := (Array.getElem?_eq_some_iff.1 he).1
        exact ⟨_, Array.getElem?_eq_getElem (by omega)⟩
      rw [firstLive, hf] at h
      dsimp only at h
      split at h
      · next hnil =>
        rcases Nat.eq_or_lt_of_le hp with rfl | hlt
        · obtain rfl := Option.some.inj (hf.symm.trans he)
          exact Value.isNil_iff.1 hnil
        · exact ih h hlt (by omega)
      · exact nomatch h

theorem firstLive_eq_some {entries : Array Entry} {n : Nat} {r : Value × Value}
    (h : firstLive entries n p = some r) :
    ∃ q e, p ≤ q ∧ entries[q]? = some e ∧ r = (e.name, e.value) ∧ e.value ≠ .nil ∧
      ∀ i f, p ≤ i → i < q → entries[i]? = some f → f.value = .nil := by
  induction n generalizing p with
  | zero => exact nomatch h
  | succ n ih =>
      rw [firstLive] at h
      split at h
      · next e he =>
        split at h
        · next hnil =>
          obtain ⟨q, f, hle, hf, hr, hvalue, hbefore⟩ := ih h
          refine ⟨q, f, Nat.le_of_succ_le hle, hf, hr, hvalue, fun i g hpi hiq hg ↦ ?_⟩
          rcases Nat.eq_or_lt_of_le hpi with rfl | hlt
          · obtain rfl := Option.some.inj (he.symm.trans hg)
            exact Value.isNil_iff.1 hnil
          · exact hbefore i g hlt hiq hg
        · next hvalue =>
          refine ⟨p, e, Nat.le_refl p, he, (Option.some.inj h).symm, ?_, fun i f h₁ h₂ ↦ ?_⟩
          · exact fun hnil ↦ hvalue (Value.isNil_iff.2 hnil)
          · omega
      · exact nomatch h

/-- A call of a traversal: the table at that moment, and the entry that the call gave, if any. -/
structure Call where
  table : Table
  result : Option (Value × Value)

namespace Call

/-- The number of entries that the cursor has reached after a call. -/
def passed (c : Call) : Nat :=
  match c.result with
  | some (key, _) => (c.table.placeAfter? key).getD 0
  | none => c.table.entries.size

/-- The call goes on from a place `p`. -/
def StartsAt (c : Call) (p : Nat) : Prop :=
  ∃ key, c.table.placeAfter? key = some p ∧ c.table.next? key = .ok c.result

variable {c : Call}

/-- A call stops behind the entry that it gives, or behind the last one.  Of the entries in between
it gives the one that has a value, with that value. -/
theorem StartsAt.cases (h : c.StartsAt p) :
    (c.result = none ∧ c.passed = c.table.entries.size ∧
      ∀ i e, p ≤ i → c.table.entries[i]? = some e → e.value = .nil) ∨
    ∃ q e, p ≤ q ∧ c.table.entries[q]? = some e ∧ c.result = some (e.name, e.value) ∧
      c.passed = q + 1 ∧ e.value ≠ .nil ∧
      ∀ i f, p ≤ i → i < q → c.table.entries[i]? = some f → f.value = .nil := by
  obtain ⟨key, hplace, hnext⟩ := h
  unfold next? at hnext
  rw [hplace] at hnext
  have hlive := Except.ok.inj hnext
  cases hresult : c.result with
  | none =>
      refine .inl ⟨rfl, by rw [passed, hresult], fun i e hpi he ↦ ?_⟩
      rw [hresult] at hlive
      have := (Array.getElem?_eq_some_iff.1 he).1
      exact firstLive_eq_none hlive hpi (by omega) he
  | some r =>
      rw [hresult] at hlive
      obtain ⟨q, e, hpq, he, rfl, hvalue, hbefore⟩ := firstLive_eq_some hlive
      refine .inr ⟨q, e, hpq, he, rfl, ?_, hvalue, hbefore⟩
      rw [passed, hresult]
      dsimp only
      rw [placeAfter?_of_entry he]
      rfl

theorem StartsAt.passed_le (h : c.StartsAt p) : c.passed ≤ c.table.entries.size := by
  rcases h.cases with ⟨-, hpassed, -⟩ | ⟨q, e, -, he, -, hpassed, -⟩
  · exact Nat.le_of_eq hpassed
  · exact hpassed ▸ (Array.getElem?_eq_some_iff.1 he).1

theorem StartsAt.le_passed (h : c.StartsAt p) (hp : p ≤ c.table.entries.size) : p ≤ c.passed := by
  rcases h.cases with ⟨-, hpassed, -⟩ | ⟨q, e, hpq, -, -, hpassed, -⟩ <;> omega

/-- The entry that a call gives is the last one that it reaches. -/
theorem StartsAt.place_of_result (h : c.StartsAt p) {name : Value}
    (hresult : c.result = some (name, v)) (hname : c.table.names[i]? = some name) :
    p ≤ i ∧ i + 1 = c.passed := by
  rcases h.cases with ⟨hnone, -⟩ | ⟨q, e, hpq, he, hsome, hpassed, -⟩
  · exact nomatch hnone.symm.trans hresult
  · obtain ⟨rfl, rfl⟩ := Prod.mk.inj (Option.some.inj (hsome.symm.trans hresult))
    obtain rfl := index_of_name hname (getElem?_names_of_entry he)
    exact ⟨hpq, hpassed.symm⟩

/-- Of the entries that a call reaches, it gives the one that has a value at that moment. -/
theorem StartsAt.result_iff (h : c.StartsAt p) (hpi : p ≤ i) (hi : i < c.passed) {name : Value}
    (hname : c.table.names[i]? = some name) :
    c.result = some (name, v) ↔ v ≠ .nil ∧ c.table.get name = v := by
  obtain ⟨f, hf, rfl⟩ := entry_of_getElem?_names hname
  rw [get_of_entry hf]
  have hnil (hvalue : f.value = .nil) : ¬(v ≠ .nil ∧ f.value = v) :=
    fun hv ↦ hv.1 (hv.2.symm.trans hvalue)
  rcases h.cases with ⟨hnone, -, hall⟩ | ⟨q, e, hpq, he, hsome, hpassed, hvalue, hbefore⟩
  · exact ⟨fun hresult ↦ (nomatch hnone.symm.trans hresult),
      fun hv ↦ absurd hv (hnil (hall i f hpi hf))⟩
  · rcases Nat.lt_or_ge i q with hiq | hqi
    · refine ⟨fun hresult ↦ ?_, fun hv ↦ absurd hv (hnil (hbefore i f hpi hiq hf))⟩
      have := (h.place_of_result hresult hname).2
      omega
    · obtain rfl : i = q := by omega
      obtain rfl := Option.some.inj (hf.symm.trans he)
      rw [hsome, Option.some.injEq, Prod.mk.injEq]
      exact ⟨fun heq ↦ ⟨heq.2 ▸ hvalue, heq.2⟩, fun hv ↦ ⟨rfl, hv.2⟩⟩

end Call

/-! ## Whole traversals -/

/-- The traversals of a table.  Their states are the calls so far, the table, and the cursor: the
key that the next call goes on from, or none after the end.  In any state a key that has an entry
may be given another value, or none. -/
inductive Traversal (t₀ : Table) : List Call → Table → Option Value → Prop where
  | start : Traversal t₀ [] t₀ (some .nil)
  | assign {calls : List Call} {t t' : Table} {cursor : Option Value} {key v : Value} :
      Traversal t₀ calls t cursor → t.HasEntry key → t.set key v = .ok t' →
        Traversal t₀ calls t' cursor
  | call {calls : List Call} {t : Table} {key : Value} {result : Option (Value × Value)} :
      Traversal t₀ calls t (some key) → t.next? key = .ok result →
        Traversal t₀ (calls ++ [⟨t, result⟩]) t (result.map Prod.fst)

/-- The entries that calls gave. -/
def visits (calls : List Call) : List (Value × Value) := calls.filterMap Call.result

/-- The table at the moment when the cursor reaches an entry: at the first call that stops behind
it. -/
def reached : List Call → Nat → Option Table
  | [], _ => none
  | c :: calls, i => if i < c.passed then some c.table else reached calls i

theorem visits_append (calls : List Call) (c : Call) :
    visits (calls ++ [c]) = visits calls ++ c.result.toList := by
  rw [visits, List.filterMap_append]
  cases hresult : c.result <;> simp [visits, hresult]

theorem reached_append (calls : List Call) (c : Call) (i : Nat) :
    reached (calls ++ [c]) i =
      (reached calls i).or (if i < c.passed then some c.table else none) := by
  induction calls with
  | nil => rfl
  | cons d calls ih =>
      rw [List.cons_append, reached, reached]
      split
      · rfl
      · exact ih

/-- What holds in every state of a traversal whose cursor has reached `p` entries. -/
structure Progress (t₀ : Table) (calls : List Call) (t : Table) (cursor : Option Value) (p : Nat) :
    Prop where
  names : t.names = t₀.names
  le : p ≤ t₀.entries.size
  place : ∀ key ∈ cursor, t.placeAfter? key = some p
  ended : cursor = none → p = t₀.entries.size
  order : ((visits calls).map Prod.fst).Sublist (t₀.names.take p)
  count : calls.length = (visits calls).length + if cursor.isSome then 0 else 1
  reached_iff : ∀ i, (reached calls i).isSome = true ↔ i < p
  visited_iff : ∀ i name v, t₀.names[i]? = some name →
    ((name, v) ∈ visits calls ↔ v ≠ .nil ∧ ∃ now ∈ reached calls i, now.get name = v)

namespace Progress

variable {t₀ : Table} {calls : List Call} {cursor : Option Value}

theorem start (t₀ : Table) : Progress t₀ [] t₀ (some .nil) 0 where
  names := rfl
  le := Nat.zero_le _
  place := by
    rintro key ⟨⟩
    rfl
  ended h := nomatch h
  order := List.Sublist.refl _
  count := rfl
  reached_iff i := by simp [reached]
  visited_iff i name v _ := by simp [visits, reached]

theorem assign (h : Progress t₀ calls t cursor p) (hentry : t.HasEntry key)
    (hset : t.set key v = .ok t') : Progress t₀ calls t' cursor p :=
  { h with
    names := (names_set hentry hset).trans h.names
    place := fun k hk ↦ (placeAfter?_congr (names_set hentry hset) k).trans (h.place k hk) }

theorem size (h : Progress t₀ calls t cursor p) : t.entries.size = t₀.entries.size := by
  rw [← length_names, h.names, length_names]

/-- An entry that was not reached was not visited. -/
theorem notMem_of_le (h : Progress t₀ calls t cursor p) {name : Value}
    (hname : t₀.names[i]? = some name) (hi : p ≤ i) (v : Value) : (name, v) ∉ visits calls := by
  intro hmem
  obtain ⟨-, now, hnow, -⟩ := (h.visited_iff i name v hname).1 hmem
  have := (h.reached_iff i).1 (Option.isSome_of_mem hnow)
  omega

variable {c : Call} (h : Progress t₀ calls c.table cursor p) (hstart : c.StartsAt p)

include h

theorem le_passed (hstart : c.StartsAt p) : p ≤ c.passed :=
  hstart.le_passed (h.size ▸ h.le)

include hstart

theorem reached_call (i : Nat) : (reached (calls ++ [c]) i).isSome = true ↔ i < c.passed := by
  have hp := h.le_passed hstart
  rw [reached_append, Option.isSome_or, Bool.or_eq_true, h.reached_iff]
  split
  · simp_all
  · simp only [Option.isSome_none, Bool.false_eq_true, or_false]
    omega

theorem order_call :
    ((visits (calls ++ [c])).map Prod.fst).Sublist (t₀.names.take c.passed) := by
  rw [visits_append, List.map_append]
  rcases hstart.cases with ⟨hnone, -⟩ | ⟨q, e, hpq, he, hsome, hq, -⟩
  · rw [hnone]
    exact (List.append_nil _).symm ▸
      h.order.trans (List.take_sublist_take_left (h.le_passed hstart))
  · have hname : t₀.names[q]? = some e.name := h.names ▸ getElem?_names_of_entry he
    rw [hsome, hq, List.take_add_one, hname]
    exact (h.order.trans (List.take_sublist_take_left hpq)).append (List.Sublist.refl _)

theorem visited_call {name : Value} (hname : t₀.names[i]? = some name) (v : Value) :
    (name, v) ∈ visits (calls ++ [c]) ↔
      v ≠ .nil ∧ ∃ now ∈ reached (calls ++ [c]) i, now.get name = v := by
  have hname' : c.table.names[i]? = some name := h.names ▸ hname
  rw [visits_append, List.mem_append, Option.mem_toList, reached_append]
  rcases Nat.lt_or_ge i p with hip | hpi
  · -- The entry was reached before, and this call gives one further on.
    obtain ⟨now, hnow⟩ := Option.isSome_iff_exists.1 ((h.reached_iff i).2 hip)
    have hnot : c.result ≠ some (name, v) := fun hresult ↦
      Nat.not_le.2 hip (hstart.place_of_result hresult hname').1
    rw [or_iff_left hnot, h.visited_iff i name v hname, hnow, Option.some_or]
  · have hnone : reached calls i = none := by
      rw [← Option.not_isSome_iff_eq_none, h.reached_iff]
      exact Nat.not_lt.2 hpi
    rw [or_iff_right (h.notMem_of_le hname hpi v), hnone, Option.none_or]
    split
    · next hi =>
      rw [hstart.result_iff hpi hi hname']
      simp
    · next hi =>
      refine ⟨fun hresult ↦ ?_, fun ⟨_, now, hnow, _⟩ ↦ nomatch hnow⟩
      have := (hstart.place_of_result hresult hname').2
      omega

omit h hstart

theorem call {key : Value} (h : Progress t₀ calls c.table (some key) p)
    (hnext : c.table.next? key = .ok c.result) :
    Progress t₀ (calls ++ [c]) c.table (c.result.map Prod.fst) c.passed := by
  have hstart : c.StartsAt p := ⟨key, h.place key rfl, hnext⟩
  refine ⟨h.names, h.size ▸ hstart.passed_le, fun k hk ↦ ?_, fun hnone ↦ ?_,
    h.order_call hstart, ?_, h.reached_call hstart,
    fun i name v hname ↦ h.visited_call hstart hname v⟩
  · obtain ⟨r, hr, rfl⟩ := Option.map_eq_some_iff.1 hk
    rcases hstart.cases with ⟨hnone, -⟩ | ⟨q, e, -, he, hsome, hpassed, -⟩
    · exact nomatch hnone.symm.trans hr
    · obtain rfl := Option.some.inj (hsome.symm.trans hr)
      rw [hpassed]
      exact placeAfter?_of_entry he
  · rw [Call.passed, Option.map_eq_none_iff.1 hnone]
    exact h.size
  · rw [visits_append, List.length_append, List.length_append, h.count]
    cases c.result <;> simp

end Progress

namespace Traversal

variable {t₀ : Table} {calls : List Call} {cursor : Option Value}

/-- Every state of a traversal comes about with some number of entries reached. -/
theorem progress (h : Traversal t₀ calls t cursor) : ∃ p, Progress t₀ calls t cursor p := by
  induction h with
  | start => exact ⟨0, .start t₀⟩
  | assign _ hentry hset ih =>
      obtain ⟨p, hp⟩ := ih
      exact ⟨p, hp.assign hentry hset⟩
  | @call calls t key result _ hnext ih =>
      obtain ⟨p, hp⟩ := ih
      exact ⟨_, Progress.call (c := ⟨t, result⟩) hp hnext⟩

/-- Whatever is assigned in between to keys that have an entry: no call of a traversal fails.  The
entries are visited in their order, no key twice.  An entry is visited with a value exactly if it
has that value at the moment when the cursor reaches it, and at the end the cursor has reached all
entries.  Each call but the one at the end visits an entry, so there are at most as many of them as
there are entries, and after that many the next call is the end. -/
theorem visits_live_in_order (h : Traversal t₀ calls t cursor) :
    (∀ key ∈ cursor, ∃ result, t.next? key = .ok result) ∧
    ((visits calls).map Prod.fst).Sublist t₀.names ∧
    (((visits calls).map Prod.fst).map Key.ofValue).Nodup ∧
    (∀ i name v, t₀.names[i]? = some name →
      ((name, v) ∈ visits calls ↔ v ≠ .nil ∧ ∃ now ∈ reached calls i, now.get name = v)) ∧
    (cursor = none → ∀ i < t₀.entries.size, (reached calls i).isSome = true) ∧
    calls.length = (visits calls).length + (if cursor.isSome then 0 else 1) ∧
    (visits calls).length ≤ t₀.entries.size ∧
    ((visits calls).length = t₀.entries.size → ∀ key ∈ cursor, t.next? key = .ok none) := by
  obtain ⟨p, hp⟩ := h.progress
  have horder : ((visits calls).map Prod.fst).Sublist t₀.names :=
    hp.order.trans (List.take_sublist _ _)
  have hle : (visits calls).length ≤ p := by
    have := hp.order.length_le
    rw [List.length_map, List.length_take] at this
    omega
  have hnext (key : Value) (hkey : key ∈ cursor) :
      t.next? key = .ok (firstLive t.entries (t.entries.size - p) p) := by
    unfold next?
    rw [hp.place key hkey]
  refine ⟨fun key hkey ↦ ⟨_, hnext key hkey⟩, horder,
    (names_keys_nodup t₀).sublist (horder.map _), hp.visited_iff,
    fun hend i hi ↦ (hp.reached_iff i).2 (hp.ended hend ▸ hi), hp.count,
    Nat.le_trans hle hp.le,
    fun hall key hkey ↦ ?_⟩
  have hsize : t.entries.size - p = 0 := by
    have := hp.size
    omega
  rw [hnext key hkey, hsize]
  rfl

/-- The second of two keys is cleared after the first one was visited, and is not visited. -/
theorem visits_live_in_order_cleared :
    let a : Entry := ⟨.string "a", .string "a", .boolean true, rfl⟩
    let b : Entry := ⟨.string "b", .string "b", .boolean true, rfl⟩
    let t₀ := (empty.append a (by simp [empty])).append b (by simp [append, empty, a, b])
    let t₁ := t₀.replace 1 .nil
    let calls := [⟨t₀, some (a.name, a.value)⟩, ⟨t₁, none⟩]
    Traversal t₀ calls t₁ none ∧ ∀ v, (b.name, v) ∉ visits calls := by
  intro a b t₀ t₁ calls
  have ha : t₀.entries[0]? = some a := rfl
  have hb : t₀.entries[1]? = some b := rfl
  have hcleared : t₁.entries[1]? = some { b with value := .nil } := rfl
  have hfirst : Traversal t₀ [⟨t₀, some (a.name, a.value)⟩] t₀ (some a.name) := .call .start rfl
  have hassign : Traversal t₀ [⟨t₀, some (a.name, a.value)⟩] t₁ (some a.name) :=
    hfirst.assign ⟨b, Array.mem_of_getElem? hb, b.named⟩ (set_of_entry hb b.named .nil)
  have hlast : t₁.next? a.name = .ok none := by
    unfold next?
    rw [placeAfter?_of_entry (show t₁.entries[0]? = some a from rfl)]
    rfl
  have h : Traversal t₀ calls t₁ none := hassign.call hlast
  have hreached : reached calls 1 = some t₁ := by
    have hpassed : Call.passed ⟨t₀, some (a.name, a.value)⟩ = 1 := by
      rw [Call.passed]
      dsimp only
      rw [placeAfter?_of_entry ha]
      rfl
    rw [reached, hpassed, if_neg (Nat.lt_irrefl 1)]
    rfl
  refine ⟨h, fun v hmem ↦ ?_⟩
  obtain ⟨hv, now, hnow, hget⟩ := (h.visits_live_in_order.2.2.2.1 1 b.name v rfl).1 hmem
  obtain rfl := Option.some.inj (hreached.symm.trans hnow)
  exact hv (hget.symm.trans (get_of_entry hcleared))

end Traversal

end Table

end LuaEmbed
