import LuaEmbed.Proofs.Tables.Traversal
import LuaEmbed.Machine

/-!
# Sequences of assignments

What a table holds after a sequence of assignments to the empty table, read off from the sequence
alone. Two values are one key if they are raw-equal.  Then a key has the value that the last
assignment to it gave, and the entries stand in the order in which their keys were first given a
value.  What assigns `nil` to a key without an entry adds none, and what assigns `nil` to one with
an entry leaves the entry at its place, where a later assignment finds it.
-/

namespace LuaEmbed

namespace Table

/-! ## Assignments -/

/-- An assignment to a table: by any value, by a string or by an integer. -/
inductive Assignment where
  | any (key v : Value)
  | string (s : String) (v : Value)
  | integer (i : Int) (v : Value)

namespace Assignment

/-- The key that is assigned to. -/
def key : Assignment → Value
  | any key _ => key
  | string s _ => .string s
  | integer i _ => .number (intKey i)

/-- The value that is assigned. -/
def value : Assignment → Value
  | any _ v | string _ v | integer _ v => v

/-- What an assignment makes of a table, unless it is refused. -/
def apply (t : Table) : Assignment → Except KeyFault Table
  | any key v => t.set key v
  | string s v => .ok (t.setStr s v)
  | integer i v => .ok (t.setInt i v)

/-- The assignment is not refused, and it is one to this key. -/
def assigns (a : Assignment) (key : Value) : Bool := a.key.isKey && a.key.rawEqual key

/-- The assignment gives a value to this key. -/
def gives (a : Assignment) (key : Value) : Bool := a.assigns key && !a.value.isNil

/-- The value that the last assignment to a key gave. -/
def lastValue (ops : List Assignment) (key : Value) : Value :=
  ((ops.reverse.find? (·.assigns key)).map value).getD .nil

/-- The place of the first assignment that gave a key a value. -/
def firstGiven (ops : List Assignment) (key : Value) : Nat := ops.findIdx (·.gives key)

end Assignment

/-- The table after an assignment; one that is refused leaves it as it is. -/
def assign (t : Table) (a : Assignment) : Table :=
  match a.apply t with
  | .ok t' => t'
  | .error _ => t

/-- The table after assignments, one after the other. -/
def assignAll (t : Table) (ops : List Assignment) : Table := ops.foldl assign t

open Assignment

variable {t : Table} {k : Key} {key name v : Value} {a : Assignment} {ops : List Assignment}

theorem set_of_ofValue (h : Key.ofValue key = .ok k) (v : Value) :
    t.set key v = .ok (t.setKey key k h v) := by
  unfold set
  split
  · next named =>
    cases named.symm.trans h
    rfl
  · next named => exact nomatch named.symm.trans h

theorem set_of_error {fault : KeyFault} (h : Key.ofValue key = .error fault) (t : Table)
    (v : Value) : t.set key v = .error fault := by
  unfold set
  split
  · next named => exact nomatch named.symm.trans h
  · next named =>
    cases named.symm.trans h
    rfl

theorem heapSet_of_ofValue (h : Key.ofValue key = .ok k) (r : Ref) (v : Value) :
    Heap.set r key v = do
      Heap.modifyTable r fun t ↦ t.setKey key k h v
      return .ok () := by
  unfold Heap.set
  split
  · next named =>
    cases named.symm.trans h
    rfl
  · next named => exact nomatch named.symm.trans h

/-- In a heap, too, what is no key is refused, and nothing is changed. -/
theorem heapSet_of_error {fault : KeyFault} (h : Key.ofValue key = .error fault) (r : Ref)
    (v : Value) : Heap.set r key v = pure (.error fault) := by
  unfold Heap.set
  split
  · next named => exact nomatch named.symm.trans h
  · next named =>
    cases named.symm.trans h
    rfl

/-- Only an assignment by any value is refused. -/
theorem Assignment.apply_of_ofValue (h : Key.ofValue a.key = .ok k) (t : Table) :
    a.apply t = .ok (t.setKey a.key k h a.value) := by
  cases a with
  | any key v => exact set_of_ofValue h v
  | string s v =>
      cases h
      rfl
  | integer i v =>
      cases (ofValue_intKey i).symm.trans h
      rfl

theorem assign_of_ofValue (h : Key.ofValue a.key = .ok k) (t : Table) :
    t.assign a = t.setKey a.key k h a.value := by
  rw [assign, apply_of_ofValue h]

theorem assign_of_not_isKey (h : a.key.isKey = false) (t : Table) : t.assign a = t := by
  cases a with
  | any key v =>
      obtain ⟨fault, hfault⟩ := Key.ofValue_eq_error h
      have hset : (Assignment.any key v).apply t = .error fault := set_of_error hfault t v
      rw [assign, hset]
  | string s v => exact nomatch h
  | integer i v =>
      have hkey := Key.isKey_of_ofValue (ofValue_intKey i)
      exact nomatch hkey.symm.trans h

theorem assignAll_append (t : Table) (ops : List Assignment) (a : Assignment) :
    t.assignAll (ops ++ [a]) = (t.assignAll ops).assign a := by
  rw [assignAll, List.foldl_append]
  rfl

/-! ## What a sequence says of a key -/

namespace Assignment

theorem assigns_iff (h : Key.ofValue a.key = .ok k) :
    a.assigns key = true ↔ Key.ofValue key = .ok k := by
  have hkey := Key.isKey_of_ofValue h
  rw [assigns, hkey, Bool.true_and, Key.rawEqual_iff hkey, h, eq_comm]

theorem gives_iff : a.gives key = true ↔ a.assigns key = true ∧ a.value ≠ .nil := by
  rw [gives, Bool.and_eq_true, Bool.not_eq_true', ← Bool.not_eq_true, Value.isNil_iff]

theorem assigns_of_not_isKey (h : a.key.isKey = false) (key : Value) : a.assigns key = false := by
  rw [assigns, h, Bool.false_and]

theorem lastValue_append (ops : List Assignment) (a : Assignment) (key : Value) :
    lastValue (ops ++ [a]) key = if a.assigns key then a.value else lastValue ops key := by
  rw [lastValue, List.reverse_append, List.reverse_singleton, List.singleton_append,
    List.find?_cons]
  split <;> simp_all [lastValue]

/-- Later assignments do not change which one was the first. -/
theorem firstGiven_append (h : firstGiven ops key < ops.length) (a : Assignment) :
    firstGiven (ops ++ [a]) key = firstGiven ops key := by
  rw [firstGiven, List.findIdx_append]
  exact if_pos h

theorem firstGiven_append_self (hops : ∀ b ∈ ops, b.gives key = false) (ha : a.gives key = true) :
    firstGiven (ops ++ [a]) key = ops.length := by
  have hnone : ops.findIdx (·.gives key) = ops.length :=
    List.findIdx_eq_length.2 hops
  rw [firstGiven, List.findIdx_append, hnone, if_neg (Nat.lt_irrefl _), List.findIdx_cons, ha]
  exact Nat.zero_add _

end Assignment

/-! ## The invariant -/

/-- The table is what the sequence of its assignments says. -/
structure Recorded (ops : List Assignment) (t : Table) : Prop where
  get : ∀ key, t.get key = lastValue ops key
  order : t.names.Pairwise fun a b ↦ firstGiven ops a < firstGiven ops b
  given : ∀ name ∈ t.names, (ops[firstGiven ops name]?).map Assignment.key = some name
  named : ∀ a ∈ ops, ∀ key, a.gives key = true →
    ∃ name ∈ t.names, Key.ofValue name = Key.ofValue key

theorem get_setKey (h : Key.ofValue name = .ok k) (key : Value) :
    (t.setKey name k h v).get key = if Key.ofValue key = .ok k then v else t.get key := by
  cases hkey : Key.ofValue key with
  | error fault => simp [get, hkey]
  | ok k' =>
      simp only [get, hkey, getKey_setKey, Except.ok.injEq]
      simp only [eq_comm]

/-- A table holds a value under a key, and is otherwise the same as another. -/
structure Rebound (t : Table) (key v : Value) (t' : Table) : Prop where
  get : t'.get key = v
  others : ∀ key', key'.rawEqual key = false → t'.get key' = t.get key'
  metatable : t'.metatable = t.metatable

theorem Rebound.setKey (h : Key.ofValue name = .ok k) (t : Table) (v : Value) :
    t.Rebound name v (t.setKey name k h v) where
  get := (get_setKey h name).trans (if_pos h)
  others key hkey := by
    refine (get_setKey h key).trans (if_neg fun heq ↦ ?_)
    have hraw := (Key.rawEqual_iff (Key.isKey_of_ofValue heq)).2 (heq.trans h.symm)
    exact nomatch hkey.symm.trans hraw
  metatable := metatable_setKey ..

namespace Recorded

theorem empty : Recorded [] .empty where
  get key := by
    unfold Table.get
    split
    · exact getKey_of_index_none (by simp [Table.empty])
    · rfl
  order := .nil
  given := nofun
  named := nofun

variable (h : Recorded ops t)

include h

theorem firstGiven_lt (hname : name ∈ t.names) : firstGiven ops name < ops.length := by
  obtain ⟨b, hb, -⟩ := Option.map_eq_some_iff.1 (h.given name hname)
  exact (List.getElem?_eq_some_iff.1 hb).1

theorem order_append (a : Assignment) :
    t.names.Pairwise fun x y ↦ firstGiven (ops ++ [a]) x < firstGiven (ops ++ [a]) y := by
  refine h.order.imp_of_mem fun hx hy hlt ↦ ?_
  rwa [firstGiven_append (h.firstGiven_lt hx), firstGiven_append (h.firstGiven_lt hy)]

theorem given_append (a : Assignment) (hname : name ∈ t.names) :
    ((ops ++ [a])[firstGiven (ops ++ [a]) name]?).map Assignment.key = some name := by
  have hlt := h.firstGiven_lt hname
  rw [firstGiven_append hlt, List.getElem?_append_left hlt]
  exact h.given name hname

/-- A key with a value has a name. -/
theorem not_gives_of_index_none (hindex : t.index[k]? = none) (hkey : Key.ofValue key = .ok k) :
    ∀ b ∈ ops, b.gives key = false := by
  intro b hb
  refine Bool.eq_false_iff.2 fun hgives ↦ ?_
  obtain ⟨name, hname, heq⟩ := h.named b hb key hgives
  obtain ⟨i, hi⟩ := List.mem_iff_getElem?.1 hname
  have hsome : t.index[k]? = some i := index_eq_some_iff.2 ⟨name, hi, heq.trans hkey⟩
  exact nomatch hindex.symm.trans hsome

/-- An assignment that adds no entry: what it gives a value to has one. -/
theorem of_names_eq {t' : Table} (hnames : t'.names = t.names)
    (hold : ∀ key, a.gives key = true → ∃ name ∈ t.names, Key.ofValue name = Key.ofValue key)
    (hget : ∀ key, t'.get key = lastValue (ops ++ [a]) key) : Recorded (ops ++ [a]) t' where
  get := hget
  order := hnames ▸ h.order_append a
  given name hname := h.given_append a (hnames ▸ hname)
  named b hb key hgives := by
    rw [hnames]
    rcases List.mem_append.1 hb with hb | hb
    · exact h.named b hb key hgives
    · obtain rfl := List.mem_singleton.1 hb
      exact hold key hgives

/-- An assignment that gives a key its first value. -/
theorem of_names_append {t' : Table} (hk : Key.ofValue a.key = .ok k)
    (hnames : t'.names = t.names ++ [a.key]) (hnew : t.index[k]? = none) (hvalue : a.value ≠ .nil)
    (hget : ∀ key, t'.get key = lastValue (ops ++ [a]) key) : Recorded (ops ++ [a]) t' := by
  have hself : a.gives a.key = true := gives_iff.2 ⟨(assigns_iff hk).2 hk, hvalue⟩
  have hfirst : firstGiven (ops ++ [a]) a.key = ops.length :=
    firstGiven_append_self (h.not_gives_of_index_none hnew hk) hself
  refine ⟨hget, ?_, fun name hname ↦ ?_, fun b hb key hgives ↦ ?_⟩
  · rw [hnames]
    refine List.pairwise_append.2 ⟨h.order_append a, List.pairwise_singleton .., ?_⟩
    intro x hx y hy
    rw [List.mem_singleton.1 hy, hfirst, firstGiven_append (h.firstGiven_lt hx)]
    exact h.firstGiven_lt hx
  · rw [hnames] at hname
    rcases List.mem_append.1 hname with hname | hname
    · exact h.given_append a hname
    · rw [List.mem_singleton.1 hname, hfirst, List.getElem?_concat_length]
      rfl
  · rw [hnames]
    rcases List.mem_append.1 hb with hb | hb
    · obtain ⟨name, hname, hkey⟩ := h.named b hb key hgives
      exact ⟨name, List.mem_append_left _ hname, hkey⟩
    · obtain rfl := List.mem_singleton.1 hb
      refine ⟨b.key, List.mem_append_right _ (List.mem_singleton_self _), hk.trans ?_⟩
      exact ((assigns_iff hk).1 (gives_iff.1 hgives).1).symm

theorem assign (a : Assignment) : Recorded (ops ++ [a]) (t.assign a) := by
  have hget := lastValue_append ops a
  cases ha : a.key.isKey with
  | false =>
      rw [assign_of_not_isKey ha]
      refine h.of_names_eq rfl (fun key hgives ↦ ?_) fun key ↦ ?_
      · exact nomatch (gives_iff.1 hgives).1.symm.trans (assigns_of_not_isKey ha key)
      · rw [hget, assigns_of_not_isKey ha, h.get key]
        rfl
  | true =>
      obtain ⟨k, hk⟩ := Key.ofValue_of_isKey ha
      have hget (key : Value) :
          (t.setKey a.key k hk a.value).get key = lastValue (ops ++ [a]) key := by
        rw [get_setKey, hget, h.get key]
        simp only [assigns_iff hk]
      rw [assign_of_ofValue hk]
      rcases names_setKey_cases t hk a.value with ⟨hnew, hvalue, hnames⟩ | ⟨hold, hnames⟩
      · exact h.of_names_append hk hnames hnew hvalue hget
      · refine h.of_names_eq hnames (fun key hgives ↦ ?_) hget
        obtain ⟨hassigns, hvalue⟩ := gives_iff.1 hgives
        obtain ⟨i, hi⟩ := Option.ne_none_iff_exists'.1 (mt hold hvalue)
        obtain ⟨name, hname, hkey⟩ := index_eq_some_iff.1 hi
        exact ⟨name, List.mem_of_getElem? hname, hkey.trans ((assigns_iff hk).1 hassigns).symm⟩

end Recorded

/-- From the empty table on, a table is what its assignments say. -/
theorem recorded_assignAll (ops : List Assignment) : Recorded ops (empty.assignAll ops) := by
  induction ops using List.reverseRecOn with
  | nil => exact .empty
  | append_singleton ops a ih =>
      rw [assignAll_append]
      exact ih.assign a

/-! ## The table that they make -/

/-- After any sequence of assignments to the empty table, a key has the value of the last assignment
that was one to a value raw-equal to it.  Values are raw-equal as they name one key, the two zeros
among them.  No two entries have raw-equal names, and no name is `nil` or NaN: such a key is
refused, which changes nothing, and no other key is.  A key that has a value is listed once, with
that value and by the name under which it was first given one, and the keys are listed in the order
in which that happened. -/
theorem assignAll_spec (ops : List Assignment) :
    let t := empty.assignAll ops
    (∀ key, t.get key = lastValue ops key) ∧
    ((∀ a b : Value, a.isKey = true → (a.rawEqual b = true ↔ Key.ofValue a = Key.ofValue b)) ∧
      (Value.number (-0)).rawEqual (.number 0) = true) ∧
    (t.names.Pairwise (fun a b ↦ a.rawEqual b = false) ∧ ∀ name ∈ t.names, name.isKey = true) ∧
    ((∀ key, key.isKey = false → ∃ fault, (∀ (t' : Table) v, t'.set key v = .error fault) ∧
        (∀ v, t.assign (.any key v) = t) ∧ ∀ r v s, Heap.set r key v s = .ok (.error fault) s) ∧
      ∀ (a : Assignment) (t' : Table), a.key.isKey = true → a.apply t' = .ok (t'.assign a)) ∧
    (∀ key v, (∃ name, (name, v) ∈ t.toList ∧ name.rawEqual key = true) ↔
      v ≠ .nil ∧ lastValue ops key = v) ∧
    (t.toList.map Prod.fst).Pairwise (fun a b ↦ a.rawEqual b = false) ∧
    (t.toList.map Prod.fst).Pairwise (fun a b ↦ firstGiven ops a < firstGiven ops b) ∧
    ∀ name v, (name, v) ∈ t.toList →
      (ops[firstGiven ops name]?).map Assignment.key = some name := by
  intro t
  have h : Recorded ops t := recorded_assignAll ops
  have hlisted := t.toList_sublist_names
  refine ⟨h.get, ⟨fun a b ↦ Key.rawEqual_iff, rfl⟩, ⟨t.names_pairwise_rawEqual, t.names_isKey⟩,
    ⟨fun key hkey ↦ ?_, fun a t' ha ↦ ?_⟩, fun key v ↦ ?_,
    t.names_pairwise_rawEqual.sublist hlisted, h.order.sublist hlisted, fun name v hmem ↦ ?_⟩
  · obtain ⟨fault, hfault⟩ := Key.ofValue_eq_error hkey
    refine ⟨fault, set_of_error hfault, fun v ↦ assign_of_not_isKey (a := .any key v) hkey t,
      fun r v s ↦ ?_⟩
    rw [heapSet_of_error hfault]
    rfl
  · obtain ⟨k, hk⟩ := Key.ofValue_of_isKey ha
    rw [assign_of_ofValue hk, apply_of_ofValue hk]
  · rw [exists_mem_toList_iff, h.get key]
  · exact h.given name (hlisted.subset (List.mem_map_of_mem hmem))

end Table

end LuaEmbed
