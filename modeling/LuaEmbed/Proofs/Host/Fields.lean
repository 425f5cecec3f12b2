import LuaEmbed.Proofs.Runs.Modules

/-!
# Fields of tables

The host's own bookkeeping reads and writes string keys of tables only.  What each of the changes it
is made of does to the field of a table is said here once, on machines, and each elementary run is
one such change.
-/

namespace LuaEmbed

namespace Machine

/-- The machine with one table more. -/
def addTable (m : Machine) : Machine := { m with tables := m.tables.push .empty }

/-- The machine with one function more. -/
def addFunction (m : Machine) (f : Function) : Machine :=
  { m with functions := m.functions.push f }

/-- The machine with one userdata more. -/
def addUserdata (m : Machine) (u : Userdata) : Machine := { m with userdata := m.userdata.push u }

/-- The machine with a field of a table changed. -/
def setField (m : Machine) (r : Ref) (key : String) (v : Value) : Machine :=
  { m with tables := m.tables.modify r (·.setStr key v) }

/-- The machine with a new table in the registry. -/
def enter (m : Machine) (name : String) : Machine :=
  m.addTable.setField m.registry name (.table m.tables.size)

variable (m : Machine) (r : Ref) (key : String) (v : Value)

@[simp] theorem registry_addTable : m.addTable.registry = m.registry := rfl
@[simp] theorem globals_addTable : m.addTable.globals = m.globals := rfl
@[simp] theorem stringMetatable_addTable : m.addTable.stringMetatable = m.stringMetatable := rfl
@[simp] theorem registry_setField : (m.setField r key v).registry = m.registry := rfl
@[simp] theorem globals_setField : (m.setField r key v).globals = m.globals := rfl
@[simp] theorem stringMetatable_setField :
    (m.setField r key v).stringMetatable = m.stringMetatable := rfl
@[simp] theorem registry_addFunction (f : Function) : (m.addFunction f).registry = m.registry := rfl
@[simp] theorem globals_addFunction (f : Function) : (m.addFunction f).globals = m.globals := rfl
@[simp] theorem stringMetatable_addFunction (f : Function) :
    (m.addFunction f).stringMetatable = m.stringMetatable := rfl
@[simp] theorem tables_addFunction (f : Function) : (m.addFunction f).tables = m.tables := rfl
@[simp] theorem tables_addUserdata (u : Userdata) : (m.addUserdata u).tables = m.tables := rfl

@[simp] theorem size_addTable : m.addTable.tables.size = m.tables.size + 1 := by simp [addTable]

@[simp] theorem size_setField : (m.setField r key v).tables.size = m.tables.size := by
  simp [setField]

@[simp] theorem fieldOf_addFunction (f : Function) :
    (m.addFunction f).fieldOf r key = m.fieldOf r key := rfl

@[simp] theorem fieldOf_addUserdata (u : Userdata) :
    (m.addUserdata u).fieldOf r key = m.fieldOf r key := rfl

/-- Where there is no table, no field has a value. -/
theorem fieldOf_of_size_le {m : Machine} {r : Ref} (h : m.tables.size ≤ r) (key : String) :
    m.fieldOf r key = .nil := by
  simp [fieldOf, Array.getElem?_eq_none h]

/-- A table with a field that has a value is there. -/
theorem lt_of_fieldOf {m : Machine} {r : Ref} {key : String} (h : m.fieldOf r key ≠ .nil) :
    r < m.tables.size :=
  Nat.lt_of_not_le fun hle ↦ h (fieldOf_of_size_le hle key)

/-- A new table has no fields. -/
@[simp] theorem fieldOf_addTable : m.addTable.fieldOf r key = m.fieldOf r key := by
  simp only [fieldOf, addTable, Array.getElem?_push]
  split
  · next h =>
    rw [h, Array.getElem?_eq_none (Nat.le_refl _)]
    rfl
  · rfl

/-- A table that is there has the field that it is given, and keeps all others. -/
theorem fieldOf_setField (r' : Ref) (key' : String) :
    (m.setField r key v).fieldOf r' key' =
      if r' < m.tables.size ∧ r' = r ∧ key' = key then v else m.fieldOf r' key' := by
  simp only [fieldOf, setField, Array.getElem?_modify]
  by_cases hr : r = r'
  · subst hr
    by_cases hlt : r < m.tables.size
    · simp [Table.getStr_setStr, hlt, eq_comm]
    · simp [hlt]
  · simp [hr, Ne.symm hr]

theorem fieldOf_setField_self {m : Machine} {r : Ref} (h : r < m.tables.size) (key : String)
    (v : Value) : (m.setField r key v).fieldOf r key = v := by
  rw [fieldOf_setField, if_pos ⟨h, rfl, rfl⟩]

theorem fieldOf_setField_of_ne {r' : Ref} {key' : String} (h : r' = r → key' ≠ key) :
    (m.setField r key v).fieldOf r' key' = m.fieldOf r' key' := by
  rw [fieldOf_setField, if_neg fun heq ↦ h heq.2.1 heq.2.2]

/-- A field that gets the value it has leaves the machine as it is. -/
theorem setField_self {m : Machine} {r : Ref} {key : String} {v : Value}
    (h : m.fieldOf r key = v) (hv : v ≠ .nil) : m.setField r key v = m := by
  have htables : m.tables.modify r (·.setStr key v) = m.tables := by
    refine Array.ext_getElem? fun r' ↦ ?_
    rw [Array.getElem?_modify]
    split
    · next heq =>
      subst heq
      have hlt := lt_of_fieldOf (h ▸ hv)
      rw [fieldOf, Array.getElem?_eq_getElem hlt, Option.getD_some] at h
      rw [Array.getElem?_eq_getElem hlt, Option.map_some, Table.setStr_self h hv]
    · rfl
  unfold setField
  rw [htables]

/-- Other tables are as before, in all they are. -/
theorem getElem?_setField_of_ne {m : Machine} {r r' : Ref} (h : r' ≠ r) (key : String)
    (v : Value) : (m.setField r key v).tables[r']? = m.tables[r']? := by
  rw [setField, Array.getElem?_modify, if_neg (Ne.symm h)]

theorem getElem?_addTable {m : Machine} {r : Ref} (h : r < m.tables.size) :
    m.addTable.tables[r]? = m.tables[r]? := by
  rw [addTable, Array.getElem?_push_lt h, Array.getElem?_eq_getElem h]

theorem size_enter (name : String) : (m.enter name).tables.size = m.tables.size + 1 := by
  simp [enter]

/-- The registry has the new table under its key, and all others as before. -/
theorem record_enter {m : Machine} (h : m.registry < m.tables.size) (name a : String) :
    (m.enter name).fieldOf m.registry a =
      if a = name then .table m.tables.size else m.fieldOf m.registry a := by
  have hlt : m.registry < m.addTable.tables.size := by simpa using Nat.lt_succ_of_lt h
  rw [enter, fieldOf_setField, fieldOf_addTable]
  simp only [hlt, true_and]

theorem fieldOf_enter {m : Machine} {r : Ref} (name : String) (hr : r ≠ m.registry)
    (key : String) : (m.enter name).fieldOf r key = m.fieldOf r key := by
  rw [enter, fieldOf_setField_of_ne _ _ _ _ fun heq ↦ (hr heq).elim, fieldOf_addTable]

/-- The new table has no fields. -/
theorem fieldOf_enter_new {m : Machine} (h : m.registry < m.tables.size) (name key : String) :
    (m.enter name).fieldOf m.tables.size key = .nil := by
  rw [fieldOf_enter name (Nat.ne_of_gt h)]
  exact fieldOf_of_size_le (Nat.le_refl _) key

theorem fieldOf_initial (callLimit : Nat) (r : Ref) (key : String) :
    (Machine.initial callLimit).fieldOf r key = .nil := by
  by_cases h : r < 2
  · have : (Machine.initial callLimit).tables[r]? = some .empty := by
      match r, h with
      | 0, _ | 1, _ => rfl
    rw [fieldOf, this]
    exact Table.getStr_empty key
  · exact fieldOf_of_size_le (Nat.le_of_not_lt h) key

end Machine

/-! ## Elementary runs -/

namespace Run

variable {α : Type} {m : Machine} {w : World}

theorem newTable_apply : Heap.newTable ⟨m, w⟩ = .ok m.tables.size ⟨m.addTable, w⟩ := rfl

theorem newNative_apply (name : String) (op : Native) :
    Heap.newNative name op ⟨m, w⟩ =
      .ok (.function m.functions.size) ⟨m.addFunction (.native name op), w⟩ := rfl

theorem getStr_apply (r : Ref) (key : String) :
    Heap.getStr r key ⟨m, w⟩ = .ok (m.fieldOf r key) ⟨m, w⟩ := rfl

theorem setStr_apply (r : Ref) (key : String) (v : Value) :
    Heap.setStr r key v ⟨m, w⟩ = .ok () ⟨m.setField r key v, w⟩ := rfl

theorem machine_apply (g : Machine → α) : Run.machine g ⟨m, w⟩ = .ok (g m) ⟨m, w⟩ := rfl

/-- A sequence ends where its second part does, if its first part succeeds. -/
theorem after_bind_of_ok {β : Type} {r : Run α} {f : α → Run β} {s s' : Session} {a : α}
    (h : r s = .ok a s') : (r >>= f).after s = (f a).after s' := by
  rw [after, bind_of_ok h, after]

end Run

/-! ## Records -/

namespace Metatable

variable {m : Machine} {w : World} {name : String}

theorem ofType_of_table {r : Ref} (h : m.fieldOf m.registry name = .table r) :
    ofType name ⟨m, w⟩ = .ok r ⟨m, w⟩ := by
  unfold ofType
  rw [Run.bind_of_ok (Run.machine_apply _), Run.bind_of_ok (Run.getStr_apply ..), h]
  rfl

theorem ofType_of_ne (h : ∀ r, m.fieldOf m.registry name ≠ .table r) :
    ofType name ⟨m, w⟩ = .ok m.tables.size ⟨m.enter name, w⟩ := by
  unfold ofType
  rw [Run.bind_of_ok (Run.machine_apply _), Run.bind_of_ok (Run.getStr_apply ..)]
  generalize m.fieldOf m.registry name = v at h
  cases v with
  | table r => exact (h r rfl).elim
  | _ => rfl

theorem ofType_of_nil (h : m.fieldOf m.registry name = .nil) :
    ofType name ⟨m, w⟩ = .ok m.tables.size ⟨m.enter name, w⟩ :=
  ofType_of_ne fun _ hr ↦ nomatch h.symm.trans hr

end Metatable

/-! ## Steps along names -/

namespace Module

variable {m : Machine} {w : World} {r next : Ref} {name : String} {names : List String}

/-- A value that is no table leads nowhere. -/
theorem findAlong_of_kind_ne {v : Value} (h : v.kind ≠ .table) :
    findAlong v (name :: names) ⟨m, w⟩ = .ok .nil ⟨m, w⟩ := by
  cases v with
  | table r => exact (h rfl).elim
  | _ => rfl

theorem findAlong_of_table (h : m.fieldOf r name = .table next) :
    findAlong (.table r) (name :: names) ⟨m, w⟩ = findAlong (.table next) names ⟨m, w⟩ := by
  rw [findAlong, Run.bind_of_ok (Run.getStr_apply ..), h]

/-- A table that is missing is created, and followed. -/
theorem findAlong_of_nil (h : m.fieldOf r name = .nil) :
    findAlong (.table r) (name :: names) ⟨m, w⟩ = findAlong (.table m.tables.size) names
      ⟨m.addTable.setField r name (.table m.tables.size), w⟩ := by
  rw [findAlong, Run.bind_of_ok (Run.getStr_apply ..), h]
  rfl

theorem findAlong_of_field_kind_ne (hnil : m.fieldOf r name ≠ .nil)
    (hkind : (m.fieldOf r name).kind ≠ .table) :
    findAlong (.table r) (name :: names) ⟨m, w⟩ = .ok .nil ⟨m, w⟩ := by
  rw [findAlong, Run.bind_of_ok (Run.getStr_apply ..)]
  generalize m.fieldOf r name = v at hnil hkind
  cases v with
  | nil => exact (hnil rfl).elim
  | table r => exact (hkind rfl).elim
  | _ => rfl

end Module

/-- The table of loaded modules is recorded as the metatable of a type is. -/
theorem Module.loaded_eq_ofType : Module.loaded = Metatable.ofType Module.loadedKey := by
  funext ⟨m, w⟩
  unfold Module.loaded Module.findTable Metatable.ofType
  rw [ModuleRecord.splitOn_loadedKey, Run.bind_of_ok (Run.machine_apply _),
    Run.bind_of_ok (Run.machine_apply _), Run.bind_of_ok (Run.getStr_apply ..)]
  unfold Module.findAlong
  simp only [bind_assoc]
  rw [Run.bind_of_ok (Run.getStr_apply ..)]
  generalize m.fieldOf m.registry Module.loadedKey = v
  cases v <;> rfl

end LuaEmbed
