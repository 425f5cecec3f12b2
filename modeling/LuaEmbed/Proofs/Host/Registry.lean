import LuaEmbed.Proofs.Host.Fields

/-!
# The registry of the host

The metatables of types and the table of loaded modules are recorded in one table, under keys that
the host chooses.  Each key has a table of its own, and no field of any other table leads to one of
them, so modules are never installed into a metatable.  The one key that two kinds of records share
is that of the loaded modules: the metatable of the type of that name is the table of loaded modules.
-/

namespace LuaEmbed

/-! ## Shown and hidden tables -/

namespace Machine

/-- A table is the registry, or is recorded in it. -/
def Hidden (m : Machine) (r : Ref) : Prop :=
  r = m.registry ∨ ∃ name, m.fieldOf m.registry name = .table r

/-- If the value is a table, then it is there and is not one of the registry. -/
def Shown (m : Machine) (v : Value) : Prop :=
  ∀ r, v = .table r → r < m.tables.size ∧ ¬m.Hidden r

/-- The registry records one table for each key, and nothing but the registry leads to them. -/
structure Orderly (m : Machine) : Prop where
  registry_lt : m.registry < m.tables.size
  globals_shown : m.Shown (.table m.globals)
  record_cases (name : String) : m.fieldOf m.registry name = .nil ∨
    ∃ r, m.fieldOf m.registry name = .table r ∧ r < m.tables.size ∧ r ≠ m.registry
  record_inj {a b : String} {r : Ref} :
    m.fieldOf m.registry a = .table r → m.fieldOf m.registry b = .table r → a = b
  shown {r : Ref} (hr : r ≠ m.registry) (key : String) : m.Shown (m.fieldOf r key)

/-- The records of the registry are kept, and so is the metatable of each type. -/
structure Keeps (m m' : Machine) : Prop where
  registry_eq : m'.registry = m.registry
  record {name : String} {r : Ref} :
    m.fieldOf m.registry name = .table r → m'.fieldOf m.registry name = .table r
  table_eq {name : String} {r : Ref} : name ≠ Module.loadedKey →
    m.fieldOf m.registry name = .table r → m'.tables[r]? = m.tables[r]?

/-- Nothing has been done to the registry or to what it records, but for the loaded modules. -/
structure Outside (m m' : Machine) : Prop where
  registry_eq : m'.registry = m.registry
  globals_eq : m'.globals = m.globals
  size_le : m.tables.size ≤ m'.tables.size
  table_eq {r : Ref} : r < m.tables.size → m.Hidden r →
    m.fieldOf m.registry Module.loadedKey ≠ .table r → m'.tables[r]? = m.tables[r]?

theorem Keeps.refl (m : Machine) : m.Keeps m := ⟨rfl, id, fun _ _ ↦ rfl⟩

theorem Keeps.trans {m₁ m₂ m₃ : Machine} (h : m₁.Keeps m₂) (h' : m₂.Keeps m₃) : m₁.Keeps m₃ where
  registry_eq := h'.registry_eq.trans h.registry_eq
  record hr := h.registry_eq ▸ h'.record (h.registry_eq ▸ h.record hr)
  table_eq hname hr :=
    (h'.table_eq hname (h.registry_eq ▸ h.record hr)).trans (h.table_eq hname hr)

theorem Outside.refl (m : Machine) : m.Outside m := ⟨rfl, rfl, Nat.le_refl _, fun _ _ _ ↦ rfl⟩

theorem shown_nil (m : Machine) : m.Shown .nil := nofun

theorem shown_function (m : Machine) (r : Ref) : m.Shown (.function r) := nofun

namespace Orderly

variable {m m' : Machine} {r : Ref} {v : Value} {key name : String}

theorem hidden_lt (h : m.Orderly) (hr : m.Hidden r) : r < m.tables.size := by
  rcases hr with rfl | ⟨name, hname⟩
  · exact h.registry_lt
  · rcases h.record_cases name with hnil | ⟨r', hr', hlt, _⟩
    · exact nomatch hnil.symm.trans hname
    · cases hname.symm.trans hr'
      exact hlt

/-- The table of loaded modules is not the registry. -/
theorem loaded_ne (h : m.Orderly) (hname : m.fieldOf m.registry name = .table r) :
    r ≠ m.registry := by
  rcases h.record_cases name with hnil | ⟨r', hr', _, hne⟩
  · exact nomatch hnil.symm.trans hname
  · cases hname.symm.trans hr'
    exact hne

/-- What is recorded stays so where nothing is done to the registry. -/
theorem record_eq (h : m.Orderly) (ho : m.Outside m') (name : String) :
    m'.fieldOf m.registry name = m.fieldOf m.registry name := by
  have hne : m.fieldOf m.registry Module.loadedKey ≠ .table m.registry :=
    fun heq ↦ h.loaded_ne heq rfl
  rw [fieldOf, ho.table_eq h.registry_lt (.inl rfl) hne, fieldOf]

theorem hidden_iff (h : m.Orderly) (ho : m.Outside m') (r : Ref) : m'.Hidden r ↔ m.Hidden r := by
  simp only [Hidden, ho.registry_eq, h.record_eq ho]

theorem shown_of_outside (h : m.Orderly) (ho : m.Outside m') (hv : m.Shown v) : m'.Shown v :=
  fun r hr ↦ ⟨Nat.lt_of_lt_of_le (hv r hr).1 ho.size_le,
    fun hh ↦ (hv r hr).2 ((h.hidden_iff ho r).1 hh)⟩

theorem outside_trans {m'' : Machine} (h : m.Orderly) (ho : m.Outside m') (ho' : m'.Outside m'') :
    m.Outside m'' where
  registry_eq := ho'.registry_eq.trans ho.registry_eq
  globals_eq := ho'.globals_eq.trans ho.globals_eq
  size_le := Nat.le_trans ho.size_le ho'.size_le
  table_eq {r} hlt hr hne := by
    have hne' : m'.fieldOf m'.registry Module.loadedKey ≠ .table r := by
      rwa [ho.registry_eq, h.record_eq ho]
    exact (ho'.table_eq (Nat.lt_of_lt_of_le hlt ho.size_le) ((h.hidden_iff ho _).2 hr) hne').trans
      (ho.table_eq hlt hr hne)

theorem keeps_of_outside (h : m.Orderly) (ho : m.Outside m') : m.Keeps m' where
  registry_eq := ho.registry_eq
  record hname := (h.record_eq ho _).trans hname
  table_eq hne hname :=
    ho.table_eq (h.hidden_lt (.inr ⟨_, hname⟩)) (.inr ⟨_, hname⟩)
      fun hloaded ↦ hne (h.record_inj hname hloaded)

/-! ### Elementary changes -/

theorem outside_addTable : m.Outside m.addTable where
  registry_eq := rfl
  globals_eq := rfl
  size_le := by simp
  table_eq hlt _ _ := getElem?_addTable hlt

/-- A new table is shown. -/
theorem shown_addTable (h : m.Orderly) : m.addTable.Shown (.table m.tables.size) := by
  rintro _ ⟨⟩
  refine ⟨by simp, fun hh ↦ ?_⟩
  exact Nat.lt_irrefl _ (h.hidden_lt ((h.hidden_iff outside_addTable _).1 hh))

theorem addTable (h : m.Orderly) : m.addTable.Orderly where
  registry_lt := by simpa using Nat.lt_succ_of_lt h.registry_lt
  globals_shown := h.shown_of_outside outside_addTable h.globals_shown
  record_cases name := by
    simp only [fieldOf_addTable, registry_addTable, size_addTable]
    exact (h.record_cases name).imp_right fun ⟨r, hr, hlt, hne⟩ ↦ ⟨r, hr, Nat.lt_succ_of_lt hlt, hne⟩
  record_inj ha hb := by
    rw [fieldOf_addTable] at ha hb
    exact h.record_inj ha hb
  shown hr key := by
    rw [fieldOf_addTable]
    exact h.shown_of_outside outside_addTable (h.shown hr key)

theorem outside_setField (hr : ¬m.Hidden r ∨ m.fieldOf m.registry Module.loadedKey = .table r)
    (key : String) (v : Value) : m.Outside (m.setField r key v) where
  registry_eq := rfl
  globals_eq := rfl
  size_le := by simp
  table_eq {r'} _ hr' hne := by
    refine getElem?_setField_of_ne (fun heq ↦ ?_) key v
    subst heq
    exact hr.elim (· hr') hne

/-- A table other than the registry may be given any value that is shown. -/
theorem setField (h : m.Orderly)
    (hr : ¬m.Hidden r ∨ m.fieldOf m.registry Module.loadedKey = .table r) (key : String)
    (hv : m.Shown v) : (m.setField r key v).Orderly := by
  have ho := outside_setField hr key v
  have hne : m.registry ≠ r := fun heq ↦
    hr.elim (fun hr ↦ hr (.inl heq.symm)) fun hr ↦ h.loaded_ne hr heq.symm
  have hrecord (name : String) :
      (m.setField r key v).fieldOf m.registry name = m.fieldOf m.registry name :=
    fieldOf_setField_of_ne m r key v fun heq ↦ (hne heq).elim
  refine ⟨by simpa using h.registry_lt, h.shown_of_outside ho h.globals_shown, fun name ↦ ?_,
    fun ha hb ↦ ?_, fun {r'} hr' key' ↦ h.shown_of_outside ho ?_⟩
  · simpa only [registry_setField, hrecord, size_setField] using h.record_cases name
  · rw [registry_setField, hrecord] at ha hb
    exact h.record_inj ha hb
  · rw [fieldOf_setField]
    split
    · exact hv
    · exact h.shown hr' key'

/-! ### New records -/

/-- A new table is recorded. -/
theorem enter (h : m.Orderly) (name : String) : (m.enter name).Orderly := by
  have hold {a : String} {r' : Ref} (hr' : m.fieldOf m.registry a = .table r') :
      r' ≠ m.tables.size := Nat.ne_of_lt (h.hidden_lt (.inr ⟨a, hr'⟩))
  have hshown {v : Value} (hv : m.Shown v) : (m.enter name).Shown v := by
    refine fun r' hr' ↦ ⟨size_enter m name ▸ Nat.lt_succ_of_lt (hv r' hr').1, ?_⟩
    rintro (heq | ⟨a, ha⟩)
    · exact (hv r' hr').2 (.inl heq)
    · have ha : (m.enter name).fieldOf m.registry a = .table r' := ha
      rw [record_enter h.registry_lt] at ha
      split at ha
      · cases ha
        exact Nat.lt_irrefl _ (hv _ hr').1
      · exact (hv r' hr').2 (.inr ⟨a, ha⟩)
  refine ⟨?_, hshown h.globals_shown, fun a ↦ ?_, fun {a b r'} ha hb ↦ ?_, fun hr' key ↦ ?_⟩
  · rw [size_enter]
    exact Nat.lt_succ_of_lt h.registry_lt
  · change (m.enter name).fieldOf m.registry a = .nil ∨ ∃ r,
      (m.enter name).fieldOf m.registry a = .table r ∧ r < _ ∧ r ≠ m.registry
    rw [record_enter h.registry_lt, size_enter]
    split
    · exact .inr ⟨_, rfl, Nat.lt_succ_self _, (Nat.ne_of_lt h.registry_lt).symm⟩
    · exact (h.record_cases a).imp_right fun ⟨r, hr, hlt, hne⟩ ↦ ⟨r, hr, Nat.lt_succ_of_lt hlt, hne⟩
  · have ha : (m.enter name).fieldOf m.registry a = .table r' := ha
    have hb : (m.enter name).fieldOf m.registry b = .table r' := hb
    rw [record_enter h.registry_lt] at ha hb
    split at ha <;> split at hb
    · simp [*]
    · cases ha
      exact (hold hb rfl).elim
    · cases hb
      exact (hold ha rfl).elim
    · exact h.record_inj ha hb
  · rw [fieldOf_enter (m := m) name hr' key]
    exact hshown (h.shown hr' key)

/-- What was recorded before stays so, if the key had no table. -/
theorem keeps_enter (h : m.Orderly) (hname : m.fieldOf m.registry name = .nil) :
    m.Keeps (m.enter name) where
  registry_eq := rfl
  record {a r'} ha := by
    have hne : a ≠ name := fun heq ↦ nomatch (heq ▸ hname).symm.trans ha
    rw [record_enter h.registry_lt, if_neg hne, ha]
  table_eq {a r'} _ ha := by
    rw [Machine.enter, getElem?_setField_of_ne (h.loaded_ne ha),
      getElem?_addTable (h.hidden_lt (.inr ⟨a, ha⟩))]

end Orderly

/-- A new machine records nothing. -/
theorem orderly_initial (callLimit : Nat) : (Machine.initial callLimit).Orderly := by
  have hnil := fieldOf_initial callLimit
  refine ⟨Nat.one_lt_two, ?_, fun name ↦ .inl (hnil ..), fun ha ↦ ?_, fun _ key ↦ ?_⟩
  · rintro _ ⟨⟩
    refine ⟨Nat.two_pos, ?_⟩
    rintro (h | ⟨name, hname⟩)
    · exact Nat.zero_ne_one h
    · exact nomatch (hnil ..).symm.trans hname
  · exact nomatch (hnil ..).symm.trans ha
  · rw [hnil]
    exact shown_nil _

end Machine

/-! ## Records and modules -/

namespace Machine.Orderly

variable {m : Machine} {r : Ref} {v : Value} {name : String}

/-- The metatable of a type is recorded from its first use on. -/
theorem ofType (h : m.Orderly) (name : String) (w : World) :
    ∃ r m', Metatable.ofType name ⟨m, w⟩ = .ok r ⟨m', w⟩ ∧ m'.Orderly ∧ m.Keeps m' ∧
      m'.fieldOf m'.registry name = .table r := by
  rcases h.record_cases name with hnil | ⟨r, hr, _, _⟩
  · refine ⟨_, _, Metatable.ofType_of_nil hnil, h.enter name, h.keeps_enter hnil, ?_⟩
    exact (record_enter h.registry_lt name name).trans (if_pos rfl)
  · exact ⟨r, m, Metatable.ofType_of_table hr, h, .refl m, hr⟩

/-- Names that are followed from a table that is shown lead to such a table, if to any. -/
theorem findAlong (h : m.Orderly) (hv : m.Shown v) (names : List String) (w : World) :
    ∃ v' m', Module.findAlong v names ⟨m, w⟩ = .ok v' ⟨m', w⟩ ∧ m'.Orderly ∧ m.Outside m' ∧
      m'.Shown v' := by
  induction names generalizing m v with
  | nil => exact ⟨v, m, by cases v <;> rfl, h, .refl m, hv⟩
  | cons name names ih =>
      have stop : ∃ v' m', (return Value.nil : Run Value) ⟨m, w⟩ = .ok v' ⟨m', w⟩ ∧ m'.Orderly ∧
          m.Outside m' ∧ m'.Shown v' := ⟨.nil, m, rfl, h, .refl m, shown_nil m⟩
      cases v with
      | table r =>
          have hr : r ≠ m.registry := fun heq ↦ (hv r rfl).2 (.inl heq)
          cases hnext : m.fieldOf r name with
          | nil =>
              rw [Module.findAlong_of_nil hnext]
              have hr' : ¬m.addTable.Hidden r :=
                fun hh ↦ (hv r rfl).2 ((h.hidden_iff outside_addTable r).1 hh)
              have ho := outside_setField (.inl hr') name (.table m.tables.size)
              obtain ⟨v', m', hrun, h', ho', hv'⟩ := ih (h.addTable.setField (.inl hr') name
                h.shown_addTable) (h.addTable.shown_of_outside ho h.shown_addTable)
              exact ⟨v', m', hrun, h', h.outside_trans outside_addTable
                (h.addTable.outside_trans ho ho'), hv'⟩
          | table next =>
              rw [Module.findAlong_of_table hnext]
              exact ih h (hnext ▸ h.shown hr name)
          | boolean | number | string | function | userdata | thread =>
              rw [Module.findAlong, Run.bind_of_ok (Run.getStr_apply ..), hnext]
              exact stop
      | nil | boolean | number | string | function | userdata | thread => exact stop

/-- Functions are put into a table that is shown. -/
theorem install (h : m.Orderly) (hr : ¬m.Hidden r) (functions : Module.FunctionSet) (w : World) :
    ∃ m', Module.install r functions ⟨m, w⟩ = .ok () ⟨m', w⟩ ∧ m'.Orderly ∧ m.Outside m' := by
  induction functions generalizing m with
  | nil => exact ⟨m, rfl, h, .refl m⟩
  | cons f functions ih =>
      obtain ⟨name, op⟩ := f
      -- The function itself is no table, and so changes nothing that is said here.
      have hf : (m.addFunction (.native name op)).Orderly := ⟨h.registry_lt, h.globals_shown,
        h.record_cases, h.record_inj, h.shown⟩
      have hof : m.Outside (m.addFunction (.native name op)) :=
        ⟨rfl, rfl, Nat.le_refl _, fun _ _ _ ↦ rfl⟩
      have ho := outside_setField (m := m.addFunction (.native name op)) (.inl hr) name
        (.function m.functions.size)
      have hset := hf.setField (.inl hr) name (shown_function _ m.functions.size)
      obtain ⟨m', hrun, h', ho'⟩ := ih hset fun hh ↦ hr ((hf.hidden_iff ho r).1 hh)
      rw [Module.install, Run.bind_of_ok (Run.newNative_apply ..),
        Run.bind_of_ok (Run.setStr_apply ..)]
      exact ⟨m', hrun, h', h.outside_trans hof (hf.outside_trans ho ho')⟩

/-- However the registration of a module ends, the records are kept. -/
theorem register (h : m.Orderly) (name : String) (functions : Module.FunctionSet) (w : World) :
    ∃ m', (Module.register name functions).after ⟨m, w⟩ = ⟨m', w⟩ ∧ m'.Orderly ∧ m.Keeps m' := by
  obtain ⟨l, m₁, hl, h₁, hk₁, hrecord⟩ := h.ofType Module.loadedKey w
  rw [← Module.loaded_eq_ofType] at hl
  rw [Module.register, Run.after_bind_of_ok hl, Run.after_bind_of_ok (Run.getStr_apply ..)]
  split
  · exact ⟨m₁, rfl, h₁, hk₁⟩
  · rw [Run.after_bind_of_ok (Run.machine_apply _)]
    obtain ⟨v, m₂, hfind, h₂, ho₂, hv⟩ := h₁.findAlong h₁.globals_shown (name.splitOn ".") w
    rw [Module.findTable, Run.after_bind_of_ok hfind]
    cases v with
    | table r =>
        obtain ⟨m₃, hinstall, h₃, ho₃⟩ := h₂.install (hv r rfl).2 functions w
        have hloaded : m₃.fieldOf m₃.registry Module.loadedKey = .table l := by
          rw [ho₃.registry_eq, h₂.record_eq ho₃, ho₂.registry_eq, h₁.record_eq ho₂, hrecord]
        dsimp only
        rw [Run.after_bind_of_ok hinstall, Run.after_bind_of_ok (Run.setStr_apply ..)]
        have hv₃ := h₂.shown_of_outside ho₃ hv
        refine ⟨_, rfl, h₃.setField (.inr hloaded) name hv₃, hk₁.trans (h₁.keeps_of_outside ?_)⟩
        exact h₁.outside_trans ho₂ (h₂.outside_trans ho₃ (outside_setField (.inr hloaded) name _))
    | nil | boolean | number | string | function | userdata | thread =>
        exact ⟨m₂, rfl, h₂, hk₁.trans (h₁.keeps_of_outside ho₂)⟩

end Machine.Orderly

/-! ## Sequences of calls -/

/-- What the run returns on a session, if it succeeds. -/
def Run.result? {α : Type} (r : Run α) (s : Session) : Option α :=
  match r s with
  | .ok a _ => some a
  | .error .. => none

/-- A call with which a host keeps its records. -/
inductive RegistryCall where
  /-- Get the metatable of a type, which is created on first use. -/
  | newType (name : String)
  /-- Get the metatable of a type, if there is one. -/
  | getType (name : String)
  /-- Get the table of loaded modules. -/
  | loaded
  /-- Register a module. -/
  | register (name : String) (functions : Module.FunctionSet)

namespace RegistryCall

/-- What the call does. -/
def run : RegistryCall → Run Value
  | newType name => do return .table (← Metatable.ofType name)
  | getType name => Metatable.registered name
  | loaded => do return .table (← Module.loaded)
  | register name functions => do return .table (← Module.register name functions)

/-- The session after calls, one after the other. -/
def runAll : List RegistryCall → Session → Session
  | [], s => s
  | c :: cs, s => runAll cs (c.run.after s)

/-- The calls with what each of them returns. -/
def results : List RegistryCall → Session → List (RegistryCall × Option Value)
  | [], _ => []
  | c :: cs, s => (c, c.run.result? s) :: results cs (c.run.after s)

/-- The name under which a table that the call returns is recorded. -/
def record? : RegistryCall → Option String
  | newType name => some name
  | loaded => some Module.loadedKey
  | getType _ | register .. => none

/-- A call that returns a record has returned the table that a machine records. -/
def Tells (m : Machine) (c : RegistryCall) (v : Option Value) : Prop :=
  ∀ name, c.record? = some name →
    ∃ r, v = some (.table r) ∧ m.fieldOf m.registry name = .table r

variable {m : Machine} {c : RegistryCall}

theorem Tells.of_keeps {m' : Machine} {v : Option Value} (h : c.Tells m v) (hk : m.Keeps m') :
    c.Tells m' v := by
  intro name hname
  obtain ⟨r, hv, hr⟩ := h name hname
  exact ⟨r, hv, hk.registry_eq ▸ hk.record hr⟩

theorem run_newType (name : String) {m' : Machine} {w : World} {r : Ref}
    (h : Metatable.ofType name ⟨m, w⟩ = .ok r ⟨m', w⟩) :
    (newType name).run ⟨m, w⟩ = .ok (.table r) ⟨m', w⟩ := Run.bind_of_ok h

theorem run_loaded : loaded.run = (newType Module.loadedKey).run := by
  rw [run, run, Module.loaded_eq_ofType]

/-- One call keeps what is recorded. -/
theorem step (h : m.Orderly) (c : RegistryCall) (w : World) :
    ∃ m', c.run.after ⟨m, w⟩ = ⟨m', w⟩ ∧ m'.Orderly ∧ m.Keeps m' ∧
      c.Tells m' (c.run.result? ⟨m, w⟩) := by
  have htype (name : String) : ∃ m', (newType name).run.after ⟨m, w⟩ = ⟨m', w⟩ ∧ m'.Orderly ∧
      m.Keeps m' ∧ (newType name).Tells m' ((newType name).run.result? ⟨m, w⟩) := by
    obtain ⟨r, m', hrun, h', hk, hr⟩ := h.ofType name w
    have hrun := run_newType name hrun
    refine ⟨m', Run.after_of_ok hrun, h', hk, fun _ hname ↦ ⟨r, ?_, ?_⟩⟩
    · rw [Run.result?, hrun]
    · cases hname
      exact hr
  cases c with
  | newType name => exact htype name
  | getType name => exact ⟨m, rfl, h, .refl m, nofun⟩
  | loaded =>
      rw [run_loaded]
      exact htype Module.loadedKey
  | register name functions =>
      obtain ⟨m', hafter, h', hk⟩ := h.register name functions w
      refine ⟨m', ?_, h', hk, nofun⟩
      rw [← hafter, Run.after, Run.after, run]
      cases hrun : Module.register name functions ⟨m, w⟩ with
      | ok r s => rw [Run.bind_of_ok hrun]; rfl
      | error e s => rw [Run.bind_of_error hrun]

/-- Any number of calls keep what is recorded. -/
theorem steps (h : m.Orderly) (calls : List RegistryCall) (w : World) :
    ∃ m', runAll calls ⟨m, w⟩ = ⟨m', w⟩ ∧ m'.Orderly ∧ m.Keeps m' ∧
      ∀ c v, (c, v) ∈ results calls ⟨m, w⟩ → c.Tells m' v := by
  induction calls generalizing m with
  | nil => exact ⟨m, rfl, h, .refl m, nofun⟩
  | cons c cs ih =>
      obtain ⟨m₁, hafter, h₁, hk₁, htells⟩ := step h c w
      obtain ⟨m₂, hall, h₂, hk₂, hrest⟩ := ih h₁
      refine ⟨m₂, by rw [runAll, hafter, hall], h₂, hk₁.trans hk₂, fun c' v hv ↦ ?_⟩
      rw [results, hafter] at hv
      rcases List.mem_cons.1 hv with heq | hv
      · cases heq
        exact htells.of_keeps hk₂
      · exact hrest c' v hv

theorem results_newType {w : World} {name : String} {cs : List RegistryCall}
    (h : m.fieldOf m.registry name = .nil) : results (newType name :: cs) ⟨m, w⟩ =
      (newType name, some (.table m.tables.size)) :: results cs ⟨m.enter name, w⟩ := by
  have hrun := run_newType name (w := w) (Metatable.ofType_of_nil h)
  rw [results, Run.result?, Run.after_of_ok hrun, hrun]

theorem results_loaded {w : World} {cs : List RegistryCall}
    (h : m.fieldOf m.registry Module.loadedKey = .nil) : results (loaded :: cs) ⟨m, w⟩ =
      (loaded, some (.table m.tables.size)) :: results cs ⟨m.enter Module.loadedKey, w⟩ := by
  have hrun := run_newType Module.loadedKey (w := w) (Metatable.ofType_of_nil h)
  rw [results, run_loaded, Run.result?, Run.after_of_ok hrun, hrun]

/-- What is recorded as loaded under a name. -/
def recordedAs (name : String) : Run Value := do
  Heap.getStr (← Module.loaded) name

theorem recordedAs_of_loaded {m' : Machine} {w : World} {l : Ref}
    (h : Module.loaded ⟨m, w⟩ = .ok l ⟨m', w⟩) (name : String) :
    (recordedAs name).result? ⟨m, w⟩ = some (m'.fieldOf l name) := by
  rw [Run.result?, recordedAs, Run.bind_of_ok h, Run.getStr_apply]

theorem recordedAs_of_table {w : World} {l : Ref}
    (h : m.fieldOf m.registry Module.loadedKey = .table l) (name : String) :
    (recordedAs name).result? ⟨m, w⟩ = some (m.fieldOf l name) := by
  refine recordedAs_of_loaded ?_ name
  rw [Module.loaded_eq_ofType, Metatable.ofType_of_table h]

theorem recordedAs_of_nil {w : World} (hm : m.Orderly)
    (h : m.fieldOf m.registry Module.loadedKey = .nil) (name : String) :
    (recordedAs name).result? ⟨m, w⟩ = some .nil := by
  have hloaded : Module.loaded ⟨m, w⟩ = .ok m.tables.size ⟨m.enter Module.loadedKey, w⟩ := by
    rw [Module.loaded_eq_ofType, Metatable.ofType_of_nil h]
  rw [recordedAs_of_loaded hloaded, Machine.fieldOf_enter_new hm.registry_lt]

/-- A metatable that is created, be it the one that is the table of loaded modules, leaves what is
recorded there. -/
theorem recordedAs_newType {w : World} (hm : m.Orderly) (a name : String) :
    (recordedAs name).result? ((newType a).run.after ⟨m, w⟩) = (recordedAs name).result? ⟨m, w⟩ := by
  rcases hm.record_cases a with hnil | ⟨r, hr, -, -⟩
  · rw [Run.after_of_ok (run_newType a (Metatable.ofType_of_nil hnil))]
    have hloaded : (m.enter a).fieldOf (m.enter a).registry Module.loadedKey = _ :=
      Machine.record_enter hm.registry_lt a Module.loadedKey
    rcases hm.record_cases Module.loadedKey with hl | ⟨l, hl, -, hne⟩
    · rw [recordedAs_of_nil hm hl]
      split at hloaded
      · rw [recordedAs_of_table hloaded, Machine.fieldOf_enter_new hm.registry_lt]
      · exact recordedAs_of_nil (hm.enter a) (hloaded.trans hl) name
    · have hkept := (hm.keeps_enter hnil).record hl
      rw [recordedAs_of_table hl, recordedAs_of_table hkept, Machine.fieldOf_enter _ hne]
  · rw [Run.after_of_ok (run_newType a (Metatable.ofType_of_table hr))]

/-- However a host mixes its calls on a fresh machine, each type has a metatable of its own, which is
the table of loaded modules only for the type of that name, and is not changed by later calls
otherwise.  To create a metatable changes nothing that is recorded as loaded. -/
theorem types_have_own_tables (callLimit : Nat) (w : World) (calls : List RegistryCall) :
    let fresh : Session := ⟨Machine.initial callLimit, w⟩
    let returned (c : RegistryCall) (v : Option Value) := (c, v) ∈ results calls fresh
    let s := runAll calls fresh
    (∀ a v, returned (newType a) v →
      (∃ r, v = some (.table r)) ∧ (getType a).run.result? s = v) ∧
    (∀ a b v v', returned (newType a) v → returned (newType b) v' → (v = v' ↔ a = b)) ∧
    (∀ a v v', returned (newType a) v → returned loaded v' → (v = v' ↔ a = Module.loadedKey)) ∧
    (∀ a r, a ≠ Module.loadedKey → returned (newType a) (some (.table r)) → ∀ later,
      (runAll later s).machine.tables[r]? = s.machine.tables[r]?) ∧
    ∀ a name, (recordedAs name).result? ((newType a).run.after s) =
      (recordedAs name).result? s := by
  intro fresh returned s
  obtain ⟨m, hs, hm, -, htells⟩ := steps (Machine.orderly_initial callLimit) calls w
  have hs : s = ⟨m, w⟩ := hs
  have hsame {c c' : RegistryCall} {v v' : Option Value} {a b : String} (hc : c.record? = some a)
      (hc' : c'.record? = some b) (hv : returned c v) (hv' : returned c' v') : v = v' ↔ a = b := by
    obtain ⟨r, rfl, hr⟩ := htells c v hv a hc
    obtain ⟨r', rfl, hr'⟩ := htells c' v' hv' b hc'
    constructor
    · rintro ⟨⟩
      exact hm.record_inj hr hr'
    · rintro rfl
      rw [← hr, ← hr']
  refine ⟨fun a v hv ↦ ?_, fun a b v v' ↦ hsame rfl rfl, fun a v v' ↦ hsame rfl rfl,
    fun a r ha hr later ↦ ?_, fun a name ↦ ?_⟩
  · obtain ⟨r, rfl, hr⟩ := htells _ v hv a rfl
    refine ⟨⟨r, rfl⟩, ?_⟩
    rw [hs, ← hr]
    rfl
  · obtain ⟨_, ⟨⟩, hr⟩ := htells _ _ hr a rfl
    obtain ⟨m', hlater, -, hk, -⟩ := steps hm later w
    rw [hs, hlater, hk.table_eq ha hr]
  · rw [hs]
    exact recordedAs_newType hm a name

/-- The metatable of file handles, the table of loaded modules and a module that is registered after
both. -/
theorem types_have_own_tables_file :
    let fresh : Session := ⟨Machine.initial 200, World.initial⟩
    let calls := [newType "FILE*", loaded]
    let s := runAll calls fresh
    results calls fresh =
        [(newType "FILE*", some (.table 2)), (loaded, some (.table 3))] ∧
      (getType "FILE*").run.result? s = some (.table 2) ∧
      (runAll [register "io" Library.Files.functions] s).machine.tables[2]? =
        s.machine.tables[2]? := by
  intro fresh calls s
  have hnil (name : String) : (Machine.initial 200).fieldOf 1 name = .nil :=
    Machine.fieldOf_initial 200 1 name
  have hloaded : ((Machine.initial 200).enter "FILE*").fieldOf 1 Module.loadedKey = .nil := by
    have hrecord := Machine.record_enter (Machine.orderly_initial 200).registry_lt "FILE*"
      Module.loadedKey
    exact hrecord.trans (if_neg (by decide) |>.trans (hnil _))
  have hresults : results calls fresh =
      [(newType "FILE*", some (.table 2)), (loaded, some (.table 3))] := by
    rw [results_newType (hnil _), results_loaded hloaded, results, Machine.size_enter]
    rfl
  have hfirst : (newType "FILE*", some (.table 2)) ∈ results calls fresh :=
    hresults ▸ List.mem_cons_self
  obtain ⟨htype, -, -, hkept, -⟩ := types_have_own_tables 200 World.initial calls
  exact ⟨hresults, (htype _ _ hfirst).2, hkept _ 2 (by decide) hfirst _⟩

/-- The metatable of the type that has the name of the record of loaded modules is their table. -/
theorem loaded_is_type :
    results [newType Module.loadedKey, loaded] ⟨Machine.initial 200, World.initial⟩ =
      [(newType Module.loadedKey, some (.table 2)), (loaded, some (.table 2))] := by
  have hnil := Machine.fieldOf_initial 200 1 Module.loadedKey
  have hrecord := Machine.record_enter (Machine.orderly_initial 200).registry_lt Module.loadedKey
    Module.loadedKey
  rw [results_newType hnil, results, run_loaded, Run.result?,
    run_newType _ (Metatable.ofType_of_table hrecord)]
  rfl

end RegistryCall

end LuaEmbed
