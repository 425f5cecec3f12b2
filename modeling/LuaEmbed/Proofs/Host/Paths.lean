import LuaEmbed.Proofs.Host.Installation
import LuaEmbed.Proofs.Host.Registry
import LuaEmbed.Proofs.Tables.Chains

/-!
# Dotted paths

A path is followed from table to table, and the tables that are missing are created.  Nothing is
created before something that is no table: what has been created is empty, so from there on all is
missing.  A path with something in its way therefore leaves the heap as it is, and any other
leads, once it has been followed, to a table, to which it leads again.
-/

namespace LuaEmbed

open Run

/-! ## Where names lead -/

namespace Machine

/-- Names lead from a value through fields of tables to another. -/
inductive Leads (m : Machine) : Value → List String → Value → Prop where
  | here (v : Value) : m.Leads v [] v
  | field {r : Ref} {name : String} {names : List String} {v : Value} :
      m.Leads (m.fieldOf r name) names v → m.Leads (.table r) (name :: names) v

/-- On the way along the names is something that is there and is no table. -/
def Blocked (m : Machine) (v : Value) (names : List String) : Prop :=
  ∃ before u, before <+: names ∧ m.Leads v before u ∧ u ≠ .nil ∧ u.kind ≠ .table

/-- A table has got a further one as a field, if there is a name for it. -/
def Gains (t : Table) (name : Option String) (child : Ref) (t' : Table) : Prop :=
  match name with
  | some name => t.Rebound (.string name) (.table child) t'
  | none => t' = t

/-- The heap has one table more for each name.  Each of them is a field of the one before,
the first one of the table that was there, and nothing else is different. -/
structure Grown (m : Machine) (r : Ref) (names : List String) (m' : Machine) : Prop where
  size : m'.tables.size = m.tables.size + names.length
  others {r' : Ref} : r' < m.tables.size → r' ≠ r → m'.tables[r']? = m.tables[r']?
  base {t : Table} : m.tables[r]? = some t →
    ∃ t', m'.tables[r]? = some t' ∧ Gains t names.head? m.tables.size t'
  created {i : Nat} : i < names.length → ∃ t', m'.tables[m.tables.size + i]? = some t' ∧
    Gains .empty names[i + 1]? (m.tables.size + i + 1) t'
  rest : m' = { m with tables := m'.tables }

variable {m m' : Machine} {v u : Value} {r r' : Ref} {name : String}
  {names found missing : List String}

namespace Leads

theorem append (h : m.Leads v found u) {w : Value} (h' : m.Leads u missing w) :
    m.Leads v (found ++ missing) w := by
  induction h with
  | here => exact h'
  | field _ ih => exact .field (ih h')

/-- What leads to a table is a table. -/
theorem exists_table (h : m.Leads v names (.table r)) : ∃ r', v = .table r' := by
  cases h with
  | here => exact ⟨r, rfl⟩
  | field => exact ⟨_, rfl⟩

theorem exists_table_of_cons (h : m.Leads v (name :: names) u) : ∃ r, v = .table r := by
  cases h
  exact ⟨_, rfl⟩

theorem eq_of_nil (h : m.Leads v [] u) : u = v := by
  cases h
  rfl

theorem lt (hm : m.Closed) (hv : ∀ r, v = .table r → r < m.tables.size)
    (h : m.Leads v names (.table r)) : r < m.tables.size := by
  generalize hu : Value.table r = u at h
  induction h with
  | here => exact hv r hu.symm
  | field _ ih => exact ih (fun _ ↦ hm.field_lt) hu

/-- Names that lead to a table are followed to it, and from there the others are. -/
theorem findAlong_append (h : m.Leads v found (.table r)) (missing : List String) (w : World) :
    Module.findAlong v (found ++ missing) ⟨m, w⟩ = Module.findAlong (.table r) missing ⟨m, w⟩ := by
  generalize hu : Value.table r = u at h
  induction h with
  | here => rw [← hu, List.nil_append]
  | field h ih =>
      obtain ⟨next, hnext⟩ := exists_table (hu ▸ h)
      rw [List.cons_append, Module.findAlong_of_table hnext, ← hnext]
      exact ih hu

theorem findAlong {w : World} (h : m.Leads v names (.table r)) :
    Module.findAlong v names ⟨m, w⟩ = .ok (.table r) ⟨m, w⟩ := by
  have hfound := h.findAlong_append [] w
  rw [List.append_nil] at hfound
  exact hfound

end Leads

/-- From a table, names either have something in their way, or lead to a table from which on the
others are missing. -/
theorem blocked_or_leads (m : Machine) (r : Ref) (names : List String) :
    m.Blocked (.table r) names ∨ ∃ found missing r', names = found ++ missing ∧
      m.Leads (.table r) found (.table r') ∧ ∀ name ∈ missing.head?, m.fieldOf r' name = .nil := by
  induction names generalizing r with
  | nil => exact .inr ⟨[], [], r, rfl, .here _, nofun⟩
  | cons name names ih =>
      by_cases hnil : m.fieldOf r name = .nil
      · refine .inr ⟨[], name :: names, r, rfl, .here _, ?_⟩
        rintro _ ⟨⟩
        exact hnil
      · by_cases htable : ∃ next, m.fieldOf r name = .table next
        · obtain ⟨next, hnext⟩ := htable
          rcases ih next with ⟨before, u, hprefix, hleads, hu⟩ |
            ⟨found, missing, r', rfl, hleads, h⟩
          · exact .inl ⟨name :: before, u, List.cons_prefix_cons.2 ⟨rfl, hprefix⟩,
              .field (hnext ▸ hleads), hu⟩
          · exact .inr ⟨name :: found, missing, r', rfl, .field (hnext ▸ hleads), h⟩
        · refine .inl ⟨[name], m.fieldOf r name, ⟨names, rfl⟩, .field (.here _), hnil,
            fun hkind ↦ ?_⟩
          generalize m.fieldOf r name = v at htable hkind
          cases v with
          | table next => exact htable ⟨next, rfl⟩
          | _ => exact nomatch hkind

/-- Names with something in their way are followed to no value, and nothing is created. -/
theorem Blocked.findAlong {w : World} (h : m.Blocked v names) (hnames : names ≠ []) :
    Module.findAlong v names ⟨m, w⟩ = .ok .nil ⟨m, w⟩ := by
  obtain ⟨before, u, hprefix, hleads, hnil, hkind⟩ := h
  induction hleads generalizing names with
  | here v =>
      obtain ⟨name, names, rfl⟩ := List.exists_cons_of_ne_nil hnames
      exact Module.findAlong_of_kind_ne hkind
  | @field r name before u hleads ih =>
      obtain ⟨names, rfl⟩ := hprefix
      rw [List.cons_append]
      cases before with
      | nil =>
          have hu := hleads.eq_of_nil
          exact Module.findAlong_of_field_kind_ne (hu ▸ hnil) (hu ▸ hkind)
      | cons =>
          obtain ⟨next, hnext⟩ := hleads.exists_table_of_cons
          rw [Module.findAlong_of_table hnext, ← hnext]
          exact ih nofun (List.prefix_append ..) hnil hkind

/-! ## What is created -/

/-- The machine with a new table as a field of another. -/
def nest (m : Machine) (r : Ref) (name : String) : Machine :=
  m.addTable.setField r name (.table m.tables.size)

theorem size_nest : (m.nest r name).tables.size = m.tables.size + 1 := by simp [nest]

theorem getElem?_nest_of_ne (hr : r' < m.tables.size) (hne : r' ≠ r) :
    (m.nest r name).tables[r']? = m.tables[r']? := by
  rw [nest, getElem?_setField_of_ne hne, getElem?_addTable hr]

theorem getElem?_nest_self {t : Table} (ht : m.tables[r]? = some t) :
    (m.nest r name).tables[r]? = some (t.setStr name (.table m.tables.size)) := by
  have hr := (Array.getElem?_eq_some_iff.1 ht).1
  rw [nest, setField, Array.getElem?_modify, if_pos rfl, getElem?_addTable hr, ht]
  rfl

theorem getElem?_nest_new (hr : r < m.tables.size) :
    (m.nest r name).tables[m.tables.size]? = some .empty := by
  rw [nest, getElem?_setField_of_ne (Nat.ne_of_gt hr)]
  exact Array.getElem?_push_size

theorem fieldOf_nest_self (hr : r < m.tables.size) (name : String) :
    (m.nest r name).fieldOf r name = .table m.tables.size :=
  fieldOf_setField_self (by simpa using Nat.lt_succ_of_lt hr) ..

theorem fieldOf_nest_new (hr : r < m.tables.size) (name name' : String) :
    (m.nest r name).fieldOf m.tables.size name' = .nil := by
  rw [fieldOf, getElem?_nest_new hr]
  exact Table.getStr_empty name'

namespace Grown

theorem refl (m : Machine) (r : Ref) : m.Grown r [] m where
  size := rfl
  others _ _ := rfl
  base {t} ht := ⟨t, ht, rfl⟩
  created := nofun
  rest := rfl

/-- One table is created, and others hang from it. -/
theorem cons (hr : r < m.tables.size) (h : (m.nest r name).Grown m.tables.size names m') :
    m.Grown r (name :: names) m' where
  size := by
    rw [h.size, size_nest, List.length_cons, Nat.add_assoc, Nat.add_comm 1]
  others {r'} hr' hne := by
    rw [h.others (size_nest ▸ Nat.lt_succ_of_lt hr') (Nat.ne_of_lt hr'),
      getElem?_nest_of_ne hr' hne]
  base {t} ht := by
    refine ⟨t.setStr name (.table m.tables.size), ?_, .setKey rfl t _⟩
    rw [h.others (size_nest ▸ Nat.lt_succ_of_lt hr) (Nat.ne_of_lt hr), getElem?_nest_self ht]
  created {i} hi := by
    cases i with
    | zero =>
        have hbase := h.base (getElem?_nest_new hr)
        rwa [size_nest, List.head?_eq_getElem?] at hbase
    | succ i =>
        have hcreated := h.created (Nat.lt_of_succ_lt_succ hi)
        rwa [size_nest, Nat.add_assoc m.tables.size, Nat.add_comm 1 i] at hcreated
  rest := h.rest

/-- A field that has a value keeps it. -/
theorem fieldOf_eq (h : m.Grown r missing m')
    (hmissing : ∀ name ∈ missing.head?, m.fieldOf r name = .nil)
    (hvalue : m.fieldOf r' name ≠ .nil) : m'.fieldOf r' name = m.fieldOf r' name := by
  have hlt := lt_of_fieldOf hvalue
  by_cases hr : r' = r
  · subst hr
    obtain ⟨t', ht', hgains⟩ := h.base (Array.getElem?_eq_getElem hlt)
    rw [fieldOf, ht', fieldOf, Array.getElem?_eq_getElem hlt, Option.getD_some, Option.getD_some]
    cases missing with
    | nil => rw [show t' = _ from hgains]
    | cons missed missing =>
        have hne : name ≠ missed := fun heq ↦ hvalue (heq ▸ hmissing missed rfl)
        exact hgains.others (.string name) (beq_false_of_ne hne)
  · rw [fieldOf, h.others hlt hr, fieldOf]

end Grown

/-- What leads to a table still does. -/
theorem Leads.grown (hg : m.Grown r missing m')
    (hmissing : ∀ name ∈ missing.head?, m.fieldOf r name = .nil) (h : m.Leads v found (.table r')) :
    m'.Leads v found (.table r') := by
  generalize hu : Value.table r' = u at h
  induction h with
  | here => exact .here _
  | @field r name names u h ih =>
      obtain ⟨next, hnext⟩ := exists_table (hu ▸ h)
      have hvalue : m.fieldOf r name ≠ .nil := hnext ▸ Value.noConfusion
      have hfield := hg.fieldOf_eq hmissing hvalue
      exact .field (hfield ▸ ih hu)

/-- Names that are missing from a table on are created. -/
theorem findAlong_missing (hr : r < m.tables.size)
    (hmissing : ∀ name ∈ names.head?, m.fieldOf r name = .nil) (w : World) :
    ∃ r' m', Module.findAlong (.table r) names ⟨m, w⟩ = .ok (.table r') ⟨m', w⟩ ∧
      m.Grown r names m' ∧ m'.Leads (.table r) names (.table r') := by
  induction names generalizing m r with
  | nil => exact ⟨r, m, rfl, .refl m r, .here _⟩
  | cons name names ih =>
      have hnew := fieldOf_nest_new hr name
      have hfield := fieldOf_nest_self hr name
      obtain ⟨r', m', hfind, hg, hleads⟩ :=
        ih (m := m.nest r name) (size_nest ▸ Nat.lt_succ_self _) fun name' _ ↦ hnew name'
      refine ⟨r', m', ?_, hg.cons hr, .field ?_⟩
      · rw [Module.findAlong_of_nil (hmissing name rfl)]
        exact hfind
      · have hvalue : (m.nest r name).fieldOf r name ≠ .nil :=
          fun hnil ↦ nomatch hfield.symm.trans hnil
        rw [hg.fieldOf_eq (fun name' _ ↦ hnew name') hvalue, hfield]
        exact hleads

end Machine

/-! ## Paths of text -/

section Paths

variable {m : Machine} {w : World} {root : Value} {path : String}

theorem splitOnAux_ne_nil (s sep : String) (b i j : String.Pos.Raw) (found : List String) :
    s.splitOnAux sep b i j found ≠ [] := by
  fun_induction String.splitOnAux s sep b i j found <;> simp_all

theorem splitOn_dot_ne_nil (path : String) : path.splitOn "." ≠ [] := by
  simp [String.splitOn, splitOnAux_ne_nil]

/-- A path from something that is no table, or with something in its way, leads nowhere. -/
theorem Module.findTable_of_blocked
    (h : root.kind ≠ .table ∨ m.Blocked root (path.splitOn ".")) :
    Module.findTable root path ⟨m, w⟩ = .ok .nil ⟨m, w⟩ := by
  rcases h with hkind | hblocked
  · obtain ⟨name, names, hnames⟩ := List.exists_cons_of_ne_nil (splitOn_dot_ne_nil path)
    rw [Module.findTable, hnames, Module.findAlong_of_kind_ne hkind]
  · exact hblocked.findAlong (splitOn_dot_ne_nil path)

/-- Any other path leads to a table, after those that are missing have been created. -/
theorem Module.findTable_of_not_blocked (hm : m.Closed)
    (hroot : ∀ r, root = .table r → r < m.tables.size)
    (h : ¬(root.kind ≠ .table ∨ m.Blocked root (path.splitOn "."))) :
    ∃ r m', Module.findTable root path ⟨m, w⟩ = .ok (.table r) ⟨m', w⟩ ∧
      m'.Leads root (path.splitOn ".") (.table r) ∧
      ∃ found missing r₀, path.splitOn "." = found ++ missing ∧
        m.Leads root found (.table r₀) ∧ (∀ name ∈ missing.head?, m.fieldOf r₀ name = .nil) ∧
        m.Grown r₀ missing m' := by
  rw [not_or, not_not] at h
  cases root with
  | table base =>
      obtain ⟨found, missing, r₀, hnames, hleads, hmissing⟩ :=
        (m.blocked_or_leads base _).resolve_left h.2
      obtain ⟨r, m', hfind, hgrown, hrest⟩ :=
        Machine.findAlong_missing (hleads.lt hm hroot) hmissing w
      refine ⟨r, m', ?_, ?_, found, missing, r₀, hnames, hleads, hmissing, hgrown⟩
      · rw [Module.findTable, hnames, hleads.findAlong_append, hfind]
      · rw [hnames]
        exact (hleads.grown hgrown hmissing).append hrest
  | _ => cases h.1

end Paths

/-! ## Modules by path -/

namespace Module

open RegistryCall

variable {m : Machine} {w : World} {l : Ref} {name : String}

/-- The table of loaded modules is there, or is a new one. -/
theorem loaded_cases (m : Machine) (w : World) :
    (∃ l, m.Loads l ∧ loaded ⟨m, w⟩ = .ok l ⟨m, w⟩) ∨
      loaded ⟨m, w⟩ = .ok m.tables.size ⟨m.enter loadedKey, w⟩ := by
  by_cases h : ∃ l, m.Loads l
  · obtain ⟨l, hl⟩ := h
    exact .inl ⟨l, hl, loaded_of_loads hl⟩
  · rw [not_exists] at h
    rw [loaded_eq_ofType]
    exact .inr (Metatable.ofType_of_ne h)

/-- To look at the table of loaded modules changes no other table than the registry. -/
theorem loaded_others {m' : Machine} (h : loaded ⟨m, w⟩ = .ok l ⟨m', w⟩) :
    m'.globals = m.globals ∧ m'.frames = m.frames ∧
      ∀ r < m.tables.size, r ≠ m.registry → m'.tables[r]? = m.tables[r]? := by
  rcases loaded_cases m w with ⟨l', -, hrun⟩ | hrun
  · cases h.symm.trans hrun
    exact ⟨rfl, rfl, fun _ _ _ ↦ rfl⟩
  · cases h.symm.trans hrun
    refine ⟨rfl, rfl, fun r hr hne ↦ ?_⟩
    rw [Machine.enter, Machine.getElem?_setField_of_ne hne, Machine.getElem?_addTable hr]

/-- A new table of loaded modules records nothing. -/
theorem eq_of_recorded {m' : Machine} {r : Ref} (hm : m.Closed)
    (h : loaded ⟨m, w⟩ = .ok l ⟨m', w⟩) (hr : m'.fieldOf l name = .table r) : m' = m := by
  rcases loaded_cases m w with ⟨l', -, hrun⟩ | hrun
  · cases h.symm.trans hrun
    rfl
  · cases h.symm.trans hrun
    exact nomatch (Machine.fieldOf_enter_new hm.registry_lt ..).symm.trans hr

theorem install_others (r : Ref) (functions : FunctionSet) (m : Machine) (w : World) :
    ∃ m', install r functions ⟨m, w⟩ = .ok () ⟨m', w⟩ ∧ m'.registry = m.registry ∧
      m'.tables.size = m.tables.size ∧ ∀ r' ≠ r, m'.tables[r']? = m.tables[r']? := by
  induction functions generalizing m with
  | nil => exact ⟨m, rfl, rfl, rfl, fun _ _ ↦ rfl⟩
  | cons f functions ih =>
      obtain ⟨name, op⟩ := f
      obtain ⟨m', hrun, hregistry, hsize, hothers⟩ :=
        ih ((m.addFunction (.native name op)).setField r name (.function m.functions.size))
      refine ⟨m', ?_, hregistry, hsize.trans (Machine.size_setField ..), fun r' hne ↦ ?_⟩
      · rw [install, bind_of_ok (newNative_apply ..), bind_of_ok (setStr_apply ..), hrun]
      · rw [hothers r' hne, Machine.getElem?_setField_of_ne hne, Machine.tables_addFunction]

/-- The fault that the name of a module is taken, in the function that called the one that is
running. -/
def taken (m : Machine) (name : String) : Fault :=
  .message .nameConflict (Report.positioned ((m.frames[1]?.map Frame.position).getD "")
    ("name conflict for module(" ++ name ++ ")"))

theorem raise_taken (m : Machine) (w : World) (name : String) :
    (Report.raise .nameConflict (.moduleNameTaken name) : Run Ref) ⟨m, w⟩ =
      .error (.fault (taken m name)) ⟨m, w⟩ :=
  bind_of_ok (Report.location_apply 1 ⟨m, w⟩)

section Register

variable {functions : FunctionSet}

theorem register_of_blocked (hl : m.Loads l) (hr : ∀ r, m.fieldOf l name ≠ .table r)
    (h : m.Blocked (.table m.globals) (name.splitOn ".")) :
    register name functions ⟨m, w⟩ = .error (.fault (taken m name)) ⟨m, w⟩ := by
  rw [register, bind_of_ok (loaded_of_loads hl), bind_of_ok (getStr_apply ..)]
  generalize m.fieldOf l name = v at hr
  cases v with
  | table r => exact (hr r rfl).elim
  | _ =>
      refine (bind_of_ok (machine_apply _)).trans ?_
      rw [bind_of_ok (findTable_of_blocked (.inr h))]
      exact raise_taken m w name

theorem register_of_found {m' : Machine} {r : Ref} (hl : m.Loads l)
    (hr : ∀ r, m.fieldOf l name ≠ .table r)
    (h : findTable (.table m.globals) name ⟨m, w⟩ = .ok (.table r) ⟨m', w⟩) :
    register name functions ⟨m, w⟩ = (do
      install r functions
      Heap.setStr l name (.table r)
      return r : Run Ref) ⟨m', w⟩ := by
  rw [register, bind_of_ok (loaded_of_loads hl), bind_of_ok (getStr_apply ..)]
  generalize m.fieldOf l name = v at hr
  cases v with
  | table r => exact (hr r rfl).elim
  | _ =>
      refine (bind_of_ok (machine_apply _)).trans ?_
      rw [bind_of_ok h]

/-- A module is recorded once it is registered, and nothing changes if its name is taken. -/
theorem register_cases (hm : m.Closed) (hl : m.Loads l) (name : String) (functions : FunctionSet)
    (w : World) :
    register name functions ⟨m, w⟩ = .error (.fault (taken m name)) ⟨m, w⟩ ∧
        m.Blocked (.table m.globals) (name.splitOn ".") ∨
      ∃ r m', register name functions ⟨m, w⟩ = .ok r ⟨m', w⟩ ∧ m'.fieldOf l name = .table r ∧
        (l ≠ m.registry → r ≠ m.registry → m'.Loads l) := by
  by_cases hr : ∃ r, m.fieldOf l name = .table r
  · obtain ⟨r, hr⟩ := hr
    exact .inr ⟨r, m, register_of_recorded (l := (name, functions)) hl hr, hr, fun _ _ ↦ hl⟩
  rw [not_exists] at hr
  by_cases h : m.Blocked (.table m.globals) (name.splitOn ".")
  · exact .inl ⟨register_of_blocked hl hr h, h⟩
  · obtain ⟨r, m₁, hfound, -, -, missing, r₀, -, -, hmissing, hgrown⟩ :=
      findTable_of_not_blocked (w := w) hm (fun _ hr ↦ Value.table.inj hr ▸ hm.globals_lt)
        (not_or.2 ⟨fun hkind ↦ hkind rfl, h⟩)
    obtain ⟨m₂, hinstall, hregistry, hsize, hothers⟩ := install_others r functions m₁ w
    have hlt : l < m₂.tables.size := by
      rw [hsize, hgrown.size]
      exact Nat.lt_add_right _ (hl.lt hm)
    refine .inr ⟨r, m₂.setField l name (.table r), ?_, Machine.fieldOf_setField_self hlt ..,
      fun hne hr ↦ ?_⟩
    · rw [register_of_found hl hr hfound, bind_of_ok hinstall, bind_of_ok (setStr_apply ..)]
      rfl
    · have hkept : m₁.fieldOf m.registry loadedKey = .table l :=
        (hgrown.fieldOf_eq hmissing (hl ▸ Value.noConfusion)).trans hl
      have hsame : m₁.registry = m.registry := by rw [hgrown.rest]
      rw [Machine.Loads, Machine.registry_setField, hregistry, hsame,
        Machine.fieldOf_setField_of_ne _ _ _ _ fun heq ↦ (hne heq.symm).elim, Machine.fieldOf,
        hothers _ hr.symm]
      exact hkept

end Register

/-- A dotted path from a value leads nowhere just if the value is no table or something that is no
table is in the way, and nothing is changed then.  Otherwise it leads to a table once it has been
followed, one table has been created for each name that was missing and nothing else is different,
and to follow it again gives the same table and changes nothing.  A module whose name is taken is a
fault that leaves all as it is when the table of loaded modules has been looked at, with the same
records and globals; one that is registered is recorded; and one that is recorded stays as it is. -/
theorem findTable_creates_missing (m : Machine) (w : World) (hm : m.Closed) :
    (∀ root path, (∀ r, root = .table r → r < m.tables.size) →
      let names := path.splitOn "."
      let blocked := root.kind ≠ .table ∨ m.Blocked root names
      let find := findTable root path
      (blocked → find ⟨m, w⟩ = .ok .nil ⟨m, w⟩) ∧
      (¬blocked → ∃ r m', find ⟨m, w⟩ = .ok (.table r) ⟨m', w⟩ ∧ m'.Leads root names (.table r) ∧
        (∃ found missing r₀, names = found ++ missing ∧ m.Leads root found (.table r₀) ∧
          (∀ name ∈ missing.head?, m.fieldOf r₀ name = .nil) ∧ m.Grown r₀ missing m') ∧
        find ⟨m', w⟩ = .ok (.table r) ⟨m', w⟩)) ∧
    ∀ name functions,
      let result := register name functions ⟨m, w⟩
      let recorded (s : Session) (name : String) := (recordedAs name).result? s
      (∀ e s', result = .error e s' → e = .fault (taken m name) ∧
        s'.machine.Blocked (.table m.globals) (name.splitOn ".") ∧
        (∃ l, loaded ⟨m, w⟩ = .ok l s') ∧ s'.machine.globals = m.globals ∧
        (∀ r < m.tables.size, r ≠ m.registry → s'.machine.tables[r]? = m.tables[r]?) ∧
        ∀ a, recorded s' a = recorded ⟨m, w⟩ a) ∧
      (∀ r s', result = .ok r s' → ∃ l s₁, loaded ⟨m, w⟩ = .ok l s₁ ∧
        s'.machine.fieldOf l name = .table r ∧
        (l ≠ m.registry → r ≠ m.registry → recorded s' name = some (.table r))) ∧
      ∀ r, recorded ⟨m, w⟩ name = some (.table r) → result = .ok r ⟨m, w⟩ := by
  constructor
  · intro root path hroot names blocked find
    refine ⟨findTable_of_blocked, fun h ↦ ?_⟩
    obtain ⟨r, m', hfind, hleads, hgrown⟩ := findTable_of_not_blocked hm hroot h
    exact ⟨r, m', hfind, hleads, hgrown, hleads.findAlong⟩
  · intro name functions result recorded
    obtain ⟨l, m₁, hrun, he, hl⟩ := loaded_extends hm w
    have hm₁ := he.closed hm
    have hrecorded := recordedAs_of_loaded hrun
    have hresult : result = register name functions ⟨m₁, w⟩ :=
      bind_congr_start (hrun.trans (loaded_of_loads hl).symm)
    refine ⟨fun e s' h ↦ ?_, fun r s' h ↦ ?_, fun r hr ↦ ?_⟩
    · rcases register_cases hm₁ hl name functions w with ⟨herror, hblocked⟩ | ⟨r, m', hok, -⟩
      · cases (hresult.trans herror).symm.trans h
        obtain ⟨hglobals, hframes, hothers⟩ := loaded_others hrun
        refine ⟨?_, hglobals ▸ hblocked, ⟨l, hrun⟩, hglobals, hothers, fun a ↦ ?_⟩
        · rw [taken, hframes, taken]
        · exact (recordedAs_of_table hl a).trans (hrecorded a).symm
      · exact nomatch (hresult.trans hok).symm.trans h
    · rcases register_cases hm₁ hl name functions w with ⟨herror, -⟩ | ⟨r', m', hok, hfield, hloads⟩
      · exact nomatch (hresult.trans herror).symm.trans h
      · cases (hresult.trans hok).symm.trans h
        refine ⟨l, _, hrun, hfield, fun hne hr ↦ ?_⟩
        rw [← he.registry_eq] at hne hr
        exact (recordedAs_of_table (hloads hne hr) name).trans (congrArg some hfield)
    · have hr := Option.some.inj ((hrecorded name).symm.trans hr)
      rw [hresult, register_of_recorded (l := (name, functions)) hl hr, eq_of_recorded hm hrun hr]

/-- Two tables are created on a new machine, and found there. -/
theorem findTable_creates_missing_nested :
    let find (m : Machine) := findTable (.table 0) "a.b" ⟨m, World.initial⟩
    let m := Machine.initial 200
    m.Closed ∧ ∃ r m', find m = .ok (.table r) ⟨m', World.initial⟩ ∧ m'.tables.size = 4 ∧
      find m' = .ok (.table r) ⟨m', World.initial⟩ := by
  intro find m
  have hnil := Machine.fieldOf_initial 200
  have hnames : "a.b".splitOn "." = ["a", "b"] := by
    simp +decide [String.splitOn]
    iterate 4
      rw [String.splitOnAux]
      simp +decide
  have hopen : ¬(Value.kind (.table 0) ≠ .table ∨ m.Blocked (.table 0) ("a.b".splitOn ".")) := by
    rintro (hkind | ⟨before, u, -, hleads, hvalue, hkind⟩)
    · exact hkind rfl
    · cases hleads with
      | here => exact hkind rfl
      | field hleads =>
          rw [hnil] at hleads
          cases hleads
          exact hvalue rfl
  have hclosed := Machine.closed_initial 200
  obtain ⟨r, m', hfind, -, ⟨found, missing, r₀, hsplit, hleads, -, hgrown⟩, hagain⟩ :=
    ((findTable_creates_missing m World.initial hclosed).1 (.table 0) "a.b"
      (fun _ hr ↦ Value.table.inj hr ▸ hclosed.globals_lt)).2 hopen
  refine ⟨hclosed, r, m', hfind, ?_, hagain⟩
  -- The table has no fields, so both names are missing.
  cases hleads with
  | here =>
      rw [hgrown.size, ← List.nil_append missing, ← hsplit, hnames]
      rfl
  | field hleads =>
      rw [hnil] at hleads
      cases hleads

end Module

end LuaEmbed
