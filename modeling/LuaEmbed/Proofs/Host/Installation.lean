import LuaEmbed.Proofs.Host.Fields

/-!
# Opening the libraries twice

A library that is opened gives values to some string keys of tables.  Whether it has been opened is
told by some of these keys, and a library that is opened later has other keys: it may be opened again,
and finds everything in place.  One assignment is made each time, that of the global `require`, which
becomes a new function; nothing else is changed by the second opening.
-/

namespace LuaEmbed

open Run.Logic.Agree (libraries splitOn_of_mem_libraries)

/-! ## Machines that libraries are opened on -/

namespace Machine

/-- The registry, the table of global variables, and all tables that string keys lead to are in the
heap. -/
structure Closed (m : Machine) : Prop where
  registry_lt : m.registry < m.tables.size
  globals_lt : m.globals < m.tables.size
  field_lt {r r' : Ref} {key : String} : m.fieldOf r key = .table r' → r' < m.tables.size

/-- No library finds something in the place of its module that is no table. -/
def Admits (m : Machine) : Prop :=
  ∀ l ∈ libraries, (m.fieldOf m.globals l.1).kind = .nil ∨ (m.fieldOf m.globals l.1).kind = .table

/-- The table of loaded modules. -/
def Loads (m : Machine) (loaded : Ref) : Prop :=
  m.fieldOf m.registry Module.loadedKey = .table loaded

/-- In the tables that were there, only some string keys have other values. -/
structure Extends (keys : List String) (m m' : Machine) : Prop where
  registry_eq : m'.registry = m.registry
  globals_eq : m'.globals = m.globals
  size_le : m.tables.size ≤ m'.tables.size
  field_eq {r : Ref} {key : String} : r < m.tables.size → key ∉ keys →
    m'.fieldOf r key = m.fieldOf r key
  isSome_stringMetatable : m.stringMetatable.isSome → m'.stringMetatable.isSome
  closed : m.Closed → m'.Closed
  admits : m.Closed → m.Admits → m'.Admits

/-- Where string keys lead to tables in the heap, so does every table that is recorded. -/
theorem Loads.lt {m : Machine} {loaded : Ref} (hm : m.Closed) (h : m.Loads loaded) :
    loaded < m.tables.size := hm.field_lt h

namespace Extends

variable {keys keys' : List String} {m m' m'' : Machine} {r : Ref} {key : String} {v : Value}

/-- The elementary changes other than that of a string key. -/
theorem of_fields (hregistry : m'.registry = m.registry) (hglobals : m'.globals = m.globals)
    (hsize : m.tables.size ≤ m'.tables.size)
    (hfield : ∀ r key, m'.fieldOf r key = m.fieldOf r key)
    (hstrings : m.stringMetatable.isSome → m'.stringMetatable.isSome) : m.Extends keys m' where
  registry_eq := hregistry
  globals_eq := hglobals
  size_le := hsize
  field_eq _ _ := hfield ..
  isSome_stringMetatable := hstrings
  closed h := by
    refine ⟨?_, ?_, fun {r r' key} hr ↦ Nat.lt_of_lt_of_le (h.field_lt (hfield r key ▸ hr)) hsize⟩
    · exact hregistry ▸ Nat.lt_of_lt_of_le h.registry_lt hsize
    · exact hglobals ▸ Nat.lt_of_lt_of_le h.globals_lt hsize
  admits _ h l hl := by simpa only [hglobals, hfield] using h l hl

theorem refl (keys : List String) (m : Machine) : m.Extends keys m :=
  of_fields rfl rfl (Nat.le_refl _) (fun _ _ ↦ rfl) id

theorem trans (h : m.Extends keys m') (h' : m'.Extends keys' m'') :
    m.Extends (keys ++ keys') m'' where
  registry_eq := h'.registry_eq.trans h.registry_eq
  globals_eq := h'.globals_eq.trans h.globals_eq
  size_le := Nat.le_trans h.size_le h'.size_le
  field_eq hr hkey := by
    rw [List.mem_append, not_or] at hkey
    exact (h'.field_eq (Nat.lt_of_lt_of_le hr h.size_le) hkey.2).trans (h.field_eq hr hkey.1)
  isSome_stringMetatable hm := h'.isSome_stringMetatable (h.isSome_stringMetatable hm)
  closed hm := h'.closed (h.closed hm)
  admits hm ha := h'.admits (h.closed hm) (h.admits hm ha)

theorem mono (h : m.Extends keys m') (hkeys : ∀ key ∈ keys, key ∈ keys') : m.Extends keys' m' :=
  { h with field_eq := fun hr hkey ↦ h.field_eq hr fun hmem ↦ hkey (hkeys _ hmem) }

/-- A key that is not given a value keeps the one that it has. -/
theorem kept (h : m.Extends keys m') (hv : m.fieldOf r key = v) (hne : v ≠ .nil)
    (hkey : key ∉ keys) : m'.fieldOf r key = v :=
  (h.field_eq (lt_of_fieldOf (hv ▸ hne)) hkey).trans hv

theorem kept_ne_nil (h : m.Extends keys m') (hne : m.fieldOf r key ≠ .nil) (hkey : key ∉ keys) :
    m'.fieldOf r key ≠ .nil := by rwa [h.kept rfl hne hkey]

theorem loads {loaded : Ref} (h : m.Extends keys m') (hl : m.Loads loaded)
    (hkey : Module.loadedKey ∉ keys) : m'.Loads loaded := by
  rw [Loads, h.registry_eq]
  exact h.kept hl nofun hkey

theorem addTable (keys : List String) (m : Machine) : m.Extends keys m.addTable :=
  of_fields rfl rfl (by simp) (fun r key ↦ fieldOf_addTable m r key) id

theorem addFunction (keys : List String) (m : Machine) (f : Function) :
    m.Extends keys (m.addFunction f) :=
  of_fields rfl rfl (Nat.le_refl _) (fun _ _ ↦ rfl) id

theorem addUserdata (keys : List String) (m : Machine) (u : Userdata) :
    m.Extends keys (m.addUserdata u) :=
  of_fields rfl rfl (Nat.le_refl _) (fun _ _ ↦ rfl) id

/-- A string key is given a value.  Keys of new tables do not count. -/
theorem setField (h : m.Extends keys m') (hkey : key ∈ keys ∨ m.tables.size ≤ r)
    (hv : ∀ r', v = .table r' → r' < m'.tables.size)
    (hname : ∀ l ∈ libraries, l.1 = key → v.kind = .table) :
    m.Extends keys (m'.setField r key v) where
  registry_eq := h.registry_eq
  globals_eq := h.globals_eq
  size_le := by simpa using h.size_le
  field_eq {r' key'} hr hkey' := by
    rw [fieldOf_setField_of_ne _ _ _ _ fun hr' heq ↦ ?_, h.field_eq hr hkey']
    exact hkey.elim (fun hmem ↦ hkey' (heq ▸ hmem)) fun hle ↦
      Nat.not_lt.2 hle (hr' ▸ hr)
  isSome_stringMetatable := h.isSome_stringMetatable
  closed hm := by
    have hm' := h.closed hm
    refine ⟨by simpa using hm'.registry_lt, by simpa using hm'.globals_lt,
      fun {r' r'' key'} hr ↦ ?_⟩
    rw [size_setField]
    rw [fieldOf_setField] at hr
    split at hr
    · exact hv _ hr
    · exact hm'.field_lt hr
  admits hm ha l hl := by
    rw [globals_setField, fieldOf_setField]
    split
    · next heq => exact .inr (hname l hl heq.2.2)
    · exact h.admits hm ha l hl

end Extends

end Machine

/-! ## Runs that install something -/

namespace Run

open Machine

variable {α β : Type} {keys keys' : List String} {m m' : Machine} {w : World} {r : Run α}
  {P Q : α → Machine → Prop}

/-- The run gives values to some string keys only, leaves the surroundings alone, and gives a result
that has a property together with the machine after it; it can fail only on a machine that does not
admit a library. -/
def Installs (keys : List String) (m : Machine) (w : World) (r : Run α)
    (Q : α → Machine → Prop) : Prop :=
  (∃ a m', r ⟨m, w⟩ = .ok a ⟨m', w⟩ ∧ m.Extends keys m' ∧ Q a m') ∨
    ¬m.Admits ∧ ∃ e s, r ⟨m, w⟩ = .error e s

namespace Installs

theorem of_ok {a : α} (h : r ⟨m, w⟩ = .ok a ⟨m', w⟩) (he : m.Extends keys m') (hQ : Q a m') :
    Installs keys m w r Q := .inl ⟨a, m', h, he, hQ⟩

/-- What is left to do on a machine that was come to. -/
theorem step {r' : Run α} (hm : m.Closed) (he : m.Extends keys m')
    (heq : r ⟨m, w⟩ = r' ⟨m', w⟩) (h : Installs keys' m' w r' Q) :
    Installs (keys ++ keys') m w r Q := by
  rcases h with ⟨a, m'', hr, he', ha⟩ | ⟨hm', e, s, hr⟩
  · exact .inl ⟨a, m'', heq.trans hr, he.trans he', ha⟩
  · exact .inr ⟨fun h ↦ hm' (he.admits hm h), e, s, heq.trans hr⟩

theorem bind {f : α → Run β} {Q : β → Machine → Prop} (hm : m.Closed)
    (h : Installs keys m w r P)
    (hf : ∀ a m', m.Extends keys m' → P a m' → Installs keys' m' w (f a) Q) :
    Installs (keys ++ keys') m w (r >>= f) Q := by
  rcases h with ⟨a, m', hr, he, ha⟩ | ⟨hm', e, s, hr⟩
  · exact step hm he (bind_of_ok hr) (hf a m' he ha)
  · exact .inr ⟨hm', e, s, bind_of_error hr⟩

/-- Only what the run does on the machine matters. -/
theorem congr {r' : Run α} (heq : r ⟨m, w⟩ = r' ⟨m, w⟩) (h : Installs keys m w r' Q) :
    Installs keys m w r Q := by rwa [Installs, heq]

theorem mono (h : Installs keys m w r P) (hkeys : ∀ key ∈ keys, key ∈ keys')
    (hPQ : ∀ a m', m.Extends keys m' → P a m' → Q a m') : Installs keys' m w r Q :=
  h.imp_left fun ⟨a, m', hr, he, ha⟩ ↦ ⟨a, m', hr, he.mono hkeys, hPQ a m' he ha⟩

/-- The first part gives no keys values. -/
theorem nil_bind {f : α → Run β} {Q : β → Machine → Prop} (hm : m.Closed)
    (h : Installs [] m w r P)
    (hf : ∀ a m', m.Extends [] m' → P a m' → Installs keys m' w (f a) Q) :
    Installs keys m w (r >>= f) Q := bind hm h hf

/-- The second part gives no keys values. -/
theorem bind_nil {f : α → Run β} {Q : β → Machine → Prop} (hm : m.Closed)
    (h : Installs keys m w r P)
    (hf : ∀ a m', m.Extends keys m' → P a m' → Installs [] m' w (f a) Q) :
    Installs keys m w (r >>= f) Q := by
  have hbind := bind hm h hf
  rwa [List.append_nil] at hbind

/-- If the run succeeds, the machine after it is told of. -/
theorem exists_of_ok {a : α} {s : Session} (h : Installs keys m w r Q) (hr : r ⟨m, w⟩ = .ok a s) :
    ∃ m', s = ⟨m', w⟩ ∧ m.Extends keys m' ∧ Q a m' := by
  rcases h with ⟨a', m', hr', he, ha⟩ | ⟨_, e, s', hr'⟩
  · cases hr.symm.trans hr'
    exact ⟨m', rfl, he, ha⟩
  · exact nomatch hr.symm.trans hr'

/-- A field of a table in the heap is given a value. -/
theorem setStr {r : Ref} {key : String} {v : Value} (hr : r < m.tables.size)
    (hv : ∀ r', v = .table r' → r' < m.tables.size)
    (hname : ∀ l ∈ libraries, l.1 = key → v.kind = .table) :
    Installs [key] m w (Heap.setStr r key v) fun _ m' ↦ m'.fieldOf r key = v :=
  of_ok (setStr_apply ..) ((Extends.refl ..).setField (.inl List.mem_cons_self) hv hname)
    (fieldOf_setField_self hr ..)

theorem setGlobal {name : String} {v : Value} (hm : m.Closed)
    (hv : ∀ r', v = .table r' → r' < m.tables.size)
    (hname : ∀ l ∈ libraries, l.1 = name → v.kind = .table) :
    Installs [name] m w (Module.setGlobal name v) fun _ m' ↦ m'.fieldOf m.globals name = v :=
  congr (bind_of_ok (machine_apply _)) (setStr hm.globals_lt hv hname)

end Installs

theorem Installs.newTable :
    Installs [] m w Heap.newTable fun r m' ↦ r < m'.tables.size :=
  of_ok newTable_apply (.addTable ..) (by simp)

theorem Installs.newNative (name : String) (op : Native) :
    Installs [] m w (Heap.newNative name op) fun v _ ↦ v.kind = .function :=
  of_ok (newNative_apply ..) (.addFunction ..) rfl

theorem install_extends (functions : Module.FunctionSet) (r : Ref)
    (hname : ∀ f ∈ functions, ∀ l ∈ libraries, l.1 ≠ f.1) (m : Machine) (w : World) :
    ∃ m', Module.install r functions ⟨m, w⟩ = .ok () ⟨m', w⟩ ∧
      m.Extends (functions.map Prod.fst) m' := by
  induction functions generalizing m with
  | nil => exact ⟨m, rfl, .refl ..⟩
  | cons f functions ih =>
      obtain ⟨name, op⟩ := f
      obtain ⟨hne, hname⟩ := List.forall_mem_cons.1 hname
      have hset : m.Extends [name] ((m.addFunction (.native name op)).setField r name _) :=
        (Extends.addFunction ..).setField (v := .function m.functions.size)
          (.inl List.mem_cons_self) nofun fun l hl heq ↦ (hne l hl heq).elim
      obtain ⟨m', hrest, h'⟩ := ih hname ((m.addFunction (.native name op)).setField r name _)
      refine ⟨m', ?_, hset.trans h'⟩
      rw [Module.install, bind_of_ok (newNative_apply ..), bind_of_ok (setStr_apply ..), hrest]

/-- The metatable of a type is recorded from its first use on. -/
theorem ofType_extends (hm : m.Closed) (name : String) (w : World) :
    ∃ r m', Metatable.ofType name ⟨m, w⟩ = .ok r ⟨m', w⟩ ∧ m.Extends [name] m' ∧
      m'.fieldOf m'.registry name = .table r := by
  by_cases h : ∃ r, m.fieldOf m.registry name = .table r
  · obtain ⟨r, hr⟩ := h
    exact ⟨r, m, Metatable.ofType_of_table hr, .refl .., hr⟩
  · rw [not_exists] at h
    refine ⟨_, _, Metatable.ofType_of_ne h, ?_, (record_enter hm.registry_lt ..).trans (if_pos rfl)⟩
    refine (Extends.addTable ..).setField (.inl List.mem_cons_self) ?_ fun _ _ _ ↦ rfl
    rintro _ ⟨⟩
    simp

theorem loaded_extends (hm : m.Closed) (w : World) :
    ∃ loaded m', Module.loaded ⟨m, w⟩ = .ok loaded ⟨m', w⟩ ∧ m.Extends [Module.loadedKey] m' ∧
      m'.Loads loaded := by
  rw [Module.loaded_eq_ofType]
  exact ofType_extends hm Module.loadedKey w

theorem loaded_of_loads {loaded : Ref} (h : m.Loads loaded) :
    Module.loaded ⟨m, w⟩ = .ok loaded ⟨m, w⟩ := by
  rw [Module.loaded_eq_ofType, Metatable.ofType_of_table h]

section Register

variable {loaded : Ref} {l : String × Module.FunctionSet}

theorem register_of_recorded {r : Ref} (hl : m.Loads loaded)
    (hr : m.fieldOf loaded l.1 = .table r) :
    Module.register l.1 l.2 ⟨m, w⟩ = .ok r ⟨m, w⟩ := by
  rw [Module.register, bind_of_ok (loaded_of_loads hl), bind_of_ok (getStr_apply ..), hr]
  rfl

/-- The module of a library is a table that is found in its place, or a new one. -/
theorem Installs.findTable (h : l ∈ libraries) (hm : m.Closed) :
    (∃ r m', Module.findTable (.table m.globals) l.1 ⟨m, w⟩ = .ok (.table r) ⟨m', w⟩ ∧
      m.Extends [l.1] m' ∧ m'.fieldOf m.globals l.1 = .table r ∧
      ∀ r', m.fieldOf m.globals l.1 = .table r' → r' = r) ∨
    ¬m.Admits ∧ Module.findTable (.table m.globals) l.1 ⟨m, w⟩ = .ok .nil ⟨m, w⟩ := by
  rw [Module.findTable, splitOn_of_mem_libraries l h, Module.findAlong,
    bind_of_ok (getStr_apply ..)]
  cases hv : m.fieldOf m.globals l.1 with
  | nil =>
      refine .inl ⟨m.tables.size, m.addTable.setField m.globals l.1 (.table m.tables.size), rfl,
        (Extends.addTable ..).setField (.inl List.mem_cons_self) ?_ fun _ _ _ ↦ rfl, ?_, ?_⟩
      · rintro _ ⟨⟩
        simp
      · exact fieldOf_setField_self (by simpa using Nat.lt_succ_of_lt hm.globals_lt) ..
      · rintro r' ⟨⟩
  | table r => exact .inl ⟨r, m, rfl, .refl .., hv, fun r' hr' ↦ (Value.table.inj hr').symm⟩
  | boolean | number | string | function | userdata | thread =>
      refine .inr ⟨fun ha ↦ ?_, rfl⟩
      rcases ha l h with hk | hk <;> rw [hv] at hk <;> cases hk

/-- A library is registered as a module. -/
theorem Installs.register (h : l ∈ libraries) (hm : m.Closed) (hl : m.Loads loaded) :
    Installs (l.1 :: l.2.map Prod.fst) m w (Module.register l.1 l.2) fun r m' ↦
      m'.fieldOf loaded l.1 = .table r ∧
        ∀ r', m.fieldOf m.globals l.1 = .table r' → m'.fieldOf m.globals l.1 = .table r' := by
  have hnames : ∀ l ∈ libraries, ∀ f ∈ l.2, ∀ l' ∈ libraries, l'.1 ≠ f.1 := by decide +kernel
  have hloaded : loaded < m.tables.size := hm.field_lt hl
  refine congr (bind_of_ok (loaded_of_loads hl)) (congr (bind_of_ok (getStr_apply ..)) ?_)
  split
  · next r hr => exact of_ok rfl (.refl ..) ⟨hr, fun r' hr' ↦ hr'⟩
  · refine congr (bind_of_ok (machine_apply _)) ?_
    rcases findTable h hm with ⟨r, m₁, hfind, h₁, hr, hglobal⟩ | ⟨ha, hfind⟩
    · -- The functions of the module do not have the names of libraries.
      obtain ⟨m₂, hinstall, h₂⟩ := install_extends l.2 r (hnames l h) m₁ w
      have hm₁ := h₁.closed hm
      have hkey : l.1 ∉ l.2.map Prod.fst := fun hmem ↦ by
        obtain ⟨f, hf, heq⟩ := List.mem_map.1 hmem
        exact hnames l h f hf l h heq.symm
      have hr₂ := h₂.kept hr nofun hkey
      have hsize : loaded < m₂.tables.size :=
        Nat.lt_of_lt_of_le hloaded (Nat.le_trans h₁.size_le h₂.size_le)
      refine of_ok ?_ ((h₁.trans h₂).setField (r := loaded) (v := .table r)
        (.inl List.mem_cons_self) ?_ fun _ _ _ ↦ rfl)
        ⟨fieldOf_setField_self hsize .., fun r' hr' ↦ ?_⟩
      · rw [bind_of_ok hfind]
        exact (bind_of_ok hinstall).trans (bind_of_ok (setStr_apply ..))
      · rintro _ ⟨⟩
        exact Nat.lt_of_lt_of_le (hm₁.field_lt hr) h₂.size_le
      · rw [fieldOf_setField, hglobal r' hr', hr₂, ite_self]
    · refine .inr ⟨ha, ?_⟩
      rw [bind_of_ok hfind]
      exact ⟨_, _, rfl⟩

end Register

end Run

/-! ## Libraries -/

open Machine Run

/-- A library that is opened beside a table of loaded modules, and that can be found opened. -/
structure Opener where
  /-- What is done to open the library. -/
  run : Run Unit
  /-- The string keys that are given values. -/
  writes : List String
  /-- The library is open, beside a table of loaded modules. -/
  IsOpen : Machine → Ref → Prop
  /-- The string keys that tell so. -/
  reads : List String
  loadedKey_not_mem : Module.loadedKey ∉ writes
  opens {m : Machine} {w : World} {loaded : Ref} : m.Closed → m.Loads loaded →
    run.Installs writes m w fun _ m' ↦ IsOpen m' loaded
  stays {m m' : Machine} {loaded : Ref} {keys : List String} : IsOpen m loaded →
    m.Extends keys m' → (∀ key ∈ reads, key ∉ keys) → IsOpen m' loaded
  /-- A library that is open is not opened again. -/
  idle {m : Machine} {w : World} {loaded : Ref} : m.Loads loaded → IsOpen m loaded →
    run ⟨m, w⟩ = .ok () ⟨m, w⟩

namespace Opener

open Library

variable {m : Machine} {w : World} {loaded : Ref}

theorem loadedKey_not_mem_names :
    ∀ l ∈ libraries, Module.loadedKey ∉ l.1 :: l.2.map Prod.fst := by decide +kernel

/-- A library that is a module and no more. -/
def ofModule (l : String × Module.FunctionSet) (h : l ∈ libraries) : Opener where
  run := do
    let _ ← Module.register l.1 l.2
  writes := l.1 :: l.2.map Prod.fst
  IsOpen m loaded := ∃ r, m.fieldOf loaded l.1 = .table r
  reads := [l.1]
  loadedKey_not_mem := loadedKey_not_mem_names l h
  opens hm hl := by
    refine (Installs.register h hm hl).bind_nil hm fun r m' _ hr ↦ ?_
    exact .of_ok rfl (.refl ..) ⟨r, hr.1⟩
  stays := fun ⟨r, hr⟩ he hkeys ↦ ⟨r, he.kept hr nofun (hkeys _ List.mem_cons_self)⟩
  idle := fun hl ⟨r, hr⟩ ↦ bind_of_ok (register_of_recorded hl hr)

/-- The base library stands in the table of global variables, which it shows under two names. -/
def base : Opener where
  run := Base.openLibrary
  writes := ["_G"] ++ ("_G" :: Base.functions.map Prod.fst ++ ["_VERSION"])
  IsOpen m loaded := (∃ r, m.fieldOf loaded "_G" = .table r) ∧
    m.fieldOf m.globals "_G" = .table m.globals ∧
    m.fieldOf m.globals "_VERSION" = .string "Lua 5.1"
  reads := ["_G", "_VERSION"]
  loadedKey_not_mem := by decide +kernel
  opens {m w loaded} hm hl := by
    have hmem : ("_G", Base.functions) ∈ libraries := by decide
    refine .congr (bind_of_ok (machine_apply _)) ?_
    refine (Installs.setGlobal hm (fun _ h ↦ by cases h; exact hm.globals_lt)
      fun _ _ _ ↦ rfl).bind hm fun _ m₁ h₁ hG ↦ ?_
    have hm₁ := h₁.closed hm
    rw [← h₁.globals_eq] at hG
    refine (Installs.register hmem hm₁ (h₁.loads hl (by decide))).bind hm₁
      fun r m₂ h₂ hr ↦ ?_
    refine (Installs.setGlobal (v := .string _) (h₂.closed hm₁) nofun (by decide)).mono
      (fun _ h ↦ h) fun _ m₃ h₃ hversion ↦ ?_
    refine ⟨⟨r, h₃.kept hr.1 nofun (by decide)⟩, ?_, h₃.globals_eq ▸ hversion⟩
    rw [h₃.globals_eq, h₂.globals_eq]
    exact h₃.kept (hr.2 _ hG) nofun (by decide)
  stays := fun ⟨⟨r, hr⟩, hG, hversion⟩ he hkeys ↦ by
    have hkey : "_G" ∉ _ := hkeys _ List.mem_cons_self
    refine ⟨⟨r, he.kept hr nofun hkey⟩, ?_, ?_⟩ <;> rw [he.globals_eq]
    · exact he.kept hG nofun hkey
    · exact he.kept hversion nofun (hkeys _ (by decide))
  idle {m w loaded} := fun hl ⟨⟨r, hr⟩, hG, hversion⟩ ↦ by
    have hset {name : String} {v : Value} (h : m.fieldOf m.globals name = v) (hne : v ≠ .nil) :
        Module.setGlobal name v ⟨m, w⟩ = .ok () ⟨m, w⟩ := by
      rw [Module.setGlobal, bind_of_ok (machine_apply _), setStr_apply, setField_self h hne]
    rw [Base.openLibrary, bind_of_ok (machine_apply _), bind_of_ok (hset hG nofun),
      bind_of_ok (register_of_recorded (l := ("_G", Base.functions)) hl hr)]
    exact hset hversion nofun

/-- Handles are put under names that have no value. -/
theorem installHandles {r mt : Ref} {handles : List (String × FileHandle)} (hm : m.Closed)
    (hr : r < m.tables.size) (hmt : m.fieldOf m.registry Files.handleType = .table mt)
    (htype : Files.handleType ∉ handles.map Prod.fst) (hnodup : (handles.map Prod.fst).Nodup)
    (hname : ∀ h ∈ handles, ∀ l ∈ libraries, l.1 ≠ h.1) :
    Installs (handles.map Prod.fst) m w (Files.installHandles r handles) fun _ m' ↦
      ∀ h ∈ handles, m'.fieldOf r h.1 ≠ .nil := by
  induction handles generalizing m with
  | nil => exact .of_ok rfl (.refl ..) nofun
  | cons h handles ih =>
      obtain ⟨name, handle⟩ := h
      obtain ⟨hne, hname⟩ := List.forall_mem_cons.1 hname
      obtain ⟨hnot, hnodup⟩ := List.nodup_cons.1 hnodup
      obtain ⟨htype', htype⟩ := List.ne_and_not_mem_of_not_mem_cons htype
      have hrest {m₁ : Machine} (h₁ : m.Extends [name] m₁) (hv : m₁.fieldOf r name ≠ .nil) :
          Installs (handles.map Prod.fst) m₁ w (Files.installHandles r handles) fun _ m' ↦
            ∀ h ∈ (name, handle) :: handles, m'.fieldOf r h.1 ≠ .nil := by
        have hmt₁ := h₁.kept hmt nofun (by simpa using htype')
        refine (ih (h₁.closed hm) (Nat.lt_of_lt_of_le hr h₁.size_le) (h₁.registry_eq ▸ hmt₁) htype
          hnodup hname).mono (fun _ h ↦ h) fun _ m₂ h₂ hall ↦ ?_
        exact List.forall_mem_cons.2 ⟨h₂.kept_ne_nil hv hnot, hall⟩
      refine .congr (bind_of_ok (getStr_apply ..)) ?_
      split
      · -- The metatable of the new handle is there, so that only the userdata is added.
        have hnew : Files.newHandle handle ⟨m, w⟩ =
            .ok (.userdata m.userdata.size) ⟨m.addUserdata ⟨.file handle, some mt⟩, w⟩ :=
          bind_of_ok (Metatable.ofType_of_table hmt)
        have hset := (Extends.addUserdata [name] m ⟨.file handle, some mt⟩).setField (r := r)
          (v := .userdata m.userdata.size) (.inl List.mem_cons_self) nofun
          fun l hl heq ↦ (hne l hl heq).elim
        rw [← bind_assoc]
        refine .step hm hset (bind_of_ok ((bind_of_ok hnew).trans (setStr_apply ..))) (hrest hset ?_)
        rw [fieldOf_setField_self (m := m.addUserdata _) hr]
        nofun
      · next hv =>
        exact (hrest (.refl ..) fun h ↦ hv (Value.isNil_iff.2 h)).mono
          (fun _ ↦ List.mem_cons_of_mem _) fun _ _ _ h ↦ h

/-- The methods of file handles are put into their metatable, unless it has some. -/
def installMethods (mt : Ref) : Run Unit := do
  if (← Heap.getStr mt "__index").isNil then
    let table ← Heap.newTable
    Module.install table Files.methods
    let tostring ← Heap.newNative "tostring" (.file .handleTostring)
    Heap.setStr mt "__index" (.table table)
    Heap.setStr mt "__tostring" tostring

theorem openFiles_eq : Files.openLibrary = (do
    let library ← Module.register "io" Files.functions
    let mt ← Metatable.ofType Files.handleType
    installMethods mt
    Files.installHandles library Files.standardHandles) := by
  unfold Files.openLibrary installMethods
  simp only [bind_assoc]
  refine bind_congr fun library ↦ bind_congr fun mt ↦ bind_congr fun index ↦ ?_
  split <;> simp

theorem installMethods_installs {mt : Ref} (hm : m.Closed) (hmt : mt < m.tables.size) :
    Installs (Files.methods.map Prod.fst ++ ["__index", "__tostring"]) m w (installMethods mt)
      fun _ m' ↦ m'.fieldOf mt "__index" ≠ .nil := by
  refine .congr (bind_of_ok (getStr_apply ..)) ?_
  split
  · refine Installs.newTable.nil_bind hm fun table m₁ h₁ htable ↦ ?_
    have hm₁ := h₁.closed hm
    obtain ⟨m₂, hinstall, h₂⟩ := install_extends Files.methods table (by decide) m₁ w
    have hm₂ := h₂.closed hm₁
    refine .step hm₁ h₂ (bind_of_ok hinstall) ?_
    refine (Installs.newNative ..).nil_bind hm₂ fun tostring m₃ h₃ htostring ↦ ?_
    have hm₃ := h₃.closed hm₂
    have hle := Nat.le_trans h₂.size_le h₃.size_le
    have hlt : table < m₃.tables.size := Nat.lt_of_lt_of_le htable hle
    have hmt₃ := Nat.lt_of_lt_of_le hmt (Nat.le_trans h₁.size_le hle)
    refine (Installs.setStr hmt₃ (fun _ h ↦ by cases h; exact hlt) fun _ _ _ ↦ rfl).bind hm₃
      fun _ m₄ h₄ hindex ↦ ?_
    have hne : ∀ l ∈ libraries, l.1 ≠ "__tostring" := by decide
    refine (Installs.setStr (Nat.lt_of_lt_of_le hmt₃ h₄.size_le) (fun _ h ↦ ?_)
      fun l hl heq ↦ (hne l hl heq).elim).mono (fun _ h ↦ h) fun _ m₅ h₅ _ ↦ ?_
    · exact nomatch (h ▸ htostring :)
    · rw [h₅.kept hindex nofun (by decide)]
      nofun
  · next hindex =>
    exact .of_ok rfl (.refl ..) fun h ↦ hindex (Value.isNil_iff.2 h)

/-- The library of files has the metatable of file handles, and the handles of the standard
streams. -/
def files : Opener where
  run := Files.openLibrary
  writes := "io" :: Files.functions.map Prod.fst ++ ([Files.handleType] ++
    (Files.methods.map Prod.fst ++ ["__index", "__tostring"] ++
      Files.standardHandles.map Prod.fst))
  IsOpen m loaded := ∃ library mt, m.fieldOf loaded "io" = .table library ∧
    m.fieldOf m.registry Files.handleType = .table mt ∧ m.fieldOf mt "__index" ≠ .nil ∧
    ∀ h ∈ Files.standardHandles, m.fieldOf library h.1 ≠ .nil
  reads := "io" :: Files.handleType :: "__index" :: Files.standardHandles.map Prod.fst
  loadedKey_not_mem := by decide +kernel
  opens {m w loaded} hm hl := by
    have hmem : ("io", Files.functions) ∈ libraries := by decide
    rw [openFiles_eq]
    refine (Installs.register hmem hm hl).bind hm fun library m₁ h₁ hlibrary ↦ ?_
    have hm₁ := h₁.closed hm
    refine Installs.bind hm₁ (.inl (ofType_extends hm₁ Files.handleType w)) fun mt m₂ h₂ hmt ↦ ?_
    have hm₂ := h₂.closed hm₁
    have hlibrary₂ := h₂.kept hlibrary.1 nofun (by decide)
    refine (installMethods_installs hm₂ (hm₂.field_lt hmt)).bind hm₂ fun _ m₃ h₃ hindex ↦ ?_
    have hm₃ := h₃.closed hm₂
    have hlibrary₃ := h₃.kept hlibrary₂ nofun (by decide)
    have hmt₃ := h₃.registry_eq ▸ h₃.kept hmt nofun (by decide)
    refine (installHandles hm₃ (hm₃.field_lt hlibrary₃) hmt₃ (by decide) (by decide)
      (by decide)).mono (fun _ h ↦ h) fun _ m₄ h₄ hall ↦ ⟨library, mt, ?_, ?_, ?_, hall⟩
    · exact h₄.kept hlibrary₃ nofun (by decide)
    · exact h₄.registry_eq ▸ h₄.kept hmt₃ nofun (by decide)
    · exact h₄.kept_ne_nil hindex (by decide)
  stays := fun ⟨library, mt, hlibrary, hmt, hindex, hall⟩ he hkeys ↦ by
    refine ⟨library, mt, he.kept hlibrary nofun (hkeys _ (by decide)), ?_, ?_, fun h hmem ↦ ?_⟩
    · exact he.registry_eq ▸ he.kept hmt nofun (hkeys _ (by decide))
    · exact he.kept_ne_nil hindex (hkeys _ (by decide))
    · refine he.kept_ne_nil (hall h hmem) (hkeys _ ?_)
      simpa using .inr (.inr (.inr ⟨_, hmem⟩))
  idle {m w loaded} := fun hl ⟨library, mt, hlibrary, hmt, hindex, hall⟩ ↦ by
    have hhandles : ∀ handles : List (String × FileHandle),
        (∀ h ∈ handles, m.fieldOf library h.1 ≠ .nil) →
          Files.installHandles library handles ⟨m, w⟩ = .ok () ⟨m, w⟩ := by
      intro handles hall
      induction handles with
      | nil => rfl
      | cons h handles ih =>
          obtain ⟨hh, hall⟩ := List.forall_mem_cons.1 hall
          rw [Files.installHandles, bind_of_ok (getStr_apply ..),
            if_neg fun h ↦ hh (Value.isNil_iff.1 h)]
          exact ih hall
    rw [openFiles_eq, bind_of_ok (register_of_recorded (l := ("io", Files.functions)) hl hlibrary),
      bind_of_ok (Metatable.ofType_of_table hmt), installMethods, bind_assoc,
      bind_of_ok (getStr_apply ..), if_neg fun h ↦ hindex (Value.isNil_iff.1 h)]
    exact hhandles _ hall

/-- The library of strings gives all strings a metatable, unless they have one. -/
def strings : Opener where
  run := Strings.openLibrary
  writes := "string" :: Strings.functions.map Prod.fst
  IsOpen m loaded := (∃ r, m.fieldOf loaded "string" = .table r) ∧ m.stringMetatable.isSome
  reads := ["string"]
  loadedKey_not_mem := by decide +kernel
  opens {m w loaded} hm hl := by
    have hmem : ("string", Strings.functions) ∈ libraries := by decide
    refine (Installs.register hmem hm hl).bind_nil hm fun library m₁ h₁ hr ↦ ?_
    have hm₁ := h₁.closed hm
    refine .congr (bind_of_ok (machine_apply _)) ?_
    split
    · -- The metatable is new, so that the key it gets does not count.
      have hset : m₁.Extends [] (m₁.addTable.setField m₁.tables.size "__index" (.table library)) := by
        refine (Extends.addTable ..).setField (.inr (Nat.le_refl _)) ?_ fun _ _ _ ↦ rfl
        rintro _ ⟨⟩
        simpa using Nat.lt_succ_of_lt (hm₁.field_lt hr.1)
      refine .of_ok rfl (hset.trans (.of_fields rfl rfl (Nat.le_refl _) (fun _ _ ↦ rfl)
        fun _ ↦ rfl)) ⟨⟨library, ?_⟩, rfl⟩
      exact hset.kept hr.1 nofun List.not_mem_nil
    · next hsome =>
      exact .of_ok rfl (.refl ..) ⟨⟨library, hr.1⟩,
        Option.isSome_iff_ne_none.2 (by simpa using hsome)⟩
  stays := fun ⟨⟨r, hr⟩, hsome⟩ he hkeys ↦
    ⟨⟨r, he.kept hr nofun (hkeys _ List.mem_cons_self)⟩, he.isSome_stringMetatable hsome⟩
  idle := fun hl ⟨⟨r, hr⟩, hsome⟩ ↦ by
    rw [Strings.openLibrary,
      bind_of_ok (register_of_recorded (l := ("string", Strings.functions)) hl hr),
      bind_of_ok (machine_apply _), if_neg (by simpa using Option.isSome_iff_ne_none.1 hsome)]
    rfl

/-- The library of numbers shows two of them. -/
def math : Opener where
  run := Math.openLibrary
  writes := "math" :: Math.functions.map Prod.fst ++ (["pi"] ++ ["huge"])
  IsOpen m loaded := ∃ library, m.fieldOf loaded "math" = .table library ∧
    m.fieldOf library "pi" = .number Math.pi ∧ m.fieldOf library "huge" = .number (1 / 0)
  reads := ["math", "pi", "huge"]
  loadedKey_not_mem := by decide +kernel
  opens {m w loaded} hm hl := by
    have hmem : ("math", Math.functions) ∈ libraries := by decide
    refine (Installs.register hmem hm hl).bind hm fun library m₁ h₁ hr ↦ ?_
    have hm₁ := h₁.closed hm
    have hlt := hm₁.field_lt hr.1
    refine (Installs.setStr (v := .number _) hlt nofun (by decide)).bind hm₁ fun _ m₂ h₂ hpi ↦ ?_
    refine (Installs.setStr (v := .number _) (Nat.lt_of_lt_of_le hlt h₂.size_le) nofun
      (by decide)).mono (fun _ h ↦ h) fun _ m₃ h₃ hhuge ↦ ?_
    exact ⟨library, h₃.kept (h₂.kept hr.1 nofun (by decide)) nofun (by decide),
      h₃.kept hpi nofun (by decide), hhuge⟩
  stays := fun ⟨library, hr, hpi, hhuge⟩ he hkeys ↦
    ⟨library, he.kept hr nofun (hkeys _ (by decide)), he.kept hpi nofun (hkeys _ (by decide)),
      he.kept hhuge nofun (hkeys _ (by decide))⟩
  idle := fun hl ⟨library, hr, hpi, hhuge⟩ ↦ by
    rw [Math.openLibrary,
      bind_of_ok (register_of_recorded (l := ("math", Math.functions)) hl hr),
      bind_of_ok (setStr_apply ..), setField_self hpi nofun, setStr_apply,
      setField_self hhuge nofun]

end Opener

/-! ## The package library -/

section Package

open Library

variable {m m' : Machine} {w : World} {loaded : Ref}

/-- The keys of the package table that are given values only where there is none. -/
def packageDefaults : List String := ["preload", "path", "cpath", "loaders"]

/-- The package table shows the table of loaded modules, and has its other fields. -/
structure Machine.ShowsLoaded (m : Machine) (loaded package : Ref) : Prop where
  recorded : m.fieldOf loaded "package" = .table package
  loaded : m.fieldOf package "loaded" = .table loaded
  config : m.fieldOf package "config" = .string "/\n;\n?\n!\n-"
  ne_nil : ∀ key ∈ packageDefaults, m.fieldOf package key ≠ .nil

theorem Machine.ShowsLoaded.stays {package : Ref} {keys : List String}
    (h : m.ShowsLoaded loaded package) (he : m.Extends keys m')
    (hkeys : ∀ key ∈ ["package", "loaded", "config"] ++ packageDefaults, key ∉ keys) :
    m'.ShowsLoaded loaded package where
  recorded := he.kept h.recorded nofun (hkeys _ (by decide))
  loaded := he.kept h.loaded nofun (hkeys _ (by decide))
  config := he.kept h.config nofun (hkeys _ (by decide))
  ne_nil key hkey := he.kept_ne_nil (h.ne_nil key hkey) (hkeys _ (List.mem_append_right _ hkey))

/-- The run gives a value that a field of a table can be given. -/
def Supplies (m : Machine) (w : World) (value : Run Value) : Prop :=
  Installs [] m w value fun v m' ↦ v ≠ .nil ∧ ∀ r', v = .table r' → r' < m'.tables.size

/-- A field without a value gets one. -/
theorem setDefault_installs {r : Ref} {key : String} {value : Run Value} (hm : m.Closed)
    (hr : r < m.tables.size) (hne : ∀ l ∈ libraries, l.1 ≠ key)
    (hvalue : Supplies m w value) :
    Installs [key] m w (Package.setDefault r key value) fun _ m' ↦ m'.fieldOf r key ≠ .nil := by
  refine .congr (bind_of_ok (getStr_apply ..)) ?_
  split
  · refine hvalue.nil_bind hm fun v m₁ h₁ hv ↦ ?_
    refine (Installs.setStr (Nat.lt_of_lt_of_le hr h₁.size_le) hv.2
      fun l hl heq ↦ (hne l hl heq).elim).mono (fun _ h ↦ h) fun _ m₂ _ heq ↦ ?_
    rw [heq]
    exact hv.1
  · next hv => exact .of_ok rfl (.refl ..) fun h ↦ hv (Value.isNil_iff.2 h)

theorem newSearchers_supplies (hm : m.Closed) : Supplies m w Package.newSearchers := by
  have hsetInt (m : Machine) (r : Ref) (i : Int) (v : Value) :
      Installs [] m w (Heap.setInt r i v) fun _ m' ↦ m'.tables.size = m.tables.size := by
    refine .of_ok rfl (.of_fields rfl rfl (by simp) (fun r' key ↦ ?_) id) (by simp)
    simp only [fieldOf, Array.getElem?_modify]
    split
    · next heq =>
      subst heq
      cases m.tables[r]? <;> simp
    · rfl
  refine Installs.newTable.nil_bind hm fun r m₁ h₁ hr ↦ ?_
  have hm₁ := h₁.closed hm
  refine (Installs.newNative ..).nil_bind hm₁ fun _ m₂ h₂ _ ↦ ?_
  have hm₂ := h₂.closed hm₁
  refine (hsetInt ..).nil_bind hm₂ fun _ m₃ h₃ _ ↦ ?_
  have hm₃ := h₃.closed hm₂
  refine (Installs.newNative ..).nil_bind hm₃ fun _ m₄ h₄ _ ↦ ?_
  have hm₄ := h₄.closed hm₃
  refine (hsetInt ..).nil_bind hm₄ fun _ m₅ h₅ _ ↦ ?_
  refine .of_ok rfl (.refl ..) ⟨nofun, ?_⟩
  rintro _ ⟨⟩
  exact Nat.lt_of_lt_of_le hr (Nat.le_trans h₂.size_le (Nat.le_trans h₃.size_le
    (Nat.le_trans h₄.size_le h₅.size_le)))

/-- The package library is opened beside a table of loaded modules. -/
theorem openPackage_of_loads (hm : m.Closed) (hl : m.Loads loaded) :
    Installs ("package" :: Package.functions.map Prod.fst ++ (["loaded"] ++ (["preload"] ++
        (["path"] ++ (["cpath"] ++ (["config"] ++ (["loaders"] ++ ["require"])))))))
      m w Package.openLibrary fun _ m' ↦
        m'.Loads loaded ∧ ∃ package, m'.ShowsLoaded loaded package := by
  have hmem : ("package", Package.functions) ∈ libraries := by decide
  refine (Installs.register hmem hm hl).bind hm fun package m₁ h₁ hr ↦ ?_
  have hm₁ := h₁.closed hm
  have hl₁ := h₁.loads hl (by decide)
  have hlt := hm₁.field_lt hr.1
  refine .congr (bind_of_ok (loaded_of_loads hl₁)) ?_
  refine (Installs.setStr hlt (fun _ h ↦ by cases h; exact hl₁.lt hm₁) fun _ _ _ ↦ rfl).bind hm₁
    fun _ m₂ h₂ hloaded ↦ ?_
  have hm₂ := h₂.closed hm₁
  have hpath (m : Machine) (name default : String) :
      Supplies m w (return .string (← Package.searchPath name default)) :=
    .of_ok rfl (.refl ..) ⟨nofun, nofun⟩
  have htable : Supplies m₂ w (return .table (← Heap.newTable)) := by
    refine .of_ok rfl (.addTable ..) ⟨nofun, ?_⟩
    rintro _ ⟨⟩
    simp
  have hlt₂ := Nat.lt_of_lt_of_le hlt h₂.size_le
  refine (setDefault_installs hm₂ hlt₂ (by decide) htable).bind hm₂ fun _ m₃ h₃ hpreload ↦ ?_
  have hm₃ := h₃.closed hm₂
  have hlt₃ := Nat.lt_of_lt_of_le hlt₂ h₃.size_le
  refine (setDefault_installs hm₃ hlt₃ (by decide) (hpath ..)).bind hm₃ fun _ m₄ h₄ hpath₄ ↦ ?_
  have hm₄ := h₄.closed hm₃
  have hlt₄ := Nat.lt_of_lt_of_le hlt₃ h₄.size_le
  refine (setDefault_installs hm₄ hlt₄ (by decide) (hpath ..)).bind hm₄ fun _ m₅ h₅ hcpath ↦ ?_
  have hm₅ := h₅.closed hm₄
  have hlt₅ := Nat.lt_of_lt_of_le hlt₄ h₅.size_le
  refine (Installs.setStr (v := .string _) hlt₅ nofun (by decide)).bind hm₅
    fun _ m₆ h₆ hconfig ↦ ?_
  have hm₆ := h₆.closed hm₅
  have hlt₆ := Nat.lt_of_lt_of_le hlt₅ h₆.size_le
  refine (setDefault_installs hm₆ hlt₆ (by decide) (newSearchers_supplies hm₆)).bind hm₆
    fun _ m₇ h₇ hloaders ↦ ?_
  have hm₇ := h₇.closed hm₆
  refine (Installs.newNative ..).nil_bind hm₇ fun require m₈ h₈ hrequire ↦ ?_
  have hm₈ := h₈.closed hm₇
  have hne : ∀ l ∈ libraries, l.1 ≠ "require" := by decide
  have hno : ∀ r, require = .table r → r < m₈.tables.size := fun _ h ↦ by
    rw [h] at hrequire
    exact nomatch hrequire
  refine (Installs.setGlobal hm₈ hno fun l hl heq ↦ (hne l hl heq).elim).mono (fun _ h ↦ h)
    fun _ m₉ h₉ _ ↦ ?_
  -- Each field has its value from the step that it is given in.
  have h₇₉ := h₈.trans h₉
  have h₆₉ := h₇.trans h₇₉
  have h₅₉ := h₆.trans h₆₉
  have h₄₉ := h₅.trans h₅₉
  have h₃₉ := h₄.trans h₄₉
  have h₂₉ := h₃.trans h₃₉
  refine ⟨(h₂.trans h₂₉).loads hl₁ (by decide), package,
    (h₂.trans h₂₉).kept hr.1 nofun (by decide), h₂₉.kept hloaded nofun (by decide),
    h₆₉.kept hconfig nofun (by decide), ?_⟩
  simp only [packageDefaults, List.forall_mem_cons]
  exact ⟨h₃₉.kept_ne_nil hpreload (by decide), h₄₉.kept_ne_nil hpath₄ (by decide),
    h₅₉.kept_ne_nil hcpath (by decide), h₇₉.kept_ne_nil hloaders (by decide), nofun⟩

/-- The package library is opened. -/
theorem openPackage_installs (hm : m.Closed) :
    ∃ keys, Installs keys m w Package.openLibrary fun _ m' ↦
      ∃ loaded package, m'.Loads loaded ∧ m'.ShowsLoaded loaded package := by
  obtain ⟨loaded, m₁, hrun, h₁, hl⟩ := loaded_extends hm w
  have heq : Package.openLibrary ⟨m, w⟩ = Package.openLibrary ⟨m₁, w⟩ := by
    refine bind_congr_start ?_
    rw [Module.register, bind_of_ok hrun, bind_of_ok (loaded_of_loads hl)]
  refine ⟨_, .step hm h₁ heq ((openPackage_of_loads (h₁.closed hm) hl).mono (fun _ h ↦ h) ?_)⟩
  rintro - m' - ⟨hl', package, hpackage⟩
  exact ⟨loaded, package, hl', hpackage⟩

/-- The machine with a new function as the global `require`. -/
def Machine.renewRequire (m : Machine) : Machine :=
  (m.addFunction (.native "require" (.package .require))).setField m.globals "require"
    (.function m.functions.size)

/-- A package library that is open makes a new function for the global `require`, and finds all else
in place. -/
theorem openPackage_of_showsLoaded {package : Ref} (hl : m.Loads loaded)
    (h : m.ShowsLoaded loaded package) :
    Package.openLibrary ⟨m, w⟩ = .ok () ⟨m.renewRequire, w⟩ := by
  have hdefault {key : String} {value : Run Value} (hkey : key ∈ packageDefaults) :
      Package.setDefault package key value ⟨m, w⟩ = .ok () ⟨m, w⟩ := by
    rw [Package.setDefault, bind_of_ok (getStr_apply ..),
      if_neg fun hnil ↦ h.ne_nil key hkey (Value.isNil_iff.1 hnil)]
    rfl
  rw [Package.openLibrary,
    bind_of_ok (register_of_recorded (l := ("package", Package.functions)) hl h.recorded),
    bind_of_ok (loaded_of_loads hl), bind_of_ok (setStr_apply ..),
    setField_self h.loaded Value.noConfusion, bind_of_ok (hdefault (by decide)),
    bind_of_ok (hdefault (by decide)), bind_of_ok (hdefault (by decide)),
    bind_of_ok (setStr_apply ..), setField_self h.config Value.noConfusion,
    bind_of_ok (hdefault (by decide)), bind_of_ok (newNative_apply ..)]
  rfl

end Package

/-! ## All libraries -/

namespace Opener

open Library

variable {m : Machine} {w : World} {loaded : Ref}

/-- The libraries after the package library, in the order in which they are opened. -/
def all : List Opener :=
  [base, ofModule ("coroutine", Coroutine.functions) (by decide), files, strings,
    ofModule ("table", Sequence.functions) (by decide), math,
    ofModule ("os", System.functions) (by decide), ofModule ("debug", Debug.functions) (by decide)]

/-- Open libraries one after the other. -/
def runAll : List Opener → Run Unit
  | [] => return ()
  | o :: os => do
    o.run
    runAll os

theorem openAll_eq : Library.openAll = (do
    Package.openLibrary
    runAll all) := by
  unfold openAll
  simp only [all, runAll, bind_pure_unit]
  rfl

/-- Libraries are all open in the end if none is given keys that tell of one before it. -/
theorem runAll_installs {os : List Opener}
    (hos : os.Pairwise fun o o' ↦ ∀ key ∈ o.reads, key ∉ o'.writes) (hm : m.Closed)
    (hl : m.Loads loaded) :
    Installs (os.flatMap writes) m w (runAll os) fun _ m' ↦
      m'.Loads loaded ∧ ∀ o ∈ os, o.IsOpen m' loaded := by
  induction os generalizing m with
  | nil => exact .of_ok rfl (.refl ..) ⟨hl, nofun⟩
  | cons o os ih =>
      obtain ⟨ho, hos⟩ := List.pairwise_cons.1 hos
      rw [List.flatMap_cons]
      refine (o.opens hm hl).bind hm fun _ m₁ h₁ hopen ↦ ?_
      refine (ih hos (h₁.closed hm) (h₁.loads hl o.loadedKey_not_mem)).mono (fun _ h ↦ h)
        fun _ m₂ h₂ ⟨hl₂, hall⟩ ↦ ⟨hl₂, List.forall_mem_cons.2 ⟨?_, hall⟩⟩
      refine o.stays hopen h₂ fun key hkey hmem ↦ ?_
      obtain ⟨o', ho', hwrites⟩ := List.mem_flatMap.1 hmem
      exact ho o' ho' key hkey hwrites

/-- Libraries that are open are not opened again. -/
theorem runAll_idle {os : List Opener} (hl : m.Loads loaded) (hos : ∀ o ∈ os, o.IsOpen m loaded) :
    runAll os ⟨m, w⟩ = .ok () ⟨m, w⟩ := by
  induction os with
  | nil => rfl
  | cons o os ih =>
      obtain ⟨ho, hos⟩ := List.forall_mem_cons.1 hos
      rw [runAll, bind_of_ok (o.idle hl ho), ih hos]

theorem pairwise_all : all.Pairwise fun o o' ↦ ∀ key ∈ o.reads, key ∉ o'.writes := by
  decide +kernel

theorem require_not_mem_reads : ∀ o ∈ all, ∀ key ∈ o.reads, key ∉ ["require"] := by decide

end Opener

section

open Library Opener

variable {m : Machine} {w : World}

/-- All libraries are opened, and found open. -/
theorem Library.openAll_installs (hm : m.Closed) :
    ∃ keys, Installs keys m w openAll fun _ m' ↦ ∃ loaded package, m'.Loads loaded ∧
      m'.ShowsLoaded loaded package ∧ ∀ o ∈ all, o.IsOpen m' loaded := by
  obtain ⟨keys, hpackage⟩ := openPackage_installs (w := w) hm
  refine ⟨keys ++ all.flatMap writes, ?_⟩
  rw [openAll_eq]
  refine hpackage.bind hm fun _ m₁ h₁ ⟨loaded, package, hl, hshown⟩ ↦ ?_
  refine (runAll_installs pairwise_all (h₁.closed hm) hl).mono (fun _ h ↦ h)
    fun _ m₂ h₂ ⟨hl₂, hall⟩ ↦ ⟨loaded, package, hl₂, hshown.stays h₂ ?_, hall⟩
  decide +kernel

theorem renewRequire_extends (m : Machine) : m.Extends ["require"] m.renewRequire := by
  have hne : ∀ l ∈ libraries, l.1 ≠ "require" := by decide
  exact (Extends.addFunction ..).setField (.inl List.mem_cons_self) nofun
    fun l hl heq ↦ (hne l hl heq).elim

/-- Libraries that are open make a new function for the global `require` when they are opened. -/
theorem Library.openAll_of_isOpen {loaded package : Ref} (hl : m.Loads loaded)
    (hshown : m.ShowsLoaded loaded package) (hall : ∀ o ∈ all, o.IsOpen m loaded) :
    openAll ⟨m, w⟩ = .ok () ⟨m.renewRequire, w⟩ := by
  have he := renewRequire_extends m
  rw [openAll_eq, bind_of_ok (openPackage_of_showsLoaded hl hshown)]
  exact runAll_idle (he.loads hl (by decide)) fun o ho ↦
    o.stays (hall o ho) he (require_not_mem_reads o ho)

/-- The libraries can be opened on a machine that admits them, and wherever they have been opened,
they can be opened again at once.  The machine is then the same in all its tables and metatables, but
for the value of the global `require`, which is a new function. -/
theorem Library.openAll_again {s : Session} (hs : s.machine.Closed) :
    (s.machine.Admits → ∃ s', openAll s = .ok () s') ∧
      ∀ s', openAll s = .ok () s' →
        s'.machine.Closed ∧ openAll s' = .ok () ⟨s'.machine.renewRequire, s'.world⟩ := by
  obtain ⟨keys, h⟩ := openAll_installs (w := s.world) hs
  refine ⟨fun ha ↦ ?_, fun s' hs' ↦ ?_⟩
  · rcases h with ⟨_, m', hrun, -, -⟩ | ⟨hna, -⟩
    · exact ⟨⟨m', s.world⟩, hrun⟩
    · exact (hna ha).elim
  · obtain ⟨m', rfl, he, loaded, package, hl, hshown, hall⟩ := h.exists_of_ok hs'
    exact ⟨he.closed hs, openAll_of_isOpen hl hshown hall⟩

theorem Machine.closed_initial (callLimit : Nat) : (Machine.initial callLimit).Closed :=
  ⟨Nat.one_lt_two, Nat.two_pos, fun h ↦ nomatch (fieldOf_initial ..).symm.trans h⟩

theorem Machine.admits_initial (callLimit : Nat) : (Machine.initial callLimit).Admits :=
  fun _ _ ↦ .inl (by rw [fieldOf_initial]; rfl)

/-- On a new machine. -/
theorem Library.openAll_again_initial :
    let fresh : Session := ⟨Machine.initial 200, World.initial⟩
    fresh.machine.Closed ∧ ∃ s', openAll fresh = .ok () s' ∧
      openAll s' = .ok () ⟨s'.machine.renewRequire, s'.world⟩ := by
  intro fresh
  have hfresh : fresh.machine.Closed := Machine.closed_initial 200
  have hadmits : fresh.machine.Admits := Machine.admits_initial 200
  obtain ⟨s', hs'⟩ := (openAll_again hfresh).1 hadmits
  exact ⟨hfresh, s', hs', ((openAll_again hfresh).2 s' hs').2⟩

theorem Machine.Closed.require_renewRequire (hm : m.Closed) :
    m.renewRequire.fieldOf m.renewRequire.globals "require" = .function m.functions.size :=
  fieldOf_setField_self (by simpa using hm.globals_lt) ..

/-- Each opening on a machine on which the libraries are open gives another function as the global
`require`. -/
theorem Library.openAll_not_idempotent : ∃ s s' s'' : Session,
    openAll s = .ok () s' ∧ openAll s' = .ok () s'' ∧
      (s'.machine.fieldOf s'.machine.globals "require").rawEqual
        (s''.machine.fieldOf s''.machine.globals "require") = false := by
  have hfresh : (Machine.initial 200).Closed := Machine.closed_initial 200
  obtain ⟨keys, hinstalls⟩ := openAll_installs (w := World.initial) hfresh
  rcases hinstalls with ⟨_, m, -, he, loaded, package, hl, hshown, hall⟩ | ⟨hnot, -⟩
  · have hm : m.Closed := he.closed hfresh
    have hrenew : m.Extends ["require"] m.renewRequire := renewRequire_extends m
    have hagain : openAll ⟨m.renewRequire, World.initial⟩ =
        .ok () ⟨m.renewRequire.renewRequire, World.initial⟩ :=
      openAll_of_isOpen (hrenew.loads hl (by decide)) (hshown.stays hrenew (by decide))
        fun o ho ↦ o.stays (hall o ho) hrenew (require_not_mem_reads o ho)
    refine ⟨_, _, _, openAll_of_isOpen hl hshown hall, hagain, ?_⟩
    -- The two functions are at different places in the heap.
    rw [hm.require_renewRequire, (hrenew.closed hm).require_renewRequire, Value.rawEqual]
    simp [renewRequire, addFunction, setField]
  · exact (hnot (Machine.admits_initial 200)).elim

end

end LuaEmbed
