import LuaEmbed.Proofs.Runs.Lockstep
import LuaEmbed.Proofs.Runs.Logic.Evaluation

/-!
# Requiring modules

`require` looks into the record of a module first, calls what may run any script, and writes the
record last.  What is recorded in between is not looked at again: a module that is required while it
is being required is loaded twice, and the record of the inner call is lost.  Apart from that, and
from scripts that assign to the record, `require` remembers: a value that it has returned and that
counts as true stays recorded, and whoever requires the module gets it without a call being made.

That a run does not come to some place is said by a hook that exits there, with any code.
-/

namespace LuaEmbed

/-! ## String keys of tables -/

/-- The value of a string key of a table. -/
def Machine.fieldOf (m : Machine) (r : Ref) (key : String) : Value :=
  (m.tables[r]?.getD .empty).getStr key

namespace Machine.Change

variable {strict : Prop} {writes : Ref → String → Prop} {m m' : Machine}

theorem registry_eq (h : m.Change strict writes m') : m'.registry = m.registry := by
  cases h <;> rfl

theorem size_le (h : m.Change strict writes m') : m.tables.size ≤ m'.tables.size := by
  cases h <;> simp

/-- A key that may not be written keeps its value. -/
theorem fieldOf_eq (h : m.Change strict writes m') {r : Ref} (hr : r < m.tables.size) (key : String)
    (hw : ¬writes r key) : m'.fieldOf r key = m.fieldOf r key := by
  cases h with
  | newTable =>
      rw [Machine.fieldOf, Array.getElem?_push_lt hr, Machine.fieldOf,
        Array.getElem?_eq_getElem hr]
  | modifyTable r' f hf =>
      rw [Machine.fieldOf, Array.getElem?_modify, Machine.fieldOf]
      split
      · next heq =>
        subst heq
        rw [Array.getElem?_eq_getElem hr]
        exact (hf _ key).resolve_left hw
      · rfl
  | _ => rfl

end Machine.Change

open Classical in
/-- Exit with a code unless the run does on the session what it has to. -/
noncomputable def Run.ensuring {α : Type} (code : Int) (good : Run α → Session → Prop) (r : Run α) :
    Run α := fun s ↦
  if good r s then r s else .error (.exit code) s

/-- A check changes nothing in lockstep if the outcomes that are not stopped pass it. -/
theorem Lockstep.Outcomes.ensuring {K : Lockstep} {α : Type} {stop : Option Int}
    {P : α → Machine → Prop} {code : Int} {good : Run α → Session → Prop} {r r' : Run α}
    {s s' : Session} (h : K.Outcomes stop P (r s) (r' s'))
    (hok : ∀ a m w, r' s' = .ok a ⟨m, w⟩ → K.Holds m → P a m → good r' s')
    (herror : ∀ e m w, r' s' = .error e ⟨m, w⟩ → K.Holds m → good r' s') :
    K.Outcomes stop P (r s) (Run.ensuring code good r' s') := by
  unfold Run.ensuring
  generalize h₁ : r s = o, h₂ : r' s' = o' at h
  cases h with
  | stopped hstop => exact .stopped hstop
  | ok hm hw ha =>
      rw [if_pos (hok _ _ _ h₂ hm ha)]
      exact .ok hm hw ha
  | error hm hw =>
      rw [if_pos (herror _ _ _ h₂ hm)]
      exact .error hm hw

/-! ## Records -/

/-- Where a module is recorded: under its name in the table of loaded modules, to which the registry
of the host leads. -/
structure ModuleRecord where
  registry : Ref
  loaded : Ref
  name : String

namespace ModuleRecord

variable (R : ModuleRecord)

/-- The machine has the record at this place. -/
structure IsIn (m : Machine) : Prop where
  registry_eq : m.registry = R.registry
  loaded_eq : m.fieldOf R.registry Module.loadedKey = .table R.loaded
  registry_lt : R.registry < m.tables.size
  loaded_lt : R.loaded < m.tables.size
  loaded_ne : R.loaded ≠ R.registry

/-- What is recorded for the module. -/
def value (m : Machine) : Value := m.fieldOf R.loaded R.name

/-- An assignment to this key of a table changes what is recorded, or which table has the record. -/
def covers (r : Ref) : Value → Bool
  | .string key => r == R.loaded && key == R.name || r == R.registry && key == Module.loadedKey
  | _ => false

/-- A host function is called to require the module. -/
def requiredBy (op : Native) (args : Arguments) : Bool :=
  match op, args.arg 1 with
  | .package .require, .string name => name == R.name
  | _, _ => false

/-- A host function, other than to require the module, is called to assign to the record. -/
def assignedBy (op : Native) (args : Arguments) (m : Machine) : Bool :=
  match op with
  | .base .rawset =>
    match args.arg 1 with
    | .table r => R.covers r (args.arg 2)
    | _ => false
  | .package .seeall =>
    match Metatable.of? m (args.arg 1) with
    | some mt => R.covers mt (.string "__index")
    | none => false
  | _ => false

theorem of_requiredBy {R : ModuleRecord} {op : Native} {args : Arguments}
    (h : R.requiredBy op args = true) : op = .package .require ∧ args.arg 1 = .string R.name := by
  unfold requiredBy at h
  split at h
  · next name harg => exact ⟨rfl, harg.trans (congrArg _ (beq_iff_eq.1 h))⟩
  · exact nomatch h

/-- Evaluation that exits with a code where the record is assigned to other than by requiring the
module, or where the module is required while it is being required and not recorded yet.  It is the
context that says whether it is being required. -/
def unassigning (code : Int) : Hooks Bool where
  native busy fuel call op args s :=
    if R.requiredBy op args then
      if busy && !(R.value s.machine).isTruthy then .error (.exit code) s
      else op.run fuel (call true) args s
    else if R.assignedBy op args s.machine then .error (.exit code) s
    else op.run fuel (call busy) args s
  store _ r key v := if R.covers r key then throw (.exit code) else Operation.store r key v
  stray r := r

/-- A record that counts as true is the same after the run, whatever its outcome. -/
def Kept {α : Type} (r : Run α) (s : Session) : Prop :=
  (R.value s.machine).isTruthy → R.value (r.after s).machine = R.value s.machine

/-- A result that counts as true is recorded. -/
def Recorded (r : Run (List Value)) (s : Session) : Prop :=
  ∀ vs s', r s = .ok vs s' → (vs.headD .nil).isTruthy → R.value s'.machine = vs.headD .nil

/-- Evaluation that exits with a code where `require` would not remember: where a module that is
recorded is required, but a call is made, the session is changed, or what is recorded is not what is
returned; where the module is loaded while it is being required; where what is returned is not
recorded; and where anything else changes a record that counts as true. -/
noncomputable def remembering (code : Int) : Hooks Bool where
  native busy fuel call op args s :=
    if R.requiredBy op args then
      if (R.value s.machine).isTruthy then
        Run.ensuring code (fun r s ↦ r s = .ok [R.value s.machine] s)
          (op.run fuel (fun _ _ _ ↦ throw (.exit code)) args) s
      else if busy then .error (.exit code) s
      else Run.ensuring code R.Recorded (op.run fuel (call true) args) s
    else Run.ensuring code R.Kept (op.run fuel (call busy) args) s
  store _ r key v := Run.ensuring code R.Kept (Operation.store r key v)
  stray r := r

/-! ## Phases -/

/-- What is known of the record while something runs. -/
inductive Phase where
  /-- The module is not being required. -/
  | free
  /-- A value is recorded that counts as true. -/
  | held (v : Value) (h : v.isTruthy = true)
  /-- The module is being required, and nothing that counts as true is recorded. -/
  | busy (v : Value) (h : v.isTruthy = false)

namespace Phase

/-- The module is being required. -/
def isBusy : Phase → Bool
  | busy .. => true
  | _ => false

/-- The record is as the phase says. -/
def Admits : Phase → Value → Prop
  | free, _ => True
  | held v _, v' | busy v _, v' => v' = v

end Phase

/-- In a phase, the record is not written. -/
def lockstep (p : Phase) : Lockstep where
  toLikeness := .same
  Holds m := R.IsIn m ∧ p.Admits (R.value m)
  Strict := False
  Writes r key := R.covers r (.string key) = false
  holds_change := by
    rintro m m' ⟨hm, hp⟩ hc
    have hregistry := hc.fieldOf_eq hm.registry_lt Module.loadedKey (by simp [covers])
    have hvalue : R.value m' = R.value m :=
      hc.fieldOf_eq hm.loaded_lt R.name (by simp [covers])
    exact ⟨⟨hc.registry_eq.trans hm.registry_eq, hregistry.trans hm.loaded_eq,
      Nat.lt_of_lt_of_le hm.registry_lt hc.size_le, Nat.lt_of_lt_of_le hm.loaded_lt hc.size_le,
      hm.loaded_ne⟩,
      hvalue ▸ hp⟩
  wellFormed _ := False.elim
  writes_new hm key := by
    simp [covers, Nat.ne_of_gt hm.1.registry_lt, Nat.ne_of_gt hm.1.loaded_lt]

variable {R} {p : Phase} {stop : Option Int} {mv : Bool} {m : Machine} {w : World}

/-! ## The table of loaded modules -/

/-- The key of the table of loaded modules is a path of one name. -/
theorem splitOn_loadedKey : Module.loadedKey.splitOn "." = [Module.loadedKey] := by
  simp +decide [Module.loadedKey, String.splitOn]
  -- One step for each character and one for the end.
  iterate 8
    rw [String.splitOnAux]
    simp +decide

/-- The table of loaded modules is found where it is. -/
theorem IsIn.loaded_run (h : R.IsIn m) : Module.loaded ⟨m, w⟩ = .ok R.loaded ⟨m, w⟩ := by
  have hregistry : Run.machine Machine.registry ⟨m, w⟩ = .ok R.registry ⟨m, w⟩ :=
    congrArg (EStateM.Result.ok · _) h.registry_eq
  have hget : Heap.getStr R.registry Module.loadedKey ⟨m, w⟩ =
      .ok (.table R.loaded) ⟨m, w⟩ :=
    congrArg (EStateM.Result.ok · _) h.loaded_eq
  have hfind : Module.findTable (.table R.registry) Module.loadedKey ⟨m, w⟩ =
      .ok (.table R.loaded) ⟨m, w⟩ := by
    rw [Module.findTable, splitOn_loadedKey, Module.findAlong, Run.bind_of_ok hget]
    rfl
  rw [Module.loaded, Run.bind_of_ok hregistry, Run.bind_of_ok hfind]
  rfl

variable (R p stop) in
/-- No record of the host is created in the place of the table of loaded modules. -/
theorem registers : ((R.lockstep p).logic stop).Registers where
  loaded m w w' hm hw := by
    cases hw
    rw [hm.1.loaded_run]
    exact .ok hm rfl trivial
  ofType name m w w' hm hw := by
    cases hw
    have hregistry : Run.machine Machine.registry ⟨m, w⟩ = .ok R.registry ⟨m, w⟩ :=
      congrArg (EStateM.Result.ok · _) hm.1.registry_eq
    have hget : Heap.getStr R.registry name ⟨m, w⟩ =
        .ok (m.fieldOf R.registry name) ⟨m, w⟩ := rfl
    rw [Metatable.ofType, Run.bind_of_ok hregistry, Run.bind_of_ok hget]
    generalize hv : m.fieldOf R.registry name = v
    cases v with
    | table r => exact .ok hm rfl trivial
    | _ =>
        -- The key is another one, because the table of loaded modules is there.
        have hname : R.covers R.registry (.string name) = false := by
          have hne : name ≠ Module.loadedKey := fun h ↦ by
            have := hm.1.loaded_eq
            simp_all
          simp [covers, Ne.symm hm.1.loaded_ne, hne]
        have hnew : ((R.lockstep p).logic stop).Keeps false (do
            let r ← Heap.newTable
            Heap.setStr R.registry name (.table r)
            return r) :=
          Run.Logic.newTable_bind fun r _ ↦ (Run.Logic.Agree.setStr hname _).bind fun _ ↦ .pure _
        exact hnew m w w hm rfl

/-! ## Host functions -/

section Host

variable {call call' : Caller} {op : Native} {args : Arguments}

/-- The metatable that `seeall` gives a field is the one that the module has, or a new one. -/
theorem seeall_lockstep (hm : (R.lockstep p).Holds m)
    (hassigned : R.assignedBy (.package .seeall) args m = false) :
    (R.lockstep p).Outcomes stop (fun _ _ ↦ True) (Library.Package.seeall args ⟨m, w⟩)
      (Library.Package.seeall args ⟨m, w⟩) := by
  have hset {mt : Ref} (hmt : R.covers mt (.string "__index") = false) (module : Ref) :
      ((R.lockstep p).logic stop).Keeps false (do
        Heap.setStr mt "__index" (.table (← Run.machine Machine.globals))
        Metatable.attach (.table module) (some mt)
        return ([] : List Value)) :=
    (Run.Logic.Agree.machine _).bind fun _ ↦ (Run.Logic.Agree.setStr hmt _).bind fun _ ↦
      (Run.Logic.Agree.attach trivial ..).bind fun _ ↦ .pure _
  cases hmodule : Extractor.table.get? (args.arg 1) with
  | none =>
      have hcheck : ((R.lockstep p).logic stop).Rel false (args.check .table 1)
          (args.check .table 1) fun _ ↦ False := by
        simp only [Arguments.check, Arguments.extract, hmodule]
        exact Run.Logic.Agree.argument_to ..
      exact ((R.lockstep p).logic stop).bind hcheck (fun _ h ↦ h.elim) m w w hm rfl
  | some module =>
      have harg := Extractor.table_eq_of_get? hmodule
      have hcheck : args.check .table 1 ⟨m, w⟩ = .ok module ⟨m, w⟩ := by
        simp only [Arguments.check, Arguments.extract, hmodule]
        rfl
      have hof : Metatable.of (.table module) ⟨m, w⟩ =
          .ok (Metatable.of? m (args.arg 1)) ⟨m, w⟩ := by
        rw [harg]
        rfl
      rw [Library.Package.seeall, Run.bind_of_ok hcheck, Run.bind_of_ok hof]
      simp only [assignedBy] at hassigned
      generalize Metatable.of? m (args.arg 1) = mt at hassigned
      cases mt with
      | some mt => exact hset hassigned module m w w hm rfl
      | none => exact Run.Logic.newTable_bind (fun mt hmt ↦ hset (hmt _) module) m w w hm rfl

/-- What a host function does keeps to the phase, unless it requires the module or assigns to the
record. -/
theorem native_lockstep (hm : (R.lockstep p).Holds m)
    (hcall : ((R.lockstep p).logic stop).Callers false call call')
    (hrequired : R.requiredBy op args = false) (hassigned : R.assignedBy op args m = false)
    (fuel : Nat) :
    (R.lockstep p).Outcomes stop (fun _ _ ↦ True) (op.run fuel call args ⟨m, w⟩)
      (op.run fuel call' args ⟨m, w⟩) := by
  have hreg := R.registers p stop
  by_cases hassigns : op.assigns = true
  · cases op with
    | base f =>
        cases f with
        | rawset =>
            have hrawset : ((R.lockstep p).logic stop).Keeps false (Library.Base.rawset args) :=
              .base_rawset args fun r s hr hs ↦ by
                change R.covers r (.string s) = false
                simpa [assignedBy, hr, hs] using hassigned
            exact hrawset m w w hm rfl
        | _ => exact nomatch hassigns
    | package f =>
        cases f with
        | require =>
            have hloaded : ((R.lockstep p).logic stop).Rel false Module.loaded Module.loaded
                fun r ↦ ∀ s, args.arg 1 = .string s → R.covers r (.string s) = false := by
              rintro m w _ hm rfl
              rw [hm.1.loaded_run]
              refine .ok hm rfl fun s hs ↦ ?_
              have hs : s ≠ R.name := by simpa [requiredBy, hs] using hrequired
              simp [covers, hs, hm.1.loaded_ne]
            exact Run.Logic.Agree.package_require args hreg hcall fuel hloaded m w w hm rfl
        | seeall => exact seeall_lockstep hm hassigned
        | _ => exact nomatch hassigns
    | _ => exact nomatch hassigns
  · exact Run.Logic.Agree.native hreg hcall fuel op args (fun h ↦ (hassigns h).elim)
      (fun _ ↦ trivial) (fun _ ↦ trivial) (fun _ ↦ trivial) m w w hm rfl

/-- To require a module that is recorded makes no call and changes nothing. -/
theorem require_of_truthy (hm : R.IsIn m) (hv : (R.value m).isTruthy = true)
    (harg : args.arg 1 = .string R.name) (fuel : Nat) (call : Caller) :
    Library.Package.require fuel call args ⟨m, w⟩ = .ok [R.value m] ⟨m, w⟩ := by
  have hcheck : args.check .string 1 ⟨m, w⟩ = .ok R.name ⟨m, w⟩ := by
    rw [Arguments.check, harg]
    rfl
  have hget : Heap.getStr R.loaded R.name ⟨m, w⟩ = .ok (R.value m) ⟨m, w⟩ := rfl
  rw [Library.Package.require, Run.bind_of_ok hcheck, Run.bind_of_ok hm.loaded_run,
    Run.bind_of_ok hget]
  simp only [hv, if_true]
  rfl

/-- A value that is recorded is what is recorded then. -/
theorem IsIn.record (hm : R.IsIn m) (v : Value) :
    let m' := { m with tables := m.tables.modify R.loaded (·.setStr R.name v) }
    R.IsIn m' ∧ R.value m' = v := by
  intro m'
  have hc : m.Change False (fun r key ↦ r = R.loaded ∧ key = R.name) m' := by
    refine .modifyTable _ _ fun t key ↦ ?_
    by_cases hkey : R.name = key
    · exact .inl ⟨rfl, hkey.symm⟩
    · exact .inr (by rw [Table.getStr_setStr, if_neg hkey])
  have hregistry := hc.fieldOf_eq hm.registry_lt Module.loadedKey
    fun h ↦ hm.loaded_ne h.1.symm
  refine ⟨⟨hc.registry_eq.trans hm.registry_eq, hregistry.trans hm.loaded_eq,
    Nat.lt_of_lt_of_le hm.registry_lt hc.size_le, Nat.lt_of_lt_of_le hm.loaded_lt hc.size_le,
    hm.loaded_ne⟩, ?_⟩
  rw [value, Machine.fieldOf, Array.getElem?_modify, if_pos rfl,
    Array.getElem?_eq_getElem hm.loaded_lt]
  exact (Table.getStr_setStr ..).trans (if_pos rfl)

variable (R) in
/-- What `require` does last: a module of which nothing is recorded is recorded as loaded. -/
def finish : Run (List Value) := do
  let module ← Heap.getStr R.loaded R.name
  if !module.isNil then return [module]
  Heap.setStr R.loaded R.name (.boolean true)
  return [.boolean true]

theorem finish_records (hm : R.IsIn m) : ∃ m' vs, R.finish ⟨m, w⟩ = .ok vs ⟨m', w⟩ ∧
    R.IsIn m' ∧ R.value m' = vs.headD .nil := by
  have hget : Heap.getStr R.loaded R.name ⟨m, w⟩ = .ok (R.value m) ⟨m, w⟩ := rfl
  rw [finish, Run.bind_of_ok hget]
  by_cases hnil : (R.value m).isNil
  · simp only [hnil]
    exact ⟨_, _, rfl, hm.record (.boolean true)⟩
  · simp only [hnil]
    exact ⟨_, _, rfl, hm, rfl⟩

/-- While a module is being required that is not recorded, the record is left alone.  What is
returned then is recorded. -/
theorem require_of_falsy {v : Value} (hv : v.isTruthy = false)
    (hm : (R.lockstep (.busy v hv)).Holds m)
    (hcall : ((R.lockstep (.busy v hv)).logic stop).Callers false call call')
    (harg : args.arg 1 = .string R.name) (fuel : Nat) :
    (R.lockstep .free).Outcomes stop (fun vs m ↦ R.value m = vs.headD .nil)
      (Library.Package.require fuel call args ⟨m, w⟩)
      (Library.Package.require fuel call' args ⟨m, w⟩) := by
  have hcheck : args.check .string 1 ⟨m, w⟩ = .ok R.name ⟨m, w⟩ := by
    rw [Arguments.check, harg]
    rfl
  have hget : Heap.getStr R.loaded R.name ⟨m, w⟩ = .ok v ⟨m, w⟩ :=
    congrArg (EStateM.Result.ok · _) hm.2
  have hreg := R.registers (.busy v hv) stop
  rw [Library.Package.require, Run.bind_of_ok hcheck, Run.bind_of_ok hm.1.loaded_run,
    Run.bind_of_ok hget, Library.Package.require, Run.bind_of_ok hcheck,
    Run.bind_of_ok hm.1.loaded_run, Run.bind_of_ok hget]
  simp only [hv, Bool.false_eq_true, if_false]
  have hfree (m : Machine) (hm : (R.lockstep (.busy v hv)).Holds m) :
      (R.lockstep .free).Holds m := ⟨hm.1, trivial⟩
  have hfield : ((R.lockstep (.busy v hv)).logic stop).Keeps false
      (Library.Package.field "loaders") :=
    .moduleField hreg "package" "loaders"
  refine (hfield m w w hm rfl).bind hfree (fun _ _ h ↦ h) fun loaders m w w' hm hw _ ↦ ?_
  cases hw
  cases loaders with
  | table loaders =>
      have hsearch : ((R.lockstep (.busy v hv)).logic stop).Agree false
          (Library.Package.search call loaders R.name fuel 1 "")
          (Library.Package.search call' loaders R.name fuel 1 "") :=
        .package_search hcall loaders R.name fuel 1 ""
      refine (hsearch m w w hm rfl).bind hfree (fun _ _ h ↦ h) fun loader m w w' hm hw _ ↦ ?_
      cases hw
      refine (hcall loader [.string R.name] none m w w hm rfl).bind hfree (fun _ _ h ↦ h)
        fun results m w w' hm hw _ ↦ ?_
      cases hw
      -- What is recorded now is not what was before the calls.
      have hfinish {m : Machine} (hm : R.IsIn m) : (R.lockstep .free).Outcomes stop
          (fun vs m ↦ R.value m = vs.headD .nil) (R.finish ⟨m, w⟩) (R.finish ⟨m, w⟩) := by
        obtain ⟨m', vs, hrun, hm', hvalue⟩ := finish_records (w := w) hm
        rw [hrun]
        exact .ok ⟨hm', trivial⟩ rfl hvalue
      by_cases hnil : (results.headD .nil).isNil
      · simp only [hnil]
        exact hfinish hm.1
      · simp only [hnil]
        exact hfinish (hm.1.record _).1
  | _ => exact .error (hfree m hm) rfl

end Host

/-! ## Hooks -/

section Hooks

variable {α : Type} {r r' : Run α}

/-- Where the record is known, it is the same after a run that keeps to the phase. -/
theorem kept_of_known (code : Int) (hp : p ≠ .free) (hm : (R.lockstep p).Holds m)
    (h : (R.lockstep p).Outcomes stop (fun _ _ ↦ True) (r ⟨m, w⟩) (r' ⟨m, w⟩)) :
    (R.lockstep p).Outcomes stop (fun _ _ ↦ True) (r ⟨m, w⟩)
      (Run.ensuring code R.Kept r' ⟨m, w⟩) := by
  have hvalue {m' : Machine} (hm' : (R.lockstep p).Holds m') : R.value m' = R.value m := by
    cases p with
    | free => exact (hp rfl).elim
    | held v | busy v => exact hm'.2.trans hm.2.symm
  refine h.ensuring (fun a m' w' ho hm' _ _ ↦ ?_) fun e m' w' ho hm' _ ↦ ?_
  · rw [Run.after_of_ok ho]
    exact hvalue hm'
  · rw [Run.after_of_error ho]
    exact hvalue hm'

/-- A run keeps a record that counts as true if it keeps to all phases that it may be in. -/
theorem kept (code : Int) (hm : (R.lockstep p).Holds m)
    (h : ∀ q : Phase, q.isBusy = p.isBusy → (R.lockstep q).Holds m →
      (R.lockstep q).Outcomes stop (fun _ _ ↦ True) (r ⟨m, w⟩) (r' ⟨m, w⟩)) :
    (R.lockstep p).Outcomes stop (fun _ _ ↦ True) (r ⟨m, w⟩)
      (Run.ensuring code R.Kept r' ⟨m, w⟩) := by
  cases p with
  | free =>
      cases hv : (R.value m).isTruthy with
      | true =>
          have hheld : (R.lockstep (.held _ hv)).Holds m := ⟨hm.1, rfl⟩
          have hkept := kept_of_known (p := .held _ hv) code nofun hheld
            (h (.held _ hv) rfl hheld)
          exact hkept.mono (fun m hm ↦ ⟨hm.1, trivial⟩) (fun _ _ h ↦ h) fun _ _ _ h ↦ h
      | false =>
          have hkept : R.Kept r' ⟨m, w⟩ := fun hv' ↦ nomatch hv.symm.trans hv'
          exact (h .free rfl hm).ensuring (fun _ _ _ _ _ _ ↦ hkept) fun _ _ _ _ _ ↦ hkept
  | held v hv => exact kept_of_known code nofun hm (h _ rfl hm)
  | busy v hv => exact kept_of_known code nofun hm (h _ rfl hm)

variable (R) in
/-- Where evaluation that exits at assignments to the record goes on, evaluation that exits where
`require` would not remember goes on in lockstep. -/
theorem hooks_agree (code code' : Int) :
    Run.Logic.HooksAgree (fun p ↦ (R.lockstep p).logic (some code)) (R.unassigning code)
      (R.remembering code') Phase.isBusy Phase.isBusy where
  native p _ fuel call call' op args hcall := by
    rintro m w _ hm rfl
    simp only [unassigning, remembering]
    cases hrequired : R.requiredBy op args with
    | true =>
        obtain ⟨rfl, harg⟩ := of_requiredBy hrequired
        cases hv : (R.value m).isTruthy with
        | true =>
            have hrun (call : Caller) : Native.run fuel call (.package .require) args ⟨m, w⟩ =
                .ok [R.value m] ⟨m, w⟩ :=
              require_of_truthy hm.1 hv harg fuel call
            simp only [Bool.not_true, Bool.and_false, Bool.false_eq_true, if_true, if_false,
              Run.ensuring, hrun]
            exact .ok hm rfl trivial
        | false =>
            cases p with
            | busy v h => exact .stopped rfl
            | held v h => exact nomatch (hm.2 ▸ hv).symm.trans h
            | free =>
                have hbusy : (R.lockstep (.busy _ hv)).Holds m := ⟨hm.1, rfl⟩
                have ho := require_of_falsy hv hbusy (w := w) (hcall (.busy _ hv) false) harg fuel
                refine (ho.ensuring (fun vs m' w' ho hm' hvalue vs' s' ho' _ ↦ ?_)
                  fun e m' w' ho _ vs s' ho' ↦ nomatch ho.symm.trans ho').mono
                    (fun _ h ↦ h) (fun _ _ h ↦ h) fun _ _ _ _ ↦ trivial
                obtain ⟨rfl, rfl⟩ := EStateM.Result.ok.inj (ho.symm.trans ho')
                exact hvalue
    | false =>
        cases hassigned : R.assignedBy op args m with
        | true => exact .stopped rfl
        | false =>
            refine kept code' hm fun q hq hm ↦ ?_
            exact native_lockstep hm (hq ▸ hcall q false) hrequired hassigned fuel
  store p _ r key v := by
    rintro m w _ hm rfl
    simp only [unassigning, remembering]
    by_cases hcovers : R.covers r key
    · rw [if_pos hcovers]
      exact .stopped rfl
    · rw [if_neg hcovers]
      refine kept code' hm fun q _ hm ↦ ?_
      have hstore : ((R.lockstep q).logic (some code)).Keeps false (Operation.store r key v) :=
        .storeRaw (fun s hs ↦ by
          change R.covers r (.string s) = false
          rw [← hs]
          exact Bool.eq_false_iff.2 hcovers) v
      exact hstore m w w hm rfl
  stray _ _ _ _ _ h := h

end Hooks

/-! ## Runs -/

section Runs

variable {α : Type} {s : Session} {r r' : Int → Run α} {plain : Run α}

/-- What is in lockstep in all phases in which the module is not being required remembers. -/
theorem remembers (hs : R.IsIn s.machine)
    (h : ∀ p : Phase, p.isBusy = false → ∀ code code',
      ((R.lockstep p).logic (some code)).Agree false (r code) (r' code'))
    (hplain : ∀ code, r code s = plain s) :
    (∀ code, r' code s = plain s) ∧ R.IsIn (plain.after s).machine ∧ R.Kept plain s := by
  have ho (p : Phase) (hp : p.isBusy = false) (hs : (R.lockstep p).Holds s.machine) (code' : Int) :
      (R.lockstep p).Outcomes none (fun _ _ ↦ True) (plain s) (r' code' s) :=
    .of_forall fun code ↦ hplain code ▸ h p hp code code' s.machine s.world s.world hs rfl
  have heq (code' : Int) : plain s = r' code' s :=
    (ho .free rfl ⟨hs, trivial⟩ code').eq_of_none fun _ _ h ↦ h
  have hafter : plain.after s = (r' 0).after s := by rw [Run.after, heq 0, Run.after]
  refine ⟨fun code ↦ (heq code).symm, ?_, fun hv ↦ ?_⟩
  · rw [hafter]
    exact (ho .free rfl ⟨hs, trivial⟩ 0).holds_of_none.1
  · rw [hafter]
    exact (ho (.held _ hv) rfl ⟨hs, rfl⟩ 0).holds_of_none.2

end Runs

/-! ## New machines -/

/-- A machine with its table of loaded modules, as the first look at it leaves a new machine. -/
def withLoaded (callLimit : Nat) (input : Input) : Machine :=
  let m := { Machine.initial callLimit with input }
  { m with
    tables := (m.tables.push .empty).modify 1 (·.setStr Module.loadedKey (.table 2)) }

theorem isIn_withLoaded (callLimit : Nat) (input : Input) (name : String) :
    IsIn ⟨1, 2, name⟩ (withLoaded callLimit input) where
  registry_eq := rfl
  loaded_eq := Table.getStr_setStr .. |>.trans (if_pos rfl)
  registry_lt := by simp [withLoaded, Machine.initial]
  loaded_lt := by simp [withLoaded, Machine.initial]
  loaded_ne := Nat.succ_ne_self 1

theorem loaded_initial (callLimit : Nat) (input : Input) (w : World) :
    Module.loaded ⟨{ Machine.initial callLimit with input }, w⟩ =
      .ok 2 ⟨withLoaded callLimit input, w⟩ := by
  let m := { Machine.initial callLimit with input }
  have hregistry : Run.machine Machine.registry ⟨m, w⟩ = .ok 1 ⟨m, w⟩ := rfl
  have hget : Heap.getStr 1 Module.loadedKey ⟨m, w⟩ = .ok .nil ⟨m, w⟩ :=
    congrArg (EStateM.Result.ok · _) (Table.getStr_empty _)
  have hfind : Module.findTable (.table 1) Module.loadedKey ⟨m, w⟩ =
      .ok (.table 2) ⟨withLoaded callLimit input, w⟩ := by
    rw [Module.findTable, splitOn_loadedKey, Module.findAlong, Run.bind_of_ok hget]
    rfl
  rw [Module.loaded, Run.bind_of_ok hregistry, Run.bind_of_ok hfind]
  rfl

/-- On a machine with the libraries, the third table is the one of loaded modules. -/
theorem isIn_start (callLimit : Nat) (input : Input) (s : Session) (name : String) :
    IsIn ⟨1, 2, name⟩ ((Program.start callLimit true input).after s).machine := by
  let R : ModuleRecord := ⟨1, 2, Module.loadedKey⟩
  let s₀ : Session := ⟨{ Machine.initial callLimit with input }, s.world⟩
  let s₁ : Session := ⟨withLoaded callLimit input, s.world⟩
  have hin : R.IsIn s₁.machine := isIn_withLoaded ..
  -- The libraries begin with a look at the table, which creates it.
  have hlook : Module.loaded s₀ = Module.loaded s₁ :=
    (loaded_initial callLimit input s.world).trans hin.loaded_run.symm
  have hrun : Program.start callLimit true input s = Library.openAll s₁ := by
    change Library.openAll s₀ = Library.openAll s₁
    rw [Library.openAll, Library.Package.openLibrary, Module.register]
    exact Run.bind_congr_start (Run.bind_congr_start (Run.bind_congr_start hlook))
  have hkeeps : ((R.lockstep .free).logic none).Keeps false Library.openAll :=
    .openAll (R.registers .free none) (fun r key hkey ↦ by
      change R.covers r (.string key) = false
      simp [covers, R, hkey]) trivial
  have ho := hkeeps s₁.machine s₁.world s₁.world ⟨hin, trivial⟩ rfl
  have hafter := ho.holds_of_none.1
  rw [Run.after, hrun]
  exact ⟨hafter.registry_eq, hafter.loaded_eq, hafter.registry_lt, hafter.loaded_lt,
    hafter.loaded_ne⟩

/-- A value that requiring a module has returned, and that counts as true, is what requiring it
returns from then on, without a call: in the execution of any source and in the call of any value,
on any machine that is set up with the libraries, unless the record is assigned to, or the module is
required, and not found recorded, while it is being required. -/
theorem require_remembers (R : ModuleRecord) (fuel : Nat) :
    (∀ callLimit input s,
      IsIn ⟨1, 2, R.name⟩ ((Program.start callLimit true input).after s).machine) ∧
    ∀ s : Session, R.IsIn s.machine →
      (∀ source chunk args,
        (∀ code, Hooked.executeBytes (R.unassigning code) fuel false source chunk args s =
          Program.executeBytes fuel source chunk args s) →
        (∀ code, Hooked.executeBytes (R.remembering code) fuel false source chunk args s =
          Program.executeBytes fuel source chunk args s) ∧
        R.IsIn ((Program.executeBytes fuel source chunk args).after s).machine ∧
        R.Kept (Program.executeBytes fuel source chunk args) s) ∧
      ∀ f args called,
        (∀ code, Hooked.call (R.unassigning code) fuel false f args called s =
          Program.call fuel f args called s) →
        (∀ code, Hooked.call (R.remembering code) fuel false f args called s =
          Program.call fuel f args called s) ∧
        R.IsIn ((Program.call fuel f args called).after s).machine ∧
        R.Kept (Program.call fuel f args called) s := by
  refine ⟨fun callLimit input s ↦ isIn_start callLimit input s R.name, fun s hs ↦ ⟨?_, ?_⟩⟩
  · intro source chunk args hplain
    refine remembers hs (fun p hp code code' ↦ ?_) hplain
    exact hp ▸ (hooks_agree R code code').executeBytes (fun _ ↦ trivial) p fuel source chunk args
  · intro f args called hplain
    refine remembers hs (fun p hp code code' ↦ ?_) hplain
    have hrelated := Run.Logic.related (hooks_agree R code code') (fun _ ↦ trivial) fuel
    exact hp ▸ hrelated.call p f args called

/-- A module that is recorded is required. -/
theorem require_remembers_recorded :
    let R : ModuleRecord := ⟨1, 2, "m"⟩
    let m := withLoaded 200 (.ofBytes [])
    let s : Session :=
      ⟨{ m with
          functions := #[.native "require" (.package .require)]
          tables := m.tables.modify 2 (·.setStr "m" (.boolean true)) }, World.initial⟩
    R.IsIn s.machine ∧
      (∀ code, Hooked.call (R.unassigning code) 1 false (.function 0) [.string "m"] none s =
        Program.call 1 (.function 0) [.string "m"] none s) ∧
      (∀ code, Hooked.call (R.remembering code) 1 false (.function 0) [.string "m"] none s =
        Program.call 1 (.function 0) [.string "m"] none s) ∧
      Program.call 1 (.function 0) [.string "m"] none s = .ok [.boolean true] s := by
  intro R m s
  obtain ⟨hin, hvalue⟩ := (isIn_withLoaded 200 (.ofBytes []) "m").record (.boolean true)
  have hs : R.IsIn s.machine := ⟨rfl, hin.2, hin.3, hin.4, hin.5⟩
  -- The call puts a frame on top and takes it off again.
  let s' := s.mapFrames (Frame.native none :: ·)
  have hs' : R.IsIn s'.machine := ⟨rfl, hin.2, hin.3, hin.4, hin.5⟩
  have hrun (call : Caller) : Library.Package.require 0 call [.string "m"] s' =
      .ok [.boolean true] s' := by
    have hv : R.value s'.machine = .boolean true := hvalue
    rw [← hv]
    exact require_of_truthy hs' (by rw [hv]; rfl) rfl 0 call
  have hcall {r : Run (List Value)} (h : r s' = .ok [.boolean true] s') :
      Run.activate (.native none) r s = .ok [.boolean true] s := by
    have hroom : ¬s.machine.callLimit ≤ s.machine.frames.length := Nat.not_succ_le_zero 199
    rw [Run.activate, if_neg hroom, h]
    rfl
  have hplain : Program.call 1 (.function 0) [.string "m"] none s = .ok [.boolean true] s :=
    hcall (hrun _)
  have hunassigning (code : Int) :
      Hooked.call (R.unassigning code) 1 false (.function 0) [.string "m"] none s =
        Program.call 1 (.function 0) [.string "m"] none s := by
    rw [hplain]
    exact hcall (hrun _)
  exact ⟨hs, hunassigning,
    (((require_remembers R 1).2 s hs).2 (.function 0) [.string "m"] none hunassigning).1, hplain⟩

/-! ## A loader that requires its own module -/

section Reentry

open Run Library.Package

/-- Evaluation that exits with a code where the module is required, and not found recorded, while it
is being required. -/
def reentrant (R : ModuleRecord) (code : Int) : Hooks Bool where
  native busy fuel call op args s :=
    if R.requiredBy op args then
      if busy && !(R.value s.machine).isTruthy then .error (.exit code) s
      else op.run fuel (call true) args s
    else op.run fuel (call busy) args s
  store _ r key v := Operation.store r key v
  stray r := r

/-- A function that requires the module `m`. -/
def requiring : Body := .mk [] false 1 [.call 1 (.call 1 (.name "require") [.string "m"])]

/-- A machine on which that function is the loader of the module, while calls are active. -/
def preloading (frames : List Frame) : Session where
  machine :=
    { Machine.initial 200 with
      tables := #[Table.empty.setStr "require" (.function 0),
        Table.empty.setStr Module.loadedKey (.table 2), Table.empty.setStr "package" (.table 3),
        (Table.empty.setStr "loaders" (.table 4)).setStr "preload" (.table 5),
        Table.empty.setInt 1 (.function 1), Table.empty.setStr "m" (.function 2)]
      functions := #[.native "require" (.package .require),
        .native "loader_preload" (.package .preloadSearcher),
        .script requiring Loader.textChunk []]
      frames }
  world := World.initial

variable (frames : List Frame)

theorem isIn_preloading : IsIn ⟨1, 2, "m"⟩ (preloading frames).machine where
  registry_eq := rfl
  loaded_eq := Table.getStr_setStr .. |>.trans (if_pos rfl)
  registry_lt := by simp [preloading]
  loaded_lt := by simp [preloading]
  loaded_ne := by decide

theorem value_preloading : value ⟨1, 2, "m"⟩ (preloading frames).machine = .nil :=
  (Table.getStr_setStr ..).trans ((if_neg (by decide)).trans (Table.getStr_empty _))

theorem field_preloading {name : String} {v : Value}
    (h : Heap.getStr 3 name (preloading frames) = .ok v (preloading frames)) :
    field name (preloading frames) = .ok v (preloading frames) := by
  have hpackage : Heap.getStr 2 "package" (preloading frames) =
      .ok (.table 3) (preloading frames) :=
    congrArg (EStateM.Result.ok · _) ((Table.getStr_setStr ..).trans (if_pos rfl))
  rw [field, Module.fieldOf, bind_of_ok (isIn_preloading frames).loaded_run]
  exact (bind_of_ok hpackage).trans h

theorem preloadSearcher_preloading :
    preloadSearcher [.string "m"] (preloading frames) = .ok [.function 2] (preloading frames) := by
  have hfield : Heap.getStr 3 "preload" (preloading frames) = .ok (.table 5) (preloading frames) :=
    congrArg (EStateM.Result.ok · _) ((Table.getStr_setStr ..).trans (if_pos rfl))
  have hloader : Heap.getStr 5 "m" (preloading frames) = .ok (.function 2) (preloading frames) :=
    congrArg (EStateM.Result.ok · _) ((Table.getStr_setStr ..).trans (if_pos rfl))
  have hcheck : Arguments.check [.string "m"] .string 1 (preloading frames) =
      .ok "m" (preloading frames) := rfl
  rw [preloadSearcher, bind_of_ok hcheck]
  exact (bind_of_ok (field_preloading frames hfield)).trans ((bind_of_ok hloader).trans rfl)

/-- How the call of the loader fails, the call of `require` fails. -/
theorem require_preloading {fuel : Nat} {call : Caller} {e : Abort} {s : Session}
    (hsearcher : call (.function 1) [.string "m"] none (preloading frames) =
      .ok [.function 2] (preloading frames))
    (hloader : call (.function 2) [.string "m"] none (preloading frames) = .error e s) :
    require (fuel + 1) call [.string "m"] (preloading frames) = .error e s := by
  have hfield : Heap.getStr 3 "loaders" (preloading frames) = .ok (.table 4) (preloading frames) :=
    congrArg (EStateM.Result.ok · _) ((Table.getStr_setStr ..).trans
      ((if_neg (by decide)).trans ((Table.getStr_setStr ..).trans (if_pos rfl))))
  have hfirst : Heap.getInt 4 1 (preloading frames) = .ok (.function 1) (preloading frames) :=
    congrArg (EStateM.Result.ok · _) ((Table.getKey_setKey ..).trans (if_pos rfl))
  have hvalue : Heap.getStr 2 "m" (preloading frames) = .ok .nil (preloading frames) :=
    congrArg (EStateM.Result.ok · _) (value_preloading frames)
  have hcheck : Arguments.check [.string "m"] .string 1 (preloading frames) =
      .ok "m" (preloading frames) := rfl
  have hsearch : search call 4 "m" (fuel + 1) 1 "" (preloading frames) =
      .ok (.function 2) (preloading frames) := (bind_of_ok hfirst).trans (bind_of_ok hsearcher)
  rw [require, bind_of_ok hcheck, bind_of_ok (isIn_preloading frames).loaded_run,
    bind_of_ok hvalue]
  exact (bind_of_ok (field_preloading frames hfield)).trans
    ((bind_of_ok hsearch).trans (bind_of_error hloader))

theorem getName_preloading (call : Caller) :
    Evaluation.getName call [[]] "require" (preloading frames) =
      .ok (.function 0) (preloading frames) := by
  have hfind : Heap.get 0 (.string "require") (preloading frames) =
      .ok (.function 0) (preloading frames) :=
    congrArg (EStateM.Result.ok · _) ((Table.getStr_setStr ..).trans (if_pos rfl))
  change Operation.index call (.table 0) (.string "require") (preloading frames) = _
  exact (bind_of_ok hfind).trans rfl

/-- While the module is being required, its loader exits where it requires it. -/
theorem runBody_requiring (code : Int) :
    Hooked.runBody (reentrant ⟨1, 2, "m"⟩ code) 8 true requiring Loader.textChunk [] [.string "m"]
      (preloading [.script none Loader.textChunk 1, .native none]) =
        .error (.exit code) (preloading [.script none Loader.textChunk 1, .native none]) := by
  let R : ModuleRecord := ⟨1, 2, "m"⟩
  let h : Hooks Bool := R.reentrant code
  let a : Activation := ⟨Loader.textChunk, []⟩
  let e : Expr := .call 1 (.name "require") [.string "m"]
  let s : Session := preloading [.script none Loader.textChunk 1, .native none]
  let inner : Session := preloading
    [.native "require", .script none Loader.textChunk 1, .native none]
  have hrequire : h.native true 2 (Hooked.call h 2) (.package .require) [.string "m"] inner =
      .error (.exit code) inner := by
    have hvalue : R.value inner.machine = .nil := value_preloading _
    simp only [h, reentrant]
    rw [hvalue]
    rfl
  have hcall : Hooked.call h 3 true (.function 0) [.string "m"] (some "require") s =
      .error (.exit code) s := by
    change activate (.native "require") (h.native true 2 (Hooked.call h 2) (.package .require)
      [.string "m"]) s = _
    rw [activate, if_neg (by decide)]
    exact hrequire ▸ rfl
  have hname : Hooked.eval h 3 true a [[]] (.name "require") s = .ok (.function 0) s :=
    getName_preloading _ _
  have hargs : Hooked.evalList h 3 true a [[]] [.string "m"] s = .ok [.string "m"] s := rfl
  have hmulti : Hooked.evalMulti h 4 true a [[]] e s = .error (.exit code) s :=
    (bind_of_ok hname).trans ((bind_of_ok hargs).trans hcall)
  have hline : Evaluation.goToLine 1 s = .ok () s := rfl
  have hstat : Hooked.runStat h 5 true a [[]] (.call 1 e) s = .error (.exit code) s :=
    (bind_of_ok hline).trans (bind_of_error hmulti)
  have hstats : Hooked.runStats h 6 true a [[]] [.call 1 e] s = .error (.exit code) s :=
    bind_of_error hstat
  have hblock : Hooked.runBlock h 7 true a [[]] [.call 1 e] s = .error (.exit code) s :=
    bind_of_error hstats
  have hparams : Evaluation.declare [] [.string "m"] s = .ok [] s := rfl
  exact (bind_of_ok hparams).trans (bind_of_error hblock)

theorem call_preloading (code : Int) :
    Hooked.call (reentrant ⟨1, 2, "m"⟩ code) 10 false (.function 0) [.string "m"] none
      (preloading []) = .error (.exit code) (preloading []) := by
  let call := Hooked.call (reentrant ⟨1, 2, "m"⟩ code) 9 true
  let s : Session := preloading [.native none]
  have hsearcher : call (.function 1) [.string "m"] none s = .ok [.function 2] s := by
    have hrun := preloadSearcher_preloading [.native none, .native none]
    change activate (.native none) (preloadSearcher [.string "m"]) s = _
    rw [activate, if_neg (by decide)]
    exact hrun ▸ rfl
  have hloader : call (.function 2) [.string "m"] none s = .error (.exit code) s := by
    have hrun := runBody_requiring code
    change activate (.script none Loader.textChunk 1) (Hooked.runBody _ 8 true requiring
      Loader.textChunk [] [.string "m"]) s = _
    rw [activate, if_neg (by decide)]
    exact hrun ▸ rfl
  have hrun : require 9 call [.string "m"] s = .error (.exit code) s :=
    require_preloading _ hsearcher hloader
  change activate (.native none) (require 9 call [.string "m"]) (preloading []) = _
  rw [activate, if_neg (by decide)]
  exact hrun ▸ rfl

/-- The module is required, and not found recorded, while it is being required: nothing tells that
its loader has been called already. -/
theorem require_reenters :
    let R : ModuleRecord := ⟨1, 2, "m"⟩
    let s := preloading []
    R.IsIn s.machine ∧
      ¬∀ code, Hooked.call (R.reentrant code) 10 false (.function 0) [.string "m"] none s =
        Program.call 10 (.function 0) [.string "m"] none s := by
  intro R s
  refine ⟨isIn_preloading [], fun hplain ↦ ?_⟩
  -- Evaluation that never exits would exit with each code.
  have hexit (code : Int) : Program.call 10 (.function 0) [.string "m"] none s =
      .error (.exit code) s := (hplain code).symm.trans (call_preloading code)
  exact nomatch (hexit 0).symm.trans (hexit 1)

end Reentry

end ModuleRecord

end LuaEmbed
