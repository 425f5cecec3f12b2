import Mathlib
import LuaEmbed.Proofs.Runs.Depth
import LuaEmbed.Proofs.Runs.Modules
import LuaEmbed.Proofs.Runs.Reads
import LuaEmbed.Proofs.Runs.Regular

/-!
# Protected metatables

Three functions attach metatables to tables that are there already: `setmetatable`,
`package.seeall` and `debug.setmetatable`.  Nothing else that runs do changes which metatable such a
table has.  The first two leave a metatable in its place that has a field to protect it, and
`getmetatable` shows that field in its stead.
-/

namespace LuaEmbed

/-! ## Metatables that stay -/

/-- The tables of the first machine are in the second, with the metatables that they had. -/
structure Machine.KeepsMetatables (m m' : Machine) : Prop where
  size_le : m.tables.size ≤ m'.tables.size
  of?_eq : ∀ r < m.tables.size, Metatable.of? m' (.table r) = Metatable.of? m (.table r)

namespace Machine.KeepsMetatables

variable {m m' m'' : Machine}

theorem refl (m : Machine) : m.KeepsMetatables m := ⟨Nat.le_refl _, fun _ _ ↦ rfl⟩

theorem trans (h : m.KeepsMetatables m') (h' : m'.KeepsMetatables m'') :
    m.KeepsMetatables m'' :=
  ⟨Nat.le_trans h.size_le h'.size_le, fun r hr ↦
    (h'.of?_eq r (Nat.lt_of_lt_of_le hr h.size_le)).trans (h.of?_eq r hr)⟩

theorem of_tables_eq (h : m'.tables = m.tables) : m.KeepsMetatables m' :=
  ⟨Nat.le_of_eq (congrArg Array.size h.symm), fun r _ ↦ by
    rw [Metatable.of?, h, Metatable.of?]⟩

theorem push (m : Machine) (t : Table) :
    m.KeepsMetatables { m with tables := m.tables.push t } := by
  refine ⟨by simp, fun r hr ↦ ?_⟩
  simp only [Metatable.of?]
  rw [Array.getElem?_push_lt hr, Array.getElem?_eq_getElem hr]

theorem modify (m : Machine) (r : Ref) {f : Table → Table}
    (h : ∀ t, (f t).metatable = t.metatable) :
    m.KeepsMetatables { m with tables := m.tables.modify r f } := by
  refine ⟨by simp, fun r' hr' ↦ ?_⟩
  simp only [Metatable.of?, Array.getElem?_modify]
  split
  · rw [Array.getElem?_eq_getElem hr']
    exact h _
  · rfl

end Machine.KeepsMetatables

/-- A preorder of machines in which changes that keep metatables go up. -/
structure MetatableOrder where
  Le : Machine → Machine → Prop
  of_keeps {m m' : Machine} : m.KeepsMetatables m' → Le m m'
  trans {m m' m'' : Machine} : Le m m' → Le m' m'' → Le m m''

namespace MetatableOrder

variable {R : MetatableOrder} {α β : Type} {r : Run α} {P : α → Prop}

theorem refl (m : Machine) : R.Le m m := R.of_keeps (.refl m)

theorem of_tables_eq {m m' : Machine} (h : m'.tables = m.tables) : R.Le m m' :=
  R.of_keeps (.of_tables_eq h)

variable (R) in
/-- The run goes up from every session, whatever its outcome. -/
def Climbs (r : Run α) : Prop := ∀ s, R.Le s.machine (r.after s).machine

namespace Climbs

theorem bind {f : α → Run β} (hr : R.Climbs r) (hP : Run.Regular.Results r P)
    (hf : ∀ a, P a → R.Climbs (f a)) : R.Climbs (r >>= f) := by
  intro s
  have hfirst := hr s
  cases hrs : r s with
  | ok a s' =>
      rw [Run.after_of_ok hrs] at hfirst
      rw [Run.after, Run.bind_of_ok hrs, ← Run.after]
      exact R.trans hfirst (hf a (hP hrs) s')
  | error e s' =>
      rw [Run.after_of_error hrs] at hfirst
      rw [Run.after_of_error (Run.bind_of_error hrs)]
      exact hfirst

theorem of_keeps (h : ∀ s : Session, s.machine.KeepsMetatables (r.after s).machine) :
    R.Climbs r :=
  fun s ↦ R.of_keeps (h s)

theorem of_tables_eq (h : ∀ s, (r.after s).machine.tables = s.machine.tables) :
    R.Climbs r :=
  fun s ↦ R.of_tables_eq (h s)

theorem activate {f : Frame} (h : R.Climbs r) : R.Climbs (Run.activate f r) := by
  intro s
  rcases Run.after_activate f r s with hafter | hafter
  · rw [hafter]
    exact refl _
  · rw [hafter]
    have hpush : R.Le s.machine (s.mapFrames (f :: ·)).machine := R.of_tables_eq rfl
    exact R.trans (R.trans hpush (h _)) (R.of_tables_eq rfl)

theorem attempt (h : R.Climbs r) : R.Climbs (Run.attempt r) := by
  intro s
  rw [Run.after_attempt]
  exact h s

theorem protect (h : R.Climbs r) : R.Climbs (Run.protect r) := by
  intro s
  have hs := h s
  unfold Run.after Run.protect at *
  cases hr : r s with
  | ok a s' =>
      rw [hr] at hs
      exact hs
  | error e s' =>
      rw [hr] at hs
      cases e with
      | fault f => exact R.trans hs (R.of_tables_eq rfl)
      | exit code => exact hs
      | outOfFuel => exact hs

end Climbs

variable (R) in
/-- To go up is a logic of runs, in which no table is given another metatable. -/
def logic : Run.Logic where
  Rel _ {_} r _ P := R.Climbs r ∧ Run.Regular.Results r P
  Strict := False
  Writes _ _ := True
  Attaches := False
  Shares := True
  Catches := True
  Captures := True
  pure h := ⟨.of_tables_eq fun _ ↦ rfl, fun _ _ _ ha ↦ by cases ha; exact h⟩
  abort e := ⟨.of_tables_eq fun _ ↦ rfl, fun _ _ _ ha ↦ nomatch ha⟩
  bind h hf := by
    refine ⟨h.1.bind h.2 fun a ha ↦ (hf a ha).1, fun s b s' hb ↦ ?_⟩
    obtain ⟨a, s₁, ha, hb⟩ := Run.exists_of_bind_ok hb
    exact (hf a (h.2 ha)).2 hb
  machine f := ⟨.of_tables_eq fun _ ↦ rfl, fun _ _ _ _ ↦ trivial⟩
  function? r := ⟨.of_tables_eq fun _ ↦ rfl, fun _ _ _ _ _ _ _ _ ↦ False.elim⟩
  files f := ⟨.of_tables_eq fun _ ↦ rfl, fun _ _ _ _ ↦ trivial⟩
  print _ := ⟨.of_tables_eq fun _ ↦ rfl, fun _ _ _ _ ↦ trivial⟩
  world _ f := ⟨.of_tables_eq fun _ ↦ rfl, fun _ _ _ _ ↦ trivial⟩
  modifyWorld _ f := ⟨.of_tables_eq fun _ ↦ rfl, fun _ _ _ _ ↦ trivial⟩
  newTable := ⟨.of_keeps fun s ↦ .push s.machine .empty, fun _ _ _ _ _ ↦ trivial⟩
  newNative _ _ := ⟨.of_tables_eq fun _ ↦ rfl, fun _ _ _ _ ↦ trivial⟩
  newScript _ _ _ := ⟨.of_tables_eq fun _ ↦ rfl, fun _ _ _ _ ↦ trivial⟩
  newUserdata u := ⟨.of_tables_eq fun _ ↦ rfl, fun _ _ _ _ ↦ trivial⟩
  newCell v := ⟨.of_tables_eq fun _ ↦ rfl, fun _ _ _ _ ↦ trivial⟩
  writeCell r v := ⟨.of_tables_eq fun _ ↦ rfl, fun _ _ _ _ ↦ trivial⟩
  modifyTable _ ha :=
    ⟨.of_keeps fun s ↦ .modify s.machine _ (ha.resolve_left id), fun _ _ _ _ ↦ trivial⟩
  modifyUserdata r f := ⟨.of_tables_eq fun _ ↦ rfl, fun _ _ _ _ ↦ trivial⟩
  setInput input := ⟨.of_tables_eq fun _ ↦ rfl, fun _ _ _ _ ↦ trivial⟩
  setStringMetatable r := ⟨.of_tables_eq fun _ ↦ rfl, fun _ _ _ _ ↦ trivial⟩
  goToLine line := by
    refine ⟨.of_tables_eq fun s ↦ ?_, fun _ _ _ _ ↦ trivial⟩
    cases h : s.machine.frames <;>
      simp [Run.after, Evaluation.goToLine, Run.modifyMachine, h]
  activate h := ⟨h.1.activate, Run.Regular.results_activate h.2⟩
  attempt _ h := ⟨h.1.attempt, fun _ _ _ _ ↦ trivial⟩
  protect h := ⟨h.1.protect, Run.Regular.results_protect h.2⟩

theorem registers : R.logic.Registers := Run.Logic.Agree.registers fun _ _ ↦ trivial

end MetatableOrder

/-! ## Functions that attach metatables -/

/-- Evaluation in which something is done with what the functions that attach metatables to tables
do. -/
def Hooks.attaching (attach : Native → Arguments → Run (List Value) → Run (List Value)) :
    Hooks Unit where
  native _ fuel call op args :=
    if op.attaches then attach op args (op.run fuel (call ()) args) else op.run fuel (call ()) args
  store _ := Operation.store
  stray r := r

theorem MetatableOrder.hooks_agree {R : MetatableOrder}
    {attach : Native → Arguments → Run (List Value) → Run (List Value)}
    (h : ∀ op fuel call args, op.attaches = true →
      R.Climbs (attach op args (op.run fuel call args))) :
    Run.Logic.HooksAgree (fun _ : Unit ↦ R.logic) (.attaching attach) (.attaching attach)
      id id where
  native _ _ fuel call call' op args hcall := by
    simp only [Hooks.attaching]
    split
    · next hop => exact ⟨h op fuel _ args hop, fun _ _ _ _ ↦ trivial⟩
    · next hop =>
      exact .native registers (hcall () _) fuel op args (fun _ _ _ ↦ trivial)
        (fun ha ↦ hop ha) (fun _ ↦ trivial) fun _ ↦ trivial
  store _ _ _ _ v := .storeRaw (fun _ _ ↦ trivial) v
  stray _ _ _ _ _ h := h

/-- No table has another metatable in the second machine that has one in the first with a field to
protect it. -/
def Machine.Protects (m m' : Machine) : Prop :=
  ∀ r < m.tables.size, Metatable.of? m' (.table r) ≠ Metatable.of? m (.table r) →
    Metatable.fieldOf m (.table r) Library.Base.protectionField = .nil

theorem Machine.Protects.refl (m : Machine) : m.Protects m := fun _ _ h ↦ (h rfl).elim

/-- A metatable may be attached where there is none to protect, or where it is already. -/
theorem Machine.Protects.attach {m m₁ : Machine} (hm : m.KeepsMetatables m₁) {r : Ref}
    {metatable : Option Ref}
    (h : Metatable.fieldOf m (.table r) Library.Base.protectionField = .nil ∨
      Metatable.of? m (.table r) = metatable) :
    m.Protects { m₁ with tables := m₁.tables.modify r fun t ↦ { t with metatable } } := by
  intro r' hr' hne
  by_cases hr : r = r'
  · subst hr
    refine h.resolve_right fun heq ↦ hne ?_
    have hlt := Nat.lt_of_lt_of_le hr' hm.size_le
    rw [heq]
    simp only [Metatable.of?, Array.getElem?_modify, if_pos, Array.getElem?_eq_getElem hlt]
    rfl
  · refine (hne ?_).elim
    rw [← hm.of?_eq r' hr']
    simp only [Metatable.of?, Array.getElem?_modify, if_neg hr]

section Functions

open Library

variable {args : Arguments} {s : Session}

/-- Either `setmetatable` fails and changes nothing, or the table has a metatable that is not
protected, or none. -/
theorem setmetatable_outcome (args : Arguments) (s : Session) :
    (∃ e, Base.setmetatable args s = .error (.fault e) s) ∨
      ∃ r metatable, args.arg 1 = .table r ∧
        Metatable.fieldOf s.machine (.table r) Base.protectionField = .nil ∧
        Base.setmetatable args s = .ok [.table r] { s with machine := { s.machine with
          tables := s.machine.tables.modify r fun t ↦ { t with metatable } } } := by
  rcases (Arguments.reads_check : Reads _ (args.check .table 1)).cases_at s with
    ⟨r, hr, hcheck⟩ | ⟨e, he⟩
  case inr => exact .inl ⟨e, Run.bind_of_error he⟩
  rcases (Arguments.reads_checkKinds _ : Reads _ (args.checkKinds 2 [.nil, .table])).cases_at s with
    ⟨u, -, hkinds⟩ | ⟨e, he⟩
  case inr => exact .inl ⟨e, (Run.bind_of_ok hcheck).trans (Run.bind_of_error he)⟩
  rcases (Arguments.reads_opt? : Reads _ (args.opt? .table 2)).cases_at s with
    ⟨metatable, -, hopt⟩ | ⟨e, he⟩
  all_goals
    have hfield : Metatable.field (.table r) Base.protectionField s =
      .ok (Metatable.fieldOf s.machine (.table r) Base.protectionField) s := rfl
    rw [Base.setmetatable, Run.bind_of_ok hcheck, Run.bind_of_ok hkinds, Run.bind_of_ok hfield]
    cases hnil : (Metatable.fieldOf s.machine (.table r) Base.protectionField).isNil
  · exact .inl ⟨_, rfl⟩
  · refine .inr ⟨r, metatable, Arguments.get?_table hr, Value.isNil_iff.1 hnil, ?_⟩
    exact Run.bind_of_ok hopt
  · exact .inl ⟨_, rfl⟩
  · exact .inl ⟨e, Run.bind_of_error he⟩

theorem setmetatable_protects (args : Arguments) (s : Session) :
    s.machine.Protects ((Base.setmetatable args).after s).machine := by
  rcases setmetatable_outcome args s with ⟨e, he⟩ | ⟨r, metatable, -, hnil, hok⟩
  · rw [Run.after_of_error he]
    exact .refl _
  · rw [Run.after_of_ok hok]
    exact .attach (.refl _) (.inl hnil)

/-- What `seeall` attaches is the metatable that is there, or a new one where there is none. -/
theorem seeall_protects (args : Arguments) (s : Session) :
    s.machine.Protects ((Package.seeall args).after s).machine := by
  rcases (Arguments.reads_check : Reads _ (args.check .table 1)).cases_at s with
    ⟨r, hr, hcheck⟩ | ⟨e, he⟩
  case inr =>
    rw [Package.seeall, Run.after_of_error (Run.bind_of_error he)]
    exact .refl _
  have hof : Metatable.of (.table r) s = .ok (Metatable.of? s.machine (.table r)) s := rfl
  rw [Package.seeall, Run.after, Run.bind_of_ok hcheck, Run.bind_of_ok hof]
  cases hmt : Metatable.of? s.machine (.table r) with
  | some mt =>
      have hset := Machine.KeepsMetatables.modify s.machine mt
        fun t ↦ t.metatable_setStr "__index" (.table s.machine.globals)
      exact .attach hset (.inr hmt)
  | none =>
      have hset := (Machine.KeepsMetatables.push s.machine .empty).trans <|
        Machine.KeepsMetatables.modify _ s.machine.tables.size
          fun t ↦ t.metatable_setStr "__index" (.table s.machine.globals)
      refine .attach hset (.inl ?_)
      rw [Metatable.fieldOf, hmt]

/-- With a field that protects its metatable, a table keeps it, and so does all else stay. -/
theorem setmetatable_of_protected {r : Ref} (harg : args.arg 1 = .table r)
    (h : Metatable.fieldOf s.machine (.table r) Base.protectionField ≠ .nil) :
    ∃ e, Base.setmetatable args s = .error (.fault e) s := by
  rcases setmetatable_outcome args s with he | ⟨r', metatable, harg', hnil, -⟩
  · exact he
  · cases harg.symm.trans harg'
    exact (h hnil).elim

/-- The field that protects a metatable is what is shown of it. -/
theorem getmetatable_of_protected
    (h : Metatable.fieldOf s.machine (args.arg 1) Base.protectionField ≠ .nil) :
    Base.getmetatable args s =
      .ok [Metatable.fieldOf s.machine (args.arg 1) Base.protectionField] s := by
  have hlength : ¬(args.length < 1) := fun hlt ↦ by
    rw [List.length_eq_zero_iff.1 (Nat.lt_one_iff.1 hlt)] at h
    exact h rfl
  have hany : args.checkAny 1 s = .ok (args.arg 1) s := by
    rw [Arguments.checkAny, if_neg (by simpa using hlength)]
    rfl
  have hof : Metatable.of (args.arg 1) s = .ok (Metatable.of? s.machine (args.arg 1)) s := rfl
  rw [Base.getmetatable, Run.bind_of_ok hany, Run.bind_of_ok hof]
  unfold Metatable.fieldOf at h ⊢
  cases hmt : Metatable.of? s.machine (args.arg 1) with
  | none =>
      rw [hmt] at h
      exact (h rfl).elim
  | some mt =>
      rw [hmt] at h
      have hget : Heap.getStr mt Base.protectionField s =
        .ok ((s.machine.tables[mt]?.getD .empty).getStr Base.protectionField) s := rfl
      dsimp only at h ⊢
      rw [Run.bind_of_ok hget, if_neg fun hnil ↦ h (Value.isNil_iff.1 hnil)]
      rfl

end Functions

/-! ## Runs -/

/-- Evaluation that exits with a code where `debug.setmetatable` is called. -/
def Hooks.withoutDebug (code : Int) : Hooks Unit :=
  .attaching fun op _ r ↦ if op = .debug .setmetatable then throw (.exit code) else r

/-- Evaluation that exits with a code where a function attaches a metatable to a table that has one
with a field to protect it. -/
noncomputable def Hooks.protecting (code : Int) : Hooks Unit :=
  .attaching fun _ _ ↦ Run.ensuring code fun r s ↦ s.machine.Protects (r.after s).machine

/-- Nothing is asked of the bodies in the heap if they need not be well formed. -/
theorem Lockstep.wellFormed_of_false {m : Machine} (_ : True) (h : False) (r : Ref) (body : Body)
    (chunk : String) (scope : Scope) :
    m.functions[r]? = some (.script body chunk scope) → body.WellFormed :=
  h.elim

/-- Runs that are the same on all machines and in all surroundings. -/
def Lockstep.everywhere : Lockstep where
  toLikeness := .same
  Holds _ := True
  Strict := False
  Writes _ _ := True
  holds_change _ _ := trivial
  wellFormed := wellFormed_of_false
  writes_new _ _ := trivial

/-- What agrees with a run that nothing stops is the same. -/
theorem Lockstep.everywhere_eq {α : Type} {r r' : Int → Run α} {plain : Run α} {s : Session}
    (h : ∀ code code', (everywhere.logic (some code)).Agree false (r code) (r' code'))
    (hplain : ∀ code, r code s = plain s) (code' : Int) : r' code' s = plain s := by
  have ho : everywhere.Outcomes none (fun _ _ ↦ True) (plain s) (r' code' s) :=
    .of_forall fun code ↦ hplain code ▸ h code code' s.machine s.world s.world trivial rfl
  exact (ho.eq_of_none fun _ _ h ↦ h).symm

theorem Run.ensuring_of_forall {α : Type} {code : Int} {good : Run α → Session → Prop} {r : Run α}
    (h : ∀ s, good r s) : Run.ensuring code good r = r := by
  funext s
  exact if_pos (h s)

theorem Native.protects_of_ne {op : Native} (hop : op.attaches = true)
    (hne : op ≠ .debug .setmetatable) (fuel : Nat) (call : Caller) (args : Arguments)
    (s : Session) : s.machine.Protects ((op.run fuel call args).after s).machine := by
  cases op with
  | base f =>
      cases f with
      | setmetatable => exact setmetatable_protects args s
      | _ => exact nomatch hop
  | package f =>
      cases f with
      | seeall => exact seeall_protects args s
      | _ => exact nomatch hop
  | debug f =>
      cases f with
      | setmetatable => exact (hne rfl).elim
      | _ => exact nomatch hop
  | _ => exact nomatch hop

/-- Where `debug.setmetatable` is not called, protected metatables stay. -/
theorem Hooks.protecting_agree (code code' : Int) :
    Run.Logic.HooksAgree (fun _ : Unit ↦ Lockstep.everywhere.logic (some code))
      (.withoutDebug code) (.protecting code') id id where
  native _ m fuel call call' op args hcall := by
    have hplain : (Lockstep.everywhere.logic (some code)).Agree m (op.run fuel (call ()) args)
        (op.run fuel (call' ()) args) :=
      .native (Run.Logic.Agree.registers fun _ _ ↦ trivial) (hcall () _) fuel op args
        (fun _ _ _ ↦ trivial) (fun _ ↦ trivial) (fun _ ↦ trivial) fun _ ↦ trivial
    simp only [Hooks.withoutDebug, Hooks.protecting, Hooks.attaching]
    split
    · next hop =>
      split
      · exact fun _ _ _ _ _ ↦ .stopped rfl
      · next hne =>
        rw [Run.ensuring_of_forall (Native.protects_of_ne hop hne fuel _ args)]
        exact hplain
    · exact hplain
  store _ _ _ _ v := .storeRaw (fun _ _ ↦ trivial) v
  stray _ _ _ _ _ h := h

namespace Program

variable {g : Ref} {op : Native} {called : String} {s : Session}

/-- The call of a host function is run on top of the active calls, unless there is no room. -/
theorem call_native (hg : s.machine.functions[g]? = some (.native called op)) (fuel : Nat)
    (args : List Value) (name : Option String) :
    Program.call (fuel + 1) (.function g) args name s =
      Run.activate (.native name) (op.run fuel (Program.call fuel) args) s := by
  have hfunction : Heap.function? g s = .ok (some (.native called op)) s :=
    congrArg (EStateM.Result.ok · s) hg
  exact Run.bind_of_ok hfunction

/-- A call of `setmetatable` fails and changes nothing if the metatable of the table is
protected. -/
theorem call_setmetatable
    (hg : s.machine.functions[g]? = some (.native called (.base .setmetatable)))
    {args : Arguments} {r : Ref} (harg : args.arg 1 = .table r)
    (h : Metatable.fieldOf s.machine (.table r) Library.Base.protectionField ≠ .nil) (fuel : Nat)
    (name : Option String) :
    ∃ e, Program.call (fuel + 1) (.function g) args name s = .error (.fault e) s := by
  rw [call_native hg]
  by_cases hfull : s.machine.callLimit ≤ s.machine.frames.length
  · exact ⟨.stackOverflow, Run.activate_of_full _ _ hfull⟩
  · obtain ⟨e, he⟩ := setmetatable_of_protected (s := s.mapFrames (Frame.native name :: ·)) harg h
    refine ⟨e, ?_⟩
    have hrun : Native.run fuel (Program.call fuel) (.base .setmetatable) args _ = _ := he
    rw [Run.activate, if_neg hfull, hrun]
    rfl

/-- A call of `getmetatable` shows the field that protects the metatable of a value. -/
theorem call_getmetatable
    (hg : s.machine.functions[g]? = some (.native called (.base .getmetatable)))
    (hroom : s.machine.frames.length < s.machine.callLimit) {args : Arguments}
    (h : Metatable.fieldOf s.machine (args.arg 1) Library.Base.protectionField ≠ .nil) (fuel : Nat)
    (name : Option String) :
    Program.call (fuel + 1) (.function g) args name s =
      .ok [Metatable.fieldOf s.machine (args.arg 1) Library.Base.protectionField] s := by
  have hrun : Native.run fuel (Program.call fuel) (.base .getmetatable) args _ = _ :=
    getmetatable_of_protected (s := s.mapFrames (Frame.native name :: ·)) h
  rw [call_native hg, Run.activate, if_neg (Nat.not_le_of_lt hroom), hrun]
  rfl

/-- Runs change which metatable a table has, if it is there already, only where they call a function
that attaches metatables: in whatever order of machines changes that keep metatables go up, a run
goes up if what is put in the place of these functions does.  Where `debug.setmetatable` is not
called, these functions leave every metatable in its place that has a field to protect it; whatever
code evaluation would exit with at such a change, it is the same.  On a protected table a call of
`setmetatable` fails and changes nothing, and of a protected metatable a call of `getmetatable`
shows that field. -/
theorem metatables_protected (fuel : Nat) (s : Session) :
    (∀ (R : MetatableOrder) (attach : Native → Arguments → Run (List Value) → Run (List Value)),
      (∀ op fuel call args, op.attaches = true →
        R.Climbs (attach op args (op.run fuel call args))) →
      (∀ f args name, R.Le s.machine
        ((Hooked.call (.attaching attach) fuel () f args name).after s).machine) ∧
      ∀ source chunk args, R.Le s.machine
        ((Hooked.executeBytes (.attaching attach) fuel () source chunk args).after s).machine) ∧
    (∀ f args name,
      (∀ code, Hooked.call (.withoutDebug code) fuel () f args name s =
        Program.call fuel f args name s) →
      ∀ code, Hooked.call (.protecting code) fuel () f args name s =
        Program.call fuel f args name s) ∧
    (∀ source chunk args,
      (∀ code, Hooked.executeBytes (.withoutDebug code) fuel () source chunk args s =
        Program.executeBytes fuel source chunk args s) →
      ∀ code, Hooked.executeBytes (.protecting code) fuel () source chunk args s =
        Program.executeBytes fuel source chunk args s) ∧
    (∀ g called (args : Arguments) r name,
      s.machine.functions[g]? = some (.native called (.base .setmetatable)) →
      args.arg 1 = .table r →
      Metatable.fieldOf s.machine (.table r) Library.Base.protectionField ≠ .nil →
      ∃ e, Program.call (fuel + 1) (.function g) args name s = .error (.fault e) s) ∧
    ∀ g called (args : Arguments) name,
      s.machine.functions[g]? = some (.native called (.base .getmetatable)) →
      s.machine.frames.length < s.machine.callLimit →
      Metatable.fieldOf s.machine (args.arg 1) Library.Base.protectionField ≠ .nil →
      Program.call (fuel + 1) (.function g) args name s =
        .ok [Metatable.fieldOf s.machine (args.arg 1) Library.Base.protectionField] s := by
  refine ⟨fun R attach hattach ↦ ⟨fun f args name ↦ ?_, fun source chunk args ↦ ?_⟩,
    fun f args name hplain ↦ ?_, fun source chunk args hplain ↦ ?_,
    fun g called args r name hg harg h ↦ call_setmetatable hg harg h fuel name,
    fun g called args name hg hroom h ↦ call_getmetatable hg hroom h fuel name⟩
  · have hrelated := Run.Logic.related (R.hooks_agree hattach) (fun _ ↦ trivial) fuel
    exact (hrelated.call () (m := false) f args name).1 s
  · exact ((R.hooks_agree hattach).executeBytes (fun _ ↦ trivial) () (m := false) fuel source chunk
      args).1 s
  · refine Lockstep.everywhere_eq (fun code code' ↦ ?_) hplain
    have hrelated :=
      Run.Logic.related (Hooks.protecting_agree code code') (fun _ ↦ trivial) fuel
    exact hrelated.call () f args name
  · exact Lockstep.everywhere_eq (fun code code' ↦ (Hooks.protecting_agree code code').executeBytes
      (fun _ ↦ trivial) () fuel source chunk args) hplain

/-- A table has a protected metatable, and another table has none. -/
theorem metatables_protected_locked :
    let locked := Table.empty.setStr Library.Base.protectionField (.string "locked")
    let tables := #[.empty, locked, { Table.empty with metatable := some 1 }, .empty]
    let functions := #[Function.native "setmetatable" (.base .setmetatable),
      .native "getmetatable" (.base .getmetatable)]
    let s : Session := ⟨{ Machine.initial 200 with tables, functions }, World.initial⟩
    let attach (_ : Native) (_ : Arguments) (_ : Run (List Value)) : Run (List Value) :=
      throw (.exit 0)
    let source := Text.bytes "return ..."
    let kept := Hooked.executeBytes (.attaching attach) 19 () source "chunk" [.nil]
    (∃ e, call 20 (.function 0) [.table 2, .nil] none s = .error (.fault e) s) ∧
      call 20 (.function 1) [.table 2] none s = .ok [.string "locked"] s ∧
      (∀ code, Hooked.call (.protecting code) 19 () (.function 0) [.table 3, .table 1] none s =
        call 19 (.function 0) [.table 3, .table 1] none s) ∧
      (∀ code, Hooked.executeBytes (.protecting code) 19 () source "chunk" [.nil] s =
        executeBytes 19 source "chunk" [.nil] s) ∧
      s.machine.KeepsMetatables (kept.after s).machine := by
  intro locked tables functions s attach source kept
  have hfield : Metatable.fieldOf s.machine (.table 2) Library.Base.protectionField =
      .string "locked" :=
    (Table.getStr_setStr ..).trans (if_pos rfl)
  have hlocked : Metatable.fieldOf s.machine (.table 2) Library.Base.protectionField ≠ .nil :=
    hfield ▸ Value.noConfusion
  let R : MetatableOrder := ⟨Machine.KeepsMetatables, id, .trans⟩
  obtain ⟨hrun, hcall, hbytes, hset, hget⟩ := metatables_protected 19 s
  refine ⟨hset 0 _ _ 2 none rfl rfl hlocked, ?_, hcall _ _ _ fun code ↦ ?_,
    hbytes _ _ _ fun code ↦ ?_, (hrun R attach fun _ _ _ _ _ s ↦ .refl s.machine).2 ..⟩
  · rw [hget 1 _ [.table 2] none rfl (by decide) hlocked]
    exact congrArg (EStateM.Result.ok [·] s) hfield
  all_goals
    clear_value locked
    cbv

end Program

end LuaEmbed
