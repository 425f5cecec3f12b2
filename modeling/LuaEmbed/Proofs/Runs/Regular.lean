import LuaEmbed.Proofs.Runs.After
import LuaEmbed.Proofs.Runs.Logic.Evaluation

/-!
# Regular runs

A run is *regular* if it is put together from elementary actions: reading, adding to the heap,
changing one part of the session, failing, and running something as an active call.  What holds of
every elementary action, and of two runs in sequence if it holds of both, thus holds of everything
that evaluation and the libraries do.

The active calls are changed in two ways only.  A call is active as long as what it runs does, and
a script function moves its own frame to another line; the runs of host functions do not.
-/

namespace LuaEmbed

/-- The run is put together from elementary actions.  If it `moves`, it is one of a script function,
which may move the innermost frame to another line. -/
inductive Run.Regular : (moves : Bool) → {α : Type} → Run α → Prop where
  | pure {m : Bool} {α : Type} (a : α) : Regular m (pure a)
  | abort {m : Bool} {α : Type} (e : Abort) : Regular m (throw e : Run α)
  | machine {m : Bool} {α : Type} (f : Machine → α) : Regular m (Run.machine f)
  | world {m : Bool} {α : Type} (f : World → α) : Regular m (Run.world f)
  | newTable {m : Bool} : Regular m Heap.newTable
  | newFunction {m : Bool} (f : Function) : Regular m (Heap.newFunction f)
  | newUserdata {m : Bool} (u : Userdata) : Regular m (Heap.newUserdata u)
  | newCell {m : Bool} (v : Value) : Regular m (Heap.newCell v)
  | writeCell {m : Bool} (r : Ref) (v : Value) : Regular m (Heap.writeCell r v)
  | modifyTable {m : Bool} (r : Ref) (f : Table → Table) : Regular m (Heap.modifyTable r f)
  | modifyUserdata {m : Bool} (r : Ref) (f : Userdata → Userdata) :
      Regular m (Heap.modifyUserdata r f)
  | setInput {m : Bool} (input : Input) :
      Regular m (Run.modifyMachine fun machine ↦ { machine with input })
  | setStringMetatable {m : Bool} (r : Ref) :
      Regular m (Run.modifyMachine fun machine ↦ { machine with stringMetatable := some r })
  | modifyWorld {m : Bool} (f : World → World) : Regular m (Run.modifyWorld f)
  | goToLine (line : Nat) : Regular true (Evaluation.goToLine line)
  | bind {m : Bool} {α β : Type} {r : Run α} {f : α → Run β} :
      Regular m r → (∀ a, Regular m (f a)) → Regular m (r >>= f)
  /-- Only the run of a script function, whose frame has a site, moves its frame. -/
  | activate {m : Bool} {α : Type} {f : Frame} {r : Run α} :
      Regular f.site.isSome r → Regular m (Run.activate f r)
  | attempt {m : Bool} {α : Type} {r : Run α} : Regular m r → Regular m (Run.attempt r)
  | protect {m : Bool} {α : Type} {r : Run α} : Regular m r → Regular m (Run.protect r)

/-- All calls that the caller makes are regular. -/
def Caller.Regular (moves : Bool) (call : Caller) : Prop :=
  ∀ f args name, Run.Regular moves (call f args name)

namespace Run.Regular

variable {m : Bool} {α β : Type} {call : Caller}

/-! ## The logic of regular runs -/

/-- All results of the run have a property. -/
def Results (r : Run α) (P : α → Prop) : Prop :=
  ∀ ⦃s a s'⦄, r s = .ok a s' → P a

/-- In a sequence, only the results that the first run can have matter. -/
theorem bind_of_results {r : Run α} {f : α → Run β} {P : α → Prop} (hr : Regular m r)
    (hP : Results r P) (hf : ∀ a, P a → Regular m (f a)) : Regular m (r >>= f) := by
  classical
  have heq : r >>= f = r >>= fun a ↦ if P a then f a else throw .outOfFuel :=
    bind_congr_of_ok fun a s s' h ↦ (if_pos (hP h)).symm
  rw [heq]
  refine hr.bind fun a ↦ ?_
  split
  · exact hf a ‹_›
  · apply abort

theorem results_activate {f : Frame} {r : Run α} {P : α → Prop} (h : Results r P) :
    Results (Run.activate f r) P := by
  intro s a s' ha
  unfold Run.activate at ha
  split at ha
  · exact nomatch ha
  · split at ha
    · next hr =>
      cases ha
      exact h hr
    · exact nomatch ha

theorem results_protect {r : Run α} {P : α → Prop} (h : Results r P) :
    Results (Run.protect r) P := by
  intro s a s' ha
  unfold Run.protect at ha
  dsimp only at ha
  split at ha
  · next hr =>
    cases ha
    exact h hr
  · exact nomatch ha
  · exact nomatch ha

/-- To be regular is a logic of runs, which says nothing of the second run. -/
def logic : Run.Logic where
  Rel m {_} r _ P := Regular m r ∧ Results r P
  Strict := False
  Writes _ _ := True
  Attaches := True
  Shares := True
  Catches := True
  Captures := True
  pure h := ⟨.pure _, fun _ _ _ ha ↦ by cases ha; exact h⟩
  abort e := ⟨.abort e, fun _ _ _ ha ↦ nomatch ha⟩
  bind h hf := by
    refine ⟨bind_of_results h.1 h.2 fun a ha ↦ (hf a ha).1, fun s b s' hb ↦ ?_⟩
    obtain ⟨a, s₁, ha, hb⟩ := exists_of_bind_ok hb
    exact (hf a (h.2 ha)).2 hb
  machine f := ⟨.machine f, fun _ _ _ _ ↦ trivial⟩
  function? r := ⟨.machine fun machine ↦ machine.functions[r]?, fun _ _ _ _ _ _ _ _ ↦ False.elim⟩
  files f := ⟨.world fun w ↦ f w.files, fun _ _ _ _ ↦ trivial⟩
  print _ := ⟨.modifyWorld _, fun _ _ _ _ ↦ trivial⟩
  world _ f := ⟨.world f, fun _ _ _ _ ↦ trivial⟩
  modifyWorld _ f := ⟨.modifyWorld f, fun _ _ _ _ ↦ trivial⟩
  newTable := ⟨.newTable, fun _ _ _ _ _ ↦ trivial⟩
  newNative _ _ := ⟨.newFunction _, fun _ _ _ _ ↦ trivial⟩
  newScript _ _ _ := ⟨.newFunction _, fun _ _ _ _ ↦ trivial⟩
  newUserdata u := ⟨.newUserdata u, fun _ _ _ _ ↦ trivial⟩
  newCell v := ⟨.newCell v, fun _ _ _ _ ↦ trivial⟩
  writeCell r v := ⟨.writeCell r v, fun _ _ _ _ ↦ trivial⟩
  modifyTable _ _ := ⟨.modifyTable _ _, fun _ _ _ _ ↦ trivial⟩
  modifyUserdata r f := ⟨.modifyUserdata r f, fun _ _ _ _ ↦ trivial⟩
  setInput input := ⟨.setInput input, fun _ _ _ _ ↦ trivial⟩
  setStringMetatable r := ⟨.setStringMetatable r, fun _ _ _ _ ↦ trivial⟩
  goToLine line := ⟨.goToLine line, fun _ _ _ _ ↦ trivial⟩
  activate h := ⟨.activate h.1, results_activate h.2⟩
  attempt _ h := ⟨.attempt h.1, fun _ _ _ _ ↦ trivial⟩
  protect h := ⟨.protect h.1, results_protect h.2⟩

theorem registers : logic.Registers := Logic.Agree.registers fun _ _ ↦ trivial

/-- What is regular is allowed by every logic that holds nothing back. -/
theorem keeps {L : Run.Logic} (hw : ∀ r s, L.Writes r s) (ha : L.Attaches) (hs : L.Shares)
    (hc : L.Captures) (hstrict : ¬L.Strict) {r : Run α} (h : Regular m r) : L.Keeps m r := by
  induction h with
  | pure a => exact .pure a
  | abort e => exact .abort e
  | machine f => exact .machine f
  | world f => exact .world hs f
  | newTable => exact L.mono L.newTable fun _ _ ↦ trivial
  | newFunction f =>
      cases f with
      | native name op => exact .newNative name op
      | script body chunk scope => exact L.newScript (fun h ↦ (hstrict h).elim) (.inr hc) chunk
  | newUserdata u => exact .newUserdata u
  | newCell v => exact .newCell v
  | writeCell r v => exact .writeCell r v
  | modifyTable r f => exact L.modifyTable (fun _ key ↦ .inl (hw r key)) (.inl ha)
  | modifyUserdata r f => exact .modifyUserdata r f
  | setInput input => exact .setInput input
  | setStringMetatable r => exact L.setStringMetatable r
  | modifyWorld f => exact .modifyWorld hs f
  | goToLine line => exact .goToLine line
  | bind _ _ hr hf => exact hr.bind hf
  | activate _ hr => exact L.activate hr
  | attempt _ hr => exact hr.attempt_self
  | protect _ hr => exact hr.protect

theorem callers (hcall : call.Regular m) : logic.Callers m call call :=
  fun f args name ↦ ⟨hcall f args name, fun _ _ _ _ ↦ trivial⟩

/-- What host functions and assignments do is regular. -/
theorem plain_agree : Logic.HooksAgree (fun _ : Unit ↦ logic) .plain .plain id id :=
  .plain registers (fun _ _ ↦ trivial) trivial trivial trivial

/-! ## Operations -/

section Operations

variable (hcall : call.Regular m)

include hcall

theorem callField (v : Value) (event : String) : Regular m (Metatable.callField call v event) :=
  (Logic.Agree.callField (callers hcall) v event).1

theorem index (v key : Value) : Regular m (Operation.index call v key) :=
  (Logic.Agree.index (callers hcall) v key).1

theorem setIndex (v key value : Value) : Regular m (Operation.setIndex call v key value) :=
  (Logic.Agree.setIndex registers (fun _ _ ↦ trivial) trivial trivial trivial (callers hcall) v key
    value).1

theorem arithmetic (op : ArithmeticOp) (a b : Value) :
    Regular m (Operation.arithmetic call op a b) :=
  (Logic.Agree.arithmetic (callers hcall) op a b).1

theorem negate (v : Value) : Regular m (Operation.negate call v) :=
  (Logic.Agree.negate (callers hcall) v).1

theorem concat (a b : Value) : Regular m (Operation.concat call a b) :=
  (Logic.Agree.concat (callers hcall) a b).1

theorem lengthOf (v : Value) : Regular m (Operation.length call v) :=
  (Logic.Agree.lengthOf (callers hcall) v).1

theorem equals (a b : Value) : Regular m (Operation.equals call a b) :=
  (Logic.Agree.equals (callers hcall) a b).1

theorem lessThan (a b : Value) : Regular m (Operation.lessThan call a b) :=
  (Logic.Agree.lessThan (callers hcall) a b).1

theorem lessEqual (a b : Value) : Regular m (Operation.lessEqual call a b) :=
  (Logic.Agree.lessEqual (callers hcall) a b).1

theorem tostring (v : Value) : Regular m (Operation.tostring call v) :=
  (Logic.Agree.tostring (callers hcall) v).1

end Operations

/-! ## Programs -/

/-- The installation of all libraries. -/
theorem openAll : Regular m Library.openAll :=
  (Logic.Agree.openAll (L := logic) registers (fun _ _ _ ↦ trivial) trivial).1

theorem programCall (fuel : Nat) : Caller.Regular m (Program.call fuel) := by
  intro f args name
  have hcall : Program.call fuel = Hooked.call .plain fuel () := (Hooked.unhooked fuel).call.symm
  rw [hcall]
  exact ((Logic.related plain_agree (fun _ ↦ trivial) fuel).call () f args name).1

theorem programPcall (fuel : Nat) (f : Value) (args : List Value) :
    Regular m (Program.pcall fuel f args) := (programCall fuel f args none).protect

theorem executeBytes (fuel : Nat) (source : List UInt8) (chunk : String) (args : List Value) :
    Regular m (Program.executeBytes fuel source chunk args) := by
  rw [← Hooked.executeBytes_plain]
  exact (plain_agree.executeBytes (fun _ ↦ trivial) () fuel source chunk args).1

theorem executeFile (fuel : Nat) (path : String) (args : List Value) :
    Regular m (Program.executeFile fuel path args) :=
  bind (Logic.Agree.loadFile (L := logic) path).1 fun f ↦ programPcall fuel f args

end Run.Regular

end LuaEmbed
