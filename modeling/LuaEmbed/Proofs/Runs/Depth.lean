import LuaEmbed.Proofs.Runs.Comparison

/-!
# The limit on active calls

At no moment are more calls active than a machine allows, whatever the host does with it and
whatever it runs.  The moments of a run are the sessions that it passes through between its
elementary actions, those of the calls that it makes included.

Where as many calls are active as may be, all further calls are refused, by whatever way they are
reached: everything that is run does the same as with a caller that runs no function at all.
-/

namespace LuaEmbed

/-! ## Moments -/

namespace Run

variable {α β : Type} {m : Bool}

/-- The second session is one that the run passes through from the first.  It may be one that a part
of the run passes through, where the parts are regular: no elementary action is taken apart. -/
inductive Passes : {α : Type} → Run α → Session → Session → Prop where
  | start {α : Type} (r : Run α) (s : Session) : Passes r s s
  | finish {α : Type} (r : Run α) (s : Session) : Passes r s (r.after s)
  | first {α β : Type} {m : Bool} {r : Run α} (f : α → Run β) {s s' : Session} :
      Regular m r → Passes r s s' → Passes (r >>= f) s s'
  | second {α β : Type} {m m' : Bool} {r : Run α} {f : α → Run β} {a : α} {s s₁ s' : Session} :
      Regular m r → Regular m' (f a) → r s = .ok a s₁ → Passes (f a) s₁ s' → Passes (r >>= f) s s'
  /-- The session in which an active call starts is the one that it can get. -/
  | activate {α : Type} {f : Frame} {r : Run α} {s s₁ s₂ s' : Session} :
      Regular f.site.isSome r → Run.activate f get s = .ok s₁ s₂ → Passes r s₁ s' →
        Passes (Run.activate f r) s s'
  | attempt {α : Type} {m : Bool} {r : Run α} {s s' : Session} :
      Regular m r → Passes r s s' → Passes (Run.attempt r) s s'
  | protect {α : Type} {m : Bool} {r : Run α} {s s' : Session} :
      Regular m r → Passes r s s' → Passes (Run.protect r) s s'

/-- If an active call gets a session, there was room for it, and it is the innermost one there. -/
theorem of_activate_get {f : Frame} {s s₁ s₂ : Session} (h : activate f get s = .ok s₁ s₂) :
    s.machine.frames.length < s.machine.callLimit ∧ s₁ = s.mapFrames (f :: ·) := by
  unfold activate at h
  split at h
  · exact nomatch h
  · next hroom =>
    cases h
    exact ⟨Nat.lt_of_not_le hroom, rfl⟩

theorem activate_of_full (f : Frame) (r : Run α) {s : Session}
    (hs : s.machine.callLimit ≤ s.machine.frames.length) :
    activate f r s = .error (.fault .stackOverflow) s := if_pos hs

end Run

/-- No more calls are active than the machine allows. -/
def Session.WithinLimit (s : Session) : Prop :=
  s.machine.frames.length ≤ s.machine.callLimit

theorem Session.SameDepth.withinLimit {s s' : Session} (h : s.SameDepth s') (hs : s.WithinLimit) :
    s'.WithinLimit := by
  unfold Session.WithinLimit
  rw [h.length_eq, h.callLimit_eq]
  exact hs

/-- A run that ends with as many active calls as it started with is at all moments within the limit,
if it starts so. -/
theorem Run.Passes.withinLimit {α : Type} {r : Run α} {s s' : Session} (h : Passes r s s')
    (hafter : s.SameDepth (r.after s)) (hs : s.WithinLimit) :
    s'.WithinLimit ∧ s'.machine.callLimit = s.machine.callLimit := by
  induction h with
  | start => exact ⟨hs, rfl⟩
  | finish => exact ⟨hafter.withinLimit hs, hafter.callLimit_eq⟩
  | first f hr _ ih => exact ih (hr.sameDepth _) hs
  | @second _ _ _ _ _ _ _ s _ _ hr hf ho _ ih =>
      have hd := hr.sameDepth s
      rw [Run.after_of_ok ho] at hd
      obtain ⟨hwithin, hlimit⟩ := ih (hf.sameDepth _) (hd.withinLimit hs)
      exact ⟨hwithin, hlimit.trans hd.callLimit_eq⟩
  | activate hr hget _ ih =>
      obtain ⟨hroom, rfl⟩ := Run.of_activate_get hget
      exact ih (hr.sameDepth _) hroom
  | attempt hr _ ih | protect hr _ ih => exact ih (hr.sameDepth _) hs

/-! ## Operations of the host -/

/-- What a host can do with a machine.  It has something run, or changes anything but the active calls
and how many there may be. -/
inductive HostOperation where
  | execute (source : List UInt8) (chunk : String) (args : List Value)
  | executeFile (path : String) (args : List Value)
  | call (f : Value) (args : List Value) (name : Option String)
  | pcall (f : Value) (args : List Value)
  | index (v key : Value)
  | setIndex (v key value : Value)
  | arithmetic (op : ArithmeticOp) (a b : Value)
  | negate (v : Value)
  | concat (a b : Value)
  | length (v : Value)
  | equals (a b : Value)
  | lessThan (a b : Value)
  | lessEqual (a b : Value)
  | tostring (v : Value)
  | callField (v : Value) (event : String)
  | openLibraries
  | edit (f : Session → Session)

namespace HostOperation

/-- Do an operation, with a caller for the calls that it makes. -/
def run (call : Caller) : HostOperation → Run (List Value)
  | execute source chunk args => do
    let f ← Loader.ofBytes source chunk
    Run.protect (call f args none)
  | executeFile path args => do
    let f ← Loader.ofFile path
    Run.protect (call f args none)
  | .call f args name => call f args name
  | pcall f args => Run.protect (call f args none)
  | index v key => do return [← Operation.index call v key]
  | setIndex v key value => do
    Operation.setIndex call v key value
    return []
  | arithmetic op a b => do return [← Operation.arithmetic call op a b]
  | negate v => do return [← Operation.negate call v]
  | concat a b => do return [← Operation.concat call a b]
  | length v => do return [← Operation.length call v]
  | equals a b => do return [.boolean (← Operation.equals call a b)]
  | lessThan a b => do return [.boolean (← Operation.lessThan call a b)]
  | lessEqual a b => do return [.boolean (← Operation.lessEqual call a b)]
  | tostring v => do return [.string (← Operation.tostring call v)]
  | callField v event => do return [← Metatable.callField call v event]
  | openLibraries => do
    Library.openAll
    return []
  | edit f => fun s =>
    let { frames, callLimit, .. } := s.machine
    let s := f s
    .ok [] { s with machine := { s.machine with frames, callLimit } }

section Agreement

variable {call call' : Caller}

/-- What operations do is related, in a logic that holds nothing back, if the calls are. -/
theorem agree {L : Run.Logic} (hreg : L.Registers) (hw : ∀ r s, L.Writes r s) (ha : L.Attaches)
    (hs : L.Shares) (hc : L.Catches) (hcall : L.Callers false call call') (op : HostOperation)
    (hedit : ∀ f, op = edit f → L.Agree false (op.run call) (op.run call')) :
    L.Agree false (op.run call) (op.run call') := by
  cases op with
  | execute source chunk args =>
      exact (Run.Logic.Agree.loadBytes ..).bind fun f ↦ (hcall ..).protect
  | executeFile path args => exact (Run.Logic.Agree.loadFile _).bind fun f ↦ (hcall ..).protect
  | call f args name => exact hcall ..
  | pcall f args => exact (hcall ..).protect
  | index v key => exact (Run.Logic.Agree.index hcall ..).bind fun _ ↦ .pure _
  | setIndex v key value =>
      exact (Run.Logic.Agree.setIndex hreg hw ha hs hc hcall ..).bind fun _ ↦ .pure _
  | arithmetic op a b => exact (Run.Logic.Agree.arithmetic hcall ..).bind fun _ ↦ .pure _
  | negate v => exact (Run.Logic.Agree.negate hcall _).bind fun _ ↦ .pure _
  | concat a b => exact (Run.Logic.Agree.concat hcall ..).bind fun _ ↦ .pure _
  | length v => exact (Run.Logic.Agree.lengthOf hcall _).bind fun _ ↦ .pure _
  | equals a b => exact (Run.Logic.Agree.equals hcall ..).bind fun _ ↦ .pure _
  | lessThan a b => exact (Run.Logic.Agree.lessThan hcall ..).bind fun _ ↦ .pure _
  | lessEqual a b => exact (Run.Logic.Agree.lessEqual hcall ..).bind fun _ ↦ .pure _
  | tostring v => exact (Run.Logic.Agree.tostring hcall _).bind fun _ ↦ .pure _
  | callField v event => exact (Run.Logic.Agree.callField hcall ..).bind fun _ ↦ .pure _
  | openLibraries =>
      exact (Run.Logic.Agree.openAll hreg (fun r s _ ↦ hw r s) hs).bind fun _ ↦ .pure _
  | edit f => exact hedit f rfl

/-- Where faults are left alone, operations are comparable if the calls that they make are. -/
theorem comparable {K : Comparison} (hcode : K.code? = none)
    (hcall : K.logic.Callers false call call') (op : HostOperation) :
    K.logic.Agree false (op.run call) (op.run call') := by
  refine agree K.registers (fun _ _ ↦ trivial) trivial trivial hcode hcall op ?_
  rintro f rfl
  exact Comparison.Runs.elementary (r := (edit f).run call) fun s ↦
    ⟨_, _, rfl, ⟨rfl, rfl⟩, trivial⟩

end Agreement

/-- Operations are done one after the other, whatever their outcomes, and one of them passes through
a session, or it is where they end. -/
def Passes (fuel : Nat) : List HostOperation → Session → Session → Prop
  | [], s, s' => s' = s
  | op :: ops, s, s' =>
    (op.run (Program.call fuel)).Passes s s' ∨
      Passes fuel ops ((op.run (Program.call fuel)).after s) s'

theorem sameDepth (fuel : Nat) (op : HostOperation) (s : Session) :
    s.SameDepth ((op.run (Program.call fuel)).after s) := by
  have hcall : Comparison.anywhere.logic.Callers false (Program.call fuel) (Program.call fuel) :=
    fun f args name ↦ (Run.Regular.programCall fuel f args name).comparable
  exact Comparison.Runs.sameDepth (comparable rfl hcall op) trivial

theorem Passes.withinLimit {fuel : Nat} {ops : List HostOperation} {s s' : Session}
    (h : Passes fuel ops s s') (hs : s.WithinLimit) :
    s'.WithinLimit ∧ s'.machine.callLimit = s.machine.callLimit := by
  induction ops generalizing s with
  | nil =>
      obtain rfl : s' = s := h
      exact ⟨hs, rfl⟩
  | cons op ops ih =>
      have hd := sameDepth fuel op s
      rcases h with h | h
      · exact h.withinLimit hd hs
      · obtain ⟨hwithin, hlimit⟩ := ih h (hd.withinLimit hs)
        exact ⟨hwithin, hlimit.trans hd.callLimit_eq⟩

end HostOperation

/-! ## Calls that are refused -/

/-- The function that is run when a value is called. -/
def Metatable.callee? (m : Machine) : Value → Option Ref
  | .function r => some r
  | v =>
    match fieldOf m v "__call" with
    | .function r => some r
    | _ => none

/-- Call a value where no call is allowed.  No function is run. -/
def Program.refuse : (fuel : Nat) → Caller
  | 0, _, _, _ => throw .outOfFuel
  | fuel + 1, f, args, name =>
    match f with
    | .function r => do
      match ← Heap.function? r with
      | some _ => Run.fail .stackOverflow
      | none => return []
    | v => do
      match ← Metatable.field v "__call" with
      | .function r => refuse fuel (.function r) (v :: args) name
      | _ => Report.here (.call none v.kind)

/-- Evaluation where no call is allowed. -/
def Evaluator.refusing : (fuel : Nat) → Evaluator Unit
  | 0 => .spent
  | fuel + 1 =>
    { Hooks.plain.next fuel (refusing fuel) with call := fun _ ↦ Program.refuse (fuel + 1) }

/-- Comparison of runs where as many calls are active as may be. -/
def Comparison.full : Comparison where
  Covers depth callLimit := callLimit ≤ depth
  covers_succ h hlt := (Nat.not_le_of_lt hlt h).elim
  code? := none

namespace Program

variable {s : Session}

/-- Where no call is allowed, calls are refused. -/
theorem call_eq_refuse (hs : s.machine.callLimit ≤ s.machine.frames.length) (fuel : Nat) (f : Value)
    (args : List Value) (name : Option String) :
    call fuel f args name s = refuse fuel f args name s := by
  induction fuel generalizing f args with
  | zero => rfl
  | succ fuel ih =>
      cases f with
      | function r =>
          refine Run.bind_congr_at fun g s' hr ↦ ?_
          obtain rfl : s = s' := (EStateM.Result.ok.inj hr).2
          match g with
          | none => rfl
          | some (.native _ op) => exact Run.activate_of_full _ _ hs
          | some (.script body chunk scope) => exact Run.activate_of_full _ _ hs
      | nil | boolean | number | string | table | userdata | thread =>
          refine Run.bind_congr_at fun handler s' hr ↦ ?_
          obtain rfl : s = s' := (EStateM.Result.ok.inj hr).2
          cases handler with
          | function r => exact ih ..
          | _ => rfl

theorem refuse_function {r : Ref} (hr : r < s.machine.functions.size) (fuel : Nat)
    (args : List Value) (name : Option String) :
    refuse (fuel + 1) (.function r) args name s = .error (.fault .stackOverflow) s := by
  have hget : Heap.function? r s = .ok (some s.machine.functions[r]) s := by
    simp [Heap.function?, hr]
  exact Run.bind_of_ok hget

/-- A value that can be called is refused, and nothing is changed. -/
theorem refuse_of_callee {v : Value} {r : Ref} (hv : Metatable.callee? s.machine v = some r)
    (hr : r < s.machine.functions.size) (fuel : Nat) (args : List Value) (name : Option String) :
    refuse (fuel + 2) v args name s = .error (.fault .stackOverflow) s := by
  cases v with
  | function r' =>
      obtain rfl : r' = r := Option.some.inj hv
      exact refuse_function hr ..
  | nil | boolean | number | string | table | userdata | thread =>
      simp only [Metatable.callee?] at hv
      split at hv
      · next r' hfield =>
        obtain rfl : r' = r := Option.some.inj hv
        have hhandler : Metatable.field _ "__call" s = .ok (.function r') s :=
          congrArg (EStateM.Result.ok · s) hfield
        refine (Run.bind_of_ok hhandler).trans ?_
        exact refuse_function hr ..
      · exact nomatch hv

theorem callers_refuse (fuel : Nat) {m : Bool} :
    Comparison.full.logic.Callers m (call fuel) (refuse fuel) := by
  intro f args name s hs
  have hkeeps : Comparison.full.logic.Keeps m (call fuel f args name) :=
    (Run.Regular.programCall fuel f args name).comparable
  rw [← call_eq_refuse hs]
  exact hkeeps s hs

end Program

/-- Where no call is allowed, evaluation does the same with its calls refused. -/
theorem Evaluator.related_refusing (fuel : Nat) :
    Run.Logic.Related (fun _ : Unit ↦ Comparison.full.logic) id id (Hooked.evaluator .plain fuel)
      (refusing fuel) := by
  have hplain : Run.Logic.HooksAgree (fun _ : Unit ↦ Comparison.full.logic) .plain .plain id id :=
    .plain Comparison.registers (fun _ _ ↦ trivial) trivial trivial rfl
  induction fuel with
  | zero => exact .spent
  | succ fuel ih =>
      refine { ih.next hplain (fun _ ↦ trivial) fuel with call := fun _ m ↦ ?_ }
      change Comparison.full.logic.Callers m (Hooked.call .plain (fuel + 1) ()) _
      rw [(Hooked.unhooked (fuel + 1)).call]
      exact Program.callers_refuse (fuel + 1)

/-- At every moment of whatever a host does with a new machine, no more calls are active than the
machine allows.  Where as many are active, the call of a value that can be called fails with an
exhausted stack and changes nothing.  There, what the host, a host function or a block of a script
does is what it does with all calls refused, by whatever way it comes to them. -/
theorem callLimit_holds (fuel : Nat) :
    (∀ callLimit world ops s',
      HostOperation.Passes fuel ops ⟨Machine.initial callLimit, world⟩ s' →
        s'.machine.callLimit = callLimit ∧ s'.machine.frames.length ≤ callLimit) ∧
    ∀ s : Session, s.machine.callLimit ≤ s.machine.frames.length →
      (∀ v r args name, Metatable.callee? s.machine v = some r → r < s.machine.functions.size →
        Program.call (fuel + 2) v args name s = .error (.fault .stackOverflow) s) ∧
      (∀ op : HostOperation, op.run (Program.call fuel) s = op.run (Program.refuse fuel) s) ∧
      (∀ (op : Native) (steps : Nat) args,
        op.run steps (Program.call fuel) args s = op.run steps (Program.refuse fuel) args s) ∧
      ∀ a scope block, Evaluation.runBlock fuel a scope block s =
        (Evaluator.refusing fuel).runBlock () a scope block s := by
  refine ⟨fun callLimit world ops s' h ↦ ?_, fun s hs ↦ ⟨fun v r args name hv hr ↦ ?_,
    fun op ↦ ?_, fun op steps args ↦ ?_, fun a scope block ↦ ?_⟩⟩
  · obtain ⟨hwithin, hlimit⟩ := h.withinLimit (Nat.zero_le callLimit)
    exact ⟨hlimit, Nat.le_trans hwithin (Nat.le_of_eq hlimit)⟩
  · rw [Program.call_eq_refuse hs]
    exact Program.refuse_of_callee hv hr ..
  · have hop := HostOperation.comparable rfl (Program.callers_refuse fuel) op
    exact (hop s hs).eq_of_none rfl
  · have hop : Comparison.full.logic.Agree false (op.run steps (Program.call fuel) args)
        (op.run steps (Program.refuse fuel) args) :=
      .native Comparison.registers (Program.callers_refuse fuel) steps op args
        (fun _ _ _ ↦ trivial) (fun _ ↦ trivial) (fun _ ↦ trivial) fun _ ↦ rfl
    exact (hop s hs).eq_of_none rfl
  · rw [← (Hooked.unhooked fuel).runBlock]
    have hblock := (Evaluator.related_refusing fuel).runBlock () (v := true) (l := true) a scope
      fun hstrict : False ↦ (hstrict.elim : Block.WellFormed true true block)
    exact (hblock s hs).eq_of_none rfl

/-- A host calls a function on a machine that allows one call, and the function calls itself. -/
theorem callLimit_holds_one :
    let functions := #[Function.native "pcall" (.base .pcall)]
    let s : Session := ⟨{ Machine.initial 1 with functions, frames := [.native none] }, World.initial⟩
    HostOperation.Passes 5
        [.edit fun s ↦ { s with machine := { s.machine with functions } },
          .call (.function 0) [.function 0] none]
        ⟨Machine.initial 1, World.initial⟩ s ∧
      s.machine.frames.length ≤ 1 ∧
      Program.call 2 (.function 0) [] none s = .error (.fault .stackOverflow) s := by
  intro functions s
  have hbody : Run.Regular false (Native.run 4 (Program.call 4) (.base .pcall) [.function 0]) :=
    (Run.Logic.Agree.native Run.Regular.registers (Run.Regular.callers (Run.Regular.programCall 4))
      4 (.base .pcall) [.function 0] (fun _ _ _ ↦ trivial) (fun _ ↦ trivial) (fun _ ↦ trivial)
      fun _ ↦ trivial).1
  have hpasses : HostOperation.Passes 5
      [.edit fun s ↦ { s with machine := { s.machine with functions } },
        .call (.function 0) [.function 0] none] ⟨Machine.initial 1, World.initial⟩ s := by
    have hfunction : Run.Regular false (Heap.function? 0) := .machine fun m ↦ m.functions[0]?
    refine .inr (.inl (.second hfunction
      (.activate (m := false) (f := .native none) hbody) rfl (.activate hbody rfl (.start ..))))
  have hfull : s.machine.callLimit ≤ s.machine.frames.length := Nat.le_refl 1
  exact ⟨hpasses, ((callLimit_holds 5).1 1 _ _ s hpasses).2,
    ((callLimit_holds 0).2 s hfull).1 (.function 0) 0 [] none rfl Nat.zero_lt_one⟩

end LuaEmbed
