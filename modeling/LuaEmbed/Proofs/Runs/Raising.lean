import LuaEmbed.Proofs.Runs.Comparison

/-!
# Faults under protection

A fault that is raised ends the protected call nearest to it at once, and that call reports it as it
is.  Whatever is run in between hands it on: blocks, statements and expressions, the functions that
are called there, and the host functions that make calls of their own.

To say so, evaluation is done once more with the program ended at the first fault that comes out of
anything that is run, outside of the protected calls further in.  The program ends by a code that
tells the fault, and nothing catches the end of a program.  Evaluation as it is ends with that fault,
in the session in which the program was ended.
-/

namespace LuaEmbed

open Library

/-! ## Evaluation that ends at the first fault -/

/-- Run, and end the program where the run ends with a fault. -/
def Run.escalate {α : Type} (code : Fault → Int) (r : Run α) : Run α := fun s ↦
  match r s with
  | .error (.fault f) s => .error (.exit (code f)) s
  | o => o

/-- `xpcall(f, handler)`, with a caller for the function and one for the handler. -/
def Library.Base.xpcallWith (call handle : Caller) (args : Arguments) : Run (List Value) := do
  let f ← args.checkAny 1
  let handler ← args.checkAny 2
  match ← Run.attempt (Run.protect (call f [] none)) with
  | .ok results => return .boolean true :: results
  | .error fault =>
    let handled ← handle handler [fault.toValue] none
    return [.boolean false, handled.headD .nil]

theorem Library.Base.xpcallWith_self (call : Caller) (args : Arguments) :
    xpcallWith call call args = xpcall call args := rfl

/-- Evaluation in two contexts.  What a protected call calls is guarded, and so is all that is called
from there. -/
def Hooks.guarding : Hooks Bool where
  native guarded fuel call op args :=
    if guarded then op.run fuel (call true) args
    else
      match op with
      | .base .pcall => Base.pcall (call true) args
      | .base .xpcall => Base.xpcallWith (call true) (call false) args
      | .embed .pkind => Embedding.protectedCall (call true) args
      | op => op.run fuel (call false) args
  store _ := Operation.store
  stray r := r

/-- Only what makes protected calls changes the context. -/
theorem Hooks.guarding_native {op : Native} (h : op.protects = false) (fuel : Nat)
    (call : Bool → Caller) (args : Arguments) :
    Hooks.guarding.native false fuel call op args = op.run fuel (call false) args := by
  simp only [Hooks.guarding, Bool.false_eq_true, if_false]
  split
  · exact nomatch h
  · exact nomatch h
  · exact nomatch h
  · rfl

/-- Evaluation that ends the program at the first fault that comes out of a call, a block, a statement
or an expression, unless that is guarded. -/
def Evaluator.ending (code : Fault → Int) : Nat → Evaluator Bool :=
  Hooks.guarding.watched fun guarded _ r ↦ if guarded then r else r.escalate code

/-- In the call of a value, a fault comes out of something that is run outside of all protected calls
that are made there.  Evaluation that ends the program at the first fault ends it in the session, by
whatever code is to tell the fault. -/
def Program.Raises (fuel : Nat) (f : Value) (args : List Value) (s : Session) (e : Fault)
    (s' : Session) : Prop :=
  ∀ code, (Evaluator.ending code fuel).call false f args none s = .error (.exit (code e)) s'

namespace Run

variable {α : Type} {code : Fault → Int} {r : Run α} {s s' : Session}

@[simp] theorem escalate_escalate (code : Fault → Int) (r : Run α) :
    (r.escalate code).escalate code = r.escalate code := by
  funext s
  unfold escalate
  cases r s with
  | ok a s' => rfl
  | error e s' => cases e <;> rfl

/-- A run that ends with the program, whatever the code for a fault, has ended with that fault. -/
theorem eq_fault_of_escalate {e : Fault}
    (h : ∀ code, r.escalate code s = .error (.exit (code e)) s') : r s = .error (.fault e) s' := by
  classical
  unfold escalate at h
  cases hr : r s with
  | ok a s₁ =>
      have hzero := h fun _ ↦ 0
      rw [hr] at hzero
      exact nomatch hzero
  | error a s₁ =>
      simp only [hr] at h
      cases a with
      | fault f =>
          -- The code tells this fault from all others.
          have hcode := h fun f' ↦ if f' = e then 0 else 1
          simp only [EStateM.Result.error.injEq, Abort.exit.injEq, if_pos] at hcode
          obtain ⟨hf, rfl⟩ := hcode
          split at hf
          · next heq => rw [heq]
          · exact nomatch hf
      | exit n =>
          have hzero := h fun _ ↦ 0
          have hone := h fun _ ↦ 1
          simp_all
      | outOfFuel =>
          have hzero := h fun _ ↦ 0
          exact nomatch hzero

end Run

/-! ## What it ends with -/

namespace Comparison

/-- Comparison on all sessions, where faults end the program unless they are guarded. -/
def ending (code : Fault → Int) (guarded : Bool) : Comparison where
  Covers _ _ := True
  covers_succ _ _ := trivial
  code? := if guarded then none else some code

variable {code : Fault → Int} {α : Type} {m : Bool}

/-- What is compared where faults are guarded can be compared where they are not. -/
theorem unguarded {r r' : Run α} (h : (ending code true).logic.Agree m r r') :
    (ending code false).logic.Agree m r r' :=
  Runs.of_none h rfl fun _ _ ↦ trivial

/-- The program may be ended at a fault that is not guarded. -/
theorem Runs.escalate {guarded : Bool} {r r' : Run α} {P : α → Prop}
    (h : (ending code guarded).Runs r r' P) :
    (ending code guarded).Runs (if guarded then r else r.escalate code) r' P := by
  cases guarded with
  | true => exact h
  | false =>
      intro s hs
      have ho := h s hs
      change (ending code false).Outcomes s P (r.escalate code s) (r' s)
      unfold Run.escalate
      generalize r s = o, r' s = o' at ho
      cases ho with
      | ok hd ha => exact .ok hd ha
      | @error e _ hd =>
          cases e with
          | fault f => exact .exit rfl hd
          | exit n => exact .error hd
          | outOfFuel => exact .error hd
      | exit hcode hd => exact .exit hcode hd

/-- Comparable outcomes are the same once the program is ended at faults. -/
theorem Runs.escalate_eq {r r' : Run α} {P : α → Prop} (h : (ending code false).Runs r r' P) :
    r.escalate code = r'.escalate code := by
  funext s
  have ho := h s trivial
  unfold Run.escalate
  generalize r s = o, r' s = o' at ho
  cases ho with
  | ok => rfl
  | error => rfl
  | exit hcode hd =>
      cases hcode
      rfl

end Comparison

namespace Run.Logic.Agree

/-- The function that `xpcall` calls is attempted, and its handler is called as it is. -/
theorem base_xpcallWith {L : Run.Logic} {m : Bool} {call call' handle handle' : Caller}
    (hattempt : ∀ f, L.Agree m (Run.attempt (Run.protect (call f [] none)))
      (Run.attempt (Run.protect (call' f [] none))))
    (hhandle : L.Callers m handle handle') (args : Arguments) :
    L.Agree m (Base.xpcallWith call handle args) (Base.xpcallWith call' handle' args) := by
  refine (checkAny args 1).bind fun f ↦ (checkAny args 2).bind fun handler ↦ ?_
  refine (hattempt f).bind fun outcome ↦ ?_
  split
  · apply pure
  · exact (hhandle ..).bind fun _ ↦ .pure _

end Run.Logic.Agree

namespace Evaluator

variable (code : Fault → Int)

/-- What host functions do is comparable in either context. -/
theorem guarding_agree :
    Run.Logic.HooksAgree (fun guarded ↦ (Comparison.ending code guarded).logic) .guarding .plain id
      fun _ ↦ () where
  native guarded m fuel call call' op args hcall := by
    have hother (hop : op.protects = true → guarded = true) :
        (Comparison.ending code guarded).logic.Agree m (op.run fuel (call guarded) args)
          (op.run fuel (call' ()) args) :=
      .native Comparison.registers (hcall guarded m) fuel op args (fun _ _ _ ↦ trivial)
        (fun _ ↦ trivial) (fun _ ↦ trivial) fun h ↦ if_pos (hop h)
    cases guarded with
    | true => exact hother fun _ ↦ rfl
    | false =>
        have hcatches : (Comparison.ending code true).logic.Catches := rfl
        cases hop : op.protects with
        | false =>
            change (Comparison.ending code false).logic.Agree m
              (Hooks.guarding.native false fuel call op args) _
            rw [Hooks.guarding_native hop]
            exact hother fun h ↦ nomatch hop.symm.trans h
        | true =>
            match op, hop with
            | .base .pcall, _ =>
                exact Comparison.unguarded (.base_pcall args hcatches (hcall true m))
            | .embed .pkind, _ =>
                exact Comparison.unguarded (.embedding_protectedCall args hcatches (hcall true m))
            | .base .xpcall, _ =>
                have hxpcall := Run.Logic.Agree.base_xpcallWith (fun f ↦ Comparison.unguarded
                  ((hcall true m f [] none).protect.attempt hcatches)) (hcall false m) args
                rw [Base.xpcallWith_self] at hxpcall
                exact hxpcall
  store _ _ _ _ v := .storeRaw (fun _ _ ↦ trivial) v
  stray _ _ _ _ _ h := h

/-- Evaluation that ends the program at the first fault is comparable to evaluation as it is. -/
theorem related_ending (fuel : Nat) :
    Run.Logic.Related (fun guarded ↦ (Comparison.ending code guarded).logic) id (fun _ ↦ ())
      (ending code fuel) (Hooked.evaluator .plain fuel) :=
  Run.Logic.related_watched (w := fun guarded _ r ↦ if guarded then r else r.escalate code)
    (guarding_agree code) (fun _ ↦ trivial) (fun _ _ _ _ _ _ h ↦ Comparison.Runs.escalate h) fuel

/-- Evaluation that ends the program at the first fault ends it where evaluation as it is ends with
that fault, and does the same otherwise. -/
theorem ending_call (fuel : Nat) (f : Value) (args : List Value) (name : Option String) :
    (ending code fuel).call false f args name = (Program.call fuel f args name).escalate code := by
  have hcall : Program.call fuel f args name = Hooked.call .plain fuel () f args name := by
    rw [(Hooked.unhooked fuel).call]
    rfl
  have hagree : (Comparison.ending code false).Runs ((ending code fuel).call false f args name)
      (Hooked.call .plain fuel () f args name) fun _ ↦ True :=
    (related_ending code fuel).call false (m := false) f args name
  rw [hcall, ← hagree.escalate_eq]
  cases fuel with
  | zero => rfl
  | succ fuel => exact (Run.escalate_escalate code _).symm

end Evaluator

/-! ## What is reported -/

theorem Arguments.checkAny_of_le (args : Arguments) {n : Nat} (hn : 0 < n) (h : n ≤ args.length) :
    args.checkAny n = pure (args.arg n) := by
  have hpresent : ¬(n = 0 ∨ args.length < n) := by omega
  simp [checkAny, hpresent]

namespace Run

variable {α : Type} {r : Run α} {s s' : Session}

theorem attempt_of_fault {e : Fault} (h : r s = .error (.fault e) s') :
    attempt r s = .ok (.error e) s' := by
  simp only [attempt, h]

/-- What is attempted does not end with a fault. -/
theorem attempt_ne_fault (e : Fault) : attempt r s ≠ .error (.fault e) s' := by
  unfold attempt
  split <;> simp_all

end Run

namespace Library.Base

variable {call : Caller} {f : Value} {s s' : Session} {e : Fault}

theorem pcall_cons (call : Caller) (f : Value) (args : List Value) :
    pcall call (f :: args) = do
      match ← Run.attempt (Run.protect (call f args none)) with
      | .ok results => return .boolean true :: results
      | .error fault => return [.boolean false, fault.toValue] := by
  unfold pcall
  rw [Arguments.checkAny_of_le _ Nat.one_pos (by simp), pure_bind]
  rfl

theorem pcall_of_fault {args : List Value}
    (h : Run.protect (call f args none) s = .error (.fault e) s') :
    pcall call (f :: args) s = .ok [.boolean false, e.toValue] s' := by
  rw [pcall_cons]
  exact Run.bind_of_ok (Run.attempt_of_fault h)

theorem xpcall_of_fault (h : Run.protect (call f [] none) s = .error (.fault e) s')
    (handler : Value) (args : List Value) :
    xpcall call (f :: handler :: args) s = (do
      let handled ← call handler [e.toValue] none
      return [.boolean false, handled.headD .nil] : Run (List Value)) s' := by
  unfold xpcall
  rw [Arguments.checkAny_of_le _ Nat.one_pos (by simp), pure_bind,
    Arguments.checkAny_of_le _ Nat.two_pos (by simp), pure_bind]
  exact Run.bind_of_ok (Run.attempt_of_fault h)

/-- A protected call of something does not end with a fault. -/
theorem pcall_ne_fault (args : List Value) :
    pcall call (f :: args) s ≠ .error (.fault e) s' := by
  rw [pcall_cons]
  intro h
  cases ho : Run.attempt (Run.protect (call f args none)) s with
  | ok outcome s₁ =>
      rw [Run.bind_of_ok ho] at h
      cases outcome <;> exact nomatch h
  | error a s₁ =>
      rw [Run.bind_of_error ho] at h
      cases h
      exact Run.attempt_ne_fault e ho

end Library.Base

/-- A value is raw-equal to itself unless it is NaN. -/
theorem Value.rawEqual_self_eq_false_iff (v : Value) :
    v.rawEqual v = false ↔ ∃ x, v = .number x ∧ x.isNaN = true := by
  have hnumber (x : Float) : (x == x) = !x.isNaN := by
    change x.toModel.unpack.beq x.toModel.unpack = !x.toModel.unpack.isNaN
    cases x.toModel.unpack with
    | notANumber => rfl
    | infinity sign => cases sign <;> rfl
    | zero sign => rfl
    | finite sign mantissa exponent =>
        have h : (compare exponent exponent).then (compare mantissa mantissa) = .eq := by
          simp
        cases sign with
        | positive => exact congrArg (fun order ↦ some order == some Ordering.eq) h
        | negative => exact congrArg (fun order ↦ some (Ordering.swap order) == some Ordering.eq) h
  cases v <;> simp [rawEqual, hnumber]

namespace Program

theorem call_of_raises {fuel : Nat} {f : Value} {args : List Value} {s s' : Session} {e : Fault}
    (h : Raises fuel f args s e s') : call fuel f args none s = .error (.fault e) s' := by
  refine Run.eq_fault_of_escalate fun code ↦ ?_
  rw [← Evaluator.ending_call]
  exact h code

/-- In a call, whatever fault comes out of something that is run there, outside of the protected calls
that it makes, ends the call at once.  If it is made under protection, exactly that fault is reported:
as such to a host, by its value to a script, and by its value to the handler of `xpcall`.  The value
is the one that was raised, which is raw-equal to itself unless it is NaN.  The protected call of a
script does not end with a fault itself. -/
theorem raised_is_reported (fuel : Nat) (f : Value) (args : List Value) (s : Session) :
    (∀ code name, (Evaluator.ending code fuel).call false f args name =
      (call fuel f args name).escalate code) ∧
    (∀ e s', Raises fuel f args s e s' →
      pcall fuel f args s = .error (.fault e) s' ∧
      Native.run fuel (call fuel) (.base .pcall) (f :: args) s =
        .ok [.boolean false, e.toValue] s' ∧
      (args = [] → ∀ handler rest,
        Native.run fuel (call fuel) (.base .xpcall) (f :: handler :: rest) s = (do
          let handled ← call fuel handler [e.toValue] none
          return [.boolean false, handled.headD .nil] : Run (List Value)) s')) ∧
    (∀ v, (Fault.raised v).toValue = v ∧
      (v.rawEqual v = false ↔ ∃ x, v = .number x ∧ x.isNaN = true)) ∧
    ∀ e s', Native.run fuel (call fuel) (.base .pcall) (f :: args) s ≠ .error (.fault e) s' := by
  refine ⟨fun code name ↦ Evaluator.ending_call code fuel f args name, fun e s' h ↦ ?_,
    fun v ↦ ⟨rfl, v.rawEqual_self_eq_false_iff⟩, fun e s' ↦ Base.pcall_ne_fault args⟩
  have hprotect : Run.protect (call fuel f args none) s = .error (.fault e) s' := by
    rw [(Run.Regular.programCall (m := false) fuel f args none).protect_eq]
    exact call_of_raises h
  refine ⟨hprotect, Base.pcall_of_fault hprotect, ?_⟩
  rintro rfl handler rest
  exact Base.xpcall_of_fault hprotect handler rest

/-- A number is raised by a script's own means. -/
theorem raised_is_reported_number :
    let functions := #[Function.native "error" (.base .error)]
    let s : Session := ⟨{ Machine.initial 200 with functions }, World.initial⟩
    Raises 5 (.function 0) [.number 1] s (.raised (.number 1)) s ∧
      Native.run 5 (call 5) (.base .pcall) [.function 0, .number 1] s =
        .ok [.boolean false, .number 1] s := by
  intro functions s
  have h : Raises 5 (.function 0) [.number 1] s (.raised (.number 1)) s := fun code ↦ rfl
  exact ⟨h, ((raised_is_reported 5 (.function 0) [.number 1] s).2.1 _ s h).2.1⟩

/-- The value of a fault is not always raw-equal to the value that was raised: NaN is reported as
NaN, which is not raw-equal to anything. -/
theorem nan_is_not_rawEqual :
    let functions := #[Function.native "error" (.base .error)]
    let s : Session := ⟨{ Machine.initial 200 with functions }, World.initial⟩
    let v := Value.number (0 / 0)
    Raises 5 (.function 0) [v] s (.raised v) s ∧
      Native.run 5 (call 5) (.base .pcall) [.function 0, v] s = .ok [.boolean false, v] s ∧
      v.rawEqual v = false :=
  ⟨fun _ ↦ rfl, rfl, rfl⟩

end Program

end LuaEmbed
