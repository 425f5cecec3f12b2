import LuaEmbed.Proofs.Runs.After
import LuaEmbed.Proofs.Runs.Regular

/-!
# Active calls

A call leaves the active calls as it found them, whatever its outcome: a result, a fault at any
depth below it, an exhausted call stack, or the end of the program.  A script function may move its
own frame to another line, so what a run keeps are the active calls without the line of the
innermost one; a call takes its frame off again, and that line with it.
-/

namespace LuaEmbed

/-- Active calls without the line of the innermost one. -/
def Frame.lineless : List Frame → List Frame
  | [] => []
  | f :: fs => f.atLine 0 :: fs

namespace Frame

variable {f : Frame} {fs fs' : List Frame}

@[simp] theorem atLine_atLine (f : Frame) (line line' : Nat) :
    (f.atLine line).atLine line' = f.atLine line' := by
  cases f with
  | mk name site => cases site <;> rfl

theorem length_of_lineless (h : lineless fs' = lineless fs) : fs'.length = fs.length := by
  cases fs <;> cases fs' <;> simp_all [lineless]

theorem tail_of_lineless (h : lineless fs' = lineless (f :: fs)) : fs'.tail = fs := by
  cases fs' with
  | nil => exact nomatch h
  | cons f' fs' => exact (List.cons.inj h).2

end Frame

namespace Run

variable {α : Type} {m : Bool}

/-! ## What runs keep -/

theorem goToLine_lineless (line : Nat) (s : Session) :
    Frame.lineless ((Evaluation.goToLine line).after s).machine.frames =
      Frame.lineless s.machine.frames := by
  unfold Evaluation.goToLine
  cases h : s.machine.frames with
  | nil => simp [after, modifyMachine, h]
  | cons f fs => simp [after, modifyMachine, h, Frame.lineless]

namespace Regular

/-- The active calls without the line of the innermost one are as before. -/
theorem lineless {r : Run α} (h : Regular m r) (s : Session) :
    Frame.lineless (r.after s).machine.frames = Frame.lineless s.machine.frames := by
  induction h generalizing s with
  | goToLine line => exact goToLine_lineless line s
  | bind _ _ hr hf =>
      rcases after_bind _ _ s with h | ⟨a, h⟩
      · rw [h, hr]
      · rw [h, hf, hr]
  | activate _ hr =>
      rcases after_activate _ _ s with h | h
      · rw [h]
      · rw [h]
        exact congrArg Frame.lineless (Frame.tail_of_lineless (hr _))
  | attempt _ hr => rw [after_attempt, hr]
  | protect _ hr => rw [after_protect (Frame.length_of_lineless (hr s)), hr]
  | _ => rfl

/-- A run that does not move the innermost frame leaves the active calls as they were. -/
theorem frames {r : Run α} (h : Regular false r) (s : Session) :
    (r.after s).machine.frames = s.machine.frames := by
  generalize hm : false = m at h
  induction h generalizing s with
  | goToLine line => exact nomatch hm
  | bind _ _ hr hf =>
      rcases after_bind _ _ s with h | ⟨a, h⟩
      · rw [h, hr _ hm]
      · rw [h, hf _ _ hm, hr _ hm]
  | activate hr _ =>
      rcases after_activate _ _ s with h | h
      · rw [h]
      · rw [h]
        exact Frame.tail_of_lineless (hr.lineless _)
  | attempt _ hr => rw [after_attempt, hr _ hm]
  | protect _ hr => rw [after_protect (congrArg _ (hr s hm)), hr _ hm]
  | _ => rfl

end Regular

/-- The active calls are the same after the run as before. -/
def KeepsFrames (r : Run α) : Prop :=
  ∀ s, (r.after s).machine.frames = s.machine.frames

/-- A fresh machine has no active calls. -/
theorem start_frames (callLimit : Nat) (libraries : Bool) (input : Input) (s : Session) :
    ((Program.start callLimit libraries input).after s).machine.frames = [] := by
  have hlibraries : Regular false (if libraries then Library.openAll else pure ()) := by
    split
    · exact .openAll
    · apply Regular.pure
  exact hlibraries.frames { s with machine := { Machine.initial callLimit with input } }

/-- Calls, protected calls and the operations that call metamethods keep the active calls on every
outcome, and a source that is executed on a fresh machine leaves no call active. -/
theorem keepsFrames (fuel : Nat) :
    (∀ f args name, KeepsFrames (Program.call fuel f args name)) ∧
    (∀ f args, KeepsFrames (Program.pcall fuel f args)) ∧
    (∀ v key, KeepsFrames (Operation.index (Program.call fuel) v key)) ∧
    (∀ v key value, KeepsFrames (Operation.setIndex (Program.call fuel) v key value)) ∧
    (∀ op a b, KeepsFrames (Operation.arithmetic (Program.call fuel) op a b)) ∧
    (∀ v, KeepsFrames (Operation.negate (Program.call fuel) v)) ∧
    (∀ a b, KeepsFrames (Operation.concat (Program.call fuel) a b)) ∧
    (∀ v, KeepsFrames (Operation.length (Program.call fuel) v)) ∧
    (∀ a b, KeepsFrames (Operation.equals (Program.call fuel) a b)) ∧
    (∀ a b, KeepsFrames (Operation.lessThan (Program.call fuel) a b)) ∧
    (∀ a b, KeepsFrames (Operation.lessEqual (Program.call fuel) a b)) ∧
    (∀ v, KeepsFrames (Operation.tostring (Program.call fuel) v)) ∧
    (∀ v event, KeepsFrames (Metatable.callField (Program.call fuel) v event)) ∧
    ∀ callLimit libraries input source s,
      let fresh := (Program.start callLimit libraries input).after s
      ((Program.execute fuel source).after fresh).machine.frames = [] := by
  have hcall : Caller.Regular false (Program.call fuel) := .programCall fuel
  refine ⟨fun f args name ↦ (hcall ..).frames, fun f args ↦ (Regular.programPcall ..).frames,
    fun v key ↦ (Regular.index hcall ..).frames,
    fun v key value ↦ (Regular.setIndex hcall ..).frames,
    fun op a b ↦ (Regular.arithmetic hcall ..).frames,
    fun v ↦ (Regular.negate hcall ..).frames,
    fun a b ↦ (Regular.concat hcall ..).frames,
    fun v ↦ (Regular.lengthOf hcall ..).frames,
    fun a b ↦ (Regular.equals hcall ..).frames,
    fun a b ↦ (Regular.lessThan hcall ..).frames,
    fun a b ↦ (Regular.lessEqual hcall ..).frames,
    fun v ↦ (Regular.tostring hcall ..).frames,
    fun v event ↦ (Regular.callField hcall ..).frames, ?_⟩
  intro callLimit libraries input source s
  exact (Regular.frames (Regular.executeBytes ..) _).trans (start_frames ..)

end Run

end LuaEmbed
