import LuaEmbed.Proofs.Runs.Regular

/-!
# Runs beside each other

Two runs are compared on sessions with certain numbers of active calls.  They have the same outcome
and end in the same session, but for one thing: where the second ends with a fault, the first may
end with an exit instead, by a code that tells the fault.  No run is caught that exits, so this is
kept by all ways of putting runs together but one.  To attempt the first run is another thing than
to attempt the second.
-/

namespace LuaEmbed

/-- As many calls are active in the second session as in the first, and may be active. -/
structure Session.SameDepth (s s' : Session) : Prop where
  length_eq : s'.machine.frames.length = s.machine.frames.length
  callLimit_eq : s'.machine.callLimit = s.machine.callLimit

namespace Session.SameDepth

variable {s s₁ s₂ : Session}

theorem refl (s : Session) : s.SameDepth s := ⟨rfl, rfl⟩

theorem trans (h : s.SameDepth s₁) (h' : s₁.SameDepth s₂) : s.SameDepth s₂ :=
  ⟨h'.length_eq.trans h.length_eq, h'.callLimit_eq.trans h.callLimit_eq⟩

/-- A call that is put on top of the others is taken off again. -/
theorem tail {f : Frame} (h : (s.mapFrames (f :: ·)).SameDepth s₁) :
    s.SameDepth (s₁.mapFrames List.tail) := by
  refine ⟨?_, h.callLimit_eq⟩
  have hlength : s₁.machine.frames.length = s.machine.frames.length + 1 := h.length_eq
  simp [Session.mapFrames, hlength]

/-- There are no calls to take off where there are no more than before. -/
theorem drop_eq (h : s.SameDepth s₁) :
    (s₁.mapFrames fun fs ↦ fs.drop (fs.length - s.machine.frames.length)) = s₁ := by
  simp [Session.mapFrames, h.length_eq]

end Session.SameDepth

/-- On which sessions runs are compared, and how. -/
structure Comparison where
  /-- The numbers of calls that are active and that may be. -/
  Covers : (depth callLimit : Nat) → Prop
  covers_succ {depth callLimit : Nat} :
    Covers depth callLimit → depth < callLimit → Covers (depth + 1) callLimit
  /-- The code of the exit that the first run may end with in place of a fault. -/
  code? : Option (Fault → Int)

namespace Comparison

variable {K : Comparison} {α β : Type}

variable (K) in
/-- Two outcomes that compared runs can have on a session. -/
inductive Outcomes (s : Session) (P : α → Prop) :
    EStateM.Result Abort Session α → EStateM.Result Abort Session α → Prop where
  | ok {a : α} {s' : Session} : s.SameDepth s' → P a → Outcomes s P (.ok a s') (.ok a s')
  | error {e : Abort} {s' : Session} : s.SameDepth s' → Outcomes s P (.error e s') (.error e s')
  | exit {code : Fault → Int} {f : Fault} {s' : Session} : K.code? = some code →
      s.SameDepth s' → Outcomes s P (.error (.exit (code f)) s') (.error (.fault f) s')

variable (K) in
/-- The session is one of those on which runs are compared. -/
def At (s : Session) : Prop := K.Covers s.machine.frames.length s.machine.callLimit

variable (K) in
/-- The runs have comparable outcomes, and their results have a property. -/
def Runs (r r' : Run α) (P : α → Prop) : Prop :=
  ∀ s, K.At s → K.Outcomes s P (r s) (r' s)

theorem At.of_sameDepth {s s' : Session} (h : K.At s) (hs : s.SameDepth s') : K.At s' := by
  unfold At
  rw [hs.length_eq, hs.callLimit_eq]
  exact h

namespace Outcomes

variable {s s₁ : Session} {P : α → Prop} {o o' : EStateM.Result Abort Session α}

/-- What holds after the first of two steps is said of the session before it. -/
theorem of_sameDepth (hs : s.SameDepth s₁) (h : K.Outcomes s₁ P o o') : K.Outcomes s P o o' := by
  cases h with
  | ok h ha => exact .ok (hs.trans h) ha
  | error h => exact .error (hs.trans h)
  | exit hcode h => exact .exit hcode (hs.trans h)

/-- Where nothing else is done about faults, the outcomes are the same. -/
theorem eq_of_none (hcode : K.code? = none) (h : K.Outcomes s P o o') : o = o' := by
  cases h with
  | ok _ _ => rfl
  | error _ => rfl
  | exit hsome _ => exact nomatch hcode.symm.trans hsome

end Outcomes

namespace Runs

variable {r r' : Run α} {P : α → Prop}

theorem pure {a : α} (h : P a) : K.Runs (pure a) (pure a) P := fun s _ ↦ .ok (.refl s) h

theorem abort (e : Abort) : K.Runs (throw e) (throw e) P := fun s _ ↦ .error (.refl s)

theorem bind {f f' : α → Run β} {Q : β → Prop} (h : K.Runs r r' P)
    (hf : ∀ a, P a → K.Runs (f a) (f' a) Q) : K.Runs (r >>= f) (r' >>= f') Q := by
  intro s hs
  have ho := h s hs
  generalize h₁ : r s = o, h₂ : r' s = o' at ho
  cases ho with
  | ok hd ha =>
      rw [Run.bind_of_ok h₁, Run.bind_of_ok h₂]
      exact (hf _ ha _ (hs.of_sameDepth hd)).of_sameDepth hd
  | error hd =>
      rw [Run.bind_of_error h₁, Run.bind_of_error h₂]
      exact .error hd
  | exit hcode hd =>
      rw [Run.bind_of_error h₁, Run.bind_of_error h₂]
      exact .exit hcode hd

/-- A run that has a result and leaves the active calls alone. -/
theorem elementary {r : Run α}
    (h : ∀ s : Session, ∃ a s', r s = .ok a s' ∧ s.SameDepth s' ∧ P a) : K.Runs r r P := by
  intro s _
  obtain ⟨a, s', hr, hd, ha⟩ := h s
  rw [hr]
  exact .ok hd ha

/-- A run that only reads. -/
theorem read {f : Session → α} (h : ∀ s, P (f s)) :
    K.Runs (fun s ↦ .ok (f s) s) (fun s ↦ .ok (f s) s) P :=
  elementary fun s ↦ ⟨_, _, rfl, .refl s, h s⟩

theorem goToLine (line : Nat) :
    K.Runs (Evaluation.goToLine line) (Evaluation.goToLine line) fun _ ↦ True := by
  refine elementary fun s ↦ ⟨_, _, rfl, ?_, trivial⟩
  cases h : s.machine.frames <;> exact ⟨by simp [h], by simp [h]⟩

theorem activate {f : Frame} (h : K.Runs r r' P) :
    K.Runs (Run.activate f r) (Run.activate f r') P := by
  intro s hs
  unfold Run.activate
  split
  · exact .error (.refl s)
  · next hroom =>
    have ho := h (s.mapFrames (f :: ·)) (K.covers_succ hs (Nat.lt_of_not_le hroom))
    generalize r (s.mapFrames (f :: ·)) = o, r' (s.mapFrames (f :: ·)) = o' at ho
    cases ho with
    | ok hd ha => exact .ok hd.tail ha
    | error hd => exact .error hd.tail
    | exit hcode hd => exact .exit hcode hd.tail

/-- What may have exited in place of a fault may not be attempted. -/
theorem attempt (hc : K.code? = none ∨ r = r') (h : K.Runs r r' P) :
    K.Runs (Run.attempt r) (Run.attempt r') fun _ ↦ True := by
  intro s hs
  have ho := h s hs
  have heq : r s = r' s := by
    rcases hc with hnone | rfl
    · exact ho.eq_of_none hnone
    · rfl
  unfold Run.attempt
  rw [heq] at ho ⊢
  cases ho' : r' s with
  | ok a s' =>
      rw [ho'] at ho
      cases ho with
      | ok hd _ => exact .ok hd trivial
  | error e s' =>
      rw [ho'] at ho
      cases ho with
      | error hd =>
          cases e with
          | fault f => exact .ok hd trivial
          | exit code => exact .error hd
          | outOfFuel => exact .error hd

theorem protect (h : K.Runs r r' P) : K.Runs (Run.protect r) (Run.protect r') P := by
  intro s hs
  have ho := h s hs
  unfold Run.protect
  dsimp only
  generalize r s = o, r' s = o' at ho
  cases ho with
  | ok hd ha => exact .ok hd ha
  | @error e s' hd =>
      cases e with
      | fault f =>
          dsimp only
          rw [hd.drop_eq]
          exact .error hd
      | exit code => exact .error hd
      | outOfFuel => exact .error hd
  | exit hcode hd =>
      dsimp only
      rw [hd.drop_eq]
      exact .exit hcode hd

/-- Runs that are comparable where faults are left alone are comparable where they are not. -/
theorem of_none {K' : Comparison} (h : K.Runs r r' P) (hcode : K.code? = none)
    (hcovers : ∀ s, K'.At s → K.At s) : K'.Runs r r' P := by
  intro s hs
  have ho := h s (hcovers s hs)
  generalize r s = o, r' s = o' at ho
  cases ho with
  | ok hd ha => exact .ok hd ha
  | error hd => exact .error hd
  | exit hsome _ => exact nomatch hcode.symm.trans hsome

/-- The second run changes nothing about the number of active calls. -/
theorem sameDepth (h : K.Runs r r' P) {s : Session} (hs : K.At s) : s.SameDepth (r'.after s) := by
  have ho := h s hs
  unfold Run.after
  generalize r s = o, r' s = o' at ho
  cases ho with
  | ok hd _ => exact hd
  | error hd => exact hd
  | exit _ hd => exact hd

end Runs

variable (K) in
/-- To be comparable is a logic of runs. -/
def logic : Run.Logic where
  Rel _ := K.Runs
  Strict := False
  Writes _ _ := True
  Attaches := True
  Shares := True
  Catches := K.code? = none
  Captures := True
  pure := Runs.pure
  abort := Runs.abort
  bind := Runs.bind
  machine _ := Runs.read fun _ ↦ trivial
  function? _ := Runs.read fun _ _ _ _ _ ↦ False.elim
  files _ := Runs.read fun _ ↦ trivial
  print _ := Runs.elementary fun _ ↦ ⟨_, _, rfl, ⟨rfl, rfl⟩, trivial⟩
  world _ _ := Runs.read fun _ ↦ trivial
  modifyWorld _ _ := Runs.elementary fun _ ↦ ⟨_, _, rfl, ⟨rfl, rfl⟩, trivial⟩
  newTable := Runs.elementary fun _ ↦ ⟨_, _, rfl, ⟨rfl, rfl⟩, fun _ ↦ trivial⟩
  newNative _ _ := Runs.elementary fun _ ↦ ⟨_, _, rfl, ⟨rfl, rfl⟩, trivial⟩
  newScript _ _ _ := Runs.elementary fun _ ↦ ⟨_, _, rfl, ⟨rfl, rfl⟩, trivial⟩
  newUserdata _ := Runs.elementary fun _ ↦ ⟨_, _, rfl, ⟨rfl, rfl⟩, trivial⟩
  newCell _ := Runs.elementary fun _ ↦ ⟨_, _, rfl, ⟨rfl, rfl⟩, trivial⟩
  writeCell _ _ := Runs.elementary fun _ ↦ ⟨_, _, rfl, ⟨rfl, rfl⟩, trivial⟩
  modifyTable _ _ := Runs.elementary fun _ ↦ ⟨_, _, rfl, ⟨rfl, rfl⟩, trivial⟩
  modifyUserdata _ _ := Runs.elementary fun _ ↦ ⟨_, _, rfl, ⟨rfl, rfl⟩, trivial⟩
  setInput _ := Runs.elementary fun _ ↦ ⟨_, _, rfl, ⟨rfl, rfl⟩, trivial⟩
  setStringMetatable _ := Runs.elementary fun _ ↦ ⟨_, _, rfl, ⟨rfl, rfl⟩, trivial⟩
  goToLine := Runs.goToLine
  activate := Runs.activate
  attempt := Runs.attempt
  protect := Runs.protect

theorem registers : K.logic.Registers := Run.Logic.Agree.registers fun _ _ ↦ trivial

/-- Comparison on all sessions, where faults are left alone. -/
def anywhere : Comparison where
  Covers _ _ := True
  covers_succ _ _ := trivial
  code? := none

end Comparison

namespace Run.Regular

variable {α : Type} {m : Bool} {r : Run α}

/-- A regular run is comparable with itself. -/
theorem comparable {K : Comparison} (h : Regular m r) : K.logic.Keeps m r :=
  h.keeps (fun _ _ ↦ trivial) trivial trivial trivial id

theorem sameDepth (h : Regular m r) (s : Session) : s.SameDepth (r.after s) :=
  Comparison.Runs.sameDepth (K := .anywhere) (h.comparable (m := m)) trivial

/-- Protection changes nothing about a regular run. -/
theorem protect_eq (h : Regular m r) : Run.protect r = r := by
  funext s
  have hd := h.sameDepth s
  unfold Run.after at hd
  unfold Run.protect
  cases hr : r s with
  | ok a s' => rfl
  | error e s' =>
      rw [hr] at hd
      cases e with
      | fault f =>
          dsimp only
          rw [hd.drop_eq]
      | exit code => rfl
      | outOfFuel => rfl

end Run.Regular

end LuaEmbed
