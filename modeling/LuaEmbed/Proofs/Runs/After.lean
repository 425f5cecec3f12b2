import LuaEmbed.Machine

/-!
# Sessions after runs

The session that a run ends in, whatever its outcome, for each way of putting runs together.
-/

namespace LuaEmbed.Run

variable {α β : Type}

/-- The session that a run ends in, whatever its outcome. -/
def after (r : Run α) (s : Session) : Session :=
  match r s with
  | .ok _ s | .error _ s => s

section Bind

variable {σ : Type} {r : EStateM Abort σ α} {f : α → EStateM Abort σ β} {s s' : σ} {a : α}
  {e : Abort}

theorem bind_of_ok (h : r s = .ok a s') : (r >>= f) s = f a s' := by
  change EStateM.bind r f s = _
  simp only [EStateM.bind, h]

theorem bind_of_error (h : r s = .error e s') : (r >>= f) s = .error e s' := by
  change EStateM.bind r f s = _
  simp only [EStateM.bind, h]

/-- A sequence does the same on two sessions if its first part does. -/
theorem bind_congr_start {r' : EStateM Abort σ α} (h : r s = r' s') :
    (r >>= f) s = (r' >>= f) s' := by
  change EStateM.bind r f s = EStateM.bind r' f s'
  simp only [EStateM.bind, h]

end Bind

section After

variable {r : Run α} {f : α → Run β} {s s' : Session} {a : α} {e : Abort}

/-- If a sequence succeeds, so do both of its parts. -/
theorem exists_of_bind_ok {b : β} (h : (r >>= f) s = .ok b s') :
    ∃ a s₁, r s = .ok a s₁ ∧ f a s₁ = .ok b s' := by
  cases hr : r s with
  | ok a s₁ => exact ⟨a, s₁, rfl, (bind_of_ok hr).symm.trans h⟩
  | error e s₁ => exact nomatch (bind_of_error hr).symm.trans h

/-- Two sequences are the same if they go on in the same way from each result of the first part. -/
theorem bind_congr_of_ok {g : α → Run β} (h : ∀ a s s', r s = .ok a s' → f a = g a) :
    r >>= f = r >>= g := by
  funext s
  cases hr : r s with
  | ok a s' => rw [bind_of_ok hr, bind_of_ok hr, h a s s' hr]
  | error e s' => rw [bind_of_error hr, bind_of_error hr]

/-- Two sequences have the same outcome on a session if they go on in the same way there. -/
theorem bind_congr_at {g : α → Run β} (h : ∀ a s', r s = .ok a s' → f a s' = g a s') :
    (r >>= f) s = (r >>= g) s := by
  cases hr : r s with
  | ok a s' => rw [bind_of_ok hr, bind_of_ok hr, h a s' hr]
  | error e s' => rw [bind_of_error hr, bind_of_error hr]

theorem after_of_ok (h : r s = .ok a s') : r.after s = s' := by rw [after, h]

theorem after_of_error (h : r s = .error e s') : r.after s = s' := by rw [after, h]

end After

/-- A sequence ends where its first part does, if that fails, or else where its second part ends. -/
theorem after_bind (r : Run α) (f : α → Run β) (s : Session) :
    (r >>= f).after s = r.after s ∨ ∃ a, (r >>= f).after s = (f a).after (r.after s) := by
  cases hr : r s with
  | ok a s' =>
      right
      refine ⟨a, ?_⟩
      rw [after_of_ok hr, after, bind_of_ok hr, after]
  | error e s' =>
      left
      rw [after_of_error hr]
      exact after_of_error (bind_of_error hr)

theorem after_attempt (r : Run α) (s : Session) : (attempt r).after s = r.after s := by
  unfold after attempt
  cases r s with
  | ok a s' => rfl
  | error e s' => cases e <;> rfl

/-- An active call is put on top of the others and taken off again, unless there is no room. -/
theorem after_activate (f : Frame) (r : Run α) (s : Session) :
    (activate f r).after s = s ∨
      (activate f r).after s = (r.after (s.mapFrames (f :: ·))).mapFrames List.tail := by
  unfold after activate
  by_cases h : s.machine.callLimit ≤ s.machine.frames.length
  · left
    rw [if_pos h]
  · right
    rw [if_neg h]
    cases r (s.mapFrames (f :: ·)) <;> rfl

/-- Protection changes nothing where there are no more active calls than before. -/
theorem after_protect {r : Run α} {s : Session}
    (h : (r.after s).machine.frames.length = s.machine.frames.length) :
    (protect r).after s = r.after s := by
  unfold after at h
  unfold after protect
  cases hr : r s with
  | ok a s' => rfl
  | error e s' =>
      cases e with
      | fault f =>
          rw [hr] at h
          simp [Session.mapFrames, h]
      | exit code => rfl
      | outOfFuel => rfl

end LuaEmbed.Run

namespace LuaEmbed.Heap

/-- Only the table that is there matters for how it is changed. -/
theorem modifyTable_congr {r : Ref} {f g : Table → Table} {s : Session}
    (h : ∀ t, s.machine.tables[r]? = some t → f t = g t) :
    modifyTable r f s = modifyTable r g s := by
  have htables : s.machine.tables.modify r f = s.machine.tables.modify r g := by
    refine Array.ext_getElem? fun i ↦ ?_
    rw [Array.getElem?_modify, Array.getElem?_modify]
    split
    · next hri =>
      subst hri
      cases ht : s.machine.tables[r]? with
      | none => rfl
      | some t => rw [Option.map_some, Option.map_some, h t ht]
    · rfl
  rw [modifyTable, modifyTable, htables]

end LuaEmbed.Heap
