import LuaEmbed.Proofs.Runs.After
import LuaEmbed.Proofs.Scoping.Framed

/-!
# Evaluation in frames agrees

Evaluation with a scope in the frame and with the visible names beside it does what evaluation does
that hands scopes on.  What holds a run together is that the scope of the frame is the scope that is
handed on, and that its names are the visible ones: expressions leave it alone, a statement leaves
it with the groups that it declares on top, and after a block it is what it was.
-/

namespace LuaEmbed

/-- How a flow ends a statement in a frame. -/
def Flow.ending : Flow → Framed.Ending
  | .next _ => .normal
  | .leaveLoop => .leaveLoop
  | .leaveFunction values => .leaveFunction values

/-- The flow of an ending, after which the next statement would be in the scope. -/
def Framed.Ending.flow (scope : Scope) : Framed.Ending → Flow
  | .normal => .next scope
  | .leaveLoop => .leaveLoop
  | .leaveFunction values => .leaveFunction values

namespace Framed

open Run (bind_of_ok bind_of_error)

variable {α β : Type} {scope : Scope}

/-! ## Runs in frames -/

section Runs

variable {r : Run α} {a : α} {e : Abort} {s s' : Session}

theorem lift_of_ok (h : r s = .ok a s') : lift r (scope, s) = .ok a (scope, s') := by
  simp only [lift, h]

theorem lift_of_error (h : r s = .error e s') : lift r (scope, s) = .error e (scope, s') := by
  simp only [lift, h]

end Runs

/-! ## Agreement of expressions -/

/-- On the scope, the run in a frame does what the other one does, and leaves the scope alone. -/
structure Agrees (scope : Scope) (x : Framed α) (r : Run α) : Prop where
  eq (s : Session) : x (scope, s) = lift r (scope, s)

namespace Agrees

variable {x : Framed α} {r : Run α} {f : α → Framed β} {g : α → Run β}

theorem lift (r : Run α) : Agrees scope (lift r) r := ⟨fun _ ↦ rfl⟩

theorem pure (a : α) : Agrees scope (pure a) (pure a) := ⟨fun _ ↦ rfl⟩

theorem throw (e : Abort) : Agrees scope (throw e : Framed α) (throw e) := ⟨fun _ ↦ rfl⟩

theorem of_ok (h : Agrees scope x r) {s s' : Session} {a : α} (hr : r s = .ok a s') :
    x (scope, s) = .ok a (scope, s') := (h.eq s).trans (lift_of_ok hr)

theorem of_error (h : Agrees scope x r) {s s' : Session} {e : Abort} (hr : r s = .error e s') :
    x (scope, s) = .error e (scope, s') := (h.eq s).trans (lift_of_error hr)

theorem bind (hx : Agrees scope x r) (hf : ∀ a, Agrees scope (f a) (g a)) :
    Agrees scope (x >>= f) (r >>= g) where
  eq s := by
    cases h : r s with
    | ok a s' =>
        rw [bind_of_ok (hx.of_ok h), (hf a).eq s', Framed.lift, Framed.lift, bind_of_ok h]
    | error e s' => rw [bind_of_error (hx.of_error h), lift_of_error (bind_of_error h)]

end Agrees

/-! ## Agreement of statements -/

/-- The outcome of a flow in a frame: a scope that is handed on is the scope of the frame, and other
outcomes leave the given one. -/
def outcome (left : Scope) :
    EStateM.Result Abort Session Flow → EStateM.Result Abort (Scope × Session) Ending
  | .ok (.next scope) s => .ok .normal (scope, s)
  | .ok .leaveLoop s => .ok .leaveLoop (left, s)
  | .ok (.leaveFunction values) s => .ok (.leaveFunction values) (left, s)
  | .error e s => .error e (left, s)

/-- The scope is handed on with the declared groups on top, and other outcomes leave it as it is. -/
structure Declares (vis : Visible) (scope : Scope) (x : Framed Ending) (r : Run Flow) : Prop where
  outcome (s : Session) : x (scope, s) = outcome scope (r s)
  next {s s' : Session} {scope' : Scope} (h : r s = .ok (.next scope') s') :
    ∃ groups : Scope, scope' = groups ++ scope ∧ groups.visible = vis

/-- The scope is handed on with the given names visible, and other outcomes leave any scope. -/
structure Reaches (vis : Visible) (scope : Scope) (x : Framed Ending) (r : Run Flow) : Prop where
  outcome (s : Session) : ∃ left, x (scope, s) = outcome left (r s)
  next {s s' : Session} {scope' : Scope} (h : r s = .ok (.next scope') s') :
    scope'.visible = vis

/-- The scope is the same after the run, whatever the outcome. -/
abbrev Restores (scope : Scope) : Framed Ending → Run Flow → Prop := Declares [] scope

section Statements

variable {vis : Visible} {x : Framed Ending} {r : Run Flow}

/-- After a result that an expression has, a statement goes on. -/
theorem Declares.bind_result {y : Framed α} {q : Run α} {f : α → Framed Ending}
    {g : α → Run Flow} (hy : Agrees scope y q)
    (hf : ∀ a s s', q s = .ok a s' → Declares vis scope (f a) (g a)) :
    Declares vis scope (y >>= f) (q >>= g) where
  outcome s := by
    cases hq : q s with
    | ok a s' =>
        rw [bind_of_ok (hy.of_ok hq), bind_of_ok hq]
        exact (hf a s s' hq).outcome s'
    | error e s' =>
        rw [bind_of_error (hy.of_error hq), bind_of_error hq]
        rfl
  next h := by
    obtain ⟨a, s₁, hq, h⟩ := Run.exists_of_bind_ok h
    exact (hf a _ s₁ hq).next h

theorem Declares.bind {y : Framed α} {q : Run α} {f : α → Framed Ending} {g : α → Run Flow}
    (hy : Agrees scope y q) (hf : ∀ a, Declares vis scope (f a) (g a)) :
    Declares vis scope (y >>= f) (q >>= g) :=
  .bind_result hy fun a _ _ _ ↦ hf a

/-- The declared names become visible. -/
theorem Declares.visible_next (h : Declares vis scope x r) {s s' : Session} {scope' : Scope}
    (hr : r s = .ok (.next scope') s') : scope'.visible = vis ++ scope.visible := by
  obtain ⟨groups, rfl, rfl⟩ := h.next hr
  exact List.map_append

theorem Declares.reaches (h : Declares vis scope x r) :
    Reaches (vis ++ scope.visible) scope x r where
  outcome s := ⟨scope, h.outcome s⟩
  next hr := h.visible_next hr

/-- Something is done first if a condition holds. -/
theorem Declares.whenFirst {c : Prop} [Decidable c] {y : Framed Unit} {q : Run Unit}
    {f : Unit → Framed Ending} {g : Unit → Run Flow} (hy : Agrees scope y q)
    (hf : ∀ u, Declares vis scope (f u) (g u)) :
    Declares vis scope (if c then y >>= f else f ()) (if c then q >>= g else g ()) := by
  split
  · exact .bind hy hf
  · exact hf ()

theorem Declares.throw (e : Abort) : Declares vis scope (throw e) (throw e) where
  outcome _ := rfl
  next h := nomatch h

theorem Declares.leaveLoop : Declares vis scope (pure .leaveLoop) (pure .leaveLoop) where
  outcome _ := rfl
  next h := nomatch h

theorem Declares.leaveFunction (values : List Value) :
    Declares vis scope (pure (.leaveFunction values)) (pure (.leaveFunction values)) where
  outcome _ := rfl
  next h := nomatch h

theorem Restores.next : Restores scope (pure .normal) (pure (.next scope)) where
  outcome _ := rfl
  next {s _ _} h := by
    change EStateM.Result.ok (Flow.next scope) s = _ at h
    cases h
    exact ⟨[], rfl, rfl⟩

theorem restores_flow (ending : Ending) :
    Restores scope (pure ending) (pure (ending.flow scope)) := by
  cases ending with
  | normal => exact Restores.next
  | leaveLoop => exact .leaveLoop
  | leaveFunction values => exact .leaveFunction values

theorem Restores.eq (h : Restores scope x r) {s s' : Session} {scope' : Scope}
    (hr : r s = .ok (.next scope') s') : scope' = scope := by
  obtain ⟨groups, rfl, hgroups⟩ := Declares.next h hr
  rw [List.map_eq_nil_iff.1 hgroups, List.nil_append]

theorem ending_of_ok {s s' : Session} {flow : Flow} (h : r s = .ok flow s') :
    (Flow.ending <$> r) s = .ok flow.ending s' := by
  rw [← bind_pure_comp]
  exact bind_of_ok h

theorem ending_of_error {s s' : Session} {e : Abort} (h : r s = .error e s') :
    (Flow.ending <$> r) s = .error e s' := by
  rw [← bind_pure_comp]
  exact bind_of_error h

/-- The outcomes of flows in a frame whose scope is the same after the run. -/
theorem Restores.agrees (h : Restores scope x r) : Agrees scope x (Flow.ending <$> r) where
  eq s := by
    rw [Declares.outcome h s]
    cases hr : r s with
    | ok flow s' =>
        rw [lift_of_ok (ending_of_ok hr)]
        cases flow with
        | next scope' => rw [h.eq hr]; rfl
        | leaveLoop | leaveFunction => rfl
    | error e s' =>
        rw [lift_of_error (ending_of_error hr)]
        rfl

/-- After the turn of a loop comes the next one, unless the turn leaves the loop or the function. -/
theorem Restores.turn {again : Framed Ending} {again' : Run Flow}
    (hx : Agrees scope x (Flow.ending <$> r)) (hagain : Restores scope again again') :
    Restores scope
      (x >>= fun
        | .normal => again
        | .leaveLoop => pure .normal
        | ending => pure ending)
      (r >>= fun
        | .next _ => again'
        | .leaveLoop => pure (.next scope)
        | flow => pure flow) where
  outcome s := by
    cases hr : r s with
    | ok flow s' =>
        rw [bind_of_ok (hx.of_ok (ending_of_ok hr)), bind_of_ok hr]
        cases flow with
        | next _ => exact hagain.outcome s'
        | leaveLoop | leaveFunction => rfl
    | error e s' =>
        rw [bind_of_error (hx.of_error (ending_of_error hr)), bind_of_error hr]
        rfl
  next h := by
    obtain ⟨flow, s₁, _, h⟩ := Run.exists_of_bind_ok h
    cases flow with
    | next _ => exact Declares.next hagain h
    | leaveLoop => exact Declares.next Restores.next h
    | leaveFunction values => exact nomatch h

/-- A group is declared by pushing it, where the rest of the statement comes to its end. -/
theorem Declares.push {g : Group} (hx : Restores (g :: scope) x r)
    (hr : ∀ s, ∃ s', r s = .ok (.next (g :: scope)) s') :
    Declares [g.names] scope (Framed.push g >>= fun _ ↦ x) r where
  outcome s := by
    obtain ⟨s', hs⟩ := hr s
    have hx := Declares.outcome hx s
    rw [hs] at hx ⊢
    exact hx
  next {s _ _} h := by
    obtain ⟨s', hs⟩ := hr s
    cases hs.symm.trans h
    exact ⟨[g], rfl, rfl⟩

/-- After a statement come others, where the names that it declares are visible as well. -/
theorem Declares.seq {vis' : Visible} {again : Framed Ending} {again' : Scope → Run Flow}
    (hx : Declares vis scope x r)
    (hagain : ∀ scope', scope'.visible = vis ++ scope.visible →
      Reaches vis' scope' again (again' scope')) :
    Reaches vis' scope
      (x >>= fun
        | .normal => again
        | ending => pure ending)
      (r >>= fun
        | .next scope => again' scope
        | flow => pure flow) where
  outcome s := by
    have hs := hx.outcome s
    cases hr : r s with
    | ok flow s' =>
        rw [hr] at hs
        rw [bind_of_ok hr]
        cases flow with
        | next scope' =>
            rw [bind_of_ok hs]
            exact (hagain scope' (hx.visible_next hr)).outcome s'
        | leaveLoop | leaveFunction => exact ⟨scope, bind_of_ok hs⟩
    | error e s' =>
        rw [hr] at hs
        rw [bind_of_error hr]
        exact ⟨scope, bind_of_error hs⟩
  next h := by
    obtain ⟨flow, s₁, hr, h⟩ := Run.exists_of_bind_ok h
    cases flow with
    | next scope' => exact (hagain scope' (hx.visible_next hr)).next h
    | leaveLoop => exact nomatch h
    | leaveFunction values => exact nomatch h

/-- A turn with variables of its own leaves the scope as it was. -/
theorem agrees_saving_push {g : Group} (hx : Restores (g :: scope) x r) :
    Agrees scope (saving (push g >>= fun _ ↦ x)) (Flow.ending <$> r) where
  eq s := by
    have hpush : (push g >>= fun _ ↦ x) (scope, s) = x (g :: scope, s) := bind_of_ok rfl
    rw [saving, hpush, hx.agrees.eq s]
    unfold lift
    cases (Flow.ending <$> r) s <;> rfl

/-- A new frame ends with what runs in it. -/
theorem within_eq (hx : Restores scope x r) : within scope x = Flow.ending <$> r := by
  funext s
  rw [within, hx.agrees.eq s]
  unfold lift
  cases (Flow.ending <$> r) s <;> rfl

/-- A block leaves the scope as it was, whatever its statements leave. -/
theorem Reaches.saving (hx : Reaches vis scope x r) :
    Restores scope (saving x)
      (r >>= fun
        | .next _ => pure (.next scope)
        | flow => pure flow) where
  outcome s := by
    obtain ⟨left, hleft⟩ := hx.outcome s
    rw [Framed.saving, hleft]
    cases hr : r s with
    | ok flow s' =>
        rw [bind_of_ok hr]
        cases flow <;> rfl
    | error e s' =>
        rw [bind_of_error hr]
        rfl
  next h := by
    obtain ⟨flow, s₁, _, h⟩ := Run.exists_of_bind_ok h
    cases flow with
    | next _ => exact Declares.next Restores.next h
    | leaveLoop => exact nomatch h
    | leaveFunction values => exact nomatch h

/-- What still runs in a block after its statements sees the names that they declare, if they come
to their end. -/
theorem Reaches.agrees_saving {f : Ending → Framed α} {g : Flow → Run α}
    (hx : Reaches vis scope x r)
    (hnext : ∀ inner : Scope, inner.visible = vis → Agrees inner (f .normal) (g (.next inner)))
    (hloop : ∀ left, Agrees left (f .leaveLoop) (g .leaveLoop))
    (hfunction : ∀ left values,
      Agrees left (f (.leaveFunction values)) (g (.leaveFunction values))) :
    Agrees scope (Framed.saving (x >>= f)) (r >>= g) where
  eq s := by
    obtain ⟨left, hleft⟩ := hx.outcome s
    cases hr : r s with
    | ok flow s' =>
        rw [hr] at hleft
        obtain ⟨inner, hinner, hf⟩ : ∃ inner, x (scope, s) = .ok flow.ending (inner, s') ∧
            Agrees inner (f flow.ending) (g flow) := by
          cases flow with
          | next inner => exact ⟨inner, hleft, hnext inner (hx.next hr)⟩
          | leaveLoop => exact ⟨left, hleft, hloop left⟩
          | leaveFunction values => exact ⟨left, hleft, hfunction left values⟩
        rw [Framed.saving, bind_of_ok hinner, hf.eq s']
        unfold lift
        rw [bind_of_ok hr]
        cases g flow s' <;> rfl
    | error e s' =>
        rw [hr] at hleft
        rw [Framed.saving, bind_of_error hleft, lift_of_error (bind_of_error hr)]

theorem Reaches.throw (e : Abort) : Reaches vis scope (throw e) (throw e) where
  outcome _ := ⟨scope, rfl⟩
  next h := nomatch h

/-- After a statement the frame holds the scope from before with the declared groups on top, or just
that scope. -/
theorem Declares.scopeAfter (h : Declares vis scope x r) (s : Session) :
    ∃ groups : Scope, scopeAfter x scope s = groups ++ scope ∧
      (groups.visible = vis ∨ groups = []) := by
  rw [Framed.scopeAfter, h.outcome s]
  cases hr : r s with
  | ok flow s' =>
      cases flow with
      | next scope' =>
          obtain ⟨groups, rfl, hgroups⟩ := h.next hr
          exact ⟨groups, rfl, .inl hgroups⟩
      | leaveLoop | leaveFunction => exact ⟨[], rfl, .inr rfl⟩
  | error e s' => exact ⟨[], rfl, .inr rfl⟩

/-- After a block the frame holds the scope from before. -/
theorem Restores.scopeAfter (h : Restores scope x r) (s : Session) :
    Framed.scopeAfter x scope s = scope := by
  obtain ⟨groups, hscope, hgroups | rfl⟩ := Declares.scopeAfter h s
  · rw [hscope, List.map_eq_nil_iff.1 hgroups, List.nil_append]
  · exact hscope

end Statements

end Framed

end LuaEmbed
