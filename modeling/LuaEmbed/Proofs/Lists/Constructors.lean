import LuaEmbed.Proofs.Confinement.Evaluation
import LuaEmbed.Proofs.Lists.Order
import LuaEmbed.Proofs.Numbers.Overflow

/-!
# Table constructors

A constructor fills a table that nothing refers to yet, and does so field by field.  What its
expressions do is therefore no different from what they do in a list that is evaluated first and
stored then.
-/

namespace LuaEmbed

open Refers (avoids)

variable {r : Ref} {s s' : Session} {t : Table}

namespace Session

theorem put_tableAt (s : Session) (r : Ref) : s.put r (s.tableAt r) = s := by
  have htables : s.machine.tables.setIfInBounds r (s.tableAt r) = s.machine.tables := by
    refine Array.ext_getElem? fun q ↦ ?_
    rw [Array.getElem?_setIfInBounds, tableAt]
    split
    · next h =>
      subst h
      split
      · next hlt => simp [hlt]
      · next hlt => simp [hlt]
    · rfl
  rw [put, htables]

theorem put_put (s : Session) (r : Ref) (t t' : Table) : (s.put r t).put r t' = s.put r t' := by
  simp [put]

theorem tableAt_put (hs : s.Hides r) (t : Table) : (s.put r t).tableAt r = t := by
  have hlt := hs.lt
  simp [put, tableAt, hlt]

theorem Hides.put (hs : s.Hides r) (t : Table) : (s.put r t).Hides r :=
  { hs with
    lt := Nat.lt_of_lt_of_eq hs.lt Array.size_setIfInBounds.symm
    tables := fun hq ht ↦ hs.tables hq ((s.getElem?_put hq t).symm.trans ht) }

/-- Nothing refers to the table that is created next.  References are places in the heap, so this is
to say that there are none but to tables that have been created. -/
def Fresh (s : Session) : Prop := (Heap.newTable.after s).Hides s.machine.tables.size

end Session

theorem Heap.newTable_eq (s : Session) :
    Heap.newTable s = .ok s.machine.tables.size (Heap.newTable.after s) := rfl

theorem Heap.modifyTable_eq (r : Ref) (f : Table → Table) (s : Session) :
    Heap.modifyTable r f s = .ok () (s.put r (f (s.tableAt r))) := by
  have htables : s.machine.tables.modify r f =
      s.machine.tables.setIfInBounds r (f (s.tableAt r)) := by
    refine Array.ext_getElem? fun q ↦ ?_
    rw [Array.getElem?_modify, Array.getElem?_setIfInBounds, Session.tableAt]
    split
    · next h =>
      subst h
      split
      · next hlt => simp [hlt]
      · next hlt => simp [hlt]
    · rfl
  exact congrArg (fun tables ↦ EStateM.Result.ok ()
    ({ s with machine := { s.machine with tables } } : Session)) htables

/-- A run that is confined leaves the table as it is. -/
theorem Run.ConfinedTo.tableAt_eq {α : Type} {x : Run α} {P : α → Prop} (hx : ConfinedTo r x P)
    (hs : s.Hides r) : (x.after s).tableAt r = s.tableAt r := by
  have hcongr := (hx.confinedAt s hs).put_eq (s.tableAt r)
  rw [s.put_tableAt] at hcongr
  have hhides := (hx.confinedAt s hs).hides
  rw [Run.after_eq] at hhides ⊢
  have hput (o : EStateM.Result Abort Session α) (t : Table) (h : o = Outcome.put r t o)
      (ho : (Outcome.session o).Hides r) : (Outcome.session o).tableAt r = t := by
    have hsession : Outcome.session (Outcome.put r t o) = (Outcome.session o).put r t := by
      cases o <;> rfl
    rw [h, hsession, Session.tableAt_put ho]
  exact hput _ _ hcongr hhides

theorem tableAt_newTable (s : Session) :
    (Heap.newTable.after s).tableAt s.machine.tables.size = .empty := by
  change ((s.machine.tables.push .empty)[s.machine.tables.size]?).getD .empty = .empty
  rw [Array.getElem?_push_size]
  rfl

namespace Evaluation

variable {a : Activation} (ha : avoids r a.varargs) (scope : Scope)

include ha

/-- A constructor with expressions only gives a table the values that they have in a list. -/
theorem evalFields_positional {fuel : ℕ} {es : List Expr} {vs : List Value} (i : ℕ)
    (hs : s.Hides r) (h : evalList fuel a scope es s = .ok vs s') :
    evalFields fuel a scope r i (es.map .positional) s =
      .ok () (s'.put r ((s.tableAt r).setFrom i vs)) := by
  induction fuel generalizing es i s s' vs with
  | zero => exact nomatch h
  | succ fuel ih =>
      have heval := Run.Confined.evaluates r fuel
      match es with
      | [] =>
          cases h
          exact congrArg (EStateM.Result.ok ()) (s.put_tableAt r).symm
      | [e] =>
          have h : evalMulti fuel a scope e s = .ok vs s' := h
          have htable := (heval.evalMulti scope e ha).tableAt_eq hs
          rw [Run.after_of_ok h] at htable
          refine (Run.bind_of_ok h).trans ((Heap.modifyTable_eq ..).trans ?_)
          rw [htable]
      | e :: e' :: es =>
          obtain ⟨v, s₁, hv, h⟩ := Run.exists_of_bind_ok h
          obtain ⟨ws, s₂, hws, h⟩ := Run.exists_of_bind_ok h
          cases h
          have hconfined := (heval.eval scope e ha).confinedAt s hs
          have hs₁ := hconfined.hides
          have htable := (heval.eval scope e ha).tableAt_eq hs
          rw [Run.after_of_ok hv] at hs₁ htable
          obtain ⟨t, ht⟩ : ∃ t, t = (s.tableAt r).setInt i v := ⟨_, rfl⟩
          -- The rest of the list has the same values with the table filled so far.
          have hrest : evalList fuel a scope (e' :: es) (s₁.put r t) = .ok ws (s'.put r t) := by
            rw [((heval.evalList scope (e' :: es) ha).confinedAt s₁ hs₁).put_eq t, hws]
            rfl
          have hset : Heap.setInt r i v s₁ = .ok () (s₁.put r t) := by
            rw [ht, ← htable]
            exact Heap.modifyTable_eq r (·.setInt i v) s₁
          refine (Run.bind_of_ok hv).trans ((Run.bind_of_ok hset).trans ?_)
          refine (ih (i + 1) (hs₁.put t) hrest).trans ?_
          rw [Session.put_put, Session.tableAt_put hs₁, ht]
          rfl

omit ha in
/-- The value of a constructor is a new table.  If nothing refers to that table before, it is given
the values that the expressions have as a list. -/
theorem eval_table {fuel : ℕ} {es : List Expr} {vs : List Value} (hs : s.Fresh)
    (ha : avoids s.machine.tables.size a.varargs)
    (h : evalList fuel a scope es (Heap.newTable.after s) = .ok vs s') :
    eval (fuel + 1) a scope (.table (es.map .positional)) s =
      .ok (.table s.machine.tables.size)
        (s'.put s.machine.tables.size (Table.empty.setFrom 1 vs)) := by
  have hfields := evalFields_positional ha scope 1 hs h
  rw [tableAt_newTable] at hfields
  exact (Run.bind_of_ok (Heap.newTable_eq s)).trans (Run.bind_of_ok hfields)

end Evaluation

end LuaEmbed
