import LuaEmbed.Evaluation
import LuaEmbed.Proofs.Runs.After
import Mathlib.Data.List.TakeDrop

/-!
# Lists of expressions are evaluated in order

A list of expressions is evaluated step by step, with one step for each expression, and so are the
objects and keys of the targets of an assignment.  What is run is one step after the other, each of
them once, until one of them fails.
-/

namespace LuaEmbed

namespace Run

variable {α : Type}

/-- One run after the other, with the results of all. -/
def inOrder : List (Run α) → Run (List α)
  | [] => return []
  | r :: rs => do return (← r) :: (← inOrder rs)

theorem inOrder_append (rs rs' : List (Run α)) :
    inOrder (rs ++ rs') = (do return (← inOrder rs) ++ (← inOrder rs')) := by
  induction rs with
  | nil =>
      rw [List.nil_append, inOrder, pure_bind]
      exact (bind_pure _).symm
  | cons r rs ih => simp [inOrder, ih]

/-- There is a result for each of the runs. -/
theorem length_inOrder {rs : List (Run α)} {xs : List α} {s s' : Session}
    (h : inOrder rs s = .ok xs s') : xs.length = rs.length := by
  induction rs generalizing xs s with
  | nil =>
      cases h
      rfl
  | cons r rs ih =>
      obtain ⟨x, s₁, -, h⟩ := exists_of_bind_ok h
      obtain ⟨xs, s₂, hrest, h⟩ := exists_of_bind_ok h
      cases h
      exact congrArg (· + 1) (ih hrest)

end Run

namespace Report

variable {α β : Type} (p : Problem)

/-- What would be done after a report is not done. -/
theorem here_bind (f : α → Run β) : here p >>= f = here p := rfl

theorem map_here (f : α → β) : f <$> (here p : Run α) = here p := rfl

end Report

namespace Evaluation

variable (a : Activation) (scope : Scope)

/-! ## Values -/

/-- The steps in which a list of expressions is evaluated.  Only the last one may have any number of
values. -/
def valueSteps : Nat → List Expr → List (Run (List Value))
  | 0, _ => [throw .outOfFuel]
  | _ + 1, [] => []
  | fuel + 1, [e] => [evalMulti fuel a scope e]
  | fuel + 1, e :: e' :: es => (do return [← eval fuel a scope e]) :: valueSteps fuel (e' :: es)

theorem evalList_eq (fuel : Nat) (es : List Expr) :
    evalList fuel a scope es = List.flatten <$> Run.inOrder (valueSteps a scope fuel es) := by
  induction fuel generalizing es with
  | zero => rfl
  | succ fuel ih =>
      match es with
      | [] => rfl
      | [e] => simp [evalList, valueSteps, Run.inOrder]
      | e :: e' :: es => simp [evalList, valueSteps, Run.inOrder, ih]

theorem evalMulti_of_single {e : Expr} (he : e.isMulti = false) (fuel : Nat) :
    evalMulti (fuel + 1) a scope e = (do return [← eval fuel a scope e]) := by
  cases e with
  | call | method | vararg => exact nomatch he
  | _ => rfl

/-- The steps in which expressions that have one value each are evaluated. -/
def singleSteps : Nat → List Expr → List (Run Value)
  | _ + 1, [] => []
  | fuel + 2, [e] => [eval fuel a scope e]
  | fuel + 1, e :: e' :: es => eval fuel a scope e :: singleSteps fuel (e' :: es)
  | _, _ => [throw .outOfFuel]

theorem evalList_of_single {es : List Expr} (hes : ∀ e ∈ es, e.isMulti = false) (fuel : Nat) :
    evalList fuel a scope es = Run.inOrder (singleSteps a scope fuel es) := by
  induction fuel generalizing es with
  | zero => cases es <;> rfl
  | succ fuel ih =>
      match es with
      | [] => rfl
      | [e] =>
          cases fuel with
          | zero => rfl
          | succ fuel => exact evalMulti_of_single a scope (hes e List.mem_cons_self) fuel
      | e :: e' :: es =>
          have hrest := ih (List.forall_mem_cons.1 hes).2
          simp [evalList, singleSteps, Run.inOrder, hrest]

/-! ## Targets -/

/-- The steps in which the object and the key of a target are evaluated. -/
def operandSteps (fuel : Nat) : Expr → List (Run Value)
  | .name _ => []
  | .index _ object key => [eval fuel a scope object, eval fuel a scope key]
  | _ => [Report.here .notATarget]

/-- The steps in which the targets of an assignment are evaluated. -/
def targetSteps : Nat → List Expr → List (Run Value)
  | 0, _ => [throw .outOfFuel]
  | _ + 1, [] => []
  | fuel + 1, target :: targets =>
    operandSteps a scope fuel target ++ targetSteps fuel targets

/-- The places of targets, with the values of their objects and keys. -/
def placesOf : List Expr → List Value → List Place
  | .name x :: targets, vs => placeOfName scope x :: placesOf targets vs
  | .index _ object _ :: targets, o :: k :: vs =>
    .field o k (describe scope object) :: placesOf targets vs
  | _, _ => []

theorem evalPlaces_eq (fuel : Nat) (targets : List Expr) :
    evalPlaces fuel a scope targets =
      placesOf scope targets <$> Run.inOrder (targetSteps a scope fuel targets) := by
  induction fuel generalizing targets with
  | zero => rfl
  | succ fuel ih =>
      match targets with
      | [] => rfl
      | target :: targets =>
        cases target with
        | name x => simp [evalPlaces, targetSteps, operandSteps, placesOf, ih]
        | index line object key =>
            simp [evalPlaces, targetSteps, operandSteps, placesOf, Run.inOrder, ih]
        | _ =>
            simp [evalPlaces, targetSteps, operandSteps, Run.inOrder, Report.here_bind,
              Report.map_here]

end Evaluation

end LuaEmbed
