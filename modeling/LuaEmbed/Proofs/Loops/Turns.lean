import LuaEmbed.Proofs.Runs.Regular
import LuaEmbed.Proofs.Scoping.Homes

/-!
# Turns of loops

A loop is one turn after the other.  A turn starts from what the loop keeps for itself, a number or
the value that an iterator goes on from, and ends with what the next turn starts from, or with the
flow of the loop.  Each of the four loops is such a repetition, so that what they have in common is
said of turns: nothing is handed from one to the next but what the loop keeps, and the session.
-/

namespace LuaEmbed

/-- How a turn ends: with what the next one starts from, or with the flow of the loop. -/
inductive Turn (τ : Type) where
  | again (x : τ)
  | done (flow : Flow)

/-- How a turn ends with the flow of its block. -/
def Turn.after {τ : Type} (scope : Scope) (x : τ) : Flow → Turn τ
  | .next _ => .again x
  | .leaveLoop => .done (.next scope)
  | .leaveFunction values => .done (.leaveFunction values)

/-- The turns of a loop, with a bound for what they run. -/
abbrev Loop (τ : Type) := Nat → τ → Run (Turn τ)

namespace Loop

variable {τ : Type}

/-- What is done after a turn. -/
def goOn (rest : τ → Run Flow) : Turn τ → Run Flow
  | .again x => rest x
  | .done flow => return flow

/-- Turn after turn, at most as many as the bound says. -/
def run (turn : Loop τ) : Nat → τ → Run Flow
  | 0, _ => throw .outOfFuel
  | fuel + 1, x => turn fuel x >>= goOn (run turn fuel)

/-- After so many turns another one begins, with a bound, from what the loop kept, in a session. -/
inductive Begins (turn : Loop τ) (fuel : Nat) (x : τ) (s : Session) :
    (turns : Nat) → Nat → τ → Session → Prop where
  | first : Begins turn fuel x s 0 fuel x s
  | again {k bound : Nat} {y z : τ} {s₁ s₂ : Session} :
      Begins turn fuel x s k (bound + 1) y s₁ → turn bound y s₁ = .ok (.again z) s₂ →
      Begins turn fuel x s (k + 1) bound z s₂

namespace Begins

variable {turn : Loop τ} {fuel bound k : Nat} {x y : τ} {s s₁ : Session}

/-- The loop does what it does from any of its turns on. -/
theorem run_eq (h : Begins turn fuel x s k bound y s₁) :
    run turn fuel x s = run turn bound y s₁ := by
  induction h with
  | first => rfl
  | again _ hturn ih =>
      rw [ih]
      exact Run.bind_of_ok hturn

theorem add_eq (h : Begins turn fuel x s k bound y s₁) : k + bound = fuel := by
  induction h with
  | first => exact Nat.zero_add _
  | again _ _ ih => omega

/-- A turn begins in one way. -/
theorem unique {bound' : Nat} {y' : τ} {s₂ : Session} (h : Begins turn fuel x s k bound y s₁)
    (h' : Begins turn fuel x s k bound' y' s₂) : bound = bound' ∧ y = y' ∧ s₁ = s₂ := by
  induction h generalizing bound' y' s₂ with
  | first =>
      cases h'
      exact ⟨rfl, rfl, rfl⟩
  | again _ hturn ih =>
      cases h' with
      | again h' hturn' =>
          obtain ⟨hbound, rfl, rfl⟩ := ih h'
          cases hbound
          cases hturn.symm.trans hturn'
          exact ⟨rfl, rfl, rfl⟩

/-- Where no turn ends the loop, a turn is followed by another one. -/
theorem comparable {bound' j : Nat} {y' : τ} {s₂ : Session}
    (h : Begins turn fuel x s k bound y s₁) (h' : Begins turn fuel x s j bound' y' s₂)
    (hkj : k ≤ j) : Begins turn bound y s₁ (j - k) bound' y' s₂ := by
  induction h' with
  | first =>
      obtain rfl := Nat.le_zero.1 hkj
      cases h
      exact .first
  | @again j bound' y' z s₂ s₃ h' hturn ih =>
      rcases Nat.lt_or_ge j k with hlt | hge
      · obtain rfl : k = j + 1 := by omega
        obtain ⟨rfl, rfl, rfl⟩ := h.unique (h'.again hturn)
        rw [Nat.sub_self]
        exact .first
      · rw [Nat.sub_add_comm hge]
        exact (ih hge).again hturn

end Begins

end Loop

/-! ## The four loops -/

namespace Evaluator

open Evaluation

variable {γ : Type} (ev : Evaluator γ) (c : γ) (a : Activation) (scope : Scope)

/-- A turn of a loop that runs as long as a condition holds. -/
def whileTurn (condition : Expr) (block : Block) (_ : Unit) : Run (Turn Unit) := do
  if (← ev.eval c a scope condition).isTruthy then
    return .after scope () (← ev.runBlock c a scope block)
  else return .done (.next scope)

/-- A turn of a loop that runs until a condition holds, which sees the names of the block. -/
def repeatTurn (block : Block) (condition : Expr) (_ : Unit) : Run (Turn Unit) := do
  match ← ev.runStats c a scope block with
  | .next inner =>
    if (← ev.eval c a inner condition).isTruthy then return .done (.next scope)
    else return .again ()
  | flow => return .after scope () flow

/-- A turn of a counting loop: while the number is within the limit, the block runs with a new
variable that holds it. -/
def countTurn (var : String) (limit step : Float) (block : Block) (i : Float) :
    Run (Turn Float) := do
  if isWithin limit step i then
    let cell ← Heap.newCell (.number i)
    return .after scope (i + step) (← ev.runBlock c a ([(var, cell)] :: scope) block)
  else return .done (.next scope)

/-- A turn of a loop over an iterator: unless the first result of the iterator is `nil`, the block
runs with new variables that hold the results. -/
def iteratorTurn (names : List String) (iterator state : Value) (block : Block)
    (control : Value) : Run (Turn Value) := do
  checkCallable none iterator
  let results ← ev.call c iterator [state, control] none
  if (results.headD .nil).isNil then return .done (.next scope)
  let vars ← declare names results
  return .after scope (results.headD .nil) (← ev.runBlock c a (vars :: scope) block)

end Evaluator

/-! ### A level of evaluation makes one turn -/

section Level

open Evaluator

variable {γ : Type} (h : Hooks γ) (fuel : Nat) (ev : Evaluator γ) (c : γ) (a : Activation)
  (scope : Scope)

theorem next_runWhile (condition : Expr) (block : Block) :
    (h.next fuel ev).runWhile c a scope condition block =
      whileTurn ev c a scope condition block () >>= Loop.goOn fun _ ↦
        ev.runWhile c a scope condition block := by
  rw [whileTurn, bind_assoc]
  refine bind_congr fun v ↦ ?_
  split
  · rw [bind_assoc]
    refine bind_congr fun flow ↦ ?_
    cases flow <;> rfl
  · rfl

theorem next_runRepeat (block : Block) (condition : Expr) :
    (h.next fuel ev).runRepeat c a scope block condition =
      repeatTurn ev c a scope block condition () >>= Loop.goOn fun _ ↦
        ev.runRepeat c a scope block condition := by
  rw [repeatTurn, bind_assoc]
  refine bind_congr fun flow ↦ ?_
  cases flow with
  | next inner =>
      rw [bind_assoc]
      refine bind_congr fun v ↦ ?_
      split <;> rfl
  | leaveLoop | leaveFunction => rfl

theorem next_runCount (var : String) (i limit step : Float) (block : Block) :
    (h.next fuel ev).runCount c a scope var i limit step block =
      countTurn ev c a scope var limit step block i >>= Loop.goOn fun i ↦
        ev.runCount c a scope var i limit step block := by
  rw [countTurn]
  unfold Hooks.next
  dsimp only
  split
  · simp only [bind_assoc]
    refine bind_congr fun cell ↦ bind_congr fun flow ↦ ?_
    cases flow <;> rfl
  · rfl

theorem next_runIterator (hstray : ∀ {α : Type} (r : Run α), h.stray r = r) (names : List String)
    (iterator state control : Value) (block : Block) :
    (h.next fuel ev).runIterator c a scope names iterator state control block =
      iteratorTurn ev c a scope names iterator state block control >>= Loop.goOn fun control ↦
        ev.runIterator c a scope names iterator state control block := by
  rw [iteratorTurn]
  unfold Hooks.next
  simp only [bind_assoc, hstray, ite_self]
  refine bind_congr fun _ ↦ bind_congr fun results ↦ ?_
  split
  · rfl
  · simp only [bind_assoc]
    refine bind_congr fun vars ↦ bind_congr fun flow ↦ ?_
    cases flow <;> rfl

end Level

/-! ### Loops as they are evaluated -/

/-- Evaluation as it is, with a bound. -/
def Evaluation.evaluator (fuel : Nat) : Evaluator Unit where
  call _ := call fuel
  runBody _ := runBody fuel
  runBlock _ := runBlock fuel
  runStats _ := runStats fuel
  runStat _ := runStat fuel
  runWhile _ := runWhile fuel
  runRepeat _ := runRepeat fuel
  runClauses _ := runClauses fuel
  runCount _ := runCount fuel
  runIterator _ := runIterator fuel
  evalPlaces _ := evalPlaces fuel
  evalList _ := evalList fuel
  evalMulti _ := evalMulti fuel
  eval _ := eval fuel
  evalFields _ := evalFields fuel

theorem Hooked.evaluator_plain (fuel : Nat) :
    Hooked.evaluator .plain fuel = Evaluation.evaluator fuel := by
  have h := Hooked.unhooked fuel
  simp only [Hooked.evaluator, Evaluation.evaluator, ← h.call, ← h.runBody, ← h.runBlock,
    ← h.runStats, ← h.runStat, ← h.runWhile, ← h.runRepeat, ← h.runClauses, ← h.runCount,
    ← h.runIterator, ← h.evalPlaces, ← h.evalList, ← h.evalMulti, ← h.eval, ← h.evalFields]

namespace Evaluation

theorem evaluator_succ (fuel : Nat) :
    evaluator (fuel + 1) = Hooks.plain.next fuel (evaluator fuel) := by
  rw [← Hooked.evaluator_plain, Hooked.evaluator_succ, Hooked.evaluator_plain]

variable (a : Activation) (scope : Scope)

/-- The turns of a loop that runs as long as a condition holds. -/
def whileLoop (condition : Expr) (block : Block) : Loop Unit := fun fuel ↦
  (evaluator fuel).whileTurn () a scope condition block

/-- The turns of a loop that runs until a condition holds. -/
def repeatLoop (block : Block) (condition : Expr) : Loop Unit := fun fuel ↦
  (evaluator fuel).repeatTurn () a scope block condition

/-- The turns of a counting loop. -/
def countLoop (var : String) (limit step : Float) (block : Block) : Loop Float := fun fuel ↦
  (evaluator fuel).countTurn () a scope var limit step block

/-- The turns of a loop over an iterator. -/
def iteratorLoop (names : List String) (iterator state : Value) (block : Block) : Loop Value :=
  fun fuel ↦ (evaluator fuel).iteratorTurn () a scope names iterator state block

theorem runWhile_eq (fuel : Nat) (condition : Expr) (block : Block) :
    runWhile fuel a scope condition block =
      Loop.run (whileLoop a scope condition block) fuel () := by
  induction fuel with
  | zero => rfl
  | succ fuel ih =>
      change (evaluator (fuel + 1)).runWhile () a scope condition block = _
      rw [evaluator_succ, next_runWhile]
      exact bind_congr fun t ↦ congrArg (Loop.goOn · t) (funext fun _ ↦ ih)

theorem runRepeat_eq (fuel : Nat) (block : Block) (condition : Expr) :
    runRepeat fuel a scope block condition =
      Loop.run (repeatLoop a scope block condition) fuel () := by
  induction fuel with
  | zero => rfl
  | succ fuel ih =>
      change (evaluator (fuel + 1)).runRepeat () a scope block condition = _
      rw [evaluator_succ, next_runRepeat]
      exact bind_congr fun t ↦ congrArg (Loop.goOn · t) (funext fun _ ↦ ih)

theorem runIterator_eq (fuel : Nat) (names : List String) (iterator state control : Value)
    (block : Block) :
    runIterator fuel a scope names iterator state control block =
      Loop.run (iteratorLoop a scope names iterator state block) fuel control := by
  induction fuel generalizing control with
  | zero => rfl
  | succ fuel ih =>
      change (evaluator (fuel + 1)).runIterator () a scope names iterator state control block = _
      rw [evaluator_succ, next_runIterator _ _ _ _ _ _ fun _ ↦ rfl]
      exact bind_congr fun t ↦ congrArg (Loop.goOn · t) (funext fun control ↦ ih control)

/-! ### Loops as statements -/

/-- The values that a loop is over are evaluated once, before its turns. -/
theorem runStat_genericFor (fuel line : Nat) (names : List String) (values : List Expr)
    (block : Block) :
    runStat (fuel + 1) a scope (.genericFor line names values block) = (do
      if 0 < line then goToLine line
      let vs ← evalList fuel a scope values
      Loop.run (iteratorLoop a scope names (vs.headD .nil) (vs.tail.headD .nil) block) fuel
        (vs.tail.tail.headD .nil)) := by
  simp only [← runIterator_eq]
  rfl

/-! ### New variables in each turn -/

section Variables

variable (fuel : Nat)

/-- The block of a turn is run with the variables of the turn. -/
def blockTurn {τ : Type} (vars : Group) (block : Block) (x : τ) : Run (Turn τ) := do
  return .after scope x (← runBlock fuel a (vars :: scope) block)

/-- Unless the first result of the iterator is `nil`, a turn runs the block with new variables. -/
theorem iteratorLoop_eq (names : List String) (iterator state : Value) (block : Block)
    (control : Value) :
    iteratorLoop a scope names iterator state block fuel control = (do
      checkCallable none iterator
      let results ← call fuel iterator [state, control] none
      fun s ↦
        if (results.headD .nil).isNil then .ok (.done (.next scope)) s
        else
          blockTurn a scope fuel (names.zip (List.range' s.machine.cells.size names.length)) block
            (results.headD .nil) (s.withCells (results.takeD names.length .nil))) := by
  refine bind_congr fun _ ↦ bind_congr fun results ↦ funext fun s ↦ ?_
  split
  · rfl
  · exact Run.bind_of_ok (declare_eq names results s)

end Variables

/-! ### Turns are regular -/

/-- What evaluation consists of is regular. -/
theorem evaluator_regular (fuel : Nat) :
    Run.Logic.Related (fun _ : Unit ↦ Run.Regular.logic) id id (evaluator fuel)
      (evaluator fuel) := by
  rw [← Hooked.evaluator_plain]
  exact Run.Logic.related Run.Regular.plain_agree (fun _ ↦ trivial) fuel

section Regular

open Run (Regular)

variable (fuel : Nat) {block : Block}

theorem regular_runBlock (block : Block) : Regular true (runBlock fuel a scope block) :=
  ((evaluator_regular fuel).runBlock () (v := true) (l := true) a scope False.elim).1

theorem regular_eval (e : Expr) : Regular true (eval fuel a scope e) :=
  ((evaluator_regular fuel).eval () (v := true) a scope False.elim).1

theorem iteratorLoop_regular (names : List String) (iterator state : Value) (block : Block)
    (control : Value) :
    Regular true (iteratorLoop a scope names iterator state block fuel control) := by
  refine Regular.bind (Run.Logic.Agree.checkCallable (L := Regular.logic) ..).1 fun _ ↦ ?_
  refine (Regular.programCall fuel ..).bind fun results ↦ ?_
  split
  · exact .pure _
  · refine Regular.bind (Run.Logic.Agree.declare (L := Regular.logic) ..).1 fun vars ↦ ?_
    exact (regular_runBlock a _ fuel block).bind fun _ ↦ .pure _

end Regular

end Evaluation

end LuaEmbed
