import LuaEmbed.Proofs.Runs.Frames
import LuaEmbed.Proofs.Scoping.Agreement

/-!
# Names are resolved lexically

Everything that runs with some fuel does the same in frames, where names are found by the places of
their visible declarations.  The induction is on the fuel.
-/

namespace LuaEmbed

namespace Framed

open Evaluation (declare goToLine)

variable {scope : Scope} {abort : Abort} {caller : Caller}

/-! ## Names -/

theorem agrees_scope : Agrees scope (Framed.scope abort scope.visible) (pure scope) :=
  ⟨fun _ ↦ if_pos rfl⟩

theorem agrees_cellOf (name : String) :
    Agrees scope (cellOf abort scope.visible name) (pure (scope.cell? name)) := by
  rw [Scope.cell?_eq]
  exact agrees_scope.bind fun _ ↦ .pure _

theorem agrees_getName (name : String) :
    Agrees scope (getName abort caller scope.visible name)
      (Evaluation.getName caller scope name) := by
  have h : Evaluation.getName caller scope name = pure (scope.cell? name) >>= fun cell? ↦
      cell?.elim (do Operation.index caller (.table (← Run.machine Machine.globals)) (.string name))
        Heap.readCell := by
    rw [pure_bind]
    unfold Evaluation.getName
    cases scope.cell? name <;> rfl
  rw [h]
  refine (agrees_cellOf name).bind fun cell? ↦ ?_
  cases cell? <;> exact .lift _

theorem agrees_placeOfName (name : String) :
    Agrees scope (placeOfName abort scope.visible name)
      (pure (Evaluation.placeOfName scope name)) := by
  have h : (pure (Evaluation.placeOfName scope name) : Run Place) =
      pure (scope.cell? name) >>= fun cell? ↦
        cell?.elim (pure (.global name)) (pure ∘ .variable_) := by
    rw [pure_bind]
    unfold Evaluation.placeOfName
    cases scope.cell? name <;> rfl
  rw [h]
  refine (agrees_cellOf name).bind fun cell? ↦ ?_
  cases cell? <;> exact .pure _

theorem describeName_visible (scope : Scope) (name : String) :
    describeName scope.visible name = Evaluation.describeName scope name := by
  have h := scope.isSome_cell? name
  unfold describeName Evaluation.describeName
  cases hcell : scope.cell? name <;> cases hplace : scope.visible.resolve? name <;> simp_all

theorem describe_visible (scope : Scope) (e : Expr) :
    describe scope.visible e = Evaluation.describe scope e := by
  cases e with
  | name x => exact congrArg some (describeName_visible scope x)
  | index line object key => cases key <;> rfl
  | _ => rfl

theorem agrees_close (a : Activation) (body : Body) :
    Agrees scope (close abort scope.visible a body) (Evaluation.close a scope body) :=
  agrees_scope.bind fun _ ↦ .lift _

/-- A function gets the scope of the frame, if its names are those that are visible. -/
theorem close_cases (vis : Visible) (a : Activation) (body : Body) (scope : Scope) (s : Session) :
    close abort vis a body (scope, s) = .error abort (scope, s) ∨
      scope.visible = vis ∧ ∃ s',
        close abort vis a body (scope, s) = .ok (.function s.machine.functions.size) (scope, s') ∧
          s'.machine.functions = s.machine.functions.push (.script body a.chunk scope) := by
  by_cases hvis : scope.visible = vis
  · subst hvis
    exact .inr ⟨rfl, _, (agrees_close a body).eq s, rfl⟩
  · exact .inl (Run.bind_of_error (if_neg hvis))

theorem agrees_storeFunction (f : Value) (path : List String) :
    Agrees scope (storeFunction abort caller scope.visible f path)
      (Evaluation.storeFunction caller scope f path) := by
  unfold storeFunction Evaluation.storeFunction
  split
  · exact .pure _
  · exact (agrees_placeOfName _).bind fun place ↦ .lift _
  · rw [describeName_visible]
    exact (agrees_getName _).bind fun v ↦ .lift _

/-- Variables that are declared together have the names that they are declared under. -/
theorem names_declare {names : List String} {vs : List Value} {g : Group} {s s' : Session}
    (h : declare names vs s = .ok g s') : g.names = names := by
  induction names generalizing vs g s s' with
  | nil =>
      cases h
      rfl
  | cons x xs ih =>
      obtain ⟨cell, s₁, _, h⟩ := Run.exists_of_bind_ok h
      obtain ⟨rest, s₂, hrest, h⟩ := Run.exists_of_bind_ok h
      cases h
      exact congrArg (x :: ·) (ih hrest)

/-! ## Calls, statements and expressions -/

/-- Everything that runs with the given fuel does the same in frames. -/
structure Fueled (abort : Abort) (fuel : Nat) : Prop where
  call : Framed.call abort fuel = Evaluation.call fuel
  runBody (body : Body) (chunk : String) (scope : Scope) (args : List Value) :
    runBody abort fuel body chunk scope args = Evaluation.runBody fuel body chunk scope args
  runBlock (a : Activation) (scope : Scope) (block : Block) :
    Restores scope (runBlock abort fuel a scope.visible block)
      (Evaluation.runBlock fuel a scope block)
  runStats (a : Activation) (scope : Scope) (stats : List Stat) :
    Reaches (scope.visible.after stats) scope (runStats abort fuel a scope.visible stats)
      (Evaluation.runStats fuel a scope stats)
  runStat (a : Activation) (scope : Scope) (stat : Stat) :
    Declares stat.declares scope (runStat abort fuel a scope.visible stat)
      (Evaluation.runStat fuel a scope stat)
  runWhile (a : Activation) (scope : Scope) (condition : Expr) (block : Block) :
    Restores scope (runWhile abort fuel a scope.visible condition block)
      (Evaluation.runWhile fuel a scope condition block)
  runRepeat (a : Activation) (scope : Scope) (block : Block) (condition : Expr) :
    Restores scope (runRepeat abort fuel a scope.visible block condition)
      (Evaluation.runRepeat fuel a scope block condition)
  runClauses (a : Activation) (scope : Scope) (clauses : List Clause) (otherwise : Option Block) :
    Restores scope (runClauses abort fuel a scope.visible clauses otherwise)
      (Evaluation.runClauses fuel a scope clauses otherwise)
  runCount (a : Activation) (scope : Scope) (var : String) (i limit step : Float) (block : Block) :
    Restores scope (runCount abort fuel a scope.visible var i limit step block)
      (Evaluation.runCount fuel a scope var i limit step block)
  runIterator (a : Activation) (scope : Scope) (names : List String)
    (iterator state control : Value) (block : Block) :
    Restores scope (runIterator abort fuel a scope.visible names iterator state control block)
      (Evaluation.runIterator fuel a scope names iterator state control block)
  evalPlaces (a : Activation) (scope : Scope) (targets : List Expr) :
    Agrees scope (evalPlaces abort fuel a scope.visible targets)
      (Evaluation.evalPlaces fuel a scope targets)
  evalList (a : Activation) (scope : Scope) (es : List Expr) :
    Agrees scope (evalList abort fuel a scope.visible es) (Evaluation.evalList fuel a scope es)
  evalMulti (a : Activation) (scope : Scope) (e : Expr) :
    Agrees scope (evalMulti abort fuel a scope.visible e) (Evaluation.evalMulti fuel a scope e)
  eval (a : Activation) (scope : Scope) (e : Expr) :
    Agrees scope (eval abort fuel a scope.visible e) (Evaluation.eval fuel a scope e)
  evalFields (a : Activation) (scope : Scope) (t : Ref) (i : Nat) (fields : List Field) :
    Agrees scope (evalFields abort fuel a scope.visible t i fields)
      (Evaluation.evalFields fuel a scope t i fields)

/-- A turn of a loop that runs until a condition holds: how the loop ends with it, if it does. -/
def repeatTurn (fuel : Nat) (a : Activation) (scope : Scope) (block : Block) (condition : Expr) :
    Run (Option Ending) := do
  match ← Evaluation.runStats fuel a scope block with
  | .next inner =>
    if (← Evaluation.eval fuel a inner condition).isTruthy then return some .normal
    else return none
  | .leaveLoop => return some .normal
  | .leaveFunction values => return some (.leaveFunction values)

theorem runRepeat_eq_turn (fuel : Nat) (a : Activation) (block : Block) (condition : Expr) :
    Evaluation.runRepeat (fuel + 1) a scope block condition =
      repeatTurn fuel a scope block condition >>= fun
        | some ending => pure (ending.flow scope)
        | none => Evaluation.runRepeat fuel a scope block condition := by
  rw [repeatTurn, bind_assoc]
  refine bind_congr fun flow ↦ ?_
  cases flow with
  | next inner =>
      rw [bind_assoc]
      refine bind_congr fun v ↦ ?_
      split <;> rfl
  | leaveLoop | leaveFunction => rfl

namespace Fueled

variable {fuel : Nat} (h : Fueled abort fuel) (a : Activation)

include h

theorem call_succ : Framed.call abort (fuel + 1) = Evaluation.call (fuel + 1) := by
  have hbody : Framed.runBody abort fuel = Evaluation.runBody fuel := by
    funext body chunk scope args
    exact h.runBody ..
  funext f args name
  unfold Framed.call
  rw [h.call, hbody]
  rfl

theorem runBody_succ (body : Body) (chunk : String) (scope : Scope) (args : List Value) :
    Framed.runBody abort (fuel + 1) body chunk scope args =
      Evaluation.runBody (fuel + 1) body chunk scope args := by
  refine Run.bind_congr_of_ok fun params s s' hparams ↦ ?_
  dsimp only
  -- The new frame starts with the parameters on the scope of the function, whose names are visible.
  have hblock := within_eq (h.runBlock ⟨chunk, if body.isVararg then args.drop body.params.length
    else []⟩ (params :: scope) body.block)
  rw [Scope.visible_cons, names_declare hparams] at hblock
  rw [hblock, bind_map_left]
  refine bind_congr fun flow ↦ ?_
  cases flow <;> rfl

theorem runBlock_succ (block : Block) :
    Restores scope (Framed.runBlock abort (fuel + 1) a scope.visible block)
      (Evaluation.runBlock (fuel + 1) a scope block) :=
  (h.runStats ..).saving

theorem runStats_succ (stats : List Stat) :
    Reaches (scope.visible.after stats) scope
      (Framed.runStats abort (fuel + 1) a scope.visible stats)
      (Evaluation.runStats (fuel + 1) a scope stats) := by
  cases stats with
  | nil => exact Declares.reaches Restores.next
  | cons stat rest =>
      refine (h.runStat a scope stat).seq fun scope' hscope ↦ ?_
      rw [Visible.after, ← hscope]
      exact h.runStats a scope' rest

theorem runWhile_succ (condition : Expr) (block : Block) :
    Restores scope (Framed.runWhile abort (fuel + 1) a scope.visible condition block)
      (Evaluation.runWhile (fuel + 1) a scope condition block) := by
  refine Declares.bind (h.eval ..) fun v ↦ ?_
  split
  · exact Restores.turn (h.runBlock ..).agrees (h.runWhile ..)
  · exact Restores.next

theorem agrees_repeatTurn (block : Block) (condition : Expr) :
    Agrees scope
      (saving do
        match ← Framed.runStats abort fuel a scope.visible block with
        | .normal =>
          if (← Framed.eval abort fuel a (scope.visible.after block) condition).isTruthy then
            return some .normal
          else return none
        | .leaveLoop => return some .normal
        | ending => return some ending)
      (repeatTurn fuel a scope block condition) := by
  refine (h.runStats a scope block).agrees_saving (fun inner hinner ↦ ?_) (fun _ ↦ .pure _)
    fun _ _ ↦ .pure _
  rw [← hinner]
  refine (h.eval a inner condition).bind fun v ↦ ?_
  split <;> exact .pure _

theorem runRepeat_succ (block : Block) (condition : Expr) :
    Restores scope (Framed.runRepeat abort (fuel + 1) a scope.visible block condition)
      (Evaluation.runRepeat (fuel + 1) a scope block condition) := by
  rw [runRepeat_eq_turn]
  refine Declares.bind (h.agrees_repeatTurn a block condition) fun ended? ↦ ?_
  cases ended? with
  | none => exact h.runRepeat ..
  | some ending => exact restores_flow ending

theorem runClauses_succ (clauses : List Clause) (otherwise : Option Block) :
    Restores scope (Framed.runClauses abort (fuel + 1) a scope.visible clauses otherwise)
      (Evaluation.runClauses (fuel + 1) a scope clauses otherwise) := by
  unfold Framed.runClauses Evaluation.runClauses
  split
  · split
    · exact h.runBlock ..
    · exact Restores.next
  · refine Declares.bind (h.eval ..) fun v ↦ ?_
    split
    · exact h.runBlock ..
    · exact h.runClauses ..

theorem runCount_succ (var : String) (i limit step : Float) (block : Block) :
    Restores scope (Framed.runCount abort (fuel + 1) a scope.visible var i limit step block)
      (Evaluation.runCount (fuel + 1) a scope var i limit step block) := by
  unfold Framed.runCount Evaluation.runCount
  split
  · refine Declares.bind (.lift _) fun cell ↦ ?_
    have hblock := h.runBlock a ([(var, cell)] :: scope) block
    exact Restores.turn (agrees_saving_push hblock) (h.runCount ..)
  · exact Restores.next

theorem runIterator_succ (names : List String) (iterator state control : Value) (block : Block) :
    Restores scope
      (Framed.runIterator abort (fuel + 1) a scope.visible names iterator state control block)
      (Evaluation.runIterator (fuel + 1) a scope names iterator state control block) := by
  unfold Framed.runIterator Evaluation.runIterator
  rw [h.call]
  refine Declares.bind (.lift _) fun _ ↦ Declares.bind (.lift _) fun results ↦ ?_
  dsimp only
  split
  · exact Restores.next
  · refine Declares.bind_result (.lift _) fun vars s s' hvars ↦ ?_
    have hblock := h.runBlock a (vars :: scope) block
    rw [Scope.visible_cons, names_declare hvars] at hblock
    exact Restores.turn (agrees_saving_push hblock) (h.runIterator ..)

theorem runStat_succ (stat : Stat) :
    Declares stat.declares scope (Framed.runStat abort (fuel + 1) a scope.visible stat)
      (Evaluation.runStat (fuel + 1) a scope stat) := by
  unfold Framed.runStat Evaluation.runStat
  refine .whenFirst (.lift _) fun _ ↦ ?_
  rw [h.call]
  cases stat with
  | local_ line names values =>
      refine .bind (h.evalList ..) fun vs ↦ .bind_result (.lift _) fun g s s' hg ↦ ?_
      obtain rfl := names_declare hg
      exact .push .next fun s ↦ ⟨s, rfl⟩
  | localFunction line name body =>
      refine .bind (.lift _) fun cell ↦ ?_
      -- The variable is visible in its own function, and nothing after its declaration can fail.
      have hclose : Restores ([(name, cell)] :: scope)
          (Framed.close abort ([name] :: scope.visible) a body >>= fun f ↦
            lift (Heap.writeCell cell f) >>= fun _ ↦ pure .normal)
          (Evaluation.close a ([(name, cell)] :: scope) body >>= fun f ↦
            Heap.writeCell cell f >>= fun _ ↦ pure (.next ([(name, cell)] :: scope))) :=
        Declares.bind (agrees_close a body) fun f ↦
          Declares.bind (.lift (Heap.writeCell cell f)) fun _ ↦ Restores.next
      exact .push hclose fun s ↦ ⟨_, rfl⟩
  | assign line targets values =>
      refine .bind (h.evalPlaces ..) fun places ↦ .bind (h.evalList ..) fun vs ↦ ?_
      exact .bind (.lift _) fun _ ↦ Restores.next
  | call line e => exact .bind (h.evalMulti ..) fun _ ↦ Restores.next
  | do_ block => exact h.runBlock ..
  | while_ line condition block => exact h.runWhile ..
  | repeat_ line block condition => exact h.runRepeat ..
  | if_ line clauses otherwise => exact h.runClauses ..
  | numericFor line var start limit step block =>
      refine .bind (h.eval ..) fun v ↦ .bind (.lift _) fun i ↦ ?_
      refine .bind (h.eval ..) fun v ↦ .bind (.lift _) fun limit ↦ ?_
      cases step with
      | none => exact .bind (.pure _) fun step ↦ h.runCount ..
      | some e =>
          refine .bind (h.eval ..) fun v ↦ ?_
          exact .bind (.lift _) fun step ↦ h.runCount ..
  | genericFor line names values block => exact .bind (h.evalList ..) fun vs ↦ h.runIterator ..
  | function line path method body =>
      refine .bind (agrees_close a body) fun f ↦ ?_
      exact .bind (agrees_storeFunction f _) fun _ ↦ Restores.next
  | return_ line values => exact .bind (h.evalList ..) fun vs ↦ .leaveFunction vs
  | break_ line => exact .leaveLoop

theorem evalPlaces_succ (targets : List Expr) :
    Agrees scope (Framed.evalPlaces abort (fuel + 1) a scope.visible targets)
      (Evaluation.evalPlaces (fuel + 1) a scope targets) := by
  cases targets with
  | nil => exact .pure _
  | cons target rest =>
      have hrest (place : Place) : Agrees scope
          (do return place :: (← Framed.evalPlaces abort fuel a scope.visible rest))
          (do return place :: (← Evaluation.evalPlaces fuel a scope rest)) :=
        (h.evalPlaces ..).bind fun _ ↦ .pure _
      unfold Framed.evalPlaces Evaluation.evalPlaces
      cases target with
      | name x => exact (agrees_placeOfName x).bind fun place ↦ hrest place
      | index line object key =>
          dsimp only
          rw [describe_visible]
          refine (h.eval ..).bind fun o ↦ (h.eval ..).bind fun k ↦ ?_
          exact (Agrees.pure _).bind fun place ↦ hrest place
      | _ => exact (Agrees.lift _).bind fun place ↦ hrest place

theorem evalList_succ (es : List Expr) :
    Agrees scope (Framed.evalList abort (fuel + 1) a scope.visible es)
      (Evaluation.evalList (fuel + 1) a scope es) := by
  match es with
  | [] => exact .pure _
  | [e] => exact h.evalMulti ..
  | e :: _ :: _ => exact (h.eval ..).bind fun v ↦ (h.evalList ..).bind fun vs ↦ .pure _

theorem evalMulti_succ (e : Expr) :
    Agrees scope (Framed.evalMulti abort (fuel + 1) a scope.visible e)
      (Evaluation.evalMulti (fuel + 1) a scope e) := by
  unfold Framed.evalMulti Evaluation.evalMulti
  rw [h.call]
  cases e with
  | vararg => exact .pure _
  | call line callee args =>
      dsimp only
      rw [describe_visible]
      refine (h.eval ..).bind fun f ↦ (h.evalList ..).bind fun vs ↦ (Agrees.lift _).bind fun _ ↦ ?_
      exact (Agrees.lift _).bind fun _ ↦ .lift _
  | method line object name args =>
      dsimp only
      rw [describe_visible]
      refine (h.eval ..).bind fun o ↦ (Agrees.lift _).bind fun _ ↦ (Agrees.lift _).bind fun f ↦ ?_
      refine (h.evalList ..).bind fun vs ↦ (Agrees.lift _).bind fun _ ↦ ?_
      exact (Agrees.lift _).bind fun _ ↦ .lift _
  | _ => exact (h.eval ..).bind fun v ↦ .pure _

theorem eval_succ (e : Expr) :
    Agrees scope (Framed.eval abort (fuel + 1) a scope.visible e)
      (Evaluation.eval (fuel + 1) a scope e) := by
  unfold Framed.eval Evaluation.eval
  rw [h.call]
  cases e with
  | nil | true_ | false_ | number | string | vararg => exact .pure _
  | function body => exact agrees_close a body
  | name x => exact agrees_getName x
  | index line object key =>
      dsimp only
      rw [describe_visible]
      refine (h.eval ..).bind fun o ↦ (h.eval ..).bind fun k ↦ (Agrees.lift _).bind fun _ ↦ ?_
      exact .lift _
  | call | method => exact (h.evalMulti ..).bind fun vs ↦ .pure _
  | table fields =>
      exact (Agrees.lift _).bind fun t ↦ (h.evalFields ..).bind fun _ ↦ .pure _
  | binary line op left right =>
      refine (h.eval ..).bind fun l ↦ ?_
      cases op with
      | and =>
          cases l.isTruthy with
          | false => exact .pure _
          | true => exact h.eval ..
      | or =>
          cases l.isTruthy with
          | false => exact h.eval ..
          | true => exact .pure _
      | _ => exact (h.eval ..).bind fun r ↦ (Agrees.lift _).bind fun _ ↦ .lift _
  | unary line op operand =>
      exact (h.eval ..).bind fun v ↦ (Agrees.lift _).bind fun _ ↦ .lift _
  | paren inner => exact h.eval ..

theorem evalFields_succ (t : Ref) (i : Nat) (fields : List Field) :
    Agrees scope (Framed.evalFields abort (fuel + 1) a scope.visible t i fields)
      (Evaluation.evalFields (fuel + 1) a scope t i fields) := by
  match fields with
  | [] => exact .pure _
  | .keyed key value :: rest =>
      refine (h.eval ..).bind fun k ↦ (h.eval ..).bind fun v ↦ (Agrees.lift _).bind fun _ ↦ ?_
      exact h.evalFields ..
  | [.positional e] => exact (h.evalMulti ..).bind fun vs ↦ .lift _
  | .positional e :: _ :: _ =>
      exact (h.eval ..).bind fun v ↦ (Agrees.lift _).bind fun _ ↦ h.evalFields ..

end Fueled

/-- Whatever the fuel, everything that runs does the same in frames. -/
theorem fueled (abort : Abort) : ∀ fuel, Fueled abort fuel
  | 0 =>
      { call := rfl,
        runBody := fun _ _ _ _ ↦ rfl,
        runBlock := fun _ _ _ ↦ .throw _,
        runStats := fun _ _ _ ↦ .throw _,
        runStat := fun _ _ _ ↦ .throw _,
        runWhile := fun _ _ _ _ ↦ .throw _,
        runRepeat := fun _ _ _ _ ↦ .throw _,
        runClauses := fun _ _ _ _ ↦ .throw _,
        runCount := fun _ _ _ _ _ _ _ ↦ .throw _,
        runIterator := fun _ _ _ _ _ _ _ ↦ .throw _,
        evalPlaces := fun _ _ _ ↦ .throw _,
        evalList := fun _ _ _ ↦ .throw _,
        evalMulti := fun _ _ _ ↦ .throw _,
        eval := fun _ _ _ ↦ .throw _,
        evalFields := fun _ _ _ _ _ ↦ .throw _ }
  | fuel + 1 =>
      have h := fueled abort fuel
      { call := h.call_succ,
        runBody := h.runBody_succ,
        runBlock := fun a _ ↦ h.runBlock_succ a,
        runStats := fun a _ ↦ h.runStats_succ a,
        runStat := fun a _ ↦ h.runStat_succ a,
        runWhile := fun a _ ↦ h.runWhile_succ a,
        runRepeat := fun a _ ↦ h.runRepeat_succ a,
        runClauses := fun a _ ↦ h.runClauses_succ a,
        runCount := fun a _ ↦ h.runCount_succ a,
        runIterator := fun a _ ↦ h.runIterator_succ a,
        evalPlaces := fun a _ ↦ h.evalPlaces_succ a,
        evalList := fun a _ ↦ h.evalList_succ a,
        evalMulti := fun a _ ↦ h.evalMulti_succ a,
        eval := fun a _ ↦ h.eval_succ a,
        evalFields := fun a _ ↦ h.evalFields_succ a }

end Framed

/-! ## Functions stay as they were created -/

/-- A run adds functions, and leaves those that are there as they are. -/
theorem Run.Regular.keeps_functions {m : Bool} {α : Type} {r : Run α} (h : Regular m r)
    (s : Session) :
    s.machine.functions.toList <+: (r.after s).machine.functions.toList := by
  induction h generalizing s with
  | newFunction f =>
      change _ <+: (s.machine.functions.push f).toList
      rw [Array.toList_push]
      exact List.prefix_append ..
  | goToLine line =>
      unfold Evaluation.goToLine
      cases h : s.machine.frames <;> simp [after, modifyMachine, h]
  | bind _ _ hr hf =>
      rcases after_bind _ _ s with h | ⟨a, h⟩
      · rw [h]
        exact hr s
      · rw [h]
        exact (hr s).trans (hf a _)
  | @activate _ _ f r _ hr =>
      rcases after_activate f r s with h | h
      · exact h.symm ▸ List.prefix_rfl
      · rw [h]
        exact hr (s.mapFrames _)
  | attempt _ hr =>
      rw [after_attempt]
      exact hr s
  | protect h hr =>
      rw [after_protect (Frame.length_of_lineless (h.lineless s))]
      exact hr s
  | _ => exact List.prefix_rfl

/-! ## Programs -/

namespace Framed

/-- The call of a value and the execution of a source do the same in frames, whatever abort would
end a run that uses a name, or creates a function, where the names of the frame's scope are not
those visible by the text.  A name stands for a global variable where no declaration of it is
visible, and for the last variable of that name in the innermost group with one otherwise.  A block
leaves its frame the scope that it found there, on every outcome, and a statement leaves at most the
groups that it declares on top of that.  A function is created with the scope of the frame, whose
names are those visible there, and keeps it. -/
theorem resolves_lexically (abort : Abort) (fuel : Nat) :
    (∀ f args name, Framed.call abort fuel f args name = Program.call fuel f args name) ∧
    (∀ source chunk args,
      (do Run.protect (Framed.call abort fuel (← Loader.ofBytes source chunk) args none)) =
        Program.executeBytes fuel source chunk args) ∧
    (∀ (vis : Visible) (x : String), vis.resolve? x = none ↔ x ∉ vis.flatten) ∧
    (∀ (vis : Visible) (x : String) (i j : Nat), vis.resolve? x = some (i, j) ↔
      (∃ names, vis[i]? = some names ∧ names[j]? = some x ∧ x ∉ names.drop (j + 1)) ∧
        x ∉ (vis.take i).flatten) ∧
    (∀ a scope block s,
      scopeAfter (runBlock abort fuel a scope.visible block) scope s = scope) ∧
    (∀ a scope stat s, ∃ groups : Scope,
      scopeAfter (runStat abort fuel a scope.visible stat) scope s = groups ++ scope ∧
        (groups.visible = stat.declares ∨ groups = [])) ∧
    (∀ vis a body scope s, close abort vis a body (scope, s) = .error abort (scope, s) ∨
      scope.visible = vis ∧ ∃ s',
        close abort vis a body (scope, s) = .ok (.function s.machine.functions.size) (scope, s') ∧
          s'.machine.functions = s.machine.functions.push (.script body a.chunk scope)) ∧
    ∀ f args name s, s.machine.functions.toList <+:
      ((Program.call fuel f args name).after s).machine.functions.toList := by
  have h := fueled abort fuel
  refine ⟨fun f args name ↦ by rw [h.call]; rfl, fun source chunk args ↦ by rw [h.call]; rfl,
    fun vis x ↦ Visible.resolve?_eq_none_iff, fun vis x i j ↦ Visible.resolve?_eq_some_iff,
    fun a scope block s ↦ Restores.scopeAfter (h.runBlock a scope block) s,
    fun a scope stat s ↦ (h.runStat a scope stat).scopeAfter s, close_cases, ?_⟩
  have hcall : Caller.Regular false (Program.call fuel) := .programCall fuel
  exact fun f args name s ↦ (hcall f args name).keeps_functions s

end Framed

end LuaEmbed
