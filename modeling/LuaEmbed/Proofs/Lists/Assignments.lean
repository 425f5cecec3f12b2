import LuaEmbed.Proofs.Lists.Order
import LuaEmbed.Proofs.Loops.Separation
import Mathlib.Data.List.Nodup

/-!
# Assignments

An assignment evaluates the objects and keys of its targets and then its values, in order, and
stores nothing before that.  Then it has as many values as targets, and stores them from left to
right.  So what it stores are the values from before, also where its targets are variables that the
values were read from.
-/

namespace LuaEmbed

namespace Scope

variable {S : Scope} {x y : String} {r : Ref}

theorem mem_of_groupCell? {g : Group} (h : g.cell? x = some r) : (x, r) ∈ g := by
  induction g with
  | nil => exact nomatch h
  | cons v g ih =>
      obtain ⟨z, r'⟩ := v
      rw [Group.cell?] at h
      split at h
      · next hcell =>
        cases h
        exact List.mem_cons_of_mem _ (ih hcell)
      · split at h
        · next hz =>
          cases h
          rw [← eq_of_beq hz]
          exact List.mem_cons_self
        · exact nomatch h

theorem mem_of_cell? (h : S.cell? x = some r) : (x, r) ∈ S.flatten := by
  induction S with
  | nil => exact nomatch h
  | cons g S ih =>
      rw [cell?] at h
      rw [List.flatten_cons, List.mem_append]
      split at h
      · next hcell =>
        cases h
        exact .inl (mem_of_groupCell? hcell)
      · exact .inr (ih h)

theorem cells_eq (S : Scope) : S.cells = S.flatten.map Prod.snd := by
  rw [List.map_flatten]
  exact List.flatMap_def ..

theorem mem_cells_of_cell? (h : S.cell? x = some r) : r ∈ S.cells := by
  rw [cells_eq]
  exact List.mem_map_of_mem (mem_of_cell? h)

/-- Different names stand for different variables, if no variable stands twice in the scope. -/
theorem cell?_inj (hS : S.cells.Nodup) (h : S.cell? x = some r) (h' : S.cell? y = some r) :
    x = y := by
  rw [cells_eq] at hS
  exact congrArg Prod.fst
    (List.inj_on_of_nodup_map hS (mem_of_cell? h) (mem_of_cell? h') (rfl : r = r))

theorem nodup_of_cells {names : List String} {cells : List Ref} (hS : S.cells.Nodup)
    (hnames : names.Nodup) (h : names.map S.cell? = cells.map some) : cells.Nodup := by
  refine .of_map some (h ▸ List.Nodup.map_on (fun x hx y _ hxy ↦ ?_) hnames)
  have hmem : S.cell? x ∈ cells.map some := h ▸ List.mem_map_of_mem hx
  obtain ⟨r, -, hr⟩ := List.mem_map.1 hmem
  exact cell?_inj hS hr.symm (hxy.symm.trans hr.symm)

end Scope

namespace Evaluation

/-! ## What is evaluated -/

/-- What an assignment does before it stores anything.  It goes to its line, and evaluates its
targets and then its values.  As many of these are left as there are targets. -/
def prepareAssign (fuel : Nat) (a : Activation) (scope : Scope) (line : Nat)
    (targets values : List Expr) : Run (List Place × List Value) := do
  if 0 < line then goToLine line
  let operands ← Run.inOrder (targetSteps a scope fuel targets)
  let results ← Run.inOrder (valueSteps a scope fuel values)
  return (placesOf scope targets operands, results.flatten.takeD targets.length .nil)

/-- There is a place for each target. -/
theorem length_placesOf (a : Activation) (scope : Scope) {fuel : Nat} {targets : List Expr}
    {operands : List Value} {s s' : Session}
    (h : Run.inOrder (targetSteps a scope fuel targets) s = .ok operands s') :
    (placesOf scope targets operands).length = targets.length := by
  induction fuel generalizing targets operands s with
  | zero => exact nomatch h
  | succ fuel ih =>
      cases targets with
      | nil => rfl
      | cons target targets =>
          rw [targetSteps, Run.inOrder_append] at h
          obtain ⟨vs, s₁, hvs, h⟩ := Run.exists_of_bind_ok h
          obtain ⟨rest, s₂, hrest, h⟩ := Run.exists_of_bind_ok h
          cases h
          have hlength := Run.length_inOrder hvs
          cases target with
          | name x =>
              obtain rfl := List.eq_nil_of_length_eq_zero hlength
              exact congrArg (· + 1) (ih hrest)
          | index line object key =>
              obtain ⟨o, k, rfl⟩ := List.length_eq_two.1 hlength
              exact congrArg (· + 1) (ih hrest)
          | _ => cases hvs

/-! ## What is stored -/

/-- Values are stored one after the other, with `nil` where there are too few. -/
theorem storeAll_eq (call : Caller) (places : List Place) (vs : List Value) :
    storeAll call places vs = (do
      let _ ← Run.inOrder (List.zipWith (store call) (vs.takeD places.length .nil) places)
      return ()) := by
  induction places generalizing vs with
  | nil => rfl
  | cons p ps ih =>
      rw [storeAll, ih, List.length_cons, List.takeD]
      simp [Run.inOrder]

/-- Values that are stored in different variables are found there, and nothing else is changed. -/
theorem inOrder_stores_variables (call : Caller) {cells : List Ref} {vs : List Value} {s : Session}
    (hnodup : cells.Nodup) (hlt : ∀ r ∈ cells, r < s.machine.cells.size)
    (hlength : vs.length = cells.length) :
    ∃ us s', Run.inOrder (List.zipWith (store call) vs (cells.map .variable_)) s = .ok us s' ∧
      s' = { s with machine := { s.machine with cells := s'.machine.cells } } ∧
      s'.machine.cells.size = s.machine.cells.size ∧
      (∀ (i : Nat) r, cells[i]? = some r → s'.machine.cells[r]? = vs[i]?) ∧
      ∀ r ∉ cells, s'.machine.cells[r]? = s.machine.cells[r]? := by
  induction cells generalizing vs s with
  | nil =>
      obtain rfl := List.eq_nil_of_length_eq_zero hlength
      exact ⟨[], s, rfl, rfl, rfl, nofun, fun _ _ ↦ rfl⟩
  | cons r cells ih =>
      obtain ⟨hr, hnodup⟩ := List.nodup_cons.1 hnodup
      obtain ⟨v, vs, rfl⟩ := List.exists_cons_of_length_eq_add_one hlength
      let s₁ : Session :=
        { s with machine := { s.machine with cells := s.machine.cells.set! r v } }
      have hsize : s₁.machine.cells.size = s.machine.cells.size := Array.size_setIfInBounds ..
      obtain ⟨us, s', hok, heq, hsize', hstored, hothers⟩ := ih (s := s₁) hnodup
        (fun r hmem ↦ hsize.symm ▸ hlt r (List.mem_cons_of_mem _ hmem)) (Nat.succ.inj hlength)
      have hwrite : Heap.writeCell r v s = .ok () s₁ := rfl
      refine ⟨() :: us, s', (Run.bind_of_ok hwrite).trans (Run.bind_of_ok hok), heq,
        hsize'.trans hsize, fun i r' hi ↦ ?_, fun r' hr' ↦ ?_⟩
      · cases i with
        | zero =>
            obtain rfl : r = r' := Option.some.inj hi
            rw [hothers r hr]
            exact Array.getElem?_setIfInBounds_self_of_lt (hlt r List.mem_cons_self)
        | succ i => exact hstored i r' hi
      · rw [List.mem_cons, not_or] at hr'
        obtain ⟨hne, hmem⟩ := hr'
        rw [hothers r' hmem]
        exact Array.getElem?_setIfInBounds_ne (Ne.symm hne)

/-! ## Assignments -/

section Assign

variable (fuel : Nat) (a : Activation) (scope : Scope) (line : Nat)

/-- An assignment stores nothing before all of it is evaluated. -/
theorem runStat_assign (targets values : List Expr) :
    runStat (fuel + 1) a scope (.assign line targets values) = (do
      let (places, vs) ← prepareAssign fuel a scope line targets values
      let _ ← Run.inOrder (List.zipWith (store (call fuel)) vs places)
      return .next scope) := by
  have hstored : (do
      let places ← evalPlaces fuel a scope targets
      let vs ← evalList fuel a scope values
      storeAll (call fuel) places vs
      return Flow.next scope) = (do
      let operands ← Run.inOrder (targetSteps a scope fuel targets)
      let results ← Run.inOrder (valueSteps a scope fuel values)
      let vs := results.flatten.takeD targets.length .nil
      let _ ← Run.inOrder (List.zipWith (store (call fuel)) vs (placesOf scope targets operands))
      return .next scope) := by
    rw [evalPlaces_eq, evalList_eq, bind_map_left]
    refine Run.bind_congr_of_ok fun operands s s' h ↦ ?_
    rw [bind_map_left]
    refine bind_congr fun results ↦ ?_
    rw [storeAll_eq, length_placesOf a scope h, bind_assoc]
    rfl
  change (if 0 < line then goToLine line >>= fun _ ↦ _ else _) = _
  unfold prepareAssign
  split
  · simp only [bind_assoc, pure_bind]
    exact bind_congr fun _ ↦ hstored
  · simp only [bind_assoc, pure_bind]
    exact hstored

/-- The places of names are their variables. -/
theorem placesOf_names {names : List String} {cells : List Ref}
    (h : names.map scope.cell? = cells.map some) (operands : List Value) :
    placesOf scope (names.map .name) operands = cells.map .variable_ := by
  induction names generalizing cells with
  | nil =>
      obtain rfl := List.map_eq_nil_iff.1 h.symm
      rfl
  | cons x names ih =>
      obtain ⟨r, cells, rfl, hr, hcells⟩ := List.map_eq_cons_iff.1 h.symm
      rw [List.map_cons, placesOf, ih hcells.symm, placeOfName, ← hr]
      rfl

theorem exists_of_prepareAssign {targets values : List Expr} {places : List Place}
    {vs : List Value} {s s' : Session}
    (h : prepareAssign fuel a scope line targets values s = .ok (places, vs) s') :
    ∃ operands results, places = placesOf scope targets operands ∧
      vs = List.takeD targets.length (List.flatten results) .nil := by
  unfold prepareAssign at h
  split at h
  · obtain ⟨_, s₁, -, h⟩ := Run.exists_of_bind_ok h
    obtain ⟨operands, s₂, -, h⟩ := Run.exists_of_bind_ok h
    obtain ⟨results, s₃, -, h⟩ := Run.exists_of_bind_ok h
    cases h
    exact ⟨operands, results, rfl, rfl⟩
  · obtain ⟨operands, s₂, -, h⟩ := Run.exists_of_bind_ok h
    obtain ⟨results, s₃, -, h⟩ := Run.exists_of_bind_ok h
    cases h
    exact ⟨operands, results, rfl, rfl⟩

/-- What is evaluated takes no variables away. -/
theorem declares_of_prepareAssign {targets values : List Expr} {places : List Place}
    {vs : List Value} {s s' : Session}
    (h : prepareAssign fuel a scope line targets values s = .ok (places, vs) s')
    (hs : s.Declares scope) : s'.Declares scope := by
  have hr := evaluator_regular fuel
  have hplaces : Run.Regular true (evalPlaces fuel a scope targets) :=
    (hr.evalPlaces () (v := true) a scope False.elim False.elim).1
  have hvalues : Run.Regular true (evalList fuel a scope values) :=
    (hr.evalList () (v := true) a scope False.elim).1
  have heq : prepareAssign fuel a scope line targets values = (do
      if 0 < line then goToLine line
      let places ← evalPlaces fuel a scope targets
      return (places, (← evalList fuel a scope values).takeD targets.length .nil)) := by
    simp only [prepareAssign, evalPlaces_eq, evalList_eq, bind_map_left]
  have hregular : Run.Regular true (prepareAssign fuel a scope line targets values) := by
    rw [heq]
    have hrest := hplaces.bind fun places ↦ hvalues.bind fun vs ↦
      .pure (places, vs.takeD targets.length .nil)
    split
    · exact (Run.Regular.goToLine line).bind fun _ ↦ hrest
    · exact hrest
  have hle := hregular.cells_le s
  rw [Run.after_of_ok h] at hle
  exact ⟨hs.nodup, fun hr ↦ Nat.lt_of_lt_of_le (hs.lt hr) hle⟩

/-- An assignment evaluates the objects and keys of its targets and then its values, in order, and
then stores as many values as there are targets, from left to right.  If it fails to evaluate
something, it ends with that.  Different local variables have the values in the end, and nothing
else is changed.  Whatever a host does, the variables in scope are there and are different. -/
theorem assignment_stores_last (targets values : List Expr) :
    (runStat (fuel + 1) a scope (.assign line targets values) = (do
      let (places, vs) ← prepareAssign fuel a scope line targets values
      let _ ← Run.inOrder (List.zipWith (store (call fuel)) vs places)
      return .next scope)) ∧
    (∀ s e s', prepareAssign fuel a scope line targets values s = .error e s' →
      runStat (fuel + 1) a scope (.assign line targets values) s = .error e s') ∧
    (∀ (names : List String) (cells : List Ref) s places vs s₁,
      targets = names.map .name → names.Nodup → names.map scope.cell? = cells.map some →
      s.Declares scope → prepareAssign fuel a scope line targets values s = .ok (places, vs) s₁ →
        ∃ s₂, runStat (fuel + 1) a scope (.assign line targets values) s = .ok (.next scope) s₂ ∧
          s₂ = { s₁ with machine := { s₁.machine with cells := s₂.machine.cells } } ∧
          s₂.machine.cells.size = s₁.machine.cells.size ∧
          (∀ (i : Nat) r, cells[i]? = some r → s₂.machine.cells[r]? = vs[i]?) ∧
          ∀ r ∉ cells, s₂.machine.cells[r]? = s₁.machine.cells[r]?) ∧
    ∀ s : Session, s.Arises → ∀ (abort : Abort) (bound : Nat) (op : HostOperation),
      op.SparesVariables →
        op.run ((Evaluator.checked (fun _ scope s ↦ s.Declares scope) abort bound).call []) s =
          op.run (Program.call bound) s := by
  have heq := runStat_assign fuel a scope line targets values
  refine ⟨heq, fun s e s' h ↦ ?_, fun names cells s places vs s₁ htargets hnames hcells hs h ↦ ?_,
    fun s hs abort bound op hop ↦ ?_⟩
  · rw [heq]
    exact Run.bind_of_error h
  · obtain ⟨operands, results, hplaces, hvs⟩ := exists_of_prepareAssign fuel a scope line h
    rw [htargets, placesOf_names scope hcells] at hplaces
    have hlength : names.length = cells.length := by simpa using congrArg List.length hcells
    have hdeclares := declares_of_prepareAssign fuel a scope line h hs
    have hlt (r : Ref) (hr : r ∈ cells) : r < s₁.machine.cells.size := by
      obtain ⟨x, -, hx⟩ := List.mem_map.1 (hcells.symm ▸ List.mem_map_of_mem (f := some) hr)
      exact hdeclares.lt (Scope.mem_cells_of_cell? hx)
    have hcount : vs.length = cells.length := by
      rw [hvs, List.takeD_length, htargets, List.length_map, hlength]
    obtain ⟨us, s₂, hok, hstored⟩ := inOrder_stores_variables (call fuel)
      (Scope.nodup_of_cells hs.nodup hnames hcells) hlt hcount
    rw [heq]
    subst hplaces
    exact ⟨s₂, (Run.bind_of_ok h).trans (Run.bind_of_ok hok), hstored⟩
  · exact hs.outcome_checked (fun _ _ _ h ↦ h.declares (.inl rfl)) abort bound hop

end Assign

/-- Two variables are swapped, and a field of `nil` cannot be assigned to one of them. -/
theorem assignment_stores_last_swap :
    let s₀ : Session := ⟨Machine.initial 200, World.initial⟩
    let s : Session :=
      { s₀ with machine := { s₀.machine with cells := #[.number 1, .number 2] } }
    let scope : Scope := [[("a", 0), ("b", 1)]]
    let prepare := prepareAssign 5 ⟨"chunk", []⟩ scope 0
    let assign := fun targets values ↦ runStat 6 ⟨"chunk", []⟩ scope (.assign 0 targets values)
    let op := HostOperation.execute (Text.bytes "local a, b = 1, 2 a, b = b, a") "chunk" []
    (∃ e, prepare [.name "a"] [.index 0 .nil (.string "x")] s = .error e s ∧
      assign [.name "a"] [.index 0 .nil (.string "x")] s = .error e s) ∧
    (s.Declares scope ∧ ∃ s₂,
      assign [.name "a", .name "b"] [.name "b", .name "a"] s = .ok (.next scope) s₂ ∧
        s₂.machine.cells[0]? = some (.number 2) ∧ s₂.machine.cells[1]? = some (.number 1)) ∧
    s₀.Arises ∧ op.SparesVariables ∧
      op.run ((Evaluator.checked (fun _ scope s ↦ s.Declares scope) .outOfFuel 40).call []) s₀ =
        op.run (Program.call 40) s₀ := by
  intro s₀ s scope prepare assign op
  have herror : prepare [.name "a"] [.index 0 .nil (.string "x")] s = .error _ s := rfl
  have hs : s.Declares scope := ⟨by decide, fun {r} hr ↦ by
    have hall : ∀ r ∈ scope.cells, r < 2 := by decide
    exact hall r hr⟩
  have hswap : prepare [.name "a", .name "b"] [.name "b", .name "a"] s =
      .ok ([.variable_ 0, .variable_ 1], [.number 2, .number 1]) s := rfl
  obtain ⟨s₂, hok, -, -, hstored, -⟩ := (assignment_stores_last 5 ⟨"chunk", []⟩ scope 0
    [.name "a", .name "b"] [.name "b", .name "a"]).2.2.1 ["a", "b"] [0, 1] s _ _ s rfl (by decide)
    (by decide) hs hswap
  have harises : s₀.Arises := .initial 200 World.initial
  exact ⟨⟨_, herror, (assignment_stores_last 5 ⟨"chunk", []⟩ scope 0 _ _).2.1 s _ s herror⟩,
    ⟨hs, s₂, hok, hstored 0 0 rfl, hstored 1 1 rfl⟩, harises, trivial,
    (assignment_stores_last 5 ⟨"chunk", []⟩ scope 0 [] []).2.2.2 s₀ harises .outOfFuel 40 op
      trivial⟩

end Evaluation

end LuaEmbed
