import LuaEmbed.Proofs.Loops.Turns
import LuaEmbed.Proofs.Runs.Depth
import LuaEmbed.Proofs.Scoping.Homes

/-!
# Turns of loops are kept apart

While a turn of a loop is under way, the scope of whatever runs in its block is that of the loop
with groups on top that were declared during the turn.  Functions that are created there have such
a scope and keep it.  Since scopes are the branches of a tree, those that begin with variables of
different turns, on top of the scope of the loop, share no variables but those of the loop.  So
what is assigned to a variable in one turn is not seen in another, whenever and from wherever it is
assigned.

This is said of evaluation that goes along with the turns that are under way, and does something
else where a scope is not as it should be.  It is evaluation as it is.
-/

namespace LuaEmbed

/-- A turn of a loop that is under way: the scope that the loop is in, and how many variables there
were when the turn began. -/
structure OpenTurn where
  scope : Scope
  start : Nat

/-- The scope is one of a turn of a loop in scope `B`.  What it has on top of that begins, if at
all, with a variable that was declared from `m` on and before `n`. -/
def Scope.OfTurn (S B : Scope) (m n : Nat) : Prop :=
  ∃ G, S = G ++ B ∧ ∀ r ∈ first? G, m ≤ r ∧ r < n

namespace Session

/-- The variables of the scope are there, and are different ones. -/
structure Declares (s : Session) (S : Scope) : Prop where
  nodup : S.cells.Nodup
  lt {r : Ref} : r ∈ S.cells → r < s.machine.cells.size

/-- A function has been created in the scope. -/
def Captures (s : Session) (S : Scope) : Prop :=
  ∃ (f : Ref) (body : Body) (chunk : String),
    s.machine.functions[f]? = some (.script body chunk S)

/-- What is assigned to a variable of one scope is not seen in another, unless the variable is one
of the scope that both are in. -/
def Unseen (s : Session) (B S S' : Scope) : Prop :=
  ∀ r ∈ S.cells, r ∉ B.cells → ∀ v, ∀ r' ∈ S'.cells,
    ((Heap.writeCell r v).after s).machine.cells[r']? = s.machine.cells[r']?

/-- A scope that something runs in, during some turns, is as it should be.  It has been declared in
these turns, up to the scopes of their loops, and what is assigned in one turn of a loop is not seen
in another one. -/
structure KeepsApart (turns : List OpenTurn) (running : Scope) (s : Session) : Prop where
  declares {S : Scope} : S = running ∨ s.Captures S → s.Declares S
  inside {t : OpenTurn} : t ∈ turns →
    ∃ G, running = G ++ t.scope ∧ ∀ r ∈ Scope.cells G, t.start ≤ r
  unseen {B S S' : Scope} {m n p q : Nat} : S = running ∨ s.Captures S →
    S' = running ∨ s.Captures S' →
    S.OfTurn B m n → S'.OfTurn B p q → n ≤ p ∨ q ≤ m → s.Unseen B S S'

end Session

/-! ## Homes in turns -/

namespace Homes

variable {w w' : Homes} {turns : List OpenTurn} {S : Scope} {g : Group} {s : Session}

/-- The homes house a scope that has been declared in some turns. -/
structure Inside (turns : List OpenTurn) (S : Scope) (w : Homes) : Prop where
  houses : w.Houses S
  declared {t : OpenTurn} : t ∈ turns →
    t.start ≤ w.size ∧ ∃ G, S = G ++ t.scope ∧ ∀ r ∈ Scope.cells G, t.start ≤ r

namespace Inside

theorem mono (h : Inside turns S w) (hext : w.Extends w') : Inside turns S w' where
  houses := hext.houses h.houses
  declared ht := ⟨Nat.le_trans (h.declared ht).1 hext.size_le, (h.declared ht).2⟩

/-- The scope of a function is in no turn of those around its call. -/
theorem of_houses (h : w.Houses S) : Inside [] S w := ⟨h, nofun⟩

theorem declare (h : Inside turns S w) (hg : g.cells = List.range' w.size g.length) :
    Inside turns (g :: S) (w.declare g S) where
  houses := houses_declare h.houses hg
  declared {t} ht := by
    obtain ⟨hle, G, rfl, hG⟩ := h.declared ht
    refine ⟨Nat.le_trans hle (Nat.le_add_right ..), g :: G, rfl, fun r hr ↦ ?_⟩
    rw [Scope.cells_cons, List.mem_append] at hr
    rcases hr with hr | hr
    · exact Nat.le_trans hle (List.mem_range'_1.1 (hg ▸ hr)).1
    · exact hG r hr

/-- A turn begins in the scope of its loop. -/
theorem openTurn (h : Inside turns S w) : Inside (⟨S, w.size⟩ :: turns) S w where
  houses := h.houses
  declared ht := by
    rcases List.mem_cons.1 ht with rfl | ht
    · exact ⟨Nat.le_refl _, [], rfl, nofun⟩
    · exact h.declared ht

theorem closeTurn {t : OpenTurn} (h : Inside (t :: turns) S w) : Inside turns S w :=
  ⟨h.houses, fun ht ↦ h.declared (List.mem_cons_of_mem t ht)⟩

end Inside

theorem Covers.houses_or (hs : w.Covers s) {S' : Scope} (hS : w.Houses S)
    (h : S' = S ∨ s.Captures S') : w.Houses S' := by
  rcases h with rfl | ⟨f, body, chunk, hf⟩
  · exact hS
  · exact hs.houses hf

/-- Scopes of different turns share no variables but those of their loop. -/
theorem Houses.mem_cells_of_ofTurn {B S' : Scope} {m n p q : Nat} (h : w.Houses S)
    (h' : w.Houses S') (hS : S.OfTurn B m n) (hS' : S'.OfTurn B p q) (hapart : n ≤ p ∨ q ≤ m)
    {r : Ref} (hr : r ∈ S.cells) (hr' : r ∈ S'.cells) : r ∈ B.cells := by
  obtain ⟨G, rfl, hfirst⟩ := hS
  obtain ⟨G', rfl, hfirst'⟩ := hS'
  rw [Scope.cells_append, List.mem_append] at hr
  refine hr.resolve_left fun hG ↦ ?_
  have heq : Scope.first? G = Scope.first? G' := h.first?_eq h' hG hr'
  have hsome : G.first? = some _ := List.getLast?_eq_some_getLast (List.ne_nil_of_mem hG)
  obtain ⟨hm, hn⟩ := hfirst _ hsome
  obtain ⟨hp, hq⟩ := hfirst' _ (heq ▸ hsome)
  rcases hapart with h | h
  · exact Nat.lt_irrefl _ (Nat.lt_of_lt_of_le hn (Nat.le_trans h hp))
  · exact Nat.lt_irrefl _ (Nat.lt_of_lt_of_le hq (Nat.le_trans h hm))

/-- Where there are homes, scopes are as they should be. -/
theorem Covers.keepsApart (hs : w.Covers s) (h : Inside turns S w) : s.KeepsApart turns S where
  declares hS := by
    have hS := hs.houses_or h.houses hS
    exact ⟨hS.nodup, fun hr ↦ hs.size_eq.symm ▸ hS.lt hr⟩
  inside ht := (h.declared ht).2
  unseen hS hS' hturn hturn' hapart := by
    intro r hr hB v r' hr'
    have hne : r ≠ r' := by
      rintro rfl
      exact hB ((hs.houses_or h.houses hS).mem_cells_of_ofTurn
        (hs.houses_or h.houses hS') hturn hturn' hapart hr hr')
    exact Array.getElem?_setIfInBounds_ne hne

end Homes

/-! ## Evaluation with checks -/

/-- A check of a scope that something runs in, during some turns. -/
abbrev ScopeCheck := List OpenTurn → Scope → Session → Prop

section Checked

variable {α : Type}

open Classical in
/-- Something is run where a condition holds, and elsewhere the run is ended. -/
noncomputable def Run.provided (ok : Session → Prop) (abort : Abort) (r : Run α) : Run α := fun s ↦
  if ok s then r s else .error abort s

/-- What is run is a turn of a loop in a scope. -/
def Run.inTurn (turns : List OpenTurn) (scope : Scope) (r : List OpenTurn → Run α) : Run α :=
  fun s ↦ r (⟨scope, s.machine.cells.size⟩ :: turns) s

/-- Evaluation as it is, during some turns. -/
def Hooks.duringTurns : Hooks (List OpenTurn) where
  native turns fuel call op args := op.run fuel (call turns) args
  store _ := Operation.store
  stray r := r

namespace Evaluator

variable (check : ScopeCheck) (abort : Abort)

/-- The turns around a call are none of the callee. -/
def leavingTurns (ev : Evaluator (List OpenTurn)) : Evaluator (List OpenTurn) :=
  { ev with call := fun _ ↦ ev.call [] }

/-- One level of evaluation that checks scopes where names are used and functions are created, and
goes along with the turns that are under way. -/
noncomputable def checkedNext (fuel : Nat) (ev : Evaluator (List OpenTurn)) :
    Evaluator (List OpenTurn) :=
  let ev := ev.leavingTurns
  let level := Hooks.duringTurns.next fuel ev
  { level with
    runStat := fun turns a scope stat ↦
      (level.runStat turns a scope stat).provided (check turns scope) abort
    evalPlaces := fun turns a scope targets ↦
      (level.evalPlaces turns a scope targets).provided (check turns scope) abort
    eval := fun turns a scope e ↦ (level.eval turns a scope e).provided (check turns scope) abort
    runWhile := fun turns a scope condition block ↦
      Run.inTurn turns scope (fun turns ↦ ev.whileTurn turns a scope condition block ()) >>=
        Loop.goOn fun _ ↦ ev.runWhile turns a scope condition block
    runRepeat := fun turns a scope block condition ↦
      Run.inTurn turns scope (fun turns ↦ ev.repeatTurn turns a scope block condition ()) >>=
        Loop.goOn fun _ ↦ ev.runRepeat turns a scope block condition
    runCount := fun turns a scope var i limit step block ↦
      Run.inTurn turns scope (fun turns ↦ ev.countTurn turns a scope var limit step block i) >>=
        Loop.goOn fun i ↦ ev.runCount turns a scope var i limit step block
    runIterator := fun turns a scope names iterator state control block ↦
      Run.inTurn turns scope
          (fun turns ↦ ev.iteratorTurn turns a scope names iterator state block control) >>=
        Loop.goOn fun control ↦
          ev.runIterator turns a scope names iterator state control block }

/-- Evaluation that checks scopes. -/
noncomputable def checked : Nat → Evaluator (List OpenTurn)
  | 0 => .spent
  | fuel + 1 => checkedNext check abort fuel (checked fuel)

end Evaluator

end Checked

/-! ## Runs in a scope -/

/-- Both runs do the same where there are homes for a scope that has been declared in some turns. -/
abbrev Run.Within (turns : List OpenTurn) (S : Scope) {α : Type} (r r' : Run α)
    (Q : Homes → α → Prop) : Prop := Housed (Homes.Inside turns S) r r' Q

namespace Run.Within

open Homes (Inside)

variable {turns : List OpenTurn} {S : Scope} {α β : Type} {r r' : Run α} {Q R : Homes → α → Prop}

/-- What makes no use of the scope. -/
theorem of_rel {P : Homes → α → Prop} {T : α → Prop} {m : Bool}
    (h : Homes.logic.Rel m r r' T) (hP : ∀ w a, T a → P w a) : Within turns S r r' P :=
  Housed.mono h (fun _ _ ↦ trivial) hP

theorem of_agree (h : Homes.logic.Agree true r r') :
    Within turns S r r' fun _ _ ↦ True := of_rel h fun _ _ _ ↦ trivial

theorem bind_to {f f' : α → Run β} {R : Homes → β → Prop} (h : Within turns S r r' Q)
    (hf : ∀ a, Housed (fun w ↦ Inside turns S w ∧ Q w a) (f a) (f' a) R) :
    Within turns S (r >>= f) (r' >>= f') R :=
  Housed.bind (fun _ _ hext hS ↦ hS.mono hext) h hf

theorem bind {f f' : α → Run β} {R : Homes → β → Prop} (h : Within turns S r r' Q)
    (hf : ∀ a, Within turns S (f a) (f' a) R) : Within turns S (r >>= f) (r' >>= f') R :=
  h.bind_to fun a ↦ (hf a).mono (fun _ hw ↦ hw.1) fun _ _ ↦ id

theorem done (a : α) : Within turns S (Pure.pure a) (Pure.pure a) fun _ _ ↦ True :=
  .pure fun _ _ ↦ trivial

/-- A check that succeeds wherever there are homes is made. -/
theorem provided {check : ScopeCheck}
    (hcheck : ∀ turns S s, s.KeepsApart turns S → check turns S s) (abort : Abort)
    (h : Within turns S r r' Q) : Within turns S (r.provided (check turns S) abort) r' Q := by
  intro w s hs hw
  obtain ⟨heq, h⟩ := h w s hs hw
  exact ⟨(if_pos (hcheck _ _ _ (hs.keepsApart hw))).trans heq, h⟩

/-- A turn is run in the scope of its loop. -/
theorem inTurn {r : List OpenTurn → Run α}
    (h : ∀ start, Within (⟨S, start⟩ :: turns) S (r (⟨S, start⟩ :: turns)) r' Q) :
    Within turns S (Run.inTurn turns S r) r' Q := by
  intro w s hs hw
  have := h s.machine.cells.size w s hs (hs.size_eq ▸ hw.openTurn)
  exact this

/-- A new variable is at home in a group of its own on top of the scope. -/
theorem newCell (x : String) (v : Value) :
    Within turns S (Heap.newCell v) (Heap.newCell v) fun w cell ↦
      Inside turns ([(x, cell)] :: S) w := by
  refine (Housed.newCell x S v).mono (fun _ ↦ id) ?_
  rintro _ _ ⟨w, hw, rfl, rfl⟩
  exact hw.declare rfl

/-- New variables are at home on top of the scope. -/
theorem declare (names : List String) (vs : List Value) :
    Within turns S (Evaluation.declare names vs) (Evaluation.declare names vs) fun w g ↦
      Inside turns (g :: S) w := by
  intro w s hs hw
  let g : Group := names.zip (List.range' w.size names.length)
  have hlength : g.length = names.length := by simp [g]
  have hg : g.cells = List.range' w.size g.length := by
    rw [hlength]
    exact Evaluation.cells_declared names w.size
  have hok := hs.size_eq ▸ Evaluation.declare_eq names vs s
  refine ⟨rfl, w.declare g S, w.extends_declare g S, ?_, fun g' s' hg' ↦ ?_⟩
  · rw [after_of_ok hok]
    refine ⟨?_, fun hf ↦ (w.extends_declare g S).houses (hs.houses hf)⟩
    change (s.machine.cells ++ (vs.takeD names.length .nil).toArray).size = w.size + g.length
    rw [Array.size_append, hs.size_eq, hlength, List.size_toArray, List.takeD_length]
  · cases hok.symm.trans hg'
    exact hw.declare hg

/-- A function is created in the scope that something runs in. -/
theorem close (a : Activation) (body : Body) :
    Within turns S (Evaluation.close a S body) (Evaluation.close a S body) fun _ _ ↦ True :=
  .newFunction fun _ _ _ _ hw h ↦ by
    cases h
    exact hw.houses

end Run.Within

/-! ## Flows and ends of turns -/

namespace Homes

variable {w : Homes} {turns : List OpenTurn} {S : Scope} {flow : Flow}

/-- What a statement goes on in is a scope that has been declared in some turns. -/
def Leads (turns : List OpenTurn) (w : Homes) (flow : Flow) : Prop :=
  ∀ S, flow = .next S → w.Inside turns S

/-- What is gone on in after a turn that ends its loop has been declared in some turns. -/
def Ends {τ : Type} (turns : List OpenTurn) (w : Homes) (t : Turn τ) : Prop :=
  ∀ flow, t = .done flow → w.Leads turns flow

theorem Inside.leads (h : Inside turns S w) : w.Leads turns (.next S) := by
  rintro _ ⟨⟩
  exact h

theorem Leads.of_ne (h : ∀ S, flow ≠ .next S) : w.Leads turns flow :=
  fun S hS ↦ (h S hS).elim

theorem Leads.ends {τ : Type} (h : w.Leads turns flow) :
    w.Ends turns (.done flow : Turn τ) := by
  rintro _ ⟨⟩
  exact h

theorem Ends.closeTurn {τ : Type} {t : OpenTurn} {e : Turn τ} (h : w.Ends (t :: turns) e) :
    w.Ends turns e := fun flow heq S hS ↦ (h flow heq S hS).closeTurn

end Homes

namespace Run.Within

open Homes (Inside Leads Ends)

variable {turns : List OpenTurn} {S S' : Scope} {τ α β : Type} {r r' : Run α}
  {Q : Homes → α → Prop} {R : Homes → β → Prop}

theorem next (S : Scope) :
    Within turns S (Pure.pure (.next S)) (Pure.pure (.next S)) (Leads turns) :=
  .pure fun _ hw ↦ hw.leads

theorem leave {flow : Flow} (h : ∀ S, flow ≠ .next S) :
    Within turns S (Pure.pure flow) (Pure.pure flow) (Leads turns) := .pure fun _ _ ↦ .of_ne h

theorem again (x : τ) :
    Within turns S (Pure.pure (.again x)) (Pure.pure (.again x)) (Ends turns) :=
  .pure fun _ _ ↦ nofun

theorem break_ : Within turns S (Pure.pure (.done (.next S) : Turn τ))
    (Pure.pure (.done (.next S))) (Ends turns) :=
  .pure fun _ hw ↦ hw.leads.ends

theorem after (x : τ) (flow : Flow) : Within turns S (Pure.pure (Turn.after S x flow))
    (Pure.pure (Turn.after S x flow)) (Ends turns) := by
  cases flow with
  | next => exact again x
  | leaveLoop => exact break_
  | leaveFunction values => exact .pure fun w _ ↦ Leads.ends (.of_ne fun _ h ↦ by cases h)

/-- Something is run in another scope first. -/
theorem bind_in {f f' : α → Run β} (h : Within turns S' r r' Q)
    (hf : ∀ a, Within turns S (f a) (f' a) R) :
    Housed (fun w ↦ Inside turns S w ∧ Inside turns S' w) (r >>= f) (r' >>= f') R :=
  Housed.bind (fun _ _ hext hw ↦ ⟨hw.1.mono hext, hw.2.mono hext⟩)
    (h.mono (fun _ hw ↦ hw.2) fun _ _ ↦ id) fun a ↦
      (hf a).mono (fun _ hw ↦ hw.1.1) fun _ _ ↦ id

/-- A loop makes a turn and goes on. -/
theorem turn {r : List OpenTurn → Run (Turn τ)} {r' : Run (Turn τ)} {rest rest' : τ → Run Flow}
    (h : ∀ turns, Within turns S (r turns) r' (Ends turns))
    (hrest : ∀ x, Within turns S (rest x) (rest' x) (Leads turns)) :
    Within turns S (Run.inTurn turns S r >>= Loop.goOn rest) (r' >>= Loop.goOn rest')
      (Leads turns) := by
  refine (Within.inTurn fun start ↦ (h _).mono (fun _ ↦ id) fun _ _ he ↦ he.closeTurn).bind_to
    fun t ↦ ?_
  cases t with
  | again x => exact (hrest x).mono (fun _ hw ↦ hw.1) fun _ _ ↦ id
  | done flow => exact .pure fun w hw ↦ hw.2 flow rfl

end Run.Within

/-! ## No check fails -/

namespace Evaluator

open Run Homes

/-- Both evaluators do the same where there are homes, and the homes are kept. -/
structure KeepsHomes (ev : Evaluator (List OpenTurn)) (ev' : Evaluator Unit) : Prop where
  call {m : Bool} : Homes.logic.Callers m (ev.call []) (ev'.call ())
  runBody (body : Body) (chunk : String) (scope : Scope) (args : List Value) :
    Housed (·.Houses scope) (ev.runBody [] body chunk scope args)
      (ev'.runBody () body chunk scope args) fun _ _ ↦ True
  runBlock (turns : List OpenTurn) (a : Activation) (scope : Scope) (block : Block) :
    Within turns scope (ev.runBlock turns a scope block) (ev'.runBlock () a scope block)
      (Leads turns)
  runStats (turns : List OpenTurn) (a : Activation) (scope : Scope) (stats : List Stat) :
    Within turns scope (ev.runStats turns a scope stats) (ev'.runStats () a scope stats)
      (Leads turns)
  runStat (turns : List OpenTurn) (a : Activation) (scope : Scope) (stat : Stat) :
    Within turns scope (ev.runStat turns a scope stat) (ev'.runStat () a scope stat) (Leads turns)
  runWhile (turns : List OpenTurn) (a : Activation) (scope : Scope) (condition : Expr)
    (block : Block) :
    Within turns scope (ev.runWhile turns a scope condition block)
      (ev'.runWhile () a scope condition block) (Leads turns)
  runRepeat (turns : List OpenTurn) (a : Activation) (scope : Scope) (block : Block)
    (condition : Expr) :
    Within turns scope (ev.runRepeat turns a scope block condition)
      (ev'.runRepeat () a scope block condition) (Leads turns)
  runClauses (turns : List OpenTurn) (a : Activation) (scope : Scope) (clauses : List Clause)
    (otherwise : Option Block) :
    Within turns scope (ev.runClauses turns a scope clauses otherwise)
      (ev'.runClauses () a scope clauses otherwise) (Leads turns)
  runCount (turns : List OpenTurn) (a : Activation) (scope : Scope) (var : String)
    (i limit step : Float) (block : Block) :
    Within turns scope (ev.runCount turns a scope var i limit step block)
      (ev'.runCount () a scope var i limit step block) (Leads turns)
  runIterator (turns : List OpenTurn) (a : Activation) (scope : Scope) (names : List String)
    (iterator state control : Value) (block : Block) :
    Within turns scope (ev.runIterator turns a scope names iterator state control block)
      (ev'.runIterator () a scope names iterator state control block) (Leads turns)
  evalPlaces (turns : List OpenTurn) (a : Activation) (scope : Scope) (targets : List Expr) :
    Within turns scope (ev.evalPlaces turns a scope targets) (ev'.evalPlaces () a scope targets)
      fun _ _ ↦ True
  evalList (turns : List OpenTurn) (a : Activation) (scope : Scope) (es : List Expr) :
    Within turns scope (ev.evalList turns a scope es) (ev'.evalList () a scope es) fun _ _ ↦ True
  evalMulti (turns : List OpenTurn) (a : Activation) (scope : Scope) (e : Expr) :
    Within turns scope (ev.evalMulti turns a scope e) (ev'.evalMulti () a scope e) fun _ _ ↦ True
  eval (turns : List OpenTurn) (a : Activation) (scope : Scope) (e : Expr) :
    Within turns scope (ev.eval turns a scope e) (ev'.eval () a scope e) fun _ _ ↦ True
  evalFields (turns : List OpenTurn) (a : Activation) (scope : Scope) (t : Ref) (i : Nat)
    (fields : List Field) :
    Within turns scope (ev.evalFields turns a scope t i fields)
      (ev'.evalFields () a scope t i fields) fun _ _ ↦ True

/-- What host functions and assignments do is related, whatever turns are under way. -/
theorem duringTurns_agree (turns : List OpenTurn) :
    Logic.HooksAgree (fun _ : Unit ↦ Homes.logic) .duringTurns .plain (fun _ ↦ turns) id where
  native _ _ fuel _ _ op args hcall :=
    .native Homes.registers (hcall () _) fuel op args (fun _ _ _ ↦ trivial) (fun _ ↦ trivial)
      (fun _ ↦ trivial) fun _ ↦ trivial
  store _ _ _ _ _ := .storeRaw (fun _ _ ↦ trivial) _
  stray _ _ _ _ _ h := h

namespace KeepsHomes

variable {check : ScopeCheck}
  (hcheck : ∀ turns scope s, Session.KeepsApart turns scope s → check turns scope s)
  {abort : Abort} {fuel : Nat} {ev : Evaluator (List OpenTurn)} {ev' : Evaluator Unit}
  (hr : KeepsHomes ev ev') (turns : List OpenTurn) (a : Activation) (scope : Scope)

include hr

/-! ### Expressions -/

section Expressions

theorem evalMulti_next (e : Expr) :
    Within turns scope ((checkedNext check abort fuel ev).evalMulti turns a scope e)
      ((Hooks.plain.next fuel ev').evalMulti () a scope e) fun _ _ ↦ True := by
  dsimp only [checkedNext, Hooks.next]
  split
  · exact .done _
  · next line callee args =>
    refine (hr.eval turns a scope callee).bind fun f ↦ ?_
    refine (hr.evalList turns a scope args).bind fun vs ↦ ?_
    refine (Within.of_agree (.goToLine line)).bind fun _ ↦ ?_
    exact (Within.of_agree (.checkCallable ..)).bind fun _ ↦
      .of_agree (hr.call _ _ _)
  · next line object name args =>
    refine (hr.eval turns a scope object).bind fun o ↦ ?_
    refine (Within.of_agree (.goToLine line)).bind fun _ ↦ ?_
    refine (Within.of_agree (.getField hr.call _ _ _)).bind fun f ↦ ?_
    refine (hr.evalList turns a scope args).bind fun vs ↦ ?_
    refine (Within.of_agree (.goToLine line)).bind fun _ ↦ ?_
    exact (Within.of_agree (.checkCallable ..)).bind fun _ ↦
      .of_agree (hr.call _ _ _)
  · exact (hr.eval turns a scope e).bind fun v ↦ .done _

include hcheck in
theorem eval_next (e : Expr) :
    Within turns scope ((checkedNext check abort fuel ev).eval turns a scope e)
      ((Hooks.plain.next fuel ev').eval () a scope e) fun _ _ ↦ True := by
  refine .provided hcheck abort ?_
  cases e with
  | nil | true_ | false_ | number | string | vararg => exact .done _
  | function body => exact .close a body
  | name x => exact .of_agree (.getName hr.call _ _)
  | index line object key =>
      refine (hr.eval turns a scope object).bind fun o ↦ ?_
      refine (hr.eval turns a scope key).bind fun k ↦ ?_
      exact (Within.of_agree (.goToLine line)).bind fun _ ↦
        .of_agree (.getField hr.call _ _ _)
  | call | method => exact (hr.evalMulti turns a scope _).bind fun vs ↦ .done _
  | table fields =>
      refine (Within.of_agree (Homes.logic.mono Homes.logic.newTable
        fun _ _ ↦ trivial)).bind fun t ↦ ?_
      exact (hr.evalFields turns a scope t 1 fields).bind fun _ ↦ .done _
  | binary line op left right =>
      refine (hr.eval turns a scope left).bind fun l ↦ ?_
      have hright := hr.eval turns a scope right
      split
      · exact .done _
      · exact .done _
      · exact hright
      · exact hright
      · exact hright.bind fun r ↦ (Within.of_agree (.goToLine line)).bind fun _ ↦
          .of_agree (.binary hr.call _ _ _)
  | unary line op operand =>
      refine (hr.eval turns a scope operand).bind fun v ↦ ?_
      exact (Within.of_agree (.goToLine line)).bind fun _ ↦
        .of_agree (.unary hr.call _ _)
  | paren inner => exact hr.eval turns a scope inner

theorem evalList_next (es : List Expr) :
    Within turns scope ((checkedNext check abort fuel ev).evalList turns a scope es)
      ((Hooks.plain.next fuel ev').evalList () a scope es) fun _ _ ↦ True := by
  match es with
  | [] => exact .done _
  | [e] => exact hr.evalMulti turns a scope e
  | e :: e' :: rest =>
      refine (hr.eval turns a scope e).bind fun v ↦ ?_
      exact (hr.evalList turns a scope (e' :: rest)).bind fun vs ↦ .done _

theorem evalFields_next (t : Ref) (i : Nat) (fields : List Field) :
    Within turns scope ((checkedNext check abort fuel ev).evalFields turns a scope t i fields)
      ((Hooks.plain.next fuel ev').evalFields () a scope t i fields) fun _ _ ↦ True := by
  match fields with
  | [] => exact .done _
  | .keyed key value :: rest =>
      refine (hr.eval turns a scope key).bind fun k ↦ ?_
      refine (hr.eval turns a scope value).bind fun v ↦ ?_
      refine (Within.of_agree (.storeRaw (fun _ _ ↦ trivial) _)).bind fun _ ↦ ?_
      exact hr.evalFields turns a scope t _ rest
  | [.positional e] =>
      refine (hr.evalMulti turns a scope e).bind fun vs ↦ ?_
      exact .of_agree (.modifyTable (fun t key ↦ t.getStr_setFrom ..)
        fun t ↦ t.metatable_setFrom ..)
  | .positional e :: f :: rest =>
      refine (hr.eval turns a scope e).bind fun v ↦ ?_
      refine (Within.of_agree (.setInt ..)).bind fun _ ↦ ?_
      exact hr.evalFields turns a scope t _ (f :: rest)

include hcheck in
theorem evalPlaces_next (targets : List Expr) :
    Within turns scope ((checkedNext check abort fuel ev).evalPlaces turns a scope targets)
      ((Hooks.plain.next fuel ev').evalPlaces () a scope targets) fun _ _ ↦ True := by
  refine .provided hcheck abort ?_
  cases targets with
  | nil => exact .done _
  | cons target rest =>
      have hplaces (place : Place) := (hr.evalPlaces turns a scope rest).bind fun places ↦
        Within.done (place :: places)
      dsimp only [Hooks.next]
      split
      · exact (Within.done _).bind hplaces
      · next line object key =>
        refine (hr.eval turns a scope object).bind fun o ↦ ?_
        refine (hr.eval turns a scope key).bind fun k ↦ ?_
        exact (Within.done _).bind hplaces
      · exact (Within.of_agree (.here _)).bind hplaces

end Expressions

/-! ### Turns -/

section Turns

theorem whileTurn (condition : Expr) (block : Block) :
    Within turns scope (ev.leavingTurns.whileTurn turns a scope condition block ())
      (ev'.whileTurn () a scope condition block ()) (Ends turns) := by
  refine (hr.eval turns a scope condition).bind fun v ↦ ?_
  split
  · exact (hr.runBlock turns a scope block).bind fun flow ↦ .after () flow
  · exact .break_

theorem repeatTurn (block : Block) (condition : Expr) :
    Within turns scope (ev.leavingTurns.repeatTurn turns a scope block condition ())
      (ev'.repeatTurn () a scope block condition ()) (Ends turns) := by
  refine (hr.runStats turns a scope block).bind_to fun flow ↦ ?_
  cases flow with
  | next inner =>
      refine Housed.mono (P := fun w ↦ Inside turns scope w ∧ Inside turns inner w) ?_
        (fun w hw ↦ ⟨hw.1, hw.2 inner rfl⟩) fun _ _ ↦ id
      refine (hr.eval turns a inner condition).bind_in fun v ↦ ?_
      split
      · exact .break_
      · exact .again ()
  | leaveLoop => exact (Within.after () .leaveLoop).mono (fun w hw ↦ hw.1) fun _ _ ↦ id
  | leaveFunction values =>
      exact (Within.after () (.leaveFunction values)).mono (fun w hw ↦ hw.1) fun _ _ ↦ id

theorem countTurn (var : String) (limit step : Float) (block : Block) (i : Float) :
    Within turns scope (ev.leavingTurns.countTurn turns a scope var limit step block i)
      (ev'.countTurn () a scope var limit step block i) (Ends turns) := by
  unfold Evaluator.countTurn
  split
  · refine (Within.newCell var _).bind_to fun cell ↦ ?_
    exact (hr.runBlock turns a _ block).bind_in fun flow ↦ .after _ flow
  · exact .break_

theorem iteratorTurn (names : List String) (iterator state : Value) (block : Block)
    (control : Value) :
    Within turns scope
      (ev.leavingTurns.iteratorTurn turns a scope names iterator state block control)
      (ev'.iteratorTurn () a scope names iterator state block control) (Ends turns) := by
  refine (Within.of_agree (.checkCallable ..)).bind fun _ ↦ ?_
  refine (Within.of_agree (hr.call _ _ _)).bind fun results ↦ ?_
  split
  · exact .break_
  · refine (Within.declare names results).bind_to fun vars ↦ ?_
    exact (hr.runBlock turns a _ block).bind_in fun flow ↦ .after _ flow

end Turns

/-! ### Statements -/

section Statements

theorem runBlock_next (block : Block) :
    Within turns scope ((checkedNext check abort fuel ev).runBlock turns a scope block)
      ((Hooks.plain.next fuel ev').runBlock () a scope block) (Leads turns) := by
  refine (hr.runStats turns a scope block).bind fun flow ↦ ?_
  split
  · exact .next scope
  · next hne => exact .leave hne

theorem runStats_next (stats : List Stat) :
    Within turns scope ((checkedNext check abort fuel ev).runStats turns a scope stats)
      ((Hooks.plain.next fuel ev').runStats () a scope stats) (Leads turns) := by
  cases stats with
  | nil => exact .next scope
  | cons stat rest =>
      refine (hr.runStat turns a scope stat).bind_to fun flow ↦ ?_
      split
      · next S => exact (hr.runStats turns a S rest).mono (fun w hw ↦ hw.2 S rfl) fun _ _ ↦ id
      · next hne => exact .pure fun _ _ ↦ .of_ne hne

theorem runWhile_next (condition : Expr) (block : Block) :
    Within turns scope ((checkedNext check abort fuel ev).runWhile turns a scope condition block)
      ((Hooks.plain.next fuel ev').runWhile () a scope condition block) (Leads turns) := by
  rw [next_runWhile]
  exact .turn (fun turns ↦ hr.whileTurn turns a scope condition block)
    fun _ ↦ hr.runWhile turns a scope condition block

theorem runRepeat_next (block : Block) (condition : Expr) :
    Within turns scope ((checkedNext check abort fuel ev).runRepeat turns a scope block condition)
      ((Hooks.plain.next fuel ev').runRepeat () a scope block condition) (Leads turns) := by
  rw [next_runRepeat]
  exact .turn (fun turns ↦ hr.repeatTurn turns a scope block condition)
    fun _ ↦ hr.runRepeat turns a scope block condition

theorem runCount_next (var : String) (i limit step : Float) (block : Block) :
    Within turns scope
      ((checkedNext check abort fuel ev).runCount turns a scope var i limit step block)
      ((Hooks.plain.next fuel ev').runCount () a scope var i limit step block) (Leads turns) := by
  rw [next_runCount]
  exact .turn (fun turns ↦ hr.countTurn turns a scope var limit step block i)
    fun i ↦ hr.runCount turns a scope var i limit step block

theorem runIterator_next (names : List String) (iterator state control : Value) (block : Block) :
    Within turns scope
      ((checkedNext check abort fuel ev).runIterator turns a scope names iterator state control
        block)
      ((Hooks.plain.next fuel ev').runIterator () a scope names iterator state control block)
      (Leads turns) := by
  rw [next_runIterator _ _ _ _ _ _ fun _ ↦ rfl]
  exact .turn (fun turns ↦ hr.iteratorTurn turns a scope names iterator state block control)
    fun control ↦ hr.runIterator turns a scope names iterator state control block

theorem runClauses_next (clauses : List Clause) (otherwise : Option Block) :
    Within turns scope
      ((checkedNext check abort fuel ev).runClauses turns a scope clauses otherwise)
      ((Hooks.plain.next fuel ev').runClauses () a scope clauses otherwise) (Leads turns) := by
  match clauses with
  | [] =>
      cases otherwise with
      | none => exact .next scope
      | some block => exact hr.runBlock turns a scope block
  | .mk condition block :: rest =>
      refine (hr.eval turns a scope condition).bind fun v ↦ ?_
      split
      · exact hr.runBlock turns a scope block
      · exact hr.runClauses turns a scope rest otherwise

include hcheck in
theorem runStat_next (stat : Stat) :
    Within turns scope ((checkedNext check abort fuel ev).runStat turns a scope stat)
      ((Hooks.plain.next fuel ev').runStat () a scope stat) (Leads turns) := by
  have hcallers : Homes.logic.Callers true (ev.call []) (ev'.call ()) := hr.call
  have hstart {k k' : Unit → Run Flow} (h : Within turns scope (k ()) (k' ()) (Leads turns)) :
      Within turns scope (if 0 < stat.line then Evaluation.goToLine stat.line >>= k else k ())
        (if 0 < stat.line then Evaluation.goToLine stat.line >>= k' else k' ()) (Leads turns) := by
    split
    · exact (Within.of_agree (.goToLine _)).bind fun _ ↦ h
    · exact h
  refine .provided hcheck abort ?_
  dsimp only [Hooks.next]
  cases stat with
  | local_ line names values =>
      refine hstart ?_
      refine (hr.evalList turns a scope values).bind fun vs ↦ ?_
      exact (Within.declare names vs).bind_to fun vars ↦ .pure fun w hw ↦ hw.2.leads
  | localFunction line name body =>
      refine hstart ?_
      refine (Within.newCell name _).bind_to fun cell ↦ ?_
      refine Housed.mono (P := Inside turns ([(name, cell)] :: scope)) ?_ (fun _ hw ↦ hw.2)
        fun _ _ ↦ id
      refine (Within.close a body).bind fun f ↦ ?_
      exact (Within.of_agree (.writeCell ..)).bind fun _ ↦ .next _
  | assign line targets values =>
      refine hstart ?_
      refine (hr.evalPlaces turns a scope targets).bind fun places ↦ ?_
      refine (hr.evalList turns a scope values).bind fun vs ↦ ?_
      exact (Within.of_agree ((duringTurns_agree turns).storeAll (i := ()) hcallers _ _)).bind
        fun _ ↦ .next scope
  | call line e =>
      refine hstart ?_
      dsimp only
      split <;> exact (hr.evalMulti turns a scope e).bind fun _ ↦ .next scope
  | do_ block =>
      refine hstart ?_
      exact hr.runBlock turns a scope block
  | while_ line condition block =>
      refine hstart ?_
      exact hr.runWhile turns a scope condition block
  | repeat_ line block condition =>
      refine hstart ?_
      exact hr.runRepeat turns a scope block condition
  | if_ line clauses otherwise =>
      refine hstart ?_
      exact hr.runClauses turns a scope clauses otherwise
  | numericFor line var start limit step block =>
      refine hstart ?_
      have hnumber (what : LoopNumber) (e : Expr) {k k' : Float → Run Flow}
          (hk : ∀ n, Within turns scope (k n) (k' n) (Leads turns)) :
          Within turns scope
            (ev.eval turns a scope e >>= fun v ↦ Evaluation.loopNumber what v >>= k)
            (ev'.eval () a scope e >>= fun v ↦ Evaluation.loopNumber what v >>= k')
            (Leads turns) :=
        (hr.eval turns a scope e).bind fun v ↦ (Within.of_agree (.loopNumber what v)).bind hk
      refine hnumber .initial start fun i ↦ hnumber .limit limit fun limit ↦ ?_
      cases step with
      | none => exact hr.runCount turns a scope var _ _ _ block
      | some e => exact hnumber .step e fun step ↦ hr.runCount turns a scope var _ _ _ block
  | genericFor line names values block =>
      refine hstart ?_
      refine (hr.evalList turns a scope values).bind fun vs ↦ ?_
      exact hr.runIterator turns a scope names _ _ _ block
  | function line path method body =>
      refine hstart ?_
      refine (Within.close a body).bind fun f ↦ ?_
      have hstored : Within turns scope _ _ fun _ _ ↦ True := .of_agree
        ((duringTurns_agree turns).storeFunction (i := ()) hcallers scope f (path ++ method.toList))
      split <;> exact hstored.bind fun _ ↦ .next scope
  | return_ line values =>
      refine hstart ?_
      exact (hr.evalList turns a scope values).bind fun vs ↦ .leave fun _ h ↦ nomatch h
  | break_ line =>
      refine hstart ?_
      exact .leave fun _ h ↦ nomatch h

theorem runBody_next (body : Body) (chunk : String) (args : List Value) :
    Housed (·.Houses scope) ((checkedNext check abort fuel ev).runBody [] body chunk scope args)
      ((Hooks.plain.next fuel ev').runBody () body chunk scope args) fun _ _ ↦ True := by
  refine Housed.mono (P := Inside [] scope) ?_ (fun _ ↦ .of_houses) fun _ _ ↦ id
  refine (Within.declare body.params args).bind_to fun params ↦ ?_
  refine (hr.runBlock [] _ (params :: scope) body.block).bind_in fun flow ↦ ?_
  split <;> exact .done _

end Statements

theorem call_next {m : Bool} :
    Homes.logic.Callers m ((checkedNext check abort fuel ev).call [])
      ((Hooks.plain.next fuel ev').call ()) := by
  intro f args name
  cases f with
  | function r =>
      -- The scope of a script function is one that the homes house.
      have hfunction : Housed (fun _ ↦ True) (Heap.function? r) (Heap.function? r) fun w f? ↦
          ∀ body chunk scope, f? = some (.script body chunk scope) → w.Houses scope :=
        .elementary (fun _ ↦ ⟨rfl, rfl⟩) fun w s f? s' hs heq body chunk scope hf ↦ by
          cases heq
          exact hs.houses hf
      refine Housed.bind (fun _ _ _ ↦ id) hfunction fun f? ↦ ?_
      match f? with
      | none => exact .pure fun _ _ ↦ trivial
      | some (.native _ op) =>
          have hnative := (duringTurns_agree []).native () (m := false) fuel op args
            fun _ _ ↦ hr.call
          exact Housed.activate (Housed.mono hnative (fun _ _ ↦ trivial) fun _ _ ↦ id)
      | some (.script body chunk scope) =>
          exact Housed.activate ((hr.runBody body chunk scope args).mono
            (fun w hw ↦ hw.2 body chunk scope rfl) fun _ _ ↦ id)
  | nil | boolean | number | string | table | userdata | thread =>
      refine Logic.Agree.bind (L := Homes.logic) (m := m) (.metaField ..) fun handler ↦ ?_
      split
      · exact hr.call _ _ _
      · exact .here _

include hcheck in
theorem next : KeepsHomes (checkedNext check abort fuel ev) (Hooks.plain.next fuel ev') where
  call := hr.call_next
  runBody body chunk scope args := hr.runBody_next scope body chunk args
  runBlock := hr.runBlock_next
  runStats := hr.runStats_next
  runStat := hr.runStat_next hcheck
  runWhile := hr.runWhile_next
  runRepeat := hr.runRepeat_next
  runClauses := hr.runClauses_next
  runCount := hr.runCount_next
  runIterator := hr.runIterator_next
  evalPlaces := hr.evalPlaces_next hcheck
  evalList := hr.evalList_next
  evalMulti := hr.evalMulti_next
  eval := hr.eval_next hcheck
  evalFields := hr.evalFields_next

omit hr in
theorem spent : KeepsHomes .spent .spent := by
  constructor
  case call => exact fun _ _ _ ↦ .abort _
  all_goals intros; exact .abort _

end KeepsHomes

/-- Evaluation that checks scopes does the same as evaluation as it is, where there are homes. -/
theorem checked_keepsHomes {check : ScopeCheck}
    (hcheck : ∀ turns scope s, Session.KeepsApart turns scope s → check turns scope s)
    (abort : Abort) (fuel : Nat) :
    KeepsHomes (checked check abort fuel) (Evaluation.evaluator fuel) := by
  induction fuel with
  | zero =>
      rw [← Hooked.evaluator_plain]
      exact .spent
  | succ fuel ih =>
      rw [Evaluation.evaluator_succ]
      exact ih.next hcheck

end Evaluator

/-! ## Sessions of a host -/

/-- What a host edits are not the variables of scripts, nor the functions that have some in scope.
-/
def HostOperation.SparesVariables : HostOperation → Prop
  | .edit f => ∀ s, (f s).machine.cells.size = s.machine.cells.size ∧
      ∀ S, (f s).Captures S → S = [] ∨ s.Captures S
  | _ => True

/-- The session is one that a host comes to from a new machine. -/
inductive Session.Arises : Session → Prop where
  | initial (callLimit : Nat) (world : World) : Arises ⟨Machine.initial callLimit, world⟩
  | after {s : Session} {op : HostOperation} (fuel : Nat) :
      Arises s → op.SparesVariables → Arises ((op.run (Program.call fuel)).after s)

/-- Operations do the same if the calls that they make do. -/
theorem HostOperation.keeps_homes {call call' : Caller}
    (hcall : Homes.logic.Callers false call call') {op : HostOperation} (hop : op.SparesVariables) :
    Homes.logic.Agree false (op.run call) (op.run call') := by
  refine agree Homes.registers (fun _ _ ↦ trivial) trivial trivial trivial hcall op ?_
  rintro f rfl w s hs -
  obtain ⟨hsize, hcaptures⟩ := hop s
  refine ⟨rfl, w, .refl w, ⟨hsize.trans hs.size_eq, fun {r body chunk S} hr ↦ ?_⟩,
    fun _ _ _ ↦ trivial⟩
  rcases hcaptures S ⟨r, body, chunk, hr⟩ with rfl | ⟨r', body', chunk', hr'⟩
  · trivial
  · exact hs.houses hr'

theorem Session.Arises.covers {s : Session} (h : s.Arises) : ∃ w : Homes, w.Covers s := by
  induction h with
  | initial callLimit world =>
      exact ⟨⟨0, fun _ ↦ []⟩, rfl, fun hf ↦ by simp [Machine.initial] at hf⟩
  | after fuel _ hop ih =>
      obtain ⟨w, hw⟩ := ih
      have hcall : Homes.logic.Callers false _ (Program.call fuel) :=
        (Evaluator.checked_keepsHomes (fun _ _ _ ↦ id) .outOfFuel fuel).call
      obtain ⟨-, w', -, hw', -⟩ := HostOperation.keeps_homes hcall hop w _ hw trivial
      exact ⟨w', hw'⟩

/-- Whatever a host does, checks of scopes succeed. -/
theorem Session.Arises.outcome_checked {s : Session} (h : s.Arises) {check : ScopeCheck}
    (hcheck : ∀ turns scope s, KeepsApart turns scope s → check turns scope s) (abort : Abort)
    (fuel : Nat) {op : HostOperation} (hop : op.SparesVariables) :
    op.run ((Evaluator.checked check abort fuel).call []) s = op.run (Program.call fuel) s := by
  obtain ⟨w, hw⟩ := h.covers
  have hcall : Homes.logic.Callers false _ (Program.call fuel) :=
    (Evaluator.checked_keepsHomes hcheck abort fuel).call
  exact (HostOperation.keeps_homes hcall hop w s hw trivial).1

/-! ## Turn after turn -/

/-- No run takes variables away. -/
theorem Run.Regular.cells_le {m : Bool} {α : Type} {r : Run α} (h : Regular m r) (s : Session) :
    s.machine.cells.size ≤ (r.after s).machine.cells.size := by
  induction h generalizing s with
  | newCell v => exact (Array.size_push ..).symm ▸ Nat.le_succ _
  | writeCell r v => exact Nat.le_of_eq Array.size_setIfInBounds.symm
  | goToLine line =>
      unfold Evaluation.goToLine
      cases h : s.machine.frames <;> simp [after, modifyMachine, h]
  | bind _ _ hr hf =>
      rcases after_bind _ _ s with h | ⟨a, h⟩
      · rw [h]
        exact hr s
      · rw [h]
        exact Nat.le_trans (hr s) (hf a _)
  | @activate _ _ f r _ hr =>
      rcases after_activate f r s with h | h
      · exact Nat.le_of_eq (congrArg (·.machine.cells.size) h.symm)
      · rw [h]
        exact hr (s.mapFrames _)
  | attempt _ hr =>
      rw [after_attempt]
      exact hr s
  | protect h hr =>
      rw [h.protect_eq]
      exact hr s
  | _ => exact Nat.le_refl _

namespace Loop

variable {τ : Type} {turn : Loop τ}

end Loop

namespace Evaluation

end Evaluation

end LuaEmbed
