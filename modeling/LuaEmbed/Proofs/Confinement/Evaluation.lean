import LuaEmbed.Proofs.Confinement.Libraries

/-!
# Evaluation does not get hold of tables

Whatever a script does from where nothing refers to a table, with values that are none, it does not
get hold of that table.  This carries from a bound on the depth of the recursion to the next one,
with one lemma for each function that evaluation consists of.
-/

namespace LuaEmbed.Run.Confined

open Evaluation
open Refers (avoids)

variable {r : Ref}

/-! ## Names, fields and operators -/

theorem goToLine (line : Nat) : Confined r (Evaluation.goToLine line) := ConfinedTo.goToLine line

theorem close (a : Activation) (scope : Scope) (body : Body) :
    Confined r (Evaluation.close a scope body) :=
  ConfinedTo.newFunction _ fun _ ↦ nofun

theorem declare (names : List String) {vs : List Value} (hvs : avoids r vs) :
    Confined r (Evaluation.declare names vs) := by
  induction names generalizing vs with
  | nil => exact pure nofun
  | cons x xs ih =>
      refine (newCell (Refers.avoids_headD hvs)).bind fun cell _ ↦ ?_
      exact (ih (Refers.avoids_tail hvs)).bind fun _ _ ↦ pure fun _ _ ↦ ⟨trivial, trivial⟩

theorem isIndexable {v : Value} (hv : avoids r v) (event : String) :
    Confined r (Evaluation.isIndexable v event) := by
  unfold Evaluation.isIndexable
  split
  · exact pure trivial
  · exact (field hv event).bind fun _ _ ↦ pure trivial

theorem checkCallable (what : Option Described) {f : Value} (hf : avoids r f) :
    Confined r (Evaluation.checkCallable what f) := by
  refine (isCallable hf).bind fun callable _ ↦ ?_
  split
  · apply here
  · exact pure trivial

theorem loopNumber (what : LoopNumber) (v : Value) : Confined r (Evaluation.loopNumber what v) := by
  unfold Evaluation.loopNumber
  split
  · exact pure trivial
  · apply here

theorem placeOfName (scope : Scope) (name : String) :
    avoids r (Evaluation.placeOfName scope name) := by
  unfold Evaluation.placeOfName
  split <;> exact trivial

section Callers

variable {call : LuaEmbed.Caller} (hcall : Caller r call) {v key value : Value}

include hcall

theorem getField (what : Option Described) (hv : avoids r v) (hkey : avoids r key) :
    Confined r (Evaluation.getField call what v key) := by
  refine (isIndexable hv _).bind fun indexable _ ↦ ?_
  split
  · exact index hcall hv hkey
  · apply here

theorem setField (what : Option Described) (hv : avoids r v) (hkey : avoids r key)
    (hvalue : avoids r value) : Confined r (Evaluation.setField call what v key value) := by
  refine (isIndexable hv _).bind fun indexable _ ↦ ?_
  split
  · exact setIndex hcall hv hkey hvalue
  · apply here

theorem getName (scope : Scope) (name : String) :
    Confined r (Evaluation.getName call scope name) := by
  unfold Evaluation.getName
  split
  · apply readCell
  · exact ConfinedTo.bind globals fun _ h ↦ index hcall (Refers.avoids_table.2 h) nofun

theorem storeAt (hvalue : avoids r value) {p : Place} (hp : avoids r p) :
    Confined r (Evaluation.store call value p) := by
  cases p with
  | variable_ cell => exact writeCell cell hvalue
  | global name =>
      exact ConfinedTo.bind globals fun _ h ↦ setIndex hcall (Refers.avoids_table.2 h) nofun hvalue
  | field object key what => exact setField hcall what hp.1 hp.2 hvalue

theorem storeAll {places : List Place} (hplaces : avoids r places) {vs : List Value}
    (hvs : avoids r vs) : Confined r (Evaluation.storeAll call places vs) := by
  induction places generalizing vs with
  | nil => exact pure trivial
  | cons p ps ih =>
      obtain ⟨hp, hps⟩ := Refers.avoids_cons.1 hplaces
      exact (storeAt hcall (Refers.avoids_headD hvs) hp).bind fun _ _ ↦
        ih hps (Refers.avoids_tail hvs)

/-- Following names leads to a value, which is not the table. -/
theorem followPath (what : Described) (hv : avoids r v) (key : String) (keys : List String) :
    Confined r (Evaluation.followPath call what v key keys) := by
  induction keys generalizing what v key with
  | nil => exact pure ⟨hv, trivial, trivial⟩
  | cons next rest ih =>
      exact (getField hcall _ hv (Refers.avoids_string _)).bind fun v hv ↦ ih _ hv _

theorem storeFunction (scope : Scope) {f : Value} (hf : avoids r f) (path : List String) :
    Confined r (Evaluation.storeFunction call scope f path) := by
  unfold Evaluation.storeFunction
  split
  · exact pure trivial
  · exact storeAt hcall hf (placeOfName ..)
  · refine (getName hcall ..).bind fun v hv ↦ (followPath hcall _ hv ..).bind fun last hlast ↦ ?_
    exact setField hcall _ hlast.1 nofun hf

theorem binary (op : BinaryOp) {a b : Value} (ha : avoids r a) (hb : avoids r b) :
    Confined r (Evaluation.binary call op a b) := by
  cases op with
  | add | sub | mul | div | mod | pow => exact arithmetic hcall _ ha hb
  | concat => exact concat hcall ha hb
  | eq | ne => exact (equals hcall ha hb).bind fun _ _ ↦ pure nofun
  | lt => exact (lessThan hcall ha hb).bind fun _ _ ↦ pure nofun
  | gt => exact (lessThan hcall hb ha).bind fun _ _ ↦ pure nofun
  | le => exact (lessEqual hcall ha hb).bind fun _ _ ↦ pure nofun
  | ge => exact (lessEqual hcall hb ha).bind fun _ _ ↦ pure nofun
  | and => exact pure (Refers.avoids_ite hb ha)
  | or => exact pure (Refers.avoids_ite ha hb)

theorem unary (op : UnaryOp) (hv : avoids r v) : Confined r (Evaluation.unary call op v) := by
  cases op with
  | neg => exact negate hcall hv
  | not => exact pure nofun
  | len => exact lengthOf hcall hv

end Callers

/-! ## Calls, statements and expressions -/

/-- Evaluation with a bound does not get hold of a table. -/
structure Evaluates (r : Ref) (fuel : Nat) : Prop where
  call : Caller r (Evaluation.call fuel)
  runBody (body : Body) (chunk : String) (scope : Scope) {args : List Value} :
    avoids r args → Confined r (runBody fuel body chunk scope args)
  runBlock {a : Activation} (scope : Scope) (block : Block) :
    avoids r a.varargs → Confined r (runBlock fuel a scope block)
  runStats {a : Activation} (scope : Scope) (stats : List Stat) :
    avoids r a.varargs → Confined r (runStats fuel a scope stats)
  runStat {a : Activation} (scope : Scope) (stat : Stat) :
    avoids r a.varargs → Confined r (runStat fuel a scope stat)
  runWhile {a : Activation} (scope : Scope) (condition : Expr) (block : Block) :
    avoids r a.varargs → Confined r (runWhile fuel a scope condition block)
  runRepeat {a : Activation} (scope : Scope) (block : Block) (condition : Expr) :
    avoids r a.varargs → Confined r (runRepeat fuel a scope block condition)
  runClauses {a : Activation} (scope : Scope) (clauses : List Clause) (otherwise : Option Block) :
    avoids r a.varargs → Confined r (runClauses fuel a scope clauses otherwise)
  runCount {a : Activation} (scope : Scope) (var : String) (i limit step : Float) (block : Block) :
    avoids r a.varargs → Confined r (runCount fuel a scope var i limit step block)
  runIterator {a : Activation} (scope : Scope) (names : List String)
    {iterator state control : Value} (block : Block) :
    avoids r a.varargs → avoids r iterator → avoids r state → avoids r control →
    Confined r (runIterator fuel a scope names iterator state control block)
  evalPlaces {a : Activation} (scope : Scope) (targets : List Expr) :
    avoids r a.varargs → Confined r (evalPlaces fuel a scope targets)
  evalList {a : Activation} (scope : Scope) (es : List Expr) :
    avoids r a.varargs → Confined r (evalList fuel a scope es)
  evalMulti {a : Activation} (scope : Scope) (e : Expr) :
    avoids r a.varargs → Confined r (evalMulti fuel a scope e)
  eval {a : Activation} (scope : Scope) (e : Expr) :
    avoids r a.varargs → Confined r (eval fuel a scope e)
  evalFields {a : Activation} (scope : Scope) {t : Ref} (i : Nat) (fields : List Field) :
    avoids r a.varargs → t ≠ r → Confined r (evalFields fuel a scope t i fields)

namespace Evaluates

variable {fuel : Nat} {a : Activation} (h : Evaluates r fuel) (ha : avoids r a.varargs)
  (scope : Scope)

theorem spent : Evaluates r 0 := by
  constructor <;> intros <;> first | exact outOfFuel | exact fun _ _ _ _ _ ↦ outOfFuel

include h

/-! ### Expressions -/

section Expressions

include ha

theorem evalList_succ (es : List Expr) :
    Confined r (Evaluation.evalList (fuel + 1) a scope es) := by
  unfold Evaluation.evalList
  split
  · exact pure nofun
  · exact h.evalMulti scope _ ha
  · refine (h.eval scope _ ha).bind fun v hv ↦ (h.evalList scope _ ha).bind fun vs hvs ↦ ?_
    exact pure (Refers.avoids_cons.2 ⟨hv, hvs⟩)

theorem evalMulti_succ (e : Expr) : Confined r (Evaluation.evalMulti (fuel + 1) a scope e) := by
  unfold Evaluation.evalMulti
  split
  · exact pure ha
  · refine (h.eval scope _ ha).bind fun f hf ↦ (h.evalList scope _ ha).bind fun vs hvs ↦ ?_
    exact (goToLine _).bind fun _ _ ↦ (checkCallable _ hf).bind fun _ _ ↦ h.call _ _ _ hf hvs
  · refine (h.eval scope _ ha).bind fun o ho ↦ (goToLine _).bind fun _ _ ↦ ?_
    refine (getField h.call _ ho (Refers.avoids_string _)).bind fun f hf ↦ ?_
    refine (h.evalList scope _ ha).bind fun vs hvs ↦ ?_
    refine (goToLine _).bind fun _ _ ↦ (checkCallable _ hf).bind fun _ _ ↦ ?_
    exact h.call _ _ _ hf (Refers.avoids_cons.2 ⟨ho, hvs⟩)
  · exact (h.eval scope _ ha).bind fun v hv ↦ pure (Refers.avoids_singleton.2 hv)

theorem eval_succ (e : Expr) : Confined r (Evaluation.eval (fuel + 1) a scope e) := by
  cases e with
  | nil | true_ | false_ | number | string => exact pure nofun
  | vararg => exact pure (Refers.avoids_headD ha)
  | function body => apply close
  | name x => exact getName h.call ..
  | index line object key =>
      refine (h.eval scope _ ha).bind fun o ho ↦ (h.eval scope _ ha).bind fun k hk ↦ ?_
      exact (goToLine _).bind fun _ _ ↦ getField h.call _ ho hk
  | call | method =>
      exact (h.evalMulti scope _ ha).bind fun vs hvs ↦ pure (Refers.avoids_headD hvs)
  | table fields =>
      refine newTable_bind fun t ht ↦ (h.evalFields scope _ _ ha ht).bind fun _ _ ↦ ?_
      exact pure (Refers.avoids_table.2 ht)
  | binary line op left right =>
      have hright := h.eval scope right ha
      refine (h.eval scope _ ha).bind fun l hl ↦ ?_
      split
      · exact pure hl
      · exact pure hl
      · exact hright
      · exact hright
      · exact hright.bind fun v hv ↦ (goToLine _).bind fun _ _ ↦ binary h.call _ hl hv
  | unary line op operand =>
      refine (h.eval scope _ ha).bind fun v hv ↦ ?_
      exact (goToLine _).bind fun _ _ ↦ unary h.call _ hv
  | paren inner => exact h.eval scope _ ha

theorem evalFields_succ {t : Ref} (ht : t ≠ r) (i : Nat) (fields : List Field) :
    Confined r (Evaluation.evalFields (fuel + 1) a scope t i fields) := by
  unfold Evaluation.evalFields
  split
  · exact pure trivial
  · refine (h.eval scope _ ha).bind fun k hk ↦ (h.eval scope _ ha).bind fun v hv ↦ ?_
    exact (store ht hk hv).bind fun _ _ ↦ h.evalFields scope _ _ ha ht
  · refine (h.evalMulti scope _ ha).bind fun vs hvs ↦ ?_
    exact modifyTable ht fun _ ht ↦ Table.avoids_setFrom ht hvs _
  · refine (h.eval scope _ ha).bind fun v hv ↦ (setInt ht _ hv).bind fun _ _ ↦ ?_
    exact h.evalFields scope _ _ ha ht

theorem evalPlaces_succ (targets : List Expr) :
    Confined r (Evaluation.evalPlaces (fuel + 1) a scope targets) := by
  unfold Evaluation.evalPlaces
  split
  · exact pure nofun
  · have hrest (rest : List Expr) (place : Place) (hplace : avoids r place) :
        Confined r (do return place :: (← Evaluation.evalPlaces fuel a scope rest)) :=
      (h.evalPlaces scope rest ha).bind fun _ hplaces ↦
        pure (Refers.avoids_cons.2 ⟨hplace, hplaces⟩)
    split
    · exact (pure (placeOfName ..)).bind (hrest _)
    · refine (h.eval scope _ ha).bind fun o ho ↦ (h.eval scope _ ha).bind fun k hk ↦ ?_
      rw [pure_bind]
      exact hrest _ _ ⟨ho, hk⟩
    · exact (here _).bind (hrest _)

end Expressions

/-! ### Statements -/

section Statements

include ha

theorem runBlock_succ (block : Block) :
    Confined r (Evaluation.runBlock (fuel + 1) a scope block) := by
  refine (h.runStats scope _ ha).bind fun flow hflow ↦ ?_
  split
  · exact pure trivial
  · exact pure hflow

theorem runStats_succ (stats : List Stat) :
    Confined r (Evaluation.runStats (fuel + 1) a scope stats) := by
  cases stats with
  | nil => exact pure trivial
  | cons stat rest =>
      refine (h.runStat scope _ ha).bind fun flow hflow ↦ ?_
      split
      · exact h.runStats _ _ ha
      · exact pure hflow

theorem runWhile_succ (condition : Expr) (block : Block) :
    Confined r (Evaluation.runWhile (fuel + 1) a scope condition block) := by
  refine (h.eval scope _ ha).bind fun v _ ↦ ?_
  split
  · refine (h.runBlock scope _ ha).bind fun flow hflow ↦ ?_
    split
    · exact h.runWhile scope _ _ ha
    · exact pure trivial
    · exact pure hflow
  · exact pure trivial

theorem runRepeat_succ (block : Block) (condition : Expr) :
    Confined r (Evaluation.runRepeat (fuel + 1) a scope block condition) := by
  refine (h.runStats scope _ ha).bind fun flow hflow ↦ ?_
  split
  · refine (h.eval _ _ ha).bind fun v _ ↦ ?_
    split
    · exact pure trivial
    · exact h.runRepeat scope _ _ ha
  · exact pure trivial
  · exact pure hflow

theorem runClauses_succ (clauses : List Clause) (otherwise : Option Block) :
    Confined r (Evaluation.runClauses (fuel + 1) a scope clauses otherwise) := by
  match clauses with
  | [] =>
      cases otherwise with
      | none => exact pure trivial
      | some block => exact h.runBlock scope _ ha
  | .mk condition block :: rest =>
      refine (h.eval scope _ ha).bind fun v _ ↦ ?_
      split
      · exact h.runBlock scope _ ha
      · exact h.runClauses scope _ _ ha

theorem runCount_succ (var : String) (i limit step : Float) (block : Block) :
    Confined r (Evaluation.runCount (fuel + 1) a scope var i limit step block) := by
  unfold Evaluation.runCount
  split
  · refine (newCell (by exact nofun)).bind fun cell _ ↦ (h.runBlock _ _ ha).bind fun flow hflow ↦ ?_
    split
    · exact h.runCount scope _ _ _ _ _ ha
    · exact pure trivial
    · exact pure hflow
  · exact pure trivial

theorem runIterator_succ (names : List String) {iterator state control : Value} (block : Block)
    (hiterator : avoids r iterator) (hstate : avoids r state) (hcontrol : avoids r control) :
    Confined r
      (Evaluation.runIterator (fuel + 1) a scope names iterator state control block) := by
  have hargs : avoids r [state, control] := Refers.avoids_doubleton.2 ⟨hstate, hcontrol⟩
  refine (checkCallable _ hiterator).bind fun _ _ ↦ ?_
  refine (h.call _ _ _ hiterator hargs).bind fun results hresults ↦ ?_
  dsimp only
  split
  · exact pure trivial
  · refine (declare names hresults).bind fun vars _ ↦ (h.runBlock _ _ ha).bind fun flow hflow ↦ ?_
    split
    · exact h.runIterator scope _ _ ha hiterator hstate (Refers.avoids_headD hresults)
    · exact pure trivial
    · exact pure hflow

theorem runStat_succ (stat : Stat) : Confined r (Evaluation.runStat (fuel + 1) a scope stat) := by
  unfold Evaluation.runStat
  refine whenFirst (goToLine _) fun _ ↦ ?_
  cases stat with
  | local_ line names values =>
      refine (h.evalList scope _ ha).bind fun vs hvs ↦ ?_
      exact (declare names hvs).bind fun _ _ ↦ pure trivial
  | localFunction line name body =>
      refine (newCell (by exact nofun)).bind fun cell _ ↦ (close ..).bind fun f hf ↦ ?_
      exact (writeCell cell hf).bind fun _ _ ↦ pure trivial
  | assign line targets values =>
      refine (h.evalPlaces scope _ ha).bind fun places hplaces ↦ ?_
      refine (h.evalList scope _ ha).bind fun vs hvs ↦ ?_
      exact (storeAll h.call hplaces hvs).bind fun _ _ ↦ pure trivial
  | call line e => exact (h.evalMulti scope _ ha).bind fun _ _ ↦ pure trivial
  | do_ block => exact h.runBlock scope _ ha
  | while_ line condition block => exact h.runWhile scope _ _ ha
  | repeat_ line block condition => exact h.runRepeat scope _ _ ha
  | if_ line clauses otherwise => exact h.runClauses scope _ _ ha
  | numericFor line var start limit step block =>
      refine (h.eval scope _ ha).bind fun v _ ↦ (loopNumber ..).bind fun i _ ↦ ?_
      refine (h.eval scope _ ha).bind fun v _ ↦ (loopNumber ..).bind fun limit _ ↦ ?_
      cases step with
      | none =>
          exact (pure (a := (1 : Float)) trivial).bind fun step _ ↦ h.runCount scope _ _ _ _ _ ha
      | some e =>
          refine (h.eval scope _ ha).bind fun v _ ↦ (loopNumber ..).bind fun step _ ↦ ?_
          exact h.runCount scope _ _ _ _ _ ha
  | genericFor line names values block =>
      refine (h.evalList scope _ ha).bind fun vs hvs ↦ ?_
      have hrest := Refers.avoids_tail hvs
      exact h.runIterator scope _ _ ha (Refers.avoids_headD hvs) (Refers.avoids_headD hrest)
        (Refers.avoids_headD (Refers.avoids_tail hrest))
  | function line path method body =>
      refine (close ..).bind fun f hf ↦ (storeFunction h.call scope hf _).bind fun _ _ ↦ ?_
      exact pure trivial
  | return_ line values => exact (h.evalList scope _ ha).bind fun vs hvs ↦ pure hvs
  | break_ line => exact pure trivial

end Statements

theorem runBody_succ (body : Body) (chunk : String) {args : List Value} (hargs : avoids r args) :
    Confined r (Evaluation.runBody (fuel + 1) body chunk scope args) := by
  refine (declare body.params hargs).bind fun params _ ↦ ?_
  have hvarargs : avoids r (if body.isVararg then args.drop body.params.length else []) :=
    Refers.avoids_ite (Refers.avoids_drop _ hargs) (by grind)
  refine (h.runBlock (a := ⟨chunk, _⟩) _ _ hvarargs).bind fun flow hflow ↦ ?_
  split
  · exact pure hflow
  · exact pure (by grind)

theorem call_succ : Caller r (Evaluation.call (fuel + 1)) := by
  intro f args name hf hargs
  cases f with
  | function q =>
      refine (function? q).bind fun f? _ ↦ ?_
      split
      · exact ConfinedTo.activate (native h.call hargs ..)
      · exact ConfinedTo.activate (h.runBody _ _ _ hargs)
      · exact pure (by grind)
  | _ =>
      refine (field hf _).bind fun handler hhandler ↦ ?_
      split
      · exact h.call _ _ _ hhandler (Refers.avoids_cons.2 ⟨hf, hargs⟩)
      · apply here

/-- This carries to the next bound. -/
theorem succ : Evaluates r (fuel + 1) where
  call := h.call_succ
  runBody body chunk scope _ := h.runBody_succ scope body chunk
  runBlock scope block ha := h.runBlock_succ ha scope block
  runStats scope stats ha := h.runStats_succ ha scope stats
  runStat scope stat ha := h.runStat_succ ha scope stat
  runWhile scope condition block ha := h.runWhile_succ ha scope condition block
  runRepeat scope block condition ha := h.runRepeat_succ ha scope block condition
  runClauses scope clauses otherwise ha := h.runClauses_succ ha scope clauses otherwise
  runCount scope var i limit step block ha := h.runCount_succ ha scope var i limit step block
  runIterator scope names _ _ _ block ha := h.runIterator_succ ha scope names block
  evalPlaces scope targets ha := h.evalPlaces_succ ha scope targets
  evalList scope es ha := h.evalList_succ ha scope es
  evalMulti scope e ha := h.evalMulti_succ ha scope e
  eval scope e ha := h.eval_succ ha scope e
  evalFields scope _ i fields ha ht := h.evalFields_succ ha scope ht i fields

end Evaluates

/-- With any bound, evaluation does not get hold of a table that nothing refers to. -/
theorem evaluates (r : Ref) (fuel : Nat) : Evaluates r fuel := by
  induction fuel with
  | zero => exact .spent
  | succ fuel ih => exact ih.succ

end LuaEmbed.Run.Confined
