import LuaEmbed.Proofs.Runs.After
import LuaEmbed.Proofs.Runs.Logic.Operations
import Mathlib.Data.List.TakeDrop

/-!
# Homes of variables

A variable is declared once, with its group, on top of a scope.  The scope that begins with that
group is its home: wherever the variable stands in a scope, what the scope has from its group on is
its home.  So scopes are the branches of a tree.  Two of them that share a variable are the same
from it on.

Homes are only ever added, and the scopes of the functions in the heap stay what they are.  Runs
keep this, as a logic in which functions are not created in whatever scope.
-/

namespace LuaEmbed

/-- The variables of a group. -/
def Group.cells (g : Group) : List Ref := g.map Prod.snd

namespace Scope

/-- The variables of a scope, innermost first. -/
def cells (S : Scope) : List Ref := S.flatMap Group.cells

/-- The variable of a scope that was declared first, which stands last. -/
def first? (S : Scope) : Option Ref := S.cells.getLast?

@[simp] theorem cells_nil : cells [] = [] := rfl

@[simp] theorem cells_cons (g : Group) (S : Scope) : cells (g :: S) = g.cells ++ S.cells :=
  List.flatMap_cons

@[simp] theorem cells_append (S S' : Scope) : cells (S ++ S') = S.cells ++ S'.cells :=
  List.flatMap_append

theorem mem_cells {S : Scope} {r : Ref} (h : r ∈ S.cells) :
    ∃ G g T, S = G ++ g :: T ∧ r ∈ g.cells := by
  obtain ⟨g, hg, hr⟩ := List.mem_flatMap.1 h
  obtain ⟨G, T, rfl⟩ := List.append_of_mem hg
  exact ⟨G, g, T, rfl, hr⟩

/-- What stands further in does not matter for the variable that was declared first. -/
theorem first?_append {S S' : Scope} (h : S'.cells ≠ []) : first? (S ++ S') = S'.first? := by
  rw [first?, cells_append, List.getLast?_append, List.getLast?_eq_some_getLast h]
  exact (List.getLast?_eq_some_getLast h).symm

end Scope

/-- Where variables were declared: how many there are, and the scope that each is at home in. -/
structure Homes where
  size : Nat
  home : Ref → Scope

namespace Homes

/-- More variables are declared, and those that are there keep their homes. -/
structure Extends (w w' : Homes) : Prop where
  size_le : w.size ≤ w'.size
  home_eq {r : Ref} : r < w.size → w'.home r = w.home r

/-- Every variable of the scope is at home where it stands. -/
def Houses (w : Homes) : Scope → Prop
  | [] => True
  | g :: S => g.cells.Nodup ∧ (∀ r ∈ g.cells, r < w.size ∧ w.home r = g :: S) ∧ w.Houses S

/-- The homes are those of the variables of a session, and house the scopes of its functions. -/
structure Covers (w : Homes) (s : Session) : Prop where
  size_eq : s.machine.cells.size = w.size
  houses {f : Ref} {body : Body} {chunk : String} {S : Scope} :
    s.machine.functions[f]? = some (.script body chunk S) → w.Houses S

variable {w w' w'' : Homes} {S S' : Scope} {s s' : Session} {r : Ref}

theorem Covers.mapFrames (h : w.Covers s) (g : List Frame → List Frame) :
    w.Covers (s.mapFrames g) := ⟨h.size_eq, h.houses⟩

namespace Extends

theorem refl (w : Homes) : w.Extends w := ⟨Nat.le_refl _, fun _ ↦ rfl⟩

theorem trans (h : w.Extends w') (h' : w'.Extends w'') : w.Extends w'' where
  size_le := Nat.le_trans h.size_le h'.size_le
  home_eq hr := (h'.home_eq (Nat.lt_of_lt_of_le hr h.size_le)).trans (h.home_eq hr)

theorem houses (h : w.Extends w') (hS : w.Houses S) : w'.Houses S := by
  induction S with
  | nil => trivial
  | cons g S ih =>
      obtain ⟨hnodup, hg, hS⟩ := hS
      refine ⟨hnodup, fun r hr ↦ ?_, ih hS⟩
      obtain ⟨hlt, hhome⟩ := hg r hr
      exact ⟨Nat.lt_of_lt_of_le hlt h.size_le, (h.home_eq hlt).trans hhome⟩

end Extends

namespace Houses

theorem of_append (h : w.Houses (S ++ S')) : w.Houses S' := by
  induction S with
  | nil => exact h
  | cons g S ih => exact ih h.2.2

theorem lt (h : w.Houses S) (hr : r ∈ S.cells) : r < w.size := by
  obtain ⟨G, g, T, rfl, hg⟩ := Scope.mem_cells hr
  exact (h.of_append.2.1 r hg).1

theorem home_suffix (h : w.Houses S) (hr : r ∈ S.cells) : w.home r <:+ S := by
  obtain ⟨G, g, T, rfl, hg⟩ := Scope.mem_cells hr
  rw [(h.of_append.2.1 r hg).2]
  exact List.suffix_append ..

/-- No variable stands twice in a scope. -/
theorem nodup (h : w.Houses S) : S.cells.Nodup := by
  induction S with
  | nil => exact List.nodup_nil
  | cons g S ih =>
      rw [Scope.cells_cons, List.nodup_append]
      refine ⟨h.1, ih h.2.2, ?_⟩
      rintro r hg _ hS rfl
      -- The home of the variable would be a part of what stands behind it.
      have hlength := (home_suffix h.2.2 hS).length_le
      rw [(h.2.1 r hg).2, List.length_cons] at hlength
      exact Nat.not_succ_le_self _ hlength

/-- Two scopes on top of a third share a variable there only if the one that was declared first on
top of it is the same. -/
theorem first?_eq {B G G' : Scope} (h : w.Houses (G ++ B)) (h' : w.Houses (G' ++ B))
    (hr : r ∈ G.cells) (hr' : r ∈ Scope.cells (G' ++ B)) : G.first? = G'.first? := by
  obtain ⟨G₁, g, G₂, rfl, hg⟩ := Scope.mem_cells hr
  rw [List.append_assoc] at h
  have hhome : w.home r = (g :: G₂) ++ B := (h.of_append.2.1 r hg).2
  obtain ⟨G₃, hG₃⟩ : (g :: G₂) ++ B <:+ G' ++ B := hhome ▸ h'.home_suffix hr'
  rw [← List.append_assoc] at hG₃
  rw [← List.append_cancel_right hG₃]
  have hne : Scope.cells (g :: G₂) ≠ [] := by
    rw [Scope.cells_cons]
    exact List.ne_nil_of_mem (List.mem_append_left _ hg)
  rw [Scope.first?_append hne, Scope.first?_append hne]

end Houses

/-! ## Declaring variables -/

/-- The homes with those of a group of new variables on top of a scope. -/
def declare (w : Homes) (g : Group) (S : Scope) : Homes where
  size := w.size + g.length
  home r := if r < w.size then w.home r else g :: S

theorem extends_declare (w : Homes) (g : Group) (S : Scope) : w.Extends (w.declare g S) where
  size_le := Nat.le_add_right ..
  home_eq hr := if_pos hr

theorem houses_declare {g : Group} (hS : w.Houses S)
    (hg : g.cells = List.range' w.size g.length) : (w.declare g S).Houses (g :: S) := by
  refine ⟨hg ▸ List.nodup_range', fun r hr ↦ ?_, (w.extends_declare g S).houses hS⟩
  obtain ⟨hle, hlt⟩ := List.mem_range'_1.1 (hg ▸ hr)
  exact ⟨hlt, if_neg (Nat.not_lt.2 hle)⟩

end Homes

/-- The session with more variables. -/
def Session.withCells (s : Session) (vs : List Value) : Session :=
  { s with machine := { s.machine with cells := s.machine.cells ++ vs.toArray } }

namespace Evaluation

/-- Variables that are declared together are new, one after the other, and get as many values as
there are names. -/
theorem declare_eq (names : List String) (vs : List Value) (s : Session) :
    declare names vs s = .ok (names.zip (List.range' s.machine.cells.size names.length))
      (s.withCells (vs.takeD names.length .nil)) := by
  induction names generalizing vs s with
  | nil =>
      change EStateM.Result.ok _ s = .ok _ (s.withCells [])
      simp [Session.withCells]
  | cons x xs ih =>
      have hrest := ih vs.tail (s.withCells [vs.headD .nil])
      have hsize : (s.withCells [vs.headD .nil]).machine.cells.size = s.machine.cells.size + 1 :=
        Array.size_append ..
      have hcells : (s.withCells [vs.headD .nil]).withCells (vs.tail.takeD xs.length .nil) =
          s.withCells (vs.headD .nil :: vs.tail.takeD xs.length .nil) := by
        simp [Session.withCells]
      rw [hsize, hcells] at hrest
      have hnew : Heap.newCell (vs.headD .nil) s =
          .ok s.machine.cells.size (s.withCells [vs.headD .nil]) := by
        simp [Heap.newCell, Session.withCells]
      exact (Run.bind_of_ok hnew).trans (Run.bind_of_ok hrest)

theorem cells_declared (names : List String) (n : Nat) :
    Group.cells (names.zip (List.range' n names.length)) = List.range' n names.length :=
  List.map_snd_zip (Nat.le_of_eq List.length_range')

end Evaluation

/-! ## Runs -/

/-- Where the homes of a session have a property, both runs do the same, and end in a session with
homes for more variables, where results have a property. -/
def Run.Housed {α : Type} (P : Homes → Prop) (r r' : Run α) (Q : Homes → α → Prop) : Prop :=
  ∀ w s, w.Covers s → P w → r s = r' s ∧
    ∃ w', w.Extends w' ∧ w'.Covers (r'.after s) ∧ ∀ a s', r' s = .ok a s' → Q w' a

namespace Run.Housed

variable {α β : Type} {P P' : Homes → Prop} {r r' : Run α} {Q Q' : Homes → α → Prop}

theorem mono (h : Housed P r r' Q) (hP : ∀ w, P' w → P w) (hQ : ∀ w a, Q w a → Q' w a) :
    Housed P' r r' Q' := fun w s hs hw ↦
  let ⟨heq, w', hext, hcovers, hresult⟩ := h w s hs (hP w hw)
  ⟨heq, w', hext, hcovers, fun a s' ha ↦ hQ w' a (hresult a s' ha)⟩

theorem pure {a : α} (h : ∀ w, P w → Q w a) : Housed P (Pure.pure a) (Pure.pure a) Q :=
  fun w _ hs hw ↦ ⟨rfl, w, .refl w, hs, fun _ _ ha ↦ by cases ha; exact h w hw⟩

theorem abort (e : Abort) : Housed P (throw e : Run α) (throw e) Q :=
  fun w _ hs _ ↦ ⟨rfl, w, .refl w, hs, fun _ _ ha ↦ by cases ha⟩

theorem bind {f f' : α → Run β} {R : Homes → β → Prop}
    (hP : ∀ ⦃w w' : Homes⦄, w.Extends w' → P w → P w') (h : Housed P r r' Q)
    (hf : ∀ a, Housed (fun w ↦ P w ∧ Q w a) (f a) (f' a) R) :
    Housed P (r >>= f) (r' >>= f') R := by
  intro w s hs hw
  obtain ⟨heq, w₁, hext, hcovers, hresult⟩ := h w s hs hw
  cases hr : r' s with
  | ok a s₁ =>
      rw [after_of_ok hr] at hcovers
      obtain ⟨heq', w₂, hext', hcovers', hresult'⟩ :=
        hf a w₁ s₁ hcovers ⟨hP hext hw, hresult a s₁ hr⟩
      have hbind : (r' >>= f') s = f' a s₁ := bind_of_ok hr
      rw [bind_of_ok (heq.trans hr), hbind, after, hbind]
      exact ⟨heq', w₂, hext.trans hext', hcovers', hresult'⟩
  | error e s₁ =>
      have hbind : (r' >>= f') s = .error e s₁ := bind_of_error hr
      rw [bind_of_error (heq.trans hr), hbind, after_of_error hbind]
      rw [after_of_error hr] at hcovers
      exact ⟨rfl, w₁, hext, hcovers, fun _ _ hb ↦ nomatch hb⟩

/-- A run that neither declares variables nor creates functions. -/
theorem elementary
    (h : ∀ s, (r.after s).machine.cells.size = s.machine.cells.size ∧
      (r.after s).machine.functions = s.machine.functions)
    (hQ : ∀ w s a s', w.Covers s → r s = .ok a s' → Q w a) : Housed P r r Q := fun w s hs _ ↦
  ⟨rfl, w, .refl w, ⟨(h s).1.trans hs.size_eq, fun hf ↦ hs.houses ((h s).2 ▸ hf)⟩,
    fun a s' ha ↦ hQ w s a s' hs ha⟩

/-- A new function is created in a scope that the homes house, if it is one of a script. -/
theorem newFunction {f : Function}
    (hf : ∀ w body chunk S, P w → f = .script body chunk S → w.Houses S) :
    Housed P (Heap.newFunction f) (Heap.newFunction f) fun _ _ ↦ True := by
  intro w s hs hw
  refine ⟨rfl, w, .refl w, ⟨hs.size_eq, fun {r body chunk S} hr ↦ ?_⟩, fun _ _ _ ↦ trivial⟩
  change (s.machine.functions.push f)[r]? = some (.script body chunk S) at hr
  rw [Array.getElem?_push] at hr
  split at hr
  · exact hf w body chunk S hw (Option.some.inj hr)
  · exact hs.houses hr

/-- A new variable is at home in a group of its own on top of a scope. -/
theorem newCell (x : String) (S : Scope) (v : Value) :
    Housed P (Heap.newCell v) (Heap.newCell v) fun w' cell ↦
      ∃ w, P w ∧ cell = w.size ∧ w' = w.declare [(x, cell)] S := by
  intro w s hs hw
  refine ⟨rfl, w.declare [(x, s.machine.cells.size)] S, w.extends_declare .., ⟨?_, fun hf ↦ ?_⟩,
    fun cell s' hcell ↦ ?_⟩
  · exact (Array.size_push ..).trans (congrArg (· + 1) hs.size_eq)
  · exact (w.extends_declare ..).houses (hs.houses hf)
  · cases hcell
    exact ⟨w, hw, hs.size_eq, rfl⟩

theorem activate {f : Frame} (h : Housed P r r' Q) :
    Housed P (Run.activate f r) (Run.activate f r') Q := by
  intro w s hs hw
  unfold Run.activate Run.after
  dsimp only
  by_cases hfull : s.machine.callLimit ≤ s.machine.frames.length
  · rw [if_pos hfull, if_pos hfull]
    exact ⟨rfl, w, .refl w, hs, fun _ _ ha ↦ nomatch ha⟩
  · rw [if_neg hfull, if_neg hfull]
    obtain ⟨heq, w', hext, hcovers, hresult⟩ := h w _ (hs.mapFrames (f :: ·)) hw
    rw [heq]
    cases hr : r' (s.mapFrames (f :: ·)) with
    | ok a s' =>
        rw [after_of_ok hr] at hcovers
        refine ⟨rfl, w', hext, hcovers.mapFrames _, fun _ _ ha ↦ ?_⟩
        cases ha
        exact hresult a s' hr
    | error e s' =>
        rw [after_of_error hr] at hcovers
        exact ⟨rfl, w', hext, hcovers.mapFrames _, fun _ _ ha ↦ nomatch ha⟩

theorem attempt (h : Housed P r r' Q) :
    Housed P (Run.attempt r) (Run.attempt r') fun _ _ ↦ True := by
  intro w s hs hw
  obtain ⟨heq, w', hext, hcovers, -⟩ := h w s hs hw
  refine ⟨?_, w', hext, (after_attempt r' s).symm ▸ hcovers, fun _ _ _ ↦ trivial⟩
  unfold Run.attempt
  rw [heq]

theorem protect (h : Housed P r r' Q) : Housed P (Run.protect r) (Run.protect r') Q := by
  intro w s hs hw
  obtain ⟨heq, w', hext, hcovers, hresult⟩ := h w s hs hw
  unfold Run.protect Run.after
  dsimp only
  rw [heq]
  cases hr : r' s with
  | ok a s' =>
      rw [after_of_ok hr] at hcovers
      refine ⟨rfl, w', hext, hcovers, fun _ _ ha ↦ ?_⟩
      cases ha
      exact hresult a s' hr
  | error e s' =>
      rw [after_of_error hr] at hcovers
      cases e with
      | fault f => exact ⟨rfl, w', hext, hcovers.mapFrames _, fun _ _ ha ↦ nomatch ha⟩
      | exit code => exact ⟨rfl, w', hext, hcovers, fun _ _ ha ↦ nomatch ha⟩
      | outOfFuel => exact ⟨rfl, w', hext, hcovers, fun _ _ ha ↦ nomatch ha⟩

end Run.Housed

namespace Homes

open Run (Housed)

/-- To do the same where there are homes, and to keep them, is a logic of runs, in which functions
are created in the scope of a chunk only. -/
def logic : Run.Logic where
  Rel _ {_} r r' P := Housed (fun _ ↦ True) r r' fun _ a ↦ P a
  Strict := False
  Writes _ _ := True
  Attaches := True
  Shares := True
  Catches := True
  Captures := False
  pure h := .pure fun _ _ ↦ h
  abort := .abort
  bind h hf := .bind (fun _ _ _ _ ↦ trivial) h fun a ↦ by
    intro w s hs hw
    exact hf a hw.2 w s hs trivial
  machine _ := .elementary (fun _ ↦ ⟨rfl, rfl⟩) fun _ _ _ _ _ _ ↦ trivial
  function? _ := .elementary (fun _ ↦ ⟨rfl, rfl⟩) fun _ _ _ _ _ _ _ _ _ _ ↦ False.elim
  files _ := .elementary (fun _ ↦ ⟨rfl, rfl⟩) fun _ _ _ _ _ _ ↦ trivial
  print _ := .elementary (fun _ ↦ ⟨rfl, rfl⟩) fun _ _ _ _ _ _ ↦ trivial
  world _ _ := .elementary (fun _ ↦ ⟨rfl, rfl⟩) fun _ _ _ _ _ _ ↦ trivial
  modifyWorld _ _ := .elementary (fun _ ↦ ⟨rfl, rfl⟩) fun _ _ _ _ _ _ ↦ trivial
  newTable := .elementary (fun _ ↦ ⟨rfl, rfl⟩) fun _ _ _ _ _ _ _ ↦ trivial
  newNative _ _ := .newFunction fun _ _ _ _ _ h ↦ nomatch h
  newScript _ hc _ := .newFunction fun _ _ _ _ _ h ↦ by
    cases h
    rcases hc with rfl | hc
    · trivial
    · exact hc.elim
  newUserdata _ := .elementary (fun _ ↦ ⟨rfl, rfl⟩) fun _ _ _ _ _ _ ↦ trivial
  newCell v := (Housed.newCell "" [] v).mono (fun _ h ↦ h) fun _ _ _ ↦ trivial
  writeCell r v := .elementary (fun s ↦ ⟨Array.size_setIfInBounds .., rfl⟩) fun _ _ _ _ _ _ ↦
    trivial
  modifyTable _ _ := .elementary (fun _ ↦ ⟨rfl, rfl⟩) fun _ _ _ _ _ _ ↦ trivial
  modifyUserdata _ _ := .elementary (fun _ ↦ ⟨rfl, rfl⟩) fun _ _ _ _ _ _ ↦ trivial
  setInput _ := .elementary (fun _ ↦ ⟨rfl, rfl⟩) fun _ _ _ _ _ _ ↦ trivial
  setStringMetatable _ := .elementary (fun _ ↦ ⟨rfl, rfl⟩) fun _ _ _ _ _ _ ↦ trivial
  goToLine line := by
    refine .elementary (fun s ↦ ?_) fun _ _ _ _ _ _ ↦ trivial
    unfold Evaluation.goToLine
    cases h : s.machine.frames <;> simp [Run.after, Run.modifyMachine, h]
  activate := .activate
  attempt _ h := h.attempt
  protect := .protect

theorem registers : logic.Registers := Run.Logic.Agree.registers fun _ _ ↦ trivial

end Homes

end LuaEmbed
