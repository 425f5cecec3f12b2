import LuaEmbed.Evaluation
import LuaEmbed.Proofs.Runs.After
import LuaEmbed.Proofs.Runs.Logic.Operations

/-!
# Tables that nothing refers to

A table can be reached through references only: from the values that a run is given, and from what
the machine holds.  A run that starts where nothing refers to a table neither reads that table nor
changes it, whatever it does, and does not get hold of a reference to it.  So the run is the same
with another table in its place.
-/

namespace LuaEmbed

/-- What may refer to tables. -/
class Refers (α : Type) where
  /-- There is no reference to the table at a place. -/
  avoids : Ref → α → Prop

namespace Refers

variable {α β : Type} {r : Ref}

/-- What is not said to refer to tables does not. -/
instance (priority := low) nothing : Refers α := ⟨fun _ _ ↦ True⟩

instance value : Refers Value := ⟨fun r v ↦ v ≠ .table r⟩

instance list [Refers α] : Refers (List α) := ⟨fun r as ↦ ∀ a ∈ as, avoids r a⟩

instance option [Refers α] : Refers (Option α) := ⟨fun r a? ↦ ∀ a ∈ a?, avoids r a⟩

instance prod [Refers α] [Refers β] : Refers (α × β) := ⟨fun r p ↦ avoids r p.1 ∧ avoids r p.2⟩

instance sum [Refers α] [Refers β] : Refers (Except α β) where
  avoids
    | r, .error a => avoids r a
    | r, .ok b => avoids r b

instance fault : Refers Fault := ⟨fun r f ↦ avoids r f.toValue⟩

instance flow : Refers Flow where
  avoids
    | r, .leaveFunction values => avoids r values
    | _, _ => True

instance place : Refers Place where
  avoids
    | r, .field object key _ => avoids r object ∧ avoids r key
    | _, _ => True

instance metaField : Refers MetaField := ⟨fun r f ↦ avoids r f.value⟩

/-- A table refers to another one by a key or a value, or has it as its metatable. -/
instance table : Refers Table :=
  ⟨fun r t ↦ t.metatable ≠ some r ∧ ∀ e ∈ t.entries, avoids r e.name ∧ avoids r e.value⟩

instance userdata : Refers Userdata := ⟨fun r u ↦ u.metatable ≠ some r⟩

theorem avoids_ofText (r : Ref) (kind : FaultKind) (text : String) :
    avoids r (Fault.ofText kind text) := by
  cases kind <;> exact nofun

theorem avoids_empty (r : Ref) : avoids r Table.empty := ⟨nofun, fun _ he ↦ nomatch he⟩

end Refers

open Refers (avoids)

/-- Nothing refers to a table, but for that table itself. -/
structure Session.Hides (s : Session) (r : Ref) : Prop where
  lt : r < s.machine.tables.size
  tables {q : Ref} {t : Table} : q ≠ r → s.machine.tables[q]? = some t → avoids r t
  cells {c : Ref} {v : Value} : s.machine.cells[c]? = some v → avoids r v
  userdata {q : Ref} {u : Userdata} : s.machine.userdata[q]? = some u → avoids r u
  globals : s.machine.globals ≠ r
  registry : s.machine.registry ≠ r
  stringMetatable : s.machine.stringMetatable ≠ some r

/-- The session with another table at a place. -/
def Session.put (s : Session) (r : Ref) (t : Table) : Session :=
  { s with machine := { s.machine with tables := s.machine.tables.setIfInBounds r t } }

namespace Session

variable {s : Session} {q r : Ref}

theorem getElem?_put (s : Session) (hq : q ≠ r) (t : Table) :
    (s.put r t).machine.tables[q]? = s.machine.tables[q]? :=
  Array.getElem?_setIfInBounds_ne hq.symm

theorem Hides.avoids_getD (hs : s.Hides r) (hq : q ≠ r) :
    avoids r (s.machine.tables[q]?.getD .empty) := by
  cases ht : s.machine.tables[q]? with
  | none => exact Refers.avoids_empty r
  | some t => exact hs.tables hq ht

theorem Hides.mapFrames {g : List Frame → List Frame} (hs : s.Hides r) : (s.mapFrames g).Hides r :=
  { hs with }

end Session

namespace Run

variable {α β : Type} {r : Ref} {s s' : Session} {t : Table}

/-- An outcome does not refer to a table. -/
def Outcome.Avoids (r : Ref) (P : α → Prop) : EStateM.Result Abort Session α → Prop
  | .ok a _ => P a
  | .error (.fault f) _ => avoids r f
  | .error _ _ => True

/-- The session of an outcome. -/
def Outcome.session : EStateM.Result Abort Session α → Session
  | .ok _ s | .error _ s => s

theorem after_eq (x : Run α) (s : Session) : x.after s = Outcome.session (x s) := by
  unfold after
  cases x s <;> rfl

/-- An outcome with another table at a place. -/
def Outcome.put (r : Ref) (t : Table) :
    EStateM.Result Abort Session α → EStateM.Result Abort Session α
  | .ok a s => .ok a (s.put r t)
  | .error e s => .error e (s.put r t)

/-- From a session where nothing refers to a table, the run does not get hold of a reference to it
and does not depend on what it holds.  If there is a result, it has a property. -/
structure ConfinedAt (s : Session) (r : Ref) (x : Run α) (P : α → Prop) : Prop where
  hides : (x.after s).Hides r
  avoids : Outcome.Avoids r P (x s)
  put_eq (t : Table) : x (s.put r t) = Outcome.put r t (x s)

/-- From wherever nothing refers to a table, the run does not get hold of a reference to it and
does not depend on what it holds.  All its results have a property. -/
structure ConfinedTo (r : Ref) (x : Run α) (P : α → Prop) : Prop where
  confinedAt (s : Session) : s.Hides r → ConfinedAt s r x P

/-- The run is confined, and no result refers to the table. -/
def Confined [Refers α] (r : Ref) (x : Run α) : Prop := ConfinedTo r x (Refers.avoids r)

namespace ConfinedTo

variable {x : Run α} {f : α → Run β} {P : α → Prop} {Q : β → Prop}

theorem mono {Q : α → Prop} (h : ConfinedTo r x P) (hPQ : ∀ a, P a → Q a) :
    ConfinedTo r x Q := by
  refine ⟨fun s hs ↦ ?_⟩
  obtain ⟨hhides, hends, hput⟩ := h.confinedAt s hs
  refine ⟨hhides, ?_, hput⟩
  cases hx : x s with
  | ok a s' =>
      rw [hx] at hends
      exact hPQ a hends
  | error e s' =>
      rw [hx] at hends
      cases e <;> exact hends

theorem pure {a : α} (h : P a) : ConfinedTo r (Pure.pure a : Run α) P :=
  ⟨fun _ hs ↦ ⟨hs, h, fun _ ↦ rfl⟩⟩

theorem bind (hx : ConfinedTo r x P) (hf : ∀ a, P a → ConfinedTo r (f a) Q) :
    ConfinedTo r (x >>= f) Q := by
  refine ⟨fun s hs ↦ ?_⟩
  obtain ⟨hhides, hends, hput⟩ := hx.confinedAt s hs
  cases h : x s with
  | ok a s₁ =>
      rw [h] at hends hput
      rw [after_of_ok h] at hhides
      obtain ⟨hhides, hends, hrest⟩ := (hf a hends).confinedAt s₁ hhides
      refine ⟨?_, ?_, fun t ↦ ?_⟩
      · rwa [after, bind_of_ok h]
      · rwa [bind_of_ok h]
      · rw [bind_of_ok h, bind_of_ok (hput t)]
        exact hrest t
  | error e s₁ =>
      rw [h] at hends hput
      rw [after_of_error h] at hhides
      refine ⟨?_, ?_, fun t ↦ ?_⟩
      · rwa [after_of_error (bind_of_error h)]
      · rw [bind_of_error h]
        cases e <;> exact hends
      · rw [bind_of_error h, bind_of_error (hput t)]
        rfl

theorem abort {e : Abort} (h : ∀ f, e = .fault f → avoids r f) :
    ConfinedTo r (throw e : Run α) P := by
  refine ⟨fun _ hs ↦ ⟨hs, ?_, fun _ ↦ rfl⟩⟩
  cases e with
  | fault f => exact h f rfl
  | _ => exact trivial

theorem fail {f : Fault} (h : avoids r f) : ConfinedTo r (Run.fail f : Run α) P :=
  abort fun _ heq ↦ by
    cases heq
    exact h

/-! ### The machine and its surroundings -/

theorem machine {f : Machine → α} (hP : ∀ s : Session, s.Hides r → P (f s.machine))
    (hput : ∀ (s : Session) t, s.Hides r → f (s.put r t).machine = f s.machine) :
    ConfinedTo r (Run.machine f) P := by
  refine ⟨fun s hs ↦ ⟨hs, hP s hs, fun t ↦ ?_⟩⟩
  exact congrArg (EStateM.Result.ok · (s.put r t)) (hput s t hs)

theorem modifyMachine {f : Machine → Machine} {P : Unit → Prop}
    (hhides : ∀ s : Session, s.Hides r → ({ s with machine := f s.machine } : Session).Hides r)
    (hput : ∀ (s : Session) t, s.Hides r →
      ({ s with machine := f (s.put r t).machine } : Session) =
        ({ s with machine := f s.machine } : Session).put r t) (h : P ()) :
    ConfinedTo r (Run.modifyMachine f) P :=
  ⟨fun s hs ↦ ⟨hhides s hs, h, fun t ↦ congrArg (EStateM.Result.ok ()) (hput s t hs)⟩⟩

theorem world (f : World → α) (h : ∀ w, P (f w)) : ConfinedTo r (Run.world f) P :=
  ⟨fun s hs ↦ ⟨hs, h s.world, fun _ ↦ rfl⟩⟩

theorem modifyWorld (f : World → World) {P : Unit → Prop} (h : P ()) :
    ConfinedTo r (Run.modifyWorld f) P :=
  ⟨fun _ hs ↦ ⟨{ hs with }, h, fun _ ↦ rfl⟩⟩

/-! ### Reports -/

theorem raise (kind : FaultKind) (p : Problem) : ConfinedTo r (Report.raise kind p : Run α) P :=
  (machine (P := fun _ ↦ True) (fun _ _ ↦ trivial) fun _ _ _ ↦ rfl).bind fun _ _ ↦
    fail (Refers.avoids_ofText r _ _)

theorem here (p : Problem) : ConfinedTo r (Report.here p : Run α) P :=
  (machine (P := fun _ ↦ True) (fun _ _ ↦ trivial) fun _ _ _ ↦ rfl).bind fun _ _ ↦
    fail (Refers.avoids_ofText r _ _)

theorem argument (kind : FaultKind) (n : Nat) (p : ArgumentProblem) :
    ConfinedTo r (Report.argument kind n p : Run α) P :=
  (machine (P := fun _ ↦ True) (fun _ _ ↦ trivial) fun _ _ _ ↦ rfl).bind fun _ _ ↦ raise _ _

/-- A value is read as what may stand for it. -/
theorem extract {e : Extractor α} {v : Value} (h : ∀ a, e.get? v = some a → P a) (n : Nat) :
    ConfinedTo r (Arguments.extract e n v) P := by
  unfold Arguments.extract
  split
  · next a ha => exact .pure (h a ha)
  · exact argument _ _ _

/-! ### The heap -/

theorem newTable : ConfinedTo r Heap.newTable (· ≠ r) := by
  refine ⟨fun s hs ↦ ?_⟩
  have hlt := hs.lt
  refine ⟨{ hs with lt := ?_, tables := fun {q t} hq ht ↦ ?_ }, Nat.ne_of_gt hlt, fun t ↦ ?_⟩
  · change r < (s.machine.tables.push .empty).size
    rw [Array.size_push]
    exact Nat.lt_succ_of_lt hlt
  · change (s.machine.tables.push .empty)[q]? = some t at ht
    rw [Array.getElem?_push] at ht
    split at ht
    · cases ht
      exact Refers.avoids_empty r
    · exact hs.tables hq ht
  · have hpush : (s.machine.tables.setIfInBounds r t).push .empty =
        (s.machine.tables.push .empty).setIfInBounds r t := by
      refine Array.ext_getElem? fun q ↦ ?_
      simp only [Array.getElem?_push, Array.getElem?_setIfInBounds, Array.size_setIfInBounds,
        Array.size_push]
      grind
    simp [Outcome.put, Heap.newTable, Session.put, hpush]

theorem newFunction (f : Function) {P : Value → Prop} (h : ∀ q, P (.function q)) :
    ConfinedTo r (Heap.newFunction f) P :=
  ⟨fun _ hs ↦ ⟨{ hs with }, h _, fun _ ↦ rfl⟩⟩

theorem newUserdata {u : Userdata} {P : Value → Prop} (hu : avoids r u)
    (h : ∀ q, P (.userdata q)) : ConfinedTo r (Heap.newUserdata u) P := by
  refine ⟨fun s hs ↦ ⟨{ hs with userdata := fun {q u'} hu' ↦ ?_ }, h _, fun _ ↦ rfl⟩⟩
  change (s.machine.userdata.push u)[q]? = some u' at hu'
  rw [Array.getElem?_push] at hu'
  split at hu'
  · cases hu'
    exact hu
  · exact hs.userdata hu'

theorem newCell {v : Value} (hv : avoids r v) {P : Ref → Prop} (h : ∀ c, P c) :
    ConfinedTo r (Heap.newCell v) P := by
  refine ⟨fun s hs ↦ ⟨{ hs with cells := fun {c w} hw ↦ ?_ }, h _, fun _ ↦ rfl⟩⟩
  change (s.machine.cells.push v)[c]? = some w at hw
  rw [Array.getElem?_push] at hw
  split at hw
  · cases hw
    exact hv
  · exact hs.cells hw

theorem readCell (c : Ref) : Confined r (Heap.readCell c) := by
  refine ⟨fun s hs ↦ ⟨hs, ?_, fun _ ↦ rfl⟩⟩
  change avoids r (s.machine.cells[c]?.getD .nil)
  cases hv : s.machine.cells[c]? with
  | none => exact nofun
  | some v => exact hs.cells hv

theorem writeCell (c : Ref) {v : Value} (hv : avoids r v) : Confined r (Heap.writeCell c v) := by
  refine ⟨fun s hs ↦ ⟨{ hs with cells := fun {q w} hw ↦ ?_ }, trivial, fun _ ↦ rfl⟩⟩
  change (s.machine.cells.setIfInBounds c v)[q]? = some w at hw
  rw [Array.getElem?_setIfInBounds] at hw
  split at hw
  · split at hw
    · cases hw
      exact hv
    · exact nomatch hw
  · exact hs.cells hw

theorem readTable {q : Ref} {f : Table → α} (hq : q ≠ r) (hf : ∀ t, avoids r t → P (f t)) :
    ConfinedTo r (Heap.readTable q f) P := by
  refine ⟨fun s hs ↦ ⟨hs, hf _ ?_, fun t ↦ ?_⟩⟩
  · exact hs.avoids_getD hq
  · exact congrArg (fun t? ↦ EStateM.Result.ok (f (t?.getD .empty)) (s.put r t))
      (s.getElem?_put hq t)

theorem modifyTable {q : Ref} {f : Table → Table} (hq : q ≠ r)
    (hf : ∀ t, avoids r t → avoids r (f t)) : Confined r (Heap.modifyTable q f) := by
  refine ⟨fun s hs ↦ ?_⟩
  refine ⟨{ hs with lt := ?_, tables := fun {p t} hp ht ↦ ?_ }, trivial, fun t ↦ ?_⟩
  · exact Nat.lt_of_lt_of_eq hs.lt Array.size_modify.symm
  · change (s.machine.tables.modify q f)[p]? = some t at ht
    rw [Array.getElem?_modify] at ht
    split at ht
    · obtain ⟨u, hu, rfl⟩ := Option.map_eq_some_iff.1 ht
      exact hf u (hs.tables hp hu)
    · exact hs.tables hp ht
  · have hmodify : (s.machine.tables.setIfInBounds r t).modify q f =
        (s.machine.tables.modify q f).setIfInBounds r t := by
      refine Array.ext_getElem? fun p ↦ ?_
      simp only [Array.getElem?_modify, Array.getElem?_setIfInBounds, Array.size_modify]
      grind
    simp [Outcome.put, Heap.modifyTable, Session.put, hmodify]

theorem userdata? (q : Ref) : Confined r (Heap.userdata? q) :=
  ⟨fun _ hs ↦ ⟨hs, fun _ hu ↦ hs.userdata hu, fun _ ↦ rfl⟩⟩

theorem function? (q : Ref) : Confined r (Heap.function? q) :=
  ⟨fun _ hs ↦ ⟨hs, fun _ _ ↦ trivial, fun _ ↦ rfl⟩⟩

theorem modifyUserdata (q : Ref) {f : Userdata → Userdata}
    (hf : ∀ u, avoids r u → avoids r (f u)) : Confined r (Heap.modifyUserdata q f) := by
  refine ⟨fun s hs ↦ ⟨{ hs with userdata := fun {p u} hu ↦ ?_ }, trivial, fun _ ↦ rfl⟩⟩
  change (s.machine.userdata.modify q f)[p]? = some u at hu
  rw [Array.getElem?_modify] at hu
  split at hu
  · obtain ⟨u', hu', rfl⟩ := Option.map_eq_some_iff.1 hu
    exact hf u' (hs.userdata hu')
  · exact hs.userdata hu

/-! ### Calls -/

theorem goToLine (line : Nat) : Confined r (Evaluation.goToLine line) := by
  refine .modifyMachine (fun s hs ↦ ?_) (fun s t _ ↦ ?_) trivial
  · cases s.machine.frames <;> exact { hs with }
  · have hframes : (s.put r t).machine.frames = s.machine.frames := rfl
    rw [hframes]
    cases s.machine.frames <;> rfl

end ConfinedTo

/-- A run that makes something else of the outcome of a confined one. -/
theorem ConfinedAt.change {x : Run α} {y : Run β} {P : α → Prop} {Q : β → Prop} {s₀ : Session}
    (post : EStateM.Result Abort Session α → EStateM.Result Abort Session β)
    (hx : ConfinedAt s₀ r x P) (hy : y s = post (x s₀))
    (hput : ∀ t, y (s.put r t) = post (x (s₀.put r t)))
    (hpost : ∀ o, (Outcome.session o).Hides r → Outcome.Avoids r P o →
      (Outcome.session (post o)).Hides r ∧ Outcome.Avoids r Q (post o) ∧
        ∀ t, post (Outcome.put r t o) = Outcome.put r t (post o)) :
    ConfinedAt s r y Q := by
  obtain ⟨hhides, hends, hcomm⟩ := hpost (x s₀) hx.hides hx.avoids
  refine ⟨?_, ?_, fun t ↦ ?_⟩
  · rwa [after_eq, hy]
  · rwa [hy]
  · rw [hput, hy, hx.put_eq, hcomm]

namespace ConfinedTo

variable {x : Run α} {P : α → Prop}

theorem activate {f : Frame} (hx : ConfinedTo r x P) : ConfinedTo r (Run.activate f x) P := by
  refine ⟨fun s hs ↦ ?_⟩
  by_cases hfull : s.machine.callLimit ≤ s.machine.frames.length
  · have hrun (s' : Session) (h : s'.machine.callLimit ≤ s'.machine.frames.length) :
        Run.activate f x s' = .error (.fault .stackOverflow) s' := if_pos h
    refine ⟨?_, ?_, fun t ↦ ?_⟩
    · rwa [after_of_error (hrun s hfull)]
    · rw [hrun s hfull]
      exact nofun
    · rw [hrun s hfull, hrun (s.put r t) hfull]
      rfl
  · have hinner := hx.confinedAt (s.mapFrames (f :: ·)) hs.mapFrames
    refine .change (fun
      | .ok a s => .ok a (s.mapFrames List.tail)
      | .error e s => .error e (s.mapFrames List.tail)) hinner (if_neg hfull)
      (fun _ ↦ if_neg hfull) fun o hhides hends ↦ ?_
    cases o with
    | ok a s' => exact ⟨hhides.mapFrames, hends, fun _ ↦ rfl⟩
    | error e s' => cases e <;> exact ⟨hhides.mapFrames, hends, fun _ ↦ rfl⟩

theorem attempt [Refers α] (hx : Confined r x) : Confined r (Run.attempt x) := by
  refine ⟨fun s hs ↦ .change (fun
    | .ok a s => .ok (.ok a) s
    | .error (.fault f) s => .ok (.error f) s
    | .error e s => .error e s) (hx.confinedAt s hs) rfl (fun _ ↦ rfl) fun o hhides hends ↦ ?_⟩
  cases o with
  | ok a s' => exact ⟨hhides, hends, fun _ ↦ rfl⟩
  | error e s' => cases e <;> exact ⟨hhides, hends, fun _ ↦ rfl⟩

theorem protect (hx : ConfinedTo r x P) : ConfinedTo r (Run.protect x) P := by
  refine ⟨fun s hs ↦ .change (fun
    | .ok a s => .ok a s
    | .error (.fault f) s' => .error (.fault f)
        (s'.mapFrames fun fs ↦ fs.drop (fs.length - s.machine.frames.length))
    | .error e s => .error e s) (hx.confinedAt s hs) rfl (fun _ ↦ rfl) fun o hhides hends ↦ ?_⟩
  cases o with
  | ok a s' => exact ⟨hhides, hends, fun _ ↦ rfl⟩
  | error e s' =>
      cases e with
      | fault f => exact ⟨hhides.mapFrames, hends, fun _ ↦ rfl⟩
      | _ => exact ⟨hhides, hends, fun _ ↦ rfl⟩

end ConfinedTo

end Run

/-! ## Values and lists -/

namespace Refers

variable {α β : Type} [Refers α] [Refers β] {r : Ref}

@[grind =] theorem avoids_value {v : Value} : avoids r v ↔ v ≠ .table r := Iff.rfl

@[grind =] theorem avoids_table {q : Ref} : avoids r (Value.table q) ↔ q ≠ r := by
  simp [avoids]

theorem avoids_string (s : String) : avoids r (Value.string s) := nofun

@[grind =] theorem avoids_nothing {γ : Type} {c : γ} : @avoids γ nothing r c ↔ True := Iff.rfl

@[grind =] theorem avoids_nil : avoids r ([] : List α) ↔ True := iff_true_intro nofun

@[grind =] theorem avoids_cons {a : α} {as : List α} :
    avoids r (a :: as) ↔ avoids r a ∧ avoids r as := List.forall_mem_cons

@[grind =] theorem avoids_singleton {a : α} : avoids r [a] ↔ avoids r a :=
  List.forall_mem_singleton

@[grind =] theorem avoids_doubleton {a b : α} : avoids r [a, b] ↔ avoids r a ∧ avoids r b :=
  List.forall_mem_cons.trans (and_congr_right' List.forall_mem_singleton)

@[grind =] theorem avoids_append {as bs : List α} :
    avoids r (as ++ bs) ↔ avoids r as ∧ avoids r bs := List.forall_mem_append

@[grind =] theorem avoids_some {a : α} : avoids r (some a) ↔ avoids r a := by
  simp [avoids]

@[grind =] theorem avoids_none : avoids r (none : Option α) ↔ True := by
  simp [avoids]

@[grind =] theorem avoids_pair {a : α} {b : β} : avoids r (a, b) ↔ avoids r a ∧ avoids r b :=
  Iff.rfl

@[grind =] theorem avoids_ok {b : β} : avoids r (Except.ok b : Except α β) ↔ avoids r b := Iff.rfl

@[grind =] theorem avoids_error {a : α} : avoids r (Except.error a : Except α β) ↔ avoids r a :=
  Iff.rfl

@[grind =] theorem avoids_raised {v : Value} : avoids r (Fault.raised v) ↔ avoids r v := Iff.rfl

@[grind =] theorem avoids_toValue {f : Fault} : avoids r f.toValue ↔ avoids r f := Iff.rfl

theorem avoids_ite {c : Prop} [Decidable c] {a b : α} (ha : avoids r a)
    (hb : avoids r b) : avoids r (if c then a else b) := by
  split <;> assumption

theorem avoids_sublist {as bs : List α} (h : as.Sublist bs) (hbs : avoids r bs) : avoids r as :=
  fun a ha ↦ hbs a (h.subset ha)

@[grind ←] theorem avoids_drop {as : List α} (n : Nat) (h : avoids r as) : avoids r (as.drop n) :=
  avoids_sublist (List.drop_sublist n as) h

@[grind ←] theorem avoids_take {as : List α} (n : Nat) (h : avoids r as) : avoids r (as.take n) :=
  avoids_sublist (List.take_sublist n as) h

@[grind ←] theorem avoids_tail {as : List α} (h : avoids r as) : avoids r as.tail :=
  avoids_sublist (List.tail_sublist as) h

@[grind ←] theorem avoids_headD {vs : List Value} (h : avoids r vs) : avoids r (vs.headD .nil) := by
  cases vs with
  | nil => exact nofun
  | cons v vs => exact h v List.mem_cons_self

@[grind ←] theorem avoids_arg {args : Arguments} (n : Nat) (h : avoids r args) :
    avoids r (args.arg n) := by
  unfold Arguments.arg
  split
  · exact nofun
  · next n =>
    cases hv : args[n]? with
    | none => exact nofun
    | some v => exact h v (List.mem_of_getElem? hv)

theorem avoids_map {γ : Type} {f : γ → α} {as : List γ} (h : ∀ a, avoids r (f a)) :
    avoids r (as.map f) := by
  intro b hb
  obtain ⟨a, -, rfl⟩ := List.mem_map.1 hb
  exact h a

end Refers

/-! ## Tables -/

namespace Table

variable {r : Ref} {t : Table}

theorem avoids_getKey (h : avoids r t) (k : Key) : avoids r (t.getKey k) := by
  unfold getKey
  split
  · next e he => exact (h.2 e (entry?_eq_some_iff.1 he).2).2
  · exact nofun

@[grind ←] theorem avoids_get (h : avoids r t) (key : Value) : avoids r (t.get key) := by
  unfold get
  split
  · exact avoids_getKey h _
  · exact nofun

@[grind ←] theorem avoids_slice (h : avoids r t) (i : Int) (n : Nat) : avoids r (t.slice i n) :=
  Refers.avoids_map fun _ ↦ avoids_getKey h _

theorem avoids_setKey (h : avoids r t) {name v : Value} (hname : avoids r name) (hv : avoids r v)
    (k : Key) (named : Key.ofValue name = .ok k) : avoids r (t.setKey name k named v) := by
  unfold setKey
  split
  · next i hi =>
    refine ⟨h.1, fun e he ↦ ?_⟩
    change e ∈ t.entries.modify i (fun e ↦ { e with value := v }) at he
    obtain ⟨j, hj, rfl⟩ := Array.mem_iff_getElem.1 he
    rw [Array.getElem_modify]
    rw [Array.size_modify] at hj
    have hold := h.2 _ (Array.getElem_mem hj)
    split
    · exact ⟨hold.1, hv⟩
    · exact hold
  · split
    · exact h
    · refine ⟨h.1, fun e he ↦ ?_⟩
      rcases Array.mem_push.1 he with he | rfl
      · exact h.2 e he
      · exact ⟨hname, hv⟩

theorem avoids_setInt (h : avoids r t) (i : Int) {v : Value} (hv : avoids r v) :
    avoids r (t.setInt i v) := by
  have hname : avoids r (Value.number (intKey i)) := nofun
  exact avoids_setKey h hname hv _ _

theorem avoids_setStr (h : avoids r t) (s : String) {v : Value} (hv : avoids r v) :
    avoids r (t.setStr s v) := by
  have hname : avoids r (Value.string s) := nofun
  exact avoids_setKey h hname hv _ _

theorem avoids_setFields (h : avoids r t) {fields : List (String × Value)}
    (hfields : avoids r fields) : avoids r (fields.foldl (fun t (k, v) ↦ t.setStr k v) t) := by
  induction fields generalizing t with
  | nil => exact h
  | cons field fields ih =>
      obtain ⟨hfield, hfields⟩ := Refers.avoids_cons.1 hfields
      exact ih (avoids_setStr h _ hfield.2) hfields

theorem avoids_setFrom (h : avoids r t) {vs : List Value} (hvs : avoids r vs) (i : Nat) :
    avoids r (t.setFrom i vs) := by
  induction vs generalizing t i with
  | nil => exact h
  | cons v vs ih =>
      obtain ⟨hv, hvs⟩ := Refers.avoids_cons.1 hvs
      exact ih (avoids_setInt h i hv) hvs _

theorem avoids_shiftUp (h : avoids r t) (pos i : Nat) : avoids r (t.shiftUp pos i) := by
  induction i generalizing t with
  | zero => exact h
  | succ i ih =>
      rw [shiftUp]
      split
      · exact ih (avoids_setInt h _ (avoids_getKey h _))
      · exact h

theorem avoids_insert (h : avoids r t) (pos : Nat) {v : Value} (hv : avoids r v) :
    avoids r (t.insert pos v) :=
  avoids_setInt (avoids_shiftUp h ..) _ hv

theorem avoids_shiftDown (h : avoids r t) (n pos : Nat) : avoids r (t.shiftDown n pos) := by
  induction n generalizing t pos with
  | zero => exact h
  | succ n ih => exact ih (avoids_setInt h _ (avoids_getKey h _)) _

theorem avoids_remove (h : avoids r t) (pos : Nat) :
    avoids r (t.remove pos).1 ∧ avoids r (t.remove pos).2 := by
  refine ⟨avoids_getKey h _, ?_⟩
  unfold remove
  dsimp only
  split
  · exact avoids_setInt (avoids_shiftDown h ..) _ nofun
  · exact avoids_shiftDown h ..

theorem avoids_next? (h : avoids r t) (key : Value) : avoids r (t.next? key) := by
  have hlive (n i : Nat) : avoids r (firstLive t.entries n i) := by
    induction n generalizing i with
    | zero => exact nofun
    | succ n ih =>
        rw [firstLive]
        split
        · next e he =>
          split
          · exact ih _
          · exact Refers.avoids_some.2 (h.2 e (Array.mem_of_getElem? he))
        · exact nofun
  unfold next?
  split
  · exact hlive _ _
  · exact trivial

end Table

/-! ## Confined runs -/

namespace Run.Confined

variable {α β : Type} [Refers α] [Refers β] {r : Ref}

@[grind ←] theorem pure {a : α} (h : avoids r a) : Confined r (Pure.pure a : Run α) :=
  ConfinedTo.pure h

@[grind ←] theorem bind {x : Run α} {f : α → Run β} (hx : Confined r x)
    (hf : ∀ a, avoids r a → Confined r (f a)) : Confined r (x >>= f) :=
  ConfinedTo.bind hx hf

@[grind ←] theorem map {x : Run α} {f : α → β} (hx : Confined r x)
    (hf : ∀ a, avoids r a → avoids r (f a)) : Confined r (f <$> x) := by
  rw [← bind_pure_comp]
  exact hx.bind fun a ha ↦ pure (hf a ha)

/-- Something is done first if a condition holds. -/
theorem whenFirst {c : Prop} [Decidable c] {x : Run Unit} {f : Unit → Run α}
    (hx : Confined r x) (hf : ∀ u, Confined r (f u)) :
    Confined r (if c then x >>= f else f ()) := by
  split
  · exact hx.bind fun u _ ↦ hf u
  · exact hf ()

@[grind ←] theorem fail {f : Fault} (h : avoids r f) : Confined r (Run.fail f : Run α) :=
  ConfinedTo.abort fun _ heq ↦ by
    cases heq
    exact h

@[grind ←] theorem exit (code : Int) : Confined r (throw (.exit code) : Run α) :=
  ConfinedTo.abort nofun

@[grind ←] theorem outOfFuel : Confined r (throw .outOfFuel : Run α) := ConfinedTo.abort nofun

@[grind ←] theorem world (f : World → α) (h : ∀ w, avoids r (f w)) : Confined r (Run.world f) :=
  ConfinedTo.world f h

@[grind ←] theorem modifyWorld (f : World → World) : Confined r (Run.modifyWorld f) :=
  ConfinedTo.modifyWorld f trivial

@[grind ←] theorem attempt {x : Run α} (hx : Confined r x) : Confined r (Run.attempt x) :=
  ConfinedTo.attempt hx

@[grind ←] theorem protect {x : Run α} (hx : Confined r x) : Confined r (Run.protect x) :=
  ConfinedTo.protect hx

/-! ### The heap -/

@[grind ←] theorem newTable_bind {f : Ref → Run β} (hf : ∀ q, q ≠ r → Confined r (f q)) :
    Confined r (Heap.newTable >>= f) :=
  ConfinedTo.bind .newTable hf

@[grind ←] theorem newNative (name : String) (op : Native) :
    Confined r (Heap.newNative name op) :=
  ConfinedTo.newFunction _ fun _ ↦ nofun

@[grind ←] theorem readCell (c : Ref) : Confined r (Heap.readCell c) := ConfinedTo.readCell c

@[grind ←] theorem writeCell (c : Ref) {v : Value} (hv : avoids r v) :
    Confined r (Heap.writeCell c v) :=
  ConfinedTo.writeCell c hv

@[grind ←] theorem newCell {v : Value} (hv : avoids r v) : Confined r (Heap.newCell v) :=
  ConfinedTo.newCell hv fun _ ↦ trivial

@[grind ←] theorem userdata? (q : Ref) : Confined r (Heap.userdata? q) := ConfinedTo.userdata? q

@[grind ←] theorem function? (q : Ref) : Confined r (Heap.function? q) := ConfinedTo.function? q

@[grind ←] theorem readTable {q : Ref} {f : Table → α} (hq : q ≠ r)
    (hf : ∀ t, avoids r t → avoids r (f t)) : Confined r (Heap.readTable q f) :=
  ConfinedTo.readTable hq hf

@[grind ←] theorem get {q : Ref} (hq : q ≠ r) (key : Value) : Confined r (Heap.get q key) :=
  readTable hq fun _ ht ↦ Table.avoids_get ht key

@[grind ←] theorem getStr {q : Ref} (hq : q ≠ r) (s : String) : Confined r (Heap.getStr q s) :=
  readTable hq fun _ ht ↦ Table.avoids_getKey ht _

@[grind ←] theorem getInt {q : Ref} (hq : q ≠ r) (i : Int) : Confined r (Heap.getInt q i) :=
  readTable hq fun _ ht ↦ Table.avoids_getKey ht _

@[grind ←] theorem length {q : Ref} (hq : q ≠ r) : Confined r (Heap.length q) :=
  readTable hq fun _ _ ↦ trivial

theorem modifyTable {q : Ref} {f : Table → Table} (hq : q ≠ r)
    (hf : ∀ t, avoids r t → avoids r (f t)) : Confined r (Heap.modifyTable q f) :=
  ConfinedTo.modifyTable hq hf

@[grind ←] theorem setStr {q : Ref} (hq : q ≠ r) (s : String) {v : Value} (hv : avoids r v) :
    Confined r (Heap.setStr q s v) :=
  modifyTable hq fun _ ht ↦ Table.avoids_setStr ht s hv

@[grind ←] theorem setInt {q : Ref} (hq : q ≠ r) (i : Int) {v : Value} (hv : avoids r v) :
    Confined r (Heap.setInt q i v) :=
  modifyTable hq fun _ ht ↦ Table.avoids_setInt ht i hv

@[grind ←] theorem set {q : Ref} (hq : q ≠ r) {key v : Value} (hkey : avoids r key)
    (hv : avoids r v) : Confined r (Heap.set q key v) := by
  unfold Heap.set
  split
  · exact (modifyTable hq fun _ ht ↦ Table.avoids_setKey ht hkey hv _ _).bind fun _ _ ↦
      pure trivial
  · exact pure trivial

theorem modifyUserdata (q : Ref) {f : Userdata → Userdata}
    (hf : ∀ u, avoids r u → avoids r (f u)) : Confined r (Heap.modifyUserdata q f) :=
  ConfinedTo.modifyUserdata q hf

/-! ### Reports and arguments -/

@[grind ←] theorem frame? (level : Nat) : Confined r (Report.frame? level) :=
  ConfinedTo.machine (fun _ _ _ _ ↦ trivial) fun _ _ _ ↦ rfl

@[grind ←] theorem location (level : Nat) : Confined r (Report.location level) :=
  ConfinedTo.machine (fun _ _ ↦ trivial) fun _ _ _ ↦ rfl

@[grind ←] theorem functionName (level : Nat) : Confined r (Report.functionName level) :=
  ConfinedTo.machine (fun _ _ ↦ trivial) fun _ _ _ ↦ rfl

@[grind ←] theorem traceback (message : Option String) (level : Nat) :
    Confined r (Report.traceback message level) :=
  ConfinedTo.machine (fun _ _ ↦ trivial) fun _ _ _ ↦ rfl

@[grind ←] theorem raise (kind : FaultKind) (p : Problem) :
    Confined r (Report.raise kind p : Run α) := ConfinedTo.raise kind p

@[grind ←] theorem here (p : Problem) : Confined r (Report.here p : Run α) := ConfinedTo.here p

@[grind ←] theorem argument (kind : FaultKind) (n : Nat) (p : ArgumentProblem) :
    Confined r (Report.argument kind n p : Run α) := ConfinedTo.argument kind n p

@[grind ←] theorem mismatch (v : Value) (n : Nat) (expected : String) :
    Confined r (Arguments.mismatch v n expected : Run α) := argument ..

section Arguments

variable {args : Arguments} {γ : Type}

/-- What is no reference to a table refers to none. -/
@[grind ←] theorem extract (e : Extractor γ) (n : Nat) (v : Value) :
    @Confined γ Refers.nothing r (Arguments.extract e n v) :=
  ConfinedTo.extract (fun _ _ ↦ trivial) n

@[grind ←] theorem check (e : Extractor γ) (n : Nat) :
    @Confined γ Refers.nothing r (args.check e n) := extract e n _

@[grind ←] theorem opt (e : Extractor γ) (n : Nat) (default : γ) :
    @Confined γ Refers.nothing r (args.opt e n default) := by
  unfold Arguments.opt
  split
  · exact ConfinedTo.pure trivial
  · exact check e n

@[grind ←] theorem opt? (e : Extractor γ) (n : Nat) :
    @Confined (Option γ) (@Refers.option γ Refers.nothing) r (args.opt? e n) := by
  unfold Arguments.opt?
  split
  · exact ConfinedTo.pure nofun
  · rw [← bind_pure_comp]
    exact ConfinedTo.bind (check e n) fun _ _ ↦ .pure fun _ _ ↦ trivial

/-- A table that is an argument is not the one that no argument refers to. -/
@[grind ←] theorem checkTable_bind (hargs : avoids r args) {n : Nat} {f : Ref → Run β}
    (hf : ∀ q, q ≠ r → Confined r (f q)) : Confined r (args.check .table n >>= f) := by
  refine ConfinedTo.bind (ConfinedTo.extract (fun q hq ↦ ?_) n) hf
  have harg := Refers.avoids_arg n hargs
  rw [Extractor.table_eq_of_get? hq] at harg
  exact fun heq ↦ harg (congrArg Value.table heq)

@[grind ←] theorem optTable_bind (hargs : avoids r args) {n : Nat} {f : Option Ref → Run β}
    (hf : ∀ q?, q? ≠ some r → Confined r (f q?)) : Confined r (args.opt? .table n >>= f) := by
  unfold Arguments.opt?
  split
  · rw [pure_bind]
    exact hf none nofun
  · rw [← bind_pure_comp, bind_assoc]
    refine checkTable_bind hargs fun q hq ↦ ?_
    rw [pure_bind]
    exact hf (some q) fun heq ↦ hq (Option.some.inj heq)

@[grind ←] theorem checkAny (hargs : avoids r args) (n : Nat) : Confined r (args.checkAny n) := by
  unfold Arguments.checkAny
  split
  · apply argument
  · exact pure (Refers.avoids_arg n hargs)

@[grind ←] theorem checkKind (n : Nat) (kind : Kind) : Confined r (args.checkKind n kind) := by
  unfold Arguments.checkKind
  split
  · exact pure trivial
  · apply argument

@[grind ←] theorem checkKinds (n : Nat) (kinds : List Kind) :
    Confined r (args.checkKinds n kinds) := by
  unfold Arguments.checkKinds
  split
  · exact pure trivial
  · apply argument

@[grind ←] theorem checkOption (n : Nat) (options : List String) :
    Confined r (args.checkOption n options) := by
  refine bind (check .string n) fun s _ ↦ ?_
  split
  · exact pure trivial
  · apply argument

@[grind ←] theorem checkNumeral (n : Nat) : Confined r (args.checkNumeral n) := by
  unfold Arguments.checkNumeral
  split
  · exact pure trivial
  · apply mismatch

end Arguments

/-! ### Metatables and modules -/

section Machine

theorem globals : ConfinedTo r (Run.machine Machine.globals) (· ≠ r) :=
  .machine (fun _ hs ↦ hs.globals) fun _ _ _ ↦ rfl

theorem registry : ConfinedTo r (Run.machine Machine.registry) (· ≠ r) :=
  .machine (fun _ hs ↦ hs.registry) fun _ _ _ ↦ rfl

variable {s : Session} {v : Value}

theorem metatable_ne (hs : s.Hides r) (hv : avoids r v) : Metatable.of? s.machine v ≠ some r := by
  cases v with
  | table q =>
      have hq : q ≠ r := Refers.avoids_table.1 hv
      intro h
      obtain ⟨t, ht, hmetatable⟩ := Option.bind_eq_some_iff.1 h
      exact (hs.tables hq ht).1 hmetatable
  | userdata q =>
      intro h
      obtain ⟨u, hu, hmetatable⟩ := Option.bind_eq_some_iff.1 h
      exact hs.userdata hu hmetatable
  | string _ => exact hs.stringMetatable
  | _ => exact nofun

theorem metatable_put (hv : avoids r v) (s : Session) (t : Table) :
    Metatable.of? (s.put r t).machine v = Metatable.of? s.machine v := by
  cases v with
  | table q =>
      have hq : q ≠ r := Refers.avoids_table.1 hv
      exact congrArg (Option.bind · Table.metatable) (s.getElem?_put hq t)
  | _ => rfl

theorem fieldOf_put (hs : s.Hides r) (hv : avoids r v) (event : String) (t : Table) :
    Metatable.fieldOf (s.put r t).machine v event = Metatable.fieldOf s.machine v event := by
  rw [Metatable.fieldOf, Metatable.fieldOf, metatable_put hv]
  cases h : Metatable.of? s.machine v with
  | none => rfl
  | some mt =>
      have hmt : mt ≠ r := fun heq ↦ metatable_ne hs hv (h.trans (congrArg some heq))
      exact congrArg (fun t? ↦ (t?.getD Table.empty).getStr event) (s.getElem?_put hmt t)

theorem avoids_fieldOf (hs : s.Hides r) (hv : avoids r v) (event : String) :
    avoids r (Metatable.fieldOf s.machine v event) := by
  rw [Metatable.fieldOf]
  cases h : Metatable.of? s.machine v with
  | none => exact nofun
  | some mt =>
      have hmt : mt ≠ r := fun heq ↦ metatable_ne hs hv (h.trans (congrArg some heq))
      exact Table.avoids_getKey (hs.avoids_getD hmt) _

@[grind ←] theorem metatable_bind (hv : avoids r v) {g : Option Ref → Run β}
    (hg : ∀ mt, mt ≠ some r → Confined r (g mt)) : Confined r (Metatable.of v >>= g) :=
  ConfinedTo.bind (.machine (fun _ hs ↦ metatable_ne hs hv) fun s t _ ↦ metatable_put hv s t) hg

@[grind ←] theorem field (hv : avoids r v) (event : String) :
    Confined r (Metatable.field v event) :=
  ConfinedTo.machine (fun _ hs ↦ avoids_fieldOf hs hv event) fun _ t hs ↦ fieldOf_put hs hv event t

@[grind ←] theorem lookup (hv : avoids r v) (event : String) :
    Confined r (Metatable.lookup v event) := by
  refine ConfinedTo.machine (fun s hs ↦ ?_) fun s t hs ↦ ?_
  · have hfield := avoids_fieldOf hs hv event
    split
    · exact nofun
    · dsimp only
      split
      · exact nofun
      · exact hfield
  · rw [metatable_put hv, fieldOf_put hs hv]

end Machine

@[grind ←] theorem attach {v : Value} (hv : avoids r v) {mt : Option Ref} (hmt : mt ≠ some r) :
    Confined r (Metatable.attach v mt) := by
  unfold Metatable.attach
  split
  · next q =>
    exact modifyTable (Refers.avoids_table.1 hv) fun t ht ↦ ⟨hmt, ht.2⟩
  · exact modifyUserdata _ fun _ _ ↦ hmt
  · apply here

/-- A table that is found under a name, or else is new, is not one that nothing refers to. -/
theorem ofType (name : String) : ConfinedTo r (Metatable.ofType name) (· ≠ r) := by
  refine ConfinedTo.bind registry fun registry hregistry ↦ ?_
  refine ConfinedTo.bind (getStr hregistry name) fun v hv ↦ ?_
  split
  · exact .pure (Refers.avoids_table.1 hv)
  · refine ConfinedTo.bind .newTable fun q hq ↦ ?_
    exact ConfinedTo.bind (setStr hregistry name (Refers.avoids_table.2 hq)) fun _ _ ↦ .pure hq

@[grind ←] theorem newTypedUserdata (payload : Payload) (type : Option String) :
    Confined r (Metatable.newUserdata payload type) := by
  unfold Metatable.newUserdata
  split
  · refine ConfinedTo.bind (ofType _) fun mt hmt ↦ ?_
    exact .newUserdata (fun heq ↦ hmt (Option.some.inj heq)) fun _ ↦ nofun
  · exact ConfinedTo.newUserdata nofun fun _ ↦ nofun

theorem findAlong {v : Value} (hv : avoids r v) (names : List String) :
    Confined r (Module.findAlong v names) := by
  induction names generalizing v with
  | nil =>
      unfold Module.findAlong
      exact pure hv
  | cons name names ih =>
      cases v with
      | table q =>
          have hq : q ≠ r := Refers.avoids_table.1 hv
          refine (getStr hq name).bind fun found hfound ↦ ?_
          split
          · refine newTable_bind fun created hcreated ↦ ?_
            have hcreated := Refers.avoids_table.2 hcreated
            exact (setStr hq name hcreated).bind fun _ _ ↦ ih hcreated
          · exact ih hfound
          · exact pure nofun
      | _ => exact pure nofun

theorem loaded : ConfinedTo r Module.loaded (· ≠ r) := by
  refine ConfinedTo.bind registry fun registry hregistry ↦ ?_
  refine ConfinedTo.bind (findAlong (Refers.avoids_table.2 hregistry) _) fun v hv ↦ ?_
  split
  · exact .pure (Refers.avoids_table.1 hv)
  · refine ConfinedTo.bind .newTable fun q hq ↦ ?_
    exact ConfinedTo.bind (setStr hregistry _ (Refers.avoids_table.2 hq)) fun _ _ ↦ .pure hq

@[grind ←] theorem moduleField (name field : String) :
    Confined r (Module.fieldOf name field) := by
  refine ConfinedTo.bind loaded fun loaded hloaded ↦ ?_
  refine ConfinedTo.bind (getStr hloaded name) fun v hv ↦ ?_
  split
  · exact getStr (Refers.avoids_table.1 hv) field
  · exact ConfinedTo.pure nofun

/-! ### Operations -/

/-- Calls that are given no reference to a table do not get hold of one. -/
def Caller (r : Ref) (call : LuaEmbed.Caller) : Prop :=
  ∀ f args name, avoids r f → avoids r args → Confined r (call f args name)

section Operations

variable {call : LuaEmbed.Caller} (hcall : Caller r call) {a b v key value : Value}

@[grind ←] theorem isCallable (hv : avoids r v) : Confined r (Operation.isCallable v) := by
  unfold Operation.isCallable
  grind -funext

@[grind ←] theorem eitherHandler (ha : avoids r a) (hb : avoids r b) (event : String) :
    Confined r (Operation.eitherHandler a b event) := by
  unfold Operation.eitherHandler
  grind -funext

@[grind ←] theorem sharedHandler (ha : avoids r a) (hb : avoids r b) (event : String) :
    Confined r (Operation.sharedHandler a b event) := by
  unfold Operation.sharedHandler
  grind -funext

@[grind ←] theorem store {q : Ref} (hq : q ≠ r) (hkey : avoids r key) (hvalue : avoids r value) :
    Confined r (Operation.store q key value) := by
  unfold Operation.store
  grind -funext

include hcall

@[grind ←] theorem first {handler : Value} {args : List Value} (hhandler : avoids r handler)
    (hargs : avoids r args) : Confined r (Operation.first call handler args) :=
  (hcall _ _ _ hhandler hargs).bind fun _ hresults ↦ pure (Refers.avoids_headD hresults)

@[grind ←] theorem callField (hv : avoids r v) (event : String) :
    Confined r (Metatable.callField call v event) := by
  refine (field hv event).bind fun handler hhandler ↦ ?_
  split
  · exact (hcall _ _ _ hhandler (by grind)).bind fun _ h ↦ pure (Refers.avoids_headD h)
  · exact pure nofun

@[grind ←] theorem index (hv : avoids r v) (hkey : avoids r key) :
    Confined r (Operation.index call v key) := by
  unfold Operation.index
  generalize Operation.maxChain = n
  induction n generalizing v with
  | zero => apply here
  | succ n ih =>
      unfold Operation.indexWithin
      extract_lets rest
      have hrest (found : Value) (hfound : avoids r found) : Confined r (rest found) := by
        unfold rest
        split
        · exact pure hfound
        · refine (field hv _).bind fun handler hhandler ↦ ?_
          split
          · exact pure nofun
          · apply here
          · exact first hcall hhandler (by grind)
          · exact ih hhandler
      split
      · exact (get (Refers.avoids_table.1 hv) key).bind hrest
      · exact hrest .nil nofun

@[grind ←] theorem setIndex (hv : avoids r v) (hkey : avoids r key) (hvalue : avoids r value) :
    Confined r (Operation.setIndex call v key value) := by
  unfold Operation.setIndex
  generalize Operation.maxChain = n
  induction n generalizing v with
  | zero => apply here
  | succ n ih =>
      unfold Operation.setIndexWithin
      extract_lets rest ask
      have hrest (handler : Value) (hhandler : avoids r handler) : Confined r (rest handler) := by
        unfold rest
        split
        · exact store (Refers.avoids_table.1 hv) hkey hvalue
        · apply here
        · exact (hcall _ _ _ hhandler (by grind)).bind fun _ _ ↦ pure trivial
        · exact ih hhandler
      have hask (isPresent : Bool) : Confined r (ask isPresent) := by
        unfold ask
        split
        · exact hrest .nil nofun
        · exact (field hv _).bind hrest
      split
      · exact (get (Refers.avoids_table.1 hv) key).bind fun _ _ ↦ hask _
      · exact hask false

@[grind ←] theorem arithmetic (op : ArithmeticOp) (ha : avoids r a) (hb : avoids r b) :
    Confined r (Operation.arithmetic call op a b) := by
  unfold Operation.arithmetic
  grind -funext

@[grind ←] theorem negate (hv : avoids r v) : Confined r (Operation.negate call v) := by
  unfold Operation.negate
  grind -funext

@[grind ←] theorem concat (ha : avoids r a) (hb : avoids r b) :
    Confined r (Operation.concat call a b) := by
  unfold Operation.concat
  grind -funext

@[grind ←] theorem lengthOf (hv : avoids r v) : Confined r (Operation.length call v) := by
  unfold Operation.length
  grind -funext

@[grind ←] theorem equals (ha : avoids r a) (hb : avoids r b) :
    Confined r (Operation.equals call a b) := by
  unfold Operation.equals
  grind -funext

@[grind ←] theorem lessThan (ha : avoids r a) (hb : avoids r b) :
    Confined r (Operation.lessThan call a b) := by
  unfold Operation.lessThan
  grind -funext

@[grind ←] theorem lessEqual (ha : avoids r a) (hb : avoids r b) :
    Confined r (Operation.lessEqual call a b) := by
  unfold Operation.lessEqual
  split
  · exact pure trivial
  · exact pure trivial
  · refine (sharedHandler ha hb _).bind fun h? hh ↦ ?_
    split <;> grind -funext

@[grind ←] theorem tostring (hv : avoids r v) : Confined r (Operation.tostring call v) := by
  unfold Operation.tostring
  grind -funext

end Operations

end Run.Confined

end LuaEmbed
