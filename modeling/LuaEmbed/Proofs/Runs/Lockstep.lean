import LuaEmbed.Proofs.Runs.After
import LuaEmbed.Proofs.Runs.Logic

/-!
# Runs in lockstep

Two runs go *in lockstep* if, from machines that are the same and surroundings that are alike, they
have the same outcome, and end in machines that are the same and in surroundings that are alike.
The first of them may also stop, by an exit with a code of its own, whatever the other does then.
A run that would stop with no code is in lockstep all along.

What has to be said of a `Lockstep` is what one elementary change of a machine does to the invariant
that goes with it; that it is a logic of runs follows.
-/

namespace LuaEmbed

/-- One elementary change of a machine: an addition to the heap, or a change of one part.  Only some
string keys of tables are given values, and only well-formed bodies are added if it is `strict`. -/
inductive Machine.Change (strict : Prop) (writes : Ref → String → Prop) (m : Machine) :
    Machine → Prop where
  | newTable : Change strict writes m { m with tables := m.tables.push .empty }
  | newFunction (f : Function)
      (h : ∀ body chunk scope, f = .script body chunk scope → strict → body.WellFormed) :
      Change strict writes m { m with functions := m.functions.push f }
  | newUserdata (u : Userdata) : Change strict writes m { m with userdata := m.userdata.push u }
  | newCell (v : Value) : Change strict writes m { m with cells := m.cells.push v }
  | writeCell (r : Ref) (v : Value) :
      Change strict writes m { m with cells := m.cells.set! r v }
  | modifyTable (r : Ref) (f : Table → Table)
      (h : ∀ t key, writes r key ∨ (f t).getStr key = t.getStr key) :
      Change strict writes m { m with tables := m.tables.modify r f }
  | modifyUserdata (r : Ref) (f : Userdata → Userdata) :
      Change strict writes m { m with userdata := m.userdata.modify r f }
  | setInput (input : Input) : Change strict writes m { m with input }
  | setStringMetatable (r : Ref) : Change strict writes m { m with stringMetatable := some r }
  | setFrames (frames : List Frame) : Change strict writes m { m with frames }

/-- A likeness of surroundings that runs keep. -/
structure Likeness where
  /-- Which surroundings are alike. -/
  Alike : World → World → Prop
  /-- Surroundings that are alike are the same. -/
  Shares : Prop
  files_eq {w w' : World} : Alike w w' → w.files = w'.files
  alike_print {w w' : World} (s : String) :
    Alike w w' → Alike { w with out := w.out ++ s } { w' with out := w'.out ++ s }
  eq_of_alike {w w' : World} : Shares → Alike w w' → w = w'
  alike_refl : Shares → ∀ w, Alike w w

/-- Only the same surroundings are alike. -/
def Likeness.same : Likeness where
  Alike := Eq
  Shares := True
  files_eq h := h ▸ rfl
  alike_print _ h := h ▸ rfl
  eq_of_alike _ h := h
  alike_refl _ _ := rfl

/-- An invariant of machines and a likeness of surroundings that runs keep. -/
structure Lockstep extends Likeness where
  /-- What holds of the machine all along. -/
  Holds : Machine → Prop
  /-- Only well-formed bodies are run. -/
  Strict : Prop
  /-- A string key of a table may be given a value. -/
  Writes : Ref → String → Prop
  holds_change {m m' : Machine} : Holds m → m.Change Strict Writes m' → Holds m'
  /-- The bodies in the heap are well formed. -/
  wellFormed {m : Machine} : Holds m → Strict →
    ∀ (r : Ref) body chunk scope, m.functions[r]? = some (.script body chunk scope) →
      body.WellFormed
  writes_new {m : Machine} : Holds m → ∀ key, Writes m.tables.size key

namespace Lockstep

variable {K : Lockstep} {α β : Type} {stop : Option Int}

variable (K stop) in
/-- Two outcomes that runs in lockstep can have.  A result and the machine after it have a
property. -/
inductive Outcomes (P : α → Machine → Prop) :
    EStateM.Result Abort Session α → EStateM.Result Abort Session α → Prop where
  | stopped {code : Int} {s : Session} {o : EStateM.Result Abort Session α} :
      stop = some code → Outcomes P (.error (.exit code) s) o
  | ok {a : α} {m : Machine} {w w' : World} :
      K.Holds m → K.Alike w w' → P a m → Outcomes P (.ok a ⟨m, w⟩) (.ok a ⟨m, w'⟩)
  | error {e : Abort} {m : Machine} {w w' : World} :
      K.Holds m → K.Alike w w' → Outcomes P (.error e ⟨m, w⟩) (.error e ⟨m, w'⟩)

variable (K stop) in
/-- The runs go in lockstep, and their results have a property. -/
def Runs (r r' : Run α) (P : α → Prop) : Prop :=
  ∀ m w w', K.Holds m → K.Alike w w' → K.Outcomes stop (fun a _ ↦ P a) (r ⟨m, w⟩) (r' ⟨m, w'⟩)

namespace Outcomes

variable {P : α → Machine → Prop} {o o' : EStateM.Result Abort Session α}

/-- If the first outcome is the same for every code to stop with, it is none of stopping. -/
theorem of_forall (h : ∀ code, K.Outcomes (some code) P o o') : K.Outcomes none P o o' := by
  cases h 0 with
  | ok hm hw ha => exact .ok hm hw ha
  | error hm hw => exact .error hm hw
  | stopped hzero =>
      cases h 1 with
      | stopped hone => exact absurd (hzero.trans hone.symm) (by decide)
      | error hm hw => exact .error hm hw

/-- Where nothing is stopped and surroundings that are alike are the same, so are the outcomes. -/
theorem eq_of_none (h : K.Outcomes none P o o') (halike : ∀ w w', K.Alike w w' → w = w') :
    o = o' := by
  cases h with
  | stopped hstop => exact nomatch hstop
  | ok _ hw _ => rw [halike _ _ hw]
  | error _ hw => rw [halike _ _ hw]

/-- Where nothing is stopped, the machine keeps its invariant. -/
theorem holds_of_none {r r' : Run α} {s s' : Session} (h : K.Outcomes none P (r s) (r' s')) :
    K.Holds (r'.after s').machine := by
  unfold Run.after
  generalize r s = o, r' s' = o' at h
  cases h with
  | stopped hstop => exact nomatch hstop
  | ok hm _ _ => exact hm
  | error hm _ => exact hm

/-- A sequence goes in lockstep if its second part does, on what the first part leaves.  The first
part may keep to more than the sequence does. -/
theorem bind {K' : Lockstep} {r r' : Run α} {f f' : α → Run β} {s s' : Session}
    {Q : β → Machine → Prop} (h : K'.Outcomes stop P (r s) (r' s'))
    (hholds : ∀ m, K'.Holds m → K.Holds m) (halike : ∀ w w', K'.Alike w w' → K.Alike w w')
    (hf : ∀ a m w w', K'.Holds m → K'.Alike w w' → P a m →
      K.Outcomes stop Q (f a ⟨m, w⟩) (f' a ⟨m, w'⟩)) :
    K.Outcomes stop Q ((r >>= f) s) ((r' >>= f') s') := by
  generalize h₁ : r s = o, h₂ : r' s' = o' at h
  cases h with
  | stopped hstop =>
      rw [Run.bind_of_error h₁]
      exact .stopped hstop
  | ok hm hw ha =>
      rw [Run.bind_of_ok h₁, Run.bind_of_ok h₂]
      exact hf _ _ _ _ hm hw ha
  | error hm hw =>
      rw [Run.bind_of_error h₁, Run.bind_of_error h₂]
      exact .error (hholds _ hm) (halike _ _ hw)

/-- Outcomes that keep to more keep to less. -/
theorem mono {K' : Lockstep} {Q : α → Machine → Prop} (h : K'.Outcomes stop P o o')
    (hholds : ∀ m, K'.Holds m → K.Holds m) (halike : ∀ w w', K'.Alike w w' → K.Alike w w')
    (hPQ : ∀ a m, K'.Holds m → P a m → Q a m) : K.Outcomes stop Q o o' := by
  cases h with
  | stopped hstop => exact .stopped hstop
  | ok hm hw ha => exact .ok (hholds _ hm) (halike _ _ hw) (hPQ _ _ hm ha)
  | error hm hw => exact .error (hholds _ hm) (halike _ _ hw)

end Outcomes

namespace Runs

variable {r r' : Run α} {P : α → Prop}

theorem pure {a : α} (h : P a) : K.Runs stop (pure a) (pure a) P := fun _ _ _ hm hw ↦ .ok hm hw h

theorem abort (e : Abort) : K.Runs stop (throw e) (throw e) P := fun _ _ _ hm hw ↦ .error hm hw

theorem bind {f f' : α → Run β} {Q : β → Prop} (h : K.Runs stop r r' P)
    (hf : ∀ a, P a → K.Runs stop (f a) (f' a) Q) : K.Runs stop (r >>= f) (r' >>= f') Q :=
  fun m w w' hm hw ↦ (h m w w' hm hw).bind (fun _ h ↦ h) (fun _ _ h ↦ h)
    fun a m w w' hm hw ha ↦ hf a ha m w w' hm hw

/-- Something is read off the machine. -/
theorem machine {f : Machine → α} (h : ∀ m, K.Holds m → P (f m)) :
    K.Runs stop (Run.machine f) (Run.machine f) P :=
  fun m _ _ hm hw ↦ .ok hm hw (h m hm)

/-- The machine is changed in an elementary way, and the result is read off the machine before. -/
theorem change {r : Run α} {f : Machine → α} {g : Machine → Machine}
    (hr : ∀ s, r s = .ok (f s.machine) { s with machine := g s.machine })
    (hg : ∀ m : Machine, m.Change K.Strict K.Writes (g m)) (h : ∀ m, K.Holds m → P (f m)) :
    K.Runs stop r r P := by
  intro m w w' hm hw
  rw [hr, hr]
  exact .ok (K.holds_change hm (hg m)) hw (h m hm)

theorem modify {g : Machine → Machine} (hg : ∀ m : Machine, m.Change K.Strict K.Writes (g m)) :
    K.Runs stop (Run.modifyMachine g) (Run.modifyMachine g) fun _ ↦ True :=
  change (f := fun _ ↦ ()) (fun _ ↦ rfl) hg fun _ _ ↦ trivial

theorem newFunction {f : Function}
    (h : ∀ body chunk scope, f = .script body chunk scope → K.Strict → body.WellFormed) :
    K.Runs stop (Heap.newFunction f) (Heap.newFunction f) fun _ ↦ True :=
  change (f := fun m ↦ .function m.functions.size) (fun _ ↦ rfl) (fun _ ↦ .newFunction f h)
    fun _ _ ↦ trivial

theorem mapFrames (g : List Frame → List Frame) {o o' : EStateM.Result Abort Session α} :
    K.Outcomes stop (fun a _ ↦ P a) o o' →
      K.Outcomes stop (fun a _ ↦ P a)
        (match o with
          | .ok a s => .ok a (s.mapFrames g)
          | .error e s => .error e (s.mapFrames g))
        (match o' with
          | .ok a s => .ok a (s.mapFrames g)
          | .error e s => .error e (s.mapFrames g)) := by
  intro h
  cases h with
  | stopped hstop => exact .stopped hstop
  | ok hm hw ha => exact .ok (K.holds_change hm (.setFrames _)) hw ha
  | error hm hw => exact .error (K.holds_change hm (.setFrames _)) hw

theorem activate (f : Frame) (h : K.Runs stop r r' P) :
    K.Runs stop (Run.activate f r) (Run.activate f r') P := by
  intro m w w' hm hw
  unfold Run.activate
  dsimp only
  split
  · exact .error hm hw
  · exact mapFrames _ (h _ _ _ (K.holds_change hm (.setFrames _)) hw)

theorem attempt (h : K.Runs stop r r' P) :
    K.Runs stop (Run.attempt r) (Run.attempt r') fun _ ↦ True := by
  intro m w w' hm hw
  have ho := h m w w' hm hw
  unfold Run.attempt
  generalize r ⟨m, w⟩ = o, r' ⟨m, w'⟩ = o' at ho
  cases ho with
  | stopped hstop => exact .stopped hstop
  | ok hm hw ha => exact .ok hm hw trivial
  | @error e _ _ _ hm hw =>
      cases e with
      | fault f => exact .ok hm hw trivial
      | exit code => exact .error hm hw
      | outOfFuel => exact .error hm hw

theorem protect (h : K.Runs stop r r' P) : K.Runs stop (Run.protect r) (Run.protect r') P := by
  intro m w w' hm hw
  have ho := h m w w' hm hw
  unfold Run.protect
  dsimp only
  generalize r ⟨m, w⟩ = o, r' ⟨m, w'⟩ = o' at ho
  cases ho with
  | stopped hstop => exact .stopped hstop
  | ok hm hw ha => exact .ok hm hw ha
  | @error e _ _ _ hm hw =>
      cases e with
      | fault f => exact .error (K.holds_change hm (.setFrames _)) hw
      | exit code => exact .error hm hw
      | outOfFuel => exact .error hm hw

end Runs

variable (K stop) in
/-- Going in lockstep is a logic of runs. -/
def logic : Run.Logic where
  Rel _ := K.Runs stop
  Strict := K.Strict
  Writes := K.Writes
  Attaches := True
  Shares := K.Shares
  Catches := True
  Captures := True
  pure := Runs.pure
  abort := Runs.abort
  bind := Runs.bind
  machine f := Runs.machine fun _ _ ↦ trivial
  function? r := fun m _ _ hm hw ↦
    .ok hm hw fun body chunk scope h hs ↦ K.wellFormed hm hs r body chunk scope h
  files f := fun m w w' hm hw ↦ by
    change K.Outcomes stop _ (.ok (f w.files) _) (.ok (f w'.files) _)
    rw [K.files_eq hw]
    exact .ok hm hw trivial
  print s := fun _ _ _ hm hw ↦ .ok hm (K.alike_print s hw) trivial
  world h f := fun m w w' hm hw ↦ by
    cases K.eq_of_alike h hw
    exact .ok hm hw trivial
  modifyWorld h f := fun m w w' hm hw ↦ by
    cases K.eq_of_alike h hw
    exact .ok hm (K.alike_refl h _) trivial
  newTable := Runs.change (fun _ ↦ rfl) (fun _ ↦ .newTable) fun m hm ↦ K.writes_new hm
  newNative name op := Runs.newFunction (f := .native name op) nofun
  newScript h _ chunk := Runs.newFunction fun _ _ _ heq ↦ by
    cases heq
    exact h
  newUserdata u := Runs.change (f := fun m ↦ .userdata m.userdata.size) (fun _ ↦ rfl)
    (fun _ ↦ .newUserdata u) fun _ _ ↦ trivial
  newCell v := Runs.change (f := fun m ↦ m.cells.size) (fun _ ↦ rfl) (fun _ ↦ .newCell v)
    fun _ _ ↦ trivial
  writeCell r v := Runs.modify fun _ ↦ .writeCell r v
  modifyTable h _ := Runs.modify fun _ ↦ .modifyTable _ _ h
  modifyUserdata r f := Runs.modify fun _ ↦ .modifyUserdata r f
  setInput input := Runs.modify fun _ ↦ .setInput input
  setStringMetatable r := Runs.modify fun _ ↦ .setStringMetatable r
  goToLine line := Runs.modify fun m ↦ by
    split
    · exact .setFrames _
    · exact .setFrames m.frames
  activate := Runs.activate _
  attempt _ := Runs.attempt
  protect := Runs.protect

end Lockstep

end LuaEmbed
