import Mathlib
import LuaEmbed.Proofs.Runs.Lockstep
import LuaEmbed.Proofs.Runs.Logic.Evaluation

/-!
# Machines beside each other

Machines of one program share their surroundings.  A script that uses none of the functions on files
and on the system, draws no random numbers and leaves standard input alone sees nothing of them but
the files, and changes nothing of them but what is printed.  However the executions of sources on
several machines are interleaved, each machine then gives what it would give alone.

Random numbers have to be left out because their generator is shared: of two machines that draw a
number, the second does not draw what it would draw alone.  The files may be read: nothing that such a
script does changes them.
-/

namespace LuaEmbed

/-! ## What is shared -/

/-- The call uses what machines share, beyond reading files and printing. -/
def Native.usesShared (op : Native) (args : Arguments) : Bool :=
  op.usesSurroundings ||
    match op, args.arg 1 with
    | .base .loadfile, .nil | .base .dofile, .nil => true
    | .base .loadfile, .string path | .base .dofile, .string path => path.isEmpty
    | _, _ => false

/-- Evaluation that exits with a code where a call uses what machines share. -/
def Hooks.confined (code : Int) : Hooks Unit :=
  { Hooks.plain with
    native := fun _ fuel call op args ↦
      if op.usesShared args then throw (.exit code) else op.run fuel (call ()) args }

namespace Lockstep

/-- Surroundings are alike if both have the given files. -/
def withFiles (files : FileSystem) : Lockstep where
  Alike w w' := w.files = files ∧ w'.files = files
  Shares := False
  files_eq h := h.1.trans h.2.symm
  alike_print _ h := h
  eq_of_alike := False.elim
  alike_refl := False.elim
  Holds _ := True
  Strict := False
  Writes _ _ := True
  holds_change _ _ := trivial
  wellFormed _ := False.elim
  writes_new _ _ := trivial

/-- As long as nothing shared is used, the surroundings only have to be alike. -/
theorem confined_agree (files : FileSystem) (code : Int) :
    Run.Logic.HooksAgree (fun _ : Unit ↦ (withFiles files).logic (some code)) (.confined code)
      .plain id id where
  native _ _ fuel _ _ op args hcall := by
    simp only [Hooks.confined]
    split
    · exact fun _ _ _ _ _ ↦ .stopped rfl
    · next hshared =>
      refine .native (Run.Logic.Agree.registers fun _ _ ↦ trivial) (hcall () _) fuel op args
        (fun _ _ _ ↦ trivial) (fun _ ↦ trivial) (fun hs ↦ hshared ?_) fun _ ↦ trivial
      simp [Native.usesShared, hs]
  store _ _ _ _ v := .storeRaw (fun _ _ ↦ trivial) v
  stray _ _ _ _ _ h := h

end Lockstep

namespace Program

/-! ## Executions on machines -/

/-- The outcome of a run, with the machine after it. -/
def onMachine {α : Type} : EStateM.Result Abort Session α → EStateM.Result Abort Machine α
  | .ok a s => .ok a s.machine
  | .error e s => .error e s.machine

/-- The outcomes of texts that are executed one after the other on one machine. -/
def executeAll (fuel : Nat) :
    List String → Session → List (EStateM.Result Abort Machine (List Value))
  | [], _ => []
  | source :: sources, s =>
    onMachine (execute fuel source s) :: executeAll fuel sources ((execute fuel source).after s)

/-- Execute a text, and exit with a code where it uses what machines share. -/
def executeConfined (code : Int) (fuel : Nat) (source : String) : Run (List Value) :=
  Hooked.executeBytes (.confined code) fuel () (Text.bytes source) Loader.textChunk []

/-- No execution uses what machines share: whatever code it would exit with there, its outcome is the
same. -/
def Confined (fuel : Nat) : List String → Session → Prop
  | [], _ => True
  | source :: sources, s =>
    (∀ code, executeConfined code fuel source s = execute fuel source s) ∧
      Confined fuel sources ((execute fuel source).after s)

/-- An execution that uses nothing shared gives the same in all surroundings with the same files,
and leaves the files as they are. -/
theorem execute_of_confined {fuel : Nat} {source : String} {m : Machine} {w w' : World}
    {files : FileSystem}
    (h : ∀ code, executeConfined code fuel source ⟨m, w⟩ = execute fuel source ⟨m, w⟩)
    (hw : w.files = files) (hw' : w'.files = files) :
    onMachine (execute fuel source ⟨m, w⟩) = onMachine (execute fuel source ⟨m, w'⟩) ∧
      ((execute fuel source).after ⟨m, w⟩).machine =
        ((execute fuel source).after ⟨m, w'⟩).machine ∧
      ((execute fuel source).after ⟨m, w⟩).world.files = files ∧
      ((execute fuel source).after ⟨m, w'⟩).world.files = files := by
  have ho : (Lockstep.withFiles files).Outcomes none (fun _ _ ↦ True)
      (execute fuel source ⟨m, w⟩) (execute fuel source ⟨m, w'⟩) := by
    refine .of_forall fun code ↦ ?_
    rw [← h code, execute, ← Hooked.executeBytes_plain]
    exact (Lockstep.confined_agree files code).executeBytes (fun _ ↦ trivial) () (m := false) fuel
      (Text.bytes source) Loader.textChunk [] m w w' trivial ⟨hw, hw'⟩
  unfold Run.after
  generalize execute fuel source ⟨m, w⟩ = o, execute fuel source ⟨m, w'⟩ = o' at ho ⊢
  cases ho with
  | stopped hstop => exact nomatch hstop
  | ok _ hfiles _ => exact ⟨rfl, rfl, hfiles⟩
  | error _ hfiles => exact ⟨rfl, rfl, hfiles⟩

section Interleaving

variable {ι : Type} [DecidableEq ι]

/-- The outcomes of texts that are executed one after the other, each on one of several machines in
the same surroundings. -/
def interleave (fuel : Nat) : List (ι × String) → (ι → Machine) → World →
    List (ι × EStateM.Result Abort Machine (List Value))
  | [], _, _ => []
  | (i, source) :: calls, machines, w =>
    let s : Session := ⟨machines i, w⟩
    let s' := (execute fuel source).after s
    (i, onMachine (execute fuel source s)) ::
      interleave fuel calls (fun j ↦ if j = i then s'.machine else machines j) s'.world

/-- What belongs to one machine. -/
def ofMachine {α : Type} (i : ι) (xs : List (ι × α)) : List α :=
  (xs.filter (·.1 = i)).map (·.2)

theorem ofMachine_cons {α : Type} (i j : ι) (a : α) (xs : List (ι × α)) :
    ofMachine i ((j, a) :: xs) = if j = i then a :: ofMachine i xs else ofMachine i xs := by
  by_cases h : j = i <;> simp [ofMachine, h]

/-- Each machine gives what it gives alone, if the files were these whenever it was alone. -/
theorem ofMachine_interleave_of_files {fuel : Nat} {files : FileSystem}
    {calls : List (ι × String)} {machines : ι → Machine} {w : World} {alone : ι → World}
    (hw : w.files = files) (halone : ∀ i, (alone i).files = files)
    (h : ∀ i, Confined fuel (ofMachine i calls) ⟨machines i, alone i⟩) (i : ι) :
    ofMachine i (interleave fuel calls machines w) =
      executeAll fuel (ofMachine i calls) ⟨machines i, alone i⟩ := by
  induction calls generalizing machines w alone with
  | nil => rfl
  | cons call calls ih =>
      obtain ⟨j, source⟩ := call
      have hj := h j
      rw [ofMachine_cons, if_pos rfl] at hj
      obtain ⟨hconfined, hrest⟩ := hj
      obtain ⟨houtcome, hmachine, hfiles, hfiles'⟩ := execute_of_confined hconfined (halone j) hw
      -- From here on, machine `j` was alone for one execution more.
      have hrest (k : ι) : Confined fuel (ofMachine k calls)
          ⟨if k = j then ((execute fuel source).after ⟨machines j, w⟩).machine else machines k,
            if k = j then ((execute fuel source).after ⟨machines j, alone j⟩).world
              else alone k⟩ := by
        by_cases hk : k = j
        · subst hk
          rw [if_pos rfl, if_pos rfl, ← hmachine]
          exact hrest
        · have hk' := h k
          rw [ofMachine_cons, if_neg (Ne.symm hk)] at hk'
          rw [if_neg hk, if_neg hk]
          exact hk'
      have ih := ih hfiles' (fun k ↦ by split <;> simp [*]) hrest
      simp only [interleave, ofMachine_cons]
      rw [ih]
      by_cases hi : j = i
      · subst hi
        simp only [if_pos, executeAll, houtcome, ← hmachine]
      · simp only [if_neg hi, if_neg (Ne.symm hi)]

/-- However the executions on several machines are interleaved, each machine gives what it gives
alone in surroundings with the same files, if nothing that it does there uses what is shared. -/
theorem interleave_isolated {fuel : Nat} (calls : List (ι × String)) (machines : ι → Machine)
    (w : World) (alone : ι → World) (halone : ∀ i, (alone i).files = w.files)
    (h : ∀ i, Confined fuel (ofMachine i calls) ⟨machines i, alone i⟩) (i : ι) :
    ofMachine i (interleave fuel calls machines w) =
      executeAll fuel (ofMachine i calls) ⟨machines i, alone i⟩ :=
  ofMachine_interleave_of_files rfl halone h i

end Interleaving

/-- A variable is global on one machine only. -/
theorem interleave_isolated_global :
    let calls := [(true, "x = 'a'"), (false, "return x")]
    let machines (_ : Bool) := Machine.initial 200
    let w := World.initial
    (∀ i, Confined 20 (ofMachine i calls) ⟨machines i, w⟩) ∧
      ofMachine false (interleave 20 calls machines w) =
        executeAll 20 ["return x"] ⟨machines false, w⟩ := by
  intro calls machines w
  have h (i : Bool) : Confined 20 (ofMachine i calls) ⟨machines i, w⟩ := by
    cases i
    all_goals
      refine ⟨fun code ↦ ?_, trivial⟩
      cbv
  exact ⟨h, interleave_isolated calls machines w (fun _ ↦ w) (fun _ ↦ rfl) h false⟩

/-! ## What the generator of random numbers tells -/

section Drawing

open Evaluation Run

/-- A machine on which the global `draw` is the function that draws random numbers. -/
def drawing : Machine :=
  { Machine.initial 200 with
    tables := #[Table.empty.setStr "draw" (.function 0), .empty]
    functions := #[.native "random" (.math .random)] }

/-- The body of the text that returns what is drawn. -/
def drawBody : Body := .mk [] true 0 [.return_ 1 [.call 1 (.name "draw") []]]

/-- The machine when that text has been loaded on it. -/
def drawingLoaded : Machine :=
  { drawing with functions := drawing.functions.push (.script drawBody Loader.textChunk []) }

/-- The number that is drawn in surroundings. -/
def drawnIn (w : World) : Float :=
  (Library.Math.scramble (w.random + Library.Math.increment) >>> 11).toFloat / 9007199254740992

/-- The surroundings after a number has been drawn. -/
def drawnAfter (w : World) : World := { w with random := w.random + Library.Math.increment }

theorem getName_draw (call : Caller) {s : Session} (htables : s.machine.tables = drawing.tables)
    (hglobals : s.machine.globals = drawing.globals) :
    getName call [[]] "draw" s = .ok (.function 0) s := by
  have hfind : Heap.get drawing.globals (.string "draw") s = .ok (.function 0) s := by
    refine congrArg (EStateM.Result.ok · s) ?_
    rw [htables]
    exact (Table.getStr_setStr .empty "draw" (.function 0) "draw").trans (if_pos rfl)
  change Operation.index call (.table s.machine.globals) (.string "draw") s = _
  rw [hglobals]
  exact (bind_of_ok hfind).trans rfl

theorem runBody_draw (w : World) :
    ∃ m, runBody 19 drawBody Loader.textChunk [] []
      ⟨{ drawingLoaded with frames := [.script none Loader.textChunk 0] }, w⟩ =
        .ok [.number (drawnIn w)] ⟨m, drawnAfter w⟩ := by
  let a : Activation := ⟨Loader.textChunk, []⟩
  let e : Expr := .call 1 (.name "draw") []
  let s : Session := ⟨{ drawingLoaded with frames := [.script none Loader.textChunk 0] }, w⟩
  -- The statement and what it calls are on the first line, so the frame is changed once.
  let s₁ : Session := (goToLine 1).after s
  let s₂ : Session := { s₁ with world := drawnAfter w }
  have hname : eval 13 a [[]] (.name "draw") s₁ = .ok (.function 0) s₁ :=
    getName_draw (call 12) rfl rfl
  have hlist : evalList 15 a [[]] [e] s₁ = .ok [.number (drawnIn w)] s₂ :=
    (bind_of_ok hname).trans rfl
  have hstat : runStat 16 a [[]] (.return_ 1 [e]) s =
      .ok (.leaveFunction [.number (drawnIn w)]) s₂ := (bind_of_ok rfl).trans (bind_of_ok hlist)
  have hstats : runStats 17 a [[]] [.return_ 1 [e]] s =
      .ok (.leaveFunction [.number (drawnIn w)]) s₂ := bind_of_ok hstat
  have hblock : runBlock 18 a [[]] [.return_ 1 [e]] s =
      .ok (.leaveFunction [.number (drawnIn w)]) s₂ := bind_of_ok hstats
  exact ⟨_, bind_of_ok hblock⟩

theorem execute_draw (w : World) : ∃ m, execute 20 "return draw()" ⟨drawing, w⟩ =
    .ok [.number (drawnIn w)] ⟨m, drawnAfter w⟩ := by
  have hchunk : Chunk.ofBytes Loader.textChunk (Text.bytes "return draw()") =
      .ok ⟨Loader.textChunk, drawBody⟩ := by cbv
  have hload : Loader.ofBytes (Text.bytes "return draw()") Loader.textChunk ⟨drawing, w⟩ =
      .ok (.function 1) ⟨drawingLoaded, w⟩ := by
    rw [Loader.ofBytes, hchunk]
    rfl
  obtain ⟨m, hbody⟩ := runBody_draw w
  let s : Session := ⟨m, drawnAfter w⟩
  have hactivate : activate (.script none Loader.textChunk 0)
      (runBody 19 drawBody Loader.textChunk [] []) ⟨drawingLoaded, w⟩ =
        .ok [.number (drawnIn w)] (s.mapFrames List.tail) := by
    have hroom : ¬drawingLoaded.callLimit ≤ drawingLoaded.frames.length := by decide
    rw [activate, if_neg hroom]
    exact hbody ▸ rfl
  have hcall : Program.call 20 (.function 1) [] none ⟨drawingLoaded, w⟩ =
      .ok [.number (drawnIn w)] (s.mapFrames List.tail) := (bind_of_ok rfl).trans hactivate
  have hpcall : pcall 20 (.function 1) [] ⟨drawingLoaded, w⟩ =
      .ok [.number (drawnIn w)] (s.mapFrames List.tail) := by
    rw [pcall, protect, hcall]
  exact ⟨_, (bind_of_ok hload).trans hpcall⟩

theorem drawnIn_drawnAfter_ne : drawnIn (drawnAfter World.initial) ≠ drawnIn World.initial := by
  have hbits : (drawnIn (drawnAfter World.initial)).toBits ≠ (drawnIn World.initial).toBits := by
    decide +kernel
  exact fun h ↦ hbits (congrArg Float.toBits h)

/-- A machine does not draw the number that it would draw alone if another machine has drawn before,
so random numbers cannot be counted as something that a machine has to itself. -/
theorem interleave_not_isolated_draw :
    let calls := [(true, "return draw()"), (false, "return draw()")]
    let machines (_ : Bool) := drawing
    let w := World.initial
    ofMachine false (interleave 20 calls machines w) ≠
      executeAll 20 (ofMachine false calls) ⟨machines false, w⟩ := by
  intro calls machines w h
  obtain ⟨m, hfirst⟩ := execute_draw w
  obtain ⟨m', hsecond⟩ := execute_draw (drawnAfter w)
  have hworld : ((execute 20 "return draw()").after ⟨drawing, w⟩).world = drawnAfter w := by
    rw [Run.after, hfirst]
  have hbeside : ofMachine false (interleave 20 calls machines w) =
      [.ok [.number (drawnIn (drawnAfter w))] m'] := by
    simp [calls, machines, interleave, ofMachine, hworld, hsecond, onMachine]
  have halone : executeAll 20 (ofMachine false calls) ⟨machines false, w⟩ =
      [.ok [.number (drawnIn w)] m] := by
    simp [calls, machines, ofMachine, executeAll, hfirst, onMachine]
  have hdrawn : drawnIn (drawnAfter w) = drawnIn w ∧ m' = m := by
    simpa using hbeside.symm.trans (h.trans halone)
  exact drawnIn_drawnAfter_ne hdrawn.1

end Drawing

end Program

end LuaEmbed
