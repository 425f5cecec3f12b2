import LuaEmbed.Evaluation
import LuaEmbed.Proofs.Syntax.WellFormed
import LuaEmbed.Proofs.Tables.Keys

/-!
# Logics of runs

Much of what holds of runs is shown in one way: it holds of every elementary action, and of runs
that are put together if it holds of their parts.  A `Run.Logic` is a relation between two runs of
which this is so, and the libraries and evaluation are gone through once, for any logic.  The two
runs differ only in the calls that they make: what one calls is related to what the other calls.

A logic may hold back some actions.  It need not allow every string key of every table to be given
a value, need not allow a table to be given another metatable, need not allow all of the
surroundings to be looked at, need not allow the faults of calls to be caught, and need not allow
functions to be created in whatever scope.  If it is strict, only well-formed bodies are run.
-/

namespace LuaEmbed

/-- A relation between two runs that is closed under everything that runs are put together with.  It
tells what results they can have, which are the same for both. -/
structure Run.Logic where
  /-- The runs are related, and all their results have a property.  If they `move`, they belong to a
  script function, which may move the innermost frame to another line. -/
  Rel : (moves : Bool) → {α : Type} → Run α → Run α → (α → Prop) → Prop
  /-- Only well-formed bodies are run. -/
  Strict : Prop
  /-- A string key of a table may be given a value. -/
  Writes : Ref → String → Prop
  /-- A table may be given another metatable. -/
  Attaches : Prop
  /-- The surroundings may be looked at and changed beyond reading files and printing. -/
  Shares : Prop
  /-- The faults of calls may be caught. -/
  Catches : Prop
  /-- A function may be created in any scope, not only in that of a chunk. -/
  Captures : Prop
  pure {m : Bool} {α : Type} {a : α} {P : α → Prop} : P a → Rel m (pure a) (pure a) P
  abort {m : Bool} {α : Type} {P : α → Prop} (e : Abort) : Rel m (throw e) (throw e) P
  bind {m : Bool} {α β : Type} {r r' : Run α} {f f' : α → Run β} {P : α → Prop} {Q : β → Prop} :
    Rel m r r' P → (∀ a, P a → Rel m (f a) (f' a) Q) → Rel m (r >>= f) (r' >>= f') Q
  machine {m : Bool} {α : Type} (f : Machine → α) :
    Rel m (Run.machine f) (Run.machine f) fun _ ↦ True
  /-- The functions of the heap are fit to be run. -/
  function? {m : Bool} (r : Ref) :
    Rel m (Heap.function? r) (Heap.function? r) fun f ↦
      ∀ body chunk scope, f = some (.script body chunk scope) → Strict → body.WellFormed
  files {m : Bool} {α : Type} (f : FileSystem → α) :
    Rel m (Run.world fun w ↦ f w.files) (Run.world fun w ↦ f w.files) fun _ ↦ True
  print {m : Bool} (s : String) :
    Rel m (Run.modifyWorld fun w ↦ { w with out := w.out ++ s })
      (Run.modifyWorld fun w ↦ { w with out := w.out ++ s }) fun _ ↦ True
  world {m : Bool} {α : Type} (h : Shares) (f : World → α) :
    Rel m (Run.world f) (Run.world f) fun _ ↦ True
  modifyWorld {m : Bool} (h : Shares) (f : World → World) :
    Rel m (Run.modifyWorld f) (Run.modifyWorld f) fun _ ↦ True
  /-- Everything may be written to a new table. -/
  newTable {m : Bool} : Rel m Heap.newTable Heap.newTable fun r ↦ ∀ key, Writes r key
  newNative {m : Bool} (name : String) (op : Native) :
    Rel m (Heap.newNative name op) (Heap.newNative name op) fun _ ↦ True
  newScript {m : Bool} {body : Body} {scope : Scope} (h : Strict → body.WellFormed)
    (hc : scope = [] ∨ Captures) (chunk : String) :
    Rel m (Heap.newFunction (.script body chunk scope))
      (Heap.newFunction (.script body chunk scope)) fun _ ↦ True
  newUserdata {m : Bool} (u : Userdata) :
    Rel m (Heap.newUserdata u) (Heap.newUserdata u) fun _ ↦ True
  newCell {m : Bool} (v : Value) : Rel m (Heap.newCell v) (Heap.newCell v) fun _ ↦ True
  writeCell {m : Bool} (r : Ref) (v : Value) :
    Rel m (Heap.writeCell r v) (Heap.writeCell r v) fun _ ↦ True
  modifyTable {m : Bool} {r : Ref} {f : Table → Table}
    (h : ∀ t key, Writes r key ∨ (f t).getStr key = t.getStr key)
    (ha : Attaches ∨ ∀ t, (f t).metatable = t.metatable) :
    Rel m (Heap.modifyTable r f) (Heap.modifyTable r f) fun _ ↦ True
  modifyUserdata {m : Bool} (r : Ref) (f : Userdata → Userdata) :
    Rel m (Heap.modifyUserdata r f) (Heap.modifyUserdata r f) fun _ ↦ True
  setInput {m : Bool} (input : Input) :
    Rel m (Run.modifyMachine fun machine ↦ { machine with input })
      (Run.modifyMachine fun machine ↦ { machine with input }) fun _ ↦ True
  setStringMetatable {m : Bool} (r : Ref) :
    Rel m (Run.modifyMachine fun machine ↦ { machine with stringMetatable := some r })
      (Run.modifyMachine fun machine ↦ { machine with stringMetatable := some r }) fun _ ↦ True
  goToLine (line : Nat) :
    Rel true (Evaluation.goToLine line) (Evaluation.goToLine line) fun _ ↦ True
  /-- Only the run of a script function, whose frame has a site, moves its frame. -/
  activate {m : Bool} {α : Type} {f : Frame} {r r' : Run α} {P : α → Prop} :
    Rel f.site.isSome r r' P → Rel m (Run.activate f r) (Run.activate f r') P
  /-- What makes no calls may always be attempted, and is the same for both runs. -/
  attempt {m : Bool} {α : Type} {r r' : Run α} : (Catches ∨ r = r') →
    Rel m r r' (fun _ ↦ True) → Rel m (Run.attempt r) (Run.attempt r') fun _ ↦ True
  protect {m : Bool} {α : Type} {r r' : Run α} {P : α → Prop} :
    Rel m r r' P → Rel m (Run.protect r) (Run.protect r') P

namespace Extractor

theorem string_eq_of_get? {v : Value} {s : String} (h : string.get? v = some s) :
    v = .string s := by
  cases v <;> simp_all [string]

theorem table_eq_of_get? {v : Value} {r : Ref} (h : table.get? v = some r) : v = .table r := by
  cases v <;> simp_all [table]

end Extractor

namespace Run.Logic

variable {L : Run.Logic} {m : Bool} {α β : Type}

/-- Results have all properties that follow from one that they have. -/
theorem mono {r r' : Run α} {P Q : α → Prop} (h : L.Rel m r r' P) (hPQ : ∀ a, P a → Q a) :
    L.Rel m r r' Q := by
  rw [← bind_pure r, ← bind_pure r']
  exact L.bind h fun a ha ↦ L.pure (hPQ a ha)

variable (L m)

/-- The runs are related, whatever their results. -/
def Agree (r r' : Run α) : Prop := L.Rel m r r' fun _ ↦ True

/-- The run is related to itself. -/
abbrev Keeps (r : Run α) : Prop := L.Agree m r r

/-- The calls of two callers are related. -/
def Callers (call call' : Caller) : Prop :=
  ∀ f args name, L.Agree m (call f args name) (call' f args name)

variable {L m}

/-- Everything may be written to a table that is new. -/
theorem newTable_bind {f f' : Ref → Run β}
    (h : ∀ r, (∀ key, L.Writes r key) → L.Agree m (f r) (f' r)) :
    L.Agree m (Heap.newTable >>= f) (Heap.newTable >>= f') :=
  L.bind L.newTable h

/-- Something is done first if a condition holds. -/
theorem whenFirst_to {c : Prop} [Decidable c] {r r' : Run Unit} {f f' : Unit → Run α}
    {P : α → Prop} (h : L.Agree m r r') (hf : ∀ u, L.Rel m (f u) (f' u) P) :
    L.Rel m (if c then r >>= f else f ()) (if c then r' >>= f' else f' ()) P := by
  split
  · exact L.bind h fun u _ ↦ hf u
  · apply hf

namespace Agree

@[grind ←] theorem pure (a : α) : L.Keeps m (Pure.pure a) := L.pure trivial

@[grind ←] theorem abort (e : Abort) : L.Keeps m (throw e : Run α) := L.abort e

@[grind ←] theorem bind {r r' : Run α} {f f' : α → Run β} (h : L.Agree m r r')
    (hf : ∀ a, L.Agree m (f a) (f' a)) : L.Agree m (r >>= f) (r' >>= f') :=
  L.bind h fun a _ ↦ hf a

@[grind ←] theorem map {r r' : Run α} (f : α → β) (h : L.Agree m r r') :
    L.Agree m (f <$> r) (f <$> r') := by
  rw [← bind_pure_comp, ← bind_pure_comp]
  exact h.bind fun a ↦ .pure (f a)

theorem whenFirst {c : Prop} [Decidable c] {r r' : Run Unit} {f f' : Unit → Run α}
    (h : L.Agree m r r') (hf : ∀ u, L.Agree m (f u) (f' u)) :
    L.Agree m (if c then r >>= f else f ()) (if c then r' >>= f' else f' ()) :=
  whenFirst_to h hf

theorem attempt (hc : L.Catches) {r r' : Run α} (h : L.Agree m r r') :
    L.Agree m (Run.attempt r) (Run.attempt r') := L.attempt (.inl hc) h

@[grind ←] theorem attempt_self {r : Run α} (h : L.Keeps m r) : L.Keeps m (Run.attempt r) :=
  L.attempt (.inr rfl) h

@[grind ←] theorem protect {r r' : Run α} (h : L.Agree m r r') :
    L.Agree m (Run.protect r) (Run.protect r') := L.protect h

@[grind ←] theorem machine (f : Machine → α) : L.Keeps m (Run.machine f) := L.machine f

@[grind ←] theorem world (h : L.Shares) (f : World → α) : L.Keeps m (Run.world f) := L.world h f

@[grind ←] theorem modifyWorld (h : L.Shares) (f : World → World) :
    L.Keeps m (Run.modifyWorld f) := L.modifyWorld h f

theorem setInput (input : Input) :
    L.Keeps m (Run.modifyMachine fun machine ↦ { machine with input }) := L.setInput input

@[grind ←] theorem fail (f : Fault) : L.Keeps m (Run.fail f : Run α) := abort _

/-! ## The heap -/

@[grind ←] theorem newNative (name : String) (op : Native) : L.Keeps m (Heap.newNative name op) :=
  L.newNative name op

@[grind ←] theorem newUserdata (u : Userdata) : L.Keeps m (Heap.newUserdata u) := L.newUserdata u

@[grind ←] theorem modifyUserdata (r : Ref) (f : Userdata → Userdata) :
    L.Keeps m (Heap.modifyUserdata r f) := L.modifyUserdata r f

@[grind ←] theorem userdata? (r : Ref) : L.Keeps m (Heap.userdata? r) :=
  machine fun machine ↦ machine.userdata[r]?

@[grind ←] theorem function? (r : Ref) : L.Keeps m (Heap.function? r) :=
  machine fun machine ↦ machine.functions[r]?

@[grind ←] theorem newCell (v : Value) : L.Keeps m (Heap.newCell v) := L.newCell v

@[grind ←] theorem readCell (r : Ref) : L.Keeps m (Heap.readCell r) :=
  machine fun machine ↦ machine.cells[r]?.getD .nil

@[grind ←] theorem writeCell (r : Ref) (v : Value) : L.Keeps m (Heap.writeCell r v) :=
  L.writeCell r v

@[grind ←] theorem readTable (r : Ref) (f : Table → α) : L.Keeps m (Heap.readTable r f) :=
  machine fun machine ↦ f (machine.tables[r]?.getD .empty)

@[grind ←] theorem get (r : Ref) (key : Value) : L.Keeps m (Heap.get r key) := readTable r _

@[grind ←] theorem getStr (r : Ref) (key : String) : L.Keeps m (Heap.getStr r key) := readTable r _

@[grind ←] theorem getInt (r : Ref) (key : Int) : L.Keeps m (Heap.getInt r key) := readTable r _

@[grind ←] theorem length (r : Ref) : L.Keeps m (Heap.length r) := readTable r _

/-- A change of a table that leaves its string keys and its metatable as they are. -/
theorem modifyTable {r : Ref} {f : Table → Table} (h : ∀ t key, (f t).getStr key = t.getStr key)
    (ha : ∀ t, (f t).metatable = t.metatable) : L.Keeps m (Heap.modifyTable r f) :=
  L.modifyTable (fun t key ↦ .inr (h t key)) (.inr ha)

/-- String keys of a table, to which everything may be written, are given values. -/
theorem setFields {r : Ref} (h : ∀ key, L.Writes r key) (fields : List (String × Value)) :
    L.Keeps m (Heap.modifyTable r fun t ↦ fields.foldl (fun t (k, v) ↦ t.setStr k v) t) :=
  L.modifyTable (fun _ key ↦ .inl (h key)) (.inr fun t ↦ t.metatable_foldl_setStr fields)

@[grind ←] theorem setInt (r : Ref) (key : Int) (v : Value) : L.Keeps m (Heap.setInt r key v) :=
  modifyTable (fun t key' ↦ t.getStr_setInt key v key') fun t ↦ t.metatable_setInt key v

@[grind ←] theorem setStr {r : Ref} {key : String} (h : L.Writes r key) (v : Value) :
    L.Keeps m (Heap.setStr r key v) := by
  refine L.modifyTable (fun t key' ↦ ?_) (.inr fun t ↦ t.metatable_setStr key v)
  rw [Table.getStr_setStr]
  split
  · next heq => exact .inl (heq ▸ h)
  · exact .inr rfl

@[grind ←] theorem set {r : Ref} {key : Value} (h : ∀ s, key = .string s → L.Writes r s)
    (v : Value) :
    L.Keeps m (Heap.set r key v) := by
  unfold Heap.set
  split
  · next k named =>
    refine bind (L.modifyTable (fun t s ↦ ?_) (.inr fun t ↦ t.metatable_setKey ..)) fun _ ↦
      .pure _
    by_cases hk : k = .string s
    · subst hk
      exact .inl (h s (Key.eq_string_of_ofValue named))
    · exact .inr (Table.getStr_setKey_of_ne t hk)
  · apply pure

/-! ## Reports and arguments -/

@[grind ←] theorem frame? (level : Nat) : L.Keeps m (Report.frame? level) := machine _

@[grind ←] theorem location (level : Nat) : L.Keeps m (Report.location level) := machine _

@[grind ←] theorem functionName (level : Nat) : L.Keeps m (Report.functionName level) := machine _

@[grind ←] theorem traceback (message : Option String) (level : Nat) :
    L.Keeps m (Report.traceback message level) := machine _

@[grind ←] theorem raise (kind : FaultKind) (p : Problem) :
    L.Keeps m (Report.raise kind p : Run α) :=
  (location 1).bind fun _ ↦ fail _

@[grind ←] theorem here (p : Problem) : L.Keeps m (Report.here p : Run α) :=
  (location 0).bind fun _ ↦ fail _

@[grind ←] theorem argument (kind : FaultKind) (n : Nat) (p : ArgumentProblem) :
    L.Keeps m (Report.argument kind n p : Run α) :=
  (functionName 0).bind fun _ ↦ raise _ _

@[grind ←] theorem mismatch (v : Value) (n : Nat) (expected : String) :
    L.Keeps m (Arguments.mismatch v n expected : Run α) := argument ..

/-- A fault has no result. -/
theorem argument_to {P : α → Prop} (kind : FaultKind) (n : Nat) (p : ArgumentProblem) :
    L.Rel m (Report.argument kind n p) (Report.argument kind n p) P :=
  L.bind (functionName 0) fun _ _ ↦ L.bind (location 1) fun _ _ ↦ L.abort _

@[grind ←] theorem extract (e : Extractor α) (n : Nat) (v : Value) :
    L.Keeps m (Arguments.extract e n v) := by
  unfold Arguments.extract
  split
  · apply pure
  · apply mismatch

variable (args : Arguments)

@[grind ←] theorem checkAny (n : Nat) : L.Keeps m (args.checkAny n) := by
  unfold Arguments.checkAny
  split
  · apply argument
  · apply pure

theorem checkedAny (n : Nat) :
    L.Rel m (args.checkAny n) (args.checkAny n) fun v ↦ v = args.arg n := by
  unfold Arguments.checkAny
  split
  · apply argument_to
  · exact L.pure rfl

@[grind ←] theorem check (e : Extractor α) (n : Nat) : L.Keeps m (args.check e n) := extract ..

/-- An argument that is checked is read off the value that it is. -/
theorem checked (e : Extractor α) (n : Nat) :
    L.Rel m (args.check e n) (args.check e n) fun a ↦ e.get? (args.arg n) = some a := by
  unfold Arguments.check Arguments.extract
  split
  · next a ha => exact L.pure ha
  · apply argument_to

@[grind ←] theorem opt? (e : Extractor α) (n : Nat) : L.Keeps m (args.opt? e n) := by
  unfold Arguments.opt?
  split
  · apply pure
  · exact (check args e n).map some

@[grind ←] theorem opt (e : Extractor α) (n : Nat) (default : α) :
    L.Keeps m (args.opt e n default) := by
  unfold Arguments.opt
  split
  · apply pure
  · apply check

@[grind ←] theorem checkKind (n : Nat) (kind : Kind) : L.Keeps m (args.checkKind n kind) := by
  unfold Arguments.checkKind
  split
  · apply pure
  · apply argument

@[grind ←] theorem checkKinds (n : Nat) (kinds : List Kind) :
    L.Keeps m (args.checkKinds n kinds) := by
  unfold Arguments.checkKinds
  split
  · apply pure
  · apply argument

@[grind ←] theorem checkOption (n : Nat) (options : List String) :
    L.Keeps m (args.checkOption n options) := by
  refine (check args .string n).bind fun s ↦ ?_
  split
  · apply pure
  · apply argument

@[grind ←] theorem checkNumeral (n : Nat) : L.Keeps m (args.checkNumeral n) := by
  unfold Arguments.checkNumeral
  split
  · apply pure
  · apply mismatch

end Agree

end Run.Logic

end LuaEmbed
