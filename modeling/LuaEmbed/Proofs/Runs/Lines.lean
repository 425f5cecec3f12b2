import LuaEmbed.Proofs.Runs.Frames

/-!
# Lines of script functions

A script function moves its frame from line to line, and only to lines that its code records.  What
it runs in between, operations with all that they call, leaves the frame where it is.  So where two
runs are compared that start with the frame at one of some lines, it is known for each part of them
at which lines the frame can be.
-/

namespace LuaEmbed

/-! ## Recorded lines -/

mutual

/-- The lines that an expression records for what it does itself; functions in it do not count. -/
def Expr.lines : Expr → List Nat
  | .index line object key => line :: (object.lines ++ key.lines)
  | .call line callee args => line :: (callee.lines ++ Expr.linesOfAll args)
  | .method line object _ args => line :: (object.lines ++ Expr.linesOfAll args)
  | .table fields => Field.linesOfAll fields
  | .binary line _ left right => line :: (left.lines ++ right.lines)
  | .unary line _ operand => line :: operand.lines
  | .paren inner => inner.lines
  | .nil | .true_ | .false_ | .number _ | .string _ | .vararg | .function _ | .name _ => []

/-- The lines that some expressions record. -/
def Expr.linesOfAll : List Expr → List Nat
  | [] => []
  | e :: es => e.lines ++ Expr.linesOfAll es

/-- The lines that a field of a table constructor records. -/
def Field.lines : Field → List Nat
  | .keyed key value => key.lines ++ value.lines
  | .positional e => e.lines

/-- The lines that some fields record. -/
def Field.linesOfAll : List Field → List Nat
  | [] => []
  | f :: fs => f.lines ++ Field.linesOfAll fs

end

mutual

/-- The lines that a statement records for what it does itself. -/
def Stat.lines : Stat → List Nat
  | .local_ line _ values => line :: Expr.linesOfAll values
  | .assign line targets values => line :: (Expr.linesOfAll targets ++ Expr.linesOfAll values)
  | .call line e => line :: e.lines
  | .do_ block => Stat.linesOfAll block
  | .while_ line condition block => line :: (condition.lines ++ Stat.linesOfAll block)
  | .repeat_ line block condition => line :: (Stat.linesOfAll block ++ condition.lines)
  | .if_ line clauses none => line :: Clause.linesOfAll clauses
  | .if_ line clauses (some block) => line :: (Clause.linesOfAll clauses ++ Stat.linesOfAll block)
  | .numericFor line _ start limit none block =>
    line :: (start.lines ++ limit.lines ++ Stat.linesOfAll block)
  | .numericFor line _ start limit (some step) block =>
    line :: (start.lines ++ limit.lines ++ step.lines ++ Stat.linesOfAll block)
  | .genericFor line _ values block => line :: (Expr.linesOfAll values ++ Stat.linesOfAll block)
  | .return_ line values => line :: Expr.linesOfAll values
  | .function line .. | .localFunction line .. | .break_ line => [line]

/-- The lines that the statements of a block record. -/
def Stat.linesOfAll : List Stat → List Nat
  | [] => []
  | s :: ss => s.lines ++ Stat.linesOfAll ss

/-- The lines that a condition and its block record. -/
def Clause.lines : Clause → List Nat
  | .mk condition block => condition.lines ++ Stat.linesOfAll block

/-- The lines that some conditions and their blocks record. -/
def Clause.linesOfAll : List Clause → List Nat
  | [] => []
  | c :: cs => c.lines ++ Clause.linesOfAll cs

end

theorem Stat.line_mem_lines : ∀ {s : Stat}, 0 < s.line → s.line ∈ s.lines
  | .do_ (s :: _), h => List.mem_append_left _ (Stat.line_mem_lines (s := s) h)
  | .if_ _ _ none, _ | .if_ _ _ (some _), _ => List.mem_cons_self
  | .numericFor _ _ _ _ none _, _ | .numericFor _ _ _ _ (some _) _, _ => List.mem_cons_self
  | .local_ .., _ | .assign .., _ | .call .., _ => List.mem_cons_self
  | .while_ .., _ | .repeat_ .., _ => List.mem_cons_self
  | .genericFor .., _ | .return_ .., _ => List.mem_cons_self
  | .function .., _ | .localFunction .., _ | .break_ .., _ => List.mem_cons_self

/-! ## The line of the running function -/

namespace Session

/-- The line of the innermost active call, if it is one of a script function. -/
def line? (s : Session) : Option Nat :=
  s.machine.frames.head?.bind fun f ↦ f.site.map Site.currentLine

/-- The innermost active call is one of a script function, at one of the lines. -/
def OnLine (lines : List Nat) (s : Session) : Prop := ∃ line ∈ lines, s.line? = some line

instance (lines : List Nat) (s : Session) : Decidable (s.OnLine lines) :=
  inferInstanceAs (Decidable (∃ line ∈ lines, s.line? = some line))

variable {s s' : Session} {lines lines' : List Nat} {line : Nat}

theorem OnLine.mono (h : s.OnLine lines) (hle : lines ⊆ lines') : s.OnLine lines' :=
  let ⟨line, hmem, hline⟩ := h
  ⟨line, hle hmem, hline⟩

theorem OnLine.of_frames (h : s.OnLine lines) (hs : s'.machine.frames = s.machine.frames) :
    s'.OnLine lines := by
  rw [OnLine, line?, hs]
  exact h

theorem onLine_script (name : Option String) (chunk : String) (line : Nat) (s : Session) :
    (s.mapFrames (.script name chunk line :: ·)).OnLine [line] :=
  ⟨line, List.mem_cons_self, rfl⟩

theorem onLine_goToLine (h : s.OnLine lines) (line : Nat) :
    ((Evaluation.goToLine line).after s).OnLine [line] := by
  obtain ⟨_, -, hline⟩ := h
  refine ⟨line, List.mem_cons_self, ?_⟩
  unfold Evaluation.goToLine
  cases hframes : s.machine.frames with
  | nil => simp [line?, hframes] at hline
  | cons f fs =>
      cases hsite : f.site with
      | none => simp [line?, hframes, hsite] at hline
      | some site => simp [line?, Run.after, Run.modifyMachine, hframes, Frame.atLine, hsite]

end Session

/-! ## Runs of script functions -/

namespace Run

variable {α β : Type} {T T' S S' U : List Nat}

/-- Where the running function is at one of the lines `T`, both runs do the same, and if they
succeed it is at one of the lines `S`. -/
structure Tracks (T S : List Nat) (r r' : Run α) : Prop where
  eq {s : Session} (hs : s.OnLine T) : r s = r' s
  onLine {s : Session} (hs : s.OnLine T) {a : α} {s' : Session} (h : r' s = .ok a s') : s'.OnLine S

namespace Tracks

/-- Where the running function is at one of the lines, both callers do the same. -/
def Callers (T : List Nat) (call call' : Caller) : Prop :=
  ∀ f args name, Tracks T T (call f args name) (call' f args name)

variable {r r' : Run α} {f f' : α → Run β}

theorem mono (h : Tracks T S r r') (hT : T' ⊆ T) (hS : S ⊆ S') : Tracks T' S' r r' where
  eq hs := h.eq (hs.mono hT)
  onLine hs _ _ ha := (h.onLine (hs.mono hT) ha).mono hS

theorem bind (h : Tracks T S r r') (hf : ∀ a, Tracks S U (f a) (f' a)) :
    Tracks T U (r >>= f) (r' >>= f') where
  eq {s} hs := by
    cases hr : r' s with
    | ok a s₁ =>
        rw [bind_of_ok ((h.eq hs).trans hr), bind_of_ok hr]
        exact (hf a).eq (h.onLine hs hr)
    | error e s₁ => rw [bind_of_error ((h.eq hs).trans hr), bind_of_error hr]
  onLine hs _ _ hb :=
    let ⟨a, _, ha, hb⟩ := exists_of_bind_ok hb
    (hf a).onLine (h.onLine hs ha) hb

/-- What leaves the active calls as they are leaves the running function where it is. -/
theorem keeps (h : Regular.logic.Keeps false r) : Tracks T T r r where
  eq _ := rfl
  onLine {s} hs _ _ ha := hs.of_frames (after_of_ok ha ▸ h.1.frames s)

theorem pure (a : α) : Tracks T T (Pure.pure a) (Pure.pure a) := keeps (.pure a)

/-- A run that never succeeds ends nowhere. -/
theorem abort (e : Abort) : Tracks T S (throw e : Run α) (throw e) := ⟨fun _ ↦ rfl, nofun⟩

theorem goToLine (line : Nat) :
    Tracks T [line] (Evaluation.goToLine line) (Evaluation.goToLine line) where
  eq _ := rfl
  onLine hs _ _ ha := after_of_ok ha ▸ Session.onLine_goToLine hs line

/-- A line is one of the lines where the running function may be. -/
theorem fromLine {line : Nat} (h : Tracks T S r r') (hline : line ∈ T) : Tracks [line] S r r' :=
  h.mono (List.cons_subset.2 ⟨hline, List.nil_subset T⟩) (List.Subset.refl S)

/-- What is done once the running function is at a line. -/
theorem atLine {k k' : Unit → Run α} {line : Nat} (hline : line ∈ S)
    (h : Tracks [line] [line] (k ()) (k' ())) :
    Tracks S S (Evaluation.goToLine line >>= k) (Evaluation.goToLine line >>= k') :=
  (goToLine line).bind fun _ ↦
    h.mono (List.Subset.refl _) (List.cons_subset.2 ⟨hline, List.nil_subset S⟩)

/-! ### Operations -/

section Operations

@[grind ←] theorem bind_self (h : Tracks T T r r') (hf : ∀ a, Tracks T T (f a) (f' a)) :
    Tracks T T (r >>= f) (r' >>= f') := h.bind hf

attribute [grind ←] pure

@[grind ←] theorem here (p : Problem) :
    Tracks T T (Report.here p : Run α) (Report.here p) := keeps (.here p)

@[grind ←] theorem metaField (v : Value) (event : String) :
    Tracks T T (Metatable.field v event) (Metatable.field v event) := keeps (.metaField v event)

@[grind ←] theorem eitherHandler (a b : Value) (event : String) :
    Tracks T T (Operation.eitherHandler a b event) (Operation.eitherHandler a b event) :=
  keeps (.eitherHandler a b event)

@[grind ←] theorem sharedHandler (a b : Value) (event : String) :
    Tracks T T (Operation.sharedHandler a b event) (Operation.sharedHandler a b event) :=
  keeps (.sharedHandler a b event)

@[grind ←] theorem get (t : Ref) (key : Value) :
    Tracks T T (Heap.get t key) (Heap.get t key) := keeps (.get t key)

@[grind ←] theorem length (t : Ref) :
    Tracks T T (Heap.length t) (Heap.length t) := keeps (.length t)

variable {call call' : Caller} (hcall : Callers T call call')

include hcall

@[grind ←] theorem first (handler : Value) (args : List Value) :
    Tracks T T (Operation.first call handler args) (Operation.first call' handler args) :=
  (hcall ..).bind fun _ ↦ .pure _

theorem index (v key : Value) :
    Tracks T T (Operation.index call v key) (Operation.index call' v key) := by
  suffices h : ∀ n v, Tracks T T (Operation.indexWithin call key n v)
      (Operation.indexWithin call' key n v) from h _ _
  intro n
  induction n with
  | zero => exact fun v ↦ here _
  | succ n ih =>
      intro v
      unfold Operation.indexWithin
      grind -funext

theorem arithmetic (op : ArithmeticOp) (a b : Value) :
    Tracks T T (Operation.arithmetic call op a b) (Operation.arithmetic call' op a b) := by
  unfold Operation.arithmetic
  grind -funext

theorem negate (v : Value) :
    Tracks T T (Operation.negate call v) (Operation.negate call' v) := by
  unfold Operation.negate
  grind -funext

theorem concat (a b : Value) :
    Tracks T T (Operation.concat call a b) (Operation.concat call' a b) := by
  unfold Operation.concat
  grind -funext

theorem lengthOf (v : Value) :
    Tracks T T (Operation.length call v) (Operation.length call' v) := by
  unfold Operation.length
  grind -funext

theorem equals (a b : Value) :
    Tracks T T (Operation.equals call a b) (Operation.equals call' a b) := by
  unfold Operation.equals
  grind -funext

theorem lessThan (a b : Value) :
    Tracks T T (Operation.lessThan call a b) (Operation.lessThan call' a b) := by
  unfold Operation.lessThan
  grind -funext

theorem lessEqual (a b : Value) :
    Tracks T T (Operation.lessEqual call a b) (Operation.lessEqual call' a b) := by
  unfold Operation.lessEqual
  grind -funext

theorem getField (what : Option Described) (v key : Value) :
    Tracks T T (Evaluation.getField call what v key) (Evaluation.getField call' what v key) := by
  refine (keeps (.isIndexable ..)).bind fun indexable ↦ ?_
  split
  · exact index hcall v key
  · apply here

theorem binary (op : BinaryOp) (a b : Value) :
    Tracks T T (Evaluation.binary call op a b) (Evaluation.binary call' op a b) := by
  cases op with
  | add | sub | mul | div | mod | pow => exact arithmetic hcall _ a b
  | concat => exact concat hcall a b
  | eq | ne => exact (equals hcall a b).bind fun _ ↦ .pure _
  | lt => exact (lessThan hcall a b).bind fun _ ↦ .pure _
  | gt => exact (lessThan hcall b a).bind fun _ ↦ .pure _
  | le => exact (lessEqual hcall a b).bind fun _ ↦ .pure _
  | ge => exact (lessEqual hcall b a).bind fun _ ↦ .pure _
  | and | or => apply pure

theorem unary (op : UnaryOp) (v : Value) :
    Tracks T T (Evaluation.unary call op v) (Evaluation.unary call' op v) := by
  cases op with
  | neg => exact negate hcall v
  | not => apply pure
  | len => exact lengthOf hcall v

end Operations

end Tracks

end Run

end LuaEmbed
