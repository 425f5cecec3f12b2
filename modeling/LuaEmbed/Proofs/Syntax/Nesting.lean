import LuaEmbed.Chunk

/-!
# Nesting

How deeply blocks, parentheses and table constructors are nested in a tree, measured along its
paths: every such node has a weight, and a tree weighs as much as its heaviest path.

One kind of table constructor is kept apart.  A positional field that starts with a name goes on
from the name, and a table which is all the arguments of a call in that prefix expression is *bare*:
the parser reads it without opening a syntax level.
-/

namespace LuaEmbed

/-- The nodes that nesting is measured by. -/
inductive NodeKind where
  | block
  | paren
  | table
  | bareTable
deriving DecidableEq

/-- The syntax levels that the parser opens for a node. -/
def NodeKind.levels : NodeKind → Nat
  | .bareTable => 0
  | _ => 1

/-- The role of an expression, as far as it decides which tables are bare. -/
inductive Role where
  /-- At the head of a positional field that starts with a name. -/
  | head
  /-- As all the arguments of a call at such a head. -/
  | argument
  | plain
deriving DecidableEq

namespace Role

/-- What a table constructor in the role is. -/
def table : Role → NodeKind
  | .argument => .bareTable
  | _ => .table

/-- The role of the object or the callee of an expression. -/
def object : Role → Role
  | .head => .head
  | _ => .plain

/-- The role of the only argument of a call. -/
def args : Role → Role
  | .head => .argument
  | _ => .plain

theorem object_plain : object .plain = .plain := rfl

theorem args_plain : args .plain = .plain := rfl

end Role

/-- The expression starts with a name. -/
def Expr.startsWithName : Expr → Bool
  | .name _ => true
  | .index _ e _ | .call _ e _ | .method _ e _ _ | .binary _ _ e _ => e.startsWithName
  | _ => false

mutual

/-- The weight of the heaviest path through an expression. -/
def Expr.weight (w : NodeKind → Nat) : Role → Expr → Nat
  | _, .function body => body.weight w
  | p, .index _ object key => max (object.weight w p.object) (key.weight w .plain)
  | p, .call _ callee args => max (callee.weight w p.object) (Expr.weights w p.args args)
  | p, .method _ object _ args => max (object.weight w p.object) (Expr.weights w p.args args)
  | p, .table fields => w p.table + Field.weights w fields
  | p, .binary _ _ left right => max (left.weight w p.object) (right.weight w .plain)
  | _, .unary _ _ operand => operand.weight w .plain
  | _, .paren inner => w .paren + inner.weight w .plain
  | _, _ => 0

/-- The weight of the heaviest of some expressions, of which one that is alone has a role. -/
def Expr.weights (w : NodeKind → Nat) : Role → List Expr → Nat
  | _, [] => 0
  | p, e :: es => max (e.weight w (if es.isEmpty then p else .plain)) (Expr.weights w .plain es)

/-- The weight of a field of a table constructor. -/
def Field.weight (w : NodeKind → Nat) : Field → Nat
  | .keyed key value => max (key.weight w .plain) (value.weight w .plain)
  | .positional e => e.weight w (if e.startsWithName then .head else .plain)

/-- The weight of the heaviest of some fields. -/
def Field.weights (w : NodeKind → Nat) : List Field → Nat
  | [] => 0
  | f :: fs => max (f.weight w) (Field.weights w fs)

/-- The weight of the heaviest path through a statement. -/
def Stat.weight (w : NodeKind → Nat) : Stat → Nat
  | .local_ _ _ values => Expr.weights w .plain values
  | .assign _ targets values => max (Expr.weights w .plain targets) (Expr.weights w .plain values)
  | .call _ call => call.weight w .plain
  | .do_ block => w .block + Stat.weights w block
  | .while_ _ condition block =>
    max (condition.weight w .plain) (w .block + Stat.weights w block)
  | .repeat_ _ block condition =>
    max (w .block + Stat.weights w block) (condition.weight w .plain)
  | .if_ _ clauses none => Clause.weights w clauses
  | .if_ _ clauses (some block) => max (Clause.weights w clauses) (w .block + Stat.weights w block)
  | .numericFor _ _ start limit none block =>
    max (start.weight w .plain) (max (limit.weight w .plain) (w .block + Stat.weights w block))
  | .numericFor _ _ start limit (some step) block =>
    max (start.weight w .plain)
      (max (limit.weight w .plain)
        (max (step.weight w .plain) (w .block + Stat.weights w block)))
  | .genericFor _ _ values block =>
    max (Expr.weights w .plain values) (w .block + Stat.weights w block)
  | .function _ _ _ body | .localFunction _ _ body => body.weight w
  | .return_ _ values => Expr.weights w .plain values
  | .break_ _ => 0

/-- The weight of the heaviest of the statements of a block. -/
def Stat.weights (w : NodeKind → Nat) : List Stat → Nat
  | [] => 0
  | s :: ss => max (s.weight w) (Stat.weights w ss)

/-- The weight of a condition and its block. -/
def Clause.weight (w : NodeKind → Nat) : Clause → Nat
  | .mk condition block => max (condition.weight w .plain) (w .block + Stat.weights w block)

/-- The weight of the heaviest of some clauses. -/
def Clause.weights (w : NodeKind → Nat) : List Clause → Nat
  | [] => 0
  | c :: cs => max (c.weight w) (Clause.weights w cs)

/-- The weight of the heaviest path through a function, whose block counts. -/
def Body.weight (w : NodeKind → Nat) : Body → Nat
  | .mk _ _ _ block => w .block + Stat.weights w block

end

section Bounds

variable {w : NodeKind → Nat} {m : Nat}

theorem Expr.weights_singleton (r : Role) (e : Expr) : Expr.weights w r [e] = e.weight w r := by
  rw [Expr.weights, Expr.weights]
  exact Nat.max_eq_left (Nat.zero_le _)

theorem Expr.weights_le {es : List Expr} (h : ∀ e ∈ es, e.weight w .plain ≤ m) :
    Expr.weights w .plain es ≤ m := by
  induction es with
  | nil => exact Nat.zero_le m
  | cons e es ih =>
      rw [Expr.weights, ite_self]
      exact Nat.max_le.2 ⟨h e (List.mem_cons_self ..),
        ih fun e he ↦ h e (List.mem_cons_of_mem _ he)⟩

theorem Field.weights_le {fs : List Field} (h : ∀ f ∈ fs, f.weight w ≤ m) :
    Field.weights w fs ≤ m := by
  induction fs with
  | nil => exact Nat.zero_le m
  | cons f fs ih =>
      exact Nat.max_le.2 ⟨h f (List.mem_cons_self ..),
        ih fun f hf ↦ h f (List.mem_cons_of_mem _ hf)⟩

theorem Stat.weights_le {ss : List Stat} (h : ∀ s ∈ ss, s.weight w ≤ m) :
    Stat.weights w ss ≤ m := by
  induction ss with
  | nil => exact Nat.zero_le m
  | cons s ss ih =>
      exact Nat.max_le.2 ⟨h s (List.mem_cons_self ..),
        ih fun s hs ↦ h s (List.mem_cons_of_mem _ hs)⟩

theorem Clause.weights_le {cs : List Clause} (h : ∀ c ∈ cs, c.weight w ≤ m) :
    Clause.weights w cs ≤ m := by
  induction cs with
  | nil => exact Nat.zero_le m
  | cons c cs ih =>
      exact Nat.max_le.2 ⟨h c (List.mem_cons_self ..),
        ih fun c hc ↦ h c (List.mem_cons_of_mem _ hc)⟩

mutual

/-- No role makes an expression heavier if bare tables are no heavier than others. -/
theorem Expr.weight_le_plain (hw : w .bareTable ≤ w .table) : ∀ (r : Role) (e : Expr),
    e.weight w r ≤ e.weight w .plain
  | r, .index _ object key => by
    have := Expr.weight_le_plain hw r.object object
    simp only [Expr.weight, Role.object_plain]
    omega
  | r, .call _ callee args => by
    have := Expr.weight_le_plain hw r.object callee
    have := Expr.weights_le_plain hw r.args args
    simp only [Expr.weight, Role.object_plain, Role.args_plain]
    omega
  | r, .method _ object _ args => by
    have := Expr.weight_le_plain hw r.object object
    have := Expr.weights_le_plain hw r.args args
    simp only [Expr.weight, Role.object_plain, Role.args_plain]
    omega
  | r, .table fields => by
    simp only [Expr.weight]
    cases r with
    | argument => exact Nat.add_le_add_right hw _
    | head | plain => exact Nat.le_refl _
  | r, .binary _ _ left right => by
    have := Expr.weight_le_plain hw r.object left
    simp only [Expr.weight, Role.object_plain]
    omega
  | _, .function _ | _, .unary .. | _, .paren _ => Nat.le_refl _
  | _, .nil | _, .true_ | _, .false_ | _, .number _ | _, .string _ | _, .vararg | _, .name _ =>
    Nat.le_refl _

theorem Expr.weights_le_plain (hw : w .bareTable ≤ w .table) : ∀ (r : Role) (es : List Expr),
    Expr.weights w r es ≤ Expr.weights w .plain es
  | _, [] => Nat.le_refl _
  | r, e :: es => by
    have := Expr.weight_le_plain hw r e
    simp only [Expr.weights, ite_self]
    split
    · omega
    · exact Nat.le_refl _

end

end Bounds

/-! ## Sums of weights -/

theorem max_le_add_max {a a₁ a₂ b b₁ b₂ : Nat} (ha : a ≤ a₁ + a₂) (hb : b ≤ b₁ + b₂) :
    max a b ≤ max a₁ b₁ + max a₂ b₂ := by
  omega

mutual

theorem Expr.weight_add (w w' : NodeKind → Nat) : ∀ (r : Role) (e : Expr),
    e.weight (fun n ↦ w n + w' n) r ≤ e.weight w r + e.weight w' r
  | _, .function body => by
    have := Body.weight_add w w' body
    simp only [Expr.weight]
    omega
  | r, .index _ object key => by
    have := Expr.weight_add w w' r.object object
    have := Expr.weight_add w w' .plain key
    simp only [Expr.weight]
    omega
  | r, .call _ callee args => by
    have := Expr.weight_add w w' r.object callee
    have := Expr.weights_add w w' r.args args
    simp only [Expr.weight]
    omega
  | r, .method _ object _ args => by
    have := Expr.weight_add w w' r.object object
    have := Expr.weights_add w w' r.args args
    simp only [Expr.weight]
    omega
  | r, .table fields => by
    have := Field.weights_add w w' fields
    simp only [Expr.weight]
    omega
  | r, .binary _ _ left right => by
    have := Expr.weight_add w w' r.object left
    have := Expr.weight_add w w' .plain right
    simp only [Expr.weight]
    omega
  | _, .unary _ _ operand => by
    have := Expr.weight_add w w' .plain operand
    simp only [Expr.weight]
    omega
  | _, .paren inner => by
    have := Expr.weight_add w w' .plain inner
    simp only [Expr.weight]
    omega
  | _, .nil | _, .true_ | _, .false_ | _, .number _ | _, .string _ | _, .vararg | _, .name _ => by
    simp only [Expr.weight]
    omega

theorem Expr.weights_add (w w' : NodeKind → Nat) : ∀ (r : Role) (es : List Expr),
    Expr.weights (fun n ↦ w n + w' n) r es ≤ Expr.weights w r es + Expr.weights w' r es
  | _, [] => Nat.zero_le _
  | r, e :: es => by
    have := Expr.weight_add w w' (if es.isEmpty then r else .plain) e
    have := Expr.weights_add w w' .plain es
    simp only [Expr.weights]
    omega

theorem Field.weight_add (w w' : NodeKind → Nat) : ∀ f : Field,
    f.weight (fun n ↦ w n + w' n) ≤ f.weight w + f.weight w'
  | .keyed key value => by
    have := Expr.weight_add w w' .plain key
    have := Expr.weight_add w w' .plain value
    simp only [Field.weight]
    omega
  | .positional e => by
    have := Expr.weight_add w w' (if e.startsWithName then .head else .plain) e
    simp only [Field.weight]
    omega

theorem Field.weights_add (w w' : NodeKind → Nat) : ∀ fs : List Field,
    Field.weights (fun n ↦ w n + w' n) fs ≤ Field.weights w fs + Field.weights w' fs
  | [] => Nat.zero_le _
  | f :: fs => by
    have := Field.weight_add w w' f
    have := Field.weights_add w w' fs
    simp only [Field.weights]
    omega

theorem Stat.weight_add (w w' : NodeKind → Nat) : ∀ s : Stat,
    s.weight (fun n ↦ w n + w' n) ≤ s.weight w + s.weight w'
  | .local_ _ _ values | .return_ _ values => by
    have := Expr.weights_add w w' .plain values
    simp only [Stat.weight]
    omega
  | .assign _ targets values => by
    have := Expr.weights_add w w' .plain targets
    have := Expr.weights_add w w' .plain values
    simp only [Stat.weight]
    omega
  | .call _ call => by
    have := Expr.weight_add w w' .plain call
    simp only [Stat.weight]
    omega
  | .do_ block => by
    have := Stat.weights_add w w' block
    simp only [Stat.weight]
    omega
  | .while_ _ condition block | .repeat_ _ block condition => by
    have := Expr.weight_add w w' .plain condition
    have := Stat.weights_add w w' block
    simp only [Stat.weight]
    omega
  | .if_ _ clauses none => by
    have := Clause.weights_add w w' clauses
    simp only [Stat.weight]
    omega
  | .if_ _ clauses (some block) => by
    have := Clause.weights_add w w' clauses
    have := Stat.weights_add w w' block
    simp only [Stat.weight]
    omega
  | .numericFor _ _ start limit none block => by
    have hstart := Expr.weight_add w w' .plain start
    have hlimit := Expr.weight_add w w' .plain limit
    have := Stat.weights_add w w' block
    simp only [Stat.weight]
    exact max_le_add_max hstart (max_le_add_max hlimit (by omega))
  | .numericFor _ _ start limit (some step) block => by
    have hstart := Expr.weight_add w w' .plain start
    have hlimit := Expr.weight_add w w' .plain limit
    have hstep := Expr.weight_add w w' .plain step
    have := Stat.weights_add w w' block
    simp only [Stat.weight]
    exact max_le_add_max hstart (max_le_add_max hlimit (max_le_add_max hstep (by omega)))
  | .genericFor _ _ values block => by
    have := Expr.weights_add w w' .plain values
    have := Stat.weights_add w w' block
    simp only [Stat.weight]
    omega
  | .function _ _ _ body | .localFunction _ _ body => by
    have := Body.weight_add w w' body
    simp only [Stat.weight]
    omega
  | .break_ _ => Nat.zero_le _

theorem Stat.weights_add (w w' : NodeKind → Nat) : ∀ ss : List Stat,
    Stat.weights (fun n ↦ w n + w' n) ss ≤ Stat.weights w ss + Stat.weights w' ss
  | [] => Nat.zero_le _
  | s :: ss => by
    have := Stat.weight_add w w' s
    have := Stat.weights_add w w' ss
    simp only [Stat.weights]
    omega

theorem Clause.weight_add (w w' : NodeKind → Nat) : ∀ c : Clause,
    c.weight (fun n ↦ w n + w' n) ≤ c.weight w + c.weight w'
  | .mk condition block => by
    have := Expr.weight_add w w' .plain condition
    have := Stat.weights_add w w' block
    simp only [Clause.weight]
    omega

theorem Clause.weights_add (w w' : NodeKind → Nat) : ∀ cs : List Clause,
    Clause.weights (fun n ↦ w n + w' n) cs ≤ Clause.weights w cs + Clause.weights w' cs
  | [] => Nat.zero_le _
  | c :: cs => by
    have := Clause.weight_add w w' c
    have := Clause.weights_add w w' cs
    simp only [Clause.weights]
    omega

theorem Body.weight_add (w w' : NodeKind → Nat) : ∀ b : Body,
    b.weight (fun n ↦ w n + w' n) ≤ b.weight w + b.weight w'
  | .mk _ _ _ block => by
    have := Stat.weights_add w w' block
    simp only [Body.weight]
    omega

end

namespace Body

/-- The number of blocks, parentheses and tables on a path of a function. -/
def nesting (b : Body) : Nat := b.weight fun _ ↦ 1

/-- The number of bare tables on a path of a function. -/
def bareTables (b : Body) : Nat := b.weight fun kind ↦ 1 - kind.levels

/-- The number of nodes on a path of a function that open a syntax level. -/
def levels (b : Body) : Nat := b.weight NodeKind.levels

/-- Nodes that open no syntax level are bare tables. -/
theorem nesting_le (b : Body) : b.nesting ≤ b.levels + b.bareTables := by
  have h : (fun _ ↦ 1 : NodeKind → Nat) = fun kind ↦ kind.levels + (1 - kind.levels) := by
    funext kind
    cases kind <;> rfl
  rw [nesting, h]
  exact Body.weight_add NodeKind.levels (fun kind ↦ 1 - kind.levels) b

end Body

end LuaEmbed
