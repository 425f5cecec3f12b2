/-! # Chunks

The tree of a chunk: blocks of statements, expressions, and function bodies. Nodes at which a run
can fail or call carry the line that is reported for them. -/

namespace LuaEmbed

/-- The operators between two operands. -/
inductive BinaryOp where
  | add | sub | mul | div | mod | pow | concat
  | eq | ne | lt | le | gt | ge
  | and | or
deriving DecidableEq, Repr

namespace BinaryOp

/-- How tightly an operator binds the operand on its left and the one on its right. The two differ
for the operators that associate to the right. -/
def priority : BinaryOp → Nat × Nat
  | .or => (1, 1)
  | .and => (2, 2)
  | .eq | .ne | .lt | .le | .gt | .ge => (3, 3)
  | .concat => (5, 4)
  | .add | .sub => (6, 6)
  | .mul | .div | .mod => (7, 7)
  | .pow => (10, 9)

end BinaryOp

/-- The operators before one operand. -/
inductive UnaryOp where
  | neg | not | len
deriving DecidableEq, Repr

/-- How tightly the operators before one operand bind it. -/
def UnaryOp.priority : Nat := 8

mutual

/-- An expression. -/
inductive Expr where
  | nil
  | true_
  | false_
  | number (n : Float)
  | string (s : String)
  | vararg
  | function (body : Body)
  | name (s : String)
  | index (line : Nat) (object key : Expr)
  | call (line : Nat) (callee : Expr) (args : List Expr)
  | method (line : Nat) (object : Expr) (name : String) (args : List Expr)
  | table (fields : List Field)
  | binary (line : Nat) (op : BinaryOp) (left right : Expr)
  | unary (line : Nat) (op : UnaryOp) (operand : Expr)
  /-- Parentheses cut the results of a call down to one. -/
  | paren (inner : Expr)

/-- A field of a table constructor. -/
inductive Field where
  | keyed (key value : Expr)
  | positional (value : Expr)

/-- A statement. -/
inductive Stat where
  | local_ (line : Nat) (names : List String) (values : List Expr)
  | assign (line : Nat) (targets values : List Expr)
  | call (line : Nat) (call : Expr)
  | do_ (block : List Stat)
  | while_ (line : Nat) (condition : Expr) (block : List Stat)
  | repeat_ (line : Nat) (block : List Stat) (condition : Expr)
  | if_ (line : Nat) (clauses : List Clause) (otherwise : Option (List Stat))
  | numericFor (line : Nat) (var : String) (start limit : Expr) (step : Option Expr)
      (block : List Stat)
  | genericFor (line : Nat) (names : List String) (values : List Expr) (block : List Stat)
  | function (line : Nat) (path : List String) (method : Option String) (body : Body)
  | localFunction (line : Nat) (name : String) (body : Body)
  | return_ (line : Nat) (values : List Expr)
  | break_ (line : Nat)

/-- A condition and the block that runs if it holds. -/
inductive Clause where
  | mk (condition : Expr) (block : List Stat)

/-- A function: its parameters, whether it takes more arguments than those, the line it starts on
(0 for a whole chunk), and its block. -/
inductive Body where
  | mk (params : List String) (isVararg : Bool) (line : Nat) (block : List Stat)

end

/-- A sequence of statements. -/
abbrev Block := List Stat

namespace Body

/-- The names of the parameters. -/
def params : Body → List String
  | mk params _ _ _ => params

/-- Whether `...` stands for further arguments. -/
def isVararg : Body → Bool
  | mk _ isVararg _ _ => isVararg

/-- The line on which the function starts. -/
def line : Body → Nat
  | mk _ _ line _ => line

/-- The statements of the function. -/
def block : Body → Block
  | mk _ _ _ block => block

end Body

/-- The line on which a statement starts. A `do` block has that of its first statement, an empty one
has line 0. -/
def Stat.line : Stat → Nat
  | .local_ line .. | .assign line .. | .call line .. | .while_ line .. | .repeat_ line ..
  | .if_ line .. | .numericFor line .. | .genericFor line .. | .function line ..
  | .localFunction line .. | .return_ line .. | .break_ line => line
  | .do_ [] => 0
  | .do_ (s :: _) => s.line

namespace Expr

/-- The expressions that can have any number of values. -/
def isMulti : Expr → Bool
  | .call .. | .method .. | .vararg => true
  | _ => false

/-- The expressions that can be assigned to. -/
def isTarget : Expr → Bool
  | .name _ | .index .. => true
  | _ => false

/-- The expressions that are statements. -/
def isCall : Expr → Bool
  | .call .. | .method .. => true
  | _ => false

end Expr

/-- A chunk: the name under which its positions are reported, and the function it is the body
of. -/
structure Chunk where
  name : String
  body : Body

end LuaEmbed
