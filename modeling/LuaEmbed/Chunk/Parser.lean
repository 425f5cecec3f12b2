import LuaEmbed.Chunk
import LuaEmbed.Chunk.SyntaxError

/-! # Parsing

`Chunk.ofBytes` reads a chunk by recursive descent with one lexeme of lookahead. A fault of the
lexer is reported when its lexeme is looked at, so a complaint about an earlier lexeme comes first.

Every function takes a bound on the depth of its own calls, which `Chunk.ofBytes` sets so high that
no source reaches it: each call that reads no lexeme leads to one that does within eight steps.
The limit that sources do reach is the one on syntax levels, of which blocks and expressions take
one each. -/

namespace LuaEmbed

/-- A parser: it reads from the front of the lexemes and leaves the rest, or fails. -/
abbrev Parser := StateT (List Lexeme) (Except SyntaxError)

namespace Parser

/-- The lexeme at the front. -/
def current : Parser Lexeme := do
  match ← get with
  | l :: _ => pure l
  | [] => pure ⟨.ok .endOfInput, .first, Lexeme.endText⟩

/-- Fail with a complaint about the lexeme at the front. -/
def complain {α : Type} (what : Complaint) : Parser α := do
  throw ((← current).complain what)

/-- The token at the front. -/
def peek : Parser Token := do
  let l ← current
  match l.outcome with
  | .ok t => pure t
  | .error fault => throw ⟨l.position.line, .lexical fault⟩

/-- The line of the lexeme at the front. -/
def line : Parser Nat := do return (← current).position.line

/-- Drop the lexeme at the front. -/
def advance : Parser Unit := modify List.tail

/-- The token at the front is the terminal `t`. -/
def check (t : Terminal) : Parser Bool := do return (← peek).isTerminal t

/-- Read the terminal `t` if it is at the front. -/
def accept (t : Terminal) : Parser Bool := do
  if ← check t then
    advance
    return true
  else return false

/-- Read the terminal `t`. -/
def expect (t : Terminal) : Parser Unit := do
  unless ← accept t do complain (.expected t)

/-- Read the terminal `t` that closes what `opener` opened on the line `opened`. -/
def expectMatch (t opener : Terminal) (opened : Nat) : Parser Unit := do
  unless ← accept t do
    if (← line) == opened then complain (.expected t)
    else complain (.expectedToClose t opener opened)

/-- Read a name. -/
def name : Parser String := do
  match ← peek with
  | .name s =>
    advance
    return s
  | _ => complain .expectedName

/-- Read names, each after the terminal `separator`, at most `n`; those before are held in
reverse. -/
def namesAfter (separator : Terminal) : Nat → List String → Parser (List String)
  | 0, _ => complain .tooManyLevels
  | n + 1, before => do
    if ← accept separator then
      let s ← name
      namesAfter separator n (s :: before)
    else return before.reverse

/-- Read the parameters of a function up to `)`: their names, and whether `...` ends them. -/
def params : Nat → List String → Parser (List String × Bool)
  | 0, _ => complain .tooManyLevels
  | n + 1, before => do
    if ← accept .ellipsis then return (before.reverse, true)
    else
      let s ← name
      if ← accept .comma then params n (s :: before)
      else return ((s :: before).reverse, false)

/-- What surrounds the construct being read. -/
structure Context where
  /-- The number of syntax levels that may still be opened. -/
  levels : Nat
  /-- The innermost function takes `...`. -/
  vararg : Bool
  /-- There is a loop around, inside the innermost function. -/
  loop : Bool

/-- The number of syntax levels in a chunk. -/
def maxLevels : Nat := 200

/-- Read something one syntax level deeper. -/
def nested {α : Type} (c : Context) (p : Context → Parser α) : Parser α :=
  match c.levels with
  | 0 => complain .tooManyLevels
  | levels + 1 => p { c with levels }

/-- The operator that a token is between two operands. -/
def binaryOp? : Token → Option BinaryOp
  | .terminal t =>
    match t with
    | .plus => some .add
    | .minus => some .sub
    | .star => some .mul
    | .slash => some .div
    | .percent => some .mod
    | .caret => some .pow
    | .concat => some .concat
    | .equal => some .eq
    | .notEqual => some .ne
    | .less => some .lt
    | .lessEqual => some .le
    | .greater => some .gt
    | .greaterEqual => some .ge
    | .and => some .and
    | .or => some .or
    | _ => none
  | _ => none

/-- The operator that a token is before one operand. -/
def unaryOp? : Token → Option UnaryOp
  | .terminal .not => some .not
  | .terminal .minus => some .neg
  | .terminal .hash => some .len
  | _ => none

mutual

/-- A block: statements one level deeper. -/
def block : Nat → Context → Parser Block
  | 0, _ => complain .tooManyLevels
  | n + 1, c => nested c fun c => statements n c []
termination_by structural n => n

/-- The statements up to the token that ends the block; those before are held in reverse. -/
def statements : Nat → Context → List Stat → Parser Block
  | 0, _, _ => complain .tooManyLevels
  | n + 1, c, before => do
    let t ← peek
    if t.endsBlock then return before.reverse
    match t with
    | .terminal .return_ =>
      let s ← returnStat n c
      return (s :: before).reverse
    | .terminal .break_ =>
      let at_ ← line
      advance
      if !c.loop then complain .noLoopToBreak
      let _ ← accept .semicolon
      return (Stat.break_ at_ :: before).reverse
    | _ =>
      let s ← statement n c
      let _ ← accept .semicolon
      statements n c (s :: before)
termination_by structural n => n

/-- The block of a loop. -/
def loopBlock : Nat → Context → Parser Block
  | 0, _ => complain .tooManyLevels
  | n + 1, c => block n { c with loop := true }
termination_by structural n => n

/-- A `return` statement. -/
def returnStat : Nat → Context → Parser Stat
  | 0, _ => complain .tooManyLevels
  | n + 1, c => do
    let at_ ← line
    advance
    let t ← peek
    let values ← if t.endsBlock || t.isTerminal .semicolon then pure [] else exprList n c
    let _ ← accept .semicolon
    return .return_ at_ values
termination_by structural n => n

/-- A statement other than `return` and `break`. -/
def statement : Nat → Context → Parser Stat
  | 0, _ => complain .tooManyLevels
  | n + 1, c => do
    let at_ ← line
    match ← peek with
    | .terminal .if_ =>
      advance
      let condition ← expr n c
      expect .then_
      let first ← block n c
      ifRest n c at_ [Clause.mk condition first]
    | .terminal .while_ =>
      advance
      let condition ← expr n c
      expect .do_
      let body ← loopBlock n c
      expectMatch .end_ .while_ at_
      return .while_ at_ condition body
    | .terminal .do_ =>
      advance
      let body ← block n c
      expectMatch .end_ .do_ at_
      return .do_ body
    | .terminal .for_ => forStat n c at_
    | .terminal .repeat_ =>
      advance
      let body ← loopBlock n c
      expectMatch .until_ .repeat_ at_
      let condition ← expr n c
      return .repeat_ at_ body condition
    | .terminal .function =>
      advance
      let first ← name
      let path ← namesAfter .dot n [first]
      if ← accept .colon then
        let method ← name
        let body ← funcBody n c true at_
        return .function at_ path (some method) body
      else
        let body ← funcBody n c false at_
        return .function at_ path none body
    | .terminal .local_ =>
      advance
      if ← accept .function then
        let s ← name
        let body ← funcBody n c false at_
        return .localFunction at_ s body
      else
        let first ← name
        let names ← namesAfter .comma n [first]
        let values ← if ← accept .assign then exprList n c else pure []
        return .local_ at_ names values
    | _ => exprStat n c at_
termination_by structural n => n

/-- The rest of an `if` statement after its first clauses, which are held in reverse. -/
def ifRest : Nat → Context → Nat → List Clause → Parser Stat
  | 0, _, _, _ => complain .tooManyLevels
  | n + 1, c, at_, before => do
    if ← accept .elseif then
      let condition ← expr n c
      expect .then_
      let body ← block n c
      ifRest n c at_ (Clause.mk condition body :: before)
    else if ← accept .else_ then
      let otherwise ← block n c
      expectMatch .end_ .if_ at_
      return .if_ at_ before.reverse (some otherwise)
    else
      expectMatch .end_ .if_ at_
      return .if_ at_ before.reverse none
termination_by structural n => n

/-- A `for` statement of either form. -/
def forStat : Nat → Context → Nat → Parser Stat
  | 0, _, _ => complain .tooManyLevels
  | n + 1, c, at_ => do
    advance
    let first ← name
    if ← accept .assign then
      let start ← expr n c
      expect .comma
      let limit ← expr n c
      let step ← if ← accept .comma then some <$> expr n c else pure none
      expect .do_
      let body ← loopBlock n c
      expectMatch .end_ .for_ at_
      return .numericFor at_ first start limit step body
    else
      let names ← namesAfter .comma n [first]
      if !(← accept .in_) then complain .expectedAssignOrIn
      let values ← exprList n c
      expect .do_
      let body ← loopBlock n c
      expectMatch .end_ .for_ at_
      return .genericFor at_ names values body
termination_by structural n => n

/-- An assignment or a call. -/
def exprStat : Nat → Context → Nat → Parser Stat
  | 0, _, _ => complain .tooManyLevels
  | n + 1, c, at_ => do
    let first ← suffixedExpr n c
    let t ← peek
    if t.isTerminal .assign || t.isTerminal .comma then
      let targets ← targetsAfter n c [first]
      if !targets.all Expr.isTarget then complain .notAStatement
      expect .assign
      let values ← exprList n c
      return .assign at_ targets values
    else if first.isCall then return .call at_ first
    else complain .notAStatement
termination_by structural n => n

/-- The targets of an assignment after the first ones, which are held in reverse. -/
def targetsAfter : Nat → Context → List Expr → Parser (List Expr)
  | 0, _, _ => complain .tooManyLevels
  | n + 1, c, before => do
    if ← accept .comma then
      let target ← suffixedExpr n c
      targetsAfter n c (target :: before)
    else return before.reverse
termination_by structural n => n

/-- The parameters and the block of a function that starts on the given line. -/
def funcBody : Nat → Context → Bool → Nat → Parser Body
  | 0, _, _, _ => complain .tooManyLevels
  | n + 1, c, isMethod, at_ => do
    expect .leftParen
    let self := if isMethod then ["self"] else []
    let (names, isVararg) ←
      if ← check .rightParen then pure (self, false) else params n self.reverse
    expect .rightParen
    let body ← block n { c with vararg := isVararg, loop := false }
    expectMatch .end_ .function at_
    return .mk names isVararg at_ body
termination_by structural n => n

/-- Expressions separated by commas. -/
def exprList : Nat → Context → Parser (List Expr)
  | 0, _ => complain .tooManyLevels
  | n + 1, c => do
    let first ← expr n c
    exprsAfter n c [first]
termination_by structural n => n

/-- The expressions after the first ones, which are held in reverse. -/
def exprsAfter : Nat → Context → List Expr → Parser (List Expr)
  | 0, _, _ => complain .tooManyLevels
  | n + 1, c, before => do
    if ← accept .comma then
      let e ← expr n c
      exprsAfter n c (e :: before)
    else return before.reverse
termination_by structural n => n

/-- An expression. -/
def expr : Nat → Context → Parser Expr
  | 0, _ => complain .tooManyLevels
  | n + 1, c => subexpr n c 0
termination_by structural n => n

/-- An expression of operators that bind tighter than the limit, one level deeper. -/
def subexpr : Nat → Context → Nat → Parser Expr
  | 0, _, _ => complain .tooManyLevels
  | n + 1, c, limit => nested c fun c => operand n c limit
termination_by structural n => n

/-- An operand and the operators after it that bind tighter than the limit. -/
def operand : Nat → Context → Nat → Parser Expr
  | 0, _, _ => complain .tooManyLevels
  | n + 1, c, limit => do
    let at_ ← line
    match unaryOp? (← peek) with
    | some op =>
      advance
      let e ← subexpr n c UnaryOp.priority
      binaryTail n c (.unary at_ op e) limit
    | none =>
      let e ← simpleExpr n c
      binaryTail n c e limit
termination_by structural n => n

/-- The operators after an operand that bind tighter than the limit, with their right operands. -/
def binaryTail : Nat → Context → Expr → Nat → Parser Expr
  | 0, _, _, _ => complain .tooManyLevels
  | n + 1, c, left, limit => do
    match binaryOp? (← peek) with
    | none => return left
    | some op =>
      if op.priority.1 ≤ limit then return left
      else
        let at_ ← line
        advance
        let right ← subexpr n c op.priority.2
        binaryTail n c (.binary at_ op left right) limit
termination_by structural n => n

/-- An expression without operators. -/
def simpleExpr : Nat → Context → Parser Expr
  | 0, _ => complain .tooManyLevels
  | n + 1, c => do
    let at_ ← line
    match ← peek with
    | .number x => do advance; return .number x
    | .string s => do advance; return .string s
    | .terminal .nil => do advance; return .nil
    | .terminal .true_ => do advance; return .true_
    | .terminal .false_ => do advance; return .false_
    | .terminal .ellipsis =>
      if c.vararg then
        advance
        return .vararg
      else complain .varargOutside
    | .terminal .leftBrace => tableConstructor n c
    | .terminal .function =>
      advance
      let body ← funcBody n c false at_
      return .function body
    | _ => suffixedExpr n c
termination_by structural n => n

/-- A name or an expression in parentheses. -/
def primaryExpr : Nat → Context → Parser Expr
  | 0, _ => complain .tooManyLevels
  | n + 1, c => do
    match ← peek with
    | .name s => do advance; return .name s
    | .terminal .leftParen =>
      let at_ ← line
      advance
      let inner ← expr n c
      expectMatch .rightParen .leftParen at_
      return .paren inner
    | _ => complain .unexpectedSymbol
termination_by structural n => n

/-- A primary expression with the indices and calls after it. -/
def suffixedExpr : Nat → Context → Parser Expr
  | 0, _ => complain .tooManyLevels
  | n + 1, c => do
    let e ← primaryExpr n c
    suffixedTail n c e
termination_by structural n => n

/-- The indices and calls after an expression. -/
def suffixedTail : Nat → Context → Expr → Parser Expr
  | 0, _, _ => complain .tooManyLevels
  | n + 1, c, e => do
    let at_ ← line
    match ← peek with
    | .terminal .dot =>
      advance
      let s ← name
      suffixedTail n c (.index at_ e (.string s))
    | .terminal .leftBracket =>
      advance
      let key ← expr n c
      expect .rightBracket
      suffixedTail n c (.index at_ e key)
    | .terminal .colon =>
      advance
      let s ← name
      let args ← callArgs n c
      suffixedTail n c (.method at_ e s args)
    | .terminal .leftParen | .string _ | .terminal .leftBrace =>
      let args ← callArgs n c
      suffixedTail n c (.call at_ e args)
    | _ => return e
termination_by structural n => n

/-- The arguments of a call: a string, a table constructor, or expressions in parentheses. -/
def callArgs : Nat → Context → Parser (List Expr)
  | 0, _ => complain .tooManyLevels
  | n + 1, c => do
    match ← peek with
    | .string s => do advance; return [.string s]
    | .terminal .leftBrace =>
      let e ← tableConstructor n c
      return [e]
    | .terminal .leftParen =>
      let at_ ← line
      advance
      if ← accept .rightParen then return []
      else
        let args ← exprList n c
        expectMatch .rightParen .leftParen at_
        return args
    | _ => complain .expectedArguments
termination_by structural n => n

/-- A table constructor. -/
def tableConstructor : Nat → Context → Parser Expr
  | 0, _ => complain .tooManyLevels
  | n + 1, c => do
    let at_ ← line
    expect .leftBrace
    let fields ← tableFields n c []
    expectMatch .rightBrace .leftBrace at_
    return .table fields
termination_by structural n => n

/-- The fields of a table constructor; those before are held in reverse. -/
def tableFields : Nat → Context → List Field → Parser (List Field)
  | 0, _, _ => complain .tooManyLevels
  | n + 1, c, before => do
    if ← check .rightBrace then return before.reverse
    else
      let field ← tableField n c
      if ← accept .comma then tableFields n c (field :: before)
      else if ← accept .semicolon then tableFields n c (field :: before)
      else return (field :: before).reverse
termination_by structural n => n

/-- A field of a table constructor. A name may be a key or start an expression: it is read first,
and the expression goes on from it. -/
def tableField : Nat → Context → Parser Field
  | 0, _ => complain .tooManyLevels
  | n + 1, c => do
    match ← peek with
    | .terminal .leftBracket =>
      advance
      let key ← expr n c
      expect .rightBracket
      expect .assign
      let value ← expr n c
      return .keyed key value
    | .name s =>
      advance
      if ← accept .assign then
        let value ← expr n c
        return .keyed (.string s) value
      else
        let e ← suffixedTail n c (.name s)
        let e ← binaryTail n c e 0
        return .positional e
    | _ =>
      let e ← expr n c
      return .positional e
termination_by structural n => n

end

/-- A whole chunk: a block up to the end of input. -/
def chunk (n : Nat) : Parser Block := do
  let stats ← block n ⟨maxLevels, true, false⟩
  match ← peek with
  | .endOfInput => return stats
  | _ => complain .expectedEnd

end Parser

/-- The chunk that lexemes form. -/
def Chunk.ofLexemes (name : String) (lexemes : List Lexeme) : Except SyntaxError Chunk := do
  let (stats, _) ← (Parser.chunk (16 * lexemes.length + 64)).run lexemes
  return ⟨name, .mk [] true 0 stats⟩

/-- The chunk that a source denotes. -/
def Chunk.ofBytes (name : String) (source : List UInt8) : Except SyntaxError Chunk :=
  Chunk.ofLexemes name (Lexer.ofBytes source).lexemes

end LuaEmbed
