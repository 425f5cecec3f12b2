import LuaEmbed.Token.Lexer

/-! # Syntax errors

A source that is no chunk is reported by the line where reading it stopped and by what stood in the
way there. -/

namespace LuaEmbed

/-- What the grammar asks for and the next token is not. -/
inductive Complaint where
  | expected (t : Terminal)
  /-- The terminal `t` would close what `opener` opened on another line. -/
  | expectedToClose (t opener : Terminal) (line : Nat)
  | expectedEnd
  | expectedName
  | expectedAssignOrIn
  | expectedArguments
  | unexpectedSymbol
  | notAStatement
  | noLoopToBreak
  | varargOutside
  | tooManyLevels
deriving DecidableEq, Repr

namespace Complaint

/-- A spelling in quotes. -/
def quoted (t : Terminal) : String := "'" ++ t.spelling ++ "'"

/-- The message of a complaint, without the token it is about. -/
def message : Complaint → String
  | .expected t => quoted t ++ " expected"
  | .expectedToClose t opener line =>
    quoted t ++ " expected (to close " ++ quoted opener ++ " at line " ++ toString line ++ ")"
  | .expectedEnd => "'<eof>' expected"
  | .expectedName => "<name> expected"
  | .expectedAssignOrIn => "'=' or 'in' expected"
  | .expectedArguments => "function arguments expected"
  | .unexpectedSymbol => "unexpected symbol"
  | .notAStatement => "syntax error"
  | .noLoopToBreak => "no loop to break"
  | .varargOutside => "cannot use '...' outside a vararg function"
  | .tooManyLevels => "chunk has too many syntax levels"

end Complaint

/-- What stood in the way. -/
inductive SyntaxProblem where
  | lexical (fault : LexicalFault)
  | complaint (what : Complaint) (near : String)
deriving DecidableEq, Repr

/-- The message of a problem. -/
def SyntaxProblem.message : SyntaxProblem → String
  | .lexical fault => fault.message
  | .complaint what near => what.message ++ " near " ++ near

/-- A problem and its line. -/
structure SyntaxError where
  line : Nat
  problem : SyntaxProblem
deriving DecidableEq, Repr

/-- An error as it is reported for a chunk of the given name. -/
def SyntaxError.report (e : SyntaxError) (chunk : String) : String :=
  chunk ++ ":" ++ toString e.line ++ ": " ++ e.problem.message

/-- The lexeme as messages show it. -/
def Lexeme.near (l : Lexeme) : String :=
  match l.outcome with
  | .ok .endOfInput => Lexeme.endText
  | _ => "'" ++ l.text ++ "'"

/-- A complaint about a lexeme. -/
def Lexeme.complain (l : Lexeme) (what : Complaint) : SyntaxError :=
  ⟨l.position.line, .complaint what l.near⟩

end LuaEmbed
