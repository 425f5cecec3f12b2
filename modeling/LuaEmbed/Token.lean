/-! # Tokens

The words of the language: 21 keywords and 26 symbols, which have one spelling each, and numbers,
strings and names, which carry a value. -/

namespace LuaEmbed

/-- A token of one fixed spelling. -/
inductive Terminal where
  | and | break_ | do_ | else_ | elseif | end_ | false_ | for_ | function | if_ | in_ | local_
  | nil | not | or | repeat_ | return_ | then_ | true_ | until_ | while_
  | plus | minus | star | slash | percent | caret | hash | less | greater | assign
  | leftParen | rightParen | leftBrace | rightBrace | leftBracket | rightBracket
  | semicolon | colon | comma | dot
  | equal | notEqual | lessEqual | greaterEqual | concat | ellipsis
deriving DecidableEq, Repr

namespace Terminal

/-- The characters of a terminal. -/
def spelling : Terminal → String
  | .and => "and" | .break_ => "break" | .do_ => "do" | .else_ => "else" | .elseif => "elseif"
  | .end_ => "end" | .false_ => "false" | .for_ => "for" | .function => "function" | .if_ => "if"
  | .in_ => "in" | .local_ => "local" | .nil => "nil" | .not => "not" | .or => "or"
  | .repeat_ => "repeat" | .return_ => "return" | .then_ => "then" | .true_ => "true"
  | .until_ => "until" | .while_ => "while"
  | .plus => "+" | .minus => "-" | .star => "*" | .slash => "/" | .percent => "%" | .caret => "^"
  | .hash => "#" | .less => "<" | .greater => ">" | .assign => "="
  | .leftParen => "(" | .rightParen => ")" | .leftBrace => "\x7b" | .rightBrace => "\x7d"
  | .leftBracket => "[" | .rightBracket => "]"
  | .semicolon => ";" | .colon => ":" | .comma => "," | .dot => "."
  | .equal => "==" | .notEqual => "~=" | .lessEqual => "<=" | .greaterEqual => ">="
  | .concat => ".." | .ellipsis => "..."

/-- The terminals that are spelt as words. -/
def keywords : List Terminal :=
  [.and, .break_, .do_, .else_, .elseif, .end_, .false_, .for_, .function, .if_, .in_, .local_,
    .nil, .not, .or, .repeat_, .return_, .then_, .true_, .until_, .while_]

/-- The keyword spelt like a word, if there is one. -/
def ofWord? (w : String) : Option Terminal := keywords.find? (·.spelling == w)

end Terminal

/-- A word of the language. -/
inductive Token where
  | terminal (t : Terminal)
  | number (n : Float)
  | string (s : String)
  | name (s : String)
  | endOfInput
deriving Repr

namespace Token

/-- The tokens that a block ends before. -/
def endsBlock : Token → Bool
  | .terminal .else_ | .terminal .elseif | .terminal .end_ | .terminal .until_ | .endOfInput => true
  | _ => false

/-- The token is the terminal `t`. -/
def isTerminal (t : Terminal) : Token → Bool
  | .terminal u => u == t
  | _ => false

end Token

end LuaEmbed
