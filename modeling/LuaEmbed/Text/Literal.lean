/-! # String literals

A text written as a literal of the language: between double quotes, with escapes for the characters
that would end the literal or be read as something else. -/

namespace LuaEmbed.Text

/-- A character inside a literal. A line break follows a backslash. -/
def literalChar (c : Char) : List Char :=
  if c == '"' || c == '\\' || c == '\n' then ['\\', c]
  else if c == '\r' then ['\\', 'r']
  else if c == '\x00' then ['\\', '0', '0', '0']
  else [c]

/-- A text as a literal. -/
def literal (s : String) : String :=
  String.ofList ('"' :: s.toList.flatMap literalChar ++ ['"'])

end LuaEmbed.Text
