import LuaEmbed.Token

/-!
# The grammar of chunks

The extended BNF of the language over lists of tokens, one constructor of `Derives` for each
alternative of a production.  Repetitions in braces are written as recursion to the right, and the
two restrictions that the BNF leaves to its text are carried as indices: `vararg` says whether the
innermost function takes `...`, and `loop` whether there is a loop around inside that function.

The BNF is ambiguous.  Where a statement ends in a prefix expression and the one after it starts
with `(`, the parenthesis may as well be the arguments of a call that goes on with the first
statement.  So `stat`, `expList` and `exp` record in an index whether what they derive *ends in a
prefix expression*, and the relation is a family: `Derives false` is the plain BNF, while
`Derives true` is *greedy*, it gives every such parenthesis to the expression before it, and two
statements are kept apart by `;` there.
-/

namespace LuaEmbed

namespace Terminal

/-- The terminals that stand between two operands. -/
def binaryOperators : List Terminal :=
  [.plus, .minus, .star, .slash, .percent, .caret, .concat, .equal, .notEqual, .less, .lessEqual,
    .greater, .greaterEqual, .and, .or]

/-- The terminals that stand before one operand. -/
def unaryOperators : List Terminal := [.not, .minus, .hash]

/-- The terminals that stand between two fields of a table constructor. -/
def fieldSeparators : List Terminal := [.comma, .semicolon]

end Terminal

namespace Grammar

/-- The left sides of the productions. -/
inductive Category where
  /-- A chunk, which is also what a block is: `{stat [`;´]} [laststat [`;´]]`. -/
  | chunk
  | stat (ends : Bool)
  | lastStat
  /-- What follows the first block of an `if`: `{elseif exp then block} [else block] end`. -/
  | ifRest
  /-- The names of a dotted path: `Name {`.´ Name}`. -/
  | path
  | varList
  | var
  | nameList
  | expList (ends : Bool)
  | exp (ends : Bool)
  | prefixExp
  | functionCall
  | args
  | funcBody
  /-- Parameters, with whether `...` is among them. -/
  | parList (isVararg : Bool)
  | tableConstructor
  | fieldList
  | field

/-- The tokens start with an opening parenthesis. -/
def StartsWithParen : List Token → Prop
  | .terminal .leftParen :: _ => True
  | _ => False

open Terminal in
/-- The lists of tokens that a category derives. -/
inductive Derives (greedy : Bool) : Category → (vararg loop : Bool) → List Token → Prop where
  -- chunk ::= {stat [`;´]} [laststat [`;´]]
  | chunkEmpty {v l} : Derives greedy .chunk v l []
  | chunkLast {v l ts} : Derives greedy .lastStat v l ts → Derives greedy .chunk v l ts
  | chunkLastSemicolon {v l ts} :
      Derives greedy .lastStat v l ts → Derives greedy .chunk v l (ts ++ [.terminal semicolon])
  | chunkStat {v l e ts us} :
      Derives greedy (.stat e) v l ts → Derives greedy .chunk v l us →
      (greedy = true → e = true → ¬ StartsWithParen us) → Derives greedy .chunk v l (ts ++ us)
  | chunkStatSemicolon {v l e ts us} :
      Derives greedy (.stat e) v l ts → Derives greedy .chunk v l us →
      Derives greedy .chunk v l (ts ++ .terminal semicolon :: us)
  -- stat ::= varlist `=´ explist
  | assign {v l e ts us} :
      Derives greedy .varList v l ts → Derives greedy (.expList e) v l us →
      Derives greedy (.stat e) v l (ts ++ .terminal Terminal.assign :: us)
  -- | functioncall
  | callStat {v l ts} : Derives greedy .functionCall v l ts → Derives greedy (.stat true) v l ts
  -- | do block end
  | doBlock {v l ts} :
      Derives greedy .chunk v l ts →
      Derives greedy (.stat false) v l (.terminal do_ :: (ts ++ [.terminal end_]))
  -- | while exp do block end
  | whileLoop {v l e ts us} :
      Derives greedy (.exp e) v l ts → Derives greedy .chunk v true us →
      Derives greedy (.stat false) v l
        (.terminal while_ :: (ts ++ .terminal do_ :: (us ++ [.terminal end_])))
  -- | repeat block until exp
  | repeatLoop {v l e ts us} :
      Derives greedy .chunk v true ts → Derives greedy (.exp e) v l us →
      Derives greedy (.stat e) v l (.terminal repeat_ :: (ts ++ .terminal until_ :: us))
  -- | if exp then block {elseif exp then block} [else block] end
  | ifStat {v l e ts us ws} :
      Derives greedy (.exp e) v l ts → Derives greedy .chunk v l us →
      Derives greedy .ifRest v l ws →
      Derives greedy (.stat false) v l (.terminal if_ :: (ts ++ .terminal then_ :: (us ++ ws)))
  -- | for Name `=´ exp `,´ exp [`,´ exp] do block end
  | countLoop {v l x e₁ e₂ ts us ws} :
      Derives greedy (.exp e₁) v l ts → Derives greedy (.exp e₂) v l us →
      Derives greedy .chunk v true ws →
      Derives greedy (.stat false) v l
        (.terminal for_ :: .name x :: .terminal Terminal.assign ::
          (ts ++ .terminal comma :: (us ++ .terminal do_ :: (ws ++ [.terminal end_]))))
  | countLoopStep {v l x e₁ e₂ e₃ ts us ws bs} :
      Derives greedy (.exp e₁) v l ts → Derives greedy (.exp e₂) v l us →
      Derives greedy (.exp e₃) v l ws → Derives greedy .chunk v true bs →
      Derives greedy (.stat false) v l
        (.terminal for_ :: .name x :: .terminal Terminal.assign ::
          (ts ++ .terminal comma :: (us ++ .terminal comma ::
            (ws ++ .terminal do_ :: (bs ++ [.terminal end_])))))
  -- | for namelist in explist do block end
  | iteratorLoop {v l e ts us ws} :
      Derives greedy .nameList v l ts → Derives greedy (.expList e) v l us →
      Derives greedy .chunk v true ws →
      Derives greedy (.stat false) v l
        (.terminal for_ ::
          (ts ++ .terminal in_ :: (us ++ .terminal do_ :: (ws ++ [.terminal end_]))))
  -- | function Name {`.´ Name} [`:´ Name] funcbody
  | functionStat {v l ts us} :
      Derives greedy .path v l ts → Derives greedy .funcBody v l us →
      Derives greedy (.stat false) v l (.terminal Terminal.function :: (ts ++ us))
  | methodStat {v l x ts us} :
      Derives greedy .path v l ts → Derives greedy .funcBody v l us →
      Derives greedy (.stat false) v l
        (.terminal Terminal.function :: (ts ++ .terminal colon :: .name x :: us))
  -- | local function Name funcbody
  | localFunction {v l x ts} :
      Derives greedy .funcBody v l ts →
      Derives greedy (.stat false) v l
        (.terminal local_ :: .terminal Terminal.function :: .name x :: ts)
  -- | local namelist [`=´ explist]
  | localNames {v l ts} :
      Derives greedy .nameList v l ts →
      Derives greedy (.stat false) v l (.terminal local_ :: ts)
  | localAssign {v l e ts us} :
      Derives greedy .nameList v l ts → Derives greedy (.expList e) v l us →
      Derives greedy (.stat e) v l (.terminal local_ :: (ts ++ .terminal Terminal.assign :: us))
  -- {elseif exp then block} [else block] end
  | ifEnd {v l} : Derives greedy .ifRest v l [.terminal end_]
  | ifElse {v l ts} :
      Derives greedy .chunk v l ts →
      Derives greedy .ifRest v l (.terminal else_ :: (ts ++ [.terminal end_]))
  | ifElseif {v l e ts us ws} :
      Derives greedy (.exp e) v l ts → Derives greedy .chunk v l us →
      Derives greedy .ifRest v l ws →
      Derives greedy .ifRest v l (.terminal elseif :: (ts ++ .terminal then_ :: (us ++ ws)))
  -- laststat ::= return [explist] | break
  | returnNothing {v l} : Derives greedy .lastStat v l [.terminal return_]
  | returnValues {v l e ts} :
      Derives greedy (.expList e) v l ts →
      Derives greedy .lastStat v l (.terminal return_ :: ts)
  | breakLoop {v} : Derives greedy .lastStat v true [.terminal break_]
  -- Name {`.´ Name}
  | pathName {v l x} : Derives greedy .path v l [.name x]
  | pathMore {v l x ts} :
      Derives greedy .path v l ts → Derives greedy .path v l (.name x :: .terminal dot :: ts)
  -- varlist ::= var {`,´ var}
  | varListVar {v l ts} : Derives greedy .var v l ts → Derives greedy .varList v l ts
  | varListMore {v l ts us} :
      Derives greedy .var v l ts → Derives greedy .varList v l us →
      Derives greedy .varList v l (ts ++ .terminal comma :: us)
  -- var ::= Name | prefixexp `[´ exp `]´ | prefixexp `.´ Name
  | varName {v l x} : Derives greedy .var v l [.name x]
  | varIndex {v l e ts us} :
      Derives greedy .prefixExp v l ts → Derives greedy (.exp e) v l us →
      Derives greedy .var v l (ts ++ .terminal leftBracket :: (us ++ [.terminal rightBracket]))
  | varField {v l x ts} :
      Derives greedy .prefixExp v l ts →
      Derives greedy .var v l (ts ++ [.terminal dot, .name x])
  -- namelist ::= Name {`,´ Name}
  | nameListName {v l x} : Derives greedy .nameList v l [.name x]
  | nameListMore {v l x ts} :
      Derives greedy .nameList v l ts →
      Derives greedy .nameList v l (.name x :: .terminal comma :: ts)
  -- explist ::= {exp `,´} exp
  | expListExp {v l e ts} : Derives greedy (.exp e) v l ts → Derives greedy (.expList e) v l ts
  | expListMore {v l e₁ e ts us} :
      Derives greedy (.exp e₁) v l ts → Derives greedy (.expList e) v l us →
      Derives greedy (.expList e) v l (ts ++ .terminal comma :: us)
  -- exp ::= nil | false | true | Number | String | `...´
  | expNil {v l} : Derives greedy (.exp false) v l [.terminal Terminal.nil]
  | expFalse {v l} : Derives greedy (.exp false) v l [.terminal false_]
  | expTrue {v l} : Derives greedy (.exp false) v l [.terminal true_]
  | expNumber {v l x} : Derives greedy (.exp false) v l [.number x]
  | expString {v l s} : Derives greedy (.exp false) v l [.string s]
  | expVararg {l} : Derives greedy (.exp false) true l [.terminal ellipsis]
  -- | function funcbody | prefixexp | tableconstructor
  | expFunction {v l ts} :
      Derives greedy .funcBody v l ts →
      Derives greedy (.exp false) v l (.terminal Terminal.function :: ts)
  | expPrefix {v l ts} : Derives greedy .prefixExp v l ts → Derives greedy (.exp true) v l ts
  | expTable {v l ts} :
      Derives greedy .tableConstructor v l ts → Derives greedy (.exp false) v l ts
  -- | exp binop exp | unop exp
  | expBinary {v l e₁ e t ts us} :
      t ∈ binaryOperators → Derives greedy (.exp e₁) v l ts → Derives greedy (.exp e) v l us →
      Derives greedy (.exp e) v l (ts ++ .terminal t :: us)
  | expUnary {v l e t ts} :
      t ∈ unaryOperators → Derives greedy (.exp e) v l ts →
      Derives greedy (.exp e) v l (.terminal t :: ts)
  -- prefixexp ::= var | functioncall | `(´ exp `)´
  | prefixVar {v l ts} : Derives greedy .var v l ts → Derives greedy .prefixExp v l ts
  | prefixCall {v l ts} : Derives greedy .functionCall v l ts → Derives greedy .prefixExp v l ts
  | prefixParen {v l e ts} :
      Derives greedy (.exp e) v l ts →
      Derives greedy .prefixExp v l (.terminal leftParen :: (ts ++ [.terminal rightParen]))
  -- functioncall ::= prefixexp args | prefixexp `:´ Name args
  | call {v l ts us} :
      Derives greedy .prefixExp v l ts → Derives greedy .args v l us →
      Derives greedy .functionCall v l (ts ++ us)
  | callMethod {v l x ts us} :
      Derives greedy .prefixExp v l ts → Derives greedy .args v l us →
      Derives greedy .functionCall v l (ts ++ .terminal colon :: .name x :: us)
  -- args ::= `(´ [explist] `)´ | tableconstructor | String
  | argsEmpty {v l} : Derives greedy .args v l [.terminal leftParen, .terminal rightParen]
  | argsList {v l e ts} :
      Derives greedy (.expList e) v l ts →
      Derives greedy .args v l (.terminal leftParen :: (ts ++ [.terminal rightParen]))
  | argsTable {v l ts} : Derives greedy .tableConstructor v l ts → Derives greedy .args v l ts
  | argsString {v l s} : Derives greedy .args v l [.string s]
  -- funcbody ::= `(´ [parlist] `)´ block end
  | funcBodyPlain {v l ts} :
      Derives greedy .chunk false false ts →
      Derives greedy .funcBody v l
        (.terminal leftParen :: .terminal rightParen :: (ts ++ [.terminal end_]))
  | funcBodyParams {v l isVararg ts us} :
      Derives greedy (.parList isVararg) v l ts → Derives greedy .chunk isVararg false us →
      Derives greedy .funcBody v l
        (.terminal leftParen :: (ts ++ .terminal rightParen :: (us ++ [.terminal end_])))
  -- parlist ::= namelist [`,´ `...´] | `...´
  | parListNames {v l ts} :
      Derives greedy .nameList v l ts → Derives greedy (.parList false) v l ts
  | parListBoth {v l ts} :
      Derives greedy .nameList v l ts →
      Derives greedy (.parList true) v l (ts ++ [.terminal comma, .terminal ellipsis])
  | parListVararg {v l} : Derives greedy (.parList true) v l [.terminal ellipsis]
  -- tableconstructor ::= `{´ [fieldlist] `}´
  | tableEmpty {v l} :
      Derives greedy .tableConstructor v l [.terminal leftBrace, .terminal rightBrace]
  | tableFields {v l ts} :
      Derives greedy .fieldList v l ts →
      Derives greedy .tableConstructor v l
        (.terminal leftBrace :: (ts ++ [.terminal rightBrace]))
  -- fieldlist ::= field {fieldsep field} [fieldsep]
  | fieldListField {v l ts} : Derives greedy .field v l ts → Derives greedy .fieldList v l ts
  | fieldListEnd {v l t ts} :
      t ∈ fieldSeparators → Derives greedy .field v l ts →
      Derives greedy .fieldList v l (ts ++ [.terminal t])
  | fieldListMore {v l t ts us} :
      t ∈ fieldSeparators → Derives greedy .field v l ts → Derives greedy .fieldList v l us →
      Derives greedy .fieldList v l (ts ++ .terminal t :: us)
  -- field ::= `[´ exp `]´ `=´ exp | Name `=´ exp | exp
  | fieldKey {v l e₁ e₂ ts us} :
      Derives greedy (.exp e₁) v l ts → Derives greedy (.exp e₂) v l us →
      Derives greedy .field v l
        (.terminal leftBracket :: (ts ++ .terminal rightBracket :: .terminal Terminal.assign :: us))
  | fieldName {v l x e ts} :
      Derives greedy (.exp e) v l ts →
      Derives greedy .field v l (.name x :: .terminal Terminal.assign :: ts)
  | fieldValue {v l e ts} : Derives greedy (.exp e) v l ts → Derives greedy .field v l ts

/-- Giving parentheses to the expression before them only removes derivations. -/
theorem Derives.ambiguous {g v l : Bool} {k : Category} {ts : List Token}
    (h : Derives g k v l ts) : Derives false k v l ts := by
  induction h with
  | chunkStat _ _ _ ih₁ ih₂ => exact .chunkStat ih₁ ih₂ (fun h => nomatch h)
  | _ => grind [Derives]

end Grammar

end LuaEmbed
