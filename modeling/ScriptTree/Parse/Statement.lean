import ScriptTree.Parse.Parser
import ScriptTree.Tree.Program

/-!
# Reading statements

    statement  ::= assignment "$" | print | scan | if | repeat | for
    assignment ::= name "=" expression
    print      ::= "PRINT" ":" expression ("&" expression)* "$"
    scan       ::= "SCAN" ":" name ("," name)* "$"
    if         ::= "IF" expression block(IF) ("ELSE" "IF" expression block(IF))* ("ELSE" block(IF))?
    repeat     ::= "REPEAT" "WHEN" expression block(REPEAT)
    for        ::= "FOR" "(" assignment "," expression "," assignment ")" block(FOR)
    block(k)   ::= "START" k statement* "END" k

An expression takes every token that can belong to it, and `&` is also an infix operator. So the
first expression of a `PRINT` takes every `&`, and no further one is read. A word that begins no
other statement is read as the name of an assignment.

The parsers of blocks take the parser of a statement as an argument; `Parser.statement` closes the
circle.
-/

namespace ScriptTree.Parser

/-! ### Simple statements -/

/-- Reads a name, an equal sign and a value. -/
def assignment (closing : Closing) : Parser Assignment := do
  let name ← identifier .assignment
  let _ ← expect .equal .assignmentSign
  let value ← expression closing
  return ⟨name, value⟩

/-- Reads the further expressions of a `PRINT`, each after an `&`. -/
def moreValues : Parser (List Expr) :=
  recursive (pure []) fun more => do
    if ← accept .ampersand then
      let value ← expression .reject
      return value :: (← more)
    else
      return []

/-- Reads what follows the word `PRINT`. -/
def printRest : Parser Stmt := do
  let _ ← expect .colon (.after .colon .kwPrint)
  let value ← expression .reject
  let values ← moreValues
  terminator .print
  return .print (value :: values)

/-- Reads the further names of a `SCAN`, each after a comma. -/
def moreNames : Parser (List Token) :=
  recursive (pure []) fun more => do
    if ← accept .comma then
      let name ← identifier .nextScan
      return name :: (← more)
    else
      return []

/-- Reads what follows the word `SCAN`. -/
def scanRest : Parser Stmt := do
  let _ ← expect .colon (.after .colon .kwScan)
  let name ← identifier .scan
  let names ← moreNames
  terminator .scan
  return .scan (name :: names)

/-! ### Blocks -/

/-- Reads statements until an `END` or the end of the input comes next. -/
def statements (statement : Parser Stmt) : Parser Block :=
  recursive (pure []) fun more => do
    match (← current).kind with
    | .kwEnd | .eof => return []
    | _ =>
      let s ← statement
      return s :: (← more)

/-- Reads the statements of a block of the given kind, and its end. The block was opened on the line
`openedAt`. -/
def blockRest (statement : Parser Stmt) (kind : Kind) (openedAt : Nat) : Parser Block := do
  let body ← statements statement
  let t ← current
  if t.kind = .eof then
    throw (.unterminatedBlock kind openedAt t.line)
  let _ ← expect .kwEnd (.blockEnd kind)
  let _ ← expect kind (.after kind .kwEnd)
  return body

/-- Reads a block of the given kind. -/
def block (statement : Parser Stmt) (kind : Kind) (place : BlockPlace) : Parser Block := do
  let opener ← expect .kwStart (.blockStart place)
  let _ ← expect kind (.after kind .kwStart)
  blockRest statement kind opener.line

/-! ### Compound statements -/

/-- Reads the alternatives of a conditional. One without a condition is the last. -/
def alternatives (statement : Parser Stmt) : Parser ElseChain :=
  recursive (pure .done) fun more => do
    if ← accept .kwElse then
      if ← accept .kwIf then
        let cond ← expression .reject
        let body ← block statement .kwIf .elseIfBlock
        return .elseIf cond body (← more)
      else
        let body ← block statement .kwIf .elseBlock
        return .otherwise body
    else
      return .done

/-- Reads what follows the word `IF`. -/
def ifRest (statement : Parser Stmt) : Parser Stmt := do
  let cond ← expression .reject
  let body ← block statement .kwIf .ifBlock
  let rest ← alternatives statement
  return .ifElse cond body rest

/-- Reads what follows the word `REPEAT`. -/
def repeatRest (statement : Parser Stmt) : Parser Stmt := do
  let _ ← expect .kwWhen (.after .kwWhen .kwRepeat)
  let cond ← expression .reject
  let body ← block statement .kwRepeat .repeatBlock
  return .repeatWhen cond body

/-- Reads what follows the word `FOR`. The parenthesis that ends the header also ends its last
assignment. -/
def forRest (statement : Parser Stmt) : Parser Stmt := do
  let _ ← expect .leftParen (.after .leftParen .kwFor)
  let init ← assignment .reject
  let _ ← expect .comma .initComma
  let cond ← expression .reject
  let _ ← expect .comma .conditionComma
  let update ← assignment .yield
  let _ ← expect .rightParen .headerEnd
  let body ← block statement .kwFor .forBlock
  return .forLoop init cond update body

/-- Reads a statement, given the parser for the statements inside it. -/
def statementWith (inner : Parser Stmt) : Parser Stmt := do
  let t ← current
  match t.kind with
  | .kwPrint => advance; printRest
  | .kwScan => advance; scanRest
  | .kwIf => advance; begin t; ifRest inner
  | .kwRepeat => advance; begin t; repeatRest inner
  | .kwFor => advance; begin t; forRest inner
  | _ =>
    let a ← assignment .reject
    terminator .assignment
    return .assignment a

/-- Reads a statement. -/
def statement : Parser Stmt :=
  recursive (refuse (.name .assignment)) statementWith

end ScriptTree.Parser
