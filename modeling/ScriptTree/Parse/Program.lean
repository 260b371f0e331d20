import ScriptTree.Parse.Statement
import ScriptTree.Scan.Scanner

/-!
# Reading programs

    program     ::= "SCRIPT" "AREA" "START" "SCRIPT" declaration* statement* "END" "SCRIPT"
    declaration ::= type entry ("," entry)* "$"
    entry       ::= name ("=" expression)?

`Input.parse` reads a program from the tokens ahead and says where reading stopped: at the end of
the input after a success, and otherwise where the error was met, so that the rest can be read
again.
`parse` reads the program that a source holds.
-/

namespace ScriptTree

namespace Parser

/-! ### Declarations -/

/-- Reads one variable of a declaration. -/
def entry (typeName : Token) : Parser VarDecl := do
  let name ← identifier .declaration
  if ← accept .equal then
    return ⟨typeName, name, some (← expression .reject)⟩
  else
    return ⟨typeName, name, none⟩

/-- Reads the further variables of a declaration, each after a comma. -/
def moreEntries (typeName : Token) : Parser (List VarDecl) :=
  recursive (pure []) fun more => do
    if ← accept .comma then
      let d ← entry typeName
      return d :: (← more)
    else
      return []

/-- Reads what follows the type of a declaration. -/
def declarationRest (typeName : Token) : Parser (List VarDecl) := do
  let d ← entry typeName
  let ds ← moreEntries typeName
  terminator .declaration
  return d :: ds

/-- Reads a declaration. -/
def declaration : Parser (List VarDecl) := do
  let t ← current
  if t.kind.isTypeKeyword then
    advance
    declarationRest t
  else
    refuse .typeKeyword

/-- Reads declarations for as long as a type comes next. -/
def declarations : Parser (List VarDecl) :=
  recursive (pure []) fun more => do
    if (← current).kind.isTypeKeyword then
      let ds ← declaration
      return ds ++ (← more)
    else
      return []

/-! ### Programs -/

/-- Reads a program up to the end of the input. -/
def program : Parser Program := do
  let _ ← expect .kwScript .opening
  let _ ← expect .kwArea (.after .kwArea .kwScript)
  let opener ← expect .kwStart .firstStart
  let _ ← expect .kwScript (.after .kwScript .kwStart)
  let decls ← declarations
  let stmts ← blockRest statement .kwScript opener.line
  if (← current).kind = .eof then
    return ⟨decls, stmts⟩
  else
    refuse .nothingMore

end Parser

/-! ### Reading a whole input -/

/-- The outcome of reading a program. -/
structure Outcome where
  /-- The program, or why there is none. -/
  result : Except ParseError Program
  /-- What is still ahead. -/
  rest : Input
  /-- The keywords of the compound statements that were begun, in order. -/
  heads : List Token

/-- Reads a program from the tokens ahead. -/
def Input.parse (i : Input) : Outcome :=
  match Parser.program ⟨i, []⟩ with
  | .ok p r => ⟨.ok p, r.input, r.heads⟩
  | .error e r => ⟨.error e, r.input, r.heads⟩

/-- Reads programs one after another, each from where the one before it stopped. -/
def Input.parseTimes (i : Input) : Nat → List (Except ParseError Program)
  | 0 => []
  | n + 1 => i.parse.result :: i.parse.rest.parseTimes n

/-- Reads the program that a source holds. -/
def parse (source : String) : Except ParseError Program :=
  (Input.ofTokens (scan source).tokens).parse.result

end ScriptTree
