import ScriptTree.Token.Basic

/-!
# Syntax errors

Reading stops at the first thing that is wrong. A `ParseError` says which of five things that was,
with the line it is reported on and the description of the token met there. What was expected is an
`Expectation`, and what is wrong with an expression as a whole is an `ExpressionFault`; the wording
of each is given once, in `text`.
-/

namespace ScriptTree

/-! ### Expectations -/

/-- The constructs that end with a `$`. -/
inductive Terminated where
  | declaration | assignment | print | scan
  deriving DecidableEq, Repr

/-- How a message names a construct that ends with a `$`. -/
def Terminated.text : Terminated → String
  | declaration => "declaration"
  | assignment => "assignment"
  | print => "PRINT statement"
  | scan => "SCAN statement"

/-- The places where a block of a compound statement stands. -/
inductive BlockPlace where
  | ifBlock | elseIfBlock | elseBlock | repeatBlock | forBlock
  deriving DecidableEq, Repr

/-- How a message names the place of a block. -/
def BlockPlace.text : BlockPlace → String
  | ifBlock => "IF"
  | elseIfBlock => "ELSE IF"
  | elseBlock => "ELSE"
  | repeatBlock => "REPEAT"
  | forBlock => "FOR"

/-- The places where an identifier has to stand. -/
inductive NamePlace where
  | declaration | assignment | scan | nextScan
  deriving DecidableEq, Repr

/-- How a message names the place of an identifier. -/
def NamePlace.text : NamePlace → String
  | declaration => "for variable name"
  | assignment => "for assignment"
  | scan => "in SCAN"
  | nextScan => "after ','"

/-- What the grammar asks for at a place where something else stands. -/
inductive Expectation where
  /-- The word that opens a script. -/
  | opening
  /-- The first `START`. -/
  | firstStart
  /-- A token of one kind, right after one of another kind. -/
  | after (kind prior : Kind)
  /-- Nothing more after the end of the script. -/
  | nothingMore
  /-- The type of a declaration. -/
  | typeKeyword
  /-- An identifier. -/
  | name (place : NamePlace)
  /-- The `=` of an assignment. -/
  | assignmentSign
  /-- The `$` at the end of a construct. -/
  | terminator (construct : Terminated)
  /-- The `START` of a block. -/
  | blockStart (place : BlockPlace)
  /-- The `,` after the first part of a `FOR` header. -/
  | initComma
  /-- The `,` after the second part of a `FOR` header. -/
  | conditionComma
  /-- The `)` of a `FOR` header. -/
  | headerEnd
  /-- The `END` of a block. -/
  | blockEnd (kind : Kind)
  /-- An infix operator where `NOT` stands. -/
  | operatorBeforeNot
  /-- An infix operator. -/
  | operator
  deriving DecidableEq, Repr

/-- A kind as a message writes it: by its spelling, or else by its name. -/
def Kind.written (k : Kind) : String :=
  k.spelling?.getD k.name

/-- The words of an expectation. -/
def Expectation.text : Expectation → String
  | opening => "'SCRIPT' at the beginning of the program"
  | firstStart => "'START'"
  | after kind prior => s!"'{kind.written}' after '{prior.written}'"
  | nothingMore => "end of input after 'END SCRIPT'"
  | typeKeyword => "a type keyword (INT, FLOAT, CHAR or BOOL)"
  | name place => s!"identifier {place.text}"
  | assignmentSign => "'=' after identifier"
  | terminator construct => s!"'$' at the end of {construct.text}"
  | blockStart place => s!"'START' before {place.text} block"
  | initComma => "',' after FOR initializer"
  | conditionComma => "',' after FOR condition"
  | headerEnd => "')' after FOR header"
  | blockEnd kind => s!"'END' for {kind.name}"
  | operatorBeforeNot => "an operator before 'NOT'"
  | operator => "an operator"

/-! ### Faults of an expression -/

/-- What keeps an expression from having a single value. -/
inductive ExpressionFault where
  /-- Two operands stand side by side in a group. -/
  | adjacentOperands
  /-- Nothing stands between parentheses. -/
  | emptyParentheses
  /-- Nothing stands where an expression should. -/
  | noExpression
  /-- There is no operator left to apply. -/
  | noOperator
  deriving DecidableEq, Repr

/-- The words of a fault. -/
def ExpressionFault.text : ExpressionFault → String
  | adjacentOperands => "missing operator between operands"
  | emptyParentheses => "empty parentheses"
  | noExpression => "expected an expression"
  | noOperator => "no operator to apply"

/-! ### Errors -/

/-- Why reading stopped. -/
inductive ParseError where
  /-- Something was expected and something else was found. -/
  | unexpectedToken (expected : Expectation) (found : String) (line : Nat)
  /-- The input ended inside a block. -/
  | unterminatedBlock (block : Kind) (openedAt line : Nat)
  /-- A parenthesis has no partner. -/
  | mismatchedParentheses (found : String) (line : Nat)
  /-- An operator has fewer operands than it needs. -/
  | missingOperand (operator found : String) (line : Nat)
  /-- An expression has no value, or more than one. -/
  | invalidExpression (fault : ExpressionFault) (found : String) (line : Nat)
  deriving DecidableEq, Repr

namespace ParseError

/-- The line an error is reported on. -/
def line : ParseError → Nat
  | unexpectedToken _ _ line => line
  | unterminatedBlock _ _ line => line
  | mismatchedParentheses _ line => line
  | missingOperand _ _ line => line
  | invalidExpression _ _ line => line

/-- What was expected where reading stopped. -/
def expected : ParseError → String
  | unexpectedToken expected _ _ => expected.text
  | unterminatedBlock block _ _ => s!"'END {block.name}'"
  | mismatchedParentheses _ _ => "matching parentheses"
  | missingOperand operator _ _ => s!"an operand for '{operator}'"
  | invalidExpression _ _ _ => "a single expression"

/-- What was found there. -/
def found : ParseError → String
  | unexpectedToken _ found _ => found
  | unterminatedBlock _ _ _ => "end of input"
  | mismatchedParentheses found _ => found
  | missingOperand _ found _ => found
  | invalidExpression _ found _ => found

/-- The complaint that something was expected where something else was found. -/
def complaintOfUnexpected (expected found : String) : String :=
  s!"Expected {expected}, found {found}"

/-- The complaint about a fault of an expression. -/
def complaintOfInvalid (fault found : String) : String :=
  s!"Invalid expression ({fault}) near {found}"

/-- What went wrong, in words. -/
def complaint : ParseError → String
  | unexpectedToken expected found _ => complaintOfUnexpected expected.text found
  | unterminatedBlock block openedAt _ =>
    s!"Unterminated {block.name} block opened at line {openedAt}: " ++
      s!"expected 'END {block.name}', found end of input"
  | mismatchedParentheses found _ => s!"Mismatched parentheses near {found}"
  | missingOperand operator found _ => s!"Missing operand for operator '{operator}' near {found}"
  | invalidExpression fault found _ => complaintOfInvalid fault.text found

/-- The report of a complaint about a line. -/
def reportOf (line : Nat) (complaint : String) : String :=
  s!"Parse error at line {line}: {complaint}"

/-- The report of an error. -/
def message (e : ParseError) : String :=
  reportOf e.line e.complaint

/-! ### Errors about a token -/

/-- The error that asks for something where the token `t` stands. -/
def unexpected (expected : Expectation) (t : Token) : ParseError :=
  unexpectedToken expected t.describe t.line

/-- The error that finds fault with an expression where the token `t` stands. -/
def invalid (fault : ExpressionFault) (t : Token) : ParseError :=
  invalidExpression fault t.describe t.line

/-- The error that misses an operand of `operator`, noticed at the token `near`. -/
def missing (operator near : Token) : ParseError :=
  missingOperand operator.lexeme near.describe operator.line

end ParseError

end ScriptTree
