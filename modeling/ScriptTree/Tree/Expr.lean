import ScriptTree.Token.Basic

/-!
# Expressions

The leaves of an expression are literals, identifiers and line breaks; its inner nodes are groups in
parentheses and operators applied to one or two operands. Nodes keep the tokens they were made from,
a line break only its line.
-/

namespace ScriptTree

/-- An expression of a script. -/
inductive Expr where
  /-- An arithmetic, joining or relational operator between two operands. -/
  | binary (left : Expr) (operator : Token) (right : Expr)
  /-- `AND` or `OR` between two operands. -/
  | logical (left : Expr) (operator : Token) (right : Expr)
  /-- An operator before its only operand. -/
  | unary (operator : Token) (operand : Expr)
  /-- An expression in parentheses. -/
  | grouping (inner : Expr)
  | literal (value : Token)
  | identifier (name : Token)
  /-- A `$` that stands for a line break in what is printed. -/
  | newline (line : Nat)
  deriving DecidableEq, Repr, Inhabited

namespace Expr

/-- The line of an expression: that of its leftmost leaf or prefix operator. Parentheses are not
kept, so a group is on the line of what it encloses. -/
def line : Expr → Nat
  | binary left _ _ => left.line
  | logical left _ _ => left.line
  | unary operator _ => operator.line
  | grouping inner => inner.line
  | literal value => value.line
  | identifier name => name.line
  | newline line => line

/-- The leaf that an operand token becomes. -/
def leaf (t : Token) : Expr :=
  if t.kind = .identifier then identifier t else literal t

/-- An operator applied to the operands on its two sides. -/
def infixNode (left : Expr) (operator : Token) (right : Expr) : Expr :=
  if operator.kind.isLogical then logical left operator right else binary left operator right

end Expr

end ScriptTree
