import ScriptTree.Tree.Node

/-!
# Outlines

An outline shows a tree as text. An expression is written in parentheses with its operator first; a
statement begins a line, and the blocks of a compound statement follow it on lines of their own,
indented by two blanks for each level of depth.

The depth is the state of an `Outliner`, so that one outliner can write several nodes one after
another. A compound statement raises the depth for its blocks and lowers it again; a program writes
its declarations and statements at depth two and leaves the depth at zero.
-/

namespace ScriptTree

/-- A writer of text that knows how deep it stands. -/
abbrev Outliner := StateM Nat

namespace Outliner

/-- The blanks at the start of a line at the present depth. -/
def margin : Outliner String := do
  return String.ofList (List.replicate (2 * (← get)) ' ')

/-- Writes one level deeper and comes back. -/
def deeper {α : Type} (text : Outliner α) : Outliner α := do
  modify (· + 1)
  let a ← text
  modify (· - 1)
  return a

/-- Writes a line: a text, behind the margin that there is when the text is written. -/
def line (text : Outliner String) : Outliner String := do
  let text ← text
  return (← margin) ++ text ++ "\n"

end Outliner

open Outliner

/-- The outline of an expression is on one line: the text of a leaf, or an operator and its operands
in parentheses. -/
def Expr.outline : Expr → String
  | binary left operator right | logical left operator right =>
    "(" ++ operator.lexeme ++ " " ++ left.outline ++ " " ++ right.outline ++ ")"
  | unary operator operand => "(" ++ operator.lexeme ++ " " ++ operand.outline ++ ")"
  | grouping inner => "(group " ++ inner.outline ++ ")"
  | literal value => value.lexeme
  | identifier name => name.lexeme
  | newline _ => "NEWLINE"

/-- The outline of an assignment, as a statement or in a `FOR` header. -/
def Assignment.outline (a : Assignment) : String :=
  "(Assign " ++ a.name.lexeme ++ " = " ++ a.value.outline ++ ")"

/-- The outline of a declaration. -/
def VarDecl.outline (d : VarDecl) : String :=
  match d.init with
  | some e => "(Declare " ++ d.typeName.lexeme ++ " " ++ d.name.lexeme ++ " = " ++ e.outline ++ ")"
  | none => "(Declare " ++ d.typeName.lexeme ++ " " ++ d.name.lexeme ++ ")"

/-- The statements of a block, given how their texts are written, each behind the margin at which
the block begins. A block without statements still has a line. -/
def blockText (texts : Outliner (List String)) : Outliner String := do
  let start ← margin
  match ← texts with
  | [] => return start ++ "(empty)"
  | texts => return "\n".intercalate (texts.map (start ++ ·))

mutual

/-- The outline of a statement. Its first line has no margin. -/
def Stmt.outline : Stmt → Outliner String
  | .assignment a => return a.outline
  | .ifElse cond body alternatives => do
    let (thenPart, rest) ← deeper do
      let label ← margin
      let text ← deeper (blockText (stmtTexts body))
      let rest ← alternatives.outline label
      return ("\n" ++ label ++ "THEN:\n" ++ text, rest)
    return "(If " ++ cond.outline ++ thenPart ++ rest ++ ")"
  | .repeatWhen cond body => do
    let text ← deeper (blockText (stmtTexts body))
    return "(Repeat WHEN " ++ cond.outline ++ "\n" ++ text ++ ")"
  | .forLoop init cond update body => do
    let text ← deeper (blockText (stmtTexts body))
    return "(For " ++ init.outline ++ ", " ++ cond.outline ++ ", " ++ update.outline ++ "\n"
      ++ text ++ ")"
  | .print exprs => return "(Print " ++ " ".intercalate (exprs.map Expr.outline) ++ ")"
  | .scan names => return "(Scan " ++ ", ".intercalate (names.map Token.lexeme) ++ ")"

/-- The outlines of statements, one after another. -/
def stmtTexts : List Stmt → Outliner (List String)
  | [] => return []
  | s :: ss => do
    let text ← s.outline
    let texts ← stmtTexts ss
    return text :: texts

/-- The outlines of alternatives, each behind the same blanks and a label; their blocks stand one
level deeper. -/
def ElseChain.outline (label : String) : ElseChain → Outliner String
  | .done => return ""
  | .otherwise body => do
    let text ← deeper (blockText (stmtTexts body))
    return "\n" ++ label ++ "ELSE:\n" ++ text
  | .elseIf cond body rest => do
    let text ← deeper (blockText (stmtTexts body))
    let texts ← rest.outline label
    return "\n" ++ label ++ "ELSE IF " ++ cond.outline ++ ":\n" ++ text ++ texts

end

/-- The outline of a whole program. -/
def Program.outline (p : Program) : Outliner String := do
  set 2
  let decls ← p.decls.mapM fun d => line (return d.outline)
  let stmts ← p.stmts.mapM fun s => line s.outline
  set 0
  return "AST_ROOT:\n" ++ "  DECLARATIONS:\n" ++ String.join decls ++ "  STATEMENTS:\n"
    ++ String.join stmts

/-- The outline of a node. -/
def Node.outline : Node → Outliner String
  | program p => p.outline
  | varDecl d => return d.outline
  | block b => blockText (stmtTexts b)
  | stmt s => s.outline
  | expr e => return e.outline

/-- The outline of a node by an outliner that has written nothing yet. -/
def Node.text (n : Node) : String :=
  (n.outline.run 0).1

end ScriptTree
