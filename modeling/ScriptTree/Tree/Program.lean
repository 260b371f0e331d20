import ScriptTree.Tree.Expr

/-!
# Statements and programs

A program is a list of declarations and a list of statements. Compound statements hold blocks, which
are lists of statements again; the alternatives of a conditional form a chain that ends with no
alternative, or with one that needs no condition.
-/

namespace ScriptTree

/-- A name and the value it gets. -/
structure Assignment where
  name : Token
  value : Expr
  deriving DecidableEq, Repr, Inhabited

/-- One declared variable. Variables declared together share the type's token. -/
structure VarDecl where
  typeName : Token
  name : Token
  init : Option Expr
  deriving DecidableEq, Repr, Inhabited

mutual

/-- A statement of a script. -/
inductive Stmt where
  | assignment (a : Assignment)
  | ifElse (cond : Expr) (body : List Stmt) (alternatives : ElseChain)
  | repeatWhen (cond : Expr) (body : List Stmt)
  | forLoop (init : Assignment) (cond : Expr) (update : Assignment) (body : List Stmt)
  | print (exprs : List Expr)
  | scan (names : List Token)

/-- What follows the first block of a conditional. -/
inductive ElseChain where
  /-- No alternative is left. -/
  | done
  /-- The block for when no condition holds. -/
  | otherwise (body : List Stmt)
  /-- One more condition with its block, and what follows them. -/
  | elseIf (cond : Expr) (body : List Stmt) (rest : ElseChain)

end

deriving instance Repr for Stmt, ElseChain

instance : Inhabited Stmt := ⟨.scan []⟩

/-- The statements between the start and the end of a compound statement. -/
abbrev Block := List Stmt

/-- A whole script. -/
structure Program where
  decls : List VarDecl
  stmts : List Stmt
  deriving Repr, Inhabited

end ScriptTree
