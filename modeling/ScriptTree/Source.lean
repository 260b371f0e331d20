import ScriptTree.Scan.Spelling
import ScriptTree.Tree.Program

/-!
# Writing a tree as a script

`Program.source` writes a tree as a script with blanks between the tokens: a declaration for every
variable, parentheses for every group and a `$` for every line break. What is written need not read
back as the same tree: an operand may need parentheses that the tree does not have, and a `PRINT` of
several expressions has no spelling. Canonical trees are those without such defects
(`Program.isCanonical`): tokens are well spelled and of the kinds that their places ask for, an
operand of an operator binds strongly enough to be written without parentheses, every `PRINT` has
one expression and every `SCAN` a name.
-/

namespace ScriptTree

/-! ### Words -/

/-- Lists of words put together with a separating word between them. -/
def separated (separator : String) (parts : List (List String)) : List String :=
  List.intercalate [separator] parts

/-- The words of an expression. -/
def Expr.words : Expr → List String
  | binary left operator right | logical left operator right =>
    left.words ++ operator.lexeme :: right.words
  | unary operator operand => operator.lexeme :: operand.words
  | grouping inner => "(" :: (inner.words ++ [")"])
  | literal value => [value.lexeme]
  | identifier name => [name.lexeme]
  | newline _ => ["$"]

/-- The words of an assignment, without a `$`. -/
def Assignment.words (a : Assignment) : List String :=
  a.name.lexeme :: "=" :: a.value.words

/-- The words of a declaration of one variable. -/
def VarDecl.words (d : VarDecl) : List String :=
  d.typeName.lexeme :: d.name.lexeme :: (d.init.elim [] ("=" :: ·.words)) ++ ["$"]

/-- The words of a block with the given content. -/
def blockWords (keyword : String) (inner : List String) : List String :=
  "START" :: keyword :: (inner ++ ["END", keyword])

mutual

/-- The words of a statement. -/
def Stmt.words : Stmt → List String
  | .assignment a => a.words ++ ["$"]
  | .ifElse cond body alternatives =>
    "IF" :: (cond.words ++ blockWords "IF" (wordsEach body) ++ alternatives.words)
  | .repeatWhen cond body =>
    "REPEAT" :: "WHEN" :: (cond.words ++ blockWords "REPEAT" (wordsEach body))
  | .forLoop init cond update body =>
    "FOR" :: "(" :: (init.words ++ "," :: (cond.words ++ "," :: (update.words ++
      ")" :: blockWords "FOR" (wordsEach body))))
  | .print exprs => "PRINT" :: ":" :: (separated "&" (exprs.map Expr.words) ++ ["$"])
  | .scan names => "SCAN" :: ":" :: (separated "," (names.map ([·.lexeme])) ++ ["$"])

/-- The words of statements, one after another. -/
def wordsEach : List Stmt → List String
  | [] => []
  | s :: ss => s.words ++ wordsEach ss

/-- The words of alternatives. -/
def ElseChain.words : ElseChain → List String
  | .done => []
  | .otherwise body => "ELSE" :: blockWords "IF" (wordsEach body)
  | .elseIf cond body rest =>
    "ELSE" :: "IF" :: (cond.words ++ blockWords "IF" (wordsEach body) ++ rest.words)

end

/-- The words of a program. -/
def Program.words (p : Program) : List String :=
  "SCRIPT" :: "AREA" :: blockWords "SCRIPT" (p.decls.flatMap VarDecl.words ++ wordsEach p.stmts)

/-- A program as a script, with a blank between any two tokens. -/
def Program.source (p : Program) : String :=
  " ".intercalate p.words

/-! ### Canonical trees -/

/-- Whether a token is well spelled and is an identifier. -/
def Token.isName (t : Token) : Bool :=
  t.kind == .identifier && t.isWellSpelled

/-- How strongly an expression holds together when it is written without parentheses around it: the
level of its operator, or more than any operator for a leaf or a group. -/
def Expr.strength : Expr → Nat
  | binary _ operator _ | logical _ operator _ => operator.kind.level?.getD 0
  | unary _ _ => 5
  | grouping _ | literal _ | identifier _ | newline _ => 6

/-- Whether an expression can be written as it is. -/
def Expr.isCanonical : Expr → Bool
  | binary left operator right =>
    !operator.kind.isLogical && operator.isWellSpelled &&
      operator.kind.level?.any (fun n => n ≤ left.strength && n < right.strength) &&
      left.isCanonical && right.isCanonical
  | logical left operator right =>
    operator.kind.isLogical && operator.isWellSpelled &&
      operator.kind.level?.any (fun n => n ≤ left.strength && n < right.strength) &&
      left.isCanonical && right.isCanonical
  | unary operator operand =>
    operator.kind.isPrefixOperator && operator.isWellSpelled && 5 ≤ operand.strength &&
      operand.isCanonical
  | grouping inner => inner.isCanonical
  | literal value => value.kind.isLiteral && value.isWellSpelled
  | identifier name => name.isName
  | newline _ => true

/-- Whether an assignment can be written as it is. -/
def Assignment.isCanonical (a : Assignment) : Bool :=
  a.name.isName && a.value.isCanonical

/-- Whether a declaration can be written as it is. -/
def VarDecl.isCanonical (d : VarDecl) : Bool :=
  d.typeName.kind.isTypeKeyword && d.typeName.isWellSpelled && d.name.isName &&
    d.init.all Expr.isCanonical

mutual

/-- Whether a statement can be written as it is. -/
def Stmt.isCanonical : Stmt → Bool
  | .assignment a => a.isCanonical
  | .ifElse cond body alternatives =>
    cond.isCanonical && areCanonical body && alternatives.isCanonical
  | .repeatWhen cond body => cond.isCanonical && areCanonical body
  | .forLoop init cond update body =>
    init.isCanonical && cond.isCanonical && update.isCanonical && areCanonical body
  | .print exprs => exprs.length == 1 && exprs.all Expr.isCanonical
  | .scan names => !names.isEmpty && names.all Token.isName

/-- Whether statements can be written as they are. -/
def areCanonical : List Stmt → Bool
  | [] => true
  | s :: ss => s.isCanonical && areCanonical ss

/-- Whether alternatives can be written as they are. -/
def ElseChain.isCanonical : ElseChain → Bool
  | .done => true
  | .otherwise body => areCanonical body
  | .elseIf cond body rest => cond.isCanonical && areCanonical body && rest.isCanonical

end

/-- Whether a program can be written as it is. -/
def Program.isCanonical (p : Program) : Bool :=
  p.decls.all VarDecl.isCanonical && areCanonical p.stmts

/-! ### Joined operands and leaves -/

namespace Expr

variable {left right : Expr} {operator t : Token}

@[simp] theorem words_infixNode :
    (infixNode left operator right).words = left.words ++ operator.lexeme :: right.words := by
  unfold infixNode
  split <;> rfl

@[simp] theorem strength_infixNode :
    (infixNode left operator right).strength = operator.kind.level?.getD 0 := by
  unfold infixNode
  split <;> rfl

/-- The node of an operator is chosen so that it is canonical if its parts are. -/
theorem isCanonical_infixNode : (infixNode left operator right).isCanonical =
    (operator.isWellSpelled &&
      operator.kind.level?.any (fun n => n ≤ left.strength && n < right.strength) &&
      left.isCanonical && right.isCanonical) := by
  unfold infixNode
  split
  · next h => simp [isCanonical, h]
  · next h => simp [isCanonical, h]

@[simp] theorem words_leaf : (leaf t).words = [t.lexeme] := by
  unfold leaf
  split <;> rfl

@[simp] theorem strength_leaf : (leaf t).strength = 6 := by
  unfold leaf
  split <;> rfl

/-- The leaf of an operand is canonical if the operand is well spelled. -/
theorem isCanonical_leaf (h : t.kind.isOperand = true) :
    (leaf t).isCanonical = t.isWellSpelled := by
  unfold leaf
  split
  · next hk => simp [isCanonical, Token.isName, hk]
  · next hk =>
    have hliteral : t.kind.isLiteral = true := ((Kind.isOperand_iff _).mp h).resolve_right hk
    simp [isCanonical, hliteral]

end Expr

end ScriptTree
