import ScriptTree.Tree.Program

/-!
# Nodes

Programs, declarations, blocks, statements and expressions are the nodes of a tree. This file says
which nodes stand directly below a node (`Node.children`) and lists a node with everything below it
in pre-order (`Node.preorder`); the list follows the children (`preorder_eq`).

The statements of a program stand directly below it, without a block. The first and last parts of
a `FOR` header are assignment nodes. The names that a `SCAN` reads are not nodes.
-/

namespace ScriptTree

/-- The sixteen kinds of nodes. -/
inductive NodeKind where
  | program | varDecl | assignment | block | ifElse | repeatWhen | forLoop | print | scan
  | binary | logical | unary | grouping | literal | identifier | newline
  deriving DecidableEq, Repr

namespace NodeKind

/-- Every kind of node. -/
def all : List NodeKind :=
  [program, varDecl, assignment, block, ifElse, repeatWhen, forLoop, print, scan,
    binary, logical, unary, grouping, literal, identifier, newline]

/-- Every kind is listed once. -/
theorem count_all (k : NodeKind) : all.count k = 1 := by cases k <;> decide

end NodeKind

/-- A node of a tree. -/
inductive Node where
  | program (p : Program)
  | varDecl (d : VarDecl)
  | block (b : Block)
  | stmt (s : Stmt)
  | expr (e : Expr)

/-! ### Kinds -/

/-- The kind of an expression's topmost node. -/
def Expr.nodeKind : Expr → NodeKind
  | binary .. => .binary
  | logical .. => .logical
  | unary .. => .unary
  | grouping _ => .grouping
  | literal _ => .literal
  | identifier _ => .identifier
  | newline _ => .newline

/-- The kind of a statement's topmost node. -/
def Stmt.nodeKind : Stmt → NodeKind
  | assignment _ => .assignment
  | ifElse .. => .ifElse
  | repeatWhen .. => .repeatWhen
  | forLoop .. => .forLoop
  | print _ => .print
  | scan _ => .scan

/-- The kind of a node. -/
def Node.kind : Node → NodeKind
  | program _ => .program
  | varDecl _ => .varDecl
  | block _ => .block
  | stmt s => s.nodeKind
  | expr e => e.nodeKind

/-! ### Children -/

/-- The operands of an expression, from the left. -/
def Expr.operands : Expr → List Expr
  | binary left _ right | logical left _ right => [left, right]
  | unary _ operand => [operand]
  | grouping inner => [inner]
  | literal _ | identifier _ | newline _ => []

/-- The conditions and blocks of the alternatives, in order. -/
def ElseChain.children : ElseChain → List Node
  | done => []
  | otherwise body => [.block body]
  | elseIf cond body rest => .expr cond :: .block body :: rest.children

/-- The nodes directly below a statement, in order. -/
def Stmt.children : Stmt → List Node
  | assignment a => [.expr a.value]
  | ifElse cond body alternatives => .expr cond :: .block body :: alternatives.children
  | repeatWhen cond body => [.expr cond, .block body]
  | forLoop init cond update body =>
    [.stmt (assignment init), .expr cond, .stmt (assignment update), .block body]
  | print exprs => exprs.map .expr
  | scan _ => []

/-- The nodes directly below a node, in order. -/
def Node.children : Node → List Node
  | program p => p.decls.map .varDecl ++ p.stmts.map .stmt
  | varDecl d => d.init.toList.map .expr
  | block b => b.map .stmt
  | stmt s => s.children
  | expr e => e.operands.map .expr

/-! ### Pre-order -/

/-- An expression and everything below it. -/
def Expr.preorder : Expr → List Node
  | e@(binary left _ right) | e@(logical left _ right) =>
    .expr e :: (left.preorder ++ right.preorder)
  | e@(unary _ operand) => .expr e :: operand.preorder
  | e@(grouping inner) => .expr e :: inner.preorder
  | e@(literal _) | e@(identifier _) | e@(newline _) => [.expr e]

/-- An assignment and everything below it. -/
def Assignment.preorder (a : Assignment) : List Node :=
  .stmt (.assignment a) :: a.value.preorder

mutual

/-- A statement and everything below it. -/
def Stmt.preorder : Stmt → List Node
  | .assignment a => a.preorder
  | .ifElse cond body alternatives =>
    .stmt (.ifElse cond body alternatives) ::
      (cond.preorder ++ (.block body :: preorderEach body) ++ alternatives.preorder)
  | .repeatWhen cond body =>
    .stmt (.repeatWhen cond body) :: (cond.preorder ++ (.block body :: preorderEach body))
  | .forLoop init cond update body =>
    .stmt (.forLoop init cond update body) ::
      (init.preorder ++ cond.preorder ++ update.preorder ++ (.block body :: preorderEach body))
  | .print exprs => .stmt (.print exprs) :: exprs.flatMap Expr.preorder
  | .scan names => [.stmt (.scan names)]

/-- Each statement of a list and everything below it. -/
def preorderEach : List Stmt → List Node
  | [] => []
  | s :: ss => s.preorder ++ preorderEach ss

/-- The conditions and blocks of the alternatives and everything below them. -/
def ElseChain.preorder : ElseChain → List Node
  | .done => []
  | .otherwise body => .block body :: preorderEach body
  | .elseIf cond body rest =>
    cond.preorder ++ (.block body :: preorderEach body) ++ rest.preorder

end

/-- A declaration and everything below it. -/
def VarDecl.preorder (d : VarDecl) : List Node :=
  .varDecl d :: (d.init.elim [] Expr.preorder)

/-- A node and everything below it: the node first, then the same for each child in turn. -/
def Node.preorder : Node → List Node
  | program p => .program p :: (p.decls.flatMap VarDecl.preorder ++ preorderEach p.stmts)
  | varDecl d => d.preorder
  | block b => .block b :: preorderEach b
  | stmt s => s.preorder
  | expr e => e.preorder

private theorem preorderEach_eq (ss : List Stmt) : preorderEach ss = ss.flatMap Stmt.preorder := by
  induction ss with
  | nil => rfl
  | cons s ss ih => simp [preorderEach, ih]

namespace Expr

theorem preorder_eq (e : Expr) :
    e.preorder = .expr e :: e.operands.flatMap preorder := by
  cases e <;> simp [preorder, operands]

theorem preorder_leaf (t : Token) : (leaf t).preorder = [.expr (leaf t)] := by
  unfold leaf
  split <;> rfl

theorem preorder_infixNode (left right : Expr) (operator : Token) :
    (infixNode left operator right).preorder
      = .expr (infixNode left operator right) :: (left.preorder ++ right.preorder) := by
  unfold infixNode
  split <;> rfl

end Expr

theorem ElseChain.preorder_eq (c : ElseChain) :
    c.preorder = c.children.flatMap Node.preorder := by
  induction c using ElseChain.rec (motive_1 := fun _ => True) (motive_3 := fun _ => True) with
  | done => rfl
  | otherwise body _ => simp [preorder, children, Node.preorder]
  | elseIf cond body rest _ ih => simp [preorder, children, Node.preorder, ih]
  | _ => trivial

theorem Stmt.preorder_eq (s : Stmt) :
    s.preorder = .stmt s :: s.children.flatMap Node.preorder := by
  cases s <;>
    simp [preorder, children, Node.preorder, Assignment.preorder, ElseChain.preorder_eq,
      List.flatMap_map]

/-- Pre-order follows the children. -/
theorem Node.preorder_eq (n : Node) : n.preorder = n :: n.children.flatMap preorder := by
  cases n with
  | program p =>
    have hd : p.decls.flatMap VarDecl.preorder
        = p.decls.flatMap fun d => Node.preorder (.varDecl d) := rfl
    have hs : preorderEach p.stmts = p.stmts.flatMap fun s => Node.preorder (.stmt s) :=
      preorderEach_eq p.stmts
    simp [preorder, children, List.flatMap_map, hd, hs]
  | varDecl d =>
    cases h : d.init <;> simp [preorder, children, VarDecl.preorder, h]
  | block b =>
    have hs : preorderEach b = b.flatMap fun s => Node.preorder (.stmt s) := preorderEach_eq b
    simp [preorder, children, List.flatMap_map, hs]
  | stmt s => exact s.preorder_eq
  | expr e =>
    have := e.preorder_eq
    simpa [preorder, children, List.flatMap_map] using this

end ScriptTree
