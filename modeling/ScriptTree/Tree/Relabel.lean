import ScriptTree.Tree.Program

/-!
# Relabelling a tree

Replacing every token of a tree by another one, and the line of every line break by another line,
leaves the shape of the tree as it is. The case of most use forgets all lines: two trees are the
same up to lines when they agree after `eraseLines`.
-/

namespace ScriptTree

/-- How the tokens of a tree, and the lines of its line breaks, are replaced. -/
structure Relabelling where
  token : Token → Token
  line : Nat → Nat

/-- Puts everything on line zero. -/
def Relabelling.forgetLines : Relabelling :=
  ⟨fun t => { t with line := 0 }, fun _ => 0⟩

/-- Replaces the tokens of an expression. -/
def Expr.relabel (r : Relabelling) : Expr → Expr
  | binary left operator right => binary (left.relabel r) (r.token operator) (right.relabel r)
  | logical left operator right => logical (left.relabel r) (r.token operator) (right.relabel r)
  | unary operator operand => unary (r.token operator) (operand.relabel r)
  | grouping inner => grouping (inner.relabel r)
  | literal value => literal (r.token value)
  | identifier name => identifier (r.token name)
  | newline line => newline (r.line line)

/-- Replaces the tokens of an assignment. -/
def Assignment.relabel (r : Relabelling) (a : Assignment) : Assignment :=
  ⟨r.token a.name, a.value.relabel r⟩

/-- Replaces the tokens of a declaration. -/
def VarDecl.relabel (r : Relabelling) (d : VarDecl) : VarDecl :=
  ⟨r.token d.typeName, r.token d.name, d.init.map (Expr.relabel r)⟩

mutual

/-- Replaces the tokens of a statement. -/
def Stmt.relabel (r : Relabelling) : Stmt → Stmt
  | .assignment a => .assignment (a.relabel r)
  | .ifElse cond body alternatives =>
    .ifElse (cond.relabel r) (relabelEach r body) (alternatives.relabel r)
  | .repeatWhen cond body => .repeatWhen (cond.relabel r) (relabelEach r body)
  | .forLoop init cond update body =>
    .forLoop (init.relabel r) (cond.relabel r) (update.relabel r) (relabelEach r body)
  | .print exprs => .print (exprs.map (Expr.relabel r))
  | .scan names => .scan (names.map r.token)

/-- Replaces the tokens of each statement. -/
def relabelEach (r : Relabelling) : List Stmt → List Stmt
  | [] => []
  | s :: ss => s.relabel r :: relabelEach r ss

/-- Replaces the tokens of alternatives. -/
def ElseChain.relabel (r : Relabelling) : ElseChain → ElseChain
  | .done => .done
  | .otherwise body => .otherwise (relabelEach r body)
  | .elseIf cond body rest => .elseIf (cond.relabel r) (relabelEach r body) (rest.relabel r)

end

theorem relabelEach_eq_map (r : Relabelling) (ss : List Stmt) :
    relabelEach r ss = ss.map (Stmt.relabel r) := by
  induction ss with
  | nil => rfl
  | cons s ss ih => simp [relabelEach, ih]

/-- Replaces the tokens of a program. -/
def Program.relabel (r : Relabelling) (p : Program) : Program :=
  ⟨p.decls.map (VarDecl.relabel r), relabelEach r p.stmts⟩

/-- The program with all lines forgotten. -/
def Program.eraseLines (p : Program) : Program :=
  p.relabel .forgetLines

/-- The joining of two operands follows the relabelling if that keeps the operator's kind. -/
theorem Expr.relabel_infixNode (r : Relabelling) (left right : Expr) {operator : Token}
    (h : (r.token operator).kind = operator.kind) :
    (infixNode left operator right).relabel r
      = infixNode (left.relabel r) (r.token operator) (right.relabel r) := by
  unfold infixNode
  rw [h]
  split <;> rfl

/-- The leaf of a token follows the relabelling if that keeps the token's kind. -/
theorem Expr.relabel_leaf (r : Relabelling) {t : Token} (h : (r.token t).kind = t.kind) :
    (leaf t).relabel r = leaf (r.token t) := by
  unfold leaf
  rw [h]
  split <;> rfl

/-! ### One relabelling after another -/

/-- Relabels by `r` first and then by `s`. -/
def Relabelling.comp (s r : Relabelling) : Relabelling :=
  ⟨s.token ∘ r.token, s.line ∘ r.line⟩

section

variable (r s : Relabelling)

private theorem Expr.relabel_relabel (e : Expr) :
    (e.relabel r).relabel s = e.relabel (s.comp r) := by
  induction e with
  | binary left operator right ihl ihr => rw [relabel, relabel, relabel, ihl, ihr]; rfl
  | logical left operator right ihl ihr => rw [relabel, relabel, relabel, ihl, ihr]; rfl
  | unary operator operand ih => rw [relabel, relabel, relabel, ih]; rfl
  | grouping inner ih => rw [relabel, relabel, relabel, ih]
  | _ => rfl

private theorem Assignment.relabel_relabel (a : Assignment) :
    (a.relabel r).relabel s = a.relabel (s.comp r) := by
  simp [relabel, Expr.relabel_relabel, Relabelling.comp]

private theorem VarDecl.relabel_relabel (d : VarDecl) :
    (d.relabel r).relabel s = d.relabel (s.comp r) := by
  simp [relabel, Expr.relabel_relabel, Relabelling.comp, Function.comp_def]

mutual

theorem Stmt.relabel_relabel (st : Stmt) : (st.relabel r).relabel s = st.relabel (s.comp r) := by
  cases st with
  | assignment a => simp [Stmt.relabel, Assignment.relabel_relabel]
  | ifElse cond body alternatives =>
    simp [Stmt.relabel, Expr.relabel_relabel, relabelEach_relabelEach body,
      ElseChain.relabel_relabel alternatives]
  | repeatWhen cond body =>
    simp [Stmt.relabel, Expr.relabel_relabel, relabelEach_relabelEach body]
  | forLoop init cond update body =>
    simp [Stmt.relabel, Expr.relabel_relabel, Assignment.relabel_relabel,
      relabelEach_relabelEach body]
  | print exprs => simp [Stmt.relabel, Expr.relabel_relabel]
  | scan names => simp [Stmt.relabel, Relabelling.comp]

private theorem relabelEach_relabelEach (ss : List Stmt) :
    relabelEach s (relabelEach r ss) = relabelEach (s.comp r) ss := by
  cases ss with
  | nil => rfl
  | cons st ss => simp [relabelEach, Stmt.relabel_relabel st, relabelEach_relabelEach ss]

theorem ElseChain.relabel_relabel (c : ElseChain) :
    (c.relabel r).relabel s = c.relabel (s.comp r) := by
  cases c with
  | done => rfl
  | otherwise body => simp [ElseChain.relabel, relabelEach_relabelEach body]
  | elseIf cond body rest =>
    simp [ElseChain.relabel, Expr.relabel_relabel, relabelEach_relabelEach body,
      ElseChain.relabel_relabel rest]

end

theorem Program.relabel_relabel (p : Program) :
    (p.relabel r).relabel s = p.relabel (s.comp r) := by
  simp [relabel, relabelEach_relabelEach, VarDecl.relabel_relabel]

end

end ScriptTree
