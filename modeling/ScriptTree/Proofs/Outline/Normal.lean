import ScriptTree.Proofs.Outline.Depth
import ScriptTree.Tree.Relabel

/-!
# What an outline does not show

An outline shows neither lines nor the difference between a line break and a name `NEWLINE`. The
normal form of a program (`Program.normal`) forgets both: line breaks are replaced by names, and
then all lines are erased. The outline of a program is that of its normal form
(`Program.text_normal`).
-/

namespace ScriptTree

/-! ### Names for line breaks -/

/-- Puts the name `NEWLINE` in the place of every line break. -/
def Expr.nameNewlines : Expr → Expr
  | binary left operator right => binary left.nameNewlines operator right.nameNewlines
  | logical left operator right => logical left.nameNewlines operator right.nameNewlines
  | unary operator operand => unary operator operand.nameNewlines
  | grouping inner => grouping inner.nameNewlines
  | literal value => literal value
  | identifier name => identifier name
  | newline line => identifier ⟨.identifier, "NEWLINE", line⟩

/-- Replaces the value of an assignment. -/
def Assignment.mapExprs (f : Expr → Expr) (a : Assignment) : Assignment :=
  { a with value := f a.value }

/-- Replaces the initial value of a declaration. -/
def VarDecl.mapExprs (f : Expr → Expr) (d : VarDecl) : VarDecl :=
  { d with init := d.init.map f }

mutual

/-- Replaces the expressions of a statement. -/
def Stmt.mapExprs (f : Expr → Expr) : Stmt → Stmt
  | .assignment a => .assignment (a.mapExprs f)
  | .ifElse cond body alternatives =>
    .ifElse (f cond) (mapExprsEach f body) (alternatives.mapExprs f)
  | .repeatWhen cond body => .repeatWhen (f cond) (mapExprsEach f body)
  | .forLoop init cond update body =>
    .forLoop (init.mapExprs f) (f cond) (update.mapExprs f) (mapExprsEach f body)
  | .print exprs => .print (exprs.map f)
  | .scan names => .scan names

/-- Replaces the expressions of each statement. -/
def mapExprsEach (f : Expr → Expr) : List Stmt → List Stmt
  | [] => []
  | s :: ss => s.mapExprs f :: mapExprsEach f ss

/-- Replaces the expressions of alternatives. -/
def ElseChain.mapExprs (f : Expr → Expr) : ElseChain → ElseChain
  | .done => .done
  | .otherwise body => .otherwise (mapExprsEach f body)
  | .elseIf cond body rest => .elseIf (f cond) (mapExprsEach f body) (rest.mapExprs f)

end

/-- Replaces the expressions of a program. -/
def Program.mapExprs (f : Expr → Expr) (p : Program) : Program :=
  ⟨p.decls.map (VarDecl.mapExprs f), mapExprsEach f p.stmts⟩

/-- The program with names for its line breaks and without lines. -/
def Program.normal (p : Program) : Program :=
  (p.mapExprs Expr.nameNewlines).eraseLines

/-- The statements of a block are changed one by one. -/
private theorem mapExprsEach_eq_map (f : Expr → Expr) (ss : List Stmt) :
    mapExprsEach f ss = ss.map (Stmt.mapExprs f) := by
  induction ss with
  | nil => rfl
  | cons s ss ih => rw [mapExprsEach, ih, List.map_cons]

/-! ### Normal forms of the parts -/

/-- The expression with names for its line breaks and without lines. -/
def Expr.normal (e : Expr) : Expr :=
  e.nameNewlines.relabel .forgetLines

/-- The assignment with names for its line breaks and without lines. -/
def Assignment.normal (a : Assignment) : Assignment :=
  (a.mapExprs Expr.nameNewlines).relabel .forgetLines

/-- The declaration with names for its line breaks and without lines. -/
def VarDecl.normal (d : VarDecl) : VarDecl :=
  (d.mapExprs Expr.nameNewlines).relabel .forgetLines

/-- The statement with names for its line breaks and without lines. -/
def Stmt.normal (s : Stmt) : Stmt :=
  (s.mapExprs Expr.nameNewlines).relabel .forgetLines

/-- The alternatives with names for their line breaks and without lines. -/
def ElseChain.normal (c : ElseChain) : ElseChain :=
  (c.mapExprs Expr.nameNewlines).relabel .forgetLines

/-- The normal form of a block is that of its statements. -/
private theorem relabelEach_mapExprsEach (ss : List Stmt) :
    relabelEach .forgetLines (mapExprsEach Expr.nameNewlines ss) = ss.map Stmt.normal := by
  rw [mapExprsEach_eq_map, relabelEach_eq_map, List.map_map]
  rfl

section

variable (cond : Expr) (body : Block)

@[simp] theorem Stmt.normal_assignment (a : Assignment) :
    (assignment a).normal = assignment a.normal := rfl

@[simp] theorem Stmt.normal_print (exprs : List Expr) :
    (print exprs).normal = print (exprs.map Expr.normal) :=
  congrArg print List.map_map

@[simp] theorem Stmt.normal_scan (names : List Token) :
    (scan names).normal = scan (names.map Relabelling.forgetLines.token) := rfl

@[simp] theorem Stmt.normal_ifElse (alternatives : ElseChain) :
    (ifElse cond body alternatives).normal
      = ifElse cond.normal (body.map Stmt.normal) alternatives.normal := by
  rw [← relabelEach_mapExprsEach]
  rfl

@[simp] theorem Stmt.normal_repeatWhen :
    (repeatWhen cond body).normal = repeatWhen cond.normal (body.map Stmt.normal) := by
  rw [← relabelEach_mapExprsEach]
  rfl

@[simp] theorem Stmt.normal_forLoop (init update : Assignment) :
    (forLoop init cond update body).normal
      = forLoop init.normal cond.normal update.normal (body.map Stmt.normal) := by
  rw [← relabelEach_mapExprsEach]
  rfl

@[simp] theorem ElseChain.normal_otherwise :
    (otherwise body).normal = otherwise (body.map Stmt.normal) := by
  rw [← relabelEach_mapExprsEach]
  rfl

@[simp] theorem ElseChain.normal_elseIf (rest : ElseChain) :
    (elseIf cond body rest).normal = elseIf cond.normal (body.map Stmt.normal) rest.normal := by
  rw [← relabelEach_mapExprsEach]
  rfl

end

/-- A normal form is made of the normal forms of the parts. -/
theorem Program.normal_eq (p : Program) :
    p.normal = ⟨p.decls.map VarDecl.normal, p.stmts.map Stmt.normal⟩ := by
  rw [← relabelEach_mapExprsEach]
  exact congrArg (Program.mk · _) List.map_map

/-! ### Outlines of replaced expressions -/

/-- A line break is drawn as the identifier that it becomes. -/
private theorem Expr.outline_nameNewlines (e : Expr) : e.nameNewlines.outline = e.outline := by
  induction e with
  | binary left operator right ihl ihr | logical left operator right ihl ihr =>
    rw [nameNewlines, outline, outline, ihl, ihr]
  | unary operator operand ih => rw [nameNewlines, outline, outline, ih]
  | grouping inner ih => rw [nameNewlines, outline, outline, ih]
  | literal | identifier | newline => rfl

section

variable {f : Expr → Expr}

private theorem Assignment.outline_mapExprs (hf : ∀ e, (f e).outline = e.outline) (a : Assignment) :
    (a.mapExprs f).outline = a.outline := by
  rw [outline, outline, mapExprs, hf]

private theorem VarDecl.outline_mapExprs (hf : ∀ e, (f e).outline = e.outline) (d : VarDecl) :
    (d.mapExprs f).outline = d.outline := by
  obtain ⟨typeName, name, init⟩ := d
  cases init with
  | none => rfl
  | some e => simp [outline, mapExprs, hf]

mutual

/-- Changing expressions to ones that are drawn alike changes no outline. -/
private theorem Stmt.outline_mapExprs (hf : ∀ e, (f e).outline = e.outline) (s : Stmt) :
    (s.mapExprs f).outline = s.outline := by
  cases s with
  | assignment a => simp only [Stmt.mapExprs, Stmt.outline, Assignment.outline_mapExprs hf]
  | ifElse cond body alternatives =>
    simp only [Stmt.mapExprs, Stmt.outline, hf, stmtTexts_mapExprsEach hf body,
      ElseChain.outline_mapExprs hf alternatives]
  | repeatWhen cond body =>
    simp only [Stmt.mapExprs, Stmt.outline, hf, stmtTexts_mapExprsEach hf body]
  | forLoop init cond update body =>
    simp only [Stmt.mapExprs, Stmt.outline, hf, Assignment.outline_mapExprs hf,
      stmtTexts_mapExprsEach hf body]
  | print exprs => simp [Stmt.mapExprs, Stmt.outline, Function.comp_def, hf]
  | scan names => rfl

theorem stmtTexts_mapExprsEach (hf : ∀ e, (f e).outline = e.outline) (ss : List Stmt) :
    stmtTexts (mapExprsEach f ss) = stmtTexts ss := by
  cases ss with
  | nil => rfl
  | cons s ss =>
    simp only [mapExprsEach, stmtTexts, Stmt.outline_mapExprs hf s, stmtTexts_mapExprsEach hf ss]

theorem ElseChain.outline_mapExprs (hf : ∀ e, (f e).outline = e.outline) (c : ElseChain)
    (label : String) : (c.mapExprs f).outline label = c.outline label := by
  cases c with
  | done => rfl
  | otherwise body =>
    simp only [ElseChain.mapExprs, ElseChain.outline, stmtTexts_mapExprsEach hf body]
  | elseIf cond body rest =>
    simp only [ElseChain.mapExprs, ElseChain.outline, hf, stmtTexts_mapExprsEach hf body,
      ElseChain.outline_mapExprs hf rest label]

end

/-- The same for whole programs. -/
private theorem Program.text_mapExprs (hf : ∀ e, (f e).outline = e.outline) (p : Program) :
    (Node.program (p.mapExprs f)).text = (Node.program p).text := by
  simp only [text_eq, Program.mapExprs, mapExprsEach_eq_map, List.map_map, Function.comp_def,
    VarDecl.outline_mapExprs hf, Stmt.textAt, Stmt.outline_mapExprs hf]

end

/-! ### Outlines of relabelled trees -/

section

variable {r : Relabelling}

private theorem Expr.outline_relabel (hr : ∀ t, (r.token t).lexeme = t.lexeme) (e : Expr) :
    (e.relabel r).outline = e.outline := by
  induction e with
  | binary left operator right ihl ihr | logical left operator right ihl ihr =>
    rw [relabel, outline, outline, hr, ihl, ihr]
  | unary operator operand ih => rw [relabel, outline, outline, hr, ih]
  | grouping inner ih => rw [relabel, outline, outline, ih]
  | literal value => exact hr value
  | identifier name => exact hr name
  | newline => rfl

private theorem Assignment.outline_relabel (hr : ∀ t, (r.token t).lexeme = t.lexeme)
    (a : Assignment) : (a.relabel r).outline = a.outline := by
  rw [outline, outline, relabel, hr, Expr.outline_relabel hr]

private theorem VarDecl.outline_relabel (hr : ∀ t, (r.token t).lexeme = t.lexeme) (d : VarDecl) :
    (d.relabel r).outline = d.outline := by
  obtain ⟨typeName, name, init⟩ := d
  cases init with
  | none => simp [outline, relabel, hr]
  | some e => simp [outline, relabel, hr, Expr.outline_relabel hr]

mutual

/-- Changing tokens to ones of the same text changes no outline. -/
private theorem Stmt.outline_relabel (hr : ∀ t, (r.token t).lexeme = t.lexeme) (s : Stmt) :
    (s.relabel r).outline = s.outline := by
  cases s with
  | assignment a => simp only [Stmt.relabel, Stmt.outline, Assignment.outline_relabel hr]
  | ifElse cond body alternatives =>
    simp only [Stmt.relabel, Stmt.outline, Expr.outline_relabel hr, stmtTexts_relabelEach hr body,
      ElseChain.outline_relabel hr alternatives]
  | repeatWhen cond body =>
    simp only [Stmt.relabel, Stmt.outline, Expr.outline_relabel hr, stmtTexts_relabelEach hr body]
  | forLoop init cond update body =>
    simp only [Stmt.relabel, Stmt.outline, Expr.outline_relabel hr, Assignment.outline_relabel hr,
      stmtTexts_relabelEach hr body]
  | print exprs => simp [Stmt.relabel, Stmt.outline, Function.comp_def, Expr.outline_relabel hr]
  | scan names => simp [Stmt.relabel, Stmt.outline, Function.comp_def, hr]

theorem stmtTexts_relabelEach (hr : ∀ t, (r.token t).lexeme = t.lexeme) (ss : List Stmt) :
    stmtTexts (relabelEach r ss) = stmtTexts ss := by
  cases ss with
  | nil => rfl
  | cons s ss =>
    simp only [relabelEach, stmtTexts, Stmt.outline_relabel hr s, stmtTexts_relabelEach hr ss]

theorem ElseChain.outline_relabel (hr : ∀ t, (r.token t).lexeme = t.lexeme) (c : ElseChain)
    (label : String) : (c.relabel r).outline label = c.outline label := by
  cases c with
  | done => rfl
  | otherwise body =>
    simp only [ElseChain.relabel, ElseChain.outline, stmtTexts_relabelEach hr body]
  | elseIf cond body rest =>
    simp only [ElseChain.relabel, ElseChain.outline, Expr.outline_relabel hr,
      stmtTexts_relabelEach hr body, ElseChain.outline_relabel hr rest label]

end

/-- The same for whole programs, so lines are not drawn. -/
private theorem Program.text_relabel (hr : ∀ t, (r.token t).lexeme = t.lexeme) (p : Program) :
    (Node.program (p.relabel r)).text = (Node.program p).text := by
  simp only [text_eq, Program.relabel, relabelEach_eq_map, List.map_map, Function.comp_def,
    VarDecl.outline_relabel hr, Stmt.textAt, Stmt.outline_relabel hr]

end

/-- The outline of a program is that of its normal form. -/
theorem Program.text_normal (p : Program) :
    (Node.program p.normal).text = (Node.program p).text := by
  rw [normal, eraseLines, text_relabel fun _ => rfl, text_mapExprs Expr.outline_nameNewlines]

end ScriptTree
