import ScriptTree.Outline

/-!
# Outlines at a given depth

An outliner of a statement, of a block or of alternatives leaves the depth as it was
(`Outliner.Steady`), so its text is a function of the depth alone. This file gives the text of each
construct at a depth in terms of the texts of its parts, without the state of the outliner:
`Stmt.textAt`, `blockAt` and `ElseChain.textAt` with their equations, and `Program.text_eq` for a
whole program. That the depth is the same after a part as before it is what makes one margin stand
before all lines of a block, whether it is read once or before each of them.
-/

namespace ScriptTree

/-- The blanks at the start of a line at a depth. -/
def marginText (d : Nat) : String :=
  String.ofList (List.replicate (2 * d) ' ')

namespace Outliner

variable {α β : Type} {w : Outliner α} {f : α → Outliner β} {d : Nat}

/-- The outliner comes back to the depth that it started from. -/
def Steady (w : Outliner α) : Prop :=
  ∀ d, (w d).2 = d

/-- What is known already is written at any depth. -/
private theorem Steady.pure (a : α) : Steady (Pure.pure a) :=
  fun _ => rfl

/-- A margin shows the depth and leaves it. -/
private theorem Steady.margin : Steady margin :=
  fun _ => rfl

/-- What comes after a steady outliner writes at the same depth. -/
private theorem Steady.bind_apply (hw : Steady w) (f : α → Outliner β) (d : Nat) :
    (w >>= f) d = f (w d).1 d := by
  have h : (w >>= f) d = f (w d).1 (w d).2 := rfl
  rw [h, hw]

/-- One steady outliner after another. -/
private theorem Steady.bind (hw : Steady w) (hf : ∀ a, Steady (f a)) : Steady (w >>= f) := by
  intro d
  rw [hw.bind_apply]
  exact hf _ d

/-- What is written one level deeper is what is written from there. -/
private theorem Steady.deeper_apply (hw : Steady w) (d : Nat) :
    Outliner.deeper w d = ((w (d + 1)).1, d) := by
  have h : Outliner.deeper w d = ((w (d + 1)).1, (w (d + 1)).2 - 1) := rfl
  rw [h, hw]
  rfl

/-- Going deeper and coming back is steady. -/
private theorem Steady.deeper (hw : Steady w) : Steady (deeper w) := by
  intro d
  rw [hw.deeper_apply]

/-- A line begins with the margin of the depth at which its text was begun. -/
private theorem Steady.line_apply {w : Outliner String} (hw : Steady w) (d : Nat) :
    line w d = (marginText d ++ (w d).1 ++ "\n", d) := by
  unfold line
  rw [hw.bind_apply]
  rfl

/-- Outliners that come back to their depth, one after another: each of them writes what it writes
when it is the only one. -/
theorem mapM_apply_of_rests (h : ∀ a, (f a d).2 = d) (as : List α) :
    as.mapM f d = (as.map fun a => (f a d).1, d) := by
  induction as with
  | nil => rfl
  | cons a as ih =>
    -- The rest is written from the depth at which the first one was left, which is `d`.
    have hstep : (a :: as).mapM f d
        = ((f a d).1 :: (as.mapM f (f a d).2).1, (as.mapM f (f a d).2).2) := by
      rw [List.mapM_cons]
      rfl
    rw [hstep, h a, ih, List.map_cons]

end Outliner

open Outliner

/-- A block leaves the depth if its statements do. -/
theorem blockText_steady {texts : Outliner (List String)} (h : Steady texts) :
    Steady (blockText texts) := by
  refine .bind .margin fun start => h.bind fun texts => ?_
  cases texts <;> exact .pure _

mutual

/-- **Statements are steady**, and so are blocks and alternatives. -/
theorem Stmt.outline_steady (s : Stmt) : Steady s.outline := by
  cases s with
  | assignment | print | scan =>
    unfold Stmt.outline
    exact .pure _
  | ifElse cond body alternatives =>
    unfold Stmt.outline
    refine .bind (.deeper ?_) fun parts => .pure _
    refine .bind .margin fun label => .bind (.deeper (blockText_steady (stmtTexts_steady body))) ?_
    exact fun text => .bind (ElseChain.outline_steady alternatives label) fun rest => .pure _
  | repeatWhen cond body | forLoop init cond update body =>
    unfold Stmt.outline
    exact .bind (.deeper (blockText_steady (stmtTexts_steady body))) fun text => .pure _

theorem stmtTexts_steady (ss : List Stmt) : Steady (stmtTexts ss) := by
  cases ss with
  | nil =>
    unfold stmtTexts
    exact .pure _
  | cons s ss =>
    unfold stmtTexts
    refine .bind (Stmt.outline_steady s) fun text => ?_
    exact .bind (stmtTexts_steady ss) fun texts => .pure _

private theorem ElseChain.outline_steady (c : ElseChain) (label : String) :
    Steady (c.outline label) := by
  cases c with
  | done =>
    unfold ElseChain.outline
    exact .pure _
  | otherwise body =>
    unfold ElseChain.outline
    exact .bind (.deeper (blockText_steady (stmtTexts_steady body))) fun text => .pure _
  | elseIf cond body rest =>
    unfold ElseChain.outline
    refine .bind (.deeper (blockText_steady (stmtTexts_steady body))) fun text => ?_
    exact .bind (ElseChain.outline_steady rest label) fun texts => .pure _

end

/-! ### Texts -/

/-- The text of a statement at a depth. -/
def Stmt.textAt (s : Stmt) (d : Nat) : String :=
  (s.outline d).1

/-- The text of a block at a depth. -/
def blockAt (body : Block) (d : Nat) : String :=
  (blockText (stmtTexts body) d).1

/-- The text of alternatives at a depth. -/
def ElseChain.textAt (c : ElseChain) (d : Nat) : String :=
  (c.outline (marginText d) d).1

/-- The statements of a block are all written at its depth. -/
private theorem stmtTexts_apply (ss : List Stmt) (d : Nat) :
    stmtTexts ss d = (ss.map (Stmt.textAt · d), d) := by
  induction ss with
  | nil =>
    unfold stmtTexts
    rfl
  | cons s ss ih =>
    unfold stmtTexts
    rw [(Stmt.outline_steady s).bind_apply, (stmtTexts_steady ss).bind_apply, ih]
    rfl

/-- A block without statements has a line that says so. -/
@[simp] theorem blockAt_nil (d : Nat) : blockAt [] d = marginText d ++ "(empty)" := by
  unfold blockAt blockText stmtTexts
  rfl

/-- The statements of a block stand below each other, each behind the margin. -/
theorem blockAt_cons (s : Stmt) (ss : List Stmt) (d : Nat) :
    blockAt (s :: ss) d
      = "\n".intercalate ((s :: ss).map fun s => marginText d ++ s.textAt d) := by
  have htexts (s : Stmt) : marginText d ++ s.textAt d
      = ((marginText d ++ ·) ∘ (Stmt.textAt · d)) s := rfl
  unfold blockAt blockText
  rw [Steady.margin.bind_apply, (stmtTexts_steady _).bind_apply, stmtTexts_apply]
  simp only [htexts, ← List.map_map]
  rfl

/-! ### Statements -/

section

variable (d : Nat) (cond : Expr) (body : Block)

@[simp] theorem textAt_assignment (a : Assignment) :
    (Stmt.assignment a).textAt d = a.outline := by
  unfold Stmt.textAt Stmt.outline
  rfl

@[simp] theorem textAt_print (exprs : List Expr) :
    (Stmt.print exprs).textAt d
      = "(Print " ++ " ".intercalate (exprs.map Expr.outline) ++ ")" := by
  unfold Stmt.textAt Stmt.outline
  rfl

@[simp] theorem textAt_scan (names : List Token) :
    (Stmt.scan names).textAt d
      = "(Scan " ++ ", ".intercalate (names.map Token.lexeme) ++ ")" := by
  unfold Stmt.textAt Stmt.outline
  rfl

/-- The block of a loop stands one level deeper. -/
@[simp] theorem textAt_repeatWhen :
    (Stmt.repeatWhen cond body).textAt d
      = "(Repeat WHEN " ++ cond.outline ++ "\n" ++ blockAt body (d + 1) ++ ")" := by
  unfold Stmt.textAt Stmt.outline
  rw [(blockText_steady (stmtTexts_steady body)).deeper.bind_apply,
    (blockText_steady (stmtTexts_steady body)).deeper_apply]
  rfl

/-- So does that of a loop with a header. -/
@[simp] theorem textAt_forLoop (init update : Assignment) :
    (Stmt.forLoop init cond update body).textAt d
      = "(For " ++ init.outline ++ ", " ++ cond.outline ++ ", " ++ update.outline ++ "\n"
        ++ blockAt body (d + 1) ++ ")" := by
  unfold Stmt.textAt Stmt.outline
  rw [(blockText_steady (stmtTexts_steady body)).deeper.bind_apply,
    (blockText_steady (stmtTexts_steady body)).deeper_apply]
  rfl

@[simp] theorem textAt_done : ElseChain.done.textAt d = "" := by
  unfold ElseChain.textAt ElseChain.outline
  rfl

/-- The label of an alternative is on a line of its own, and its block one level deeper. -/
@[simp] theorem textAt_otherwise :
    (ElseChain.otherwise body).textAt d
      = "\n" ++ marginText d ++ "ELSE:\n" ++ blockAt body (d + 1) := by
  unfold ElseChain.textAt ElseChain.outline
  rw [(blockText_steady (stmtTexts_steady body)).deeper.bind_apply,
    (blockText_steady (stmtTexts_steady body)).deeper_apply]
  rfl

/-- A condition stands behind the label. -/
@[simp] theorem textAt_elseIf (rest : ElseChain) :
    (ElseChain.elseIf cond body rest).textAt d
      = "\n" ++ marginText d ++ "ELSE IF " ++ cond.outline ++ ":\n" ++ blockAt body (d + 1)
        ++ rest.textAt d := by
  unfold ElseChain.textAt
  rw [ElseChain.outline]
  rw [(blockText_steady (stmtTexts_steady body)).deeper.bind_apply,
    (blockText_steady (stmtTexts_steady body)).deeper_apply,
    (ElseChain.outline_steady rest _).bind_apply]
  rfl

/-- The labels of a conditional stand one level deeper than the conditional, and the blocks two. -/
@[simp] theorem textAt_ifElse (alternatives : ElseChain) :
    (Stmt.ifElse cond body alternatives).textAt d
      = "(If " ++ cond.outline
        ++ ("\n" ++ marginText (d + 1) ++ "THEN:\n" ++ blockAt body (d + 2))
        ++ alternatives.textAt (d + 1) ++ ")" := by
  have hbody := blockText_steady (stmtTexts_steady body)
  have hparts (label : String) := alternatives.outline_steady label
  unfold Stmt.textAt
  rw [Stmt.outline, Steady.bind_apply, Steady.deeper_apply, Steady.margin.bind_apply,
    hbody.deeper.bind_apply, hbody.deeper_apply, (hparts _).bind_apply]
  · rfl
  · exact .bind .margin fun _ => .bind hbody.deeper fun _ => .bind (hparts _) fun _ => .pure _
  · exact .deeper (.bind .margin fun _ => .bind hbody.deeper fun _ =>
      .bind (hparts _) fun _ => .pure _)

end

/-! ### Programs -/

/-- The text of a program by an outliner that has written nothing yet. -/
theorem Program.text_eq (p : Program) :
    (Node.program p).text
      = "AST_ROOT:\n" ++ "  DECLARATIONS:\n"
        ++ String.join (p.decls.map fun d => marginText 2 ++ d.outline ++ "\n")
        ++ "  STATEMENTS:\n"
        ++ String.join (p.stmts.map fun s => marginText 2 ++ s.textAt 2 ++ "\n") := by
  have hlines {α : Type} {f : α → Outliner String} (hf : ∀ a, Steady (f a)) (as : List α) :
      as.mapM (fun a => line (f a)) 2 = (as.map fun a => marginText 2 ++ (f a 2).1 ++ "\n", 2) := by
    have hrests (a : α) : (line (f a) 2).2 = 2 := by rw [(hf a).line_apply]
    rw [mapM_apply_of_rests hrests]
    simp only [(hf _).line_apply]
  have htext : (Node.program p).text
      = "AST_ROOT:\n" ++ "  DECLARATIONS:\n"
        ++ String.join ((p.decls.mapM fun d => line (return d.outline)) 2).1
        ++ "  STATEMENTS:\n"
        ++ String.join ((p.stmts.mapM fun s => line s.outline)
            ((p.decls.mapM fun d => line (return d.outline)) 2).2).1 := rfl
  rw [htext, hlines fun d => .pure _, hlines Stmt.outline_steady]
  rfl

end ScriptTree
