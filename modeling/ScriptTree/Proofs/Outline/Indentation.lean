import ScriptTree.Proofs.Lines
import ScriptTree.Proofs.Outline.Depth

/-!
# Outlines are put together from outlines

The outline of a statement at a depth is the one that it has on its own, moved to the right
(`Stmt.textAt_add`), as long as no text of a token goes over the end of a line. So the depth, which
is passed along while an outline is written, does not matter to what is written for a part, and the
outline of a tree can be given in terms of the outlines of its parts, each of which is written alone
(`Node.assembled`).

The main result is `text_eq_assembled`.
-/

namespace ScriptTree

/-! ### Texts of tokens -/

/-- The tokens that a node keeps itself; those of the nodes below it are not among them. -/
def Node.ownTokens : Node → List Token
  | varDecl d => [d.typeName, d.name]
  | stmt (.assignment a) => [a.name]
  | stmt (.scan names) => names
  | expr (.binary _ operator _) | expr (.logical _ operator _) => [operator]
  | expr (.unary operator _) => [operator]
  | expr (.literal value) => [value]
  | expr (.identifier name) => [name]
  | _ => []

/-- The texts of all tokens that the nodes keep are on one line. -/
def OnLines (ns : List Node) : Prop :=
  ∀ n ∈ ns, ∀ t ∈ n.ownTokens, IsLine t.lexeme

instance (ns : List Node) : Decidable (OnLines ns) :=
  inferInstanceAs (Decidable (∀ n ∈ ns, ∀ t ∈ n.ownTokens, IsLine t.lexeme))

@[simp] theorem onLines_nil : OnLines [] := by
  simp [OnLines]

@[simp] theorem onLines_cons {n : Node} {ns : List Node} :
    OnLines (n :: ns) ↔ (∀ t ∈ n.ownTokens, IsLine t.lexeme) ∧ OnLines ns :=
  List.forall_mem_cons

@[simp] theorem onLines_append {ns ms : List Node} :
    OnLines (ns ++ ms) ↔ OnLines ns ∧ OnLines ms :=
  List.forall_mem_append

@[simp] theorem onLines_flatMap {α : Type} {f : α → List Node} {as : List α} :
    OnLines (as.flatMap f) ↔ ∀ a ∈ as, OnLines (f a) := by
  induction as with
  | nil => simp
  | cons a as ih => simp [ih]

/-- The outline of an expression is on one line. -/
theorem Expr.isLine_outline {e : Expr} (h : OnLines e.preorder) : IsLine e.outline := by
  induction e with
  | binary left operator right ihl ihr | logical left operator right ihl ihr =>
    simp only [preorder, onLines_cons, Node.ownTokens, List.forall_mem_singleton, onLines_append]
      at h
    simp +decide [outline, h.1, ihl h.2.1, ihr h.2.2]
  | unary operator operand ih =>
    simp only [preorder, onLines_cons, Node.ownTokens, List.forall_mem_singleton] at h
    simp +decide [outline, h.1, ih h.2]
  | grouping inner ih =>
    simp only [preorder, onLines_cons] at h
    simp +decide [outline, ih h.2]
  | literal value => simpa [preorder, Node.ownTokens, outline] using h
  | identifier name => simpa [preorder, Node.ownTokens, outline] using h
  | newline => exact (by decide : IsLine "NEWLINE")

private theorem Assignment.isLine_outline {a : Assignment} (h : OnLines a.preorder) :
    IsLine a.outline := by
  simp only [preorder, onLines_cons, Node.ownTokens, List.forall_mem_singleton] at h
  simp +decide [outline, h.1, Expr.isLine_outline h.2]

/-! ### Margins and hanging texts -/

/-- A margin at a greater depth is the margin behind another one. -/
private theorem marginText_add (d k : Nat) : marginText (d + k) = marginText k ++ marginText d := by
  rw [marginText, marginText, marginText, ← String.ofList_append,
    List.replicate_append_replicate, Nat.add_comm d k, Nat.mul_add]

private theorem isLine_marginText (d : Nat) : IsLine (marginText d) := by
  simp [IsLine, marginText]

private theorem hang_newline (k : Nat) : hang k "\n" = "\n" ++ marginText k := by
  rw [← String.toList_inj]
  simp [hang, marginText]

@[simp] theorem hang_marginText (k d : Nat) : hang k (marginText d) = marginText d :=
  hang_of_isLine (isLine_marginText d) k

private theorem hang_join (k : Nat) (texts : List String) :
    hang k (String.join texts) = String.join (texts.map (hang k)) := by
  induction texts with
  | nil => simp [hang]
  | cons text texts ih => simp [ih]

/-- Lines that are moved one by one. -/
private theorem intercalate_map_hang (k : Nat) (text : String) (texts : List String) :
    "\n".intercalate ((text :: texts).map fun t => marginText k ++ hang k t)
      = marginText k ++ hang k ("\n".intercalate (text :: texts)) := by
  induction texts generalizing text with
  | nil => simp
  | cons text' texts ih =>
    have htail := ih text'
    rw [List.map_cons] at htail ⊢
    rw [List.map_cons, String.intercalate_cons_cons, htail, String.intercalate_cons_cons,
      hang_append, hang_append, hang_newline]
    simp only [String.append_assoc]

/-! ### The parts of a conditional -/

/-- The labels and blocks of the alternatives, in order. -/
def ElseChain.labelled : ElseChain → List (String × Block)
  | done => []
  | otherwise body => [("ELSE:", body)]
  | elseIf cond body rest => ("ELSE IF " ++ cond.outline ++ ":", body) :: rest.labelled

/-- A label on a line of its own at a depth, and a block one level deeper. -/
def labelledAt (d : Nat) (part : String × Block) : String :=
  "\n" ++ marginText d ++ part.1 ++ "\n" ++ blockAt part.2 (d + 1)

private theorem ElseChain.textAt_eq_join (c : ElseChain) (d : Nat) :
    c.textAt d = String.join (c.labelled.map (labelledAt d)) := by
  induction c using ElseChain.rec (motive_1 := fun _ => True) (motive_3 := fun _ => True) with
  | done => simp [labelled]
  | otherwise body _ =>
    have hlabel : "ELSE:\n" = "ELSE:" ++ "\n" := rfl
    simp [labelled, labelledAt, hlabel, String.append_assoc]
  | elseIf cond body rest _ ih =>
    have hlabel : ":\n" = ":" ++ "\n" := rfl
    simp [labelled, labelledAt, ih, hlabel, String.append_assoc]
  | _ => trivial

/-- A conditional is its condition and a row of labelled blocks, of which the first one is there
always. -/
private theorem textAt_ifElse_eq_join (cond : Expr) (body : Block) (alternatives : ElseChain)
    (d : Nat) :
    (Stmt.ifElse cond body alternatives).textAt d
      = "(If " ++ cond.outline
        ++ String.join ((("THEN:", body) :: alternatives.labelled).map (labelledAt (d + 1)))
        ++ ")" := by
  have hlabel : "THEN:\n" = "THEN:" ++ "\n" := rfl
  simp [alternatives.textAt_eq_join, labelledAt, hlabel, String.append_assoc]

/-! ### Statements at two depths -/

/-- A block moves as its statements do, each of them behind a margin. -/
private theorem blockAt_add_of {body : Block} {d k : Nat}
    (h : ∀ s ∈ body, s.textAt (d + k) = hang k (s.textAt d)) :
    blockAt body (d + k) = marginText k ++ hang k (blockAt body d) := by
  cases body with
  | nil =>
    have hempty : hang k "(empty)" = "(empty)" := hang_of_isLine (by decide) k
    rw [blockAt_nil, blockAt_nil, hang_append, hang_marginText, hempty, marginText_add,
      String.append_assoc]
  | cons s ss =>
    -- Every line brings its margin along, so the lines move one by one.
    have hlines : (s :: ss).map (fun s' => marginText (d + k) ++ s'.textAt (d + k))
        = ((s :: ss).map fun s' => marginText d ++ s'.textAt d).map
            fun text => marginText k ++ hang k text := by
      rw [List.map_map]
      refine List.map_congr_left fun s' hs' => ?_
      rw [Function.comp_apply, h s' hs', hang_append, hang_marginText, marginText_add,
        String.append_assoc]
    rw [blockAt_cons, blockAt_cons, hlines, List.map_cons, intercalate_map_hang]

/-- A labelled block moves as the statements of the block do. -/
private theorem labelledAt_add_of {label : String} {body : Block} {d k : Nat}
    (hlabel : IsLine label) (h : ∀ s ∈ body, s.textAt (d + 1 + k) = hang k (s.textAt (d + 1))) :
    labelledAt (d + k) (label, body) = hang k (labelledAt d (label, body)) := by
  rw [labelledAt, labelledAt, Nat.add_right_comm d k 1, blockAt_add_of h]
  simp only [hang_append, hang_newline, hang_marginText, hang_of_isLine hlabel]
  simp only [marginText_add d k, String.append_assoc]

mutual

/-- A statement at a greater depth is the same statement moved to the right. -/
theorem Stmt.textAt_add {s : Stmt} (h : OnLines s.preorder) (d k : Nat) :
    s.textAt (d + k) = hang k (s.textAt d) := by
  cases s with
  | assignment a =>
    rw [textAt_assignment, textAt_assignment, hang_of_isLine (a.isLine_outline h)]
  | print exprs =>
    simp only [Stmt.preorder, onLines_cons, onLines_flatMap] at h
    have hexprs : IsLine (" ".intercalate (exprs.map Expr.outline)) := by
      refine .intercalate (by decide) (List.forall_mem_map.mpr fun e he => ?_)
      exact e.isLine_outline (h.2 e he)
    rw [textAt_print, textAt_print, hang_of_isLine]
    simp +decide [hexprs]
  | scan names =>
    simp only [Stmt.preorder, onLines_cons, Node.ownTokens] at h
    have hnames : IsLine (", ".intercalate (names.map Token.lexeme)) :=
      .intercalate (by decide) (List.forall_mem_map.mpr h.1)
    rw [textAt_scan, textAt_scan, hang_of_isLine]
    simp +decide [hnames]
  | ifElse cond body alternatives =>
    simp only [Stmt.preorder, onLines_cons, onLines_append] at h
    obtain ⟨-, ⟨hcond, -, hbody⟩, halternatives⟩ := h
    have hparts : ∀ part ∈ ("THEN:", body) :: alternatives.labelled,
        labelledAt (d + 1 + k) part = hang k (labelledAt (d + 1) part) :=
      List.forall_mem_cons.mpr
        ⟨labelledAt_add_of (by decide) (textAt_add_of_mem hbody (d + 1 + 1) k),
          ElseChain.labelledAt_add halternatives (d + 1) k⟩
    have hlabel : IsLine ("(If " ++ cond.outline) := by
      simp +decide [cond.isLine_outline hcond]
    have hend : IsLine ")" := by decide
    rw [textAt_ifElse_eq_join, textAt_ifElse_eq_join, Nat.add_right_comm d k 1,
      List.map_congr_left hparts, hang_append, hang_append, hang_join, List.map_map,
      hang_of_isLine hlabel, hang_of_isLine hend]
    rfl
  | repeatWhen cond body =>
    simp only [Stmt.preorder, onLines_cons, onLines_append] at h
    obtain ⟨-, hcond, -, hbody⟩ := h
    have hblock := blockAt_add_of (textAt_add_of_mem hbody (d + 1) k)
    rw [textAt_repeatWhen, textAt_repeatWhen, Nat.add_right_comm d k 1, hblock]
    simp +decide [hang_newline, hang_of_isLine, cond.isLine_outline hcond, String.append_assoc]
  | forLoop init cond update body =>
    simp only [Stmt.preorder, onLines_cons, onLines_append] at h
    obtain ⟨-, ⟨⟨hinit, hcond⟩, hupdate⟩, -, hbody⟩ := h
    have hblock := blockAt_add_of (textAt_add_of_mem hbody (d + 1) k)
    rw [textAt_forLoop, textAt_forLoop, Nat.add_right_comm d k 1, hblock]
    simp +decide [hang_newline, hang_of_isLine, init.isLine_outline hinit,
      cond.isLine_outline hcond, update.isLine_outline hupdate, String.append_assoc]

/-- The statements of a block at a greater depth. -/
private theorem textAt_add_of_mem {ss : List Stmt} (h : OnLines (preorderEach ss)) (d k : Nat) :
    ∀ s ∈ ss, s.textAt (d + k) = hang k (s.textAt d) := by
  cases ss with
  | nil => simp
  | cons s ss =>
    rw [preorderEach, onLines_append] at h
    exact List.forall_mem_cons.mpr ⟨Stmt.textAt_add h.1 d k, textAt_add_of_mem h.2 d k⟩

/-- The labelled blocks of alternatives at a greater depth. -/
theorem ElseChain.labelledAt_add {c : ElseChain} (h : OnLines c.preorder) (d k : Nat) :
    ∀ part ∈ c.labelled, labelledAt (d + k) part = hang k (labelledAt d part) := by
  cases c with
  | done => simp [ElseChain.labelled]
  | otherwise body =>
    simp only [ElseChain.preorder, onLines_cons] at h
    rw [ElseChain.labelled, List.forall_mem_singleton]
    exact labelledAt_add_of (by decide) (textAt_add_of_mem h.2 (d + 1) k)
  | elseIf cond body rest =>
    simp only [ElseChain.preorder, onLines_cons, onLines_append] at h
    obtain ⟨⟨hcond, -, hbody⟩, hrest⟩ := h
    have hlabel : IsLine ("ELSE IF " ++ cond.outline ++ ":") := by
      simp +decide [cond.isLine_outline hcond]
    rw [ElseChain.labelled, List.forall_mem_cons]
    exact ⟨labelledAt_add_of hlabel (textAt_add_of_mem hbody (d + 1) k),
      ElseChain.labelledAt_add hrest d k⟩

end

/-! ### Whole outlines -/

/-- The outline of a block on its own, moved to the right and behind a margin. -/
def nestedText (levels : Nat) (body : Block) : String :=
  marginText levels ++ hang levels (Node.block body).text

/-- A part of a conditional: its label at the first level, and its block on its own at the
second. -/
def partText (part : String × Block) : String :=
  "\n" ++ marginText 1 ++ part.1 ++ "\n" ++ nestedText 2 part.2

/-- The outline of a node, put together from the outlines of the nodes below it, each of them
written on its own. -/
def Node.assembled : Node → String
  | program p =>
    "AST_ROOT:\n" ++ "  DECLARATIONS:\n"
      ++ String.join (p.decls.map fun d => marginText 2 ++ (varDecl d).text ++ "\n")
      ++ "  STATEMENTS:\n"
      ++ String.join (p.stmts.map fun s => marginText 2 ++ hang 2 (stmt s).text ++ "\n")
  | varDecl ⟨typeName, name, none⟩ =>
    "(Declare " ++ typeName.lexeme ++ " " ++ name.lexeme ++ ")"
  | varDecl ⟨typeName, name, some e⟩ =>
    "(Declare " ++ typeName.lexeme ++ " " ++ name.lexeme ++ " = " ++ (expr e).text ++ ")"
  | block [] => "(empty)"
  | block (s :: ss) => "\n".intercalate ((s :: ss).map fun s => (stmt s).text)
  | stmt (.assignment a) => "(Assign " ++ a.name.lexeme ++ " = " ++ (expr a.value).text ++ ")"
  | stmt (.ifElse cond body alternatives) =>
    "(If " ++ (expr cond).text
      ++ String.join ((("THEN:", body) :: alternatives.labelled).map partText) ++ ")"
  | stmt (.repeatWhen cond body) =>
    "(Repeat WHEN " ++ (expr cond).text ++ "\n" ++ nestedText 1 body ++ ")"
  | stmt (.forLoop init cond update body) =>
    "(For " ++ (stmt (.assignment init)).text ++ ", " ++ (expr cond).text ++ ", "
      ++ (stmt (.assignment update)).text ++ "\n" ++ nestedText 1 body ++ ")"
  | stmt (.print exprs) => "(Print " ++ " ".intercalate (exprs.map fun e => (expr e).text) ++ ")"
  | stmt (.scan names) => "(Scan " ++ ", ".intercalate (names.map Token.lexeme) ++ ")"
  | expr (.binary left operator right) | expr (.logical left operator right) =>
    "(" ++ operator.lexeme ++ " " ++ (expr left).text ++ " " ++ (expr right).text ++ ")"
  | expr (.unary operator operand) =>
    "(" ++ operator.lexeme ++ " " ++ (expr operand).text ++ ")"
  | expr (.grouping inner) => "(group " ++ (expr inner).text ++ ")"
  | expr (.literal t) | expr (.identifier t) => t.lexeme
  | expr (.newline _) => "NEWLINE"

/-- A block below its margin is the block on its own, moved to the right. -/
theorem blockAt_eq_nestedText {body : Block} (h : OnLines (preorderEach body)) (k : Nat) :
    blockAt body k = nestedText k body := by
  have := blockAt_add_of (textAt_add_of_mem h 0 k)
  rwa [Nat.zero_add] at this

private theorem labelledAt_eq_partText {label : String} {body : Block}
    (h : OnLines (preorderEach body)) : labelledAt 1 (label, body) = partText (label, body) := by
  rw [labelledAt, blockAt_eq_nestedText h, partText]

private theorem ElseChain.labelledAt_eq_partText {c : ElseChain} (h : OnLines c.preorder) :
    ∀ part ∈ c.labelled, labelledAt 1 part = partText part := by
  induction c using ElseChain.rec (motive_1 := fun _ => True) (motive_3 := fun _ => True) with
  | done => simp [labelled]
  | otherwise body _ =>
    simp only [preorder, onLines_cons] at h
    rw [labelled, List.forall_mem_singleton]
    exact ScriptTree.labelledAt_eq_partText h.2
  | elseIf cond body rest _ ih =>
    simp only [preorder, onLines_cons, onLines_append] at h
    obtain ⟨⟨-, -, hbody⟩, hrest⟩ := h
    rw [labelled, List.forall_mem_cons]
    exact ⟨ScriptTree.labelledAt_eq_partText hbody, ih hrest⟩
  | _ => trivial

private theorem Stmt.textAt_zero {s : Stmt} (h : OnLines s.preorder) :
    s.textAt 0 = (Node.stmt s).assembled := by
  cases s with
  | assignment a => rw [textAt_assignment]; rfl
  | print exprs => rw [textAt_print]; rfl
  | scan names => rw [textAt_scan]; rfl
  | ifElse cond body alternatives =>
    simp only [Stmt.preorder, onLines_cons, onLines_append] at h
    obtain ⟨-, ⟨-, -, hbody⟩, halternatives⟩ := h
    have hparts : ∀ part ∈ ("THEN:", body) :: alternatives.labelled,
        labelledAt 1 part = partText part :=
      List.forall_mem_cons.mpr
        ⟨labelledAt_eq_partText hbody, alternatives.labelledAt_eq_partText halternatives⟩
    rw [textAt_ifElse_eq_join, List.map_congr_left hparts]
    rfl
  | repeatWhen cond body =>
    simp only [Stmt.preorder, onLines_cons, onLines_append] at h
    rw [textAt_repeatWhen, blockAt_eq_nestedText h.2.2.2]
    rfl
  | forLoop init cond update body =>
    simp only [Stmt.preorder, onLines_cons, onLines_append] at h
    rw [textAt_forLoop, blockAt_eq_nestedText h.2.2.2]
    rfl

/-- **Outlines are put together from outlines.** If every text of a token is on one line, the
outline of a node is put together from those of the nodes below it, each written on its own; and at
every depth a statement is written as it is written on its own, moved to the right. -/
theorem text_eq_assembled :
    (∀ n : Node, OnLines n.preorder → n.text = n.assembled) ∧
      ∀ (s : Stmt) (d : Nat), OnLines (Node.stmt s).preorder →
        s.outline.run d = (hang d (Node.stmt s).text, d) := by
  constructor
  · intro n h
    cases n with
    | program p =>
      simp only [Node.preorder, onLines_cons, onLines_append] at h
      have hlines : p.stmts.map (fun s => marginText 2 ++ s.textAt 2 ++ "\n")
          = p.stmts.map fun s => marginText 2 ++ hang 2 (Node.stmt s).text ++ "\n" := by
        refine List.map_congr_left fun s hs => ?_
        have hs := textAt_add_of_mem h.2.2 0 2 s hs
        rw [Nat.zero_add] at hs
        rw [hs]
        rfl
      exact p.text_eq.trans (congrArg (_ ++ String.join ·) hlines)
    | varDecl d =>
      obtain ⟨typeName, name, init⟩ := d
      cases init <;> rfl
    | block b =>
      cases b with
      | nil => exact blockAt_nil 0
      | cons s ss =>
        have hlines : (s :: ss).map (fun s => marginText 0 ++ s.textAt 0)
            = (s :: ss).map fun s => (Node.stmt s).text :=
          List.map_congr_left fun _ _ => String.empty_append
        exact (blockAt_cons s ss 0).trans (congrArg _ hlines)
    | stmt s => exact Stmt.textAt_zero h
    | expr e => cases e <;> rfl
  · intro s d h
    have := Stmt.textAt_add h 0 d
    rw [Nat.zero_add] at this
    exact Prod.ext this (s.outline_steady d)

/-- A loop over a conditional with a block that is empty, on its own and at the depth of a
program's statements. -/
theorem text_eq_assembled_loop :
    let name (text : String) : Token := ⟨.identifier, text, 1⟩
    let s : Stmt := .repeatWhen (.identifier (name "n"))
      [.ifElse (.identifier (name "a")) [] (.otherwise [.scan [name "x", name "y"]])]
    OnLines (Node.stmt s).preorder ∧
      (Node.stmt s).text = "\n".intercalate
        ["(Repeat WHEN n", "  (If a", "    THEN:", "      (empty)", "    ELSE:",
          "      (Scan x, y)))"] ∧
      (s.outline.run 2).1 = "\n".intercalate
        ["(Repeat WHEN n", "      (If a", "        THEN:", "          (empty)", "        ELSE:",
          "          (Scan x, y)))"] := by
  intro name s
  have h : OnLines (Node.stmt s).preorder := by decide
  refine ⟨h, (text_eq_assembled.1 (.stmt s) h).trans ?_, ?_⟩
  · decide +kernel
  · rw [text_eq_assembled.2 s 2 h]
    decide +kernel

end ScriptTree
