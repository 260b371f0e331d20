import Mathlib.Data.List.Forall2
import ScriptTree.Parse.Program
import ScriptTree.Tree.Relabel

/-!
# Trees and errors of the same shape

Two trees are alike under a relation between tokens if they have the same shape and the tokens in
the same places are related; a line break keeps the line of a token, and stands for it. Two errors
are alike if they are of the same sort, name the same expectation, block or fault, and show related
tokens. Nothing is asked of the texts and lines of the tokens beyond what the relation says.

A parser shows the end of an input by a mark of its own (`Input.last`), whatever the end mark in the
list of tokens was written as. So `Near R` relates tokens that were only looked at: they are related
by `R`, or they mark the ends of two inputs whose end marks are.

If a relabelling does not tell related tokens apart, it does not tell trees apart that are alike
(`Program.Alike.relabel_eq`).
-/

namespace ScriptTree

variable (R : Token → Token → Prop)

/-! ### Trees -/

/-- The expressions have the same shape over related tokens. -/
inductive Expr.Alike : Expr → Expr → Prop where
  | binary {left left' right right' : Expr} {operator operator' : Token}
      (hleft : Expr.Alike left left') (hop : R operator operator')
      (hright : Expr.Alike right right') :
      Expr.Alike (.binary left operator right) (.binary left' operator' right')
  | logical {left left' right right' : Expr} {operator operator' : Token}
      (hleft : Expr.Alike left left') (hop : R operator operator')
      (hright : Expr.Alike right right') :
      Expr.Alike (.logical left operator right) (.logical left' operator' right')
  | unary {operator operator' : Token} {operand operand' : Expr}
      (hop : R operator operator') (hoperand : Expr.Alike operand operand') :
      Expr.Alike (.unary operator operand) (.unary operator' operand')
  | grouping {inner inner' : Expr} (hinner : Expr.Alike inner inner') :
      Expr.Alike (.grouping inner) (.grouping inner')
  | literal {value value' : Token} (h : R value value') :
      Expr.Alike (.literal value) (.literal value')
  | identifier {name name' : Token} (h : R name name') :
      Expr.Alike (.identifier name) (.identifier name')
  | newline {t u : Token} (h : R t u) : Expr.Alike (.newline t.line) (.newline u.line)

/-- The assignments have the same shape over related tokens. -/
structure Assignment.Alike (a b : Assignment) : Prop where
  name : R a.name b.name
  value : Expr.Alike R a.value b.value

/-- The declarations have the same shape over related tokens. -/
structure VarDecl.Alike (d e : VarDecl) : Prop where
  typeName : R d.typeName e.typeName
  name : R d.name e.name
  init : Option.Rel (Expr.Alike R) d.init e.init

mutual

/-- The statements have the same shape over related tokens. -/
inductive Stmt.Alike : Stmt → Stmt → Prop where
  | assignment {a b : Assignment} (h : Assignment.Alike R a b) :
      Stmt.Alike (.assignment a) (.assignment b)
  | ifElse {cond cond' : Expr} {body body' : List Stmt} {rest rest' : ElseChain}
      (hcond : Expr.Alike R cond cond') (hbody : StmtsAlike body body')
      (hrest : ElseChain.Alike rest rest') :
      Stmt.Alike (.ifElse cond body rest) (.ifElse cond' body' rest')
  | repeatWhen {cond cond' : Expr} {body body' : List Stmt}
      (hcond : Expr.Alike R cond cond') (hbody : StmtsAlike body body') :
      Stmt.Alike (.repeatWhen cond body) (.repeatWhen cond' body')
  | forLoop {init init' update update' : Assignment} {cond cond' : Expr} {body body' : List Stmt}
      (hinit : Assignment.Alike R init init') (hcond : Expr.Alike R cond cond')
      (hupdate : Assignment.Alike R update update') (hbody : StmtsAlike body body') :
      Stmt.Alike (.forLoop init cond update body) (.forLoop init' cond' update' body')
  | print {exprs exprs' : List Expr} (h : List.Forall₂ (Expr.Alike R) exprs exprs') :
      Stmt.Alike (.print exprs) (.print exprs')
  | scan {names names' : List Token} (h : List.Forall₂ R names names') :
      Stmt.Alike (.scan names) (.scan names')

/-- There are as many statements in the one list as in the other, each like its counterpart. -/
inductive StmtsAlike : List Stmt → List Stmt → Prop where
  | nil : StmtsAlike [] []
  | cons {s s' : Stmt} {ss ss' : List Stmt} (hs : Stmt.Alike s s') (hss : StmtsAlike ss ss') :
      StmtsAlike (s :: ss) (s' :: ss')

/-- The alternatives have the same shape over related tokens. -/
inductive ElseChain.Alike : ElseChain → ElseChain → Prop where
  | done : ElseChain.Alike .done .done
  | otherwise {body body' : List Stmt} (hbody : StmtsAlike body body') :
      ElseChain.Alike (.otherwise body) (.otherwise body')
  | elseIf {cond cond' : Expr} {body body' : List Stmt} {rest rest' : ElseChain}
      (hcond : Expr.Alike R cond cond') (hbody : StmtsAlike body body')
      (hrest : ElseChain.Alike rest rest') :
      ElseChain.Alike (.elseIf cond body rest) (.elseIf cond' body' rest')

end

/-- The programs have the same shape over related tokens. -/
structure Program.Alike (p q : Program) : Prop where
  decls : List.Forall₂ (VarDecl.Alike R) p.decls q.decls
  stmts : StmtsAlike R p.stmts q.stmts

/-! ### Errors and results -/

/-- The errors are of the same sort, with the same fixed parts, and show related tokens. -/
inductive ParseError.Alike : ParseError → ParseError → Prop where
  | unexpectedToken (expected : Expectation) {t u : Token} (h : R t u) :
      ParseError.Alike (.unexpectedToken expected t.describe t.line)
        (.unexpectedToken expected u.describe u.line)
  | unterminatedBlock (block : Kind) {opener opener' t u : Token} (hopener : R opener opener')
      (h : R t u) :
      ParseError.Alike (.unterminatedBlock block opener.line t.line)
        (.unterminatedBlock block opener'.line u.line)
  | mismatchedParentheses {paren paren' t u : Token} (hparen : R paren paren') (h : R t u) :
      ParseError.Alike (.mismatchedParentheses t.describe paren.line)
        (.mismatchedParentheses u.describe paren'.line)
  | missingOperand {operator operator' t u : Token} (hop : R operator operator') (h : R t u) :
      ParseError.Alike (.missingOperand operator.lexeme t.describe operator.line)
        (.missingOperand operator'.lexeme u.describe operator'.line)
  | invalidExpression (fault : ExpressionFault) {t u : Token} (h : R t u) :
      ParseError.Alike (.invalidExpression fault t.describe t.line)
        (.invalidExpression fault u.describe u.line)

/-- Both succeed, with related values, or both fail, with errors that are alike. -/
inductive ResultAlike {α : Type} (S : α → α → Prop) :
    Except ParseError α → Except ParseError α → Prop where
  | ok {a b : α} (h : S a b) : ResultAlike S (.ok a) (.ok b)
  | error {e f : ParseError} (h : ParseError.Alike R e f) : ResultAlike S (.error e) (.error f)

/-- Results that are alike are passed on to functions that are alike. -/
theorem ResultAlike.bind {α β : Type} {S : α → α → Prop} {T : β → β → Prop}
    {x y : Except ParseError α} {f g : α → Except ParseError β} (hxy : ResultAlike R S x y)
    (hfg : ∀ a b, S a b → ResultAlike R T (f a) (g b)) : ResultAlike R T (x >>= f) (y >>= g) := by
  cases hxy with
  | ok h => exact hfg _ _ h
  | error h => exact .error h

/-! ### Tokens that were looked at -/

/-- The tokens are related, or they mark the ends of inputs that end with related tokens. -/
inductive Near : Token → Token → Prop where
  | ahead {t u : Token} (h : R t u) : Near t u
  | atEnd {t u : Token} (h : R t u) (ht : t.kind = .eof) (hu : u.kind = .eof) :
      Near (Token.endMark t.line) (Token.endMark u.line)

variable {R}

namespace Near

variable {t u : Token}

/-- Related tokens stand for tokens that were looked at, wherever these are shown. -/
private theorem exists_shown (h : Near R t u) : ∃ t' u', R t' u' ∧
    t'.describe = t.describe ∧ t'.line = t.line ∧ u'.describe = u.describe ∧ u'.line = u.line := by
  cases h with
  | ahead h => exact ⟨t, u, h, rfl, rfl, rfl, rfl⟩
  | @atEnd t' u' h ht hu =>
    refine ⟨t', u', h, ?_, rfl, ?_, rfl⟩
    · rw [Token.describe_of_eof ht, Token.describe_of_eof rfl]
    · rw [Token.describe_of_eof hu, Token.describe_of_eof rfl]

/-- A token before the end is related itself. -/
theorem rel (h : Near R t u) (ht : t.kind ≠ .eof) : R t u := by
  cases h with
  | ahead h => exact h
  | atEnd => exact absurd rfl ht

theorem unexpected (h : Near R t u) (expected : Expectation) :
    ParseError.Alike R (.unexpected expected t) (.unexpected expected u) := by
  obtain ⟨t', u', h', ht, htl, hu, hul⟩ := h.exists_shown
  rw [ParseError.unexpected, ParseError.unexpected, ← ht, ← htl, ← hu, ← hul]
  exact .unexpectedToken expected h'

theorem invalid (h : Near R t u) (fault : ExpressionFault) :
    ParseError.Alike R (.invalid fault t) (.invalid fault u) := by
  obtain ⟨t', u', h', ht, htl, hu, hul⟩ := h.exists_shown
  rw [ParseError.invalid, ParseError.invalid, ← ht, ← htl, ← hu, ← hul]
  exact .invalidExpression fault h'

theorem missing (h : Near R t u) {operator operator' : Token} (hop : R operator operator') :
    ParseError.Alike R (.missing operator t) (.missing operator' u) := by
  obtain ⟨t', u', h', ht, -, hu, -⟩ := h.exists_shown
  rw [ParseError.missing, ParseError.missing, ← ht, ← hu]
  exact .missingOperand hop h'

theorem mismatchedParentheses (h : Near R t u) {paren paren' : Token} (hparen : R paren paren') :
    ParseError.Alike R (.mismatchedParentheses t.describe paren.line)
      (.mismatchedParentheses u.describe paren'.line) := by
  obtain ⟨t', u', h', ht, -, hu, -⟩ := h.exists_shown
  rw [← ht, ← hu]
  exact .mismatchedParentheses hparen h'

theorem unterminatedBlock (h : Near R t u) (block : Kind) {opener opener' : Token}
    (hopener : R opener opener') :
    ParseError.Alike R (.unterminatedBlock block opener.line t.line)
      (.unterminatedBlock block opener'.line u.line) := by
  obtain ⟨t', u', h', -, htl, -, hul⟩ := h.exists_shown
  rw [← htl, ← hul]
  exact .unterminatedBlock block hopener h'

end Near

/-! ### Relations that keep kinds -/

/-- Related tokens are of the same kind. -/
def KeepsKinds (R : Token → Token → Prop) : Prop :=
  ∀ ⦃t u : Token⦄, R t u → t.kind = u.kind

section

variable (hR : KeepsKinds R) {t u : Token}

include hR

/-- Tokens that are near are of the same kind. -/
theorem Near.kind_eq (h : Near R t u) : t.kind = u.kind := by
  cases h with
  | ahead h => exact hR h
  | atEnd => rfl

theorem Expr.Alike.leaf (h : R t u) : Expr.Alike R (.leaf t) (.leaf u) := by
  unfold Expr.leaf
  rw [hR h]
  split
  · exact .identifier h
  · exact .literal h

/-- Whether an operator makes a logical node is seen from its kind. -/
theorem Expr.Alike.infixNode {left left' right right' : Expr} (hleft : Expr.Alike R left left')
    (h : R t u) (hright : Expr.Alike R right right') :
    Expr.Alike R (.infixNode left t right) (.infixNode left' u right') := by
  unfold Expr.infixNode
  rw [hR h]
  split
  · exact .logical hleft h hright
  · exact .binary hleft h hright

end

/-! ### Relabelling -/

/-- The relabelling does not tell related tokens apart. -/
def Relabelling.Identifies (r : Relabelling) (R : Token → Token → Prop) : Prop :=
  ∀ ⦃t u : Token⦄, R t u → r.token t = r.token u ∧ r.line t.line = r.line u.line

theorem map_eq_map_iff_forall₂ {α β : Type} {f : α → β} {as bs : List α} :
    as.map f = bs.map f ↔ List.Forall₂ (fun a b => f a = f b) as bs := by
  rw [← List.forall₂_eq_eq_eq, List.forall₂_map_left_iff, List.forall₂_map_right_iff]

variable {r : Relabelling}

/-- Trees that are alike are equal once related tokens are made equal. -/
theorem Expr.Alike.relabel_eq (hr : r.Identifies R) {e f : Expr} (h : Expr.Alike R e f) :
    e.relabel r = f.relabel r := by
  induction h with
  | binary _ hop _ hleft hright => rw [relabel, relabel, hleft, (hr hop).1, hright]
  | logical _ hop _ hleft hright => rw [relabel, relabel, hleft, (hr hop).1, hright]
  | unary hop _ hoperand => rw [relabel, relabel, (hr hop).1, hoperand]
  | grouping _ hinner => rw [relabel, relabel, hinner]
  | literal h => rw [relabel, relabel, (hr h).1]
  | identifier h => rw [relabel, relabel, (hr h).1]
  | newline h => rw [relabel, relabel, (hr h).2]

theorem Assignment.Alike.relabel_eq (hr : r.Identifies R) {a b : Assignment}
    (h : Assignment.Alike R a b) : a.relabel r = b.relabel r := by
  rw [relabel, relabel, (hr h.name).1, h.value.relabel_eq hr]

theorem VarDecl.Alike.relabel_eq (hr : r.Identifies R) {d e : VarDecl} (h : VarDecl.Alike R d e) :
    d.relabel r = e.relabel r := by
  obtain ⟨_, _, init⟩ := d
  obtain ⟨_, _, init'⟩ := e
  obtain ⟨htype, hname, hinit⟩ := h
  have hmap : init.map (Expr.relabel r) = init'.map (Expr.relabel r) := by
    cases hinit with
    | some h => exact congrArg some (h.relabel_eq hr)
    | none => rfl
  rw [relabel, relabel, (hr htype).1, (hr hname).1, hmap]

mutual

theorem Stmt.Alike.relabel_eq (hr : r.Identifies R) {s t : Stmt} :
    Stmt.Alike R s t → s.relabel r = t.relabel r
  | .assignment h => by rw [Stmt.relabel, Stmt.relabel, h.relabel_eq hr]
  | .ifElse hcond hbody hrest => by
    rw [Stmt.relabel, Stmt.relabel, hcond.relabel_eq hr, hbody.relabel_eq hr, hrest.relabel_eq hr]
  | .repeatWhen hcond hbody => by
    rw [Stmt.relabel, Stmt.relabel, hcond.relabel_eq hr, hbody.relabel_eq hr]
  | .forLoop hinit hcond hupdate hbody => by
    rw [Stmt.relabel, Stmt.relabel, hinit.relabel_eq hr, hcond.relabel_eq hr,
      hupdate.relabel_eq hr, hbody.relabel_eq hr]
  | .print h => by
    rw [Stmt.relabel, Stmt.relabel, map_eq_map_iff_forall₂.mpr (h.imp fun _ _ h => h.relabel_eq hr)]
  | .scan h => by
    rw [Stmt.relabel, Stmt.relabel, map_eq_map_iff_forall₂.mpr (h.imp fun _ _ h => (hr h).1)]

theorem StmtsAlike.relabel_eq (hr : r.Identifies R) {ss ts : List Stmt} :
    StmtsAlike R ss ts → relabelEach r ss = relabelEach r ts
  | .nil => rfl
  | .cons hs hss => by rw [relabelEach, relabelEach, hs.relabel_eq hr, hss.relabel_eq hr]

theorem ElseChain.Alike.relabel_eq (hr : r.Identifies R) {c d : ElseChain} :
    ElseChain.Alike R c d → c.relabel r = d.relabel r
  | .done => rfl
  | .otherwise hbody => by rw [ElseChain.relabel, ElseChain.relabel, hbody.relabel_eq hr]
  | .elseIf hcond hbody hrest => by
    rw [ElseChain.relabel, ElseChain.relabel, hcond.relabel_eq hr, hbody.relabel_eq hr,
      hrest.relabel_eq hr]

end

/-- A relabelling that does not tell related tokens apart does not tell programs over them apart. -/
theorem Program.Alike.relabel_eq (hr : r.Identifies R) {p q : Program} (h : Program.Alike R p q) :
    p.relabel r = q.relabel r := by
  have hdecls : p.decls.map (VarDecl.relabel r) = q.decls.map (VarDecl.relabel r) :=
    map_eq_map_iff_forall₂.mpr (h.decls.imp fun _ _ h => h.relabel_eq hr)
  rw [relabel, relabel, hdecls, h.stmts.relabel_eq hr]

end ScriptTree
