import ScriptTree.Proofs.Program.Completeness
import ScriptTree.Tree.Node

/-!
# The tokens of an expression and its line

Every expression in the tree of a program is written somewhere among its tokens: some of them, one
after another, are a phrase with this tree (`Spelled`). The line of the expression is that of a
token of the phrase. It is the first one that is no opening parenthesis, as a group does not keep
its parentheses. So the line of a group is not that of its leftmost token if a line ends between
them (`line_ne_brokenGroup`).

The main result is `line_of_parse`.
-/

namespace ScriptTree

variable {ts us : List Token} {ns ms : List Node} {n : Nat} {e : Expr}

/-! ### Lines -/

namespace Expr

private theorem line_leaf (t : Token) : (leaf t).line = t.line := by
  unfold leaf
  split <;> rfl

private theorem line_infixNode (left right : Expr) (operator : Token) :
    (infixNode left operator right).line = left.line := by
  unfold infixNode
  split <;> rfl

/-- The line of a phrase is that of its first token that is no opening parenthesis. -/
theorem Derives.exists_line (h : Derives n ts e) :
    ∃ openers t rest, ts = openers ++ t :: rest ∧ (∀ o ∈ openers, o.kind = .leftParen) ∧
      t.kind ≠ .leftParen ∧ e.line = t.line := by
  induction h with
  | @leaf t ht =>
    refine ⟨[], t, [], rfl, by simp, ?_, line_leaf t⟩
    intro hk
    simp [hk, Kind.isOperand] at ht
  | @newline t ht => exact ⟨[], t, [], rfl, by simp, by simp [ht], rfl⟩
  | @group opener closer ts e hopener hcloser _ ih =>
    obtain ⟨openers, t, rest, rfl, hall, ht, hline⟩ := ih
    exact ⟨opener :: openers, t, rest ++ [closer], by simp,
      List.forall_mem_cons.mpr ⟨hopener, hall⟩, ht, hline⟩
  | @unary operator ts e hoperator _ _ =>
    refine ⟨[], operator, ts, rfl, by simp, ?_, rfl⟩
    intro hk
    simp [hk, Kind.isPrefixOperator] at hoperator
  | @join n operator ls rs left right _ _ _ ihl _ =>
    obtain ⟨openers, t, rest, rfl, hall, ht, hline⟩ := ihl
    exact ⟨openers, t, rest ++ operator :: rs, by simp, hall, ht, by rw [line_infixNode, hline]⟩
  | tighter _ ih => exact ih

/-- A group begins with a parenthesis. -/
private theorem Derives.exists_opener {inner : Expr} (h : Derives n ts (.grouping inner)) :
    ∃ opener rest, ts = opener :: rest ∧ opener.kind = .leftParen := by
  generalize heq : Expr.grouping inner = e at h
  induction h with
  | leaf =>
    unfold Expr.leaf at heq
    split at heq <;> contradiction
  | newline => contradiction
  | @group opener closer ts _ hopener => exact ⟨opener, ts ++ [closer], rfl, hopener⟩
  | unary => contradiction
  | join =>
    unfold infixNode at heq
    split at heq <;> contradiction
  | tighter _ ih => exact ih heq

end Expr

/-! ### Phrases among tokens -/

/-- Every expression among the nodes is written somewhere among the tokens. -/
def Spelled (ts : List Token) (ns : List Node) : Prop :=
  ∀ e, .expr e ∈ ns → ∃ n us, us <:+: ts ∧ Expr.Derives n us e

namespace Spelled

private theorem nil : Spelled ts [] := by
  intro e he
  contradiction

private theorem append (h : Spelled ts ns) (h' : Spelled ts ms) : Spelled ts (ns ++ ms) :=
  fun e he => (List.mem_append.mp he).elim (h e) (h' e)

/-- An expression and what is below it. -/
private theorem cons (he : Expr.Derives n ts e) (h : Spelled ts ns) :
    Spelled ts (.expr e :: ns) := by
  intro d hd
  rcases List.mem_cons.mp hd with hd | hd
  · cases hd
    exact ⟨n, ts, List.infix_rfl, he⟩
  · exact h d hd

/-- A node of another kind. -/
private theorem cons_other {m : Node} (hm : ∀ e, m ≠ .expr e) (h : Spelled ts ns) :
    Spelled ts (m :: ns) :=
  fun e he => h e ((List.mem_cons.mp he).resolve_left fun heq => hm e heq.symm)

/-- More tokens on both sides. -/
private theorem within (h : Spelled us ns) (before after : List Token) :
    Spelled (before ++ us ++ after) ns := by
  intro e he
  obtain ⟨n, vs, hvs, hder⟩ := h e he
  exact ⟨n, vs, hvs.trans (List.infix_append before us after), hder⟩

end Spelled

private theorem Expr.Derives.spelled (h : Expr.Derives n ts e) : Spelled ts e.preorder := by
  induction h with
  | leaf ht =>
    rw [Expr.preorder_leaf]
    exact .cons (.leaf ht) .nil
  | newline ht => exact .cons (.newline ht) .nil
  | @group opener closer ts e hopener hcloser he ih =>
    exact .cons (.group hopener hcloser he) (by simpa using ih.within [opener] [closer])
  | @unary operator ts e hoperator he ih =>
    exact .cons (.unary hoperator he) (by simpa using ih.within [operator] [])
  | @join n operator ls rs left right hlevel hl hr ihl ihr =>
    rw [Expr.preorder_infixNode]
    refine .cons (.join hlevel hl hr) (.append ?_ ?_)
    · simpa using ihl.within [] (operator :: rs)
    · simpa using ihr.within (ls ++ [operator]) []
  | tighter _ ih => exact ih

private theorem Assignment.Derives.spelled {a : Assignment} (h : Assignment.Derives ts a) :
    Spelled ts a.preorder := by
  obtain @⟨name, sign, ts, value, -, -, hvalue⟩ := h
  exact .cons_other (by simp) (by simpa using hvalue.spelled.within [name, sign] [])

private theorem VarDecl.Derives.spelled {typeName : Token} {d : VarDecl}
    (h : VarDecl.Derives typeName ts d) : Spelled ts d.preorder := by
  cases h with
  | plain => exact .cons_other (by simp) .nil
  | @withValue name sign ts value _ _ hvalue =>
    exact .cons_other (by simp) (by simpa using hvalue.spelled.within [name, sign] [])

private theorem EntriesDerive.spelled {typeName : Token} {ds : List VarDecl}
    (h : EntriesDerive typeName ts ds) : Spelled ts (ds.flatMap VarDecl.preorder) := by
  induction h with
  | last hd => simpa using hd.spelled
  | @more ts rest comma d ds hd hcomma _ ih =>
    rw [List.flatMap_cons]
    refine .append ?_ ?_
    · simpa using hd.spelled.within [] (comma :: rest)
    · simpa using ih.within (ts ++ [comma]) []

private theorem DeclarationsDerive.spelled {ds : List VarDecl} (h : DeclarationsDerive ts ds) :
    Spelled ts (ds.flatMap VarDecl.preorder) := by
  induction h with
  | nil => exact .nil
  | @cons typeName dollar ts rest ds more _ hentries _ _ ih =>
    rw [List.flatMap_append]
    refine .append ?_ ?_
    · simpa using hentries.spelled.within [typeName] (dollar :: rest)
    · simpa using ih.within (typeName :: ts ++ [dollar]) []

/-- A block, with everything below it. -/
private theorem BlockFrame.spelled {k : Kind} {inner bs : List Token} {body : Block}
    (h : BlockFrame k inner bs) (hbody : Spelled inner (preorderEach body)) :
    Spelled bs (.block body :: preorderEach body) := by
  obtain @⟨start, opening, ending, closing, -, -, -, -⟩ := h
  exact .cons_other (by simp) (by simpa using hbody.within [start, opening] [ending, closing])

mutual

theorem Stmt.Derives.spelled {ts : List Token} {s : Stmt} (h : Stmt.Derives ts s) :
    Spelled ts s.preorder := by
  cases h with
  | @assignment ts dollar a ha _ =>
    simpa [Stmt.preorder] using ha.spelled.within [] [dollar]
  | @print head colon dollar ts e _ _ he _ =>
    refine .cons_other (by simp) ?_
    simpa using he.spelled.within [head, colon] [dollar]
  | scan => exact .cons_other (by simp) .nil
  | @ifElse head cs inner bs as cond body alternatives _ hcond hbody hframe halternatives =>
    refine .cons_other (by simp) (.append (.append ?_ ?_) ?_)
    · simpa using hcond.spelled.within [head] (bs ++ as)
    · simpa using (hframe.spelled (StmtsDerive.spelled hbody)).within (head :: cs) as
    · simpa using (ElseChain.Derives.spelled halternatives).within (head :: (cs ++ bs)) []
  | @repeatWhen head word cs inner bs cond body _ _ hcond hbody hframe =>
    refine .cons_other (by simp) (.append ?_ ?_)
    · simpa using hcond.spelled.within [head, word] bs
    · simpa using (hframe.spelled (StmtsDerive.spelled hbody)).within (head :: word :: cs) []
  | @forLoop head opener comma comma' closer is cs us inner bs init update cond body _ _ hinit _
      hcond _ hupdate _ hbody hframe =>
    refine .cons_other (by simp) (.append (.append (.append ?_ ?_) ?_) ?_)
    · simpa using hinit.spelled.within [head, opener]
        (comma :: (cs ++ comma' :: (us ++ closer :: bs)))
    · simpa using hcond.spelled.within (head :: opener :: (is ++ [comma]))
        (comma' :: (us ++ closer :: bs))
    · simpa using hupdate.spelled.within (head :: opener :: (is ++ comma :: (cs ++ [comma'])))
        (closer :: bs)
    · simpa using (hframe.spelled (StmtsDerive.spelled hbody)).within
        (head :: opener :: (is ++ comma :: (cs ++ comma' :: (us ++ [closer])))) []

private theorem StmtsDerive.spelled {ts : List Token} {ss : List Stmt} (h : StmtsDerive ts ss) :
    Spelled ts (preorderEach ss) := by
  cases h with
  | nil => exact .nil
  | @cons ts rest s ss hs hss =>
    refine .append ?_ ?_
    · simpa using (Stmt.Derives.spelled hs).within [] rest
    · simpa using (StmtsDerive.spelled hss).within ts []

theorem ElseChain.Derives.spelled {ts : List Token} {c : ElseChain} (h : ElseChain.Derives ts c) :
    Spelled ts c.preorder := by
  cases h with
  | done => exact .nil
  | @otherwise head inner bs body _ hbody hframe =>
    simpa [ElseChain.preorder] using
      (hframe.spelled (StmtsDerive.spelled hbody)).within [head] []
  | @elseIf head word cs inner bs as cond body rest _ _ hcond hbody hframe hrest =>
    refine .append (.append ?_ ?_) ?_
    · simpa using hcond.spelled.within [head, word] (bs ++ as)
    · simpa using (hframe.spelled (StmtsDerive.spelled hbody)).within (head :: word :: cs) as
    · simpa using (ElseChain.Derives.spelled hrest).within (head :: word :: (cs ++ bs)) []

end

/-- Every expression of a program is written among its tokens. -/
theorem Program.Derives.spelled {p : Program} (h : Program.Derives ts p) :
    Spelled ts (Node.program p).preorder := by
  obtain @⟨word, area, ds, inner, bs, decls, stmts, -, -, hdecls, hstmts, hframe⟩ := h
  obtain @⟨start, opening, ending, closing, -, -, -, -⟩ := hframe
  refine .cons_other (by simp) (.append ?_ ?_)
  · simpa using hdecls.spelled.within [word, area, start, opening] (inner ++ [ending, closing])
  · simpa using hstmts.spelled.within (word :: area :: start :: opening :: ds) [ending, closing]

/-! ### The main result -/

/-- **Lines.** Every expression in the tree of a program is written among its tokens. Wherever that
is, the line of the expression is that of the first token there which is no opening parenthesis. -/
theorem line_of_parse {ts : List Token} {p : Program} {e : Expr}
    (h : (Input.ofTokens ts).parse.result = .ok p) (he : .expr e ∈ (Node.program p).preorder) :
    (∃ n us, us <:+: ts.takeWhile (·.kind != .eof) ∧ Expr.Derives n us e) ∧
      ∀ n us, Expr.Derives n us e →
        ∃ openers t rest, us = openers ++ t :: rest ∧ (∀ o ∈ openers, o.kind = .leftParen) ∧
          t.kind ≠ .leftParen ∧ e.line = t.line := by
  have hder := (Input.result_parse_eq_ok_iff fun _ => Input.kind_ne_eof_of_mem_ahead).mp h
  rw [Input.ahead_ofTokens] at hder
  exact ⟨hder.spelled e he, fun n us hus => hus.exists_line⟩

/-- A script that assigns a number in parentheses, the first of which ends its line. -/
def brokenGroup : List Token :=
  [⟨.kwScript, "SCRIPT", 1⟩, ⟨.kwArea, "AREA", 1⟩, ⟨.kwStart, "START", 1⟩, ⟨.kwScript, "SCRIPT", 1⟩,
    ⟨.identifier, "x", 2⟩, ⟨.equal, "=", 2⟩, ⟨.leftParen, "(", 2⟩, ⟨.intLiteral, "1", 3⟩,
    ⟨.rightParen, ")", 3⟩, ⟨.dollar, "$", 3⟩, ⟨.kwEnd, "END", 4⟩, ⟨.kwScript, "SCRIPT", 4⟩]

/-- The group is on the line of the number, and its leftmost token on the one before. -/
theorem line_of_parse_brokenGroup :
    let e : Expr := .grouping (.literal ⟨.intLiteral, "1", 3⟩)
    let p : Program := ⟨[], [.assignment ⟨⟨.identifier, "x", 2⟩, e⟩]⟩
    (Input.ofTokens brokenGroup).parse.result = .ok p ∧ .expr e ∈ (Node.program p).preorder ∧
      (∃ n us, us <:+: brokenGroup.takeWhile (·.kind != .eof) ∧ Expr.Derives n us e) ∧
        ∀ n us, Expr.Derives n us e →
          ∃ openers t rest, us = openers ++ t :: rest ∧ (∀ o ∈ openers, o.kind = .leftParen) ∧
            t.kind ≠ .leftParen ∧ e.line = t.line := by
  intro e p
  have hok : (Input.ofTokens brokenGroup).parse.result = .ok p := rfl
  have hmem : .expr e ∈ (Node.program p).preorder := by
    simp [p, Node.preorder, preorderEach, Stmt.preorder, Assignment.preorder, e, Expr.preorder]
  exact ⟨hok, hmem, line_of_parse hok hmem⟩

/-- Wherever the group is written there, its line is not that of its leftmost token. -/
theorem line_ne_brokenGroup :
    ∃ p e, (Input.ofTokens brokenGroup).parse.result = .ok p ∧
      .expr e ∈ (Node.program p).preorder ∧
        ∀ n us, us <:+: brokenGroup.takeWhile (·.kind != .eof) → Expr.Derives n us e →
          ∃ t ∈ us.head?, e.line ≠ t.line := by
  refine ⟨⟨[], [.assignment ⟨⟨.identifier, "x", 2⟩, .grouping (.literal ⟨.intLiteral, "1", 3⟩)⟩]⟩,
    .grouping (.literal ⟨.intLiteral, "1", 3⟩), rfl, ?_, fun n us hus hder => ?_⟩
  · simp [Node.preorder, preorderEach, Stmt.preorder, Assignment.preorder, Expr.preorder]
  · obtain ⟨opener, rest, rfl, hopener⟩ := hder.exists_opener
    refine ⟨opener, rfl, ?_⟩
    have hlines : ∀ t ∈ brokenGroup.takeWhile (·.kind != .eof),
        t.kind = .leftParen → t.line = 2 := by decide
    rw [hlines opener (hus.subset (by simp)) hopener]
    decide

end ScriptTree
