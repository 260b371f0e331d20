import ScriptTree.Proofs.Expression.Room
import ScriptTree.Proofs.Position.Calls

/-!
# Where an error is anchored

An error names tokens: the one at which something was found wrong, and for a missing operand the
operator that lacks it. `AnchoredAt tokens p e` lists the errors that reading may stop with at the
index `p`, each with the places of the tokens that it names. With two exceptions the token found is
the one at `p`. These are the errors that are noticed when a closing parenthesis or an infix
operator has just been taken: then it is the token before `p`.

What waits on the stack of the automaton was taken before, so an operator without an operand stands
before the index (`Automaton.Takes.cameFrom`). The errors of single tokens and of ends are those of
`Proofs.Expression.Room`.

The main result is `anchored_and_resumes`, about any number of readings one after another.
-/

namespace ScriptTree

/-! ### Anchors -/

/-- Whether this is a parenthesis. -/
def Kind.isParen (k : Kind) : Bool :=
  k == .leftParen || k == .rightParen

/-- Whether a token of this kind completes what came before it: a group or the left operand of an
infix operator. -/
def Kind.isCompleting (k : Kind) : Bool :=
  k == .rightParen || k.level?.isSome

/-- The errors that reading may stop with at an index. -/
inductive AnchoredAt (tokens : List Token) : Nat → ParseError → Prop where
  | unexpected {i : Nat} {t : Token} {expected : Expectation} :
    tokens[i]? = some t → AnchoredAt tokens i (.unexpected expected t)
  | unterminated {i openedAt : Nat} {t : Token} {block : Kind} :
    tokens[i]? = some t → t.kind = .eof →
      AnchoredAt tokens i (.unterminatedBlock block openedAt t.line)
  | mismatched {i : Nat} {t paren : Token} :
    tokens[i]? = some t → paren ∈ tokens.take (i + 1) → paren.kind.isParen = true →
      AnchoredAt tokens i (.mismatchedParentheses t.describe paren.line)
  | invalid {i : Nat} {t : Token} {fault : ExpressionFault} :
    tokens[i]? = some t → AnchoredAt tokens i (.invalid fault t)
  | missing {i : Nat} {t operator : Token} :
    tokens[i]? = some t → operator ∈ tokens.take i → operator.kind.isOperator = true →
      AnchoredAt tokens i (.missing operator t)
  | missingBefore {i : Nat} {t operator : Token} :
    tokens[i]? = some t → t.kind.isCompleting = true →
      operator ∈ tokens.take i → operator.kind.isOperator = true →
        AnchoredAt tokens (i + 1) (.missing operator t)
  | emptyBefore {i : Nat} {t : Token} :
    tokens[i]? = some t → t.kind = .rightParen →
      AnchoredAt tokens (i + 1) (.invalid .emptyParentheses t)

/-! ### Where the waiting operators come from -/

/-- What waits is one of these tokens. -/
def Pending.CameFrom (tokens : List Token) : Pending → Prop
  | group opener _ => opener ∈ tokens ∧ opener.kind = .leftParen
  | unary operator => operator ∈ tokens ∧ operator.kind.isOperator = true
  | binary operator => operator ∈ tokens ∧ operator.kind.isOperator = true

variable {tokens : List Token} {i j : Nat} {t : Token} {e : ParseError}

private theorem Pending.CameFrom.mono {us : List Token} {p : Pending} (h : p.CameFrom tokens)
    (hsub : tokens ⊆ us) : p.CameFrom us := by
  cases p <;> exact ⟨hsub h.1, h.2⟩

private theorem Pending.CameFrom.operator {p : Pending} {operator : Token} (h : p.CameFrom tokens)
    (hop : p.operator? = some operator) :
    operator ∈ tokens ∧ operator.kind.isOperator = true := by
  cases p with
  | group => contradiction
  | unary => exact Option.some.inj hop ▸ h
  | binary => exact Option.some.inj hop ▸ h

/-- An operator that lacks an operand is one of those that wait. -/
private theorem Stacks.Lacks.operator {s : Stacks} {near : Token} (h : s.Lacks near e)
    (hs : ∀ p ∈ s.pending, p.CameFrom tokens) :
    ∃ operator ∈ tokens, operator.kind.isOperator = true ∧ e = .missing operator near := by
  obtain ⟨p, hp, operator, hop, rfl⟩ := h
  obtain ⟨hmem, hkind⟩ := (hs p hp).operator hop
  exact ⟨operator, hmem, hkind, rfl⟩

namespace Automaton

variable {a b : Automaton} {closing : Closing} {path : List Nat} {x : Except ParseError Expr}

/-- Only the token that is taken can be added to what waits. -/
theorem Takes.cameFrom (h : a.Takes t b) (ha : ∀ p ∈ a.stack.pending, p.CameFrom tokens) :
    ∀ p ∈ b.stack.pending, p.CameFrom (tokens ++ [t]) := by
  have hold (s : Stacks) (hsub : s.pending ⊆ a.stack.pending) :
      ∀ p ∈ s.pending, p.CameFrom (tokens ++ [t]) :=
    fun p hp => (ha p (hsub hp)).mono (List.subset_append_left ..)
  have hsame := hold a.stack (List.Subset.refl _)
  cases h with
  | operand => exact hsame
  | newline => exact hsame
  | opener _ hopen => exact List.forall_mem_cons.mpr ⟨⟨by simp, hopen⟩, hsame⟩
  | closer _ hclose =>
    obtain ⟨inner, es, opener, ps, hset, rfl⟩ := Stacks.closeGroup_eq_ok_iff.mp hclose
    obtain ⟨qs, hqs⟩ := hset.exists_pending
    exact hold _ (hqs ▸ List.subset_append_of_subset_right qs (List.subset_cons_self ..))
  | prefixOp _ hprefix =>
    exact List.forall_mem_cons.mpr ⟨⟨by simp, isOperator_of_isPrefixOperator hprefix⟩, hsame⟩
  | infixOp hn _ hred =>
    have hop : t.kind.isOperator = true := (Kind.isOperator_iff _).mpr (.inl (by simp [hn]))
    obtain ⟨qs, hqs⟩ := (Stacks.reduceWhile_eq_ok_iff.mp hred).1.exists_pending
    exact List.forall_mem_cons.mpr
      ⟨⟨by simp, hop⟩, hold _ (hqs ▸ List.subset_append_right qs _)⟩

/-- The end of an expression finds fault with the token there. -/
theorem anchoredAt_of_finish (ha : a.Fits) (ht : tokens[i]? = some t)
    (hpending : ∀ p ∈ a.stack.pending, p.CameFrom (tokens.take i))
    (h : a.stack.finish t.seen = .error e) : AnchoredAt tokens i e := by
  rcases Stacks.error_of_finish ha h with hlacks | ⟨opener, base, hmem, rfl⟩ | rfl
  · obtain ⟨operator, hmem, hop, rfl⟩ := hlacks.operator hpending
    simpa [ParseError.missing] using AnchoredAt.missing ht hmem hop
  · obtain ⟨hopener, hopen⟩ := hpending _ hmem
    rw [Token.seen_describe]
    exact .mismatched ht (List.take_subset_take_left _ (Nat.le_succ i) hopener)
      (by simp [Kind.isParen, hopen])
  · have hinvalid : AnchoredAt tokens i (.invalid .noExpression t) := .invalid ht
    simpa [ParseError.invalid] using hinvalid

/-- A token that is refused is at fault itself. -/
theorem anchoredAt_of_refuse (ht : tokens[i]? = some t) (h : a.step closing t = .refuse e) :
    AnchoredAt tokens i e := by
  cases refuses_of_step h with
  | second => exact .invalid ht
  | stray hclose =>
    have hmem : t ∈ tokens.take (i + 1) := by simp [List.take_add_one, ht]
    exact .mismatched ht hmem (by simp [Kind.isParen, hclose])
  | negation => exact .unexpected ht

/-- A token that is taken in vain stands before the index where reading stops. -/
theorem anchoredAt_of_fail (ha : a.Fits) (ht : tokens[i]? = some t)
    (hpending : ∀ p ∈ a.stack.pending, p.CameFrom (tokens.take i))
    (h : a.step closing t = .fail e) : AnchoredAt tokens (i + 1) e := by
  rcases error_of_fail ha h with ⟨hkind, hlacks⟩ | ⟨hclose, rfl⟩
  · obtain ⟨operator, hmem, hop, rfl⟩ := hlacks.operator hpending
    exact .missingBefore ht (by simpa [Kind.isCompleting] using hkind) hmem hop
  · exact .emptyBefore ht hclose

/-- **The errors of expressions** are anchored where the automaton stops. -/
theorem Walk.anchoredAt (h : a.Walk closing tokens i path x j) (ha : a.Fits)
    (hpending : ∀ p ∈ a.stack.pending, p.CameFrom (tokens.take i)) (hx : x = .error e) :
    AnchoredAt tokens j e := by
  induction h with
  | take ht hstep _ ih =>
    have htakes := step_eq_take_iff.mp hstep
    refine ih (ha.of_takes htakes) ?_ hx
    simpa [List.take_add_one, ht] using htakes.cameFrom hpending
  | leave ht => exact anchoredAt_of_finish ha ht hpending hx
  | refuse ht hstep =>
    obtain rfl := Except.error.inj hx
    exact anchoredAt_of_refuse ht hstep
  | fail ht hstep =>
    obtain rfl := Except.error.inj hx
    exact anchoredAt_of_fail ha ht hpending hstep

end Automaton

/-- **The errors of parsers** are anchored where reading stops. -/
theorem Parser.Walk.anchoredAt {α : Type} {p : Parser α} {path : List Nat}
    {x : Except ParseError α} (h : Walk tokens p i path x j) (hx : x = .error e) :
    AnchoredAt tokens j e := by
  induction h with
  | bind _ _ _ ih => exact ih hx
  | bindError _ ih => exact ih (congrArg Except.error (Except.error.inj hx))
  | refuse ht =>
    obtain rfl := Except.error.inj hx
    exact .unexpected ht
  | unterminated ht hk =>
    obtain rfl := Except.error.inj hx
    exact .unterminated ht hk
  | expression h => exact h.anchoredAt Automaton.fits_start (by simp [Automaton.start]) hx
  | _ => contradiction

/-- Every error of a reading is anchored where the reading stops. -/
theorem anchoredAt_of_parse {ts : List Token} {n : Nat}
    (h : ((Input.ofTokens ts).after n).parse.result = .error e) :
    AnchoredAt (closeTokens ts) (stopIndex ts (n + 1)) e := by
  obtain ⟨path, hwalk⟩ := exists_walk_of_stopIndex ts n
  exact hwalk.anchoredAt h

/-! ### The main result -/

/-- Whether this is an error that may be noticed when a token has just been taken. -/
def ParseError.mayLookBack : ParseError → Bool
  | missingOperand _ _ _ => true
  | invalidExpression .emptyParentheses _ _ => true
  | _ => false

/-- The line of the error is that of a token that it is about: `t`, the one found, or one of those
that were taken before. -/
def ParseError.LineStands (taken : List Token) (t : Token) : ParseError → Prop
  | unexpectedToken _ _ line => line = t.line
  | unterminatedBlock _ _ line => t.kind = .eof ∧ line = t.line
  | mismatchedParentheses _ line =>
    ∃ paren ∈ taken ++ [t], paren.kind.isParen = true ∧ paren.line = line
  | missingOperand operator _ line =>
    ∃ op ∈ taken, op.kind.isOperator = true ∧ op.lexeme = operator ∧ op.line = line
  | invalidExpression _ _ line => line = t.line

/-- What being anchored says of the token found and of the line. -/
theorem AnchoredAt.exists_token (h : AnchoredAt tokens i e) :
    ∃ k t, tokens[k]? = some t ∧ e.found = t.describe ∧ e.LineStands (tokens.take i) t ∧
      (k = i ∨ k + 1 = i ∧ t.kind.isCompleting = true ∧ e.mayLookBack = true) := by
  cases h with
  | @unexpected _ t _ ht => exact ⟨i, t, ht, rfl, rfl, .inl rfl⟩
  | @unterminated _ _ t _ ht hk =>
    exact ⟨i, t, ht, (Token.describe_of_eof hk).symm, ⟨hk, rfl⟩, .inl rfl⟩
  | @mismatched _ t paren ht hmem hparen =>
    refine ⟨i, t, ht, rfl, ⟨paren, ?_, hparen, rfl⟩, .inl rfl⟩
    simpa [List.take_add_one, ht] using hmem
  | @invalid _ t _ ht => exact ⟨i, t, ht, rfl, rfl, .inl rfl⟩
  | @missing _ t op ht hmem hop => exact ⟨i, t, ht, rfl, ⟨op, hmem, hop, rfl, rfl⟩, .inl rfl⟩
  | @missingBefore k t op ht hkind hmem hop =>
    have hmem' := List.take_subset_take_left _ (Nat.le_succ k) hmem
    exact ⟨k, t, ht, rfl, ⟨op, hmem', hop, rfl, rfl⟩, .inr ⟨rfl, hkind, rfl⟩⟩
  | @emptyBefore k t ht hclose =>
    exact ⟨k, t, ht, rfl, rfl, .inr ⟨rfl, by simp [Kind.isCompleting, hclose], rfl⟩⟩

/-- **Errors are anchored, and reading resumes.** Take any number of readings of a list. If the last
of them fails, its error describes the token at the index where it stopped, or, for some errors, a
closing parenthesis or an infix operator right before this index; and its line is that of the token
described, or of a parenthesis or an operator taken before. What is read next is what is read from
the tokens from this index on. -/
theorem anchored_and_resumes (ts : List Token) (n : Nat) :
    (∀ e, ((Input.ofTokens ts).parseTimes (n + 1))[n]? = some (.error e) →
      ∃ k t, (closeTokens ts)[k]? = some t ∧ e.found = t.describe ∧
        e.LineStands ((closeTokens ts).take (stopIndex ts (n + 1))) t ∧
        (k = stopIndex ts (n + 1) ∨
          k + 1 = stopIndex ts (n + 1) ∧ t.kind.isCompleting = true ∧ e.mayLookBack = true)) ∧
    ∀ m, (Input.ofTokens ts).parseTimes (n + m) = (Input.ofTokens ts).parseTimes n ++
      (Input.ofTokens ((closeTokens ts).drop (stopIndex ts n))).parseTimes m := by
  refine ⟨fun e he => ?_, fun m => ?_⟩
  · rw [Input.getElem?_parseTimes] at he
    exact (anchoredAt_of_parse (Option.some.inj he)).exists_token
  · rw [Input.parseTimes_add, (after_eq_fromIndex ts n).2, Input.fromIndex]

/-- An operator that lacks its right operand is reported when the parenthesis after it has been
taken, and what comes after the parenthesis is read next. -/
theorem anchored_and_resumes_group :
    let ts : List Token := [⟨.kwScript, "SCRIPT", 1⟩, ⟨.kwArea, "AREA", 1⟩,
      ⟨.kwStart, "START", 1⟩, ⟨.kwScript, "SCRIPT", 1⟩, ⟨.identifier, "x", 2⟩, ⟨.equal, "=", 2⟩,
      ⟨.leftParen, "(", 2⟩, ⟨.identifier, "y", 2⟩, ⟨.plus, "+", 2⟩, ⟨.rightParen, ")", 3⟩,
      ⟨.kwScript, "SCRIPT", 3⟩, ⟨.eof, "", 4⟩]
    let e : ParseError := .missingOperand "+" "')'" 2
    ((Input.ofTokens ts).parseTimes 1)[0]? = some (.error e) ∧ stopIndex ts 1 = 10 ∧
      (∃ k t, (closeTokens ts)[k]? = some t ∧ e.found = t.describe ∧
        e.LineStands ((closeTokens ts).take 10) t ∧
        (k = 10 ∨ k + 1 = 10 ∧ t.kind.isCompleting = true ∧ e.mayLookBack = true)) ∧
      (Input.ofTokens ts).parseTimes 2 = (Input.ofTokens ts).parseTimes 1 ++
        (Input.ofTokens [⟨.kwScript, "SCRIPT", 3⟩, ⟨.eof, "", 4⟩]).parseTimes 1 := by
  intro ts e
  have hfails : ((Input.ofTokens ts).parseTimes 1)[0]? = some (.error e) := rfl
  exact ⟨hfails, rfl, (anchored_and_resumes ts 0).1 e hfails, (anchored_and_resumes ts 1).2 1⟩

end ScriptTree
