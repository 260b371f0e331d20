import Mathlib.Data.List.DropRight
import ScriptTree.Proofs.Expression.Blame
import ScriptTree.Proofs.Position.Anchors
import ScriptTree.Proofs.Program.FirstFault
import ScriptTree.Proofs.Program.Halting

/-!
# What an error points at

Three of the errors of a program name something that stands in it: a block that is not closed, a
parenthesis without a partner, and an operator without an operand. What they name is found again
from the tokens that were taken (`Input.taken`) and from the token before which reading stopped
(`Input.stop`), without reading them once more. The expression that was being read is the longest
end of these tokens that can belong to one (`Input.expressionTaken`).

* `unterminated_of_parse`: the block is the innermost one that the tokens leave open.
* `mismatched_of_parse`: the parenthesis is the one before which reading stopped, or else the last
  one that is open; and the one that ends the header of a `FOR` is not reported.
* `missing_of_parse`: the operator can be blamed for it (`Blamed`). It need not lack an operand
  itself (`not_lacksOperand_robbedOr`).
-/

namespace ScriptTree

open ScriptTree.Parser

variable {i : Input} {e : ParseError} {before us : List Token}

/-! ### The expression that was being read -/

namespace Input

/-- The tokens that were taken before reading stopped. -/
def taken (i : Input) : List Token :=
  i.ahead.take (i.ahead.length - i.parse.rest.ahead.length)

/-- The token before which reading stopped. -/
def stop (i : Input) : Token :=
  i.parse.rest.current

/-- The tokens of the expression that was being read when reading stopped. -/
def expressionTaken (i : Input) : List Token :=
  i.taken.rtakeWhile (·.kind.isExpressionPart)

/-- The tokens before this expression. -/
def beforeExpression (i : Input) : List Token :=
  i.taken.rdropWhile (·.kind.isExpressionPart)

private theorem taken_eq {ts : List Token} (h : i.ahead = ts ++ i.parse.rest.ahead) :
    i.taken = ts := by
  rw [taken, h, List.length_append, Nat.add_sub_cancel, List.take_left]

end Input

/-- An end of the list with this property is the longest one, if the token before it is without. -/
private theorem rtakeWhile_append {p : Token → Bool} (hus : ∀ t ∈ us, p t = true)
    (hbefore : ∀ t ∈ before.getLast?, p t = false) :
    (before ++ us).rtakeWhile p = us ∧ (before ++ us).rdropWhile p = before := by
  induction us using List.reverseRecOn with
  | nil =>
    rcases List.eq_nil_or_concat' before with rfl | ⟨ts, t, rfl⟩
    · simp
    · have ht : ¬ p t = true := by simpa using hbefore
      simp [List.rtakeWhile_concat_neg, List.rdropWhile_concat_neg, ht]
  | append_singleton us t ih =>
    obtain ⟨hus, ht⟩ := List.forall_mem_append.mp hus
    obtain ⟨htake, hdrop⟩ := ih hus
    have ht := List.forall_mem_singleton.mp ht
    rw [← List.append_assoc, List.rtakeWhile_concat_pos _ _ _ ht,
      List.rdropWhile_concat_pos _ _ _ ht, htake, hdrop]
    exact ⟨rfl, rfl⟩

/-- Before the token where reading stopped stands whatever end mark closes the input. -/
private theorem Input.headD_rest {last : Token} (hlast : last.kind = .eof) :
    i.parse.rest.ahead.headD last = i.stop ∨
      (i.parse.rest.ahead.headD last).kind = .eof ∧ i.stop.kind = .eof := by
  rw [stop, current]
  cases i.parse.rest.ahead with
  | nil => exact .inr ⟨hlast, rfl⟩
  | cons t ts => exact .inl rfl

/-- What ends an expression is not part of what it was read from, unless it is taken in vain. -/
private theorem Automaton.Ends.isExpressionPart {closing : Closing} {a : Automaton} {t : Token}
    {x : Except ParseError Expr} {extra : List Token} (h : a.Ends closing t x extra) (ha : a.Fits) :
    ∀ u ∈ extra, u.kind.isExpressionPart = true := by
  cases h with
  | leave => simp
  | refuse => simp
  | fail hstep _ =>
    rw [List.forall_mem_singleton]
    rcases error_of_fail ha hstep with ⟨hclose | hlevel, -⟩ | ⟨hclose, -⟩
    · simp [Kind.isExpressionPart, hclose]
    · have hop := (Kind.isOperator_iff _).mpr (.inl hlevel)
      simp [Kind.isExpressionPart, hop]
    · simp [Kind.isExpressionPart, hclose]

private theorem Automaton.Taken.isExpressionPart {a : Automaton} (h : Taken us a) :
    ∀ t ∈ us, t.kind.isExpressionPart = true := by
  induction h with
  | start => simp
  | snoc _ htakes ih =>
    exact List.forall_mem_append.mpr ⟨ih, List.forall_mem_singleton.mpr htakes.isExpressionPart⟩

/-- The errors that only expressions have. -/
def ParseError.isOfExpression : ParseError → Bool
  | unexpectedToken _ _ _ => false
  | unterminatedBlock _ _ _ => false
  | _ => true

/-- **The expression that failed.** The automaton took its tokens, and ended it before the token
where reading stopped, or right after a token that it took in vain. -/
theorem Input.exists_ends (h : i.parse.result = .error e) (he : e.isOfExpression = true) :
    ∃ closing us a t extra, a.Ends closing t (.error e) extra ∧ Automaton.Taken us a ∧
      i.expressionTaken = us ++ extra ∧ Leads closing i.beforeExpression ∧
        (extra = [t] ∨ extra = [] ∧ (t = i.stop ∨ t.kind = .eof ∧ i.stop.kind = .eof)) := by
  obtain ⟨s, herr, hrest⟩ := exists_of_result_eq_error h
  have hhalted : Halted i.ahead e s.input.ahead := program_halts herr
  rw [← hrest] at hhalted
  cases hhalted with
  | unexpected => contradiction
  | unterminated => contradiction
  | @expression before ahead _ closing last _ htokens hlead hlast hrun =>
    obtain ⟨us, a, t, extra, hus, hends, rfl, ht⟩ := Automaton.exists_ends hlast hrun
    have htaken : i.taken = before ++ (us ++ extra) :=
      taken_eq (by rw [htokens]; simp only [List.append_assoc])
    have hpart : ∀ u ∈ us ++ extra, u.kind.isExpressionPart = true :=
      List.forall_mem_append.mpr ⟨hus.isExpressionPart, hends.isExpressionPart hus.fits⟩
    obtain ⟨htake, hdrop⟩ := rtakeWhile_append hpart hlead.last
    refine ⟨closing, us, a, t, extra, hends, hus, by rw [expressionTaken, htaken, htake],
      by rwa [beforeExpression, htaken, hdrop], ?_⟩
    have hstop : t = i.parse.rest.ahead.headD last →
        t = i.stop ∨ t.kind = .eof ∧ i.stop.kind = .eof := by
      rintro rfl
      exact headD_rest hlast
    cases hends with
    | leave => exact .inr ⟨rfl, hstop ht⟩
    | refuse => exact .inr ⟨rfl, hstop ht⟩
    | fail => exact .inl rfl

/-! ### Blocks -/

/-- A run of the automaton does not find a block open. -/
private theorem Automaton.Ends.ne_unterminated {closing : Closing} {a : Automaton} {t : Token}
    {extra : List Token} {block : Kind} {openedAt line : Nat} (ha : a.Fits)
    (h : a.Ends closing t (.error (.unterminatedBlock block openedAt line)) extra) : False := by
  cases h.raises ha with
  | refuses hrefuses => cases hrefuses
  | lacks hlacks =>
    obtain ⟨_, he⟩ := hlacks.exists_missing
    contradiction

/-- **Unterminated blocks.** If the input ends inside a block, then every `END` before the first end
mark fits the innermost open block, the block reported is the innermost one that stays open, with
the line of its `START`, and the error is reported on the line of this end mark. -/
theorem unterminated_of_parse {ts : List Token} {block : Kind} {openedAt line : Nat}
    (h : (Input.ofTokens ts).parse.result = .error (.unterminatedBlock block openedAt line)) :
    (∃ opened, openBlocks [] (ts.takeWhile (·.kind != .eof)) = some ((block, openedAt) :: opened)) ∧
      ∃ t, (closeTokens ts).find? (·.kind == .eof) = some t ∧ line = t.line := by
  obtain ⟨s, herr, hrest⟩ := Input.exists_of_result_eq_error h
  have hhalted : Halted (Input.ofTokens ts).ahead _ s.input.ahead := program_halts herr
  -- The place where reading stopped is that of the first end mark.
  obtain ⟨hwithin, hafter⟩ := after_eq_fromIndex ts 1
  obtain ⟨t, ht, hk, hline⟩ : ∃ t, (closeTokens ts)[stopIndex ts 1]? = some t ∧ t.kind = .eof ∧
      line = t.line := by
    have hanchor : AnchoredAt (closeTokens ts) (stopIndex ts 1) _ := anchoredAt_of_parse h
    obtain ⟨k, t, ht, -, ⟨hk, hline⟩, rfl | ⟨-, -, hback⟩⟩ := hanchor.exists_token
    · exact ⟨t, ht, hk, hline⟩
    · contradiction
  have hnone : s.input.ahead = [] := by
    rw [← hrest]
    exact congrArg Input.ahead (hafter.trans ((isClosed_closeTokens ts).fromIndex_of_eof ht hk))
  refine ⟨?_, t, ?_, hline⟩
  · rw [← Input.ahead_ofTokens]
    cases hhalted with
    | @unterminated _ _ _ taken rest opened htokens hopen =>
      rw [hnone, List.append_nil] at htokens
      exact ⟨opened, htokens ▸ hopen⟩
    | expression _ _ hlast hrun =>
      obtain ⟨us, a, t, extra, hus, hends, -, -⟩ := Automaton.exists_ends hlast hrun
      exact (hends.ne_unterminated hus.fits).elim
  · have hsplit : closeTokens ts = (closeTokens ts).take (stopIndex ts 1) ++
        t :: (closeTokens ts).drop (stopIndex ts 1 + 1) := by
      rw [← drop_eq_cons_of_getElem? ht, List.take_append_drop]
    exact List.find?_eq_some_iff_append.mpr
      ⟨by simp [hk], _, _, hsplit, by simpa using hwithin.before⟩

/-- The first tokens of a script, up to its `START SCRIPT`. -/
def scriptOpening : List Token :=
  [⟨.kwScript, "SCRIPT", 1⟩, ⟨.kwArea, "AREA", 1⟩, ⟨.kwStart, "START", 1⟩, ⟨.kwScript, "SCRIPT", 1⟩]

/-- The blocks of a script and of an `IF` are open at the end, and that of a `REPEAT` is not. -/
theorem unterminated_of_parse_if :
    let ts : List Token := scriptOpening ++
      [⟨.kwIf, "IF", 2⟩, ⟨.identifier, "x", 2⟩, ⟨.kwStart, "START", 3⟩, ⟨.kwIf, "IF", 3⟩,
        ⟨.kwRepeat, "REPEAT", 4⟩, ⟨.kwWhen, "WHEN", 4⟩, ⟨.identifier, "y", 4⟩,
        ⟨.kwStart, "START", 4⟩, ⟨.kwRepeat, "REPEAT", 4⟩, ⟨.kwEnd, "END", 5⟩,
        ⟨.kwRepeat, "REPEAT", 5⟩]
    (Input.ofTokens ts).parse.result = .error (.unterminatedBlock .kwIf 3 5) ∧
      (∃ opened, openBlocks [] (ts.takeWhile (·.kind != .eof)) = some ((.kwIf, 3) :: opened)) ∧
        ∃ t, (closeTokens ts).find? (·.kind == .eof) = some t ∧ 5 = t.line :=
  ⟨rfl, unterminated_of_parse rfl⟩

/-! ### Parentheses -/

/-- **Mismatched parentheses.** If a parenthesis is reported, then the error is about the token
before which reading stopped, and there are two cases. Either this is a closing parenthesis, all
parentheses in the expression before it have their partners, and the expression is not the value of
the update of a `FOR`; then it is the one that is reported. Or it is another token; then the last
opening parenthesis that has no partner in the expression is reported. -/
theorem mismatched_of_parse {found : String} {line : Nat}
    (h : i.parse.result = .error (.mismatchedParentheses found line)) :
    found = i.stop.describe ∧
      (i.stop.kind = .rightParen ∧ unclosed i.expressionTaken = some [] ∧ line = i.stop.line ∧
          ¬ BeforeUpdate i.beforeExpression ∨
        i.stop.kind ≠ .rightParen ∧
          ∃ opener opened, unclosed i.expressionTaken = some (opener :: opened) ∧
            line = opener.line) := by
  obtain ⟨closing, us, a, t, extra, hends, hus, hexpr, hlead, hstop⟩ := Input.exists_ends h rfl
  obtain ⟨rfl, hfound, hcases⟩ := hends.mismatched hus
  rw [List.append_nil] at hexpr
  rw [hexpr]
  rcases hstop with hextra | ⟨-, rfl | ⟨ht, hk⟩⟩
  · contradiction
  · refine ⟨hfound, hcases.imp_left ?_⟩
    rintro ⟨hclose, hclosing, hnone, hline⟩
    exact ⟨hclose, hnone, hline, hlead.update hclosing⟩
  · rcases hcases with ⟨hclose, -⟩ | ⟨-, hopened⟩
    · rw [ht] at hclose
      contradiction
    · exact ⟨by rw [hfound, Token.describe_of_eof ht, Token.describe_of_eof hk],
        .inr ⟨by simp [hk], hopened⟩⟩

/-- The second of two parentheses is closed, and the first one is reported at the `END`. -/
theorem mismatched_of_parse_group :
    let i := Input.ofTokens (scriptOpening ++
      [⟨.identifier, "x", 2⟩, ⟨.equal, "=", 2⟩, ⟨.leftParen, "(", 3⟩, ⟨.leftParen, "(", 4⟩,
        ⟨.intLiteral, "1", 4⟩, ⟨.rightParen, ")", 4⟩, ⟨.kwEnd, "END", 5⟩])
    i.parse.result = .error (.mismatchedParentheses "'END'" 3) ∧
      "'END'" = i.stop.describe ∧
      (i.stop.kind = .rightParen ∧ unclosed i.expressionTaken = some [] ∧ 3 = i.stop.line ∧
          ¬ BeforeUpdate i.beforeExpression ∨
        i.stop.kind ≠ .rightParen ∧
          ∃ opener opened, unclosed i.expressionTaken = some (opener :: opened) ∧
            3 = opener.line) :=
  ⟨rfl, mismatched_of_parse rfl⟩

/-! ### Operators -/

/-- **Missing operands.** If an operand is missing, then an operator with the lexeme and the line
that are reported stands in the expression, and it can be blamed for it. -/
theorem missing_of_parse {operator found : String} {line : Nat}
    (h : i.parse.result = .error (.missingOperand operator found line)) :
    ∃ xs op ys, i.expressionTaken = xs ++ op :: ys ∧ op.kind.isOperator = true ∧
      op.lexeme = operator ∧ op.line = line ∧ Blamed xs op (ys ++ [i.stop]) := by
  obtain ⟨closing, us, a, t, extra, hends, hus, hexpr, -, hstop⟩ := Input.exists_ends h rfl
  obtain ⟨op, hop, hlexeme, hline, hblames⟩ := hends.blamed hus
  rcases hstop with rfl | ⟨rfl, hstop⟩
  · obtain ⟨xs, ys, rfl, hblamed⟩ := hblames t rfl
    exact ⟨xs, op, ys ++ [t], by rw [hexpr, List.append_assoc]; rfl, hop, hlexeme, hline,
      hblamed.append [i.stop]⟩
  · have hkind : i.stop.kind = t.kind := by
      rcases hstop with rfl | ⟨ht, hk⟩
      · rfl
      · rw [ht, hk]
    obtain ⟨xs, ys, rfl, hblamed⟩ := hblames i.stop hkind
    exact ⟨xs, op, ys, by rw [hexpr, List.append_nil], hop, hlexeme, hline, hblamed⟩

/-- A statement that assigns `x OR a < * b`, the last one of an open script. -/
def robbedOr : List Token :=
  scriptOpening ++
    [⟨.identifier, "y", 2⟩, ⟨.equal, "=", 2⟩, ⟨.identifier, "x", 2⟩, ⟨.kwOr, "OR", 2⟩,
      ⟨.identifier, "a", 2⟩, ⟨.less, "<", 2⟩, ⟨.star, "*", 2⟩, ⟨.identifier, "b", 2⟩,
      ⟨.dollar, "$", 2⟩]

/-- The `OR` is to blame, as it yields to the `<`. -/
theorem missing_of_parse_robbedOr :
    (Input.ofTokens robbedOr).parse.result = .error (.missingOperand "OR" "'$'" 2) ∧
      ∃ xs op ys, (Input.ofTokens robbedOr).expressionTaken = xs ++ op :: ys ∧
        op.kind.isOperator = true ∧ op.lexeme = "OR" ∧ op.line = 2 ∧
          Blamed xs op (ys ++ [(Input.ofTokens robbedOr).stop]) :=
  ⟨rfl, missing_of_parse rfl⟩

/-- But no `OR` of the expression lacks an operand: it stands between the `x` and the `a`. -/
theorem not_lacksOperand_robbedOr :
    (Input.ofTokens robbedOr).parse.result = .error (.missingOperand "OR" "'$'" 2) ∧
      ¬ ∃ xs op ys, (Input.ofTokens robbedOr).expressionTaken = xs ++ op :: ys ∧
        op.kind.isOperator = true ∧ op.lexeme = "OR" ∧ op.line = 2 ∧
          LacksOperand xs op (ys ++ [(Input.ofTokens robbedOr).stop]) := by
  refine ⟨rfl, ?_⟩
  rintro ⟨xs, op, ys, hexpr, -, hlexeme, -, hlacks⟩
  have hexpr : (robbedOr.drop 6).take 6 = xs ++ op :: ys := hexpr
  have hall : ∀ k < 6, ∀ t ∈ ((robbedOr.drop 6).take 6)[k]?, t.lexeme = "OR" → k = 1 := by decide
  have hlength := congrArg List.length hexpr
  have hone : xs.length = 1 := by
    refine hall _ ?_ op (by simp [hexpr]) hlexeme
    simp [robbedOr, scriptOpening] at hlength
    omega
  obtain ⟨x, rfl⟩ := List.length_eq_one_iff.mp hone
  obtain ⟨rfl, rfl, rfl⟩ : _ = x ∧ _ = op ∧ _ = ys := by
    simpa [robbedOr, scriptOpening] using hexpr
  cases hlacks with
  | right ht hk =>
    cases ht
    contradiction
  | left hsign hdue => rcases hdue _ rfl with h | h <;> contradiction

end ScriptTree
