import ScriptTree.Proofs.Expression.Blame
import ScriptTree.Proofs.Expression.Groups

/-!
# What a token makes the automaton do

On account of one token the automaton may close a group, end the expression, or apply operators, and
each of these leads to others: closing a group applies all operators in it, and applying several
applies one after the other. `Automaton.Does` lists all that is done, with the stacks on which it is
done, and `Automaton.Turn` says which token comes when in a run.

Each of these tasks could go wrong in ways that never come about (`Automaton.Orderly`). Open groups
never count more operands than there are; an operator takes only operands that were read after the
innermost open parenthesis; no operator is looked for where none waits; and a group or an expression
that cannot be completed lacks an operand or has nothing in it, since a second operand is refused
before it comes to that.

The main result is `Parser.expression_orderly`.
-/

namespace ScriptTree

/-! ### Tasks -/

/-- What there is to do with the stacks. -/
inductive Task where
  /-- Deciding what a token does. -/
  | look
  /-- Closing the innermost open group. -/
  | closeGroup
  /-- Ending the expression. -/
  | finish
  /-- Applying operators for as long as the one on top passes the test. -/
  | reduceWhile (applies : Pending → Bool)
  /-- Applying the operator on top. -/
  | reduce

/-- The task ends with this error. -/
def Task.Fails (near : Token) (s : Stacks) (e : ParseError) : Task → Prop
  | look => False
  | closeGroup => s.closeGroup near = .error e
  | finish => s.finish near = .error e
  | reduceWhile applies => s.reduceWhile near applies = .error e
  | reduce => s.reduce near = .error e

namespace Automaton

/-- On account of the token `t` the automaton does this with these stacks. -/
inductive Does (closing : Closing) (a : Automaton) (t : Token) : Task → Stacks → Prop where
  | look : Does closing a t .look a.stack
  /-- A closing parenthesis that has a partner. -/
  | closer : t.kind = .rightParen → a.stack.hasGroup = true → Does closing a t .closeGroup a.stack
  /-- An infix operator, also where an operand is expected, unless it is a prefix operator there. -/
  | infixOp {n : Nat} : t.kind.level? = some n →
    (a.expecting = true → t.kind.isPrefixOperator = false) →
      Does closing a t (.reduceWhile (Pending.goesBefore n)) a.stack
  /-- A token that does not belong to the expression. -/
  | leave : a.step closing t = .leave → Does closing a t .finish a.stack
  | ofCloseGroup {s : Stacks} : Does closing a t .closeGroup s →
    Does closing a t (.reduceWhile (!·.isGroup)) s
  | ofFinish {s : Stacks} : Does closing a t .finish s →
    Does closing a t (.reduceWhile (!·.isGroup)) s
  | ofReduceWhile {applies : Pending → Bool} {s : Stacks} {top : Pending} :
    Does closing a t (.reduceWhile applies) s → top ∈ s.pending.head? → applies top = true →
      Does closing a t .reduce s
  /-- Once one operator is applied, the next one is looked at. -/
  | next {applies : Pending → Bool} {s s' : Stacks} {top : Pending} :
    Does closing a t (.reduceWhile applies) s → top ∈ s.pending.head? → applies top = true →
      s.reduce t = .ok s' → Does closing a t (.reduceWhile applies) s'

/-- In a run along the tokens `ts`, the token `t` comes next when `us` have been taken and the
automaton stands like `a`. After all of them comes `last`. -/
structure Turn (last : Token) (ts us : List Token) (a : Automaton) (t : Token) : Prop where
  taken : Taken us a
  next : ∃ rest, ts = us ++ rest ∧ t = rest.headD last

/-- Each of the tasks of a turn is done as it should be. -/
structure Orderly (closing : Closing) (us : List Token) (a : Automaton) (t : Token) : Prop where
  /-- No open group counts more operands before it than there are. -/
  base_le : ∀ ⦃task s opener base⦄, a.Does closing t task s → .group opener base ∈ s.pending →
    base ≤ s.operands.length
  /-- An operator that is applied leaves alone what was complete before the innermost open group. -/
  spares : ∀ ⦃s s' xs opener ys⦄, a.Does closing t .reduce s → s.reduce t = .ok s' →
    us = xs ++ opener :: ys → opener.kind = .leftParen → IsBalanced ys →
      ∃ b taken kept e, Taken xs b ∧ s.operands = taken ++ kept ∧ s'.operands = e :: kept ∧
        b.stack.operands <:+ kept
  /-- An operator that cannot be applied lacks an operand. -/
  error_of_reduce : ∀ ⦃s e⦄, a.Does closing t .reduce s → s.reduce t = .error e →
    ∃ op, e = .missing op t
  /-- A group that cannot be closed lacks an operand or is empty. -/
  error_of_closeGroup : ∀ ⦃s e⦄, a.Does closing t .closeGroup s → s.closeGroup t = .error e →
    (∃ op, e = .missing op t) ∨ e = .invalid .emptyParentheses t
  /-- An expression that cannot end lacks an operand, or has an open group, or is empty. -/
  error_of_finish : ∀ ⦃s e⦄, a.Does closing t .finish s → s.finish t = .error e →
    (∃ op, e = .missing op t) ∨
      (∃ opener base, .group opener base ∈ s.pending ∧
        e = .mismatchedParentheses t.describe opener.line) ∨
      e = .invalid .noExpression t

/-- Behind these tokens the token `t` would be a second operand in an open group: an operand or an
opening parenthesis that comes after an operand which was complete in the group. -/
structure SecondOperand (us : List Token) (t : Token) : Prop where
  begins : t.kind.isOperand = true ∨ t.kind = .leftParen
  behind : ∃ xs ls e opener opened, us = xs ++ ls ∧ Expr.Derives 6 ls e ∧
    unclosed xs = some (opener :: opened)

variable {closing : Closing} {a : Automaton} {t : Token} {task : Task} {s s' : Stacks}
  {us : List Token} {e : ParseError}

/-! ### The stacks of the tasks -/

/-- Whatever is done, only operators have been applied before. -/
private theorem Does.settles (h : a.Does closing t task s) :
    Stacks.Settles (!·.isGroup) a.stack s := by
  induction h with
  | look | closer | infixOp | leave => exact .refl _
  | ofCloseGroup _ ih | ofFinish _ ih | ofReduceWhile _ _ _ ih => exact ih
  | next _ _ _ hred ih =>
    obtain ⟨p, hp⟩ := Stacks.reduce_eq_ok_iff.mp hred
    exact ih.trans (.step hp (by simp [hp.isGroup_eq_false]) (.refl _))

/-- Open groups are never applied. -/
private theorem Does.isGroup_eq_false {applies : Pending → Bool}
    (h : a.Does closing t (.reduceWhile applies) s) :
    ∀ p, applies p = true → p.isGroup = false := by
  generalize htask : Task.reduceWhile applies = task at h
  induction h with
  | look | closer | leave | ofReduceWhile => cases htask
  | infixOp hn =>
    obtain rfl := Task.reduceWhile.inj htask
    exact fun p hp => by simpa using Pending.not_isGroup_of_goesBefore hp
  | ofCloseGroup | ofFinish =>
    obtain rfl := Task.reduceWhile.inj htask
    simp
  | next _ _ _ _ ih => exact ih htask

/-- Operands are only taken from those that the innermost open group has. -/
private theorem Taken.spares {xs ys : List Token} {opener : Token} (h : Taken us a)
    (hs : Stacks.Settles (!·.isGroup) a.stack s) (hred : s.reduce t = .ok s')
    (hus : us = xs ++ opener :: ys) (hopener : opener.kind = .leftParen) (hys : IsBalanced ys) :
    ∃ b taken kept e, Taken xs b ∧ s.operands = taken ++ kept ∧ s'.operands = e :: kept ∧
      b.stack.operands <:+ kept := by
  obtain ⟨b, c, hb, -, rfl⟩ := h.exists_inside hus hopener (by rw [hys]; rfl)
  obtain ⟨s₀, -, rfl⟩ := hs.of_onto
  obtain ⟨p, hp⟩ := Stacks.reduce_eq_ok_iff.mp hred
  obtain ⟨s₁, hp₀, rfl⟩ := hp.of_onto
  cases hp₀ with
  | @unary op e es ps =>
    exact ⟨b, [e], es ++ b.stack.operands, _, hb, rfl, rfl, List.suffix_append ..⟩
  | @binary op left right es ps =>
    exact ⟨b, [right, left], es ++ b.stack.operands, _, hb, rfl, rfl, List.suffix_append ..⟩

end Automaton

/-! ### Open groups -/

/-- No open group counts more operands than the innermost one. -/
private theorem Provided.base_le_floor {us : List Token} {ps : List Pending} {n base : Nat}
    {opener : Token} (h : Provided us ps n) (hmem : .group opener base ∈ ps) :
    base ≤ Stacks.floor ⟨[], ps⟩ := by
  induction ps generalizing n with
  | nil => contradiction
  | cons p ps ih =>
    cases p with
    | group opener' base' =>
      rcases List.mem_cons.mp hmem with heq | hmem
      · cases heq
        exact Nat.le_refl _
      · exact Nat.le_trans (ih h.2 hmem) h.1
    | unary => exact ih h (by simpa using hmem)
    | binary => exact ih h.2 (by simpa using hmem)

namespace Automaton

variable {closing : Closing} {a : Automaton} {t : Token} {task : Task} {s : Stacks}
  {us : List Token} {e : ParseError}

/-- Applying operators leaves each open group the operands that it counts. -/
private theorem Taken.base_le {opener : Token} {base : Nat} (h : Taken us a)
    (hs : Stacks.Settles (!·.isGroup) a.stack s) (hmem : .group opener base ∈ s.pending) :
    base ≤ s.operands.length := by
  have hfloor : s.floor ≤ s.operands.length := by
    rcases hs.floor_lt with rfl | hlt
    · exact Nat.le_of_add_right_le h.tracks.floor
    · exact Nat.le_of_lt hlt
  exact Nat.le_trans ((hs.provided h.tracks.provided).base_le_floor hmem) hfloor

/-- **Every turn is orderly.** -/
theorem Taken.orderly (h : Taken us a) (closing : Closing) (t : Token) :
    Orderly closing us a t where
  base_le task s opener base hdoes hmem := h.base_le hdoes.settles hmem
  spares s s' xs opener ys hdoes hred hus hopener hys :=
    h.spares hdoes.settles hred hus hopener hys
  error_of_reduce s e hdoes he := by
    cases hdoes with
    | ofReduceWhile hdoes htop happlies =>
      obtain ⟨op, -, rfl⟩ := Stacks.starves_of_reduce htop (hdoes.isGroup_eq_false _ happlies) he
      exact ⟨op, rfl⟩
  error_of_closeGroup s e hdoes he := by
    cases hdoes with
    | closer _ hgroup =>
      exact (Stacks.error_of_closeGroup h.fits hgroup he).imp_left Stacks.Lacks.exists_missing
  error_of_finish s e hdoes he := by
    cases hdoes with
    | leave => exact (Stacks.error_of_finish h.fits he).imp_left Stacks.Lacks.exists_missing

/-! ### Errors -/

/-- After a complete operand in an open group, what begins an operand would be a second one. -/
private theorem Taken.secondOperand (h : Taken us a) (he : a.expecting = false)
    (hgroup : a.stack.hasGroup = true) (ht : t.kind.isOperand = true ∨ t.kind = .leftParen) :
    SecondOperand us t := by
  obtain ⟨xs, ls, e, rfl, hls, hder⟩ := h.exists_operand he
  have hopen : unclosed (xs ++ ls) = unclosed xs := by
    simp [unclosed, unclosedFrom_append, hls.unclosedFrom_eq]
  refine ⟨ht, xs, ls, e, ?_⟩
  rw [h.laid.unclosed_eq] at hopen
  cases hopeners : openers a.stack.pending with
  | nil =>
    have hbalanced := h.laid.isBalanced_iff.mp (by rw [IsBalanced, h.laid.unclosed_eq, hopeners])
    rw [hgroup] at hbalanced
    contradiction
  | cons opener opened => exact ⟨opener, opened, rfl, hder, by rw [← hopen, hopeners]⟩

/-- A token that is taken in vain has something to do that goes wrong. -/
theorem exists_task_of_step (h : a.step closing t = .fail e) :
    ∃ task s, a.Does closing t task s ∧ task.Fails t s e := by
  unfold step at h
  repeat' split at h
  all_goals try contradiction
  · next hclose hopen =>
    exact ⟨.closeGroup, a.stack, .closer hclose hopen, takeWith_eq_fail h⟩
  · next hsign _ n hn =>
    refine ⟨.reduceWhile (Pending.goesBefore n), a.stack, .infixOp hn fun he => ?_,
      takeWith_eq_fail h⟩
    simpa [he] using hsign

/-- **An error** is that of a token that is refused, or of a task that goes wrong. -/
theorem Ends.refuses_or_fails {extra : List Token} (h : a.Ends closing t (.error e) extra) :
    a.Refuses closing t e ∨ ∃ task s, a.Does closing t task s ∧ task.Fails t s e := by
  cases h with
  | leave hstep hfinish => exact .inr ⟨.finish, a.stack, .leave hstep, hfinish⟩
  | refuse hstep hx =>
    obtain rfl := Except.error.inj hx
    exact .inl (refuses_of_step hstep)
  | fail hstep hx =>
    obtain rfl := Except.error.inj hx
    exact .inr (exists_task_of_step hstep)

/-- An expression asks for another token only in the place of a `NOT`. -/
private theorem Ends.expected_eq {extra : List Token} {expected : Expectation} {found : String}
    {line : Nat} (hus : Taken us a)
    (h : a.Ends closing t (.error (.unexpectedToken expected found line)) extra) :
    expected = .operatorBeforeNot := by
  cases h.raises hus.fits with
  | refuses hrefuses =>
    cases hrefuses
    rfl
  | lacks hlacks =>
    obtain ⟨_, he⟩ := hlacks.exists_missing
    contradiction

/-- **Faults.** An expression has an empty group, or nothing in it, or a second operand that is
refused. -/
theorem Ends.fault_cases {extra : List Token} {fault : ExpressionFault} {found : String}
    {line : Nat} (hus : Taken us a)
    (h : a.Ends closing t (.error (.invalidExpression fault found line)) extra) :
    fault = .emptyParentheses ∨ fault = .noExpression ∨
      fault = .adjacentOperands ∧ extra = [] ∧ found = t.describe ∧ line = t.line ∧
        SecondOperand us t := by
  cases h.raises hus.fits with
  | refuses hrefuses =>
    cases hrefuses with
    | second he hgroup hk => exact .inr (.inr ⟨rfl, rfl, rfl, rfl, hus.secondOperand he hgroup hk⟩)
  | lacks hlacks =>
    obtain ⟨_, he⟩ := hlacks.exists_missing
    contradiction
  | emptyGroup => exact .inl rfl
  | nothing => exact .inr (.inl rfl)

end Automaton

open Automaton

/-- **Expressions are read orderly.** When tokens have been taken, reading goes on from where the
automaton stands, and whatever it does next is done as it should be. An error is that of a token
that is refused or of a task that goes wrong. It never asks for an infix operator, nor finds that no
operator is left to apply, and it misses an operator between operands only before a token that would
be a second operand in an open group. -/
theorem Parser.expression_orderly (closing : Closing) (r : Reading) :
    (∀ us a t, Turn r.input.last r.input.ahead us a t →
      start.run closing r.input.last r.input.ahead
          = a.run closing r.input.last (r.input.ahead.drop us.length) ∧
        Orderly closing us a t) ∧
    ∀ e s, expression closing r = .error e s →
      ∃ us a t, Turn r.input.last r.input.ahead us a t ∧
        (a.Refuses closing t e ∨ ∃ task stack, a.Does closing t task stack ∧ task.Fails t stack e) ∧
        (∀ expected found line, e = .unexpectedToken expected found line →
          expected.text ≠ "an operator") ∧
        ∀ fault found line, e = .invalidExpression fault found line →
          fault.text ≠ "no operator to apply" ∧
          (fault.text = "missing operator between operands" →
            s.input.current = t ∧ found = t.describe ∧ line = t.line ∧ SecondOperand us t) := by
  refine ⟨fun us a t hturn => ⟨?_, hturn.taken.orderly closing t⟩, fun e s herr => ?_⟩
  · obtain ⟨rest, hrest, -⟩ := hturn.next
    rw [hrest, hturn.taken.run_append, List.drop_left]
  · obtain ⟨hrun, hahead⟩ : start.run closing r.input.last r.input.ahead
        = (.error e, s.input.ahead) ∧ s.input.last = r.input.last := by
      unfold expression at herr
      split at herr
      · contradiction
      · next hrun =>
        cases herr
        exact ⟨hrun, rfl⟩
    obtain ⟨us, a, t, extra, hus, hends, hsplit, ht⟩ := exists_ends rfl hrun
    refine ⟨us, a, t, ⟨hus, _, hsplit, ht⟩, hends.refuses_or_fails, ?_, ?_⟩
    · rintro expected found line rfl
      rw [hends.expected_eq hus]
      decide
    · rintro fault found line rfl
      rcases hends.fault_cases hus with rfl | rfl | ⟨rfl, rfl, hfound, hline, hsecond⟩
      · exact ⟨by decide, fun htext => absurd htext (by decide)⟩
      · exact ⟨by decide, fun htext => absurd htext (by decide)⟩
      · exact ⟨by decide, fun _ => ⟨by rw [ht, ← hahead]; rfl, hfound, hline, hsecond⟩⟩

/-- In a group behind `x <` a `+` applies the `*` before it, which leaves the `x` alone. The `4`
would be a second operand in the group. -/
theorem Parser.expression_orderly_group :
    let less : Token := ⟨.less, "<", 1⟩
    let opener : Token := ⟨.leftParen, "(", 1⟩
    let star : Token := ⟨.star, "*", 2⟩
    let plus : Token := ⟨.plus, "+", 2⟩
    let x : Token := ⟨.identifier, "x", 1⟩
    let number (digits : String) : Token := ⟨.intLiteral, digits, 2⟩
    let us := [x, less, opener, number "1", star, number "2"]
    let a : Automaton := ⟨⟨[.leaf (number "2"), .leaf (number "1"), .leaf x],
      [.binary star, .group opener 1, .binary less]⟩, false⟩
    let s : Stacks := ⟨[.infixNode (.leaf (number "1")) star (.leaf (number "2")), .leaf x],
      [.group opener 1, .binary less]⟩
    let r : Reading := ⟨⟨us ++ [plus, number "3", number "4"], 2⟩, []⟩
    start.run .reject r.input.last r.input.ahead
        = a.run .reject r.input.last (r.input.ahead.drop us.length) ∧
      (a.stack.reduce plus = .ok s ∧ ∃ b taken kept e, Taken [x, less] b ∧
        a.stack.operands = taken ++ kept ∧ s.operands = e :: kept ∧ b.stack.operands <:+ kept) ∧
      expression .reject r = .error (.invalid .adjacentOperands (number "4"))
          { r with input.ahead := [number "4"] } ∧
        ∃ us, SecondOperand us (number "4") := by
  intro less opener star plus x number us a s r
  obtain ⟨hturns, herrors⟩ := Parser.expression_orderly .reject r
  have htaken : Taken us a :=
    (((((Taken.start.snoc (.operand rfl rfl)).snoc (.infixOp rfl (by decide) rfl)).snoc
      (.opener rfl rfl)).snoc (.operand rfl rfl)).snoc (.infixOp rfl (by decide) rfl)).snoc
      (.operand rfl rfl)
  obtain ⟨hrun, horderly⟩ := hturns us a plus ⟨htaken, _, rfl, rfl⟩
  have hdoes : a.Does .reject plus .reduce a.stack :=
    .ofReduceWhile (.infixOp rfl (by decide)) rfl rfl
  have hreduce : a.stack.reduce plus = .ok s := rfl
  have hus : us = [x, less] ++ opener :: [number "1", star, number "2"] := rfl
  have hspares := horderly.spares hdoes hreduce hus rfl rfl
  have herr : expression .reject r = .error (.invalid .adjacentOperands (number "4")) _ := rfl
  obtain ⟨us, _, t, -, -, -, hfault⟩ := herrors _ _ herr
  obtain ⟨rfl, -, -, hsecond⟩ := (hfault _ _ _ rfl).2 rfl
  exact ⟨hrun, ⟨hreduce, hspares⟩, herr, us, hsecond⟩

end ScriptTree
