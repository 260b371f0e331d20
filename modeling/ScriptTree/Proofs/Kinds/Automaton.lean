import ScriptTree.Proofs.Kinds.Alike

/-!
# Expressions are read by kind

Two runs of the automaton over related tokens stay in step: if the tokens have the same kinds, then
what is on the stacks of the one is like what is on the stacks of the other, and either both go on
or both stop at the same place. That a test of the stacks comes out the same in both runs is said
first (`Stacks.Alike.hasGroup_eq`, `Stacks.Alike.floor_eq`); what a step does to stacks that are
alike follows (`Automaton.Alike.step`), and from it what a whole run returns
(`Automaton.Alike.run`).
-/

namespace ScriptTree

variable (R : Token → Token → Prop)

/-! ### The stacks -/

/-- The same waits for operands in both runs, and a group leaves as many of them alone. -/
inductive Pending.Alike : Pending → Pending → Prop where
  | group {opener opener' : Token} (h : R opener opener') (base : Nat) :
      Pending.Alike (.group opener base) (.group opener' base)
  | unary {operator operator' : Token} (h : R operator operator') :
      Pending.Alike (.unary operator) (.unary operator')
  | binary {operator operator' : Token} (h : R operator operator') :
      Pending.Alike (.binary operator) (.binary operator')

/-- The stacks are of the same heights, and what they hold is alike in the same places. -/
structure Stacks.Alike (s s' : Stacks) : Prop where
  operands : List.Forall₂ (Expr.Alike R) s.operands s'.operands
  pending : List.Forall₂ (Pending.Alike R) s.pending s'.pending

/-- The automata have stacks that are alike, and wait for the same. -/
structure Automaton.Alike (a b : Automaton) : Prop where
  stack : Stacks.Alike R a.stack b.stack
  expecting : a.expecting = b.expecting

/-- Both runs do the same with a token. -/
inductive Automaton.Step.Alike : Automaton.Step → Automaton.Step → Prop where
  | take {a b : Automaton} (h : Automaton.Alike R a b) : Step.Alike (.take a) (.take b)
  | leave : Step.Alike .leave .leave
  | refuse {e f : ParseError} (h : ParseError.Alike R e f) : Step.Alike (.refuse e) (.refuse f)
  | fail {e f : ParseError} (h : ParseError.Alike R e f) : Step.Alike (.fail e) (.fail f)

variable {R}

private theorem Pending.Alike.isGroup_eq {p q : Pending} (h : Pending.Alike R p q) :
    p.isGroup = q.isGroup := by
  cases h <;> rfl

private theorem Pending.Alike.goesBefore_eq (hR : KeepsKinds R) {p q : Pending}
    (h : Pending.Alike R p q) (n : Nat) : p.goesBefore n = q.goesBefore n := by
  cases h with
  | group => rfl
  | unary => rfl
  | binary h => simp only [goesBefore, level?, hR h]

namespace Stacks.Alike

variable {s s' : Stacks}

theorem hasGroup_eq (h : Stacks.Alike R s s') : s.hasGroup = s'.hasGroup := by
  have (ps qs : List Pending) (hpq : List.Forall₂ (Pending.Alike R) ps qs) :
      ps.any Pending.isGroup = qs.any Pending.isGroup := by
    induction hpq with
    | nil => rfl
    | cons hp _ ih => rw [List.any_cons, List.any_cons, hp.isGroup_eq, ih]
  exact this _ _ h.pending

theorem floor_eq (h : Stacks.Alike R s s') : s.floor = s'.floor := by
  obtain ⟨es, ps⟩ := s
  obtain ⟨es', ps'⟩ := s'
  replace h : List.Forall₂ (Pending.Alike R) ps ps' := h.pending
  unfold floor
  induction h with
  | nil => rfl
  | cons hp _ ih =>
    cases hp with
    | group => rfl
    | unary => exact ih
    | binary => exact ih

/-- One operand is left in both runs, or in neither. -/
theorem single {near near' : Token} (hnear : Near R near near') :
    ∀ es es' : List Expr, List.Forall₂ (Expr.Alike R) es es' →
      ResultAlike R (Expr.Alike R)
        (match es with
          | [e] => .ok e
          | [] => .error (.invalid .noExpression near)
          | _ => .error (.invalid .adjacentOperands near))
        (match es' with
          | [e] => .ok e
          | [] => .error (.invalid .noExpression near')
          | _ => .error (.invalid .adjacentOperands near')) := by
  intro es es' hes
  cases hes with
  | nil => exact .error (hnear.invalid _)
  | cons he hes =>
    cases hes with
    | nil => exact .ok he
    | cons => exact .error (hnear.invalid _)

section

variable (hR : KeepsKinds R) {near near' : Token}

include hR

/-- The operator on top is applied in both runs, or in neither. -/
theorem reduce (hnear : Near R near near') (h : Stacks.Alike R s s') :
    ResultAlike R (Stacks.Alike R) (s.reduce near) (s'.reduce near') := by
  have hfloor := h.floor_eq
  obtain ⟨es, ps⟩ := s
  obtain ⟨es', ps'⟩ := s'
  obtain ⟨hes, hps⟩ := h
  simp only at hes hps
  unfold Stacks.reduce
  rw [hfloor]
  cases hps with
  | nil => exact .error (hnear.invalid _)
  | cons hp hps =>
    cases hp with
    | group h => exact .error (hnear.mismatchedParentheses h)
    | unary hop =>
      cases hes with
      | nil => exact .error (hnear.missing hop)
      | cons he hes =>
        simp only [hes.length_eq]
        split
        · exact .ok ⟨.cons (.unary hop he) hes, hps⟩
        · exact .error (hnear.missing hop)
    | binary hop =>
      cases hes with
      | nil => exact .error (hnear.missing hop)
      | cons hright hes =>
        cases hes with
        | nil => exact .error (hnear.missing hop)
        | cons hleft hes =>
          simp only [hes.length_eq]
          split
          · exact .ok ⟨.cons (.infixNode hR hleft hop hright) hes, hps⟩
          · exact .error (hnear.missing hop)

/-- The operators are applied up to the same one if the test does not tell the runs apart. -/
theorem reduceWhile (hnear : Near R near near') {applies : Pending → Bool}
    (happlies : ∀ p q, Pending.Alike R p q → applies p = applies q) (h : Stacks.Alike R s s') :
    ResultAlike R (Stacks.Alike R) (s.reduceWhile near applies)
      (s'.reduceWhile near' applies) := by
  unfold Stacks.reduceWhile
  rw [h.pending.length_eq]
  generalize s'.pending.length = n
  induction n generalizing s s' with
  | zero => exact .ok h
  | succ n ih =>
    obtain ⟨es, ps⟩ := s
    obtain ⟨es', ps'⟩ := s'
    unfold reduceUpTo
    obtain ⟨hes, hps⟩ := h
    simp only at hes hps
    cases hps with
    | nil => exact .ok ⟨hes, .nil⟩
    | cons hp hps =>
      simp only [List.head?_cons, happlies _ _ hp]
      split
      · exact .bind _ (reduce hR hnear ⟨hes, .cons hp hps⟩) fun _ _ => ih
      · exact .ok ⟨hes, .cons hp hps⟩

/-- What stands in the group is one operand in both runs, or in neither. -/
theorem closeGroup {close close' : Token} (hclose : R close close') (h : Stacks.Alike R s s') :
    ResultAlike R (Stacks.Alike R) (s.closeGroup close) (s'.closeGroup close') := by
  have hnear : Near R close close' := .ahead hclose
  refine .bind _ (h.reduceWhile hR hnear fun p q h => by rw [h.isGroup_eq]) ?_
  rintro ⟨es, ps⟩ ⟨es', ps'⟩ ⟨hes, hps⟩
  simp only at hes hps ⊢
  cases hps with
  | nil => exact .error (hnear.mismatchedParentheses hclose)
  | cons hp hps =>
    cases hp with
    | unary => exact .error (hnear.mismatchedParentheses hclose)
    | binary => exact .error (hnear.mismatchedParentheses hclose)
    | group _ base =>
      cases hes with
      | nil => exact .error (hnear.invalid _)
      | cons he hes =>
        simp only [hes.length_eq]
        split
        · exact .ok ⟨.cons (.grouping he) hes, hps⟩
        · split
          · exact .error (hnear.invalid _)
          · exact .error (hnear.invalid _)

/-- The expression ends in both runs, or in neither. -/
theorem finish (hnear : Near R near near') (h : Stacks.Alike R s s') :
    ResultAlike R (Expr.Alike R) (s.finish near) (s'.finish near') := by
  refine .bind _ (h.reduceWhile hR hnear fun p q h => by rw [h.isGroup_eq]) ?_
  rintro ⟨es, ps⟩ ⟨es', ps'⟩ ⟨hes, hps⟩
  simp only at hes hps ⊢
  cases hps with
  | nil => exact single hnear es es' hes
  | cons hp hps =>
    cases hp with
    | group hopener => exact .error (hnear.mismatchedParentheses hopener)
    | unary => exact single hnear es es' hes
    | binary => exact single hnear es es' hes

end

end Stacks.Alike

/-! ### The automaton -/

namespace Automaton.Alike

variable {a b : Automaton} {t u : Token}

private theorem operand (h : Automaton.Alike R a b) {e f : Expr} (he : Expr.Alike R e f) :
    Automaton.Alike R (a.operand e) (b.operand f) :=
  ⟨⟨.cons he h.stack.operands, h.stack.pending⟩, rfl⟩

private theorem wait {s s' : Stacks} (h : Stacks.Alike R s s') {p q : Pending}
    (hp : Pending.Alike R p q) : Automaton.Alike R (wait s p) (wait s' q) :=
  ⟨⟨h.operands, .cons hp h.pending⟩, rfl⟩

private theorem takeWith {next next' : Stacks → Automaton}
    (hnext : ∀ s s', Stacks.Alike R s s' → Automaton.Alike R (next s) (next' s'))
    {x y : Except ParseError Stacks} (h : ResultAlike R (Stacks.Alike R) x y) :
    Step.Alike R (takeWith next x) (takeWith next' y) := by
  cases h with
  | ok h => exact .take (hnext _ _ h)
  | error h => exact .fail h

variable (hR : KeepsKinds R)

include hR

/-- Related tokens do the same to automata that are alike. -/
theorem step (closing : Closing) (h : Automaton.Alike R a b) (ht : R t u) :
    Step.Alike R (a.step closing t) (b.step closing u) := by
  have hnear : Near R t u := .ahead ht
  unfold Automaton.step
  rw [hR ht, h.expecting, h.stack.hasGroup_eq]
  -- Every test is on the kind or on what the stacks have in common, so both sides branch alike.
  split
  · split
    · exact .refuse (hnear.invalid _)
    · exact .leave
  split
  · exact .take (h.operand (.leaf hR ht))
  split
  · rw [h.stack.operands.length_eq]
    exact .take (wait h.stack (.group ht _))
  split
  · split
    · refine takeWith ?_ (h.stack.closeGroup hR ht)
      exact fun _ _ hs => ⟨hs, rfl⟩
    · split
      · exact .leave
      · exact .refuse (hnear.mismatchedParentheses ht)
  split
  · exact .take (h.operand (.newline ht))
  split
  · exact .refuse (hnear.unexpected _)
  split
  · split
    · exact .take (wait h.stack (.unary ht))
    · split
      · next level _ =>
        refine takeWith (fun _ _ hs => wait hs (.binary ht)) (h.stack.reduceWhile hR hnear ?_)
        exact fun p q hpq => hpq.goesBefore_eq hR level
      · exact .refuse (hnear.unexpected _)
  · exact .leave

/-- Two runs over related tokens return expressions or errors that are alike, and leave related
tokens. -/
theorem run (closing : Closing) {last last' : Token} (hlast : Near R last last')
    {ts us : List Token} (hts : List.Forall₂ R ts us) (h : Automaton.Alike R a b) :
    ResultAlike R (Expr.Alike R) (a.run closing last ts).1 (b.run closing last' us).1 ∧
      List.Forall₂ R (a.run closing last ts).2 (b.run closing last' us).2 := by
  induction hts generalizing a b with
  | nil => exact ⟨h.stack.finish hR hlast, .nil⟩
  | cons ht hts ih =>
    have hstep := h.step hR closing ht
    unfold Automaton.run
    generalize a.step closing _ = x at hstep ⊢
    generalize b.step closing _ = y at hstep ⊢
    cases hstep with
    | take hnext => exact ih hnext
    | leave => exact ⟨h.stack.finish hR (.ahead ht), .cons ht hts⟩
    | refuse he => exact ⟨.error he, .cons ht hts⟩
    | fail he => exact ⟨.error he, hts⟩

end Automaton.Alike

end ScriptTree
