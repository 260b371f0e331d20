import ScriptTree.Proofs.Expression.Failure

/-!
# What can be wrong with an expression

An open group closes over one operand or over none, never over two: a second operand in a group is
refused at once. The invariant that shows it is about the room for operands. Above the innermost
open group every infix operator makes room for one operand, and the group itself counts those before
it. While an operand comes next there are no more operands than room (`Automaton.Fits`), and after
one there is at most one more.

With it each error of the automaton is traced to its cause: `Stacks.error_of_closeGroup` and
`Stacks.error_of_finish` for the ends of groups and of the expression, `Automaton.refuses_of_step`
and `Automaton.error_of_fail` for single tokens.
-/

namespace ScriptTree

/-! ### Room for operands -/

/-- The operator that waits, unless this is an open group. -/
def Pending.operator? : Pending → Option Token
  | group _ _ => none
  | unary operator => some operator
  | binary operator => some operator

namespace Stacks

/-- The number of operands that may stand below what waits. -/
def room : List Pending → Nat
  | [] => 0
  | .group _ base :: _ => base
  | .unary _ :: ps => room ps
  | .binary _ :: ps => room ps + 1

/-- No open group counts more operands before it than there was room for. -/
def GroupsFit : List Pending → Prop
  | [] => True
  | .group _ base :: ps => base ≤ room ps ∧ GroupsFit ps
  | .unary _ :: ps => GroupsFit ps
  | .binary _ :: ps => GroupsFit ps

variable {s s' : Stacks} {p : Pending} {applies : Pending → Bool} {near : Token} {e : ParseError}

/-- An infix operator that is applied takes as many operands away as room. -/
private theorem Reduces.room_eq (h : s.Reduces p s') :
    s.operands.length + room s'.pending = s'.operands.length + room s.pending := by
  cases h with
  | unary => rfl
  | binary =>
    simp only [List.length_cons, room]
    omega

private theorem Reduces.groupsFit (h : s.Reduces p s') (hs : GroupsFit s.pending) :
    GroupsFit s'.pending := by
  cases h with
  | unary => exact hs
  | binary => exact hs

theorem Settles.room_eq (h : Settles applies s s') :
    s.operands.length + room s'.pending = s'.operands.length + room s.pending := by
  induction h with
  | refl => rfl
  | step hred _ _ ih =>
    have := hred.room_eq
    omega

private theorem Settles.groupsFit (h : Settles applies s s') (hs : GroupsFit s.pending) :
    GroupsFit s'.pending := by
  induction h with
  | refl => exact hs
  | step hred _ _ ih => exact ih (hred.groupsFit hs)

end Stacks

namespace Automaton

/-- There are no more operands than there is room for, apart from one that is just complete. -/
structure Fits (a : Automaton) : Prop where
  groups : Stacks.GroupsFit a.stack.pending
  operands : a.stack.operands.length ≤ Stacks.room a.stack.pending + if a.expecting then 0 else 1

theorem fits_start : start.Fits :=
  ⟨trivial, Nat.le_refl _⟩

variable {a b : Automaton} {t : Token}

/-- A complete operand leaves room for no other. -/
private theorem Fits.operands_le (h : a.Fits) :
    a.stack.operands.length ≤ Stacks.room a.stack.pending + 1 := by
  have := h.operands
  split at this <;> omega

/-- Every token that is taken keeps to the room. -/
theorem Fits.of_takes (ha : a.Fits) (h : a.Takes t b) : b.Fits := by
  obtain ⟨hgroups, hoperands⟩ := ha
  cases h with
  | operand he =>
    rw [he] at hoperands
    exact ⟨hgroups, Nat.succ_le_succ hoperands⟩
  | newline he =>
    rw [he] at hoperands
    exact ⟨hgroups, Nat.succ_le_succ hoperands⟩
  | opener he =>
    rw [he] at hoperands
    exact ⟨⟨hoperands, hgroups⟩, Nat.le_refl _⟩
  | closer _ hclose =>
    obtain ⟨inner, es, opener, ps, hset, rfl⟩ := Stacks.closeGroup_eq_ok_iff.mp hclose
    obtain ⟨hbase, hrest⟩ := hset.groupsFit hgroups
    exact ⟨hrest, Nat.succ_le_succ hbase⟩
  | prefixOp he =>
    rw [he] at hoperands
    exact ⟨hgroups, hoperands⟩
  | infixOp _ _ hred =>
    have hset := (Stacks.reduceWhile_eq_ok_iff.mp hred).1
    have hroom := hset.room_eq
    refine ⟨hset.groupsFit hgroups, ?_⟩
    simp only [wait, Stacks.room, ↓reduceIte, Nat.add_zero]
    split at hoperands <;> omega

end Automaton

/-! ### Errors of the stacks -/

namespace Stacks

variable {s s' : Stacks} {applies : Pending → Bool} {near : Token} {e : ParseError}

/-- The operator on top has too few operands in its group. -/
inductive Starves : Stacks → Token → Prop where
  | unary {es : List Expr} {op : Token} {ps : List Pending} :
    es.length ≤ floor ⟨[], ps⟩ → Starves ⟨es, .unary op :: ps⟩ op
  | binary {es : List Expr} {op : Token} {ps : List Pending} :
    es.length < floor ⟨[], ps⟩ + 2 → Starves ⟨es, .binary op :: ps⟩ op

/-- An operator that cannot be applied has too few operands. -/
theorem starves_of_reduce {top : Pending} (htop : top ∈ s.pending.head?)
    (hgroup : top.isGroup = false) (h : s.reduce near = .error e) :
    ∃ op, s.Starves op ∧ e = .missing op near := by
  obtain ⟨es, ps⟩ := s
  obtain ⟨ps, rfl⟩ := List.head?_eq_some_iff.mp htop
  cases top with
  | group => contradiction
  | unary op =>
    rcases es with _ | ⟨operand, es⟩
    · exact ⟨op, .unary (Nat.zero_le _), (Except.error.inj h).symm⟩
    · simp only [reduce] at h
      split at h
      · contradiction
      · next hfloor =>
        rw [floor_unary, Nat.not_le] at hfloor
        exact ⟨op, .unary hfloor, (Except.error.inj h).symm⟩
  | binary op =>
    rcases es with _ | ⟨right, _ | ⟨left, es⟩⟩
    · exact ⟨op, .binary (by simp), (Except.error.inj h).symm⟩
    · exact ⟨op, .binary (by simp), (Except.error.inj h).symm⟩
    · simp only [reduce] at h
      split at h
      · contradiction
      · next hfloor =>
        rw [floor_binary, Nat.not_le] at hfloor
        exact ⟨op, .binary (Nat.add_lt_add_right hfloor 2), (Except.error.inj h).symm⟩

/-- So it is with one of several operators that are applied one after another. -/
theorem starves_of_reduceWhile (hgroup : ∀ p, applies p = true → p.isGroup = false)
    (h : s.reduceWhile near applies = .error e) :
    ∃ s' op, Settles applies s s' ∧ s'.Starves op ∧ e = .missing op near := by
  unfold reduceWhile at h
  generalize s.pending.length = n at h
  induction n generalizing s with
  | zero => contradiction
  | succ n ih =>
    unfold reduceUpTo at h
    split at h
    · next top htop =>
      split at h
      · next happ =>
        cases hred : s.reduce near with
        | error e' =>
          rw [hred] at h
          obtain rfl := Except.error.inj h
          obtain ⟨op, hop, he⟩ := starves_of_reduce htop (hgroup _ happ) hred
          exact ⟨s, op, .refl s, hop, he⟩
        | ok s' =>
          rw [hred] at h
          obtain ⟨p, hp⟩ := reduce_eq_ok_iff.mp hred
          obtain ⟨s'', op, hset, hop, he⟩ := ih h
          obtain rfl : top = p := by simpa [hp.pending_eq] using htop.symm
          exact ⟨s'', op, .step hp happ hset, hop, he⟩
      · contradiction
    · contradiction

/-- The error misses an operand of an operator that waits. -/
def Lacks (s : Stacks) (near : Token) (e : ParseError) : Prop :=
  ∃ p ∈ s.pending, ∃ operator, p.operator? = some operator ∧ e = .missing operator near

theorem Lacks.exists_missing (h : s.Lacks near e) : ∃ operator, e = .missing operator near := by
  obtain ⟨_, -, operator, -, he⟩ := h
  exact ⟨operator, he⟩

private theorem Lacks.mono (h : s'.Lacks near e) (hsub : s'.pending ⊆ s.pending) : s.Lacks near e :=
  h.imp fun _ => And.imp_left (@hsub _)

private theorem Starves.lacks {op : Token} (h : s.Starves op) :
    s.Lacks near (.missing op near) := by
  cases h with
  | unary | binary => exact ⟨_, List.mem_cons_self, op, rfl, rfl⟩

/-- An error of operators that are applied misses an operand, if no open group is among them. -/
theorem lacks_of_reduceWhile (hgroup : ∀ p, applies p = true → p.isGroup = false)
    (h : s.reduceWhile near applies = .error e) : s.Lacks near e := by
  obtain ⟨s', op, hset, hop, rfl⟩ := starves_of_reduceWhile hgroup h
  obtain ⟨qs, hqs⟩ := hset.exists_pending
  exact hop.lacks.mono (hqs ▸ List.subset_append_right ..)

/-- What remains once nothing can be applied any more is nothing, or begins with an open group. -/
private theorem pending_of_stop (hstop : ∀ top ∈ s.pending.head?, (!top.isGroup) = false) :
    s.pending = [] ∨ ∃ opener base ps, s.pending = .group opener base :: ps := by
  rcases hps : s.pending with _ | ⟨⟨opener, base⟩ | op | op, ps⟩
  · exact .inl rfl
  · exact .inr ⟨opener, base, ps, rfl⟩
  · simp [hps, Pending.isGroup] at hstop
  · simp [hps, Pending.isGroup] at hstop

/-- **A group that does not close** has an operator without an operand, or nothing in it. -/
theorem error_of_closeGroup {a : Automaton} (ha : a.Fits) (hopen : a.stack.hasGroup = true)
    (h : a.stack.closeGroup near = .error e) :
    a.stack.Lacks near e ∨ e = .invalid .emptyParentheses near := by
  unfold closeGroup at h
  cases hred : a.stack.reduceWhile near (!·.isGroup) with
  | error e' =>
    rw [hred] at h
    obtain rfl := Except.error.inj h
    exact .inl (lacks_of_reduceWhile (by simp) hred)
  | ok s =>
    right
    rw [hred] at h
    obtain ⟨hset, hstop⟩ := reduceWhile_eq_ok_iff.mp hred
    rcases pending_of_stop hstop with hnil | ⟨opener, base, ps, hps⟩
    · rw [hset.hasGroup_eq, hasGroup, hnil] at hopen
      contradiction
    -- There is room for one operand above the opening, so two cannot stand there.
    have hroom := hset.room_eq
    have hfits := ha.operands_le
    obtain ⟨es, _⟩ := s
    obtain rfl : _ = Pending.group opener base :: ps := hps
    simp only [room] at hroom
    rcases es with _ | ⟨inner, es⟩
    · exact (Except.error.inj h).symm
    rw [List.length_cons] at hroom
    simp only [bind, Except.bind] at h
    split at h
    · contradiction
    · rw [if_pos (by omega)] at h
      exact (Except.error.inj h).symm

/-- **An expression that does not end** has an operator without an operand, or an open group, or
no operand at all. -/
theorem error_of_finish {a : Automaton} (ha : a.Fits) (h : a.stack.finish near = .error e) :
    a.stack.Lacks near e ∨
      (∃ opener base, .group opener base ∈ a.stack.pending ∧
        e = .mismatchedParentheses near.describe opener.line) ∨
      e = .invalid .noExpression near := by
  unfold finish at h
  cases hred : a.stack.reduceWhile near (!·.isGroup) with
  | error e' =>
    rw [hred] at h
    obtain rfl := Except.error.inj h
    exact .inl (lacks_of_reduceWhile (by simp) hred)
  | ok s =>
    right
    rw [hred] at h
    obtain ⟨hset, hstop⟩ := reduceWhile_eq_ok_iff.mp hred
    obtain ⟨qs, hqs⟩ := hset.exists_pending
    have hroom := hset.room_eq
    have hfits := ha.operands_le
    obtain ⟨es, ps⟩ := s
    rcases pending_of_stop hstop with rfl | ⟨opener, base, ps, rfl⟩
    · right
      -- There is room for no operand below, so two cannot be left.
      rcases es with _ | ⟨_, _ | ⟨_, _⟩⟩
      · exact (Except.error.inj h).symm
      · contradiction
      · simp only [room, List.length_cons] at hroom
        omega
    · exact .inl ⟨opener, base, by simp [hqs], (Except.error.inj h).symm⟩

end Stacks

/-! ### Errors of the automaton -/

namespace Automaton

variable {a : Automaton} {t : Token} {closing : Closing} {e : ParseError}

/-- The ways in which a token is refused: as a second operand in a group, as a closing parenthesis
without a partner, and as a prefix operator behind an operand. -/
inductive Refuses (closing : Closing) (a : Automaton) (t : Token) : ParseError → Prop where
  | second : a.expecting = false → a.stack.hasGroup = true →
    (t.kind.isOperand = true ∨ t.kind = .leftParen) →
      Refuses closing a t (.invalid .adjacentOperands t)
  | stray : t.kind = .rightParen → a.stack.hasGroup = false → closing = .reject →
    Refuses closing a t (.mismatchedParentheses t.describe t.line)
  | negation : t.kind = .kwNot → a.expecting = false →
    Refuses closing a t (.unexpected .operatorBeforeNot t)

/-- **A token is refused** in just these ways. -/
theorem refuses_of_step (h : a.step closing t = .refuse e) : a.Refuses closing t e := by
  unfold step at h
  split at h
  · next hnext =>
    split at h
    · next hgroup =>
      obtain rfl := Step.refuse.inj h
      simp only [Bool.and_eq_true, Bool.not_eq_true', Bool.or_eq_true, beq_iff_eq] at hnext
      exact .second hnext.1 hgroup hnext.2
    · contradiction
  split at h
  · contradiction
  split at h
  · contradiction
  split at h
  · next hclose =>
    split at h
    · exact absurd h takeWith_ne_refuse
    · next hgroup =>
      split at h
      · contradiction
      · obtain rfl := Step.refuse.inj h
        exact .stray hclose (by simpa using hgroup) rfl
  split at h
  · contradiction
  split at h
  · next hnot =>
    obtain rfl := Step.refuse.inj h
    exact .negation hnot.1 (by simpa using hnot.2)
  split at h
  · next hnot hop =>
    split at h
    · contradiction
    · next hsign =>
      split at h
      · exact absurd h takeWith_ne_refuse
      · -- An operator that is no infix one is `NOT`, which is taken before an operand.
        next hlevel =>
        have hk := ((Kind.isOperator_iff _).mp hop).resolve_left (by simp [hlevel])
        simp_all [Kind.isPrefixOperator]
  · contradiction

/-- **A token is taken in vain** if it closes a group or is an infix operator, and what came before
it lacks an operand. -/
theorem error_of_fail (ha : a.Fits) (h : a.step closing t = .fail e) :
    (t.kind = .rightParen ∨ t.kind.level?.isSome = true) ∧ a.stack.Lacks t e ∨
      t.kind = .rightParen ∧ e = .invalid .emptyParentheses t := by
  unfold step at h
  repeat' split at h
  all_goals try contradiction
  · next hclose hopen =>
    have herror := Stacks.error_of_closeGroup ha hopen (takeWith_eq_fail h)
    exact herror.imp (⟨.inl hclose, ·⟩) (⟨hclose, ·⟩)
  · next n hn =>
    refine .inl ⟨.inr (by simp [hn]), Stacks.lacks_of_reduceWhile (fun p hp => ?_)
      (takeWith_eq_fail h)⟩
    simpa using Pending.not_isGroup_of_goesBefore hp

end Automaton

end ScriptTree
