import Mathlib.Data.List.Basic
import ScriptTree.Proofs.Expression.Parentheses

/-!
# What stands in a group is read on its own

From the opening of a group to its end the automaton does just what it does with an expression that
begins there. The stacks that it builds up then stand on those on which the group was opened
(`Stacks.onto`). These stay as they are: their top is the open group, across which no operator is
applied, and no operator takes an operand from below it, which the floor prevents.

* `Stacks.Settles.of_onto`, `Automaton.Takes.of_onto`: what is done above an open group could be
  done without anything below.
* `Automaton.Taken.exists_inside`: so the tokens behind an open parenthesis are taken like the first
  ones of an expression.
* `Automaton.Taken.exists_operand`: and where an operand is complete, the last tokens are a phrase
  that nothing binds more tightly than, even if something else went wrong before them.
-/

namespace ScriptTree

/-! ### Stacks on other stacks -/

/-- What waits, when `n` more operands are complete below. -/
def Pending.raise (n : Nat) : Pending → Pending
  | group opener base => group opener (base + n)
  | unary operator => unary operator
  | binary operator => binary operator

@[simp] theorem Pending.goesBefore_raise (m n : Nat) (p : Pending) :
    (p.raise n).goesBefore m = p.goesBefore m := by
  cases p <;> rfl

namespace Stacks

/-- The stacks on which a group is opened, with the group on top. -/
def opened (s : Stacks) (opener : Token) : Stacks :=
  ⟨s.operands, .group opener s.operands.length :: s.pending⟩

/-- The first stacks put on top of the others. Open groups count the operands that are below. -/
def onto (s below : Stacks) : Stacks :=
  ⟨s.operands ++ below.operands,
    s.pending.map (Pending.raise below.operands.length) ++ below.pending⟩

variable {s s' below : Stacks} {opener t : Token} {p : Pending} {applies : Pending → Bool}

@[simp] theorem opened_operands (s : Stacks) (opener : Token) :
    (s.opened opener).operands = s.operands := rfl

private theorem floor_onto (s : Stacks) (below : Stacks) (opener : Token) :
    (s.onto (below.opened opener)).floor = s.floor + below.operands.length := by
  obtain ⟨es, ps⟩ := s
  induction ps with
  | nil => exact (Nat.zero_add _).symm
  | cons p ps ih =>
    cases p with
    | group => rfl
    | unary => exact ih
    | binary => exact ih

/-- What is taken from the front is taken from the first part, if enough is kept for the second. -/
private theorem exists_append_of_le {es bs kept : List Expr} (taken : List Expr)
    (h : es ++ bs = taken ++ kept) (hle : bs.length ≤ kept.length) :
    ∃ rest, es = taken ++ rest ∧ kept = rest ++ bs := by
  have hkept : kept <:+ es ++ bs := h ▸ List.suffix_append taken kept
  obtain ⟨rest, rfl⟩ := List.suffix_of_suffix_length_le (List.suffix_append es bs) hkept hle
  exact ⟨rest, List.append_cancel_right (by rw [h, List.append_assoc]), rfl⟩

/-- What is applied above an open group is applied to operands above it. -/
theorem Reduces.of_onto (h : (s.onto (below.opened opener)).Reduces p s') :
    ∃ s₀, s.Reduces p s₀ ∧ s' = s₀.onto (below.opened opener) := by
  obtain ⟨es, ps⟩ := s
  have hfloor (ps : List Pending) : floor ⟨[], (onto ⟨[], ps⟩ (below.opened opener)).pending⟩
      = floor ⟨[], ps⟩ + below.operands.length := floor_onto ⟨[], ps⟩ below opener
  rcases ps with _ | ⟨⟨opener', base⟩ | op | op, ps⟩
  · obtain ⟨rfl, -⟩ := List.cons.inj h.pending_eq
    exact absurd h.isGroup_eq_false (by simp [Pending.isGroup])
  · obtain ⟨rfl, -⟩ := List.cons.inj h.pending_eq
    exact absurd h.isGroup_eq_false (by simp [Pending.isGroup, Pending.raise])
  · change Reduces ⟨es ++ below.operands,
      .unary op :: (onto ⟨[], ps⟩ (below.opened opener)).pending⟩ p s' at h
    generalize hes : es ++ below.operands = fs at h
    obtain @⟨_, e, kept, _, hle⟩ := h
    rw [hfloor] at hle
    obtain ⟨rest, rfl, rfl⟩ := exists_append_of_le [e] hes (by omega)
    rw [List.length_append] at hle
    exact ⟨_, .unary (Nat.le_of_add_le_add_right hle), rfl⟩
  · change Reduces ⟨es ++ below.operands,
      .binary op :: (onto ⟨[], ps⟩ (below.opened opener)).pending⟩ p s' at h
    generalize hes : es ++ below.operands = fs at h
    obtain - | @⟨_, left, right, kept, _, hle⟩ := h
    rw [hfloor] at hle
    obtain ⟨rest, rfl, rfl⟩ := exists_append_of_le [right, left] hes (by omega)
    rw [List.length_append] at hle
    exact ⟨_, .binary (Nat.le_of_add_le_add_right hle), rfl⟩

theorem Settles.of_onto (h : Settles applies (s.onto (below.opened opener)) s') :
    ∃ s₀, Settles applies s s₀ ∧ s' = s₀.onto (below.opened opener) := by
  generalize htop : s.onto (below.opened opener) = top at h
  induction h generalizing s with
  | refl => exact ⟨s, .refl s, htop.symm⟩
  | step hred hp _ ih =>
    subst htop
    obtain ⟨s₁, hred₁, rfl⟩ := hred.of_onto
    obtain ⟨s₀, hset, rfl⟩ := ih rfl
    exact ⟨s₀, .step hred₁ hp hset, rfl⟩

/-- So are all operators that go first, for as long as one does. -/
private theorem reduceWhile_of_onto {n : Nat}
    (h : (s.onto (below.opened opener)).reduceWhile t (Pending.goesBefore n) = .ok s') :
    ∃ s₀, s.reduceWhile t (Pending.goesBefore n) = .ok s₀ ∧ s' = s₀.onto (below.opened opener) := by
  obtain ⟨hset, hstop⟩ := reduceWhile_eq_ok_iff.mp h
  obtain ⟨s₀, hset₀, rfl⟩ := hset.of_onto
  refine ⟨s₀, reduceWhile_eq_ok_iff.mpr ⟨hset₀, fun top htop => ?_⟩, rfl⟩
  obtain ⟨ps, hps⟩ := List.head?_eq_some_iff.mp htop
  simpa using hstop (top.raise below.operands.length) (by simp [onto, opened, hps])

/-- A group that closes above an open group was opened above it, unless it is this one. -/
private theorem closeGroup_of_onto (h : (s.onto (below.opened opener)).closeGroup t = .ok s') :
    (∃ s₀, s.closeGroup t = .ok s₀ ∧ s' = s₀.onto (below.opened opener)) ∨
      ∃ inner, Settles (!·.isGroup) s ⟨[inner], []⟩ ∧
        s' = ⟨.grouping inner :: below.operands, below.pending⟩ := by
  obtain ⟨inner, es, opener', ps, hset, rfl⟩ := closeGroup_eq_ok_iff.mp h
  obtain ⟨⟨es₀, ps₀⟩, hset₀, htop⟩ := hset.of_onto
  obtain ⟨hes, hps⟩ : inner :: es = es₀ ++ below.operands ∧ _ := Stacks.mk.inj htop
  have hlen : es.length + 1 = es₀.length + below.operands.length := by
    simpa using congrArg List.length hes
  rcases ps₀ with _ | ⟨⟨opener₀, base⟩ | op | op, ps₀⟩
  · right
    obtain ⟨hgroup, rfl⟩ := List.cons.inj hps
    obtain ⟨-, hbase⟩ := Pending.group.inj hgroup
    obtain ⟨e, rfl⟩ := List.length_eq_one_iff.mp (show es₀.length = 1 by omega)
    obtain ⟨rfl, rfl⟩ := List.cons.inj hes
    exact ⟨inner, hset₀, rfl⟩
  · left
    obtain ⟨hgroup, rfl⟩ := List.cons.inj hps
    obtain ⟨-, hbase⟩ := Pending.group.inj hgroup
    rw [opened_operands] at hbase
    obtain ⟨e, rest, rfl⟩ := List.exists_cons_of_length_eq_add_one
      (show es₀.length = base + 1 by omega)
    obtain ⟨rfl, rfl⟩ := List.cons.inj hes
    obtain rfl : rest.length = base := by
      rw [List.length_cons] at hlen
      omega
    exact ⟨_, closeGroup_eq_ok_iff.mpr ⟨inner, rest, opener₀, ps₀, hset₀, rfl⟩, rfl⟩
  · cases hps
  · cases hps

end Stacks

/-! ### The automaton inside a group -/

namespace Automaton

variable {a b c : Automaton} {opener t : Token} {below : Stacks} {us xs ys : List Token}

/-- The automaton with its stacks put on others. -/
def onto (a : Automaton) (below : Stacks) : Automaton :=
  ⟨a.stack.onto below, a.expecting⟩

/-- **A token above an open group** is taken as it would be if nothing were below, unless it closes
the group. -/
theorem Takes.of_onto (h : (c.onto (below.opened opener)).Takes t b) :
    (∃ c', c.Takes t c' ∧ b = c'.onto (below.opened opener)) ∨
      t.kind = .rightParen ∧ ∃ inner, Stacks.Settles (!·.isGroup) c.stack ⟨[inner], []⟩ := by
  cases h with
  | operand he hk => exact .inl ⟨_, .operand he hk, rfl⟩
  | newline he hk => exact .inl ⟨_, .newline he hk, rfl⟩
  | opener he hk =>
    refine .inl ⟨_, .opener he hk, ?_⟩
    simp [onto, wait, Stacks.onto, Stacks.opened, Pending.raise]
  | closer hk hclose =>
    rcases Stacks.closeGroup_of_onto hclose with ⟨s, hs, rfl⟩ | ⟨inner, hset, -⟩
    · exact .inl ⟨_, .closer hk hs, rfl⟩
    · exact .inr ⟨hk, inner, hset⟩
  | prefixOp he hk => exact .inl ⟨_, .prefixOp he hk, rfl⟩
  | infixOp hn hsign hred =>
    obtain ⟨s, hs, rfl⟩ := Stacks.reduceWhile_of_onto hred
    exact .inl ⟨_, .infixOp hn hsign hs, rfl⟩

/-- An opening parenthesis opens a group. -/
private theorem Takes.eq_of_leftParen (h : a.Takes t b) (ht : t.kind = .leftParen) :
    b = start.onto (a.stack.opened t) := by
  cases h with
  | operand _ hk => simp [ht, Kind.isOperand] at hk
  | newline _ hk => simp [ht] at hk
  | opener => rfl
  | closer hk => simp [ht] at hk
  | prefixOp _ hk => simp [ht, Kind.isPrefixOperator] at hk
  | infixOp hn => simp [ht, Kind.level?] at hn

/-- **What stands in a group** that is still open was taken like an expression of its own. -/
theorem Taken.exists_inside (h : Taken us a) (hus : us = xs ++ opener :: ys)
    (hopener : opener.kind = .leftParen) (hys : (unclosed ys).isSome = true) :
    ∃ b c, Taken xs b ∧ Taken ys c ∧ a = c.onto (b.stack.opened opener) := by
  induction h generalizing ys with
  | start => simp at hus
  | @snoc us t a a' hus' htakes ih =>
    rcases List.eq_nil_or_concat' ys with rfl | ⟨ys, u, rfl⟩
    · -- The group has just been opened.
      obtain ⟨rfl, ht⟩ := List.append_inj' hus rfl
      obtain rfl := List.singleton_inj.mp ht
      exact ⟨a, _, hus', .start, htakes.eq_of_leftParen hopener⟩
    · have hsplit : us ++ [t] = (xs ++ opener :: ys) ++ [u] := by simpa using hus
      obtain ⟨rfl, ht⟩ := List.append_inj' hsplit rfl
      obtain rfl := List.singleton_inj.mp ht
      rw [unclosed, unclosedFrom_append] at hys
      have hbefore : (unclosed ys).isSome = true := Option.isSome_of_isSome_bind hys
      obtain ⟨b, c, hb, hc, rfl⟩ := ih rfl hbefore
      rcases htakes.of_onto with ⟨c', hc', rfl⟩ | ⟨hclose, inner, hset⟩
      · exact ⟨b, c', hb, hc.snoc hc', rfl⟩
      · -- This token would close the group.
        have hnone : unclosedFrom [] ys = some [] := hc.laid.isBalanced_iff.mpr hset.hasGroup_eq
        simp [hnone, unclosedFrom, hclose] at hys

/-- The tokens that were taken are those that the run went along. -/
theorem Taken.run_append (h : Taken us a) (closing : Closing) (last : Token) (rest : List Token) :
    Automaton.start.run closing last (us ++ rest) = a.run closing last rest := by
  induction h generalizing rest with
  | start => rfl
  | snoc _ htakes ih => rw [List.append_assoc, List.singleton_append, ih, htakes.run_cons]

/-- Where one operand is left, the tokens are an expression. -/
theorem Taken.derives {e : Expr} (h : Taken us a)
    (hset : Stacks.Settles (!·.isGroup) a.stack ⟨[e], []⟩) : Expr.Derives 0 us e := by
  have hrun : Automaton.start.run .reject (.endMark 1) us = (.ok e, []) := by
    have hend := h.run_append .reject (.endMark 1) []
    rw [List.append_nil] at hend
    rw [hend, run, Stacks.finish_eq_ok_iff.mpr hset]
  obtain ⟨used, rfl, hder, -⟩ := (run_start_eq_ok_iff rfl).mp hrun
  rwa [List.append_nil]

/-- **A complete operand** is a phrase that nothing binds more tightly than. Its tokens are the last
ones, and every parenthesis among them has its partner there. -/
theorem Taken.exists_operand (h : Taken us a) (ha : a.expecting = false) :
    ∃ xs ls e, us = xs ++ ls ∧ IsBalanced ls ∧ Expr.Derives 6 ls e := by
  cases h with
  | start => contradiction
  | @snoc us t a b hus htakes =>
    cases htakes with
    | operand _ hk => exact ⟨us, [t], _, rfl, .operand hk, .leaf hk⟩
    | newline _ hk => exact ⟨us, [t], _, rfl, .singleton (by simp [hk]) (by simp [hk]), .newline hk⟩
    | opener | prefixOp | infixOp => contradiction
    | closer hk hclose =>
      -- The group that closes is the innermost one, so its parentheses are the last to match.
      obtain ⟨inner, es, opener, ps, hset, -⟩ := Stacks.closeGroup_eq_ok_iff.mp hclose
      obtain - | @⟨xs, ys, _, _, -, hopener, hys⟩ := hus.laid.of_settles hset
      obtain ⟨b, c, -, hc, rfl⟩ := hus.exists_inside rfl hopener (by rw [hys]; rfl)
      rcases Stacks.closeGroup_of_onto hclose with ⟨s, hs, -⟩ | ⟨inner, hset, -⟩
      · obtain ⟨_, _, _, _, hset, -⟩ := Stacks.closeGroup_eq_ok_iff.mp hs
        have hgroup : c.stack.hasGroup = false := hc.laid.isBalanced_iff.mp hys
        rw [hset.hasGroup_eq] at hgroup
        contradiction
      · exact ⟨xs, opener :: (ys ++ [t]), .grouping inner, by simp [Pending.token],
          .group hopener hk hys, .group hopener hk (hc.derives hset)⟩

end Automaton
end ScriptTree
