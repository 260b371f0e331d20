import ScriptTree.Grammar.Expr
import ScriptTree.Parse.Parser
import ScriptTree.Proofs.Expression.Reduction

/-!
# The automaton reads the grammar of expressions

Reading an expression succeeds exactly on the phrases of the grammar that end where no operator goes
on (`Parser.expression_ok_iff_derives`), and the tree is the one that the grammar gives.

**Soundness.** Two invariants go along with a run. `Stacks.Awaits ts s` says that the tokens `ts`
are rightly read, that an operand comes next, and what the stacks hold then: for every waiting
infix operator a phrase on its left, of at least its level, and under it nothing that should have
gone first. `Automaton.Short` says that there are too few operands for the operators that wait,
which is what an infix operator or a closing parenthesis in the place of an operand leads to. Each
token keeps the first invariant or brings about the second one, and no run ends well from there.

**Completeness.** A phrase of level `n`, read from stacks on which no operator goes before `n`,
leads to stacks that settle to the phrase's tree on top of them.
-/

namespace ScriptTree

open Stacks

/-! ### Too few operands -/

namespace Automaton

/-- The number of operands that the stacks have to hold for nothing to be missing so far. -/
def demand (a : Automaton) : Nat :=
  a.stack.pending.countP Pending.isBinary + if a.expecting then 0 else 1

/-- An operand is missing for good. -/
def Short (a : Automaton) : Prop :=
  a.stack.operands.length < a.demand

variable {a b : Automaton} {t : Token} {closing : Closing}

/-- Closing a group leaves as many operands as there were, up to those that its operators took. -/
private theorem length_operands_of_closeGroup {s s' : Stacks} (h : s.closeGroup t = .ok s') :
    s.operands.length + s'.pending.countP Pending.isBinary
      = s'.operands.length + s.pending.countP Pending.isBinary := by
  obtain ⟨inner, es, opener, ps, hset, rfl⟩ := closeGroup_eq_ok_iff.mp h
  have := hset.length_operands
  simp only [List.length_cons, List.countP_cons, Pending.isBinary] at this ⊢
  simpa using this

/-- What is missing stays missing. -/
private theorem Short.of_takes (h : a.Takes t b) (ha : a.Short) : b.Short := by
  unfold Short demand at ha ⊢
  cases h with
  | operand he _ => simp [he, operand] at ha ⊢; omega
  | newline he _ => simp [he, operand] at ha ⊢; omega
  | opener he _ => simpa [he, wait, Pending.isBinary] using ha
  | closer _ hs =>
    have := length_operands_of_closeGroup hs
    split at ha <;> simp <;> omega
  | prefixOp he _ => simpa [he, wait, Pending.isBinary] using ha
  | infixOp _ _ hs =>
    have := (reduceWhile_eq_ok_iff.mp hs).1.length_operands
    simp only [wait, List.countP_cons, Pending.isBinary, ↓reduceIte]
    split at ha <;> omega

/-- No expression ends well with an operand missing. -/
private theorem Short.finish_ne_ok (ha : a.Short) (last : Token) (e : Expr) :
    a.stack.finish last ≠ .ok e := by
  intro h
  have := (finish_eq_ok_iff.mp h).length_operands
  unfold Short demand at ha
  simp only [List.length_cons, List.length_nil, List.countP_nil] at this
  split at ha <;> omega

theorem Short.run_ne_ok (ha : a.Short) (last : Token) (ts : List Token) (e : Expr) :
    (a.run closing last ts).1 ≠ .ok e := by
  induction ts generalizing a with
  | nil => exact ha.finish_ne_ok last e
  | cons t ts ih =>
    unfold run
    split
    · next b hb => exact ih (ha.of_takes (step_eq_take_iff.mp hb))
    · exact ha.finish_ne_ok t e
    · simp
    · simp

end Automaton

/-! ### What the stacks hold -/

/-- The least level that the operand on the right of something that waits has to have. -/
def Pending.operandLevel : Pending → Nat
  | group _ _ => 0
  | unary _ => 5
  | binary op => op.kind.level?.elim 0 (· + 1)

theorem Pending.operandLevel_le (p : Pending) : p.operandLevel ≤ 5 := by
  cases p with
  | group => simp [operandLevel]
  | unary => simp [operandLevel]
  | binary op =>
    cases h : op.kind.level? with
    | none => simp [operandLevel, h]
    | some n =>
      have := Kind.level_le h
      simp only [operandLevel, h, Option.elim_some]
      omega

/-- What does not go before a level is content with an operand of it. -/
theorem Pending.operandLevel_le_of_goesBefore {p : Pending} {n : Nat} (hn : n ≤ 5)
    (h : p.goesBefore n = false) : p.operandLevel ≤ n := by
  cases p with
  | group => simp [operandLevel]
  | unary =>
    simp only [goesBefore, level?, Option.any_some, decide_eq_false_iff_not] at h
    omega
  | binary op =>
    cases hl : op.kind.level? with
    | none => simp [operandLevel, hl]
    | some m =>
      simp only [goesBefore, level?, hl, Option.any_some, decide_eq_false_iff_not] at h
      simp only [operandLevel, hl, Option.elim_some]
      omega

namespace Stacks

/-- The tokens are rightly read, an operand comes next, and this is what the stacks hold. -/
inductive Awaits : List Token → Stacks → Prop where
  | start : Awaits [] ⟨[], []⟩
  | group {ts : List Token} {es : List Expr} {ps : List Pending} {opener : Token} :
    opener.kind = .leftParen → Awaits ts ⟨es, ps⟩ →
      Awaits (ts ++ [opener]) ⟨es, .group opener es.length :: ps⟩
  | unary {ts : List Token} {es : List Expr} {ps : List Pending} {op : Token} :
    op.kind.isPrefixOperator = true → Awaits ts ⟨es, ps⟩ →
      Awaits (ts ++ [op]) ⟨es, .unary op :: ps⟩
  | binary {n : Nat} {ts ls : List Token} {es : List Expr} {ps : List Pending} {op : Token}
      {left : Expr} :
    op.kind.level? = some n → Expr.Derives n ls left →
      (∀ top ∈ ps.head?, top.goesBefore n = false) → Awaits ts ⟨es, ps⟩ →
      Awaits (ts ++ ls ++ [op]) ⟨left :: es, .binary op :: ps⟩

/-- The tokens are rightly read, and the last of them are a phrase of level `m` whose tree is on
top. -/
inductive Holds (m : Nat) : List Token → Stacks → Prop where
  | intro {ts ls : List Token} {es : List Expr} {ps : List Pending} {e : Expr} :
    Awaits ts ⟨es, ps⟩ → Expr.Derives m ls e → Holds m (ts ++ ls) ⟨e :: es, ps⟩

/-- While an operand comes next, there are as many operands as infix operators. -/
theorem Awaits.length_operands {ts : List Token} {s : Stacks} (h : Awaits ts s) :
    s.operands.length = s.pending.countP Pending.isBinary := by
  induction h with
  | start => rfl
  | group _ _ ih => simpa [Pending.isBinary] using ih
  | unary _ _ ih => simpa [Pending.isBinary] using ih
  | binary _ _ _ _ ih => simpa [List.countP_cons, Pending.isBinary] using ih

/-- The floor is not above the operands. -/
private theorem Awaits.floor_le {ts : List Token} {s : Stacks} (h : Awaits ts s) :
    s.floor ≤ s.operands.length := by
  induction h with
  | start => exact Nat.le_refl _
  | group => exact Nat.le_refl _
  | unary _ _ ih => exact ih
  | binary _ _ _ _ ih => exact Nat.le_succ_of_le ih

/-- A tree that suits what waits for it lets all operators that go before a level be applied; what
they leave is the tree of a phrase of that level. -/
private theorem Awaits.settle {k m : Nat} {ts ls : List Token} {s : Stacks} {e : Expr} (hk : k ≤ 5)
    (h : Awaits ts s) (he : Expr.Derives m ls e) (hkm : k ≤ m)
    (hfit : ∀ top ∈ s.pending.head?, top.operandLevel ≤ m) :
    ∃ s', Settles (Pending.goesBefore k) ⟨e :: s.operands, s.pending⟩ s' ∧ Holds k (ts ++ ls) s' ∧
      ∀ top ∈ s'.pending.head?, top.goesBefore k = false := by
  -- Along what waits, the latest first: each operator is applied, or it ends the reductions.
  induction h generalizing m ls e with
  | start => exact ⟨_, .refl _, .intro .start (he.of_le hkm), by simp⟩
  | group hopen h _ =>
    exact ⟨_, .refl _, .intro (.group hopen h) (he.of_le hkm),
      by simp [Pending.goesBefore, Pending.level?]⟩
  | @unary ts es ps op hop h ih =>
    -- No level is above 5, so a prefix operator goes first whatever `k` is.
    have hfive : 5 ≤ m := hfit (.unary op) rfl
    have hnode : Expr.Derives 5 (op :: ls) (.unary op e) := .unary hop (he.of_le hfive)
    obtain ⟨s', hset, hs', hstop⟩ := ih hnode hk fun top _ => top.operandLevel_le
    have hgoes : (Pending.unary op).goesBefore k = true := by
      simpa [Pending.goesBefore, Pending.level?] using hk
    refine ⟨s', .step (.unary h.floor_le) hgoes hset, ?_, hstop⟩
    rwa [List.append_assoc]
  | @binary n ts ls' es ps op left hn hleft htop h ih =>
    have hn4 := Kind.level_le hn
    have hm : n + 1 ≤ m := by simpa [Pending.operandLevel, hn] using hfit (.binary op) rfl
    have hgoes : (Pending.binary op).goesBefore k = decide (k ≤ n) := by
      simp [Pending.goesBefore, Pending.level?, hn]
    by_cases hkn : k ≤ n
    · have hnode : Expr.Derives n (ls' ++ op :: ls) (.infixNode left op e) :=
        .join hn hleft (he.of_le hm)
      obtain ⟨s', hset, hs', hstop⟩ := ih hnode hkn fun top ht =>
        Pending.operandLevel_le_of_goesBefore (by omega) (htop top ht)
      refine ⟨s', .step (.binary h.floor_le) (by simpa [hgoes] using hkn) hset, ?_, hstop⟩
      simpa using hs'
    · exact ⟨_, .refl _, .intro (.binary hn hleft htop h) (he.of_le hkm),
        by simpa [hgoes] using hkn⟩

/-- After a phrase that nothing binds more tightly than, all operators that go before a level can be
applied. -/
private theorem Holds.settle {k : Nat} {ts : List Token} {s : Stacks} (hk : k ≤ 5)
    (h : Holds 6 ts s) : ∃ s', Settles (Pending.goesBefore k) s s' ∧ Holds k ts s' ∧
      ∀ top ∈ s'.pending.head?, top.goesBefore k = false := by
  obtain ⟨h, he⟩ := h
  exact h.settle hk he (by omega) fun top _ => Nat.le_succ_of_le top.operandLevel_le

/-- After a phrase that nothing binds more tightly than, the reductions up to the innermost open
group leave one tree: of all tokens if no group is open, else of those behind the opening. -/
private theorem Holds.settle_group {ts : List Token} {s : Stacks} (h : Holds 6 ts s) :
    (∃ e, Settles (!·.isGroup) s ⟨[e], []⟩ ∧ Expr.Derives 0 ts e) ∨
      ∃ ts' opener ls e es ps, ts = ts' ++ opener :: ls ∧ opener.kind = .leftParen ∧
        Settles (!·.isGroup) s ⟨e :: es, .group opener es.length :: ps⟩ ∧
        Awaits ts' ⟨es, ps⟩ ∧ Expr.Derives 0 ls e := by
  obtain ⟨s', hset, hs', hstop⟩ := h.settle (Nat.zero_le 5)
  have hset := hset.mono fun _ => Pending.not_isGroup_of_goesBefore
  obtain @⟨_, ls, es, _, e, hwait, he⟩ := hs'
  cases hwait with
  | start => exact .inl ⟨e, hset, he⟩
  | @group ts' _ ps opener hopen hwait =>
    exact .inr ⟨ts', opener, ls, e, es, ps, by simp, hopen, hset, hwait, he⟩
  | unary => simp [Pending.goesBefore, Pending.level?] at hstop
  | binary hn => simp [Pending.goesBefore, Pending.level?, hn] at hstop

end Stacks

/-! ### Soundness -/

/-- What may stand after an expression: no operator that goes on with it, and no `)` that it would
have to answer for. -/
def CanFollow (closing : Closing) (k : Kind) : Prop :=
  k.level? = none ∧ k ≠ .kwNot ∧ (closing = .reject → k ≠ .rightParen)

namespace Automaton

/-- The tokens are rightly read, and this is where the automaton stands then. -/
inductive Reads : List Token → Automaton → Prop where
  | expecting {ts : List Token} {s : Stacks} : Awaits ts s → Reads ts ⟨s, true⟩
  | complete {ts : List Token} {s : Stacks} : Holds 6 ts s → Reads ts ⟨s, false⟩

variable {a b : Automaton} {t : Token} {ts : List Token} {closing : Closing}

/-- A `)` in the place of an operand leaves an operand missing. -/
private theorem short_of_closeGroup {s s' : Stacks} (h : Awaits ts s)
    (hs : s.closeGroup t = .ok s') : Short ⟨s', false⟩ := by
  have heq := h.length_operands
  have hlen := length_operands_of_closeGroup hs
  simp only [Short, demand, Bool.false_eq_true, ↓reduceIte]
  omega

/-- So does an infix operator. -/
private theorem short_of_reduceWhile {n : Nat} {s s' : Stacks} (h : Awaits ts s)
    (hs : s.reduceWhile t (Pending.goesBefore n) = .ok s') : Short (wait s' (.binary t)) := by
  have heq := h.length_operands
  have hlen := (reduceWhile_eq_ok_iff.mp hs).1.length_operands
  simp only [Short, demand, wait, List.countP_cons, Pending.isBinary, ↓reduceIte]
  omega

/-- A token is rightly read, or it stands in the place of an operand and leaves this missing. -/
theorem Reads.of_takes (ha : Reads ts a) (h : a.Takes t b) :
    Reads (ts ++ [t]) b ∨ a.expecting = true ∧ b.Short := by
  cases ha with
  | expecting hs =>
    cases h with
    | operand _ hk => exact .inl (.complete (.intro hs (.leaf hk)))
    | newline _ hk => exact .inl (.complete (.intro hs (.newline hk)))
    | opener _ hk => exact .inl (.expecting (.group hk hs))
    | prefixOp _ hk => exact .inl (.expecting (.unary hk hs))
    | closer _ hclose => exact .inr ⟨rfl, short_of_closeGroup hs hclose⟩
    | infixOp _ _ hred => exact .inr ⟨rfl, short_of_reduceWhile hs hred⟩
  | complete hs =>
    cases h with
    | operand he | newline he | opener he | prefixOp he => contradiction
    | @closer s' hk hclose =>
      left
      -- The stacks settle in one way only, so the group that closes is the one opened last.
      obtain ⟨inner, es, opener, ps, hset, rfl⟩ := closeGroup_eq_ok_iff.mp hclose
      rcases hs.settle_group with ⟨e, hset', -⟩ |
        ⟨ts', opener', ls, e, es', ps', rfl, hopen, hset', hwait, he⟩
      · cases hset.eq_of_stop hset' (by simp [Pending.isGroup]) (by simp)
      · cases hset.eq_of_stop hset' (by simp [Pending.isGroup]) (by simp [Pending.isGroup])
        have hgroup : Holds 6 (ts' ++ opener :: (ls ++ [t])) ⟨.grouping inner :: es, ps⟩ :=
          .intro hwait (.group hopen hk he)
        exact .complete (by simpa using hgroup)
    | @infixOp n s' hn _ hred =>
      left
      obtain ⟨s'', hset, hs'', hstop⟩ := hs.settle (k := n) (Nat.le_succ_of_le (Kind.level_le hn))
      obtain rfl : s'' = s' := Except.ok.inj
        ((reduceWhile_eq_ok_iff.mpr ⟨hset, hstop⟩).symm.trans hred)
      obtain ⟨hwait, he⟩ := hs''
      exact .expecting (.binary hn he hstop hwait)

private theorem takeWith_ne_leave (next : Stacks → Automaton) (x : Except ParseError Stacks) :
    takeWith next x ≠ .leave := by
  cases x <;> simp [takeWith]

/-- After a complete operand outside all groups, the expression ends before the tokens that may
follow it. -/
theorem step_eq_leave_iff (he : a.expecting = false) (hgroup : a.stack.hasGroup = false) :
    a.step closing t = .leave ↔ CanFollow closing t.kind := by
  cases hk : t.kind <;> cases closing <;>
    simp [step, CanFollow, hk, he, hgroup, Kind.isOperand, Kind.isOperator, Kind.level?,
      takeWith_ne_leave]

/-- An expression that ends well is a phrase. -/
theorem Reads.of_finish (ha : Reads ts a) {last : Token} {e : Expr}
    (he : a.stack.finish last = .ok e) : a.expecting = false ∧ Expr.Derives 0 ts e := by
  have hset := finish_eq_ok_iff.mp he
  cases ha with
  | expecting hs =>
    have hlen := hset.length_operands
    have heq := hs.length_operands
    simp only [List.length_cons, List.length_nil, List.countP_nil] at hlen
    omega
  | complete hs =>
    rcases hs.settle_group with ⟨e', hset', hder⟩ | ⟨_, _, _, _, _, _, _, _, hset', _⟩
    · cases hset.eq_of_stop hset' (by simp) (by simp)
      exact ⟨rfl, hder⟩
    · cases hset.eq_of_stop hset' (by simp) (by simp [Pending.isGroup])

/-- A run that ends well has read a phrase, up to a token that may follow it. -/
theorem Reads.of_run {last : Token} {rest remaining : List Token} {e : Expr} (ha : Reads ts a)
    (hlast : last.kind = .eof) (h : a.run closing last remaining = (.ok e, rest)) :
    ∃ used, remaining = used ++ rest ∧ Expr.Derives 0 (ts ++ used) e ∧
      CanFollow closing (rest.headD last).kind := by
  induction remaining generalizing ts a with
  | nil =>
    obtain ⟨he, rfl⟩ := Prod.mk.inj h
    refine ⟨[], rfl, ?_, by simp [CanFollow, hlast, Kind.level?]⟩
    simpa using (ha.of_finish he).2
  | cons t remaining ih =>
    unfold run at h
    split at h
    · next b hb =>
      have hb := step_eq_take_iff.mp hb
      rcases ha.of_takes hb with hreads | ⟨-, hshort⟩
      · obtain ⟨used, rfl, hder, hfollow⟩ := ih hreads h
        exact ⟨t :: used, rfl, by simpa using hder, hfollow⟩
      · -- The run ends well, so no operand can be missing.
        exact absurd (congrArg Prod.fst h) (hshort.run_ne_ok last remaining e)
    · next hleave =>
      obtain ⟨he, rfl⟩ := Prod.mk.inj h
      obtain ⟨hexp, hder⟩ := ha.of_finish he
      have hgroup : a.stack.hasGroup = false := by
        rw [(finish_eq_ok_iff.mp he).hasGroup_eq]
        rfl
      exact ⟨[], rfl, by simpa using hder, (step_eq_leave_iff hexp hgroup).mp hleave⟩
    · simp at h
    · simp at h

/-! ### Completeness -/

/-- A token that is taken is read on from the state that it leads to. -/
theorem Takes.run_cons (h : a.Takes t b) (last : Token) (rest : List Token) :
    a.run closing last (t :: rest) = b.run closing last rest := by
  rw [run, step_eq_take_iff.mpr h]

end Automaton

namespace Expr

/-- A phrase is read, and the stacks then settle to its tree on top of what they were. -/
theorem Derives.run_append {n : Nat} {ts : List Token} {e : Expr} (h : Derives n ts e)
    (es : List Expr) (ps : List Pending) (hfloor : floor ⟨[], ps⟩ ≤ es.length)
    (htop : n < 5 → ∀ top ∈ ps.head?, top.goesBefore n = false) :
    ∃ s, Settles (Pending.goesBefore n) s ⟨e :: es, ps⟩ ∧
      ∀ closing last rest, Automaton.run closing last ⟨⟨es, ps⟩, true⟩ (ts ++ rest)
        = Automaton.run closing last ⟨s, false⟩ rest := by
  induction h generalizing es ps with
  | leaf hk => exact ⟨_, .refl _, fun _ _ _ => (Automaton.Takes.operand rfl hk).run_cons ..⟩
  | newline hk => exact ⟨_, .refl _, fun _ _ _ => (Automaton.Takes.newline rfl hk).run_cons ..⟩
  | @group opener closer ts e hopen hclose _ ih =>
    obtain ⟨s, hset, hrun⟩ := ih es (.group opener es.length :: ps) (by simp)
      (by simp [Pending.goesBefore, Pending.level?])
    have hgroup : s.closeGroup closer = .ok ⟨.grouping e :: es, ps⟩ :=
      closeGroup_eq_ok_iff.mpr
        ⟨e, es, opener, ps, hset.mono fun _ => Pending.not_isGroup_of_goesBefore, rfl⟩
    refine ⟨_, .refl _, fun closing last rest => ?_⟩
    rw [List.cons_append, (Automaton.Takes.opener rfl hopen).run_cons, List.append_assoc]
    exact (hrun ..).trans ((Automaton.Takes.closer hclose hgroup).run_cons ..)
  | @unary op ts e hop _ ih =>
    obtain ⟨s, hset, hrun⟩ := ih es (.unary op :: ps) hfloor (by simp)
    have hnode :
        Settles (Pending.goesBefore 5) ⟨e :: es, .unary op :: ps⟩ ⟨.unary op e :: es, ps⟩ :=
      .step (.unary hfloor) rfl (.refl _)
    refine ⟨s, hset.trans hnode, fun closing last rest => ?_⟩
    rw [List.cons_append, (Automaton.Takes.prefixOp rfl hop).run_cons]
    exact hrun ..
  | @join n op ls rs left right hn _ _ ihl ihr =>
    -- The operator applies what the left operand leaves waiting, and then waits for the right one.
    have hn4 := Kind.level_le hn
    obtain ⟨s₁, hset₁, hrun₁⟩ := ihl es ps hfloor htop
    have hred (near : Token) : s₁.reduceWhile near (Pending.goesBefore n) = .ok ⟨left :: es, ps⟩ :=
      reduceWhile_eq_ok_iff.mpr ⟨hset₁, htop (by omega)⟩
    obtain ⟨s₂, hset₂, hrun₂⟩ := ihr (left :: es) (.binary op :: ps)
      (Nat.le_succ_of_le hfloor) (by simp [Pending.goesBefore, Pending.level?, hn])
    have hnode : Settles (Pending.goesBefore n) ⟨right :: left :: es, .binary op :: ps⟩
        ⟨.infixNode left op right :: es, ps⟩ :=
      .step (.binary hfloor) (by simp [Pending.goesBefore, Pending.level?, hn]) (.refl _)
    refine ⟨s₂, (hset₂.mono fun _ => Pending.goesBefore_of_le (Nat.le_succ n)).trans hnode, ?_⟩
    intro closing last rest
    rw [List.append_assoc, hrun₁, List.cons_append,
      (Automaton.Takes.infixOp hn (by simp) (hred op)).run_cons]
    exact hrun₂ ..
  | @tighter n ts e _ ih =>
    -- The same stacks serve: what goes before the tighter level goes before the looser one.
    obtain ⟨s, hset, hrun⟩ := ih es ps hfloor fun hn top ht =>
      Pending.goesBefore_eq_false_of_le (Nat.le_succ n) (htop (by omega) top ht)
    exact ⟨s, hset.mono fun _ => Pending.goesBefore_of_le (Nat.le_succ n), hrun⟩

/-- A phrase is read up to a token that may follow it. -/
theorem Derives.run_start {closing : Closing} {last : Token} {ts rest : List Token} {e : Expr}
    (h : Derives 0 ts e) (hfollow : CanFollow closing (rest.headD last).kind) :
    Automaton.start.run closing last (ts ++ rest) = (.ok e, rest) := by
  obtain ⟨s, hset, hrun⟩ := h.run_append [] [] (Nat.zero_le _) (by simp)
  have hset := hset.mono fun _ => Pending.not_isGroup_of_goesBefore
  have hfinish (near : Token) : s.finish near = .ok e := finish_eq_ok_iff.mpr hset
  rw [Automaton.start, hrun]
  cases rest with
  | nil => rw [Automaton.run, hfinish]
  | cons t rest =>
    have hleave : Automaton.step closing ⟨s, false⟩ t = .leave :=
      (Automaton.step_eq_leave_iff rfl hset.hasGroup_eq).mpr hfollow
    rw [Automaton.run, hleave]
    simp [hfinish]

end Expr

/-! ### Reading an expression -/

/-- The automaton reads exactly the phrases of the grammar that end before a token which may follow
an expression. -/
theorem Automaton.run_start_eq_ok_iff {closing : Closing} {last : Token} (hlast : last.kind = .eof)
    {ts rest : List Token} {e : Expr} :
    start.run closing last ts = (.ok e, rest) ↔
      ∃ used, ts = used ++ rest ∧ Expr.Derives 0 used e ∧
        CanFollow closing (rest.headD last).kind := by
  constructor
  · intro h
    exact (Reads.expecting .start).of_run hlast h
  · rintro ⟨used, rfl, hder, hfollow⟩
    exact hder.run_start hfollow

/-- The reading after `n` more tokens. -/
def Reading.skip (r : Reading) (n : Nat) : Reading :=
  { r with input.ahead := r.input.ahead.drop n }

namespace Parser

/-- An expression is read when it is a phrase that ends before a token which may follow it, and then
just its tokens are taken. -/
theorem expression_eq_ok_iff {closing : Closing} {r s : Reading} {e : Expr} :
    expression closing r = .ok e s ↔
      ∃ used, r.input.ahead = used ++ s.input.ahead ∧
        s = { r with input.ahead := s.input.ahead } ∧ Expr.Derives 0 used e ∧
        CanFollow closing s.input.current.kind := by
  have hrun : Automaton.start.run closing r.input.last r.input.ahead = (.ok e, s.input.ahead) ↔ _ :=
    Automaton.run_start_eq_ok_iff rfl
  unfold expression
  constructor
  · intro h
    split at h
    · next e' rest hok =>
      obtain ⟨rfl, rfl⟩ := EStateM.Result.ok.inj h
      obtain ⟨used, hahead, hder, hfollow⟩ := hrun.mp hok
      exact ⟨used, hahead, rfl, hder, hfollow⟩
    · contradiction
  · rintro ⟨used, hahead, hs, hder, hfollow⟩
    have hlast : s.input.last = r.input.last := by rw [hs]; rfl
    rw [Input.current, hlast] at hfollow
    rw [hrun.mpr ⟨used, hahead, hder, hfollow⟩]
    exact congrArg (EStateM.Result.ok e) hs.symm

/-- **The automaton and the grammar.** Wherever in a list of tokens an expression is read, and
whatever a `)` without a partner means there, reading takes exactly `n` tokens and returns the tree
`e` if and only if the next `n` tokens are a phrase with this tree and the token after them is one
that may follow it. Otherwise reading fails. -/
theorem expression_ok_iff_derives (closing : Closing) (r : Reading) :
    (∀ (e : Expr) (n : Nat),
      (n ≤ r.input.ahead.length ∧ expression closing r = .ok e (r.skip n)) ↔
        (n ≤ r.input.ahead.length ∧ Expr.Derives 0 (r.input.ahead.take n) e ∧
          CanFollow closing (r.skip n).input.current.kind)) ∧
    ((∃ err s, expression closing r = .error err s) ↔
      ¬ ∃ (e : Expr) (n : Nat), n ≤ r.input.ahead.length ∧
        Expr.Derives 0 (r.input.ahead.take n) e ∧
          CanFollow closing (r.skip n).input.current.kind) := by
  have hmain (e : Expr) (n : Nat) : expression closing r = .ok e (r.skip n) ↔
      Expr.Derives 0 (r.input.ahead.take n) e ∧
        CanFollow closing (r.skip n).input.current.kind := by
    rw [expression_eq_ok_iff]
    constructor
    · rintro ⟨used, hahead, -, hder, hfollow⟩
      have hused : used = r.input.ahead.take n :=
        List.append_cancel_right (hahead.symm.trans (List.take_append_drop n _).symm)
      exact ⟨hused ▸ hder, hfollow⟩
    · rintro ⟨hder, hfollow⟩
      exact ⟨_, (List.take_append_drop n _).symm, rfl, hder, hfollow⟩
  refine ⟨fun e n => and_congr_right fun _ => hmain e n, ?_⟩
  constructor
  · rintro ⟨err, s, herr⟩ ⟨e, n, -, hphrase⟩
    rw [(hmain e n).mpr hphrase] at herr
    contradiction
  · intro hnone
    cases hres : expression closing r with
    | error err s => exact ⟨err, s, rfl⟩
    | ok e s =>
      obtain ⟨used, hahead, hs, hder, hfollow⟩ := expression_eq_ok_iff.mp hres
      have hskip : s = r.skip used.length := by
        rw [hs, Reading.skip, hahead, List.drop_left]
      refine absurd ⟨e, used.length, ?_, ?_, hskip ▸ hfollow⟩ hnone
      · simp [hahead]
      · simpa [hahead] using hder

end Parser

end ScriptTree
