import ScriptTree.Proofs.Expression.Reading

/-!
# Where an expression goes wrong

A `Fault` divides the tokens at a syntax error into three parts: those that begin a phrase, those
that were read beyond them, and those from the place of the error on. The token after the first part
is one with which no phrase goes on, whatever follows; so the first part is the longest one that
begins a phrase. The error describes the first token of the third part, or the end of the input, and
reading stops before this token or right after it.

The second part is empty but for one case (`Overread`). The automaton takes an infix operator also
in the place of an operand, and the lack of the operand is noticed only when an operator is applied,
after more tokens of the expression. An operand in the place of that operator would have been right.

* `Awaits.begins`, `Reads.begins`: whatever is rightly read begins a phrase, as an operand and the
  missing parentheses complete it.
* `Reads.fault`: if a run from there fails, there is a fault.
-/

namespace ScriptTree

open Stacks

/-! ### Faults -/

/-- How an error names the place before the given tokens. -/
def foundAt : List Token → String
  | [] => "end of input"
  | t :: _ => t.describe

theorem describe_headD {last : Token} (hlast : last.kind = .eof) (ts : List Token) :
    (ts.headD last).describe = foundAt ts := by
  cases ts with
  | nil => exact Token.describe_of_eof hlast
  | cons t ts => rfl

/-- The tokens begin a phrase. -/
def Begins {α : Type} (G : List Token → α → Prop) (us : List Token) : Prop :=
  ∃ vs a, G (us ++ vs) a

/-- The kinds of the tokens that an expression can have. -/
def Kind.isExpressionPart (k : Kind) : Bool :=
  k.isOperand || k.isOperator || k == .leftParen || k == .rightParen || k == .dollar

/-- What is read beyond the longest beginning of a phrase: nothing, or an infix operator in the
place of an operand with more tokens of the expression. -/
inductive Overread : List Token → Prop where
  | nothing : Overread []
  | operator {op : Token} {ts : List Token} :
    op.kind.level?.isSome = true → op.kind.isPrefixOperator = false →
      (∀ t ∈ ts, t.kind.isExpressionPart = true) → Overread (op :: ts)

/-- An error that stopped the reading of `ahead` and left `rest`. -/
inductive Fault (begins rejects : List Token → Prop) (ahead : List Token) (e : ParseError)
    (rest : List Token) : Prop where
  | intro {us vs ws : List Token} :
    ahead = us ++ (vs ++ ws) → begins us → (∀ t ∈ (vs ++ ws).head?, rejects (us ++ [t])) →
      Overread vs → (vs ≠ [] → ∀ x : Token, x.kind.isOperand = true → begins (us ++ [x])) →
      e.found = foundAt ws → (rest = ws ∨ rest = ws.tail) → Fault begins rejects ahead e rest

namespace Fault

variable {begins begins' rejects rejects' : List Token → Prop} {ahead rest : List Token}
  {e : ParseError}

/-- The first token is wrong. -/
theorem here (hbegins : begins []) (hrejects : ∀ t ∈ ahead.head?, rejects [t])
    (hfound : e.found = foundAt ahead) (hrest : rest = ahead ∨ rest = ahead.tail) :
    Fault begins rejects ahead e rest :=
  @intro _ _ _ _ _ [] [] ahead rfl hbegins hrejects .nothing (absurd rfl ·) hfound hrest

/-- The first token is wrong, and it is overread. -/
private theorem overread {op : Token} {vs ws : List Token} (hbegins : begins [])
    (hreject : rejects [op]) (hover : Overread (op :: vs))
    (hoperand : ∀ x : Token, x.kind.isOperand = true → begins [x])
    (hfound : e.found = foundAt ws) (hrest : rest = ws ∨ rest = ws.tail) :
    Fault begins rejects (op :: (vs ++ ws)) e rest :=
  @intro _ _ _ _ _ [] (op :: vs) ws rfl hbegins (by simpa using hreject) hover (fun _ => hoperand)
    hfound hrest

/-- A fault stays a fault when there are tokens before it. -/
theorem append (h : Fault begins rejects ahead e rest) (ts : List Token)
    (hbegins : ∀ us, begins us → begins' (ts ++ us))
    (hrejects : ∀ us t, us ++ [t] <+: ahead → rejects (us ++ [t]) → rejects' (ts ++ (us ++ [t]))) :
    Fault begins' rejects' (ts ++ ahead) e rest := by
  obtain @⟨us, vs, ws, rfl, hus, hreject, hover, hoperand, hfound, hrest⟩ := h
  refine .intro (List.append_assoc ..).symm (hbegins us hus) (fun t ht => ?_) hover
    (fun hvs x hx => ?_) hfound hrest
  · obtain ⟨zs, hzs⟩ := List.head?_eq_some_iff.mp ht
    rw [List.append_assoc]
    exact hrejects us t ⟨zs, by simp [hzs]⟩ (hreject t ht)
  · rw [List.append_assoc]
    exact hbegins _ (hoperand hvs x hx)

theorem mono (h : Fault begins rejects ahead e rest) (hbegins : ∀ us, begins us → begins' us)
    (hrejects : ∀ us t, us ++ [t] <+: ahead → rejects (us ++ [t]) → rejects' (us ++ [t])) :
    Fault begins' rejects' ahead e rest :=
  h.append [] hbegins hrejects

end Fault

/-! ### What an error describes -/

namespace Stacks

variable {s : Stacks} {near : Token} {err : ParseError}

/-- An error of a reduction describes the token that made it necessary. -/
theorem found_of_reduce (h : s.reduce near = .error err) : err.found = near.describe := by
  unfold reduce at h
  repeat' split at h
  all_goals
    first
    | contradiction
    | obtain rfl := Except.error.inj h
      rfl

/-- An error of two steps is an error of one of them. -/
private theorem found_of_bind {α β : Type} {found : String} {x : Except ParseError α}
    {f : α → Except ParseError β} (hx : ∀ e, x = .error e → e.found = found)
    (hf : ∀ a e, f a = .error e → e.found = found) (h : (x >>= f) = .error err) :
    err.found = found := by
  cases x with
  | error e =>
    obtain rfl := Except.error.inj h
    exact hx e rfl
  | ok a => exact hf a err h

private theorem found_of_reduceWhile {applies : Pending → Bool}
    (h : s.reduceWhile near applies = .error err) : err.found = near.describe := by
  unfold reduceWhile at h
  generalize s.pending.length = n at h
  induction n generalizing s err with
  | zero => contradiction
  | succ n ih =>
    unfold reduceUpTo at h
    split at h
    · split at h
      · exact found_of_bind (fun _ => found_of_reduce) (fun _ _ => ih) h
      · contradiction
    · contradiction

private theorem found_of_closeGroup (h : s.closeGroup near = .error err) :
    err.found = near.describe := by
  refine found_of_bind (fun _ => found_of_reduceWhile) (fun s' e he => ?_) h
  repeat' split at he
  all_goals
    first
    | contradiction
    | obtain rfl := Except.error.inj he
      rfl

private theorem found_of_finish (h : s.finish near = .error err) : err.found = near.describe := by
  refine found_of_bind (fun _ => found_of_reduceWhile) (fun s' e he => ?_) h
  repeat' split at he
  all_goals
    first
    | contradiction
    | obtain rfl := Except.error.inj he
      rfl

end Stacks

namespace Automaton

variable {a b : Automaton} {t : Token} {closing : Closing} {err : ParseError}

theorem takeWith_eq_fail {next : Stacks → Automaton} {x : Except ParseError Stacks}
    (h : takeWith next x = .fail err) : x = .error err := by
  cases x with
  | ok s => contradiction
  | error e => rw [Step.fail.inj h]

theorem takeWith_ne_refuse {next : Stacks → Automaton} {x : Except ParseError Stacks} :
    takeWith next x ≠ .refuse err := by
  cases x <;> simp [takeWith]

/-- A token that is refused is the one that the error describes. -/
theorem found_of_step_refuse (h : a.step closing t = .refuse err) : err.found = t.describe := by
  unfold step at h
  repeat' split at h
  all_goals
    first
    | contradiction
    | exact absurd h takeWith_ne_refuse
    | obtain rfl := Step.refuse.inj h
      rfl

/-- So is a token that is taken when what came before it is wrong. -/
theorem found_of_step_fail (h : a.step closing t = .fail err) : err.found = t.describe := by
  unfold step at h
  repeat' split at h
  all_goals
    first
    | contradiction
    | exact found_of_closeGroup (takeWith_eq_fail h)
    | exact found_of_reduceWhile (takeWith_eq_fail h)

/-- A prefix operator is an operator. -/
theorem isOperator_of_isPrefixOperator {k : Kind} (h : k.isPrefixOperator = true) :
    k.isOperator = true := by
  revert h
  cases k <;> decide

/-- An expression takes only tokens that it can have. -/
theorem Takes.isExpressionPart (h : a.Takes t b) : t.kind.isExpressionPart = true := by
  cases h with
  | operand _ hk => simp [Kind.isExpressionPart, hk]
  | newline _ hk => simp [Kind.isExpressionPart, hk]
  | opener _ hk => simp [Kind.isExpressionPart, hk]
  | closer hk _ => simp [Kind.isExpressionPart, hk]
  | prefixOp _ hk => simp [Kind.isExpressionPart, isOperator_of_isPrefixOperator hk]
  | infixOp hn _ _ =>
    have hop : t.kind.isOperator = true := (Kind.isOperator_iff _).mpr (.inl (by simp [hn]))
    simp [Kind.isExpressionPart, hop]

/-- Wherever a run fails, the tokens that it took can stand in an expression, and the error is about
the token after them. -/
theorem exists_of_run {last : Token} {remaining rest : List Token} (hlast : last.kind = .eof)
    (h : a.run closing last remaining = (.error err, rest)) :
    ∃ vs ws, remaining = vs ++ ws ∧ (∀ t ∈ vs, t.kind.isExpressionPart = true) ∧
      err.found = foundAt ws ∧ (rest = ws ∨ rest = ws.tail) := by
  induction remaining generalizing a with
  | nil =>
    obtain ⟨herr, rfl⟩ := Prod.mk.inj h
    refine ⟨[], [], rfl, by simp, ?_, .inl rfl⟩
    rw [found_of_finish herr, ← describe_headD hlast, List.headD_nil]
  | cons t remaining ih =>
    unfold run at h
    split at h
    · next b hb =>
      obtain ⟨vs, ws, rfl, hpart, hfound, hrest⟩ := ih h
      have ht := (step_eq_take_iff.mp hb).isExpressionPart
      exact ⟨t :: vs, ws, rfl, List.forall_mem_cons.mpr ⟨ht, hpart⟩, hfound, hrest⟩
    · obtain ⟨herr, rfl⟩ := Prod.mk.inj h
      exact ⟨[], _, rfl, by simp, found_of_finish herr, .inl rfl⟩
    · next e hstep =>
      obtain ⟨herr, rfl⟩ := Prod.mk.inj h
      obtain rfl := Except.error.inj herr
      exact ⟨[], _, rfl, by simp, found_of_step_refuse hstep, .inl rfl⟩
    · next e hstep =>
      obtain ⟨herr, rfl⟩ := Prod.mk.inj h
      obtain rfl := Except.error.inj herr
      exact ⟨[], _, rfl, by simp, found_of_step_fail hstep, .inr rfl⟩

end Automaton

/-! ### What is rightly read begins a phrase -/

namespace Stacks

/-- A phrase that suits what waits for it is completed to a whole expression. -/
private theorem Awaits.begins_append {m : Nat} {ts ls : List Token} {s : Stacks} {e : Expr}
    (h : Awaits ts s) (he : Expr.Derives m ls e)
    (hfit : ∀ top ∈ s.pending.head?, top.operandLevel ≤ m) :
    Begins (Expr.Derives 0) (ts ++ ls) := by
  -- Along what waits, the latest first: an open group needs its closing, all else is complete.
  induction h generalizing m ls e with
  | start => exact ⟨[], e, by simpa using he.of_le (Nat.zero_le _)⟩
  | @group ts es ps opener hopen _ ih =>
    have hgroup : Expr.Derives 6 (opener :: (ls ++ [⟨.rightParen, ")", 1⟩])) (.grouping e) :=
      .group hopen rfl (he.of_le (Nat.zero_le _))
    obtain ⟨vs, e', he'⟩ := ih hgroup fun top _ => Nat.le_succ_of_le top.operandLevel_le
    exact ⟨⟨.rightParen, ")", 1⟩ :: vs, e', by simpa using he'⟩
  | @unary ts es ps op hop _ ih =>
    have hnode : Expr.Derives 5 (op :: ls) (.unary op e) :=
      .unary hop (he.of_le (hfit (.unary op) rfl))
    simpa using ih hnode fun top _ => top.operandLevel_le
  | @binary n ts ls' es ps op left hn hleft htop _ ih =>
    have hm : n + 1 ≤ m := by simpa [Pending.operandLevel, hn] using hfit (.binary op) rfl
    have hnode : Expr.Derives n (ls' ++ op :: ls) (.infixNode left op e) :=
      .join hn hleft (he.of_le hm)
    have hn4 := Kind.level_le hn
    simpa using ih hnode fun top ht =>
      Pending.operandLevel_le_of_goesBefore (by omega) (htop top ht)

/-- An operand completes what waits for one. -/
private theorem Awaits.begins_operand {ts : List Token} {s : Stacks} (h : Awaits ts s) {x : Token}
    (hx : x.kind.isOperand = true) : Begins (Expr.Derives 0) (ts ++ [x]) :=
  h.begins_append (.leaf hx) fun top _ => Nat.le_succ_of_le top.operandLevel_le

theorem Awaits.begins {ts : List Token} {s : Stacks} (h : Awaits ts s) :
    Begins (Expr.Derives 0) ts := by
  obtain ⟨vs, e, he⟩ := h.begins_operand (x := ⟨.identifier, "x", 1⟩) rfl
  exact ⟨_, e, by simpa using he⟩

theorem Holds.begins {ts : List Token} {s : Stacks} (h : Holds 6 ts s) :
    Begins (Expr.Derives 0) ts := by
  obtain ⟨h, he⟩ := h
  exact h.begins_append he fun top _ => Nat.le_succ_of_le top.operandLevel_le

/-- An open group has as many operands below it as infix operators wait there. -/
private theorem Awaits.base_eq {ts : List Token} {s : Stacks} (h : Awaits ts s) {opener : Token}
    {base : Nat} {qs ps : List Pending}
    (hpending : s.pending = qs ++ .group opener base :: ps) :
    base = ps.countP Pending.isBinary := by
  induction h generalizing qs with
  | start => simp at hpending
  | group _ h ih =>
    rcases List.cons_eq_append_iff.mp hpending with ⟨-, hcons⟩ | ⟨qs', -, hrest⟩
    · obtain ⟨hhead, rfl⟩ := List.cons.inj hcons
      cases hhead
      exact h.length_operands
    · exact ih hrest
  | unary _ _ ih | binary _ _ _ _ ih =>
    rcases List.cons_eq_append_iff.mp hpending with ⟨-, hcons⟩ | ⟨qs', -, hrest⟩
    · cases (List.cons.inj hcons).1
    · exact ih hrest

/-- Applying operators takes them off what waits. -/
theorem Settles.exists_pending {applies : Pending → Bool} {s s' : Stacks}
    (h : Settles applies s s') :
    ∃ qs, s.pending = qs ++ s'.pending := by
  induction h with
  | refl => exact ⟨[], rfl⟩
  | step hred _ _ ih =>
    obtain ⟨qs, hqs⟩ := ih
    exact ⟨_ :: qs, by rw [hred.pending_eq, hqs]; rfl⟩

/-- No group closes where an operand comes next. -/
private theorem Awaits.closeGroup_ne_ok {ts : List Token} {s : Stacks} (h : Awaits ts s)
    (close : Token) (s' : Stacks) : s.closeGroup close ≠ .ok s' := by
  intro hclose
  obtain ⟨inner, es, opener, ps, hset, -⟩ := closeGroup_eq_ok_iff.mp hclose
  obtain ⟨qs, hpending⟩ := hset.exists_pending
  have hbase := h.base_eq hpending
  have hlen := hset.length_operands
  have hcount := h.length_operands
  simp only [List.length_cons, List.countP_cons, Pending.isBinary] at hlen
  simp at hlen
  omega

end Stacks

namespace Automaton

variable {a b : Automaton} {t : Token} {ts : List Token} {closing : Closing}

/-- Whatever is rightly read begins an expression. -/
theorem Reads.begins (ha : Reads ts a) : Begins (Expr.Derives 0) ts := by
  cases ha with
  | expecting h => exact h.begins
  | complete h => exact h.begins

/-- Only an infix operator in the place of an operand leaves this missing. -/
private theorem Reads.of_takes_or_overread (ha : Reads ts a) (h : a.Takes t b) :
    Reads (ts ++ [t]) b ∨ b.Short ∧ t.kind.level?.isSome = true ∧
      t.kind.isPrefixOperator = false ∧
        ∀ x : Token, x.kind.isOperand = true → Begins (Expr.Derives 0) (ts ++ [x]) := by
  refine (ha.of_takes h).imp_right fun ⟨hexp, hshort⟩ => ⟨hshort, ?_⟩
  cases ha with
  | complete => contradiction
  | expecting hs =>
    have hcount := hs.length_operands
    cases h with
    | infixOp hn hsign _ => exact ⟨by simp [hn], hsign rfl, fun x => hs.begins_operand⟩
    | closer _ hclose => exact absurd hclose (hs.closeGroup_ne_ok _ _)
    | operand | newline | opener | prefixOp =>
      simp [Short, demand, operand, wait, Pending.isBinary] at hshort
      omega

/-- A token that is not taken ends the run, whatever comes after it. -/
private theorem run_cons_fst (hstop : ∀ b, a.step closing t ≠ .take b) (last last' : Token)
    (ts us : List Token) :
    (a.run closing last (t :: ts)).1 = (a.run closing last' (t :: us)).1 := by
  unfold run
  split
  · next b hb => exact absurd hb (hstop b)
  · rfl
  · rfl
  · rfl

/-- **A failing run.** If a run fails that goes on from what is rightly read, then there is a fault:
the tokens are divided into those that begin an expression, those that are overread, and those from
the place of the error on. -/
theorem Reads.fault {last : Token} {remaining rest : List Token} {err : ParseError}
    (ha : Reads ts a) (hlast : last.kind = .eof)
    (h : a.run closing last remaining = (.error err, rest)) :
    Fault (fun us => Begins (Expr.Derives 0) (ts ++ us))
      (fun us => ∀ last vs e, (a.run closing last (us ++ vs)).1 ≠ .ok e) remaining err rest := by
  have hhere : Begins (Expr.Derives 0) (ts ++ []) := by simpa using ha.begins
  induction remaining generalizing ts a with
  | nil =>
    obtain ⟨herr, rfl⟩ := Prod.mk.inj h
    refine .here hhere (by simp) ?_ (.inl rfl)
    rw [found_of_finish herr, ← describe_headD hlast, List.headD_nil]
  | cons t remaining ih =>
    have hreject (hstop : ∀ b, a.step closing t ≠ .take b) :
        ∀ u ∈ (t :: remaining).head?, ∀ last vs e, (a.run closing last ([u] ++ vs)).1 ≠ .ok e := by
      intro u hu last' vs e
      obtain rfl : t = u := by simpa using hu
      rw [List.singleton_append, run_cons_fst hstop last' last vs remaining, h]
      simp
    unfold run at h
    split at h
    · next b hb =>
      have htakes := step_eq_take_iff.mp hb
      have hrun (last : Token) (vs : List Token) :
          a.run closing last (t :: vs) = b.run closing last vs := htakes.run_cons ..
      rcases ha.of_takes_or_overread htakes with hreads | ⟨hshort, hlevel, hprefix, hoperand⟩
      · refine (ih hreads h (by simpa using hreads.begins)).append [t]
          (fun us hus => by simpa using hus) fun us u _ hrejects => ?_
        intro last vs e
        rw [List.singleton_append, List.cons_append, hrun]
        exact hrejects last vs e
      · -- The operand stays missing, so no continuation helps, and the run goes on to its failure.
        obtain ⟨vs, ws, rfl, hpart, hfound, hrest⟩ := exists_of_run hlast h
        refine .overread hhere (fun last zs e => ?_) (.operator hlevel hprefix hpart) hoperand
          hfound hrest
        rw [List.singleton_append, hrun]
        exact hshort.run_ne_ok last zs e
    · next hstep =>
      obtain ⟨herr, rfl⟩ := Prod.mk.inj h
      exact .here hhere (hreject (by simp [hstep])) (found_of_finish herr) (.inl rfl)
    · next e hstep =>
      obtain ⟨herr, rfl⟩ := Prod.mk.inj h
      obtain rfl := Except.error.inj herr
      exact .here hhere (hreject (by simp [hstep])) (found_of_step_refuse hstep) (.inl rfl)
    · next e hstep =>
      obtain ⟨herr, rfl⟩ := Prod.mk.inj h
      obtain rfl := Except.error.inj herr
      exact .here hhere (hreject (by simp [hstep])) (found_of_step_fail hstep) (.inr rfl)

end Automaton

end ScriptTree
