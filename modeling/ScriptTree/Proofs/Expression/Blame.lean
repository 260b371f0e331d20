import ScriptTree.Proofs.Expression.Parentheses

/-!
# Operators without an operand

Operators are applied in the order of their strength, and each takes the operands that are there. So
the operator for which none is left need not be the one after which none was written: a later
operator of the same group that binds more tightly, and has nothing to its right, takes an operand
that stands to its left (`Blamed.robbed`).

The invariant is about the operands below what waits (`Provided`). An infix operator has one to its
left, above the innermost open group, or it can be blamed already. While an operand comes next, the
operator at the end of the tokens has nothing to its right. If nothing follows that can begin an
operand, then it and all infix operators that wait in its group can be blamed, as they are ordered
by strength (`Ascending`).

The main result is `Automaton.Ends.blamed`.
-/

namespace ScriptTree

/-! ### Blame -/

/-- The kinds of the tokens that can begin an operand. -/
def Kind.beginsOperand (k : Kind) : Bool :=
  k.isOperand || k == .leftParen || k == .dollar || k.isPrefixOperator

/-- After these tokens of an expression an operand comes next. -/
def OperandDue (us : List Token) : Prop :=
  ∀ t ∈ us.getLast?, t.kind = .leftParen ∨ t.kind.isOperator = true

/-- The operator, which has these tokens of the expression before it and after it, lacks an operand:
the next token cannot begin one, or it stands in the place of one itself. -/
inductive LacksOperand (before : List Token) (op : Token) (after : List Token) : Prop where
  | right {t : Token} :
    t ∈ after.head? → t.kind.beginsOperand = false → LacksOperand before op after
  | left : op.kind.isPrefixOperator = false → OperandDue before → LacksOperand before op after

/-- An infix operator leaves the operand between them to the operator `q`, which comes after it and
the tokens `vs`: a prefix operator in the place of an operand, or an infix operator of a tighter
level. -/
def YieldsTo (op : Token) (vs : List Token) (q : Token) : Prop :=
  ∃ m, op.kind.level? = some m ∧
    (q.kind.isPrefixOperator = true ∧ OperandDue (op :: vs) ∨
      ∃ n, q.kind.level? = some n ∧ m < n)

/-- The operator lacks an operand, or a later operator of the same group to which it yields has
nothing to its right and took one of its operands. -/
inductive Blamed (before : List Token) (op : Token) (after : List Token) : Prop where
  | lacks : LacksOperand before op after → Blamed before op after
  | robbed {vs ws : List Token} {q t : Token} :
    after = vs ++ q :: ws → IsBalanced vs → t ∈ ws.head? → t.kind.beginsOperand = false →
      YieldsTo op vs q → Blamed before op after

/-- The operator stands among the tokens and can be blamed there, when `after` comes next. -/
def Blames (us after : List Token) (op : Token) : Prop :=
  ∃ xs ys, us = xs ++ op :: ys ∧ Blamed xs op (ys ++ after)

variable {us vs after after' : List Token} {op t : Token} {ps : List Pending} {s s' : Stacks}
  {applies : Pending → Bool} {n : Nat}

private theorem LacksOperand.append {before : List Token} (h : LacksOperand before op after)
    (vs : List Token) : LacksOperand before op (after ++ vs) := by
  cases h with
  | right ht hk =>
    obtain ⟨ws, rfl⟩ := List.head?_eq_some_iff.mp ht
    exact .right rfl hk
  | left hsign hdue => exact .left hsign hdue

/-- More tokens after these do not change who is to blame. -/
theorem Blamed.append {before : List Token} (h : Blamed before op after) (vs : List Token) :
    Blamed before op (after ++ vs) := by
  cases h with
  | lacks h => exact .lacks (h.append vs)
  | robbed hafter hvs ht hk hyields =>
    obtain ⟨ws, rfl⟩ := List.head?_eq_some_iff.mp ht
    exact .robbed (by rw [hafter, List.append_assoc]; rfl) hvs rfl hk hyields

private theorem Blames.append (h : Blames us [] op) (after : List Token) : Blames us after op := by
  obtain ⟨xs, ys, hus, h⟩ := h
  exact ⟨xs, ys, hus, by simpa using h.append after⟩

/-- A token that comes next can be put to the others. -/
private theorem Blames.concat (h : Blames us [t] op) : Blames (us ++ [t]) [] op := by
  obtain ⟨xs, ys, rfl, h⟩ := h
  exact ⟨xs, ys ++ [t], by simp, by simpa using h⟩

/-! ### What waits in the innermost group -/

/-- The operators that wait in the innermost open group. -/
def innermost (ps : List Pending) : List Pending :=
  ps.takeWhile (!·.isGroup)

@[simp] theorem innermost_nil : innermost [] = [] := rfl

@[simp] theorem innermost_group (opener : Token) (base : Nat) :
    innermost (.group opener base :: ps) = [] := rfl

private theorem innermost_cons {p : Pending} (hp : p.isGroup = false) :
    innermost (p :: ps) = p :: innermost ps :=
  List.takeWhile_cons_of_pos (by simp [hp])

@[simp] theorem innermost_unary : innermost (.unary op :: ps) = .unary op :: innermost ps := rfl

@[simp] theorem innermost_binary : innermost (.binary op :: ps) = .binary op :: innermost ps := rfl

/-- An infix operator lets no operator of its group that is below it go first. -/
def Ascending : List Pending → Prop
  | [] => True
  | .group _ _ :: ps => Ascending ps
  | .unary _ :: ps => Ascending ps
  | .binary op :: ps =>
    (∃ n, op.kind.level? = some n ∧ ∀ p ∈ innermost ps, p.goesBefore n = false) ∧ Ascending ps

/-- Every infix operator has an operand to its left, when `n` operands are complete, or it can be
blamed. -/
def Provided (us : List Token) : List Pending → Nat → Prop
  | [], _ => True
  | .group _ base :: ps, _ => Stacks.floor ⟨[], ps⟩ ≤ base ∧ Provided us ps base
  | .unary _ :: ps, n => Provided us ps n
  | .binary op :: ps, n =>
    (Stacks.floor ⟨[], ps⟩ < n ∨ Blames us [] op) ∧ Provided us ps (n - 1)

private theorem Provided.append (h : Provided us ps n) (vs : List Token) :
    Provided (us ++ vs) ps n := by
  induction ps generalizing n with
  | nil => trivial
  | cons p ps ih =>
    cases p with
    | group => exact ⟨h.1, ih h.2⟩
    | unary => exact ih h
    | binary op =>
      refine ⟨h.1.imp_right fun ⟨xs, ys, hus, hop⟩ => ⟨xs, ys ++ vs, by simp [hus], ?_⟩, ih h.2⟩
      simpa using hop.append vs

/-- If all operators of the innermost group can be blamed, no operand has to be there. -/
private theorem Provided.of_blames {m : Nat} (h : Provided us ps n)
    (hblames : ∀ op, .binary op ∈ innermost ps → Blames us [] op) : Provided us ps m := by
  induction ps generalizing m n with
  | nil => trivial
  | cons p ps ih =>
    cases p with
    | group => exact h
    | unary => exact ih h fun op hop => hblames op (by simp [hop])
    | binary op =>
      exact ⟨.inr (hblames op (by simp)), ih h.2 fun op hop => hblames op (by simp [hop])⟩

/-! ### Applying operators -/

namespace Stacks

private theorem Reduces.ascending {p : Pending} (h : s.Reduces p s') (hs : Ascending s.pending) :
    Ascending s'.pending := by
  cases h with
  | unary => exact hs
  | binary => exact hs.2

private theorem Settles.ascending (h : Settles applies s s') (hs : Ascending s.pending) :
    Ascending s'.pending := by
  induction h with
  | refl => exact hs
  | step hred _ _ ih => exact ih (hred.ascending hs)

/-- The operator that is on top now has waited in the same group. -/
private theorem Settles.innermost_subset (h : Settles applies s s') :
    innermost s'.pending ⊆ innermost s.pending := by
  induction h with
  | refl => exact List.Subset.refl _
  | step hred _ _ ih =>
    rw [hred.pending_eq, innermost_cons hred.isGroup_eq_false]
    exact List.Subset.trans ih (List.subset_cons_self ..)

/-- What is provided below stays provided; `d` operands are set apart. -/
theorem Settles.provided {d : Nat} (h : Settles applies s s')
    (hs : Provided us s.pending (s.operands.length - d)) :
    Provided us s'.pending (s'.operands.length - d) := by
  induction h with
  | refl => exact hs
  | step hred _ _ ih =>
    refine ih ?_
    cases hred with
    | unary => exact hs
    | @binary op left right es ps hfloor =>
      have hlen : (right :: left :: es).length - d - 1
          = (Expr.infixNode left op right :: es).length - d := by
        simp only [List.length_cons]
        omega
      exact hlen ▸ hs.2

/-- An operator that was applied leaves an operand in the group. -/
theorem Settles.floor_lt (h : Settles applies s s') :
    s' = s ∨ s'.floor < s'.operands.length := by
  induction h with
  | refl => exact .inl rfl
  | @step s s' s'' p hred _ _ ih =>
    right
    rcases ih with rfl | ih
    · cases hred with
      | unary hfloor => exact Nat.lt_succ_of_le hfloor
      | binary hfloor => exact Nat.lt_succ_of_le hfloor
    · exact ih

variable {near : Token} {e : ParseError} {operator found : String} {line : Nat}

/-- What comes after the operators are applied does not miss an operand. -/
private theorem starves_of_bind {β : Type} {f : Stacks → Except ParseError β}
    (hgroup : ∀ p, applies p = true → p.isGroup = false)
    (hf : ∀ s', f s' ≠ .error (.missingOperand operator found line))
    (h : (s.reduceWhile near applies >>= f) = .error (.missingOperand operator found line)) :
    ∃ s' op, Settles applies s s' ∧ s'.Starves op ∧ op.lexeme = operator ∧ op.line = line := by
  cases hred : s.reduceWhile near applies with
  | ok s' =>
    rw [hred] at h
    exact absurd h (hf s')
  | error e =>
    rw [hred] at h
    obtain rfl := Except.error.inj h
    obtain ⟨s', op, hset, hop, he⟩ := starves_of_reduceWhile hgroup hred
    cases he
    exact ⟨s', op, hset, hop, rfl, rfl⟩

private theorem starves_of_closeGroup
    (h : s.closeGroup near = .error (.missingOperand operator found line)) :
    ∃ s' op, Settles (!·.isGroup) s s' ∧ s'.Starves op ∧ op.lexeme = operator ∧ op.line = line := by
  refine starves_of_bind (by simp) (fun s' he => ?_) h
  repeat' split at he
  all_goals cases he

private theorem starves_of_finish
    (h : s.finish near = .error (.missingOperand operator found line)) :
    ∃ s' op, Settles (!·.isGroup) s s' ∧ s'.Starves op ∧ op.lexeme = operator ∧ op.line = line := by
  refine starves_of_bind (by simp) (fun s' he => ?_) h
  repeat' split at he
  all_goals cases he

end Stacks

/-! ### Where an operand comes next -/

/-- Where an operand comes next, nothing has been taken, or what waits on top is the last token. -/
inductive Expects : List Token → List Pending → Prop where
  | start : Expects [] []
  | push {us : List Token} {p : Pending} {ps : List Pending} :
    Laid us ps → p.OfKind → (p = .unary p.token → OperandDue us) →
      Expects (us ++ [p.token]) (p :: ps)

private theorem Pending.OfKind.operandDue {p : Pending} (h : p.OfKind) :
    p.token.kind = .leftParen ∨ p.token.kind.isOperator = true := by
  cases p with
  | group => exact .inl h
  | unary => exact .inr (Automaton.isOperator_of_isPrefixOperator h)
  | binary => exact .inr ((Kind.isOperator_iff _).mpr (.inl h))

/-- An operator that has too few operands waits as one. -/
private theorem Laid.isOperator_of_starves (h : Laid us s.pending) (hop : s.Starves op) :
    op.kind.isOperator = true := by
  cases hop with
  | unary | binary =>
    obtain - | ⟨-, hkind, -⟩ := h
    exact hkind.operandDue.resolve_left (hkind.ne_paren rfl).1

private theorem Expects.operandDue (h : Expects us ps) : OperandDue us := by
  cases h with
  | start => simp [OperandDue]
  | push _ hkind _ => simpa [OperandDue] using hkind.operandDue

/-- The operators of the innermost group, with no parenthesis open after them. -/
private theorem Laid.exists_split {p : Pending} (h : Laid us ps) (hp : p ∈ innermost ps) :
    p.OfKind ∧ ∃ xs vs, us = xs ++ p.token :: vs ∧ IsBalanced vs := by
  induction h with
  | nil => simp at hp
  | @cons us vs q ps h hkind hvs ih =>
    cases hq : q.isGroup with
    | true => cases q <;> contradiction
    | false =>
      rw [innermost_cons hq] at hp
      rcases List.mem_cons.mp hp with rfl | hp
      · exact ⟨hkind, us, vs, rfl, hvs⟩
      · obtain ⟨hp, xs, ws, rfl, hws⟩ := ih hp
        obtain ⟨hopen, hclose⟩ := hkind.ne_paren hq
        exact ⟨hp, xs, ws ++ q.token :: vs, by simp,
          hws.append ((IsBalanced.singleton hopen hclose).append hvs)⟩

/-- What waits on top lacks what comes next. -/
private theorem Expects.blames_top {p : Pending} (h : Expects us (p :: ps))
    (ht : t.kind.beginsOperand = false) : Blames us [t] p.token := by
  obtain - | @⟨us, _, _, -, -, -⟩ := h
  exact ⟨us, [], rfl, .lacks (.right rfl ht)⟩

/-- **Blame.** If no operand follows where one comes next, then every infix operator that waits in
the innermost group can be blamed: the one on top for this, and the others because they yield to
it. -/
theorem Expects.blames (h : Expects us ps) (hps : Ascending ps)
    (ht : t.kind.beginsOperand = false) {op : Token} (hop : .binary op ∈ innermost ps) :
    Blames us [t] op := by
  obtain - | @⟨us, q, ps, hlaid, hkind, hdue⟩ := h
  · simp at hop
  have hgroup : q.isGroup = false := by
    cases q <;> simp_all [Pending.isGroup]
  rw [innermost_cons hgroup] at hop
  rcases List.mem_cons.mp hop with rfl | hbelow
  · exact ⟨us, [], rfl, .lacks (.right rfl ht)⟩
  obtain ⟨hbinary, xs, vs, rfl, hvs⟩ := hlaid.exists_split hbelow
  obtain ⟨m, hm⟩ := Option.isSome_iff_exists.mp hbinary
  have hyields : YieldsTo op vs q.token := by
    refine ⟨m, hm, ?_⟩
    cases q with
    | group => contradiction
    | unary =>
      refine .inl ⟨hkind, ?_⟩
      simpa [OperandDue, List.getLast?_append, List.getLast?_cons, Pending.token] using hdue rfl
    | binary =>
      obtain ⟨n, hn, hstop⟩ := hps.1
      have hfirst := hstop _ hbelow
      simp only [Pending.goesBefore, Pending.level?, hm, Option.any_some, decide_eq_false_iff_not,
        Nat.not_le] at hfirst
      exact .inr ⟨n, hn, hfirst⟩
  exact ⟨xs, vs ++ [q.token], by simp [Pending.token],
    .robbed (List.append_assoc ..) hvs rfl ht hyields⟩

namespace Automaton

variable {a b : Automaton} {closing : Closing}

/-- The operands that are set apart: the one that is just complete, if no operand comes next. -/
def apart (a : Automaton) : Nat :=
  if a.expecting then 0 else 1

/-- What is known of the stacks after these tokens. -/
structure Tracks (us : List Token) (a : Automaton) : Prop where
  ascending : Ascending a.stack.pending
  expects : a.expecting = true → Expects us a.stack.pending
  floor : a.stack.floor + a.apart ≤ a.stack.operands.length
  provided : Provided us a.stack.pending (a.stack.operands.length - a.apart)

/-- No group closes where an operand comes next. -/
private theorem Fits.expecting_of_closeGroup (ha : a.Fits) (h : a.stack.closeGroup t = .ok s) :
    a.expecting = false := by
  obtain ⟨inner, es, opener, ps, hset, rfl⟩ := Stacks.closeGroup_eq_ok_iff.mp h
  have hroom := hset.room_eq
  have hoperands := ha.operands
  simp only [Stacks.room, List.length_cons] at hroom
  cases he : a.expecting with
  | false => rfl
  | true =>
    simp only [he, ↓reduceIte] at hoperands
    omega

/-- A token that begins an operand is taken where an operand comes next. -/
private theorem exists_take_of_beginsOperand (he : a.expecting = true)
    (ht : t.kind.beginsOperand = true) : ∃ b, a.step closing t = .take b := by
  simp only [Kind.beginsOperand, Bool.or_eq_true, beq_iff_eq] at ht
  rcases ht with ((hk | hk) | hk) | hk
  · exact ⟨_, step_eq_take_iff.mpr (.operand he hk)⟩
  · exact ⟨_, step_eq_take_iff.mpr (.opener he hk)⟩
  · exact ⟨_, step_eq_take_iff.mpr (.newline he hk)⟩
  · exact ⟨_, step_eq_take_iff.mpr (.prefixOp he hk)⟩

/-- An infix operator in the place of an operand begins none. -/
private theorem beginsOperand_of_level {k : Kind} (hk : k.level?.isSome = true)
    (hsign : k.isPrefixOperator = false) : k.beginsOperand = false := by
  revert hk hsign
  cases k <;> decide

/-- An infix operator may wait where the top does not go before it. -/
private theorem ascending_of_stop (hn : op.kind.level? = some n) (hps : Ascending ps)
    (hstop : ∀ top ∈ ps.head?, top.goesBefore n = false) : Ascending (.binary op :: ps) := by
  refine ⟨⟨n, hn, fun p hp => ?_⟩, hps⟩
  rcases ps with _ | ⟨⟨opener, base⟩ | q | q, ps⟩
  · simp at hp
  · simp at hp
  · have hlevel := Kind.level_le hn
    have hfirst := hstop _ rfl
    simp only [Pending.goesBefore, Pending.level?, Option.any_some,
      decide_eq_false_iff_not] at hfirst
    omega
  · have hfirst := hstop _ rfl
    rcases List.mem_cons.mp hp with rfl | hp
    · exact hfirst
    · obtain ⟨m, hm, hbelow⟩ := hps.1
      simp only [Pending.goesBefore, Pending.level?, hm, Option.any_some,
        decide_eq_false_iff_not] at hfirst
      exact Pending.goesBefore_eq_false_of_le (by omega) (hbelow p hp)

/-- **Every token that is taken keeps this.** -/
theorem Tracks.of_takes (hus : Taken us a) (h : Tracks us a) (htakes : a.Takes t b) :
    Tracks (us ++ [t]) b := by
  obtain ⟨hascending, hexpects, hfloor, hprovided⟩ := h
  have hprovided' := hprovided.append [t]
  cases htakes with
  | operand he hk =>
    rw [apart, he] at hfloor hprovided'
    exact ⟨hascending, by simp [operand], Nat.succ_le_succ hfloor, hprovided'⟩
  | newline he hk =>
    rw [apart, he] at hfloor hprovided'
    exact ⟨hascending, by simp [operand], Nat.succ_le_succ hfloor, hprovided'⟩
  | opener he hk =>
    rw [apart, he] at hfloor hprovided'
    refine ⟨hascending, fun _ => ?_, Nat.le_refl _, hfloor, hprovided'⟩
    exact .push (p := .group t _) hus.laid hk (by simp)
  | closer hk hclose =>
    have he := hus.fits.expecting_of_closeGroup hclose
    obtain ⟨inner, es, opener, ps, hset, rfl⟩ := Stacks.closeGroup_eq_ok_iff.mp hclose
    obtain ⟨hbase, hrest⟩ := hset.provided hprovided'
    exact ⟨hset.ascending hascending, by simp, Nat.succ_le_succ hbase, hrest⟩
  | prefixOp he hk =>
    rw [apart, he] at hfloor hprovided'
    refine ⟨hascending, fun _ => ?_, hfloor, hprovided'⟩
    exact .push (p := .unary t) hus.laid hk fun _ => (hexpects he).operandDue
  | @infixOp n s hn hsign hred =>
    obtain ⟨hset, hstop⟩ := Stacks.reduceWhile_eq_ok_iff.mp hred
    have hfloor' : s.floor + a.apart ≤ s.operands.length := by
      have hapart : a.apart ≤ 1 := by
        unfold apart
        split <;> omega
      rcases hset.floor_lt with rfl | hlt
      · exact hfloor
      · omega
    refine ⟨ascending_of_stop hn (hset.ascending hascending) hstop, fun _ => ?_,
      Nat.le_of_add_right_le hfloor', ?_⟩
    · have hkind : (Pending.binary t).OfKind := by simp [Pending.OfKind, hn]
      exact .push (hus.laid.of_settles hset) hkind (by simp)
    cases he : a.expecting with
    | false =>
      rw [apart, he] at hfloor' hprovided'
      exact ⟨.inl hfloor', hset.provided hprovided'⟩
    | true =>
      -- The operator stands in the place of an operand, so nothing right stands there.
      have hbegins := beginsOperand_of_level (by simp [hn]) (hsign he)
      have hexpect := hexpects he
      refine ⟨.inr ⟨us, [], rfl, .lacks (.left (hsign he) hexpect.operandDue)⟩, ?_⟩
      refine (hset.provided hprovided').of_blames fun op hop => ?_
      exact (hexpect.blames hascending hbegins (hset.innermost_subset hop)).concat

/-- So it is known of every run. -/
theorem Taken.tracks (h : Taken us a) : Tracks us a := by
  induction h with
  | start => exact ⟨trivial, fun _ => .start, Nat.zero_le _, trivial⟩
  | snoc hus htakes ih => exact ih.of_takes hus htakes

/-- An operator that has too few operands can be blamed. -/
private theorem Tracks.blames (h : Tracks us a) (hset : Stacks.Settles applies a.stack s)
    (ht : a.expecting = true → t.kind.beginsOperand = false) (hop : s.Starves op) :
    Blames us [t] op := by
  obtain ⟨hascending, hexpects, hfloor, hprovided⟩ := h
  have hprovided := hset.provided hprovided
  cases he : a.expecting with
  | false =>
    rw [apart, he] at hfloor hprovided
    have hroom : s.floor < s.operands.length := by
      rcases hset.floor_lt with rfl | hlt
      · exact hfloor
      · exact hlt
    cases hop with
    | unary hlen => exact absurd hroom (Nat.not_lt.mpr hlen)
    | binary hlen =>
      refine (hprovided.1.resolve_left fun hlt => ?_).append [t]
      simp only [Bool.false_eq_true, ↓reduceIte] at hlt
      omega
  | true =>
    have hexpect := hexpects he
    cases hop with
    | binary => exact hexpect.blames hascending (ht he) (hset.innermost_subset (by simp))
    | unary hlen =>
      rcases hset.floor_lt with hsame | hlt
      · rw [← hsame] at hexpect
        exact hexpect.blames_top (ht he)
      · exact absurd hlt (Nat.not_lt.mpr hlen)

/-- A token that ends the expression where an operand comes next begins none. -/
private theorem Ends.beginsOperand_eq_false {x : Except ParseError Expr} {extra : List Token}
    (h : a.Ends closing t x extra) (he : a.expecting = true) : t.kind.beginsOperand = false := by
  refine Bool.eq_false_iff.mpr fun hbegins => ?_
  obtain ⟨b, hb⟩ : ∃ b, a.step closing t = .take b := exists_take_of_beginsOperand he hbegins
  cases h with
  | leave hstep _ => simp [hb] at hstep
  | refuse hstep _ => simp [hb] at hstep
  | fail hstep _ => simp [hb] at hstep

/-- An operand is found missing where an operator cannot be applied. -/
private theorem Ends.starves {operator found : String} {line : Nat} {extra : List Token}
    (h : a.Ends closing t (.error (.missingOperand operator found line)) extra) :
    ∃ applies s op, Stacks.Settles applies a.stack s ∧ s.Starves op ∧
      op.lexeme = operator ∧ op.line = line := by
  cases h with
  | leave _ hfinish => exact ⟨_, Stacks.starves_of_finish hfinish⟩
  | refuse hstep hx =>
    obtain rfl := Except.error.inj hx
    cases refuses_of_step hstep
  | fail hstep hx =>
    obtain rfl := Except.error.inj hx
    unfold step at hstep
    repeat' split at hstep
    all_goals try contradiction
    · exact ⟨_, Stacks.starves_of_closeGroup (takeWith_eq_fail hstep)⟩
    · next n hn =>
      obtain ⟨s, op, hset, hop, he⟩ := Stacks.starves_of_reduceWhile
        (fun p hp => by simpa using Pending.not_isGroup_of_goesBefore hp) (takeWith_eq_fail hstep)
      cases he
      exact ⟨_, s, op, hset, hop, rfl, rfl⟩

/-- **An operand that is missing.** The error names an operator of the expression that can be
blamed, as a token like the one that ends the expression comes next. -/
theorem Ends.blamed {operator found : String} {line : Nat} {extra : List Token} (hus : Taken us a)
    (h : a.Ends closing t (.error (.missingOperand operator found line)) extra) :
    ∃ op, op.kind.isOperator = true ∧ op.lexeme = operator ∧ op.line = line ∧
      ∀ u : Token, u.kind = t.kind → Blames us [u] op := by
  obtain ⟨applies, s, op, hset, hop, hlexeme, hline⟩ := h.starves
  refine ⟨op, (hus.laid.of_settles hset).isOperator_of_starves hop, hlexeme, hline, fun u hu => ?_⟩
  exact hus.tracks.blames hset (fun he => hu ▸ h.beginsOperand_eq_false he) hop

end Automaton

end ScriptTree
