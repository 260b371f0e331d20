import ScriptTree.Parse.Automaton

/-!
# Applying the waiting operators

The stacks of the automaton change in two ways when operators are applied: a prefix operator takes
the operand on top, an infix one the two on top, and neither reaches below the floor of the
innermost open group. `Stacks.Reduces` is this as a relation, labelled with the operator that is
applied, and `Stacks.Settles` applies any number of operators that pass a test. The token that
makes a reduction necessary plays no part in either: it only serves the messages.

* `reduceWhile_eq_ok_iff`: applying operators for as long as one passes the test succeeds with the
  stacks to which the start settles and on which no operator passes any more.
* `closeGroup_eq_ok_iff`, `finish_eq_ok_iff`: a group closes, and an expression ends, when the
  stacks settle to exactly one operand above the opening, or to one operand and nothing else.
* `step_eq_take_iff`: the six ways in which the automaton takes a token, as a relation
  (`Automaton.Takes`).
-/

namespace ScriptTree

/-! ### What waits -/

namespace Pending

/-- Whether this waits for two operands. -/
def isBinary : Pending → Bool
  | binary _ => true
  | _ => false

/-- An operator that goes first is no open group. -/
theorem not_isGroup_of_goesBefore {n : Nat} {p : Pending} (h : p.goesBefore n = true) :
    (!p.isGroup) = true := by
  cases p <;> simp_all [goesBefore, level?, isGroup]

/-- What goes before a level goes before every looser one. -/
theorem goesBefore_of_le {m n : Nat} {p : Pending} (hmn : m ≤ n) (h : p.goesBefore n = true) :
    p.goesBefore m = true := by
  simp only [goesBefore, Option.any_eq_true, decide_eq_true_eq] at h ⊢
  obtain ⟨l, hl, hn⟩ := h
  exact ⟨l, hl, Nat.le_trans hmn hn⟩

theorem goesBefore_eq_false_of_le {m n : Nat} {p : Pending} (hmn : m ≤ n)
    (h : p.goesBefore m = false) : p.goesBefore n = false :=
  Bool.eq_false_iff.mpr (mt (goesBefore_of_le hmn) (Bool.eq_false_iff.mp h))

end Pending

namespace Stacks

@[simp] theorem floor_unary (es : List Expr) (op : Token) (ps : List Pending) :
    floor ⟨es, .unary op :: ps⟩ = floor ⟨[], ps⟩ := rfl

@[simp] theorem floor_binary (es : List Expr) (op : Token) (ps : List Pending) :
    floor ⟨es, .binary op :: ps⟩ = floor ⟨[], ps⟩ := rfl

@[simp] theorem floor_group (es : List Expr) (opener : Token) (base : Nat) (ps : List Pending) :
    floor ⟨es, .group opener base :: ps⟩ = base := rfl

/-! ### One reduction -/

/-- The operator `p` on top of the first stacks is applied, which gives the second ones. -/
inductive Reduces : Stacks → Pending → Stacks → Prop where
  | unary {op : Token} {e : Expr} {es : List Expr} {ps : List Pending} :
    floor ⟨[], ps⟩ ≤ es.length →
      Reduces ⟨e :: es, .unary op :: ps⟩ (.unary op) ⟨.unary op e :: es, ps⟩
  | binary {op : Token} {left right : Expr} {es : List Expr} {ps : List Pending} :
    floor ⟨[], ps⟩ ≤ es.length →
      Reduces ⟨right :: left :: es, .binary op :: ps⟩ (.binary op)
        ⟨.infixNode left op right :: es, ps⟩

/-- A reduction succeeds just when the relation allows it. -/
theorem reduce_eq_ok_iff {near : Token} {s s' : Stacks} :
    s.reduce near = .ok s' ↔ ∃ p, s.Reduces p s' := by
  constructor
  · obtain ⟨es, ps⟩ := s
    intro h
    unfold reduce at h
    split at h <;> try contradiction
    · next op ps hps =>
      obtain rfl : _ = Pending.unary op :: ps := hps
      split at h <;> try contradiction
      split at h <;> try contradiction
      next hes hfloor =>
      obtain rfl := hes
      obtain rfl := Except.ok.inj h
      exact ⟨_, .unary hfloor⟩
    · next op ps hps =>
      obtain rfl : _ = Pending.binary op :: ps := hps
      split at h <;> try contradiction
      split at h <;> try contradiction
      next hes hfloor =>
      obtain rfl := hes
      obtain rfl := Except.ok.inj h
      exact ⟨_, .binary hfloor⟩
  · rintro ⟨p, h⟩
    cases h with
    | unary hfloor => simp [reduce, hfloor]
    | binary hfloor => simp [reduce, hfloor]

namespace Reduces

variable {s s' : Stacks} {p : Pending}

/-- A reduction takes the operator that it applies off the stack. -/
theorem pending_eq (h : s.Reduces p s') : s.pending = p :: s'.pending := by
  cases h <;> rfl

/-- An open group is never applied. -/
theorem isGroup_eq_false (h : s.Reduces p s') : p.isGroup = false := by
  cases h <;> rfl

private theorem hasGroup_eq (h : s.Reduces p s') : s.hasGroup = s'.hasGroup := by
  simp [hasGroup, h.pending_eq, h.isGroup_eq_false]

/-- An infix operator that is applied makes one operand of two, a prefix operator one of one. -/
theorem length_operands (h : s.Reduces p s') :
    s.operands.length + s'.pending.countP Pending.isBinary
      = s'.operands.length + s.pending.countP Pending.isBinary := by
  cases h with
  | unary => simp [Pending.isBinary]
  | binary =>
    simp only [List.length_cons, List.countP_cons, Pending.isBinary, ↓reduceIte]
    omega

end Reduces

/-! ### Several reductions -/

/-- The second stacks come from the first by applying operators that pass the test. -/
inductive Settles (applies : Pending → Bool) : Stacks → Stacks → Prop where
  | refl (s : Stacks) : Settles applies s s
  | step {s s' s'' : Stacks} {p : Pending} :
    s.Reduces p s' → applies p = true → Settles applies s' s'' → Settles applies s s''

namespace Settles

variable {applies : Pending → Bool} {s s' s'' : Stacks}

theorem trans (h : Settles applies s s') (h' : Settles applies s' s'') :
    Settles applies s s'' := by
  induction h with
  | refl => exact h'
  | step hred hp _ ih => exact .step hred hp (ih h')

/-- A weaker test lets the same operators be applied. -/
theorem mono {applies' : Pending → Bool} (himp : ∀ p, applies p = true → applies' p = true)
    (h : Settles applies s s') : Settles applies' s s' := by
  induction h with
  | refl => exact .refl _
  | step hred hp _ ih => exact .step hred (himp _ hp) ih

theorem hasGroup_eq (h : Settles applies s s') : s.hasGroup = s'.hasGroup := by
  induction h with
  | refl => rfl
  | step hred _ _ ih => rw [hred.hasGroup_eq, ih]

/-- Applying operators keeps the number of operands over that of waiting infix operators. -/
theorem length_operands (h : Settles applies s s') :
    s.operands.length + s'.pending.countP Pending.isBinary
      = s'.operands.length + s.pending.countP Pending.isBinary := by
  induction h with
  | refl => rfl
  | step hred _ _ ih =>
    have := hred.length_operands
    omega

end Settles

/-- A computation with two steps succeeds when both do. -/
private theorem bind_eq_ok_iff {α β : Type} {x : Except ParseError α}
    {f : α → Except ParseError β} {b : β} :
    (x >>= f) = .ok b ↔ ∃ a, x = .ok a ∧ f a = .ok b := by
  cases x <;> simp [bind, Except.bind]

/-- Where no operator on top passes the test, the stacks stay as they are. -/
private theorem ok_eq_ok_iff_settles {applies : Pending → Bool} {s s' : Stacks}
    (hstop : ∀ top ∈ s.pending.head?, applies top = false) :
    (Except.ok s : Except ParseError Stacks) = .ok s' ↔
      Settles applies s s' ∧ ∀ top ∈ s'.pending.head?, applies top = false := by
  constructor
  · intro h
    obtain rfl := Except.ok.inj h
    exact ⟨.refl s, hstop⟩
  · rintro ⟨h, -⟩
    cases h with
    | refl => rfl
    | @step _ _ _ p hred hp _ =>
      have := hstop p (by simp [hred.pending_eq])
      simp [hp] at this

/-- With enough rounds, applying operators goes on until none on top passes the test. -/
private theorem reduceUpTo_eq_ok_iff {near : Token} {applies : Pending → Bool} {n : Nat}
    {s s' : Stacks} (hn : s.pending.length ≤ n) :
    reduceUpTo near applies n s = .ok s' ↔
      Settles applies s s' ∧ ∀ top ∈ s'.pending.head?, applies top = false := by
  induction n generalizing s with
  | zero =>
    have hnil : s.pending = [] := List.length_eq_zero_iff.mp (Nat.le_zero.mp hn)
    exact ok_eq_ok_iff_settles (by simp [hnil])
  | succ n ih =>
    unfold reduceUpTo
    rcases hps : s.pending with _ | ⟨top, ps⟩
    · exact ok_eq_ok_iff_settles (by simp [hps])
    simp only [List.head?_cons]
    split
    · next happ =>
      -- A reduction takes the top off the stack, so one round less is enough for the rest.
      have hlen {t : Stacks} {p : Pending} (hred : s.Reduces p t) : t.pending.length ≤ n := by
        rw [hred.pending_eq, List.length_cons] at hn
        omega
      rw [bind_eq_ok_iff]
      constructor
      · rintro ⟨t, ht, hrest⟩
        obtain ⟨p, hred⟩ := reduce_eq_ok_iff.mp ht
        obtain ⟨rfl, -⟩ := List.cons.inj (hps.symm.trans hred.pending_eq)
        obtain ⟨hset, hstop⟩ := (ih (hlen hred)).mp hrest
        exact ⟨.step hred happ hset, hstop⟩
      · rintro ⟨h, hstop⟩
        cases h with
        | refl => exact absurd happ (by simp [hstop top (by simp [hps])])
        | @step _ t _ p hred _ hset =>
          exact ⟨t, reduce_eq_ok_iff.mpr ⟨p, hred⟩, (ih (hlen hred)).mpr ⟨hset, hstop⟩⟩
    · next happ => exact ok_eq_ok_iff_settles (by simp [hps, happ])

/-- Applying operators for as long as one passes the test. -/
theorem reduceWhile_eq_ok_iff {near : Token} {applies : Pending → Bool} {s s' : Stacks} :
    s.reduceWhile near applies = .ok s' ↔
      Settles applies s s' ∧ ∀ top ∈ s'.pending.head?, applies top = false :=
  reduceUpTo_eq_ok_iff (Nat.le_refl _)

/-- Applying operators for as long as possible has one outcome. -/
theorem Settles.eq_of_stop {applies : Pending → Bool} {s s' s'' : Stacks}
    (h' : Settles applies s s') (h'' : Settles applies s s'')
    (hstop' : ∀ top ∈ s'.pending.head?, applies top = false)
    (hstop'' : ∀ top ∈ s''.pending.head?, applies top = false) : s' = s'' := by
  have he' : s.reduceWhile default applies = .ok s' := reduceWhile_eq_ok_iff.mpr ⟨h', hstop'⟩
  have he'' : s.reduceWhile default applies = .ok s'' := reduceWhile_eq_ok_iff.mpr ⟨h'', hstop''⟩
  exact Except.ok.inj (he'.symm.trans he'')

/-- A group closes when the stacks settle to one operand above its opening. -/
theorem closeGroup_eq_ok_iff {close : Token} {s s' : Stacks} :
    s.closeGroup close = .ok s' ↔ ∃ inner es opener ps,
      Settles (!·.isGroup) s ⟨inner :: es, .group opener es.length :: ps⟩ ∧
        s' = ⟨.grouping inner :: es, ps⟩ := by
  unfold closeGroup
  rw [bind_eq_ok_iff]
  constructor
  · rintro ⟨⟨es, ps⟩, ht, h⟩
    obtain ⟨hset, -⟩ := reduceWhile_eq_ok_iff.mp ht
    rcases ps with _ | ⟨⟨opener, base⟩ | op | op, ps⟩ <;> try contradiction
    rcases es with _ | ⟨inner, es⟩ <;> try contradiction
    simp only at h
    split at h
    · next hbase =>
      subst hbase
      exact ⟨inner, es, opener, ps, hset, (Except.ok.inj h).symm⟩
    · split at h <;> contradiction
  · rintro ⟨inner, es, opener, ps, hset, rfl⟩
    exact ⟨_, reduceWhile_eq_ok_iff.mpr ⟨hset, by simp [Pending.isGroup]⟩, by simp⟩

/-- An expression ends well when the stacks settle to one operand. -/
theorem finish_eq_ok_iff {last : Token} {s : Stacks} {e : Expr} :
    s.finish last = .ok e ↔ Settles (!·.isGroup) s ⟨[e], []⟩ := by
  unfold finish
  rw [bind_eq_ok_iff]
  constructor
  · rintro ⟨⟨es, ps⟩, ht, h⟩
    obtain ⟨hset, hstop⟩ := reduceWhile_eq_ok_iff.mp ht
    rcases ps with _ | ⟨top, ps⟩
    · rcases es with _ | ⟨e', _ | ⟨_, _⟩⟩ <;> try contradiction
      obtain rfl := Except.ok.inj h
      exact hset
    · have hgroup := hstop top (by simp)
      rcases top with ⟨opener, base⟩ | op | op <;> simp_all [Pending.isGroup]
  · intro hset
    exact ⟨_, reduceWhile_eq_ok_iff.mpr ⟨hset, by simp⟩, by simp⟩

end Stacks

/-! ### Taking a token -/

namespace Automaton

/-- The ways in which the automaton takes a token. -/
inductive Takes (a : Automaton) (t : Token) : Automaton → Prop where
  | operand : a.expecting = true → t.kind.isOperand = true → Takes a t (a.operand (.leaf t))
  | newline : a.expecting = true → t.kind = .dollar → Takes a t (a.operand (.newline t.line))
  | opener : a.expecting = true → t.kind = .leftParen →
    Takes a t (wait a.stack (.group t a.stack.operands.length))
  | closer {s : Stacks} : t.kind = .rightParen → a.stack.closeGroup t = .ok s → Takes a t ⟨s, false⟩
  | prefixOp : a.expecting = true → t.kind.isPrefixOperator = true →
    Takes a t (wait a.stack (.unary t))
  | infixOp {n : Nat} {s : Stacks} : t.kind.level? = some n →
    (a.expecting = true → t.kind.isPrefixOperator = false) →
      a.stack.reduceWhile t (Pending.goesBefore n) = .ok s → Takes a t (wait s (.binary t))

private theorem takeWith_eq_take_iff {next : Stacks → Automaton} {x : Except ParseError Stacks}
    {b : Automaton} : takeWith next x = .take b ↔ ∃ s, x = .ok s ∧ b = next s := by
  cases x <;> simp [takeWith, eq_comm]

/-- An infix operator is none of the other tokens that an expression has. -/
private theorem infix_kind {k : Kind} {n : Nat} (h : k.level? = some n) :
    k.isOperand = false ∧ k ≠ .leftParen ∧ k ≠ .rightParen ∧ k ≠ .dollar ∧ k ≠ .kwNot ∧
      k.isOperator = true := by
  cases k <;> simp_all [Kind.level?, Kind.isOperand, Kind.isOperator]

private theorem prefix_kind {k : Kind} (h : k.isPrefixOperator = true) :
    k.isOperand = false ∧ k ≠ .leftParen ∧ k ≠ .rightParen ∧ k ≠ .dollar ∧
      k.isOperator = true := by
  cases k <;> simp_all [Kind.isPrefixOperator, Kind.isOperand, Kind.isOperator]

/-- The automaton takes a token in just these ways. -/
theorem step_eq_take_iff {closing : Closing} {a b : Automaton} {t : Token} :
    a.step closing t = .take b ↔ a.Takes t b := by
  obtain ⟨s, expecting⟩ := a
  constructor
  · intro h
    unfold step at h
    split at h
    · split at h <;> contradiction
    next hnext =>
    split at h
    · next hoperand =>
      obtain rfl := Step.take.inj h
      exact .operand (by simpa [hoperand] using hnext) hoperand
    split at h
    · next hopen =>
      obtain rfl := Step.take.inj h
      exact .opener (by simpa [hopen] using hnext) hopen
    split at h
    · next hclose =>
      split at h
      · obtain ⟨s', hs', rfl⟩ := takeWith_eq_take_iff.mp h
        exact .closer hclose hs'
      · split at h <;> contradiction
    split at h
    · next hdollar =>
      obtain rfl := Step.take.inj h
      exact .newline hdollar.2 hdollar.1
    split at h
    · contradiction
    split at h
    · split at h
      · next hsign =>
        obtain rfl := Step.take.inj h
        rw [Bool.and_eq_true] at hsign
        exact .prefixOp hsign.1 hsign.2
      · next hsign =>
        split at h
        · next n hn =>
          obtain ⟨s', hs', rfl⟩ := takeWith_eq_take_iff.mp h
          exact .infixOp hn (fun he => by simpa [show expecting = true from he] using hsign) hs'
        · contradiction
    · contradiction
  · intro h
    cases h with
    | operand he hk =>
      obtain rfl : expecting = true := he
      simp [step, hk]
    | newline he hk =>
      obtain rfl : expecting = true := he
      simp [step, hk, Kind.isOperand]
    | opener he hk =>
      obtain rfl : expecting = true := he
      simp [step, hk, Kind.isOperand]
    | closer hk hs =>
      have hgroup : s.hasGroup = true := by
        obtain ⟨inner, es, opener, ps, hset, -⟩ := Stacks.closeGroup_eq_ok_iff.mp hs
        rw [hset.hasGroup_eq]
        simp [Stacks.hasGroup, Pending.isGroup]
      simp only at hs
      simp [step, hk, Kind.isOperand, hgroup, hs, takeWith]
    | prefixOp he hk =>
      obtain rfl : expecting = true := he
      obtain ⟨h₁, h₂, h₃, h₄, h₅⟩ := prefix_kind hk
      simp [step, hk, h₁, h₂, h₃, h₄, h₅]
    | infixOp hn hsign hs =>
      obtain ⟨h₁, h₂, h₃, h₄, h₅, h₆⟩ := infix_kind hn
      have hplain : (expecting && t.kind.isPrefixOperator) = false := by
        cases expecting with
        | true => simpa using hsign rfl
        | false => rfl
      simp only at hs
      simp [step, h₁, h₂, h₃, h₄, h₅, h₆, hplain, hn, hs, takeWith]

end Automaton

end ScriptTree
