import ScriptTree.Proofs.Expression.Room
import ScriptTree.Proofs.Position.Walk

/-!
# Open parentheses

The parentheses that are open after some tokens are found by going along the tokens with a stack
(`unclosed`). The automaton keeps them among the operators that wait: what waits divides the tokens
that were taken into stretches in which every parenthesis has its partner (`Laid`), so the open
groups are exactly the parentheses without one, in the same order (`Laid.unclosed_eq`).

`Automaton.Taken us a` says that the tokens `us` have been taken when the automaton stands like `a`,
and `Automaton.Ends` lists the three ways in which a run ends. What one token keeps is so known of
every run (`Automaton.exists_ends`), and its errors are those of the stacks and of the token at its
end (`Automaton.Ends.raises`).

The main result is `Automaton.Ends.mismatched`: a mismatch is reported at a closing parenthesis when
all others have their partners, and otherwise for the opening one that was met last.
-/

namespace ScriptTree

/-! ### Parentheses without a partner -/

/-- The opening parentheses without a partner, the latest first, when `opened` are open before the
tokens. There is no answer if a closing parenthesis has no partner. -/
def unclosedFrom : List Token → List Token → Option (List Token)
  | opened, [] => some opened
  | opened, t :: ts =>
    if t.kind = .leftParen then unclosedFrom (t :: opened) ts
    else if t.kind = .rightParen then
      match opened with
      | [] => none
      | _ :: opened => unclosedFrom opened ts
    else unclosedFrom opened ts

/-- The opening parentheses without a partner among the tokens. -/
def unclosed (ts : List Token) : Option (List Token) :=
  unclosedFrom [] ts

/-- Every parenthesis among the tokens has its partner there. -/
def IsBalanced (ts : List Token) : Prop :=
  unclosed ts = some []

instance (ts : List Token) : Decidable (IsBalanced ts) :=
  inferInstanceAs (Decidable (unclosed ts = some []))

variable {ts us vs opened opened' : List Token} {t : Token}

theorem unclosedFrom_append (opened ts us : List Token) :
    unclosedFrom opened (ts ++ us) = (unclosedFrom opened ts).bind (unclosedFrom · us) := by
  fun_induction unclosedFrom opened ts with
  | case1 opened => rfl
  | case2 opened t ts hopen ih => simp [unclosedFrom, hopen, ih]
  | case3 t ts hopen hclose => simp [unclosedFrom, hclose]
  | case4 t ts hopen hclose top opened ih => simp [unclosedFrom, hclose, ih]
  | case5 opened t ts hopen hclose ih => simp [unclosedFrom, hopen, hclose, ih]

/-- Parentheses that are open further below stay open. -/
private theorem unclosedFrom_append_below (h : unclosedFrom opened ts = some opened')
    (below : List Token) :
    unclosedFrom (opened ++ below) ts = some (opened' ++ below) := by
  fun_induction unclosedFrom opened ts with
  | case1 opened => simp_all [unclosedFrom]
  | case2 opened t ts hopen ih => simpa [unclosedFrom, hopen] using ih h
  | case3 => contradiction
  | case4 t ts hopen hclose top opened ih => simpa [unclosedFrom, hclose] using ih h
  | case5 opened t ts hopen hclose ih => simpa [unclosedFrom, hopen, hclose] using ih h

namespace IsBalanced

private theorem nil : IsBalanced [] := rfl

theorem unclosedFrom_eq (h : IsBalanced ts) (opened : List Token) :
    unclosedFrom opened ts = some opened := by
  simpa using unclosedFrom_append_below h opened

theorem append (h : IsBalanced ts) (h' : IsBalanced us) : IsBalanced (ts ++ us) := by
  unfold IsBalanced unclosed
  rw [unclosedFrom_append, h.unclosedFrom_eq, Option.bind_some, h'.unclosedFrom_eq]

/-- A token that is no parenthesis. -/
theorem singleton (hopen : t.kind ≠ .leftParen) (hclose : t.kind ≠ .rightParen) :
    IsBalanced [t] := by
  simp [IsBalanced, unclosed, unclosedFrom, hopen, hclose]

/-- An operand. -/
theorem operand (h : t.kind.isOperand = true) : IsBalanced [t] := by
  refine .singleton ?_ ?_
  all_goals
    intro hparen
    simp [hparen, Kind.isOperand] at h

/-- A group. -/
theorem group {opener closer : Token} (hopen : opener.kind = .leftParen)
    (hclose : closer.kind = .rightParen) (h : IsBalanced ts) :
    IsBalanced (opener :: (ts ++ [closer])) := by
  simp [IsBalanced, unclosed, unclosedFrom, hopen, unclosedFrom_append, h.unclosedFrom_eq, hclose]

end IsBalanced

/-! ### What waits among the tokens -/

namespace Pending

/-- The token that waits. -/
def token : Pending → Token
  | group opener _ => opener
  | unary operator => operator
  | binary operator => operator

/-- The token is of the kind that waits in this way. -/
def OfKind : Pending → Prop
  | group opener _ => opener.kind = .leftParen
  | unary operator => operator.kind.isPrefixOperator = true
  | binary operator => operator.kind.level?.isSome = true

/-- An operator that waits is no parenthesis. -/
theorem OfKind.ne_paren {p : Pending} (h : p.OfKind) (hp : p.isGroup = false) :
    p.token.kind ≠ .leftParen ∧ p.token.kind ≠ .rightParen := by
  constructor
  all_goals
    intro hk
    cases p <;> simp_all [OfKind, token, isGroup, Kind.isPrefixOperator, Kind.level?]

end Pending

/-- The parentheses of the groups that wait. -/
def openers (ps : List Pending) : List Token :=
  (ps.filter Pending.isGroup).map Pending.token

/-- What waits are tokens among these, the last one first, and between them every parenthesis has
its partner. -/
inductive Laid : List Token → List Pending → Prop where
  | nil {us : List Token} : IsBalanced us → Laid us []
  | cons {us vs : List Token} {p : Pending} {ps : List Pending} :
    Laid us ps → p.OfKind → IsBalanced vs → Laid (us ++ p.token :: vs) (p :: ps)

namespace Laid

variable {p : Pending} {ps : List Pending}

/-- Tokens whose parentheses have their partners change nothing. -/
private theorem append (h : Laid us ps) (hvs : IsBalanced vs) : Laid (us ++ vs) ps := by
  cases h with
  | nil hus => exact .nil (hus.append hvs)
  | cons h hp hus =>
    rw [List.append_assoc, List.cons_append]
    exact .cons h hp (hus.append hvs)

/-- A token that is added to what waits. -/
private theorem push (h : Laid us ps) (hp : p.OfKind) : Laid (us ++ [p.token]) (p :: ps) :=
  .cons h hp .nil

/-- An operator that waits no longer. -/
private theorem tail (h : Laid us (p :: ps)) (hp : p.isGroup = false) : Laid us ps := by
  obtain - | @⟨us, vs, _, _, h, hkind, hvs⟩ := h
  obtain ⟨hopen, hclose⟩ := hkind.ne_paren hp
  exact h.append ((IsBalanced.singleton hopen hclose).append hvs)

/-- A group that is closed. -/
private theorem close {opener : Token} {base : Nat} (h : Laid us (.group opener base :: ps))
    (ht : t.kind = .rightParen) : Laid (us ++ [t]) ps := by
  obtain - | @⟨us, vs, _, _, h, hkind, hvs⟩ := h
  rw [List.append_assoc]
  exact h.append (.group hkind ht hvs)

/-- The groups that wait are the parentheses without a partner. -/
theorem unclosed_eq (h : Laid us ps) : unclosed us = some (openers ps) := by
  induction h with
  | nil hus => exact hus
  | @cons us vs p ps h hkind hvs ih =>
    unfold unclosed at ih ⊢
    rw [unclosedFrom_append, ih, Option.bind_some]
    cases hp : p.isGroup with
    | false =>
      obtain ⟨hopen, hclose⟩ := hkind.ne_paren hp
      simp [unclosedFrom, hopen, hclose, hvs.unclosedFrom_eq, openers, hp]
    | true =>
      have hopen : p.token.kind = .leftParen := by
        cases p <;> first | exact hkind | contradiction
      simp [unclosedFrom, hopen, hvs.unclosedFrom_eq, openers, hp]

/-- Applying operators keeps what waits among the tokens. -/
theorem of_settles {applies : Pending → Bool} {s s' : Stacks} (h : Laid us s.pending)
    (hset : Stacks.Settles applies s s') : Laid us s'.pending := by
  induction hset with
  | refl => exact h
  | step hred _ _ ih => exact ih ((hred.pending_eq ▸ h).tail hred.isGroup_eq_false)

/-- Every parenthesis has its partner just when no group waits. -/
theorem isBalanced_iff {s : Stacks} (h : Laid us s.pending) :
    IsBalanced us ↔ s.hasGroup = false := by
  rw [IsBalanced, h.unclosed_eq, Option.some_inj, openers, List.map_eq_nil_iff]
  simp [Stacks.hasGroup]

end Laid

/-! ### Runs -/

namespace Automaton

variable {a b : Automaton} {closing : Closing} {x : Except ParseError Expr}

/-- The tokens have been taken, one after another, when the automaton stands so. -/
inductive Taken : List Token → Automaton → Prop where
  | start : Taken [] start
  | snoc {us : List Token} {t : Token} {a b : Automaton} :
    Taken us a → a.Takes t b → Taken (us ++ [t]) b

/-- A run ends at the token `t` with this outcome; the last argument lists this token if it is still
taken. -/
inductive Ends (closing : Closing) (a : Automaton) (t : Token) (x : Except ParseError Expr) :
    List Token → Prop where
  | leave : a.step closing t = .leave → a.stack.finish t = x → Ends closing a t x []
  | refuse {e : ParseError} : a.step closing t = .refuse e → .error e = x → Ends closing a t x []
  | fail {e : ParseError} : a.step closing t = .fail e → .error e = x → Ends closing a t x [t]

theorem Taken.exists_ends {last : Token} {rest : List Token} (ha : Taken us a)
    (hlast : last.kind = .eof) (h : a.run closing last ts = (x, rest)) :
    ∃ vs b t extra, Taken (us ++ vs) b ∧ b.Ends closing t x extra ∧ ts = vs ++ (extra ++ rest) ∧
      t = (extra ++ rest).headD last := by
  induction ts generalizing us a with
  | nil =>
    obtain ⟨hx, rfl⟩ := Prod.mk.inj h
    exact ⟨[], a, last, [], by simpa using ha, .leave (step_of_eof closing a hlast) hx, rfl, rfl⟩
  | cons t ts ih =>
    unfold run at h
    split at h
    · next b hstep =>
      obtain ⟨vs, c, u, extra, hc, hends, rfl, hu⟩ := ih (ha.snoc (step_eq_take_iff.mp hstep)) h
      exact ⟨t :: vs, c, u, extra, by simpa using hc, hends, rfl, hu⟩
    · next hstep =>
      obtain ⟨hx, rfl⟩ := Prod.mk.inj h
      exact ⟨[], a, t, [], by simpa using ha, .leave hstep hx, rfl, rfl⟩
    · next e hstep =>
      obtain ⟨hx, rfl⟩ := Prod.mk.inj h
      exact ⟨[], a, t, [], by simpa using ha, .refuse hstep hx, rfl, rfl⟩
    · next e hstep =>
      obtain ⟨hx, rfl⟩ := Prod.mk.inj h
      exact ⟨[], a, t, [t], by simpa using ha, .fail hstep hx, rfl, rfl⟩

/-- **Every run** takes some tokens, and ends at the next one. -/
theorem exists_ends {last : Token} {rest : List Token} (hlast : last.kind = .eof)
    (h : start.run closing last ts = (x, rest)) :
    ∃ us a t extra, Taken us a ∧ a.Ends closing t x extra ∧ ts = us ++ (extra ++ rest) ∧
      t = (extra ++ rest).headD last :=
  Taken.start.exists_ends hlast h

/-- The errors that come of the token `t`: it is refused, or what was read before it is wrong. The
second argument lists the token if it is still taken. -/
inductive Raises (closing : Closing) (a : Automaton) (t : Token) :
    ParseError → List Token → Prop where
  | refuses {e : ParseError} : a.Refuses closing t e → Raises closing a t e []
  | lacks {e : ParseError} {extra : List Token} : a.stack.Lacks t e → Raises closing a t e extra
  | emptyGroup : Raises closing a t (.invalid .emptyParentheses t) [t]
  | openGroup {opener : Token} {base : Nat} : .group opener base ∈ a.stack.pending →
    Raises closing a t (.mismatchedParentheses t.describe opener.line) []
  | nothing : Raises closing a t (.invalid .noExpression t) []

/-- **The errors of an expression** are these. -/
theorem Ends.raises {extra : List Token} {e : ParseError} (ha : a.Fits)
    (h : a.Ends closing t (.error e) extra) : a.Raises closing t e extra := by
  cases h with
  | leave _ hfinish =>
    rcases Stacks.error_of_finish ha hfinish with hlacks | ⟨opener, base, hmem, rfl⟩ | rfl
    · exact .lacks hlacks
    · exact .openGroup hmem
    · exact .nothing
  | refuse hstep hx =>
    obtain rfl := Except.error.inj hx
    exact .refuses (refuses_of_step hstep)
  | fail hstep hx =>
    obtain rfl := Except.error.inj hx
    rcases error_of_fail ha hstep with ⟨-, hlacks⟩ | ⟨-, rfl⟩
    · exact .lacks hlacks
    · exact .emptyGroup

namespace Taken

theorem fits (h : Taken us a) : a.Fits := by
  induction h with
  | start => exact fits_start
  | snoc _ htakes ih => exact ih.of_takes htakes

/-- What waits lies among the tokens that were taken. -/
theorem laid (h : Taken us a) : Laid us a.stack.pending := by
  induction h with
  | start => exact .nil .nil
  | @snoc us t a b _ htakes ih =>
    cases htakes with
    | operand _ hk => exact ih.append (.operand hk)
    | newline _ hk => exact ih.append (.singleton (by simp [hk]) (by simp [hk]))
    | opener _ hk => exact ih.push (p := .group t _) hk
    | closer hk hclose =>
      obtain ⟨inner, es, opener, ps, hset, rfl⟩ := Stacks.closeGroup_eq_ok_iff.mp hclose
      exact (ih.of_settles hset).close hk
    | prefixOp _ hk => exact ih.push (p := .unary t) hk
    | infixOp hn _ hred =>
      have hset := (Stacks.reduceWhile_eq_ok_iff.mp hred).1
      exact (ih.of_settles hset).push (p := .binary t) (by simp [Pending.OfKind, hn])

end Taken

end Automaton

/-! ### Mismatches -/

namespace Stacks

variable {s : Stacks} {near : Token} {found : String} {line : Nat}

/-- An operator without an operand is no mismatch. -/
private theorem Lacks.ne_mismatched (h : s.Lacks near (.mismatchedParentheses found line)) :
    False := by
  obtain ⟨_, he⟩ := h.exists_missing
  contradiction

/-- The end of an expression reports the group on top, once the operators in it are applied. -/
private theorem settles_of_finish (h : s.finish near = .error (.mismatchedParentheses found line)) :
    ∃ es opener base ps, Settles (!·.isGroup) s ⟨es, .group opener base :: ps⟩ ∧
      found = near.describe ∧ line = opener.line := by
  unfold finish at h
  cases hred : s.reduceWhile near (!·.isGroup) with
  | error e =>
    rw [hred] at h
    obtain rfl := Except.error.inj h
    exact (lacks_of_reduceWhile (by simp) hred).ne_mismatched.elim
  | ok s' =>
    rw [hred] at h
    obtain ⟨hset, hstop⟩ := reduceWhile_eq_ok_iff.mp hred
    obtain ⟨es, ps⟩ := s'
    simp only [bind, Except.bind] at h
    rcases ps with _ | ⟨⟨opener, base⟩ | op | op, ps⟩
    · rcases es with _ | ⟨_, _ | ⟨_, _⟩⟩ <;> cases h
    · cases h
      exact ⟨es, opener, base, ps, hset, rfl, rfl⟩
    · exact absurd (hstop _ rfl) (by simp [Pending.isGroup])
    · exact absurd (hstop _ rfl) (by simp [Pending.isGroup])

end Stacks

namespace Automaton

variable {a : Automaton} {closing : Closing} {found : String} {line : Nat}

/-- An expression ends before a closing parenthesis only if no group is open. -/
private theorem hasGroup_eq_false_of_leave (h : a.step closing t = .leave)
    (ht : t.kind = .rightParen) : a.stack.hasGroup = false := by
  cases hgroup : a.stack.hasGroup with
  | false => rfl
  | true =>
    simp only [step, ht, Kind.isOperand, hgroup, ↓reduceIte] at h
    cases hclose : a.stack.closeGroup t <;> simp [hclose, takeWith] at h

/-- **Mismatches.** A mismatch is reported at a closing parenthesis, in an expression that has to
answer for it, when every other parenthesis has its partner; or else at another token, for the
opening parenthesis without a partner that was met last. -/
theorem Ends.mismatched {extra : List Token} (hus : Taken us a)
    (h : a.Ends closing t (.error (.mismatchedParentheses found line)) extra) :
    extra = [] ∧ found = t.describe ∧
      (t.kind = .rightParen ∧ closing = .reject ∧ unclosed us = some [] ∧ line = t.line ∨
        t.kind ≠ .rightParen ∧
          ∃ opener opened, unclosed us = some (opener :: opened) ∧ line = opener.line) := by
  cases h with
  | leave hstep hfinish =>
    obtain ⟨es, opener, base, ps, hset, rfl, rfl⟩ := Stacks.settles_of_finish hfinish
    have hgroup : a.stack.hasGroup = true := by
      rw [hset.hasGroup_eq]
      rfl
    refine ⟨rfl, rfl, .inr ⟨fun ht => ?_, opener, openers ps, ?_, rfl⟩⟩
    · rw [hasGroup_eq_false_of_leave hstep ht] at hgroup
      contradiction
    · rw [(hus.laid.of_settles hset).unclosed_eq]
      rfl
  | refuse hstep hx =>
    obtain rfl := Except.error.inj hx
    obtain - | ⟨ht, hgroup, hclosing⟩ := refuses_of_step hstep
    exact ⟨rfl, rfl, .inl ⟨ht, hclosing, hus.laid.isBalanced_iff.mpr hgroup, rfl⟩⟩
  | fail hstep hx =>
    obtain rfl := Except.error.inj hx
    rcases error_of_fail hus.fits hstep with ⟨-, hlacks⟩ | ⟨-, hinvalid⟩
    · exact hlacks.ne_mismatched.elim
    · contradiction

end Automaton

end ScriptTree
