import ScriptTree.Parse.Program

/-!
# Walks along a list of tokens

An `Input` holds only the tokens that are still ahead. Here the list is kept whole and reading
moves an index along it: a parser looks at the token at the index, which has to be there, and takes
it unless it is an end mark.

`Parser.Walk tokens p i path x j` says that the parser `p`, begun at the index `i`, looks at the
tokens with the indices `path` and ends at the index `j` with the outcome `x`. It has one rule for
each way in which parsers touch the tokens, and every rule that looks at a token asks for one at
that index, so that a parser that would look outside the list has no walk. The automaton has walks
of its own, one round for each token.

* `Parser.Walk.within`: a walk that starts at an index of the list, with no end mark before it, does
  not leave these indices.
* `Parser.Walk.apply_eq`: a walk is what the parser does on the input that the list holds from the
  index on.
* `Parser.Walk.of_agree`: a walk depends on the tokens that were looked at and on no others.
-/

namespace ScriptTree

/-! ### Indices -/

/-- What a reader sees of a token: of an end mark only its line. -/
def Token.seen (t : Token) : Token :=
  if t.kind = .eof then Token.endMark t.line else t

@[simp] theorem Token.seen_kind (t : Token) : t.seen.kind = t.kind := by
  unfold seen
  split <;> simp_all

@[simp] theorem Token.seen_line (t : Token) : t.seen.line = t.line := by
  unfold seen
  split <;> rfl

@[simp] theorem Token.seen_describe (t : Token) : t.seen.describe = t.describe := by
  unfold seen
  split
  · next h => rw [describe_of_eof h, describe_of_eof (endMark_kind _)]
  · rfl

private theorem Token.seen_of_ne {t : Token} (h : t.kind ≠ .eof) : t.seen = t :=
  if_neg h

/-- The list ends with an end mark. -/
def IsClosed (tokens : List Token) : Prop :=
  ∃ t, tokens.getLast? = some t ∧ t.kind = .eof

theorem isClosed_closeTokens (ts : List Token) : IsClosed (closeTokens ts) :=
  getLast?_closeTokens ts

/-- The index is one of the list, and no end mark stands before it. -/
structure Within (tokens : List Token) (i : Nat) : Prop where
  lt : i < tokens.length
  before : ∀ t ∈ tokens.take i, t.kind ≠ .eof

/-- The input that the list holds from an index on. -/
def Input.fromIndex (tokens : List Token) (i : Nat) : Input :=
  Input.ofTokens (tokens.drop i)

variable {tokens tokens' : List Token} {i j : Nat} {t : Token}

theorem drop_eq_cons_of_getElem? (h : tokens[i]? = some t) :
    tokens.drop i = t :: tokens.drop (i + 1) := by
  obtain ⟨hi, rfl⟩ := List.getElem?_eq_some_iff.mp h
  exact List.drop_eq_getElem_cons hi

namespace IsClosed

theorem closeTokens_eq (h : IsClosed tokens) : closeTokens tokens = tokens := by
  obtain ⟨t, ht, hk⟩ := h
  simp [closeTokens, ht, hk]

private theorem drop (h : IsClosed tokens) (hi : i < tokens.length) : IsClosed (tokens.drop i) := by
  obtain ⟨t, ht, hk⟩ := h
  exact ⟨t, by rw [List.getLast?_drop, if_neg (Nat.not_le.mpr hi), ht], hk⟩

/-- After a token that is no end mark the list goes on. -/
private theorem lt_of_ne (h : IsClosed tokens) (ht : tokens[i]? = some t) (hk : t.kind ≠ .eof) :
    i + 1 < tokens.length := by
  obtain ⟨last, hlast, hlk⟩ := h
  obtain ⟨hi, rfl⟩ := List.getElem?_eq_some_iff.mp ht
  rcases Nat.lt_or_ge (i + 1) tokens.length with hlt | hge
  · exact hlt
  · have hsame : tokens.length - 1 = i := by omega
    rw [List.getLast?_eq_getElem?, hsame, List.getElem?_eq_getElem hi] at hlast
    exact absurd (Option.some.inj hlast ▸ hlk) hk

/-- At an end mark there is nothing ahead. -/
theorem fromIndex_of_eof (h : IsClosed tokens) (ht : tokens[i]? = some t) (hk : t.kind = .eof) :
    Input.fromIndex tokens i = ⟨[], t.line⟩ := by
  have hi := (List.getElem?_eq_some_iff.mp ht).1
  rw [Input.fromIndex, Input.ofTokens, (h.drop hi).closeTokens_eq, drop_eq_cons_of_getElem? ht]
  simp [hk]

/-- At any other token this token is ahead, and what comes after it. -/
private theorem fromIndex_of_ne (h : IsClosed tokens) (ht : tokens[i]? = some t)
    (hk : t.kind ≠ .eof) :
    Input.fromIndex tokens i = ⟨t :: (Input.fromIndex tokens (i + 1)).ahead,
      (Input.fromIndex tokens (i + 1)).endLine⟩ := by
  have hi := h.lt_of_ne ht hk
  simp only [Input.fromIndex, Input.ofTokens, (h.drop hi).closeTokens_eq,
    (h.drop (Nat.lt_of_succ_lt hi)).closeTokens_eq]
  simp [drop_eq_cons_of_getElem? ht, hk]

theorem current_fromIndex (h : IsClosed tokens) (ht : tokens[i]? = some t) :
    (Input.fromIndex tokens i).current = t.seen := by
  by_cases hk : t.kind = .eof
  · rw [h.fromIndex_of_eof ht hk, Token.seen, if_pos hk, Input.current_nil]
  · rw [h.fromIndex_of_ne ht hk, Token.seen_of_ne hk, Input.current_cons]

private theorem next_fromIndex (h : IsClosed tokens) (ht : tokens[i]? = some t) :
    (Input.fromIndex tokens i).next
      = Input.fromIndex tokens (if t.kind = .eof then i else i + 1) := by
  split
  · next hk => rw [h.fromIndex_of_eof ht hk, Input.next_nil]
  · next hk => rw [h.fromIndex_of_ne ht hk, Input.next_cons]

end IsClosed

namespace Within

theorem zero (h : IsClosed tokens) : Within tokens 0 := by
  obtain ⟨t, ht, -⟩ := h
  refine ⟨List.length_pos_iff.mpr ?_, by simp⟩
  rintro rfl
  simp at ht

theorem getElem? (h : Within tokens i) : ∃ t, tokens[i]? = some t :=
  ⟨_, List.getElem?_eq_getElem h.lt⟩

theorem succ (h : Within tokens i) (hclosed : IsClosed tokens) (ht : tokens[i]? = some t)
    (hk : t.kind ≠ .eof) : Within tokens (i + 1) := by
  refine ⟨hclosed.lt_of_ne ht hk, fun u hu => ?_⟩
  rw [List.take_add_one, ht] at hu
  rcases List.mem_append.mp hu with hu | hu
  · exact h.before u hu
  · obtain rfl : u = t := by simpa using hu
    exact hk

private theorem mono (h : Within tokens j) (hij : i ≤ j) : Within tokens i :=
  ⟨Nat.lt_of_le_of_lt hij h.lt,
    fun u hu => h.before u ((List.take_prefix_take_left hij).subset hu)⟩

/-- The tokens ahead at the start are those before the index and those ahead at the index. -/
theorem ahead_eq (h : Within tokens i) :
    (Input.ofTokens tokens).ahead = tokens.take i ++ (Input.fromIndex tokens i).ahead := by
  have hall : ∀ t ∈ tokens.take i, (t.kind != .eof) = true := by simpa using h.before
  rw [Input.fromIndex, Input.ahead_ofTokens, Input.ahead_ofTokens,
    ← List.takeWhile_append_of_pos hall, List.take_append_drop]

/-- An index and what is ahead there make up the same number everywhere. -/
theorem add_length_ahead (h : Within tokens i) :
    i + (Input.fromIndex tokens i).ahead.length = (Input.ofTokens tokens).ahead.length := by
  rw [h.ahead_eq, List.length_append, List.length_take, Nat.min_eq_left (Nat.le_of_lt h.lt)]

end Within

/-! ### Walks of the automaton -/

namespace Automaton

/-- The automaton goes along the tokens, one round for each of them, until one ends the
expression. -/
inductive Walk (closing : Closing) (tokens : List Token) :
    Automaton → Nat → List Nat → Except ParseError Expr → Nat → Prop where
  | take {a b : Automaton} {t : Token} {i j : Nat} {path : List Nat} {x : Except ParseError Expr} :
    tokens[i]? = some t → a.step closing t = .take b → Walk closing tokens b (i + 1) path x j →
      Walk closing tokens a i (i :: path) x j
  | leave {a : Automaton} {t : Token} {i : Nat} :
    tokens[i]? = some t → a.step closing t = .leave →
      Walk closing tokens a i [i] (a.stack.finish t.seen) i
  | refuse {a : Automaton} {t : Token} {i : Nat} {e : ParseError} :
    tokens[i]? = some t → a.step closing t = .refuse e → Walk closing tokens a i [i] (.error e) i
  | fail {a : Automaton} {t : Token} {i : Nat} {e : ParseError} :
    tokens[i]? = some t → a.step closing t = .fail e →
      Walk closing tokens a i [i] (.error e) (i + 1)

/-- An expression ends before an end mark. -/
theorem step_of_eof (closing : Closing) (a : Automaton) (h : t.kind = .eof) :
    a.step closing t = .leave := by
  simp [step, h, Kind.isOperand, Kind.isOperator]

/-- What does anything but end the expression is no end mark. -/
private theorem kind_ne_eof_of_step {closing : Closing} {a : Automaton} {s : Step}
    (h : a.step closing t = s) (hs : s ≠ .leave) : t.kind ≠ .eof :=
  fun hk => hs (h.symm.trans (step_of_eof closing a hk))

namespace Walk

variable {closing : Closing} {a : Automaton} {path : List Nat} {x : Except ParseError Expr}

/-- Each round looks at the token after that of the round before. -/
theorem path_eq (h : a.Walk closing tokens i path x j) : path = List.range' i path.length := by
  induction h with
  | take _ _ _ ih => rw [List.length_cons, List.range'_succ, ← ih]
  | leave => rfl
  | refuse => rfl
  | fail => rfl

private theorem bounds (h : a.Walk closing tokens i path x j) :
    i ≤ j ∧ ∀ k ∈ path, i ≤ k ∧ k ≤ j := by
  induction h with
  | take _ _ _ ih =>
    obtain ⟨hle, hpath⟩ := ih
    refine ⟨Nat.le_of_succ_le hle, List.forall_mem_cons.mpr ⟨⟨Nat.le_refl _, by omega⟩, ?_⟩⟩
    intro k hk
    have := hpath k hk
    omega
  | leave => simp
  | refuse => simp
  | fail => simp

theorem within (hclosed : IsClosed tokens) (h : a.Walk closing tokens i path x j)
    (hi : Within tokens i) : Within tokens j := by
  induction h with
  | take ht hstep _ ih => exact ih (hi.succ hclosed ht (kind_ne_eof_of_step hstep (by simp)))
  | leave => exact hi
  | refuse => exact hi
  | fail ht hstep => exact hi.succ hclosed ht (kind_ne_eof_of_step hstep (by simp))

/-- A walk is a run over what the list holds from the index on. -/
theorem run_eq (hclosed : IsClosed tokens) (h : a.Walk closing tokens i path x j) :
    a.run closing (Input.fromIndex tokens i).last (Input.fromIndex tokens i).ahead
        = (x, (Input.fromIndex tokens j).ahead) ∧
      (Input.fromIndex tokens j).endLine = (Input.fromIndex tokens i).endLine := by
  induction h with
  | take ht hstep _ ih =>
    have hk := kind_ne_eof_of_step hstep (by simp)
    rw [hclosed.fromIndex_of_ne ht hk]
    simpa [run, hstep, Input.last] using ih
  | @leave a t i ht hstep =>
    by_cases hk : t.kind = .eof
    · rw [hclosed.fromIndex_of_eof ht hk, Token.seen, if_pos hk]
      exact ⟨rfl, rfl⟩
    · rw [hclosed.fromIndex_of_ne ht hk, Token.seen_of_ne hk]
      simp [run, hstep]
  | refuse ht hstep =>
    have hk := kind_ne_eof_of_step hstep (by simp)
    rw [hclosed.fromIndex_of_ne ht hk]
    simp [run, hstep]
  | fail ht hstep =>
    have hk := kind_ne_eof_of_step hstep (by simp)
    rw [hclosed.fromIndex_of_ne ht hk]
    simp [run, hstep]

theorem of_agree (h : a.Walk closing tokens i path x j)
    (hagree : ∀ k ∈ path, tokens'[k]? = tokens[k]?) : a.Walk closing tokens' i path x j := by
  induction h with
  | take ht hstep _ ih =>
    obtain ⟨hhead, hrest⟩ := List.forall_mem_cons.mp hagree
    exact .take (hhead.trans ht) hstep (ih hrest)
  | leave ht hstep => exact .leave ((hagree _ (by simp)).trans ht) hstep
  | refuse ht hstep => exact .refuse ((hagree _ (by simp)).trans ht) hstep
  | fail ht hstep => exact .fail ((hagree _ (by simp)).trans ht) hstep

end Walk

/-- From every index the automaton comes to an end. -/
theorem exists_walk (closing : Closing) (hclosed : IsClosed tokens) (hi : Within tokens i)
    (a : Automaton) : ∃ path x j, a.Walk closing tokens i path x j := by
  -- Each round leaves fewer tokens behind the index, and the last of them ends every expression.
  obtain ⟨n, hn⟩ : ∃ n, tokens.length - i ≤ n := ⟨_, Nat.le_refl _⟩
  induction n generalizing i a with
  | zero => exact absurd hi.lt (by omega)
  | succ n ih =>
    obtain ⟨t, ht⟩ := hi.getElem?
    cases hstep : a.step closing t with
    | take b =>
      have hnext := hi.succ hclosed ht (kind_ne_eof_of_step hstep (by simp))
      obtain ⟨path, x, j, hwalk⟩ := ih hnext b (by omega)
      exact ⟨_, x, j, .take ht hstep hwalk⟩
    | leave => exact ⟨_, _, _, .leave ht hstep⟩
    | refuse e => exact ⟨_, _, _, .refuse ht hstep⟩
    | fail e => exact ⟨_, _, _, .fail ht hstep⟩

end Automaton

/-! ### Walks of parsers -/

namespace Parser

variable {α β : Type}

/-- What a parser does on a list of tokens: where it starts, which tokens it looks at, what comes
out, and where it ends. -/
inductive Walk (tokens : List Token) :
    {α : Type} → Parser α → Nat → List Nat → Except ParseError α → Nat → Prop where
  | pure {α : Type} (a : α) (i : Nat) : Walk tokens (pure a) i [] (.ok a) i
  | bind {α β : Type} {p : Parser α} {f : α → Parser β} {i j k : Nat} {path path' : List Nat}
      {a : α} {x : Except ParseError β} :
    Walk tokens p i path (.ok a) j → Walk tokens (f a) j path' x k →
      Walk tokens (p >>= f) i (path ++ path') x k
  | bindError {α β : Type} {p : Parser α} {f : α → Parser β} {i j : Nat} {path : List Nat}
      {e : ParseError} :
    Walk tokens p i path (.error e) j → Walk tokens (p >>= f) i path (.error e) j
  | current {i : Nat} {t : Token} :
    tokens[i]? = some t → Walk tokens current i [i] (.ok t.seen) i
  | advance {i : Nat} {t : Token} :
    tokens[i]? = some t →
      Walk tokens advance i [i] (.ok ()) (if t.kind = .eof then i else i + 1)
  | begin (head : Token) (i : Nat) : Walk tokens (begin head) i [] (.ok ()) i
  | refuse {α : Type} {i : Nat} {t : Token} {expected : Expectation} :
    tokens[i]? = some t →
      Walk tokens (refuse expected : Parser α) i [i] (.error (.unexpected expected t)) i
  | unterminated {α : Type} {i openedAt : Nat} {t : Token} {block : Kind} :
    tokens[i]? = some t → t.kind = .eof →
      Walk tokens (throw (.unterminatedBlock block openedAt t.line) : Parser α) i [i]
        (.error (.unterminatedBlock block openedAt t.line)) i
  | expression {closing : Closing} {i j : Nat} {path : List Nat} {x : Except ParseError Expr} :
    Automaton.start.Walk closing tokens i path x j →
      Walk tokens (expression closing) i path x j

/-- An outcome together with where reading stands then. -/
def resultAt : Except ParseError α → Reading → EStateM.Result ParseError Reading α
  | .ok a, r => .ok a r
  | .error e, r => .error e r

namespace Walk

variable {p : Parser α} {path : List Nat} {x : Except ParseError α}

theorem advance_of_ne (ht : tokens[i]? = some t) (hk : t.kind ≠ .eof) :
    Walk tokens Parser.advance i [i] (.ok ()) (i + 1) := by
  simpa [hk] using Walk.advance ht

theorem bounds (h : Walk tokens p i path x j) : i ≤ j ∧ ∀ k ∈ path, i ≤ k ∧ k ≤ j := by
  induction h with
  | pure => simp
  | bind _ _ ih ih' =>
    obtain ⟨hle, hpath⟩ := ih
    obtain ⟨hle', hpath'⟩ := ih'
    refine ⟨Nat.le_trans hle hle', List.forall_mem_append.mpr ⟨fun k hk => ?_, fun k hk => ?_⟩⟩
    · exact ⟨(hpath k hk).1, Nat.le_trans (hpath k hk).2 hle'⟩
    · exact ⟨Nat.le_trans hle (hpath' k hk).1, (hpath' k hk).2⟩
  | bindError _ ih => exact ih
  | current => simp
  | advance => split <;> simp
  | begin => simp
  | refuse => simp
  | unterminated => simp
  | expression h => exact h.bounds

/-- **In range.** A walk does not step over an end mark, and so it stays in the list. -/
theorem within (hclosed : IsClosed tokens) (h : Walk tokens p i path x j)
    (hi : Within tokens i) : Within tokens j := by
  induction h with
  | bind _ _ ih ih' => exact ih' (ih hi)
  | bindError _ ih => exact ih hi
  | advance ht =>
    split
    · exact hi
    · next hk => exact hi.succ hclosed ht hk
  | expression h => exact h.within hclosed hi
  | _ => exact hi

/-- The tokens that were looked at are there. -/
theorem within_of_mem (hclosed : IsClosed tokens) (h : Walk tokens p i path x j)
    (hi : Within tokens i) {k : Nat} (hk : k ∈ path) : Within tokens k :=
  (h.within hclosed hi).mono (h.bounds.2 k hk).2

/-- **Faithfulness.** A walk is what the parser does on the input from the index on. -/
theorem apply_eq (hclosed : IsClosed tokens) (h : Walk tokens p i path x j) (heads : List Token) :
    ∃ heads', p ⟨Input.fromIndex tokens i, heads⟩
      = resultAt x ⟨Input.fromIndex tokens j, heads'⟩ := by
  induction h generalizing heads with
  | pure a i => exact ⟨heads, rfl⟩
  | bind _ _ ih ih' =>
    obtain ⟨heads', hp⟩ := ih heads
    obtain ⟨heads'', hf⟩ := ih' heads'
    exact ⟨heads'', by rw [bind_apply, hp]; exact hf⟩
  | bindError _ ih =>
    obtain ⟨heads', hp⟩ := ih heads
    exact ⟨heads', by rw [bind_apply, hp]; rfl⟩
  | current ht => exact ⟨heads, by rw [current_apply, hclosed.current_fromIndex ht]; rfl⟩
  | advance ht => exact ⟨heads, by rw [advance_apply, hclosed.next_fromIndex ht]; rfl⟩
  | begin head i => exact ⟨heads ++ [head], rfl⟩
  | refuse ht =>
    refine ⟨heads, ?_⟩
    rw [refuse_apply, hclosed.current_fromIndex ht]
    simp [ParseError.unexpected, resultAt]
  | unterminated => exact ⟨heads, rfl⟩
  | @expression _ _ j _ x h =>
    obtain ⟨hrun, hline⟩ := h.run_eq hclosed
    refine ⟨heads, ?_⟩
    unfold Parser.expression
    rw [hrun]
    cases x <;> simp [resultAt, ← hline]

/-- **Finite use.** On a list with the same tokens where they were looked at, the parser goes the
same way. -/
theorem of_agree (h : Walk tokens p i path x j)
    (hagree : ∀ k ∈ path, tokens'[k]? = tokens[k]?) : Walk tokens' p i path x j := by
  induction h with
  | pure a i => exact .pure a i
  | bind _ _ ih ih' =>
    obtain ⟨hleft, hright⟩ := List.forall_mem_append.mp hagree
    exact .bind (ih hleft) (ih' hright)
  | bindError _ ih => exact .bindError (ih hagree)
  | current ht => exact .current ((hagree _ (by simp)).trans ht)
  | advance ht => exact .advance ((hagree _ (by simp)).trans ht)
  | begin head i => exact .begin head i
  | refuse ht => exact .refuse ((hagree _ (by simp)).trans ht)
  | unterminated ht hk => exact .unterminated ((hagree _ (by simp)).trans ht) hk
  | expression h => exact .expression (h.of_agree hagree)

end Walk

end Parser

end ScriptTree
