import ScriptTree.Token.Basic

/-!
# The tokens ahead

Reading a script goes along a list of tokens that ends with an end mark; a list that lacks one is
given one on the line of its last token. The first end mark is where the input ends, whatever
follows it, so an `Input` holds the tokens before it and the line it stands on.
-/

namespace ScriptTree

/-- The list with an end mark at its end: on the line of the last token, or on the first line if
there is no token. -/
def closeTokens (ts : List Token) : List Token :=
  match ts.getLast? with
  | none => [Token.endMark 1]
  | some t => if t.kind = .eof then ts else ts ++ [Token.endMark t.line]

/-- What is still to be read: the tokens before the end of the input, and the line it ends on. -/
structure Input where
  ahead : List Token
  endLine : Nat
  deriving DecidableEq, Repr

namespace Input

/-- The input that a list of tokens makes. -/
def ofTokens (ts : List Token) : Input :=
  let closed := closeTokens ts
  ⟨closed.takeWhile (·.kind != .eof),
    ((closed.find? (·.kind == .eof)).map Token.line).getD 1⟩

/-- The end of the input. -/
def last (i : Input) : Token :=
  Token.endMark i.endLine

/-- The next token, or the end of the input. -/
def current (i : Input) : Token :=
  i.ahead.headD i.last

/-- The input after the next token; at the end there is nothing to go past. -/
def next (i : Input) : Input :=
  { i with ahead := i.ahead.tail }

@[simp] theorem current_nil (n : Nat) : current ⟨[], n⟩ = Token.endMark n := rfl

@[simp] theorem current_cons (t : Token) (ts : List Token) (n : Nat) :
    current ⟨t :: ts, n⟩ = t := rfl

@[simp] theorem next_nil (n : Nat) : next ⟨[], n⟩ = ⟨[], n⟩ := rfl

@[simp] theorem next_cons (t : Token) (ts : List Token) (n : Nat) :
    next ⟨t :: ts, n⟩ = ⟨ts, n⟩ := rfl

/-- The tokens ahead are those before the first end mark. -/
theorem ahead_ofTokens (ts : List Token) :
    (ofTokens ts).ahead = ts.takeWhile (·.kind != .eof) := by
  simp only [ofTokens, closeTokens]
  split
  · next h => simp [List.getLast?_eq_none_iff.mp h]
  · split
    · rfl
    · rw [List.takeWhile_append]
      split
      · next h => simp [(List.takeWhile_prefix _).eq_of_length h]
      · rfl

/-- No token ahead is an end mark. -/
theorem kind_ne_eof_of_mem_ahead {ts : List Token} {t : Token} (h : t ∈ (ofTokens ts).ahead) :
    t.kind ≠ .eof := by
  have all := List.all_takeWhile (p := (·.kind != .eof)) (l := closeTokens ts)
  simpa using List.all_eq_true.mp all t h

end Input

/-- A closed list ends with an end mark. -/
theorem getLast?_closeTokens (ts : List Token) :
    ∃ t, (closeTokens ts).getLast? = some t ∧ t.kind = .eof := by
  unfold closeTokens
  split
  · exact ⟨_, rfl, rfl⟩
  · next t h =>
    split
    · next hk => exact ⟨t, h, hk⟩
    · exact ⟨Token.endMark t.line, by simp, rfl⟩

end ScriptTree
