import ScriptTree.Proofs.Position.Parsers

/-!
# One reading after another

A parser can be asked for a program again and again; each time it goes on from the index at which
it stopped (`stopIndex`). Every one of these readings is a walk along the closed list
(`exists_walk_of_stopIndex`), so what is known of walks is known of all of them.

The main result is `parseTimes_eq_of_agree`: the tokens behind the stopping index are never looked
at, neither those after an end mark nor those after an error.
-/

namespace ScriptTree

open ScriptTree.Parser

/-! ### What is ahead after several readings -/

namespace Input

/-- What is ahead after a number of readings. -/
def after (i : Input) : Nat → Input
  | 0 => i
  | n + 1 => i.parse.rest.after n

/-- Reading goes on from where it stopped. -/
theorem parseTimes_add (i : Input) (n m : Nat) :
    i.parseTimes (n + m) = i.parseTimes n ++ (i.after n).parseTimes m := by
  induction n generalizing i with
  | zero => rw [Nat.zero_add]; rfl
  | succ n ih =>
    rw [Nat.add_right_comm]
    exact congrArg (i.parse.result :: ·) (ih i.parse.rest)

private theorem after_succ (i : Input) (n : Nat) : i.after (n + 1) = (i.after n).parse.rest := by
  induction n generalizing i with
  | zero => rfl
  | succ n ih => exact ih i.parse.rest

private theorem length_parseTimes (i : Input) (n : Nat) : (i.parseTimes n).length = n := by
  induction n generalizing i with
  | zero => rfl
  | succ n ih => exact congrArg (· + 1) (ih i.parse.rest)

/-- The next result after `n` readings. -/
theorem getElem?_parseTimes (i : Input) (n : Nat) :
    (i.parseTimes (n + 1))[n]? = some (i.after n).parse.result := by
  rw [parseTimes_add, List.getElem?_append_right (Nat.le_of_eq (i.length_parseTimes n)),
    i.length_parseTimes, Nat.sub_self]
  rfl

/-- An end mark that is put at the end is met only there. -/
theorem ofTokens_eq_fromIndex (ts : List Token) : ofTokens ts = fromIndex (closeTokens ts) 0 := by
  simp only [fromIndex, ofTokens, List.drop_zero, (isClosed_closeTokens ts).closeTokens_eq]

end Input

/-- The index, in the closed list, at which the last of `n` readings has stopped: the number of
tokens that were taken. -/
def stopIndex (ts : List Token) (n : Nat) : Nat :=
  (Input.ofTokens ts).ahead.length - ((Input.ofTokens ts).after n).ahead.length

/-! ### Readings are walks -/

variable {tokens : List Token} {i j n : Nat} {path : List Nat} {x : Except ParseError Program}

/-- The outcome of a reading is that of the walk. -/
theorem Parser.Walk.parse_eq (hclosed : IsClosed tokens) (h : Walk tokens program i path x j) :
    (Input.fromIndex tokens i).parse.result = x ∧
      (Input.fromIndex tokens i).parse.rest = Input.fromIndex tokens j := by
  obtain ⟨heads, hrun⟩ := h.apply_eq hclosed []
  unfold Input.parse
  rw [hrun]
  cases x <;> exact ⟨rfl, rfl⟩

/-- There is just one index at which a given input is ahead. -/
private theorem stopIndex_eq {ts : List Token} (hj : Within (closeTokens ts) j)
    (h : (Input.ofTokens ts).after n = Input.fromIndex (closeTokens ts) j) :
    stopIndex ts n = j := by
  have hlen := hj.add_length_ahead
  rw [Input.ofTokens_eq_fromIndex (closeTokens ts), (isClosed_closeTokens ts).closeTokens_eq,
    ← Input.ofTokens_eq_fromIndex] at hlen
  rw [stopIndex, h]
  omega

/-- What is ahead after some readings is what the list holds from the stopping index on. -/
theorem after_eq_fromIndex (ts : List Token) (n : Nat) :
    Within (closeTokens ts) (stopIndex ts n) ∧
      (Input.ofTokens ts).after n = Input.fromIndex (closeTokens ts) (stopIndex ts n) := by
  have hclosed := isClosed_closeTokens ts
  have hreach : ∃ j, Within (closeTokens ts) j ∧
      (Input.ofTokens ts).after n = Input.fromIndex (closeTokens ts) j := by
    induction n with
    | zero => exact ⟨0, .zero hclosed, Input.ofTokens_eq_fromIndex ts⟩
    | succ n ih =>
      obtain ⟨i, hi, hafter⟩ := ih
      obtain ⟨path, x, j, hwalk⟩ := program_walks hclosed 0 i (Nat.zero_le i) hi
      refine ⟨j, hwalk.within hclosed hi, ?_⟩
      rw [Input.after_succ, hafter, (hwalk.parse_eq hclosed).2]
  obtain ⟨j, hj, hafter⟩ := hreach
  obtain rfl := stopIndex_eq hj hafter
  exact ⟨hj, hafter⟩

/-- A walk from a stopping index is the next reading. -/
theorem eq_of_walk_stopIndex {ts : List Token}
    (h : Walk (closeTokens ts) program (stopIndex ts n) path x j) :
    ((Input.ofTokens ts).after n).parse.result = x ∧ stopIndex ts (n + 1) = j := by
  have hclosed := isClosed_closeTokens ts
  obtain ⟨hi, hafter⟩ := after_eq_fromIndex ts n
  obtain ⟨hresult, hrest⟩ := h.parse_eq hclosed
  refine ⟨by rw [hafter, hresult], stopIndex_eq (h.within hclosed hi) ?_⟩
  rw [Input.after_succ, hafter, hrest]

/-- Every reading is a walk from one stopping index to the next. -/
theorem exists_walk_of_stopIndex (ts : List Token) (n : Nat) :
    ∃ path, Walk (closeTokens ts) program (stopIndex ts n) path
      ((Input.ofTokens ts).after n).parse.result (stopIndex ts (n + 1)) := by
  have hi := (after_eq_fromIndex ts n).1
  obtain ⟨path, x, j, hwalk⟩ := program_walks (isClosed_closeTokens ts) 0 _ (Nat.zero_le _) hi
  obtain ⟨rfl, rfl⟩ := eq_of_walk_stopIndex hwalk
  exact ⟨path, hwalk⟩

private theorem stopIndex_zero (ts : List Token) : stopIndex ts 0 = 0 :=
  Nat.sub_self _

private theorem stopIndex_le_succ (ts : List Token) (n : Nat) :
    stopIndex ts n ≤ stopIndex ts (n + 1) := by
  obtain ⟨path, hwalk⟩ := exists_walk_of_stopIndex ts n
  exact hwalk.bounds.1

/-- A program is read up to the first end mark. -/
theorem kind_eq_eof_of_ok {ts : List Token} {p : Program}
    (h : ((Input.ofTokens ts).after n).parse.result = .ok p) :
    ∃ t, (closeTokens ts)[stopIndex ts (n + 1)]? = some t ∧ t.kind = .eof := by
  have hclosed := isClosed_closeTokens ts
  obtain ⟨path, hwalk⟩ := exists_walk_of_stopIndex ts n
  rw [h] at hwalk
  obtain ⟨t, ht⟩ := (after_eq_fromIndex ts (n + 1)).1.getElem?
  obtain ⟨heads, hrun⟩ := hwalk.apply_eq hclosed []
  have hcurrent := current_of_program hrun
  refine ⟨t, ht, ?_⟩
  rwa [hclosed.current_fromIndex ht, Token.seen_kind] at hcurrent

/-! ### The main result -/

/-- **Nothing behind the stop is looked at.** Take any number of readings of a list. They stop at an
index with no end mark before it, and at the first end mark itself if the last of them succeeds. On
every list that has the same tokens up to this index, they give the same results and stop at the
same index. -/
theorem parseTimes_eq_of_agree (ts : List Token) (n : Nat) :
    Within (closeTokens ts) (stopIndex ts n) ∧
    (∀ p, ((Input.ofTokens ts).parseTimes n).getLast? = some (.ok p) →
      ∃ t, (closeTokens ts)[stopIndex ts n]? = some t ∧ t.kind = .eof) ∧
    ∀ us : List Token,
      (∀ i ≤ stopIndex ts n, (closeTokens us)[i]? = (closeTokens ts)[i]?) →
        (Input.ofTokens us).parseTimes n = (Input.ofTokens ts).parseTimes n ∧
          stopIndex us n = stopIndex ts n := by
  refine ⟨(after_eq_fromIndex ts n).1, fun p hp => ?_, fun us hagree => ?_⟩
  · cases n with
    | zero => simp [Input.parseTimes] at hp
    | succ n =>
      rw [List.getLast?_eq_getElem?, Input.length_parseTimes, Nat.add_sub_cancel,
        Input.getElem?_parseTimes] at hp
      exact kind_eq_eof_of_ok (Option.some.inj hp)
  · induction n with
    | zero => exact ⟨rfl, by rw [stopIndex_zero, stopIndex_zero]⟩
    | succ n ih =>
      have hle := stopIndex_le_succ ts n
      obtain ⟨hresults, hstop⟩ := ih fun i hi => hagree i (Nat.le_trans hi hle)
      -- The next reading of the one list is a walk on the other list as well.
      obtain ⟨path, hwalk⟩ := exists_walk_of_stopIndex ts n
      have hwalk' := hwalk.of_agree fun k hk => hagree k (hwalk.bounds.2 k hk).2
      rw [← hstop] at hwalk'
      obtain ⟨hresult, hnext⟩ := eq_of_walk_stopIndex hwalk'
      refine ⟨?_, hnext⟩
      rw [Input.parseTimes_add, Input.parseTimes_add, hresults]
      simp only [Input.parseTimes, hresult]

/-- What follows an end mark does not matter, and what follows an error does not. -/
theorem parseTimes_eq_of_agree_header :
    let header : List Token := [⟨.kwScript, "SCRIPT", 1⟩, ⟨.kwArea, "AREA", 1⟩,
      ⟨.kwStart, "START", 1⟩, ⟨.kwScript, "SCRIPT", 1⟩]
    let whole : List Token :=
      header ++ [⟨.kwEnd, "END", 2⟩, ⟨.kwScript, "SCRIPT", 2⟩, ⟨.eof, "", 2⟩]
    let broken : List Token := header ++ [⟨.comma, ",", 2⟩]
    let more : List Token := [⟨.identifier, "x", 3⟩, ⟨.eof, "", 3⟩, ⟨.star, "*", 4⟩]
    ((Input.ofTokens whole).parseTimes 1).getLast? = some (.ok ⟨[], []⟩) ∧
      (∃ t, (closeTokens whole)[stopIndex whole 1]? = some t ∧ t.kind = .eof) ∧
      (Input.ofTokens (whole ++ more)).parseTimes 1 = (Input.ofTokens whole).parseTimes 1 ∧
      stopIndex broken 1 = 4 ∧
      (∀ i ≤ stopIndex broken 1, (closeTokens (broken ++ more))[i]? = (closeTokens broken)[i]?) ∧
      (Input.ofTokens (broken ++ more)).parseTimes 1 = (Input.ofTokens broken).parseTimes 1 := by
  intro header whole broken more
  have hok : ((Input.ofTokens whole).parseTimes 1).getLast? = some (.ok ⟨[], []⟩) := rfl
  have hwhole : ∀ i ≤ stopIndex whole 1,
      (closeTokens (whole ++ more))[i]? = (closeTokens whole)[i]? := by decide
  have hbroken : ∀ i ≤ stopIndex broken 1,
      (closeTokens (broken ++ more))[i]? = (closeTokens broken)[i]? := by decide
  exact ⟨hok, (parseTimes_eq_of_agree whole 1).2.1 _ hok,
    ((parseTimes_eq_of_agree whole 1).2.2 _ hwhole).1, rfl, hbroken,
    ((parseTimes_eq_of_agree broken 1).2.2 _ hbroken).1⟩

end ScriptTree
