import ScriptTree.Proofs.Position.Calls

/-!
# Reading always gets on

Whatever the list of tokens and however often a program is asked for, the index at which reading
stands is one of the list, with no end mark before it, at every token that is looked at. What is
read successfully takes at least a token, and so does every round of a loop that is not its last.

A loop is put as its round (`Parser.IsLoop`): a parser that either yields a part of the result, upon
which the loop goes round again, or ends the loop. The loops are those over the values of a `PRINT`,
the names of a `SCAN`, the variables of a declaration, the declarations, the statements of a block
and the alternatives of a conditional. The loop of the automaton is its walk.
-/

namespace ScriptTree

namespace Parser

variable {α β : Type}

/-! ### Progress -/

/-- Every success moves the index on. -/
def Advances (tokens : List Token) (p : Parser α) : Prop :=
  ∀ ⦃i j : Nat⦄ ⦃path : List Nat⦄ ⦃a : α⦄, Within tokens i → Walk tokens p i path (.ok a) j → i < j

/-- The loop goes round for as long as the round yields a part of the result, and each such round
moves the index on. -/
structure IsLoop (tokens : List Token) (loop : Parser α) (round : Parser (β ⊕ α))
    (join : β → α → α) : Prop where
  repeats : loop = round >>= Sum.elim (fun b => do return join b (← loop)) pure
  advances : ∀ ⦃i j : Nat⦄ ⦃path : List Nat⦄ ⦃b : β⦄, Within tokens i →
    Walk tokens round i path (.ok (.inl b)) j → i < j

/-- Whatever yields a part of the result takes a token. -/
def YieldsTokens (ts : List Token) (x : β ⊕ α) : Prop :=
  x.isLeft = true → ts ≠ []

private theorem yieldsTokens_cons (t : Token) (ts : List Token) (x : β ⊕ α) :
    YieldsTokens (t :: ts) x := by
  simp [YieldsTokens]

private theorem yieldsTokens_inr (ts : List Token) (a : α) :
    YieldsTokens ts (.inr a : β ⊕ α) := by
  simp [YieldsTokens]

/-- A round that yields nothing without a token makes a loop. -/
private theorem IsLoop.of_sound {tokens : List Token} (hclosed : IsClosed tokens) {loop : Parser α}
    {round : Parser (β ⊕ α)} {join : β → α → α}
    (hrepeats : loop = round >>= Sum.elim (fun b => do return join b (← loop)) pure)
    (hround : Sound round YieldsTokens) : IsLoop tokens loop round join where
  repeats := hrepeats
  advances _ _ _ _ hi h := h.lt_of_sound hclosed hi hround fun _ hne => hne rfl

/-! ### Rounds -/

/-- One more value of a `PRINT`. -/
def valueRound : Parser (Expr ⊕ List Expr) := do
  if ← accept .ampersand then
    return .inl (← expression .reject)
  else
    return .inr []

/-- One more name of a `SCAN`. -/
def nameRound : Parser (Token ⊕ List Token) := do
  if ← accept .comma then
    return .inl (← identifier .nextScan)
  else
    return .inr []

/-- One more variable of a declaration. -/
def entryRound (typeName : Token) : Parser (VarDecl ⊕ List VarDecl) := do
  if ← accept .comma then
    return .inl (← entry typeName)
  else
    return .inr []

/-- One more declaration. -/
def declarationRound : Parser (List VarDecl ⊕ List VarDecl) := do
  if (← current).kind.isTypeKeyword then
    return .inl (← declaration)
  else
    return .inr []

/-- One more statement of a block. -/
def statementRound (inner : Parser Stmt) : Parser (Stmt ⊕ Block) := do
  match (← current).kind with
  | .kwEnd | .eof => return .inr []
  | _ => return .inl (← inner)

/-- One more alternative of a conditional. One without a condition is the last. -/
def alternativeRound (inner : Parser Stmt) : Parser ((Expr × Block) ⊕ ElseChain) := do
  if ← accept .kwElse then
    if ← accept .kwIf then
      let cond ← expression .reject
      let body ← block inner .kwIf .elseIfBlock
      return .inl (cond, body)
    else
      let body ← block inner .kwIf .elseBlock
      return .inr (.otherwise body)
  else
    return .inr .done

/-- Both branches go on in the same way. -/
private theorem ite_bind {c : Prop} [Decidable c] {p q : Parser α} {f : α → Parser β} :
    (if c then p else q) >>= f = if c then p >>= f else q >>= f := by
  split <;> rfl

section

variable {tokens : List Token} (hclosed : IsClosed tokens)

include hclosed

private theorem isLoop_moreValues : IsLoop tokens moreValues valueRound (· :: ·) := by
  refine .of_sound hclosed (moreValues_eq.trans ?_) ?_
  · simp only [valueRound, bind_assoc, ite_bind, pure_bind, Sum.elim_inl, Sum.elim_inr]
  · refine .accept_bind (by decide) (fun sign _ => ?_) (.pure (yieldsTokens_inr _ _))
    exact (expression_sound .reject).bind fun _ _ _ => .pure (yieldsTokens_cons _ _ _)

private theorem isLoop_moreNames : IsLoop tokens moreNames nameRound (· :: ·) := by
  refine .of_sound hclosed (moreNames_eq.trans ?_) ?_
  · simp only [nameRound, bind_assoc, ite_bind, pure_bind, Sum.elim_inl, Sum.elim_inr]
  · refine .accept_bind (by decide) (fun comma _ => ?_) (.pure (yieldsTokens_inr _ _))
    exact (identifier_sound _).bind fun _ _ _ => .pure (yieldsTokens_cons _ _ _)

private theorem isLoop_moreEntries (typeName : Token) :
    IsLoop tokens (moreEntries typeName) (entryRound typeName) (· :: ·) := by
  refine .of_sound hclosed ((moreEntries_eq typeName).trans ?_) ?_
  · simp only [entryRound, bind_assoc, ite_bind, pure_bind, Sum.elim_inl, Sum.elim_inr]
  · refine .accept_bind (by decide) (fun comma _ => ?_) (.pure (yieldsTokens_inr _ _))
    exact (entry_sound typeName).bind fun _ _ _ => .pure (yieldsTokens_cons _ _ _)

private theorem isLoop_declarations : IsLoop tokens declarations declarationRound (· ++ ·) := by
  have hround : declarationRound = do
      let t ← current
      if t.kind.isTypeKeyword then
        advance
        return .inl (← declarationRest t)
      else
        return .inr [] := declaration_guarded _ _
  refine .of_sound hclosed (declarations_eq.trans ?_) (hround ▸ .current_bind fun t => ?_)
  · simp only [hround, bind_assoc, ite_bind, pure_bind, Sum.elim_inl, Sum.elim_inr]
  · split
    · next htype =>
      have hne := Kind.ne_eof_of_isTypeKeyword htype
      refine .advance_bind hne ((declarationRest_sound t).bind fun _ _ _ => .pure ?_)
      exact yieldsTokens_cons _ _ _
    · exact (Sound.pure (yieldsTokens_inr _ _)).soundAt t

variable {inner : Parser Stmt} (hinner : Sound inner Stmt.Derives)

include hinner

private theorem isLoop_statements :
    IsLoop tokens (statements inner) (statementRound inner) (· :: ·) := by
  refine .of_sound hclosed ((statements_eq hinner).trans ?_) (.current_bind fun t => ?_)
  · simp only [statementRound, bind_assoc]
    congr 1
    funext t
    generalize t.kind = k
    split
    · rfl
    · rfl
    · simp only [bind_assoc, pure_bind, Sum.elim_inl]
  · refine Sound.soundAt ?_ t
    split
    · exact .pure (yieldsTokens_inr _ _)
    · exact .pure (yieldsTokens_inr _ _)
    · refine hinner.bind fun ts s hs => .pure fun _ => ?_
      simpa using ne_nil_of_statement hs

private theorem isLoop_alternatives :
    IsLoop tokens (alternatives inner) (alternativeRound inner) fun part rest =>
      .elseIf part.1 part.2 rest := by
  refine .of_sound hclosed ((alternatives_eq hinner).trans ?_) ?_
  · simp only [alternativeRound, bind_assoc, ite_bind, pure_bind, Sum.elim_inl, Sum.elim_inr]
  · refine .accept_bind (by decide) (fun head _ => ?_) (.pure (yieldsTokens_inr _ _))
    refine .accept_bind (by decide) (fun word _ => ?_) ?_
    · refine (expression_sound .reject).bind fun _ _ _ => ?_
      exact (block_sound hinner (by decide) _).bind fun _ _ _ => .pure (yieldsTokens_cons _ _ _)
    · exact (block_sound hinner (by decide) _).bind fun _ _ _ => .pure (yieldsTokens_inr _ _)

end

end Parser

open ScriptTree.Parser

/-! ### The main result -/

/-- **In range, and always onward.** Each of any number of readings of a list is a walk along the
closed list, from where the one before it stopped, and every such walk stays at indices of the list
with no end mark before them. Statements, expressions and declarations that are read take a token,
the loops take one in every round but the last, and the automaton looks at one token after the
other. -/
theorem calls_within_and_advance (ts : List Token) :
    (∀ n, ∃ path, Walk (closeTokens ts) program (stopIndex ts n) path
      ((Input.ofTokens ts).after n).parse.result (stopIndex ts (n + 1))) ∧
    (∀ n path x j, Walk (closeTokens ts) program (stopIndex ts n) path x j →
      ((Input.ofTokens ts).after n).parse.result = x ∧ stopIndex ts (n + 1) = j ∧
        ∀ i ∈ j :: path, Within (closeTokens ts) i) ∧
    (Advances (closeTokens ts) statement ∧
      (∀ closing, Advances (closeTokens ts) (expression closing)) ∧
      Advances (closeTokens ts) declaration ∧
      ∀ typeName, Advances (closeTokens ts) (declarationRest typeName)) ∧
    (IsLoop (closeTokens ts) moreValues valueRound (· :: ·) ∧
      IsLoop (closeTokens ts) moreNames nameRound (· :: ·) ∧
      (∀ typeName, IsLoop (closeTokens ts) (moreEntries typeName) (entryRound typeName) (· :: ·)) ∧
      IsLoop (closeTokens ts) declarations declarationRound (· ++ ·) ∧
      IsLoop (closeTokens ts) (statements statement) (statementRound statement) (· :: ·) ∧
      IsLoop (closeTokens ts) (alternatives statement) (alternativeRound statement)
        fun part rest => .elseIf part.1 part.2 rest) ∧
    ∀ closing a i path x j, Automaton.Walk closing (closeTokens ts) a i path x j →
      path = List.range' i path.length := by
  have hclosed := isClosed_closeTokens ts
  refine ⟨exists_walk_of_stopIndex ts, fun n path x j hwalk => ?_,
    ⟨?_, fun closing => ?_, ?_, fun typeName => ?_⟩,
    ⟨isLoop_moreValues hclosed, isLoop_moreNames hclosed, isLoop_moreEntries hclosed,
      isLoop_declarations hclosed, isLoop_statements hclosed statement_sound,
      isLoop_alternatives hclosed statement_sound⟩,
    fun _ _ _ _ _ _ hwalk => hwalk.path_eq⟩
  · have hi := (after_eq_fromIndex ts n).1
    obtain ⟨hresult, hstop⟩ := eq_of_walk_stopIndex hwalk
    refine ⟨hresult, hstop, List.forall_mem_cons.mpr ⟨hwalk.within hclosed hi, fun i hmem => ?_⟩⟩
    exact hwalk.within_of_mem hclosed hi hmem
  · exact fun _ _ _ s hi hwalk =>
      hwalk.lt_of_sound hclosed hi statement_sound fun _ => ne_nil_of_statement
  · exact fun _ _ _ e hi hwalk =>
      hwalk.lt_of_sound hclosed hi (expression_sound closing) fun _ he => he.ne_nil
  · intro _ _ _ ds hi hwalk
    refine hwalk.lt_of_sound hclosed hi declaration_sound ?_
    rintro _ ⟨_, us, dollar, rfl, -⟩
    simp
  · intro _ _ _ ds hi hwalk
    refine hwalk.lt_of_sound hclosed hi (declarationRest_sound typeName) ?_
    rintro _ ⟨us, dollar, rfl, -⟩
    simp

/-- An end mark after the first word stops reading for good, whatever comes after it. -/
theorem calls_within_and_advance_endMark :
    let ts : List Token := [⟨.kwScript, "SCRIPT", 1⟩, ⟨.eof, "", 1⟩, ⟨.comma, ",", 2⟩]
    let e : ParseError := .unexpectedToken (.after .kwArea .kwScript) "end of input" 1
    ∃ path, Walk (closeTokens ts) program 0 path (.error e) 1 ∧
      ∀ i ∈ 1 :: path, Within (closeTokens ts) i := by
  intro ts e
  obtain ⟨path, hwalk⟩ := (calls_within_and_advance ts).1 0
  obtain ⟨-, -, hwithin⟩ := (calls_within_and_advance ts).2.1 0 path _ _ hwalk
  have hresult : ((Input.ofTokens ts).after 0).parse.result = .error e := rfl
  have hstart : stopIndex ts 0 = 0 := rfl
  have hstop : stopIndex ts 1 = 1 := rfl
  rw [hresult, hstart, hstop] at hwalk
  exact ⟨path, hwalk, hstop ▸ hwithin⟩

end ScriptTree
