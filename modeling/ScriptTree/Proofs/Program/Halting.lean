import ScriptTree.Proofs.Expression.Failure
import ScriptTree.Proofs.Program.Blocks
import ScriptTree.Proofs.Program.Soundness

/-!
# Where reading stands when it fails

`Halted tokens e rest` says what is known of an error from the place in the program where it was
met, when `tokens` are all tokens from the beginning of the program and `rest` those that were not
taken. If the input ended inside a block, this is the innermost one that the tokens taken leave
open. If an expression failed, a run of the automaton did, over the tokens of just this expression,
and the tokens before it are such as lead an expression (`Leads`).

`Parser.Halts before p` says this of the parser `p` wherever it is run after the tokens `before`.
The rules follow the ways in which parsers are put together: what was taken on the way joins the
tokens before.

The main result is `program_halts`.
-/

namespace ScriptTree

variable {before used tokens rest : List Token} {t name sign : Token} {closing : Closing}
  {opened : List (Kind × Nat)} {e : ParseError}

/-! ### What leads an expression -/

/-- The tokens end like the header of a `FOR` before the value of its update: with a comma, a name
and an equal sign, and a `FOR` stands somewhere before them. -/
def BeforeUpdate (ts : List Token) : Prop :=
  ∃ us comma name sign, ts = us ++ [comma, name, sign] ∧ (∃ t ∈ us, t.kind = .kwFor) ∧
    comma.kind = .comma ∧ name.kind = .identifier ∧ sign.kind = .equal

/-- An expression begins after these tokens: the last of them cannot belong to it, and if a closing
parenthesis without a partner is a mismatch to it, it is not the value of an update. -/
structure Leads (closing : Closing) (before : List Token) : Prop where
  last : ∀ t ∈ before.getLast?, t.kind.isExpressionPart = false
  update : closing = .reject → ¬ BeforeUpdate before

namespace Leads

/-- After any token but an equal sign no value of an update begins. -/
private theorem concat {k : Kind} (ht : t.kind = k) (hpart : k.isExpressionPart = false)
    (hsign : k ≠ .equal) : Leads closing (before ++ [t]) := by
  refine ⟨by simpa [ht] using hpart, ?_⟩
  rintro - ⟨us, comma, name, sign, heq, -, -, -, hequal⟩
  have hconcat : before ++ [t] = (us ++ [comma, name]) ++ [sign] := by simpa using heq
  obtain ⟨-, hlast⟩ := List.append_inj' hconcat rfl
  obtain rfl := List.singleton_inj.mp hlast
  exact hsign (ht.symm.trans hequal)

/-- The value of an update comes after a comma and a `FOR`. -/
private theorem value (hsign : sign.kind = .equal)
    (h : closing = .reject → (∀ t ∈ before.getLast?, t.kind ≠ .comma) ∨
      ∀ t ∈ before, t.kind ≠ .kwFor) : Leads closing (before ++ [name] ++ [sign]) := by
  have hpart : Kind.isExpressionPart .equal = false := rfl
  refine ⟨by simp [hsign, hpart], fun hreject => ?_⟩
  rintro ⟨us, comma, name', sign', heq, ⟨word, hword, hfor⟩, hcomma, -, -⟩
  have hsplit : before ++ [name, sign] = (us ++ [comma]) ++ [name', sign'] := by simpa using heq
  obtain ⟨rfl, -⟩ := List.append_inj' hsplit rfl
  rcases h hreject with hlast | hnone
  · exact hlast comma (by simp) hcomma
  · exact hnone word (List.mem_append_left _ hword) hfor

end Leads

/-! ### Halting -/

/-- What is known of an error from the place where it was met. -/
inductive Halted (tokens : List Token) : ParseError → List Token → Prop where
  /-- Something else was expected. -/
  | unexpected {expected : Expectation} {found : String} {line : Nat} {rest : List Token} :
    Halted tokens (.unexpectedToken expected found line) rest
  /-- The input ended inside a block. -/
  | unterminated {block : Kind} {openedAt line : Nat} {taken rest : List Token}
      {opened : List (Kind × Nat)} :
    tokens = taken ++ rest → openBlocks [] taken = some ((block, openedAt) :: opened) →
      Halted tokens (.unterminatedBlock block openedAt line) rest
  /-- An expression failed. -/
  | expression {before ahead rest : List Token} {closing : Closing} {last : Token}
      {e : ParseError} :
    tokens = before ++ ahead → Leads closing before → last.kind = .eof →
      Automaton.start.run closing last ahead = (.error e, rest) → Halted tokens e rest

/-- After these tokens the given blocks are open. -/
def Opens (before : List Token) (opened : List (Kind × Nat)) : Prop :=
  ∀ us, openBlocks [] (before ++ us) = openBlocks opened us

/-- A statement or the end of a block may come after these tokens. -/
structure Stands (before : List Token) (opened : List (Kind × Nat)) : Prop where
  opens : Opens before opened
  last : ∀ t ∈ before.getLast?, t.kind ≠ .comma

/-- The blocks stay open over tokens that leave the stack alone. -/
private theorem Opens.append (h : Opens before opened) (hused : Neutral used) :
    Opens (before ++ used) opened := by
  intro us
  rw [List.append_assoc, h, hused]

private theorem Opens.concat {k : Kind} (h : Opens before opened) (ht : t.kind = k)
    (hk : k ≠ .kwStart ∧ k ≠ .kwEnd) : Opens (before ++ [t]) opened :=
  h.append (.cons ht hk .nil)

/-- A block is opened. -/
private theorem Opens.start {start word : Token} {k : Kind} (h : Opens before opened)
    (hstart : start.kind = .kwStart) (hword : word.kind = k) (hk : k.isBlock = true) :
    Stands (before ++ [start] ++ [word]) ((k, start.line) :: opened) := by
  subst hword
  refine ⟨fun us => ?_, ?_⟩
  · rw [List.append_assoc, List.append_assoc, h]
    exact openBlocks_start hstart hk
  · rw [List.getLast?_concat]
    rintro _ ⟨⟩ hcomma
    rw [hcomma] at hk
    contradiction

/-- A whole statement leaves the place of a statement behind it. -/
private theorem Stands.append (h : Stands before opened) (hused : Whole used) :
    Stands (before ++ used) opened := by
  refine ⟨h.opens.append hused.neutral, fun t ht => ?_⟩
  rw [List.getLast?_append] at ht
  rcases Option.or_eq_some_iff.mp ht with ht | ⟨-, ht⟩
  · exact hused.last t ht
  · exact h.last t ht

namespace Parser

variable {α β : Type} {p : Parser α} {f : α → Parser β}

/-- Wherever the parser fails after these tokens, it is known what the error comes from. -/
def Halts (before : List Token) (p : Parser α) : Prop :=
  ∀ ⦃r s : Reading⦄ ⦃e : ParseError⦄, p r = .error e s →
    Halted (before ++ r.input.ahead) e s.input.ahead

/-- The same for a parser that is run only where `t` comes next. -/
def HaltsAt (t : Token) (before : List Token) (p : Parser α) : Prop :=
  ∀ ⦃r s : Reading⦄ ⦃e : ParseError⦄, r.input.current = t → p r = .error e s →
    Halted (before ++ r.input.ahead) e s.input.ahead

/-- A token that was looked at is the one that is taken next. -/
theorem HaltsAt.advance_bind {k : Kind} {q : Unit → Parser β} (ht : t.kind = k) (hk : k ≠ .eof)
    (hq : Halts (before ++ [t]) (q ())) : HaltsAt t before (advance >>= q) := by
  rintro r s e rfl h
  rw [bind_apply, advance_apply] at h
  obtain ⟨⟨ahead, n⟩, heads⟩ := r
  cases ahead with
  | nil => exact absurd ht.symm hk
  | cons t ts =>
    rw [List.append_cons]
    exact hq h

namespace Halts

variable {G : List Token → α → Prop}

theorem pure (a : α) : Halts before (Pure.pure a) := by
  intro r s e h
  contradiction

/-- Of a refusal nothing has to be known. -/
theorem refuse (expected : Expectation) : Halts before (Parser.refuse expected : Parser α) := by
  intro r s e h
  obtain ⟨rfl, rfl⟩ := EStateM.Result.error.inj h
  exact .unexpected

/-- What the first parser takes joins the tokens before the second one. -/
theorem bind (hp : Halts before p) (hsound : Sound p G)
    (hf : ∀ used a, G used a → Halts (before ++ used) (f a)) : Halts before (p >>= f) := by
  intro r s e h
  rw [bind_apply] at h
  cases hr : p r with
  | error e' t =>
    rw [hr] at h
    obtain ⟨rfl, rfl⟩ := EStateM.Result.error.inj h
    exact hp hr
  | ok a t =>
    rw [hr] at h
    obtain ⟨used, hused, hG⟩ := hsound hr
    rw [hused, ← List.append_assoc]
    exact hf used a hG h

/-- A result that is only put together does not fail. -/
theorem bind_pure {g : α → β} (hp : Halts before p) :
    Halts before (p >>= fun a => Pure.pure (g a)) := by
  intro r s e h
  rw [bind_apply] at h
  cases hr : p r with
  | error e' t =>
    rw [hr] at h
    obtain ⟨rfl, rfl⟩ := EStateM.Result.error.inj h
    exact hp hr
  | ok a t =>
    rw [hr] at h
    contradiction

/-- What depends on the next token is shown for each token. -/
theorem current_bind {f : Token → Parser β} (hf : ∀ t, HaltsAt t before (f t)) :
    Halts before (current >>= f) := by
  intro r s e h
  rw [bind_apply, current_apply] at h
  exact hf _ rfl h

private theorem haltsAt (hp : Halts before p) (t : Token) : HaltsAt t before p :=
  fun _ _ _ _ h => hp h

/-- The keywords that are noted for the log open no block. -/
theorem begin_bind {head : Token} {q : Unit → Parser β} (hq : Halts before (q ())) :
    Halts before (begin head >>= q) := by
  intro r s e h
  exact hq (r := { r with heads := r.heads ++ [head] }) h

theorem expect {k : Kind} (expected : Expectation) : Halts before (Parser.expect k expected) := by
  intro r s e h
  rw [expect_apply] at h
  split at h
  · contradiction
  · obtain ⟨rfl, rfl⟩ := EStateM.Result.error.inj h
    exact .unexpected

/-- A token that is asked for is taken. -/
theorem expect_bind {k : Kind} {expected : Expectation} {f : Token → Parser β} (hk : k ≠ .eof)
    (hf : ∀ t, t.kind = k → Halts (before ++ [t]) (f t)) :
    Halts before (Parser.expect k expected >>= f) := by
  refine bind (expect expected) (expect_sound hk expected) ?_
  rintro _ t ⟨rfl, ht⟩
  exact hf t ht

/-- A token that may be missing is taken if it comes next. -/
theorem accept_bind {k : Kind} {f : Bool → Parser β} (hk : k ≠ .eof)
    (hyes : ∀ t, t.kind = k → Halts (before ++ [t]) (f true)) (hno : Halts before (f false)) :
    Halts before (accept k >>= f) := by
  intro r s e h
  rw [bind_apply, accept_apply] at h
  by_cases hkind : r.input.current.kind = k
  · rw [if_pos hkind] at h
    obtain ⟨⟨ahead, n⟩, heads⟩ := r
    cases ahead with
    | nil => exact absurd hkind.symm hk
    | cons t ts =>
      rw [List.append_cons]
      exact hyes t hkind h
  · rw [if_neg hkind] at h
    exact hno h

/-- The `$` at the end of a construct is the last thing that is asked for. -/
private theorem terminator_bind_pure (construct : Terminated) (b : β) :
    Halts before (terminator construct >>= fun _ => Pure.pure b) := by
  have hconst : terminator construct
      = Function.const Token () <$> Parser.expect .dollar (.terminator construct) := rfl
  rw [hconst, map_eq_pure_bind, bind_assoc]
  exact (expect _).bind_pure

/-- A parser that refers to itself, wherever the tokens before have the property `I`. -/
theorem recursive {I : List Token → Prop} {atEnd : Parser α} {step : Parser α → Parser α}
    (hend : ∀ before, I before → Halts before atEnd)
    (hstep : ∀ p, (∀ before, I before → Halts before p) →
      ∀ before, I before → Halts before (step p)) (h : I before) :
    Halts before (recursive atEnd step) := by
  intro r s e he
  obtain ⟨p, hp, heq⟩ := exists_recursive_eq (P := fun p => ∀ before, I before → Halts before p)
    hend hstep r
  exact hp before h (heq ▸ he)

end Halts

/-! ### Simple statements -/

/-- A run of the automaton fails over the tokens of the expression. -/
theorem expression_halts (h : Leads closing before) : Halts before (expression closing) := by
  intro r s e he
  unfold expression at he
  split at he
  · contradiction
  · next e' rest hrun =>
    obtain ⟨rfl, rfl⟩ := EStateM.Result.error.inj he
    exact .expression rfl h rfl hrun

private theorem assignment_halts
    (h : closing = .reject → (∀ t ∈ before.getLast?, t.kind ≠ .comma)) :
    Halts before (assignment closing) := by
  refine .expect_bind (by decide) fun name hname => .expect_bind (by decide) fun sign hsign => ?_
  exact (expression_halts (.value hsign fun hclosing => .inl (h hclosing))).bind_pure

private theorem printRest_halts : Halts before printRest := by
  rw [printRest_eq]
  refine .expect_bind (by decide) fun colon hcolon => ?_
  refine .bind (expression_halts (.concat hcolon rfl (by decide))) (expression_sound _) ?_
  exact fun _ _ _ => .terminator_bind_pure _ _

private theorem moreNames_halts : Halts before moreNames := by
  refine .recursive (I := fun _ => True) (fun _ _ => .pure _)
    (fun more hmore before _ => ?_) trivial
  refine .accept_bind (by decide) (fun comma hcomma => ?_) (.pure _)
  exact .expect_bind (by decide) fun name hname => (hmore _ trivial).bind_pure

private theorem scanRest_halts : Halts before scanRest := by
  refine .expect_bind (by decide) fun colon hcolon => .expect_bind (by decide) fun name hname => ?_
  exact .bind moreNames_halts moreNames_sound fun _ _ _ => .terminator_bind_pure _ _

/-! ### Blocks and compound statements -/

section Compound

variable {inner : Parser Stmt} (hsound : Sound inner Stmt.Derives)
  (hinner : ∀ before opened, Stands before opened → Halts before inner)

include hsound hinner

/-- If reading fails in a statement, the statements before it are whole. -/
private theorem statements_halts (h : Stands before opened) : Halts before (statements inner) := by
  refine .recursive (I := fun before => Stands before opened) (fun _ _ => .pure _)
    (fun more hmore before h => .current_bind fun t => ?_) h
  refine Halts.haltsAt ?_ t
  split
  · exact .pure _
  · exact .pure _
  · refine .bind (hinner _ _ h) hsound fun used s hs => ?_
    exact (hmore _ (h.append hs.whole)).bind_pure

/-- The input may end inside the block that was opened last. -/
theorem blockRest_halts {k : Kind} {openedAt : Nat} (h : Stands before ((k, openedAt) :: opened))
    (hk : k ≠ .eof) : Halts before (blockRest inner k openedAt) := by
  refine .bind (statements_halts hsound hinner h) (statements_sound hsound) ?_
  intro used body hbody
  refine .current_bind fun t => ?_
  split
  · intro r s e _ he
    obtain ⟨rfl, rfl⟩ := EStateM.Result.error.inj he
    have hscan : openBlocks [] (before ++ used) = some ((k, openedAt) :: opened) := by
      simpa [openBlocks] using (h.opens.append hbody.whole.neutral) []
    exact .unterminated rfl hscan
  · refine Halts.haltsAt (.expect_bind (by decide) fun ending hending => ?_) t
    exact .expect_bind hk fun closing hclosing => .pure _

/-- The block is open once its two first tokens are taken. -/
private theorem block_halts {k : Kind} (hk : k.isBlock = true) (place : BlockPlace)
    (h : Opens before opened) : Halts before (block inner k place) := by
  have hne : k ≠ .eof := by
    rintro rfl
    contradiction
  refine .expect_bind (by decide) fun start hstart => .expect_bind hne fun word hword => ?_
  exact blockRest_halts hsound hinner (h.start hstart hword hk) hne

private theorem alternatives_halts (h : Opens before opened) :
    Halts before (alternatives inner) := by
  refine .recursive (I := fun before => Opens before opened) (fun _ _ => .pure _)
    (fun more hmore before h => ?_) h
  refine .accept_bind (by decide) (fun head hhead => ?_) (.pure _)
  have hopens := h.concat hhead (by decide)
  refine .accept_bind (by decide) (fun word hword => ?_) ?_
  · refine .bind (expression_halts (.concat hword rfl (by decide))) (expression_sound _) ?_
    intro cs cond hcond
    have hopens := (hopens.concat hword (by decide)).append (.of_forall hcond.isStructural)
    refine .bind (block_halts hsound hinner rfl _ hopens) (block_sound hsound (by decide) _) ?_
    rintro bs body ⟨us, hbody, hframe⟩
    exact (hmore _ (hopens.append (.frame rfl hbody.whole.neutral hframe))).bind_pure
  · exact (block_halts hsound hinner rfl _ hopens).bind_pure

private theorem ifRest_halts {head : Token} (hhead : head.kind = .kwIf) (h : Opens before opened) :
    Halts (before ++ [head]) (ifRest inner) := by
  refine .bind (expression_halts (.concat hhead rfl (by decide))) (expression_sound _) ?_
  intro cs cond hcond
  have hopens := (h.concat hhead (by decide)).append (.of_forall hcond.isStructural)
  refine .bind (block_halts hsound hinner rfl _ hopens) (block_sound hsound (by decide) _) ?_
  rintro bs body ⟨us, hbody, hframe⟩
  have hopens := hopens.append (.frame rfl hbody.whole.neutral hframe)
  exact (alternatives_halts hsound hinner hopens).bind_pure

private theorem repeatRest_halts (h : Opens before opened) : Halts before (repeatRest inner) := by
  refine .expect_bind (by decide) fun word hword => ?_
  refine .bind (expression_halts (.concat hword rfl (by decide))) (expression_sound _) ?_
  intro cs cond hcond
  have hopens := (h.concat hword (by decide)).append (.of_forall hcond.isStructural)
  exact (block_halts hsound hinner rfl _ hopens).bind_pure

private theorem forRest_halts (h : Opens before opened) : Halts before (forRest inner) := by
  refine .expect_bind (by decide) fun opener hopener => ?_
  refine .bind (assignment_halts (by simp [hopener])) (assignment_sound _) fun is init hinit => ?_
  refine .expect_bind (by decide) fun comma hcomma => ?_
  refine .bind (expression_halts (.concat hcomma rfl (by decide))) (expression_sound _) ?_
  intro cs cond hcond
  refine .expect_bind (by decide) fun comma' hcomma' => ?_
  refine .bind (assignment_halts (by simp)) (assignment_sound _) fun us update hupdate => ?_
  refine .expect_bind (by decide) fun closer hcloser => ?_
  have hneutral := Neutral.cons hopener (by decide) <|
    (Neutral.of_forall hinit.isStructural).append <| .cons hcomma (by decide) <|
    (Neutral.of_forall hcond.isStructural).append <| .cons hcomma' (by decide) <|
    (Neutral.of_forall hupdate.isStructural).append <| .cons hcloser (by decide) .nil
  have hopens := h.append hneutral
  exact (block_halts hsound hinner rfl _ (by simpa using hopens)).bind_pure

private theorem statementWith_halts (h : Stands before opened) :
    Halts before (statementWith inner) := by
  refine .current_bind fun t => ?_
  split
  · next hk => exact .advance_bind hk (by decide) printRest_halts
  · next hk => exact .advance_bind hk (by decide) scanRest_halts
  · next hk =>
    exact .advance_bind hk (by decide) (.begin_bind (ifRest_halts hsound hinner hk h.opens))
  · next hk =>
    have hopens := h.opens.concat hk (by decide)
    exact .advance_bind hk (by decide) (.begin_bind (repeatRest_halts hsound hinner hopens))
  · next hk =>
    have hopens := h.opens.concat hk (by decide)
    exact .advance_bind hk (by decide) (.begin_bind (forRest_halts hsound hinner hopens))
  · refine Halts.haltsAt ?_ t
    refine .bind (assignment_halts fun _ => h.last) (assignment_sound _) fun _ _ _ => ?_
    exact .terminator_bind_pure _ _

end Compound

/-- **Statements** halt wherever a statement may come next. -/
private theorem statement_halts (h : Stands before opened) : Halts before statement := by
  intro r s e he
  -- The parser for the statements inside is sound and halts: both at once, level by level.
  have hstep (p : Parser Stmt) (hp : Sound p Stmt.Derives ∧
      ∀ before opened, Stands before opened → Halts before p) :
      Sound (statementWith p) Stmt.Derives ∧
        ∀ before opened, Stands before opened → Halts before (statementWith p) :=
    ⟨statementWith_sound hp.1, fun _ _ => statementWith_halts hp.1 hp.2⟩
  obtain ⟨p, ⟨-, hp⟩, heq⟩ := exists_recursive_eq ⟨.refuse _, fun _ _ _ => .refuse _⟩ hstep r
  exact hp before opened h (heq ▸ he)

/-! ### Declarations and programs -/

private theorem entry_halts (typeName : Token) (h : ∀ t ∈ before, t.kind ≠ .kwFor) :
    Halts before (entry typeName) := by
  refine .expect_bind (by decide) fun name hname => ?_
  refine .accept_bind (by decide) (fun sign hsign => ?_) (.pure _)
  exact (expression_halts (.value hsign fun _ => .inr h)).bind_pure

/-- Tokens outside blocks bring no `FOR`. -/
private theorem forall_ne_for (h : ∀ t ∈ before, t.kind ≠ .kwFor)
    (hused : ∀ t ∈ used, t.kind.isStructural = false) : ∀ t ∈ before ++ used, t.kind ≠ .kwFor := by
  refine List.forall_mem_append.mpr ⟨h, fun t ht hfor => ?_⟩
  have := hused t ht
  rw [hfor] at this
  contradiction

private theorem moreEntries_halts (typeName : Token) (h : ∀ t ∈ before, t.kind ≠ .kwFor) :
    Halts before (moreEntries typeName) := by
  refine .recursive (I := fun before => ∀ t ∈ before, t.kind ≠ .kwFor) (fun _ _ => .pure _)
    (fun more hmore before h => ?_) h
  refine .accept_bind (by decide) (fun comma hcomma => ?_) (.pure _)
  have hcommas : ∀ t ∈ before ++ [comma], t.kind ≠ .kwFor :=
    forall_ne_for h (by simp [hcomma, Kind.isStructural])
  refine .bind (entry_halts typeName hcommas) (entry_sound typeName) fun used d hd => ?_
  exact (hmore _ (forall_ne_for hcommas hd.isStructural)).bind_pure

private theorem declarationRest_halts (typeName : Token) (h : ∀ t ∈ before, t.kind ≠ .kwFor) :
    Halts before (declarationRest typeName) := by
  refine .bind (entry_halts typeName h) (entry_sound typeName) fun used d hd => ?_
  refine .bind (moreEntries_halts typeName (forall_ne_for h hd.isStructural))
    (moreEntries_sound typeName) fun _ _ _ => ?_
  exact .terminator_bind_pure _ _

/-- Declarations have no header of a loop before them. -/
private theorem declarations_halts (h : ∀ t ∈ before, t.kind ≠ .kwFor) :
    Halts before declarations := by
  rw [declarations_eq_recursive]
  refine .recursive (I := fun before => ∀ t ∈ before, t.kind ≠ .kwFor) (fun _ _ => .pure _)
    (fun more hmore before h => .current_bind fun t => ?_) h
  split
  · next htype =>
    have hstructural := isStructural_of_isTypeKeyword htype
    refine .advance_bind rfl (Kind.ne_eof_of_isTypeKeyword htype) ?_
    have htypes : ∀ u ∈ before ++ [t], u.kind ≠ .kwFor :=
      forall_ne_for h (by simpa using hstructural)
    refine .bind (declarationRest_halts t htypes) (declarationRest_sound t) ?_
    rintro used ds ⟨us, dollar, rfl, hds, hdollar⟩
    refine (hmore _ (forall_ne_for htypes ?_)).bind_pure
    simpa [or_imp, forall_and, hdollar, Kind.isStructural] using hds.isStructural
  · exact (Halts.pure _).haltsAt t

/-- **Every program halts** in one of these ways when it fails. -/
theorem program_halts : Halts [] program := by
  refine .expect_bind (by decide) fun word hword => .expect_bind (by decide) fun area harea => ?_
  refine .expect_bind (by decide) fun start hstart => ?_
  refine .expect_bind (by decide) fun opening hopening => ?_
  have hheader : Opens ([] ++ [word] ++ [area]) [] := fun us => by
    rw [List.nil_append, List.append_assoc]
    exact (openBlocks_cons hword (by decide) (by decide)).trans
      (openBlocks_cons harea (by decide) (by decide))
  have hstands := hheader.start hstart hopening rfl
  have hnone : ∀ t ∈ [] ++ [word] ++ [area] ++ [start] ++ [opening], t.kind ≠ .kwFor := by
    simp [hword, harea, hstart, hopening]
  refine .bind (declarations_halts hnone) declarations_sound fun ds decls hdecls => ?_
  have hblock := blockRest_halts statement_sound (fun _ _ => statement_halts)
    (hstands.append hdecls.whole) (by decide)
  refine .bind hblock (blockRest_sound statement_sound (by decide) _) fun _ _ _ => ?_
  refine .current_bind fun t => ?_
  split
  · exact (Halts.pure _).haltsAt t
  · exact (Halts.refuse _).haltsAt t

end Parser

end ScriptTree
