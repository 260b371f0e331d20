import ScriptTree.Grammar.Program
import ScriptTree.Proofs.Program.Unreached

/-!
# What is read is in the grammar

`Parser.Sound p G` says that whenever the parser `p` succeeds, the tokens that it takes and the
value that it returns are related by `G`. The rules of the first part follow the ways in which
parsers are put together, and each parser of statements and declarations is then sound for its rule
of the grammar. The parser of a statement is sound if the one for the statements inside it is
(`statementWith_sound`), which closes the circle.

The main result is `program_sound`: a program is read only from tokens that the grammar derives it
from.
-/

namespace ScriptTree.Parser

variable {α β : Type} {p : Parser α} {f : α → Parser β}

/-! ### Sound parsers -/

/-- Whenever the parser succeeds, the tokens that it takes are related to what it returns. -/
def Sound (p : Parser α) (G : List Token → α → Prop) : Prop :=
  ∀ ⦃r s : Reading⦄ ⦃a : α⦄, p r = .ok a s →
    ∃ used, r.input.ahead = used ++ s.input.ahead ∧ G used a

/-- The same for a parser that is run only where `t` comes next. -/
def SoundAt (t : Token) (p : Parser α) (G : List Token → α → Prop) : Prop :=
  ∀ ⦃r s : Reading⦄ ⦃a : α⦄, r.input.current = t → p r = .ok a s →
    ∃ used, r.input.ahead = used ++ s.input.ahead ∧ G used a

/-- A success of two parsers is a success of the first one and then of the second one. -/
theorem bind_eq_ok_iff {r s : Reading} {b : β} :
    (p >>= f) r = .ok b s ↔ ∃ a t, p r = .ok a t ∧ f a t = .ok b s := by
  rw [bind_apply]
  cases p r <;> simp [and_assoc]

/-- A token that was looked at is the one that is taken next. -/
theorem SoundAt.advance_bind {H : List Token → β → Prop} {t : Token} {q : Unit → Parser β}
    (ht : t.kind ≠ .eof) (hq : Sound (q ()) fun us b => H (t :: us) b) :
    SoundAt t (advance >>= q) H := by
  rintro r s b rfl h
  rw [bind_apply, advance_apply] at h
  obtain ⟨us, hus, hH⟩ := hq h
  obtain ⟨⟨ahead, n⟩, heads⟩ := r
  cases ahead with
  | nil => exact absurd rfl ht
  | cons t ts => exact ⟨t :: us, congrArg (t :: ·) hus, hH⟩

namespace Sound

variable {G : List Token → α → Prop} {H : List Token → β → Prop}

theorem pure {a : α} (h : G [] a) : Sound (Pure.pure a) G := by
  intro r s b hb
  obtain ⟨rfl, rfl⟩ := EStateM.Result.ok.inj hb
  exact ⟨[], rfl, h⟩

/-- What the second parser takes comes after what the first one has taken. -/
theorem bind (hp : Sound p G)
    (hf : ∀ ts a, G ts a → Sound (f a) fun us b => H (ts ++ us) b) : Sound (p >>= f) H := by
  intro r s b h
  obtain ⟨a, t, ha, hb⟩ := bind_eq_ok_iff.mp h
  obtain ⟨ts, hts, hG⟩ := hp ha
  obtain ⟨us, hus, hH⟩ := hf ts a hG hb
  exact ⟨ts ++ us, by rw [hts, hus, List.append_assoc], hH⟩

/-- The grammar may be a larger one. -/
theorem mono {G' : List Token → α → Prop} (hp : Sound p G) (himp : ∀ ts a, G ts a → G' ts a) :
    Sound p G' := by
  intro r s a h
  obtain ⟨ts, hts, hG⟩ := hp h
  exact ⟨ts, hts, himp ts a hG⟩

/-- A parser that never succeeds is sound for any grammar. -/
theorem refuse (expected : Expectation) : Sound (Parser.refuse expected) G := by
  intro r s a h
  simp at h

private theorem throw_bind {e : ParseError} {f : α → Parser β} : Sound (throw e >>= f) H := by
  intro r s b h
  contradiction

/-- Looking at the next token takes nothing. -/
theorem current_bind {f : Token → Parser β} (hf : ∀ t, SoundAt t (f t) H) :
    Sound (current >>= f) H := by
  intro r s b h
  rw [bind_apply, current_apply] at h
  exact hf _ rfl h

theorem soundAt (hp : Sound p G) (t : Token) : SoundAt t p G :=
  fun _ _ _ _ h => hp h

/-- The keywords that are noted for the log are no tokens that are taken. -/
theorem begin_bind {head : Token} {q : Unit → Parser β} (hq : Sound (q ()) H) :
    Sound (begin head >>= q) H := by
  intro r s b h
  obtain ⟨⟨⟩, t, ht, hb⟩ := bind_eq_ok_iff.mp h
  obtain ⟨-, rfl⟩ := EStateM.Result.ok.inj ht
  obtain ⟨us, hus, hH⟩ := hq hb
  exact ⟨us, hus, hH⟩

/-- A token that is asked for is taken. -/
theorem expect_bind {k : Kind} {expected : Expectation} {f : Token → Parser β} (hk : k ≠ .eof)
    (hf : ∀ t, t.kind = k → Sound (f t) fun us b => H (t :: us) b) :
    Sound (expect k expected >>= f) H := by
  intro r s b h
  obtain ⟨t, r', ht, hb⟩ := bind_eq_ok_iff.mp h
  rw [expect_apply] at ht
  split at ht <;> try contradiction
  next hkind =>
  obtain ⟨rfl, rfl⟩ := EStateM.Result.ok.inj ht
  obtain ⟨us, hus, hH⟩ := hf _ hkind hb
  obtain ⟨⟨ahead, n⟩, heads⟩ := r
  -- The end mark is not among the tokens ahead, so it could be asked for but not taken.
  cases ahead with
  | nil => exact absurd hkind.symm hk
  | cons t ts => exact ⟨t :: us, congrArg (t :: ·) hus, hH⟩

/-- A token that may be missing is taken if it comes next. -/
theorem accept_bind {k : Kind} {f : Bool → Parser β} (hk : k ≠ .eof)
    (hyes : ∀ t, t.kind = k → Sound (f true) fun us b => H (t :: us) b)
    (hno : Sound (f false) H) : Sound (accept k >>= f) H := by
  intro r s b h
  obtain ⟨found, r', hfound, hb⟩ := bind_eq_ok_iff.mp h
  rw [accept_apply] at hfound
  split at hfound
  · next hkind =>
    obtain ⟨rfl, rfl⟩ := EStateM.Result.ok.inj hfound
    obtain ⟨⟨ahead, n⟩, heads⟩ := r
    cases ahead with
    | nil => exact absurd hkind.symm hk
    | cons t ts =>
      obtain ⟨us, hus, hH⟩ := hyes t hkind hb
      exact ⟨t :: us, congrArg (t :: ·) hus, hH⟩
  · obtain ⟨rfl, rfl⟩ := EStateM.Result.ok.inj hfound
    exact hno hb

/-- A parser that refers to itself is sound if each of its steps is. -/
theorem recursive {atEnd : Parser α} {step : Parser α → Parser α} (hend : Sound atEnd G)
    (hstep : ∀ p, Sound p G → Sound (step p) G) : Sound (recursive atEnd step) G := by
  intro r s a h
  obtain ⟨p, hp, heq⟩ := exists_recursive_eq hend hstep r
  exact hp (heq ▸ h)

end Sound

/-! ### Simple statements -/

/-- Just the token that is asked for is taken. -/
theorem expect_sound {k : Kind} (hk : k ≠ .eof) (expected : Expectation) :
    Sound (expect k expected) fun ts t => ts = [t] ∧ t.kind = k := by
  have h : Sound (expect k expected >>= Pure.pure) fun ts t => ts = [t] ∧ t.kind = k :=
    .expect_bind hk fun t ht => .pure ⟨rfl, ht⟩
  rwa [bind_pure] at h

/-- A name is one token. -/
theorem identifier_sound (place : NamePlace) :
    Sound (identifier place) fun ts t => ts = [t] ∧ t.kind = .identifier :=
  expect_sound (by decide) _

/-- An expression is a phrase of the loosest level. -/
theorem expression_sound (closing : Closing) : Sound (expression closing) (Expr.Derives 0) := by
  intro r s e h
  obtain ⟨used, hahead, -, hder, -⟩ := expression_eq_ok_iff.mp h
  exact ⟨used, hahead, hder⟩

theorem assignment_sound (closing : Closing) :
    Sound (assignment closing) Assignment.Derives := by
  refine .expect_bind (by decide) fun name hname => .expect_bind (by decide) fun sign hsign => ?_
  refine (expression_sound closing).bind fun ts value hvalue => .pure ?_
  rw [List.append_nil]
  exact .intro hname hsign hvalue

/-- The `$` at the end of a construct is taken. -/
theorem Sound.terminator_bind {construct : Terminated} {q : Unit → Parser β}
    {H : List Token → β → Prop}
    (hq : ∀ t, t.kind = .dollar → Sound (q ()) fun us b => H (t :: us) b) :
    Sound (terminator construct >>= q) H := by
  intro r s b h
  obtain ⟨u, t, hu, hb⟩ := bind_eq_ok_iff.mp h
  obtain ⟨d, t', hd, hunit⟩ := bind_eq_ok_iff.mp hu
  obtain ⟨-, rfl⟩ := EStateM.Result.ok.inj hunit
  have hboth : (expect .dollar (.terminator construct) >>= fun _ => q ()) r = .ok b s :=
    bind_eq_ok_iff.mpr ⟨d, t', hd, hb⟩
  exact (Sound.expect_bind (by decide) hq) hboth

/-- The tokens are the rest of a statement that begins with a word of the given kind. -/
def RestDerives (k : Kind) (ts : List Token) (s : Stmt) : Prop :=
  ∀ head : Token, head.kind = k → Stmt.Derives (head :: ts) s

private theorem printRest_sound : Sound printRest (RestDerives .kwPrint) := by
  rw [printRest_eq]
  refine .expect_bind (by decide) fun colon hcolon => ?_
  refine (expression_sound .reject).bind fun ts e he => .terminator_bind fun dollar hdollar => ?_
  exact .pure fun head hhead => .print hhead hcolon he hdollar

/-- Further names continue a list of names. -/
theorem moreNames_sound : Sound moreNames fun ts names =>
    ∀ name : Token, name.kind = .identifier → NamesDerive (name :: ts) (name :: names) := by
  refine .recursive (.pure fun name hname => .last hname) fun more hmore => ?_
  refine .accept_bind (by decide) (fun comma hcomma => ?_) (.pure fun name hname => .last hname)
  refine .expect_bind (by decide) fun next hnext => hmore.bind fun ts names hnames => .pure ?_
  intro name hname
  rw [List.append_nil]
  exact .more hname hcomma (hnames next hnext)

private theorem scanRest_sound : Sound scanRest (RestDerives .kwScan) := by
  refine .expect_bind (by decide) fun colon hcolon => .expect_bind (by decide) fun name hname => ?_
  refine moreNames_sound.bind fun ts names hnames => .terminator_bind fun dollar hdollar => ?_
  exact .pure fun head hhead => .scan hhead hcolon (hnames name hname) hdollar

/-! ### Blocks and compound statements -/

section Compound

variable {inner : Parser Stmt} (hinner : Sound inner Stmt.Derives)

include hinner

/-- The statements of a block are read up to its `END`, which they do not take. -/
theorem statements_sound : Sound (statements inner) StmtsDerive := by
  refine .recursive (.pure .nil) fun more hmore => .current_bind fun t => ?_
  refine Sound.soundAt ?_ t
  split
  · exact .pure .nil
  · exact .pure .nil
  · refine hinner.bind fun ts s hs => hmore.bind fun us ss hss => .pure ?_
    rw [List.append_nil]
    exact .cons hs hss

/-- A block ends with `END` and the word of its kind. -/
theorem blockRest_sound {k : Kind} (hk : k ≠ .eof) (openedAt : Nat) :
    Sound (blockRest inner k openedAt) fun ts body =>
      ∃ us ending closing, ts = us ++ [ending, closing] ∧ StmtsDerive us body ∧
        ending.kind = .kwEnd ∧ closing.kind = k := by
  refine (statements_sound hinner).bind fun ts body hbody => .current_bind fun t => ?_
  refine Sound.soundAt ?_ t
  split
  · exact .throw_bind
  refine .expect_bind (by decide) fun ending hending => .expect_bind hk fun closing hclosing => ?_
  exact .pure ⟨ts, ending, closing, rfl, hbody, hending, hclosing⟩

theorem block_sound {k : Kind} (hk : k ≠ .eof) (place : BlockPlace) :
    Sound (block inner k place) fun ts body => ∃ us, StmtsDerive us body ∧ BlockFrame k us ts := by
  refine .expect_bind (by decide) fun start hstart => .expect_bind hk fun opening hopening => ?_
  refine (blockRest_sound hinner hk _).mono ?_
  rintro ts body ⟨us, ending, closing, rfl, hbody, hending, hclosing⟩
  exact ⟨us, hbody, .intro hstart hopening hending hclosing⟩

private theorem alternatives_sound : Sound (alternatives inner) ElseChain.Derives := by
  refine .recursive (.pure .done) fun more hmore => ?_
  refine .accept_bind (by decide) (fun head hhead => ?_) (.pure .done)
  refine .accept_bind (by decide) (fun word hword => ?_) ?_
  · refine (expression_sound .reject).bind fun cs cond hcond => ?_
    refine (block_sound hinner (by decide) _).bind fun bs body ⟨us, hbody, hframe⟩ => ?_
    refine hmore.bind fun as rest hrest => .pure ?_
    simpa using ElseChain.Derives.elseIf hhead hword hcond hbody hframe hrest
  · refine (block_sound hinner (by decide) _).bind fun bs body ⟨us, hbody, hframe⟩ => .pure ?_
    simpa using ElseChain.Derives.otherwise hhead hbody hframe

private theorem ifRest_sound : Sound (ifRest inner) (RestDerives .kwIf) := by
  refine (expression_sound .reject).bind fun cs cond hcond => ?_
  refine (block_sound hinner (by decide) _).bind fun bs body ⟨us, hbody, hframe⟩ => ?_
  refine (alternatives_sound hinner).bind fun as rest hrest => .pure fun head hhead => ?_
  simpa using Stmt.Derives.ifElse hhead hcond hbody hframe hrest

private theorem repeatRest_sound : Sound (repeatRest inner) (RestDerives .kwRepeat) := by
  refine .expect_bind (by decide) fun word hword => ?_
  refine (expression_sound .reject).bind fun cs cond hcond => ?_
  refine (block_sound hinner (by decide) _).bind fun bs body ⟨us, hbody, hframe⟩ => ?_
  refine .pure fun head hhead => ?_
  simpa using Stmt.Derives.repeatWhen hhead hword hcond hbody hframe

private theorem forRest_sound : Sound (forRest inner) (RestDerives .kwFor) := by
  refine .expect_bind (by decide) fun opener hopener => ?_
  refine (assignment_sound .reject).bind fun is init hinit => ?_
  refine .expect_bind (by decide) fun comma hcomma => ?_
  refine (expression_sound .reject).bind fun cs cond hcond => ?_
  refine .expect_bind (by decide) fun comma' hcomma' => ?_
  refine (assignment_sound .yield).bind fun us update hupdate => ?_
  refine .expect_bind (by decide) fun closer hcloser => ?_
  refine (block_sound hinner (by decide) _).bind fun bs body ⟨vs, hbody, hframe⟩ => ?_
  refine .pure fun head hhead => ?_
  simpa using Stmt.Derives.forLoop hhead hopener hinit hcomma hcond hcomma' hupdate hcloser
    hbody hframe

/-- A parser of statements is sound if the one for the statements inside is. -/
theorem statementWith_sound : Sound (statementWith inner) Stmt.Derives := by
  refine .current_bind fun t => ?_
  -- The word that tells the statement is the one that is taken.
  have word {k : Kind} {q : Unit → Parser Stmt} (hk : t.kind = k) (hne : k ≠ .eof)
      (hq : Sound (q ()) (RestDerives k)) : SoundAt t (advance >>= q) Stmt.Derives :=
    .advance_bind (hk ▸ hne) (hq.mono fun _ _ hrest => hrest t hk)
  split
  · next hk => exact word hk (by decide) printRest_sound
  · next hk => exact word hk (by decide) scanRest_sound
  · next hk => exact word hk (by decide) (.begin_bind (ifRest_sound hinner))
  · next hk => exact word hk (by decide) (.begin_bind (repeatRest_sound hinner))
  · next hk => exact word hk (by decide) (.begin_bind (forRest_sound hinner))
  · refine ((assignment_sound .reject).bind fun ts a ha => ?_).soundAt t
    exact .terminator_bind fun dollar hdollar => .pure (.assignment ha hdollar)

end Compound

/-- **A statement is read from its tokens.** -/
theorem statement_sound : Sound statement Stmt.Derives :=
  .recursive (.refuse _) fun _ => statementWith_sound

/-! ### Declarations and programs -/

/-- A variable may have a first value. -/
theorem entry_sound (typeName : Token) : Sound (entry typeName) (VarDecl.Derives typeName) := by
  refine .expect_bind (by decide) fun name hname => ?_
  refine .accept_bind (by decide) (fun sign hsign => ?_) (.pure (.plain hname))
  refine (expression_sound .reject).bind fun ts value hvalue => .pure ?_
  simpa using VarDecl.Derives.withValue hname hsign hvalue

/-- Further variables continue a declaration. -/
theorem moreEntries_sound (typeName : Token) : Sound (moreEntries typeName) fun ts ds =>
    ∀ us d, VarDecl.Derives typeName us d → EntriesDerive typeName (us ++ ts) (d :: ds) := by
  have stop (us : List Token) (d : VarDecl) (hd : VarDecl.Derives typeName us d) :
      EntriesDerive typeName (us ++ []) [d] := by simpa using EntriesDerive.last hd
  refine .recursive (.pure stop) fun more hmore => ?_
  refine .accept_bind (by decide) (fun comma hcomma => ?_) (.pure stop)
  refine (entry_sound typeName).bind fun vs next hnext => ?_
  refine hmore.bind fun ts ds hds => .pure fun us d hd => ?_
  simpa using EntriesDerive.more hd hcomma (hds vs next hnext)

/-- A declaration ends with the `$` after its variables. -/
theorem declarationRest_sound (typeName : Token) :
    Sound (declarationRest typeName) fun ts ds =>
      ∃ us dollar, ts = us ++ [dollar] ∧ EntriesDerive typeName us ds ∧ dollar.kind = .dollar := by
  refine (entry_sound typeName).bind fun us d hd => ?_
  refine (moreEntries_sound typeName).bind fun ts ds hds => ?_
  refine .terminator_bind fun dollar hdollar => .pure ?_
  exact ⟨us ++ ts, dollar, by simp, hds us d hd, hdollar⟩

/-- A declaration begins with its type. -/
theorem declaration_sound : Sound declaration fun ts ds =>
    ∃ typeName us dollar, ts = typeName :: (us ++ [dollar]) ∧
      typeName.kind.isTypeKeyword = true ∧ EntriesDerive typeName us ds ∧
        dollar.kind = .dollar := by
  refine .current_bind fun t => ?_
  split
  · next htype =>
    have hne := Kind.ne_eof_of_isTypeKeyword htype
    refine .advance_bind hne ((declarationRest_sound t).mono ?_)
    rintro _ ds ⟨us, dollar, rfl, hds, hdollar⟩
    exact ⟨t, us, dollar, rfl, htype, hds, hdollar⟩
  · exact (Sound.refuse _).soundAt t

/-- Every declaration begins with a type keyword, and there may be none. -/
theorem declarations_sound : Sound declarations DeclarationsDerive := by
  refine .recursive (.pure .nil) fun more hmore => .current_bind fun t => Sound.soundAt ?_ t
  split
  · refine declaration_sound.bind ?_
    rintro _ ds ⟨typeName, us, dollar, rfl, htype, hds, hdollar⟩
    refine hmore.bind fun rest more hrest => .pure ?_
    simpa using DeclarationsDerive.cons htype hds hdollar hrest
  · exact .pure .nil

/-- **A program is read from its tokens**, all of them. -/
theorem program_sound : Sound program Program.Derives := by
  refine .expect_bind (by decide) fun word hword => .expect_bind (by decide) fun area harea => ?_
  refine .expect_bind (by decide) fun start hstart => ?_
  refine .expect_bind (by decide) fun opening hopening => ?_
  refine declarations_sound.bind fun ds decls hdecls => ?_
  refine (blockRest_sound statement_sound (by decide) _).bind ?_
  rintro ts stmts ⟨us, ending, closing, rfl, hstmts, hending, hclosing⟩
  refine .current_bind fun t => ?_
  split
  · refine (Sound.pure ?_).soundAt t
    have hframe : BlockFrame .kwScript (ds ++ us) _ :=
      .intro hstart hopening hending hclosing
    simpa using Program.Derives.intro hword harea hdecls hstmts hframe
  · exact (Sound.refuse _).soundAt t

/-- A program is read up to the end of the input. -/
theorem current_of_program {r s : Reading} {p : Program} (h : program r = .ok p s) :
    s.input.current.kind = .eof := by
  obtain ⟨_, _, -, h⟩ := bind_eq_ok_iff.mp h
  obtain ⟨_, _, -, h⟩ := bind_eq_ok_iff.mp h
  obtain ⟨_, _, -, h⟩ := bind_eq_ok_iff.mp h
  obtain ⟨_, _, -, h⟩ := bind_eq_ok_iff.mp h
  obtain ⟨_, _, -, h⟩ := bind_eq_ok_iff.mp h
  obtain ⟨_, t, -, h⟩ := bind_eq_ok_iff.mp h
  rw [bind_apply, current_apply] at h
  dsimp only at h
  split at h
  · next heof =>
    obtain ⟨-, rfl⟩ := EStateM.Result.ok.inj h
    exact heof
  · contradiction

/-- If no end mark was ahead before, nothing is ahead then. -/
theorem ahead_of_program {r s : Reading} {p : Program} (hend : ∀ t ∈ r.input.ahead, t.kind ≠ .eof)
    (h : program r = .ok p s) : s.input.ahead = [] := by
  obtain ⟨used, hahead, -⟩ := program_sound h
  have heof := current_of_program h
  rcases hrest : s.input.ahead with _ | ⟨t, ts⟩
  · rfl
  · have ht : t ∈ r.input.ahead := by simp [hahead, hrest]
    rw [Input.current, hrest] at heof
    exact absurd heof (hend t ht)

end ScriptTree.Parser
