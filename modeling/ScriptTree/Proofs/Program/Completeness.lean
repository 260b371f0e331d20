import ScriptTree.Proofs.Program.Soundness

/-!
# What is in the grammar is read

`Parser.Reads p i a j` says that the parser `p` goes from the input `i` to the input `j` and returns
`a`. For a parser that refers to itself, `Parser.ReadsUpTo m p G F` speaks of the phrases of at most
`m` tokens: `p` reads each of them when the token after it is of a kind that `F` allows. Every level
of the recursion reads one token more (`ReadsUpTo.recursive`), so there are always enough levels.

What may come after a construct is what makes reading certain: no `ELSE` after a statement, an `END`
after the statements of a block, no type after the declarations.

`program_reads` says that all tokens that the grammar derives a program from are read. With
`program_sound` it gives the main result, `Input.parse_eq_ok_iff_derives`: reading accepts exactly
the grammar, with exactly its trees.
-/

namespace ScriptTree.Parser

variable {α β : Type} {p q : Parser α} {f : α → Parser β} {a : α} {b : β} {i j k : Input}

/-! ### Reading from one input to another -/

/-- The parser goes from the first input to the second and returns `a`, whatever heads were noted
before. -/
def Reads (p : Parser α) (i : Input) (a : α) (j : Input) : Prop :=
  ∀ heads, ∃ heads', p ⟨i, heads⟩ = .ok a ⟨j, heads'⟩

namespace Reads

theorem pure (a : α) (i : Input) : Reads (Pure.pure a) i a i :=
  fun heads => ⟨heads, rfl⟩

/-- The second parser reads on where the first one has stopped. -/
theorem bind (hp : Reads p i a j) (hf : Reads (f a) j b k) : Reads (p >>= f) i b k := by
  intro heads
  obtain ⟨heads', ha⟩ := hp heads
  obtain ⟨heads'', hb⟩ := hf heads'
  exact ⟨heads'', by rw [bind_apply, ha]; exact hb⟩

theorem current_bind {f : Token → Parser β} (hf : Reads (f i.current) i b j) :
    Reads (current >>= f) i b j :=
  hf

theorem advance (t : Token) (ts : List Token) (n : Nat) :
    Reads Parser.advance ⟨t :: ts, n⟩ () ⟨ts, n⟩ :=
  fun heads => ⟨heads, rfl⟩

theorem begin (head : Token) (i : Input) : Reads (Parser.begin head) i () i :=
  fun heads => ⟨heads ++ [head], rfl⟩

/-- A token of the kind that is asked for is taken. -/
theorem expect {k : Kind} {t : Token} (ht : t.kind = k) (expected : Expectation)
    (ts : List Token) (n : Nat) : Reads (Parser.expect k expected) ⟨t :: ts, n⟩ t ⟨ts, n⟩ := by
  intro heads
  exact ⟨heads, by rw [expect_apply]; simp [ht]⟩

theorem accept {k : Kind} {t : Token} (ht : t.kind = k) (ts : List Token) (n : Nat) :
    Reads (Parser.accept k) ⟨t :: ts, n⟩ true ⟨ts, n⟩ := by
  intro heads
  exact ⟨heads, by rw [accept_apply]; simp [ht]⟩

theorem accept_false {k : Kind} (hi : i.current.kind ≠ k) : Reads (Parser.accept k) i false i := by
  intro heads
  exact ⟨heads, by rw [accept_apply]; simp [hi]⟩

private theorem terminator {t : Token} (ht : t.kind = .dollar) (construct : Terminated)
    (ts : List Token) (n : Nat) : Reads (Parser.terminator construct) ⟨t :: ts, n⟩ () ⟨ts, n⟩ :=
  (expect ht _ ts n).bind (.pure () _)

end Reads

/-- A phrase is read before a token that may follow it. -/
theorem expression_reads {closing : Closing} {ts rest : List Token} {n : Nat} {e : Expr}
    (h : Expr.Derives 0 ts e) (hfollow : CanFollow closing (Input.current ⟨rest, n⟩).kind) :
    Reads (expression closing) ⟨ts ++ rest, n⟩ e ⟨rest, n⟩ :=
  fun heads => ⟨heads, expression_eq_ok_iff.mpr ⟨ts, rfl, rfl, h, hfollow⟩⟩

/-! ### Phrases of bounded length -/

/-- The parser reads every phrase of at most `m` tokens before a token of a kind in `F`. -/
def ReadsUpTo (m : Nat) (p : Parser α) (G : List Token → α → Prop) (F : Kind → Prop) : Prop :=
  ∀ ⦃ts : List Token⦄ ⦃a : α⦄ ⦃rest : List Token⦄ ⦃n : Nat⦄, ts.length ≤ m → G ts a →
    F (Input.current ⟨rest, n⟩).kind → Reads p ⟨ts ++ rest, n⟩ a ⟨rest, n⟩

/-- If each level of a recursion reads phrases that are one token longer, the recursive parser reads
them all. -/
theorem ReadsUpTo.recursive {atEnd : Parser α} {step : Parser α → Parser α}
    {G : List Token → α → Prop} {F : Kind → Prop} (hend : ReadsUpTo 0 atEnd G F)
    (hstep : ∀ m p, ReadsUpTo m p G F → ReadsUpTo (m + 1) (step p) G F) (m : Nat) :
    ReadsUpTo m (recursive atEnd step) G F := by
  -- There are as many levels as tokens ahead, and the phrase is among these tokens.
  have level (l : Nat) : ReadsUpTo l (unroll atEnd step l) G F := by
    induction l with
    | zero => exact hend
    | succ l ih => exact hstep l _ ih
  intro ts a rest n _ hG hF
  exact level (ts ++ rest).length (by simp) hG hF

/-- The same when what is read lies inside a longer phrase: of its parts, only those of at most `l`
tokens have to be read. -/
private theorem ReadsUpTo.recursive_within {atEnd : Parser α} {step : Parser α → Parser α}
    {G : List Token → α → Prop} {F : Kind → Prop} {l : Nat} (hend : ReadsUpTo 0 atEnd G F)
    (hstep : ∀ m p, ReadsUpTo m p (fun ts a => ts.length ≤ l ∧ G ts a) F →
      ReadsUpTo (m + 1) (step p) (fun ts a => ts.length ≤ l ∧ G ts a) F) :
    ReadsUpTo l (Parser.recursive atEnd step) G F := by
  have hend' : ReadsUpTo 0 atEnd (fun ts a => ts.length ≤ l ∧ G ts a) F :=
    fun _ _ _ _ hlen hG hF => hend hlen hG.2 hF
  intro ts a rest n hlen hG hF
  exact ReadsUpTo.recursive hend' hstep l hlen ⟨hlen, hG⟩ hF

/-! ### Simple statements -/

/-- An expression ends before a `$`, a comma and a `START`. -/
private theorem canFollow_of_kind {closing : Closing} {k : Kind}
    (hk : k = .dollar ∨ k = .comma ∨ k = .kwStart) : CanFollow closing k := by
  rcases hk with rfl | rfl | rfl <;> simp [CanFollow, Kind.level?]

private theorem assignment_reads {closing : Closing} {ts rest : List Token} {n : Nat}
    {a : Assignment} (h : Assignment.Derives ts a)
    (hfollow : CanFollow closing (Input.current ⟨rest, n⟩).kind) :
    Reads (assignment closing) ⟨ts ++ rest, n⟩ a ⟨rest, n⟩ := by
  obtain ⟨hname, hsign, hvalue⟩ := h
  refine (Reads.expect hname _ _ n).bind ((Reads.expect hsign _ _ n).bind ?_)
  exact (expression_reads hvalue hfollow).bind (.pure _ _)

/-- A list that goes on after its first element, or ends there. -/
def Continues (G : List Token → List α → Prop) (ts : List Token) (as : List α) : Prop :=
  (ts = [] ∧ as = []) ∨ ∃ comma us, comma.kind = .comma ∧ ts = comma :: us ∧ G us as

/-- A list of names is a name and what follows it. -/
private theorem uncons_names {ts names : List Token} (h : NamesDerive ts names) :
    ∃ name us more, name.kind = .identifier ∧ ts = name :: us ∧ names = name :: more ∧
      Continues NamesDerive us more := by
  cases h with
  | @last name hname => exact ⟨name, [], [], hname, rfl, rfl, .inl ⟨rfl, rfl⟩⟩
  | @more name comma ts names hname hcomma h =>
    exact ⟨name, comma :: ts, names, hname, rfl, rfl, .inr ⟨comma, ts, hcomma, rfl, h⟩⟩

private theorem moreNames_reads (m : Nat) :
    ReadsUpTo m moreNames (Continues NamesDerive) (· = .dollar) := by
  have stop {rest : List Token} {n : Nat} (hk : (Input.current ⟨rest, n⟩).kind = .dollar) :
      (Input.current ⟨rest, n⟩).kind ≠ .comma := by simp [hk]
  refine .recursive ?_ ?_ m
  · rintro ts as rest n hlen (⟨rfl, rfl⟩ | ⟨comma, us, -, rfl, -⟩) hk
    · exact .pure _ _
    · simp at hlen
  · rintro m more hmore ts as rest n hlen (⟨rfl, rfl⟩ | ⟨comma, us, hcomma, rfl, h⟩) hk
    · exact (Reads.accept_false (stop hk)).bind (.pure _ _)
    · obtain ⟨name, vs, names, hname, rfl, rfl, hcont⟩ := uncons_names h
      refine (Reads.accept hcomma _ n).bind ((Reads.expect hname _ _ n).bind ?_)
      refine (hmore ?_ hcont hk).bind (.pure _ _)
      simp only [List.length_cons] at hlen
      omega

/-! ### Blocks -/

/-- The kinds of the words that begin a statement. -/
def statementHeads : List Kind :=
  [.identifier, .kwPrint, .kwScan, .kwIf, .kwRepeat, .kwFor]

/-- A statement begins with a word of its own. -/
private theorem head_of_statement {ts : List Token} {s : Stmt} (h : Stmt.Derives ts s) :
    ∃ head us, ts = head :: us ∧ head.kind ∈ statementHeads := by
  cases h with
  | assignment ha _ =>
    obtain ⟨hname, -, -⟩ := ha
    exact ⟨_, _, rfl, by simp [hname, statementHeads]⟩
  | print hhead | scan hhead | ifElse hhead | repeatWhen hhead | forLoop hhead =>
    exact ⟨_, _, rfl, by simp [hhead, statementHeads]⟩

/-- Statements before an `END` begin with a word of a statement or are none. -/
private theorem current_of_statements {us rest : List Token} {n : Nat} {ss : List Stmt}
    (h : StmtsDerive us ss) (hend : (Input.current ⟨rest, n⟩).kind = .kwEnd) :
    (Input.current ⟨us ++ rest, n⟩).kind ∈ .kwEnd :: statementHeads := by
  cases h with
  | nil => simp [hend]
  | cons hs _ =>
    obtain ⟨head, us, rfl, hhead⟩ := head_of_statement hs
    exact List.mem_cons_of_mem _ hhead

/-- So no type comes next there. -/
theorem isTypeKeyword_of_statements {us rest : List Token} {n : Nat} {ss : List Stmt}
    (h : StmtsDerive us ss) (hend : (Input.current ⟨rest, n⟩).kind = .kwEnd) :
    (Input.current ⟨us ++ rest, n⟩).kind.isTypeKeyword = false := by
  have hkind := current_of_statements h hend
  generalize (Input.current _).kind = k at hkind ⊢
  revert k
  decide

section Compound

variable {inner : Parser Stmt} {m : Nat} (hinner : ReadsUpTo m inner Stmt.Derives (· ≠ .kwElse))

include hinner

/-- The statements of a block are read up to its `END`. -/
private theorem statements_reads : ReadsUpTo m (statements inner) StmtsDerive (· = .kwEnd) := by
  refine .recursive_within ?_ ?_
  · intro ts ss rest n hlen hss hend
    cases hss with
    | nil => exact .pure _ _
    | cons hs _ =>
      obtain ⟨head, us, rfl, -⟩ := head_of_statement hs
      simp at hlen
  · rintro l more hmore ts ss rest n hlen ⟨hm, hss⟩ hend
    refine .current_bind ?_
    cases hss with
    | nil =>
      rw [List.nil_append, hend]
      exact .pure _ _
    | @cons us vs s ss hs hss =>
      have hnext : (Input.current ⟨vs ++ rest, n⟩).kind ≠ .kwElse := by
        have := current_of_statements hss hend
        intro helse
        simp [helse, statementHeads] at this
      obtain ⟨head, us, rfl, hhead⟩ := head_of_statement hs
      simp only [List.length_cons, List.length_append] at hlen hm
      have hbody : Reads (do let s ← inner; return s :: (← more))
          ⟨(head :: us ++ vs) ++ rest, n⟩ (s :: ss) ⟨rest, n⟩ := by
        rw [List.append_assoc]
        refine (hinner (by simp only [List.length_cons]; omega) hs hnext).bind ?_
        exact (hmore (by omega) ⟨by omega, hss⟩ hend).bind (.pure _ _)
      have hcur : Input.current ⟨(head :: us ++ vs) ++ rest, n⟩ = head := rfl
      rw [hcur]
      split
      · next hk => simp [hk, statementHeads] at hhead
      · next hk => simp [hk, statementHeads] at hhead
      · exact hbody

/-- A block is read with its `END` and the word of its kind. -/
theorem blockRest_reads {k : Kind} {openedAt : Nat} {us rest : List Token} {n : Nat} {body : Block}
    {ending closing : Token} (hlen : us.length ≤ m) (hbody : StmtsDerive us body)
    (hending : ending.kind = .kwEnd) (hclosing : closing.kind = k) :
    Reads (blockRest inner k openedAt) ⟨us ++ ending :: closing :: rest, n⟩ body ⟨rest, n⟩ := by
  refine .bind (statements_reads hinner hlen hbody hending) (.current_bind ?_)
  rw [if_neg (by simp [hending])]
  refine (Reads.expect hending _ _ n).bind ((Reads.expect hclosing _ _ n).bind ?_)
  exact .pure _ _

private theorem block_reads {k : Kind} {place : BlockPlace} {us bs rest : List Token} {n : Nat}
    {body : Block} (hlen : bs.length ≤ m) (hbody : StmtsDerive us body)
    (hframe : BlockFrame k us bs) :
    Reads (block inner k place) ⟨bs ++ rest, n⟩ body ⟨rest, n⟩ := by
  obtain ⟨hstart, hopening, hending, hclosing⟩ := hframe
  simp only [List.length_cons, List.length_append] at hlen
  simp only [List.cons_append, List.nil_append, List.append_assoc]
  refine (Reads.expect hstart _ _ n).bind ((Reads.expect hopening _ _ n).bind ?_)
  exact blockRest_reads hinner (by omega) hbody hending hclosing

omit hinner in
/-- An expression ends before a block. -/
private theorem canFollow_of_block {k : Kind} {us bs rest : List Token} {n : Nat}
    (hframe : BlockFrame k us bs) :
    CanFollow .reject (Input.current ⟨bs ++ rest, n⟩).kind := by
  obtain ⟨hstart, -, -, -⟩ := hframe
  exact canFollow_of_kind (.inr (.inr hstart))

/-- Alternatives are read as long as an `ELSE` comes next. -/
private theorem alternatives_reads :
    ReadsUpTo m (alternatives inner) ElseChain.Derives (· ≠ .kwElse) := by
  refine .recursive_within ?_ ?_
  · intro ts c rest n hlen hc hend
    cases hc with
    | done => exact .pure _ _
    | otherwise => simp at hlen
    | elseIf => simp at hlen
  · rintro l more hmore ts c rest n hlen ⟨hm, hc⟩ hend
    cases hc with
    | done => exact (Reads.accept_false hend).bind (.pure _ _)
    | @otherwise head us bs body hhead hbody hframe =>
      have hnoif : (Input.current ⟨bs ++ rest, n⟩).kind ≠ .kwIf := by
        obtain ⟨hstart, -, -, -⟩ := hframe
        simp [hstart]
      simp only [List.length_cons] at hm
      refine (Reads.accept hhead _ n).bind ((Reads.accept_false hnoif).bind ?_)
      exact .bind (block_reads hinner (by omega) hbody hframe) (.pure _ _)
    | @elseIf head word cs us bs as cond body chain hhead hword hcond hbody hframe hchain =>
      simp only [List.length_cons, List.length_append] at hlen hm
      simp only [List.cons_append, List.append_assoc]
      refine (Reads.accept hhead _ n).bind ((Reads.accept hword _ n).bind ?_)
      refine .bind (expression_reads hcond (canFollow_of_block hframe)) ?_
      refine .bind (block_reads hinner (by omega) hbody hframe) ?_
      exact .bind (hmore (by omega) ⟨by omega, hchain⟩ hend) (.pure _ _)

/-- A parser of statements reads those that are one token longer than the ones inside. -/
theorem statementWith_reads :
    ReadsUpTo (m + 1) (statementWith inner) Stmt.Derives (· ≠ .kwElse) := by
  intro ts s rest n hlen hs hend
  refine .current_bind ?_
  cases hs with
  | @assignment us dollar a ha hdollar =>
    have hassign : Reads
        (do let a ← assignment .reject; terminator .assignment; return .assignment a)
        ⟨(us ++ [dollar]) ++ rest, n⟩ (Stmt.assignment a) ⟨rest, n⟩ := by
      rw [List.append_assoc]
      refine .bind (assignment_reads ha (canFollow_of_kind (.inl hdollar))) ?_
      exact .bind (Reads.terminator hdollar _ _ n) (.pure _ _)
    obtain ⟨hname, -, -⟩ := ha
    simpa [hname] using hassign
  | @print head colon dollar us e hhead hcolon he hdollar =>
    simp only [List.cons_append, Input.current_cons, hhead, List.append_assoc, printRest_eq]
    refine (Reads.advance _ _ n).bind ((Reads.expect hcolon _ _ n).bind ?_)
    refine .bind (expression_reads he (canFollow_of_kind (.inl hdollar))) ?_
    exact .bind (Reads.terminator hdollar _ _ n) (.pure _ _)
  | @scan head colon dollar us names hhead hcolon hnames hdollar =>
    obtain ⟨name, vs, more, hname, rfl, rfl, hcont⟩ := uncons_names hnames
    simp only [List.cons_append, Input.current_cons, hhead, List.append_assoc]
    refine (Reads.advance _ _ n).bind ((Reads.expect hcolon _ _ n).bind ?_)
    refine .bind (Reads.expect hname _ _ n) ?_
    refine .bind (moreNames_reads vs.length (Nat.le_refl _) hcont hdollar) ?_
    exact .bind (Reads.terminator hdollar _ _ n) (.pure _ _)
  | @ifElse head cs us bs as cond body chain hhead hcond hbody hframe hchain =>
    simp only [List.length_cons, List.length_append] at hlen
    simp only [List.cons_append, Input.current_cons, hhead, List.append_assoc]
    refine (Reads.advance _ _ n).bind ((Reads.begin head _).bind ?_)
    refine .bind (expression_reads hcond (canFollow_of_block hframe)) ?_
    refine .bind (block_reads hinner (by omega) hbody hframe) ?_
    exact .bind (alternatives_reads hinner (by omega) hchain hend) (.pure _ _)
  | @repeatWhen head word cs us bs cond body hhead hword hcond hbody hframe =>
    simp only [List.length_cons, List.length_append] at hlen
    simp only [List.cons_append, Input.current_cons, hhead, List.append_assoc]
    refine (Reads.advance _ _ n).bind ((Reads.begin head _).bind ?_)
    refine .bind (Reads.expect hword _ _ n) ?_
    refine .bind (expression_reads hcond (canFollow_of_block hframe)) ?_
    exact .bind (block_reads hinner (by omega) hbody hframe) (.pure _ _)
  | @forLoop head opener comma comma' closer is cs us vs bs init update cond body hhead hopener
      hinit hcomma hcond hcomma' hupdate hcloser hbody hframe =>
    simp only [List.length_cons, List.length_append] at hlen
    simp only [List.cons_append, Input.current_cons, hhead, List.append_assoc]
    refine (Reads.advance _ _ n).bind ((Reads.begin head _).bind ?_)
    refine .bind (Reads.expect hopener _ _ n) ?_
    refine .bind (assignment_reads hinit (canFollow_of_kind (.inr (.inl hcomma)))) ?_
    refine .bind (Reads.expect hcomma _ _ n) ?_
    refine .bind (expression_reads hcond (canFollow_of_kind (.inr (.inl hcomma')))) ?_
    refine .bind (Reads.expect hcomma' _ _ n) ?_
    -- The last assignment is read with a `)` left to the loop.
    have hfollow : CanFollow .yield closer.kind := by simp [CanFollow, hcloser, Kind.level?]
    refine .bind (assignment_reads hupdate hfollow) ?_
    refine .bind (Reads.expect hcloser _ _ n) ?_
    exact .bind (block_reads hinner (by omega) hbody hframe) (.pure _ _)

end Compound

/-- **Every statement of the grammar is read**, by induction on its length. -/
theorem statement_reads (m : Nat) : ReadsUpTo m statement Stmt.Derives (· ≠ .kwElse) := by
  refine .recursive ?_ (fun l inner hinner => statementWith_reads hinner) m
  intro ts s rest n hlen hs _
  obtain ⟨head, us, rfl, -⟩ := head_of_statement hs
  simp at hlen

/-! ### Declarations and programs -/

private theorem entry_reads {typeName : Token} {ts rest : List Token} {n : Nat} {d : VarDecl}
    (h : VarDecl.Derives typeName ts d)
    (hnext : (Input.current ⟨rest, n⟩).kind = .dollar ∨ (Input.current ⟨rest, n⟩).kind = .comma) :
    Reads (entry typeName) ⟨ts ++ rest, n⟩ d ⟨rest, n⟩ := by
  cases h with
  | plain hname =>
    have hsign : (Input.current ⟨rest, n⟩).kind ≠ .equal := by
      rcases hnext with hk | hk <;> simp [hk]
    exact (Reads.expect hname _ _ n).bind ((Reads.accept_false hsign).bind (.pure _ _))
  | withValue hname hsign hvalue =>
    refine (Reads.expect hname _ _ n).bind ((Reads.accept hsign _ n).bind ?_)
    have hfollow : CanFollow .reject _ := canFollow_of_kind (hnext.imp_right Or.inl)
    exact .bind (expression_reads hvalue hfollow) (.pure _ _)

/-- A list of variables is one variable and what follows it. -/
private theorem uncons_entries {typeName : Token} {ts : List Token} {ds : List VarDecl}
    (h : EntriesDerive typeName ts ds) :
    ∃ us vs d more, VarDecl.Derives typeName us d ∧ ts = us ++ vs ∧ ds = d :: more ∧
      Continues (EntriesDerive typeName) vs more := by
  cases h with
  | @last ts d hd => exact ⟨ts, [], d, [], hd, by simp, rfl, .inl ⟨rfl, rfl⟩⟩
  | @more ts rest comma d ds hd hcomma h =>
    exact ⟨ts, comma :: rest, d, ds, hd, rfl, rfl, .inr ⟨comma, rest, hcomma, rfl, h⟩⟩

/-- What goes on goes on with a comma. -/
private theorem current_of_continues {G : List Token → List α → Prop} {ts rest : List Token}
    {as : List α} {n : Nat} (h : Continues G ts as)
    (hend : (Input.current ⟨rest, n⟩).kind = .dollar) :
    (Input.current ⟨ts ++ rest, n⟩).kind = .dollar ∨
      (Input.current ⟨ts ++ rest, n⟩).kind = .comma := by
  rcases h with ⟨rfl, -⟩ | ⟨comma, us, hcomma, rfl, -⟩
  · exact .inl hend
  · exact .inr hcomma

private theorem moreEntries_reads (typeName : Token) (m : Nat) :
    ReadsUpTo m (moreEntries typeName) (Continues (EntriesDerive typeName)) (· = .dollar) := by
  refine .recursive ?_ ?_ m
  · rintro ts as rest n hlen (⟨rfl, rfl⟩ | ⟨comma, us, -, rfl, -⟩) hk
    · exact .pure _ _
    · simp at hlen
  · rintro m more hmore ts as rest n hlen (⟨rfl, rfl⟩ | ⟨comma, us, hcomma, rfl, h⟩) hk
    · have hstop : (Input.current ⟨rest, n⟩).kind ≠ .comma := by simp [hk]
      exact .bind (Reads.accept_false hstop) (.pure _ _)
    · obtain ⟨vs, ws, d, ds, hd, rfl, rfl, hcont⟩ := uncons_entries h
      simp only [List.length_cons, List.length_append] at hlen
      simp only [List.cons_append, List.append_assoc]
      refine .bind (Reads.accept hcomma _ n) ?_
      refine .bind (entry_reads hd (current_of_continues hcont hk)) ?_
      exact .bind (hmore (by omega) hcont hk) (.pure _ _)

private theorem declarationRest_reads {typeName dollar : Token} {ts rest : List Token} {n : Nat}
    {ds : List VarDecl} (h : EntriesDerive typeName ts ds) (hdollar : dollar.kind = .dollar) :
    Reads (declarationRest typeName) ⟨ts ++ dollar :: rest, n⟩ ds ⟨rest, n⟩ := by
  obtain ⟨us, vs, d, more, hd, rfl, rfl, hcont⟩ := uncons_entries h
  rw [List.append_assoc]
  refine .bind (entry_reads hd (current_of_continues hcont hdollar)) ?_
  refine .bind (moreEntries_reads typeName vs.length (Nat.le_refl _) hcont hdollar) ?_
  exact .bind (Reads.terminator hdollar _ _ n) (.pure _ _)

/-- Declarations are read up to a word that is no type. -/
theorem declarations_reads (m : Nat) :
    ReadsUpTo m declarations DeclarationsDerive (·.isTypeKeyword = false) := by
  rw [declarations_eq_recursive]
  refine .recursive ?_ ?_ m
  · intro ts ds rest n hlen hds _
    cases hds with
    | nil => exact .pure _ _
    | cons => simp at hlen
  · intro m more hmore ts ds rest n hlen hds hend
    refine .current_bind ?_
    cases hds with
    | nil =>
      rw [List.nil_append, if_neg (by simp [hend])]
      exact .pure _ _
    | @cons typeName dollar us vs ds ds' htype hentries hdollar hds =>
      simp only [List.length_cons, List.length_append] at hlen
      simp only [List.cons_append, Input.current_cons, htype, if_true, List.append_assoc]
      refine (Reads.advance _ _ n).bind ((declarationRest_reads hentries hdollar).bind ?_)
      exact .bind (hmore (by omega) hds hend) (.pure _ _)

/-- All tokens of a program are read. -/
theorem program_reads {ts : List Token} {n : Nat} {p : Program} (h : Program.Derives ts p) :
    Reads program ⟨ts, n⟩ p ⟨[], n⟩ := by
  obtain @⟨word, area, ds, us, bs, decls, stmts, hword, harea, hdecls, hstmts, hframe⟩ := h
  obtain @⟨start, opening, ending, closing, hstart, hopening, hending, hclosing⟩ := hframe
  rw [List.append_assoc]
  refine (Reads.expect hword _ _ n).bind ((Reads.expect harea _ _ n).bind ?_)
  refine (Reads.expect hstart _ _ n).bind ((Reads.expect hopening _ _ n).bind ?_)
  refine .bind (declarations_reads ds.length (Nat.le_refl _) hdecls
    (isTypeKeyword_of_statements hstmts hending)) ?_
  refine .bind (blockRest_reads (statement_reads us.length) (Nat.le_refl _) hstmts hending
    hclosing) ?_
  exact .pure _ _

end ScriptTree.Parser

namespace ScriptTree.Input

/-! ### Exactly the grammar -/

/-- A program is read from an input if and only if the grammar derives it from the tokens ahead. -/
theorem result_parse_eq_ok_iff {i : Input} (hend : ∀ t ∈ i.ahead, t.kind ≠ .eof) {p : Program} :
    i.parse.result = .ok p ↔ Program.Derives i.ahead p := by
  constructor
  · intro h
    unfold parse at h
    split at h
    · next q r hok =>
      obtain rfl := Except.ok.inj h
      obtain ⟨used, hahead, hder⟩ := Parser.program_sound hok
      have hnil : r.input.ahead = [] := Parser.ahead_of_program hend hok
      rwa [show i.ahead = used by simpa [hnil] using hahead]
    · contradiction
  · intro h
    obtain ⟨heads, hok⟩ := Parser.program_reads (n := i.endLine) h []
    unfold parse
    rw [hok]

/-- **The reader of programs and the grammar.** Reading a list of tokens gives the program `p` if
and only if the grammar derives `p` from the tokens before the first end mark. -/
theorem parse_eq_ok_iff_derives (ts : List Token) (p : Program) :
    (ofTokens ts).parse.result = .ok p ↔ Program.Derives (ts.takeWhile (·.kind != .eof)) p := by
  rw [result_parse_eq_ok_iff fun _ => kind_ne_eof_of_mem_ahead, ahead_ofTokens]

end ScriptTree.Input
