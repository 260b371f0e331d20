import ScriptTree.Grammar.Program

/-!
# Open blocks

The blocks that are open after some tokens are found by going along the tokens with a stack
(`openBlocks`): a `START` with a word after it opens the block of this word, and an `END` with a
word after it closes the innermost one, which has to be of the same word.

A whole construct of the grammar leaves this stack as it was (`Neutral`), whatever blocks are open
around it and whatever comes after it. So the stack after the beginning of a program depends only on
the constructs that are not complete.
-/

namespace ScriptTree

/-! ### The stack of blocks -/

/-- The words that name a block. -/
def Kind.isBlock : Kind → Bool
  | kwScript | kwIf | kwRepeat | kwFor => true
  | _ => false

/-- The open blocks after the tokens, the innermost first, each with its word and the line of its
`START`, when `opened` are open before them. There is no answer if an `END` does not fit. -/
def openBlocks : List (Kind × Nat) → List Token → Option (List (Kind × Nat))
  | opened, [] => some opened
  | opened, [_] => some opened
  | opened, t :: word :: ts =>
    if t.kind = .kwStart ∧ word.kind.isBlock then
      openBlocks ((word.kind, t.line) :: opened) (word :: ts)
    else if t.kind = .kwEnd ∧ word.kind.isBlock then
      match opened with
      | [] => none
      | (block, _) :: opened =>
        if block = word.kind then openBlocks opened (word :: ts) else none
    else openBlocks opened (word :: ts)

variable {opened : List (Kind × Nat)} {ts us : List Token} {t start word ending closing : Token}

/-- Only a `START` and an `END` change the stack. -/
theorem openBlocks_cons {k : Kind} (ht : t.kind = k) (hstart : k ≠ .kwStart) (hend : k ≠ .kwEnd) :
    openBlocks opened (t :: ts) = openBlocks opened ts := by
  cases ts with
  | nil => rfl
  | cons u ts => simp [openBlocks, ht, hstart, hend]

/-- The word of a block is neither of them. -/
private theorem openBlocks_word (h : word.kind.isBlock = true) :
    openBlocks opened (word :: ts) = openBlocks opened ts := by
  refine openBlocks_cons rfl ?_ ?_
  all_goals
    intro hk
    simp [hk, Kind.isBlock] at h

/-- A `START` with a word of a block opens this block. -/
theorem openBlocks_start (hstart : start.kind = .kwStart) (hword : word.kind.isBlock = true) :
    openBlocks opened (start :: word :: ts)
      = openBlocks ((word.kind, start.line) :: opened) ts := by
  simp [openBlocks, hstart, hword, openBlocks_word hword]

/-- An `END` with the word of the block on top closes it. -/
private theorem openBlocks_end {line : Nat} (hending : ending.kind = .kwEnd)
    (hclosing : closing.kind.isBlock = true) :
    openBlocks ((closing.kind, line) :: opened) (ending :: closing :: ts)
      = openBlocks opened ts := by
  simp [openBlocks, hending, hclosing, openBlocks_word hclosing]

/-! ### Tokens outside blocks -/

/-- The words that the rules of compound statements and of programs ask for. -/
def Kind.isStructural : Kind → Bool
  | kwScript | kwArea | kwStart | kwEnd | kwIf | kwElse | kwRepeat | kwWhen | kwFor => true
  | _ => false

/-- The tokens leave the stack as it was, whatever comes after them. -/
def Neutral (ts : List Token) : Prop :=
  ∀ opened us, openBlocks opened (ts ++ us) = openBlocks opened us

namespace Neutral

theorem nil : Neutral [] :=
  fun _ _ => rfl

theorem append (h : Neutral ts) (h' : Neutral us) : Neutral (ts ++ us) := by
  intro opened vs
  rw [List.append_assoc, h, h']

/-- A token that neither opens nor closes leaves the stack as it is. -/
theorem cons {k : Kind} (ht : t.kind = k) (hk : k ≠ .kwStart ∧ k ≠ .kwEnd) (h : Neutral ts) :
    Neutral (t :: ts) := by
  intro opened us
  rw [List.cons_append, openBlocks_cons ht hk.1 hk.2, h]

/-- Tokens among which no word of the structure stands. -/
theorem of_forall (h : ∀ t ∈ ts, t.kind.isStructural = false) : Neutral ts := by
  induction ts with
  | nil => exact nil
  | cons t ts ih =>
    obtain ⟨ht, hts⟩ := List.forall_mem_cons.mp h
    refine cons rfl ⟨?_, ?_⟩ (ih hts)
    all_goals
      intro hk
      simp [hk, Kind.isStructural] at ht

/-- A whole block. -/
theorem frame {k : Kind} (hk : k.isBlock = true) (hts : Neutral ts) (h : BlockFrame k ts us) :
    Neutral us := by
  obtain ⟨hstart, hopening, hending, hclosing⟩ := h
  intro opened vs
  subst hopening
  rw [List.cons_append, List.cons_append, openBlocks_start hstart hk, List.append_assoc, hts,
    ← hclosing]
  exact openBlocks_end hending (hclosing ▸ hk)

end Neutral

/-! ### Constructs without blocks -/

namespace Expr

/-- No token of an expression opens or closes a block. -/
theorem Derives.isStructural {n : Nat} {e : Expr} (h : Derives n ts e) :
    ∀ t ∈ ts, t.kind.isStructural = false := by
  induction h with
  | leaf ht =>
    rw [List.forall_mem_singleton]
    revert ht
    generalize Token.kind _ = k
    cases k <;> decide
  | newline ht => simp [ht, Kind.isStructural]
  | group hopener hcloser _ ih =>
    simpa [or_imp, forall_and, hopener, hcloser, Kind.isStructural] using ih
  | @unary operator ts e hoperator _ ih =>
    refine List.forall_mem_cons.mpr ⟨?_, ih⟩
    cases hk : operator.kind <;> simp_all [Kind.isPrefixOperator, Kind.isStructural]
  | @join n operator ls rs left right hlevel _ _ ihl ihr =>
    refine List.forall_mem_append.mpr ⟨ihl, List.forall_mem_cons.mpr ⟨?_, ihr⟩⟩
    cases hk : operator.kind <;> simp_all [Kind.level?, Kind.isStructural]
  | tighter _ ih => exact ih

end Expr

theorem Assignment.Derives.isStructural {a : Assignment} (h : Assignment.Derives ts a) :
    ∀ t ∈ ts, t.kind.isStructural = false := by
  obtain ⟨hname, hsign, hvalue⟩ := h
  simpa [hname, hsign, Kind.isStructural] using hvalue.isStructural

theorem NamesDerive.isStructural {names : List Token} (h : NamesDerive ts names) :
    ∀ t ∈ ts, t.kind.isStructural = false := by
  induction h with
  | last hname => simp [hname, Kind.isStructural]
  | more hname hcomma _ ih => simpa [hname, hcomma, Kind.isStructural] using ih

theorem VarDecl.Derives.isStructural {typeName : Token} {d : VarDecl}
    (h : VarDecl.Derives typeName ts d) : ∀ t ∈ ts, t.kind.isStructural = false := by
  cases h with
  | plain hname => simp [hname, Kind.isStructural]
  | withValue hname hsign hvalue =>
    simpa [hname, hsign, Kind.isStructural] using hvalue.isStructural

theorem EntriesDerive.isStructural {typeName : Token} {ds : List VarDecl}
    (h : EntriesDerive typeName ts ds) : ∀ t ∈ ts, t.kind.isStructural = false := by
  induction h with
  | last hd => exact hd.isStructural
  | more hd hcomma _ ih =>
    simpa [or_imp, forall_and, hcomma, Kind.isStructural] using And.intro hd.isStructural ih

theorem isStructural_of_isTypeKeyword {k : Kind} (h : k.isTypeKeyword = true) :
    k.isStructural = false := by
  revert h
  cases k <;> decide

/-! ### Statements -/

/-- The tokens leave the stack of blocks as it was, and do not end with a comma. -/
structure Whole (ts : List Token) : Prop where
  neutral : Neutral ts
  last : ∀ t ∈ ts.getLast?, t.kind ≠ .comma

namespace Whole

private theorem nil : Whole [] :=
  ⟨.nil, by simp⟩

private theorem append (h : Whole ts) (h' : Whole us) : Whole (ts ++ us) := by
  refine ⟨h.neutral.append h'.neutral, fun t ht => ?_⟩
  rw [List.getLast?_append] at ht
  rcases Option.or_eq_some_iff.mp ht with ht | ⟨-, ht⟩
  · exact h'.last t ht
  · exact h.last t ht

/-- The last token tells how the tokens end. -/
private theorem concat {k : Kind} (hts : Neutral ts) (ht : t.kind = k) (hk : k.isStructural = false)
    (hcomma : k ≠ .comma) : Whole (ts ++ [t]) := by
  subst ht
  exact ⟨hts.append (.of_forall (by simpa using hk)), by simpa using hcomma⟩

/-- A whole block, after tokens that leave the stack as it was. -/
private theorem frame {k : Kind} {inner bs : List Token} (hk : k.isBlock = true) (hts : Neutral ts)
    (hinner : Neutral inner) (h : BlockFrame k inner bs) : Whole (ts ++ bs) := by
  refine ⟨hts.append (.frame hk hinner h), ?_⟩
  obtain @⟨start, opening, ending, closing, -, -, -, hclosing⟩ := h
  have hlast :
      (ts ++ start :: opening :: (inner ++ [ending, closing])).getLast? = some closing := by
    rw [List.getLast?_append, List.getLast?_cons_cons, ← List.cons_append, List.getLast?_append]
    rfl
  rw [hlast]
  rintro _ ⟨⟩ hcomma
  rw [← hclosing, hcomma] at hk
  contradiction

end Whole

/-- Declarations open and close no block. -/
theorem DeclarationsDerive.whole {ds : List VarDecl} (h : DeclarationsDerive ts ds) : Whole ts := by
  induction h with
  | nil => exact .nil
  | cons htype hentries hdollar _ ih =>
    have hstructural := isStructural_of_isTypeKeyword htype
    have hneutral := Neutral.of_forall
      (List.forall_mem_cons.mpr ⟨hstructural, hentries.isStructural⟩)
    simpa using (Whole.concat hneutral hdollar rfl (by decide)).append ih

mutual

/-- A statement closes every block that it opens. -/
theorem Stmt.Derives.whole {ts : List Token} {s : Stmt} (h : Stmt.Derives ts s) : Whole ts := by
  cases h with
  | assignment ha hdollar =>
    exact .concat (.of_forall ha.isStructural) hdollar rfl (by decide)
  | print hhead hcolon he hdollar =>
    have hneutral :=
      Neutral.cons hhead (by decide) (.cons hcolon (by decide) (.of_forall he.isStructural))
    exact .concat hneutral hdollar rfl (by decide)
  | scan hhead hcolon hnames hdollar =>
    have hneutral :=
      Neutral.cons hhead (by decide) (.cons hcolon (by decide) (.of_forall hnames.isStructural))
    exact .concat hneutral hdollar rfl (by decide)
  | ifElse hhead hcond hbody hframe halternatives =>
    have hneutral := Neutral.cons hhead (by decide) (.of_forall hcond.isStructural)
    have hblock := Whole.frame rfl hneutral (StmtsDerive.whole hbody).neutral hframe
    exact hblock.append (ElseChain.Derives.whole halternatives)
  | repeatWhen hhead hword hcond hbody hframe =>
    have hneutral :=
      Neutral.cons hhead (by decide) (.cons hword (by decide) (.of_forall hcond.isStructural))
    exact .frame rfl hneutral (StmtsDerive.whole hbody).neutral hframe
  | forLoop hhead hopener hinit hcomma hcond hcomma' hupdate hcloser hbody hframe =>
    have hinits :=
      Neutral.cons hhead (by decide) (.cons hopener (by decide) (.of_forall hinit.isStructural))
    have hconds := Neutral.cons hcomma (by decide) (.of_forall hcond.isStructural)
    have hupdates := Neutral.cons hcomma' (by decide) (.of_forall hupdate.isStructural)
    have hheader := hupdates.append (.cons hcloser (by decide) .nil)
    have hneutral := hinits.append (hconds.append hheader)
    simpa using Whole.frame rfl hneutral (StmtsDerive.whole hbody).neutral hframe

theorem StmtsDerive.whole {ts : List Token} {ss : List Stmt} (h : StmtsDerive ts ss) :
    Whole ts := by
  cases h with
  | nil => exact .nil
  | cons hs hss => exact (Stmt.Derives.whole hs).append (StmtsDerive.whole hss)

theorem ElseChain.Derives.whole {ts : List Token} {c : ElseChain}
    (h : ElseChain.Derives ts c) : Whole ts := by
  cases h with
  | done => exact .nil
  | otherwise hhead hbody hframe =>
    exact .frame rfl (.cons hhead (by decide) .nil) (StmtsDerive.whole hbody).neutral hframe
  | elseIf hhead hword hcond hbody hframe hrest =>
    have hneutral :=
      Neutral.cons hhead (by decide) (.cons hword (by decide) (.of_forall hcond.isStructural))
    have hblock := Whole.frame rfl hneutral (StmtsDerive.whole hbody).neutral hframe
    exact hblock.append (ElseChain.Derives.whole hrest)

end

end ScriptTree
