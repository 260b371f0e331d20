import ScriptTree.Proofs.Program.Completeness
import ScriptTree.Proofs.Source.Words
import ScriptTree.Source
import ScriptTree.Tree.Relabel

/-!
# Programs that are written and read back

The words of a canonical tree stand for tokens from which the grammar derives this tree, up to lines
(`Program.derives_words`), and scanning finds these tokens again. Conversely, the trees that the
grammar derives from well spelled tokens are canonical (`Program.Derives.isCanonical`), and a scan
gives well spelled tokens only.

Together (`parse_source_and_isCanonical`): a canonical program that is written and parsed again is
the same program up to lines, and parsing gives canonical programs only.
-/

namespace ScriptTree

/-- Puts everything on the first line. -/
def Relabelling.firstLine : Relabelling :=
  ⟨fun t => { t with line := 1 }, fun _ => 1⟩

/-- The tokens that words stand for, all on the first line. -/
def ofWords (ws : List String) : List Token :=
  ws.map Token.ofWord

/-! ### Canonical trees are derived from their words -/

section

variable {w : String} {ws us : List String}

@[simp] theorem ofWords_nil : ofWords [] = [] := rfl

@[simp] theorem ofWords_cons : ofWords (w :: ws) = Token.ofWord w :: ofWords ws := rfl

@[simp] theorem ofWords_append : ofWords (ws ++ us) = ofWords ws ++ ofWords us := List.map_append

end

namespace Expr

/-- Operands that hold together strongly enough are joined by an operator. -/
theorem derives_infixNode {left right : Expr} {operator : Token}
    (hop : operator.isWellSpelled = true)
    (hlevel : operator.kind.level?.any fun n => n ≤ left.strength && n < right.strength)
    (hleft : Derives left.strength (ofWords left.words) (left.relabel .firstLine))
    (hright : Derives right.strength (ofWords right.words) (right.relabel .firstLine)) :
    Derives (infixNode left operator right).strength
      (ofWords (infixNode left operator right).words)
      ((infixNode left operator right).relabel .firstLine) := by
  obtain ⟨n, hn, hstrength⟩ := (Option.any_eq_true _ _).mp hlevel
  rw [Bool.and_eq_true, decide_eq_true_eq, decide_eq_true_eq] at hstrength
  rw [strength_infixNode, hn, Option.getD_some, relabel_infixNode _ _ _ rfl, words_infixNode,
    ofWords_append, ofWords_cons, Token.ofWord_lexeme_of_isWellSpelled hop]
  exact .join hn (hleft.of_le hstrength.1) (hright.of_le hstrength.2)

/-- The word of a leaf stands for the leaf. -/
private theorem derives_leaf {t : Token} (hoperand : t.kind.isOperand = true)
    (ht : t.isWellSpelled = true) :
    Derives (leaf t).strength (ofWords (leaf t).words) ((leaf t).relabel .firstLine) := by
  rw [words_leaf, strength_leaf, relabel_leaf _ rfl, ofWords_cons,
    Token.ofWord_lexeme_of_isWellSpelled ht]
  exact .leaf hoperand

/-- A canonical expression is a phrase of its strength. -/
theorem derives_words {e : Expr} (h : e.isCanonical = true) :
    Derives e.strength (ofWords e.words) (e.relabel .firstLine) := by
  induction e with
  | binary left operator right ihl ihr =>
    simp only [isCanonical, Bool.and_eq_true, Bool.not_eq_true'] at h
    obtain ⟨⟨⟨⟨hlogical, hop⟩, hlevel⟩, hleft⟩, hright⟩ := h
    have hnode : infixNode left operator right = binary left operator right := by
      simp [infixNode, hlogical]
    exact hnode ▸ derives_infixNode hop hlevel (ihl hleft) (ihr hright)
  | logical left operator right ihl ihr =>
    simp only [isCanonical, Bool.and_eq_true] at h
    obtain ⟨⟨⟨⟨hlogical, hop⟩, hlevel⟩, hleft⟩, hright⟩ := h
    have hnode : infixNode left operator right = logical left operator right := by
      simp [infixNode, hlogical]
    exact hnode ▸ derives_infixNode hop hlevel (ihl hleft) (ihr hright)
  | unary operator operand ih =>
    simp only [isCanonical, Bool.and_eq_true, decide_eq_true_eq] at h
    obtain ⟨⟨⟨hsign, hop⟩, hstrength⟩, hoperand⟩ := h
    rw [words, ofWords_cons, Token.ofWord_lexeme_of_isWellSpelled hop]
    exact .unary hsign ((ih hoperand).of_le hstrength)
  | grouping inner ih =>
    -- Parentheses take a phrase of any strength.
    have hinner := (ih h).of_le (Nat.zero_le _)
    have hgroup := Derives.group (Token.kind_ofWord rfl) (Token.kind_ofWord rfl) hinner
    simpa [words, relabel, strength] using hgroup
  | literal value =>
    simp only [isCanonical, Bool.and_eq_true] at h
    have hne : value.kind ≠ .identifier := by
      intro hkind
      simp [hkind, Kind.isLiteral] at h
    have hleaf : leaf value = literal value := if_neg hne
    exact hleaf ▸ derives_leaf ((Kind.isOperand_iff _).mpr (.inl h.1)) h.2
  | identifier name =>
    simp only [isCanonical, Token.isName, Bool.and_eq_true, beq_iff_eq] at h
    have hleaf : leaf name = identifier name := if_pos h.1
    exact hleaf ▸ derives_leaf ((Kind.isOperand_iff _).mpr (.inr h.1)) h.2
  | newline line => exact .newline (Token.kind_ofWord rfl)

end Expr

/-- A canonical expression is a phrase of the loosest level. -/
theorem Expr.derives_words_zero {e : Expr} (h : e.isCanonical = true) :
    Derives 0 (ofWords e.words) (e.relabel .firstLine) :=
  (derives_words h).of_le (Nat.zero_le _)

/-- A name stands for itself on the first line. -/
private theorem Token.ofWord_lexeme_of_isName {t : Token} (h : t.isName = true) :
    Token.ofWord t.lexeme = Relabelling.firstLine.token t ∧
      (Relabelling.firstLine.token t).kind = .identifier := by
  simp only [isName, Bool.and_eq_true, beq_iff_eq] at h
  exact ⟨ofWord_lexeme_of_isWellSpelled h.2, h.1⟩

/-- The words of an assignment stand for it. -/
theorem Assignment.derives_words {a : Assignment} (h : a.isCanonical = true) :
    Derives (ofWords a.words) (a.relabel .firstLine) := by
  rw [isCanonical, Bool.and_eq_true] at h
  obtain ⟨hword, hname⟩ := Token.ofWord_lexeme_of_isName h.1
  rw [words, ofWords_cons, ofWords_cons, hword]
  exact .intro hname (Token.kind_ofWord rfl) (Expr.derives_words_zero h.2)

/-- A canonical variable is a declaration of its own. -/
theorem VarDecl.derives_words {d : VarDecl} {ts : List Token} {ds : List VarDecl}
    (h : d.isCanonical = true) (hrest : DeclarationsDerive ts ds) :
    DeclarationsDerive (ofWords d.words ++ ts) (d.relabel .firstLine :: ds) := by
  obtain ⟨typeName, name, init⟩ := d
  simp only [isCanonical, Bool.and_eq_true] at h
  obtain ⟨⟨⟨htype, hspelled⟩, hname⟩, hinit⟩ := h
  have hfirst : Token.ofWord typeName.lexeme = Relabelling.firstLine.token typeName :=
    Token.ofWord_lexeme_of_isWellSpelled hspelled
  have hfirstKind : (Relabelling.firstLine.token typeName).kind.isTypeKeyword = true := htype
  obtain ⟨hword, hkind⟩ := Token.ofWord_lexeme_of_isName hname
  have hdollar : (Token.ofWord "$").kind = .dollar := Token.kind_ofWord rfl
  have hentry {us : List Token} (hd : Derives (Relabelling.firstLine.token typeName) us
      (VarDecl.relabel .firstLine ⟨typeName, name, init⟩)) :=
    DeclarationsDerive.cons hfirstKind (.last hd) hdollar hrest
  cases init with
  | none => simpa [words, hfirst, hword] using hentry (.plain hkind)
  | some value =>
    have hvalue := Expr.derives_words_zero (e := value) hinit
    have hsign : (Token.ofWord "=").kind = .equal := Token.kind_ofWord rfl
    simpa [words, hfirst, hword] using hentry (.withValue hkind hsign hvalue)

private theorem derives_declarations {ds : List VarDecl} (h : ds.all VarDecl.isCanonical = true) :
    DeclarationsDerive (ofWords (ds.flatMap VarDecl.words))
      (ds.map (VarDecl.relabel .firstLine)) := by
  induction ds with
  | nil => exact .nil
  | cons d ds ih =>
    rw [List.all_cons, Bool.and_eq_true] at h
    rw [List.flatMap_cons, ofWords_append, List.map_cons]
    exact VarDecl.derives_words h.1 (ih h.2)

/-- Names between commas stand for the names. -/
private theorem derives_names {names : List Token} (hne : names ≠ [])
    (h : names.all Token.isName = true) :
    NamesDerive (ofWords (separated "," (names.map ([·.lexeme]))))
      (names.map Relabelling.firstLine.token) := by
  induction names with
  | nil => exact absurd rfl hne
  | cons name names ih =>
    rw [List.all_cons, Bool.and_eq_true] at h
    obtain ⟨hword, hkind⟩ := Token.ofWord_lexeme_of_isName h.1
    rcases names with _ | ⟨next, names⟩
    · simpa [separated, hword] using NamesDerive.last hkind
    · have hrest := ih (List.cons_ne_nil _ _) h.2
      have hcomma : (Token.ofWord ",").kind = .comma := Token.kind_ofWord rfl
      simpa [separated, hword] using NamesDerive.more hkind hcomma hrest

/-- The words around a block are its frame. -/
private theorem BlockFrame.ofWords_blockWords {k : Kind} {keyword : String}
    (hk : k.spelling? = some keyword) (ws : List String) :
    BlockFrame k (ofWords ws) (ofWords (blockWords keyword ws)) := by
  have hkeyword := Token.kind_ofWord hk
  simp only [blockWords, ofWords_cons, ofWords_append, ofWords_nil]
  exact .intro (Token.kind_ofWord rfl) hkeyword (Token.kind_ofWord rfl) hkeyword

mutual

/-- A canonical statement is derived from its words. -/
theorem Stmt.derives_words {s : Stmt} (h : s.isCanonical = true) :
    Stmt.Derives (ofWords s.words) (s.relabel .firstLine) := by
  cases s with
  | assignment a =>
    simp only [Stmt.words, ofWords_append, ofWords_cons, ofWords_nil]
    exact .assignment (Assignment.derives_words h) (Token.kind_ofWord rfl)
  | ifElse cond body alternatives =>
    simp only [Stmt.isCanonical, Bool.and_eq_true] at h
    obtain ⟨⟨hcond, hbody⟩, halternatives⟩ := h
    simp only [Stmt.words, ofWords_append, ofWords_cons]
    exact .ifElse (Token.kind_ofWord rfl) (Expr.derives_words_zero hcond) (derives_wordsEach hbody)
      (.ofWords_blockWords rfl _) (ElseChain.derives_words halternatives)
  | repeatWhen cond body =>
    simp only [Stmt.isCanonical, Bool.and_eq_true] at h
    simp only [Stmt.words, ofWords_append, ofWords_cons]
    exact .repeatWhen (Token.kind_ofWord rfl) (Token.kind_ofWord rfl)
      (Expr.derives_words_zero h.1) (derives_wordsEach h.2) (.ofWords_blockWords rfl _)
  | forLoop init cond update body =>
    simp only [Stmt.isCanonical, Bool.and_eq_true] at h
    obtain ⟨⟨⟨hinit, hcond⟩, hupdate⟩, hbody⟩ := h
    simp only [Stmt.words, ofWords_append, ofWords_cons]
    exact .forLoop (Token.kind_ofWord rfl) (Token.kind_ofWord rfl) (Assignment.derives_words hinit)
      (Token.kind_ofWord rfl) (Expr.derives_words_zero hcond) (Token.kind_ofWord rfl)
      (Assignment.derives_words hupdate) (Token.kind_ofWord rfl) (derives_wordsEach hbody)
      (.ofWords_blockWords rfl _)
  | print exprs =>
    simp only [Stmt.isCanonical, Bool.and_eq_true, beq_iff_eq] at h
    obtain ⟨e, rfl⟩ := List.length_eq_one_iff.mp h.1
    have he : e.isCanonical = true := by simpa using h.2
    have hwords : separated "&" [e.words] = e.words := by simp [separated]
    simp only [Stmt.words, List.map_cons, List.map_nil, hwords, ofWords_append, ofWords_cons,
      ofWords_nil]
    exact .print (Token.kind_ofWord rfl) (Token.kind_ofWord rfl) (Expr.derives_words_zero he)
      (Token.kind_ofWord rfl)
  | scan names =>
    simp only [Stmt.isCanonical, Bool.and_eq_true, Bool.not_eq_true',
      List.isEmpty_eq_false_iff] at h
    simp only [Stmt.words, ofWords_append, ofWords_cons, ofWords_nil]
    exact .scan (Token.kind_ofWord rfl) (Token.kind_ofWord rfl) (derives_names h.1 h.2)
      (Token.kind_ofWord rfl)

private theorem derives_wordsEach {ss : List Stmt} (h : areCanonical ss = true) :
    StmtsDerive (ofWords (wordsEach ss)) (relabelEach .firstLine ss) := by
  cases ss with
  | nil => exact .nil
  | cons s ss =>
    rw [areCanonical, Bool.and_eq_true] at h
    rw [wordsEach, ofWords_append, relabelEach]
    exact .cons (Stmt.derives_words h.1) (derives_wordsEach h.2)

theorem ElseChain.derives_words {c : ElseChain} (h : c.isCanonical = true) :
    ElseChain.Derives (ofWords c.words) (c.relabel .firstLine) := by
  cases c with
  | done => exact .done
  | otherwise body =>
    simp only [ElseChain.words, ofWords_cons]
    exact .otherwise (Token.kind_ofWord rfl) (derives_wordsEach h) (.ofWords_blockWords rfl _)
  | elseIf cond body rest =>
    simp only [ElseChain.isCanonical, Bool.and_eq_true] at h
    obtain ⟨⟨hcond, hbody⟩, hrest⟩ := h
    simp only [ElseChain.words, ofWords_append, ofWords_cons]
    exact .elseIf (Token.kind_ofWord rfl) (Token.kind_ofWord rfl) (Expr.derives_words_zero hcond)
      (derives_wordsEach hbody) (.ofWords_blockWords rfl _) (ElseChain.derives_words hrest)

end

/-- A canonical program is derived from its words. -/
theorem Program.derives_words {p : Program} (h : p.isCanonical = true) :
    Program.Derives (ofWords p.words) (p.relabel .firstLine) := by
  rw [isCanonical, Bool.and_eq_true] at h
  have hframe := BlockFrame.ofWords_blockWords (k := .kwScript) rfl
    (p.decls.flatMap VarDecl.words ++ wordsEach p.stmts)
  rw [ofWords_append] at hframe
  exact .intro (Token.kind_ofWord rfl) (Token.kind_ofWord rfl) (derives_declarations h.1)
    (derives_wordsEach h.2) hframe

/-! ### Derived trees are canonical -/

/-- A phrase of some level holds together at least as strongly. -/
theorem Expr.Derives.le_strength {n : Nat} {ts : List Token} {e : Expr} (h : Derives n ts e) :
    n ≤ e.strength := by
  induction h with
  | leaf => simp
  | newline | group | unary => exact Nat.le_refl _
  | join hlevel => simp [hlevel]
  | tighter _ ih => exact Nat.le_of_succ_le ih

/-- Well spelled phrases have canonical trees. -/
theorem Expr.Derives.isCanonical {n : Nat} {ts : List Token} {e : Expr} (h : Derives n ts e)
    (hts : ∀ t ∈ ts, t.isWellSpelled = true) : e.isCanonical = true := by
  induction h with
  | leaf ht => simpa [isCanonical_leaf ht] using hts
  | newline => rfl
  | group _ _ _ ih =>
    obtain ⟨-, hrest⟩ := List.forall_mem_cons.mp hts
    exact ih (List.forall_mem_append.mp hrest).1
  | unary hoperator hoperand ih =>
    obtain ⟨hspelled, hrest⟩ := List.forall_mem_cons.mp hts
    simp [Expr.isCanonical, hoperator, hspelled, hoperand.le_strength, ih hrest]
  | join hlevel hleft hright ihl ihr =>
    obtain ⟨hls, hrest⟩ := List.forall_mem_append.mp hts
    obtain ⟨hspelled, hrs⟩ := List.forall_mem_cons.mp hrest
    simp [isCanonical_infixNode, hspelled, hlevel, hleft.le_strength,
      Nat.lt_of_succ_le hright.le_strength, ihl hls, ihr hrs]
  | tighter _ ih => exact ih hts

private theorem Token.isName_of_kind {t : Token} (hkind : t.kind = .identifier)
    (ht : t.isWellSpelled = true) : t.isName = true := by
  simp [isName, hkind, ht]

/-- What is read from well spelled tokens is canonical, by induction over the grammar. -/
theorem Assignment.Derives.isCanonical {ts : List Token} {a : Assignment}
    (h : Assignment.Derives ts a) (hts : ∀ t ∈ ts, t.isWellSpelled = true) :
    a.isCanonical = true := by
  obtain ⟨hname, -, hvalue⟩ := h
  simp only [List.forall_mem_cons] at hts
  simp [Assignment.isCanonical, Token.isName_of_kind hname hts.1, hvalue.isCanonical hts.2.2]

private theorem NamesDerive.isName {ts names : List Token} (h : NamesDerive ts names)
    (hts : ∀ t ∈ ts, t.isWellSpelled = true) : ∀ t ∈ names, t.isName = true := by
  induction h with
  | last hname => simpa [Token.isName, hname] using hts
  | more hname _ _ ih =>
    simp only [List.forall_mem_cons] at hts
    exact List.forall_mem_cons.mpr ⟨Token.isName_of_kind hname hts.1, ih hts.2.2⟩

private theorem NamesDerive.ne_nil {ts names : List Token} (h : NamesDerive ts names) :
    names ≠ [] := by
  cases h <;> simp

theorem VarDecl.Derives.isCanonical {typeName : Token} {ts : List Token} {d : VarDecl}
    (h : VarDecl.Derives typeName ts d) (htype : typeName.kind.isTypeKeyword = true)
    (hspelled : typeName.isWellSpelled = true) (hts : ∀ t ∈ ts, t.isWellSpelled = true) :
    d.isCanonical = true := by
  cases h with
  | plain hname =>
    have hts := List.forall_mem_singleton.mp hts
    simp [VarDecl.isCanonical, htype, hspelled, Token.isName_of_kind hname hts]
  | withValue hname _ hvalue =>
    simp only [List.forall_mem_cons] at hts
    simp [VarDecl.isCanonical, htype, hspelled, Token.isName_of_kind hname hts.1,
      hvalue.isCanonical hts.2.2]

theorem EntriesDerive.isCanonical {typeName : Token} {ts : List Token} {ds : List VarDecl}
    (h : EntriesDerive typeName ts ds) (htype : typeName.kind.isTypeKeyword = true)
    (hspelled : typeName.isWellSpelled = true) (hts : ∀ t ∈ ts, t.isWellSpelled = true) :
    ∀ d ∈ ds, d.isCanonical = true := by
  induction h with
  | last hd => exact List.forall_mem_singleton.mpr (hd.isCanonical htype hspelled hts)
  | more hd _ _ ih =>
    simp only [List.forall_mem_cons, List.forall_mem_append] at hts
    exact List.forall_mem_cons.mpr ⟨hd.isCanonical htype hspelled hts.1, ih hts.2.2⟩

theorem DeclarationsDerive.isCanonical {ts : List Token} {ds : List VarDecl}
    (h : DeclarationsDerive ts ds) (hts : ∀ t ∈ ts, t.isWellSpelled = true) :
    ∀ d ∈ ds, d.isCanonical = true := by
  induction h with
  | nil => simp
  | cons htype hentries _ _ ih =>
    simp only [List.forall_mem_cons, List.forall_mem_append] at hts
    obtain ⟨hspelled, hus, -, hrest⟩ := hts
    exact List.forall_mem_append.mpr ⟨hentries.isCanonical htype hspelled hus, ih hrest⟩

private theorem BlockFrame.forall_mem_inner {k : Kind} {inner ts : List Token} {q : Token → Prop}
    (h : BlockFrame k inner ts) (hts : ∀ t ∈ ts, q t) : ∀ t ∈ inner, q t := by
  cases h
  simp only [List.forall_mem_cons, List.forall_mem_append] at hts
  exact hts.2.2.1

mutual

/-- A statement that is read from well spelled tokens can be written. -/
theorem Stmt.Derives.isCanonical {ts : List Token} {s : Stmt} (h : Stmt.Derives ts s)
    (hts : ∀ t ∈ ts, t.isWellSpelled = true) : s.isCanonical = true := by
  cases h with
  | assignment ha _ => exact ha.isCanonical (List.forall_mem_append.mp hts).1
  | print _ _ he _ =>
    simp only [List.forall_mem_cons, List.forall_mem_append] at hts
    simp [Stmt.isCanonical, he.isCanonical hts.2.2.1]
  | scan _ _ hnames _ =>
    simp only [List.forall_mem_cons, List.forall_mem_append] at hts
    have hall := List.all_eq_true.mpr (hnames.isName hts.2.2.1)
    simp [Stmt.isCanonical, hnames.ne_nil, hall]
  | ifElse _ hcond hbody hframe halternatives =>
    simp only [List.forall_mem_cons, List.forall_mem_append] at hts
    obtain ⟨-, ⟨hcs, hbs⟩, has⟩ := hts
    simp [Stmt.isCanonical, hcond.isCanonical hcs,
      StmtsDerive.areCanonical hbody (hframe.forall_mem_inner hbs),
      ElseChain.Derives.isCanonical halternatives has]
  | repeatWhen _ _ hcond hbody hframe =>
    simp only [List.forall_mem_cons, List.forall_mem_append] at hts
    obtain ⟨-, -, hcs, hbs⟩ := hts
    simp [Stmt.isCanonical, hcond.isCanonical hcs,
      StmtsDerive.areCanonical hbody (hframe.forall_mem_inner hbs)]
  | forLoop _ _ hinit _ hcond _ hupdate _ hbody hframe =>
    simp only [List.forall_mem_cons, List.forall_mem_append] at hts
    obtain ⟨-, -, his, -, hcs, -, hus, -, hbs⟩ := hts
    simp [Stmt.isCanonical, hinit.isCanonical his, hcond.isCanonical hcs, hupdate.isCanonical hus,
      StmtsDerive.areCanonical hbody (hframe.forall_mem_inner hbs)]

private theorem StmtsDerive.areCanonical {ts : List Token} {ss : List Stmt} (h : StmtsDerive ts ss)
    (hts : ∀ t ∈ ts, t.isWellSpelled = true) : areCanonical ss = true := by
  cases h with
  | nil => rfl
  | cons hs hss =>
    obtain ⟨hfirst, hrest⟩ := List.forall_mem_append.mp hts
    simp [ScriptTree.areCanonical, Stmt.Derives.isCanonical hs hfirst,
      StmtsDerive.areCanonical hss hrest]

theorem ElseChain.Derives.isCanonical {ts : List Token} {c : ElseChain}
    (h : ElseChain.Derives ts c) (hts : ∀ t ∈ ts, t.isWellSpelled = true) :
    c.isCanonical = true := by
  cases h with
  | done => rfl
  | otherwise _ hbody hframe =>
    have hbs := (List.forall_mem_cons.mp hts).2
    exact StmtsDerive.areCanonical hbody (hframe.forall_mem_inner hbs)
  | elseIf _ _ hcond hbody hframe hrest =>
    simp only [List.forall_mem_cons, List.forall_mem_append] at hts
    obtain ⟨-, -, ⟨hcs, hbs⟩, has⟩ := hts
    simp [ElseChain.isCanonical, hcond.isCanonical hcs,
      StmtsDerive.areCanonical hbody (hframe.forall_mem_inner hbs),
      ElseChain.Derives.isCanonical hrest has]

end

/-- Well spelled programs have canonical trees. -/
theorem Program.Derives.isCanonical {ts : List Token} {p : Program} (h : Program.Derives ts p)
    (hts : ∀ t ∈ ts, t.isWellSpelled = true) : p.isCanonical = true := by
  obtain ⟨-, -, hdecls, hstmts, hframe⟩ := h
  simp only [List.forall_mem_cons] at hts
  obtain ⟨hds, hinner⟩ := List.forall_mem_append.mp (hframe.forall_mem_inner hts.2.2)
  have hall := List.all_eq_true.mpr (hdecls.isCanonical hds)
  simp [Program.isCanonical, hall, hstmts.areCanonical hinner]

/-! ### Writing and reading -/

/-- Scanning a written program gives the tokens that its words stand for. -/
theorem scan_source {p : Program} (h : p.isCanonical = true) :
    scan p.source = ⟨ofWords p.words ++ [Token.endMark 1], []⟩ := by
  have hspelled : ∀ t ∈ ofWords p.words, t.isWellSpelled = true := by
    -- A word that is written for no kind would stand for an end mark.
    intro t ht
    have hne := (Program.derives_words h).kind_ne_eof t ht
    obtain ⟨w, -, rfl⟩ := List.mem_map.mp ht
    exact Token.isWellSpelled_ofWord hne
  have hlexemes : (ofWords p.words).map Token.lexeme = p.words := by
    simp [ofWords, Function.comp_def]
  have hlines : (ofWords p.words).map (fun t => { t with line := 1 }) = ofWords p.words := by
    simp only [ofWords, List.map_map]
    rfl
  have hscan := scan_intercalate hspelled
  rwa [hlexemes, hlines] at hscan

/-- A written program is read as the same program, all of it on the first line. -/
theorem parse_source {p : Program} (h : p.isCanonical = true) :
    parse p.source = .ok (p.relabel .firstLine) := by
  have hder := Program.derives_words h
  have hahead : (Input.ofTokens (scan p.source).tokens).ahead = ofWords p.words := by
    have hkinds : ∀ t ∈ ofWords p.words, (t.kind != .eof) = true := by simpa using hder.kind_ne_eof
    rw [Input.ahead_ofTokens, scan_source h, List.takeWhile_append_of_pos hkinds]
    simp
  refine (Input.result_parse_eq_ok_iff fun _ => Input.kind_ne_eof_of_mem_ahead).mpr ?_
  rwa [hahead]

/-- Parsing a source gives canonical programs only. -/
theorem isCanonical_of_parse {source : String} {p : Program} (h : parse source = .ok p) :
    p.isCanonical = true := by
  have hder := (Input.result_parse_eq_ok_iff fun _ => Input.kind_ne_eof_of_mem_ahead).mp h
  refine hder.isCanonical fun t ht => ?_
  have hne := Input.kind_ne_eof_of_mem_ahead ht
  rw [Input.ahead_ofTokens] at ht
  rcases Scanner.isWellSpelled_of_mem_tokenize ((List.takeWhile_prefix _).subset ht) with
    hspelled | rfl
  · exact hspelled
  · exact absurd rfl hne

/-- **Writing and reading.** A canonical program that is written as a source is scanned without
dropped characters and read as the same program up to lines, and whatever is read from any source is
canonical. -/
theorem parse_source_and_isCanonical :
    (∀ p : Program, p.isCanonical = true → (scan p.source).errors = [] ∧
      ∃ q, parse p.source = .ok q ∧ q.eraseLines = p.eraseLines) ∧
    (∀ (source : String) (p : Program), parse source = .ok p → p.isCanonical = true) := by
  refine ⟨fun p h => ⟨by rw [scan_source h], p.relabel .firstLine, parse_source h, ?_⟩,
    fun source p => isCanonical_of_parse⟩
  exact p.relabel_relabel .firstLine .forgetLines

/-- One such program prints a sum and a line break. -/
theorem parse_source_print :
    ∃ p : Program, p.isCanonical = true ∧
      p.source = "SCRIPT AREA START SCRIPT PRINT : x + 1 & $ $ END SCRIPT" ∧
      ∃ q, parse p.source = .ok q ∧ q.eraseLines = p.eraseLines := by
  let sum : Expr := .binary (.identifier ⟨.identifier, "x", 1⟩) ⟨.plus, "+", 1⟩
    (.literal ⟨.intLiteral, "1", 1⟩)
  let p : Program := ⟨[], [.print [.binary sum ⟨.ampersand, "&", 1⟩ (.newline 1)]]⟩
  have hcanonical : p.isCanonical = true := by decide
  exact ⟨p, hcanonical, by decide, (parse_source_and_isCanonical.1 p hcanonical).2⟩

end ScriptTree
