import ScriptTree.Grammar.Expr
import ScriptTree.Tree.Program

/-!
# The grammar of programs

    program     ::= "SCRIPT" "AREA" "START" "SCRIPT" declaration* statement* "END" "SCRIPT"
    declaration ::= type entry ("," entry)* "$"
    type        ::= "INT" | "FLOAT" | "CHAR" | "BOOL"
    entry       ::= name ("=" expression)?
    statement   ::= assignment "$" | "PRINT" ":" expression "$" | "SCAN" ":" name ("," name)* "$"
                  | "IF" expression block(IF) alternatives
                  | "REPEAT" "WHEN" expression block(REPEAT)
                  | "FOR" "(" assignment "," expression "," assignment ")" block(FOR)
    alternatives ::= ("ELSE" "IF" expression block(IF))* ("ELSE" block(IF))?
    assignment  ::= name "=" expression
    block(k)    ::= "START" k statement* "END" k

Each rule is a relation between tokens and the tree that they are written for. `Program.Derives` is
the rule of a whole program.
-/

namespace ScriptTree

/-- The tokens are an assignment, without its `$`. -/
inductive Assignment.Derives : List Token → Assignment → Prop where
  | intro {name sign : Token} {ts : List Token} {value : Expr} :
    name.kind = .identifier → sign.kind = .equal → Expr.Derives 0 ts value →
      Derives (name :: sign :: ts) ⟨name, value⟩

/-! ### Lists of names and entries -/

/-- The tokens are names between commas, at least one. -/
inductive NamesDerive : List Token → List Token → Prop where
  | last {name : Token} : name.kind = .identifier → NamesDerive [name] [name]
  | more {name comma : Token} {ts names : List Token} :
    name.kind = .identifier → comma.kind = .comma → NamesDerive ts names →
      NamesDerive (name :: comma :: ts) (name :: names)

/-- The tokens are one variable of a declaration. -/
inductive VarDecl.Derives (typeName : Token) : List Token → VarDecl → Prop where
  | plain {name : Token} : name.kind = .identifier → Derives typeName [name] ⟨typeName, name, none⟩
  | withValue {name sign : Token} {ts : List Token} {value : Expr} :
    name.kind = .identifier → sign.kind = .equal → Expr.Derives 0 ts value →
      Derives typeName (name :: sign :: ts) ⟨typeName, name, some value⟩

/-- The tokens are variables between commas, at least one. -/
inductive EntriesDerive (typeName : Token) : List Token → List VarDecl → Prop where
  | last {ts : List Token} {d : VarDecl} :
    VarDecl.Derives typeName ts d → EntriesDerive typeName ts [d]
  | more {ts rest : List Token} {comma : Token} {d : VarDecl} {ds : List VarDecl} :
    VarDecl.Derives typeName ts d → comma.kind = .comma → EntriesDerive typeName rest ds →
      EntriesDerive typeName (ts ++ comma :: rest) (d :: ds)

/-- The tokens are declarations; the variables of all of them are listed in order. -/
inductive DeclarationsDerive : List Token → List VarDecl → Prop where
  | nil : DeclarationsDerive [] []
  | cons {typeName dollar : Token} {ts rest : List Token} {ds more : List VarDecl} :
    typeName.kind.isTypeKeyword = true → EntriesDerive typeName ts ds → dollar.kind = .dollar →
      DeclarationsDerive rest more →
      DeclarationsDerive (typeName :: (ts ++ dollar :: rest)) (ds ++ more)

/-! ### Statements -/

/-- The tokens are `inner` between the start and the end of a block of kind `k`. -/
inductive BlockFrame (k : Kind) (inner : List Token) : List Token → Prop where
  | intro {start opening ending closing : Token} :
    start.kind = .kwStart → opening.kind = k → ending.kind = .kwEnd → closing.kind = k →
      BlockFrame k inner (start :: opening :: (inner ++ [ending, closing]))

mutual

/-- The tokens are a statement. -/
inductive Stmt.Derives : List Token → Stmt → Prop where
  | assignment {ts : List Token} {dollar : Token} {a : Assignment} :
    Assignment.Derives ts a → dollar.kind = .dollar → Stmt.Derives (ts ++ [dollar]) (.assignment a)
  | print {head colon dollar : Token} {ts : List Token} {e : Expr} :
    head.kind = .kwPrint → colon.kind = .colon → Expr.Derives 0 ts e → dollar.kind = .dollar →
      Stmt.Derives (head :: colon :: (ts ++ [dollar])) (.print [e])
  | scan {head colon dollar : Token} {ts names : List Token} :
    head.kind = .kwScan → colon.kind = .colon → NamesDerive ts names → dollar.kind = .dollar →
      Stmt.Derives (head :: colon :: (ts ++ [dollar])) (.scan names)
  | ifElse {head : Token} {cs inner bs as : List Token} {cond : Expr} {body : Block}
      {alternatives : ElseChain} :
    head.kind = .kwIf → Expr.Derives 0 cs cond → StmtsDerive inner body →
      BlockFrame .kwIf inner bs → ElseChain.Derives as alternatives →
      Stmt.Derives (head :: (cs ++ bs ++ as)) (.ifElse cond body alternatives)
  | repeatWhen {head word : Token} {cs inner bs : List Token} {cond : Expr} {body : Block} :
    head.kind = .kwRepeat → word.kind = .kwWhen → Expr.Derives 0 cs cond → StmtsDerive inner body →
      BlockFrame .kwRepeat inner bs →
      Stmt.Derives (head :: word :: (cs ++ bs)) (.repeatWhen cond body)
  | forLoop {head opener comma comma' closer : Token} {is cs us inner bs : List Token}
      {init update : Assignment} {cond : Expr} {body : Block} :
    head.kind = .kwFor → opener.kind = .leftParen → Assignment.Derives is init →
      comma.kind = .comma → Expr.Derives 0 cs cond → comma'.kind = .comma →
      Assignment.Derives us update → closer.kind = .rightParen → StmtsDerive inner body →
      BlockFrame .kwFor inner bs →
      Stmt.Derives (head :: opener :: (is ++ comma :: (cs ++ comma' :: (us ++ closer :: bs))))
        (.forLoop init cond update body)

/-- The tokens are statements, one after another. -/
inductive StmtsDerive : List Token → List Stmt → Prop where
  | nil : StmtsDerive [] []
  | cons {ts rest : List Token} {s : Stmt} {ss : List Stmt} :
    Stmt.Derives ts s → StmtsDerive rest ss → StmtsDerive (ts ++ rest) (s :: ss)

/-- The tokens are the alternatives of a conditional. -/
inductive ElseChain.Derives : List Token → ElseChain → Prop where
  | done : ElseChain.Derives [] .done
  | otherwise {head : Token} {inner bs : List Token} {body : Block} :
    head.kind = .kwElse → StmtsDerive inner body → BlockFrame .kwIf inner bs →
      ElseChain.Derives (head :: bs) (.otherwise body)
  | elseIf {head word : Token} {cs inner bs as : List Token} {cond : Expr} {body : Block}
      {rest : ElseChain} :
    head.kind = .kwElse → word.kind = .kwIf → Expr.Derives 0 cs cond → StmtsDerive inner body →
      BlockFrame .kwIf inner bs → ElseChain.Derives as rest →
      ElseChain.Derives (head :: word :: (cs ++ bs ++ as)) (.elseIf cond body rest)

end

/-! ### Programs -/

/-- The tokens are a program. -/
inductive Program.Derives : List Token → Program → Prop where
  | intro {word area : Token} {ds inner bs : List Token} {decls : List VarDecl}
      {stmts : List Stmt} :
    word.kind = .kwScript → area.kind = .kwArea → DeclarationsDerive ds decls →
      StmtsDerive inner stmts → BlockFrame .kwScript (ds ++ inner) bs →
      Derives (word :: area :: bs) ⟨decls, stmts⟩

/-! ### End marks

No rule takes an end mark, so no phrase has one in it. -/

private theorem Assignment.Derives.kind_ne_eof {ts : List Token} {a : Assignment}
    (h : Assignment.Derives ts a) : ∀ t ∈ ts, t.kind ≠ .eof := by
  obtain ⟨hname, hsign, hvalue⟩ := h
  simpa [hname, hsign] using hvalue.kind_ne_eof

private theorem NamesDerive.kind_ne_eof {ts names : List Token} (h : NamesDerive ts names) :
    ∀ t ∈ ts, t.kind ≠ .eof := by
  induction h with
  | last hname => simp [hname]
  | more hname hcomma _ ih => simpa [hname, hcomma] using ih

private theorem VarDecl.Derives.kind_ne_eof {ts : List Token} {typeName : Token} {d : VarDecl}
    (h : VarDecl.Derives typeName ts d) : ∀ t ∈ ts, t.kind ≠ .eof := by
  cases h with
  | plain hname => simp [hname]
  | withValue hname hsign hvalue => simpa [hname, hsign] using hvalue.kind_ne_eof

private theorem EntriesDerive.kind_ne_eof {ts : List Token} {typeName : Token} {ds : List VarDecl}
    (h : EntriesDerive typeName ts ds) : ∀ t ∈ ts, t.kind ≠ .eof := by
  induction h with
  | last hd => exact hd.kind_ne_eof
  | more hd hcomma _ ih =>
    simpa [or_imp, forall_and, hcomma] using And.intro hd.kind_ne_eof ih

private theorem DeclarationsDerive.kind_ne_eof {ts : List Token} {ds : List VarDecl}
    (h : DeclarationsDerive ts ds) : ∀ t ∈ ts, t.kind ≠ .eof := by
  induction h with
  | nil => simp
  | @cons typeName dollar us rest ds more htype hentries hdollar _ ih =>
    have hne := Kind.ne_eof_of_isTypeKeyword htype
    simpa [or_imp, forall_and, hdollar, hne] using And.intro hentries.kind_ne_eof ih

private theorem BlockFrame.kind_ne_eof {k : Kind} {inner ts : List Token}
    (h : BlockFrame k inner ts) (hk : k ≠ .eof) (hinner : ∀ t ∈ inner, t.kind ≠ .eof) :
    ∀ t ∈ ts, t.kind ≠ .eof := by
  obtain ⟨hstart, hopening, hending, hclosing⟩ := h
  simpa [or_imp, forall_and, hstart, hopening, hending, hclosing, hk] using hinner

mutual

theorem Stmt.Derives.kind_ne_eof {ts : List Token} {s : Stmt} (h : Stmt.Derives ts s) :
    ∀ t ∈ ts, t.kind ≠ .eof := by
  cases h with
  | assignment ha hdollar => simpa [or_imp, forall_and, hdollar] using ha.kind_ne_eof
  | print hhead hcolon he hdollar =>
    simpa [or_imp, forall_and, hhead, hcolon, hdollar] using he.kind_ne_eof
  | scan hhead hcolon hnames hdollar =>
    simpa [or_imp, forall_and, hhead, hcolon, hdollar] using hnames.kind_ne_eof
  | ifElse hhead hcond hbody hframe halternatives =>
    have hblock := hframe.kind_ne_eof (by decide) (StmtsDerive.kind_ne_eof hbody)
    have hrest := ElseChain.Derives.kind_ne_eof halternatives
    simpa [or_imp, forall_and, hhead] using And.intro hcond.kind_ne_eof ⟨hblock, hrest⟩
  | repeatWhen hhead hword hcond hbody hframe =>
    have hblock := hframe.kind_ne_eof (by decide) (StmtsDerive.kind_ne_eof hbody)
    simpa [or_imp, forall_and, hhead, hword] using And.intro hcond.kind_ne_eof hblock
  | forLoop hhead hopener hinit hcomma hcond hcomma' hupdate hcloser hbody hframe =>
    have hblock := hframe.kind_ne_eof (by decide) (StmtsDerive.kind_ne_eof hbody)
    have hupdates := And.intro hupdate.kind_ne_eof hblock
    simpa [or_imp, forall_and, hhead, hopener, hcomma, hcomma', hcloser]
      using And.intro hinit.kind_ne_eof (And.intro hcond.kind_ne_eof hupdates)

private theorem StmtsDerive.kind_ne_eof {ts : List Token} {ss : List Stmt} (h : StmtsDerive ts ss) :
    ∀ t ∈ ts, t.kind ≠ .eof := by
  cases h with
  | nil => simp
  | cons hs hss =>
    have hrest := StmtsDerive.kind_ne_eof hss
    exact List.forall_mem_append.mpr ⟨Stmt.Derives.kind_ne_eof hs, hrest⟩

theorem ElseChain.Derives.kind_ne_eof {ts : List Token} {c : ElseChain}
    (h : ElseChain.Derives ts c) : ∀ t ∈ ts, t.kind ≠ .eof := by
  cases h with
  | done => simp
  | otherwise hhead hbody hframe =>
    simpa [hhead] using hframe.kind_ne_eof (by decide) (StmtsDerive.kind_ne_eof hbody)
  | elseIf hhead hword hcond hbody hframe hrest =>
    have hblock := hframe.kind_ne_eof (by decide) (StmtsDerive.kind_ne_eof hbody)
    simpa [or_imp, forall_and, hhead, hword]
      using And.intro hcond.kind_ne_eof (And.intro hblock (ElseChain.Derives.kind_ne_eof hrest))

end

/-- No token of a program is an end mark. -/
theorem Program.Derives.kind_ne_eof {ts : List Token} {p : Program} (h : Program.Derives ts p) :
    ∀ t ∈ ts, t.kind ≠ .eof := by
  obtain ⟨hword, harea, hdecls, hstmts, hframe⟩ := h
  have hinner := List.forall_mem_append.mpr ⟨hdecls.kind_ne_eof, hstmts.kind_ne_eof⟩
  simpa [hword, harea] using hframe.kind_ne_eof (by decide) hinner

end ScriptTree
