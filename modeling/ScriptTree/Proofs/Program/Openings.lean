import Mathlib.Data.List.Forall2
import ScriptTree.Census
import ScriptTree.Proofs.Program.Blocks

/-!
# Where compound statements begin

An `IF`, a `REPEAT` or a `FOR` begins a compound statement unless it belongs to the word before it:
to an `ELSE`, with which it goes on with a conditional, or to a `START` or an `END`, where it names
a block. So the tokens alone tell where compound statements begin (`openings`), and in what the
grammar derives they are the compound statements of the tree in pre-order
(`Program.Derives.covers`).

`Covers R taken ts as` says that the openings in `ts` are related by `R` to the entries of `as`, one
by one, whatever comes after `ts`. Its rules follow the ways in which the grammar puts tokens
together, and are the same for every `R`.
-/

namespace ScriptTree

/-! ### Openings -/

/-- The words that begin compound statements. -/
def Kind.isOpener : Kind → Bool
  | kwIf | kwRepeat | kwFor => true
  | _ => false

/-- The words to which a word after them belongs. -/
def Kind.takesWord : Kind → Bool
  | kwElse | kwStart | kwEnd => true
  | _ => false

/-- The tokens that begin compound statements, in order, each with the tokens after it. `taken` says
whether the first token belongs to a word before it. -/
def openings : Bool → List Token → List (Token × List Token)
  | _, [] => []
  | taken, t :: ts =>
    if t.kind.isOpener && !taken then (t, ts) :: openings false ts
    -- Whether the next token is taken depends on this one only, taken or not.
    else openings t.kind.takesWord ts

variable {taken : Bool} {ts us : List Token} {t : Token} {k : Kind}

private theorem openings_head (h : t.kind.isOpener = true) :
    openings false (t :: ts) = (t, ts) :: openings false ts := by
  simp [openings, h]

private theorem openings_cons (h : (t.kind.isOpener && !taken) = false) :
    openings taken (t :: ts) = openings t.kind.takesWord ts := by
  simp [openings, h]

/-- The word of a block takes no other word. -/
theorem takesWord_of_isBlock (h : k.isBlock = true) : k.takesWord = false := by
  revert h
  cases k <;> decide

/-! ### Compound statements -/

/-- The word that a compound statement begins with. -/
def Stmt.word? : Stmt → Option Kind
  | ifElse .. => some .kwIf
  | repeatWhen .. => some .kwRepeat
  | forLoop .. => some .kwFor
  | _ => none

/-- The compound statements among nodes. -/
def compoundsIn (ns : List Node) : List Stmt :=
  ns.filterMap fun
    | .stmt s => if s.word?.isSome then some s else none
    | _ => none

@[simp] theorem compoundsIn_nil : compoundsIn [] = [] := rfl

@[simp] theorem compoundsIn_append (ns ms : List Node) :
    compoundsIn (ns ++ ms) = compoundsIn ns ++ compoundsIn ms :=
  List.filterMap_append

@[simp] theorem compoundsIn_program (p : Program) (ns : List Node) :
    compoundsIn (.program p :: ns) = compoundsIn ns := rfl

@[simp] theorem compoundsIn_varDecl (d : VarDecl) (ns : List Node) :
    compoundsIn (.varDecl d :: ns) = compoundsIn ns := rfl

@[simp] theorem compoundsIn_block (b : Block) (ns : List Node) :
    compoundsIn (.block b :: ns) = compoundsIn ns := rfl

@[simp] theorem compoundsIn_expr (e : Expr) (ns : List Node) :
    compoundsIn (.expr e :: ns) = compoundsIn ns := rfl

private theorem compoundsIn_stmt (s : Stmt) (ns : List Node) :
    compoundsIn (.stmt s :: ns)
      = (if s.word?.isSome then [s] else []) ++ compoundsIn ns := by
  cases s <;> rfl

@[simp] theorem compoundsIn_expr_preorder (e : Expr) : compoundsIn e.preorder = [] := by
  induction e with
  | binary left operator right ihl ihr | logical left operator right ihl ihr =>
    simp [Expr.preorder, ihl, ihr]
  | unary operator operand ih => simp [Expr.preorder, ih]
  | grouping inner ih => simp [Expr.preorder, ih]
  | literal | identifier | newline => rfl

@[simp] theorem compoundsIn_assignment_preorder (a : Assignment) :
    compoundsIn a.preorder = [] := by
  simp [Assignment.preorder, compoundsIn_stmt, Stmt.word?]

@[simp] theorem compoundsIn_decls_preorder (ds : List VarDecl) :
    compoundsIn (ds.flatMap VarDecl.preorder) = [] := by
  induction ds with
  | nil => rfl
  | cons d ds ih => cases h : d.init <;> simp [VarDecl.preorder, h, ih]

/-- The compound statements are the nodes of three kinds. -/
theorem length_compoundsIn (ns : List Node) :
    (compoundsIn ns).length = (ns.map Node.kind).count .ifElse
      + (ns.map Node.kind).count .repeatWhen + (ns.map Node.kind).count .forLoop := by
  induction ns with
  | nil => rfl
  | cons n ns ih =>
    cases n with
    | program | varDecl | block => simp [ih, Node.kind]
    | expr e => cases e <;> simp [ih, Node.kind, Expr.nodeKind]
    | stmt s =>
      cases s <;> simp [ih, compoundsIn_stmt, Stmt.word?, Node.kind, Stmt.nodeKind] <;> omega

/-- The statement begins at the opening: the token is its word, and the statement is derived from
the token and tokens after it. -/
structure Stmt.BeginsAt (s : Stmt) (o : Token × List Token) : Prop where
  word : s.word? = some o.1.kind
  derives : ∃ rest, rest <+: o.2 ∧ Stmt.Derives (o.1 :: rest) s

/-! ### Tokens and their openings -/

section Covers

variable {α : Type} {R : α → Token × List Token → Prop} {a : α} {as bs : List α}

/-- The openings in the tokens are related to the entries of the list, one by one, whatever comes
after the tokens, and the last token does not take the word after it. -/
def Covers (R : α → Token × List Token → Prop) (taken : Bool) (ts : List Token) (as : List α) :
    Prop :=
  ∀ us, ∃ os, openings taken (ts ++ us) = os ++ openings false us ∧ List.Forall₂ R as os

namespace Covers

/-- The openings in the tokens when nothing comes after them. -/
theorem forall₂ (h : Covers R taken ts as) : List.Forall₂ R as (openings taken ts) := by
  obtain ⟨os, hos, has⟩ := h []
  rw [List.append_nil, openings, List.append_nil] at hos
  rwa [hos]

theorem nil : Covers R false [] [] :=
  fun _ => ⟨[], rfl, .nil⟩

theorem append (h : Covers R taken ts as) (h' : Covers R false us bs) :
    Covers R taken (ts ++ us) (as ++ bs) := by
  intro vs
  obtain ⟨os, hos, has⟩ := h (us ++ vs)
  obtain ⟨os', hos', hbs⟩ := h' vs
  exact ⟨os ++ os', by rw [List.append_assoc, hos, hos', List.append_assoc],
    List.rel_append has hbs⟩

/-- A token that begins no statement. -/
theorem cons (ht : t.kind = k) (hk : (k.isOpener && !taken) = false)
    (h : Covers R k.takesWord ts as) : Covers R taken (t :: ts) as := by
  subst ht
  intro us
  rw [List.cons_append, openings_cons hk]
  exact h us

/-- A word that begins a statement. -/
theorem head (ht : t.kind.isOpener = true) (ha : ∀ us, R a (t, ts ++ us))
    (h : Covers R false ts as) : Covers R false (t :: ts) (a :: as) := by
  intro us
  obtain ⟨os, hos, has⟩ := h us
  rw [List.cons_append, openings_head ht, hos]
  exact ⟨_, rfl, .cons (ha us) has⟩

/-- Tokens among which no word of the structure stands. -/
theorem of_forall (h : ∀ t ∈ ts, t.kind.isStructural = false) : Covers R false ts [] := by
  induction ts with
  | nil => exact nil
  | cons t ts ih =>
    obtain ⟨ht, hts⟩ := List.forall_mem_cons.mp h
    have hplain : t.kind.takesWord = false ∧ t.kind.isOpener = false := by
      revert ht
      generalize t.kind = k
      cases k <;> decide
    exact cons rfl (by rw [hplain.2, Bool.false_and]) (hplain.1 ▸ ih hts)

/-- A whole block, also behind an `ELSE`. -/
theorem frame (hk : k.isBlock = true) (hts : Covers R false ts as) (h : BlockFrame k ts us) :
    Covers R taken us as := by
  obtain ⟨hstart, hopening, hending, hclosing⟩ := h
  have word {t : Token} {vs : List Token} {bs : List α} (ht : t.kind = k)
      (hvs : Covers R false vs bs) : Covers R true (t :: vs) bs :=
    cons ht (Bool.and_false _) (takesWord_of_isBlock hk ▸ hvs)
  have hbody := hts.append (cons hending rfl (word hclosing nil))
  rw [List.append_nil] at hbody
  exact cons hstart rfl (word hopening hbody)

end Covers

end Covers

/-! ### Statements and their openings -/

theorem DeclarationsDerive.covers {α : Type} {R : α → Token × List Token → Prop}
    {ds : List VarDecl} (h : DeclarationsDerive ts ds) : Covers R false ts [] := by
  induction h with
  | nil => exact .nil
  | cons htype hentries hdollar _ ih =>
    have hhead := Covers.of_forall (R := R)
      (List.forall_mem_cons.mpr ⟨isStructural_of_isTypeKeyword htype, hentries.isStructural⟩)
    simpa using hhead.append (.cons hdollar rfl ih)

/-- A compound statement begins at its word, and what stands inside comes after it. -/
theorem Covers.compound {s : Stmt} {ss : List Stmt} (hder : Stmt.Derives (t :: ts) s)
    (hword : s.word? = some t.kind) (hopener : t.kind.isOpener = true)
    (h : Covers Stmt.BeginsAt false ts ss) : Covers Stmt.BeginsAt false (t :: ts) (s :: ss) :=
  .head hopener (fun _ => ⟨hword, ts, List.prefix_append .., hder⟩) h

mutual

/-- The openings in a statement are its compound statements. -/
theorem Stmt.Derives.covers {ts : List Token} {s : Stmt} (h : Stmt.Derives ts s) :
    Covers Stmt.BeginsAt false ts (compoundsIn s.preorder) := by
  cases h with
  | assignment ha hdollar =>
    simpa [Stmt.preorder] using (Covers.of_forall ha.isStructural).append (.cons hdollar rfl .nil)
  | @print head colon dollar ts e hhead hcolon he hdollar =>
    have hvalue : Covers Stmt.BeginsAt false (ts ++ [dollar]) [] :=
      (Covers.of_forall he.isStructural).append (.cons hdollar rfl .nil)
    have hall : Covers Stmt.BeginsAt false (head :: colon :: (ts ++ [dollar])) [] :=
      .cons hhead rfl (.cons hcolon rfl hvalue)
    simpa [Stmt.preorder, compoundsIn_stmt, Stmt.word?] using hall
  | @scan head colon dollar ts names hhead hcolon hnames hdollar =>
    have hrest : Covers Stmt.BeginsAt false (ts ++ [dollar]) [] :=
      (Covers.of_forall hnames.isStructural).append (.cons hdollar rfl .nil)
    have hall : Covers Stmt.BeginsAt false (head :: colon :: (ts ++ [dollar])) [] :=
      .cons hhead rfl (.cons hcolon rfl hrest)
    simpa [Stmt.preorder, compoundsIn_stmt, Stmt.word?] using hall
  -- Behind the word of a compound statement, openings are in its blocks only, and these are listed
  -- in the order in which they stand there.
  | ifElse hhead hcond hbody hframe halternatives =>
    have hblock := (Covers.of_forall hcond.isStructural).append
      ((StmtsDerive.covers hbody).frame rfl hframe)
    have hrest := hblock.append (ElseChain.Derives.covers halternatives)
    have hder := Stmt.Derives.ifElse hhead hcond hbody hframe halternatives
    simpa [Stmt.preorder, compoundsIn_stmt, Stmt.word?]
      using hrest.compound hder (congrArg some hhead.symm) (hhead ▸ rfl)
  | @repeatWhen head word cs inner bs cond body hhead hword hcond hbody hframe =>
    have hblock := (Covers.of_forall hcond.isStructural).append
      ((StmtsDerive.covers hbody).frame rfl hframe)
    have hrest : Covers Stmt.BeginsAt false (word :: (cs ++ bs)) _ := .cons hword rfl hblock
    have hder := Stmt.Derives.repeatWhen hhead hword hcond hbody hframe
    simpa [Stmt.preorder, compoundsIn_stmt, Stmt.word?]
      using hrest.compound hder (congrArg some hhead.symm) (hhead ▸ rfl)
  | @forLoop head opener comma comma' closer is cs us inner bs init update cond body hhead hopener
      hinit hcomma hcond hcomma' hupdate hcloser hbody hframe =>
    have hblock : Covers Stmt.BeginsAt false bs (compoundsIn (preorderEach body)) :=
      (StmtsDerive.covers hbody).frame rfl hframe
    have hupdates := (Covers.of_forall hupdate.isStructural).append (.cons hcloser rfl hblock)
    have hconds := (Covers.of_forall hcond.isStructural).append (.cons hcomma' rfl hupdates)
    have hinits := (Covers.of_forall hinit.isStructural).append (.cons hcomma rfl hconds)
    have hrest : Covers Stmt.BeginsAt false
        (opener :: (is ++ comma :: (cs ++ comma' :: (us ++ closer :: bs)))) _ :=
      .cons hopener rfl hinits
    have hder := Stmt.Derives.forLoop hhead hopener hinit hcomma hcond hcomma' hupdate hcloser
      hbody hframe
    simpa [Stmt.preorder, compoundsIn_stmt, Stmt.word?]
      using hrest.compound hder (congrArg some hhead.symm) (hhead ▸ rfl)

theorem StmtsDerive.covers {ts : List Token} {ss : List Stmt} (h : StmtsDerive ts ss) :
    Covers Stmt.BeginsAt false ts (compoundsIn (preorderEach ss)) := by
  cases h with
  | nil => exact .nil
  | cons hs hss =>
    simpa [preorderEach] using (Stmt.Derives.covers hs).append (StmtsDerive.covers hss)

theorem ElseChain.Derives.covers {ts : List Token} {c : ElseChain} (h : ElseChain.Derives ts c) :
    Covers Stmt.BeginsAt false ts (compoundsIn c.preorder) := by
  cases h with
  | done => exact .nil
  -- The `ELSE` takes the word behind it, and a `START` could not begin a statement anyway.
  | otherwise hhead hbody hframe =>
    have hblock : Covers Stmt.BeginsAt true _ _ := (StmtsDerive.covers hbody).frame rfl hframe
    simpa [ElseChain.preorder] using Covers.cons hhead rfl hblock
  | elseIf hhead hword hcond hbody hframe hrest =>
    have hblock := (Covers.of_forall hcond.isStructural).append
      ((StmtsDerive.covers hbody).frame rfl hframe)
    have hphrase := hblock.append (ElseChain.Derives.covers hrest)
    simpa [ElseChain.preorder] using Covers.cons hhead rfl (.cons hword rfl hphrase)

end

/-- The openings in a program are its compound statements. -/
theorem Program.Derives.covers {ts : List Token} {p : Program} (h : Program.Derives ts p) :
    Covers Stmt.BeginsAt false ts (compoundsIn (Node.program p).preorder) := by
  obtain ⟨hword, harea, hdecls, hstmts, hframe⟩ := h
  have hblock : Covers Stmt.BeginsAt false _ _ :=
    (hdecls.covers.append hstmts.covers).frame rfl hframe
  simpa [Node.preorder] using Covers.cons hword rfl (.cons harea rfl hblock)

end ScriptTree
