import Mathlib
import ScriptTree.Census
import ScriptTree.Proofs.Program.Completeness

/-!
# Every token is accounted for

An `Account` gives a number to every kind of token and to every kind of node so that each rule of
the grammar is in balance: the tokens that the rule itself takes and the node that it makes have the
same number. Every phrase is then in balance as a whole, and so is a program but for the marks
around it (`Account.balance_program`). An account is thus an equation between the tokens of a
program and a census of its tree.

The names that a `SCAN` reads are no nodes. They count as much as identifiers.

`Accounted` puts the accounts of interest together: operators, literals, names, parentheses, block
marks and dollars of a program, each counted once in the tree and once among the tokens. The main
result is `accounted_of_parse`.
-/

namespace ScriptTree

/-- The names that are kept in a node itself. -/
def Node.names : Node → List Token
  | stmt (.scan names) => names
  | _ => []

/-- Numbers for tokens and nodes that balance in every rule of the grammar. -/
structure Account where
  /-- The number of a token. -/
  token : Kind → Int
  /-- The number of a node, without the names that it keeps. -/
  node : NodeKind → Int
  identifier : node .identifier = token .identifier := by decide
  literal : ∀ k : Kind, k.isLiteral = true → node .literal = token k := by
    intro k; cases k <;> decide
  newline : node .newline = token .dollar := by decide
  grouping : node .grouping = token .leftParen + token .rightParen := by decide
  unary : ∀ k : Kind, k.isPrefixOperator = true → node .unary = token k := by
    intro k; cases k <;> decide
  binary : ∀ k : Kind, k.level?.isSome = true → k.isLogical = false →
    node .binary = token k := by intro k; cases k <;> decide
  logical : ∀ k : Kind, k.isLogical = true → node .logical = token k := by
    intro k; cases k <;> decide
  varDecl : node .varDecl = token .identifier := by decide
  /-- The type and the `$` of a declaration balance each other, however many variables it has. -/
  declaration : ∀ k : Kind, k.isTypeKeyword = true → token k + token .dollar = 0 := by
    intro k; cases k <;> decide
  assignment : node .assignment = token .identifier + token .dollar := by decide
  print : node .print = token .dollar := by decide
  scan : node .scan = token .dollar := by decide
  ifElse : node .ifElse = 0 := by decide
  repeatWhen : node .repeatWhen = 0 := by decide
  /-- The two assignments of a header have no `$`. -/
  forLoop : node .forLoop + 2 * token .dollar = token .leftParen + token .rightParen := by decide
  block : node .block = token .kwStart + token .kwEnd := by decide
  /-- The frame of the whole program has no node of its own. -/
  program : node .program = 0 := by decide
  /-- The marks and words that only tell the constructs apart do not count. -/
  silent : ∀ k ∈ [Kind.comma, .colon, .equal, .kwScript, .kwArea, .kwIf, .kwElse, .kwRepeat,
    .kwWhen, .kwFor, .kwScan, .kwPrint], token k = 0 := by decide

namespace Account

variable (A : Account)

/-- The number of a node with the names that it keeps. -/
def ofNode (n : Node) : Int :=
  A.node n.kind + A.token .identifier * n.names.length

/-- The numbers of tokens, added up. -/
def ofTokens (ts : List Token) : Int :=
  (ts.map fun t => A.token t.kind).sum

/-- The numbers of nodes, added up. -/
def ofNodes (ns : List Node) : Int :=
  (ns.map A.ofNode).sum

@[simp] theorem ofTokens_nil : A.ofTokens [] = 0 := rfl

@[simp] theorem ofTokens_cons (t : Token) (ts : List Token) :
    A.ofTokens (t :: ts) = A.token t.kind + A.ofTokens ts := List.sum_cons

@[simp] theorem ofTokens_append (ts us : List Token) :
    A.ofTokens (ts ++ us) = A.ofTokens ts + A.ofTokens us := by
  simp [ofTokens]

@[simp] theorem ofNodes_nil : A.ofNodes [] = 0 := rfl

@[simp] theorem ofNodes_cons (n : Node) (ns : List Node) :
    A.ofNodes (n :: ns) = A.ofNode n + A.ofNodes ns := List.sum_cons

@[simp] theorem ofNodes_append (ns ms : List Node) :
    A.ofNodes (ns ++ ms) = A.ofNodes ns + A.ofNodes ms := by
  simp [ofNodes]

/-! ### Single nodes -/

section

variable {e left right : Expr} {t : Token} {body : Block}

/-- The leaf of an operand counts as much as the operand. -/
private theorem ofNode_leaf (h : t.kind.isOperand = true) :
    A.ofNode (.expr (.leaf t)) = A.token t.kind := by
  unfold Expr.leaf
  split
  · next hk => simp [ofNode, Node.kind, Expr.nodeKind, Node.names, A.identifier, hk]
  · next hk =>
    have hliteral := ((Kind.isOperand_iff _).mp h).resolve_right hk
    simp [ofNode, Node.kind, Expr.nodeKind, Node.names, A.literal _ hliteral]

/-- The node of an infix operator counts as much as the operator. -/
private theorem ofNode_infixNode {n : Nat} (h : t.kind.level? = some n) :
    A.ofNode (.expr (.infixNode left t right)) = A.token t.kind := by
  unfold Expr.infixNode
  split
  · next hlogical =>
    simp [ofNode, Node.kind, Expr.nodeKind, Node.names, A.logical _ hlogical]
  · next hlogical =>
    have hbinary := A.binary t.kind (by simp [h]) (by simpa using hlogical)
    simp [ofNode, Node.kind, Expr.nodeKind, Node.names, hbinary]

private theorem ofNode_unary (h : t.kind.isPrefixOperator = true) :
    A.ofNode (.expr (.unary t e)) = A.token t.kind := by
  simp [ofNode, Node.kind, Expr.nodeKind, Node.names, A.unary _ h]

@[simp] theorem ofNode_newline (n : Nat) : A.ofNode (.expr (.newline n)) = A.token .dollar := by
  simp [ofNode, Node.kind, Expr.nodeKind, Node.names, A.newline]

@[simp] theorem ofNode_grouping :
    A.ofNode (.expr (.grouping e)) = A.token .leftParen + A.token .rightParen := by
  simp [ofNode, Node.kind, Expr.nodeKind, Node.names, A.grouping]

@[simp] theorem ofNode_varDecl (d : VarDecl) : A.ofNode (.varDecl d) = A.token .identifier := by
  simp [ofNode, Node.kind, Node.names, A.varDecl]

@[simp] theorem ofNode_block : A.ofNode (.block body) = A.token .kwStart + A.token .kwEnd := by
  simp [ofNode, Node.kind, Node.names, A.block]

@[simp] theorem ofNode_program (p : Program) : A.ofNode (.program p) = 0 := by
  simp [ofNode, Node.kind, Node.names, A.program]

@[simp] theorem ofNode_assignment (a : Assignment) :
    A.ofNode (.stmt (.assignment a)) = A.token .identifier + A.token .dollar := by
  simp [ofNode, Node.kind, Stmt.nodeKind, Node.names, A.assignment]

@[simp] theorem ofNode_print (es : List Expr) :
    A.ofNode (.stmt (.print es)) = A.token .dollar := by
  simp [ofNode, Node.kind, Stmt.nodeKind, Node.names, A.print]

@[simp] theorem ofNode_scan (names : List Token) :
    A.ofNode (.stmt (.scan names)) = A.token .dollar + A.token .identifier * names.length := by
  simp [ofNode, Node.kind, Stmt.nodeKind, Node.names, A.scan]

@[simp] theorem ofNode_ifElse (alternatives : ElseChain) :
    A.ofNode (.stmt (.ifElse e body alternatives)) = 0 := by
  simp [ofNode, Node.kind, Stmt.nodeKind, Node.names, A.ifElse]

@[simp] theorem ofNode_repeatWhen : A.ofNode (.stmt (.repeatWhen e body)) = 0 := by
  simp [ofNode, Node.kind, Stmt.nodeKind, Node.names, A.repeatWhen]

private theorem ofNode_forLoop (init update : Assignment) :
    A.ofNode (.stmt (.forLoop init e update body)) + 2 * A.token .dollar
      = A.token .leftParen + A.token .rightParen := by
  simpa [ofNode, Node.kind, Stmt.nodeKind, Node.names] using A.forLoop

end

/-! ### Phrases balance -/

private theorem balance_expr {n : Nat} {ts : List Token} {e : Expr} (h : Expr.Derives n ts e) :
    A.ofTokens ts = A.ofNodes e.preorder := by
  induction h with
  | leaf hk =>
    rw [Expr.preorder_leaf, ofNodes_cons, A.ofNode_leaf hk]
    rfl
  | newline hk => simp [Expr.preorder, hk]
  | group hopener hcloser _ ih =>
    simp only [ofTokens_cons, ofTokens_append, ofTokens_nil, hopener, hcloser, ih, Expr.preorder,
      ofNodes_cons, ofNode_grouping]
    ring
  | unary hk _ ih => simp [Expr.preorder, A.ofNode_unary hk, ih]
  | join hn _ _ ihl ihr =>
    rw [Expr.preorder_infixNode, ofNodes_cons, ofNodes_append, A.ofNode_infixNode hn,
      ofTokens_append, ofTokens_cons, ihl, ihr]
    ring
  | tighter _ ih => exact ih

variable {ts : List Token}

/-- An assignment lacks only its `$`. -/
theorem balance_assignment {a : Assignment} (h : Assignment.Derives ts a) :
    A.ofTokens ts + A.token .dollar = A.ofNodes a.preorder := by
  obtain ⟨hname, hsign, hvalue⟩ := h
  simp only [ofTokens_cons, hname, hsign, A.silent .equal (by decide), A.balance_expr hvalue,
    Assignment.preorder, ofNodes_cons, ofNode_assignment]
  ring

private theorem balance_names {names : List Token} (h : NamesDerive ts names) :
    A.ofTokens ts = A.token .identifier * names.length := by
  have hsilent := A.silent .comma (by decide)
  induction h with
  | last hname => simp [hname]
  | more hname hcomma _ ih =>
    simp only [ofTokens_cons, hname, hcomma, hsilent, ih, List.length_cons]
    push_cast
    ring

private theorem balance_varDecl {typeName : Token} {d : VarDecl}
    (h : VarDecl.Derives typeName ts d) : A.ofTokens ts = A.ofNodes d.preorder := by
  cases h with
  | plain hname => simp [VarDecl.preorder, hname]
  | withValue hname hsign hvalue =>
    simp [VarDecl.preorder, hname, hsign, A.silent .equal (by decide), A.balance_expr hvalue]

private theorem balance_entries {typeName : Token} {ds : List VarDecl}
    (h : EntriesDerive typeName ts ds) :
    A.ofTokens ts = A.ofNodes (ds.flatMap VarDecl.preorder) := by
  have hsilent := A.silent .comma (by decide)
  induction h with
  | last hd => simp [A.balance_varDecl hd]
  | more hd hcomma _ ih => simp [A.balance_varDecl hd, hcomma, hsilent, ih]

private theorem balance_declarations {ds : List VarDecl} (h : DeclarationsDerive ts ds) :
    A.ofTokens ts = A.ofNodes (ds.flatMap VarDecl.preorder) := by
  induction h with
  | nil => rfl
  | @cons typeName dollar us rest ds more htype hentries hdollar _ ih =>
    have hpair := A.declaration typeName.kind htype
    simp only [ofTokens_cons, ofTokens_append, hdollar, A.balance_entries hentries, ih,
      List.flatMap_append, ofNodes_append]
    linarith

/-- A block counts as much as its frame, if the word of its kind does not count. -/
theorem balance_frame {k : Kind} {us : List Token} {body : Block} (hk : A.token k = 0)
    (hframe : BlockFrame k us ts) (hbody : A.ofTokens us = A.ofNodes (preorderEach body)) :
    A.ofTokens ts = A.token .kwStart + A.token .kwEnd + A.ofNodes (preorderEach body) := by
  obtain ⟨hstart, hopening, hending, hclosing⟩ := hframe
  simp only [ofTokens_cons, ofTokens_append, ofTokens_nil, hstart, hopening, hending, hclosing, hk,
    hbody]
  ring

mutual

theorem balance_stmt {ts : List Token} {s : Stmt} (h : Stmt.Derives ts s) :
    A.ofTokens ts = A.ofNodes s.preorder := by
  cases h with
  | assignment ha hdollar =>
    rw [ofTokens_append, ofTokens_cons, ofTokens_nil, hdollar, add_zero]
    exact A.balance_assignment ha
  | print hhead hcolon he hdollar =>
    simp [hhead, hcolon, hdollar, A.silent .kwPrint (by decide), A.silent .colon (by decide),
      A.balance_expr he, Stmt.preorder, add_comm]
  | scan hhead hcolon hnames hdollar =>
    simp [hhead, hcolon, hdollar, A.silent .kwScan (by decide), A.silent .colon (by decide),
      A.balance_names hnames, Stmt.preorder, add_comm]
  | ifElse hhead hcond hbody hframe halternatives =>
    have hif := A.silent .kwIf (by decide)
    simp only [ofTokens_cons, ofTokens_append, hhead, hif, A.balance_expr hcond,
      A.balance_frame hif hframe (balance_each hbody), balance_alternatives halternatives,
      Stmt.preorder, ofNodes_cons, ofNodes_append, ofNode_ifElse, ofNode_block]
  | repeatWhen hhead hword hcond hbody hframe =>
    have hrepeat := A.silent .kwRepeat (by decide)
    simp only [ofTokens_cons, ofTokens_append, hhead, hword, hrepeat, A.silent .kwWhen (by decide),
      A.balance_expr hcond, A.balance_frame hrepeat hframe (balance_each hbody), Stmt.preorder,
      ofNodes_cons, ofNodes_append, ofNode_repeatWhen, ofNode_block, zero_add]
  | @forLoop _ _ _ _ _ _ _ _ _ _ init update cond body hhead hopener hinit hcomma hcond hcomma'
      hupdate hcloser hbody hframe =>
    have hfor := A.silent .kwFor (by decide)
    have hinit := A.balance_assignment hinit
    have hupdate := A.balance_assignment hupdate
    -- The two `$` that the assignments of the header lack are in the number of the loop.
    have hloop : A.ofNode (.stmt (.forLoop init cond update body)) + 2 * A.token .dollar = _ :=
      A.ofNode_forLoop init update
    simp only [ofTokens_cons, ofTokens_append, hhead, hopener, hcomma, hcomma', hcloser, hfor,
      A.silent .comma (by decide), A.balance_expr hcond,
      A.balance_frame hfor hframe (balance_each hbody), Stmt.preorder, ofNodes_cons,
      ofNodes_append, ofNode_block]
    linarith

private theorem balance_each {ts : List Token} {ss : List Stmt} (h : StmtsDerive ts ss) :
    A.ofTokens ts = A.ofNodes (preorderEach ss) := by
  cases h with
  | nil => rfl
  | cons hs hss =>
    rw [ofTokens_append, preorderEach, ofNodes_append, balance_stmt hs, balance_each hss]

theorem balance_alternatives {ts : List Token} {c : ElseChain} (h : ElseChain.Derives ts c) :
    A.ofTokens ts = A.ofNodes c.preorder := by
  have hif := A.silent .kwIf (by decide)
  have helse := A.silent .kwElse (by decide)
  cases h with
  | done => rfl
  | otherwise hhead hbody hframe =>
    simp only [ofTokens_cons, hhead, helse, A.balance_frame hif hframe (balance_each hbody),
      ElseChain.preorder, ofNodes_cons, ofNode_block, zero_add]
  | elseIf hhead hword hcond hbody hframe hrest =>
    simp only [ofTokens_cons, ofTokens_append, hhead, hword, helse, hif, A.balance_expr hcond,
      A.balance_frame hif hframe (balance_each hbody), balance_alternatives hrest,
      ElseChain.preorder, ofNodes_cons, ofNodes_append, ofNode_block, zero_add]

end

/-- The tokens of a program count as much as the nodes of its tree and its frame. -/
theorem balance_program {p : Program} (h : Program.Derives ts p) :
    A.ofTokens ts
      = A.token .kwStart + A.token .kwEnd + A.ofNodes (Node.program p).preorder := by
  obtain ⟨hword, harea, hdecls, hstmts, hframe⟩ := h
  obtain ⟨hstart, hopening, hending, hclosing⟩ := hframe
  simp only [ofTokens_cons, ofTokens_append, ofTokens_nil, hword, harea, hstart, hopening, hending,
    hclosing, A.silent .kwScript (by decide), A.silent .kwArea (by decide),
    A.balance_declarations hdecls, A.balance_each hstmts, Node.preorder, ofNodes_cons,
    ofNodes_append, ofNode_program]
  ring

/-! ### Accounts and censuses -/

/-- The numbers of the nodes are those of their kinds, as often as a census counts them, and those
of the names that they keep. -/
theorem ofNodes_preorder (n : Node) :
    A.ofNodes n.preorder
      = (NodeKind.all.map fun k => A.node k * ((Census.ofNode n).count k : Int)).sum
        + A.token .identifier * (n.preorder.flatMap Node.names).length := by
  simp only [Census.count_ofNode]
  induction n.preorder with
  | nil => simp [NodeKind.all]
  | cons n ns ih =>
    have hone : (NodeKind.all.map fun k =>
        A.node k * ((if n.kind = k then 1 else 0 : Nat) : Int)).sum = A.node n.kind := by
      cases n.kind <;> simp [NodeKind.all]
    simp only [ofNodes_cons, ih, ofNode, List.map_cons, List.count_cons, List.flatMap_cons,
      List.length_append, beq_iff_eq, Nat.cast_add, mul_add, List.sum_map_add, hone]
    ring

/-- Tokens are counted by kind. -/
private theorem ofTokens_eq_countP {P Q : Kind → Bool} {c : Int}
    (h : ∀ k, A.token k = (if P k then 1 else 0) + c * (if Q k then 1 else 0)) (ts : List Token) :
    A.ofTokens ts = ts.countP (P ·.kind) + c * ts.countP (Q ·.kind) := by
  induction ts with
  | nil => simp
  | cons t ts ih =>
    simp only [ofTokens_cons, ih, h, List.countP_cons, Nat.cast_add, Nat.cast_ite, Nat.cast_one,
      Nat.cast_zero]
    ring

/-! ### Accounts of interest -/

/-- Each operator has its node. -/
def operators : Account where
  token k := if k.isOperator then 1 else 0
  node
    | .binary | .logical | .unary => 1
    | _ => 0

/-- Each `AND` and `OR` has its node. -/
def logicals : Account where
  token k := if k.isLogical then 1 else 0
  node
    | .logical => 1
    | _ => 0

/-- Each literal has its node. -/
def literals : Account where
  token k := if k.isLiteral then 1 else 0
  node
    | .literal => 1
    | _ => 0

/-- Each name is an operand, or a variable that is declared, assigned or read. -/
def identifiers : Account where
  token k := if k == .identifier then 1 else 0
  node
    | .identifier | .varDecl | .assignment => 1
    | _ => 0

/-- Each opening parenthesis begins a group or the header of a loop. -/
def openers : Account where
  token k := if k == .leftParen then 1 else 0
  node
    | .grouping | .forLoop => 1
    | _ => 0

/-- Each closing parenthesis ends a group or the header of a loop. -/
def closers : Account where
  token k := if k == .rightParen then 1 else 0
  node
    | .grouping | .forLoop => 1
    | _ => 0

/-- Each `START` begins a block, or else the program. -/
def starts : Account where
  token k := if k == .kwStart then 1 else 0
  node
    | .block => 1
    | _ => 0

/-- Each `END` ends a block, or else the program. -/
def ends : Account where
  token k := if k == .kwEnd then 1 else 0
  node
    | .block => 1
    | _ => 0

/-- Each `$` is a line break or ends a declaration or a statement; the assignments in the header of
a loop do without. -/
def dollars : Account where
  token k := (if k == .dollar then 1 else 0) + -1 * (if k.isTypeKeyword then 1 else 0)
  node
    | .newline | .assignment | .print | .scan => 1
    | .forLoop => -2
    | _ => 0

end Account

/-! ### Programs -/

/-- The names that the `SCAN` statements of a program read. -/
def Program.scanned (p : Program) : List Token :=
  (Node.program p).preorder.flatMap Node.names

/-- What the census of a tree, with the number of names that its `SCAN` statements read, says about
the tokens that the tree was read from. -/
structure Accounted (ts : List Token) (c : Census) (scanned : Nat) : Prop where
  operators : c.count .binary + c.count .logical + c.count .unary = ts.countP (·.kind.isOperator)
  logicals : c.count .logical = ts.countP (·.kind == .kwAnd) + ts.countP (·.kind == .kwOr)
  literals : c.count .literal = ts.countP (·.kind.isLiteral)
  identifiers : c.count .identifier + c.count .varDecl + c.count .assignment + scanned
    = ts.countP (·.kind == .identifier)
  openers : c.count .grouping + c.count .forLoop = ts.countP (·.kind == .leftParen)
  closers : c.count .grouping + c.count .forLoop = ts.countP (·.kind == .rightParen)
  starts : c.count .block + 1 = ts.countP (·.kind == .kwStart)
  ends : c.count .block + 1 = ts.countP (·.kind == .kwEnd)
  /-- The two assignments in the header of a loop have no `$`. -/
  dollars : (c.count .newline + (c.count .assignment - 2 * c.count .forLoop) + c.count .print
    + c.count .scan + ts.countP (·.kind.isTypeKeyword) : Int) = ts.countP (·.kind == .dollar)

section

variable {ts : List Token} {p : Program}

/-- The tokens of two classes, weighed against each other, give the census of the tree. -/
private theorem Account.countP_program (A : Account) {P Q : Kind → Bool} {c : Int}
    (hA : ∀ k, A.token k = (if P k then 1 else 0) + c * (if Q k then 1 else 0))
    (h : Program.Derives ts p) :
    (ts.countP (P ·.kind) + c * ts.countP (Q ·.kind) : Int) = A.token .kwStart + A.token .kwEnd
      + (NodeKind.all.map fun k => A.node k * ((Census.ofNode (.program p)).count k : Int)).sum
      + A.token .identifier * p.scanned.length := by
  rw [← A.ofTokens_eq_countP hA, A.balance_program h, A.ofNodes_preorder, ← add_assoc,
    Program.scanned]

/-- The tokens of one class give the census of the tree. -/
private theorem Account.countP_program_single (A : Account) {P : Kind → Bool}
    (hA : ∀ k, A.token k = if P k then 1 else 0) (h : Program.Derives ts p) :
    (ts.countP (P ·.kind) : Int) = A.token .kwStart + A.token .kwEnd
      + (NodeKind.all.map fun k => A.node k * ((Census.ofNode (.program p)).count k : Int)).sum
      + A.token .identifier * p.scanned.length := by
  rw [← A.countP_program (Q := P) (c := 0) (by simpa using hA) h, zero_mul, add_zero]

/-- The census of the tree of a program says how many tokens of each class it is made of. -/
theorem Program.Derives.accounted (h : Program.Derives ts p) :
    Accounted ts (Census.ofNode (.program p)) p.scanned.length where
  operators := by
    have := Account.operators.countP_program_single (P := Kind.isOperator) (fun _ => rfl) h
    simp +decide [NodeKind.all, Account.operators] at this
    omega
  logicals := by
    have := Account.logicals.countP_program (P := (· == .kwAnd)) (Q := (· == .kwOr)) (c := 1)
      (by intro k; cases k <;> rfl) h
    simp +decide [NodeKind.all, Account.logicals] at this
    omega
  literals := by
    have := Account.literals.countP_program_single (P := Kind.isLiteral) (fun _ => rfl) h
    simp +decide [NodeKind.all, Account.literals] at this
    omega
  identifiers := by
    have := Account.identifiers.countP_program_single (P := (· == .identifier)) (fun _ => rfl) h
    simp +decide [NodeKind.all, Account.identifiers] at this
    omega
  openers := by
    have := Account.openers.countP_program_single (P := (· == .leftParen)) (fun _ => rfl) h
    simp +decide [NodeKind.all, Account.openers] at this
    omega
  closers := by
    have := Account.closers.countP_program_single (P := (· == .rightParen)) (fun _ => rfl) h
    simp +decide [NodeKind.all, Account.closers] at this
    omega
  starts := by
    have := Account.starts.countP_program_single (P := (· == .kwStart)) (fun _ => rfl) h
    simp +decide [NodeKind.all, Account.starts] at this
    omega
  ends := by
    have := Account.ends.countP_program_single (P := (· == .kwEnd)) (fun _ => rfl) h
    simp +decide [NodeKind.all, Account.ends] at this
    omega
  dollars := by
    have := Account.dollars.countP_program (P := (· == .dollar)) (Q := Kind.isTypeKeyword)
      (c := -1) (fun _ => rfl) h
    simp +decide [NodeKind.all, Account.dollars] at this
    omega

/-- **Every token is accounted for.** The census of a program that is read says how many operators,
literals, names, parentheses, block marks and dollars there are before the first end mark: none is
lost and none is counted twice. -/
theorem accounted_of_parse (h : (Input.ofTokens ts).parse.result = .ok p) :
    Accounted (ts.takeWhile (·.kind != .eof)) (Census.ofNode (.program p)) p.scanned.length :=
  ((Input.parse_eq_ok_iff_derives ts p).mp h).accounted

/-- A program with a declaration and a loop that reads names and prints a line break. -/
theorem accounted_of_parse_loop :
    let token (k : Kind) : Token := ⟨k, k.written, 1⟩
    let ts := [.kwScript, .kwArea, .kwStart, .kwScript, .kwInt, .identifier, .dollar, .kwFor,
      .leftParen, .identifier, .equal, .leftParen, .intLiteral, .rightParen, .comma, .kwNot,
      .identifier, .kwAnd, .identifier, .comma, .identifier, .equal, .minus, .identifier,
      .rightParen, .kwStart, .kwFor, .kwScan, .colon, .identifier, .comma, .identifier, .dollar,
      .kwPrint, .colon, .dollar, .ampersand, .identifier, .dollar, .kwEnd, .kwFor, .kwEnd,
      .kwScript].map token
    let name := token .identifier
    let init : Assignment := ⟨name, .grouping (.literal (token .intLiteral))⟩
    let cond : Expr := .logical (.unary (token .kwNot) (.identifier name)) (token .kwAnd)
      (.identifier name)
    let update : Assignment := ⟨name, .unary (token .minus) (.identifier name)⟩
    let body : Block := [.scan [name, name],
      .print [.binary (.newline 1) (token .ampersand) (.identifier name)]]
    let p : Program := ⟨[⟨token .kwInt, name, none⟩], [.forLoop init cond update body]⟩
    (Input.ofTokens ts).parse.result = .ok p ∧
      Accounted (ts.takeWhile (·.kind != .eof)) (Census.ofNode (.program p)) p.scanned.length := by
  intro token ts name init cond update body p
  have h : (Input.ofTokens ts).parse.result = .ok p := rfl
  exact ⟨h, accounted_of_parse h⟩

end

end ScriptTree
