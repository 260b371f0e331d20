import ScriptTree.Proofs.Kinds.Automaton
import ScriptTree.Proofs.Program.Unreached

/-!
# Programs are read by kind

`Parser.Alike R S p q` says that `p` and `q`, run on inputs whose tokens are related in the same
places, both succeed, with values related by `S`, or both fail, with errors that are alike, and that
what they leave ahead is again related. The rules of the first part follow the ways in which parsers
are put together; with the automaton (`Automaton.Alike.run`) they make every parser of statements,
declarations and programs alike to itself, for any relation that keeps kinds.
-/

namespace ScriptTree

variable (R : Token → Token → Prop)

/-- The tokens ahead are related in the same places, and so are the ends of the inputs. -/
structure Input.Alike (i j : Input) : Prop where
  ahead : List.Forall₂ R i.ahead j.ahead
  last : Near R i.last j.last

variable {R}

namespace Input.Alike

variable {i j : Input}

/-- What comes next is related, or an end mark in both. -/
private theorem current (h : Input.Alike R i j) : Near R i.current j.current := by
  obtain ⟨ts, m⟩ := i
  obtain ⟨us, n⟩ := j
  obtain ⟨hahead, hlast⟩ := h
  cases hahead with
  | nil => exact hlast
  | cons htu _ => exact .ahead htu

/-- Both go on to the next token, or neither has one. -/
private theorem next (h : Input.Alike R i j) : Input.Alike R i.next j.next := by
  obtain ⟨ts, m⟩ := i
  obtain ⟨us, n⟩ := j
  obtain ⟨hahead, hlast⟩ := h
  cases hahead with
  | nil => exact ⟨.nil, hlast⟩
  | cons _ htus => exact ⟨htus, hlast⟩

end Input.Alike

namespace Parser

/-! ### Parsers that are alike -/

variable (R) in
/-- Both succeed, with related values, or both fail, with errors that are alike; either way they
leave inputs that are alike. -/
inductive OutcomeAlike {α : Type} (S : α → α → Prop) :
    EStateM.Result ParseError Reading α → EStateM.Result ParseError Reading α → Prop where
  | ok {a b : α} {r s : Reading} (hab : S a b) (hrs : Input.Alike R r.input s.input) :
      OutcomeAlike S (.ok a r) (.ok b s)
  | error {e f : ParseError} {r s : Reading} (hef : ParseError.Alike R e f)
      (hrs : Input.Alike R r.input s.input) : OutcomeAlike S (.error e r) (.error f s)

variable (R) in
/-- On inputs that are alike, the parsers do the same. -/
def Alike {α : Type} (S : α → α → Prop) (p q : Parser α) : Prop :=
  ∀ ⦃r s : Reading⦄, Input.Alike R r.input s.input → OutcomeAlike R S (p r) (q s)

namespace Alike

variable {α β : Type} {S : α → α → Prop} {T : β → β → Prop} {p q : Parser α}

theorem pure {a b : α} (h : S a b) : Alike R S (Pure.pure a) (Pure.pure b) :=
  fun _ _ hrs => .ok h hrs

/-- Parsers that are alike are followed by alike ones, for all related values. -/
theorem bind {f g : α → Parser β} (hpq : Alike R S p q)
    (hfg : ∀ a b, S a b → Alike R T (f a) (g b)) : Alike R T (p >>= f) (q >>= g) := by
  intro r s hrs
  have h := hpq hrs
  rw [bind_apply, bind_apply]
  generalize p r = x at h ⊢
  generalize q s = y at h ⊢
  cases h with
  | ok hab hrs => exact hfg _ _ hab hrs
  | error hef hrs => exact .error hef hrs

private theorem throw_bind {e f : ParseError} {k l : α → Parser β} (h : ParseError.Alike R e f) :
    Alike R T (throw e >>= k) (throw f >>= l) :=
  fun _ _ hrs => .error h hrs

/-- What depends on the next token need only be alike for tokens that are near. -/
theorem current_bind {f g : Token → Parser β} (h : ∀ t u, Near R t u → Alike R T (f t) (g u)) :
    Alike R T (current >>= f) (current >>= g) :=
  fun _ _ hrs => h _ _ hrs.current hrs

/-- A token is taken in both, whatever it is. -/
theorem advance_bind {f g : Unit → Parser β} (h : Alike R T (f ()) (g ())) :
    Alike R T (advance >>= f) (advance >>= g) :=
  fun _ _ hrs => h hrs.next

/-- The keywords that are noted for the log do not count. -/
theorem begin_bind {head head' : Token} {f g : Unit → Parser β} (h : Alike R T (f ()) (g ())) :
    Alike R T (begin head >>= f) (begin head' >>= g) :=
  fun _ _ hrs => h hrs

/-- Both fail at the next token, and the tokens found are near. -/
theorem refuse (expected : Expectation) :
    Alike R S (Parser.refuse expected) (Parser.refuse expected) :=
  fun _ _ hrs => .error (hrs.current.unexpected expected) hrs

/-- Inputs that are alike are of the same length, so the recursion goes as deep in both. -/
theorem recursive {atEnd atEnd' : Parser α} {step step' : Parser α → Parser α}
    (hend : Alike R S atEnd atEnd') (hstep : ∀ p q, Alike R S p q → Alike R S (step p) (step' q)) :
    Alike R S (recursive atEnd step) (recursive atEnd' step') := by
  intro r s hrs
  unfold Parser.recursive
  rw [hrs.ahead.length_eq]
  have h (n : Nat) : Alike R S (unroll atEnd step n) (unroll atEnd' step' n) := by
    induction n with
    | zero => exact hend
    | succ n ih => exact hstep _ _ ih
  exact h _ hrs

section

variable (hR : KeepsKinds R)

include hR

/-- Both take a token of the kind that is asked for, or neither does. -/
theorem expect {k : Kind} (hk : k ≠ .eof) (expected : Expectation) :
    Alike R R (Parser.expect k expected) (Parser.expect k expected) := by
  intro r s hrs
  have hnear := hrs.current
  rw [expect_apply, expect_apply, hnear.kind_eq hR]
  split
  · next hkind => exact .ok (hnear.rel (by rwa [hnear.kind_eq hR, hkind])) hrs.next
  · exact .error (hnear.unexpected expected) hrs

/-- Both take a token of the kind, or neither does. -/
theorem accept (k : Kind) : Alike R Eq (Parser.accept k) (Parser.accept k) := by
  intro r s hrs
  rw [accept_apply, accept_apply, hrs.current.kind_eq hR]
  split
  · exact .ok rfl hrs.next
  · exact .ok rfl hrs

/-- Both go on in the same way after a token that may be missing. -/
theorem accept_bind {k : Kind} {f g : Bool → Parser β} (hyes : Alike R T (f true) (g true))
    (hno : Alike R T (f false) (g false)) :
    Alike R T (Parser.accept k >>= f) (Parser.accept k >>= g) := by
  refine (accept hR k).bind ?_
  rintro found _ rfl
  cases found with
  | true => exact hyes
  | false => exact hno

theorem terminator (construct : Terminated) :
    Alike R (fun _ _ => True) (Parser.terminator construct) (Parser.terminator construct) :=
  (expect hR (by decide) (.terminator construct)).bind fun _ _ _ => .pure trivial

end

end Alike

/-! ### Statements -/

section Statements

variable (hR : KeepsKinds R)

include hR

private theorem identifier_alike (place : NamePlace) :
    Alike R R (identifier place) (identifier place) :=
  .expect hR (by decide) _

/-- An expression is read by an automaton that tells tokens apart by kind only. -/
private theorem expression_alike (closing : Closing) :
    Alike R (Expr.Alike R) (expression closing) (expression closing) := by
  intro r s hrs
  have hstart : Automaton.Alike R .start .start := ⟨⟨.nil, .nil⟩, rfl⟩
  obtain ⟨hresult, hrest⟩ := hstart.run hR closing hrs.last hrs.ahead
  unfold expression
  generalize Automaton.start.run closing r.input.last r.input.ahead = x at hresult hrest ⊢
  generalize Automaton.start.run closing s.input.last s.input.ahead = y at hresult hrest ⊢
  obtain ⟨x, ts⟩ := x
  obtain ⟨y, us⟩ := y
  cases hresult with
  | ok he => exact .ok he ⟨hrest, hrs.last⟩
  | error he => exact .error he ⟨hrest, hrs.last⟩

private theorem assignment_alike (closing : Closing) :
    Alike R (Assignment.Alike R) (assignment closing) (assignment closing) := by
  refine (identifier_alike hR _).bind fun _ _ hname => ?_
  refine (Alike.expect hR (by decide) _).bind fun _ _ _ => ?_
  refine (expression_alike hR closing).bind fun _ _ hvalue => .pure ?_
  exact ⟨hname, hvalue⟩

/-- One value is read; nothing is left of the loop over the others. -/
private theorem printRest_alike : Alike R (Stmt.Alike R) printRest printRest := by
  rw [printRest_eq]
  refine (Alike.expect hR (by decide) _).bind fun _ _ _ => ?_
  refine (expression_alike hR .reject).bind fun _ _ hvalue => ?_
  refine (Alike.terminator hR _).bind fun _ _ _ => .pure ?_
  exact .print (.cons hvalue .nil)

private theorem moreNames_alike : Alike R (List.Forall₂ R) moreNames moreNames := by
  refine .recursive (.pure .nil) fun _ _ hmore => .accept_bind hR ?_ (.pure .nil)
  refine (identifier_alike hR _).bind fun _ _ hname => hmore.bind fun _ _ hnames => .pure ?_
  exact .cons hname hnames

private theorem scanRest_alike : Alike R (Stmt.Alike R) scanRest scanRest := by
  refine (Alike.expect hR (by decide) _).bind fun _ _ _ => ?_
  refine (identifier_alike hR _).bind fun _ _ hname => ?_
  refine (moreNames_alike hR).bind fun _ _ hnames => ?_
  refine (Alike.terminator hR _).bind fun _ _ _ => .pure ?_
  exact .scan (.cons hname hnames)

variable {inner inner' : Parser Stmt} (hinner : Alike R (Stmt.Alike R) inner inner')

include hinner

/-- The statements of a block end at the same place: at an `END`, or where the input does. -/
private theorem statements_alike :
    Alike R (StmtsAlike R) (statements inner) (statements inner') := by
  refine .recursive (.pure .nil) fun _ _ hmore => .current_bind fun t u htu => ?_
  rw [htu.kind_eq hR]
  split
  · exact .pure .nil
  · exact .pure .nil
  · exact hinner.bind fun _ _ hs => hmore.bind fun _ _ hss => .pure (.cons hs hss)

/-- The line at which the block was opened is that of related tokens. -/
private theorem blockRest_alike {k : Kind} (hk : k ≠ .eof) {opener opener' : Token}
    (hopener : R opener opener') :
    Alike R (StmtsAlike R) (blockRest inner k opener.line) (blockRest inner' k opener'.line) := by
  refine (statements_alike hR hinner).bind fun _ _ hbody => .current_bind fun t u htu => ?_
  rw [htu.kind_eq hR]
  split
  · exact .throw_bind (htu.unterminatedBlock k hopener)
  refine (Alike.expect hR (by decide) _).bind fun _ _ _ => ?_
  refine (Alike.expect hR hk _).bind fun _ _ _ => .pure ?_
  exact hbody

private theorem block_alike {k : Kind} (hk : k ≠ .eof) (place : BlockPlace) :
    Alike R (StmtsAlike R) (block inner k place) (block inner' k place) := by
  refine (Alike.expect hR (by decide) _).bind fun _ _ hopener => ?_
  refine (Alike.expect hR hk _).bind fun _ _ _ => ?_
  exact blockRest_alike hR hinner hk hopener

/-- The alternatives go on, or end, at tokens of the same kinds. -/
private theorem alternatives_alike :
    Alike R (ElseChain.Alike R) (alternatives inner) (alternatives inner') := by
  refine .recursive (.pure .done) fun _ _ hmore => .accept_bind hR ?_ (.pure .done)
  refine .accept_bind hR ?_ ?_
  · refine (expression_alike hR .reject).bind fun _ _ hcond => ?_
    refine (block_alike hR hinner (by decide) _).bind fun _ _ hbody => ?_
    exact hmore.bind fun _ _ hrest => .pure (.elseIf hcond hbody hrest)
  · exact (block_alike hR hinner (by decide) _).bind fun _ _ hbody => .pure (.otherwise hbody)

private theorem ifRest_alike : Alike R (Stmt.Alike R) (ifRest inner) (ifRest inner') := by
  refine (expression_alike hR .reject).bind fun _ _ hcond => ?_
  refine (block_alike hR hinner (by decide) _).bind fun _ _ hbody => ?_
  refine (alternatives_alike hR hinner).bind fun _ _ hrest => .pure ?_
  exact .ifElse hcond hbody hrest

private theorem repeatRest_alike :
    Alike R (Stmt.Alike R) (repeatRest inner) (repeatRest inner') := by
  refine (Alike.expect hR (by decide) _).bind fun _ _ _ => ?_
  refine (expression_alike hR .reject).bind fun _ _ hcond => ?_
  refine (block_alike hR hinner (by decide) _).bind fun _ _ hbody => .pure ?_
  exact .repeatWhen hcond hbody

/-- The two assignments of a header end at a comma and at the closing parenthesis. -/
private theorem forRest_alike : Alike R (Stmt.Alike R) (forRest inner) (forRest inner') := by
  refine (Alike.expect hR (by decide) _).bind fun _ _ _ => ?_
  refine (assignment_alike hR .reject).bind fun _ _ hinit => ?_
  refine (Alike.expect hR (by decide) _).bind fun _ _ _ => ?_
  refine (expression_alike hR .reject).bind fun _ _ hcond => ?_
  refine (Alike.expect hR (by decide) _).bind fun _ _ _ => ?_
  refine (assignment_alike hR .yield).bind fun _ _ hupdate => ?_
  refine (Alike.expect hR (by decide) _).bind fun _ _ _ => ?_
  refine (block_alike hR hinner (by decide) _).bind fun _ _ hbody => .pure ?_
  exact .forLoop hinit hcond hupdate hbody

/-- The word that tells the statement is of the same kind in both inputs. -/
theorem statementWith_alike :
    Alike R (Stmt.Alike R) (statementWith inner) (statementWith inner') := by
  refine .current_bind fun t u htu => ?_
  rw [htu.kind_eq hR]
  split
  · exact .advance_bind (printRest_alike hR)
  · exact .advance_bind (scanRest_alike hR)
  · exact .advance_bind (.begin_bind (ifRest_alike hR hinner))
  · exact .advance_bind (.begin_bind (repeatRest_alike hR hinner))
  · exact .advance_bind (.begin_bind (forRest_alike hR hinner))
  · refine (assignment_alike hR .reject).bind fun _ _ ha => ?_
    exact (Alike.terminator hR _).bind fun _ _ _ => .pure (.assignment ha)

end Statements

/-! ### Programs -/

section Programs

variable (hR : KeepsKinds R)

include hR

/-- The circle closes: a statement holds statements. -/
private theorem statement_alike : Alike R (Stmt.Alike R) statement statement :=
  .recursive (.refuse _) fun _ _ => statementWith_alike hR

variable {typeName typeName' : Token} (htype : R typeName typeName')

section

include htype

private theorem entry_alike : Alike R (VarDecl.Alike R) (entry typeName) (entry typeName') := by
  refine (identifier_alike hR _).bind fun _ _ hname => .accept_bind hR ?_ ?_
  · refine (expression_alike hR .reject).bind fun _ _ hvalue => .pure ?_
    exact ⟨htype, hname, .some hvalue⟩
  · exact .pure ⟨htype, hname, .none⟩

private theorem moreEntries_alike :
    Alike R (List.Forall₂ (VarDecl.Alike R)) (moreEntries typeName) (moreEntries typeName') := by
  refine .recursive (.pure .nil) fun _ _ hmore => .accept_bind hR ?_ (.pure .nil)
  refine (entry_alike hR htype).bind fun _ _ hd => hmore.bind fun _ _ hds => .pure ?_
  exact .cons hd hds

/-- The type is handed down to every variable, so that related types give related variables. -/
private theorem declarationRest_alike :
    Alike R (List.Forall₂ (VarDecl.Alike R)) (declarationRest typeName)
      (declarationRest typeName') := by
  refine (entry_alike hR htype).bind fun _ _ hd => ?_
  refine (moreEntries_alike hR htype).bind fun _ _ hds => ?_
  exact (Alike.terminator hR _).bind fun _ _ _ => .pure (.cons hd hds)

end

/-- Declarations are read as long as a type keyword comes next, in both inputs. -/
private theorem declarations_alike :
    Alike R (List.Forall₂ (VarDecl.Alike R)) declarations declarations := by
  rw [declarations_eq_recursive]
  refine .recursive (.pure .nil) fun _ _ hmore => .current_bind fun t u htu => ?_
  have hkind := htu.kind_eq hR
  rw [hkind]
  split
  · next htype =>
    have hne : t.kind ≠ .eof := by
      rw [hkind]
      exact Kind.ne_eof_of_isTypeKeyword htype
    refine .advance_bind ((declarationRest_alike hR (htu.rel hne)).bind fun _ _ hds => ?_)
    exact hmore.bind fun _ _ hrest => .pure (List.rel_append hds hrest)
  · exact .pure .nil

/-- Whole programs are alike, so readings of related inputs have related outcomes. -/
theorem program_alike : Alike R (Program.Alike R) program program := by
  refine (Alike.expect hR (by decide) _).bind fun _ _ _ => ?_
  refine (Alike.expect hR (by decide) _).bind fun _ _ _ => ?_
  refine (Alike.expect hR (by decide) _).bind fun _ _ hopener => ?_
  refine (Alike.expect hR (by decide) _).bind fun _ _ _ => ?_
  refine (declarations_alike hR).bind fun _ _ hdecls => ?_
  refine (blockRest_alike hR (statement_alike hR) (by decide) hopener).bind fun _ _ hstmts => ?_
  refine .current_bind fun t u htu => ?_
  rw [htu.kind_eq hR]
  split
  · exact .pure ⟨hdecls, hstmts⟩
  · exact .refuse _

end Programs

end Parser

end ScriptTree
