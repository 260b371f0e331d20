import ScriptTree.Parse.Error
import ScriptTree.Tree.Expr

/-!
# Reading an expression

An expression is read from the left by an automaton with two stacks: the operands that are complete,
and the operators and open groups that still wait for one. An infix operator first applies every
waiting operator that binds at least as strongly, a closing parenthesis applies all that were met
since its partner, and the end of the expression applies the rest. So no nesting, however deep,
needs more than the stacks.

An open group records how many operands were complete when it was opened, and no operator inside the
group takes one of those (`Stacks.floor`).

`Automaton.step` says what one token does, and `Automaton.run` goes along the tokens until one of
them cannot belong to the expression.
-/

namespace ScriptTree

/-- What a closing parenthesis without a partner means to an expression. -/
inductive Closing where
  /-- It is a mismatch. -/
  | reject
  /-- It belongs to what surrounds the expression, which ends before it. -/
  | yield
  deriving DecidableEq, Repr

/-- What waits on the stack of operators. -/
inductive Pending where
  /-- An open group, with the number of operands that were complete before it. -/
  | group (opener : Token) (base : Nat)
  | unary (operator : Token)
  | binary (operator : Token)
  deriving DecidableEq, Repr

namespace Pending

/-- The strength with which a waiting operator holds its operands; a prefix operator binds more
strongly than every infix one. Nothing is applied across an open group. -/
def level? : Pending → Option Nat
  | group _ _ => none
  | unary _ => some 5
  | binary operator => operator.kind.level?

/-- Whether an infix operator of the given level lets this one go first. -/
def goesBefore (level : Nat) (p : Pending) : Bool :=
  p.level?.any (level ≤ ·)

def isGroup : Pending → Bool
  | group _ _ => true
  | _ => false

end Pending

/-! ### The stacks -/

/-- The complete operands and what waits for operands; the top of each stack comes first. -/
structure Stacks where
  operands : List Expr
  pending : List Pending
  deriving DecidableEq, Repr

namespace Stacks

/-- Whether a group is open. -/
def hasGroup (s : Stacks) : Bool :=
  s.pending.any Pending.isGroup

/-- The number of operands that the innermost open group must leave alone. -/
def floor (s : Stacks) : Nat :=
  match s.pending.find? Pending.isGroup with
  | some (.group _ base) => base
  | _ => 0

/-- Applies the operator on top to the operands on top. The token `near` is the one that makes this
necessary. -/
def reduce (near : Token) (s : Stacks) : Except ParseError Stacks :=
  match s.pending with
  | .unary operator :: pending =>
    match s.operands with
    | operand :: operands =>
      if s.floor ≤ operands.length then .ok ⟨.unary operator operand :: operands, pending⟩
      else .error (.missing operator near)
    | [] => .error (.missing operator near)
  | .binary operator :: pending =>
    match s.operands with
    | right :: left :: operands =>
      if s.floor ≤ operands.length then .ok ⟨.infixNode left operator right :: operands, pending⟩
      else .error (.missing operator near)
    | _ => .error (.missing operator near)
  | .group opener _ :: _ => .error (.mismatchedParentheses near.describe opener.line)
  | [] => .error (.invalid .noOperator near)

/-- Applies operators for as long as the one on top is to be applied, at most `n` of them. -/
def reduceUpTo (near : Token) (applies : Pending → Bool) : Nat → Stacks → Except ParseError Stacks
  | 0, s => .ok s
  | n + 1, s =>
    match s.pending.head? with
    | some top => if applies top then s.reduce near >>= reduceUpTo near applies n else .ok s
    | none => .ok s

/-- Applies operators for as long as the one on top is to be applied. -/
def reduceWhile (near : Token) (applies : Pending → Bool) (s : Stacks) : Except ParseError Stacks :=
  reduceUpTo near applies s.pending.length s

/-- Closes the innermost open group: what was read since it was opened must be one operand. -/
def closeGroup (close : Token) (s : Stacks) : Except ParseError Stacks := do
  let s ← s.reduceWhile close (!·.isGroup)
  match s.pending with
  | .group _ base :: pending =>
    match s.operands with
    | inner :: operands =>
      if operands.length = base then .ok ⟨.grouping inner :: operands, pending⟩
      else if operands.length < base then .error (.invalid .emptyParentheses close)
      else .error (.invalid .adjacentOperands close)
    | [] => .error (.invalid .emptyParentheses close)
  | _ => .error (.mismatchedParentheses close.describe close.line)

/-- Ends the expression before the token `last`: no group may be open and one operand remains. -/
def finish (last : Token) (s : Stacks) : Except ParseError Expr := do
  let s ← s.reduceWhile last (!·.isGroup)
  match s.pending with
  | .group opener _ :: _ => .error (.mismatchedParentheses last.describe opener.line)
  | _ =>
    match s.operands with
    | [e] => .ok e
    | [] => .error (.invalid .noExpression last)
    | _ => .error (.invalid .adjacentOperands last)

end Stacks

/-! ### The automaton -/

/-- The stacks, and whether an operand has to come next. -/
structure Automaton where
  stack : Stacks
  expecting : Bool
  deriving DecidableEq, Repr

namespace Automaton

/-- Nothing has been read. -/
def start : Automaton := ⟨⟨[], []⟩, true⟩

/-- What one token does to the reading of an expression. -/
inductive Step where
  /-- It is taken. -/
  | take (next : Automaton)
  /-- The expression ends before it. -/
  | leave
  /-- It is wrong where it stands. -/
  | refuse (e : ParseError)
  /-- It is taken, and what came before it turns out to be wrong. -/
  | fail (e : ParseError)
  deriving DecidableEq

/-- Takes an operand. -/
def operand (a : Automaton) (e : Expr) : Automaton :=
  ⟨{ a.stack with operands := e :: a.stack.operands }, false⟩

/-- Takes an operator or the opening of a group. -/
def wait (s : Stacks) (p : Pending) : Automaton :=
  ⟨{ s with pending := p :: s.pending }, true⟩

/-- Takes the token along if the stacks allow it. -/
def takeWith (next : Stacks → Automaton) : Except ParseError Stacks → Step
  | .ok s => .take (next s)
  | .error e => .fail e

/-- What the token `t` does. -/
def step (closing : Closing) (a : Automaton) (t : Token) : Step :=
  -- A second operand without an operator between: it may begin what follows the expression.
  if !a.expecting && (t.kind.isOperand || t.kind == .leftParen) then
    if a.stack.hasGroup then .refuse (.invalid .adjacentOperands t) else .leave
  else if t.kind.isOperand then .take (a.operand (.leaf t))
  else if t.kind = .leftParen then
    .take (wait a.stack (.group t a.stack.operands.length))
  else if t.kind = .rightParen then
    if a.stack.hasGroup then takeWith (⟨·, false⟩) (a.stack.closeGroup t)
    else
      match closing with
      | .yield => .leave
      | .reject => .refuse (.mismatchedParentheses t.describe t.line)
  -- After an operand a `$` ends the statement; in its place it is a line break.
  else if t.kind = .dollar ∧ a.expecting then .take (a.operand (.newline t.line))
  else if t.kind = .kwNot ∧ ¬a.expecting then .refuse (.unexpected .operatorBeforeNot t)
  else if t.kind.isOperator then
    if a.expecting && t.kind.isPrefixOperator then .take (wait a.stack (.unary t))
    else
      -- An infix operator is taken even where an operand is expected; the lack of the operand is
      -- noticed when the operator is applied.
      match t.kind.level? with
      | some level =>
        takeWith (wait · (.binary t)) (a.stack.reduceWhile t (Pending.goesBefore level))
      | none => .refuse (.unexpected .operator t)
  else .leave

/-- Reads on along the tokens; `last` ends them. The tokens that were not taken are returned with
the outcome. -/
def run (closing : Closing) (last : Token) (a : Automaton) :
    List Token → Except ParseError Expr × List Token
  | [] => (a.stack.finish last, [])
  | t :: ts =>
    match a.step closing t with
    | .take next => run closing last next ts
    | .leave => (a.stack.finish t, t :: ts)
    | .refuse e => (.error e, t :: ts)
    | .fail e => (.error e, ts)

end Automaton

end ScriptTree
