import ScriptTree.Parse.Automaton
import ScriptTree.Parse.Input

/-!
# Parsers

A `Parser` reads from the tokens ahead. Where it fails it leaves the input as it stands, so that
reading can go on from there. On the way it notes the keyword of every compound statement that it
begins.

Parsers that refer to themselves are built by `Parser.recursive`, which lets a parser call itself to
a depth of as many levels as tokens are ahead. Each level takes a token before it calls the next
one, so the bound is reached only at the end of the input.
-/

namespace ScriptTree

/-- Where reading stands: the tokens ahead, and the keywords of the compound statements begun so
far, in order. -/
structure Reading where
  input : Input
  heads : List Token
  deriving DecidableEq, Repr

/-- A reader of some part of a script. -/
abbrev Parser := EStateM ParseError Reading

namespace Parser

variable {α β : Type}

/-- The next token, which stays ahead. -/
def current : Parser Token := do
  return (← get).input.current

/-- Takes the next token. -/
def advance : Parser Unit :=
  modify fun r => { r with input := r.input.next }

/-- Fails: something else is expected where the next token stands. -/
def refuse (expected : Expectation) : Parser α := do
  throw (.unexpected expected (← current))

/-- Takes a token of the given kind, or fails. -/
def expect (k : Kind) (expected : Expectation) : Parser Token := do
  let t ← current
  if t.kind = k then
    advance
    return t
  else
    refuse expected

/-- Takes a token of the given kind if it comes next. -/
def accept (k : Kind) : Parser Bool := do
  if (← current).kind = k then
    advance
    return true
  else
    return false

/-- Takes an identifier, or fails. -/
def identifier (place : NamePlace) : Parser Token :=
  expect .identifier (.name place)

/-- Takes the `$` at the end of a construct, or fails. -/
def terminator (construct : Terminated) : Parser Unit :=
  discard (expect .dollar (.terminator construct))

/-- Notes the keyword of a compound statement. -/
def begin (head : Token) : Parser Unit :=
  modify fun r => { r with heads := r.heads ++ [head] }

/-- Reads an expression with the automaton. -/
def expression (closing : Closing) : Parser Expr := fun r =>
  match Automaton.start.run closing r.input.last r.input.ahead with
  | (.ok e, rest) => .ok e { r with input.ahead := rest }
  | (.error e, rest) => .error e { r with input.ahead := rest }

/-! ### What the parsers do to a reading -/

@[simp] theorem current_apply (r : Reading) : current r = .ok r.input.current r := rfl

@[simp] theorem advance_apply (r : Reading) :
    advance r = .ok () { r with input := r.input.next } := rfl

@[simp] theorem refuse_apply (expected : Expectation) (r : Reading) :
    (refuse expected : Parser α) r = .error (.unexpected expected r.input.current) r := rfl

theorem bind_apply (p : Parser α) (f : α → Parser β) (r : Reading) :
    (p >>= f) r = match p r with
      | .ok a s => f a s
      | .error e s => .error e s := by
  simp only [bind, EStateM.bind]
  cases p r <;> rfl

/-- A token is taken if it is of the kind that is asked for; otherwise nothing is taken. -/
theorem expect_apply (k : Kind) (expected : Expectation) (r : Reading) :
    expect k expected r =
      if r.input.current.kind = k then .ok r.input.current { r with input := r.input.next }
      else .error (.unexpected expected r.input.current) r := by
  simp only [expect, bind_apply, current_apply]
  split <;> rfl

theorem accept_apply (k : Kind) (r : Reading) :
    accept k r =
      if r.input.current.kind = k then .ok true { r with input := r.input.next }
      else .ok false r := by
  simp only [accept, bind_apply, current_apply]
  split <;> rfl

/-! ### Recursion -/

/-- The `n`-fold application of `step`, which starts from `atEnd`. -/
def unroll (atEnd : Parser α) (step : Parser α → Parser α) : Nat → Parser α
  | 0 => atEnd
  | n + 1 => step (unroll atEnd step n)

/-- The parser that `step` describes in terms of itself, where `atEnd` says what it does at the end
of the input. -/
def recursive (atEnd : Parser α) (step : Parser α → Parser α) : Parser α := fun r =>
  unroll atEnd step r.input.ahead.length r

@[simp] theorem unroll_zero (atEnd : Parser α) (step : Parser α → Parser α) :
    unroll atEnd step 0 = atEnd := rfl

@[simp] theorem unroll_succ (atEnd : Parser α) (step : Parser α → Parser α) (n : Nat) :
    unroll atEnd step (n + 1) = step (unroll atEnd step n) := rfl

/-- A property of the parser at the end of the input that every step keeps is a property of some
parser that does the same as the recursive one. -/
theorem exists_recursive_eq {atEnd : Parser α} {step : Parser α → Parser α} {P : Parser α → Prop}
    (hend : P atEnd) (hstep : ∀ p, P p → P (step p)) (r : Reading) :
    ∃ p, P p ∧ recursive atEnd step r = p r := by
  refine ⟨unroll atEnd step r.input.ahead.length, ?_, rfl⟩
  induction r.input.ahead.length with
  | zero => exact hend
  | succ n ih => exact hstep _ ih

end Parser

end ScriptTree
