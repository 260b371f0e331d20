import ScriptTree.Grammar.Expr

/-!
# The grammar of expressions, written out

`Expr.Derives` takes the operators of a level and the kinds of leaves from tables that the reading
of expressions uses as well. Here the rules are written out, each with the words that occur in it
and with the node that it makes:

    disjunction ::= disjunction "OR" conjunction | conjunction
    conjunction ::= conjunction "AND" relation | relation
    relation    ::= relation (">" | ">=" | "<" | "<=" | "==" | "<>") sum | sum
    sum         ::= sum ("+" | "-" | "&") product | product
    product     ::= product ("*" | "/" | "%") signed | signed
    signed      ::= ("+" | "-" | "NOT") signed | primary
    primary     ::= literal | identifier | "$" | "(" disjunction ")"

The two grammars are the same, level by level (`Expr.derives_iff_isPhrase`).
-/

namespace ScriptTree

/-! ### Tables -/

namespace Kind

variable {k : Kind}

/-- The operator of disjunctions. -/
theorem level?_eq_zero_iff : k.level? = some 0 ↔ k = kwOr := by
  cases k <;> decide

/-- The operator of conjunctions. -/
theorem level?_eq_one_iff : k.level? = some 1 ↔ k = kwAnd := by
  cases k <;> decide

/-- The operators of relations. -/
theorem level?_eq_two_iff : k.level? = some 2 ↔
    k ∈ [greater, greaterEqual, less, lessEqual, equalEqual, notEqual] := by
  cases k <;> decide

/-- The operators of sums. -/
theorem level?_eq_three_iff : k.level? = some 3 ↔ k ∈ [plus, minus, ampersand] := by
  cases k <;> decide

/-- The operators of products. -/
theorem level?_eq_four_iff : k.level? = some 4 ↔ k ∈ [star, slash, modulo] := by
  cases k <;> decide

theorem isPrefixOperator_iff : k.isPrefixOperator = true ↔ k ∈ [plus, minus, kwNot] := by
  cases k <;> decide

theorem isLiteral_iff : k.isLiteral = true ↔
    k ∈ [intLiteral, floatLiteral, charLiteral, boolLiteral] := by
  cases k <;> decide

theorem isLogical_iff : k.isLogical = true ↔ k = kwAnd ∨ k = kwOr := by
  cases k <;> decide

end Kind

namespace Expr

variable {left right e : Expr} {t operator : Token} {ts : List Token}

/-! ### The rules -/

/-- The levels of the grammar, from the loosest to the tightest. -/
inductive Level where
  | disjunction | conjunction | relation | sum | product | signed | primary
  deriving DecidableEq, Repr

/-- The number of a level. -/
def Level.rank : Level → Nat
  | disjunction => 0
  | conjunction => 1
  | relation => 2
  | sum => 3
  | product => 4
  | signed => 5
  | primary => 6

private theorem Level.rank_injective {l m : Level} (h : l.rank = m.rank) : l = m := by
  revert h
  cases l <;> cases m <;> decide

/-- The tokens are a phrase of the level for the expression, by the rules as they are written. -/
inductive IsPhrase : Level → List Token → Expr → Prop where
  | either {operator : Token} {ls rs : List Token} {left right : Expr} :
    IsPhrase .disjunction ls left → operator.kind = .kwOr → IsPhrase .conjunction rs right →
      IsPhrase .disjunction (ls ++ operator :: rs) (logical left operator right)
  | ofConjunction {ts : List Token} {e : Expr} :
    IsPhrase .conjunction ts e → IsPhrase .disjunction ts e
  | both {operator : Token} {ls rs : List Token} {left right : Expr} :
    IsPhrase .conjunction ls left → operator.kind = .kwAnd → IsPhrase .relation rs right →
      IsPhrase .conjunction (ls ++ operator :: rs) (logical left operator right)
  | ofRelation {ts : List Token} {e : Expr} :
    IsPhrase .relation ts e → IsPhrase .conjunction ts e
  | compare {operator : Token} {ls rs : List Token} {left right : Expr} :
    IsPhrase .relation ls left →
      operator.kind ∈ [.greater, .greaterEqual, .less, .lessEqual, .equalEqual, .notEqual] →
      IsPhrase .sum rs right →
      IsPhrase .relation (ls ++ operator :: rs) (binary left operator right)
  | ofSum {ts : List Token} {e : Expr} : IsPhrase .sum ts e → IsPhrase .relation ts e
  | add {operator : Token} {ls rs : List Token} {left right : Expr} :
    IsPhrase .sum ls left → operator.kind ∈ [.plus, .minus, .ampersand] →
      IsPhrase .product rs right →
      IsPhrase .sum (ls ++ operator :: rs) (binary left operator right)
  | ofProduct {ts : List Token} {e : Expr} : IsPhrase .product ts e → IsPhrase .sum ts e
  | multiply {operator : Token} {ls rs : List Token} {left right : Expr} :
    IsPhrase .product ls left → operator.kind ∈ [.star, .slash, .modulo] →
      IsPhrase .signed rs right →
      IsPhrase .product (ls ++ operator :: rs) (binary left operator right)
  | ofSigned {ts : List Token} {e : Expr} : IsPhrase .signed ts e → IsPhrase .product ts e
  | sign {operator : Token} {ts : List Token} {e : Expr} :
    operator.kind ∈ [.plus, .minus, .kwNot] → IsPhrase .signed ts e →
      IsPhrase .signed (operator :: ts) (unary operator e)
  | ofPrimary {ts : List Token} {e : Expr} : IsPhrase .primary ts e → IsPhrase .signed ts e
  | literal {t : Token} :
    t.kind ∈ [.intLiteral, .floatLiteral, .charLiteral, .boolLiteral] →
      IsPhrase .primary [t] (literal t)
  | identifier {t : Token} : t.kind = .identifier → IsPhrase .primary [t] (identifier t)
  | newline {t : Token} : t.kind = .dollar → IsPhrase .primary [t] (newline t.line)
  | group {opener closer : Token} {ts : List Token} {e : Expr} :
    opener.kind = .leftParen → IsPhrase .disjunction ts e → closer.kind = .rightParen →
      IsPhrase .primary (opener :: (ts ++ [closer])) (grouping e)

/-! ### Nodes -/

/-- `AND` and `OR` make logical nodes. -/
theorem infixNode_of_logical (h : operator.kind = .kwAnd ∨ operator.kind = .kwOr) :
    infixNode left operator right = logical left operator right :=
  if_pos (Kind.isLogical_iff.mpr h)

/-- The operators of every tighter level make binary nodes. -/
theorem infixNode_of_level {n : Nat} (hlevel : operator.kind.level? = some n) (hn : 2 ≤ n) :
    infixNode left operator right = binary left operator right := by
  refine if_neg fun hlogical => ?_
  rcases Kind.isLogical_iff.mp hlogical with hk | hk
  · rw [hk, Kind.level?_eq_one_iff.mpr rfl] at hlevel
    obtain rfl := Option.some.inj hlevel
    contradiction
  · rw [hk, Kind.level?_eq_zero_iff.mpr rfl] at hlevel
    obtain rfl := Option.some.inj hlevel
    contradiction

/-- An identifier is a leaf of its own sort. -/
theorem leaf_of_identifier (h : t.kind = .identifier) : leaf t = identifier t :=
  if_pos h

theorem leaf_of_literal (h : t.kind.isLiteral = true) : leaf t = literal t := by
  refine if_neg fun hk => ?_
  rw [hk] at h
  contradiction

/-! ### One grammar -/

/-- No phrase is tighter than a primary one. -/
private theorem Derives.le_six {n : Nat} (h : Derives n ts e) : n ≤ 6 := by
  induction h with
  | join hlevel => exact Nat.le_trans (Kind.level_le hlevel) (by decide)
  | tighter => omega
  | _ => decide

/-- The rule of `Derives` for infix operators, for those that make binary nodes. -/
private theorem Derives.joinBinary {n : Nat} {ls rs : List Token}
    (hlevel : operator.kind.level? = some n) (hn : 2 ≤ n) (hleft : Derives n ls left)
    (hright : Derives (n + 1) rs right) :
    Derives n (ls ++ operator :: rs) (binary left operator right) := by
  rw [← infixNode_of_level hlevel hn]
  exact .join hlevel hleft hright

/-- What the written rules make is derived. -/
theorem IsPhrase.derives {level : Level} (h : IsPhrase level ts e) : Derives level.rank ts e := by
  induction h with
  | either _ hop _ ihl ihr =>
    rw [← infixNode_of_logical (.inr hop)]
    exact .join (Kind.level?_eq_zero_iff.mpr hop) ihl ihr
  | both _ hop _ ihl ihr =>
    rw [← infixNode_of_logical (.inl hop)]
    exact .join (Kind.level?_eq_one_iff.mpr hop) ihl ihr
  | compare _ hop _ ihl ihr =>
    exact .joinBinary (Kind.level?_eq_two_iff.mpr hop) (by decide) ihl ihr
  | add _ hop _ ihl ihr =>
    exact .joinBinary (Kind.level?_eq_three_iff.mpr hop) (by decide) ihl ihr
  | multiply _ hop _ ihl ihr =>
    exact .joinBinary (Kind.level?_eq_four_iff.mpr hop) (by decide) ihl ihr
  | ofConjunction _ ih | ofRelation _ ih | ofSum _ ih | ofProduct _ ih | ofSigned _ ih
  | ofPrimary _ ih => exact .tighter ih
  | sign hop _ ih => exact .unary (Kind.isPrefixOperator_iff.mpr hop) ih
  | @literal t hk =>
    have hliteral := Kind.isLiteral_iff.mpr hk
    rw [← leaf_of_literal hliteral]
    exact .leaf ((Kind.isOperand_iff _).mpr (.inl hliteral))
  | @identifier t hk =>
    rw [← leaf_of_identifier hk]
    exact .leaf ((Kind.isOperand_iff _).mpr (.inr hk))
  | newline hk => exact .newline hk
  | group hopener _ hcloser ih => exact .group hopener hcloser ih

/-- The rules for infix operators, put together: an operator of a level joins a phrase of this level
and one of the next. -/
private theorem IsPhrase.join {level : Level} {ls rs : List Token}
    (hlevel : operator.kind.level? = some level.rank) (hleft : IsPhrase level ls left)
    (hright : ∀ next : Level, next.rank = level.rank + 1 → IsPhrase next rs right) :
    IsPhrase level (ls ++ operator :: rs) (infixNode left operator right) := by
  cases level with
  | disjunction =>
    have hop := Kind.level?_eq_zero_iff.mp hlevel
    rw [infixNode_of_logical (.inr hop)]
    exact .either hleft hop (hright .conjunction rfl)
  | conjunction =>
    have hop := Kind.level?_eq_one_iff.mp hlevel
    rw [infixNode_of_logical (.inl hop)]
    exact .both hleft hop (hright .relation rfl)
  | relation =>
    rw [infixNode_of_level hlevel (by decide)]
    exact .compare hleft (Kind.level?_eq_two_iff.mp hlevel) (hright .sum rfl)
  | sum =>
    rw [infixNode_of_level hlevel (by decide)]
    exact .add hleft (Kind.level?_eq_three_iff.mp hlevel) (hright .product rfl)
  | product =>
    rw [infixNode_of_level hlevel (by decide)]
    exact .multiply hleft (Kind.level?_eq_four_iff.mp hlevel) (hright .signed rfl)
  | signed | primary => exact absurd (Kind.level_le hlevel) (by decide)

/-- The rules without an operator, put together: a phrase of the next level is one of this level. -/
private theorem IsPhrase.loosen {level : Level} (hlevel : level.rank < 6)
    (h : ∀ next : Level, next.rank = level.rank + 1 → IsPhrase next ts e) :
    IsPhrase level ts e := by
  cases level with
  | disjunction => exact .ofConjunction (h _ rfl)
  | conjunction => exact .ofRelation (h _ rfl)
  | relation => exact .ofSum (h _ rfl)
  | sum => exact .ofProduct (h _ rfl)
  | product => exact .ofSigned (h _ rfl)
  | signed => exact .ofPrimary (h _ rfl)
  | primary => exact absurd hlevel (by decide)

/-- What is derived is made by the written rules. -/
theorem Derives.isPhrase {n : Nat} (h : Derives n ts e) (level : Level) (hn : level.rank = n) :
    IsPhrase level ts e := by
  induction h generalizing level with
  | @leaf t hk =>
    obtain rfl : level = .primary := Level.rank_injective hn
    rcases (Kind.isOperand_iff _).mp hk with hliteral | hname
    · rw [leaf_of_literal hliteral]
      exact .literal (Kind.isLiteral_iff.mp hliteral)
    · rw [leaf_of_identifier hname]
      exact .identifier hname
  | newline hk =>
    obtain rfl : level = .primary := Level.rank_injective hn
    exact .newline hk
  | group hopener hcloser _ ih =>
    obtain rfl : level = .primary := Level.rank_injective hn
    exact .group hopener (ih .disjunction rfl) hcloser
  | unary hop _ ih =>
    obtain rfl : level = .signed := Level.rank_injective hn
    exact .sign (Kind.isPrefixOperator_iff.mp hop) (ih .signed rfl)
  | join hlevel _ _ ihl ihr =>
    subst hn
    exact .join hlevel (ihl level rfl) ihr
  | tighter h ih =>
    subst hn
    exact .loosen h.le_six ih

/-- **One grammar.** The phrases of a level are those that the written rules make. -/
theorem derives_iff_isPhrase (level : Level) :
    Derives level.rank ts e ↔ IsPhrase level ts e :=
  ⟨fun h => h.isPhrase level rfl, IsPhrase.derives⟩

end Expr

end ScriptTree
