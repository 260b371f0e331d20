import ScriptTree.Tree.Expr

/-!
# The grammar of expressions

The levels of the grammar, from the loosest to the tightest, with the operators that join two
phrases of a level:

    0  OR      1  AND      2  > >= < <= == <>      3  + - &      4  * / %
    5  + - NOT before one phrase
    6  an identifier, a literal, a line break, or an expression in parentheses

An operator takes a phrase of its own level on its left and a tighter one on its right, so equal
operators join from the left. `Expr.Derives n ts e` says that the tokens `ts` are a phrase of level
`n` with the tree `e`; it speaks of tokens only by kind and position.
-/

namespace ScriptTree

/-- The tokens are a phrase of the given level for the expression. -/
inductive Expr.Derives : Nat → List Token → Expr → Prop where
  /-- An identifier or a literal. -/
  | leaf {t : Token} : t.kind.isOperand = true → Derives 6 [t] (Expr.leaf t)
  /-- A line break. -/
  | newline {t : Token} : t.kind = .dollar → Derives 6 [t] (newline t.line)
  /-- An expression in parentheses. -/
  | group {opener closer : Token} {ts : List Token} {e : Expr} :
    opener.kind = .leftParen → closer.kind = .rightParen → Derives 0 ts e →
      Derives 6 (opener :: (ts ++ [closer])) (grouping e)
  /-- An operator before a phrase. -/
  | unary {operator : Token} {ts : List Token} {e : Expr} :
    operator.kind.isPrefixOperator = true → Derives 5 ts e →
      Derives 5 (operator :: ts) (unary operator e)
  /-- An operator between two phrases. -/
  | join {n : Nat} {operator : Token} {ls rs : List Token} {left right : Expr} :
    operator.kind.level? = some n → Derives n ls left → Derives (n + 1) rs right →
      Derives n (ls ++ operator :: rs) (infixNode left operator right)
  /-- A tighter phrase is a phrase of any looser level. -/
  | tighter {n : Nat} {ts : List Token} {e : Expr} : Derives (n + 1) ts e → Derives n ts e

namespace Expr

/-- A phrase of some level is a phrase of every looser one. -/
theorem Derives.of_le {m n : Nat} {ts : List Token} {e : Expr} (h : Derives n ts e) (hmn : m ≤ n) :
    Derives m ts e := by
  induction hmn with
  | refl => exact h
  | step _ ih => exact ih (.tighter h)

/-- A phrase has at least one token. -/
theorem Derives.ne_nil {n : Nat} {ts : List Token} {e : Expr} (h : Derives n ts e) : ts ≠ [] := by
  induction h with
  | tighter _ ih => exact ih
  | _ => simp

/-- No token of a phrase is an end mark. -/
theorem Derives.kind_ne_eof {n : Nat} {ts : List Token} {e : Expr} (h : Derives n ts e) :
    ∀ t ∈ ts, t.kind ≠ .eof := by
  induction h with
  | @leaf t ht =>
    have hne : t.kind ≠ .eof := by
      intro heof
      simp [heof, Kind.isOperand] at ht
    simpa using hne
  | newline ht => simp [ht]
  | group hopener hcloser _ ih => simpa [or_imp, forall_and, hopener, hcloser] using ih
  | @unary operator ts e hoperator _ ih =>
    have hne : operator.kind ≠ .eof := by
      intro heof
      simp [heof, Kind.isPrefixOperator] at hoperator
    exact List.forall_mem_cons.mpr ⟨hne, ih⟩
  | @join n operator ls rs left right hlevel _ _ ihl ihr =>
    have hne : operator.kind ≠ .eof := by
      intro heof
      simp [heof, Kind.level?] at hlevel
    exact List.forall_mem_append.mpr ⟨ihl, List.forall_mem_cons.mpr ⟨hne, ihr⟩⟩
  | tighter _ ih => exact ih

end Expr

end ScriptTree
