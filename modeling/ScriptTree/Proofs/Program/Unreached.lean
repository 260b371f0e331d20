import ScriptTree.Parse.Program
import ScriptTree.Proofs.Expression.Reading

/-!
# What reading never comes to

Two parsers are ready for more than can come. A `PRINT` goes on with further expressions behind an
`&`, but an expression takes every `&` that follows it, so the round over them ends at once. A
declaration refuses to begin with anything but a type, but it is begun only where a type comes next.

So `printRest_eq` and `declarations_eq_recursive` give both parsers without what is never reached.
That a `PRINT` has a single expression is a consequence here, and no part of the parser.
-/

namespace ScriptTree

/-! ### Print statements -/

/-- No `&` comes next after an expression. -/
private theorem CanFollow.ne_ampersand {closing : Closing} {k : Kind} (h : CanFollow closing k) :
    k ≠ .ampersand := by
  rintro rfl
  exact absurd h.1 (by decide)

namespace Parser

/-- Where no `&` comes next, there are no further expressions. -/
private theorem moreValues_of_ne {r : Reading} (h : r.input.current.kind ≠ .ampersand) :
    moreValues r = .ok [] r := by
  unfold moreValues recursive
  cases r.input.ahead.length with
  | zero => rfl
  | succ n =>
    rw [unroll_succ, bind_apply, accept_apply, if_neg h]
    rfl

/-- **One expression.** A `PRINT` reads an expression and then the `$`. -/
theorem printRest_eq : printRest = (do
    let _ ← expect .colon (.after .colon .kwPrint)
    let value ← expression .reject
    terminator .print
    return .print [value]) := by
  have hvalues : (do
      let value ← expression .reject
      let values ← moreValues
      terminator .print
      return Stmt.print (value :: values)) = (do
      let value ← expression .reject
      terminator .print
      return Stmt.print [value]) := by
    funext r
    rw [bind_apply, bind_apply]
    cases hread : expression .reject r with
    | error e s => rfl
    | ok value s =>
      obtain ⟨_, -, -, -, hfollow⟩ := expression_eq_ok_iff.mp hread
      simp only [bind_apply moreValues, moreValues_of_ne hfollow.ne_ampersand]
  unfold printRest
  rw [hvalues]

/-! ### Declarations -/

/-- Where a type comes next, a declaration takes it without fail. -/
theorem declaration_guarded {α : Type} (f : List VarDecl → Parser α) (q : Parser α) :
    (do
      if (← current).kind.isTypeKeyword then declaration >>= f else q) = (do
      let t ← current
      if t.kind.isTypeKeyword then
        advance
        declarationRest t >>= f
      else q) := by
  funext r
  simp only [bind_apply, current_apply]
  cases htype : r.input.current.kind.isTypeKeyword with
  | false => rfl
  | true => simp only [declaration, bind_apply, current_apply, advance_apply, htype, if_true]

/-- **No declaration is refused for its type**, so declarations can do without looking for it. -/
theorem declarations_eq_recursive :
    declarations = recursive (pure []) fun more => do
      let t ← current
      if t.kind.isTypeKeyword then
        advance
        let ds ← declarationRest t
        return ds ++ (← more)
      else
        return [] := by
  simp only [declarations, declaration_guarded]

end Parser

end ScriptTree
