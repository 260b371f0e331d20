import ScriptTree.Proofs.Kinds.Parsers

/-!
# Kinds alone decide

What is read from a list of tokens depends on the texts and lines of the tokens only as far as these
are copied: if two lists have the same kinds in the same places, then reading goes the same way on
both, however often it is taken up again, and what is returned shows the tokens of the one list
where it shows those in the same places of the other (`SamePlace`).

As no relation is asked to hold beyond the kinds (`Input.Alike.parseTimes`), the same argument says
what lines matter for: two sources whose tokens differ in their lines only are read as programs, or
refused with errors, that differ in their lines only.
-/

namespace ScriptTree

variable {R : Token → Token → Prop}

/-! ### Reading again and again -/

namespace Input.Alike

variable {i j : Input}

/-- Readings of inputs that are alike are alike, and so is what they leave. -/
private theorem parse (hR : KeepsKinds R) (h : Input.Alike R i j) :
    ResultAlike R (Program.Alike R) i.parse.result j.parse.result ∧
      Input.Alike R i.parse.rest j.parse.rest := by
  have hprogram := Parser.program_alike hR (r := ⟨i, []⟩) (s := ⟨j, []⟩) h
  unfold Input.parse
  generalize Parser.program ⟨i, []⟩ = x at hprogram ⊢
  generalize Parser.program ⟨j, []⟩ = y at hprogram ⊢
  cases hprogram with
  | ok hp hrest => exact ⟨.ok hp, hrest⟩
  | error he hrest => exact ⟨.error he, hrest⟩

/-- However often reading is taken up again, it goes the same way on inputs that are alike. -/
theorem parseTimes (hR : KeepsKinds R) (h : Input.Alike R i j) (n : Nat) :
    List.Forall₂ (ResultAlike R (Program.Alike R)) (i.parseTimes n) (j.parseTimes n) := by
  induction n generalizing i j with
  | zero => exact .nil
  | succ n ih => exact .cons (h.parse hR).1 (ih (h.parse hR).2)

end Input.Alike

/-! ### Lists of tokens -/

section

variable {ts us : List Token}

/-- A test that does not tell related tokens apart stops in the same place. -/
private theorem forall₂_takeWhile {p : Token → Bool} (hp : ∀ t u, R t u → p t = p u)
    (h : List.Forall₂ R ts us) : List.Forall₂ R (ts.takeWhile p) (us.takeWhile p) := by
  induction h with
  | nil => exact .nil
  | cons htu _ ih =>
    rw [List.takeWhile_cons, List.takeWhile_cons, hp _ _ htu]
    split
    · exact .cons htu ih
    · exact .nil

private theorem rel_find? {p : Token → Bool} (hp : ∀ t u, R t u → p t = p u)
    (h : List.Forall₂ R ts us) : Option.Rel R (ts.find? p) (us.find? p) := by
  induction h with
  | nil => exact .none
  | cons htu _ ih =>
    rw [List.find?_cons, List.find?_cons, hp _ _ htu]
    split
    · exact .some htu
    · exact ih

private theorem rel_getLast? (h : List.Forall₂ R ts us) : Option.Rel R ts.getLast? us.getLast? := by
  induction h with
  | nil => exact .none
  | @cons _ _ ts us htu _ ih =>
    rw [List.getLast?_cons, List.getLast?_cons]
    generalize ts.getLast? = x at ih ⊢
    generalize us.getLast? = y at ih ⊢
    cases ih with
    | some hxy => exact .some hxy
    | none => exact .some htu

variable (hR : KeepsKinds R)

include hR

/-- Both lists are given an end mark, or neither is. -/
private theorem forall₂_closeTokens (hend : ∀ m n, R (Token.endMark m) (Token.endMark n))
    (h : List.Forall₂ R ts us) : List.Forall₂ R (closeTokens ts) (closeTokens us) := by
  have hlast := rel_getLast? h
  unfold closeTokens
  generalize ts.getLast? = x at hlast ⊢
  generalize us.getLast? = y at hlast ⊢
  cases hlast with
  | none => exact .cons (hend 1 1) .nil
  | some htu =>
    simp only [hR htu]
    split
    · exact h
    · exact List.rel_append h (.cons (hend _ _) .nil)

/-- Closed lists that are related make inputs that are alike. -/
private theorem Input.Alike.ofTokens (h : List.Forall₂ R (closeTokens ts) (closeTokens us)) :
    Input.Alike R (Input.ofTokens ts) (Input.ofTokens us) := by
  refine ⟨forall₂_takeWhile (fun t u htu => by rw [hR htu]) h, ?_⟩
  have hfind := rel_find? (p := (·.kind == .eof)) (fun t u htu => by rw [hR htu]) h
  unfold Input.last Input.ofTokens
  dsimp only
  -- Closed lists have end marks, so the first ones stand in the same place.
  cases ht : (closeTokens ts).find? (·.kind == .eof) with
  | none =>
    obtain ⟨t, hlast, hkind⟩ := getLast?_closeTokens ts
    exact absurd hkind (by simpa using List.find?_eq_none.mp ht t (List.mem_of_getLast? hlast))
  | some t =>
    cases hu : (closeTokens us).find? (·.kind == .eof) with
    | none => simp [ht, hu] at hfind
    | some u =>
      rw [ht, hu, Option.rel_some_some] at hfind
      exact .atEnd hfind (by simpa using List.find?_some ht) (by simpa using List.find?_some hu)

end

/-! ### The same places -/

/-- The tokens stand in the same place of the two lists. -/
def SamePlace (ts us : List Token) (t u : Token) : Prop :=
  ∃ i : Nat, ts[i]? = some t ∧ us[i]? = some u

/-- Lists of the same length are related place by place. -/
private theorem forall₂_samePlace {ts us : List Token} (h : ts.length = us.length) :
    List.Forall₂ (SamePlace ts us) ts us := by
  refine List.forall₂_iff_get.mpr ⟨h, fun i hi hi' => ⟨i, ?_, ?_⟩⟩
  · exact List.getElem?_eq_getElem hi
  · exact List.getElem?_eq_getElem hi'

/-- Tokens in the same place of related lists are related. -/
private theorem SamePlace.rel {ts us : List Token} (h : List.Forall₂ R ts us) {t u : Token}
    (htu : SamePlace ts us t u) : R t u := by
  obtain ⟨i, ht, hu⟩ := htu
  obtain ⟨hi, rfl⟩ := List.getElem?_eq_some_iff.mp ht
  obtain ⟨hi', rfl⟩ := List.getElem?_eq_some_iff.mp hu
  exact h.get hi hi'

/-! ### Lines -/

/-- The error with all lines forgotten. -/
def ParseError.eraseLines : ParseError → ParseError
  | unexpectedToken expected found _ => unexpectedToken expected found 0
  | unterminatedBlock block _ _ => unterminatedBlock block 0 0
  | mismatchedParentheses found _ => mismatchedParentheses found 0
  | missingOperand operator found _ => missingOperand operator found 0
  | invalidExpression fault found _ => invalidExpression fault found 0

/-- What was read, or why nothing was, with all lines forgotten. -/
def resultUpToLines (result : Except ParseError Program) : Except ParseError Program :=
  (result.map Program.eraseLines).mapError ParseError.eraseLines

/-- The kind and the text of a token. -/
def Token.kindAndLexeme (t : Token) : Kind × String :=
  (t.kind, t.lexeme)

/-- The tokens differ at most in their lines. -/
def Token.SameText (t u : Token) : Prop :=
  t.kindAndLexeme = u.kindAndLexeme

namespace Token.SameText

variable {t u : Token}

private theorem kind_eq (h : t.SameText u) : t.kind = u.kind :=
  congrArg Prod.fst h

private theorem lexeme_eq (h : t.SameText u) : t.lexeme = u.lexeme :=
  congrArg Prod.snd h

private theorem describe_eq (h : t.SameText u) : t.describe = u.describe := by
  simp only [describe, h.kind_eq, h.lexeme_eq]

end Token.SameText

private theorem Relabelling.forgetLines_identifies : forgetLines.Identifies Token.SameText :=
  fun t u h => ⟨by simp only [forgetLines, h.kind_eq, h.lexeme_eq], rfl⟩

/-- Errors about tokens of the same text are the same up to their lines. -/
private theorem ParseError.Alike.eraseLines_eq {e f : ParseError}
    (h : ParseError.Alike Token.SameText e f) : e.eraseLines = f.eraseLines := by
  cases h with
  | unexpectedToken _ h => rw [eraseLines, eraseLines, h.describe_eq]
  | unterminatedBlock => rfl
  | mismatchedParentheses _ h => rw [eraseLines, eraseLines, h.describe_eq]
  | missingOperand hop h => rw [eraseLines, eraseLines, h.describe_eq, hop.lexeme_eq]
  | invalidExpression _ h => rw [eraseLines, eraseLines, h.describe_eq]

private theorem ResultAlike.upToLines_eq {x y : Except ParseError Program}
    (h : ResultAlike Token.SameText (Program.Alike Token.SameText) x y) :
    resultUpToLines x = resultUpToLines y := by
  cases h with
  | ok hp => exact congrArg Except.ok (hp.relabel_eq Relabelling.forgetLines_identifies)
  | error he => exact congrArg Except.error he.eraseLines_eq

/-! ### The main result -/

/-- **Kinds alone decide.** Where two lists of tokens agree in kind place by place, each of any
number of readings, one taken up where the other stopped, gives programs of the same shape or errors
of the same sort, and these show the tokens in the same places of the two closed lists. So sources
whose tokens agree in kind and text are read alike up to lines. -/
theorem parseTimes_alike_of_kinds :
    (∀ (ts us : List Token) (n : Nat), ts.map Token.kind = us.map Token.kind →
      List.Forall₂
        (ResultAlike (SamePlace (closeTokens ts) (closeTokens us))
          (Program.Alike (SamePlace (closeTokens ts) (closeTokens us))))
        ((Input.ofTokens ts).parseTimes n) ((Input.ofTokens us).parseTimes n)) ∧
    (∀ source source' : String,
      (scan source).tokens.map Token.kindAndLexeme = (scan source').tokens.map Token.kindAndLexeme →
      resultUpToLines (parse source) = resultUpToLines (parse source')) := by
  constructor
  · intro ts us n h
    have hclosed := forall₂_closeTokens (fun _ _ h => h) (fun _ _ => rfl)
      (map_eq_map_iff_forall₂.mp h)
    have hR : KeepsKinds (SamePlace (closeTokens ts) (closeTokens us)) :=
      fun t u htu => htu.rel hclosed
    exact (Input.Alike.ofTokens hR (forall₂_samePlace hclosed.length_eq)).parseTimes hR n
  · intro source source' h
    have hR : KeepsKinds Token.SameText := fun _ _ h => h.kind_eq
    have hclosed := forall₂_closeTokens hR (fun _ _ => rfl) (map_eq_map_iff_forall₂.mp h)
    exact ((Input.Alike.ofTokens hR hclosed).parse hR).1.upToLines_eq

/-- Other words on other lines: the error shows the name that stands in the same place. -/
theorem parseTimes_alike_renamed :
    let ts : List Token := [⟨.kwScript, "SCRIPT", 1⟩, ⟨.identifier, "x", 1⟩]
    let us : List Token := [⟨.kwScript, "script", 4⟩, ⟨.identifier, "total", 7⟩]
    ts.map Token.kind = us.map Token.kind ∧
      List.Forall₂
        (ResultAlike (SamePlace (closeTokens ts) (closeTokens us))
          (Program.Alike (SamePlace (closeTokens ts) (closeTokens us))))
        ((Input.ofTokens ts).parseTimes 2) ((Input.ofTokens us).parseTimes 2) ∧
      (Input.ofTokens ts).parse.result =
        .error (.unexpectedToken (.after .kwArea .kwScript) "identifier 'x'" 1) ∧
      (Input.ofTokens us).parse.result =
        .error (.unexpectedToken (.after .kwArea .kwScript) "identifier 'total'" 7) ∧
      (scan "SCRIPT x").tokens.map Token.kindAndLexeme =
        (scan "SCRIPT\n%%\nx").tokens.map Token.kindAndLexeme ∧
      resultUpToLines (parse "SCRIPT x") = resultUpToLines (parse "SCRIPT\n%%\nx") :=
  ⟨by decide, parseTimes_alike_of_kinds.1 _ _ 2 (by decide), rfl, rfl, by decide +kernel,
    parseTimes_alike_of_kinds.2 _ _ (by decide +kernel)⟩

end ScriptTree
