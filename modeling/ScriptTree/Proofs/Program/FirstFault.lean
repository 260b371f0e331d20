import ScriptTree.Proofs.Program.Predictive

/-!
# The first thing that is wrong

Where the reading of a program stops, compared with where the tokens cease to begin a program.

* `raised_of_parse`: on every failure the tokens before the place of the error begin a program, but
  for those that are overread. Overreading is bounded by the expression that it happens in, and
  only an infix operator in the place of an operand starts it.
* `overread_misplacedStar`: it does happen. The operator applies first, and to an operand that is
  not its own.
* `parse_take_of_parse`: what lacks the end of a program begins a program, and so it is read up to
  its end and fails just there.
-/

namespace ScriptTree

open ScriptTree.Parser

/-- The tokens are the first ones of a list that is read as a program. -/
def BeginsProgram (us : List Token) : Prop :=
  ∃ vs p, (Input.ofTokens (us ++ vs)).parse.result = .ok p

/-- Reading the tokens `ts` fails before the tokens `ws`: the error describes the first of them, or
the end of the input, and nothing behind it is taken. -/
structure RaisedAt (ts : List Token) (ws : List Token) : Prop where
  found : ∃ e, (Input.ofTokens ts).parse.result = .error e ∧ e.found = foundAt ws
  rest : (Input.ofTokens ts).parse.rest.ahead = ws ∨ (Input.ofTokens ts).parse.rest.ahead = ws.tail

/-! ### Outcomes -/

namespace Input

variable {i : Input} {e : ParseError} {p : Program}

theorem exists_of_result_eq_error (h : i.parse.result = .error e) :
    ∃ s, program ⟨i, []⟩ = .error e s ∧ i.parse.rest = s.input := by
  unfold parse at h ⊢
  cases hres : program ⟨i, []⟩ with
  | ok p s =>
    rw [hres] at h
    contradiction
  | error e' s =>
    rw [hres] at h
    obtain rfl := Except.error.inj h
    exact ⟨s, rfl, rfl⟩

private theorem exists_of_result_eq_ok (h : i.parse.result = .ok p) :
    ∃ s, program ⟨i, []⟩ = .ok p s := by
  unfold parse at h
  cases hres : program ⟨i, []⟩ with
  | ok q s =>
    rw [hres] at h
    obtain rfl := Except.ok.inj h
    exact ⟨s, rfl⟩
  | error e s =>
    rw [hres] at h
    contradiction

/-- Tokens without an end mark are all ahead. -/
private theorem ahead_ofTokens_of_forall {ts : List Token} (h : ∀ t ∈ ts, t.kind ≠ .eof) :
    (ofTokens ts).ahead = ts := by
  have hall : ∀ t ∈ ts, (t.kind != .eof) = true := by simpa using h
  rw [ahead_ofTokens, ← List.append_nil ts, List.takeWhile_append_of_pos hall, List.takeWhile_nil]

end Input

/-! ### Beginnings of programs -/

private theorem beginsProgram_of_begins {us : List Token} (h : Begins Program.Derives us) :
    BeginsProgram us := by
  obtain ⟨vs, p, hp⟩ := h
  refine ⟨vs, p, (Input.result_parse_eq_ok_iff fun _ => Input.kind_ne_eof_of_mem_ahead).mpr ?_⟩
  rwa [Input.ahead_ofTokens_of_forall hp.kind_ne_eof]

/-- What is rejected begins no program. -/
theorem not_beginsProgram_of_rejects {us : List Token} (hus : ∀ t ∈ us, t.kind ≠ .eof)
    (h : Rejects program us) : ¬ BeginsProgram us := by
  rintro ⟨vs, p, hp⟩
  obtain ⟨s, hok⟩ := Input.exists_of_result_eq_ok hp
  refine h ?_ hok
  have hall : ∀ t ∈ us, (t.kind != .eof) = true := by simpa using hus
  rw [Input.ahead_ofTokens, List.takeWhile_append_of_pos hall]
  exact List.prefix_append _ _

/-- **The first fault.** Whenever reading fails, the tokens before the first end mark are divided
into three parts. The first part begins a program, and it is the longest that does. The second part
is overread: it is empty, or it starts with an infix operator in the place of an operand and goes on
with tokens that an expression can have. Before the third part the error is raised. -/
theorem raised_of_parse {ts : List Token} {e : ParseError}
    (h : (Input.ofTokens ts).parse.result = .error e) :
    ∃ us vs ws, ts.takeWhile (·.kind != .eof) = us ++ (vs ++ ws) ∧
      BeginsProgram us ∧ (∀ t ∈ (vs ++ ws).head?, ¬ BeginsProgram (us ++ [t])) ∧
        Overread vs ∧ (vs ≠ [] → ∀ x : Token, x.kind.isOperand = true → BeginsProgram (us ++ [x])) ∧
          RaisedAt ts ws := by
  obtain ⟨s, herr, hrest⟩ := Input.exists_of_result_eq_error h
  have hfault := ((program_predictive _).predicts _ (Nat.lt_succ_self _)).error herr
  obtain @⟨us, vs, ws, hahead, hus, hreject, hover, hoperand, hfound, hpos⟩ := hfault
  have hahead : (Input.ofTokens ts).ahead = us ++ (vs ++ ws) := hahead
  refine ⟨us, vs, ws, by rw [← Input.ahead_ofTokens, hahead], beginsProgram_of_begins hus,
    fun t ht => ?_, hover, fun hvs x hx => beginsProgram_of_begins (hoperand hvs x hx),
    ⟨e, h, hfound⟩, hrest ▸ hpos⟩
  refine not_beginsProgram_of_rejects (fun u hu => ?_) (hreject t ht)
  obtain ⟨zs, hzs⟩ := List.head?_eq_some_iff.mp ht
  have hmem : u ∈ (Input.ofTokens ts).ahead := by
    rw [hahead, hzs, List.append_cons]
    exact List.mem_append_left zs hu
  exact Input.kind_ne_eof_of_mem_ahead hmem

/-- A statement that assigns `1 + * 2`, alone in a script. -/
def misplacedStar : List Token :=
  [⟨.kwScript, "SCRIPT", 1⟩, ⟨.kwArea, "AREA", 1⟩, ⟨.kwStart, "START", 1⟩, ⟨.kwScript, "SCRIPT", 1⟩,
    ⟨.identifier, "x", 1⟩, ⟨.equal, "=", 1⟩, ⟨.intLiteral, "1", 1⟩, ⟨.plus, "+", 1⟩,
    ⟨.star, "*", 1⟩, ⟨.intLiteral, "2", 1⟩, ⟨.dollar, "$", 1⟩, ⟨.kwEnd, "END", 1⟩,
    ⟨.kwScript, "SCRIPT", 1⟩]

/-- This is divided before the `*` and before the `$`. -/
theorem raised_of_parse_misplacedStar :
    (Input.ofTokens misplacedStar).parse.result = .error (.missingOperand "+" "'$'" 1) ∧
      ∃ us vs ws, misplacedStar.takeWhile (·.kind != .eof) = us ++ (vs ++ ws) ∧
        BeginsProgram us ∧ (∀ t ∈ (vs ++ ws).head?, ¬ BeginsProgram (us ++ [t])) ∧
          Overread vs ∧
            (vs ≠ [] → ∀ x : Token, x.kind.isOperand = true → BeginsProgram (us ++ [x])) ∧
              RaisedAt misplacedStar ws :=
  ⟨rfl, raised_of_parse rfl⟩

/-! ### Overreading -/

/-- No program has a `*` behind a `+`. -/
private theorem rejects_take_misplacedStar : Rejects program (misplacedStar.take 9) := by
  have hexpr : Rejects (expression .reject) ((misplacedStar.take 9).drop 6) := by
    intro r s e ⟨zs, hzs⟩ hok
    -- Two operators wait for two operands each, and there is one operand.
    have hshort : Automaton.Short ⟨⟨[.literal ⟨.intLiteral, "1", 1⟩],
        [.binary ⟨.star, "*", 1⟩, .binary ⟨.plus, "+", 1⟩]⟩, true⟩ := by
      unfold Automaton.Short
      decide
    unfold expression at hok
    rw [← hzs] at hok
    split at hok
    · next e' rest hrun => exact hshort.run_ne_ok r.input.last zs e' (congrArg Prod.fst hrun)
    · contradiction
  have hassign : Rejects (assignment .reject) ((misplacedStar.take 9).drop 4) :=
    .bind_right [_] (fun ts m => .expect rfl _ _ m)
      (.bind_right [_] (fun ts m => .expect rfl _ _ m) hexpr.bind_left)
  have hstatement : Rejects statement ((misplacedStar.take 9).drop 4) := by
    rw [statement_eq]
    exact .current_bind hassign.bind_left
  have hstatements : Rejects (statements statement) ((misplacedStar.take 9).drop 4) := by
    rw [statements_eq statement_sound]
    exact .current_bind hstatement.bind_left
  have hdeclarations (ts : List Token) (m : Nat) :
      Reads declarations ⟨[] ++ ((misplacedStar.take 9).drop 4 ++ ts), m⟩ []
        ⟨(misplacedStar.take 9).drop 4 ++ ts, m⟩ :=
    declarations_reads 0 (Nat.le_refl _) .nil rfl
  refine .bind_right [_] (fun ts m => .expect rfl _ _ m) ?_
  refine .bind_right [_] (fun ts m => .expect rfl _ _ m) ?_
  refine .bind_right [_] (fun ts m => .expect rfl _ _ m) ?_
  refine .bind_right [_] (fun ts m => .expect rfl _ _ m) ?_
  exact .bind_right [] hdeclarations hstatements.bind_left.bind_left

/-- The automaton takes the `*` and the `2`, and finds out at the `$`. -/
theorem overread_misplacedStar :
    RaisedAt misplacedStar (misplacedStar.drop 10) ∧
      (∀ k, RaisedAt misplacedStar (misplacedStar.drop k) → k = 10) ∧
        ¬ BeginsProgram (misplacedStar.take 10) := by
  have hresult : (Input.ofTokens misplacedStar).parse.result
      = .error (.missingOperand "+" "'$'" 1) := rfl
  refine ⟨⟨⟨_, hresult, by decide⟩, .inl rfl⟩, fun k hk => ?_, ?_⟩
  · obtain ⟨e, he, hfound⟩ := hk.found
    obtain rfl := Except.error.inj (hresult.symm.trans he)
    have hall : ∀ l < 14, "'$'" = foundAt (misplacedStar.drop l) → l = 10 := by decide
    rcases Nat.lt_or_ge k 14 with hlt | hge
    · exact hall k hlt hfound
    · rw [List.drop_eq_nil_of_le (Nat.le_trans (by decide) hge)] at hfound
      exact absurd hfound (by decide)
  · refine not_beginsProgram_of_rejects (by decide) ?_
    exact rejects_take_misplacedStar.append [⟨.intLiteral, "2", 1⟩]

/-! ### Truncated programs -/

/-- Nothing comes after a program. -/
theorem Program.Derives.rejects {us : List Token} {p : Program} (h : Program.Derives us p)
    {t : Token} (ht : t.kind ≠ .eof) : Rejects program (us ++ [t]) := by
  obtain @⟨word, area, ds, us, bs, decls, stmts, hword, harea, hdecls, hstmts, hframe⟩ := h
  obtain @⟨start, opening, ending, closing, hstart, hopening, hending, hclosing⟩ := hframe
  have hblock (ts : List Token) (m : Nat) :
      Reads (blockRest statement .kwScript start.line)
        ⟨(us ++ [ending, closing]) ++ ([t] ++ ts), m⟩ stmts ⟨[t] ++ ts, m⟩ := by
    simpa using blockRest_reads (statement_reads us.length) (Nat.le_refl _) hstmts hending hclosing
  have hdeclarations (ts : List Token) (m : Nat) :
      Reads declarations ⟨ds ++ (((us ++ [ending, closing]) ++ [t]) ++ ts), m⟩ decls
        ⟨((us ++ [ending, closing]) ++ [t]) ++ ts, m⟩ := by
    refine declarations_reads ds.length (Nat.le_refl _) hdecls ?_
    have hkind :
        (Input.current ⟨us ++ ending :: closing :: t :: ts, m⟩).kind.isTypeKeyword = false :=
      isTypeKeyword_of_statements hstmts hending
    simpa using hkind
  have hmarks : word :: area :: start :: opening :: (ds ++ us ++ [ending, closing]) ++ [t]
      = [word] ++ ([area] ++ ([start] ++ ([opening] ++ (ds ++ ((us ++ [ending, closing]) ++ [t])))))
      := by simp
  rw [hmarks]
  refine .bind_right _ (fun ts m => .expect hword _ _ m) ?_
  refine .bind_right _ (fun ts m => .expect harea _ _ m) ?_
  refine .bind_right _ (fun ts m => .expect hstart _ _ m) ?_
  refine .bind_right _ (fun ts m => .expect hopening _ _ m) ?_
  refine .bind_right _ hdeclarations (.bind_right _ hblock (.current_bind ?_))
  rw [if_neg ht]
  intro r s b _ hok
  contradiction

/-- **Truncation.** A program that lacks some tokens at its end is not read, and it is at the end
that the fault is noticed, after all tokens that are there. -/
theorem parse_take_of_parse {ts : List Token} {p : Program}
    (h : (Input.ofTokens ts).parse.result = .ok p) {k : Nat}
    (hk : k < (ts.takeWhile (·.kind != .eof)).length) :
    ∃ e, (Input.ofTokens ((ts.takeWhile (·.kind != .eof)).take k)).parse.result = .error e ∧
      e.found = "end of input" ∧
      (Input.ofTokens ((ts.takeWhile (·.kind != .eof)).take k)).parse.rest.ahead = [] := by
  have hder := (Input.parse_eq_ok_iff_derives ts p).mp h
  generalize ts.takeWhile (·.kind != .eof) = us at hk hder ⊢
  have hahead : (Input.ofTokens (us.take k)).ahead = us.take k :=
    Input.ahead_ofTokens_of_forall fun t ht => hder.kind_ne_eof t (List.mem_of_mem_take ht)
  obtain ⟨s, hok⟩ : ∃ s, program ⟨⟨us, 1⟩, []⟩ = .ok p s := by
    obtain ⟨heads, hok⟩ := program_reads (n := 1) hder []
    exact ⟨_, hok⟩
  -- The program that is read whole begins with whatever the shorter list is said to reject.
  have haccept (vs : List Token) (hvs : vs <+: us) : ¬ Rejects program vs :=
    fun hreject => hreject hvs hok
  cases hres : (Input.ofTokens (us.take k)).parse.result with
  | ok q =>
    have hq := (Input.result_parse_eq_ok_iff fun _ => Input.kind_ne_eof_of_mem_ahead).mp hres
    rw [hahead] at hq
    refine absurd (hq.rejects (hder.kind_ne_eof us[k] (List.getElem_mem hk))) (haccept _ ?_)
    rw [List.take_append_getElem hk]
    exact List.take_prefix _ us
  | error e =>
    obtain ⟨s', herr, hrest⟩ := Input.exists_of_result_eq_error hres
    have hfault := ((program_predictive _).predicts _ (Nat.lt_succ_self _)).error herr
    obtain @⟨us', vs, ws, hsplit, -, hreject, -, -, hfound, hpos⟩ := hfault
    have hsplit : us.take k = us' ++ (vs ++ ws) := hahead.symm.trans hsplit
    rcases hnil : vs ++ ws with _ | ⟨t, zs⟩
    · obtain ⟨rfl, rfl⟩ := List.append_eq_nil_iff.mp hnil
      exact ⟨e, rfl, hfound, by rw [hrest]; simpa using hpos⟩
    · refine absurd (hreject t (by simp [hnil])) (haccept _ ?_)
      refine List.IsPrefix.trans ⟨zs, ?_⟩ (List.take_prefix k us)
      rw [hsplit, hnil]
      simp

/-- A script that ends inside a group. -/
theorem parse_take_of_parse_group :
    let token (k : Kind) : Token := ⟨k, k.written, 1⟩
    let ts := [.kwScript, .kwArea, .kwStart, .kwScript, .kwPrint, .colon, .leftParen, .identifier,
      .rightParen, .dollar, .kwEnd, .kwScript].map token
    let p : Program := ⟨[], [.print [.grouping (.identifier (token .identifier))]]⟩
    (Input.ofTokens ts).parse.result = .ok p ∧ 8 < (ts.takeWhile (·.kind != .eof)).length ∧
      ∃ e, (Input.ofTokens ((ts.takeWhile (·.kind != .eof)).take 8)).parse.result = .error e ∧
        e.found = "end of input" ∧
        (Input.ofTokens ((ts.takeWhile (·.kind != .eof)).take 8)).parse.rest.ahead = [] := by
  intro token ts p
  have h : (Input.ofTokens ts).parse.result = .ok p := rfl
  have hk : 8 < (ts.takeWhile (·.kind != .eof)).length := by decide
  exact ⟨h, hk, parse_take_of_parse h hk⟩

end ScriptTree
