import ScriptTree.Proofs.Program.Soundness

/-!
# Parsers that refer to themselves

`Parser.recursive` lets a parser call itself to a depth of as many levels as tokens are ahead. That
there are always enough of them is said here by equations: each of the recursive parsers does what
its own step does with the parser itself inside (`recursive_eq`), however many tokens are ahead.

What is asked of a step is that it takes a token before it calls the parser that it is given. As
equations between parsers speak of all readings at once, this is put as an agreement up to a length:
`AgreeBelow n p q` says that `p` and `q` do the same wherever fewer than `n` tokens are ahead, and a
step has to make one more of it (`recursive_eq`).
-/

namespace ScriptTree.Parser

variable {α β : Type} {n : Nat}

/-- The parsers do the same wherever fewer than `n` tokens are ahead. -/
def AgreeBelow (n : Nat) (p q : Parser α) : Prop :=
  ∀ r : Reading, r.input.ahead.length < n → p r = q r

/-- What a sound parser leaves is no longer than what it found. -/
theorem Sound.length_le {p : Parser α} {G : List Token → α → Prop} (hp : Sound p G) {r s : Reading}
    {a : α} (h : p r = .ok a s) : s.input.ahead.length ≤ r.input.ahead.length := by
  obtain ⟨used, hahead, -⟩ := hp h
  simp [hahead]

/-- It is shorter if there are no phrases without tokens. -/
theorem Sound.length_lt {p : Parser α} {G : List Token → α → Prop} (hp : Sound p G)
    (hne : ∀ ts a, G ts a → ts ≠ []) {r s : Reading} {a : α} (h : p r = .ok a s) :
    s.input.ahead.length < r.input.ahead.length := by
  obtain ⟨used, hahead, hG⟩ := hp h
  have := List.length_pos_iff.mpr (hne used a hG)
  simp only [hahead, List.length_append]
  omega

namespace AgreeBelow

variable {p q : Parser α} {f g : α → Parser β} {G : List Token → α → Prop}

theorem refl (p : Parser α) : AgreeBelow n p p :=
  fun _ _ => rfl

theorem mono {m : Nat} (hmn : m ≤ n) (h : AgreeBelow n p q) : AgreeBelow m p q :=
  fun r hr => h r (Nat.lt_of_lt_of_le hr hmn)

/-- What comes first agrees. -/
theorem bind_left (h : AgreeBelow n p q) : AgreeBelow n (p >>= f) (q >>= f) := by
  intro r hr
  rw [bind_apply, bind_apply, h r hr]

/-- What comes second is read where no more tokens are ahead. -/
theorem bind_right (hp : Sound p G) (h : ∀ a, AgreeBelow n (f a) (g a)) :
    AgreeBelow n (p >>= f) (p >>= g) := by
  intro r hr
  rw [bind_apply, bind_apply]
  cases hres : p r with
  | ok a s => exact h a s (Nat.lt_of_le_of_lt (hp.length_le hres) hr)
  | error => rfl

/-- Parsers that agree are followed by parsers that agree. -/
theorem bind (h : AgreeBelow n p q) (hp : Sound q G) (hf : ∀ a, AgreeBelow n (f a) (g a)) :
    AgreeBelow n (p >>= f) (q >>= g) :=
  fun r hr => (h.bind_left r hr).trans (bind_right hp hf r hr)

/-- After a parser that takes a token, one token less is ahead. -/
theorem bind_of_ne_nil (hp : Sound p G) (hne : ∀ ts a, G ts a → ts ≠ [])
    (h : ∀ a, AgreeBelow (n - 1) (f a) (g a)) : AgreeBelow n (p >>= f) (p >>= g) := by
  intro r hr
  rw [bind_apply, bind_apply]
  cases hres : p r with
  | ok a s =>
    have := hp.length_lt hne hres
    exact h a s (by omega)
  | error => rfl

/-- A token that is asked for is one token less for what comes next. -/
theorem expect_bind {k : Kind} {expected : Expectation} {f g : Token → Parser β} (hk : k ≠ .eof)
    (h : ∀ t, AgreeBelow (n - 1) (f t) (g t)) :
    AgreeBelow n (expect k expected >>= f) (expect k expected >>= g) :=
  bind_of_ne_nil (expect_sound hk expected) (by rintro _ t ⟨rfl, -⟩; simp) h

/-- A token that may be missing is one token less if it comes next. -/
theorem accept_bind {k : Kind} {f g : Bool → Parser β} (hk : k ≠ .eof)
    (hyes : AgreeBelow (n - 1) (f true) (g true)) (hno : AgreeBelow n (f false) (g false)) :
    AgreeBelow n (accept k >>= f) (accept k >>= g) := by
  rintro ⟨⟨ahead, m⟩, heads⟩ hr
  rw [bind_apply, bind_apply, accept_apply]
  cases ahead with
  | nil => simpa [Ne.symm hk] using hno _ hr
  | cons t ts =>
    rw [Input.current_cons, Input.next_cons]
    by_cases ht : t.kind = k
    · rw [if_pos ht]
      exact hyes _ (Nat.lt_sub_of_add_lt hr)
    · rw [if_neg ht]
      exact hno _ hr

/-- A token that was looked at is one token less if it is taken. -/
theorem advance_bind {q q' : Unit → Parser β} (h : AgreeBelow (n - 1) (q ()) (q' ())) {r : Reading}
    (hr : r.input.ahead.length < n) (hk : r.input.current.kind ≠ .eof) :
    (advance >>= q) r = (advance >>= q') r := by
  obtain ⟨⟨ahead, m⟩, heads⟩ := r
  cases ahead with
  | nil => exact absurd rfl hk
  | cons t ts => exact h _ (Nat.lt_sub_of_add_lt hr)

theorem begin_bind {head : Token} {q q' : Unit → Parser β} (h : AgreeBelow n (q ()) (q' ())) :
    AgreeBelow n (begin head >>= q) (begin head >>= q') :=
  fun _ hr => h _ hr

/-- What depends on the next token is compared reading by reading. -/
theorem current_bind {f g : Token → Parser β}
    (h : ∀ r : Reading, r.input.ahead.length < n → f r.input.current r = g r.input.current r) :
    AgreeBelow n (current >>= f) (current >>= g) :=
  fun r hr => h r hr

/-- The levels of two recursions agree if their steps keep agreement. -/
theorem recursive {atEnd : Parser α} {step step' : Parser α → Parser α}
    (h : ∀ p q, AgreeBelow n p q → AgreeBelow n (step p) (step' q)) :
    AgreeBelow n (recursive atEnd step) (Parser.recursive atEnd step') := by
  have level (l : Nat) : AgreeBelow n (unroll atEnd step l) (unroll atEnd step' l) := by
    induction l with
    | zero => exact .refl _
    | succ l ih => exact h _ _ ih
  exact fun r hr => level _ r hr

end AgreeBelow

/-- **Levels enough.** A recursive parser does what its step does with the parser itself inside, if
the step does at the end of the input what is said to be done there, and otherwise takes a token
before it calls the parser that it is given. `P` is what the step may rely on in that parser. -/
theorem recursive_eq {atEnd : Parser α} {step : Parser α → Parser α} (P : Parser α → Prop)
    (hend : P atEnd) (hstep : ∀ p, P p → P (step p))
    (hstop : ∀ (p : Parser α) (r : Reading), r.input.ahead = [] → step p r = atEnd r)
    (hagree : ∀ n p q, P q → AgreeBelow n p q → AgreeBelow (n + 1) (step p) (step q)) :
    recursive atEnd step = step (recursive atEnd step) := by
  have hlevel (l : Nat) : P (unroll atEnd step l) := by
    induction l with
    | zero => exact hend
    | succ l ih => exact hstep _ ih
  have hnil (l : Nat) {r : Reading} (hr : r.input.ahead = []) :
      unroll atEnd step l r = atEnd r := by
    cases l with
    | zero => rfl
    | succ l => exact hstop _ r hr
  -- Two levels agree on everything that both are enough for.
  have agree (n : Nat) : ∀ l m, n ≤ l + 1 → n ≤ m + 1 →
      AgreeBelow n (unroll atEnd step l) (unroll atEnd step m) := by
    induction n with
    | zero => exact fun _ _ _ _ r hr => absurd hr (Nat.not_lt_zero _)
    | succ n ih =>
      intro l m hl hm r hr
      by_cases hahead : r.input.ahead = []
      · rw [hnil l hahead, hnil m hahead]
      · have hpos := List.length_pos_iff.mpr hahead
        obtain ⟨l, rfl⟩ : ∃ l', l = l' + 1 := ⟨l - 1, by omega⟩
        obtain ⟨m, rfl⟩ : ∃ m', m = m' + 1 := ⟨m - 1, by omega⟩
        exact hagree n _ _ (hlevel m) (ih l m (by omega) (by omega)) r hr
  funext r
  let l := r.input.ahead.length
  have hinner : AgreeBelow l (recursive atEnd step) (unroll atEnd step l) := fun s hs =>
    agree (s.input.ahead.length + 1) _ l (Nat.le_refl _) (by omega) s (Nat.lt_succ_self _)
  calc recursive atEnd step r
      = unroll atEnd step (l + 1) r :=
        agree (l + 1) l (l + 1) (Nat.le_refl _) (by omega) r (Nat.lt_succ_self _)
    _ = step (recursive atEnd step) r :=
        (hagree l _ _ (hlevel l) hinner r (Nat.lt_succ_self _)).symm

/-- The same where nothing has to be relied on. -/
private theorem recursive_eq_of_agree {atEnd : Parser α} {step : Parser α → Parser α}
    (hstop : ∀ (p : Parser α) (r : Reading), r.input.ahead = [] → step p r = atEnd r)
    (hagree : ∀ n p q, AgreeBelow n p q → AgreeBelow (n + 1) (step p) (step q)) :
    recursive atEnd step = step (recursive atEnd step) :=
  recursive_eq (fun _ => True) trivial (fun _ _ => trivial) hstop fun n p q _ => hagree n p q

/-! ### Lists -/

/-- Nothing is taken at the end of the input. -/
private theorem accept_bind_of_nil {k : Kind} {f : Bool → Parser β} (hk : k ≠ .eof) {r : Reading}
    (hr : r.input.ahead = []) : (accept k >>= f) r = f false r := by
  have hcur : r.input.current.kind ≠ k := by simpa [Input.current, hr, Input.last] using Ne.symm hk
  rw [bind_apply, accept_apply, if_neg hcur]

/-- Names are read one by one, as long as a comma comes next. -/
theorem moreNames_eq : moreNames = (do
    if ← accept .comma then
      let name ← identifier .nextScan
      return name :: (← moreNames)
    else
      return []) := by
  refine recursive_eq_of_agree (fun p r hr => accept_bind_of_nil (by decide) hr) ?_
  intro n p q h
  exact .accept_bind (by decide) (.bind_right (identifier_sound _) fun _ => h.bind_left) (.refl _)

theorem moreValues_eq : moreValues = (do
    if ← accept .ampersand then
      let value ← expression .reject
      return value :: (← moreValues)
    else
      return []) := by
  refine recursive_eq_of_agree (fun p r hr => accept_bind_of_nil (by decide) hr) ?_
  intro n p q h
  exact .accept_bind (by decide) (.bind_right (expression_sound _) fun _ => h.bind_left) (.refl _)

/-- Variables are read one by one, as long as a comma comes next. -/
theorem moreEntries_eq (typeName : Token) : moreEntries typeName = (do
    if ← accept .comma then
      let d ← entry typeName
      return d :: (← moreEntries typeName)
    else
      return []) := by
  refine recursive_eq_of_agree (fun p r hr => accept_bind_of_nil (by decide) hr) ?_
  intro n p q h
  exact .accept_bind (by decide) (.bind_right (entry_sound typeName) fun _ => h.bind_left) (.refl _)

/-- Declarations are read one by one, as long as a type keyword comes next. -/
theorem declarations_eq : declarations = (do
    let t ← current
    if t.kind.isTypeKeyword then
      advance
      let ds ← declarationRest t
      return ds ++ (← declarations)
    else
      return []) := by
  rw [declarations_eq_recursive]
  refine recursive_eq_of_agree ?_ ?_
  · rintro p ⟨⟨_, n⟩, heads⟩ rfl
    rfl
  · intro n p q h
    refine .current_bind fun r hr => ?_
    split
    · next htype =>
      have hne := Kind.ne_eof_of_isTypeKeyword htype
      refine AgreeBelow.advance_bind ?_ hr hne
      exact .bind_right (declarationRest_sound _) fun _ => h.bind_left
    · rfl

/-! ### Statements -/

/-- A statement has at least one token. -/
theorem ne_nil_of_statement {ts : List Token} {s : Stmt} (h : Stmt.Derives ts s) : ts ≠ [] := by
  cases h <;> simp

section Compound

variable {inner inner' : Parser Stmt} (hinner : Sound inner Stmt.Derives)

include hinner

/-- Statements are read one by one, up to an `END` or the end of the input. -/
theorem statements_eq : statements inner = (do
    match (← current).kind with
    | .kwEnd | .eof => return []
    | _ =>
      let s ← inner
      return s :: (← statements inner)) := by
  refine recursive_eq_of_agree ?_ ?_
  · rintro p ⟨⟨_, n⟩, heads⟩ rfl
    rfl
  · intro n p q h
    refine .current_bind fun r hr => ?_
    have hmore : AgreeBelow (n + 1) (do let s ← inner; return s :: (← p))
        (do let s ← inner; return s :: (← q)) :=
      .bind_of_ne_nil hinner (fun _ _ => ne_nil_of_statement) fun _ => h.bind_left
    generalize r.input.current.kind = k
    split
    · rfl
    · rfl
    · exact hmore r hr

/-- Alternatives are read one by one, as long as an `ELSE` comes next. -/
theorem alternatives_eq : alternatives inner = (do
    if ← accept .kwElse then
      if ← accept .kwIf then
        let cond ← expression .reject
        let body ← block inner .kwIf .elseIfBlock
        return .elseIf cond body (← alternatives inner)
      else
        let body ← block inner .kwIf .elseBlock
        return .otherwise body
    else
      return .done) := by
  refine recursive_eq_of_agree (fun p r hr => accept_bind_of_nil (by decide) hr) ?_
  intro n p q h
  refine .accept_bind (by decide) ?_ (.refl _)
  refine .accept_bind (by decide) (.bind_right (expression_sound _) fun _ => ?_) (.refl _)
  exact .bind_right (block_sound hinner (by decide) _) fun _ => h.bind_left.mono (Nat.sub_le _ _)

end Compound

/-! ### Statements inside statements -/

section Agree

variable {p q : Parser Stmt} (h : AgreeBelow n p q) (hq : Sound q Stmt.Derives)

include h hq

private theorem statements_agree : AgreeBelow n (statements p) (statements q) := by
  refine .recursive fun more more' hmore => .current_bind fun r hr => ?_
  have hcons : AgreeBelow n (do let s ← p; return s :: (← more))
      (do let s ← q; return s :: (← more')) :=
    .bind h hq fun _ => hmore.bind_left
  generalize r.input.current.kind = k
  split
  · rfl
  · rfl
  · exact hcons r hr

private theorem block_agree {k : Kind} (hk : k ≠ .eof) (place : BlockPlace) :
    AgreeBelow n (block p k place) (block q k place) := by
  refine .expect_bind (by decide) fun opener => .expect_bind hk fun _ => ?_
  exact (statements_agree h hq).bind_left.mono (Nat.le_trans (Nat.sub_le _ _) (Nat.sub_le _ _))

private theorem alternatives_agree : AgreeBelow n (alternatives p) (alternatives q) := by
  refine .recursive fun more more' hmore => ?_
  refine .accept_bind (by decide) ?_ (.refl _)
  refine AgreeBelow.mono (Nat.sub_le _ _) ?_
  have hblock := block_agree h hq (k := .kwIf) (by decide)
  refine .accept_bind (by decide) ?_ ((hblock _).bind_left)
  refine AgreeBelow.mono (Nat.sub_le _ _) (.bind_right (expression_sound _) fun _ => ?_)
  exact .bind (hblock _) (block_sound hq (by decide) _) fun _ => hmore.bind_left

private theorem ifRest_agree : AgreeBelow n (ifRest p) (ifRest q) := by
  refine .bind_right (expression_sound _) fun _ => ?_
  refine .bind (block_agree h hq (by decide) _) (block_sound hq (by decide) _) fun _ => ?_
  exact (alternatives_agree h hq).bind_left

private theorem repeatRest_agree : AgreeBelow n (repeatRest p) (repeatRest q) := by
  refine .bind_right (expect_sound (by decide) _) fun _ => ?_
  refine .bind_right (expression_sound _) fun _ => ?_
  exact (block_agree h hq (by decide) _).bind_left

private theorem forRest_agree : AgreeBelow n (forRest p) (forRest q) := by
  refine .bind_right (expect_sound (by decide) _) fun _ => ?_
  refine .bind_right (assignment_sound _) fun _ => ?_
  refine .bind_right (expect_sound (by decide) _) fun _ => ?_
  refine .bind_right (expression_sound _) fun _ => ?_
  refine .bind_right (expect_sound (by decide) _) fun _ => ?_
  refine .bind_right (assignment_sound _) fun _ => ?_
  refine .bind_right (expect_sound (by decide) _) fun _ => ?_
  exact (block_agree h hq (by decide) _).bind_left

/-- A statement takes a token before it comes to the statements inside. -/
theorem statementWith_agree : AgreeBelow (n + 1) (statementWith p) (statementWith q) := by
  refine .current_bind fun r hr => ?_
  have word {k : Kind} (hcur : r.input.current.kind = k) (hk : k ≠ .eof) {rest rest' : Parser Stmt}
      (hrest : AgreeBelow n rest rest') :
      (advance >>= fun _ => begin r.input.current >>= fun _ => rest) r
        = (advance >>= fun _ => begin r.input.current >>= fun _ => rest') r :=
    AgreeBelow.advance_bind (n := n + 1) (.begin_bind hrest) hr (hcur ▸ hk)
  generalize hk : r.input.current.kind = k
  split
  · rfl
  · rfl
  · exact word hk (by decide) (ifRest_agree h hq)
  · exact word hk (by decide) (repeatRest_agree h hq)
  · exact word hk (by decide) (forRest_agree h hq)
  · rfl

end Agree

/-- A statement is read as its rule says, with statements inside it that are read in the same
way. -/
theorem statement_eq : statement = statementWith statement := by
  refine recursive_eq (Sound · Stmt.Derives) (.refuse _) (fun _ => statementWith_sound) ?_ ?_
  · rintro p ⟨⟨_, n⟩, heads⟩ rfl
    rfl
  · exact fun n p q hq h => statementWith_agree h hq

end ScriptTree.Parser
